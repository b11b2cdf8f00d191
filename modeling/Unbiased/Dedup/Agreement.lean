/-
# Agreement of the dedup protocol

Any number of clients, each with a stub of its own, whatever the interleaving:
every call gets one reply, its own, and of the documents with one signature one
at most is found new.
-/

import Unbiased.Dedup.ProtocolSteps
import Unbiased.Dedup.TextArchive

namespace Unbiased

open Unbiased.Math

section Clients

variable {Client : Type} [DecidableEq Client] {transport : Transport Client} {archive : Archive}
  {hashCombine : HashCombine} {docs : List DocSignature} {actions : List (NetAction Client)}
  {s t final : Net Client Client}

/-- A run of a server made from the stored documents, and its clients. -/
def protocolRun (transport : Transport Client) (archive : Archive) (hashCombine : HashCombine)
    (docs : List DocSignature) (actions : List (NetAction Client)) :
    Option (Net Client Client) :=
  (ArticleDedup.make hashCombine docs).bind fun dedup =>
    run (Net.step transport archive hashCombine id) (Net.start dedup) actions

/-- A client that owns its stub waits for its own call before it begins another. -/
theorem inTurn_of_own {action : NetAction Client}
    (hstep : s.step transport archive hashCombine id action = some t) : InTurn id s action := by
  cases action with
  | send client message =>
      intro other hother
      obtain rfl : other = client := hother
      cases hcalls : s.calls other with
      | none => rfl
      | some asked =>
          simp only [Net.step, Net.send, hcalls] at hstep
          cases hstep
  | deliverRequest idx => trivial
  | serve => trivial
  | deliverReply idx => trivial
  | receive client => trivial

/-- **Run lemma.** -/
theorem exists_represents (hrun : protocolRun transport archive hashCombine docs actions =
    some final) :
    ∃ progress, Represents transport archive hashCombine id docs actions progress final := by
  have ⟨dedup, hmake, hrun⟩ := Option.bind_eq_some_iff.mp hrun
  apply run_invariant (P := fun hist s =>
    ∃ progress, Represents transport archive hashCombine id docs hist progress s) _ _ hrun
  · exact ⟨_, Represents.start hmake⟩
  · rintro hist s action t ⟨progress, hprogress⟩ hstep
    exact hprogress.step (inTurn_of_own hstep) hstep

/-- What the clients and the server agree on. -/
structure Agreement (transport : Transport Client) (hashCombine : HashCombine)
    (docs : List DocSignature) (actions : List (NetAction Client))
    (final : Net Client Client) : Prop where
  thrown : final.thrown = []
  /-- A call that has returned was answered once, to its own client, and returned
  this answer. -/
  answered : ∀ client message res, (client, message, res) ∈ final.completed →
    (transport.identity client, message, res) ∈ final.served ∧
      (final.served.map fun entry => entry.2.1).count message = 1
  /-- The calls of a client return in order, and it waits for one at most. -/
  returned : ∀ client, ∃ waiting,
    logOf (· = client) (NetAction.sends actions) =
      (logOf (· = client) final.completed).map Prod.fst ++ waiting ∧ waiting.length ≤ 1
  /-- A client gets one reply for each call that has returned, with its answer, and
  one more at most, for the call it waits for. -/
  replied : ∀ client, ∃ waiting,
    logOf (· = client) final.delivered =
      (logOf (· = client) final.completed).map (fun verdict => resStr verdict.2) ++ waiting ∧
      waiting.length ≤ 1 ∧ (final.calls client = none → waiting = [])
  /-- One message with a signature at most is found new. -/
  oneOk : ∀ first second firstMessage secondMessage,
    (first, firstMessage, false) ∈ final.completed →
    (second, secondMessage, false) ∈ final.completed →
    firstMessage.2 = secondMessage.2 → firstMessage = secondMessage
  /-- None is if it shares a band with a stored document that is not asked about. -/
  noOk : ∀ client message, (client, message, false) ∈ final.completed →
    ∀ doc ∈ docs, (∀ entry ∈ NetAction.sends actions, entry.2.1 ≠ doc.1) →
      ¬ ShareBand hashCombine message.2 doc.2

/-- **Agreement of the protocol.** In every run with different ids, whatever the
interleaving. -/
theorem agreement_of_run
    (hrun : protocolRun transport archive hashCombine docs actions = some final)
    (hids : ((NetAction.sends actions).map fun entry => entry.2.1).Nodup) :
    Agreement transport hashCombine docs actions final := by
  have ⟨progress, h⟩ := exists_represents hrun
  have hserved := h.served_nodup hids
  have hlog : (final.served.map Prod.snd).map Prod.snd =
      verdicts hashCombine docs ((final.served.map Prod.snd).map Prod.fst) := by
    rw [List.map_map, List.map_map]
    exact h.inTurn.verdicts
  have hlogIds : ((final.served.map Prod.snd).map fun verdict => verdict.1.1).Nodup := by
    rw [List.map_map]
    exact hserved
  have hanswered : ∀ client message res, (client, message, res) ∈ final.completed →
      (message, res) ∈ final.served.map Prod.snd := by
    intro client message res hmem
    exact List.mem_map_of_mem (f := Prod.snd) (h.served_of_completed hmem)
  exact {
    thrown := h.thrown
    answered := by
      intro client message res hmem
      have hmessages : (final.served.map fun entry => entry.2.1).Nodup := by
        apply List.Nodup.of_map Prod.fst
        rw [List.map_map]
        exact hserved
      refine ⟨h.served_of_completed hmem, List.count_eq_one_of_mem hmessages ?_⟩
      exact List.mem_map_of_mem (f := fun entry : Frame × Verdict => entry.2.1)
        (h.served_of_completed hmem)
    returned := by
      intro client
      refine ⟨_, (h.history client).sent, ?_⟩
      cases progress client with
      | none => exact Nat.zero_le 1
      | some call => exact le_rfl
    replied := by
      intro client
      refine ⟨_, (h.history client).delivered, ?_, ?_⟩
      · unfold Call.arrivedOf
        split
        · exact le_rfl
        · exact Nat.zero_le 1
      · intro hidle
        cases hcall : progress client with
        | none => rfl
        | some call =>
            have howner := h.callers.owner client call hcall
            rw [show call.thread = client from howner.1, hidle] at howner
            cases howner.2
    oneOk := by
      intro first second firstMessage secondMessage hfirst hsecond hsignature
      exact eq_of_ok hlog hlogIds (hanswered _ _ _ hfirst) (hanswered _ _ _ hsecond) hsignature
    noOk := by
      intro client message hmem doc hdoc hother
      have ⟨thread, _, hsent⟩ := h.sent_of_served rfl (h.served_of_completed hmem)
      exact not_shareBand_of_ok hlog (hanswered _ _ _ hmem) hdoc (hother _ hsent).symm }

/-- After every run, a client that waits is not stuck. -/
theorem exists_step_of_run
    (hrun : protocolRun transport archive hashCombine docs actions = some final)
    {client : Client} {message : DocSignature} (hwaits : final.calls client = some message) :
    ∃ action, (∀ other asked, action ≠ .send other asked) ∧
      (final.step transport archive hashCombine id action).isSome := by
  have ⟨progress, h⟩ := exists_represents hrun
  exact h.exists_step hwaits

end Clients

/-! ## Two clients -/

/-- Two clients with identities of five bytes. -/
def twoClients : Transport Bool where
  identity client := [0, 0, 0, 0, if client then 2 else 1]
  peer frame :=
    if frame = [0, 0, 0, 0, 2] then some true
    else if frame = [0, 0, 0, 0, 1] then some false
    else none
  peer_eq_some := by
    intro frame client
    by_cases htrue : frame = [0, 0, 0, 0, 2]
    · rw [if_pos htrue, htrue]
      cases client with
      | false => decide
      | true => decide
    · rw [if_neg htrue]
      by_cases hfalse : frame = [0, 0, 0, 0, 1]
      · rw [if_pos hfalse, hfalse]
        cases client with
        | false => decide
        | true => decide
      · rw [if_neg hfalse]
        cases client with
        | false => simpa using hfalse
        | true => simpa using htrue

/-- Both ask about the same signature, and the second request overtakes the first. -/
def twoCalls : List (NetAction Bool) :=
  [NetAction.send false ([97], fun _ => 7), NetAction.send true ([98], fun _ => 7),
    NetAction.deliverRequest 1] ++ List.replicate 6 .serve ++ [NetAction.deliverRequest 0] ++
    List.replicate 6 .serve ++ [NetAction.deliverReply 1, NetAction.deliverReply 0,
      NetAction.receive false, NetAction.receive true]

/-- They agree. -/
theorem agreement_of_two_calls :
    ∃ final, protocolRun twoClients textArchive manualHashCombine [] twoCalls = some final ∧
      Agreement twoClients manualHashCombine [] twoCalls final := by
  have hsome : (protocolRun twoClients textArchive manualHashCombine [] twoCalls).isSome := by
    decide +kernel
  have ⟨final, hrun⟩ := Option.isSome_iff_exists.mp hsome
  exact ⟨final, hrun, agreement_of_run hrun (by decide +kernel)⟩

end Unbiased
