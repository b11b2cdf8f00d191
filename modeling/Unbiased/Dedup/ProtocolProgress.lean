/-
# Completion of the dedup protocol

A call takes nine steps after it has begun: its request arrives, the server makes six socket
calls, the reply arrives, and the thread receives it. Every step that is not a new
call is one of these nine for some call in progress, so without new calls the parties come to
rest, and they do not before every call has returned.
-/

import Unbiased.Dedup.Agreement
import Unbiased.Math.Potential

namespace Unbiased

open Unbiased.Math

/-- A step of the network, of the server or of a thread that waits. -/
def NetAction.Continues {Thread : Type} (action : NetAction Thread) : Prop :=
  ∀ thread idSign, action ≠ .send thread idSign

/-- How many steps a call is from its return while the server is at this socket call. -/
def ServerPc.remaining : ServerPc → ℕ
  | .recvIdentity => 0
  | .recvDelimiter _ => 7
  | .recvIdSign _ => 6
  | .sendIdentity _ _ => 5
  | .sendDelimiter _ => 4
  | .sendRes _ => 3
  | .stopped => 0

/-- How many steps the calls in progress are from their returns, all together. -/
def Net.remaining {Thread Stub : Type} (s : Net Thread Stub) : ℕ :=
  9 * s.requests.length + 8 * s.inbox.length + s.pc.remaining + 2 * s.replies.length +
    (s.delivered.length - s.completed.length)

/-- Nobody can take a step except to begin a call. -/
def Net.AtRest {Thread Stub : Type} [DecidableEq Thread] [DecidableEq Stub]
    (transport : Transport Stub) (archive : Archive) (hashCombine : HashCombine)
    (stubOf : Thread → Stub) (s : Net Thread Stub) : Prop :=
  ∀ action : NetAction Thread, action.Continues →
    s.step transport archive hashCombine stubOf action = none

/-- Every call has returned: at each stub in the order in which they began, and with
the verdicts that the server gave on their own messages. -/
structure AllReturned {Thread Stub : Type} [DecidableEq Stub] (transport : Transport Stub)
    (stubOf : Thread → Stub) (actions : List (NetAction Thread)) (s : Net Thread Stub) : Prop where
  calls : ∀ thread, s.calls thread = none
  thrown : s.thrown = []
  returned : ∀ stub, (logOf (stubOf · = stub) s.completed).map Prod.fst =
    logOf (stubOf · = stub) (NetAction.sends actions)
  answered : ∀ stub, logOf (stubOf · = stub) s.completed =
    logOf (· = transport.identity stub) s.served

section Completion

variable {Thread Stub : Type} [DecidableEq Stub]
  {transport : Transport Stub} {archive : Archive} {hashCombine : HashCombine}
  {stubOf : Thread → Stub} {docs : List DocSignature} {actions : List (NetAction Thread)}
  {progress : Stub → Option (Call Thread)} {s t : Net Thread Stub}

/-! ## What a step takes away -/

/-- A call returns a reply that was delivered. -/
theorem Represents.completed_le_delivered
    (h : Represents transport archive hashCombine stubOf docs actions progress s) :
    s.completed.length ≤ s.delivered.length := by
  apply length_le_of_logOf (f := stubOf) (g := id)
  intro stub
  show _ ≤ (logOf (· = stub) s.delivered).length
  rw [(h.history stub).delivered, List.length_append, List.length_map]
  exact Nat.le_add_right _ _

omit [DecidableEq Stub] in
/-- A receive of the server takes a message from the inbox or a frame of the last one. -/
theorem remaining_of_recvFrame {frame : Frame} {mid : Net Thread Stub}
    (hframe : s.recvFrame transport = some (frame, mid)) :
    mid.requests = s.requests ∧ mid.replies = s.replies ∧ mid.delivered = s.delivered ∧
      mid.completed = s.completed ∧
      mid.inbox.length + (if s.unread = [] then 1 else 0) = s.inbox.length := by
  cases hunread : s.unread with
  | cons first unread =>
      simp only [Net.recvFrame, hunread] at hframe
      cases hframe
      exact ⟨rfl, rfl, rfl, rfl, rfl⟩
  | nil =>
      cases hinbox : s.inbox with
      | nil =>
          simp only [Net.recvFrame, hunread, hinbox] at hframe
          cases hframe
      | cons first inbox =>
          simp only [Net.recvFrame, hunread, hinbox] at hframe
          cases hframe
          exact ⟨rfl, rfl, rfl, rfl, rfl⟩

/-- A step of the server takes the call it works on one step further. -/
theorem Represents.remaining_of_serve
    (h : Represents transport archive hashCombine stubOf docs actions progress s)
    (hstep : s.serve transport archive hashCombine = some t) :
    t.remaining + 1 = s.remaining := by
  have ⟨held, hheld, hholds⟩ := h.inFlight.server
  generalize hunread : s.unread = unread at hholds
  generalize hunsent : s.unsent = unsent at hholds
  cases Net.serves_of_serve hstep with
  | recvIdentity hpc hframe =>
      rw [hpc] at hholds
      cases hholds
      obtain ⟨hrequests, hreplies, hdelivered, hcompleted, hinbox⟩ := remaining_of_recvFrame hframe
      rw [if_pos hunread] at hinbox
      simp only [Net.remaining, ServerPc.remaining, hpc, hrequests, hreplies, hdelivered,
        hcompleted, ← hinbox]
      omega
  | recvDelimiter hpc hframe =>
      rw [hpc] at hholds
      cases hholds with
      | identity stub message =>
          obtain ⟨hrequests, hreplies, hdelivered, hcompleted, hinbox⟩ :=
            remaining_of_recvFrame hframe
          rw [if_neg (hunread ▸ List.cons_ne_nil _ _)] at hinbox
          simp only [Net.remaining, ServerPc.remaining, hpc, hrequests, hreplies, hdelivered,
            hcompleted, ← hinbox]
          omega
  | throws hpc hframe hthrows =>
      rw [hpc] at hholds
      cases hholds with
      | delimiter stub message =>
          simp only [Net.recvFrame, hunread] at hframe
          cases hframe
          rw [archive.deserialize_serialize] at hthrows
          cases hthrows
  | recvIdSign hpc hframe hidSign hres =>
      rw [hpc] at hholds
      cases hholds with
      | delimiter stub message =>
          obtain ⟨hrequests, hreplies, hdelivered, hcompleted, hinbox⟩ :=
            remaining_of_recvFrame hframe
          rw [if_neg (hunread ▸ List.cons_ne_nil _ _)] at hinbox
          simp only [Net.remaining, ServerPc.remaining, hpc, hrequests, hreplies, hdelivered,
            hcompleted, ← hinbox]
          omega
  | sendIdentity hpc =>
      simp only [Net.remaining, ServerPc.remaining, hpc]
      omega
  | sendDelimiter hpc =>
      simp only [Net.remaining, ServerPc.remaining, hpc]
      omega
  | sendRes hpc =>
      rw [hpc] at hholds
      cases hholds with
      | delimited stub message res =>
          have hpeer := (transport.peer_eq_some (transport.identity stub) stub).mpr rfl
          simp only [Net.remaining, ServerPc.remaining, hpc, Net.sendLast, hunsent,
            List.cons_append, List.nil_append, hpeer, List.length_append, List.length_singleton]
          omega

/-- **Step lemma.** A step that is not a new call is one of the remaining ones. -/
theorem Represents.remaining_of_step [DecidableEq Thread]
    (h : Represents transport archive hashCombine stubOf docs actions progress s)
    {action : NetAction Thread} (hcontinues : action.Continues)
    (hstep : s.step transport archive hashCombine stubOf action = some t) :
    t.remaining + 1 = s.remaining := by
  have hpaid := h.completed_le_delivered
  cases action with
  | send thread message => exact absurd rfl (hcontinues thread message)
  | deliverRequest idx =>
      obtain ⟨request, hidx, rfl⟩ := Option.map_eq_some_iff.mp hstep
      have hlt := (List.getElem?_eq_some_iff.mp hidx).1
      simp only [Net.remaining, List.length_append, List.length_singleton,
        List.length_eraseIdx_of_lt hlt]
      omega
  | serve => exact h.remaining_of_serve hstep
  | deliverReply idx =>
      obtain ⟨⟨stub, frames⟩, hidx, hnext⟩ := Option.map_eq_some_iff.mp hstep
      have hlt := (List.getElem?_eq_some_iff.mp hidx).1
      obtain ⟨thread, message, res, hcall, rfl⟩ := Call.replyOf_eq_some
        (h.inFlight.replies.content_of_mem (List.mem_of_getElem? hidx))
      have hwaiting : s.sockets stub = .waiting := by
        rw [h.inFlight.sockets, hcall]
        rfl
      simp only [hwaiting] at hnext
      cases hnext
      simp only [Net.remaining, List.length_append, List.length_singleton,
        List.length_eraseIdx_of_lt hlt]
      omega
  | receive thread =>
      obtain ⟨next, hnext⟩ := h.receive hstep
      have hafter := hnext.completed_le_delivered
      obtain ⟨message, -, hreceived⟩ := Option.bind_eq_some_iff.mp hstep
      cases hsocket : s.sockets (stubOf thread) with
      | ready =>
          simp only [hsocket] at hreceived
          cases hreceived
          exact absurd hnext.thrown (List.append_ne_nil_of_right_ne_nil _ (List.cons_ne_nil _ _))
      | waiting =>
          simp only [hsocket] at hreceived
          cases hreceived
      | replied frames =>
          cases frames with
          | nil =>
              simp only [hsocket] at hreceived
              cases hreceived
          | cons frame rest =>
              simp only [hsocket] at hreceived
              obtain ⟨res, -, hreceived⟩ := Option.bind_eq_some_iff.mp hreceived
              cases hreceived
              simp only [List.length_append, List.length_singleton] at hafter
              simp only [Net.remaining, List.length_append, List.length_singleton]
              omega

/-- A new call adds its nine steps. -/
theorem remaining_of_send [DecidableEq Thread] {thread : Thread} {message : DocSignature}
    (hturn : InTurn stubOf s (.send thread message))
    (h : Represents transport archive hashCombine stubOf docs actions progress s)
    (hstep : s.send archive stubOf thread message = some t) :
    t.remaining = s.remaining + 9 := by
  have hfree : progress (stubOf thread) = none := by
    cases hcall : progress (stubOf thread) with
    | none => rfl
    | some call =>
        have howner := h.callers.owner _ call hcall
        rw [hturn call.thread howner.1] at howner
        cases howner.2
  have hready : s.sockets (stubOf thread) = .ready := by
    rw [h.inFlight.sockets, hfree]
    rfl
  simp only [Net.send, hturn thread rfl, hready] at hstep
  cases hstep
  simp only [Net.remaining, List.length_append, List.length_singleton]
  omega

/-! ## At rest -/

section Rest

variable [DecidableEq Thread]

/-- At rest, no call is in progress. -/
theorem Represents.idle_of_atRest
    (h : Represents transport archive hashCombine stubOf docs actions progress s)
    (hrest : s.AtRest transport archive hashCombine stubOf) (stub : Stub) :
    progress stub = none := by
  cases hcall : progress stub with
  | none => rfl
  | some call =>
      obtain ⟨action, hcontinues, hsome⟩ := h.exists_step (h.callers.owner stub call hcall).2
      rw [hrest action hcontinues] at hsome
      cases hsome

omit [DecidableEq Thread] in
/-- Where no call is in progress, no step is left. -/
theorem Represents.remaining_of_idle
    (h : Represents transport archive hashCombine stubOf docs actions progress s)
    (hidle : ∀ stub, progress stub = none) : s.remaining = 0 := by
  have hrequests := h.inFlight.requests.eq_nil fun stub => by rw [hidle stub]; rfl
  have hinbox := h.inFlight.inbox.eq_nil fun stub => by rw [hidle stub]; rfl
  have hreplies := h.inFlight.replies.eq_nil fun stub => by rw [hidle stub]; rfl
  obtain ⟨held, hheld, hholds⟩ := h.inFlight.server
  have hnone := hheld.eq_nil fun stub => by rw [hidle stub]; rfl
  have hpc : s.pc = .recvIdentity := by
    rw [hnone] at hholds
    generalize s.pc = pc, s.unread = unread, s.unsent = unsent at hholds
    cases hholds
    rfl
  have hpaid : s.delivered.length ≤ s.completed.length := by
    apply length_le_of_logOf (f := id) (g := stubOf)
    intro stub
    show (logOf (· = stub) s.delivered).length ≤ _
    rw [(h.history stub).delivered, hidle stub, List.length_append, List.length_map]
    exact le_rfl
  simp only [Net.remaining, hrequests, hinbox, hreplies, hpc, ServerPc.remaining,
    List.length_nil]
  omega

/-- The parties are at rest exactly if no step is left. -/
theorem Represents.atRest_iff
    (h : Represents transport archive hashCombine stubOf docs actions progress s) :
    s.AtRest transport archive hashCombine stubOf ↔ s.remaining = 0 := by
  constructor
  · exact fun hrest => h.remaining_of_idle (h.idle_of_atRest hrest)
  · intro hnone action hcontinues
    cases hstep : s.step transport archive hashCombine stubOf action with
    | none => rfl
    | some t =>
        have hunit := h.remaining_of_step hcontinues hstep
        rw [hnone] at hunit
        cases hunit

/-- At rest, every call has returned. -/
theorem Represents.allReturned_of_atRest
    (h : Represents transport archive hashCombine stubOf docs actions progress s)
    (hrest : s.AtRest transport archive hashCombine stubOf) :
    AllReturned transport stubOf actions s := by
  have hidle := h.idle_of_atRest hrest
  exact {
    calls := by
      intro thread
      cases hcalls : s.calls thread with
      | none => rfl
      | some message =>
          obtain ⟨call, hcall, -⟩ := h.callers.caller thread message hcalls
          rw [hidle] at hcall
          cases hcall
    thrown := h.thrown
    returned := by
      intro stub
      rw [(h.history stub).sent, hidle stub]
      exact (List.append_nil _).symm
    answered := by
      intro stub
      rw [(h.history stub).served, hidle stub]
      exact (List.append_nil _).symm }

/-! ## Runs -/

/-- The steps taken and the steps left make ten for each call. -/
def Metered (transport : Transport Stub) (archive : Archive) (hashCombine : HashCombine)
    (stubOf : Thread → Stub) (docs : List DocSignature) (actions : List (NetAction Thread))
    (s : Net Thread Stub) : Prop :=
  (∃ progress, Represents transport archive hashCombine stubOf docs actions progress s) ∧
    actions.length + s.remaining = 10 * (NetAction.sends actions).length

omit [DecidableEq Thread] in
theorem NetAction.sends_concat_of_continues {action : NetAction Thread}
    (hcontinues : action.Continues) (actions : List (NetAction Thread)) :
    NetAction.sends (actions ++ [action]) = NetAction.sends actions := by
  cases action with
  | send thread message => exact absurd rfl (hcontinues thread message)
  | deliverRequest idx => simp [NetAction.sends]
  | serve => simp [NetAction.sends]
  | deliverReply idx => simp [NetAction.sends]
  | receive thread => simp [NetAction.sends]

omit [DecidableEq Stub] [DecidableEq Thread] in
theorem inTurn_of_continues {action : NetAction Thread} (hcontinues : action.Continues) :
    InTurn stubOf s action := by
  cases action with
  | send thread message => exact absurd rfl (hcontinues thread message)
  | deliverRequest idx => trivial
  | serve => trivial
  | deliverReply idx => trivial
  | receive thread => trivial

theorem Metered.step (h : Metered transport archive hashCombine stubOf docs actions s)
    {action : NetAction Thread} (hturn : InTurn stubOf s action)
    (hstep : s.step transport archive hashCombine stubOf action = some t) :
    Metered transport archive hashCombine stubOf docs (actions ++ [action]) t := by
  obtain ⟨⟨progress, hprogress⟩, hmeter⟩ := h
  refine ⟨hprogress.step hturn hstep, ?_⟩
  by_cases hcontinues : action.Continues
  · have hunit := hprogress.remaining_of_step hcontinues hstep
    rw [NetAction.sends_concat_of_continues hcontinues, List.length_append, List.length_singleton]
    omega
  · obtain ⟨thread, hthread⟩ := not_forall.mp hcontinues
    obtain ⟨message, hmessage⟩ := not_forall.mp hthread
    obtain rfl := not_not.mp hmessage
    have hnine := remaining_of_send hturn hprogress hstep
    have hsends : NetAction.sends (actions ++ [.send thread message]) =
        NetAction.sends actions ++ [(thread, message)] := by
      simp [NetAction.sends]
    rw [hsends, List.length_append, List.length_append, List.length_singleton,
      List.length_singleton]
    omega

/-- Steps that are not new calls go on with the calls in progress. -/
theorem Metered.run_of_continues (h : Metered transport archive hashCombine stubOf docs actions s)
    {rest : List (NetAction Thread)} (hcontinues : ∀ action ∈ rest, action.Continues)
    (hrun : run (Net.step transport archive hashCombine stubOf) s rest = some t) :
    Metered transport archive hashCombine stubOf docs (actions ++ rest) t ∧
      NetAction.sends (actions ++ rest) = NetAction.sends actions := by
  induction rest using List.reverseRecOn generalizing t with
  | nil =>
      obtain rfl : s = t := Option.some.inj hrun
      rw [List.append_nil]
      exact ⟨h, rfl⟩
  | append_singleton rest action ih =>
      obtain ⟨m, hm, hstep⟩ := run_concat_eq_some.mp hrun
      obtain ⟨hmid, hsends⟩ := ih (fun other hother =>
        hcontinues other (List.mem_append_left _ hother)) hm
      have hlast := hcontinues action (List.mem_append_right _ List.mem_cons_self)
      rw [← List.append_assoc]
      refine ⟨hmid.step (inTurn_of_continues hlast) hstep, ?_⟩
      rw [NetAction.sends_concat_of_continues hlast, hsends]

/-- **Every call returns.** After a run whose calls begin in turn, the parties come to rest
without new calls, whatever they do: after ten steps for each call of the run, no more
and no fewer, and then every call has returned. -/
theorem calls_return {dedup : ArticleDedup}
    (hmake : ArticleDedup.make hashCombine docs = some dedup)
    (hrun : run (Net.step transport archive hashCombine stubOf) (Net.start dedup) actions =
      some s)
    (hturn : AllSteps (Net.step transport archive hashCombine stubOf) (InTurn stubOf)
      (Net.start dedup) actions) :
    (∀ rest t, (∀ action ∈ rest, action.Continues) →
      run (Net.step transport archive hashCombine stubOf) s rest = some t →
      actions.length + rest.length ≤ 10 * (NetAction.sends actions).length ∧
      (t.AtRest transport archive hashCombine stubOf ↔
        actions.length + rest.length = 10 * (NetAction.sends actions).length) ∧
      (t.AtRest transport archive hashCombine stubOf →
        AllReturned transport stubOf actions t)) ∧
    ∃ rest t, (∀ action ∈ rest, action.Continues) ∧
      run (Net.step transport archive hashCombine stubOf) s rest = some t ∧
      t.AtRest transport archive hashCombine stubOf := by
  have hstates := allStates_of_allSteps
    (P := Metered transport archive hashCombine stubOf docs)
    ⟨⟨_, Represents.start hmake⟩, rfl⟩
    (fun hist m action next hm hok hstep => hm.step hok hstep) hturn
  have hnow := hstates actions List.prefix_rfl s hrun
  constructor
  · intro rest t hcontinues hrest
    obtain ⟨⟨⟨progress, hlater⟩, hmeter⟩, hsends⟩ := hnow.run_of_continues hcontinues hrest
    rw [hsends, List.length_append] at hmeter
    refine ⟨by omega, hlater.atRest_iff.trans (by omega), fun hquiet => ?_⟩
    have hreturned := hlater.allReturned_of_atRest hquiet
    exact ⟨hreturned.calls, hreturned.thrown, fun stub => hsends ▸ hreturned.returned stub,
      hreturned.answered⟩
  · have hspends : ∀ m action next,
        (∃ hist, Metered transport archive hashCombine stubOf docs hist m) →
        action.Continues → Net.step transport archive hashCombine stubOf m action = some next →
        (∃ hist, Metered transport archive hashCombine stubOf docs hist next) ∧
          next.remaining + 1 = m.remaining := by
      rintro m action next ⟨hist, hm⟩ hcontinues hstep
      refine ⟨⟨_, hm.step (inTurn_of_continues hcontinues) hstep⟩, ?_⟩
      obtain ⟨⟨progress, hprogress⟩, -⟩ := hm
      exact hprogress.remaining_of_step hcontinues hstep
    have hprogress : ∀ m, (∃ hist, Metered transport archive hashCombine stubOf docs hist m) →
        m.remaining ≠ 0 → ∃ action : NetAction _, action.Continues ∧
          (Net.step transport archive hashCombine stubOf m action).isSome := by
      rintro m ⟨hist, ⟨progress, hprogress⟩, -⟩ hleft
      by_contra hstuck
      apply hleft
      rw [← hprogress.atRest_iff]
      intro action hcontinues
      by_contra hsome
      exact hstuck ⟨action, hcontinues, Option.isSome_iff_ne_none.mpr hsome⟩
    obtain ⟨rest, t, hcontinues, hrest, ⟨later, hlater⟩, hnone⟩ :=
      exists_run_potential_zero ⟨actions, hnow⟩ hspends hprogress
    obtain ⟨⟨progress, hprogress⟩, -⟩ := hlater
    exact ⟨rest, t, hcontinues, hrest, hprogress.atRest_iff.mpr hnone⟩

end Rest

end Completion

/-- Clients with stubs of their own begin their calls in turn. -/
theorem allSteps_inTurn_of_own {Client : Type} [DecidableEq Client]
    {transport : Transport Client} {archive : Archive} {hashCombine : HashCombine}
    {actions : List (NetAction Client)} {s final : Net Client Client}
    (hrun : run (Net.step transport archive hashCombine id) s actions = some final) :
    AllSteps (Net.step transport archive hashCombine id) (InTurn id) s actions := by
  intro hist action hpre m hm
  obtain ⟨t, ht⟩ := exists_run_of_prefix hpre hrun
  obtain ⟨m', hm', hstep⟩ := run_concat_eq_some.mp ht
  obtain rfl : m = m' := Option.some.inj (hm.symm.trans hm')
  exact inTurn_of_own hstep

/-- Two clients ask, and the request of the second has arrived. -/
def twoQuestions : List (NetAction Bool) :=
  [.send false ([97], fun _ => 7), .send true ([98], fun _ => 7), .deliverRequest 1]

/-- Both calls return, whatever happens next. -/
theorem calls_return_two_questions :
    ∃ dedup s, ArticleDedup.make manualHashCombine [] = some dedup ∧
      run (Net.step twoClients textArchive manualHashCombine id) (Net.start dedup) twoQuestions =
        some s ∧
      (∀ rest t, (∀ action ∈ rest, action.Continues) →
        run (Net.step twoClients textArchive manualHashCombine id) s rest = some t →
        twoQuestions.length + rest.length ≤ 10 * (NetAction.sends twoQuestions).length ∧
        (t.AtRest twoClients textArchive manualHashCombine id ↔
          twoQuestions.length + rest.length = 10 * (NetAction.sends twoQuestions).length) ∧
        (t.AtRest twoClients textArchive manualHashCombine id →
          AllReturned twoClients id twoQuestions t)) ∧
      ∃ rest t, (∀ action ∈ rest, action.Continues) ∧
        run (Net.step twoClients textArchive manualHashCombine id) s rest = some t ∧
        t.AtRest twoClients textArchive manualHashCombine id := by
  have hsome : (protocolRun twoClients textArchive manualHashCombine [] twoQuestions).isSome := by
    decide +kernel
  obtain ⟨s, hs⟩ := Option.isSome_iff_exists.mp hsome
  obtain ⟨dedup, hmake, hrun⟩ := Option.bind_eq_some_iff.mp hs
  exact ⟨dedup, s, hmake, hrun, calls_return hmake hrun (allSteps_inTurn_of_own hrun)⟩

end Unbiased
