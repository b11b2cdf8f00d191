/-
# Threads that share a stub

The worker threads of the engine call one stub, without a lock. A call that
begins while another one is out throws, and its article, which is stored
already, is dropped. All calls are answered exactly if they begin in turn.
-/

import Unbiased.Dedup.ProtocolSteps
import Unbiased.Dedup.TextArchive

namespace Unbiased

open Unbiased.Math

section Threads

variable {Thread Stub : Type} [DecidableEq Thread] [DecidableEq Stub]
  {transport : Transport Stub} {archive : Archive} {hashCombine : HashCombine}
  {stubOf : Thread → Stub} {docs : List DocSignature} {actions : List (NetAction Thread)}
  {s t : Net Thread Stub}

/-- No call has thrown, and the calls that have returned at a stub returned the
verdicts that the server gave on their own messages. -/
structure CallsAnswered (transport : Transport Stub) (stubOf : Thread → Stub)
    (s : Net Thread Stub) : Prop where
  thrown : s.thrown = []
  own : ∀ stub, logOf (stubOf · = stub) s.completed <+:
    logOf (· = transport.identity stub) s.served

omit [DecidableEq Thread] in
theorem Represents.callsAnswered {progress : Stub → Option (Call Thread)}
    (h : Represents transport archive hashCombine stubOf docs actions progress s) :
    CallsAnswered transport stubOf s where
  thrown := h.thrown
  own stub := by
    rw [(h.history stub).served]
    exact List.prefix_append _ _

/-- A call that begins while another thread waits at its stub throws. -/
theorem Represents.thrown_of_not_inTurn {progress : Stub → Option (Call Thread)}
    (h : Represents transport archive hashCombine stubOf docs actions progress s)
    {action : NetAction Thread} (hturn : ¬ InTurn stubOf s action)
    (hstep : s.step transport archive hashCombine stubOf action = some t) : t.thrown ≠ [] := by
  cases action with
  | send thread message =>
      have ⟨other, hother⟩ := not_forall.mp hturn
      have ⟨hstub, hwaits⟩ := Classical.not_imp.mp hother
      have ⟨asked, hasked⟩ := Option.ne_none_iff_exists'.mp hwaits
      have ⟨call, hcall, _⟩ := h.callers.caller other asked hasked
      rw [hstub] at hcall
      cases hcalls : s.calls thread with
      | some own =>
          simp only [Net.step, Net.send, hcalls] at hstep
          cases hstep
      | none =>
          cases hsocket : s.sockets (stubOf thread) with
          | ready =>
              have hnone := Call.eq_none_of_socketOf_ready
                ((h.inFlight.sockets _).symm.trans hsocket)
              rw [hnone] at hcall
              cases hcall
          | waiting =>
              simp only [Net.step, Net.send, hcalls, hsocket] at hstep
              cases hstep
              exact List.append_ne_nil_of_right_ne_nil _ (List.cons_ne_nil _ _)
          | replied frames =>
              simp only [Net.step, Net.send, hcalls, hsocket] at hstep
              cases hstep
              exact List.append_ne_nil_of_right_ne_nil _ (List.cons_ne_nil _ _)
  | deliverRequest idx => exact absurd trivial hturn
  | serve => exact absurd trivial hturn
  | deliverReply idx => exact absurd trivial hturn
  | receive thread => exact absurd trivial hturn

/-- **When shared stubs work.** In every state of a run all calls are answered
exactly if each call of the run begins while no thread waits at its stub. -/
theorem callsAnswered_iff_inTurn {dedup : ArticleDedup} {final : Net Thread Stub}
    (hmake : ArticleDedup.make hashCombine docs = some dedup)
    (hrun : run (Net.step transport archive hashCombine stubOf) (Net.start dedup) actions =
      some final) :
    AllStates (Net.step transport archive hashCombine stubOf)
        (fun _ => CallsAnswered transport stubOf) (Net.start dedup) actions ↔
      AllSteps (Net.step transport archive hashCombine stubOf) (InTurn stubOf)
        (Net.start dedup) actions := by
  apply allStates_iff_allSteps (P := fun hist s =>
    ∃ progress, Represents transport archive hashCombine stubOf docs hist progress s) _ _ _ _ hrun
  · exact ⟨_, Represents.start hmake⟩
  · intro hist s hs
    cases hs with
    | intro progress h => exact h.callsAnswered
  · intro hist s action t hs hturn hstep
    cases hs with
    | intro progress h => exact h.step hturn hstep
  · intro hist s action t hs hstep hgood
    cases hs with
    | intro progress h =>
        by_contra hturn
        exact h.thrown_of_not_inTurn hturn hstep hgood.thrown

end Threads

/-! ## Two threads -/

/-- The only client of the server. -/
def oneClient : Transport Unit where
  identity _ := [0, 0, 0, 0, 1]
  peer frame := if frame = [0, 0, 0, 0, 1] then some () else none
  peer_eq_some frame stub := by
    by_cases h : frame = [0, 0, 0, 0, 1]
    · simp [h]
    · simp [h]

/-- One thread after the other. -/
def callsInTurn : List (NetAction Bool) :=
  [NetAction.send false ([97], fun _ => 7), NetAction.deliverRequest 0] ++
    List.replicate 6 .serve ++ [NetAction.deliverReply 0, NetAction.receive false,
      NetAction.send true ([98], fun _ => 8)]

/-- The equivalence for two threads, one after the other. -/
theorem callsAnswered_iff_inTurn_two_threads :
    ∃ dedup, ArticleDedup.make manualHashCombine [] = some dedup ∧
      (AllStates (Net.step oneClient textArchive manualHashCombine fun _ => ())
          (fun _ => CallsAnswered oneClient fun _ => ()) (Net.start dedup) callsInTurn ↔
        AllSteps (Net.step oneClient textArchive manualHashCombine fun _ => ())
          (InTurn fun _ => ()) (Net.start dedup) callsInTurn) := by
  have hsome : ((ArticleDedup.make manualHashCombine []).bind fun dedup =>
      run (Net.step oneClient textArchive manualHashCombine fun _ => ())
        (Net.start dedup) callsInTurn).isSome := by
    decide +kernel
  have ⟨final, hfinal⟩ := Option.isSome_iff_exists.mp hsome
  have ⟨dedup, hmake, hrun⟩ := Option.bind_eq_some_iff.mp hfinal
  exact ⟨dedup, hmake, callsAnswered_iff_inTurn hmake hrun⟩

/-- The second of two threads that send at once throws. -/
theorem second_send_throws :
    ¬ ∀ (transport : Transport Unit) (archive : Archive) (hashCombine : HashCombine)
      (docs : List DocSignature) (dedup : ArticleDedup) (actions : List (NetAction Bool))
      (final : Net Bool Unit), ArticleDedup.make hashCombine docs = some dedup →
        run (Net.step transport archive hashCombine fun _ => ()) (Net.start dedup) actions =
          some final → CallsAnswered transport (fun _ => ()) final := by
  intro hall
  have hcheck : ((ArticleDedup.make manualHashCombine []).bind fun dedup =>
      (run (Net.step oneClient textArchive manualHashCombine fun _ => ()) (Net.start dedup)
        [NetAction.send false ([97], fun _ => 7), .send true ([98], fun _ => 8)]).map
          fun final => final.thrown.length) = some 1 := by
    decide +kernel
  have ⟨dedup, hmake, hmap⟩ := Option.bind_eq_some_iff.mp hcheck
  have ⟨final, hrun, hthrown⟩ := Option.map_eq_some_iff.mp hmap
  have hgood := hall _ _ _ _ dedup _ final hmake hrun
  rw [hgood.thrown] at hthrown
  cases hthrown

end Unbiased
