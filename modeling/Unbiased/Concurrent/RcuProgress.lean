/-
# Retries of the stem-to-tokens map

A writer goes through its loop again if the pointer was exchanged between its load and its
own exchange. Whoever exchanged it published a set with a token that was not there, and of
those there are only as many as are added. A failed exchange is therefore paid for by a
successful one. One success can make several threads fail, one time each.
-/

import Unbiased.Concurrent.RcuMap
import Unbiased.Math.Charging
import Unbiased.Math.Outputs

namespace Unbiased

open Unbiased.Math

namespace Rcu

/-- A compare-exchange that was tried. -/
structure Exchange (Thread : Type) where
  thread : Thread
  slot : Fin maxStemsNo
  token : Bytes
  succeeded : Bool
  deriving DecidableEq

namespace Exchange

variable {Thread : Type}

def Failed (exchange : Exchange Thread) : Prop := exchange.succeeded = false

def FailedOf (thread : Thread) (exchange : Exchange Thread) : Prop :=
  exchange.thread = thread ∧ exchange.succeeded = false

/-- Another thread succeeded on the same id. -/
def AccountsFor (failed other : Exchange Thread) : Prop :=
  other.succeeded = true ∧ other.thread ≠ failed.thread ∧ other.slot = failed.slot

instance [DecidableEq Thread] (thread : Thread) :
    DecidablePred (FailedOf thread) :=
  fun exchange => inferInstanceAs
    (Decidable (exchange.thread = thread ∧ exchange.succeeded = false))

instance [DecidableEq Thread] (failed : Exchange Thread) : DecidablePred (AccountsFor failed) :=
  fun other => inferInstanceAs
    (Decidable (other.succeeded = true ∧ other.thread ≠ failed.thread ∧ other.slot = failed.slot))

end Exchange

section Definitions

variable {Thread : Type}

/-- The tokens that are added to an id. -/
def tokensAdded (id : StemId) (actions : List (Action Thread)) : Finset Bytes :=
  (actions.filterMap fun action =>
    match action with
    | .begin _ other token => if other = id then some token else none
    | _ => none).toFinset

variable [DecidableEq Thread]

/-- The compare-exchange that a step tries, if it does. -/
def State.exchanged (s : State Thread) : Action Thread → List (Exchange Thread)
  | .exchange thread =>
    match s.calls thread with
    | some ⟨slot, token, .exchanging old _⟩ => [⟨thread, slot, token, s.cells slot = old⟩]
    | _ => []
  | _ => []

/-- The compare-exchanges that a run tries, oldest first. -/
def exchanges (s : State Thread) (actions : List (Action Thread)) : List (Exchange Thread) :=
  outputs State.step State.exchanged s actions

theorem exchanges_append {s m : State Thread} {first : List (Action Thread)}
    (hrun : run State.step s first = some m) (rest : List (Action Thread)) :
    exchanges s (first ++ rest) = exchanges s first ++ exchanges m rest :=
  outputs_append hrun rest

def Action.isBegin (thread : Thread) : Action Thread → Bool
  | .begin other _ _ => other = thread
  | _ => false

def Action.isLoad (thread : Thread) : Action Thread → Bool
  | .load other _ => other = thread
  | _ => false

/-- What happens until a thread calls `addToken` again. -/
def untilNextCall (thread : Thread) (after : List (Action Thread)) : List (Action Thread) :=
  after.takeWhile fun action => !action.isBegin thread

/-- How often a thread goes through the loop: each iteration loads the pointer once. -/
def iterations (thread : Thread) (actions : List (Action Thread)) : ℕ :=
  actions.countP fun action => action.isLoad thread

end Definitions

/-! ## What a step does to the calls and the cells -/

section Views

variable {Thread : Type} [DecidableEq Thread]

/-- Where a call that is in progress after a step comes from. -/
inductive Continues (s : State Thread) (thread : Thread) : Action Thread → Call → Prop where
  | same {action : Action Thread} {call : Call} (hcall : s.calls thread = some call) :
    Continues s thread action call
  | begins {id : StemId} {slot : Fin maxStemsNo} {token : Bytes} (hslot : slot? id = some slot) :
    Continues s thread (.begin thread id token) ⟨slot, token, .loading⟩
  | copies {new : Address} {slot : Fin maxStemsNo} {token : Bytes}
    (hcall : s.calls thread = some ⟨slot, token, .loading⟩) (hnew : token ∉ s.tokensAt slot) :
    Continues s thread (.load thread new) ⟨slot, token, .exchanging (s.cells slot) new⟩
  | retries {old : Option Address} {new : Address} {slot : Fin maxStemsNo} {token : Bytes}
    (hcall : s.calls thread = some ⟨slot, token, .exchanging old new⟩) :
    Continues s thread (.exchange thread) ⟨slot, token, .loading⟩

/-- What a step does to the cells, and the compare-exchange it tries for that. -/
inductive Tries (s t : State Thread) : Action Thread → List (Exchange Thread) → Prop where
  | nothing {action : Action Thread} (hcells : t.cells = s.cells) : Tries s t action []
  | succeeds {thread : Thread} {slot : Fin maxStemsNo} {token : Bytes} {new : Address}
    (hcall : s.calls thread = some ⟨slot, token, .exchanging (s.cells slot) new⟩)
    (hcells : t.cells = Function.update s.cells slot (some new))
    (hcalls : t.calls = Function.update s.calls thread none)
    (hreturned : t.returned = s.returned ++ [(slot, token)]) :
    Tries s t (.exchange thread) [⟨thread, slot, token, true⟩]
  | fails {thread : Thread} {slot : Fin maxStemsNo} {token : Bytes} {old : Option Address}
    {new : Address} (hcall : s.calls thread = some ⟨slot, token, .exchanging old new⟩)
    (hchanged : s.cells slot ≠ old) (hcells : t.cells = s.cells)
    (hcalls : t.calls = Function.update s.calls thread (some ⟨slot, token, .loading⟩)) :
    Tries s t (.exchange thread) [⟨thread, slot, token, false⟩]

variable {s t : State Thread} {action : Action Thread}

/-- A call after another one was replaced. -/
theorem calls_of_update {calls : Thread → Option Call} {thread other : Thread}
    {next : Option Call} {call : Call} (h : Function.update calls thread next other = some call) :
    (other ≠ thread ∧ calls other = some call) ∨ (other = thread ∧ next = some call) := by
  by_cases hother : other = thread
  · rw [hother, Function.update_self] at h
    exact Or.inr ⟨hother, h⟩
  · rw [Function.update_of_ne hother] at h
    exact Or.inl ⟨hother, h⟩

theorem continues_of_moves (h : Moves s action t) {thread : Thread} {call : Call}
    (hcall : t.calls thread = some call) : Continues s thread action call := by
  cases h with
  | begins hidle hslot =>
      rcases calls_of_update hcall with ⟨-, hsame⟩ | ⟨rfl, hnext⟩
      · exact .same hsame
      · cases hnext
        exact .begins hslot
  | finds hloading hfound =>
      rcases calls_of_update hcall with ⟨-, hsame⟩ | ⟨rfl, hnext⟩
      · exact .same hsame
      · cases hnext
  | copies hloading hnew =>
      rcases calls_of_update hcall with ⟨-, hsame⟩ | ⟨rfl, hnext⟩
      · exact .same hsame
      · cases hnext
        exact .copies hloading hnew
  | publishes hexchanging =>
      rcases calls_of_update hcall with ⟨-, hsame⟩ | ⟨rfl, hnext⟩
      · exact .same hsame
      · cases hnext
  | retries hexchanging hchanged =>
      rcases calls_of_update hcall with ⟨-, hsame⟩ | ⟨rfl, hnext⟩
      · exact .same hsame
      · cases hnext
        exact .retries hexchanging
  | gets hslot => exact .same hcall
  | drops => exact .same hcall

theorem tries_of_moves (h : Moves s action t) : Tries s t action (s.exchanged action) := by
  cases h with
  | begins hidle hslot => exact .nothing rfl
  | finds hloading hfound => exact .nothing rfl
  | copies hloading hnew => exact .nothing rfl
  | publishes hexchanging =>
      rename_i thread new slot token
      have hexchanged : s.exchanged (.exchange thread) = [⟨thread, slot, token, true⟩] := by
        simp [State.exchanged, hexchanging]
      rw [hexchanged]
      exact .succeeds hexchanging rfl rfl rfl
  | retries hexchanging hchanged =>
      rename_i thread old new slot token
      have hexchanged : s.exchanged (.exchange thread) = [⟨thread, slot, token, false⟩] := by
        simp [State.exchanged, hexchanging, hchanged]
      rw [hexchanged]
      exact .fails hexchanging hchanged rfl rfl
  | gets hslot => exact .nothing rfl
  | drops => exact .nothing rfl

/-- An exchange is tried by a call that has loaded a pointer. It succeeds if the cell still
holds that one, and then the call returns. -/
theorem call_of_exchanged (h : Moves s action t) {exchange : Exchange Thread}
    (hexchange : exchange ∈ s.exchanged action) :
    ∃ old new, s.calls exchange.thread =
        some ⟨exchange.slot, exchange.token, .exchanging old new⟩ ∧
      (exchange.succeeded = true → old = s.cells exchange.slot ∧
        (exchange.slot, exchange.token) ∈ t.returned) := by
  have htries := tries_of_moves h
  generalize s.exchanged action = tried at htries hexchange
  cases htries with
  | nothing hcells => cases hexchange
  | succeeds hexchanging hcells hcalls hreturned =>
      cases List.mem_singleton.mp hexchange
      refine ⟨_, _, hexchanging, fun _ => ⟨rfl, ?_⟩⟩
      rw [hreturned]
      exact List.mem_append_right _ List.mem_cons_self
  | fails hexchanging hchanged hcells hcalls =>
      cases List.mem_singleton.mp hexchange
      exact ⟨_, _, hexchanging, fun hsucceeded => Bool.noConfusion hsucceeded⟩

/-- A step tries one exchange at most. -/
theorem pairwise_exchanged (h : Moves s action t) (R : Exchange Thread → Exchange Thread → Prop) :
    (s.exchanged action).Pairwise R := by
  have htries := tries_of_moves h
  generalize s.exchanged action = tried at htries
  cases htries with
  | nothing hcells => exact List.Pairwise.nil
  | succeeds hexchanging hcells hcalls hreturned => exact List.pairwise_singleton _ _
  | fails hexchanging hchanged hcells hcalls => exact List.pairwise_singleton _ _

end Views

/-! ## Failed exchanges are paid for -/

section Payment

variable {Thread : Type} [DecidableEq Thread] {s t : State Thread} {action : Action Thread}
  {log : List (Exchange Thread)} {thread : Thread}

/-- The failures of a thread are paid for by others, and if the pointer it loaded was
exchanged, then so is the failure to come. -/
structure Paid (thread : Thread) (log : List (Exchange Thread)) (s : State Thread) : Prop where
  charged : Charged (Exchange.FailedOf thread) Exchange.AccountsFor log
  changed : ∀ slot token old new, s.calls thread = some ⟨slot, token, .exchanging old new⟩ →
    s.cells slot ≠ old →
    Covered (Exchange.FailedOf thread) (Exchange.AccountsFor ⟨thread, slot, token, false⟩) log

omit [DecidableEq Thread] in
/-- Nothing has to be paid for before a thread has loaded a pointer. -/
theorem Paid.init (hloading : ∀ slot token old new,
      s.calls thread ≠ some ⟨slot, token, .exchanging old new⟩) : Paid thread [] s where
  charged := .nil
  changed slot token old new hcall := absurd hcall (hloading slot token old new)

/-- **Step lemma.** A pointer that changes under a writer is exchanged by another thread,
and until the writer notices none of its exchanges fails. -/
theorem Paid.step (h : Paid thread log s) (hstep : s.step action = some t) :
    Paid thread (log ++ s.exchanged action) t := by
  have hmoves := moves_of_step hstep
  have hcontinues : ∀ call, t.calls thread = some call → Continues s thread action call :=
    fun call => continues_of_moves hmoves
  have htries := tries_of_moves hmoves
  generalize s.exchanged action = tried at htries ⊢
  cases htries with
  | nothing hcells =>
      rw [List.append_nil]
      refine ⟨h.charged, fun slot token old new hcall hne => ?_⟩
      rw [hcells] at hne
      cases hcontinues _ hcall with
      | same hsame => exact h.changed slot token old new hsame hne
      | copies hloading hnew => exact absurd rfl hne
  | succeeds hexchanging hcells hcalls hreturned =>
      rename_i other otherSlot otherToken otherNew
      refine ⟨h.charged.concat fun hfailed => Bool.noConfusion hfailed.2, ?_⟩
      intro slot token old new hcall hne
      rw [hcalls] at hcall
      rcases calls_of_update hcall with ⟨hother, hsame⟩ | ⟨-, hnext⟩
      · by_cases hslot : otherSlot = slot
        · exact Covered.of_pays ⟨rfl, hother.symm, hslot⟩ fun hfailed => hother hfailed.1.symm
        · rw [hcells, Function.update_of_ne (Ne.symm hslot)] at hne
          apply (h.changed slot token old new hsame hne).append
          intro exchange hexchange hfailed
          rw [List.mem_singleton.mp hexchange] at hfailed
          exact hother hfailed.1.symm
      · cases hnext
  | fails hexchanging hchanged hcells hcalls =>
      rename_i other otherSlot otherToken otherOld otherNew
      constructor
      · apply h.charged.concat
        rintro ⟨hthread, -⟩
        subst hthread
        exact h.changed _ _ _ _ hexchanging hchanged
      · intro slot token old new hcall hne
        rw [hcells] at hne
        rw [hcalls] at hcall
        rcases calls_of_update hcall with ⟨hother, hsame⟩ | ⟨-, hnext⟩
        · apply (h.changed slot token old new hsame hne).append
          intro exchange hexchange hfailed
          rw [List.mem_singleton.mp hexchange] at hfailed
          exact hother hfailed.1.symm
        · cases hnext

/-- **Run lemma.** -/
theorem charged_of_run {actions : List (Action Thread)} (hloading : ∀ slot token old new,
      s.calls thread ≠ some ⟨slot, token, .exchanging old new⟩)
    (hrun : run State.step s actions = some t) :
    Charged (Exchange.FailedOf thread) Exchange.AccountsFor (exchanges s actions) := by
  have hpaid : Paid thread (exchanges s actions) t :=
    outputs_invariant_of_step (P := fun _ log m => Paid thread log m) (Paid.init hloading)
      (fun hist log m action m' hm hstep => hm.step hstep) hrun
  exact hpaid.charged

end Payment

/-! ## The iterations of a call -/

section Iterations

variable {Thread : Type} [DecidableEq Thread] {s t : State Thread} {action : Action Thread}
  {hist : List (Action Thread)} {log : List (Exchange Thread)} {thread : Thread}
  {slot : Fin maxStemsNo}

/-- Whether the pointer was loaded since the last failure. -/
def loadedSince : Option Call → ℕ
  | some ⟨_, _, .loading⟩ => 0
  | _ => 1

theorem loadedSince_le_one (call : Option Call) : loadedSince call ≤ 1 := by
  unfold loadedSince
  split <;> decide

/-- A call starts over only after a failure, and all its exchanges are on its id. -/
structure Counted (thread : Thread) (slot : Fin maxStemsNo) (hist : List (Action Thread))
    (log : List (Exchange Thread)) (s : State Thread) : Prop where
  slots : ∀ exchange ∈ log, exchange.thread = thread → exchange.slot = slot
  call : ∀ call, s.calls thread = some call → call.slot = slot
  loads : iterations thread hist ≤
    log.countP (Exchange.FailedOf thread ·) + loadedSince (s.calls thread)

/-- A load follows a failure or begins the call. -/
theorem loads_of_moves (h : Moves s action t) (hsame : ¬ action.isBegin thread) :
    iterations thread [action] + loadedSince (s.calls thread) ≤
      (s.exchanged action).countP (Exchange.FailedOf thread ·) +
        loadedSince (t.calls thread) := by
  cases h with
  | begins hidle hslot =>
      rename_i other id token slot
      have hother : thread ≠ other := by
        rintro rfl
        simp [Action.isBegin] at hsame
      simp [iterations, Action.isLoad, State.exchanged, Function.update_of_ne hother]
  | finds hloading hfound =>
      rename_i other new slot token
      by_cases hother : thread = other
      · subst hother
        simp [iterations, Action.isLoad, State.exchanged, State.finish, loadedSince, hloading]
      · simp [iterations, Action.isLoad, State.exchanged, State.finish,
          Function.update_of_ne hother, Ne.symm hother]
  | copies hloading hnew =>
      rename_i other new slot token
      by_cases hother : thread = other
      · subst hother
        simp [iterations, Action.isLoad, State.exchanged, loadedSince, hloading]
      · simp [iterations, Action.isLoad, State.exchanged, Function.update_of_ne hother,
          Ne.symm hother]
  | publishes hexchanging =>
      rename_i other new slot token
      by_cases hother : thread = other
      · subst hother
        simp [iterations, Action.isLoad, State.exchanged, State.finish, loadedSince, hexchanging]
      · simp [iterations, Action.isLoad, State.exchanged, State.finish,
          Function.update_of_ne hother]
  | retries hexchanging hchanged =>
      rename_i other old new slot token
      by_cases hother : thread = other
      · subst hother
        simp [iterations, Action.isLoad, State.exchanged, loadedSince, hexchanging, hchanged,
          Exchange.FailedOf]
      · simp [iterations, Action.isLoad, State.exchanged, Function.update_of_ne hother]
  | gets hslot => simp [iterations, Action.isLoad, State.exchanged]
  | drops => simp [iterations, Action.isLoad, State.exchanged, State.drop]

/-- **Step lemma.** -/
theorem Counted.step (h : Counted thread slot hist log s) (hsame : ¬ action.isBegin thread)
    (hstep : s.step action = some t) :
    Counted thread slot (hist ++ [action]) (log ++ s.exchanged action) t := by
  have hmoves := moves_of_step hstep
  refine ⟨fun exchange hexchange hthread => ?_, fun call hcall => ?_, ?_⟩
  · rcases List.mem_append.mp hexchange with hold | hnew
    · exact h.slots exchange hold hthread
    · obtain ⟨old, new, hcall, -⟩ := call_of_exchanged hmoves hnew
      rw [hthread] at hcall
      exact h.call _ hcall
  · cases continues_of_moves hmoves hcall with
    | same hsame => exact h.call call hsame
    | begins hslot => simp [Action.isBegin] at hsame
    | copies hloading hnew =>
        have hslot := h.call _ hloading
        exact hslot
    | retries hexchanging =>
        have hslot := h.call _ hexchanging
        exact hslot
  · have hloads := h.loads
    have hstepLoads := loads_of_moves hmoves hsame
    rw [iterations, List.countP_append, List.countP_append]
    rw [iterations] at hloads hstepLoads
    omega

/-- **Run lemma.** A call goes through the loop once more than its exchanges fail. -/
theorem counted_of_run {token : Bytes} {during : List (Action Thread)}
    (hcall : s.calls thread = some ⟨slot, token, .loading⟩)
    (hduring : ∀ action ∈ during, ¬ action.isBegin thread)
    (hrun : run State.step s during = some t) :
    Counted thread slot during (exchanges s during) t := by
  apply outputs_invariant (P := Counted thread slot) (G := fun _ action => ¬ action.isBegin thread)
  · refine ⟨fun exchange hexchange => (by cases hexchange), fun call hnext => ?_, ?_⟩
    · rw [hcall] at hnext
      cases hnext
      rfl
    · exact Nat.zero_le _
  · exact fun hist log m action m' hm hsame hstep => hm.step hsame hstep
  · intro hist action hpre m hm
    exact hduring action (hpre.subset (List.mem_append_right hist List.mem_cons_self))
  · exact hrun

end Iterations

/-! ## The successes on one id -/

section Successes

variable {Thread : Type} [DecidableEq Thread] {s t : State Thread} {action : Action Thread}
  {hist : List (Action Thread)} {log : List (Exchange Thread)}

/-- What somebody holds a pointer to stays as it is. -/
theorem map_heap_of_moves (h : Moves s action t) (hfresh : Fresh s action)
    {pointer : Option Address} (hholds : ∀ address, pointer = some address → s.Holds address) :
    pointer.map t.heap = pointer.map s.heap := by
  cases h with
  | copies hloading hnew => exact map_update_of_not_holds hfresh hholds
  | begins hidle hslot => rfl
  | finds hloading hfound => rfl
  | publishes hexchanging => rfl
  | retries hexchanging hchanged => rfl
  | gets hslot => rfl
  | drops => rfl

/-- Each success publishes a token that was not in the set that was loaded. -/
structure Published (log : List (Exchange Thread)) (s : State Thread) : Prop where
  returned : ∀ exchange ∈ log, exchange.succeeded = true →
    (exchange.slot, exchange.token) ∈ s.returned
  distinct : log.Pairwise fun first second => first.succeeded = true → second.succeeded = true →
    first.slot = second.slot → first.token ≠ second.token
  new : ∀ thread slot token old new, s.calls thread = some ⟨slot, token, .exchanging old new⟩ →
    token ∉ StemIdTokensRCUMap.tokensOf (old.map s.heap)

omit [DecidableEq Thread] in
theorem Published.start (heap : Address → TokensSet) : Published [] (State.start Thread heap) where
  returned exchange hexchange := by cases hexchange
  distinct := List.Pairwise.nil
  new thread slot token old new hcall := by cases hcall

/-- **Step lemma.** An exchange succeeds on the set that was loaded, so its token is none
of those that were published before. -/
theorem Published.step (h : Published log s) (hinv : Inv s) (hfresh : Fresh s action)
    (hstep : s.step action = some t) : Published (log ++ s.exchanged action) t := by
  have hmoves := moves_of_step hstep
  refine ⟨?_, ?_, ?_⟩
  · have hkept : ∀ entry ∈ s.returned, entry ∈ t.returned := by
      rcases hinv.step_toMap hfresh hstep with ⟨heq, -⟩ | ⟨slot, token, heq, -⟩
      · rw [heq]
        exact fun entry hentry => hentry
      · rw [heq]
        exact fun entry hentry => List.mem_append_left _ hentry
    intro exchange hexchange hsucceeded
    rcases List.mem_append.mp hexchange with hold | hnew
    · exact hkept _ (h.returned exchange hold hsucceeded)
    · obtain ⟨old, new, -, hreturns⟩ := call_of_exchanged hmoves hnew
      exact (hreturns hsucceeded).2
  · rw [List.pairwise_append]
    refine ⟨h.distinct, pairwise_exchanged hmoves _, ?_⟩
    intro first hfirst second hsecond hfirstSucceeded hsecondSucceeded hslot htoken
    have hmem := hinv.returned _ _ (h.returned first hfirst hfirstSucceeded)
    obtain ⟨old, new, hexchanging, hreturns⟩ := call_of_exchanged hmoves hsecond
    rw [hslot, htoken] at hmem
    rw [(hreturns hsecondSucceeded).1] at hexchanging
    exact h.new _ _ _ _ new hexchanging hmem
  · intro thread slot token old new hcall
    cases continues_of_moves hmoves hcall with
    | same hsame =>
        rw [map_heap_of_moves hmoves hfresh fun address hold =>
          Or.inr (Or.inl ⟨thread, _, hsame, Or.inl hold⟩)]
        exact h.new thread slot token old new hsame
    | copies hloading hnew =>
        rw [map_heap_of_moves hmoves hfresh fun address hcell => Or.inl ⟨slot, hcell⟩]
        exact hnew

/-- The calls in progress and the exchanges that were tried belong to calls that began. -/
structure Began (hist : List (Action Thread)) (log : List (Exchange Thread)) (s : State Thread) :
    Prop where
  calls : ∀ thread call, s.calls thread = some call →
    ∃ id, slot? id = some call.slot ∧ .begin thread id call.token ∈ hist
  exchanges : ∀ exchange ∈ log,
    ∃ id, slot? id = some exchange.slot ∧ .begin exchange.thread id exchange.token ∈ hist

/-- **Step lemma.** -/
theorem Began.step (h : Began hist log s) (hstep : s.step action = some t) :
    Began (hist ++ [action]) (log ++ s.exchanged action) t := by
  have hmoves := moves_of_step hstep
  have hlater : ∀ thread call, s.calls thread = some call →
      ∃ id, slot? id = some call.slot ∧ .begin thread id call.token ∈ hist ++ [action] := by
    intro thread call hcall
    obtain ⟨id, hslot, hbegin⟩ := h.calls thread call hcall
    exact ⟨id, hslot, List.mem_append_left _ hbegin⟩
  constructor
  · intro thread call hcall
    cases continues_of_moves hmoves hcall with
    | same hsame => exact hlater thread call hsame
    | begins hslot => exact ⟨_, hslot, List.mem_append_right _ List.mem_cons_self⟩
    | copies hloading hnew =>
        have hbegin := hlater thread _ hloading
        exact hbegin
    | retries hexchanging =>
        have hbegin := hlater thread _ hexchanging
        exact hbegin
  · intro exchange hexchange
    rcases List.mem_append.mp hexchange with hold | hnew
    · obtain ⟨id, hslot, hbegin⟩ := h.exchanges exchange hold
      exact ⟨id, hslot, List.mem_append_left _ hbegin⟩
    · obtain ⟨old, new, hcall, -⟩ := call_of_exchanged hmoves hnew
      have hbegin := hlater _ _ hcall
      exact hbegin

variable {heap : Address → TokensSet} {actions : List (Action Thread)} {final : State Thread}

/-- No two successes on one id have the same token. -/
theorem distinct_of_run (hrun : run State.step (State.start Thread heap) actions = some final)
    (hfresh : AllSteps State.step Fresh (State.start Thread heap) actions) :
    (exchanges (State.start Thread heap) actions).Pairwise fun first second =>
      first.succeeded = true → second.succeeded = true → first.slot = second.slot →
        first.token ≠ second.token := by
  have hpublished : Inv final ∧
      Published (exchanges (State.start Thread heap) actions) final := by
    apply outputs_invariant (P := fun _ log m => Inv m ∧ Published log m) (G := Fresh)
    · exact ⟨Inv.start heap, Published.start heap⟩
    · rintro hist log m action m' ⟨hinv, hpublished⟩ hok hstep
      exact ⟨hinv.step hok hstep, hpublished.step hinv hok hstep⟩
    · exact hfresh
    · exact hrun
  exact hpublished.2.distinct

theorem began_of_run (hrun : run State.step (State.start Thread heap) actions = some final) :
    Began actions (exchanges (State.start Thread heap) actions) final := by
  apply outputs_invariant_of_step (P := Began)
  · exact ⟨fun thread call hcall => (by cases hcall),
      fun exchange hexchange => (by cases hexchange)⟩
  · exact fun hist log m action m' hm hstep => hm.step hstep
  · exact hrun

end Successes

/-! ## The bound -/

section Bound

variable {Thread : Type} [DecidableEq Thread] {heap : Address → TokensSet}
  {before after actions : List (Action Thread)} {thread : Thread} {id : StemId} {token : Bytes}
  {final : State Thread}

omit [DecidableEq Thread] in
theorem mem_tokensAdded :
    token ∈ tokensAdded id actions ↔ ∃ thread, Action.begin thread id token ∈ actions := by
  rw [tokensAdded, List.mem_toFinset, List.mem_filterMap]
  constructor
  · rintro ⟨action, haction, htoken⟩
    cases action with
    | begin thread other added =>
        rw [Option.ite_none_right_eq_some] at htoken
        obtain ⟨rfl, hadded⟩ := htoken
        cases hadded
        exact ⟨thread, haction⟩
    | load thread new => cases htoken
    | exchange thread => cases htoken
    | get other => cases htoken
    | drop idx => cases htoken
  · rintro ⟨thread, hbegin⟩
    exact ⟨_, hbegin, if_pos rfl⟩

/-- A call begins in a state of the run, and what is tried before the thread calls again
is a part of what is tried in the whole run. -/
theorem exists_begin_of_run
    (hrun : run State.step (State.start Thread heap) (before ++ .begin thread id token :: after) =
      some final) :
    ∃ m m' slot first last, slot? id = some slot ∧
      m.calls thread = some ⟨slot, token, .loading⟩ ∧
      run State.step m (untilNextCall thread after) = some m' ∧
      exchanges (State.start Thread heap) (before ++ .begin thread id token :: after) =
        first ++ (exchanges m (untilNextCall thread after) ++ last) := by
  obtain ⟨s, hbefore, hrest⟩ := run_append_eq_some.mp hrun
  obtain ⟨m, hbegin, hafter⟩ := Option.bind_eq_some_iff.mp hrest
  have hsplit : untilNextCall thread after ++
      after.dropWhile (fun action => !action.isBegin thread) = after :=
    List.takeWhile_append_dropWhile
  have hlog : exchanges (State.start Thread heap) (before ++ .begin thread id token :: after) =
      exchanges (State.start Thread heap) before ++ exchanges m after := by
    rw [exchanges_append hbefore]
    exact congrArg _ (outputs_cons hbegin after)
  rw [← hsplit] at hafter
  obtain ⟨m', hduring, -⟩ := run_append_eq_some.mp hafter
  have hafterLog : exchanges m after = exchanges m (untilNextCall thread after) ++
      exchanges m' (after.dropWhile fun action => !action.isBegin thread) := by
    rw [← exchanges_append hduring, hsplit]
  cases moves_of_step hbegin with
  | begins hidle hslot =>
      exact ⟨_, m', _, _, _, hslot, Function.update_self .., hduring,
        hlog.trans (congrArg _ hafterLog)⟩

/-- The successes of other threads on an id have different tokens, which are among those
that the other calls add. -/
theorem countP_accountsFor_le {slot : Fin maxStemsNo} {log : List (Exchange Thread)}
    (hslot : slot? id = some slot)
    (hdistinct : log.Pairwise fun first second => first.succeeded = true →
      second.succeeded = true → first.slot = second.slot → first.token ≠ second.token)
    (hbegan : ∀ exchange ∈ log, ∃ other, slot? other = some exchange.slot ∧
      .begin exchange.thread other exchange.token ∈ before ++ .begin thread id token :: after) :
    log.countP (Exchange.AccountsFor ⟨thread, slot, token, false⟩ ·) ≤
      (tokensAdded id (before ++ after)).card := by
  apply countP_le_card (f := Exchange.token)
  · apply hdistinct.imp
    rintro first second hne ⟨hfirst, -, hfirstSlot⟩ ⟨hsecond, -, hsecondSlot⟩
    exact hne hfirst hsecond (hfirstSlot.trans hsecondSlot.symm)
  · rintro exchange hexchange ⟨-, hthread, hsame⟩
    obtain ⟨other, hother, hbegin⟩ := hbegan exchange hexchange
    have hid : other = id := by
      rw [eq_ofNat_of_slot? hother, eq_ofNat_of_slot? hslot, hsame]
    rw [hid] at hbegin
    rw [mem_tokensAdded]
    refine ⟨exchange.thread, ?_⟩
    rcases List.mem_append.mp hbegin with hbefore | hafter
    · exact List.mem_append_left _ hbefore
    · rcases List.mem_cons.mp hafter with hself | hafter
      · cases hself
        exact absurd rfl hthread
      · exact List.mem_append_right _ hafter

/-- A call goes through its loop at most once more than there are tokens that the other
calls add to its id. -/
theorem iterations_le_of_run
    (hrun : run State.step (State.start Thread heap) (before ++ .begin thread id token :: after) =
      some final)
    (hfresh : AllSteps State.step Fresh (State.start Thread heap)
      (before ++ .begin thread id token :: after)) :
    iterations thread (untilNextCall thread after) ≤
      (tokensAdded id (before ++ after)).card + 1 := by
  obtain ⟨m, m', slot, first, last, hslot, hcall, hduring, hlog⟩ := exists_begin_of_run hrun
  have hnext : ∀ action ∈ untilNextCall thread after, ¬ action.isBegin thread := by
    intro action haction hbegin
    have hnot := List.mem_takeWhile_imp haction
    rw [hbegin] at hnot
    cases hnot
  have hcounted := counted_of_run hcall hnext hduring
  have hcharged : Charged (Exchange.FailedOf thread) Exchange.AccountsFor
      (exchanges m (untilNextCall thread after)) := by
    apply charged_of_run _ hduring
    intro slot token old new hexchanging
    rw [hcall] at hexchanging
    cases hexchanging
  have hdistinct := distinct_of_run hrun hfresh
  have hbegan := (began_of_run hrun).exchanges
  rw [hlog] at hdistinct hbegan
  generalize exchanges m (untilNextCall thread after) = log at hcounted hcharged hdistinct hbegan
  have hfailures : log.countP (Exchange.FailedOf thread ·) ≤
      log.countP (Exchange.AccountsFor ⟨thread, slot, token, false⟩ ·) := by
    apply hcharged.countP_le
    rintro failed hfailed ⟨hthread, -⟩ other ⟨hsucceeded, hother, hsame⟩
    refine ⟨hsucceeded, hthread ▸ hother, ?_⟩
    exact hsame.trans (hcounted.slots failed hfailed hthread)
  have hsuccesses : log.countP (Exchange.AccountsFor ⟨thread, slot, token, false⟩ ·) ≤
      (tokensAdded id (before ++ after)).card := by
    apply countP_accountsFor_le hslot
    · exact (List.pairwise_append.mp (List.pairwise_append.mp hdistinct).2.1).1
    · exact fun exchange hexchange => hbegan exchange
        (List.mem_append_right _ (List.mem_append_left _ hexchange))
  have hloads := hcounted.loads
  have hone := loadedSince_le_one (m'.calls thread)
  omega

/-- **Retries.** A call goes through its loop at most once more than there are different
tokens that other calls add to its id, and the failed exchanges of a thread are accounted
for by different successful ones of other threads on the same id. -/
theorem retries_bounded_of_run
    (hrun : run State.step (State.start Thread heap) actions = some final)
    (hfresh : AllSteps State.step Fresh (State.start Thread heap) actions) :
    (∀ before thread id token after, actions = before ++ .begin thread id token :: after →
      iterations thread (untilNextCall thread after) ≤
        (tokensAdded id (before ++ after)).card + 1) ∧
    ∀ thread, ∃ account, Accounts (Exchange.FailedOf thread) Exchange.AccountsFor
      (exchanges (State.start Thread heap) actions) account := by
  constructor
  · rintro before thread id token after rfl
    exact iterations_le_of_run hrun hfresh
  · intro thread
    apply (charged_of_run _ hrun).exists_account
    intro slot token old new hcall
    cases hcall

end Bound

/-- In the run with two writers one exchange fails. -/
theorem retries_bounded_of_contended_run :
    ∃ final, run State.step (State.start Bool fun _ => SortedSet.empty) contendedActions =
        some final ∧
      ((∀ before thread id token after,
        contendedActions = before ++ .begin thread id token :: after →
        iterations thread (untilNextCall thread after) ≤
          (tokensAdded id (before ++ after)).card + 1) ∧
      ∀ thread, ∃ account, Accounts (Exchange.FailedOf thread) Exchange.AccountsFor
        (exchanges (State.start Bool fun _ => SortedSet.empty) contendedActions) account) := by
  have hsome : (run State.step (State.start Bool fun _ => SortedSet.empty)
      contendedActions).isSome := by
    decide +kernel
  obtain ⟨final, hrun⟩ := Option.isSome_iff_exists.mp hsome
  exact ⟨final, hrun, retries_bounded_of_run hrun (allSteps_fresh_of_nodup (by decide))⟩

/-- Three writers of one token load the same pointer, and one exchange succeeds. -/
def threeWriters : List (Action (Fin 3)) :=
  [.begin 0 0 [97], .begin 1 0 [97], .begin 2 0 [97], .load 0 1, .load 1 2, .load 2 3,
    .exchange 0, .exchange 1, .exchange 2, .load 1 4, .load 2 5]

/-- What they try: one exchange succeeds and two fail. -/
def threeWritersLog : List (Exchange (Fin 3)) :=
  [⟨0, 0, [97], true⟩, ⟨1, 0, [97], false⟩, ⟨2, 0, [97], false⟩]

/-- One success cannot account for the failures of two threads with a different one each. -/
theorem not_accounted_of_threeWriters :
    ¬ ∀ (Thread : Type) (_ : DecidableEq Thread) (heap : Address → TokensSet)
      (actions : List (Action Thread)) (final : State Thread),
      run State.step (State.start Thread heap) actions = some final →
      AllSteps State.step Fresh (State.start Thread heap) actions →
      (∀ (before : List (Action Thread)) thread id token after,
        actions = before ++ .begin thread id token :: after →
        iterations thread (untilNextCall thread after) ≤
          (tokensAdded id (before ++ after)).card + 1) ∧
      ∃ account, Accounts Exchange.Failed Exchange.AccountsFor
        (exchanges (State.start Thread heap) actions) account := by
  intro hall
  have hsome : (run State.step (State.start (Fin 3) fun _ => SortedSet.empty)
      threeWriters).isSome := by
    decide +kernel
  have hlog : exchanges (State.start (Fin 3) fun _ => SortedSet.empty) threeWriters =
      threeWritersLog := by
    decide +kernel
  obtain ⟨final, hrun⟩ := Option.isSome_iff_exists.mp hsome
  obtain ⟨-, account, haccount⟩ :=
    hall (Fin 3) inferInstance _ _ final hrun (allSteps_fresh_of_nodup (by decide))
  rw [hlog] at haccount
  have honly : ∀ pos b, threeWritersLog[pos]? = some b → b.succeeded = true → pos = 0 := by
    rintro (_ | _ | _ | pos) b hb hsucceeded
    · rfl
    · cases hb
      cases hsucceeded
    · cases hb
      cases hsucceeded
    · cases hb
  obtain ⟨-, b, hb, hpaysb, -⟩ := haccount.paid 1 ⟨1, 0, [97], false⟩ rfl rfl
  obtain ⟨-, c, hc, hpaysc, -⟩ := haccount.paid 2 ⟨2, 0, [97], false⟩ rfl rfl
  have hsame : account 1 = account 2 := by
    rw [honly _ b hb hpaysb, honly _ c hc hpaysc]
  exact absurd (haccount.distinct 1 2 _ _ rfl rfl rfl rfl hsame) (by decide)

end Rcu

end Unbiased
