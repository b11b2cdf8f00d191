/-
# The stem-to-tokens map under interleaving

A cell of the map holds a shared pointer to a token set that is never written
after it was published. A writer loads the pointer, makes a copy of the set with
its token, and exchanges the pointer for its own copy if the cell still holds the
one it loaded; else it starts over. A reader loads the pointer. A load is one step here,
like the exchange; the code copies the shared pointer plainly.

Memory is a heap from addresses to sets. The address of a copy is chosen by the
allocator, which may reuse any address that nobody holds.
-/

import Unbiased.Common.TokensMap
import Unbiased.Math.Execution

namespace Unbiased

open Unbiased.Math

namespace Rcu

/-- Where a token set is stored. -/
abbrev Address := ℕ

/-- How far a writer is in its loop. -/
inductive Stage where
  /-- It is about to load the pointer. -/
  | loading
  /-- It has loaded a pointer and made a copy, and is about to exchange them. -/
  | exchanging (old : Option Address) (new : Address)

/-- A call of `addToken` in progress. -/
structure Call where
  slot : Fin maxStemsNo
  token : Bytes
  stage : Stage

/-- The call holds a pointer to the address. -/
def Call.Holds (call : Call) (address : Address) : Prop :=
  match call.stage with
  | .loading => False
  | .exchanging old new => old = some address ∨ new = address

/-- What `getTokens` returned, and what had happened before. -/
structure Read where
  slot : Fin maxStemsNo
  pointer : Option Address
  /-- The tokens it points to. -/
  tokens : TokensSet
  /-- The reader still holds the pointer. -/
  held : Bool
  /-- The calls of `addToken` that had begun. -/
  begun : List (Fin maxStemsNo × Bytes)
  /-- The calls of `addToken` that had returned. -/
  returned : List (Fin maxStemsNo × Bytes)

/-- The shared memory, the writers, and what has happened so far. -/
structure State (Thread : Type) where
  cells : Fin maxStemsNo → Option Address
  heap : Address → TokensSet
  calls : Thread → Option Call
  begun : List (Fin maxStemsNo × Bytes)
  returned : List (Fin maxStemsNo × Bytes)
  /-- The calls of `getTokens`, oldest first. -/
  reads : List Read

/-- An empty map and no calls. Nothing is assumed about the heap. -/
def State.start (Thread : Type) (heap : Address → TokensSet) : State Thread :=
  ⟨fun _ => none, heap, fun _ => none, [], [], []⟩

/-- What can happen next. -/
inductive Action (Thread : Type) where
  /-- A thread calls `addToken`. -/
  | begin (thread : Thread) (id : StemId) (token : Bytes)
  /-- A writer loads the pointer and copies the set to an address. -/
  | load (thread : Thread) (new : Address)
  /-- A writer tries to exchange the pointer. -/
  | exchange (thread : Thread)
  /-- Some thread calls `getTokens`. -/
  | get (id : StemId)
  /-- A reader drops what it got. -/
  | drop (idx : ℕ)

namespace State

variable {Thread : Type}

/-- The map that the cells and the heap represent. -/
def toMap (s : State Thread) : StemIdTokensRCUMap := fun slot => (s.cells slot).map s.heap

/-- The tokens of a cell. -/
def tokensAt (s : State Thread) (slot : Fin maxStemsNo) : TokensSet :=
  StemIdTokensRCUMap.tokensOf (s.toMap slot)

/-- Somebody holds a pointer to the address. -/
def Holds (s : State Thread) (address : Address) : Prop :=
  (∃ slot, s.cells slot = some address) ∨
  (∃ thread call, s.calls thread = some call ∧ call.Holds address) ∨
  ∃ read ∈ s.reads, read.held = true ∧ read.pointer = some address

variable [DecidableEq Thread]

/-- Return from `addToken`. -/
def finish (s : State Thread) (thread : Thread) (call : Call) : State Thread :=
  { s with
    calls := Function.update s.calls thread none
    returned := s.returned ++ [(call.slot, call.token)] }

def begin (s : State Thread) (thread : Thread) (id : StemId) (token : Bytes) :
    Option (State Thread) :=
  match s.calls thread with
  | some _ => none
  | none => do
    let slot ← slot? id
    some { s with
      calls := Function.update s.calls thread (some ⟨slot, token, .loading⟩)
      begun := s.begun ++ [(slot, token)] }

/-- The first half of the loop body. A token that is already there ends the call. -/
def load (s : State Thread) (thread : Thread) (new : Address) : Option (State Thread) :=
  match s.calls thread with
  | some ⟨slot, token, .loading⟩ =>
    let old := s.cells slot
    if token ∈ s.tokensAt slot then some (s.finish thread ⟨slot, token, .loading⟩)
    else some { s with
      heap := Function.update s.heap new
        (StemIdTokensRCUMap.withToken token (old.map s.heap))
      calls := Function.update s.calls thread (some ⟨slot, token, .exchanging old new⟩) }
  | _ => none

/-- The second half: compare and exchange pointers, or start over. -/
def exchange (s : State Thread) (thread : Thread) : Option (State Thread) :=
  match s.calls thread with
  | some ⟨slot, token, .exchanging old new⟩ =>
    if s.cells slot = old then
      some ({ s with cells := Function.update s.cells slot (some new) }.finish thread
        ⟨slot, token, .exchanging old new⟩)
    else some { s with
      calls := Function.update s.calls thread (some ⟨slot, token, .loading⟩) }
  | _ => none

def get (s : State Thread) (id : StemId) : Option (State Thread) :=
  (slot? id).map fun slot => { s with
    reads := s.reads ++ [⟨slot, s.cells slot, s.tokensAt slot, true, s.begun, s.returned⟩] }

def drop (s : State Thread) (idx : ℕ) : State Thread :=
  { s with reads := s.reads.modify idx fun read => { read with held := false } }

/-- One step of anybody. -/
def step (s : State Thread) : Action Thread → Option (State Thread)
  | .begin thread id token => s.begin thread id token
  | .load thread new => s.load thread new
  | .exchange thread => s.exchange thread
  | .get id => s.get id
  | .drop idx => some (s.drop idx)

end State

/-- A pointer that is held is not reused: a copy goes where nobody holds a pointer to. -/
def Fresh {Thread : Type} (s : State Thread) : Action Thread → Prop
  | .load _ new => ¬ s.Holds new
  | _ => True

/-! ## What a step can do -/

section Moves

variable {Thread : Type} [DecidableEq Thread]

/-- The steps, one constructor for each way through the code. -/
inductive Moves (s : State Thread) : Action Thread → State Thread → Prop where
  | begins {thread : Thread} {id : StemId} {token : Bytes} {slot : Fin maxStemsNo}
    (hidle : s.calls thread = none) (hslot : slot? id = some slot) :
    Moves s (.begin thread id token) { s with
      calls := Function.update s.calls thread (some ⟨slot, token, .loading⟩)
      begun := s.begun ++ [(slot, token)] }
  | finds {thread : Thread} {new : Address} {slot : Fin maxStemsNo} {token : Bytes}
    (hcall : s.calls thread = some ⟨slot, token, .loading⟩) (hfound : token ∈ s.tokensAt slot) :
    Moves s (.load thread new) (s.finish thread ⟨slot, token, .loading⟩)
  | copies {thread : Thread} {new : Address} {slot : Fin maxStemsNo} {token : Bytes}
    (hcall : s.calls thread = some ⟨slot, token, .loading⟩) (hnew : token ∉ s.tokensAt slot) :
    Moves s (.load thread new) { s with
      heap := Function.update s.heap new (StemIdTokensRCUMap.withToken token (s.toMap slot))
      calls := Function.update s.calls thread
        (some ⟨slot, token, .exchanging (s.cells slot) new⟩) }
  | publishes {thread : Thread} {new : Address} {slot : Fin maxStemsNo} {token : Bytes}
    (hcall : s.calls thread = some ⟨slot, token, .exchanging (s.cells slot) new⟩) :
    Moves s (.exchange thread)
      ({ s with cells := Function.update s.cells slot (some new) }.finish thread
        ⟨slot, token, .exchanging (s.cells slot) new⟩)
  | retries {thread : Thread} {old : Option Address} {new : Address} {slot : Fin maxStemsNo}
    {token : Bytes} (hcall : s.calls thread = some ⟨slot, token, .exchanging old new⟩)
    (hchanged : s.cells slot ≠ old) :
    Moves s (.exchange thread) { s with
      calls := Function.update s.calls thread (some ⟨slot, token, .loading⟩) }
  | gets {id : StemId} {slot : Fin maxStemsNo} (hslot : slot? id = some slot) :
    Moves s (.get id) { s with
      reads := s.reads ++ [⟨slot, s.cells slot, s.tokensAt slot, true, s.begun, s.returned⟩] }
  | drops {idx : ℕ} : Moves s (.drop idx) (s.drop idx)

/-- Every step is one of these. -/
theorem moves_of_step {s t : State Thread} {action : Action Thread}
    (hstep : s.step action = some t) : Moves s action t := by
  cases action with
  | begin thread id token =>
      change s.begin thread id token = some t at hstep
      unfold State.begin at hstep
      cases hcall : s.calls thread with
      | some call =>
          rw [hcall] at hstep
          cases hstep
      | none =>
          rw [hcall] at hstep
          cases hslot : slot? id with
          | none =>
              rw [hslot] at hstep
              cases hstep
          | some slot =>
              rw [hslot] at hstep
              cases hstep
              exact .begins hcall hslot
  | load thread new =>
      change s.load thread new = some t at hstep
      unfold State.load at hstep
      split at hstep
      · rename_i slot token hcall
        by_cases hfound : token ∈ s.tokensAt slot
        · rw [if_pos hfound] at hstep
          cases hstep
          exact .finds hcall hfound
        · rw [if_neg hfound] at hstep
          cases hstep
          exact .copies hcall hfound
      · cases hstep
  | exchange thread =>
      change s.exchange thread = some t at hstep
      unfold State.exchange at hstep
      split at hstep
      · rename_i slot token old new hcall
        by_cases hsame : s.cells slot = old
        · rw [if_pos hsame] at hstep
          cases hstep
          subst hsame
          exact .publishes hcall
        · rw [if_neg hsame] at hstep
          cases hstep
          exact .retries hcall hsame
      · cases hstep
  | get id =>
      rcases Option.map_eq_some_iff.mp hstep with ⟨slot, hslot, rfl⟩
      exact .gets hslot
  | drop idx =>
      cases hstep
      exact .drops

end Moves

/-! ## The invariant -/

section Invariant

variable {Thread : Type}

/-- What a reader got has the tokens of the calls that had returned, no others than
those of calls that had begun, and is what the reader still sees. -/
structure ReadSound (s : State Thread) (read : Read) : Prop where
  returned : ∀ token, (read.slot, token) ∈ read.returned → token ∈ read.tokens
  begun : ∀ token ∈ read.tokens, (read.slot, token) ∈ read.begun
  unchanged : read.held = true →
    StemIdTokensRCUMap.tokensOf (read.pointer.map s.heap) = read.tokens

/-- The writers are in calls that have begun, and their copies are those of the sets
they loaded. -/
structure CallsInv (heap : Address → TokensSet) (begun : List (Fin maxStemsNo × Bytes))
    (calls : Thread → Option Call) : Prop where
  begun : ∀ thread call, calls thread = some call → (call.slot, call.token) ∈ begun
  copies : ∀ thread slot token old new, calls thread = some ⟨slot, token, .exchanging old new⟩ →
    heap new = StemIdTokensRCUMap.withToken token (old.map heap)

/-- The calls explain the tokens of the cells, and the reads are sound and in order. -/
structure Inv (s : State Thread) : Prop where
  returned : ∀ slot token, (slot, token) ∈ s.returned → token ∈ s.tokensAt slot
  begun : ∀ slot, ∀ token ∈ s.tokensAt slot, (slot, token) ∈ s.begun
  calls : CallsInv s.heap s.begun s.calls
  reads : ∀ read ∈ s.reads, ReadSound s read
  /-- What was read is still in the cell. -/
  kept : ∀ read ∈ s.reads, ∀ token ∈ read.tokens, token ∈ s.tokensAt read.slot
  ordered : s.reads.Pairwise fun first second =>
    first.slot = second.slot → ∀ token ∈ first.tokens, token ∈ second.tokens

theorem Inv.start (heap : Address → TokensSet) : Inv (State.start Thread heap) where
  returned slot token hmem := by cases hmem
  begun slot token hmem := absurd hmem (SortedSet.notMem_empty token)
  calls := ⟨fun thread call hcall => (by cases hcall),
    fun thread slot token old new hcall => (by cases hcall)⟩
  reads read hread := by cases hread
  kept read hread := by cases hread
  ordered := List.Pairwise.nil

variable {s t : State Thread}

/-- Writing to an address that nobody holds changes nothing that anybody sees. -/
theorem map_update_of_not_holds {new : Address} {tokens : TokensSet} {pointer : Option Address}
    (hfresh : ¬ s.Holds new) (hholds : ∀ address, pointer = some address → s.Holds address) :
    pointer.map (Function.update s.heap new tokens) = pointer.map s.heap := by
  cases pointer with
  | none => rfl
  | some address =>
      have hne : address ≠ new := by
        intro heq
        exact hfresh (heq ▸ hholds address rfl)
      rw [Option.map_some, Option.map_some, Function.update_of_ne hne]

/-- One thread's call changes. -/
theorem CallsInv.update [DecidableEq Thread] {heap : Address → TokensSet}
    {begun : List (Fin maxStemsNo × Bytes)} {calls : Thread → Option Call}
    (h : CallsInv heap begun calls) (thread : Thread) {next : Option Call}
    (hbegun : ∀ call, next = some call → (call.slot, call.token) ∈ begun)
    (hcopies : ∀ slot token old new, next = some ⟨slot, token, .exchanging old new⟩ →
      heap new = StemIdTokensRCUMap.withToken token (old.map heap)) :
    CallsInv heap begun (Function.update calls thread next) where
  begun other call hcall := by
    by_cases hother : other = thread
    · rw [hother, Function.update_self] at hcall
      exact hbegun call hcall
    · rw [Function.update_of_ne hother] at hcall
      exact h.begun other call hcall
  copies other slot token old new hcall := by
    by_cases hother : other = thread
    · rw [hother, Function.update_self] at hcall
      exact hcopies slot token old new hcall
    · rw [Function.update_of_ne hother] at hcall
      exact h.copies other slot token old new hcall

/-- A step that changes neither the cells, the heap nor the reads. -/
theorem Inv.with_calls (h : Inv s) {calls : Thread → Option Call}
    {begun returned : List (Fin maxStemsNo × Bytes)} (hcalls : CallsInv s.heap begun calls)
    (hbegun : ∀ entry ∈ s.begun, entry ∈ begun)
    (hreturned : ∀ slot token, (slot, token) ∈ returned → token ∈ s.tokensAt slot) :
    Inv { s with
      calls := calls
      begun := begun
      returned := returned } where
  returned := hreturned
  begun slot token hmem := hbegun _ (h.begun slot token hmem)
  calls := hcalls
  reads read hread := ⟨(h.reads read hread).returned, (h.reads read hread).begun,
    (h.reads read hread).unchanged⟩
  kept := h.kept
  ordered := h.ordered

/-- A call returns once its token is in the cell. -/
theorem Inv.finishes [DecidableEq Thread] (h : Inv s) (thread : Thread) {call : Call}
    (hfound : call.token ∈ s.tokensAt call.slot) : Inv (s.finish thread call) := by
  apply h.with_calls
  · apply h.calls.update thread
    · intro next hnext
      cases hnext
    · intro slot token old new hnext
      cases hnext
  · exact fun entry hentry => hentry
  · intro slot token hmem
    rcases List.mem_append.mp hmem with hold | hnew
    · exact h.returned slot token hold
    · cases List.mem_singleton.mp hnew
      exact hfound

/-- A copy at a fresh address leaves the map as it is. -/
theorem toMap_of_fresh {calls : Thread → Option Call} {new : Address} {tokens : TokensSet}
    (hfresh : ¬ s.Holds new) :
    ({ s with
      heap := Function.update s.heap new tokens
      calls := calls } : State Thread).toMap = s.toMap := by
  funext slot
  exact map_update_of_not_holds hfresh fun address hcell => Or.inl ⟨slot, hcell⟩

/-- A copy at a fresh address leaves the writers' copies as they are. -/
theorem Inv.calls_of_fresh (h : Inv s) {new : Address} {tokens : TokensSet}
    (hfresh : ¬ s.Holds new) : CallsInv (Function.update s.heap new tokens) s.begun s.calls where
  begun := h.calls.begun
  copies thread slot token old copy hcall := by
    have hcopy : copy ≠ new := by
      intro heq
      exact hfresh (Or.inr (Or.inl ⟨thread, _, hcall, Or.inr heq⟩))
    rw [Function.update_of_ne hcopy, map_update_of_not_holds hfresh fun address hold =>
      Or.inr (Or.inl ⟨thread, _, hcall, Or.inl hold⟩)]
    exact h.calls.copies thread slot token old copy hcall

/-- A writer makes its copy where nobody looks. -/
theorem Inv.with_copy [DecidableEq Thread] (h : Inv s) {thread : Thread} {new : Address}
    {slot : Fin maxStemsNo} {token : Bytes}
    (hcall : s.calls thread = some ⟨slot, token, .loading⟩) (hfresh : ¬ s.Holds new) :
    Inv { s with
      heap := Function.update s.heap new (StemIdTokensRCUMap.withToken token (s.toMap slot))
      calls := Function.update s.calls thread
        (some ⟨slot, token, .exchanging (s.cells slot) new⟩) } := by
  have hmap : ∀ other, ({ s with
      heap := Function.update s.heap new (StemIdTokensRCUMap.withToken token (s.toMap slot))
      calls := Function.update s.calls thread
        (some ⟨slot, token, .exchanging (s.cells slot) new⟩) } : State Thread).tokensAt other =
      s.tokensAt other := fun other =>
    congrArg StemIdTokensRCUMap.tokensOf (congrFun (toMap_of_fresh hfresh) other)
  exact {
    returned := by
      intro other found hmem
      rw [hmap]
      exact h.returned other found hmem
    begun := by
      intro other found hmem
      rw [hmap] at hmem
      exact h.begun other found hmem
    calls := by
      apply (h.calls_of_fresh hfresh).update thread
      · intro call hnext
        cases hnext
        exact h.calls.begun thread ⟨slot, token, .loading⟩ hcall
      · intro otherSlot otherToken old copy hnext
        cases hnext
        rw [Function.update_self, map_update_of_not_holds hfresh fun address hcell =>
          Or.inl ⟨slot, hcell⟩]
        rfl
    reads := by
      intro read hread
      have hsound := h.reads read hread
      refine ⟨hsound.returned, hsound.begun, fun hread' => ?_⟩
      show StemIdTokensRCUMap.tokensOf (read.pointer.map (Function.update s.heap new _)) = _
      rw [map_update_of_not_holds hfresh fun address hpointer =>
        Or.inr (Or.inr ⟨read, hread, hread', hpointer⟩)]
      exact hsound.unchanged hread'
    kept := by
      intro read hread found hfound
      rw [hmap]
      exact h.kept read hread found hfound
    ordered := h.ordered }

/-- The copy of a writer becomes the cell's set. -/
theorem Inv.toMap_with_cell (h : Inv s) {thread : Thread} {slot : Fin maxStemsNo} {token : Bytes}
    {new : Address} (hcall : s.calls thread = some ⟨slot, token, .exchanging (s.cells slot) new⟩) :
    ({ s with cells := Function.update s.cells slot (some new) } : State Thread).toMap =
      Function.update s.toMap slot (some (StemIdTokensRCUMap.withToken token (s.toMap slot))) := by
  funext other
  show (Function.update s.cells slot (some new) other).map s.heap = _
  by_cases hother : other = slot
  · rw [hother, Function.update_self, Function.update_self, Option.map_some,
      h.calls.copies thread slot token _ new hcall]
    rfl
  · rw [Function.update_of_ne hother, Function.update_of_ne hother]
    rfl

/-- A writer puts its copy into the cell it loaded from. -/
theorem Inv.with_cell (h : Inv s) {thread : Thread} {slot : Fin maxStemsNo} {token : Bytes}
    {new : Address} (hcall : s.calls thread = some ⟨slot, token, .exchanging (s.cells slot) new⟩) :
    Inv { s with cells := Function.update s.cells slot (some new) } := by
  have hgrows : ∀ other found,
      found ∈ ({ s with cells := Function.update s.cells slot (some new) } :
        State Thread).tokensAt other ↔
      found ∈ s.tokensAt other ∨ other = slot ∧ found = token := by
    intro other found
    rw [State.tokensAt, h.toMap_with_cell hcall]
    by_cases hother : other = slot
    · rw [hother, Function.update_self, StemIdTokensRCUMap.tokensOf_some,
        StemIdTokensRCUMap.mem_withToken, State.tokensAt, or_comm]
      simp
    · rw [Function.update_of_ne hother]
      simp [State.tokensAt, hother]
  exact {
    returned := fun other found hmem => (hgrows other found).mpr
      (Or.inl (h.returned other found hmem))
    begun := by
      intro other found hmem
      rcases (hgrows other found).mp hmem with hold | ⟨rfl, rfl⟩
      · exact h.begun other found hold
      · exact h.calls.begun thread _ hcall
    calls := h.calls
    reads := fun read hread => ⟨(h.reads read hread).returned, (h.reads read hread).begun,
      (h.reads read hread).unchanged⟩
    kept := fun read hread found hfound => (hgrows _ found).mpr
      (Or.inl (h.kept read hread found hfound))
    ordered := h.ordered }

/-- A reader gets what is in the cell. -/
theorem Inv.with_read (h : Inv s) (slot : Fin maxStemsNo) :
    Inv { s with
      reads := s.reads ++
        [⟨slot, s.cells slot, s.tokensAt slot, true, s.begun, s.returned⟩] } where
  returned := h.returned
  begun := h.begun
  calls := h.calls
  reads read hread := by
    rcases List.mem_append.mp hread with hold | hnew
    · exact ⟨(h.reads read hold).returned, (h.reads read hold).begun,
        (h.reads read hold).unchanged⟩
    · cases List.mem_singleton.mp hnew
      exact ⟨h.returned slot, h.begun slot, fun _ => rfl⟩
  kept read hread := by
    rcases List.mem_append.mp hread with hold | hnew
    · exact h.kept read hold
    · cases List.mem_singleton.mp hnew
      exact fun token htoken => htoken
  ordered := by
    rw [List.pairwise_append]
    refine ⟨h.ordered, List.pairwise_singleton _ _, fun first hfirst second hsecond hslot => ?_⟩
    cases List.mem_singleton.mp hsecond
    intro token htoken
    have hkept := h.kept first hfirst token htoken
    rwa [hslot] at hkept

/-- A read after a drop is a read before it, held if it was and is not the one dropped. -/
theorem getElem?_drop {idx pos : ℕ} {read : Read} (hread : (s.drop idx).reads[pos]? = some read) :
    ∃ before, s.reads[pos]? = some before ∧ read = { before with held := read.held } ∧
      (read.held = true → before.held = true) := by
  rw [State.drop, List.getElem?_modify] at hread
  rcases Option.map_eq_some_iff.mp hread with ⟨before, hbefore, rfl⟩
  refine ⟨before, hbefore, ?_⟩
  by_cases hpos : idx = pos
  · rw [if_pos hpos]
    exact ⟨rfl, fun hheld => by cases hheld⟩
  · rw [if_neg hpos]
    exact ⟨rfl, fun hheld => hheld⟩

/-- A reader drops what it got. -/
theorem Inv.with_drop (h : Inv s) (idx : ℕ) : Inv (s.drop idx) where
  returned := h.returned
  begun := h.begun
  calls := h.calls
  reads read hread := by
    rcases List.getElem?_of_mem hread with ⟨pos, hpos⟩
    rcases getElem?_drop hpos with ⟨before, hbefore, heq, hheld⟩
    have hsound := h.reads before (List.mem_of_getElem? hbefore)
    rw [heq]
    exact ⟨hsound.returned, hsound.begun, fun hread => hsound.unchanged (hheld hread)⟩
  kept read hread := by
    rcases List.getElem?_of_mem hread with ⟨pos, hpos⟩
    rcases getElem?_drop hpos with ⟨before, hbefore, heq, -⟩
    rw [heq]
    exact h.kept before (List.mem_of_getElem? hbefore)
  ordered := by
    have hordered := List.pairwise_iff_getElem.mp h.ordered
    rw [List.pairwise_iff_getElem]
    intro i j hi hj hij
    rcases getElem?_drop (List.getElem?_eq_getElem hi) with ⟨first, hfirst, hfirstEq, -⟩
    rcases getElem?_drop (List.getElem?_eq_getElem hj) with ⟨second, hsecond, hsecondEq, -⟩
    rcases List.getElem?_eq_some_iff.mp hfirst with ⟨hilt, rfl⟩
    rcases List.getElem?_eq_some_iff.mp hsecond with ⟨hjlt, rfl⟩
    rw [hfirstEq, hsecondEq]
    exact hordered i j hilt hjlt hij

/-! ## Runs -/

variable [DecidableEq Thread]

/-- **Step lemma.** -/
theorem Inv.step (h : Inv s) {action : Action Thread} (hfresh : Fresh s action)
    (hstep : s.step action = some t) : Inv t := by
  cases moves_of_step hstep with
  | begins hidle hslot =>
      apply h.with_calls
      · apply CallsInv.update ⟨fun thread call hcall => List.mem_append_left _
          (h.calls.begun thread call hcall), h.calls.copies⟩
        · intro call hcall
          cases hcall
          exact List.mem_append_right _ List.mem_cons_self
        · intro slot token old new hcall
          cases hcall
      · exact fun entry hentry => List.mem_append_left _ hentry
      · exact h.returned
  | finds hcall hfound => exact h.finishes _ hfound
  | copies hcall hnew => exact h.with_copy hcall hfresh
  | publishes hcall =>
      apply (h.with_cell hcall).finishes
      rw [State.tokensAt, h.toMap_with_cell hcall, Function.update_self,
        StemIdTokensRCUMap.tokensOf_some, StemIdTokensRCUMap.mem_withToken]
      exact Or.inl rfl
  | retries hcall hchanged =>
      apply h.with_calls
      · apply h.calls.update
        · intro call hnext
          cases hnext
          have hbegun := h.calls.begun _ _ hcall
          exact hbegun
        · intro slot token old new hnext
          cases hnext
      · exact fun entry hentry => hentry
      · exact h.returned
  | gets hslot => exact h.with_read _
  | drops => exact h.with_drop _

/-- An entry is changed only by an exchange of a call for its own id. -/
theorem Inv.entry_unchanged (h : Inv s) {action : Action Thread} (hfresh : Fresh s action)
    (hstep : s.step action = some t) {slot : Fin maxStemsNo}
    (hother : ∀ thread call, action = .exchange thread → s.calls thread = some call →
      call.slot ≠ slot) :
    t.cells slot = s.cells slot ∧ t.toMap slot = s.toMap slot := by
  cases moves_of_step hstep with
  | begins hidle hslot => exact ⟨rfl, rfl⟩
  | finds hcall hfound => exact ⟨rfl, rfl⟩
  | copies hcall hnew => exact ⟨rfl, congrFun (toMap_of_fresh hfresh) slot⟩
  | publishes hcall =>
      have hne := hother _ _ rfl hcall
      have hmap := congrFun (h.toMap_with_cell hcall) slot
      refine ⟨Function.update_of_ne hne.symm _ _, hmap.trans ?_⟩
      rw [Function.update_of_ne hne.symm]
  | retries hcall hchanged => exact ⟨rfl, rfl⟩
  | gets hslot => exact ⟨rfl, rfl⟩
  | drops => exact ⟨rfl, rfl⟩

/-- **A call takes effect when it returns.** The step in which it returns is a call of
the sequential map, and every other step leaves the map as it is. -/
theorem Inv.step_toMap (h : Inv s) {action : Action Thread} (hfresh : Fresh s action)
    (hstep : s.step action = some t) :
    (t.returned = s.returned ∧ t.toMap = s.toMap) ∨
    ∃ slot token, t.returned = s.returned ++ [(slot, token)] ∧
      s.toMap.addToken (Int32.ofNat slot.val) token = some t.toMap := by
  cases moves_of_step hstep with
  | begins hidle hslot => exact Or.inl ⟨rfl, rfl⟩
  | finds hcall hfound =>
      rename_i thread new slot token
      refine Or.inr ⟨slot, token, rfl, ?_⟩
      have hsame : some (StemIdTokensRCUMap.withToken token (s.toMap slot)) = s.toMap slot := by
        cases hcell : s.toMap slot with
        | none =>
            rw [State.tokensAt, hcell] at hfound
            exact absurd hfound (SortedSet.notMem_empty token)
        | some tokens =>
            rw [State.tokensAt, hcell] at hfound
            exact congrArg some (if_pos hfound)
      rw [StemIdTokensRCUMap.addToken, slot?_ofNat slot.isLt]
      show some (Function.update s.toMap slot (some _)) = some s.toMap
      rw [hsame, Function.update_eq_self]
  | copies hcall hnew => exact Or.inl ⟨rfl, toMap_of_fresh hfresh⟩
  | publishes hcall =>
      rename_i thread new slot token
      refine Or.inr ⟨slot, token, rfl, ?_⟩
      rw [StemIdTokensRCUMap.addToken, slot?_ofNat slot.isLt]
      exact congrArg some (h.toMap_with_cell hcall).symm
  | retries hcall hchanged => exact Or.inl ⟨rfl, rfl⟩
  | gets hslot => exact Or.inl ⟨rfl, rfl⟩
  | drops => exact Or.inl ⟨rfl, rfl⟩

/-- **No token is lost.** Whatever the threads do, and wherever the allocator puts the
copies: every read is sound, reads of one id grow, and an entry is changed only by
an exchange of a call for its own id. -/
theorem reads_sound_of_run {heap : Address → TokensSet} {actions : List (Action Thread)}
    {final : State Thread}
    (hrun : run State.step (State.start Thread heap) actions = some final)
    (hfresh : AllSteps State.step Fresh (State.start Thread heap) actions) :
    (∀ read ∈ final.reads, ReadSound final read) ∧
    (final.reads.Pairwise fun first second =>
      first.slot = second.slot → ∀ token ∈ first.tokens, token ∈ second.tokens) ∧
    ∀ hist action, hist ++ [action] <+: actions → ∀ s t,
      run State.step (State.start Thread heap) hist = some s → s.step action = some t →
      ∀ slot, (∀ thread call, action = .exchange thread → s.calls thread = some call →
        call.slot ≠ slot) →
      t.cells slot = s.cells slot ∧ t.tokensAt slot = s.tokensAt slot := by
  have hall := allStates_of_allSteps (P := fun _ s => Inv s) (Inv.start heap)
    (fun hist s action t hs hok hstep => hs.step hok hstep) hfresh
  have hfinal := hall actions List.prefix_rfl final hrun
  refine ⟨hfinal.reads, hfinal.ordered, ?_⟩
  intro hist action hpre s t hs hstep slot hother
  have hinv := hall hist ((List.prefix_append hist [action]).trans hpre) s hs
  have hsame := hinv.entry_unchanged (hfresh hist action hpre s hs) hstep hother
  exact ⟨hsame.1, congrArg StemIdTokensRCUMap.tokensOf hsame.2⟩

/-! ## Allocators -/

/-- The addresses that copies were made at. -/
def Action.addresses (actions : List (Action Thread)) : List Address :=
  actions.filterMap fun action =>
    match action with
    | .load _ new => some new
    | _ => none

/-- A pointer that is held after a call has changed was held before, or is that call's. -/
theorem holds_of_update {heap : Address → TokensSet}
    {begun returned : List (Fin maxStemsNo × Bytes)} {thread : Thread} {next : Option Call}
    {address : Address}
    (h : ({ s with
      heap := heap
      calls := Function.update s.calls thread next
      begun := begun
      returned := returned } : State Thread).Holds address) :
    s.Holds address ∨ ∃ call, next = some call ∧ call.Holds address := by
  rcases h with hcell | ⟨other, call, hcall, hholds⟩ | hread
  · exact Or.inl (Or.inl hcell)
  · by_cases hother : other = thread
    · have hnext : next = some call := by
        rw [← hcall, hother]
        exact (Function.update_self thread next s.calls).symm
      exact Or.inr ⟨call, hnext, hholds⟩
    · have hsame : s.calls other = some call := by
        rw [← hcall]
        exact (Function.update_of_ne hother next s.calls).symm
      exact Or.inl (Or.inr (Or.inl ⟨other, call, hsame, hholds⟩))
  · exact Or.inl (Or.inr (Or.inr hread))

/-- A return leaves no new pointer behind. -/
theorem holds_of_finish {thread : Thread} {call : Call} {address : Address}
    (h : (s.finish thread call).Holds address) : s.Holds address := by
  rcases holds_of_update h with hbefore | ⟨next, hnext, -⟩
  · exact hbefore
  · cases hnext

/-- A pointer that is held after a step was held before, or is to a new copy. -/
theorem holds_of_step {action : Action Thread} (hstep : s.step action = some t)
    {address : Address} (hholds : t.Holds address) :
    s.Holds address ∨ ∃ thread, action = .load thread address := by
  cases moves_of_step hstep with
  | begins hidle hslot =>
      rcases holds_of_update hholds with hbefore | ⟨call, hnext, hcall⟩
      · exact Or.inl hbefore
      · cases hnext
        cases hcall
  | finds hcall hfound => exact Or.inl (holds_of_finish hholds)
  | copies hcall hnew =>
      rename_i thread new slot token
      rcases holds_of_update hholds with hbefore | ⟨call, hnext, hcall⟩
      · exact Or.inl hbefore
      · cases hnext
        rcases hcall with hold | hnew
        · exact Or.inl (Or.inl ⟨slot, hold⟩)
        · exact Or.inr ⟨thread, congrArg _ hnew⟩
  | publishes hcall =>
      rename_i thread new slot token
      rcases holds_of_finish hholds with ⟨other, hcell⟩ | hcalls | hread
      · by_cases hother : other = slot
        · have hnew : new = address := by
            rw [hother] at hcell
            exact Option.some.inj ((Function.update_self slot (some new) s.cells).symm.trans hcell)
          exact Or.inl (Or.inr (Or.inl ⟨thread, _, hcall, Or.inr hnew⟩))
        · have hsame := (Function.update_of_ne hother (some new) s.cells).symm.trans hcell
          exact Or.inl (Or.inl ⟨other, hsame⟩)
      · exact Or.inl (Or.inr (Or.inl hcalls))
      · exact Or.inl (Or.inr (Or.inr hread))
  | retries hcall hchanged =>
      rcases holds_of_update hholds with hbefore | ⟨call, hnext, hcall⟩
      · exact Or.inl hbefore
      · cases hnext
        cases hcall
  | gets hslot =>
      rename_i id slot
      rcases hholds with hcell | hcalls | ⟨read, hread, hheld, hpointer⟩
      · exact Or.inl (Or.inl hcell)
      · exact Or.inl (Or.inr (Or.inl hcalls))
      · rcases List.mem_append.mp hread with hold | hnew
        · exact Or.inl (Or.inr (Or.inr ⟨read, hold, hheld, hpointer⟩))
        · cases List.mem_singleton.mp hnew
          exact Or.inl (Or.inl ⟨slot, hpointer⟩)
  | drops =>
      rcases hholds with hcell | hcalls | ⟨read, hread, hheld, hpointer⟩
      · exact Or.inl (Or.inl hcell)
      · exact Or.inl (Or.inr (Or.inl hcalls))
      · have ⟨pos, hpos⟩ := List.getElem?_of_mem hread
        have ⟨before, hbefore, heq, hbeforeHeld⟩ := getElem?_drop hpos
        rw [heq] at hpointer
        exact Or.inl (Or.inr (Or.inr ⟨before, List.mem_of_getElem? hbefore,
          hbeforeHeld hheld, hpointer⟩))

/-- An allocator that uses no address twice reuses none that is held. -/
theorem allSteps_fresh_of_nodup {heap : Address → TokensSet} {actions : List (Action Thread)}
    (h : (Action.addresses actions).Nodup) :
    AllSteps State.step Fresh (State.start Thread heap) actions := by
  intro hist action hpre s hs
  have hheld : ∀ address, s.Holds address → address ∈ Action.addresses hist := by
    apply run_invariant (P := fun hist s =>
      ∀ address, State.Holds s address → address ∈ Action.addresses hist) _ _ hs
    · rintro address (⟨slot, hcell⟩ | ⟨thread, call, hcall, -⟩ | ⟨read, hread, -⟩)
      · cases hcell
      · cases hcall
      · cases hread
    · intro hist s action t hprev hstep address hholds
      rw [Action.addresses, List.filterMap_append]
      rcases holds_of_step hstep hholds with hbefore | ⟨thread, rfl⟩
      · exact List.mem_append_left _ (hprev address hbefore)
      · exact List.mem_append_right _ List.mem_cons_self
  cases action with
  | load thread new =>
      intro hholds
      have hsub : (Action.addresses (hist ++ [.load thread new])).Sublist
          (Action.addresses actions) := hpre.sublist.filterMap _
      have hnodup := hsub.nodup h
      rw [Action.addresses, List.filterMap_append, List.nodup_append] at hnodup
      exact hnodup.2.2 new (hheld new hholds) new List.mem_cons_self rfl
  | begin thread id token => trivial
  | exchange thread => trivial
  | get id => trivial
  | drop idx => trivial

end Invariant

/-- Two writers of one id load the same pointer, the second exchange fails, and the
readers in between keep what they got. -/
def contendedActions : List (Action Bool) :=
  [.begin false 0 [97], .begin true 0 [98], .load false 1, .load true 2, .exchange false, .get 0,
    .exchange true, .load true 3, .exchange true, .get 0, .drop 0]

/-- That run loses no token. -/
theorem reads_sound_of_contended_run :
    ∃ final, run State.step (State.start Bool fun _ => SortedSet.empty) contendedActions =
        some final ∧
      ((∀ read ∈ final.reads, ReadSound final read) ∧
      (final.reads.Pairwise fun first second =>
        first.slot = second.slot → ∀ token ∈ first.tokens, token ∈ second.tokens) ∧
      ∀ hist action, hist ++ [action] <+: contendedActions → ∀ s t,
        run State.step (State.start Bool fun _ => SortedSet.empty) hist = some s →
        s.step action = some t → ∀ slot,
        (∀ thread call, action = .exchange thread → s.calls thread = some call →
          call.slot ≠ slot) →
        t.cells slot = s.cells slot ∧ t.tokensAt slot = s.tokensAt slot) := by
  have hsome : (run State.step (State.start Bool fun _ => SortedSet.empty)
      contendedActions).isSome := by
    decide +kernel
  have ⟨final, hrun⟩ := Option.isSome_iff_exists.mp hsome
  exact ⟨final, hrun, reads_sound_of_run hrun (allSteps_fresh_of_nodup (by decide))⟩

end Rcu

end Unbiased
