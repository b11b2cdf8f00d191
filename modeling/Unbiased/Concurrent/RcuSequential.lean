/-
# The stem-to-tokens map as a sequential map

Abstractly, the map is the one whose calls do not overlap. A call of `addToken` takes effect
when it returns: the shared memory holds what the sequential map holds after
the calls that have returned, in the order of their returns, and a reader gets what that map
has at the time. Since adding tokens commutes, nothing of the interleaving is left once all
calls have returned.
-/

import Mathlib.Data.List.Perm.Subperm
import Unbiased.Concurrent.RcuMap
import Unbiased.Math.Pool

namespace Unbiased

open Unbiased.Math

namespace Rcu

/-! ## The sequential map -/

/-- A call of `addToken` on the sequential map. -/
def addCall (map : StemIdTokensRCUMap) (entry : Fin maxStemsNo × Bytes) :
    Option StemIdTokensRCUMap :=
  map.addToken (Int32.ofNat entry.1.val) entry.2

/-- The map after calls that do not overlap, from the empty one. -/
def mapAfter (entries : List (Fin maxStemsNo × Bytes)) : Option StemIdTokensRCUMap :=
  run addCall (fun _ => none) entries

theorem addCall_eq (map : StemIdTokensRCUMap) (entry : Fin maxStemsNo × Bytes) :
    addCall map entry = some (Function.update map entry.1
      (some (StemIdTokensRCUMap.withToken entry.2 (map entry.1)))) := by
  rw [addCall, StemIdTokensRCUMap.addToken, slot?_ofNat entry.1.isLt]
  rfl

/-- A cell is set by the calls for its id, and has their tokens. -/
theorem cell_of_mapAfter {entries : List (Fin maxStemsNo × Bytes)} {map : StemIdTokensRCUMap}
    (h : mapAfter entries = some map) (slot : Fin maxStemsNo) :
    (map slot = none ↔ ∀ token, (slot, token) ∉ entries) ∧
      ∀ token, token ∈ StemIdTokensRCUMap.tokensOf (map slot) ↔ (slot, token) ∈ entries := by
  apply run_invariant (P := fun hist (map : StemIdTokensRCUMap) =>
    (map slot = none ↔ ∀ token, (slot, token) ∉ hist) ∧
      ∀ token, token ∈ StemIdTokensRCUMap.tokensOf (map slot) ↔ (slot, token) ∈ hist) _ _ h
  · exact ⟨by simp, fun token => by simp [StemIdTokensRCUMap.tokensOf]⟩
  · rintro hist map ⟨other, added⟩ next ⟨hnone, htokens⟩ hstep
    rw [addCall_eq] at hstep
    cases hstep
    by_cases hslot : slot = other
    · subst hslot
      constructor
      · rw [Function.update_self]
        simp only [reduceCtorEq, List.mem_append, List.mem_singleton, false_iff, not_forall,
          not_not]
        exact ⟨added, Or.inr rfl⟩
      · intro token
        rw [Function.update_self, StemIdTokensRCUMap.tokensOf_some,
          StemIdTokensRCUMap.mem_withToken, htokens, List.mem_append, List.mem_singleton,
          Prod.mk.injEq, and_iff_right rfl, or_comm]
    · rw [Function.update_of_ne hslot]
      simp [hslot, hnone, htokens]

/-- The same tokens in another order, or more than once, give the same map. -/
theorem mapAfter_congr {first second : List (Fin maxStemsNo × Bytes)}
    {firstMap secondMap : StemIdTokensRCUMap} (hfirst : mapAfter first = some firstMap)
    (hsecond : mapAfter second = some secondMap)
    (hsame : ∀ entry, entry ∈ first ↔ entry ∈ second) : firstMap = secondMap := by
  funext slot
  obtain ⟨hfirstNone, hfirstTokens⟩ := cell_of_mapAfter hfirst slot
  obtain ⟨hsecondNone, hsecondTokens⟩ := cell_of_mapAfter hsecond slot
  have hnone : firstMap slot = none ↔ secondMap slot = none := by
    rw [hfirstNone, hsecondNone]
    exact forall_congr' fun token => not_congr (hsame (slot, token))
  cases hcell : firstMap slot with
  | none => exact (hnone.mp hcell).symm
  | some tokens =>
      cases hother : secondMap slot with
      | none =>
          rw [hnone.mpr hother] at hcell
          cases hcell
      | some others =>
          congr 1
          apply SortedSet.ext
          intro token
          have hmem := (hfirstTokens token).trans ((hsame (slot, token)).trans
            (hsecondTokens token).symm)
          rw [hcell, hother] at hmem
          exact hmem

/-! ## The calls take effect in the order of their returns -/

section Order

variable {Thread : Type} [DecidableEq Thread] {s t : State Thread} {action : Action Thread}

/-- What a call in progress is about. -/
def entryOf : Option Call → Option (Fin maxStemsNo × Bytes) :=
  Option.map fun call => (call.slot, call.token)

/-- The memory holds the sequential map of the calls that have returned, every read is one of
this map at its time, and the calls that have begun are those that have returned or are in
progress. -/
structure InOrder (s : State Thread) : Prop where
  inv : Inv s
  map : mapAfter s.returned = some s.toMap
  reads : ∀ read ∈ s.reads, read.returned <+: s.returned ∧
    ∃ map, mapAfter read.returned = some map ∧
      StemIdTokensRCUMap.tokensOf (map read.slot) = read.tokens
  calls : ∃ waiting, Pool entryOf s.calls waiting ∧
    s.begun.Perm (s.returned ++ waiting.map Prod.snd)

omit [DecidableEq Thread] in
theorem InOrder.start (heap : Address → TokensSet) : InOrder (State.start Thread heap) where
  inv := Inv.start heap
  map := rfl
  reads read hread := by cases hread
  calls := ⟨[], Pool.empty fun _ => rfl, List.Perm.refl _⟩

/-- A read after a step is one from before it, or reads the map. -/
theorem read_of_moves (h : Moves s action t) {read : Read} (hread : read ∈ t.reads) :
    (∃ before ∈ s.reads, read.slot = before.slot ∧ read.tokens = before.tokens ∧
      read.returned = before.returned) ∨
    (read.tokens = s.tokensAt read.slot ∧ read.returned = s.returned) := by
  cases h with
  | begins hidle hslot => exact Or.inl ⟨read, hread, rfl, rfl, rfl⟩
  | finds hcall hfound => exact Or.inl ⟨read, hread, rfl, rfl, rfl⟩
  | copies hcall hnew => exact Or.inl ⟨read, hread, rfl, rfl, rfl⟩
  | publishes hcall => exact Or.inl ⟨read, hread, rfl, rfl, rfl⟩
  | retries hcall hchanged => exact Or.inl ⟨read, hread, rfl, rfl, rfl⟩
  | gets hslot =>
      rcases List.mem_append.mp hread with hold | hnew
      · exact Or.inl ⟨read, hold, rfl, rfl, rfl⟩
      · cases List.mem_singleton.mp hnew
        exact Or.inr ⟨rfl, rfl⟩
  | drops =>
      obtain ⟨pos, hpos⟩ := List.getElem?_of_mem hread
      obtain ⟨before, hbefore, heq, -⟩ := getElem?_drop hpos
      refine Or.inl ⟨before, List.mem_of_getElem? hbefore, ?_⟩
      rw [heq]
      exact ⟨rfl, rfl, rfl⟩

/-- A call stays in progress. -/
theorem waiting_of_same {waiting : List (Thread × (Fin maxStemsNo × Bytes))}
    (hpool : Pool entryOf s.calls waiting)
    (hperm : s.begun.Perm (s.returned ++ waiting.map Prod.snd)) {thread : Thread}
    {call next : Call} (hcall : s.calls thread = some call)
    (hsame : (next.slot, next.token) = (call.slot, call.token)) :
    ∃ waiting, Pool entryOf (Function.update s.calls thread (some next)) waiting ∧
      s.begun.Perm (s.returned ++ waiting.map Prod.snd) :=
  ⟨waiting, hpool.keep (by rw [hcall]; exact congrArg some hsame), hperm⟩

/-- A call that returns is no longer in progress. -/
theorem waiting_of_finish {waiting : List (Thread × (Fin maxStemsNo × Bytes))}
    (hpool : Pool entryOf s.calls waiting)
    (hperm : s.begun.Perm (s.returned ++ waiting.map Prod.snd)) {thread : Thread} {call : Call}
    (hcall : s.calls thread = some call) :
    ∃ waiting, Pool entryOf (Function.update s.calls thread none) waiting ∧
      s.begun.Perm (s.returned ++ [(call.slot, call.token)] ++ waiting.map Prod.snd) := by
  have hmem : (thread, (call.slot, call.token)) ∈ waiting :=
    (hpool.mem thread _).mpr (by rw [hcall]; rfl)
  obtain ⟨idx, hidx⟩ := List.getElem?_of_mem hmem
  refine ⟨waiting.eraseIdx idx, hpool.leave hidx rfl, ?_⟩
  obtain ⟨hlt, hget⟩ := List.getElem?_eq_some_iff.mp hidx
  have hsplit : waiting.Perm ((thread, (call.slot, call.token)) :: waiting.eraseIdx idx) := by
    rw [← hget]
    exact (List.getElem_cons_eraseIdx_perm hlt).symm
  rw [List.append_assoc]
  exact hperm.trans (List.Perm.append_left _ (hsplit.map Prod.snd))

/-- The calls that have begun, after a step. -/
theorem waiting_of_moves {waiting : List (Thread × (Fin maxStemsNo × Bytes))}
    (hpool : Pool entryOf s.calls waiting)
    (hperm : s.begun.Perm (s.returned ++ waiting.map Prod.snd)) (h : Moves s action t) :
    ∃ waiting, Pool entryOf t.calls waiting ∧
      t.begun.Perm (t.returned ++ waiting.map Prod.snd) := by
  cases h with
  | begins hidle hslot =>
      rename_i thread id token slot
      refine ⟨waiting ++ [(thread, (slot, token))],
        hpool.enter (by rw [hidle]; rfl) rfl, ?_⟩
      rw [List.map_append, ← List.append_assoc]
      exact hperm.append_right _
  | finds hcall hfound => exact waiting_of_finish hpool hperm hcall
  | copies hcall hnew => exact waiting_of_same hpool hperm hcall rfl
  | publishes hcall => exact waiting_of_finish hpool hperm hcall
  | retries hcall hchanged => exact waiting_of_same hpool hperm hcall rfl
  | gets hslot => exact ⟨waiting, hpool, hperm⟩
  | drops => exact ⟨waiting, hpool, hperm⟩

/-- **Step lemma.** -/
theorem InOrder.step (h : InOrder s) (hfresh : Fresh s action)
    (hstep : s.step action = some t) : InOrder t := by
  have hreturned : s.returned <+: t.returned ∧ mapAfter t.returned = some t.toMap := by
    rcases h.inv.step_toMap hfresh hstep with ⟨hsame, hmap⟩ | ⟨slot, token, hone, hmap⟩
    · rw [hsame, hmap]
      exact ⟨List.prefix_rfl, h.map⟩
    · rw [hone]
      exact ⟨List.prefix_append _ _, run_concat_eq_some.mpr ⟨s.toMap, h.map, hmap⟩⟩
  exact {
    inv := h.inv.step hfresh hstep
    map := hreturned.2
    reads := by
      intro read hread
      rcases read_of_moves (moves_of_step hstep) hread with
        ⟨before, hbefore, hslot, htokens, hwhen⟩ | ⟨htokens, hwhen⟩
      · rw [hslot, htokens, hwhen]
        obtain ⟨hpre, hmap⟩ := h.reads before hbefore
        exact ⟨hpre.trans hreturned.1, hmap⟩
      · rw [htokens, hwhen]
        exact ⟨hreturned.1, s.toMap, h.map, rfl⟩
    calls := by
      obtain ⟨waiting, hpool, hperm⟩ := h.calls
      exact waiting_of_moves hpool hperm (moves_of_step hstep) }

/-- **Run lemma.** -/
theorem inOrder_of_run {heap : Address → TokensSet} {actions : List (Action Thread)}
    (hfresh : AllSteps State.step Fresh (State.start Thread heap) actions) :
    AllStates State.step (fun _ s => InOrder s) (State.start Thread heap) actions :=
  allStates_of_allSteps (P := fun _ s => InOrder s) (InOrder.start heap)
    (fun _ _ _ _ hs hok hstep => hs.step hok hstep) hfresh

/-- The logs of calls only grow. -/
theorem logs_of_run {actions : List (Action Thread)} (hrun : run State.step s actions = some t) :
    s.begun <+: t.begun ∧ s.returned <+: t.returned := by
  apply run_preserves (P := fun m : State Thread =>
    s.begun <+: m.begun ∧ s.returned <+: m.returned) hrun ⟨List.prefix_rfl, List.prefix_rfl⟩
  rintro m action next ⟨hbegun, hreturned⟩ hstep
  cases moves_of_step hstep with
  | begins hidle hslot => exact ⟨hbegun.trans (List.prefix_append _ _), hreturned⟩
  | finds hcall hfound => exact ⟨hbegun, hreturned.trans (List.prefix_append _ _)⟩
  | copies hcall hnew => exact ⟨hbegun, hreturned⟩
  | publishes hcall => exact ⟨hbegun, hreturned.trans (List.prefix_append _ _)⟩
  | retries hcall hchanged => exact ⟨hbegun, hreturned⟩
  | gets hslot => exact ⟨hbegun, hreturned⟩
  | drops => exact ⟨hbegun, hreturned⟩

/-- **The map is linearizable.** Whatever the threads and the allocator do, the memory holds
what the sequential map holds after the calls that have returned, every read gets what
that map had then, and at every moment the calls that have returned are among those that
have begun and come first among all that will. -/
theorem linearizable_of_run {heap : Address → TokensSet} {actions : List (Action Thread)}
    {final : State Thread} (hrun : run State.step (State.start Thread heap) actions = some final)
    (hfresh : AllSteps State.step Fresh (State.start Thread heap) actions) :
    mapAfter final.returned = some final.toMap ∧
    (∀ read ∈ final.reads, read.returned <+: final.returned ∧
      ∃ map, mapAfter read.returned = some map ∧
        StemIdTokensRCUMap.tokensOf (map read.slot) = read.tokens) ∧
    ∀ hist, hist <+: actions → ∀ s, run State.step (State.start Thread heap) hist = some s →
      s.returned.Subperm s.begun ∧ s.returned <+: final.returned ∧ s.begun <+: final.begun := by
  have hstates := inOrder_of_run hfresh
  have hfinal := hstates actions List.prefix_rfl final hrun
  refine ⟨hfinal.map, hfinal.reads, fun hist hpre s hs => ?_⟩
  obtain ⟨waiting, -, hperm⟩ := (hstates hist hpre s hs).calls
  obtain ⟨rest, rfl⟩ := hpre
  obtain ⟨m, hm, hrest⟩ := run_append_eq_some.mp hrun
  obtain rfl : s = m := Option.some.inj (hs.symm.trans hm)
  obtain ⟨hbegun, hreturned⟩ := logs_of_run hrest
  exact ⟨(List.sublist_append_left _ _).subperm.trans hperm.symm.subperm, hreturned, hbegun⟩

/-! ## Nothing is left of the interleaving -/

/-- The calls that begin in a run. -/
def Action.adds (actions : List (Action Thread)) : List (Fin maxStemsNo × Bytes) :=
  actions.filterMap fun action =>
    match action with
    | .begin _ id token => (slot? id).map fun slot => (slot, token)
    | _ => none

theorem begun_of_run {heap : Address → TokensSet} {actions : List (Action Thread)}
    (hrun : run State.step (State.start Thread heap) actions = some t) :
    t.begun = Action.adds actions := by
  apply run_invariant (P := fun hist (m : State Thread) => m.begun = Action.adds hist) rfl _ hrun
  intro hist m action next hm hstep
  rw [Action.adds, List.filterMap_append, ← Action.adds, ← hm]
  cases moves_of_step hstep with
  | begins hidle hslot => simp [hslot]
  | finds hcall hfound => exact (List.append_nil _).symm
  | copies hcall hnew => exact (List.append_nil _).symm
  | publishes hcall => exact (List.append_nil _).symm
  | retries hcall hchanged => exact (List.append_nil _).symm
  | gets hslot => exact (List.append_nil _).symm
  | drops => exact (List.append_nil _).symm

omit [DecidableEq Thread] in
/-- Once nobody is in a call, all calls that have begun have returned. -/
theorem InOrder.returned_perm_of_idle (h : InOrder s) (hidle : ∀ thread, s.calls thread = none) :
    s.returned.Perm s.begun := by
  obtain ⟨waiting, hpool, hperm⟩ := h.calls
  rw [hpool.eq_nil fun thread => by rw [hidle thread]; rfl, List.map_nil, List.append_nil] at hperm
  exact hperm.symm

theorem exists_mapAfter (entries : List (Fin maxStemsNo × Bytes)) :
    ∃ map, mapAfter entries = some map := by
  apply Option.isSome_iff_exists.mp
  apply isSome_run_of_forall_mem
  intro entry _ map
  rw [addCall_eq]
  rfl

/-- **The interleaving does not matter.** Once nobody is in a call, the memory holds what one
thread would have made of the same calls, in any order and however often it repeats them. -/
theorem toMap_of_idle_run {heap : Address → TokensSet} {actions : List (Action Thread)}
    {final : State Thread} (hrun : run State.step (State.start Thread heap) actions = some final)
    (hfresh : AllSteps State.step Fresh (State.start Thread heap) actions)
    (hidle : ∀ thread, final.calls thread = none) :
    ∀ entries, (∀ entry, entry ∈ entries ↔ entry ∈ Action.adds actions) →
      mapAfter entries = some final.toMap := by
  intro entries hsame
  have hfinal := inOrder_of_run hfresh actions List.prefix_rfl final hrun
  obtain ⟨map, hmap⟩ := exists_mapAfter entries
  have heq : map = final.toMap := by
    apply mapAfter_congr hmap hfinal.map
    intro entry
    rw [hsame, ← begun_of_run hrun]
    exact (hfinal.returned_perm_of_idle hidle).mem_iff.symm
  rw [hmap, heq]

end Order

/-! ## Two writers of one id -/

/-- The contended run leaves nobody in a call. -/
theorem exists_contended_run :
    ∃ final, run State.step (State.start Bool fun _ => SortedSet.empty) contendedActions =
        some final ∧
      AllSteps State.step Fresh (State.start Bool fun _ => SortedSet.empty) contendedActions ∧
      ∀ thread, final.calls thread = none := by
  have hchecked : (run State.step (State.start Bool fun _ => SortedSet.empty)
      contendedActions).map (fun final =>
        (final.calls false).isNone && (final.calls true).isNone) = some true := by
    decide +kernel
  obtain ⟨final, hrun, hidle⟩ := Option.map_eq_some_iff.mp hchecked
  rw [Bool.and_eq_true, Option.isNone_iff_eq_none, Option.isNone_iff_eq_none] at hidle
  refine ⟨final, hrun, allSteps_fresh_of_nodup (by decide), fun thread => ?_⟩
  cases thread with
  | false => exact hidle.1
  | true => exact hidle.2

theorem linearizable_of_contended_run :
    ∃ final, run State.step (State.start Bool fun _ => SortedSet.empty) contendedActions =
        some final ∧ mapAfter final.returned = some final.toMap := by
  obtain ⟨final, hrun, hfresh, -⟩ := exists_contended_run
  exact ⟨final, hrun, (linearizable_of_run hrun hfresh).1⟩

/-- One thread could have added the second token first. -/
theorem toMap_of_contended_run :
    ∃ final, run State.step (State.start Bool fun _ => SortedSet.empty) contendedActions =
        some final ∧
      mapAfter [(⟨0, by decide⟩, [98]), (⟨0, by decide⟩, [97])] = some final.toMap := by
  obtain ⟨final, hrun, hfresh, hidle⟩ := exists_contended_run
  have hadds : Action.adds contendedActions =
      [(⟨0, by decide⟩, [97]), (⟨0, by decide⟩, [98])] := by
    decide
  refine ⟨final, hrun, toMap_of_idle_run hrun hfresh hidle _ fun entry => ?_⟩
  rw [hadds]
  simp [or_comm]

end Rcu

end Unbiased
