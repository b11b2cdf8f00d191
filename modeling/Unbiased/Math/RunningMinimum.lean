/-
# Searching for the least key

A loop over indices that keeps the index of the least key so far, and replaces it only by
one with a strictly smaller key. Reading a key may fail. When every key can be read, the
loop ends on the first index of the least key.
-/

import Mathlib.Data.List.Range
import Mathlib.Order.Lattice

namespace Unbiased.Math

universe u v w

variable {ε : Type u} {α : Type v} [LinearOrder α] {β : Type w}

/-- One turn: the index replaces the best one if its key is smaller. -/
def minStep (key : ℕ → Except ε α) (best idx : ℕ) : Except ε ℕ :=
  match key idx, key best with
  | .ok candidate, .ok least => .ok (if candidate < least then idx else best)
  | .error error, _ => .error error
  | _, .error error => .error error

/-- The loop, from the second index to the last. -/
def minIndex (key : ℕ → Except ε α) (size : ℕ) : Except ε ℕ :=
  (List.range' 1 (size - 1)).foldlM (minStep key) 0

/-- The first index below a bound at which the least key stands. -/
structure IsFirstLeast (value : ℕ → α) (size best : ℕ) : Prop where
  lt_size : best < size
  least : ∀ idx < size, value best ≤ value idx
  first : ∀ idx < best, value best < value idx

namespace IsFirstLeast

variable {value : ℕ → α} {size best other : ℕ}

theorem zero : IsFirstLeast value 1 0 where
  lt_size := Nat.zero_lt_one
  least idx hidx := by rw [Nat.lt_one_iff.mp hidx]
  first idx hidx := absurd hidx (Nat.not_lt_zero idx)

/-- The invariant of the loop: one more index is looked at. -/
theorem step (h : IsFirstLeast value size best) :
    IsFirstLeast value (size + 1) (if value size < value best then size else best) := by
  split
  · rename_i hless
    refine ⟨Nat.lt_succ_self size, fun idx hidx => ?_, fun idx hidx => ?_⟩
    · rcases Nat.lt_succ_iff_lt_or_eq.mp hidx with hlt | heq
      · exact le_trans (le_of_lt hless) (h.least idx hlt)
      · rw [heq]
    · exact lt_of_lt_of_le hless (h.least idx hidx)
  · rename_i hless
    refine ⟨Nat.lt_succ_of_lt h.lt_size, fun idx hidx => ?_, h.first⟩
    rcases Nat.lt_succ_iff_lt_or_eq.mp hidx with hlt | heq
    · exact h.least idx hlt
    · rw [heq]
      exact not_lt.mp hless

/-- There is one such index only. -/
theorem unique (h : IsFirstLeast value size best) (h' : IsFirstLeast value size other) :
    best = other := by
  rcases lt_trichotomy best other with hlt | heq | hlt
  · exact absurd (h'.first best hlt) (not_lt.mpr (h.least other h'.lt_size))
  · exact heq
  · exact absurd (h.first other hlt) (not_lt.mpr (h'.least best h.lt_size))

end IsFirstLeast

/-! ## Keys of the elements of a list -/

/-- The key of the element at an index. -/
def keyAt (key : β → α) (default : α) (l : List β) (idx : ℕ) : α := (l[idx]?).elim default key

section Split

variable {key : β → α} {default : α} {before after : List β} {first : β}

omit [LinearOrder α] in
theorem keyAt_before {idx : ℕ} (hidx : idx < before.length) :
    keyAt key default (before ++ first :: after) idx = key before[idx] := by
  rw [keyAt, List.getElem?_append_left hidx, List.getElem?_eq_getElem hidx]
  rfl

omit [LinearOrder α] in
theorem keyAt_first : keyAt key default (before ++ first :: after) before.length = key first := by
  rw [keyAt, List.getElem?_append_right le_rfl, Nat.sub_self]
  rfl

omit [LinearOrder α] in
theorem keyAt_after {idx : ℕ} (hidx : idx < after.length) :
    keyAt key default (before ++ first :: after) (before.length + (idx + 1)) = key after[idx] := by
  rw [keyAt, List.getElem?_append_right (Nat.le_add_right _ _), Nat.add_sub_cancel_left,
    List.getElem?_cons_succ, List.getElem?_eq_getElem hidx]
  rfl

/-- An element has the first least key if those before it have larger keys and those after
it no smaller ones. -/
theorem isFirstLeast_append_iff :
    IsFirstLeast (keyAt key default (before ++ first :: after))
        (before ++ first :: after).length before.length ↔
      (∀ a ∈ before, key first < key a) ∧ ∀ a ∈ after, key first ≤ key a := by
  rw [List.length_append, List.length_cons]
  constructor
  · intro hleast
    refine ⟨fun a ha => ?_, fun a ha => ?_⟩
    · obtain ⟨idx, hidx, rfl⟩ := List.mem_iff_getElem.mp ha
      have hless := hleast.first idx hidx
      rwa [keyAt_first, keyAt_before hidx] at hless
    · obtain ⟨idx, hidx, rfl⟩ := List.mem_iff_getElem.mp ha
      have hle := hleast.least (before.length + (idx + 1)) (by omega)
      rwa [keyAt_first, keyAt_after hidx] at hle
  · rintro ⟨hbefore, hafter⟩
    refine ⟨by omega, fun idx hidx => ?_, fun idx hidx => ?_⟩
    · rcases lt_trichotomy idx before.length with hlt | heq | hgt
      · rw [keyAt_first, keyAt_before hlt]
        exact le_of_lt (hbefore _ (List.getElem_mem hlt))
      · rw [heq]
      · obtain ⟨offset, rfl⟩ := Nat.exists_eq_add_of_lt hgt
        have hoffset : offset < after.length := by omega
        rw [keyAt_first, Nat.add_assoc, keyAt_after hoffset]
        exact hafter _ (List.getElem_mem hoffset)
    · rw [keyAt_first, keyAt_before hidx]
      exact hbefore _ (List.getElem_mem hidx)

end Split

/-! ## The search -/

variable {key : ℕ → Except ε α} {value : ℕ → α}

theorem minStep_of_ok {best idx : ℕ} (hidx : key idx = .ok (value idx))
    (hbest : key best = .ok (value best)) :
    minStep key best idx = .ok (if value idx < value best then idx else best) := by
  rw [minStep, hidx, hbest]

/-- **The search succeeds** when all keys can be read, on the first least one. -/
theorem exists_minIndex {size : ℕ} (hkey : ∀ idx ≤ size, key idx = .ok (value idx)) :
    ∃ best, minIndex key (size + 1) = .ok best ∧ IsFirstLeast value (size + 1) best := by
  induction size with
  | zero => exact ⟨0, rfl, IsFirstLeast.zero⟩
  | succ size ih =>
      obtain ⟨best, hbest, hleast⟩ := ih fun idx hidx => hkey idx (Nat.le_succ_of_le hidx)
      refine ⟨_, ?_, hleast.step⟩
      have hstep := minStep_of_ok (hkey (size + 1) le_rfl)
        (hkey best (Nat.le_of_lt hleast.lt_size))
      have hrange : List.range' 1 (size + 1) = List.range' 1 size ++ [size + 1] := by
        rw [List.range'_concat, Nat.one_mul, Nat.add_comm 1]
      rw [minIndex, Nat.add_sub_cancel] at hbest
      rw [minIndex, Nat.add_sub_cancel, hrange, List.foldlM_append, hbest]
      show List.foldlM (minStep key) best [size + 1] = _
      rw [List.foldlM_cons, hstep]
      rfl

end Unbiased.Math
