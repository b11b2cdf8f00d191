/-
# The first element of each key

Of a list, the elements that no earlier one shares its key with. A loop that remembers the
keys it has seen and keeps what has a new one computes this list.
-/

import Mathlib.Data.List.Nodup

namespace Unbiased.Math

universe u v

variable {α : Type u} {κ : Type v} [DecidableEq κ]

/-- The elements of a list that are the first ones of their keys. -/
def firstBy (key : α → κ) : List α → List α
  | [] => []
  | a :: l => a :: (firstBy key l).filter fun b => key b ≠ key a

variable {key : α → κ} {l : List α}

theorem firstBy_sublist (key : α → κ) (l : List α) : (firstBy key l).Sublist l := by
  induction l with
  | nil => exact List.Sublist.refl []
  | cons a l ih => exact ((List.filter_sublist).trans ih).cons_cons a

/-- Every key has a first element. -/
theorem mem_map_firstBy {k : κ} : k ∈ (firstBy key l).map key ↔ k ∈ l.map key := by
  induction l with
  | nil => rfl
  | cons a l ih =>
      rw [firstBy, List.map_cons, List.map_cons, List.mem_cons, List.mem_cons, ← ih]
      by_cases hk : k = key a
      · simp [hk]
      · simp only [hk, false_or, List.mem_map, List.mem_filter, decide_eq_true_eq]
        constructor
        · rintro ⟨b, ⟨hb, -⟩, rfl⟩
          exact ⟨b, hb, rfl⟩
        · rintro ⟨b, hb, rfl⟩
          exact ⟨b, ⟨hb, hk⟩, rfl⟩

/-- No key has two. -/
theorem nodup_map_firstBy (key : α → κ) (l : List α) : ((firstBy key l).map key).Nodup := by
  induction l with
  | nil => exact List.nodup_nil
  | cons a l ih =>
      rw [firstBy, List.map_cons, List.nodup_cons]
      constructor
      · rw [List.mem_map]
        rintro ⟨b, hb, hkey⟩
        exact (of_decide_eq_true (List.mem_filter.mp hb).2) hkey
      · exact ih.sublist (List.filter_sublist.map key)

/-- One more element is kept if its key is new. -/
theorem firstBy_concat (key : α → κ) (l : List α) (a : α) :
    firstBy key (l ++ [a]) = if key a ∈ l.map key then firstBy key l else firstBy key l ++ [a] := by
  induction l with
  | nil => rfl
  | cons b l ih =>
      rw [List.cons_append, firstBy, ih, firstBy, List.map_cons]
      by_cases hb : key a = key b
      · rw [if_pos (List.mem_cons.mpr (Or.inl hb))]
        split
        · rfl
        · rw [List.filter_append, List.filter_singleton, decide_eq_false (not_not.mpr hb)]
          simp
      · by_cases hl : key a ∈ l.map key
        · rw [if_pos hl, if_pos (List.mem_cons.mpr (Or.inr hl))]
        · rw [if_neg hl, if_neg (List.mem_cons.not.mpr (not_or.mpr ⟨hb, hl⟩)), List.filter_append,
            List.filter_singleton, decide_eq_true hb]
          rfl

end Unbiased.Math
