/-
# Lists that begin alike

A word of which all but the last letters begin another word, and what is left of this when
a suffix of the word is replaced.
-/

import Mathlib.Data.List.Infix

namespace Unbiased.Math

universe u v

variable {α : Type u} {β : Type v}

/-- All but the last letters of a list begin another list. -/
def BeginsAllBut (n : ℕ) (word original : List α) : Prop :=
  word.take (word.length - n) <+: original

instance [DecidableEq α] (n : ℕ) (word original : List α) :
    Decidable (BeginsAllBut n word original) :=
  inferInstanceAs (Decidable (_ <+: _))

namespace BeginsAllBut

variable {m n : ℕ} {word original kept suffix replacement : List α}

theorem of_prefix (h : word <+: original) : BeginsAllBut n word original :=
  (List.take_prefix _ _).trans h

theorem mono (h : BeginsAllBut m word original) (hmn : m ≤ n) : BeginsAllBut n word original :=
  (List.take_prefix_take_left (by omega)).trans h

theorem zero_iff : BeginsAllBut 0 word original ↔ word <+: original := by
  rw [BeginsAllBut, Nat.sub_zero, List.take_length]

theorem one_iff : BeginsAllBut 1 word original ↔ word.dropLast <+: original := by
  rw [BeginsAllBut, List.dropLast_eq_take]

/-- A suffix is replaced by one that begins like the part of it that was kept. -/
theorem replace (h : BeginsAllBut m (kept ++ suffix) original) (hm : m ≤ suffix.length)
    (hreplacement : BeginsAllBut n replacement (suffix.take (suffix.length - m))) :
    BeginsAllBut n (kept ++ replacement) original := by
  have hkept : kept ++ suffix.take (suffix.length - m) <+: original := by
    rw [BeginsAllBut, List.length_append, Nat.add_sub_assoc hm, List.take_length_add_append] at h
    exact h
  apply List.IsPrefix.trans _ hkept
  rw [List.length_append]
  rcases le_total n replacement.length with hn | hn
  · rw [Nat.add_sub_assoc hn, List.take_length_add_append]
    exact (List.prefix_append_right_inj kept).mpr hreplacement
  · rw [List.take_append_of_le_length (by omega)]
    exact (List.take_prefix _ _).trans (List.prefix_append _ _)

theorem dropLast (h : BeginsAllBut (n + 1) word original) :
    BeginsAllBut n word.dropLast original := by
  rw [BeginsAllBut, List.length_dropLast, List.dropLast_eq_take, List.take_take,
    min_eq_left (by omega), Nat.sub_sub, Nat.add_comm]
  exact h

theorem map (h : BeginsAllBut n word original) (f : α → β) :
    BeginsAllBut n (word.map f) (original.map f) := by
  rw [BeginsAllBut, List.length_map, ← List.map_take]
  exact List.IsPrefix.map f h

end BeginsAllBut

end Unbiased.Math
