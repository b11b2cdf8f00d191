/-
# Positions in two sets

Two sorted sets number their elements by position. The numbers mean the same in both
exactly if the elements of one set, in order, begin those of the other.
-/

import Unbiased.Math.SortedSet

namespace Unbiased.Math

namespace SortedSet

universe u

variable {α : Type u} [LinearOrder α] {s t : SortedSet α}

/-- Elements of a set that begins another have the same positions there. -/
theorem mem_and_rank_of_prefix (h : s.elems <+: t.elems) {a : α} (ha : a ∈ s) :
    a ∈ t ∧ t.rank a = s.rank a := by
  apply nth?_eq_some.mp
  have hnth := nth?_rank ha
  obtain ⟨rest, hrest⟩ := h
  rw [nth?] at hnth ⊢
  rw [← hrest, List.getElem?_append_left (List.getElem?_eq_some_iff.mp hnth).1]
  exact hnth

theorem rank_eq_rank_iff_of_prefix (h : s.elems <+: t.elems) {a b : α} (ha : a ∈ s)
    (hb : b ∈ t) : s.rank a = t.rank b ↔ a = b := by
  obtain ⟨hmem, hrank⟩ := mem_and_rank_of_prefix h ha
  rw [← hrank]
  exact ⟨rank_inj hmem hb, congrArg t.rank⟩

/-- A set whose positions mean the same in one that is not smaller begins it. -/
theorem prefix_of_rank_eq_rank_iff (hsize : s.size ≤ t.size)
    (h : ∀ a ∈ s, ∀ b ∈ t, s.rank a = t.rank b ↔ a = b) : s.elems <+: t.elems := by
  rw [List.prefix_iff_getElem?]
  intro i hi
  have ha := nth?_eq_some.mp (List.getElem?_eq_getElem hi)
  have hlt : i < t.elems.length := Nat.lt_of_lt_of_le hi hsize
  have hnth := List.getElem?_eq_getElem hlt
  have hb := nth?_eq_some.mp hnth
  rw [hnth, (h _ ha.1 _ hb.1).mp (ha.2.trans hb.2.symm)]

/-- **Positions mean the same** in two sets exactly if one begins the other. -/
theorem rank_eq_rank_iff :
    (∀ a ∈ s, ∀ b ∈ t, s.rank a = t.rank b ↔ a = b) ↔
      s.elems <+: t.elems ∨ t.elems <+: s.elems := by
  constructor
  · intro h
    rcases Nat.le_total s.size t.size with hsize | hsize
    · exact .inl (prefix_of_rank_eq_rank_iff hsize h)
    · refine .inr (prefix_of_rank_eq_rank_iff hsize fun b hb a ha => ?_)
      rw [eq_comm, h a ha b hb, eq_comm]
  · rintro (h | h) a ha b hb
    · exact rank_eq_rank_iff_of_prefix h ha hb
    · rw [eq_comm, rank_eq_rank_iff_of_prefix h hb ha, eq_comm]

end SortedSet

end Unbiased.Math
