/-
# Sorting and taking the first

A library sort permutes a list and puts it in an order, and does not say how it
arranges elements that the order does not tell apart. The first elements of the
sorted values of some keys are therefore the values of chosen keys, and no key
that was left out comes before a chosen one.
-/

import Mathlib.Data.List.Perm.Basic
import Mathlib.Order.Lattice

namespace Unbiased.Math

universe u v w

/-- `std::sort` with a comparator: no element stands behind one that it comes before. -/
structure StdSort (α : Type u) (comp : α → α → Prop) where
  sort : List α → List α
  perm : ∀ l, (sort l).Perm l
  sorted : ∀ l, (sort l).Pairwise fun first second => ¬ comp second first

/-- The stable sort by decreasing keys. -/
def StdSort.byKey {α : Type u} {γ : Type w} [LinearOrder γ] (key : α → γ) :
    StdSort α fun first second => key second < key first where
  sort l := l.mergeSort fun first second => decide (key second ≤ key first)
  perm l := List.mergeSort_perm l _
  sorted l := by
    have htrans : ∀ first second third : α, decide (key second ≤ key first) = true →
        decide (key third ≤ key second) = true → decide (key third ≤ key first) = true := by
      simp only [decide_eq_true_iff]
      exact fun _ _ _ hfirst hsecond => le_trans hsecond hfirst
    have htotal : ∀ first second : α,
        (decide (key second ≤ key first) || decide (key first ≤ key second)) = true := by
      simp only [Bool.or_eq_true, decide_eq_true_iff]
      exact fun first second => le_total (key second) (key first)
    apply (List.pairwise_mergeSort htrans htotal l).imp
    exact fun hle => not_lt.mpr (decide_eq_true_iff.mp hle)

/-- A permutation of the values of some keys lists the values of a permutation of the keys. -/
theorem exists_perm_of_perm_map {α : Type u} {β : Type v} {f : β → α} {values : List α}
    {keys : List β} (h : values.Perm (keys.map f)) :
    ∃ permuted : List β, permuted.Perm keys ∧ values = permuted.map f := by
  have hvalues : List.Forall₂ (fun value key => value = f key) (keys.map f) keys := by
    rw [List.forall₂_map_left_iff, List.forall₂_same]
    exact fun _ _ => rfl
  obtain ⟨permuted, hmapped, hperm⟩ := List.perm_comp_forall₂ h hvalues
  refine ⟨permuted, hperm, ?_⟩
  rw [← List.forall₂_eq_eq_eq, List.forall₂_map_right_iff]
  exact hmapped

/-- **The first of the sorted values.** They are the values of as many keys, and no key that
was left out has a value that comes before one of theirs. -/
theorem StdSort.exists_take {α : Type u} {β : Type v} {comp : α → α → Prop}
    (order : StdSort α comp) (f : β → α) {keys : List β} (hnodup : keys.Nodup) (count : ℕ) :
    ∃ chosen : List β, chosen.Nodup ∧ chosen ⊆ keys ∧ chosen.length = min count keys.length ∧
      (order.sort (keys.map f)).take count = chosen.map f ∧
      ∀ key ∈ chosen, ∀ other ∈ keys, other ∉ chosen → ¬ comp (f other) (f key) := by
  obtain ⟨permuted, hperm, hsort⟩ := exists_perm_of_perm_map (order.perm (keys.map f))
  have hsorted := order.sorted (keys.map f)
  rw [hsort, List.pairwise_map, ← List.take_append_drop count permuted,
    List.pairwise_append] at hsorted
  have htaken : (permuted.take count).Sublist permuted := List.take_sublist count permuted
  refine ⟨permuted.take count, ?_, ?_, ?_, ?_, ?_⟩
  · exact (hperm.nodup_iff.mpr hnodup).sublist htaken
  · exact fun key hkey => hperm.subset (htaken.subset hkey)
  · rw [List.length_take, hperm.length_eq]
  · rw [hsort, List.map_take]
  · intro key hkey other hother hout
    have hlisted : other ∈ permuted.take count ++ permuted.drop count := by
      rw [List.take_append_drop]
      exact hperm.mem_iff.mpr hother
    exact hsorted.2.2 key hkey other ((List.mem_append.mp hlisted).resolve_left hout)

end Unbiased.Math
