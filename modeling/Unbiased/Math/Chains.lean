/-
# Chains through a list

If every element of a list is a root or is related to an earlier one, then from each
element a chain of related elements leads back to a root.
-/

import Mathlib.Data.List.Induction
import Mathlib.Logic.Relation

namespace Unbiased.Math

universe u

variable {α : Type u} {R : α → α → Prop} {Root : α → Prop} {l : List α}

/-- **Chain rule.** -/
theorem exists_root
    (h : ∀ before a after, l = before ++ a :: after → Root a ∨ ∃ b ∈ before, R a b) {a : α}
    (ha : a ∈ l) : ∃ root ∈ l, Root root ∧ Relation.ReflTransGen R a root := by
  induction l using List.reverseRecOn generalizing a with
  | nil => cases ha
  | append_singleton l last ih =>
      have hearlier : ∀ b ∈ l, ∃ root ∈ l, Root root ∧ Relation.ReflTransGen R b root := by
        intro b hb
        apply ih _ hb
        intro before c after hl
        apply h before c (after ++ [last])
        rw [hl, List.append_assoc, List.cons_append]
      rcases List.mem_append.mp ha with hold | hlast
      · obtain ⟨root, hroot, hchain⟩ := hearlier a hold
        exact ⟨root, List.mem_append_left _ hroot, hchain⟩
      · obtain rfl := List.mem_singleton.mp hlast
        rcases h l a [] rfl with hroot | ⟨b, hb, hrelated⟩
        · exact ⟨a, List.mem_append_right _ List.mem_cons_self, hroot, .refl⟩
        · obtain ⟨root, hmem, hroot, hchain⟩ := hearlier b hb
          exact ⟨root, List.mem_append_left _ hmem, hroot, .head hrelated hchain⟩

/-- What related elements share, the ends of a chain share. -/
theorem eq_of_chain {κ : Type*} {f : α → κ} (h : ∀ a b, R a b → f a = f b) {a root : α}
    (hchain : Relation.ReflTransGen R a root) : f a = f root := by
  induction hchain with
  | refl => rfl
  | tail _ hstep ih => exact ih.trans (h _ _ hstep)

end Unbiased.Math
