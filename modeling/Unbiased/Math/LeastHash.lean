/-
# Least hashes

A list is summarised by the least of its hashes, below a bound that no hash
reaches. An empty list is summarised by the bound. Lists without a common
element have different summaries under a hash without collisions, unless both
are empty.
-/

import Mathlib.Order.Lattice
import Mathlib.Order.MinMax

namespace Unbiased.Math

universe u v

variable {α : Type u} {β : Type v} [LinearOrder β]

/-- The least of the hashes of a list, starting from a bound. -/
def leastHash (hash : α → β) (bound : β) (l : List α) : β :=
  l.foldl (fun least a => min least (hash a)) bound

variable {hash : α → β} {bound : β}

@[simp]
theorem leastHash_nil : leastHash hash bound [] = bound := rfl

theorem leastHash_cons (a : α) (l : List α) :
    leastHash hash bound (a :: l) = leastHash hash (min bound (hash a)) l := rfl

/-- What lies below the least hash lies below the bound and below every hash. -/
theorem le_leastHash_iff {least : β} {l : List α} :
    least ≤ leastHash hash bound l ↔ least ≤ bound ∧ ∀ a ∈ l, least ≤ hash a := by
  induction l generalizing bound with
  | nil => simp
  | cons a l ih =>
      rw [leastHash_cons, ih, le_min_iff, List.forall_mem_cons]
      exact and_assoc

/-- The bound is kept, or some element has the least hash. -/
theorem leastHash_eq_or (l : List α) :
    leastHash hash bound l = bound ∨ ∃ a ∈ l, leastHash hash bound l = hash a := by
  induction l generalizing bound with
  | nil => exact Or.inl rfl
  | cons a l ih =>
      rw [leastHash_cons]
      rcases @ih (min bound (hash a)) with heq | ⟨b, hb, heq⟩
      · rcases min_choice bound (hash a) with hmin | hmin
        · exact Or.inl (heq.trans hmin)
        · exact Or.inr ⟨a, List.mem_cons_self, heq.trans hmin⟩
      · exact Or.inr ⟨b, List.mem_cons_of_mem a hb, heq⟩

theorem leastHash_le_of_mem {l : List α} {a : α} (ha : a ∈ l) :
    leastHash hash bound l ≤ hash a :=
  (le_leastHash_iff.mp le_rfl).2 a ha

/-- **Least hashes of a union.** A list that has the elements of two others has the
smaller one of their least hashes. -/
theorem leastHash_union {first second union : List α}
    (hunion : ∀ a, a ∈ union ↔ a ∈ first ∨ a ∈ second) :
    leastHash hash bound union =
      min (leastHash hash bound first) (leastHash hash bound second) := by
  apply eq_of_forall_le_iff
  intro least
  simp only [le_min_iff, le_leastHash_iff, hunion, or_imp, forall_and]
  exact and_and_left

/-- An element whose hash no hash in the list undercuts gives the least hash
exactly if it is in the list, unless another element has the same hash. -/
theorem leastHash_eq_iff_mem {l : List α} {a : α} (hbound : hash a < bound)
    (hinj : ∀ b ∈ l, hash b = hash a → b = a) (hleast : ∀ b ∈ l, hash a ≤ hash b) :
    leastHash hash bound l = hash a ↔ a ∈ l := by
  constructor
  · intro heq
    rcases @leastHash_eq_or _ _ _ hash bound l with hempty | ⟨b, hb, hhash⟩
    · exact absurd (hempty.symm.trans heq) hbound.ne'
    · rwa [← hinj b hb (hhash.symm.trans heq)]
  · intro ha
    exact (leastHash_le_of_mem ha).antisymm (le_leastHash_iff.mpr ⟨hbound.le, hleast⟩)

/-- Below the bound, the least hash of a list with elements is one of theirs. -/
theorem exists_leastHash (hbound : ∀ a, hash a < bound) {l : List α} (hne : l ≠ []) :
    ∃ a ∈ l, leastHash hash bound l = hash a := by
  obtain ⟨a, ha⟩ := List.exists_mem_of_ne_nil l hne
  exact (leastHash_eq_or l).resolve_left
    ((leastHash_le_of_mem ha).trans_lt (hbound a)).ne

/-- **Different lists differ in their least hash,** if they have no common element,
the hash has no collision between them, and one of them has elements. -/
theorem leastHash_ne (hbound : ∀ a, hash a < bound) {first second : List α}
    (hinj : ∀ a ∈ first, ∀ b ∈ second, hash a = hash b → a = b)
    (hdisjoint : ∀ a ∈ first, a ∉ second) (hne : first ≠ [] ∨ second ≠ []) :
    leastHash hash bound first ≠ leastHash hash bound second := by
  intro heq
  by_cases hfirst : first = []
  · obtain ⟨b, -, hb⟩ := exists_leastHash hbound (hne.resolve_left fun h => h hfirst)
    rw [hfirst, leastHash_nil, hb] at heq
    exact (hbound b).ne heq.symm
  · obtain ⟨a, ha, hfirstHash⟩ := exists_leastHash hbound hfirst
    by_cases hsecond : second = []
    · rw [hsecond, leastHash_nil, hfirstHash] at heq
      exact (hbound a).ne heq
    · obtain ⟨b, hb, hsecondHash⟩ := exists_leastHash hbound hsecond
      rw [hfirstHash, hsecondHash] at heq
      exact hdisjoint a ha (hinj a ha b hb heq ▸ hb)

end Unbiased.Math
