/-
# Which element of a set comes first

A numbering of a finite type puts its elements in a row. Every element of a
nonempty set comes first among that set in equally many numberings, because a
swap of two elements turns the numberings that put the one first into those
that put the other first.
-/

import Mathlib.Algebra.BigOperators.Ring.Finset
import Mathlib.Combinatorics.KatonaCircle
import Mathlib.Data.Finset.Max
import Mathlib.Tactic.Ring

namespace Unbiased.Math

open scoped Nat BigOperators

universe u

variable {X : Type u} [Fintype X]

/-- No element of the set has a smaller number than this one. -/
def ComesFirst (s : Finset X) (numbering : Numbering X) (x : X) : Prop :=
  x ∈ s ∧ ∀ y ∈ s, numbering x ≤ numbering y

theorem exists_comesFirst {s : Finset X} (hne : s.Nonempty) (numbering : Numbering X) :
    ∃ x, ComesFirst s numbering x := by
  have ⟨x, hx, hfirst⟩ := s.exists_min_image numbering hne
  exact ⟨x, hx, hfirst⟩

theorem ComesFirst.unique {s : Finset X} {numbering : Numbering X} {x y : X}
    (hx : ComesFirst s numbering x) (hy : ComesFirst s numbering y) : x = y :=
  numbering.injective ((hx.2 y hy.1).antisymm (hy.2 x hx.1))

variable [DecidableEq X]

instance (s : Finset X) (numbering : Numbering X) (x : X) : Decidable (ComesFirst s numbering x) :=
  inferInstanceAs (Decidable (_ ∧ _))

/-- The numberings that put an element first. -/
def numberingsWithFirst (s : Finset X) (x : X) : Finset (Numbering X) :=
  Finset.univ.filter fun numbering => ComesFirst s numbering x

theorem mem_numberingsWithFirst {s : Finset X} {x : X} {numbering : Numbering X} :
    numbering ∈ numberingsWithFirst s x ↔ ComesFirst s numbering x := by
  simp [numberingsWithFirst]

/-- A swap within the set moves the first element. -/
theorem comesFirst_swap {s : Finset X} {x y : X} (hx : x ∈ s) (hy : y ∈ s)
    (numbering : Numbering X) :
    ComesFirst s ((Equiv.swap x y).trans numbering) y ↔ ComesFirst s numbering x := by
  have hmem : ∀ z, Equiv.swap x y z ∈ s ↔ z ∈ s := by
    intro z
    rcases eq_or_ne z x with rfl | hzx
    · simp [hx, hy]
    · rcases eq_or_ne z y with rfl | hzy
      · simp [hx, hy]
      · rw [Equiv.swap_apply_of_ne_of_ne hzx hzy]
  simp only [ComesFirst, hx, hy, true_and, Equiv.trans_apply, Equiv.swap_apply_right]
  constructor
  · intro hfirst z hz
    have hswap := hfirst (Equiv.swap x y z) ((hmem z).mpr hz)
    rwa [Equiv.swap_apply_self] at hswap
  · intro hfirst z hz
    exact hfirst _ ((hmem z).mpr hz)

/-- Two elements of a set come first equally often. -/
theorem card_numberingsWithFirst_eq {s : Finset X} {x y : X} (hx : x ∈ s) (hy : y ∈ s) :
    (numberingsWithFirst s x).card = (numberingsWithFirst s y).card := by
  apply Finset.card_equiv (Equiv.equivCongr (Equiv.swap x y) (Equiv.refl _))
  intro numbering
  rw [mem_numberingsWithFirst, mem_numberingsWithFirst, ← comesFirst_swap hx hy]
  rfl

/-- The numberings that put some element of a subset first, counted by the element. -/
theorem card_filter_exists_comesFirst {s t : Finset X} :
    (Finset.univ.filter fun numbering : Numbering X =>
      ∃ x ∈ t, ComesFirst s numbering x).card =
        ∑ x ∈ t, (numberingsWithFirst s x).card := by
  rw [← Finset.card_biUnion]
  · congr 1
    ext numbering
    simp [mem_numberingsWithFirst]
  · intro x _ y _ hne
    apply Finset.disjoint_left.mpr
    intro numbering hx hy
    exact hne ((mem_numberingsWithFirst.mp hx).unique (mem_numberingsWithFirst.mp hy))

/-- **Every element comes first equally often.** The share of the numberings that put
an element of a subset first is the subset's share of the set. -/
theorem card_comesFirst_mul_card {s t : Finset X} (hne : s.Nonempty) (hsubset : t ⊆ s) :
    (Finset.univ.filter fun numbering : Numbering X =>
      ∃ x ∈ t, ComesFirst s numbering x).card * s.card = (Fintype.card X)! * t.card := by
  obtain ⟨x, hx⟩ := hne
  have hcount : ∀ part ⊆ s, (Finset.univ.filter fun numbering : Numbering X =>
      ∃ y ∈ part, ComesFirst s numbering y).card = part.card * (numberingsWithFirst s x).card := by
    intro part hpart
    rw [card_filter_exists_comesFirst]
    apply Finset.sum_const_nat
    intro y hy
    exact card_numberingsWithFirst_eq (hpart hy) hx
  have hall : (Fintype.card X)! = s.card * (numberingsWithFirst s x).card := by
    rw [← hcount s subset_rfl, ← Fintype.card_numbering, ← Finset.card_univ]
    congr 1
    ext numbering
    have ⟨y, hy⟩ := exists_comesFirst ⟨x, hx⟩ numbering
    simpa using ⟨y, hy.1, hy⟩
  rw [hcount t hsubset, hall]
  ring

end Unbiased.Math
