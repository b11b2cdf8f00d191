/-
# Shares of a finite type

What share of a finite type has a property, and the share of the families of elements of
which some block has it throughout: the share that a property is amplified to by
repeating it within a block and by trying several blocks.
-/

import Mathlib.Algebra.Order.Field.Basic
import Mathlib.Data.Rat.Cast.Order
import Mathlib.Logic.Equiv.Basic
import Mathlib.SetTheory.Cardinal.Finite

namespace Unbiased.Math

universe u v w

variable {X : Type u} {Y : Type v}

/-- The share of the elements of a type that have a property. -/
noncomputable def share (p : X → Prop) : ℚ := Nat.card {x // p x} / Nat.card X

theorem share_congr {p q : X → Prop} (h : ∀ x, p x ↔ q x) : share p = share q := by
  rw [funext fun x => propext (h x)]

theorem share_mono [Finite X] {p q : X → Prop} (h : ∀ x, p x → q x) : share p ≤ share q := by
  rw [share, share]
  apply div_le_div_of_nonneg_right _ (Nat.cast_nonneg _)
  rw [Nat.cast_le]
  exact Nat.card_le_card_of_injective _ (Subtype.impEmbedding p q h).injective

/-- A renaming of the elements changes no share. -/
theorem share_comp_equiv (e : X ≃ Y) (p : Y → Prop) : share (fun x => p (e x)) = share p := by
  rw [share, share, Nat.card_congr e,
    Nat.card_congr (e.subtypeEquiv fun x => (Iff.rfl : p (e x) ↔ p (e x)))]

theorem share_not [Finite X] [Nonempty X] (p : X → Prop) :
    share (fun x => ¬ p x) = 1 - share p := by
  classical
  have hpos : (Nat.card X : ℚ) ≠ 0 := Nat.cast_ne_zero.mpr Nat.card_pos.ne'
  have hsum : Nat.card {x // p x} + Nat.card {x // ¬ p x} = Nat.card X := by
    rw [← Nat.card_sum]
    exact Nat.card_congr (Equiv.sumCompl p)
  rw [share, share, eq_sub_iff_add_eq', ← add_div, ← Nat.cast_add, hsum, div_self hpos]

/-! ## Families -/

variable {ι : Type w} [Finite ι]

/-- All elements of a family have a property with the power of its share. -/
theorem share_forall (p : X → Prop) :
    share (fun family : ι → X => ∀ i, p (family i)) = share p ^ Nat.card ι := by
  rw [share, share, Nat.card_congr (Equiv.subtypePiEquivPi (p := fun _ x => p x)), Nat.card_fun,
    Nat.card_fun, Nat.cast_pow, Nat.cast_pow, div_pow]

theorem share_exists [Finite X] [Nonempty X] (p : X → Prop) :
    share (fun family : ι → X => ∃ i, p (family i)) = 1 - (1 - share p) ^ Nat.card ι := by
  have hnone : share (fun family : ι → X => ¬ ∃ i, p (family i)) =
      (1 - share p) ^ Nat.card ι := by
    rw [← share_not, ← share_forall]
    exact share_congr fun family => not_exists
  rw [← hnone, share_not, sub_sub_cancel]

variable {κ : Type w} [Finite κ]

/-- **Amplification.** Some block has a property throughout. -/
theorem share_exists_forall [Finite X] [Nonempty X] (p : X → Prop) :
    share (fun family : ι × κ → X => ∃ i, ∀ k, p (family (i, k))) =
      1 - (1 - share p ^ Nat.card κ) ^ Nat.card ι := by
  rw [← share_forall, ← share_exists fun block : κ → X => ∀ k, p (block k)]
  exact (share_comp_equiv (Equiv.curry ι κ X)
    fun blocks : ι → κ → X => ∃ i, ∀ k, p (blocks i k))

end Unbiased.Math
