/-
# Debts and what pays for them

In a list some elements are debts. If each debt is preceded by an element that pays for it,
with no debt in between, then the debts can be charged to different elements, and there
are at most as many debts as elements that pay.
-/

import Mathlib.Algebra.Ring.Nat
import Mathlib.Data.Finset.Card
import Mathlib.Data.List.Basic
import Mathlib.Data.List.Infix
import Mathlib.Order.Defs.LinearOrder

namespace Unbiased.Math

universe u v

variable {α : Type u}

/-- Somewhere there is an element that pays, and no debt since. -/
def Covered (debt pays : α → Prop) (l : List α) : Prop :=
  ∃ first a last, l = first ++ a :: last ∧ pays a ∧ ∀ b ∈ a :: last, ¬ debt b

/-- Every debt is covered by the elements before it. -/
def Charged (debt : α → Prop) (pays : α → α → Prop) (l : List α) : Prop :=
  ∀ first a last, l = first ++ a :: last → debt a → Covered debt (pays a) first

/-- Each debt has a position of its own, where an earlier element pays for it. -/
structure Accounts (debt : α → Prop) (pays : α → α → Prop) (l : List α) (account : ℕ → ℕ) :
    Prop where
  paid : ∀ pos a, l[pos]? = some a → debt a →
    account pos < pos ∧ ∃ b, l[account pos]? = some b ∧ pays a b
  distinct : ∀ pos other a b, l[pos]? = some a → l[other]? = some b → debt a → debt b →
    account pos = account other → pos = other

section Covering

variable {debt pays : α → Prop} {l more : List α}

theorem Covered.append (h : Covered debt pays l) (hmore : ∀ b ∈ more, ¬ debt b) :
    Covered debt pays (l ++ more) := by
  obtain ⟨first, a, last, rfl, hpays, hlast⟩ := h
  refine ⟨first, a, last ++ more, List.append_assoc .., hpays, fun b hb => ?_⟩
  rw [← List.cons_append] at hb
  rcases List.mem_append.mp hb with hb | hb
  · exact hlast b hb
  · exact hmore b hb

theorem Covered.of_pays {a : α} (hpays : pays a) (hdebt : ¬ debt a) :
    Covered debt pays (l ++ [a]) := by
  refine ⟨l, a, [], rfl, hpays, fun b hb => ?_⟩
  rwa [List.mem_singleton.mp hb]

end Covering

section Charging

variable {debt : α → Prop} {pays : α → α → Prop} {l more : List α}

theorem Charged.nil : Charged debt pays [] := fun first a last h => by
  cases first <;> cases h

/-- A list stays charged if the element that is added to it is no debt or is covered. -/
theorem Charged.concat (h : Charged debt pays l) {a : α}
    (ha : debt a → Covered debt (pays a) l) : Charged debt pays (l ++ [a]) := by
  intro first b last heq hb
  cases last using List.reverseRecOn with
  | nil =>
      obtain ⟨rfl, hlast⟩ := List.append_inj' heq rfl
      cases hlast
      exact ha hb
  | append_singleton last c =>
      rw [← List.cons_append, ← List.append_assoc] at heq
      exact h first b last (List.append_inj' heq rfl).1 hb

theorem Charged.of_append (h : Charged debt pays (l ++ more)) : Charged debt pays l := by
  rintro first a last rfl ha
  exact h first a (last ++ more) (by rw [List.append_assoc, List.cons_append]) ha

/-- There are at most as many debts as elements that pay. -/
theorem Charged.countP_le [DecidablePred debt] {credit : α → Prop} [DecidablePred credit]
    (h : Charged debt pays l) (hcredit : ∀ a ∈ l, debt a → ∀ b, pays a b → credit b) :
    l.countP (debt ·) ≤ l.countP (credit ·) := by
  induction hlength : l.length using Nat.strong_induction_on generalizing l with
  | _ n ih =>
      cases l using List.reverseRecOn with
      | nil => exact Nat.le_refl 0
      | append_singleton l a =>
          subst hlength
          rw [List.countP_append, List.countP_append]
          by_cases ha : debt a
          · -- Go back to the element that pays for it; there is no debt in between.
            obtain ⟨first, b, last, rfl, hpays, hlast⟩ := h l a [] rfl ha
            have hb := hcredit a (by simp) ha b hpays
            have hfirst := ih first.length (by simp) h.of_append.of_append
              (fun c hc => hcredit c (by simp [hc])) rfl
            have hnone : (b :: last).countP (debt ·) = 0 :=
              List.countP_eq_zero.mpr fun c hc => by simpa using hlast c hc
            have hone : 1 ≤ (b :: last).countP (credit ·) :=
              List.one_le_countP_iff.mpr ⟨b, List.mem_cons_self, by simpa using hb⟩
            rw [List.countP_append, List.countP_append, hnone]
            have hsingle : [a].countP (debt ·) ≤ 1 := List.countP_le_length
            omega
          · have hl := ih l.length (by simp) h.of_append
              (fun c hc => hcredit c (by simp [hc])) rfl
            have hnone : [a].countP (debt ·) = 0 :=
              List.countP_eq_zero.mpr fun c hc => by
                rw [List.mem_singleton.mp hc]
                simpa using ha
            omega

/-- Elements whose values in a finite set differ are at most as many as it has. -/
theorem countP_le_card {β : Type v} [DecidableEq β] {p : α → Prop} [DecidablePred p] {f : α → β}
    {values : Finset β} (hdistinct : l.Pairwise fun a b => p a → p b → f a ≠ f b)
    (hvalues : ∀ a ∈ l, p a → f a ∈ values) : l.countP (p ·) ≤ values.card := by
  have hmem : ∀ {a}, a ∈ l.filter (p ·) → a ∈ l ∧ p a := fun ha =>
    ⟨(List.mem_filter.mp ha).1, of_decide_eq_true (List.mem_filter.mp ha).2⟩
  have hnodup : ((l.filter (p ·)).map f).Nodup := by
    rw [List.Nodup, List.pairwise_map]
    apply (hdistinct.filter _).imp_of_mem
    exact fun ha hb hne => hne (hmem ha).2 (hmem hb).2
  calc l.countP (p ·) = ((l.filter (p ·)).map f).toFinset.card := by
        rw [List.toFinset_card_of_nodup hnodup, List.length_map, List.countP_eq_length_filter]
    _ ≤ values.card := by
        apply Finset.card_le_card
        intro b hb
        obtain ⟨a, ha, rfl⟩ := List.mem_map.mp (List.mem_toFinset.mp hb)
        exact hvalues a (hmem ha).1 (hmem ha).2

/-- The element that pays for a debt stands before it and after all earlier debts. -/
theorem Charged.exists_position (h : Charged debt pays l) {pos : ℕ} {a : α}
    (ha : l[pos]? = some a) (hdebt : debt a) :
    ∃ payer < pos, (∃ b, l[payer]? = some b ∧ pays a b) ∧
      ∀ other < pos, ∀ c, l[other]? = some c → debt c → other < payer := by
  obtain ⟨hlt, rfl⟩ := List.getElem?_eq_some_iff.mp ha
  obtain ⟨first, b, last, hfirst, hpays, hlast⟩ := h (l.take pos) l[pos] (l.drop (pos + 1))
    (by rw [← List.drop_eq_getElem_cons, List.take_append_drop]) hdebt
  have hbefore : ∀ other < pos, l[other]? = (first ++ b :: last)[other]? := by
    intro other hother
    rw [← hfirst, List.getElem?_take_of_lt hother]
  have hlength : first.length < pos := by
    have htake := congrArg List.length hfirst
    rw [List.length_take, List.length_append, List.length_cons] at htake
    omega
  refine ⟨first.length, hlength, ⟨b, ?_, hpays⟩, fun other hother c hc hdebtc => ?_⟩
  · rw [hbefore _ hlength, List.getElem?_append_right (Nat.le_refl _), Nat.sub_self]
    rfl
  · by_contra hge
    rw [hbefore other hother, List.getElem?_append_right (Nat.le_of_not_lt hge)] at hc
    exact hlast c (List.mem_of_getElem? hc) hdebtc

/-- **Charging.** The debts of a charged list are paid for by different elements. -/
theorem Charged.exists_account (h : Charged debt pays l) :
    ∃ account, Accounts debt pays l account := by
  have hpayer : ∀ pos : ℕ, ∃ payer : ℕ, ∀ a, l[pos]? = some a → debt a →
      payer < pos ∧ (∃ b, l[payer]? = some b ∧ pays a b) ∧
        ∀ other < pos, ∀ c, l[other]? = some c → debt c → other < payer := by
    intro pos
    by_cases hdebt : ∃ a, l[pos]? = some a ∧ debt a
    · obtain ⟨a, ha, hdebt⟩ := hdebt
      obtain ⟨payer, hlt, hpaid, hlater⟩ := h.exists_position ha hdebt
      refine ⟨payer, fun b hb _ => ?_⟩
      obtain rfl : a = b := Option.some.inj (ha.symm.trans hb)
      exact ⟨hlt, hpaid, hlater⟩
    · exact ⟨0, fun a ha hdebta => absurd ⟨a, ha, hdebta⟩ hdebt⟩
  choose account haccount using hpayer
  refine ⟨account, ⟨fun pos a ha hdebt => ?_, ?_⟩⟩
  · obtain ⟨hlt, hpaid, -⟩ := haccount pos a ha hdebt
    exact ⟨hlt, hpaid⟩
  · intro pos other a b ha hb hdebta hdebtb heq
    obtain ⟨hpos, -, hposLater⟩ := haccount pos a ha hdebta
    obtain ⟨hother, -, hotherLater⟩ := haccount other b hb hdebtb
    rcases Nat.lt_trichotomy pos other with hlt | hsame | hgt
    · have hlater := hotherLater pos hlt a ha hdebta
      omega
    · exact hsame
    · have hlater := hposLater other hgt b hb hdebtb
      omega

end Charging

end Unbiased.Math
