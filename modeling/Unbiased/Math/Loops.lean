/-
# Invariants of loops

A loop whose turns cannot fail is a fold. What each turn preserves holds at the end, and a
loop over the indices of a list may use an invariant that counts the turns.
-/

import Mathlib.Data.List.FinRange

namespace Unbiased.Math

universe u v

variable {σ : Type u} {ι : Type v}

/-- What a turn preserves, the loop preserves. -/
theorem foldl_preserves {P : σ → Prop} {f : σ → ι → σ} {s : σ} {l : List ι} (hinit : P s)
    (hstep : ∀ s i, P s → P (f s i)) : P (l.foldl f s) := by
  induction l generalizing s with
  | nil => exact hinit
  | cons i l ih => exact ih (hstep s i hinit)

/-- An invariant that knows how many turns there were. -/
theorem foldl_finRange_invariant {n : ℕ} {P : ℕ → σ → Prop} {f : σ → Fin n → σ} {s : σ}
    (hinit : P 0 s) (hstep : ∀ (k : Fin n) s, P k.val s → P (k.val + 1) (f s k)) :
    P n ((List.finRange n).foldl f s) := by
  have htake : ∀ k ≤ n, P k (((List.finRange n).take k).foldl f s) := by
    intro k
    induction k with
    | zero => exact fun _ => hinit
    | succ k ih =>
        intro hk
        have hlt : k < (List.finRange n).length := by
          rw [List.length_finRange]
          exact hk
        rw [← List.take_append_getElem hlt, List.foldl_append, List.getElem_finRange]
        exact hstep ⟨k, hk⟩ _ (ih (Nat.le_of_succ_le hk))
  have hall := htake n (Nat.le_refl n)
  rwa [List.take_of_length_le (by rw [List.length_finRange])] at hall

end Unbiased.Math
