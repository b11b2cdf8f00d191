/-
# Runs that use something up

Some steps take one unit each from a potential. If each state with potential left has such a
step, there is a run that uses it up.
-/

import Unbiased.Math.Execution

namespace Unbiased.Math

universe u v

variable {σ : Type u} {ι : Type v} {step : σ → ι → Option σ}

section Spending

variable {P : σ → Prop} {Spends : ι → Prop} {potential : σ → ℕ}

/-- **Spending rule.** If no state with potential left is stuck, some run of spending steps
uses it up. -/
theorem exists_run_potential_zero {s : σ} (hs : P s)
    (hspends : ∀ m i t, P m → Spends i → step m i = some t → P t ∧ potential t + 1 = potential m)
    (hprogress : ∀ m, P m → potential m ≠ 0 → ∃ i, Spends i ∧ (step m i).isSome) :
    ∃ inputs t, (∀ i ∈ inputs, Spends i) ∧ run step s inputs = some t ∧ P t ∧
      potential t = 0 := by
  induction hunits : potential s generalizing s with
  | zero => exact ⟨[], s, fun i hi => (by cases hi), rfl, hs, hunits⟩
  | succ units ih =>
      obtain ⟨i, hi, hsome⟩ := hprogress s hs (by omega)
      obtain ⟨m, hm⟩ := Option.isSome_iff_exists.mp hsome
      obtain ⟨hP, hunit⟩ := hspends s i m hs hi hm
      obtain ⟨rest, t, hrest, hrun, hfinal⟩ := ih hP (by omega)
      refine ⟨i :: rest, t, List.forall_mem_cons.mpr ⟨hi, hrest⟩, ?_, hfinal⟩
      rw [run_cons, hm]
      exact hrun

end Spending

end Unbiased.Math
