/-
# What a run emits

A step may leave a record of what it did. The records of a run, in order, are its outputs;
an invariant may relate them to the inputs consumed and to the state reached.
-/

import Unbiased.Math.Execution

namespace Unbiased.Math

universe u v w

variable {σ : Type u} {ι : Type v} {β : Type w}

/-- The outputs of the steps of a run, oldest first. They end where the step stops. -/
def outputs (step : σ → ι → Option σ) (out : σ → ι → List β) : σ → List ι → List β
  | _, [] => []
  | s, i :: rest =>
    match step s i with
    | none => []
    | some t => out s i ++ outputs step out t rest

variable {step : σ → ι → Option σ} {out : σ → ι → List β}

theorem outputs_cons {s t : σ} {i : ι} (hstep : step s i = some t) (rest : List ι) :
    outputs step out s (i :: rest) = out s i ++ outputs step out t rest := by
  rw [outputs, hstep]

/-- The outputs of a run over two parts. -/
theorem outputs_append {s m : σ} {first : List ι} (hrun : run step s first = some m)
    (rest : List ι) :
    outputs step out s (first ++ rest) =
      outputs step out s first ++ outputs step out m rest := by
  induction first generalizing s with
  | nil =>
      obtain rfl : s = m := Option.some.inj hrun
      rfl
  | cons i first ih =>
      obtain ⟨t, ht, hfirst⟩ := Option.bind_eq_some_iff.mp hrun
      rw [List.cons_append, outputs_cons ht, outputs_cons ht, ih hfirst, List.append_assoc]

theorem outputs_concat {s m t : σ} {hist : List ι} {i : ι} (hrun : run step s hist = some m)
    (hstep : step m i = some t) :
    outputs step out s (hist ++ [i]) = outputs step out s hist ++ out m i := by
  rw [outputs_append hrun, outputs_cons hstep, outputs, List.append_nil]

/-- **Output rule.** A relation between the inputs consumed, the outputs and the state that
holds at the start and is kept by each guarded step holds after every run of such steps. -/
theorem outputs_invariant {P : List ι → List β → σ → Prop} {G : σ → ι → Prop} {s t : σ}
    {inputs : List ι} (hinit : P [] [] s)
    (hkept : ∀ hist log m i m', P hist log m → G m i → step m i = some m' →
      P (hist ++ [i]) (log ++ out m i) m')
    (hall : AllSteps step G s inputs) (hrun : run step s inputs = some t) :
    P inputs (outputs step out s inputs) t := by
  have hstates : AllStates step (fun hist m => P hist (outputs step out s hist) m) s inputs := by
    apply allStates_of_kept
    · exact hinit
    · intro hist i hpre m m' hm hi hP
      rw [outputs_concat hm hi]
      exact hkept hist _ m i m' hP (hall hist i hpre m hm) hi
  exact hstates inputs List.prefix_rfl t hrun

/-- The rule without a guard. -/
theorem outputs_invariant_of_step {P : List ι → List β → σ → Prop} {s t : σ} {inputs : List ι}
    (hinit : P [] [] s)
    (hkept : ∀ hist log m i m', P hist log m → step m i = some m' →
      P (hist ++ [i]) (log ++ out m i) m')
    (hrun : run step s inputs = some t) : P inputs (outputs step out s inputs) t :=
  outputs_invariant (G := fun _ _ => True) hinit
    (fun hist log m i m' hP _ => hkept hist log m i m' hP) (fun _ _ _ _ _ => trivial) hrun

end Unbiased.Math
