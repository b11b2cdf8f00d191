/-
# Runs of a partial step function

A loop body, a request handler and a protocol action are all one thing here: a
step that takes a state and an input and either produces the next state or
stops. A run feeds a list of inputs through the step. Invariants are packaged
once, for predicates that may also read the inputs consumed so far, because
most facts about a running system relate its state to its own history.
-/

import Mathlib.Data.List.Basic
import Mathlib.Data.List.Forall2
import Mathlib.Data.List.Infix
import Mathlib.Data.Option.Basic

namespace Unbiased.Math

universe u v w

variable {σ : Type u} {ι : Type v}

/-- Feed the inputs to the step one after the other; stop where the step does. -/
def run (step : σ → ι → Option σ) : σ → List ι → Option σ
  | s, [] => some s
  | s, i :: rest => (step s i).bind fun s' => run step s' rest

variable {step : σ → ι → Option σ}

@[simp]
theorem run_nil (s : σ) : run step s [] = some s := rfl

theorem run_cons (s : σ) (i : ι) (rest : List ι) :
    run step s (i :: rest) = (step s i).bind fun s' => run step s' rest := rfl

theorem run_append (s : σ) (first rest : List ι) :
    run step s (first ++ rest) =
      (run step s first).bind fun s' => run step s' rest := by
  induction first generalizing s with
  | nil => rfl
  | cons i first ih =>
      rw [List.cons_append, run_cons, run_cons, Option.bind_assoc]
      exact Option.bind_congr fun s' _ => ih s'

/-- A run over two parts passes through a middle state. -/
theorem run_append_eq_some {s t : σ} {first rest : List ι} :
    run step s (first ++ rest) = some t ↔
      ∃ m, run step s first = some m ∧ run step m rest = some t := by
  rw [run_append, Option.bind_eq_some_iff]

/-- The last input of a run is one step from the state before it. -/
theorem run_concat_eq_some {s t : σ} {hist : List ι} {i : ι} :
    run step s (hist ++ [i]) = some t ↔
      ∃ m, run step s hist = some m ∧ step m i = some t := by
  simp [run_append_eq_some, run_cons]

/-- **Invariant rule.** A relation between the inputs consumed and the state
reached that holds at the start and is kept by each step holds after every run. -/
theorem run_invariant {P : List ι → σ → Prop} {s : σ} (hinit : P [] s)
    (hstep : ∀ hist m i t, P hist m → step m i = some t → P (hist ++ [i]) t)
    {inputs : List ι} {t : σ} (hrun : run step s inputs = some t) : P inputs t := by
  induction inputs using List.reverseRecOn generalizing t with
  | nil =>
      obtain rfl : s = t := Option.some.inj hrun
      exact hinit
  | append_singleton hist i ih =>
      obtain ⟨m, hm, hi⟩ := run_concat_eq_some.mp hrun
      exact hstep hist m i t (ih hm) hi

/-- The state-only form of the invariant rule. -/
theorem run_preserves {P : σ → Prop} {s t : σ} {inputs : List ι}
    (hrun : run step s inputs = some t) (hinit : P s)
    (hstep : ∀ m i t, P m → step m i = some t → P t) : P t :=
  run_invariant (P := fun _ m => P m) hinit (fun _ m i t => hstep m i t) hrun

/-- The state-only form, for steps with the inputs of the run. -/
theorem run_preserves_of_mem {P : σ → Prop} {s t : σ} {inputs : List ι}
    (hrun : run step s inputs = some t) (hinit : P s)
    (hstep : ∀ m, ∀ i ∈ inputs, ∀ t, P m → step m i = some t → P t) : P t := by
  induction inputs generalizing s with
  | nil =>
      obtain rfl : s = t := Option.some.inj hrun
      exact hinit
  | cons i rest ih =>
      obtain ⟨m, hm, hrest⟩ := Option.bind_eq_some_iff.mp hrun
      apply ih hrest (hstep s i List.mem_cons_self m hinit hm)
      exact fun m j hj => hstep m j (List.mem_cons_of_mem i hj)

/-- **Accumulation rule.** If a step makes a predicate hold exactly for some inputs, and
never undoes it, then it holds after a run if it did before or one of those
inputs was consumed. -/
theorem run_accumulates {P : σ → Prop} {Q : ι → Prop} {s t : σ} {inputs : List ι}
    (hrun : run step s inputs = some t)
    (hstep : ∀ m i m', step m i = some m' → (P m' ↔ P m ∨ Q i)) :
    P t ↔ P s ∨ ∃ i ∈ inputs, Q i := by
  induction inputs generalizing s with
  | nil =>
      obtain rfl : s = t := Option.some.inj hrun
      simp
  | cons i rest ih =>
      obtain ⟨m, hm, hrest⟩ := Option.bind_eq_some_iff.mp hrun
      rw [ih hrest, hstep s i m hm, List.exists_mem_cons_iff, or_assoc]

/-- **Total rule.** If every input can be consumed in a state that satisfies the
relation, and leads to one that does, the run completes and ends in the relation. -/
theorem exists_run {P : List ι → σ → Prop} {s : σ} {inputs : List ι} (hinit : P [] s)
    (hstep : ∀ hist i m, hist ++ [i] <+: inputs → P hist m →
      ∃ t, step m i = some t ∧ P (hist ++ [i]) t) :
    ∃ t, run step s inputs = some t ∧ P inputs t := by
  induction inputs using List.reverseRecOn with
  | nil => exact ⟨s, rfl, hinit⟩
  | append_singleton hist i ih =>
      obtain ⟨m, hm, hP⟩ := ih fun earlier j m hpre =>
        hstep earlier j m (hpre.trans (List.prefix_append hist [i]))
      obtain ⟨t, ht, hPt⟩ := hstep hist i m List.prefix_rfl hP
      exact ⟨t, run_concat_eq_some.mpr ⟨m, hm, ht⟩, hPt⟩

/-- The state-only form, for steps with the inputs of the run. -/
theorem exists_run_preserves {P : σ → Prop} {s : σ} {inputs : List ι} (hinit : P s)
    (hstep : ∀ m, ∀ i ∈ inputs, P m → ∃ t, step m i = some t ∧ P t) :
    ∃ t, run step s inputs = some t ∧ P t := by
  apply exists_run (P := fun _ m => P m) hinit
  intro hist i m hpre
  exact hstep m i (hpre.subset (List.mem_append_right hist List.mem_cons_self))

/-- **Guarded totality rule.** If the states of a run can consume the same inputs, it
completes exactly if each of its inputs can be consumed. -/
theorem isSome_run_iff {P : σ → Prop} {Q : ι → Prop} {s : σ} {inputs : List ι} (hinit : P s)
    (hkept : ∀ m i t, P m → step m i = some t → P t)
    (hsome : ∀ m i, P m → ((step m i).isSome ↔ Q i)) :
    (run step s inputs).isSome ↔ ∀ i ∈ inputs, Q i := by
  induction inputs generalizing s with
  | nil => simp
  | cons i rest ih =>
      rw [run_cons, List.forall_mem_cons, ← hsome s i hinit]
      cases hi : step s i with
      | none => simp
      | some t => simp [ih (hkept s i t hinit hi)]

/-- A run whose step stops at some inputs only completes without them. -/
theorem isSome_run_iff_of_forall {Q : ι → Prop} {s : σ} {inputs : List ι}
    (hsome : ∀ m i, (step m i).isSome ↔ Q i) :
    (run step s inputs).isSome ↔ ∀ i ∈ inputs, Q i :=
  isSome_run_iff (P := fun _ => True) trivial (fun _ _ _ _ _ => trivial) fun m i _ => hsome m i

/-- A run completes if every state can consume each of its inputs. -/
theorem isSome_run_of_forall_mem {s : σ} {inputs : List ι}
    (hsome : ∀ i ∈ inputs, ∀ m, (step m i).isSome) : (run step s inputs).isSome := by
  induction inputs generalizing s with
  | nil => rfl
  | cons i rest ih =>
      obtain ⟨t, ht⟩ := Option.isSome_iff_exists.mp (hsome i List.mem_cons_self s)
      rw [run_cons, ht]
      exact ih fun j hj => hsome j (List.mem_cons_of_mem i hj)

/-- **Simulation rule.** If one step does to the image of a state what another does
to the state, so do their runs. -/
theorem run_simulates {τ : Type w} {step' : τ → ι → Option τ} {f : σ → τ}
    (h : ∀ s i, step' (f s) i = (step s i).map f) (s : σ) (inputs : List ι) :
    run step' (f s) inputs = (run step s inputs).map f := by
  induction inputs generalizing s with
  | nil => rfl
  | cons i rest ih =>
      rw [run_cons, run_cons, h]
      cases step s i with
      | none => rfl
      | some t => exact ih t

/-- A change of state that the step commutes with can be made before or after a run. -/
theorem run_map {f : σ → σ} (h : ∀ s i, step (f s) i = (step s i).map f) (s : σ)
    (inputs : List ι) : run step (f s) inputs = (run step s inputs).map f :=
  run_simulates h s inputs

/-- A run over translated inputs is a run of the translated step. -/
theorem run_map_input {κ : Type w} {f : κ → ι} (s : σ) (inputs : List κ) :
    run step s (inputs.map f) = run (fun s i => step s (f i)) s inputs := by
  induction inputs generalizing s with
  | nil => rfl
  | cons i rest ih =>
      rw [List.map_cons, run_cons, run_cons]
      exact Option.bind_congr fun t _ => ih t

/-- Every prefix of a run that completes is itself a run that completes. -/
theorem exists_run_of_prefix {s t : σ} {first inputs : List ι}
    (hpre : first <+: inputs) (hrun : run step s inputs = some t) :
    ∃ m, run step s first = some m := by
  obtain ⟨rest, rfl⟩ := hpre
  obtain ⟨m, hm, -⟩ := run_append_eq_some.mp hrun
  exact ⟨m, hm⟩

/-- A completed run has taken a step with each of its inputs. -/
theorem exists_step_of_mem {s t : σ} {inputs : List ι} (hrun : run step s inputs = some t)
    {i : ι} (hi : i ∈ inputs) : ∃ m m', step m i = some m' := by
  induction inputs generalizing s with
  | nil => cases hi
  | cons j rest ih =>
      obtain ⟨m, hm, hrest⟩ := Option.bind_eq_some_iff.mp hrun
      cases hi with
      | head => exact ⟨s, m, hm⟩
      | tail _ hi => exact ih hrest hi

/-! ## Which runs stay good

`AllStates` says a predicate holds in every state a run passes through and
`AllSteps` that a guard holds at every step it takes.
-/

/-- The predicate holds after every prefix of the inputs. -/
def AllStates (step : σ → ι → Option σ) (P : List ι → σ → Prop) (s : σ)
    (inputs : List ι) : Prop :=
  ∀ hist, hist <+: inputs → ∀ m, run step s hist = some m → P hist m

/-- The guard holds of every input at the state in which the run consumes it. -/
def AllSteps (step : σ → ι → Option σ) (Ok : σ → ι → Prop) (s : σ)
    (inputs : List ι) : Prop :=
  ∀ hist i, hist ++ [i] <+: inputs → ∀ m, run step s hist = some m → Ok m i

/-- The first step of a run, and the rest of it. -/
theorem allStates_cons {P : σ → Prop} {s : σ} {i : ι} {rest : List ι} :
    AllStates step (fun _ => P) s (i :: rest) ↔
      P s ∧ ∀ t, step s i = some t → AllStates step (fun _ => P) t rest := by
  refine ⟨fun hall => ⟨hall [] (List.nil_prefix) s rfl, ?_⟩, ?_⟩
  · intro t ht hist hpre m hm
    apply hall (i :: hist) (List.cons_prefix_cons.mpr ⟨rfl, hpre⟩) m
    rw [run_cons, ht]
    exact hm
  · rintro ⟨hs, hall⟩ hist hpre m hm
    cases hist with
    | nil =>
        obtain rfl : s = m := Option.some.inj hm
        exact hs
    | cons j hist =>
        obtain ⟨rfl, hrest⟩ := List.cons_prefix_cons.mp hpre
        obtain ⟨t, ht, hm⟩ := Option.bind_eq_some_iff.mp hm
        exact hall t ht hist hrest m hm

/-- A predicate that each step taken keeps holds in every state. -/
theorem allStates_of_kept {P : List ι → σ → Prop} {s : σ} {inputs : List ι} (hinit : P [] s)
    (hkept : ∀ hist i, hist ++ [i] <+: inputs → ∀ m t, run step s hist = some m →
      step m i = some t → P hist m → P (hist ++ [i]) t) :
    AllStates step P s inputs := by
  intro hist
  induction hist using List.reverseRecOn with
  | nil =>
      intro _ m hm
      obtain rfl : s = m := Option.some.inj hm
      exact hinit
  | append_singleton hist i ih =>
      intro hpre t ht
      obtain ⟨m, hm, hi⟩ := run_concat_eq_some.mp ht
      have hP := ih ((List.prefix_append hist [i]).trans hpre) m hm
      exact hkept hist i hpre m t hm hi hP

/-- **Guarded invariant rule.** An invariant of the steps that meet the guard holds
in every state of a run all of whose steps do. -/
theorem allStates_of_allSteps {P : List ι → σ → Prop} {Ok : σ → ι → Prop} {s : σ}
    (hinit : P [] s)
    (hguarded : ∀ hist m i t, P hist m → Ok m i → step m i = some t → P (hist ++ [i]) t)
    {inputs : List ι} (hall : AllSteps step Ok s inputs) : AllStates step P s inputs := by
  apply allStates_of_kept hinit
  intro hist i hpre m t hm hi hP
  exact hguarded hist m i t hP (hall hist i hpre m hm) hi

/-- **Guard rule.** Let `P` be an invariant of the guarded steps that implies
the goal `G`. If a step taken in a `P`-state reaches a `G`-state only under its
guard, a completed run visits only `G`-states exactly when all its guards hold. -/
theorem allStates_iff_allSteps {P G : List ι → σ → Prop} {Ok : σ → ι → Prop} {s : σ}
    (hinit : P [] s) (hgoal : ∀ hist m, P hist m → G hist m)
    (hguarded : ∀ hist m i t, P hist m → Ok m i → step m i = some t → P (hist ++ [i]) t)
    (hnecessary : ∀ hist m i t, P hist m → step m i = some t → G (hist ++ [i]) t → Ok m i)
    {inputs : List ι} {final : σ} (hrun : run step s inputs = some final) :
    AllStates step G s inputs ↔ AllSteps step Ok s inputs := by
  constructor
  · intro hall
    have hinv : AllStates step P s inputs := by
      apply allStates_of_kept hinit
      intro hist i hpre m t hm hi hP
      have hG := hall _ hpre t (run_concat_eq_some.mpr ⟨m, hm, hi⟩)
      exact hguarded hist m i t hP (hnecessary hist m i t hP hi hG) hi
    intro hist i hpre m hm
    obtain ⟨t, ht⟩ := exists_run_of_prefix hpre hrun
    obtain ⟨m', hm', hi⟩ := run_concat_eq_some.mp ht
    obtain rfl : m = m' := Option.some.inj (hm.symm.trans hm')
    have hP := hinv hist ((List.prefix_append hist [i]).trans hpre) m hm
    exact hnecessary hist m i t hP hi (hall _ hpre t ht)
  · intro hall hist hpre m hm
    exact hgoal hist m (allStates_of_allSteps hinit hguarded hall hist hpre m hm)

/-! ## Traversals -/

/-- The results of a traversal that completes, position by position. -/
theorem getElem?_of_mapM {α : Type u} {β : Type v} {f : α → Option β} {l : List α}
    {results : List β} (h : l.mapM f = some results) (idx : ℕ) :
    results[idx]? = l[idx]?.bind f := by
  induction l generalizing results idx with
  | nil =>
      rw [List.mapM_nil] at h
      cases h
      rfl
  | cons a rest ih =>
      rw [List.mapM_cons] at h
      obtain ⟨b, hb, h⟩ := Option.bind_eq_some_iff.mp h
      obtain ⟨bs, hbs, h⟩ := Option.bind_eq_some_iff.mp h
      cases h
      cases idx with
      | zero => exact hb.symm
      | succ idx => exact ih hbs idx

/-- A traversal that completes has as many results as there are elements. -/
theorem length_of_mapM {α : Type u} {β : Type v} {f : α → Option β} {l : List α}
    {results : List β} (h : l.mapM f = some results) : results.length = l.length := by
  induction l generalizing results with
  | nil =>
      rw [List.mapM_nil] at h
      cases h
      rfl
  | cons a rest ih =>
      rw [List.mapM_cons] at h
      obtain ⟨b, hb, h⟩ := Option.bind_eq_some_iff.mp h
      obtain ⟨bs, hbs, h⟩ := Option.bind_eq_some_iff.mp h
      cases h
      rw [List.length_cons, List.length_cons, ih hbs]

/-- A traversal completes exactly if it does at each element. -/
theorem isSome_mapM_iff {α : Type u} {β : Type v} {f : α → Option β} {l : List α} :
    (l.mapM f).isSome ↔ ∀ a ∈ l, (f a).isSome := by
  induction l with
  | nil => simp
  | cons a rest ih =>
      rw [List.mapM_cons, List.forall_mem_cons, ← ih]
      cases f a with
      | none => simp
      | some b =>
          cases rest.mapM f with
          | none => simp
          | some bs => simp

/-- A traversal whose results are known at each element completes with their list. -/
theorem mapM_eq_some_map {α : Type u} {β : Type v} {f : α → Option β} {g : α → β} {l : List α}
    (h : ∀ a ∈ l, f a = some (g a)) : l.mapM f = some (l.map g) := by
  induction l with
  | nil => rfl
  | cons a rest ih =>
      obtain ⟨ha, hrest⟩ := List.forall_mem_cons.mp h
      simp only [List.mapM_cons, List.map_cons, Option.bind_eq_bind, Option.pure_def, ha, ih hrest,
        Option.bind_some]

/-- A traversal that completes has a result for each element. -/
theorem exists_of_mapM {α : Type u} {β : Type v} {f : α → Option β} {l : List α}
    {results : List β} (h : l.mapM f = some results) {a : α} (ha : a ∈ l) :
    ∃ b, f a = some b := by
  induction l generalizing results with
  | nil => cases ha
  | cons c rest ih =>
      rw [List.mapM_cons] at h
      obtain ⟨b, hb, h⟩ := Option.bind_eq_some_iff.mp h
      obtain ⟨bs, hbs, -⟩ := Option.bind_eq_some_iff.mp h
      cases ha with
      | head => exact ⟨b, hb⟩
      | tail _ ha => exact ih hbs ha

/-- A traversal relates the elements to their results. -/
theorem mapM_eq_some_iff_forall₂ {α : Type u} {β : Type v} {f : α → Option β} {l : List α}
    {results : List β} :
    l.mapM f = some results ↔ List.Forall₂ (fun a b => f a = some b) l results := by
  induction l generalizing results with
  | nil =>
      rw [List.mapM_nil, List.forall₂_nil_left_iff]
      exact Option.some_inj.trans eq_comm
  | cons a rest ih =>
      rw [List.mapM_cons]
      constructor
      · intro h
        obtain ⟨b, hb, h⟩ := Option.bind_eq_some_iff.mp h
        obtain ⟨bs, hbs, h⟩ := Option.bind_eq_some_iff.mp h
        cases h
        exact .cons hb (ih.mp hbs)
      · intro h
        cases h with
        | cons hb hbs =>
            rw [hb, Option.bind_eq_bind, Option.bind_some, ih.mpr hbs]
            rfl

/-- A run whose steps decode their inputs first, and then cannot stop, folds over a traversal. -/
theorem run_eq_map_foldl {α : Type u} {β : Type v} {σ : Type w} {step : σ → α → Option σ}
    {f : α → Option β} {g : σ → β → σ} (hstep : ∀ s a, step s a = (f a).map (g s)) (s : σ)
    (l : List α) : run step s l = (l.mapM f).map fun results => results.foldl g s := by
  induction l generalizing s with
  | nil => rfl
  | cons a rest ih =>
      rw [run_cons, hstep, List.mapM_cons]
      cases f a with
      | none => rfl
      | some b =>
          rw [Option.map_some, Option.bind_some, ih, Option.bind_eq_bind, Option.bind_some]
          cases rest.mapM f with
          | none => rfl
          | some results => rfl

/-- **A run that keeps its results.** If a step takes the state for some results to that for
one more, then a run takes the first state to that for the results of its inputs. -/
theorem run_eq_map_mapM {α : Type u} {β : Type v} {σ : Type w} {step : σ → α → Option σ}
    {f : α → Option β} {state : List β → σ} {l : List α}
    (hstep : ∀ first a, first ++ [a] <+: l → ∀ results, first.mapM f = some results →
      step (state results) a = (f a).map fun b => state (results ++ [b])) :
    run step (state []) l = (l.mapM f).map state := by
  induction l using List.reverseRecOn with
  | nil => rfl
  | append_singleton first a ih =>
      have hfirst := ih fun earlier b hpre =>
        hstep earlier b (hpre.trans (List.prefix_append first [a]))
      rw [run_append, hfirst, List.mapM_append]
      cases hresults : first.mapM f with
      | none => rfl
      | some results =>
          rw [Option.map_some, Option.bind_some, run_cons,
            hstep first a List.prefix_rfl results hresults, List.mapM_cons]
          cases f a with
          | none => rfl
          | some b => rfl

/-- A computation that throws in neither of two parts. -/
theorem exists_of_bind_ok {ε : Type w} {α β : Type u} {x : Except ε α} {f : α → Except ε β}
    {b : β} (h : (x >>= f) = .ok b) : ∃ a, x = .ok a ∧ f a = .ok b := by
  cases x with
  | error error => cases h
  | ok a => exact ⟨a, rfl, h⟩

/-- Every result of a traversal that does not throw is the result for some element. -/
theorem exists_mem_of_mapM_ok {ε : Type w} {α β : Type u} {f : α → Except ε β} {l : List α}
    {results : List β} (h : l.mapM f = .ok results) {b : β} (hb : b ∈ results) :
    ∃ a ∈ l, f a = .ok b := by
  induction l generalizing results with
  | nil =>
      rw [List.mapM_nil] at h
      cases h
      cases hb
  | cons a rest ih =>
      rw [List.mapM_cons] at h
      obtain ⟨first, hfirst, h⟩ := exists_of_bind_ok h
      obtain ⟨others, hothers, h⟩ := exists_of_bind_ok h
      cases h
      cases hb with
      | head => exact ⟨a, List.mem_cons_self, hfirst⟩
      | tail _ hlater =>
          obtain ⟨found, hmem, hfound⟩ := ih hothers hlater
          exact ⟨found, List.mem_cons_of_mem a hmem, hfound⟩

/-- What holds of the elements of a list holds of the entries of its numbering. -/
theorem forall_mem_zipIdx_fst {α : Type u} {p : α → Prop} {l : List α} :
    (∀ entry ∈ l.zipIdx, p entry.1) ↔ ∀ a ∈ l, p a := by
  constructor
  · intro hall a ha
    obtain ⟨idx, hidx⟩ := List.getElem?_of_mem ha
    exact hall (a, idx) (List.mk_mem_zipIdx_iff_getElem?.mpr hidx)
  · exact fun hall entry hentry => hall entry.1 (List.fst_mem_of_mem_zipIdx hentry)

/-- What agrees on related elements agrees on related lists. -/
theorem map_eq_map_of_forall₂ {α : Type u} {β : Type v} {γ : Type w} {R : α → β → Prop}
    {l : List α} {r : List β} (h : List.Forall₂ R l r) {f : α → γ} {g : β → γ}
    (hR : ∀ a b, R a b → g b = f a) : r.map g = l.map f := by
  induction h with
  | nil => rfl
  | cons hhead _ ih => rw [List.map_cons, List.map_cons, hR _ _ hhead, ih]

theorem flatMap_eq_flatMap_of_forall₂ {α : Type u} {β : Type v} {γ : Type w} {R : α → β → Prop}
    {l : List α} {r : List β} (h : List.Forall₂ R l r) {f : α → List γ} {g : β → List γ}
    (hR : ∀ a b, R a b → g b = f a) : r.flatMap g = l.flatMap f := by
  rw [List.flatMap_def, map_eq_map_of_forall₂ h hR, List.flatMap_def]

/-- An element of the first of two related lists has a partner in the second. -/
theorem exists_right_of_forall₂ {α : Type u} {β : Type v} {R : α → β → Prop} {l : List α}
    {r : List β} (h : List.Forall₂ R l r) {a : α} (ha : a ∈ l) : ∃ b ∈ r, R a b := by
  induction h with
  | nil => cases ha
  | cons hhead _ ih =>
      cases ha with
      | head => exact ⟨_, List.mem_cons_self, hhead⟩
      | tail _ ha =>
          obtain ⟨b, hb, hR⟩ := ih ha
          exact ⟨b, List.mem_cons_of_mem _ hb, hR⟩

/-- An element of the second of two related lists has a partner in the first. -/
theorem exists_left_of_forall₂ {α : Type u} {β : Type v} {R : α → β → Prop} {l : List α}
    {r : List β} (h : List.Forall₂ R l r) {b : β} (hb : b ∈ r) : ∃ a ∈ l, R a b :=
  exists_right_of_forall₂ h.flip hb

/-- Two related lists have partners at the same positions. -/
theorem exists_getElem?_of_forall₂ {α : Type u} {β : Type v} {R : α → β → Prop} {l : List α}
    {r : List β} (h : List.Forall₂ R l r) {idx : ℕ} {a : α} (ha : l[idx]? = some a) :
    ∃ b, r[idx]? = some b ∧ R a b := by
  induction h generalizing idx with
  | nil => cases ha
  | cons hhead _ ih =>
      cases idx with
      | zero =>
          cases ha
          exact ⟨_, rfl, hhead⟩
      | succ idx => exact ih ha

/-- Counts over related lists agree if they treat partners alike. -/
theorem countP_eq_of_forall₂ {α : Type u} {β : Type v} {p : α → Bool} {q : β → Bool} {l : List α}
    {r : List β} (h : List.Forall₂ (fun a b => q b = p a) l r) : r.countP q = l.countP p := by
  induction h with
  | nil => rfl
  | cons hsame _ ih => rw [List.countP_cons, List.countP_cons, ih, hsame]

end Unbiased.Math
