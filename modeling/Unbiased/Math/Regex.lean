/-
# Regular expressions

Expressions over any alphabet, with classes of symbols and with zero-width tests of the
rest of the input, such as an anchor at its end. `Matches` relates an input to what is left
of it after a match; `rests` computes all that can be left. A repetition goes on only as
long as it consumes something, so its computation ends.
-/

import Mathlib.Data.List.Basic
import Mathlib.Logic.Relation

namespace Unbiased.Math

universe u

inductive Regex (α : Type u) where
  /-- The empty string. -/
  | empty
  /-- One symbol of a class. -/
  | sym (symbols : α → Bool)
  /-- Nothing is consumed, but the rest of the input is tested. -/
  | look (test : List α → Bool)
  | seq (first second : Regex α)
  | alt (first second : Regex α)
  | star (body : Regex α)

namespace Regex

variable {α : Type u}

/-- One or more times. -/
def plus (body : Regex α) : Regex α := seq body (star body)

/-- At most once. -/
def opt (body : Regex α) : Regex α := alt body empty

/-- These symbols, one after the other. -/
def literal [DecidableEq α] (symbols : List α) : Regex α :=
  symbols.foldr (fun a rest => seq (sym fun b => b = a) rest) empty

/-- Some beginning of the input matches, and this is what is left. -/
def Matches : Regex α → List α → List α → Prop
  | empty, input, rest => input = rest
  | sym symbols, input, rest => ∃ a, symbols a = true ∧ input = a :: rest
  | look test, input, rest => test input = true ∧ input = rest
  | seq first second, input, rest => ∃ mid, Matches first input mid ∧ Matches second mid rest
  | alt first second, input, rest => Matches first input rest ∨ Matches second input rest
  | star body, input, rest => Relation.ReflTransGen
      (fun input rest => Matches body input rest ∧ rest.length < input.length) input rest

/-- All that repeating a matcher can leave, with a bound on the number of turns. -/
def repeats (body : List α → List (List α)) : ℕ → List α → List (List α)
  | 0, input => [input]
  | fuel + 1, input =>
    input :: ((body input).filter fun rest => rest.length < input.length).flatMap
      (repeats body fuel)

/-- All that can be left after a match. -/
def rests : Regex α → List α → List (List α)
  | empty, input => [input]
  | sym symbols, input =>
    match input with
    | [] => []
    | a :: rest => if symbols a then [rest] else []
  | look test, input => if test input then [input] else []
  | seq first second, input => (rests first input).flatMap (rests second)
  | alt first second, input => rests first input ++ rests second input
  | star body, input => repeats (rests body) input.length input

/-- Some beginning of the input matches. -/
def matchesPrefix (r : Regex α) (input : List α) : Bool := !(rests r input).isEmpty

/-! ## What is computed -/

/-- As many turns as there are symbols are enough. -/
theorem mem_repeats {body : List α → List (List α)} {fuel : ℕ} {input rest : List α}
    (hfuel : input.length ≤ fuel) :
    rest ∈ repeats body fuel input ↔ Relation.ReflTransGen
      (fun input rest => rest ∈ body input ∧ rest.length < input.length) input rest := by
  induction fuel generalizing input with
  | zero =>
      rw [Relation.ReflTransGen.cases_head_iff, repeats, List.mem_singleton]
      constructor
      · exact fun h => .inl h.symm
      · rintro (h | ⟨mid, ⟨-, hless⟩, -⟩)
        · exact h.symm
        · omega
  | succ fuel ih =>
      rw [Relation.ReflTransGen.cases_head_iff, repeats, List.mem_cons, List.mem_flatMap]
      have hrest : (∃ mid ∈ (body input).filter fun mid => mid.length < input.length,
          rest ∈ repeats body fuel mid) ↔
          ∃ mid, (mid ∈ body input ∧ mid.length < input.length) ∧ Relation.ReflTransGen
            (fun input rest => rest ∈ body input ∧ rest.length < input.length) mid rest := by
        refine exists_congr fun mid => ?_
        rw [List.mem_filter, decide_eq_true_eq]
        refine and_congr_right fun hmid => ih ?_
        omega
      rw [hrest]
      exact or_congr_left eq_comm

/-- **The computation finds all matches.** -/
theorem mem_rests {r : Regex α} {input rest : List α} :
    rest ∈ rests r input ↔ Matches r input rest := by
  induction r generalizing input rest with
  | empty => exact List.mem_singleton.trans eq_comm
  | sym symbols =>
      cases input with
      | nil => simp [rests, Matches]
      | cons a input =>
          show rest ∈ (if symbols a then [input] else []) ↔ _
          constructor
          · intro h
            split at h
            · rename_i ha
              exact ⟨a, ha, by rw [List.mem_singleton.mp h]⟩
            · exact absurd h List.not_mem_nil
          · rintro ⟨b, hb, h⟩
            obtain ⟨rfl, rfl⟩ := List.cons.inj h
            rw [if_pos hb]
            exact List.mem_singleton_self _
  | look test =>
      rw [rests, Matches]
      split
      · rename_i htest
        rw [List.mem_singleton, and_iff_right htest, eq_comm]
      · rename_i htest
        exact iff_of_false List.not_mem_nil fun h => htest h.1
  | seq first second ihFirst ihSecond =>
      simp only [rests, Matches, List.mem_flatMap, ihFirst, ihSecond]
  | alt first second ihFirst ihSecond =>
      rw [rests, List.mem_append, ihFirst, ihSecond, Matches]
  | star body ih =>
      rw [rests, mem_repeats (Nat.le_refl _), Matches]
      simp only [ih]

theorem matchesPrefix_iff {r : Regex α} {input : List α} :
    matchesPrefix r input = true ↔ ∃ rest, Matches r input rest := by
  simp only [← mem_rests, matchesPrefix, Bool.not_eq_true', List.isEmpty_eq_false_iff_exists_mem]

/-! ## Repeated classes -/

variable {symbols : α → Bool} {input rest : List α}

/-- A repeated class takes any beginning of its symbols. -/
theorem matches_star_sym :
    Matches (star (sym symbols)) input rest ↔
      ∃ taken, (∀ a ∈ taken, symbols a = true) ∧ input = taken ++ rest := by
  constructor
  · intro h
    induction h using Relation.ReflTransGen.head_induction_on with
    | refl => exact ⟨[], fun _ ha => absurd ha List.not_mem_nil, rfl⟩
    | head hstep _ ih =>
        obtain ⟨⟨a, ha, rfl⟩, -⟩ := hstep
        obtain ⟨taken, htaken, rfl⟩ := ih
        exact ⟨a :: taken, List.forall_mem_cons.mpr ⟨ha, htaken⟩, rfl⟩
  · rintro ⟨taken, htaken, rfl⟩
    induction taken with
    | nil => exact .refl
    | cons a taken ih =>
        obtain ⟨ha, htaken⟩ := List.forall_mem_cons.mp htaken
        refine .head ⟨⟨a, ha, rfl⟩, ?_⟩ (ih htaken)
        exact Nat.lt_succ_self _

theorem matches_plus_sym :
    Matches (plus (sym symbols)) input rest ↔
      ∃ a taken, symbols a = true ∧ (∀ b ∈ taken, symbols b = true) ∧
        input = a :: (taken ++ rest) := by
  constructor
  · rintro ⟨mid, ⟨a, ha, rfl⟩, hstar⟩
    obtain ⟨taken, htaken, rfl⟩ := matches_star_sym.mp hstar
    exact ⟨a, taken, ha, htaken, rfl⟩
  · rintro ⟨a, taken, ha, htaken, rfl⟩
    exact ⟨taken ++ rest, ⟨a, ha, rfl⟩, matches_star_sym.mpr ⟨taken, htaken, rfl⟩⟩

end Regex

end Unbiased.Math
