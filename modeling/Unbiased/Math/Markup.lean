/-
# References in text

`replaceAll` reads a text from left to right and puts something else in the place of every
reference it finds. Where references are longer than what they stand for, a text comes back
unchanged only if it has none. Where a reference costs symbols of a kind, a text loses one of
them for each symbol that it did not hold and that a reference stands for.
-/

import Mathlib.Algebra.GroupWithZero.Nat
import Mathlib.Data.List.Infix

namespace Unbiased.Math

universe u

variable {α : Type u}

/-- What a text stands for, behind a number of symbols that are passed over. A
reference at the front of a text is found with what it stands for and its length. -/
def replaceFrom (find? : List α → Option (List α × ℕ)) : ℕ → List α → List α
  | _, [] => []
  | skip + 1, _ :: rest => replaceFrom find? skip rest
  | 0, a :: rest =>
    match find? (a :: rest) with
    | some (out, length) => out ++ replaceFrom find? (length - 1) rest
    | none => a :: replaceFrom find? 0 rest

/-- What a text stands for. -/
def replaceAll (find? : List α → Option (List α × ℕ)) (text : List α) : List α :=
  replaceFrom find? 0 text

/-- References are longer than what they stand for. -/
def Shrinks (find? : List α → Option (List α × ℕ)) : Prop :=
  ∀ text out length, find? text = some (out, length) →
    out.length < length ∧ length ≤ text.length

variable {find? : List α → Option (List α × ℕ)}

theorem length_replaceFrom_le (h : Shrinks find?) {skip : ℕ} {text : List α}
    (hskip : skip ≤ text.length) :
    (replaceFrom find? skip text).length + skip ≤ text.length := by
  induction text generalizing skip with
  | nil =>
      obtain rfl : skip = 0 := Nat.le_zero.mp hskip
      exact le_rfl
  | cons a rest ih =>
      cases skip with
      | succ skip =>
          exact Nat.succ_le_succ (ih (Nat.le_of_succ_le_succ hskip))
      | zero =>
          rw [replaceFrom]
          split
          · rename_i out length hfind
            have ⟨hout, hlength⟩ := h _ _ _ hfind
            rw [List.length_cons] at hlength
            have hrest := ih (Nat.sub_le_of_le_add hlength)
            rw [List.length_append, List.length_cons]
            omega
          · have hrest := ih (Nat.zero_le _)
            rw [List.length_cons, List.length_cons]
            omega

theorem Shrinks.find?_nil (h : Shrinks find?) : find? [] = none := by
  cases hfind : find? [] with
  | none => rfl
  | some found =>
      have ⟨hout, hlength⟩ := h [] found.1 found.2 hfind
      exact absurd (hout.trans_le hlength) (Nat.not_lt_zero _)

/-- **Unchanged texts.** A text stands for itself exactly if there is no reference
at any place in it. -/
theorem replaceAll_eq_self_iff (h : Shrinks find?) (text : List α) :
    replaceAll find? text = text ↔ ∀ rest, rest <:+ text → find? rest = none := by
  induction text with
  | nil =>
      refine ⟨fun _ rest hrest => ?_, fun _ => rfl⟩
      rw [List.suffix_nil.mp hrest, h.find?_nil]
  | cons a text ih =>
      rw [replaceAll, replaceFrom]
      cases hfind : find? (a :: text) with
      | none =>
          have hsuffix : (∀ rest, rest <:+ a :: text → find? rest = none) ↔
              ∀ rest, rest <:+ text → find? rest = none := by
            simp [List.suffix_cons_iff, hfind]
          rw [hsuffix, ← ih, List.cons.injEq]
          exact and_iff_right rfl
      | some found =>
          -- the text gets shorter
          have ⟨hout, hlength⟩ := h _ found.1 found.2 hfind
          rw [List.length_cons] at hlength
          have hrest := length_replaceFrom_le h (Nat.sub_le_of_le_add hlength)
          constructor
          · intro heq
            have hlengths := congrArg List.length heq
            rw [List.length_append, List.length_cons] at hlengths
            omega
          · intro hnone
            rw [hnone _ List.suffix_rfl] at hfind
            cases hfind

theorem replaceFrom_eq_drop (skip : ℕ) (text : List α) :
    replaceFrom find? skip text = replaceAll find? (text.drop skip) := by
  induction text generalizing skip with
  | nil => rw [List.drop_nil, replaceFrom, replaceAll, replaceFrom]
  | cons a rest ih =>
      cases skip with
      | zero => rfl
      | succ skip => rw [replaceFrom, ih, List.drop_succ_cons]

/-- Behind a reference, what is left is read. -/
theorem replaceAll_of_find? (h : Shrinks find?) {text out : List α} {length : ℕ}
    (hfind : find? text = some (out, length)) :
    replaceAll find? text = out ++ replaceAll find? (text.drop length) := by
  obtain ⟨hout, hlength⟩ := h _ _ _ hfind
  obtain ⟨before, rfl⟩ : ∃ before, length = before + 1 := ⟨length - 1, by omega⟩
  cases text with
  | nil => cases hlength
  | cons a rest =>
      rw [replaceAll, replaceFrom, hfind]
      exact congrArg (out ++ ·) (replaceFrom_eq_drop before rest)

theorem replaceAll_of_find?_none {a : α} {rest : List α} (hfind : find? (a :: rest) = none) :
    replaceAll find? (a :: rest) = a :: replaceAll find? rest := by
  rw [replaceAll, replaceFrom, hfind]
  rfl

/-- A reference holds at least as many symbols of a kind as what it stands for, and more of
them if it stands for a certain symbol. -/
def Costs (kind : α → Bool) (symbol : α) (find? : List α → Option (List α × ℕ)) : Prop :=
  ∀ text out length, find? text = some (out, length) →
    out.countP kind ≤ (text.take length).countP kind ∧
      (symbol ∈ out → out.countP kind < (text.take length).countP kind)

/-- **What references cost.** A text stands for one with at most as many symbols of the kind,
and with fewer if the other symbol is new in it. -/
theorem countP_replaceAll {kind : α → Bool} {symbol : α} (h : Shrinks find?)
    (hcosts : Costs kind symbol find?) (text : List α) :
    (replaceAll find? text).countP kind ≤ text.countP kind ∧
      (symbol ∉ text → symbol ∈ replaceAll find? text →
        (replaceAll find? text).countP kind < text.countP kind) := by
  induction hn : text.length using Nat.strong_induction_on generalizing text with
  | h n ih =>
    cases text with
    | nil => exact ⟨le_rfl, fun _ hmem => absurd hmem List.not_mem_nil⟩
    | cons a rest =>
        cases hfind : find? (a :: rest) with
        | none =>
            obtain ⟨hle, hlt⟩ := ih rest.length (hn ▸ Nat.lt_succ_self _) rest rfl
            rw [replaceAll_of_find?_none hfind, List.countP_cons, List.countP_cons]
            refine ⟨by omega, fun hnot hmem => ?_⟩
            obtain ⟨hne, hnot⟩ := not_or.mp (mt List.mem_cons.mpr hnot)
            have hless := hlt hnot ((List.mem_cons.mp hmem).resolve_left hne)
            omega
        | some found =>
            obtain ⟨out, length⟩ := found
            obtain ⟨hout, hlength⟩ := h _ _ _ hfind
            obtain ⟨hle, hlt⟩ := hcosts _ _ _ hfind
            have hshorter : ((a :: rest).drop length).length < n := by
              rw [List.length_drop, ← hn]
              omega
            obtain ⟨hrestLe, hrestLt⟩ := ih _ hshorter _ rfl
            have hsplit : (a :: rest).countP kind = ((a :: rest).take length).countP kind +
                ((a :: rest).drop length).countP kind := by
              rw [← List.countP_append, List.take_append_drop]
            rw [replaceAll_of_find? h hfind, List.countP_append, hsplit]
            refine ⟨by omega, fun hnot hmem => ?_⟩
            rcases List.mem_append.mp hmem with hhere | hlater
            · have hless := hlt hhere
              omega
            · have hless := hrestLt (fun hdrop => hnot (List.mem_of_mem_drop hdrop)) hlater
              omega

end Unbiased.Math
