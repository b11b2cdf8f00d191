/-
# Windows of a list

A window is a run of consecutive elements of fixed width. Of the windows of a
concatenation, those that are windows of neither part straddle the border, and
there are fewer of them than a window is wide. The same then holds of anything
that is computed from windows.
-/

import Mathlib.Combinatorics.Enumerative.DoubleCounting
import Mathlib.Data.List.Basic
import Mathlib.Order.Interval.Finset.Nat

namespace Unbiased.Math

universe u v

variable {α : Type u} {β : Type v}

/-- The window of a width that begins at an index, if it ends inside the list. -/
def window? (width : ℕ) (l : List α) (idx : ℕ) : Option (List α) :=
  if idx + width ≤ l.length then some ((l.drop idx).take width) else none

variable {width idx : ℕ} {l first second : List α}

theorem window?_eq_some {w : List α} :
    window? width l idx = some w ↔
      idx + width ≤ l.length ∧ (l.drop idx).take width = w := by
  simp [window?]

/-- A window begins with the element at its index. -/
theorem window?_succ :
    window? (width + 1) l idx =
      (l[idx]?).bind fun a => (window? width l (idx + 1)).map (a :: ·) := by
  by_cases hidx : idx < l.length
  · rw [List.getElem?_eq_getElem hidx, Option.bind_some, window?, window?,
      List.drop_eq_getElem_cons hidx, List.take_succ_cons]
    simp only [Nat.add_assoc, Nat.add_comm 1 width]
    split
    · rfl
    · rfl
  · rw [List.getElem?_eq_none (not_lt.mp hidx), window?, if_neg (by omega)]
    rfl

theorem window?_one : window? 1 l idx = (l[idx]?).map fun a => [a] := by
  by_cases hidx : idx < l.length
  · rw [List.getElem?_eq_getElem hidx, window?, if_pos (by omega),
      List.drop_eq_getElem_cons hidx]
    rfl
  · rw [List.getElem?_eq_none (not_lt.mp hidx), window?, if_neg (by omega)]
    rfl

theorem window?_three :
    window? 3 l idx = (l[idx]?).bind fun a => (l[idx + 1]?).bind fun b =>
      (l[idx + 2]?).map fun c => [a, b, c] := by
  rw [window?_succ]
  refine Option.bind_congr fun a _ => ?_
  rw [window?_succ, Option.map_bind]
  refine Option.bind_congr fun b _ => ?_
  rw [window?_one, Function.comp_apply, Option.map_map, Option.map_map]
  rfl

/-- A window that ends inside the first part is a window of it. -/
theorem window?_append_of_le (h : idx + width ≤ first.length) :
    window? width (first ++ second) idx = window? width first idx := by
  have hlength : idx + width ≤ (first ++ second).length := by
    rw [List.length_append]
    omega
  rw [window?, window?, if_pos h, if_pos hlength, List.drop_append_of_le_length (by omega),
    List.take_append_of_le_length]
  rw [List.length_drop]
  omega

/-- A window that begins inside the second part is a window of it. -/
theorem window?_append_length_add :
    window? width (first ++ second) (first.length + idx) = window? width second idx := by
  have hdrop : (first ++ second).drop (first.length + idx) = second.drop idx := by
    rw [← List.drop_drop, List.drop_left]
  simp only [window?, hdrop, List.length_append, Nat.add_assoc, Nat.add_le_add_iff_left]

/-- Some window of the list has this value. -/
def WindowValue (value : List α → Option β) (width : ℕ) (l : List α) (b : β) : Prop :=
  ∃ idx, (window? width l idx).bind value = some b

variable {value : List α → Option β}

theorem WindowValue.append_right {b : β} (h : WindowValue value width first b)
    (second : List α) : WindowValue value width (first ++ second) b := by
  obtain ⟨idx, hvalue⟩ := h
  obtain ⟨w, hw, -⟩ := Option.bind_eq_some_iff.mp hvalue
  refine ⟨idx, ?_⟩
  rw [window?_append_of_le (window?_eq_some.mp hw).1, hvalue]

theorem WindowValue.append_left {b : β} (h : WindowValue value width second b)
    (first : List α) : WindowValue value width (first ++ second) b := by
  obtain ⟨idx, hvalue⟩ := h
  exact ⟨first.length + idx, by rw [window?_append_length_add, hvalue]⟩

/-- A window with a value that neither part has begins before the border and ends
behind it. -/
theorem straddles_of_new {b : β}
    (hvalue : (window? width (first ++ second) idx).bind value = some b)
    (hfirst : ¬ WindowValue value width first b) (hsecond : ¬ WindowValue value width second b) :
    idx < first.length ∧ first.length < idx + width := by
  constructor
  · by_contra hidx
    obtain ⟨offset, rfl⟩ := Nat.exists_eq_add_of_le (not_lt.mp hidx)
    rw [window?_append_length_add] at hvalue
    exact hsecond ⟨offset, hvalue⟩
  · by_contra hidx
    rw [window?_append_of_le (not_lt.mp hidx)] at hvalue
    exact hfirst ⟨idx, hvalue⟩

/-- **Few windows are new.** A concatenation has fewer new values of windows than a
window is wide. -/
theorem card_new_le (new : Finset β)
    (hnew : ∀ b ∈ new, WindowValue value width (first ++ second) b ∧
      ¬ WindowValue value width first b ∧ ¬ WindowValue value width second b) :
    new.card ≤ width - 1 := by
  have hstraddling : (Finset.Ico (first.length - (width - 1)) first.length).card ≤ width - 1 := by
    rw [Nat.card_Ico]
    omega
  apply le_trans _ hstraddling
  apply Finset.card_le_card_of_forall_subsingleton fun b idx =>
    (window? width (first ++ second) idx).bind value = some b
  · intro b hb
    obtain ⟨⟨idx, hvalue⟩, hfirst, hsecond⟩ := hnew b hb
    have hborder := straddles_of_new hvalue hfirst hsecond
    exact ⟨idx, Finset.mem_Ico.mpr (by omega), hvalue⟩
  · rintro idx - b ⟨-, hb⟩ c ⟨-, hc⟩
    exact Option.some.inj (hb.symm.trans hc)

end Unbiased.Math
