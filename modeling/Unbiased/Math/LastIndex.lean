/-
# The last index of a kind

A loop that overwrites an entry of a map at each element of a kind leaves the
index of the last such element. `LastIndex` is that index, and the two lemmas
about one more element are the two things an iteration can do to it.
-/

import Mathlib.Data.List.Induction

namespace Unbiased.Math

universe u

variable {α : Type u} {p : α → Prop} {l : List α}

/-- The element at the index is of the kind, and no later one is. -/
def LastIndex (p : α → Prop) (l : List α) (idx : ℕ) : Prop :=
  (∃ a, l[idx]? = some a ∧ p a) ∧ ∀ later, idx < later → ∀ a, l[later]? = some a → ¬ p a

theorem not_lastIndex_nil (idx : ℕ) : ¬ LastIndex p [] idx := by
  rintro ⟨⟨a, ha, -⟩, -⟩
  cases ha

/-- One more element of the kind is the last one. -/
theorem lastIndex_concat_of_pos {a : α} (ha : p a) {idx : ℕ} :
    LastIndex p (l ++ [a]) idx ↔ idx = l.length := by
  constructor
  · rintro ⟨⟨b, hb, -⟩, hlater⟩
    have hlt := (List.getElem?_eq_some_iff.mp hb).1
    rw [List.length_append, List.length_singleton] at hlt
    by_contra hne
    exact hlater l.length (by omega) a List.getElem?_concat_length ha
  · rintro rfl
    refine ⟨⟨a, List.getElem?_concat_length, ha⟩, ?_⟩
    intro later hlt b hb
    have hend := (List.getElem?_eq_some_iff.mp hb).1
    rw [List.length_append, List.length_singleton] at hend
    omega

/-- One more element of another kind changes nothing. -/
theorem lastIndex_concat_of_neg {a : α} (ha : ¬ p a) {idx : ℕ} :
    LastIndex p (l ++ [a]) idx ↔ LastIndex p l idx := by
  have hkind : ∀ (i : ℕ) (b : α), p b → ((l ++ [a])[i]? = some b ↔ l[i]? = some b) := by
    intro i b hb
    rcases Nat.lt_trichotomy i l.length with hlt | rfl | hgt
    · rw [List.getElem?_append_left hlt]
    · have hne : a ≠ b := fun heq => ha (heq ▸ hb)
      simp [hne]
    · rw [List.getElem?_eq_none (by simp; omega), List.getElem?_eq_none (Nat.le_of_lt hgt)]
  constructor
  · rintro ⟨⟨b, hb, hpb⟩, hlater⟩
    refine ⟨⟨b, (hkind idx b hpb).mp hb, hpb⟩, ?_⟩
    exact fun later hlt c hc hpc => hlater later hlt c ((hkind later c hpc).mpr hc) hpc
  · rintro ⟨⟨b, hb, hpb⟩, hlater⟩
    refine ⟨⟨b, (hkind idx b hpb).mpr hb, hpb⟩, ?_⟩
    exact fun later hlt c hc hpc => hlater later hlt c ((hkind later c hpc).mp hc) hpc

/-- There is a last one exactly if there is one. -/
theorem exists_lastIndex : (∃ idx, LastIndex p l idx) ↔ ∃ a ∈ l, p a := by
  constructor
  · rintro ⟨idx, ⟨a, ha, hpa⟩, -⟩
    exact ⟨a, List.mem_of_getElem? ha, hpa⟩
  · induction l using List.reverseRecOn with
    | nil => simp
    | append_singleton l a ih =>
        intro hsome
        by_cases ha : p a
        · exact ⟨l.length, (lastIndex_concat_of_pos ha).mpr rfl⟩
        · simp only [List.mem_append, List.mem_singleton, or_and_right, exists_or,
            exists_eq_left, ha, or_false] at hsome
          have ⟨idx, hidx⟩ := ih hsome
          exact ⟨idx, (lastIndex_concat_of_neg ha).mpr hidx⟩

end Unbiased.Math
