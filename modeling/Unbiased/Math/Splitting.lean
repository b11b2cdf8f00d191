/-
# Splitting at a delimiter

A text is split at the occurrences of a delimiter, from the left and without
overlaps. What counts as an occurrence is decided by a key of each element, such
as its upper case.

No piece contains the delimiter. A text without the delimiter that stands in front
of one is a piece, provided that the first key of the delimiter does not come again
in it: then no occurrence reaches from the text into the delimiter.
-/

import Mathlib.Data.List.Infix

namespace Unbiased.Math

universe u v

variable {α : Type u} {β : Type v}

/-- The delimiter stands at the front of the text. -/
def StartsWith (key : α → β) (delimiter text : List α) : Prop :=
  delimiter.map key <+: text.map key

/-- The delimiter stands somewhere in the text. -/
def Occurs (key : α → β) (delimiter text : List α) : Prop :=
  delimiter.map key <:+: text.map key

instance [DecidableEq β] (key : α → β) (delimiter text : List α) :
    Decidable (StartsWith key delimiter text) :=
  inferInstanceAs (Decidable (delimiter.map key <+: text.map key))

instance [DecidableEq β] (key : α → β) (delimiter text : List α) :
    Decidable (Occurs key delimiter text) :=
  inferInstanceAs (Decidable (delimiter.map key <:+: text.map key))

theorem occurs_cons {key : α → β} {delimiter text : List α} {a : α} :
    Occurs key delimiter (a :: text) ↔
      StartsWith key delimiter (a :: text) ∨ Occurs key delimiter text := by
  rw [Occurs, List.map_cons, List.infix_cons_iff]
  rfl

theorem not_occurs_nil {key : α → β} {delimiter : List α} (h : delimiter ≠ []) :
    ¬ Occurs key delimiter [] := by
  rw [Occurs, List.map_nil, List.infix_nil, List.map_eq_nil_iff]
  exact h

/-- More text behind does not take an occurrence away. -/
theorem StartsWith.mono {key : α → β} {delimiter first second : List α}
    (h : StartsWith key delimiter first) (hpre : first <+: second) :
    StartsWith key delimiter second :=
  List.IsPrefix.trans h (hpre.map key)

/-! ## The pieces of a text -/

section

variable [DecidableEq β]

/-- The pieces of a text, after a number of elements that belong to a delimiter. -/
def splitFrom (key : α → β) (delimiter : List α) : ℕ → List α → List (List α)
  | _, [] => [[]]
  | skip + 1, _ :: rest => splitFrom key delimiter skip rest
  | 0, a :: rest =>
    if StartsWith key delimiter (a :: rest) then
      [] :: splitFrom key delimiter (delimiter.length - 1) rest
    else (splitFrom key delimiter 0 rest).modifyHead (a :: ·)

/-- The pieces of a text. -/
def split (key : α → β) (delimiter text : List α) : List (List α) :=
  splitFrom key delimiter 0 text

variable {key : α → β} {delimiter : List α}

theorem split_nil : split key delimiter [] = [[]] := by
  rw [split, splitFrom]

theorem split_cons_of_not {a : α} {rest : List α} (h : ¬ StartsWith key delimiter (a :: rest)) :
    split key delimiter (a :: rest) = (split key delimiter rest).modifyHead (a :: ·) := by
  rw [split, splitFrom, if_neg h, split]

/-- What belongs to a delimiter is dropped. -/
theorem splitFrom_eq_split (skip : ℕ) (text : List α) :
    splitFrom key delimiter skip text = split key delimiter (text.drop skip) := by
  induction text generalizing skip with
  | nil => rw [List.drop_nil, split_nil, splitFrom]
  | cons a rest ih =>
      cases skip with
      | zero => rfl
      | succ skip => rw [splitFrom, ih, List.drop_succ_cons]

/-- A text without the delimiter is one piece. -/
theorem split_of_not_occurs {text : List α} (h : ¬ Occurs key delimiter text) :
    split key delimiter text = [text] := by
  induction text with
  | nil => exact split_nil
  | cons a text ih =>
      rw [occurs_cons, not_or] at h
      rw [split_cons_of_not h.1, ih h.2, List.modifyHead_cons]

/-- A delimiter at the front ends an empty piece. -/
theorem split_append_of_startsWith {first : List α} (hnonempty : delimiter ≠ [])
    (hlength : first.length = delimiter.length) (rest : List α)
    (h : StartsWith key delimiter (first ++ rest)) :
    split key delimiter (first ++ rest) = [] :: split key delimiter rest := by
  cases first with
  | nil => exact absurd (List.eq_nil_of_length_eq_zero hlength.symm) hnonempty
  | cons a first =>
      have hskip : delimiter.length - 1 = first.length := by
        rw [← hlength, List.length_cons, Nat.add_sub_cancel]
      rw [List.cons_append] at h ⊢
      rw [split, splitFrom, if_pos h, hskip, splitFrom_eq_split, List.drop_left]

/-- **No piece contains the delimiter.** -/
theorem split_spec (hnonempty : delimiter ≠ []) (skip : ℕ) (text : List α) :
    ∃ piece pieces, splitFrom key delimiter skip text = piece :: pieces ∧
      piece <+: text.drop skip ∧
      ∀ other ∈ piece :: pieces, ¬ Occurs key delimiter other := by
  induction text generalizing skip with
  | nil =>
      refine ⟨[], [], by rw [splitFrom], List.nil_prefix, ?_⟩
      intro other hother
      rw [List.mem_singleton.mp hother]
      exact not_occurs_nil hnonempty
  | cons a rest ih =>
      cases skip with
      | succ skip =>
          rw [splitFrom, List.drop_succ_cons]
          exact ih skip
      | zero =>
          rw [splitFrom]
          split
          · obtain ⟨piece, pieces, hpieces, -, hclean⟩ := ih (delimiter.length - 1)
            refine ⟨[], piece :: pieces, by rw [hpieces], List.nil_prefix, ?_⟩
            exact List.forall_mem_cons.mpr ⟨not_occurs_nil hnonempty, hclean⟩
          · rename_i hnone
            obtain ⟨piece, pieces, hpieces, hpre, hclean⟩ := ih 0
            obtain ⟨hpiece, hrest⟩ := List.forall_mem_cons.mp hclean
            have hlonger : a :: piece <+: a :: rest := List.cons_prefix_cons.mpr ⟨rfl, hpre⟩
            refine ⟨a :: piece, pieces, by rw [hpieces, List.modifyHead_cons], hlonger, ?_⟩
            -- An occurrence at the new front would have been one at the front of the text.
            apply List.forall_mem_cons.mpr ⟨_, hrest⟩
            rw [occurs_cons]
            exact fun hoccurs => hoccurs.elim (fun h => hnone (h.mono hlonger)) hpiece

theorem not_occurs_of_mem_split (hnonempty : delimiter ≠ []) {text piece : List α}
    (h : piece ∈ split key delimiter text) : ¬ Occurs key delimiter piece := by
  obtain ⟨first, others, hpieces, -, hclean⟩ :
      ∃ first others, split key delimiter text = first :: others ∧ first <+: text.drop 0 ∧
        ∀ other ∈ first :: others, ¬ Occurs key delimiter other := split_spec hnonempty 0 text
  rw [hpieces] at h
  exact hclean piece h

end

/-! ## Texts between delimiters -/

section

variable {key : α → β} {opening : α} {others : List α}

/-- An occurrence at the front of a text does not reach into the delimiter behind it. -/
theorem startsWith_of_append (hopening : ∀ other ∈ others, key other ≠ key opening)
    {text rest : List α} (hnonempty : text ≠ [])
    (h : StartsWith key (opening :: others) (text ++ opening :: rest)) :
    StartsWith key (opening :: others) text := by
  rw [StartsWith, List.map_append] at h
  rcases List.prefix_or_prefix_of_prefix h (List.prefix_append _ _) with hinside | hreaches
  · exact hinside
  · obtain ⟨behind, hbehind⟩ := hreaches
    rw [← hbehind, List.prefix_append_right_inj] at h
    cases behind with
    | nil =>
        rw [List.append_nil] at hbehind
        rw [StartsWith, hbehind]
    | cons b behind =>
        obtain ⟨rfl, -⟩ := List.cons_prefix_cons.mp h
        cases text with
        | nil => exact absurd rfl hnonempty
        | cons a text =>
            have htail : text.map key ++ key opening :: behind = others.map key :=
              (List.cons.inj hbehind).2
            have hmem : key opening ∈ others.map key := by
              rw [← htail]
              exact List.mem_append_right _ List.mem_cons_self
            obtain ⟨other, hother, hsame⟩ := List.mem_map.mp hmem
            exact absurd hsame (hopening other hother)

/-- Something shorter than the delimiter, with the same front, brings no occurrence with it. -/
theorem occurs_append_iff (hopening : ∀ other ∈ others, key other ≠ key opening) {rest : List α}
    (hshorter : rest.length < others.length) {text : List α} :
    Occurs key (opening :: others) (text ++ opening :: rest) ↔
      Occurs key (opening :: others) text := by
  induction text with
  | nil =>
      refine iff_of_false ?_ (not_occurs_nil (List.cons_ne_nil _ _))
      intro h
      have hlength := h.length_le
      simp only [List.length_map, List.nil_append, List.length_cons] at hlength
      omega
  | cons a text ih =>
      rw [List.cons_append, occurs_cons, occurs_cons, ih]
      apply or_congr_left
      constructor
      · exact startsWith_of_append hopening (List.cons_ne_nil a text)
      · exact fun h => h.mono (List.prefix_append (a :: text) _)

variable [DecidableEq β]

/-- A text without the delimiter is split off in front of it. -/
theorem split_append (hopening : ∀ other ∈ others, key other ≠ key opening) {text : List α}
    (h : ¬ Occurs key (opening :: others) text) (rest : List α) :
    split key (opening :: others) (text ++ (opening :: others ++ rest)) =
      text :: split key (opening :: others) rest := by
  induction text with
  | nil =>
      apply split_append_of_startsWith (List.cons_ne_nil _ _) rfl
      exact (List.prefix_append (opening :: others) rest).map key
  | cons a text ih =>
      rw [occurs_cons, not_or] at h
      have hfront : ¬ StartsWith key (opening :: others)
          (a :: text ++ (opening :: others ++ rest)) :=
        fun hstarts => h.1 (startsWith_of_append hopening (List.cons_ne_nil a text) hstarts)
      rw [List.cons_append] at hfront ⊢
      rw [split_cons_of_not hfront, ih h.2, List.modifyHead_cons]

/-- Texts without the delimiter are split again, and nothing is left behind the last one. -/
theorem split_flatMap (hopening : ∀ other ∈ others, key other ≠ key opening)
    {texts : List (List α)} (h : ∀ text ∈ texts, ¬ Occurs key (opening :: others) text) :
    split key (opening :: others) (texts.flatMap (· ++ opening :: others)) = texts ++ [[]] := by
  induction texts with
  | nil => exact split_nil
  | cons text texts ih =>
      obtain ⟨htext, htexts⟩ := List.forall_mem_cons.mp h
      rw [List.flatMap_cons, List.append_assoc, split_append hopening htext, ih htexts]
      rfl

/-- **When a list of texts is recovered.** If each of non-empty texts is followed by the
delimiter, they are the non-empty pieces exactly if none contains the delimiter. -/
theorem filter_split_eq_iff (hopening : ∀ other ∈ others, key other ≠ key opening)
    {texts : List (List α)} (hnonempty : ∀ text ∈ texts, text ≠ []) :
    (split key (opening :: others) (texts.flatMap (· ++ opening :: others))).filter
        (fun piece => !piece.isEmpty) = texts ↔
      ∀ text ∈ texts, ¬ Occurs key (opening :: others) text := by
  constructor
  · intro hpieces text htext
    rw [← hpieces, List.mem_filter] at htext
    exact not_occurs_of_mem_split (List.cons_ne_nil _ _) htext.1
  · intro hclean
    have hkept : texts.filter (fun piece => !piece.isEmpty) = texts := by
      apply List.filter_eq_self.mpr
      simpa using hnonempty
    rw [split_flatMap hopening hclean, List.filter_append, hkept]
    exact List.append_nil texts

end

end Unbiased.Math
