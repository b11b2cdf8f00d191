/-
# Features of a word

The functions that look at the spelling of a word alone. Numbers are recognised by an
alternation of two patterns, and the anchor at the end belongs to the second one only: a
word that begins with a digit matches the first, whatever comes after the digit.
-/

import Mathlib.Algebra.Ring.Nat
import Mathlib.Data.List.Count
import Unbiased.Math.Regex

namespace Unbiased

open Unbiased.Math

namespace Ner

/-- A Unicode code point, as the characters of Python strings are. -/
abbrev CodePoint := Fin 1114112

/-- Literals of code points elaborate through this instance. -/
instance codePointNeZero : NeZero 1114112 := ⟨Nat.succ_ne_zero 1114111⟩

/-- A Python string. -/
abbrev PyStr := List CodePoint

/-- The code point of a character. -/
def codePoint (ch : Char) : CodePoint := Fin.ofNat 1114112 ch.toNat

/-- A string literal. -/
def pyStr (text : String) : PyStr := text.toList.map codePoint

/-! ## Letter case -/

/-- The values `'LOW'`, `'UPPER'` and `'MIXED'`. -/
inductive WordCase where
  | low
  | upper
  | mixed
  deriving DecidableEq

/-- `get_case`. `str.islower` and `str.isupper` are taken from the Unicode tables. -/
def getCase (isLower isUpper : PyStr → Bool) (word : PyStr) : WordCase :=
  if isLower word then .low else if isUpper word then .upper else .mixed

/-! ## Patterns -/

/-- `[0-9]`. -/
def isDigit (ch : CodePoint) : Bool := codePoint '0' ≤ ch ∧ ch ≤ codePoint '9'

/-- `[A-Za-z0-9]`. -/
def isAlnum (ch : CodePoint) : Bool :=
  (codePoint 'A' ≤ ch ∧ ch ≤ codePoint 'Z') ∨ (codePoint 'a' ≤ ch ∧ ch ≤ codePoint 'z') ∨ isDigit ch

def digit : Regex CodePoint := .sym isDigit

def alnum : Regex CodePoint := .sym isAlnum

def alnumOr (other : CodePoint) : Regex CodePoint := .sym fun ch => isAlnum ch || ch = other

/-- `.`: anything but the end of a line. -/
def anyChar : Regex CodePoint := .sym fun ch => ch ≠ codePoint '\n'

def char (ch : CodePoint) : Regex CodePoint := .sym fun other => other = ch

/-- `$`: at the end, or before a line break at the end. -/
def atEnd : Regex CodePoint := .look fun rest => rest = [] || rest = [codePoint '\n']

/-- `[0-9]+(\.[0-9]*)?|[0-9]*\.[0-9]+$` -/
def numberPattern : Regex CodePoint :=
  .alt (.seq (.plus digit) (.opt (.seq (char (codePoint '.')) (.star digit))))
    (.seq (.star digit) (.seq (char (codePoint '.')) (.seq (.plus digit) atEnd)))

/-- `__.+__$` -/
def wildcardPattern : Regex CodePoint :=
  .seq (.literal (pyStr "__")) (.seq (.plus anyChar) (.seq (.literal (pyStr "__")) atEnd))

/-- `[A-Za-z0-9]+\.$` -/
def endingDotPattern : Regex CodePoint :=
  .seq (.plus alnum) (.seq (char (codePoint '.')) atEnd)

/-- `[A-Za-z0-9]+\.[A-Za-z0-9\.]+\.$` -/
def abbreviationPattern : Regex CodePoint :=
  .seq (.plus alnum) (.seq (char (codePoint '.'))
    (.seq (.plus (alnumOr (codePoint '.'))) (.seq (char (codePoint '.')) atEnd)))

/-- `[A-Za-z0-9]+\-[A-Za-z0-9\-]+.*$` -/
def hyphenPattern : Regex CodePoint :=
  .seq (.plus alnum) (.seq (char (codePoint '-'))
    (.seq (.plus (alnumOr (codePoint '-'))) (.seq (.star anyChar) atEnd)))

/-- The values `'number'`, `'wildcard'`, `'ending-dot'`, `'abbreviation'`, `'contains-hyphen'`,
`'quotes'` and `'none'`. -/
inductive OrtInfo where
  | number
  | wildcard
  | endingDot
  | abbreviation
  | containsHyphen
  | quotes
  | none
  deriving DecidableEq

/-- `get_ort_info`: the first pattern that the word matches from its start. -/
def getOrtInfo (word : PyStr) : OrtInfo :=
  if numberPattern.matchesPrefix word then .number
  else if wildcardPattern.matchesPrefix word then .wildcard
  else if endingDotPattern.matchesPrefix word then .endingDot
  else if abbreviationPattern.matchesPrefix word then .abbreviation
  else if hyphenPattern.matchesPrefix word then .containsHyphen
  else if (pyStr "'").isPrefixOf word && (pyStr "'").isSuffixOf word then .quotes
  else .none

example : ["12.5", "__END__", "Mr.", "U.S.A.", "well-known", "'quoted'", "word"].map
    (fun word => getOrtInfo (pyStr word)) =
      [.number, .wildcard, .endingDot, .abbreviation, .containsHyphen, .quotes, .none] := by
  decide +kernel

/-! ## Numbers -/

/-- ASCII digits with at most one point, and at least one digit. -/
structure IsNumeral (word : PyStr) : Prop where
  chars : ∀ ch ∈ word, isDigit ch = true ∨ ch = codePoint '.'
  points : word.count (codePoint '.') ≤ 1
  digit : ∃ ch ∈ word, isDigit ch = true

def StartsWithDigit (word : PyStr) : Prop := ∃ ch rest, word = ch :: rest ∧ isDigit ch = true

theorem getOrtInfo_eq_number_iff {word : PyStr} :
    getOrtInfo word = .number ↔ ∃ rest, numberPattern.Matches word rest := by
  rw [← Regex.matchesPrefix_iff]
  unfold getOrtInfo
  split
  · rename_i hmatches
    exact iff_of_true rfl hmatches
  · rename_i hmatches
    refine iff_of_false (fun h => ?_) hmatches
    split_ifs at h

/-- A point is no digit. -/
theorem isDigit_point : isDigit (codePoint '.') = false := by decide

/-- **What the pattern accepts**: any word that begins with a digit, and a point between
digits with at least one after it. -/
theorem exists_matches_numberPattern {word : PyStr} (hline : codePoint '\n' ∉ word) :
    (∃ rest, numberPattern.Matches word rest) ↔ StartsWithDigit word ∨
      ∃ whole first fraction, (∀ ch ∈ whole, isDigit ch = true) ∧ isDigit first = true ∧
        (∀ ch ∈ fraction, isDigit ch = true) ∧
        word = whole ++ codePoint '.' :: first :: fraction := by
  constructor
  · rintro ⟨rest, ⟨mid, hplus, -⟩ | ⟨mid, hstar, mid', hpoint, rest', hplus, hend, -⟩⟩
    · obtain ⟨first, taken, hfirst, -, hword⟩ := Regex.matches_plus_sym.mp hplus
      exact .inl ⟨first, _, hword, hfirst⟩
    · obtain ⟨whole, hwhole, rfl⟩ := Regex.matches_star_sym.mp hstar
      obtain ⟨point, hpoint, rfl⟩ := hpoint
      obtain ⟨first, fraction, hfirst, hfraction, rfl⟩ := Regex.matches_plus_sym.mp hplus
      have hrest : rest' = [] := by
        rcases Bool.or_eq_true_iff.mp hend with hnil | hbreak
        · exact of_decide_eq_true hnil
        · rw [of_decide_eq_true hbreak] at hline
          exact absurd (by simp) hline
      rw [of_decide_eq_true hpoint, hrest, List.append_nil]
      exact .inr ⟨whole, first, fraction, hwhole, hfirst, hfraction, rfl⟩
  · rintro (⟨first, rest, rfl, hfirst⟩ | ⟨whole, first, fraction, hwhole, hfirst, hfraction, rfl⟩)
    · refine ⟨rest, .inl ⟨rest, ?_, .inr rfl⟩⟩
      exact Regex.matches_plus_sym.mpr
        ⟨first, [], hfirst, fun _ h => absurd h List.not_mem_nil, rfl⟩
    · refine ⟨[], .inr ⟨_, Regex.matches_star_sym.mpr ⟨whole, hwhole, rfl⟩, _,
        ⟨_, decide_eq_true rfl, rfl⟩, [], ?_, rfl, rfl⟩⟩
      exact Regex.matches_plus_sym.mpr
        ⟨first, fraction, hfirst, hfraction, by rw [List.append_nil]⟩

theorem point_notMem_of_digits {word : PyStr} (h : ∀ ch ∈ word, isDigit ch = true) :
    codePoint '.' ∉ word := by
  intro hmem
  have hdigit := h _ hmem
  rw [isDigit_point] at hdigit
  cases hdigit

/-- A point is the only one of its numeral, so what stands after it are digits. -/
theorem IsNumeral.digits_of_point {fraction : PyStr}
    (h : IsNumeral (codePoint '.' :: fraction)) : ∀ ch ∈ fraction, isDigit ch = true := by
  have hnone : codePoint '.' ∉ fraction := by
    have hpoints := h.points
    rw [List.count_cons_self] at hpoints
    exact List.count_eq_zero.mp (by omega)
  intro ch hch
  rcases h.chars ch (List.mem_cons_of_mem _ hch) with hdigit | hpoint
  · exact hdigit
  · exact absurd (hpoint ▸ hch) hnone

/-- Digits, a point and at least one more digit are a numeral. -/
theorem isNumeral_of_digits {whole : PyStr} {first : CodePoint} {fraction : PyStr}
    (hwhole : ∀ ch ∈ whole, isDigit ch = true) (hfirst : isDigit first = true)
    (hfraction : ∀ ch ∈ fraction, isDigit ch = true) :
    IsNumeral (whole ++ codePoint '.' :: first :: fraction) := by
  have hdigits : ∀ ch ∈ first :: fraction, isDigit ch = true :=
    List.forall_mem_cons.mpr ⟨hfirst, hfraction⟩
  refine ⟨fun ch hch => ?_, ?_, first, by simp, hfirst⟩
  · rcases List.mem_append.mp hch with hch | hch
    · exact .inl (hwhole ch hch)
    · rcases List.mem_cons.mp hch with rfl | hch
      · exact .inr rfl
      · exact .inl (hdigits ch hch)
  · have hcount : (whole ++ codePoint '.' :: first :: fraction).count (codePoint '.') = 1 := by
      rw [List.count_append, List.count_cons_self,
        List.count_eq_zero.mpr (point_notMem_of_digits hwhole),
        List.count_eq_zero.mpr (point_notMem_of_digits hdigits)]
    exact Nat.le_of_eq hcount

/-- Without a digit at the start, a numeral is a point and digits. -/
theorem isNumeral_iff_of_not_startsWithDigit {word : PyStr} (hstart : ¬ StartsWithDigit word) :
    IsNumeral word ↔ ∃ whole first fraction, (∀ ch ∈ whole, isDigit ch = true) ∧
      isDigit first = true ∧ (∀ ch ∈ fraction, isDigit ch = true) ∧
      word = whole ++ codePoint '.' :: first :: fraction := by
  constructor
  · intro hnumeral
    cases word with
    | nil =>
        obtain ⟨ch, hmem, -⟩ := hnumeral.digit
        exact absurd hmem List.not_mem_nil
    | cons point fraction =>
        obtain rfl : point = codePoint '.' :=
          (hnumeral.chars point List.mem_cons_self).resolve_left fun hdigit =>
            hstart ⟨point, fraction, rfl, hdigit⟩
        have hfraction := hnumeral.digits_of_point
        cases fraction with
        | nil =>
            obtain ⟨ch, hmem, hdigit⟩ := hnumeral.digit
            rw [List.mem_singleton.mp hmem, isDigit_point] at hdigit
            cases hdigit
        | cons first fraction =>
            obtain ⟨hfirst, hrest⟩ := List.forall_mem_cons.mp hfraction
            exact ⟨[], first, fraction, fun _ h => absurd h List.not_mem_nil, hfirst, hrest, rfl⟩
  · rintro ⟨whole, first, fraction, hwhole, hfirst, hfraction, rfl⟩
    exact isNumeral_of_digits hwhole hfirst hfraction

/-- **Numbers are recognised right** exactly in words that are numerals and in words that do
not begin with a digit. -/
theorem getOrtInfo_number_iff {word : PyStr} (hline : codePoint '\n' ∉ word) :
    (getOrtInfo word = .number ↔ IsNumeral word) ↔ IsNumeral word ∨ ¬ StartsWithDigit word := by
  rw [getOrtInfo_eq_number_iff, exists_matches_numberPattern hline]
  by_cases hstart : StartsWithDigit word
  · rw [or_iff_left (not_not.mpr hstart)]
    exact iff_true_left (.inl hstart)
  · rw [or_iff_right hstart, isNumeral_iff_of_not_startsWithDigit hstart]
    exact iff_of_true Iff.rfl (.inr hstart)

/-- A decimal numeral. -/
theorem getOrtInfo_number_numeral :
    (getOrtInfo (pyStr "12.5") = .number ↔ IsNumeral (pyStr "12.5")) ↔
      IsNumeral (pyStr "12.5") ∨ ¬ StartsWithDigit (pyStr "12.5") :=
  getOrtInfo_number_iff (by decide +kernel)

/-- A digit and letters are taken for a number. -/
theorem letters_after_digit_number :
    ¬ ∀ word : PyStr, word ≠ [] → codePoint '\n' ∉ word →
      (getOrtInfo word = .number ↔ IsNumeral word) := by
  intro hall
  have hnumeral := (hall (pyStr "3abc") (by decide +kernel) (by decide +kernel)).mp
    (by decide +kernel)
  rcases hnumeral.chars (codePoint 'a') (by decide +kernel) with hdigit | hpoint
  · exact absurd hdigit (by decide +kernel)
  · exact absurd hpoint (by decide +kernel)

end Ner

end Unbiased
