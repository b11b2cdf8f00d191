/-
# Dates as text, and as numbers

The date of an article is the text that `strftime` makes of it, and `std::stof` reads a
number at the front of a text. Of a date it reads the year: the hyphen after the year is
no part of a number.
-/

import Unbiased.Dedup.TextArchive
import Unbiased.Math.Binary32

namespace Unbiased

open Unbiased.Math
open TextArchive (decimal readDecimal readDecimal_decimal digit_of_mem_decimal)

/-! ## Numbers at the front of a text -/

/-- `isdigit` in the "C" locale. -/
def isDigit (byte : Fin 256) : Bool := 48 ≤ byte.val ∧ byte.val ≤ 57

/-- `isspace` in the "C" locale. -/
def isSpace (byte : Fin 256) : Bool := byte.val = 32 ∨ (9 ≤ byte.val ∧ byte.val ≤ 13)

/-- An optional sign: whether it is a minus, and what comes after it. -/
def takeSign : Bytes → Bool × Bytes
  | 45 :: rest => (true, rest)
  | 43 :: rest => (false, rest)
  | str => (false, str)

/-- The digits after a decimal point, and what comes after them. -/
def takeFraction : Bytes → Bytes × Bytes
  | 46 :: rest => (rest.takeWhile isDigit, rest.dropWhile isDigit)
  | str => ([], str)

/-- A decimal exponent, or zero where there is none. -/
def exponent : Bytes → ℤ
  | [] => 0
  | letter :: rest =>
    if letter = 101 ∨ letter = 69 then
      let (negative, digits) := takeSign rest
      let value := readDecimal (digits.takeWhile isDigit)
      if negative then -value else value
    else 0

/-- The longest decimal number a text begins with. Hexadecimal numbers, infinities and NaNs,
with which no date begins, are left out. -/
def leadingNumber (str : Bytes) : Option ℚ :=
  let (negative, digits) := takeSign (str.dropWhile isSpace)
  let whole := digits.takeWhile isDigit
  let (fraction, rest) := takeFraction (digits.dropWhile isDigit)
  if whole = [] ∧ fraction = [] then none
  else
    let magnitude : ℚ := readDecimal (whole ++ fraction) * 10 ^ (exponent rest - fraction.length)
    some (if negative then -magnitude else magnitude)

/-- What `std::stof` throws. -/
inductive StofError where
  | invalidArgument
  | outOfRange
  deriving DecidableEq

/-- `std::stof`: the number the text begins with, rounded. A number that is too large, or
that loses bits because it is too small, is out of range. -/
def stof (str : Bytes) : Except StofError ℚ :=
  match leadingNumber str with
  | none => .error .invalidArgument
  | some number =>
    let value := Binary32.round number
    if Binary32.overflow ≤ |value| ∨ (value ≠ number ∧ |value| < Binary32.leastNormal) then
      .error .outOfRange
    else .ok value

/-! ## Dates -/

def isLeapYear (year : ℕ) : Bool := 4 ∣ year ∧ (¬ 100 ∣ year ∨ 400 ∣ year)

def daysInMonth (year month : ℕ) : ℕ :=
  if month = 2 then if isLeapYear year then 29 else 28
  else if month = 4 ∨ month = 6 ∨ month = 9 ∨ month = 11 then 30 else 31

/-- A point in time to the second, as `datetime` has it. -/
structure DateTime where
  year : ℕ
  month : ℕ
  day : ℕ
  hour : ℕ
  minute : ℕ
  second : ℕ
  year_bounds : 1 ≤ year ∧ year ≤ 9999
  month_bounds : 1 ≤ month ∧ month ≤ 12
  day_bounds : 1 ≤ day ∧ day ≤ daysInMonth year month
  hour_lt : hour < 24
  minute_lt : minute < 60
  second_lt : second < 60

namespace DateTime

/-- The fields, the most significant first. -/
def fields (date : DateTime) : List ℕ :=
  [date.year, date.month, date.day, date.hour, date.minute, date.second]

/-- Chronological order. -/
def NotLater (first second : DateTime) : Prop := first.fields ≤ second.fields

instance decidableNotLater (first second : DateTime) : Decidable (first.NotLater second) :=
  inferInstanceAs (Decidable (first.fields ≤ second.fields))

theorem NotLater.refl (date : DateTime) : date.NotLater date := le_refl date.fields

/-- A date of an earlier year is earlier. -/
theorem notLater_of_year_lt {first second : DateTime} (h : first.year < second.year) :
    first.NotLater second := le_of_lt (List.Lex.rel h)

end DateTime

/-- A number with at least so many digits. -/
def padded (width n : ℕ) : Bytes :=
  List.replicate (width - (decimal n).length) 48 ++ decimal n

/-- `strftime("%Y-%m-%d %H:%M:%S")`. Platforms differ in how far they pad the year. -/
def strftime (yearWidth : ℕ) (date : DateTime) : Bytes :=
  padded yearWidth date.year ++ 45 :: padded 2 date.month ++ 45 :: padded 2 date.day ++
    32 :: padded 2 date.hour ++ 58 :: padded 2 date.minute ++ 58 :: padded 2 date.second

theorem isDigit_of_mem_padded {width n : ℕ} {byte : Fin 256} (h : byte ∈ padded width n) :
    isDigit byte = true := by
  rcases List.mem_append.mp h with hzero | hdigit
  · rw [List.eq_of_mem_replicate hzero]
    rfl
  · rw [isDigit, decide_eq_true_eq]
    exact digit_of_mem_decimal hdigit

theorem decimal_ne_nil (n : ℕ) : decimal n ≠ [] := by
  intro hnil
  exact Nat.toDigits_ne_nil (List.map_eq_nil_iff.mp hnil)

theorem padded_ne_nil (width n : ℕ) : padded width n ≠ [] := fun hnil =>
  decimal_ne_nil n (List.append_eq_nil_iff.mp hnil).2

/-- Leading zeros do not count. -/
theorem readDecimal_padded (width n : ℕ) : readDecimal (padded width n) = n := by
  have hzeros : ∀ count : ℕ, readDecimal (List.replicate count 48 ++ decimal n) = n := by
    intro count
    induction count with
    | zero => exact readDecimal_decimal n
    | succ count ih => exact ih
  exact hzeros _

/-- A text that begins with digits and a hyphen is read up to the hyphen. -/
theorem leadingNumber_of_digits {digits : Bytes} (hdigits : ∀ byte ∈ digits, isDigit byte = true)
    (hne : digits ≠ []) (rest : Bytes) :
    leadingNumber (digits ++ 45 :: rest) = some (readDecimal digits : ℚ) := by
  obtain ⟨first, others, rfl⟩ := List.exists_cons_of_ne_nil hne
  have hfirst := hdigits first List.mem_cons_self
  have hspace : isSpace first = false := by
    rw [isDigit, decide_eq_true_eq] at hfirst
    rw [isSpace, decide_eq_false_iff_not]
    omega
  have hskip : (first :: others ++ 45 :: rest).dropWhile isSpace =
      first :: others ++ 45 :: rest := by
    rw [List.cons_append, List.dropWhile_cons_of_neg (by rw [hspace]; exact Bool.false_ne_true)]
  have hsign : takeSign (first :: others ++ 45 :: rest) =
      (false, first :: others ++ 45 :: rest) := by
    unfold takeSign
    split
    · rename_i heq
      rw [(List.cons.inj heq).1] at hfirst
      exact absurd hfirst (by decide)
    · rename_i heq
      rw [(List.cons.inj heq).1] at hfirst
      exact absurd hfirst (by decide)
    · rfl
  have htake : (first :: others ++ 45 :: rest).takeWhile isDigit = first :: others := by
    rw [List.takeWhile_append_of_pos hdigits, List.takeWhile_cons_of_neg (by decide),
      List.append_nil]
  have hdrop : (first :: others ++ 45 :: rest).dropWhile isDigit = 45 :: rest := by
    rw [List.dropWhile_append_of_pos hdigits, List.dropWhile_cons_of_neg (by decide)]
  rw [leadingNumber, hskip, hsign]
  show (if (_ ∧ _) then _ else _) = _
  rw [htake, hdrop]
  simp [exponent]

/-- **Of a date, the year is read**, and it is exact. -/
theorem stof_strftime (yearWidth : ℕ) (date : DateTime) :
    stof (strftime yearWidth date) = .ok (date.year : ℚ) := by
  have hyear : date.year < 2 ^ 24 := lt_of_le_of_lt date.year_bounds.2 (by decide)
  have hnumber : leadingNumber (strftime yearWidth date) = some (date.year : ℚ) := by
    have hread := leadingNumber_of_digits (fun _ => isDigit_of_mem_padded)
      (padded_ne_nil yearWidth date.year)
    rw [readDecimal_padded] at hread
    rw [strftime]
    simp only [List.append_assoc, List.cons_append]
    exact hread _
  rw [stof, hnumber]
  show (if _ ∨ (Binary32.round (date.year : ℚ) ≠ date.year ∧ _) then _ else _) = _
  rw [Binary32.round_natCast hyear, Nat.abs_cast, if_neg]
  rintro (hlarge | hsmall)
  · exact absurd (Binary32.natCast_lt_overflow hyear) (not_lt.mpr hlarge)
  · exact hsmall.1 rfl

end Unbiased
