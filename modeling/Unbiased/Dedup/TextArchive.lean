/-
# A text archive

An archive that writes words separated by blanks: a header, a string as its
length and its bytes, an array as its size and its elements in decimal. It
shows that an `Archive` can be had.
-/

import Mathlib.Data.List.OfFn
import Unbiased.Dedup.Protocol

namespace Unbiased

namespace TextArchive

/-- The byte that separates words. -/
abbrev blank : Fin 256 := 32

/-- A number in decimal. -/
def decimal (n : ℕ) : Bytes := (Nat.toDigits 10 n).map fun digit => Fin.ofNat 256 digit.toNat

def readDecimal (bytes : Bytes) : ℕ :=
  bytes.foldl (fun sofar byte => 10 * sofar + (byte.val - 48)) 0

/-- A digit is the byte it is written as. -/
theorem digit_bounds {digit : Char} (h : digit.isDigit = true) :
    48 ≤ digit.toNat ∧ digit.toNat ≤ 57 := by
  have hdigit := Char.isDigit_iff_toNat.mp h
  exact hdigit

theorem readDecimal_decimal (n : ℕ) : readDecimal (decimal n) = n := by
  have hfold : ∀ (digits : List Char), (∀ digit ∈ digits, digit.isDigit = true) → ∀ sofar : ℕ,
      (digits.map fun digit => Fin.ofNat 256 digit.toNat).foldl
        (fun sofar byte => 10 * sofar + (byte.val - 48)) sofar =
          Nat.ofDigitChars 10 digits sofar := by
    intro digits hdigits
    induction digits with
    | nil => exact fun sofar => Nat.ofDigitChars_nil.symm
    | cons digit digits ih =>
        intro sofar
        have hbounds := digit_bounds (hdigits digit List.mem_cons_self)
        have hbyte : (Fin.ofNat 256 digit.toNat).val = digit.toNat :=
          Nat.mod_eq_of_lt (by omega)
        rw [List.map_cons, List.foldl_cons, hbyte, Nat.ofDigitChars_cons]
        exact ih (fun other hother => hdigits other (List.mem_cons_of_mem _ hother)) _
  rw [readDecimal, decimal, hfold _ fun digit hdigit =>
    Nat.isDigit_of_mem_toDigits (by decide) (by decide) hdigit]
  exact Nat.ofDigitChars_ten_toDigits

theorem digit_of_mem_decimal {n : ℕ} {byte : Fin 256} (h : byte ∈ decimal n) :
    48 ≤ byte.val ∧ byte.val ≤ 57 := by
  rcases List.mem_map.mp h with ⟨digit, hdigit, rfl⟩
  have hbounds := digit_bounds (Nat.isDigit_of_mem_toDigits (by decide) (by decide) hdigit)
  have hbyte : (Fin.ofNat 256 digit.toNat).val = digit.toNat := Nat.mod_eq_of_lt (by omega)
  rwa [hbyte]

/-- An `int32_t` in decimal. -/
def integer (value : Int32) : Bytes :=
  if value.toInt < 0 then 45 :: decimal (-value.toInt).toNat else decimal value.toInt.toNat

def readInteger (word : Bytes) : Int32 :=
  if word.head? = some 45 then Int32.ofInt (-(readDecimal word.tail)) else
    Int32.ofInt (readDecimal word)

theorem readInteger_integer (value : Int32) : readInteger (integer value) = value := by
  unfold integer readInteger
  by_cases hneg : value.toInt < 0
  · rw [if_pos hneg, List.head?_cons, if_pos rfl, List.tail_cons, readDecimal_decimal,
      Int.toNat_of_nonneg (by omega), Int.neg_neg, Int32.ofInt_toInt]
  · have hhead : (decimal value.toInt.toNat).head? ≠ some 45 := by
      intro hhead
      have hbounds := digit_of_mem_decimal (List.mem_of_head? hhead)
      exact absurd hbounds.1 (by decide)
    rw [if_neg hneg, if_neg hhead, readDecimal_decimal, Int.toNat_of_nonneg (by omega),
      Int32.ofInt_toInt]

theorem blank_notMem_decimal (n : ℕ) : blank ∉ decimal n := fun h =>
  absurd (digit_of_mem_decimal h).1 (by decide)

theorem blank_notMem_integer (value : Int32) : blank ∉ integer value := by
  unfold integer
  split
  · intro h
    rcases List.mem_cons.mp h with h | h
    · exact absurd h (by decide)
    · exact blank_notMem_decimal _ h
  · exact blank_notMem_decimal _

/-- What follows a word and its blank. -/
theorem drop_word (word rest : Bytes) :
    (word ++ (blank :: rest)).drop (word.length + 1) = rest := by
  rw [← List.drop_drop, List.drop_left, List.drop_one, List.tail_cons]

/-- Numbers, each after a blank. -/
def integers (values : List Int32) : Bytes := values.flatMap fun value => blank :: integer value

def readIntegers : ℕ → Bytes → Option (List Int32)
  | 0, _ => some []
  | _ + 1, [] => none
  | n + 1, byte :: rest =>
    if byte = blank then
      let word := rest.takeWhile (· ≠ blank)
      (readIntegers n (rest.drop word.length)).map fun values => readInteger word :: values
    else none

/-- A word ends where a blank follows. -/
theorem takeWhile_word {word rest : Bytes} (hword : blank ∉ word)
    (hrest : ∀ byte ∈ rest.head?, byte = blank) :
    (word ++ rest).takeWhile (· ≠ blank) = word := by
  induction word with
  | nil =>
      cases rest with
      | nil => rfl
      | cons byte rest =>
          have hbyte : byte = blank := hrest byte rfl
          simp [hbyte]
  | cons byte word ih =>
      have ⟨hbyte, hword⟩ := not_or.mp (mt List.mem_cons.mpr hword)
      rw [List.cons_append, List.takeWhile_cons_of_pos (by simpa using Ne.symm hbyte), ih hword]

theorem readIntegers_integers (values : List Int32) :
    readIntegers values.length (integers values) = some values := by
  induction values with
  | nil => rfl
  | cons value values ih =>
      have hblank : ∀ byte ∈ (integers values).head?, byte = blank := by
        intro byte hbyte
        cases values with
        | nil => cases hbyte
        | cons next values =>
            cases hbyte
            rfl
      have hword := takeWhile_word (blank_notMem_integer value) hblank
      have hcons : integers (value :: values) =
          blank :: (integer value ++ integers values) := rfl
      rw [hcons, List.length_cons, readIntegers, if_pos rfl]
      simp only [hword, List.drop_left, ih, readInteger_integer, Option.map_some]

/-- `22 serialization::archive 19 0 0 `: the signature of the archive and the class
of pairs. -/
def pairHeader : Bytes :=
  [50, 50, 32, 115, 101, 114, 105, 97, 108, 105, 122, 97, 116, 105, 111, 110, 58, 58, 97, 114,
    99, 104, 105, 118, 101, 32, 49, 57, 32, 48, 32, 48, 32]

/-- ` 0 0 100`: the class of arrays and the number of elements. -/
def arrayHeader : Bytes := [32, 48, 32, 48, 32, 49, 48, 48]

def serializeIdSign (idSign : DocSignature) : Bytes :=
  pairHeader ++ (decimal idSign.1.length ++ (blank :: idSign.1 ++
    (arrayHeader ++ integers (List.ofFn idSign.2))))

/-- What follows a header. -/
def strip (header bytes : Bytes) : Option Bytes :=
  if header.isPrefixOf bytes then some (bytes.drop header.length) else none

theorem strip_append (header bytes : Bytes) : strip header (header ++ bytes) = some bytes := by
  simp [strip]

def deserializeIdSign (bytes : Bytes) : Option DocSignature := do
  let bytes ← strip pairHeader bytes
  let word := bytes.takeWhile (· ≠ blank)
  let bytes := bytes.drop (word.length + 1)
  let id := bytes.take (readDecimal word)
  let bytes ← strip arrayHeader (bytes.drop (readDecimal word))
  let values ← readIntegers signatureSize bytes
  some (id, fun row => values.getD row 0)

theorem deserialize_serialize (idSign : DocSignature) :
    deserializeIdSign (serializeIdSign idSign) = some idSign := by
  rcases idSign with ⟨id, signature⟩
  have hword : (decimal id.length ++ (blank :: id ++ (arrayHeader ++
      integers (List.ofFn signature)))).takeWhile (· ≠ blank) = decimal id.length :=
    takeWhile_word (blank_notMem_decimal _) fun byte hbyte => (Option.some.inj hbyte).symm
  have hrest : (decimal id.length ++ (blank :: id ++ (arrayHeader ++
      integers (List.ofFn signature)))).drop ((decimal id.length).length + 1) =
        id ++ (arrayHeader ++ integers (List.ofFn signature)) := drop_word _ _
  have hvalues : readIntegers signatureSize (integers (List.ofFn signature)) =
      some (List.ofFn signature) := by
    have hread := readIntegers_integers (List.ofFn signature)
    rwa [List.length_ofFn] at hread
  have hsignature : (fun row : Fin signatureSize => (List.ofFn signature).getD row 0) =
      signature := by
    funext row
    rw [List.getD_eq_getElem?_getD, List.getElem?_ofFn, dif_pos row.isLt]
    rfl
  rw [deserializeIdSign, serializeIdSign, strip_append]
  simp only [Option.bind_eq_bind, Option.bind_some, hword, readDecimal_decimal]
  rw [hrest, List.drop_left, List.take_left, strip_append, Option.bind_some,
    hvalues, Option.bind_some, hsignature]

end TextArchive

/-- The text archive, with its round trip. -/
def textArchive : Archive where
  serializeIdSign := TextArchive.serializeIdSign
  deserializeIdSign := TextArchive.deserializeIdSign
  deserialize_serialize := TextArchive.deserialize_serialize

end Unbiased
