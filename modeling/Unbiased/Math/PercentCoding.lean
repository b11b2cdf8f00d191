/-
# Percent encoding

A byte is written as a percent sign and two hexadecimal digits, and read back from them. A
percent sign without two digits behind it stands for itself, so reading does not fail.
-/

import Mathlib.Data.List.Basic

namespace Unbiased.Math

/-! ## Bytes -/

/-- The hexadecimal digit of a number below sixteen, in upper case. -/
def hexDigit (n : ℕ) : UInt8 := UInt8.ofNat (if n < 10 then 48 + n else 55 + n)

/-- The number of a hexadecimal digit, in either case. -/
def hexValue? (b : UInt8) : Option ℕ :=
  if 48 ≤ b.toNat ∧ b.toNat ≤ 57 then some (b.toNat - 48)
  else if 65 ≤ b.toNat ∧ b.toNat ≤ 70 then some (b.toNat - 55)
  else if 97 ≤ b.toNat ∧ b.toNat ≤ 102 then some (b.toNat - 87)
  else none

/-- The byte of two digits. -/
def hexByte? (high low : UInt8) : Option UInt8 := do
  let high ← hexValue? high
  let low ← hexValue? low
  some (UInt8.ofNat (16 * high + low))

def percentEncode (b : UInt8) : List UInt8 :=
  [37, hexDigit (b.toNat / 16), hexDigit (b.toNat % 16)]

def percentDecode : List UInt8 → List UInt8
  | [] => []
  | [a] => [a]
  | [a, b] => [a, b]
  | a :: b :: c :: rest =>
    match if a = 37 then hexByte? b c else none with
    | some byte => byte :: percentDecode rest
    | none => a :: percentDecode (b :: c :: rest)

theorem hexValue?_hexDigit : ∀ n < 16, hexValue? (hexDigit n) = some n := by decide

theorem hexByte?_hexDigit (b : UInt8) :
    hexByte? (hexDigit (b.toNat / 16)) (hexDigit (b.toNat % 16)) = some b := by
  have hhigh : b.toNat / 16 < 16 := Nat.div_lt_of_lt_mul b.toNat_lt
  rw [hexByte?, hexValue?_hexDigit _ hhigh, hexValue?_hexDigit _ (Nat.mod_lt _ (by decide))]
  simp only [Option.bind_eq_bind, Option.bind_some, Nat.div_add_mod, UInt8.ofNat_toNat]

theorem percentDecode_cons {b : UInt8} (h : b ≠ 37) (rest : List UInt8) :
    percentDecode (b :: rest) = b :: percentDecode rest := by
  match rest with
  | [] => rfl
  | [_] => rfl
  | _ :: _ :: _ => rw [percentDecode, if_neg h]

/-- An encoded byte is read back. -/
theorem percentDecode_percentEncode (b : UInt8) (rest : List UInt8) :
    percentDecode (percentEncode b ++ rest) = b :: percentDecode rest := by
  rw [percentEncode, List.cons_append, List.cons_append, List.singleton_append, percentDecode,
    if_pos rfl, hexByte?_hexDigit]

/-- Encode the bytes that are not plain. -/
def escape (plain : UInt8 → Bool) (b : UInt8) : List UInt8 :=
  if plain b then [b] else percentEncode b

/-- Decoding does to bytes what is done to each before it is encoded, as long as the percent
sign is encoded. -/
theorem percentDecode_flatMap {f : UInt8 → List UInt8} {g : UInt8 → UInt8}
    (h : ∀ b rest, percentDecode (f b ++ rest) = g b :: percentDecode rest) (l : List UInt8) :
    percentDecode (l.flatMap f) = l.map g := by
  induction l with
  | nil => rfl
  | cons b l ih => rw [List.flatMap_cons, h, ih, List.map_cons]

theorem percentDecode_escape {plain : UInt8 → Bool} (hplain : plain 37 = false) (b : UInt8)
    (rest : List UInt8) : percentDecode (escape plain b ++ rest) = b :: percentDecode rest := by
  unfold escape
  split
  · rename_i hb
    apply percentDecode_cons
    rintro rfl
    cases hb.symm.trans hplain
  · exact percentDecode_percentEncode b rest

/-! ## UTF-8 -/

/-- The bytes of a text. -/
def utf8 (text : List Char) : List UInt8 := text.flatMap String.utf8EncodeChar

/-- The text of some bytes, if they are valid. -/
def utf8Decode? (bytes : List UInt8) : Option (List Char) :=
  bytes.toByteArray.utf8Decode?.map Array.toList

theorem utf8Decode?_utf8 (text : List Char) : utf8Decode? (utf8 text) = some text := by
  have h : (utf8 text).toByteArray = text.utf8Encode := rfl
  rw [utf8Decode?, h, List.utf8Decode?_utf8Encode, Option.map_some]

/-- The character of a byte. -/
def charOfByte (b : UInt8) : Char := Char.ofNat b.toNat

theorem utf8EncodeChar_charOfByte {b : UInt8} (h : b < 128) :
    String.utf8EncodeChar (charOfByte b) = [b] := by
  have hall : ∀ n < 128, String.utf8EncodeChar (Char.ofNat n) = [UInt8.ofNat n] := by decide
  rw [charOfByte, hall _ (UInt8.lt_iff_toNat_lt.mp h), UInt8.ofNat_toNat]

/-- ASCII bytes are the text of their characters. -/
theorem utf8_map_charOfByte {bytes : List UInt8} (h : ∀ b ∈ bytes, b < 128) :
    utf8 (bytes.map charOfByte) = bytes := by
  induction bytes with
  | nil => rfl
  | cons b bytes ih =>
      obtain ⟨hb, hrest⟩ := List.forall_mem_cons.mp h
      rw [utf8, List.map_cons, List.flatMap_cons, utf8EncodeChar_charOfByte hb, ← utf8, ih hrest]
      rfl

/-- A byte below 128 stands for its own character only. -/
theorem eq_of_mem_utf8EncodeChar {ch : Char} {b : UInt8} (h : b ∈ String.utf8EncodeChar ch)
    (hb : b < 128) : ch = charOfByte b := by
  have hlow : b.toNat < 128 := UInt8.lt_iff_toNat_lt.mp hb
  have hhigh : ∀ n, 128 ≤ n → n < 256 → b ≠ UInt8.ofNat n := by
    rintro n hn hsize rfl
    rw [UInt8.toNat_ofNat_of_lt' hsize] at hlow
    omega
  unfold String.utf8EncodeChar at h
  dsimp only at h
  split at h
  · rename_i hsmall
    rw [List.mem_singleton.mp h, charOfByte,
      UInt8.toNat_ofNat_of_lt' (show _ < 256 by omega)]
    exact (Char.ofNat_toNat ch).symm
  · exfalso
    -- all bytes of a longer encoding are marked
    split at h
    · simp only [List.mem_cons, List.not_mem_nil, or_false] at h
      rcases h with h | h
      · exact hhigh _ (by omega) (by omega) h
      · exact hhigh _ (by omega) (by omega) h
    · split at h
      · simp only [List.mem_cons, List.not_mem_nil, or_false] at h
        rcases h with h | h | h
        · exact hhigh _ (by omega) (by omega) h
        · exact hhigh _ (by omega) (by omega) h
        · exact hhigh _ (by omega) (by omega) h
      · simp only [List.mem_cons, List.not_mem_nil, or_false] at h
        rcases h with h | h | h | h
        · exact hhigh _ (by omega) (by omega) h
        · exact hhigh _ (by omega) (by omega) h
        · exact hhigh _ (by omega) (by omega) h
        · exact hhigh _ (by omega) (by omega) h

end Unbiased.Math
