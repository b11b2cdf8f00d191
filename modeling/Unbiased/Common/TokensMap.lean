/-
# The stem-to-tokens map, one call at a time

`StemIdTokensRCUMap` is an array of shared pointers to immutable token sets.
Here a call runs without interference, so its retry loop is entered once. The
interleaved version, with pointers and the compare-and-swap loop, is
`Unbiased.Concurrent.RcuMap`.
-/

import Mathlib.Logic.Function.Basic
import Unbiased.Common.Values

namespace Unbiased

open Unbiased.Math

/-- The number of entries of the engine's two per-stem arrays. -/
abbrev maxStemsNo : ℕ := 152588

/-- A stem's position in the vocabulary, as the engine stores it. -/
abbrev StemId := Int32

/-- A `flat_set<string>`, smallest token first. -/
abbrev TokensSet := SortedSet Bytes

/-- The array slot a stem id addresses. An id outside the array fails the
assertion in front of the access, or accesses memory outside it. -/
def slot? (id : StemId) : Option (Fin maxStemsNo) :=
  if h : 0 ≤ id.toInt ∧ id.toInt.toNat < maxStemsNo then some ⟨id.toInt.toNat, h.2⟩ else none

theorem maxStemsNo_lt : maxStemsNo < 2 ^ 31 := by decide

/-- Positions inside the array are narrowed without loss. -/
theorem toInt_ofNat_of_lt_maxStemsNo {position : ℕ} (h : position < maxStemsNo) :
    (Int32.ofNat position).toInt = position :=
  Int32.toInt_ofNat_of_lt (h.trans maxStemsNo_lt)

/-- A position inside the array is addressed by its narrowed id. -/
theorem slot?_ofNat {position : ℕ} (h : position < maxStemsNo) :
    slot? (Int32.ofNat position) = some ⟨position, h⟩ := by
  unfold slot?
  simp only [toInt_ofNat_of_lt_maxStemsNo h, Int.toNat_natCast]
  exact dif_pos ⟨Int.natCast_nonneg position, h⟩

/-- Positions inside the array keep apart when they are narrowed. -/
theorem ofNat_inj_of_lt_maxStemsNo {first second : ℕ} (hfirst : first < maxStemsNo)
    (hsecond : second < maxStemsNo) (h : Int32.ofNat first = Int32.ofNat second) :
    first = second := by
  have hslot := slot?_ofNat hfirst
  rw [h, slot?_ofNat hsecond] at hslot
  exact (congrArg Fin.val (Option.some.inj hslot)).symm

/-- The first position beyond the array addresses nothing. -/
theorem slot?_ofNat_maxStemsNo : slot? (Int32.ofNat maxStemsNo) = none := by decide

/-- Only the narrowed position of a slot addresses it. -/
theorem eq_ofNat_of_slot? {id : StemId} {slot : Fin maxStemsNo} (h : slot? id = some slot) :
    id = Int32.ofNat slot.val := by
  unfold slot? at h
  split at h
  · rename_i hcond
    obtain rfl := Option.some.inj h
    apply Int32.toInt_inj.mp
    rw [toInt_ofNat_of_lt_maxStemsNo hcond.2]
    exact (Int.toNat_of_nonneg hcond.1).symm
  · cases h

/-- The cells of the map; an unset cell is a null pointer. -/
abbrev StemIdTokensRCUMap := Fin maxStemsNo → Option TokensSet

namespace StemIdTokensRCUMap

/-- The token set a cell holds once `token` is in it: a new set for a null
pointer, the old set where the token is already there, else a copy with it. -/
def withToken (token : Bytes) : Option TokensSet → TokensSet
  | none => SortedSet.empty.insert token
  | some tokensSet => if token ∈ tokensSet then tokensSet else tokensSet.insert token

/-- The tokens a cell stands for; a null pointer stands for none. -/
def tokensOf (cell : Option TokensSet) : TokensSet := cell.getD SortedSet.empty

@[simp]
theorem tokensOf_some (tokensSet : TokensSet) : tokensOf (some tokensSet) = tokensSet := rfl

@[simp]
theorem mem_withToken {token other : Bytes} {cell : Option TokensSet} :
    other ∈ withToken token cell ↔ other = token ∨ other ∈ tokensOf cell := by
  cases cell with
  | none => simp [withToken, tokensOf]
  | some tokensSet =>
      by_cases hmem : token ∈ tokensSet
      · simp only [withToken, if_pos hmem, tokensOf_some]
        exact ⟨Or.inr, fun h => h.elim (fun heq => heq ▸ hmem) id⟩
      · simp [withToken, hmem]

/-- Record one token of a stem. -/
def addToken (map : StemIdTokensRCUMap) (id : StemId) (token : Bytes) :
    Option StemIdTokensRCUMap := do
  let slot ← slot? id
  some (Function.update map slot (some (withToken token (map slot))))

/-- All tokens of a stem; the inner option is the pointer. -/
def getTokens (map : StemIdTokensRCUMap) (id : StemId) : Option (Option TokensSet) := do
  let slot ← slot? id
  some (map slot)

end StemIdTokensRCUMap

end Unbiased
