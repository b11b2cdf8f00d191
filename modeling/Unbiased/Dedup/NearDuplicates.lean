/-
# Near duplicates

The bands cut a signature into blocks of rows that do not overlap, and a band's
key is computed from its own block. A signature that differs from a filed one in
fewer rows than there are bands leaves some block as it is, so the document is
found under that block's key.
-/

import Unbiased.Dedup.LSHDeduplication

namespace Unbiased

open Unbiased.Math

variable {hashCombine : HashCombine}

/-- The rows of a band decide its key. -/
theorem bandKey_congr {band : Fin bandsNo} {first second : Signature}
    (h : ∀ row, first (bandRow band row) = second (bandRow band row)) :
    bandKey hashCombine band first = bandKey hashCombine band second := by
  rw [bandKey, bandKey, bandHash, bandHash]
  simp only [h]

/-- A row of a signature belongs to one band only. -/
theorem band_of_bandRow {band other : Fin bandsNo} {row otherRow : Fin bandSize}
    (h : bandRow band row = bandRow other otherRow) : band = other := by
  have hrow : row.val < 5 := row.isLt
  have hother : otherRow.val < 5 := otherRow.isLt
  have hval : 5 * band.val + row.val = 5 * other.val + otherRow.val := congrArg Fin.val h
  exact Fin.ext (by omega)

/-- The number of rows in which two signatures differ. -/
def differences (first second : Signature) : ℕ :=
  (Finset.univ.filter fun row => first row ≠ second row).card

/-- Signatures that differ in fewer rows than there are bands share a band. -/
theorem shareBand_of_differences {first second : Signature}
    (h : differences first second < bandsNo) : ShareBand hashCombine first second := by
  have hlocal : ∀ (band : Fin bandsNo) (one other : Signature),
      (∀ row, one (bandRow band row) = other (bandRow band row)) →
        bandKey hashCombine band one = bandKey hashCombine band other :=
    fun _ _ _ => bandKey_congr
  apply BucketTable.Collide.of_few_differences hlocal fun _ _ _ _ => band_of_bandRow
  rwa [Fintype.card_fin]

/-- **Near duplicates are found.** Once a document is filed, by the constructor or by
a call, every call under another id with a signature that differs from the
document's in fewer rows than there are bands returns the document's id, and is
a duplicate, whatever else was filed. -/
theorem near_duplicate_found (hashCombine : HashCombine) (docs calls : List DocSignature)
    (stored asked : DocSignature) (hstored : stored ∈ docs ++ calls) (hids : asked.1 ≠ stored.1)
    (hfew : differences stored.2 asked.2 < bandsNo) :
    ∃ lsh duplicates next,
      (LSHDeduplication.make hashCombine signatureSize docs).bind
        (fun lsh => run (LSHDeduplication.call hashCombine) lsh calls) = some lsh ∧
      lsh.processSignature hashCombine asked = some (duplicates, next) ∧
      stored.1 ∈ duplicates ∧
      (ArticleDedup.mk lsh).isDuplicate hashCombine asked = some (true, ⟨next⟩) := by
  have hshare : ShareBand hashCombine stored.2 asked.2 := shareBand_of_differences hfew
  have ⟨band, hkey⟩ := hshare.symm
  have ⟨lsh, duplicates, next, verdict, hlsh, hanswer, hmem, hverdict, hduplicate⟩ :=
    mem_processSignature hashCombine docs calls asked
  have hfound : ∃ signature, (stored.1, signature) ∈ docs ++ calls ∧
      ∃ band, bandKey hashCombine band asked.2 = bandKey hashCombine band signature :=
    ⟨stored.2, hstored, band, hkey⟩
  have htrue : verdict = true := hduplicate.mpr ⟨stored.1, hids.symm, hfound⟩
  rw [htrue] at hverdict
  exact ⟨lsh, duplicates, next, hlsh, hanswer, (hmem stored.1).mpr (Or.inr hfound), hverdict⟩

/-- A document given to the constructor, and a call that differs from it in one row. -/
theorem near_duplicate_found_oneRow :
    ∃ lsh duplicates next,
      (LSHDeduplication.make manualHashCombine signatureSize [([97], fun _ => 0)]).bind
        (fun lsh => run (LSHDeduplication.call manualHashCombine) lsh []) = some lsh ∧
      lsh.processSignature manualHashCombine ([98], Function.update (fun _ => 0) 0 1) =
        some (duplicates, next) ∧
      [97] ∈ duplicates ∧
      (ArticleDedup.mk lsh).isDuplicate manualHashCombine
        ([98], Function.update (fun _ => 0) 0 1) = some (true, ⟨next⟩) :=
  near_duplicate_found manualHashCombine _ _ ([97], fun _ => 0) _ List.mem_cons_self
    (by decide) (by decide)

end Unbiased
