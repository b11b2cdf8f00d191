/-
# The numbering of the stems

A stem's id is its position among the known stems, found by walking to it and narrowed to
`int32_t`; a stem is found by walking as far as its id says. The two walks invert each
other as long as no position is changed by the narrowing, and nothing keeps the number of
stems below the first one that is.
-/

import Mathlib.Data.Fintype.BigOperators
import Unbiased.Common.Vocabulary

namespace Unbiased

open Unbiased.Math

namespace Vocabulary

/-- What the constructors make. -/
inductive Constructed : Vocabulary → Prop where
  | fresh (stemsFreq : Fin maxStemsNo → Int32) : Constructed (fresh stemsFreq)
  | ofFiles {text : TextOps} {wordsFile stopwordsFile : Option Bytes}
    {stemsFreq : Fin maxStemsNo → Int32} {vocab : Vocabulary}
    (h : ofFiles text wordsFile stopwordsFile stemsFreq = some vocab) : Constructed vocab

/-- One call of `add_stems` after the other. -/
def addAll (vocab : Vocabulary) (calls : List (SortedSet Bytes)) : Vocabulary :=
  calls.foldl addStems vocab

/-- What holds of the ids, however many stems there are. -/
structure StemsNumbered (vocab : Vocabulary) (calls : List (SortedSet Bytes)) : Prop where
  /-- The strings with an id are the added ones. -/
  succeeds : ∀ stem, (vocab.getStemId stem).isSome ↔ ∃ stems ∈ calls, stem ∈ stems
  /-- No negative id and no other one beyond the stems finds any. -/
  found : ∀ id, (vocab.getStem id).isSome ↔ 0 ≤ id.toInt ∧ id.toInt < vocab.stemsNo
  getStemId_getStem : ∀ id stem, vocab.getStem id = some stem → vocab.getStemId stem = some id
  /-- A position from `2 ^ 31` on is changed by the narrowing. -/
  getStem_getStemId_iff : ∀ stem id, vocab.getStemId stem = some id →
    (vocab.getStem id = some stem ↔ vocab.stems.rank stem < 2 ^ 31)

/-- The ids are a dense numbering in the order of the stems, and finding a stem and finding
its id are inverse to each other. -/
structure DenselyNumbered (vocab : Vocabulary) (calls : List (SortedSet Bytes)) : Prop
    extends StemsNumbered vocab calls where
  dense : ∀ i : ℤ, (∃ stem id, vocab.getStemId stem = some id ∧ id.toInt = i) ↔
    0 ≤ i ∧ i < vocab.stemsNo
  increasing : ∀ stem other id otherId, vocab.getStemId stem = some id →
    vocab.getStemId other = some otherId → stem < other → id.toInt < otherId.toInt
  getStem_getStemId : ∀ stem id, vocab.getStemId stem = some id → vocab.getStem id = some stem

/-! ## Which stems there are -/

/-- A new vocabulary knows no stem. -/
theorem Constructed.stems_eq {vocab : Vocabulary} (h : Constructed vocab) :
    vocab.stems = SortedSet.empty := by
  cases h with
  | fresh stemsFreq => rfl
  | ofFiles h =>
      obtain ⟨words, -, h⟩ := Option.bind_eq_some_iff.mp h
      obtain ⟨stopWords, -, h⟩ := Option.bind_eq_some_iff.mp h
      rw [← Option.some.inj h]
      rfl

theorem mem_addAll_stems {vocab : Vocabulary} {calls : List (SortedSet Bytes)} {stem : Bytes} :
    stem ∈ (vocab.addAll calls).stems ↔ stem ∈ vocab.stems ∨ ∃ stems ∈ calls, stem ∈ stems := by
  induction calls generalizing vocab with
  | nil => simp [addAll]
  | cons stems calls ih =>
      rw [addAll, List.foldl_cons, ← addAll, ih, addStems_stems, SortedSet.mem_union,
        List.exists_mem_cons_iff, or_assoc]

/-! ## The two walks -/

section Walks

variable {vocab : Vocabulary}

theorem isSome_getStemId {stem : Bytes} : (vocab.getStemId stem).isSome ↔ stem ∈ vocab.stems := by
  by_cases h : stem ∈ vocab.stems
  · simp [getStemId_of_mem h, h]
  · simp [getStemId_eq_none h, h]

/-- A stem is found by its position, which is not negative. -/
theorem getStem_eq_some {id : StemId} {stem : Bytes} :
    vocab.getStem id = some stem ↔
      stem ∈ vocab.stems ∧ id.toInt = vocab.stems.rank stem := by
  unfold getStem
  split
  · rename_i hneg
    rw [Int32.lt_iff_toInt_lt, Int32.toInt_zero] at hneg
    constructor
    · intro h
      cases h
    · rintro ⟨-, hrank⟩
      omega
  · rename_i hnonneg
    rw [Int32.lt_iff_toInt_lt, Int32.toInt_zero, not_lt] at hnonneg
    rw [SortedSet.nth?_eq_some]
    have hnarrow : vocab.stems.rank stem = id.toInt.toNat ↔
        id.toInt = vocab.stems.rank stem := by
      omega
    rw [hnarrow]

theorem isSome_getStem {id : StemId} :
    (vocab.getStem id).isSome ↔ 0 ≤ id.toInt ∧ id.toInt < vocab.stemsNo := by
  rw [Option.isSome_iff_exists, stemsNo]
  constructor
  · rintro ⟨stem, hstem⟩
    obtain ⟨hmem, hrank⟩ := getStem_eq_some.mp hstem
    have hlt := SortedSet.rank_lt_size hmem
    omega
  · rintro ⟨hnonneg, hlt⟩
    obtain ⟨stem, hmem, hrank⟩ := SortedSet.exists_rank_eq (s := vocab.stems)
      (i := id.toInt.toNat) (by omega)
    exact ⟨stem, getStem_eq_some.mpr ⟨hmem, by omega⟩⟩

/-- The id of a stem that was found is the one it was found by. -/
theorem getStemId_of_getStem {id : StemId} {stem : Bytes} (h : vocab.getStem id = some stem) :
    vocab.getStemId stem = some id := by
  obtain ⟨hmem, hrank⟩ := getStem_eq_some.mp h
  have hlt := Int32.toInt_lt id
  rw [getStemId_eq_some]
  refine ⟨hmem, Int32.toInt_inj.mp ?_⟩
  rw [Int32.toInt_ofNat_of_lt (by omega), hrank]

/-- A stem is found by its id exactly if the id is its position. -/
theorem getStem_of_getStemId_iff {id : StemId} {stem : Bytes}
    (h : vocab.getStemId stem = some id) :
    vocab.getStem id = some stem ↔ vocab.stems.rank stem < 2 ^ 31 := by
  obtain ⟨hmem, rfl⟩ := getStemId_eq_some.mp h
  rw [getStem_eq_some]
  constructor
  · rintro ⟨-, hrank⟩
    have hlt := Int32.toInt_lt (Int32.ofNat (vocab.stems.rank stem))
    omega
  · exact fun hlt => ⟨hmem, Int32.toInt_ofNat_of_lt hlt⟩

/-- Up to `2 ^ 31` stems, every stem is found by its id. -/
theorem getStem_of_getStemId (hfits : vocab.stemsNo ≤ 2 ^ 31) {stem : Bytes} {id : StemId}
    (h : vocab.getStemId stem = some id) : vocab.getStem id = some stem :=
  (getStem_of_getStemId_iff h).mpr
    ((SortedSet.rank_lt_size (getStemId_eq_some.mp h).1).trans_le hfits)

end Walks

theorem stemsNumbered_addAll {start : Vocabulary} (hstart : Constructed start)
    (calls : List (SortedSet Bytes)) : StemsNumbered (start.addAll calls) calls where
  succeeds stem := by
    rw [isSome_getStemId, mem_addAll_stems, hstart.stems_eq]
    exact or_iff_right (SortedSet.notMem_empty stem)
  found id := isSome_getStem
  getStemId_getStem id stem := getStemId_of_getStem
  getStem_getStemId_iff stem id := getStem_of_getStemId_iff

/-- Up to `2 ^ 31` stems the numbering is dense. -/
theorem StemsNumbered.dense {vocab : Vocabulary} {calls : List (SortedSet Bytes)}
    (h : StemsNumbered vocab calls) (hfits : vocab.stemsNo ≤ 2 ^ 31) :
    DenselyNumbered vocab calls where
  toStemsNumbered := h
  dense i := by
    constructor
    · rintro ⟨stem, id, hid, rfl⟩
      exact (h.found id).mp (Option.isSome_iff_exists.mpr ⟨stem, getStem_of_getStemId hfits hid⟩)
    · rintro ⟨hnonneg, hlt⟩
      obtain ⟨stem, hmem, hrank⟩ := SortedSet.exists_rank_eq (s := vocab.stems)
        (i := i.toNat) (by rw [stemsNo] at hlt; omega)
      have hid := getStemId_of_mem hmem
      obtain ⟨-, htoInt⟩ := getStem_eq_some.mp (getStem_of_getStemId hfits hid)
      exact ⟨stem, _, hid, by omega⟩
  increasing stem other id otherId hid hotherId hlt := by
    obtain ⟨hmem, hrank⟩ := getStem_eq_some.mp (getStem_of_getStemId hfits hid)
    obtain ⟨hother, hotherRank⟩ := getStem_eq_some.mp (getStem_of_getStemId hfits hotherId)
    rw [hrank, hotherRank]
    exact Int.ofNat_lt.mpr (SortedSet.rank_lt_rank hmem hother hlt)
  getStem_getStemId stem id := getStem_of_getStemId hfits

/-- No id is left for the position `2 ^ 31`. -/
theorem DenselyNumbered.stemsNo_le {vocab : Vocabulary} {calls : List (SortedSet Bytes)}
    (h : DenselyNumbered vocab calls) : vocab.stemsNo ≤ 2 ^ 31 := by
  by_contra hmore
  obtain ⟨stem, id, -, hid⟩ := (h.dense (2 ^ 31)).mpr ⟨by norm_num, by omega⟩
  have hlt := Int32.toInt_lt id
  omega

/-- **Stem ids.** After any calls, exactly the added strings have an id, exactly the ids
below the number of stems find one, and a stem has the id it is found by. The numbering is
dense and ordered, and both walks invert each other, exactly up to `2 ^ 31` stems. -/
theorem stemsNumbered_and_dense_iff {start : Vocabulary} (hstart : Constructed start)
    (calls : List (SortedSet Bytes)) :
    StemsNumbered (start.addAll calls) calls ∧
    (DenselyNumbered (start.addAll calls) calls ↔ (start.addAll calls).stemsNo ≤ 2 ^ 31) := by
  have hnumbered := stemsNumbered_addAll hstart calls
  exact ⟨hnumbered, DenselyNumbered.stemsNo_le, hnumbered.dense⟩

/-- Two calls that share a stem. -/
def overlappingCalls : List (SortedSet Bytes) :=
  [SortedSet.ofList [[99], [97]], SortedSet.ofList [[98], [97]]]

/-- They number three stems. -/
theorem stemsNumbered_of_overlappingCalls :
    (StemsNumbered ((fresh fun _ => 0).addAll overlappingCalls) overlappingCalls ∧
      (DenselyNumbered ((fresh fun _ => 0).addAll overlappingCalls) overlappingCalls ↔
        ((fresh fun _ => 0).addAll overlappingCalls).stemsNo ≤ 2 ^ 31)) ∧
    ((fresh fun _ => 0).addAll overlappingCalls).stemsNo = 3 :=
  ⟨stemsNumbered_and_dense_iff (.fresh _) _, by decide⟩

/-- All strings of four bytes. -/
theorem exists_four_byte_stems : ∃ stems : SortedSet Bytes, stems.size = 2 ^ 32 := by
  refine ⟨SortedSet.ofList
    ((Finset.univ : Finset (Fin 4 → Fin 256)).toList.map List.ofFn), ?_⟩
  rw [SortedSet.size_ofList (Finset.nodup_toList _ |>.map List.ofFn_injective), List.length_map,
    Finset.length_toList, Finset.card_univ, Fintype.card_fun, Fintype.card_fin, Fintype.card_fin]
  norm_num

/-- With all strings of four bytes as stems, positions are left without an id. -/
theorem not_denselyNumbered_of_four_byte_stems :
    ¬ ∀ (start : Vocabulary) (calls : List (SortedSet Bytes)), Constructed start →
      DenselyNumbered (start.addAll calls) calls := by
  intro hall
  obtain ⟨stems, hsize⟩ := exists_four_byte_stems
  have hfits := (hall (fresh fun _ => 0) [stems] (.fresh _)).stemsNo_le
  have hunion : SortedSet.empty.union stems = stems := by
    ext stem
    rw [SortedSet.mem_union]
    exact or_iff_right (SortedSet.notMem_empty stem)
  have hno : ((fresh fun _ => 0).addAll [stems]).stemsNo = 2 ^ 32 := by
    rw [← hsize]
    exact congrArg SortedSet.size hunion
  rw [hno] at hfits
  exact absurd hfits (by norm_num)

end Vocabulary

end Unbiased
