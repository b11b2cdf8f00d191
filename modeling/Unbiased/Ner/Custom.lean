/-
# The feature rows of the entity recogniser

`build_features` goes through three data sets and keeps the rows of all of them in one
list. Each turn appends an empty row and then fills in the row at the index inside its own
data set. In the first set to have samples the two are the same row; in a later one the
appended rows stay empty, and the rows of the earlier sets are filled in again.
-/

import Mathlib.Data.Finset.Basic
import Mathlib.Data.Finset.Dedup
import Unbiased.Math.Loops
import Unbiased.Ner.Features

namespace Unbiased

open Unbiased.Math

namespace Ner

/-- A line of a data set: a word with its annotations. -/
structure Sample where
  word : PyStr
  pos : PyStr
  chunk : PyStr
  tag : PyStr

/-- The library functions on words, and the dictionary that numbers stems. -/
structure Text where
  isLower : PyStr → Bool
  isUpper : PyStr → Bool
  /-- `PorterStemmer.stem`. -/
  stem : PyStr → PyStr
  vocabulary : PyStr → Option ℕ

/-- The number of the stem of a word, and -1 without one. -/
def Text.wordId (text : Text) (sample : Sample) : ℤ :=
  match text.vocabulary (text.stem sample.word) with
  | some id => id
  | none => -1

/-- The tag of the word before, or -1. -/
inductive PrevTag where
  | missing
  | tag (tag : PyStr)
  deriving DecidableEq

/-- A row with all of its keys. -/
structure FeatureRow where
  pos : PyStr
  chunk : PyStr
  case : WordCase
  wordId : ℤ
  ortInfo : OrtInfo
  before : ℤ
  after : ℤ
  prevTag : PrevTag
  deriving DecidableEq

/-- The samples before and after an index, if it is neither the first nor the last. -/
def neighbours (data : List Sample) (idx : Fin data.length) : Option (Sample × Sample) :=
  if h : 0 < idx.val ∧ idx.val + 1 < data.length then
    some (data.get ⟨idx.val - 1, by omega⟩, data.get ⟨idx.val + 1, h.2⟩)
  else none

/-- The id of a neighbour, if it is that of a known word. -/
def neighbourId (trainWords : Finset ℤ) (wordId : ℤ) : ℤ :=
  if wordId ∈ trainWords ∨ wordId = -1 then wordId else -1

/-- What is assigned to the keys of a row. -/
def featureRow (text : Text) (data : List Sample) (trainWords : Finset ℤ) (wordId : ℤ)
    (idx : Fin data.length) : FeatureRow where
  pos := (data.get idx).pos
  chunk := (data.get idx).chunk
  case := getCase text.isLower text.isUpper (data.get idx).word
  wordId := wordId
  ortInfo := getOrtInfo (data.get idx).word
  before := match neighbours data idx with
    | none => -1
    | some (prev, _) => neighbourId trainWords (text.wordId prev)
  after := match neighbours data idx with
    | none => -1
    | some (_, next) => neighbourId trainWords (text.wordId next)
  prevTag := match neighbours data idx with
    | none => .missing
    | some (prev, _) => .tag prev.tag

/-- The attributes of the recogniser. A row that was appended and not filled in is empty. -/
structure Processor where
  X : List (Option FeatureRow)
  trainWords : Finset ℤ
  trainSamplesNo : ℕ
  testASamplesNo : ℕ
  testBSamplesNo : ℕ

def Processor.new : Processor where
  X := []
  trainWords := ∅
  trainSamplesNo := 0
  testASamplesNo := 0
  testBSamplesNo := 0

/-- One turn: every key of the row at the index is assigned, whatever the row held. There is
such a row, since every turn appends one. -/
def buildRow (text : Text) (data : List Sample) (isTrain : Bool) (s : Processor)
    (idx : Fin data.length) : Processor :=
  let wordId := text.wordId (data.get idx)
  let adds := isTrain ∧ wordId ≠ -1
  let trainWords := if adds then insert wordId s.trainWords else s.trainWords
  let rowId := if adds then wordId else if wordId ∈ s.trainWords then wordId else -1
  { s with
    X := (s.X ++ [none]).set idx.val (some (featureRow text data trainWords rowId idx))
    trainWords := trainWords }

/-- `__build_features`. -/
def buildRows (text : Text) (data : List Sample) (isTrain : Bool) (s : Processor) : Processor :=
  (List.finRange data.length).foldl (buildRow text data isTrain) s

/-- `build_features`. -/
def buildFeatures (text : Text) (trainData testAData testBData : List Sample) (s : Processor) :
    Processor :=
  let s := buildRows text trainData true s
  let s := { s with trainSamplesNo := trainData.length }
  let s := buildRows text testAData false s
  let s := { s with testASamplesNo := testAData.length }
  let s := buildRows text testBData false s
  { s with testBSamplesNo := testBData.length }

/-! ## What a call does -/

/-- The known words after some turns. -/
def knownAfter (text : Text) (data : List Sample) (isTrain : Bool) (trainWords : Finset ℤ)
    (turns : ℕ) : Finset ℤ :=
  if isTrain then trainWords ∪ ((data.take turns).map text.wordId).toFinset.erase (-1)
  else trainWords

variable {text : Text} {data : List Sample} {isTrain : Bool} {trainWords : Finset ℤ}

theorem mem_knownAfter {turns : ℕ} {id : ℤ} :
    id ∈ knownAfter text data isTrain trainWords turns ↔
      id ∈ trainWords ∨ isTrain = true ∧ id ≠ -1 ∧
        ∃ sample ∈ data.take turns, text.wordId sample = id := by
  cases isTrain with
  | false => simp [knownAfter]
  | true =>
      rw [knownAfter, if_pos rfl, Finset.mem_union, Finset.mem_erase, List.mem_toFinset,
        List.mem_map, and_iff_right rfl]

/-- One more turn of the training call makes one more word known. -/
theorem knownAfter_succ (idx : Fin data.length) :
    knownAfter text data isTrain trainWords (idx.val + 1) =
      if isTrain ∧ text.wordId (data.get idx) ≠ -1 then
        insert (text.wordId (data.get idx)) (knownAfter text data isTrain trainWords idx.val)
      else knownAfter text data isTrain trainWords idx.val := by
  have htake : data.take (idx.val + 1) = data.take idx.val ++ [data.get idx] :=
    (List.take_append_getElem idx.isLt).symm
  ext id
  split
  · rename_i hadds
    simp only [Finset.mem_insert, mem_knownAfter, htake, List.mem_append, List.mem_singleton]
    grind
  · rename_i hadds
    simp only [mem_knownAfter, htake, List.mem_append, List.mem_singleton]
    grind

/-- The row that the turn for an index fills in. -/
def rowAt (text : Text) (data : List Sample) (isTrain : Bool) (trainWords : Finset ℤ)
    (idx : Fin data.length) : FeatureRow :=
  let known := knownAfter text data isTrain trainWords (idx.val + 1)
  featureRow text data known (neighbourId known (text.wordId (data.get idx))) idx

/-- The state after some turns of a call: as many rows were appended, and as many of the rows
from the first one on were filled in. -/
structure BuiltUpTo (text : Text) (data : List Sample) (isTrain : Bool) (s : Processor)
    (turns : ℕ) (t : Processor) : Prop where
  trainWords : t.trainWords = knownAfter text data isTrain s.trainWords turns
  length : t.X.length = s.X.length + turns
  built : ∀ idx : Fin data.length, idx.val < turns →
    t.X[idx.val]? = some (some (rowAt text data isTrain s.trainWords idx))
  kept : ∀ position, turns ≤ position →
    t.X[position]? = (s.X ++ List.replicate turns none)[position]?

variable {s t : Processor}

theorem BuiltUpTo.zero : BuiltUpTo text data isTrain s 0 s where
  trainWords := by
    ext id
    simp [mem_knownAfter]
  length := rfl
  built idx hidx := absurd hidx (Nat.not_lt_zero _)
  kept position _ := by rw [List.replicate_zero, List.append_nil]

/-- The id that a turn writes: that of a known word. -/
theorem buildRow_X (idx : Fin data.length) :
    (buildRow text data isTrain s idx).X = (s.X ++ [none]).set idx.val
      (some (featureRow text data (buildRow text data isTrain s idx).trainWords
        (neighbourId (buildRow text data isTrain s idx).trainWords
          (text.wordId (data.get idx))) idx)) := by
  have hid : neighbourId (buildRow text data isTrain s idx).trainWords
      (text.wordId (data.get idx)) =
        if isTrain ∧ text.wordId (data.get idx) ≠ -1 then text.wordId (data.get idx)
        else if text.wordId (data.get idx) ∈ s.trainWords then text.wordId (data.get idx)
        else -1 := by
    rw [neighbourId, buildRow]
    split
    · rename_i hadds
      rw [if_pos (.inl (Finset.mem_insert_self _ _))]
    · rename_i hadds
      split_ifs <;> grind
  rw [hid]
  rfl

/-- **One turn keeps this.** -/
theorem BuiltUpTo.step {idx : Fin data.length} (h : BuiltUpTo text data isTrain s idx.val t) :
    BuiltUpTo text data isTrain s (idx.val + 1) (buildRow text data isTrain t idx) := by
  have hknown : (buildRow text data isTrain t idx).trainWords =
      knownAfter text data isTrain s.trainWords (idx.val + 1) := by
    rw [knownAfter_succ, ← h.trainWords]
    rfl
  have hrow : (buildRow text data isTrain t idx).X = (t.X ++ [none]).set idx.val
      (some (rowAt text data isTrain s.trainWords idx)) := by
    rw [buildRow_X, hknown]
    rfl
  have hlength : (t.X ++ [none]).length = s.X.length + (idx.val + 1) := by
    rw [List.length_append, h.length]
    rfl
  refine ⟨hknown, ?_, fun other hother => ?_, fun position hposition => ?_⟩
  · rw [hrow, List.length_set, hlength]
  · rw [hrow]
    rcases Nat.lt_succ_iff_lt_or_eq.mp hother with hlt | heq
    · rw [List.getElem?_set_ne (by omega), List.getElem?_append_left (by rw [h.length]; omega)]
      exact h.built other hlt
    · rw [Fin.ext heq, List.getElem?_set_self (by omega)]
  · have hsame : s.X.length + idx.val = (s.X ++ List.replicate idx.val none).length := by
      rw [List.length_append, List.length_replicate]
    rw [hrow, List.getElem?_set_ne (by omega), List.replicate_succ', ← List.append_assoc]
    rcases Nat.lt_or_ge position t.X.length with hlt | hge
    · rw [List.getElem?_append_left hlt, h.kept position (by omega)]
      exact (List.getElem?_append_left (by rwa [← hsame, ← h.length])).symm
    · rw [List.getElem?_append_right hge,
        List.getElem?_append_right (by rw [← hsame, ← h.length]; exact hge), ← hsame, h.length]

/-- **What a whole call does.** -/
theorem builtUpTo_buildRows (text : Text) (data : List Sample) (isTrain : Bool) (s : Processor) :
    BuiltUpTo text data isTrain s data.length (buildRows text data isTrain s) :=
  foldl_finRange_invariant BuiltUpTo.zero fun _ _ h => h.step

end Ner

end Unbiased
