/-
# The vocabulary as a BSON document

The encoder writes the stems, the counts and the stop words. The decoder reads
the stems only, so a decoded vocabulary agrees with the encoded one exactly if
there was nothing else to read.
-/

import Unbiased.Clustering.ArticleParser
import Unbiased.Store.Bson

namespace Unbiased

open Unbiased.Math

namespace Vocabulary

/-- Counts are written as `int64`. -/
def freqElems (vocab : Vocabulary) : List Bson :=
  vocab.getStemsFreq.map fun wordFreq => .int64 wordFreq.toInt64

/-- `to_bson` of a vocabulary: all of it, or the counts only. -/
def toBson (vocab : Vocabulary) (onlyFreq : Bool) : BsonDoc :=
  if onlyFreq then [("stems_freq", .array vocab.freqElems)]
  else [
    ("stems", .array (vocab.stems.elems.map .utf8)),
    ("stems_freq", .array vocab.freqElems),
    ("stop_words", .array (vocab.stopWords.elems.map .utf8))]

/-- Insert one element of the stems array. -/
def insertStem (stems : SortedSet Bytes) (word : Bson) : Except BsonError (SortedSet Bytes) :=
  (Bson.getUtf8 (some word)).map fun stem => stems.insert stem

/-- `from_bson` into a vocabulary. -/
def fromBson (doc : BsonDoc) (vocab : Vocabulary) : Except BsonError Vocabulary := do
  let wordsArray ← Bson.getArray (doc.element "stems")
  let stems ← wordsArray.foldlM insertStem SortedSet.empty
  .ok (vocab.addStems stems)

theorem foldlM_insertStem (words : List Bytes) (stems : SortedSet Bytes) :
    (words.map Bson.utf8).foldlM insertStem stems =
      .ok (words.foldl (fun stems word => stems.insert word) stems) := by
  induction words generalizing stems with
  | nil => rfl
  | cons word words ih =>
      rw [List.map_cons, List.foldlM_cons]
      exact ih (stems.insert word)

/-- Only the stems of a document are read. -/
theorem fromBson_of_stems {doc : BsonDoc} {stems : SortedSet Bytes}
    (h : doc.element "stems" = some (.array (stems.elems.map .utf8))) (target : Vocabulary) :
    fromBson doc target = .ok (target.addStems stems) := by
  have hstems := foldlM_insertStem stems.elems SortedSet.empty
  have hlist : stems.elems.foldl (fun stems word => stems.insert word) SortedSet.empty = stems :=
    SortedSet.ofList_elems stems
  rw [hlist] at hstems
  rw [fromBson, h, Bson.getArray_array, ok_bind, hstems, ok_bind]

/-- **Decoding an encoded vocabulary** adds its stems and nothing else. -/
theorem fromBson_toBson (vocab target : Vocabulary) :
    fromBson (vocab.toBson false) target = .ok (target.addStems vocab.stems) :=
  fromBson_of_stems rfl target

/-- Two vocabularies answer alike: about stop words, stems and ids of any string,
and about the stem and the count of every id below the number of stems. -/
structure Agrees (first second : Vocabulary) : Prop where
  isStopWord : ∀ word, first.isStopWord word = second.isStopWord word
  isValidStem : ∀ stem, first.isValidStem stem = second.isValidStem stem
  getStemId : ∀ stem, first.getStemId stem = second.getStemId stem
  getStem : ∀ id : StemId, 0 ≤ id.toInt → id.toInt.toNat < second.stemsNo →
    first.getStem id = second.getStem id
  getStemFreq : ∀ id : StemId, 0 ≤ id.toInt → id.toInt.toNat < second.stemsNo →
    first.getStemFreq id = second.getStemFreq id

theorem addStems_fresh_stems (stemsFreq : Fin maxStemsNo → Int32) (stems : SortedSet Bytes) :
    ((fresh stemsFreq).addStems stems).stems = stems := by
  ext stem
  rw [addStems_stems, SortedSet.mem_union]
  exact or_iff_right (SortedSet.notMem_empty stem)

/-- What is lost on the way: stop words, and every count of a stem. -/
theorem agrees_addStems_fresh_iff (vocab : Vocabulary) :
    ((fresh fun _ => 0).addStems vocab.stems).Agrees vocab ↔
      (∀ word, word ∉ vocab.stopWords) ∧
        ∀ slot : Fin maxStemsNo, slot.val < vocab.stemsNo → vocab.stemsFreq slot = 0 := by
  have hstems := addStems_fresh_stems (fun _ => 0) vocab.stems
  refine ⟨fun hagrees => ⟨fun word hword => ?_, fun slot hslot => ?_⟩, fun hlost => ?_⟩
  · have hstop := hagrees.isStopWord word
    rw [isStopWord, isStopWord, decide_eq_decide] at hstop
    exact UnorderedSet.notMem_empty word (hstop.mpr hword)
  · have hint := toInt_ofNat_of_lt_maxStemsNo slot.isLt
    have hfreq := hagrees.getStemFreq (Int32.ofNat slot.val)
      (by rw [hint]; exact Int.natCast_nonneg _) (by rwa [hint])
    rw [getStemFreq, getStemFreq, slot?_ofNat slot.isLt] at hfreq
    exact (Option.some.inj hfreq).symm
  · refine ⟨fun word => ?_, fun stem => ?_, fun stem => ?_, fun id _ _ => ?_, fun id _ hid => ?_⟩
    · rw [isStopWord, isStopWord, decide_eq_decide]
      exact iff_of_false (UnorderedSet.notMem_empty word) (hlost.1 word)
    · rw [isValidStem, isValidStem, hstems]
    · rw [getStemId, getStemId, hstems]
    · rw [getStem, getStem, hstems]
    · rw [getStemFreq, getStemFreq]
      cases hslot : slot? id with
      | none => rfl
      | some slot =>
          have hposition : slot.val < vocab.stemsNo := by
            rwa [eq_ofNat_of_slot? hslot, toInt_ofNat_of_lt_maxStemsNo slot.isLt] at hid
          exact congrArg some (hlost.2 slot hposition).symm

/-- A change the engine makes to a vocabulary. -/
inductive Call where
  | addStems (stems : SortedSet Bytes)
  | processTokens (collect : Bool) (article : Article) (processedArticle : ProcessedArticle)

/-- The vocabulary after one change. -/
def applyCall (text : TextOps) (vocab : Vocabulary) : Call → Option Vocabulary
  | .addStems stems => some (vocab.addStems stems)
  | .processTokens collect article processedArticle =>
      (Unbiased.processTokens text collect vocab article processedArticle).map Prod.fst

/-- A decoded vocabulary agrees with the encoded one exactly if that one has no
stop words and no count other than zero at the id of a stem. -/
theorem roundTrip_agrees_iff (vocab : Vocabulary) :
    (∃ read, fromBson (vocab.toBson false) (fresh fun _ => 0) = .ok read ∧ read.Agrees vocab) ↔
      (∀ word, word ∉ vocab.stopWords) ∧
        ∀ slot : Fin maxStemsNo, slot.val < vocab.stemsNo → vocab.stemsFreq slot = 0 := by
  rw [fromBson_toBson, ← agrees_addStems_fresh_iff]
  refine ⟨?_, fun hagrees => ⟨_, rfl, hagrees⟩⟩
  rintro ⟨read, hread, hagrees⟩
  cases hread
  exact hagrees

/-- After one article about a known stem, the count of that stem is not decoded. -/
theorem count_not_decoded :
    ¬ ∀ (text : TextOps) (wordsFile stopwordsFile : Option Bytes) (start vocab : Vocabulary)
      (calls : List Call), ofFiles text wordsFile stopwordsFile (fun _ => 0) = some start →
        run (applyCall text) start calls = some vocab →
        ∃ read, fromBson (vocab.toBson false) (fresh fun _ => 0) = .ok read ∧
          read.Agrees vocab := by
  intro hall
  have hcount : (((ofFiles letterText (some [97, 97]) (some []) fun _ => 0).bind fun start =>
      run (applyCall letterText) start [.addStems (SortedSet.empty.insert [97, 97]),
        .processTokens true (letterArticle [97]) (.fresh fun _ => 0)]).bind fun vocab =>
          if vocab.stemsNo = 1 then vocab.getStemFreq 0 else none) = some 1 := by
    decide +kernel
  obtain ⟨vocab, hvocab, hfreq⟩ := Option.bind_eq_some_iff.mp hcount
  obtain ⟨start, hstart, hrun⟩ := Option.bind_eq_some_iff.mp hvocab
  obtain ⟨read, hread, hagrees⟩ := hall letterText _ _ start vocab _ hstart hrun
  rw [fromBson_toBson] at hread
  cases hread
  have hzero := ((agrees_addStems_fresh_iff vocab).mp hagrees).2 ⟨0, by decide⟩
  split at hfreq
  · rename_i hsize
    rw [getStemFreq, show slot? 0 = some ⟨0, by decide⟩ from slot?_ofNat (by decide)] at hfreq
    have hone := Option.some.inj hfreq
    rw [hzero (by rw [hsize]; exact Nat.zero_lt_one)] at hone
    exact absurd hone (by decide)
  · cases hfreq

end Vocabulary

end Unbiased
