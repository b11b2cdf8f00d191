/-
# Updating the stored frequencies

`update_vocab_freq` leaves the key and the value of the document to be updated at their
defaults. Reading with these is reading everything, but updating with them asks for a
document with an empty string under the empty key. The stored vocabulary is no such
document, so its frequencies stay as they were saved.
-/

import Unbiased.Store.Queries

namespace Unbiased

open Unbiased.Math

/-- `update_vocab_freq`, with the defaults of `update_doc`. -/
def updateVocabFreq (db : MongoDb) (vocab : Vocabulary) : MongoDb :=
  db.updateDoc "vocabulary" (vocab.toBson true) "" []

/-- A stored vocabulary: the encoded one under a generated id. -/
def Vocabulary.storedDoc (oid : ObjectId) (vocab : Vocabulary) : BsonDoc :=
  ("_id", .oid oid) :: vocab.toBson false

/-- Saving a vocabulary leaves one document. -/
theorem vocabulary_saveVocabulary (newOid : ℕ → ObjectId) (db : MongoDb) (vocab : Vocabulary) :
    (saveVocabulary newOid db vocab).collections "vocabulary" =
      [vocab.storedDoc (newOid db.inserted)] := by
  rw [saveVocabulary, collections_saveDoc, Function.update_self]
  simp [MongoDb.dropCollection, Vocabulary.storedDoc]

/-- The stored vocabulary does not meet the filter of the update. -/
theorem holds_storedDoc_empty_key (oid : ObjectId) (vocab : Vocabulary) :
    (Filter.equals "" []).holds (vocab.storedDoc oid) = false := by
  have hmissing : BsonDoc.element (vocab.storedDoc oid) "" = none := rfl
  rw [Filter.holds, Filter.keyEquals, hmissing]

/-- The frequencies as they are written tell them apart. -/
theorem Vocabulary.freqElems_inj {first second : Vocabulary} :
    first.freqElems = second.freqElems ↔ first.stemsFreq = second.stemsFreq := by
  constructor
  · intro h
    funext slot
    have hslot := congrArg (fun elems => elems[slot.val]?) h
    simp only [freqElems, getStemsFreq, List.getElem?_map, List.getElem?_ofFn, slot.isLt,
      dif_pos, Option.map_some, Option.some.injEq, Bson.int64.injEq] at hslot
    exact toUInt64_toInt64_inj (by simpa using congrArg Int64.toUInt64 hslot)
  · intro h
    rw [freqElems, freqElems, getStemsFreq, getStemsFreq, h]

/-- The documents returned are one document that has these frequencies, and the stems and the
stop words of the vocabulary that was saved. -/
def FrequenciesStored (db : MongoDb) (saved current : Vocabulary) : Prop :=
  ∃ doc : BsonDoc, db.getDocs "vocabulary" = [doc] ∧
    doc.element "stems_freq" = some (.array current.freqElems) ∧
    doc.element "stems" = some (.array (saved.stems.elems.map .utf8)) ∧
    doc.element "stop_words" = some (.array (saved.stopWords.elems.map .utf8))

variable {newOid : ℕ → ObjectId} {db later : MongoDb} {vocab : Vocabulary}

/-- **The update is lost.** -/
theorem getDocs_updateVocabFreq
    (hlater : later.collections "vocabulary" =
      (saveVocabulary newOid db vocab).collections "vocabulary") (current : Vocabulary) :
    (updateVocabFreq later current).getDocs "vocabulary" =
      [vocab.storedDoc (newOid db.inserted)] := by
  rw [vocabulary_saveVocabulary] at hlater
  have hunmet : ∀ doc ∈ later.collections "vocabulary",
      (Filter.equals "" []).holds doc = false := by
    intro doc hdoc
    rw [hlater] at hdoc
    rw [List.mem_singleton.mp hdoc]
    exact holds_storedDoc_empty_key _ _
  simp only [MongoDb.getDocs, updateVocabFreq, MongoDb.updateDoc, Function.update_self]
  rw [MongoDb.updateFirst_of_forall_false hunmet, hlater]

/-- **A frequency update reaches the store** exactly if there was nothing to update: the
frequencies are those that were saved. -/
theorem frequenciesStored_iff
    (hlater : later.collections "vocabulary" =
      (saveVocabulary newOid db vocab).collections "vocabulary") (current : Vocabulary) :
    FrequenciesStored (updateVocabFreq later current) vocab current ↔
      current.stemsFreq = vocab.stemsFreq := by
  rw [FrequenciesStored, getDocs_updateVocabFreq hlater, ← Vocabulary.freqElems_inj]
  have hfreq : BsonDoc.element (vocab.storedDoc (newOid db.inserted)) "stems_freq" =
      some (.array vocab.freqElems) := rfl
  constructor
  · rintro ⟨doc, hdoc, hcurrent, -⟩
    rw [← List.singleton_inj.mp hdoc, hfreq] at hcurrent
    exact (Bson.array.inj (Option.some.inj hcurrent)).symm
  · intro hsame
    rw [hsame]
    exact ⟨_, rfl, hfreq, rfl, rfl⟩

/-- The stems `aa` and `bb`, found in one and in four articles, and a stop word. -/
def countedVocabulary : Vocabulary :=
  { (Vocabulary.fresh fun slot => if slot.val = 0 then 1 else if slot.val = 1 then 4 else 0) with
    stems := (SortedSet.empty.insert [97, 97]).insert [98, 98]
    stopWords := UnorderedSet.ofList [[97]]
    freqStemsNo := 1 }

/-- Saved and updated at once, with no frequency changed. -/
theorem frequenciesStored_unchanged :
    FrequenciesStored (updateVocabFreq (saveVocabulary (fun _ _ => 0) ⟨fun _ => [], 0⟩
      countedVocabulary) countedVocabulary) countedVocabulary countedVocabulary :=
  (@frequenciesStored_iff (fun _ _ => 0) ⟨fun _ => [], 0⟩ _ _ rfl _).mpr rfl

/-- After one article about its only stem was counted, the new frequency is not stored. -/
theorem frequency_not_stored :
    ¬ ∀ (newOid : ℕ → ObjectId) (db : MongoDb) (vocab current : Vocabulary)
      (stemIds : List StemId), run Vocabulary.increaseStemFreq vocab stemIds = some current →
        current.stems = vocab.stems → current.stopWords = vocab.stopWords →
          FrequenciesStored (updateVocabFreq (saveVocabulary newOid db vocab) current) vocab
            current := by
  intro hall
  let vocab := (Vocabulary.fresh fun _ => 0).addStems (SortedSet.empty.insert [97, 97])
  obtain ⟨current, hcount⟩ : ∃ current, vocab.increaseStemFreq 0 = some current := ⟨_, rfl⟩
  have hrun : run Vocabulary.increaseStemFreq vocab [0] = some current := by
    rw [run_cons, hcount]
    rfl
  obtain ⟨slot, -, hcurrent⟩ := Vocabulary.increaseStemFreq_eq_some.mp hcount
  obtain ⟨doc, hdoc, hfreq, -⟩ := hall (fun _ _ => 0) ⟨fun _ => [], 0⟩ vocab current [0] hrun
    (by rw [hcurrent]) (by rw [hcurrent])
  rw [getDocs_updateVocabFreq rfl] at hdoc
  rw [← List.singleton_inj.mp hdoc] at hfreq
  have hsame := Vocabulary.freqElems_inj.mp (Bson.array.inj (Option.some.inj hfreq))
  have hslot : vocab.stemsFreq slot = vocab.stemsFreq slot + 1 := by
    conv_lhs => rw [hsame, hcurrent]
    exact Function.update_self _ _ _
  exact absurd hslot (show ¬ (0 : Int32) = 0 + 1 by decide)

end Unbiased
