/-
# Reading the vocabulary from Python

`MongoUtils.load_vocabulary` asks the stored vocabulary for a field that the engine does
not write. The numbering that `ner_processor_custom` makes is not at fault: handed the
stems as they are stored, it would give them the engine's ids.
-/

import Unbiased.Store.VocabularyUpdate

namespace Unbiased

open Unbiased.Math

/-- Exceptions of the Python functions. -/
inductive PyError where
  /-- `find_one` found nothing, and `None` cannot be subscripted. -/
  | typeError
  | keyError (key : String)
  deriving DecidableEq

/-- A subscript of a document that `find_one` returned. -/
def subscript (doc : Option BsonDoc) (key : String) : Except PyError Bson :=
  match doc with
  | none => .error .typeError
  | some doc =>
    match doc.element key with
    | none => .error (.keyError key)
    | some value => .ok value

/-- `MongoUtils.load_vocabulary`. No value that the engine writes is `None`. -/
def MongoUtils.loadVocabulary (db : MongoDb) : Except PyError Bson :=
  subscript (db.getDocs "vocabulary").head? "words"

/-- Enter words into a dictionary under the indices from a first one on. Of equal words the
last one stays. -/
def enterWords (start : ℕ) (vocabulary : Bytes → Option ℕ) (words : List Bytes) :
    Bytes → Option ℕ :=
  (words.zipIdx start).foldl
    (fun vocabulary entry => Function.update vocabulary entry.1 (some entry.2)) vocabulary

/-- The dictionary that `ner_processor_custom` makes: each word with its index. -/
def numberWords (words : List Bytes) : Bytes → Option ℕ := enterWords 0 (fun _ => none) words

/-- What is loaded are the stems in the engine's order, and enumerating them gives the
engine's ids. -/
def NumbersAlike (loaded : Except PyError Bson) (vocab : Vocabulary) : Prop :=
  ∃ words : List Bytes, loaded = .ok (.array (words.map .utf8)) ∧
    (∀ i < vocab.stemsNo, ∃ stem, words[i]? = some stem ∧
      vocab.getStemId stem = some (Int32.ofNat i)) ∧
    ∀ stem ∈ vocab.stems, vocab.getStemId stem = (numberWords words stem).map Int32.ofNat

/-! ## What the numbering does -/

theorem enterWords_cons (start : ℕ) (vocabulary : Bytes → Option ℕ) (first : Bytes)
    (words : List Bytes) :
    enterWords start vocabulary (first :: words) =
      enterWords (start + 1) (Function.update vocabulary first (some start)) words := rfl

/-- Other words keep their entries. -/
theorem enterWords_of_notMem {words : List Bytes} {word : Bytes} (h : word ∉ words) (start : ℕ)
    (vocabulary : Bytes → Option ℕ) : enterWords start vocabulary words word = vocabulary word := by
  induction words generalizing start vocabulary with
  | nil => rfl
  | cons first words ih =>
      obtain ⟨hfirst, hrest⟩ := not_or.mp (mt List.mem_cons.mpr h)
      rw [enterWords_cons, ih hrest, Function.update_of_ne hfirst]

/-- Distinct words get their positions. -/
theorem enterWords_of_getElem? {words : List Bytes} (hnodup : words.Nodup) {position : ℕ}
    {word : Bytes} (h : words[position]? = some word) (start : ℕ)
    (vocabulary : Bytes → Option ℕ) :
    enterWords start vocabulary words word = some (start + position) := by
  induction words generalizing start vocabulary position with
  | nil => cases h
  | cons first words ih =>
      obtain ⟨hfresh, hrest⟩ := List.nodup_cons.mp hnodup
      rw [enterWords_cons]
      cases position with
      | zero =>
          obtain rfl := Option.some.inj h
          rw [enterWords_of_notMem hfresh, Function.update_self, Nat.add_zero]
      | succ position =>
          rw [ih hrest h, Nat.add_assoc, Nat.add_comm 1]

/-- **Enumerating the stems gives their ids.** -/
theorem numberWords_stems (vocab : Vocabulary) (stem : Bytes) :
    (numberWords vocab.stems.elems stem).map Int32.ofNat = vocab.getStemId stem := by
  by_cases hmem : stem ∈ vocab.stems
  · rw [Vocabulary.getStemId_of_mem hmem, numberWords,
      enterWords_of_getElem? vocab.stems.nodup (SortedSet.nth?_rank hmem), Nat.zero_add]
    rfl
  · rw [Vocabulary.getStemId_eq_none hmem, numberWords, enterWords_of_notMem hmem]
    rfl

/-- Under the name the engine gives it, the field holds what the numbering needs. -/
theorem numbersAlike_stems (oid : ObjectId) (vocab : Vocabulary) :
    NumbersAlike (subscript (some (vocab.storedDoc oid)) "stems") vocab := by
  refine ⟨vocab.stems.elems, rfl, fun i hi => ?_, fun stem _ => (numberWords_stems vocab stem).symm⟩
  have hstem := List.getElem?_eq_getElem hi
  obtain ⟨hmem, hrank⟩ := SortedSet.nth?_eq_some.mp hstem
  exact ⟨_, hstem, by rw [Vocabulary.getStemId_of_mem hmem, hrank]⟩

/-! ## What is loaded -/

/-- **The vocabulary is never loaded.** Its document has no field of the name asked for. -/
theorem loadVocabulary_never_numbers (newOid : ℕ → ObjectId) (db : MongoDb) (vocab : Vocabulary) :
    MongoUtils.loadVocabulary (saveVocabulary newOid db vocab) = .error (.keyError "words") ∧
      ¬ NumbersAlike (MongoUtils.loadVocabulary (saveVocabulary newOid db vocab)) vocab := by
  have hload : MongoUtils.loadVocabulary (saveVocabulary newOid db vocab) =
      .error (.keyError "words") := by
    rw [MongoUtils.loadVocabulary, MongoDb.getDocs, vocabulary_saveVocabulary]
    rfl
  refine ⟨hload, ?_⟩
  rintro ⟨words, hwords, -⟩
  rw [hload] at hwords
  cases hwords

/-- A vocabulary with one stem is not loaded. -/
theorem one_stem_not_loaded :
    ¬ ∀ (newOid : ℕ → ObjectId) (db : MongoDb) (vocab : Vocabulary),
      NumbersAlike (MongoUtils.loadVocabulary (saveVocabulary newOid db vocab)) vocab := by
  intro hall
  obtain ⟨words, hwords, -⟩ := hall (fun _ _ => 0) ⟨fun _ => [], 0⟩
    ((Vocabulary.fresh fun _ => 0).addStems (SortedSet.empty.insert [97, 97]))
  rw [MongoUtils.loadVocabulary, MongoDb.getDocs, vocabulary_saveVocabulary] at hwords
  cases hwords

end Unbiased
