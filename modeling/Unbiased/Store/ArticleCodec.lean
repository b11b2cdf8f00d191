/-
# Articles as BSON documents

The encoder and the decoders of processed articles. `fromBson_storedDoc` says what
decoding a stored article does: everything is read back, but only up to the stem
ids. These are written as `int32` and read as doubles, so the first one throws.
-/

import Mathlib.Data.List.OfFn
import Unbiased.Common.Article
import Unbiased.Store.Bson

namespace Unbiased

/-! ## Signatures -/

/-- Signature components are written as `int64`. -/
def signatureElems (signature : Signature) : List Bson :=
  (List.ofFn signature).map fun elem => .int64 elem.toInt64

/-- Write one element of a stored signature at the running index. The value is cut to
`uint32_t` and assigned to an `int32_t`. -/
def readSignatureElem (state : ℕ × Signature) (elem : Bson) :
    Except BsonError (ℕ × Signature) := do
  let value ← Bson.getInt64 (some elem)
  if h : state.1 < signatureSize then
    .ok (state.1 + 1, Function.update state.2 ⟨state.1, h⟩ value.toUInt64.toUInt32.toInt32)
  else .error .outOfBounds

/-- Read an array into a signature. Components the array is too short for keep
what they held. -/
def readSignature (signature : Signature) (elems : List Bson) : Except BsonError Signature :=
  (elems.foldlM readSignatureElem (0, signature)).map Prod.snd

/-- Cutting a widened component back to 32 bits gives the component. -/
theorem toInt32_toUInt64_toInt64 (elem : Int32) :
    elem.toInt64.toUInt64.toUInt32.toInt32 = elem := by
  apply Int32.toBitVec_inj.mp
  show BitVec.setWidth 32 (elem.toBitVec.signExtend 64) = elem.toBitVec
  apply BitVec.eq_of_getLsbD_eq
  intro bit hbit
  rw [BitVec.getLsbD_setWidth, BitVec.getLsbD_signExtend]
  simp [hbit, show bit < 64 by omega]

theorem readSignatureElem_int64 {idx : ℕ} (hidx : idx < signatureSize) (signature : Signature)
    (elem : Int32) :
    readSignatureElem (idx, signature) (.int64 elem.toInt64) =
      .ok (idx + 1, Function.update signature ⟨idx, hidx⟩ elem) := by
  show (if h : idx < signatureSize then _ else _ : Except BsonError (ℕ × Signature)) = _
  rw [dif_pos hidx, toInt32_toUInt64_toInt64]

/-- The loop writes the values one after the other, starting at the index. -/
theorem foldlM_readSignatureElem (values : List Int32) (idx : ℕ) (signature : Signature)
    (hfits : idx + values.length ≤ signatureSize) :
    ∃ read : Signature,
      (values.map fun elem => Bson.int64 elem.toInt64).foldlM readSignatureElem (idx, signature) =
        .ok (idx + values.length, read) ∧
      ∀ slot : Fin signatureSize, read slot =
        if idx ≤ slot.val then values[slot.val - idx]?.getD (signature slot)
        else signature slot := by
  induction values generalizing idx signature with
  | nil =>
      refine ⟨signature, rfl, fun slot => ?_⟩
      simp
  | cons value values ih =>
      rw [List.length_cons] at hfits
      have hidx : idx < signatureSize := by omega
      obtain ⟨read, hread, hslots⟩ := ih (idx + 1)
        (Function.update signature ⟨idx, hidx⟩ value) (by omega)
      refine ⟨read, ?_, fun slot => ?_⟩
      · rw [List.map_cons, List.foldlM_cons, readSignatureElem_int64 hidx]
        show List.foldlM readSignatureElem _ _ = _
        rw [hread, List.length_cons, Nat.add_assoc, Nat.add_comm 1]
      · rw [hslots]
        by_cases hslot : slot.val = idx
        · have hself : slot = ⟨idx, hidx⟩ := Fin.ext hslot
          simp [hself]
        · have hne : slot ≠ ⟨idx, hidx⟩ := fun heq => hslot (congrArg Fin.val heq)
          rw [Function.update_of_ne hne]
          by_cases hle : idx + 1 ≤ slot.val
          · have hsub : slot.val - idx = slot.val - (idx + 1) + 1 := by omega
            rw [if_pos hle, if_pos (by omega), hsub, List.getElem?_cons_succ]
          · rw [if_neg hle, if_neg (by omega)]

/-- A stored signature reads back, whatever the array held before. -/
@[simp]
theorem readSignature_signatureElems (uninitialised signature : Signature) :
    readSignature uninitialised (signatureElems signature) = .ok signature := by
  obtain ⟨read, hread, hslots⟩ := foldlM_readSignatureElem (List.ofFn signature) 0 uninitialised
    (by rw [List.length_ofFn, Nat.zero_add])
  have heq : read = signature := by
    funext slot
    rw [hslots, if_pos (Nat.zero_le _), Nat.sub_zero, List.getElem?_ofFn, dif_pos slot.isLt]
    rfl
  rw [readSignature, signatureElems, hread, heq]
  rfl

/-! ## The encoder and the decoders -/

/-- `to_bson` of a processed article. -/
def ProcessedArticle.toBson (article : ProcessedArticle) : BsonDoc := [
  ("url", .utf8 article.metaData.url),
  ("title", .utf8 article.metaData.title),
  ("date", .utf8 article.metaData.date),
  ("source", .utf8 article.metaData.source),
  ("unknown_tokens_no", .int32 article.unknownTokensNo),
  ("authors", .array (article.metaData.authors.map .utf8)),
  ("length", .int64 article.length.toInt64),
  ("signature", .array (signatureElems article.signature)),
  ("stem_ids", .array (article.stemIds.map .int32)),
  ("entities", .array (article.entities.map .utf8))]

/-- The conversion of a double to `int32_t`, which drops the fraction. -/
def doubleToInt32 (value : ℚ) : Int32 :=
  Int32.ofInt (if 0 ≤ value then ⌊value⌋ else ⌈value⌉)

/-- `from_bson` into a processed article. -/
def ProcessedArticle.fromBson (doc : BsonDoc) (article : ProcessedArticle) :
    Except BsonError ProcessedArticle := do
  let id ← Bson.getOid (doc.element "_id")
  let url ← Bson.getUtf8 (doc.element "url")
  let title ← Bson.getUtf8 (doc.element "title")
  let date ← Bson.getUtf8 (doc.element "date")
  let source ← Bson.getUtf8 (doc.element "source")
  let length ← Bson.getInt64 (doc.element "length")
  let authorsArray ← Bson.getArray (doc.element "authors")
  let authors ← pushBackAll (fun elem => Bson.getUtf8 (some elem)) article.metaData.authors
    authorsArray
  let sigArray ← Bson.getArray (doc.element "signature")
  let signature ← readSignature article.signature sigArray
  let stemIdsArray ← Bson.getArray (doc.element "stem_ids")
  let stemIds ← pushBackAll (fun elem => (Bson.getDouble (some elem)).map doubleToInt32)
    article.stemIds stemIdsArray
  let entitiesArray ← Bson.getArray (doc.element "entities")
  let entities ← pushBackAll (fun elem => Bson.getUtf8 (some elem)) article.entities
    entitiesArray
  .ok { article with
    signature := signature
    stemIds := stemIds
    entities := entities
    length := length.toUInt64
    metaData := ⟨id.toString, url, title, date, source, authors⟩ }

/-- `from_bson` into an id and a signature. -/
def artSigFromBson (doc : BsonDoc) (artSig : Bytes × Signature) :
    Except BsonError (Bytes × Signature) := do
  let id ← Bson.getOid (doc.element "_id")
  let sigArray ← Bson.getArray (doc.element "signature")
  let signature ← readSignature artSig.2 sigArray
  .ok (id.toString, signature)

/-- `from_bson` into an id and a date. -/
def artDateFromBson (doc : BsonDoc) (_artDate : Bytes × Bytes) :
    Except BsonError (Bytes × Bytes) := do
  let id ← Bson.getOid (doc.element "_id")
  let date ← Bson.getUtf8 (doc.element "date")
  .ok (id.toString, date)

/-- A stored document: the encoded article under a generated id. -/
def ProcessedArticle.storedDoc (oid : ObjectId) (article : ProcessedArticle) : BsonDoc :=
  ("_id", .oid oid) :: article.toBson

/-! ## Reading a stored article back -/

namespace ProcessedArticle

/-- The fields of two articles that are stored agree. -/
structure SameStored (first second : ProcessedArticle) : Prop where
  url : first.metaData.url = second.metaData.url
  title : first.metaData.title = second.metaData.title
  date : first.metaData.date = second.metaData.date
  source : first.metaData.source = second.metaData.source
  authors : first.metaData.authors = second.metaData.authors
  length : first.length = second.length
  signature : first.signature = second.signature
  stemIds : first.stemIds = second.stemIds
  entities : first.entities = second.entities

/-- **Decoding a stored article.** Without stem ids everything that was stored is
read back; the first stem id throws, because it is not a double. -/
theorem fromBson_storedDoc (oid : ObjectId) (article : ProcessedArticle)
    (uninitialised : Signature) :
    fromBson (article.storedDoc oid) (fresh uninitialised) =
      if article.stemIds = [] then
        .ok { fresh uninitialised with
          signature := article.signature
          entities := article.entities
          length := article.length
          metaData := { article.metaData with id := oid.toString } }
      else .error (.needElementType .double) := by
  have hauthors : pushBackAll (fun elem => Bson.getUtf8 (some elem)) []
      (article.metaData.authors.map .utf8) = .ok article.metaData.authors :=
    pushBackAll_map Bson.utf8 (fun _ => rfl) [] article.metaData.authors
  have hentities : pushBackAll (fun elem => Bson.getUtf8 (some elem)) []
      (article.entities.map .utf8) = .ok article.entities :=
    pushBackAll_map Bson.utf8 (fun _ => rfl) [] article.entities
  cases hstemIds : article.stemIds with
  | nil =>
      have hnone : pushBackAll (fun elem => (Bson.getDouble (some elem)).map doubleToInt32)
          [] [] = .ok [] := rfl
      simp [fromBson, storedDoc, toBson, BsonDoc.element, List.lookup, fresh,
        ArticleMetaData.fresh, hauthors, hentities, hstemIds, hnone]
  | cons stemId stemIds =>
      have hfirst : pushBackAll (fun elem => (Bson.getDouble (some elem)).map doubleToInt32)
          [] (.int32 stemId :: stemIds.map .int32) = .error (.needElementType .double) :=
        pushBackAll_error rfl _ _
      simp [fromBson, storedDoc, toBson, BsonDoc.element, List.lookup, fresh,
        ArticleMetaData.fresh, hauthors, hstemIds, hfirst]

/-- A stored article is read back unchanged exactly if it has no stem ids. -/
theorem roundTrip_iff (oid : ObjectId) (article : ProcessedArticle) (uninitialised : Signature) :
    (∃ read, fromBson (article.storedDoc oid) (fresh uninitialised) = .ok read ∧
      SameStored read article) ↔ article.stemIds = [] := by
  rw [fromBson_storedDoc]
  by_cases hstemIds : article.stemIds = []
  · rw [if_pos hstemIds]
    refine ⟨fun _ => hstemIds, fun _ => ⟨_, rfl, rfl, rfl, rfl, rfl, rfl, rfl, rfl, ?_, rfl⟩⟩
    exact hstemIds.symm
  · rw [if_neg hstemIds]
    refine ⟨?_, fun hnone => absurd hnone hstemIds⟩
    rintro ⟨read, hread, -⟩
    cases hread

/-- An article with one recorded stem cannot be read back. -/
theorem stored_stem_not_read :
    ¬ ∀ (oid : ObjectId) (article : ProcessedArticle) (uninitialised : Signature),
      ∃ read, fromBson (article.storedDoc oid) (fresh uninitialised) = .ok read ∧
        SameStored read article := by
  intro hall
  have hstemIds : ((fresh fun _ => 0).recordStem 0 0).stemIds ≠ [] := List.cons_ne_nil _ _
  cases hall (fun _ => 0) ((fresh fun _ => 0).recordStem 0 0) fun _ => 0 with
  | intro read hread =>
      rw [fromBson_storedDoc, if_neg hstemIds] at hread
      cases hread.1

end ProcessedArticle

end Unbiased
