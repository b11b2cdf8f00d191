/-
# The document store

A database is a list of documents for each collection name. Inserting a
document puts a generated object id in front of its fields; the generator is a
parameter, indexed by the number of insertions so far.
-/

import Unbiased.Store.ArticleCodec
import Unbiased.Store.VocabularyCodec

namespace Unbiased

open Unbiased.Math

structure MongoDb where
  /-- The documents of each collection, oldest first. -/
  collections : String → List BsonDoc
  /-- The number of documents inserted so far. -/
  inserted : ℕ

namespace MongoDb

/-- Insert a document and return its id. -/
def saveDoc (newOid : ℕ → ObjectId) (db : MongoDb) (collectStr : String) (doc : BsonDoc) :
    Bytes × MongoDb :=
  let oid := newOid db.inserted
  (oid.toString, {
    collections := Function.update db.collections collectStr
      (db.collections collectStr ++ [("_id", .oid oid) :: doc])
    inserted := db.inserted + 1 })

def dropCollection (db : MongoDb) (collectStr : String) : MongoDb :=
  { db with collections := Function.update db.collections collectStr [] }

/-- All documents of a collection. -/
def getDocs (db : MongoDb) (collectStr : String) : List BsonDoc := db.collections collectStr

/-- All documents of a collection, with the given fields only. -/
def getFields (db : MongoDb) (collectStr : String) (fields : List String) : List BsonDoc :=
  (db.collections collectStr).map fun doc => doc.filter fun field => field.1 ∈ fields

end MongoDb

/-! ## Helpers of the engine -/

def saveVocabulary (newOid : ℕ → ObjectId) (db : MongoDb) (vocab : Vocabulary) : MongoDb :=
  ((db.dropCollection "vocabulary").saveDoc newOid "vocabulary" (vocab.toBson false)).2

/-- Why loading a vocabulary fails. -/
inductive LoadError where
  /-- There is no document, and reading the first one is undefined. -/
  | noDocument
  | bson (error : BsonError)
  deriving DecidableEq

/-- Decode the first vocabulary document. -/
def loadVocabulary (db : MongoDb) (vocab : Vocabulary) : Except LoadError Vocabulary :=
  match db.getDocs "vocabulary" with
  | [] => .error .noDocument
  | doc :: _ => (Vocabulary.fromBson doc vocab).mapError .bson

def saveArticle (newOid : ℕ → ObjectId) (db : MongoDb) (art : ProcessedArticle) :
    Bytes × MongoDb :=
  db.saveDoc newOid "articles" art.toBson

def saveInvalidUrl (newOid : ℕ → ObjectId) (db : MongoDb) (url : Bytes) : MongoDb :=
  (db.saveDoc newOid "invalid_urls" [("url", .utf8 url)]).2

/-- The ids and signatures of all stored articles. Each pair is decoded into one
whose members are empty and zero. -/
def loadArticlesSignatures (db : MongoDb) : Except BsonError (List (Bytes × Signature)) :=
  (db.getFields "articles" ["_id", "signature"]).mapM fun doc => artSigFromBson doc ([], fun _ => 0)

/-! ## What they do -/

@[simp]
theorem collections_saveDoc (newOid : ℕ → ObjectId) (db : MongoDb) (collectStr : String)
    (doc : BsonDoc) :
    (db.saveDoc newOid collectStr doc).2.collections = Function.update db.collections collectStr
      (db.collections collectStr ++ [("_id", .oid (newOid db.inserted)) :: doc]) := rfl

/-- Storing an invalid address leaves the other collections as they are. -/
theorem collections_saveInvalidUrl {newOid : ℕ → ObjectId} {db : MongoDb} {url : Bytes}
    {collectStr : String} (h : collectStr ≠ "invalid_urls") :
    (saveInvalidUrl newOid db url).collections collectStr = db.collections collectStr := by
  rw [saveInvalidUrl, collections_saveDoc, Function.update_of_ne h]

/-- Storing an article appends one document to the articles. -/
@[simp]
theorem articles_saveArticle (newOid : ℕ → ObjectId) (db : MongoDb) (art : ProcessedArticle) :
    (saveArticle newOid db art).2.collections "articles" =
      db.collections "articles" ++ [art.storedDoc (newOid db.inserted)] := by
  rw [saveArticle, collections_saveDoc, Function.update_self]
  rfl

/-- A vocabulary that was saved last is the one that is loaded, stems only. -/
theorem loadVocabulary_saveVocabulary (newOid : ℕ → ObjectId) (db : MongoDb)
    (vocab target : Vocabulary) {later : MongoDb}
    (hlater : later.collections "vocabulary" =
      (saveVocabulary newOid db vocab).collections "vocabulary") :
    loadVocabulary later target = .ok (target.addStems vocab.stems) := by
  have hdocs : later.getDocs "vocabulary" =
      [("_id", .oid (newOid db.inserted)) :: vocab.toBson false] := by
    rw [MongoDb.getDocs, hlater, saveVocabulary, collections_saveDoc, Function.update_self]
    simp [MongoDb.dropCollection]
  have hread : Vocabulary.fromBson (("_id", .oid (newOid db.inserted)) :: vocab.toBson false)
      target = .ok (target.addStems vocab.stems) := Vocabulary.fromBson_of_stems rfl target
  rw [loadVocabulary, hdocs]
  show (Vocabulary.fromBson _ target).mapError LoadError.bson = _
  rw [hread]
  rfl

/-- The signature of a stored article is read back under the article's id. -/
@[simp]
theorem artSigFromBson_storedDoc (oid : ObjectId) (article : ProcessedArticle)
    (artSig : Bytes × Signature) :
    artSigFromBson (article.storedDoc oid) artSig = .ok (oid.toString, article.signature) := by
  simp [artSigFromBson, ProcessedArticle.storedDoc, ProcessedArticle.toBson, BsonDoc.element,
    List.lookup]

end Unbiased
