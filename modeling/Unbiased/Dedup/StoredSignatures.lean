/-
# Signatures through the store

A signature is stored as `int64` elements and read back with a cut to `uint32_t`, and
a dedup server files what it reads. Nothing is lost on the way: each row comes back
in its place, so a server that starts on saved articles has the buckets of their own
signatures.
-/

import Unbiased.Dedup.LSHDeduplication
import Unbiased.Store.MongoDb

namespace Unbiased

open Unbiased.Math

/-- **A stored signature is read back.** Every row of it is, whatever the pair held before,
and it is filed under the same keys. -/
theorem artSigFromBson_lossless (oid : ObjectId) (article : ProcessedArticle)
    (artSig : Bytes × Signature) :
    ∃ decoded, artSigFromBson (article.storedDoc oid) artSig = .ok (oid.toString, decoded) ∧
      (∀ slot, decoded slot = article.signature slot) ∧
      ∀ (hashCombine : HashCombine) (band : Fin bandsNo),
        bandHash hashCombine band decoded = bandHash hashCombine band article.signature ∧
        bandKey hashCombine band decoded = bandKey hashCombine band article.signature :=
  ⟨article.signature, artSigFromBson_storedDoc oid article artSig, fun _ => rfl,
    fun _ _ => ⟨rfl, rfl⟩⟩

/-! ## Starting on saved articles -/

/-- The articles of a database are these, under these ids. -/
def ArticlesStored (db : MongoDb) (entries : List (ObjectId × ProcessedArticle)) : Prop :=
  db.collections "articles" = entries.map fun entry => entry.2.storedDoc entry.1

/-- A document without the other fields is read alike. -/
theorem artSigFromBson_fields (oid : ObjectId) (article : ProcessedArticle)
    (artSig : Bytes × Signature) :
    artSigFromBson ((article.storedDoc oid).filter fun field => field.1 ∈ ["_id", "signature"])
      artSig = .ok (oid.toString, article.signature) := by
  simp [artSigFromBson, ProcessedArticle.storedDoc, ProcessedArticle.toBson, BsonDoc.element,
    List.lookup]

variable {db : MongoDb} {entries : List (ObjectId × ProcessedArticle)}

/-- The id and the signature of each article are loaded, in order. -/
theorem ArticlesStored.loadArticlesSignatures_eq (h : ArticlesStored db entries) :
    loadArticlesSignatures db =
      .ok (entries.map fun entry => (entry.1.toString, entry.2.signature)) := by
  have hdocs : ∀ entries : List (ObjectId × ProcessedArticle),
      (entries.map fun entry => (entry.2.storedDoc entry.1).filter fun field =>
        field.1 ∈ ["_id", "signature"]).mapM (fun doc => artSigFromBson doc ([], fun _ => 0)) =
          .ok (entries.map fun entry => (entry.1.toString, entry.2.signature)) := by
    intro entries
    induction entries with
    | nil => rfl
    | cons entry entries ih =>
        rw [List.map_cons, List.mapM_cons, artSigFromBson_fields, ok_bind, ih, ok_bind]
        rfl
  rw [loadArticlesSignatures, MongoDb.getFields, h, List.map_map]
  exact hdocs entries

/-- Saving an article adds it, under the next id. -/
theorem ArticlesStored.saveArticle (h : ArticlesStored db entries) (newOid : ℕ → ObjectId)
    (article : ProcessedArticle) :
    ArticlesStored (saveArticle newOid db article).2
      (entries ++ [(newOid db.inserted, article)]) := by
  rw [ArticlesStored, articles_saveArticle, h, List.map_append, List.map_singleton]

/-- Save articles one after the other. -/
def saveArticles (newOid : ℕ → ObjectId) (db : MongoDb) (articles : List ProcessedArticle) :
    MongoDb :=
  articles.foldl (fun db article => (saveArticle newOid db article).2) db

theorem ArticlesStored.saveArticles (h : ArticlesStored db entries) (newOid : ℕ → ObjectId)
    (articles : List ProcessedArticle) :
    ArticlesStored (saveArticles newOid db articles)
      (entries ++ (articles.zipIdx db.inserted).map fun entry => (newOid entry.2, entry.1)) := by
  induction articles generalizing db entries with
  | nil => simpa [Unbiased.saveArticles] using h
  | cons article articles ih =>
      have hnext := ih (h.saveArticle newOid article)
      rwa [List.append_assoc] at hnext

/-- **A server that starts on saved articles.** It knows each of them by its own signature. -/
theorem exists_make_of_saved (newOid : ℕ → ObjectId) (hashCombine : HashCombine)
    (hempty : db.collections "articles" = []) (articles : List ProcessedArticle) :
    ∃ docs dedup, loadArticlesSignatures (saveArticles newOid db articles) = .ok docs ∧
      docs = (articles.zipIdx db.inserted).map (fun entry =>
        ((newOid entry.2).toString, entry.1.signature)) ∧
      ArticleDedup.make hashCombine docs = some dedup ∧
      LSHDeduplication.Knows hashCombine docs dedup.lshDeduplication := by
  have hnone : ArticlesStored db [] := hempty
  have hload := (hnone.saveArticles newOid articles).loadArticlesSignatures_eq
  rw [List.nil_append, List.map_map] at hload
  obtain ⟨dedup, hmake, hknows⟩ := ArticleDedup.exists_make hashCombine
    ((articles.zipIdx db.inserted).map fun entry => ((newOid entry.2).toString, entry.1.signature))
  exact ⟨_, dedup, hload, rfl, hmake, hknows⟩

end Unbiased
