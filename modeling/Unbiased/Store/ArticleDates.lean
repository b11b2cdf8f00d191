/-
# Looking dates up by id

The ids that the store hands out are the hexadecimal digits of object ids, and the filter
that looks for them compares these digits, as a string, with the object ids themselves.
The two are values of different types, so no stored article meets the filter, whichever
ids are asked for.
-/

import Unbiased.Dedup.StoredSignatures
import Unbiased.Store.Queries

namespace Unbiased

/-- Why loading dates stops. -/
inductive LoadDatesError where
  | query (error : MongoDb.QueryError)
  | bson (error : BsonError)
  deriving DecidableEq

/-- The filter that `load_articles_dates` builds: one clause for each id. -/
def idsFilter (articlesIds : List Bytes) : Filter :=
  .or (articlesIds.map fun articleId => ("_id", articleId))

/-- The ids and dates of the articles with the given ids. -/
def loadArticlesDates (db : MongoDb) (articlesIds : List Bytes) :
    Except LoadDatesError (List (Bytes × Bytes)) :=
  match db.getFieldsWith "articles" ["_id", "date"] (idsFilter articlesIds) with
  | .error error => .error (.query error)
  | .ok result => (result.mapM fun doc => artDateFromBson doc ([], [])).mapError .bson

/-- Each article is stored under an object id. -/
def KeyedByOid (db : MongoDb) : Prop :=
  ∀ doc ∈ db.collections "articles", ∃ oid, doc.element "_id" = some (.oid oid)

/-- Where no article is stored, there is nothing to show. -/
theorem keyedByOid_of_empty {db : MongoDb} (h : db.collections "articles" = []) :
    KeyedByOid db := by
  intro doc hdoc
  rw [h] at hdoc
  exact absurd hdoc List.not_mem_nil

variable {db : MongoDb}

/-- Saving an article keeps this, since the store generates the id. -/
theorem KeyedByOid.saveArticle (h : KeyedByOid db) (newOid : ℕ → ObjectId)
    (article : ProcessedArticle) : KeyedByOid (saveArticle newOid db article).2 := by
  intro doc hdoc
  rw [articles_saveArticle] at hdoc
  rcases List.mem_append.mp hdoc with hold | hnew
  · exact h doc hold
  · rw [List.mem_singleton.mp hnew]
    exact ⟨newOid db.inserted, rfl⟩

theorem KeyedByOid.saveArticles (h : KeyedByOid db) (newOid : ℕ → ObjectId)
    (articles : List ProcessedArticle) : KeyedByOid (saveArticles newOid db articles) := by
  induction articles generalizing db with
  | nil => exact h
  | cons article articles ih => exact ih (h.saveArticle newOid article)

/-- **No stored article meets a filter on ids.** -/
theorem KeyedByOid.holds_idsFilter (h : KeyedByOid db) (articlesIds : List Bytes)
    {doc : BsonDoc} (hdoc : doc ∈ db.collections "articles") :
    (idsFilter articlesIds).holds doc = false := by
  obtain ⟨oid, hoid⟩ := h doc hdoc
  rw [idsFilter, Filter.holds, List.any_map, List.any_eq_false]
  intro articleId _ hmeets
  have hkey : Filter.keyEquals doc ("_id", articleId) = false := by
    rw [Filter.keyEquals, hoid]
    rfl
  exact absurd (hkey.symm.trans hmeets) Bool.false_ne_true

/-- Dates of any ids are looked up in vain. -/
theorem KeyedByOid.loadArticlesDates_eq_nil (h : KeyedByOid db) {articlesIds : List Bytes}
    (hne : articlesIds ≠ []) : loadArticlesDates db articlesIds = .ok [] := by
  have hnone : (db.collections "articles").filter (idsFilter articlesIds).holds = [] :=
    List.filter_eq_nil_iff.mpr fun doc hdoc => by
      rw [h.holds_idsFilter articlesIds hdoc]
      exact Bool.false_ne_true
  obtain ⟨articleId, others, rfl⟩ := List.exists_cons_of_ne_nil hne
  have hfind : db.find "articles" (idsFilter (articleId :: others)) = .ok [] :=
    congrArg Except.ok hnone
  rw [loadArticlesDates, MongoDb.getFieldsWith, hfind]
  rfl

/-- The ids that saving returns, each with the date that was saved. -/
def savedDates (newOid : ℕ → ObjectId) : MongoDb → List ProcessedArticle → List (Bytes × Bytes)
  | _, [] => []
  | db, article :: articles =>
    ((saveArticle newOid db article).1, article.metaData.date) ::
      savedDates newOid (saveArticle newOid db article).2 articles

/-- Looking up the ids of a choice of saved articles gives one pair for each, with its date. -/
def FindsDates (db : MongoDb) (chosen : List (Bytes × Bytes)) : Prop :=
  ∃ dates : List (Bytes × Bytes),
    loadArticlesDates db (chosen.map Prod.fst) = .ok dates ∧ dates.Perm chosen

end Unbiased
