/-
# Whole runs of the engine

Every text that arrives ends in one way. What a run stores, rejects and asks about is
therefore counted by the texts alone, whatever their order, and the engine's counter is the
number of its questions that the dedup service answered with something new.

What the server has filed is about articles that are stored, through restarts of both
programs.
-/

import Unbiased.Clustering.Faults
import Unbiased.Clustering.Restart
import Unbiased.Dedup.AskService

namespace Unbiased

open Unbiased.Math

/-! ## The ledger of a run -/

section Ledger

variable {env : Env} {memory : ℕ → Signature}

/-- The text is that of a valid article. -/
def acceptsText (env : Env) (vocab : Vocabulary) (articleStr : Bytes) : Bool :=
  (parseFromXml env.readXml articleStr).any fun article => (validate env.text vocab article).1

/-- The text is that of an article that is not valid. -/
def rejectsText (env : Env) (vocab : Vocabulary) (articleStr : Bytes) : Bool :=
  (parseFromXml env.readXml articleStr).any fun article => !(validate env.text vocab article).1

/-- The article is stored. -/
def storesText (env : Env) (vocab : Vocabulary) (text : Bytes × Faults) : Bool :=
  acceptsText env vocab text.1 && !text.2.saveThrows

/-- It is stored and asked about. -/
def asksText (env : Env) (vocab : Vocabulary) (text : Bytes × Faults) : Bool :=
  storesText env vocab text && !text.2.dedupThrows

/-- Handle a text, in the memory with its number. -/
def handleText (env : Env) (memory : ℕ → Signature) (s : System)
    (entry : (Bytes × Faults) × ℕ) : Option System :=
  processArticle env entry.1.2 (memory entry.2) entry.1.1 s

/-- The number of texts of a kind, after one more. -/
theorem countP_concat {α : Type} (p : α → Bool) (l : List α) (a : α) :
    (l ++ [a]).countP p = l.countP p + if p a then 1 else 0 := by
  rw [List.countP_append, List.countP_singleton]

/-- The numbers of documents that an article adds. -/
theorem lengths_saveArticle (newOid : ℕ → ObjectId) (db : MongoDb) (art : ProcessedArticle) :
    ((saveArticle newOid db art).2.getDocs "articles").length =
        (db.getDocs "articles").length + 1 ∧
      (saveArticle newOid db art).2.getDocs "invalid_urls" = db.getDocs "invalid_urls" ∧
      (saveArticle newOid db art).2.inserted = db.inserted + 1 := by
  refine ⟨?_, ?_, rfl⟩
  · rw [MongoDb.getDocs, articles_saveArticle, List.length_append]
    rfl
  · rw [MongoDb.getDocs, saveArticle, collections_saveDoc, Function.update_of_ne (by decide)]
    rfl

/-- The numbers of documents that an invalid address adds. -/
theorem lengths_saveInvalidUrl (newOid : ℕ → ObjectId) (db : MongoDb) (url : Bytes) :
    (saveInvalidUrl newOid db url).getDocs "articles" = db.getDocs "articles" ∧
      ((saveInvalidUrl newOid db url).getDocs "invalid_urls").length =
        (db.getDocs "invalid_urls").length + 1 ∧
      (saveInvalidUrl newOid db url).inserted = db.inserted + 1 := by
  refine ⟨collections_saveInvalidUrl (by decide), ?_, rfl⟩
  rw [MongoDb.getDocs, saveInvalidUrl, collections_saveDoc, Function.update_self,
    List.length_append]
  rfl

/-- The books of a run from a state in which the server knows some documents. -/
structure Books (env : Env) (docs : List DocSignature) (s : System)
    (texts : List (Bytes × Faults)) (t : System) : Prop where
  words : t.pipelineVocab.words = s.pipelineVocab.words
  stopWords : t.pipelineVocab.stopWords = s.pipelineVocab.stopWords
  articles : (t.db.getDocs "articles").length = (s.db.getDocs "articles").length +
    texts.countP (storesText env s.pipelineVocab)
  invalidUrls : (t.db.getDocs "invalid_urls").length = (s.db.getDocs "invalid_urls").length +
    texts.countP fun text => rejectsText env s.pipelineVocab text.1
  inserted : t.db.inserted = s.db.inserted + texts.countP (storesText env s.pipelineVocab) +
    texts.countP fun text => rejectsText env s.pipelineVocab text.1
  asked : ∃ messages, t.sent = s.sent ++ messages ∧
    messages.length = texts.countP (asksText env s.pipelineVocab) ∧
    LSHDeduplication.Knows env.hashCombine (docs ++ messages) t.dedup.lshDeduplication ∧
    t.processedArticles = s.processedArticles +
      Int32.ofNat ((verdicts env.hashCombine docs messages).count false)

namespace Books

variable {docs : List DocSignature} {s m t : System} {texts : List (Bytes × Faults)}
  {text : Bytes × Faults}

theorem nil (h : LSHDeduplication.Knows env.hashCombine docs s.dedup.lshDeduplication) :
    Books env docs s [] s where
  words := rfl
  stopWords := rfl
  articles := rfl
  invalidUrls := rfl
  inserted := rfl
  asked := ⟨[], (List.append_nil _).symm, rfl, by rwa [List.append_nil], (Int32.add_zero _).symm⟩

/-- One more answer of the service. -/
theorem count_verdicts_concat {hashCombine : HashCombine} {docs messages : List DocSignature}
    {message : DocSignature} {isDuplicate : Bool}
    (h : isDuplicate = decide (Duplicated hashCombine (docs ++ messages) message)) :
    Int32.ofNat ((verdicts hashCombine docs (messages ++ [message])).count false) =
      Int32.ofNat ((verdicts hashCombine docs messages).count false) +
        if isDuplicate then 0 else 1 := by
  rw [verdicts_concat, List.count_append, Int32.ofNat_add, ← h]
  cases isDuplicate with
  | true => rfl
  | false => rfl

/-- A text that is not asked about. -/
theorem unasked (h : Books env docs s texts m)
    (hwords : t.pipelineVocab.words = m.pipelineVocab.words)
    (hstop : t.pipelineVocab.stopWords = m.pipelineVocab.stopWords)
    (harticles : (t.db.getDocs "articles").length = (m.db.getDocs "articles").length +
      if storesText env s.pipelineVocab text then 1 else 0)
    (hinvalid : (t.db.getDocs "invalid_urls").length = (m.db.getDocs "invalid_urls").length +
      if rejectsText env s.pipelineVocab text.1 then 1 else 0)
    (hinserted : t.db.inserted = m.db.inserted +
      (if storesText env s.pipelineVocab text then 1 else 0) +
      if rejectsText env s.pipelineVocab text.1 then 1 else 0)
    (hasks : asksText env s.pipelineVocab text = false) (hsent : t.sent = m.sent)
    (hdedup : t.dedup = m.dedup) (hcounter : t.processedArticles = m.processedArticles) :
    Books env docs s (texts ++ [text]) t where
  words := hwords.trans h.words
  stopWords := hstop.trans h.stopWords
  articles := by rw [harticles, h.articles, countP_concat, Nat.add_assoc]
  invalidUrls := by rw [hinvalid, h.invalidUrls, countP_concat, Nat.add_assoc]
  inserted := by
    rw [hinserted, h.inserted, countP_concat, countP_concat]
    omega
  asked := by
    obtain ⟨messages, hmessages, hlength, hknows, hprocessed⟩ := h.asked
    refine ⟨messages, hsent.trans hmessages, ?_, hdedup ▸ hknows, hcounter.trans hprocessed⟩
    rw [countP_concat, hasks, hlength]
    rfl

/-- What storing and asking enters into the books. -/
theorem saves {vocab : Vocabulary} {procArticle : ProcessedArticle}
    {shingles : SortedSet Int32} {result : Option (ProcessedArticle × Bool)}
    (h : Books env docs s texts m) (hwords : vocab.words = m.pipelineVocab.words)
    (hstop : vocab.stopWords = m.pipelineVocab.stopWords)
    (haccepts : acceptsText env s.pipelineVocab text.1 = true)
    (hrejects : rejectsText env s.pipelineVocab text.1 = false)
    (hsave : saveAndAsk env text.2 { m with pipelineVocab := vocab } procArticle shingles =
      some (t, result)) :
    Books env docs s (texts ++ [text]) (match result with
      | some (_, false) => { t with processedArticles := t.processedArticles + 1 }
      | _ => t) := by
  obtain ⟨hone, hsame, hnext⟩ := lengths_saveArticle env.newOid m.db procArticle
  rcases saveAndAsk_cases hsave with ⟨hthrows, rfl, rfl⟩ | ⟨hsaved, hthrows, rfl, rfl⟩ |
    ⟨hsaved, hasked, isDuplicate, dedup, hverdict, rfl, rfl⟩
  · have hstores : storesText env s.pipelineVocab text = false := by simp [storesText, hthrows]
    apply h.unasked hwords hstop
    · rw [hstores]
      rfl
    · rw [hrejects]
      rfl
    · rw [hstores, hrejects]
      rfl
    · rw [asksText, hstores]
      rfl
    · rfl
    · rfl
    · rfl
  · have hstores : storesText env s.pipelineVocab text = true := by
      rw [storesText, haccepts, hsaved]
      rfl
    apply h.unasked hwords hstop
    · rw [hstores]
      exact hone
    · rw [hrejects]
      exact congrArg List.length hsame
    · rw [hstores, hrejects]
      exact hnext
    · rw [asksText, hthrows]
      exact Bool.and_false _
    · rfl
    · rfl
    · rfl
  · have hstores : storesText env s.pipelineVocab text = true := by
      rw [storesText, haccepts, hsaved]
      rfl
    have hasks : asksText env s.pipelineVocab text = true := by
      rw [asksText, hstores, hasked]
      rfl
    obtain ⟨messages, hmessages, hlength, hknows, hprocessed⟩ := h.asked
    obtain ⟨hanswer, hlater⟩ := hknows.of_isDuplicate hverdict
    have hbooks : Books env docs s (texts ++ [text]) { m with
        pipelineVocab := vocab
        db := (saveArticle env.newOid m.db procArticle).2
        dedup := dedup
        sent := m.sent ++ [nextMessage env { m with pipelineVocab := vocab } shingles]
        processedArticles := m.processedArticles + if isDuplicate then 0 else 1 } := {
      words := hwords.trans h.words
      stopWords := hstop.trans h.stopWords
      articles := by rw [hone, h.articles, countP_concat, hstores, Nat.add_assoc]; rfl
      invalidUrls := by
        rw [hsame, h.invalidUrls, countP_concat, hrejects]
        rfl
      inserted := by
        rw [hnext, h.inserted, countP_concat, countP_concat, hstores, hrejects]
        simp only [if_true, Bool.false_eq_true, if_false]
        omega
      asked := by
        refine ⟨messages ++ [nextMessage env { m with pipelineVocab := vocab } shingles],
          ?_, ?_, ?_, ?_⟩
        · rw [hmessages, List.append_assoc]
        · rw [List.length_append, hlength, countP_concat, hasks]
          rfl
        · rw [← List.append_assoc]
          exact hlater
        · rw [count_verdicts_concat hanswer, hprocessed, Int32.add_assoc] }
    cases isDuplicate with
    | true =>
        rw [if_pos rfl, Int32.add_zero] at hbooks
        exact hbooks
    | false => exact hbooks

/-- **Step lemma.** -/
theorem step (h : Books env docs s texts m) {idx : ℕ}
    (hstep : handleText env memory m (text, idx) = some t) :
    Books env docs s (texts ++ [text]) t := by
  change processArticle env text.2 (memory idx) text.1 m = some t at hstep
  have hvalidate : ∀ article, validate env.text m.pipelineVocab article =
      validate env.text s.pipelineVocab article := validate_congr h.words h.stopWords
  cases hparse : parseFromXml env.readXml text.1 with
  | none =>
      rw [processArticle, hparse] at hstep
      cases hstep
      have haccepts : acceptsText env s.pipelineVocab text.1 = false := by
        rw [acceptsText, hparse]
        rfl
      have hrejects : rejectsText env s.pipelineVocab text.1 = false := by
        rw [rejectsText, hparse]
        rfl
      have hstores : storesText env s.pipelineVocab text = false := by
        rw [storesText, haccepts]
        rfl
      apply h.unasked rfl rfl
      · rw [hstores]
        rfl
      · rw [hrejects]
        rfl
      · rw [hstores, hrejects]
        rfl
      · rw [asksText, hstores]
        rfl
      · rfl
      · rfl
      · rfl
  | some article =>
      have haccepts : acceptsText env s.pipelineVocab text.1 =
          (validate env.text m.pipelineVocab article).1 := by
        rw [acceptsText, hparse, hvalidate]
        rfl
      have hrejects : rejectsText env s.pipelineVocab text.1 =
          !(validate env.text m.pipelineVocab article).1 := by
        rw [rejectsText, hparse, hvalidate]
        rfl
      cases hvalid : (validate env.text m.pipelineVocab article).1 with
      | false =>
          rw [hvalid] at haccepts hrejects
          rw [processArticle_of_not_valid hparse hvalid] at hstep
          cases hstep
          obtain ⟨hsame, hone, hnext⟩ := lengths_saveInvalidUrl env.newOid m.db
            (validate env.text m.pipelineVocab article).2.1.metaData.url
          have hstores : storesText env s.pipelineVocab text = false := by
            rw [storesText, haccepts]
            rfl
          apply h.unasked
          · rfl
          · rfl
          · rw [hstores]
            exact congrArg List.length hsame
          · rw [hrejects]
            exact hone
          · rw [hstores, hrejects]
            exact hnext
          · rw [asksText, hstores]
            rfl
          · rfl
          · rfl
          · rfl
      | true =>
          rw [hvalid] at haccepts hrejects
          rw [processArticle_of_valid hparse hvalid] at hstep
          obtain ⟨⟨vocab, procArticle, shingles⟩, hsubmit, hstep⟩ :=
            Option.bind_eq_some_iff.mp hstep
          obtain ⟨⟨last, result⟩, hsave, hstep⟩ := Option.bind_eq_some_iff.mp hstep
          obtain ⟨-, hwords, hstop⟩ := submitArticle_fresh hsubmit fun _ => 0
          have hbooks := h.saves hwords hstop haccepts hrejects hsave
          rcases result with _ | ⟨signed, isDuplicate⟩
          · cases hstep
            exact hbooks
          · cases isDuplicate with
            | true =>
                cases hstep
                exact hbooks
            | false =>
                cases hstep
                exact hbooks

end Books

/-- **The books balance.** After every run, whatever throws, a text has been stored if it is
that of a valid article and storing it did not throw, its address has been stored if it is that
of another article, and nothing else has been; and the engine's counter has grown by the number
of its messages that the dedup service finds new. -/
theorem books_of_run {docs : List DocSignature} {s t : System} {texts : List (Bytes × Faults)}
    (hknows : LSHDeduplication.Knows env.hashCombine docs s.dedup.lshDeduplication)
    (hrun : run (handleText env memory) s texts.zipIdx = some t) : Books env docs s texts t := by
  have hbooks : Books env docs s (texts.zipIdx.map Prod.fst) t := by
    apply run_invariant (P := fun hist m => Books env docs s (hist.map Prod.fst) m) _ _ hrun
    · exact Books.nil hknows
    · intro hist m entry next hm hstep
      rw [List.map_append]
      exact hm.step hstep
  rwa [List.zipIdx_map_fst] at hbooks

end Ledger

/-! ## What happens to the system -/

/-- What can happen to the two programs, the database and the server. -/
inductive Incident where
  /-- An article is handled. -/
  | handled (handled : Handled) (faults : Faults)
  /-- The dedup server is stopped, and a new one loads the stored signatures. -/
  | restartServer
  /-- The engine is stopped, and a new one loads the stored vocabulary. -/
  | restartEngine (stemsFreq : Fin maxStemsNo → Int32)
  /-- The start-up program drops the articles, and stores a batch. -/
  | startup (faults : ℕ → Faults) (wordsFile stopwordsFile : Option Bytes)
    (stemsFreq : Fin maxStemsNo → Int32) (articlesXml : List Bytes)

/-- What it does to them. A program whose constructor throws is not started. -/
def occur (env : Env) (memory : ℕ → Signature) (s : System) (event : Incident × ℕ) :
    Option System :=
  match event.1 with
  | .handled handled faults => handle env memory s ((handled, faults), event.2)
  | .restartServer => (loadArticleDedup env.hashCombine s.db).map fun dedup =>
      { s with dedup := dedup }
  | .restartEngine stemsFreq => (makePipeline s stemsFreq).toOption
  | .startup faults wordsFile stopwordsFile stemsFreq articlesXml =>
      startup env faults memory wordsFile stopwordsFile stemsFreq articlesXml s

/-! ## Filed ids are ids of stored articles -/

/-- The id of a document, as text. -/
def idOf (doc : BsonDoc) : Option Bytes :=
  (Bson.getOid (doc.element "_id")).toOption.map ObjectId.toString

/-- The ids of the stored articles. -/
def articleIds (db : MongoDb) : List Bytes := (db.getDocs "articles").filterMap idOf

/-- The server has filed documents whose ids are those of stored articles. -/
def Intact (env : Env) (s : System) : Prop :=
  ∃ docs, LSHDeduplication.Knows env.hashCombine docs s.dedup.lshDeduplication ∧
    ∀ doc ∈ docs, doc.1 ∈ articleIds s.db

/-- The server has filed nothing. -/
def FilesNothing (s : System) : Prop :=
  ∀ band key id, id ∉ s.dedup.lshDeduplication.lshBuckets.bucket band key

/-- The start-up program is run before the server has filed anything. -/
def InOrderOfStart (s : System) (event : Incident × ℕ) : Prop :=
  match event.1 with
  | .startup _ _ _ _ _ => FilesNothing s
  | _ => True

section Integrity

variable {env : Env} {memory : ℕ → Signature} {s t : System}

theorem articleIds_saveArticle (newOid : ℕ → ObjectId) (db : MongoDb) (art : ProcessedArticle) :
    articleIds (saveArticle newOid db art).2 =
      articleIds db ++ [(newOid db.inserted).toString] := by
  rw [articleIds, MongoDb.getDocs, articles_saveArticle, List.filterMap_append]
  rfl

/-- Nothing that is stored elsewhere changes the ids of the articles. -/
theorem articleIds_congr {first second : MongoDb}
    (h : first.collections "articles" = second.collections "articles") :
    articleIds first = articleIds second := by
  rw [articleIds, articleIds, MongoDb.getDocs, MongoDb.getDocs, h]

/-- The server stays intact if it stays as it is and no article goes away. -/
theorem Intact.of_same (h : Intact env s) (hdedup : t.dedup = s.dedup)
    (hids : articleIds s.db ⊆ articleIds t.db) : Intact env t := by
  obtain ⟨docs, hknows, hstored⟩ := h
  exact ⟨docs, hdedup ▸ hknows, fun doc hdoc => hids (hstored doc hdoc)⟩

theorem Intact.saveAndAsk {faults : Faults} {procArticle : ProcessedArticle}
    {shingles : SortedSet Int32} {result : Option (ProcessedArticle × Bool)} (h : Intact env s)
    (hsave : saveAndAsk env faults s procArticle shingles = some (t, result)) : Intact env t := by
  have hids := articleIds_saveArticle env.newOid s.db procArticle
  rcases saveAndAsk_cases hsave with ⟨-, rfl, -⟩ | ⟨-, -, rfl, -⟩ |
    ⟨-, -, isDuplicate, dedup, hverdict, rfl, -⟩
  · exact h
  · refine Intact.of_same h rfl fun id hid => ?_
    show id ∈ articleIds (saveArticle env.newOid s.db procArticle).2
    rw [hids]
    exact List.mem_append_left _ hid
  · obtain ⟨docs, hknows, hstored⟩ := h
    refine ⟨_, (hknows.of_isDuplicate hverdict).2, fun doc hdoc => ?_⟩
    show doc.1 ∈ articleIds (saveArticle env.newOid s.db procArticle).2
    rw [hids]
    rcases List.mem_append.mp hdoc with hold | hnew
    · exact List.mem_append_left _ (hstored doc hold)
    · rw [List.mem_singleton.mp hnew]
      exact List.mem_append_right _ List.mem_cons_self

theorem Intact.handle {event : (Handled × Faults) × ℕ} (h : Intact env s)
    (hstep : handle env memory s event = some t) : Intact env t := by
  rcases event with ⟨⟨handled, faults⟩, idx⟩
  cases handled with
  | online articleStr =>
      change processArticle env faults (memory idx) articleStr s = some t at hstep
      rcases processArticle_cases hstep with rfl | ⟨url, rfl⟩ |
        ⟨vocab, procArticle, shingles, mid, result, hsave, hnext⟩
      · exact h
      · have hids : articleIds (saveInvalidUrl env.newOid s.db url) = articleIds s.db :=
          articleIds_congr (collections_saveInvalidUrl (by decide))
        exact Intact.of_same h rfl (hids ▸ List.Subset.refl _)
      · have hmid : Intact env mid := by
          apply Intact.saveAndAsk _ hsave
          exact h
        rcases hnext with rfl | rfl
        · exact hmid
        · exact hmid
  | batch article =>
      change (storeBatchArticle env faults (memory idx) (s, []) article).map Prod.fst = some t
        at hstep
      obtain ⟨⟨mid, kept⟩, hstored, rfl⟩ := Option.map_eq_some_iff.mp hstep
      obtain ⟨⟨vocab, procArticle, shingles⟩, -, hstored⟩ := Option.bind_eq_some_iff.mp hstored
      obtain ⟨⟨last, result⟩, hsave, hlast⟩ := Option.bind_eq_some_iff.mp hstored
      cases hlast
      apply Intact.saveAndAsk _ hsave
      exact h

/-! ## A new server -/

/-- A field that is asked for is not filtered out. -/
theorem lookup_filter {fields : List String} {key : String} (hkey : key ∈ fields)
    (doc : BsonDoc) :
    (doc.filter fun field => field.1 ∈ fields).lookup key = doc.lookup key := by
  induction doc with
  | nil => rfl
  | cons field doc ih =>
      by_cases hfield : field.1 ∈ fields
      · rw [List.filter_cons_of_pos (by simpa using hfield), List.lookup_cons, List.lookup_cons,
          ih]
      · have hne : (key == field.1) = false := by
          rw [beq_eq_false_iff_ne]
          rintro rfl
          exact hfield hkey
        rw [List.filter_cons_of_neg (by simpa using hfield), List.lookup_cons, hne, ih]

/-- What a new server loads has the ids of the stored articles. -/
theorem mem_articleIds_of_load {db : MongoDb} {docs : List DocSignature}
    (hload : loadArticlesSignatures db = .ok docs) {doc : DocSignature} (hdoc : doc ∈ docs) :
    doc.1 ∈ articleIds db := by
  obtain ⟨fields, hfields, hdecoded⟩ := exists_mem_of_mapM_ok hload hdoc
  obtain ⟨stored, hstored, rfl⟩ := List.mem_map.mp hfields
  have hid : BsonDoc.element (stored.filter fun field => field.1 ∈ ["_id", "signature"]) "_id" =
      stored.element "_id" := lookup_filter List.mem_cons_self stored
  rw [artSigFromBson, hid] at hdecoded
  obtain ⟨oid, hoid, hdecoded⟩ := exists_of_bind_ok hdecoded
  obtain ⟨elems, -, hdecoded⟩ := exists_of_bind_ok hdecoded
  obtain ⟨signature, -, hdecoded⟩ := exists_of_bind_ok hdecoded
  cases hdecoded
  refine List.mem_filterMap.mpr ⟨stored, hstored, ?_⟩
  rw [idOf, hoid]
  rfl

theorem Intact.restartServer {dedup : ArticleDedup}
    (hload : loadArticleDedup env.hashCombine s.db = some dedup) :
    Intact env { s with dedup := dedup } := by
  unfold loadArticleDedup at hload
  split at hload
  · rename_i docs hdocs
    exact ⟨docs, ArticleDedup.knows_of_make hload, fun doc => mem_articleIds_of_load hdocs⟩
  · cases hload

/-! ## The start-up program -/

/-- A server that has filed nothing is intact whatever is stored. -/
theorem intact_of_filesNothing (h : Intact env s) (hnothing : FilesNothing s)
    (hdedup : t.dedup = s.dedup) : Intact env t := by
  obtain ⟨docs, hknows, -⟩ := h
  refine ⟨docs, hdedup ▸ hknows, fun doc hdoc => ?_⟩
  -- a document that is filed would be found under its key in the first band
  have hfiled := (hknows.holds.mem_bucket 0 _ doc.1).mpr ⟨doc.2, hdoc, rfl⟩
  exact absurd hfiled (hnothing 0 _ doc.1)

theorem dedup_acceptArticles (s : System) (articlesXml : List Bytes) :
    (acceptArticles env s articlesXml).1.dedup = s.dedup := by
  induction articlesXml generalizing s with
  | nil => rfl
  | cons articleXml rest ih =>
      cases hparse : parseFromXml env.readXml articleXml with
      | none => rw [acceptArticles_cons_none hparse]
      | some article =>
          rw [acceptArticles_cons_some hparse]
          split
          · exact ih _
          · exact ih _

theorem Intact.startup {faults : ℕ → Faults} {wordsFile stopwordsFile : Option Bytes}
    {stemsFreq : Fin maxStemsNo → Int32} {articlesXml : List Bytes} (h : Intact env s)
    (hnothing : FilesNothing s)
    (hstep : startup env faults memory wordsFile stopwordsFile stemsFreq articlesXml s = some t) :
    Intact env t := by
  unfold Unbiased.startup at hstep
  split at hstep
  · cases hstep
    exact intact_of_filesNothing h hnothing rfl
  · obtain ⟨⟨last, kept⟩, hbatch, rfl⟩ := Option.map_eq_some_iff.mp hstep
    unfold processArticlesBatch at hbatch
    generalize haccept : acceptArticles env _ articlesXml = accepted at hbatch
    have hdedup : accepted.1.dedup = s.dedup := by
      rw [← haccept, dedup_acceptArticles]
    rcases accepted with ⟨mid, _ | articles⟩
    · cases hbatch
      exact intact_of_filesNothing h hnothing hdedup
    · obtain ⟨handled, -, hrun⟩ := exists_run_of_storeArticles hbatch
      exact run_preserves hrun (intact_of_filesNothing h hnothing hdedup)
        fun _ _ _ hmid hstep => Intact.handle hmid hstep

/-! ## Runs -/

/-- **Step lemma.** -/
theorem Intact.occur {event : Incident × ℕ} (h : Intact env s) (horder : InOrderOfStart s event)
    (hstep : occur env memory s event = some t) : Intact env t := by
  rcases event with ⟨incident, idx⟩
  cases incident with
  | handled handled faults => exact Intact.handle h hstep
  | restartServer =>
      obtain ⟨dedup, hload, rfl⟩ := Option.map_eq_some_iff.mp hstep
      exact Intact.restartServer hload
  | restartEngine stemsFreq =>
      change (makePipeline s stemsFreq).toOption = some t at hstep
      rw [makePipeline] at hstep
      cases hload : loadVocabulary s.db (Vocabulary.fresh stemsFreq) with
      | error error =>
          rw [hload] at hstep
          cases hstep
      | ok vocab =>
          rw [hload] at hstep
          cases hstep
          exact h
  | startup faults wordsFile stopwordsFile stemsFreq articlesXml =>
      exact Intact.startup h horder hstep

/-- **What the server has filed is stored.** In every run in which the start-up program is run
only before the server has filed anything, through restarts of both programs and whatever
throws: every id the server has filed is that of a stored article, and so is every id it will
find for a message, except the message's own. -/
theorem filed_stored_of_run {events : List (Incident × ℕ)} (h : Intact env s)
    (hrun : run (occur env memory) s events = some t)
    (horder : AllSteps (occur env memory) InOrderOfStart s events) :
    (∀ band key, ∀ id ∈ t.dedup.lshDeduplication.lshBuckets.bucket band key,
      id ∈ articleIds t.db) ∧
    ∀ message, ∃ duplicates next,
      t.dedup.lshDeduplication.processSignature env.hashCombine message =
        some (duplicates, next) ∧
      ∀ id ∈ duplicates, id = message.1 ∨ id ∈ articleIds t.db := by
  have hstates := allStates_of_allSteps (P := fun _ m => Intact env m) h
    (fun hist m event next hm hok hstep => hm.occur hok hstep) horder
  obtain ⟨docs, hknows, hstored⟩ := hstates events List.prefix_rfl t hrun
  constructor
  · intro band key id hid
    obtain ⟨signature, hdoc, -⟩ := (hknows.holds.mem_bucket band key id).mp hid
    exact hstored _ hdoc
  · intro message
    obtain ⟨duplicates, next, hanswer, hmem, -⟩ := hknows.processSignature message
    refine ⟨duplicates, next, hanswer, fun id hid => ?_⟩
    rcases (hmem id).mp hid with hown | ⟨signature, hdoc, -⟩
    · exact Or.inl hown
    · exact Or.inr (hstored _ hdoc)

end Integrity

/-! ## An article that is handled more than once -/

/-- A valid article, a text that cannot be parsed, and the article again, which throws. -/
def repeatedTexts : List (Bytes × Faults) :=
  [(loadedXml, .none), ([], .none), (loadedXml, ⟨false, true⟩)]

theorem loadedSystem_knows_nothing :
    LSHDeduplication.Knows letterEnv.hashCombine [] loadedSystem.dedup.lshDeduplication :=
  JustStarted.filesSent (s := loadedSystem) ⟨rfl, rfl, rfl⟩

/-- The books of these texts. -/
theorem books_of_repeatedTexts :
    ∃ t, run (handleText letterEnv fun _ _ => 0) loadedSystem repeatedTexts.zipIdx = some t ∧
      Books letterEnv [] loadedSystem repeatedTexts t := by
  have hsome : (run (handleText letterEnv fun _ _ => 0) loadedSystem
      repeatedTexts.zipIdx).isSome := by
    decide +kernel
  obtain ⟨t, hrun⟩ := Option.isSome_iff_exists.mp hsome
  exact ⟨t, hrun, books_of_run loadedSystem_knows_nothing hrun⟩

/-- The start-up program, which does not find its files, then the article with a restart of
the server in between. -/
def restartedRun : List (Incident × ℕ) :=
  [(.startup (fun _ => .none) none none (fun _ => 0) [], 0),
    (.handled (.online loadedXml) .none, 1), (.restartServer, 2),
    (.handled (.online loadedXml) .none, 3)]

/-- What that run has filed is stored. -/
theorem filed_stored_of_restartedRun :
    ∃ t, run (occur letterEnv fun _ _ => 0) loadedSystem restartedRun = some t ∧
      (∀ band key, ∀ id ∈ t.dedup.lshDeduplication.lshBuckets.bucket band key,
        id ∈ articleIds t.db) ∧
      ∀ message, ∃ duplicates next,
        t.dedup.lshDeduplication.processSignature letterEnv.hashCombine message =
          some (duplicates, next) ∧
        ∀ id ∈ duplicates, id = message.1 ∨ id ∈ articleIds t.db := by
  have hsome : (run (occur letterEnv fun _ _ => 0) loadedSystem restartedRun).isSome := by
    decide +kernel
  obtain ⟨t, hrun⟩ := Option.isSome_iff_exists.mp hsome
  have hnothing : FilesNothing loadedSystem := fun band key id => SortedSet.notMem_empty id
  have horder : AllSteps (occur letterEnv fun _ _ => 0) InOrderOfStart loadedSystem
      restartedRun := by
    intro hist event hpre m hm
    cases hist with
    | nil =>
        obtain rfl : loadedSystem = m := Option.some.inj hm
        obtain ⟨rfl, -⟩ := List.cons_prefix_cons.mp hpre
        exact hnothing
    | cons first hist =>
        have hmem : event ∈ restartedRun.tail := by
          have htail := (List.cons_prefix_cons.mp hpre).2
          exact htail.subset (List.mem_append_right _ List.mem_cons_self)
        rcases event with ⟨incident, idx⟩
        cases incident with
        | handled handled faults => trivial
        | restartServer => trivial
        | restartEngine stemsFreq => trivial
        | startup faults wordsFile stopwordsFile stemsFreq articlesXml =>
            simp [restartedRun] at hmem
  exact ⟨t, hrun, filed_stored_of_run ⟨[], loadedSystem_knows_nothing, by simp⟩ hrun horder⟩

end Unbiased
