/-
# The start-up program

The program reads a batch of articles. A first loop collects the stems of all
valid ones, a second loop processes, stores and signs them. The vocabulary is
saved before the batch, when it has no stems yet.
-/

import Unbiased.Clustering.Pipeline

namespace Unbiased

open Unbiased.Math

/-- The first loop of the batch. An article that cannot be parsed throws, which
leaves no articles for the second loop. -/
def acceptArticles (env : Env) : System → List Bytes → System × Option (List Article)
  | s, [] => (s, some [])
  | s, articleXml :: rest =>
    match parseFromXml env.readXml articleXml with
    | none => (s, none)
    | some newArticle =>
      let (valid, newArticle, stems) := validate env.text s.startupVocab newArticle
      if valid then
        let (s, articles) :=
          acceptArticles env { s with startupVocab := s.startupVocab.addStems stems } rest
        (s, articles.map fun articles => newArticle :: articles)
      else
        acceptArticles env
          { s with db := saveInvalidUrl env.newOid s.db newArticle.metaData.url } rest

/-- One article of the second loop. The articles that are not duplicates are
collected for the clustering. A call that throws leaves nothing to cluster. -/
def storeBatchArticle (env : Env) (faults : Faults) (uninitialised : Signature)
    (state : System × List ProcessedArticle) (article : Article) :
    Option (System × Option (List ProcessedArticle)) := do
  let (vocab, procArticle, shingles) ← processTokens env.text true state.1.startupVocab article
    (.fresh uninitialised)
  let (s, result) ← saveAndAsk env faults { state.1 with startupVocab := vocab } procArticle
    shingles
  some (s, result.map fun (procArticle, isDuplicate) =>
    if isDuplicate then state.2 else state.2 ++ [procArticle])

/-- The second loop, over the articles with their numbers. An exception ends it. -/
def storeArticles (env : Env) (faults : ℕ → Faults) (memory : ℕ → Signature) :
    System × List ProcessedArticle → List (Article × ℕ) →
      Option (System × Option (List ProcessedArticle))
  | (s, processedArticles), [] => some (s, some processedArticles)
  | state, (article, idx) :: rest => do
    match ← storeBatchArticle env (faults idx) (memory idx) state article with
    | (s, some processedArticles) =>
      storeArticles env faults memory (s, processedArticles) rest
    | (s, none) => some (s, none)

/-- Process a batch. Returns the articles to be clustered; clustering them changes
neither the database nor the vocabulary. -/
def processArticlesBatch (env : Env) (faults : ℕ → Faults) (memory : ℕ → Signature) (s : System)
    (articlesXml : List Bytes) : Option (System × Option (List ProcessedArticle)) :=
  match acceptArticles env s articlesXml with
  | (s, none) => some (s, none)
  | (s, some articles) => storeArticles env faults memory (s, []) articles.zipIdx

/-- The program. Exceptions are caught, and end it. -/
def startup (env : Env) (faults : ℕ → Faults) (memory : ℕ → Signature)
    (wordsFile stopwordsFile : Option Bytes) (stemsFreq : Fin maxStemsNo → Int32)
    (articlesXml : List Bytes) (s : System) : Option System :=
  let s := { s with db := s.db.dropCollection "articles" }
  match Vocabulary.ofFiles env.text wordsFile stopwordsFile stemsFreq with
  | none => some s
  | some vocab =>
    let s := { s with
      db := saveVocabulary env.newOid s.db vocab
      startupVocab := vocab }
    (processArticlesBatch env faults memory s articlesXml).map Prod.fst

/-! ## The first loop -/

/-- The articles of a batch that are valid, if all of it can be parsed. -/
def acceptedArticles (env : Env) (vocab : Vocabulary) (articlesXml : List Bytes) :
    Option (List Article) :=
  (articlesXml.mapM (parseFromXml env.readXml)).map fun articles =>
    articles.filterMap fun article =>
      if (validate env.text vocab article).1 then some (validate env.text vocab article).2.1
      else none

/-- Some article has a valid word with the stem. -/
def HasValidStem (text : TextOps) (vocab : Vocabulary) (articles : List Article)
    (stem : Bytes) : Prop :=
  ∃ article ∈ articles, ∃ word ∈ article.tokens,
    vocab.isValidWord word ∧ text.trimAndStem (text.toLower word) = stem

theorem hasValidStem_cons (text : TextOps) (vocab : Vocabulary) (article : Article)
    (articles : List Article) (stem : Bytes) :
    HasValidStem text vocab (article :: articles) stem ↔
      HasValidStem text vocab [article] stem ∨ HasValidStem text vocab articles stem := by
  simp [HasValidStem]

theorem mem_foldl_validateToken {text : TextOps} {vocab : Vocabulary} {tokens : List Bytes}
    {state : ℕ × SortedSet Bytes} {stem : Bytes} :
    stem ∈ (tokens.foldl (validateToken text vocab) state).2 ↔
      stem ∈ state.2 ∨ ∃ word ∈ tokens,
        vocab.isValidWord word ∧ text.trimAndStem (text.toLower word) = stem := by
  induction tokens generalizing state with
  | nil => simp
  | cons token tokens ih =>
      have hhead : stem ∈ (validateToken text vocab state token).2 ↔ stem ∈ state.2 ∨
          vocab.isValidWord token ∧ text.trimAndStem (text.toLower token) = stem := by
        unfold validateToken
        by_cases hword : vocab.isValidWord token
        · rw [if_pos hword, SortedSet.mem_insert, or_comm]
          simp [hword, eq_comm]
        · rw [if_neg hword]
          split
          · simp [hword]
          · simp [hword]
      rw [List.foldl_cons, ih, hhead]
      simp only [List.mem_cons, or_and_right, exists_or, exists_eq_left]
      exact or_assoc

/-- Validation leaves the tokens of the text in the article. -/
theorem tokenizeValidate_tokens (text : TextOps) (vocab : Vocabulary) (article : Article)
    (validStems : SortedSet Bytes) (minTokens : ℕ) (threshold : ℚ) :
    (tokenizeValidate text vocab article validStems minTokens threshold).2.1.tokens =
      text.tokenize article.text := by
  unfold tokenizeValidate
  simp only
  split
  · rfl
  · rfl

/-- **What validation collects.** Beside the stems that were given, those of the words of
the dictionary, unless the article is too short. -/
theorem mem_tokenizeValidate_stems {text : TextOps} {vocab : Vocabulary} {article : Article}
    {validStems : SortedSet Bytes} {minTokens : ℕ} {threshold : ℚ} {stem : Bytes} :
    stem ∈ (tokenizeValidate text vocab article validStems minTokens threshold).2.2 ↔
      stem ∈ validStems ∨ minTokens ≤ (text.tokenize article.text).length ∧
        ∃ word ∈ text.tokenize article.text,
          vocab.isValidWord word ∧ text.trimAndStem (text.toLower word) = stem := by
  unfold tokenizeValidate
  by_cases hshort : (text.tokenize article.text).length < minTokens
  · simp [hshort]
  · simp [hshort, mem_foldl_validateToken, not_lt.mp hshort]

/-- A valid article is long enough. -/
theorem le_length_of_tokenizeValidate {text : TextOps} {vocab : Vocabulary} {article : Article}
    {validStems : SortedSet Bytes} {minTokens : ℕ} {threshold : ℚ}
    (hvalid : (tokenizeValidate text vocab article validStems minTokens threshold).1 = true) :
    minTokens ≤ (text.tokenize article.text).length := by
  unfold tokenizeValidate at hvalid
  by_contra hshort
  simp [not_le.mp hshort] at hvalid

/-- The stems of a valid article are those of its valid words. -/
theorem mem_stems_of_validate {text : TextOps} {vocab : Vocabulary} {article : Article}
    (hvalid : (validate text vocab article).1 = true) {stem : Bytes} :
    stem ∈ (validate text vocab article).2.2 ↔
      HasValidStem text vocab [(validate text vocab article).2.1] stem := by
  rw [validate, mem_tokenizeValidate_stems, or_iff_right (SortedSet.notMem_empty stem),
    and_iff_right (le_length_of_tokenizeValidate hvalid)]
  simp [HasValidStem, tokenizeValidate_tokens]

theorem acceptedArticles_cons_none {env : Env} {vocab : Vocabulary} {articleXml : Bytes}
    {rest : List Bytes} (h : parseFromXml env.readXml articleXml = none) :
    acceptedArticles env vocab (articleXml :: rest) = none := by
  rw [acceptedArticles, List.mapM_cons, h]
  rfl

theorem acceptedArticles_cons_some {env : Env} {articleXml : Bytes} {article : Article}
    (h : parseFromXml env.readXml articleXml = some article) (vocab : Vocabulary)
    (rest : List Bytes) :
    acceptedArticles env vocab (articleXml :: rest) =
      (acceptedArticles env vocab rest).map fun articles =>
        if (validate env.text vocab article).1 then
          (validate env.text vocab article).2.1 :: articles
        else articles := by
  unfold acceptedArticles
  rw [List.mapM_cons, h]
  cases rest.mapM (parseFromXml env.readXml) with
  | none => rfl
  | some articles =>
      simp only [Option.bind_eq_bind, Option.bind_some, Option.map_some, Option.pure_def,
        List.filterMap_cons]
      cases (validate env.text vocab article).1 with
      | false => rfl
      | true => rfl

/-- What the first loop does: it keeps the dictionary, the stop words and all
collections but one, and collects the valid articles and their stems. -/
structure Accepted (env : Env) (s : System) (articlesXml : List Bytes) (t : System)
    (articles : Option (List Article)) : Prop where
  words : t.startupVocab.words = s.startupVocab.words
  stopWords : t.startupVocab.stopWords = s.startupVocab.stopWords
  collections : ∀ collectStr, collectStr ≠ "invalid_urls" →
    t.db.collections collectStr = s.db.collections collectStr
  accepted : articles = acceptedArticles env s.startupVocab articlesXml
  mem_stems : ∀ kept, articles = some kept → ∀ stem, stem ∈ t.startupVocab.stems ↔
    stem ∈ s.startupVocab.stems ∨ HasValidStem env.text s.startupVocab kept stem

theorem acceptArticles_cons_none {env : Env} {s : System} {articleXml : Bytes}
    {rest : List Bytes} (h : parseFromXml env.readXml articleXml = none) :
    acceptArticles env s (articleXml :: rest) = (s, none) := by
  rw [acceptArticles, h]

theorem acceptArticles_cons_some {env : Env} {s : System} {articleXml : Bytes}
    {rest : List Bytes} {article : Article}
    (h : parseFromXml env.readXml articleXml = some article) :
    acceptArticles env s (articleXml :: rest) =
      if (validate env.text s.startupVocab article).1 then
        let result := acceptArticles env { s with
          startupVocab := s.startupVocab.addStems (validate env.text s.startupVocab article).2.2 }
          rest
        (result.1, result.2.map fun articles =>
          (validate env.text s.startupVocab article).2.1 :: articles)
      else acceptArticles env { s with
        db := saveInvalidUrl env.newOid s.db
          (validate env.text s.startupVocab article).2.1.metaData.url } rest := by
  rw [acceptArticles, h]

theorem acceptArticles_accepted (env : Env) (s : System) (articlesXml : List Bytes) :
    Accepted env s articlesXml (acceptArticles env s articlesXml).1
      (acceptArticles env s articlesXml).2 := by
  induction articlesXml generalizing s with
  | nil =>
      refine ⟨rfl, rfl, fun _ _ => rfl, rfl, ?_⟩
      intro kept hkept stem
      cases hkept
      simp [acceptArticles, HasValidStem]
  | cons articleXml rest ih =>
      cases hparse : parseFromXml env.readXml articleXml with
      | none =>
          rw [acceptArticles_cons_none hparse]
          refine ⟨rfl, rfl, fun _ _ => rfl, (acceptedArticles_cons_none hparse).symm, ?_⟩
          intro kept hkept
          cases hkept
      | some article =>
          rw [acceptArticles_cons_some hparse]
          have hcons := acceptedArticles_cons_some hparse s.startupVocab rest
          cases hvalid : (validate env.text s.startupVocab article).1 with
          | false =>
              rw [hvalid] at hcons
              have h := ih { s with
                db := saveInvalidUrl env.newOid s.db
                  (validate env.text s.startupVocab article).2.1.metaData.url }
              rw [if_neg Bool.false_ne_true]
              refine ⟨h.words, h.stopWords, ?_, ?_, h.mem_stems⟩
              · intro collectStr hne
                exact (h.collections collectStr hne).trans (collections_saveInvalidUrl hne)
              · rw [h.accepted, hcons]
                exact Option.map_id'.symm
          | true =>
              rw [hvalid] at hcons
              have h := ih { s with
                startupVocab := s.startupVocab.addStems
                  (validate env.text s.startupVocab article).2.2 }
              rw [if_pos rfl]
              refine ⟨h.words, h.stopWords, h.collections, ?_, ?_⟩
              · show Option.map _ (acceptArticles env _ rest).2 = _
                rw [h.accepted, hcons]
                rfl
              · intro kept hkept stem
                obtain ⟨later, hlater, rfl⟩ := Option.map_eq_some_iff.mp hkept
                rw [h.mem_stems later hlater stem, Vocabulary.addStems_stems,
                  SortedSet.mem_union, mem_stems_of_validate hvalid, or_assoc]
                exact or_congr_right (hasValidStem_cons _ _ _ later stem).symm

/-! ## The second loop -/

/-- The articles that are stored before a call throws. -/
def storedArticles (faults : ℕ → Faults) : List (Article × ℕ) → List Article
  | [] => []
  | (article, idx) :: rest =>
    if (faults idx).saveThrows then []
    else if (faults idx).dedupThrows then [article]
    else article :: storedArticles faults rest

/-- A document is the article's, with the ids its tokens are recorded under. -/
def StoredFrom (env : Env) (vocab : Vocabulary) (article : Article) (doc : BsonDoc) : Prop :=
  ∃ oid procArticle, doc = ProcessedArticle.storedDoc oid procArticle ∧
    procArticle.stemIds = vocab.recordedIds env.text article.tokens

/-- What the second loop does: it keeps the stems, and stores a document for each
of some articles. -/
structure BatchStored (env : Env) (s : System) (articles : List Article) (t : System) :
    Prop where
  stems : t.startupVocab.stems = s.startupVocab.stems
  stopWords : t.startupVocab.stopWords = s.startupVocab.stopWords
  collections : ∀ collectStr, collectStr ≠ "articles" →
    t.db.collections collectStr = s.db.collections collectStr
  docs : ∃ docs, t.db.collections "articles" = s.db.collections "articles" ++ docs ∧
    List.Forall₂ (StoredFrom env s.startupVocab) articles docs

theorem BatchStored.refl (env : Env) (s : System) : BatchStored env s [] s :=
  ⟨rfl, rfl, fun _ _ => rfl, [], (List.append_nil _).symm, List.Forall₂.nil⟩

theorem BatchStored.trans {env : Env} {s mid t : System} {first rest : List Article}
    (hfirst : BatchStored env s first mid) (hrest : BatchStored env mid rest t) :
    BatchStored env s (first ++ rest) t := by
  obtain ⟨firstDocs, hfirstDocs, hfirstAll⟩ := hfirst.docs
  obtain ⟨restDocs, hrestDocs, hrestAll⟩ := hrest.docs
  have hids : ∀ article : Article, mid.startupVocab.recordedIds env.text article.tokens =
      s.startupVocab.recordedIds env.text article.tokens := by
    intro article
    rw [Vocabulary.recordedIds, Vocabulary.recordedIds]
    congr 1
    funext token
    exact Vocabulary.recordedId?_congr hfirst.stems hfirst.stopWords token
  refine ⟨hrest.stems.trans hfirst.stems, hrest.stopWords.trans hfirst.stopWords,
    fun collectStr hne => (hrest.collections collectStr hne).trans
      (hfirst.collections collectStr hne), firstDocs ++ restDocs, ?_, ?_⟩
  · rw [hrestDocs, hfirstDocs, List.append_assoc]
  · apply List.rel_append hfirstAll
    apply hrestAll.imp
    rintro article doc ⟨oid, procArticle, hdoc, hstemIds⟩
    exact ⟨oid, procArticle, hdoc, hstemIds.trans (hids article)⟩

/-- Processing the tokens of an article stores nothing, and storing the processed
article appends its document. -/
theorem BatchStored.of_processTokens {env : Env} {s t : System} {article : Article}
    {vocab : Vocabulary} {uninitialised : Signature} {procArticle : ProcessedArticle}
    {shingles : SortedSet Int32}
    (h : processTokens env.text true s.startupVocab article (.fresh uninitialised) =
      some (vocab, procArticle, shingles)) (hvocab : t.startupVocab = vocab) :
    (t.db = s.db → BatchStored env s [] t) ∧
      (t.db = (saveArticle env.newOid s.db procArticle).2 → BatchStored env s [article] t) := by
  obtain ⟨hspec, idsTokensMap, hproc⟩ := processTokens_spec h
  have hrecorded : procArticle.stemIds = s.startupVocab.recordedIds env.text article.tokens := by
    rw [hproc]
    exact List.nil_append _
  have hstems := (congrArg Vocabulary.stems hvocab).trans hspec.stems
  have hstop := (congrArg Vocabulary.stopWords hvocab).trans hspec.stopWords
  refine ⟨fun hdb => ⟨hstems, hstop, ?_, [], ?_, List.Forall₂.nil⟩,
    fun hdb => ⟨hstems, hstop, ?_, [procArticle.storedDoc (env.newOid s.db.inserted)], ?_, ?_⟩⟩
  · intro collectStr _
    rw [hdb]
  · rw [hdb, List.append_nil]
  · intro collectStr hne
    rw [hdb, saveArticle, collections_saveDoc, Function.update_of_ne hne]
  · rw [hdb, articles_saveArticle]
  · exact List.Forall₂.cons ⟨_, _, rfl, hrecorded⟩ List.Forall₂.nil

/-- What one article of the second loop does: it is stored unless storing throws,
and the loop goes on unless a call throws. -/
theorem storeBatchArticle_batchStored {env : Env} {faults : Faults} {uninitialised : Signature}
    {state : System × List ProcessedArticle} {article : Article} {t : System}
    {kept : Option (List ProcessedArticle)}
    (h : storeBatchArticle env faults uninitialised state article = some (t, kept)) :
    (faults.saveThrows = true ∧ kept = none ∧ BatchStored env state.1 [] t) ∨
    (faults.saveThrows = false ∧ faults.dedupThrows = true ∧ kept = none ∧
      BatchStored env state.1 [article] t) ∨
    (faults.saveThrows = false ∧ faults.dedupThrows = false ∧ kept.isSome ∧
      BatchStored env state.1 [article] t) := by
  obtain ⟨⟨vocab, procArticle, shingles⟩, hprocess, h⟩ := Option.bind_eq_some_iff.mp h
  obtain ⟨⟨s, result⟩, hsave, h⟩ := Option.bind_eq_some_iff.mp h
  cases h
  rcases saveAndAsk_cases hsave with ⟨hthrows, rfl, rfl⟩ | ⟨hsaved, hthrows, rfl, rfl⟩ |
    ⟨hsaved, hasked, isDuplicate, dedup, -, rfl, rfl⟩
  · exact Or.inl ⟨hthrows, rfl, (BatchStored.of_processTokens hprocess rfl).1 rfl⟩
  · exact Or.inr (Or.inl ⟨hsaved, hthrows, rfl,
      (BatchStored.of_processTokens hprocess rfl).2 rfl⟩)
  · exact Or.inr (Or.inr ⟨hsaved, hasked, rfl,
      (BatchStored.of_processTokens hprocess rfl).2 rfl⟩)

theorem storeArticles_batchStored {env : Env} {faults : ℕ → Faults} {memory : ℕ → Signature}
    {state : System × List ProcessedArticle} {entries : List (Article × ℕ)}
    {result : System × Option (List ProcessedArticle)}
    (h : storeArticles env faults memory state entries = some result) :
    BatchStored env state.1 (storedArticles faults entries) result.1 := by
  induction entries generalizing state with
  | nil =>
      cases h
      exact BatchStored.refl env state.1
  | cons entry rest ih =>
      obtain ⟨⟨s, kept⟩, hstep, h⟩ := Option.bind_eq_some_iff.mp h
      rw [storedArticles]
      rcases storeBatchArticle_batchStored hstep with ⟨hthrows, rfl, hstored⟩ |
        ⟨hsaved, hthrows, rfl, hstored⟩ | ⟨hsaved, hasked, hkept, hstored⟩
      · cases h
        rwa [if_pos hthrows]
      · cases h
        rwa [if_neg (ne_true_of_eq_false hsaved), if_pos hthrows]
      · obtain ⟨processedArticles, rfl⟩ := Option.isSome_iff_exists.mp hkept
        rw [if_neg (ne_true_of_eq_false hsaved), if_neg (ne_true_of_eq_false hasked)]
        exact hstored.trans (ih h)

/-! ## The whole program -/

/-- How a run of the program can end: without stored articles, or with a document
for each valid article of a batch that could be parsed, up to an exception. -/
theorem startup_cases {env : Env} {faults : ℕ → Faults} {memory : ℕ → Signature}
    {wordsFile stopwordsFile : Option Bytes} {stemsFreq : Fin maxStemsNo → Int32}
    {articlesXml : List Bytes} {s final : System}
    (h : startup env faults memory wordsFile stopwordsFile stemsFreq articlesXml s = some final) :
    (final.db.collections "articles" = [] ∧
      ∀ vocab, Vocabulary.ofFiles env.text wordsFile stopwordsFile stemsFreq = some vocab →
        acceptedArticles env vocab articlesXml = none) ∨
    ∃ vocab articles docs db mid,
      Vocabulary.ofFiles env.text wordsFile stopwordsFile stemsFreq = some vocab ∧
      acceptedArticles env vocab articlesXml = some articles ∧
      final.db.collections "vocabulary" =
        (saveVocabulary env.newOid db vocab).collections "vocabulary" ∧
      final.db.collections "articles" = docs ∧
      List.Forall₂ (StoredFrom env mid) (storedArticles faults articles.zipIdx) docs ∧
      mid.stopWords = vocab.stopWords ∧
      ∀ stem, stem ∈ mid.stems ↔
        stem ∈ vocab.stems ∨ HasValidStem env.text vocab articles stem := by
  unfold startup at h
  simp only at h
  cases hfiles : Vocabulary.ofFiles env.text wordsFile stopwordsFile stemsFreq with
  | none =>
      rw [hfiles] at h
      cases h
      refine Or.inl ⟨?_, fun vocab hvocab => by cases hvocab⟩
      simp [MongoDb.dropCollection]
  | some vocab =>
      rw [hfiles] at h
      obtain ⟨⟨last, processed⟩, hbatch, hlast⟩ := Option.map_eq_some_iff.mp h
      obtain rfl : last = final := hlast
      have hdropped : (saveVocabulary env.newOid (s.db.dropCollection "articles")
          vocab).collections "articles" = [] := by
        simp [saveVocabulary, MongoDb.dropCollection]
      have haccepted := acceptArticles_accepted env
        { s with
          db := saveVocabulary env.newOid (s.db.dropCollection "articles") vocab
          startupVocab := vocab } articlesXml
      unfold processArticlesBatch at hbatch
      generalize acceptArticles env _ articlesXml = result at hbatch haccepted
      obtain ⟨mid, kept⟩ := result
      cases kept with
      | none =>
          cases hbatch
          refine Or.inl ⟨(haccepted.collections "articles" (by decide)).trans hdropped, ?_⟩
          rintro other hother
          cases hother
          exact haccepted.accepted.symm
      | some articles =>
          have hstored := storeArticles_batchStored hbatch
          obtain ⟨docs, hdocs, hall⟩ := hstored.docs
          refine Or.inr ⟨vocab, articles, docs, s.db.dropCollection "articles",
            mid.startupVocab, rfl, haccepted.accepted.symm, ?_, ?_, hall, haccepted.stopWords,
            haccepted.mem_stems articles rfl⟩
          · exact (hstored.collections "vocabulary" (by decide)).trans
              (haccepted.collections "vocabulary" (by decide))
          · rw [hdocs, haccepted.collections "articles" (by decide), hdropped, List.nil_append]

/-- Every stored stem id denotes, in the vocabulary that is loaded, the stem it
denotes in the start-up vocabulary. The ids are recorded by the second loop,
which keeps the stems (`BatchStored.stems`). -/
def StemIdsKept (s : System) (stemsFreq : Fin maxStemsNo → Int32) : Prop :=
  ∀ doc ∈ s.db.getDocs "articles", ∀ elems, doc.element "stem_ids" = some (.array elems) →
    ∀ x, .int32 x ∈ elems → ∃ loaded stem,
      loadVocabulary s.db (Vocabulary.fresh stemsFreq) = .ok loaded ∧
      loaded.getStem x = some stem ∧ s.startupVocab.getStem x = some stem

/-- No kept token of an article that is stored stems like a valid word of a valid
article: nothing is recorded. -/
def NothingRecorded (env : Env) (faults : ℕ → Faults) (wordsFile stopwordsFile : Option Bytes)
    (stemsFreq : Fin maxStemsNo → Int32) (articlesXml : List Bytes) : Prop :=
  ∀ vocab articles, Vocabulary.ofFiles env.text wordsFile stopwordsFile stemsFreq = some vocab →
    acceptedArticles env vocab articlesXml = some articles →
    ∀ article ∈ storedArticles faults articles.zipIdx, ∀ token ∈ article.tokens,
      vocab.keeps (env.text.toLower token) →
      ¬ HasValidStem env.text vocab articles (env.text.trimAndStem (env.text.toLower token))

/-- A vocabulary made from files has no stems. -/
theorem notMem_stems_of_ofFiles {text : TextOps} {wordsFile stopwordsFile : Option Bytes}
    {stemsFreq : Fin maxStemsNo → Int32} {vocab : Vocabulary}
    (h : Vocabulary.ofFiles text wordsFile stopwordsFile stemsFreq = some vocab) (stem : Bytes) :
    stem ∉ vocab.stems := by
  obtain ⟨words, -, h⟩ := Option.bind_eq_some_iff.mp h
  obtain ⟨stopWords, -, h⟩ := Option.bind_eq_some_iff.mp h
  cases h
  exact SortedSet.notMem_empty stem

/-- An id is recorded exactly if a kept token stems like a valid word. -/
theorem exists_mem_recordedIds {text : TextOps} {vocab mid : Vocabulary} {articles : List Article}
    {tokens : List Bytes} (hstop : mid.stopWords = vocab.stopWords)
    (hknown : ∀ stem, stem ∈ mid.stems ↔ HasValidStem text vocab articles stem) :
    (∃ id, id ∈ mid.recordedIds text tokens) ↔
      ∃ token ∈ tokens, vocab.keeps (text.toLower token) ∧
        HasValidStem text vocab articles (text.trimAndStem (text.toLower token)) := by
  have hkeeps : ∀ word, mid.keeps word = vocab.keeps word := Vocabulary.keeps_congr hstop
  simp only [Vocabulary.mem_recordedIds, Vocabulary.recordedId?_eq_some,
    Vocabulary.getStemId_eq_some, hkeeps, hknown]
  constructor
  · rintro ⟨id, token, htoken, hkept, hvalid, -⟩
    exact ⟨token, htoken, hkept, hvalid⟩
  · rintro ⟨token, htoken, hkept, hvalid⟩
    exact ⟨_, token, htoken, hkept, hvalid, rfl⟩

/-- The vocabulary that is loaded after the program knows no stem. -/
theorem getStem_loaded {text : TextOps} {wordsFile stopwordsFile : Option Bytes}
    {stemsFreq : Fin maxStemsNo → Int32} {vocab : Vocabulary}
    (h : Vocabulary.ofFiles text wordsFile stopwordsFile stemsFreq = some vocab)
    (loadedFreq : Fin maxStemsNo → Int32) (x : StemId) :
    ((Vocabulary.fresh loadedFreq).addStems vocab.stems).getStem x = none := by
  cases hget : ((Vocabulary.fresh loadedFreq).addStems vocab.stems).getStem x with
  | none => rfl
  | some stem =>
      have hmem := Vocabulary.mem_of_getStem hget
      rw [Vocabulary.addStems_fresh_stems] at hmem
      exact absurd hmem (notMem_stems_of_ofFiles h stem)

/-- **When stored stem ids keep their meaning.** After a completed run, every
stored stem id denotes the same stem in the loaded vocabulary exactly if none
was recorded. -/
theorem stemIdsKept_iff {env : Env} {faults : ℕ → Faults} {memory : ℕ → Signature}
    {wordsFile stopwordsFile : Option Bytes} {stemsFreq loadedFreq : Fin maxStemsNo → Int32}
    {articlesXml : List Bytes} {s final : System}
    (hrun : startup env faults memory wordsFile stopwordsFile stemsFreq articlesXml s =
      some final) :
    StemIdsKept final loadedFreq ↔
      NothingRecorded env faults wordsFile stopwordsFile stemsFreq articlesXml := by
  rcases startup_cases hrun with ⟨hempty, hnone⟩ |
    ⟨vocab, articles, docs, db, mid, hfiles, haccepted, hvocab, hdocs, hall, hstop, hstems⟩
  · refine ⟨fun _ vocab articles hfiles haccepted => ?_, fun _ doc hdoc => ?_⟩
    · rw [hnone vocab hfiles] at haccepted
      cases haccepted
    · rw [MongoDb.getDocs, hempty] at hdoc
      cases hdoc
  · have hloaded : loadVocabulary final.db (Vocabulary.fresh loadedFreq) =
        .ok ((Vocabulary.fresh loadedFreq).addStems vocab.stems) :=
      loadVocabulary_saveVocabulary env.newOid db vocab _ hvocab
    have hknown : ∀ stem, stem ∈ mid.stems ↔ HasValidStem env.text vocab articles stem := by
      intro stem
      rw [hstems, or_iff_right (notMem_stems_of_ofFiles hfiles stem)]
    refine ⟨fun hkept other kept hother hkeptArticles => ?_, fun hnothing => ?_⟩
    · obtain rfl : vocab = other := Option.some.inj (hfiles.symm.trans hother)
      obtain rfl : articles = kept := Option.some.inj (haccepted.symm.trans hkeptArticles)
      intro article harticle token htoken hkeepsToken hvalid
      -- a recorded id is in the article's document, and cannot be looked up
      obtain ⟨id, hid⟩ := (exists_mem_recordedIds hstop hknown).mpr
        ⟨token, htoken, hkeepsToken, hvalid⟩
      obtain ⟨doc, hdoc, oid, procArticle, rfl, hstemIds⟩ :=
        exists_right_of_forall₂ hall harticle
      rw [← hstemIds] at hid
      obtain ⟨loaded, stem, hload, hget, -⟩ := hkept _ (by rw [MongoDb.getDocs, hdocs]; exact hdoc)
        _ rfl _ (List.mem_map_of_mem hid)
      rw [hloaded] at hload
      cases hload
      rw [getStem_loaded hfiles] at hget
      cases hget
    · intro doc hdoc elems helems x hx
      rw [MongoDb.getDocs, hdocs] at hdoc
      obtain ⟨article, harticle, oid, procArticle, rfl, hstemIds⟩ :=
        exists_left_of_forall₂ hall hdoc
      have hids : some (Bson.array (procArticle.stemIds.map .int32)) = some (.array elems) := helems
      cases hids
      obtain ⟨id, hid, -⟩ := List.mem_map.mp hx
      rw [hstemIds] at hid
      obtain ⟨token, htoken, hkeepsToken, hvalid⟩ :=
        (exists_mem_recordedIds hstop hknown).mp ⟨id, hid⟩
      exact absurd hvalid
        (hnothing vocab articles hfiles haccepted article harticle token htoken hkeepsToken)

/-- The equivalence for a batch of one article that repeats the only known word. -/
theorem stemIdsKept_iff_letters :
    ∃ final, startup letterEnv (fun _ => .none) (fun _ _ => 0) (some [97, 97]) (some [])
        (fun _ => 0) [letterXml (List.replicate 100 97)] emptySystem = some final ∧
      (StemIdsKept final (fun _ => 0) ↔
        NothingRecorded letterEnv (fun _ => .none) (some [97, 97]) (some []) (fun _ => 0)
          [letterXml (List.replicate 100 97)]) := by
  have hsome : (startup letterEnv (fun _ => .none) (fun _ _ => 0) (some [97, 97]) (some [])
      (fun _ => 0) [letterXml (List.replicate 100 97)] emptySystem).isSome := by
    decide +kernel
  obtain ⟨final, hrun⟩ := Option.isSome_iff_exists.mp hsome
  exact ⟨final, hrun, stemIdsKept_iff hrun⟩

/-- The first stem id of the first article stored. -/
def firstStemId? (db : MongoDb) : Option Int32 :=
  match (db.getDocs "articles").head?.bind (BsonDoc.element · "stem_ids") with
  | some (.array (.int32 id :: _)) => some id
  | _ => none

theorem exists_doc_of_firstStemId? {db : MongoDb} {id : Int32} (h : firstStemId? db = some id) :
    ∃ doc elems, doc ∈ db.getDocs "articles" ∧
      BsonDoc.element doc "stem_ids" = some (.array (.int32 id :: elems)) := by
  unfold firstStemId? at h
  split at h
  · rename_i elems helems
    cases h
    have ⟨doc, hdoc, helement⟩ := Option.bind_eq_some_iff.mp helems
    exact ⟨doc, elems, List.mem_of_head? hdoc, helement⟩
  · cases h

/-- The stem that the stored vocabulary has at an id. -/
def loadedStem? (db : MongoDb) (id : StemId) : Option Bytes :=
  match loadVocabulary db (Vocabulary.fresh fun _ => 0) with
  | .ok loaded => loaded.getStem id
  | .error _ => none

/-- The stem id of that article denotes nothing in the vocabulary that is loaded. -/
theorem stem_id_lost :
    ¬ ∀ (env : Env) (faults : ℕ → Faults) (memory : ℕ → Signature)
      (wordsFile stopwordsFile : Option Bytes) (stemsFreq loadedFreq : Fin maxStemsNo → Int32)
      (articlesXml : List Bytes) (s final : System),
      startup env faults memory wordsFile stopwordsFile stemsFreq articlesXml s = some final →
        StemIdsKept final loadedFreq := by
  intro hall
  have hcheck : ((startup letterEnv (fun _ => .none) (fun _ _ => 0) (some [97, 97]) (some [])
      (fun _ => 0) [letterXml (List.replicate 100 97)] emptySystem).map fun final =>
        (firstStemId? final.db, loadedStem? final.db 0)) = some (some 0, none) := by
    decide +kernel
  obtain ⟨final, hrun, hfinal⟩ := Option.map_eq_some_iff.mp hcheck
  have hkept := hall letterEnv _ _ _ _ _ (fun _ => 0) _ _ final hrun
  obtain ⟨hfirst, hsecond⟩ := Prod.mk.inj hfinal
  have ⟨doc, elems, hdoc, helems⟩ := exists_doc_of_firstStemId? hfirst
  have ⟨loaded, stem, hloaded, hstem, _⟩ := hkept doc hdoc _ helems 0 List.mem_cons_self
  rw [loadedStem?, hloaded] at hsecond
  exact absurd (hstem.symm.trans hsecond) (Option.some_ne_none stem)

end Unbiased
