/-
# Articles that fail

An exception ends the handling of an article wherever it is thrown. The online
engine catches it for each article, and undoes nothing that was done before it.
The start-up program catches it outside of its loops, and loses the batch with
the article.
-/

import Unbiased.Clustering.Startup
import Unbiased.Scripts.ArticlesFile

namespace Unbiased

open Unbiased.Math

/-! ## One article online -/

/-- The call ends in the catch clause: the text cannot be parsed, or it is that of a
valid article and storing it or asking about it throws. -/
def EndsInCatch (env : Env) (faults : Faults) (articleStr : Bytes) (s : System) : Prop :=
  parseFromXml env.readXml articleStr = none ∨
    ∃ article, parseFromXml env.readXml articleStr = some article ∧
      (validate env.text s.pipelineVocab article).1 = true ∧
      (faults.saveThrows = true ∨ faults.dedupThrows = true)

instance (env : Env) (faults : Faults) (articleStr : Bytes) (s : System) :
    Decidable (EndsInCatch env faults articleStr s) :=
  decidable_of_iff ((parseFromXml env.readXml articleStr).all fun article =>
      (validate env.text s.pipelineVocab article).1 &&
        (faults.saveThrows || faults.dedupThrows)) <| by
    unfold EndsInCatch
    cases parseFromXml env.readXml articleStr with
    | none => simp
    | some article => simp

/-- Nothing that can be counted is different. -/
structure NoTrace (s t : System) : Prop where
  counts : ∀ stem ∈ s.pipelineVocab.stems,
    t.pipelineVocab.stemCount stem = s.pipelineVocab.stemCount stem
  tokens : ∀ stem ∈ s.pipelineVocab.stems,
    t.pipelineVocab.stemTokens stem = s.pipelineVocab.stemTokens stem
  documents : (t.db.getDocs "articles").length = (s.db.getDocs "articles").length
  processedArticles : t.processedArticles = s.processedArticles

/-- **The trace of a failed article.** It is never counted as processed. A text that
cannot be parsed leaves no trace at all. Any other has been merged and its
tokens processed, as those of an article that does not fail are; and it is
stored if asking about it threw. -/
theorem trace_of_endsInCatch {env : Env} {faults : Faults} {uninitialised : Signature}
    {articleStr : Bytes} {s t : System}
    (hrun : processArticle env faults uninitialised articleStr s = some t)
    (hcatch : EndsInCatch env faults articleStr s) :
    t.processedArticles = s.processedArticles ∧
      (parseFromXml env.readXml articleStr = none → t = s) ∧
      ∀ article, parseFromXml env.readXml articleStr = some article →
        TokensProcessed env.text
          (s.pipelineVocab.addStems (validate env.text s.pipelineVocab article).2.2)
          (validate env.text s.pipelineVocab article).2.1.tokens t.pipelineVocab ∧
        (t.db.getDocs "articles").length =
          (s.db.getDocs "articles").length + if faults.saveThrows then 0 else 1 := by
  rcases hcatch with hparse | ⟨article, hparse, hvalid, hthrows⟩
  · rw [processArticle, hparse] at hrun
    cases hrun
    refine ⟨rfl, fun _ => rfl, ?_⟩
    intro article harticle
    rw [hparse] at harticle
    cases harticle
  · rw [processArticle_of_valid hparse hvalid] at hrun
    obtain ⟨⟨vocab, procArticle, shingles⟩, hsubmit, hrun⟩ := Option.bind_eq_some_iff.mp hrun
    obtain ⟨⟨mid, result⟩, hsave, hrun⟩ := Option.bind_eq_some_iff.mp hrun
    have hspec := (processTokens_spec hsubmit).1
    have hparsed : ∀ other, parseFromXml env.readXml articleStr = some other →
        other = article := fun other hother => Option.some.inj (hother.symm.trans hparse)
    have hunparsed : parseFromXml env.readXml articleStr = none → t = s := by
      intro hnone
      rw [hparse] at hnone
      cases hnone
    rcases saveAndAsk_cases hsave with ⟨hsaved, rfl, rfl⟩ | ⟨hsaved, hasked, rfl, rfl⟩ |
      ⟨hsaved, hasked, -⟩
    · cases hrun
      refine ⟨rfl, hunparsed, ?_⟩
      intro other hother
      obtain rfl := hparsed other hother
      rw [if_pos hsaved]
      exact ⟨hspec, rfl⟩
    · cases hrun
      refine ⟨rfl, hunparsed, ?_⟩
      intro other hother
      obtain rfl := hparsed other hother
      rw [if_neg (ne_true_of_eq_false hsaved)]
      refine ⟨hspec, ?_⟩
      rw [MongoDb.getDocs, articles_saveArticle, List.length_append]
      rfl
    · rw [hsaved, hasked] at hthrows
      simp at hthrows

/-- An engine whose vocabulary, as it is loaded, knows the stem `aa`. -/
def loadedSystem : System :=
  { emptySystem with
    pipelineVocab := (Vocabulary.fresh fun _ => 0).addStems (SortedSet.empty.insert [97, 97]) }

/-- The XML text of an article with the word `aa` and 99 words of one letter. -/
def loadedXml : Bytes :=
  letterXmlHead ++ ([97, 97, 32] ++ (List.replicate 99 [97, 32]).flatten) ++ letterXmlTail

/-- What is left of such an article if asking about it throws. -/
theorem trace_of_endsInCatch_loaded :
    ∃ t, processArticle letterEnv ⟨false, true⟩ (fun _ => 0) loadedXml loadedSystem = some t ∧
      t.processedArticles = loadedSystem.processedArticles ∧
      (parseFromXml letterEnv.readXml loadedXml = none → t = loadedSystem) ∧
      ∀ article, parseFromXml letterEnv.readXml loadedXml = some article →
        TokensProcessed letterEnv.text (loadedSystem.pipelineVocab.addStems
            (validate letterEnv.text loadedSystem.pipelineVocab article).2.2)
          (validate letterEnv.text loadedSystem.pipelineVocab article).2.1.tokens
          t.pipelineVocab ∧
        (t.db.getDocs "articles").length = (loadedSystem.db.getDocs "articles").length + 1 := by
  have hsome : (processArticle letterEnv ⟨false, true⟩ (fun _ => 0) loadedXml
      loadedSystem).isSome := by
    decide +kernel
  have hcatch : EndsInCatch letterEnv ⟨false, true⟩ loadedXml loadedSystem := by
    decide +kernel
  obtain ⟨t, hrun⟩ := Option.isSome_iff_exists.mp hsome
  exact ⟨t, hrun, trace_of_endsInCatch hrun hcatch⟩

/-- If storing that article throws, its stem `aa` has been counted. -/
theorem count_of_failed_article :
    ¬ ∀ (env : Env) (faults : Faults) (uninitialised : Signature) (articleStr : Bytes)
      (s t : System), processArticle env faults uninitialised articleStr s = some t →
        EndsInCatch env faults articleStr s → NoTrace s t := by
  intro hall
  have hcounted : (processArticle letterEnv ⟨true, false⟩ (fun _ => 0) loadedXml
      loadedSystem).map (fun t => t.pipelineVocab.stemCount [97, 97]) = some (some 1) := by
    decide +kernel
  have hbefore : loadedSystem.pipelineVocab.stemCount [97, 97] = some 0 := by decide +kernel
  have hcatch : EndsInCatch letterEnv ⟨true, false⟩ loadedXml loadedSystem := by
    decide +kernel
  obtain ⟨t, hrun, hcount⟩ := Option.map_eq_some_iff.mp hcounted
  have hsame := (hall _ _ _ _ _ t hrun hcatch).counts [97, 97] (by decide +kernel)
  rw [hcount, hbefore] at hsame
  exact absurd hsame (by decide)

/-! ## A batch of articles -/

/-- The articles of a list that parse and are valid, in list order. -/
def goodArticles (env : Env) (vocab : Vocabulary) (articlesXml : List Bytes) : List Article :=
  (articlesXml.filterMap (parseFromXml env.readXml)).filterMap fun article =>
    if (validate env.text vocab article).1 then some (validate env.text vocab article).2.1 else none

/-- A stored document and a message are those of an article: the document has its
metadata, and the message the document's id. -/
def Recorded (article : Article) (record : BsonDoc × DocSignature) : Prop :=
  ∃ oid procArticle, record.1 = ProcessedArticle.storedDoc oid procArticle ∧
    procArticle.metaData = article.metaData ∧ record.2.1 = oid.toString

/-- Exactly the good articles of the batch are stored and sent, in order, as they
are when the texts that cannot be parsed are taken out of it. -/
structure BatchKept (env : Env) (memory : ℕ → Signature) (articlesXml : List Bytes)
    (s t : System) : Prop where
  records : ∃ records : List (BsonDoc × DocSignature),
    t.db.collections "articles" = s.db.collections "articles" ++ records.map Prod.fst ∧
    t.sent = s.sent ++ records.map Prod.snd ∧
    List.Forall₂ Recorded (goodArticles env s.startupVocab articlesXml) records
  withoutThrowing : ∃ u kept,
    processArticlesBatch env (fun _ => .none) memory s
      (articlesXml.filter fun articleXml => (parseFromXml env.readXml articleXml).isSome) =
        some (u, kept) ∧
    t.db.collections "articles" = u.db.collections "articles" ∧ t.sent = u.sent

/-- If all of a batch can be parsed, its valid articles are its good ones. -/
theorem acceptedArticles_of_parsed {env : Env} {vocab : Vocabulary} {articlesXml : List Bytes}
    (hparsed : ∀ articleXml ∈ articlesXml, (parseFromXml env.readXml articleXml).isSome) :
    acceptedArticles env vocab articlesXml = some (goodArticles env vocab articlesXml) := by
  induction articlesXml with
  | nil => rfl
  | cons articleXml rest ih =>
      obtain ⟨article, harticle⟩ := Option.isSome_iff_exists.mp
        (hparsed articleXml List.mem_cons_self)
      rw [acceptedArticles_cons_some harticle,
        ih fun other hother => hparsed other (List.mem_cons_of_mem _ hother)]
      simp only [goodArticles, List.filterMap_cons, harticle, Option.map_some]
      split
      · rfl
      · rfl

/-- If something in a batch cannot be parsed, there are no articles for the second
loop. -/
theorem acceptedArticles_of_not_parsed {env : Env} {vocab : Vocabulary}
    {articlesXml : List Bytes} {articleXml : Bytes} (hmem : articleXml ∈ articlesXml)
    (hthrows : parseFromXml env.readXml articleXml = none) :
    acceptedArticles env vocab articlesXml = none := by
  cases haccepted : acceptedArticles env vocab articlesXml with
  | none => rfl
  | some articles =>
      obtain ⟨parsed, hparsed, -⟩ := Option.map_eq_some_iff.mp haccepted
      obtain ⟨article, harticle⟩ := exists_of_mapM hparsed hmem
      rw [hthrows] at harticle
      cases harticle

/-- Taking out what cannot be parsed leaves the good articles. -/
theorem goodArticles_filter (env : Env) (vocab : Vocabulary) (articlesXml : List Bytes) :
    goodArticles env vocab
      (articlesXml.filter fun articleXml => (parseFromXml env.readXml articleXml).isSome) =
        goodArticles env vocab articlesXml := by
  unfold goodArticles
  congr 1
  induction articlesXml with
  | nil => rfl
  | cons articleXml rest ih =>
      cases hparse : parseFromXml env.readXml articleXml with
      | none => simp [hparse, ih]
      | some article => simp [hparse, ih]

/-- The first loop sends nothing. -/
theorem sent_acceptArticles (env : Env) (s : System) (articlesXml : List Bytes) :
    (acceptArticles env s articlesXml).1.sent = s.sent := by
  induction articlesXml generalizing s with
  | nil => rfl
  | cons articleXml rest ih =>
      cases hparse : parseFromXml env.readXml articleXml with
      | none => rw [acceptArticles_cons_none hparse]
      | some article =>
          rw [acceptArticles_cons_some hparse]
          split
          · exact ih _
          · exact ih _

/-- Without faults the second loop stores and sends its articles, one after the
other. -/
theorem storeArticles_records {env : Env} {memory : ℕ → Signature}
    {state : System × List ProcessedArticle} {entries : List (Article × ℕ)} {t : System}
    {kept : Option (List ProcessedArticle)}
    (h : storeArticles env (fun _ => .none) memory state entries = some (t, kept)) :
    ∃ records : List (BsonDoc × DocSignature),
      t.db.collections "articles" = state.1.db.collections "articles" ++ records.map Prod.fst ∧
      t.sent = state.1.sent ++ records.map Prod.snd ∧
      List.Forall₂ Recorded (entries.map Prod.fst) records := by
  induction entries generalizing state with
  | nil =>
      cases h
      exact ⟨[], (List.append_nil _).symm, (List.append_nil _).symm, List.Forall₂.nil⟩
  | cons entry rest ih =>
      obtain ⟨⟨mid, next⟩, hstep, h⟩ := Option.bind_eq_some_iff.mp h
      obtain ⟨⟨vocab, procArticle, shingles⟩, hprocess, hstep⟩ := Option.bind_eq_some_iff.mp hstep
      obtain ⟨⟨asked, result⟩, hsave, hstep⟩ := Option.bind_eq_some_iff.mp hstep
      cases hstep
      rcases saveAndAsk_cases hsave with ⟨hthrows, -⟩ | ⟨-, hthrows, -⟩ |
        ⟨-, -, isDuplicate, dedup, -, rfl, rfl⟩
      · cases hthrows
      · cases hthrows
      · obtain ⟨records, hdocs, hsent, hall⟩ := ih h
        obtain ⟨-, idsTokensMap, hproc⟩ := processTokens_spec hprocess
        refine ⟨(ProcessedArticle.storedDoc (env.newOid state.1.db.inserted) procArticle,
          nextMessage env state.1 shingles) :: records, ?_, ?_,
          List.Forall₂.cons ⟨_, _, rfl, ?_, rfl⟩ hall⟩
        · rw [hdocs, articles_saveArticle, List.append_assoc]
          rfl
        · rw [hsent, List.append_assoc]
          rfl
        · rw [hproc]

/-- A batch that can be parsed is kept. -/
theorem records_of_parsed {env : Env} {memory : ℕ → Signature} {articlesXml : List Bytes}
    {s t : System} {kept : Option (List ProcessedArticle)}
    (hrun : processArticlesBatch env (fun _ => .none) memory s articlesXml = some (t, kept))
    (hparsed : ∀ articleXml ∈ articlesXml, (parseFromXml env.readXml articleXml).isSome) :
    ∃ records : List (BsonDoc × DocSignature),
      t.db.collections "articles" = s.db.collections "articles" ++ records.map Prod.fst ∧
      t.sent = s.sent ++ records.map Prod.snd ∧
      List.Forall₂ Recorded (goodArticles env s.startupVocab articlesXml) records := by
  have haccepted := acceptArticles_accepted env s articlesXml
  have hsent := sent_acceptArticles env s articlesXml
  unfold processArticlesBatch at hrun
  generalize acceptArticles env s articlesXml = result at hrun haccepted hsent
  obtain ⟨mid, articles⟩ := result
  have hgood : articles = some (goodArticles env s.startupVocab articlesXml) :=
    haccepted.accepted.trans (acceptedArticles_of_parsed hparsed)
  subst hgood
  obtain ⟨records, hdocs, hmessages, hall⟩ := storeArticles_records hrun
  rw [haccepted.collections "articles" (by decide)] at hdocs
  rw [List.zipIdx_map_fst] at hall
  exact ⟨records, hdocs, hmessages.trans (congrArg (· ++ _) hsent), hall⟩

/-- A batch with something that cannot be parsed stores and sends nothing. -/
theorem nothing_of_not_parsed {env : Env} {faults : ℕ → Faults} {memory : ℕ → Signature}
    {articlesXml : List Bytes} {s : System} {articleXml : Bytes}
    (hmem : articleXml ∈ articlesXml) (hthrows : parseFromXml env.readXml articleXml = none) :
    ∃ t, processArticlesBatch env faults memory s articlesXml = some (t, none) ∧
      t.db.collections "articles" = s.db.collections "articles" ∧ t.sent = s.sent := by
  have haccepted := acceptArticles_accepted env s articlesXml
  have hsent := sent_acceptArticles env s articlesXml
  unfold processArticlesBatch
  generalize acceptArticles env s articlesXml = result at haccepted hsent
  obtain ⟨mid, articles⟩ := result
  have hnone : articles = none :=
    haccepted.accepted.trans (acceptedArticles_of_not_parsed hmem hthrows)
  subst hnone
  exact ⟨mid, rfl, haccepted.collections "articles" (by decide), hsent⟩

/-- There are no good articles if nothing that can be parsed is valid. -/
theorem goodArticles_eq_nil {env : Env} {vocab : Vocabulary} {articlesXml : List Bytes} :
    goodArticles env vocab articlesXml = [] ↔ ∀ articleXml ∈ articlesXml, ∀ article,
      parseFromXml env.readXml articleXml = some article →
        (validate env.text vocab article).1 = false := by
  simp only [goodArticles, List.filterMap_eq_nil_iff, List.mem_filterMap, ite_eq_right_iff,
    reduceCtorEq, imp_false, Bool.not_eq_true]
  constructor
  · exact fun h articleXml hmem article hparse => h article ⟨articleXml, hmem, hparse⟩
  · rintro h article ⟨articleXml, hmem, hparse⟩
    exact h articleXml hmem article hparse

/-- A batch without good articles goes through, once what cannot be parsed is taken
out of it. -/
theorem exists_run_of_no_good {env : Env} {faults : ℕ → Faults} {memory : ℕ → Signature}
    {articlesXml : List Bytes} {s : System}
    (hparsed : ∀ articleXml ∈ articlesXml, (parseFromXml env.readXml articleXml).isSome)
    (hnone : goodArticles env s.startupVocab articlesXml = []) :
    ∃ u, processArticlesBatch env faults memory s articlesXml = some (u, some []) := by
  have haccepted := (acceptArticles_accepted env s articlesXml).accepted
  rw [acceptedArticles_of_parsed hparsed, hnone] at haccepted
  unfold processArticlesBatch
  generalize acceptArticles env s articlesXml = result at haccepted
  obtain ⟨mid, articles⟩ := result
  subst haccepted
  exact ⟨mid, rfl⟩

/-- If something in a batch that is kept cannot be parsed, it has no good articles. -/
theorem BatchKept.no_good {env : Env} {memory : ℕ → Signature} {articlesXml : List Bytes}
    {s t : System} {kept : Option (List ProcessedArticle)}
    (h : BatchKept env memory articlesXml s t)
    (hrun : processArticlesBatch env (fun _ => .none) memory s articlesXml = some (t, kept))
    {bad : Bytes} (hbad : bad ∈ articlesXml) (hthrows : parseFromXml env.readXml bad = none) :
    goodArticles env s.startupVocab articlesXml = [] := by
  obtain ⟨stopped, hstopped, hdocs, -⟩ := nothing_of_not_parsed hbad hthrows
  obtain rfl : t = stopped := congrArg Prod.fst (Option.some.inj (hrun.symm.trans hstopped))
  obtain ⟨records, hrecords, -, hall⟩ := h.records
  rw [hdocs] at hrecords
  obtain rfl := List.map_eq_nil_iff.mp (List.self_eq_append_right.mp hrecords)
  exact List.forall₂_nil_right_iff.mp hall

/-- **When a batch survives its bad articles.** A batch that is run without faults
stores and sends exactly its good articles, as if what cannot be parsed were not
there, exactly if all of it can be parsed or there are no good articles. -/
theorem batchKept_iff {env : Env} {memory : ℕ → Signature} {articlesXml : List Bytes}
    {s t : System} {kept : Option (List ProcessedArticle)}
    (hrun : processArticlesBatch env (fun _ => .none) memory s articlesXml = some (t, kept)) :
    BatchKept env memory articlesXml s t ↔
      (∀ articleXml ∈ articlesXml, (parseFromXml env.readXml articleXml).isSome) ∨
      ∀ articleXml ∈ articlesXml, ∀ article,
        parseFromXml env.readXml articleXml = some article →
          (validate env.text s.startupVocab article).1 = false := by
  rw [← goodArticles_eq_nil]
  by_cases hparsed : ∀ articleXml ∈ articlesXml, (parseFromXml env.readXml articleXml).isSome
  · refine iff_of_true ⟨records_of_parsed hrun hparsed, t, kept, ?_, rfl, rfl⟩ (Or.inl hparsed)
    rwa [List.filter_eq_self.mpr hparsed]
  · rw [or_iff_right hparsed]
    push Not at hparsed
    obtain ⟨bad, hbad, hthrows⟩ := hparsed
    have hthrows := Option.not_isSome_iff_eq_none.mp hthrows
    constructor
    · exact fun h => h.no_good hrun hbad hthrows
    · intro hnone
      obtain ⟨stopped, hstopped, hdocs, hsent⟩ := nothing_of_not_parsed hbad hthrows
      obtain rfl : t = stopped :=
        congrArg Prod.fst (Option.some.inj (hrun.symm.trans hstopped))
      have hfiltered : ∀ articleXml ∈ articlesXml.filter fun articleXml =>
          (parseFromXml env.readXml articleXml).isSome,
          (parseFromXml env.readXml articleXml).isSome :=
        fun articleXml hmem => (List.mem_filter.mp hmem).2
      have hgood := hnone
      rw [← goodArticles_filter] at hgood
      obtain ⟨u, hu⟩ := exists_run_of_no_good hfiltered hgood
      obtain ⟨records, hrecords, hmessages, hall⟩ := records_of_parsed hu hfiltered
      rw [hgood] at hall
      cases hall
      refine ⟨⟨[], ?_, ?_, ?_⟩, u, some [], hu, ?_, ?_⟩
      · rw [hdocs, List.map_nil, List.append_nil]
      · rw [hsent, List.map_nil, List.append_nil]
      · rw [hnone]
        exact List.Forall₂.nil
      · rw [hdocs, hrecords, List.map_nil, List.append_nil]
      · rw [hsent, hmessages, List.map_nil, List.append_nil]

/-- An engine that knows the words `aa` and `bb`, at the start of a batch. -/
def batchSystem : System := { emptySystem with startupVocab := letterVocabulary }

/-- The equivalence for a batch of one good article. -/
theorem batchKept_iff_letters :
    ∃ t kept, processArticlesBatch letterEnv (fun _ => .none) (fun _ _ => 0) batchSystem
        [letterXml (List.replicate 100 97)] = some (t, kept) ∧
      (BatchKept letterEnv (fun _ _ => 0) [letterXml (List.replicate 100 97)] batchSystem t ↔
        (∀ articleXml ∈ [letterXml (List.replicate 100 97)],
          (parseFromXml letterEnv.readXml articleXml).isSome) ∨
        ∀ articleXml ∈ [letterXml (List.replicate 100 97)], ∀ article,
          parseFromXml letterEnv.readXml articleXml = some article →
            (validate letterEnv.text batchSystem.startupVocab article).1 = false) := by
  have hsome : (processArticlesBatch letterEnv (fun _ => .none) (fun _ _ => 0) batchSystem
      [letterXml (List.replicate 100 97)]).isSome := by
    decide +kernel
  obtain ⟨⟨t, kept⟩, hrun⟩ := Option.isSome_iff_exists.mp hsome
  exact ⟨t, kept, hrun, batchKept_iff hrun⟩

/-- `junk</article>`, which cannot be parsed. -/
def junkXml : Bytes := [106, 117, 110, 107] ++ ascii "</article>"

/-- A good article in front of one that cannot be parsed is lost with it, in a batch that is
loaded from a file. -/
theorem batch_lost :
    ¬ ∀ (env : Env) (memory : ℕ → Signature) (ctype : Ctype) (articlesFile : Bytes)
      (articlesXml : List Bytes) (s t : System) (kept : Option (List ProcessedArticle)),
      loadArticlesXml ctype (some articlesFile) = some articlesXml →
      processArticlesBatch env (fun _ => .none) memory s articlesXml = some (t, kept) →
        BatchKept env memory articlesXml s t := by
  intro hall
  have hload : loadArticlesXml .classic (some (letterXml (List.replicate 100 97) ++
      ascii "\n\n" ++ junkXml ++ ascii "\n\n")) =
        some [letterXml (List.replicate 100 97), junkXml] := by
    decide +kernel
  have hsome : (processArticlesBatch letterEnv (fun _ => .none) (fun _ _ => 0) batchSystem
      [letterXml (List.replicate 100 97), junkXml]).isSome := by
    decide +kernel
  have hgood : (goodArticles letterEnv batchSystem.startupVocab
      [letterXml (List.replicate 100 97), junkXml]).isEmpty = false := by
    decide +kernel
  have hthrows : parseFromXml letterEnv.readXml junkXml = none := by
    rw [parseFromXml, show letterEnv.readXml junkXml = none by decide]
    rfl
  obtain ⟨⟨t, kept⟩, hrun⟩ := Option.isSome_iff_exists.mp hsome
  have hnone := (hall _ _ _ _ _ _ t kept hload hrun).no_good hrun
    (List.mem_cons_of_mem _ List.mem_cons_self) hthrows
  exact List.isEmpty_eq_false_iff.mp hgood hnone

end Unbiased
