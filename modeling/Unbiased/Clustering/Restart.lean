/-
# Restarting the dedup server

The server keeps its buckets in memory. A new one files the signatures that the
database holds. Both programs store an article first and sign it afterwards, so
what is stored is whatever the memory held before.
-/

import Unbiased.Clustering.Startup

namespace Unbiased

open Unbiased.Math

/-- The constructor: file the signatures of the stored articles. -/
def loadArticleDedup (hashCombine : HashCombine) (db : MongoDb) : Option ArticleDedup :=
  match loadArticlesSignatures db with
  | .ok docsSignatures => ArticleDedup.make hashCombine docsSignatures
  | .error _ => none

/-- Where an article comes from. -/
inductive Handled where
  /-- A text handled by the online engine. -/
  | online (articleStr : Bytes)
  /-- An article of the second loop of the batch. -/
  | batch (article : Article)

/-- Handle one article, in the memory with its number. -/
def handle (env : Env) (memory : ℕ → Signature) (s : System)
    (event : (Handled × Faults) × ℕ) : Option System :=
  match event with
  | ((.online articleStr, faults), idx) => processArticle env faults (memory idx) articleStr s
  | ((.batch article, faults), idx) =>
    (storeBatchArticle env faults (memory idx) (s, []) article).map Prod.fst

/-- What is stored and sent does not depend on the articles collected before. -/
theorem map_fst_storeBatchArticle (env : Env) (faults : Faults) (uninitialised : Signature)
    (s : System) (collected : List ProcessedArticle) (article : Article) :
    (storeBatchArticle env faults uninitialised (s, collected) article).map Prod.fst =
      (storeBatchArticle env faults uninitialised (s, []) article).map Prod.fst := by
  unfold storeBatchArticle
  cases processTokens env.text true s.startupVocab article (.fresh uninitialised) with
  | none => rfl
  | some processed =>
      simp only [Option.bind_eq_bind, Option.bind_some]
      cases saveAndAsk env faults { s with startupVocab := processed.1 } processed.2.1
        processed.2.2 with
      | none => rfl
      | some saved => rfl

/-- The second loop of a batch handles its articles one after the other, up to
an exception. -/
theorem exists_run_of_storeArticles {env : Env} {faults : ℕ → Faults} {memory : ℕ → Signature}
    {state : System × List ProcessedArticle} {entries : List (Article × ℕ)} {t : System}
    {kept : Option (List ProcessedArticle)}
    (h : storeArticles env faults memory state entries = some (t, kept)) :
    ∃ handled, handled <+: entries ∧ run (handle env memory) state.1
      (handled.map fun entry => ((.batch entry.1, faults entry.2), entry.2)) = some t := by
  induction entries generalizing state with
  | nil =>
      cases h
      exact ⟨[], List.nil_prefix, rfl⟩
  | cons entry rest ih =>
      obtain ⟨⟨next, collected⟩, hstep, h⟩ := Option.bind_eq_some_iff.mp h
      have hhandle : handle env memory state.1 ((.batch entry.1, faults entry.2), entry.2) =
          some next := by
        show (storeBatchArticle env _ _ (state.1, []) entry.1).map Prod.fst = _
        rw [← map_fst_storeBatchArticle env _ _ state.1 state.2, hstep]
        rfl
      cases collected with
      | none =>
          cases h
          refine ⟨[entry], List.cons_prefix_cons.mpr ⟨rfl, List.nil_prefix⟩, ?_⟩
          rw [List.map_singleton, run_cons, hhandle]
          rfl
      | some collected =>
          obtain ⟨handled, hpre, hrun⟩ := ih h
          refine ⟨entry :: handled, List.cons_prefix_cons.mpr ⟨rfl, hpre⟩, ?_⟩
          rw [List.map_cons, run_cons, hhandle]
          exact hrun

/-- A restart changes nothing: what is decoded from the stored articles was sent,
and the buckets filled from it are those of the running server. -/
structure RestartAgrees (env : Env) (s : System) : Prop where
  signatures : ∀ doc ∈ s.db.getDocs "articles", ∃ idSign,
    artSigFromBson doc ([], fun _ => 0) = .ok idSign ∧ idSign ∈ s.sent
  buckets : ∃ dedup, loadArticleDedup env.hashCombine s.db = some dedup ∧
    dedup.lshDeduplication.lshBuckets = s.dedup.lshDeduplication.lshBuckets

/-- The article is stored: nothing throws before, and a text is that of a valid
article. -/
def Stores (env : Env) (s : System) : Handled × Faults → Prop
  | (.online articleStr, faults) => faults.saveThrows = false ∧
    ∃ article, parseFromXml env.readXml articleStr = some article ∧
      (validate env.text s.pipelineVocab article).1 = true
  | (.batch _, faults) => faults.saveThrows = false

/-! ## Articles that are not stored -/

/-- Validity depends on the dictionary and the stop words of the engine only. -/
theorem stores_congr {env : Env} {s t : System}
    (hwords : t.pipelineVocab.words = s.pipelineVocab.words)
    (hstop : t.pipelineVocab.stopWords = s.pipelineVocab.stopWords) (event : Handled × Faults) :
    Stores env t event ↔ Stores env s event := by
  rcases event with ⟨handled, faults⟩
  cases handled with
  | online articleStr =>
      simp only [Stores, validate_congr hwords hstop]
  | batch article => rfl

/-- What an article that is not stored leaves as it is. -/
structure Untouched (s t : System) : Prop where
  articles : t.db.getDocs "articles" = s.db.getDocs "articles"
  dedup : t.dedup = s.dedup
  sent : t.sent = s.sent
  words : t.pipelineVocab.words = s.pipelineVocab.words
  stopWords : t.pipelineVocab.stopWords = s.pipelineVocab.stopWords

/-- A submission keeps the dictionary and the stop words, and what it does to the
vocabulary does not depend on the memory. -/
theorem submitArticle_fresh {text : TextOps} {uninitialised : Signature} {vocab after : Vocabulary}
    {stems : SortedSet Bytes} {article : Article} {procArticle : ProcessedArticle}
    {shingles : SortedSet Int32}
    (h : submitArticle text uninitialised vocab stems article =
      some (after, procArticle, shingles)) (other : Signature) :
    submitArticle text other vocab stems article =
        some (after, { procArticle with signature := other }, shingles) ∧
      after.words = vocab.words ∧ after.stopWords = vocab.stopWords := by
  have hspec := (processTokens_spec h).1
  refine ⟨?_, hspec.words, hspec.stopWords⟩
  rw [submitArticle, processTokens_fresh text true _ article uninitialised other]
  show (submitArticle text uninitialised vocab stems article).map _ = _
  rw [h]
  rfl

/-- **A step that stores nothing.** It does not depend on the memory, and touches
neither the stored articles nor the server. -/
theorem handle_of_not_stores {env : Env} {memory : ℕ → Signature} {s t : System}
    {event : Handled × Faults} {idx : ℕ} (hstores : ¬ Stores env s event)
    (h : handle env memory s (event, idx) = some t) (other : ℕ → Signature) :
    handle env other s (event, idx) = some t ∧ Untouched s t := by
  rcases event with ⟨handled, faults⟩
  cases handled with
  | online articleStr =>
      change processArticle env faults (memory idx) articleStr s = some t at h
      show processArticle env faults (other idx) articleStr s = some t ∧ _
      cases hparse : parseFromXml env.readXml articleStr with
      | none =>
          rw [processArticle, hparse] at h ⊢
          cases h
          exact ⟨rfl, rfl, rfl, rfl, rfl, rfl⟩
      | some article =>
          cases hvalid : (validate env.text s.pipelineVocab article).1 with
          | false =>
              rw [processArticle_of_not_valid hparse hvalid] at h ⊢
              cases h
              exact ⟨rfl, collections_saveInvalidUrl (by decide), rfl, rfl, rfl, rfl⟩
          | true =>
              have hthrows : faults.saveThrows = true := by
                cases hsave : faults.saveThrows with
                | true => rfl
                | false => exact absurd ⟨hsave, article, hparse, hvalid⟩ hstores
              rw [processArticle_of_valid hparse hvalid] at h ⊢
              obtain ⟨⟨vocab, procArticle, shingles⟩, hsubmit, h⟩ := Option.bind_eq_some_iff.mp h
              have hfresh := submitArticle_fresh hsubmit (other idx)
              rw [hfresh.1, Option.bind_some]
              simp only [saveAndAsk_of_throws hthrows, Option.bind_some] at h ⊢
              cases h
              exact ⟨rfl, rfl, rfl, rfl, hfresh.2.1, hfresh.2.2⟩
  | batch article =>
      have hthrows : faults.saveThrows = true := by
        cases hsave : faults.saveThrows with
        | true => rfl
        | false => exact absurd hsave hstores
      change (storeBatchArticle env faults (memory idx) (s, []) article).map Prod.fst = some t at h
      show (storeBatchArticle env faults (other idx) (s, []) article).map Prod.fst = some t ∧ _
      unfold storeBatchArticle at h ⊢
      rw [processTokens_fresh env.text true _ article (memory idx) (other idx)]
      cases hprocess : processTokens env.text true s.startupVocab article (.fresh (memory idx)) with
      | none =>
          rw [hprocess] at h
          cases h
      | some processed =>
          rw [hprocess] at h
          simp only [Option.map_some, Option.bind_eq_bind, Option.bind_some,
            saveAndAsk_of_throws hthrows] at h ⊢
          cases h
          exact ⟨rfl, rfl, rfl, rfl, rfl, rfl⟩

/-! ## Articles that are stored -/

/-- The next state holds one more document, with the signature that was in the
memory, and all that is sent with it is one message. -/
def StoresMemory (env : Env) (s : System) (uninitialised signature : Signature) (t : System) :
    Prop :=
  (∃ procArticle, t.db.getDocs "articles" = s.db.getDocs "articles" ++
      [ProcessedArticle.storedDoc (env.newOid s.db.inserted) procArticle] ∧
    procArticle.signature = uninitialised) ∧
  ∀ message ∈ t.sent, message ∈ s.sent ∨ message.2 = signature

theorem exists_storesMemory {env : Env} {faults : Faults} {s t : System}
    {procArticle : ProcessedArticle} {shingles : SortedSet Int32}
    {result : Option (ProcessedArticle × Bool)} (hsaves : faults.saveThrows = false)
    (h : saveAndAsk env faults s procArticle shingles = some (t, result)) (other : Signature) :
    ∃ next answer, saveAndAsk env faults s { procArticle with signature := other } shingles =
        some (next, answer) ∧
      StoresMemory env s other (MinHash.engine.computeSignature env.murmur shingles) next := by
  obtain ⟨next, answer, hnext, hdb, hsent⟩ := exists_saveAndAsk hsaves h
    { procArticle with signature := other }
  refine ⟨next, answer, hnext, ⟨{ procArticle with signature := other }, ?_, rfl⟩, ?_⟩
  · rw [MongoDb.getDocs, hdb, articles_saveArticle]
    rfl
  · intro message hmessage
    rcases hsent message hmessage with hold | hnew
    · exact Or.inl hold
    · exact Or.inr (congrArg Prod.snd hnew)

/-- **A step that stores.** Whatever the memory holds is stored, while the
signature that is sent does not depend on it. -/
theorem handle_of_stores {env : Env} {memory : ℕ → Signature} {s t : System}
    {event : Handled × Faults} {idx : ℕ} (hstores : Stores env s event)
    (h : handle env memory s (event, idx) = some t) :
    ∃ signature, ∀ other : ℕ → Signature, ∃ next,
      handle env other s (event, idx) = some next ∧
      StoresMemory env s (other idx) signature next := by
  rcases event with ⟨handled, faults⟩
  cases handled with
  | online articleStr =>
      rcases hstores with ⟨hsaves, article, hparse, hvalid⟩
      change processArticle env faults (memory idx) articleStr s = some t at h
      rw [processArticle_of_valid hparse hvalid] at h
      obtain ⟨⟨vocab, procArticle, shingles⟩, hsubmit, h⟩ := Option.bind_eq_some_iff.mp h
      obtain ⟨⟨mid, result⟩, hsave, -⟩ := Option.bind_eq_some_iff.mp h
      refine ⟨MinHash.engine.computeSignature env.murmur shingles, fun other => ?_⟩
      obtain ⟨next, answer, hnext, hstored⟩ := exists_storesMemory hsaves hsave (other idx)
      show ∃ next, processArticle env faults (other idx) articleStr s = some next ∧ _
      rw [processArticle_of_valid hparse hvalid, (submitArticle_fresh hsubmit (other idx)).1,
        Option.bind_some]
      simp only [hnext, Option.bind_some]
      rcases answer with _ | ⟨signed, isDuplicate⟩
      · exact ⟨next, rfl, hstored⟩
      · cases isDuplicate with
        | true => exact ⟨next, rfl, hstored⟩
        | false => exact ⟨_, rfl, hstored⟩
  | batch article =>
      change (storeBatchArticle env faults (memory idx) (s, []) article).map Prod.fst = some t at h
      obtain ⟨⟨mid, kept⟩, hstep, -⟩ := Option.map_eq_some_iff.mp h
      obtain ⟨⟨vocab, procArticle, shingles⟩, hprocess, hstep⟩ := Option.bind_eq_some_iff.mp hstep
      obtain ⟨⟨last, result⟩, hsave, -⟩ := Option.bind_eq_some_iff.mp hstep
      refine ⟨MinHash.engine.computeSignature env.murmur shingles, fun other => ?_⟩
      obtain ⟨next, answer, hnext, hstored⟩ := exists_storesMemory hstores hsave (other idx)
      refine ⟨next, ?_, hstored⟩
      show (storeBatchArticle env faults (other idx) (s, []) article).map Prod.fst = some next
      rw [storeBatchArticle, processTokens_fresh env.text true _ article (memory idx) (other idx),
        hprocess]
      simp only [Option.map_some, Option.bind_eq_bind, Option.bind_some, hnext]

/-! ## Restarting -/

/-- The server was made from an empty collection and has received nothing. -/
structure JustStarted (env : Env) (s : System) : Prop where
  articles : s.db.getDocs "articles" = []
  dedup : loadArticleDedup env.hashCombine s.db = some s.dedup
  sent : s.sent = []

theorem JustStarted.restartAgrees {env : Env} {s : System} (h : JustStarted env s) :
    RestartAgrees env s where
  signatures doc hdoc := by
    rw [h.articles] at hdoc
    cases hdoc
  buckets := ⟨s.dedup, h.dedup, rfl⟩

theorem JustStarted.of_untouched {env : Env} {s t : System} (h : JustStarted env s)
    (htouch : Untouched s t) : JustStarted env t where
  articles := htouch.articles.trans h.articles
  dedup := by
    have hload : loadArticlesSignatures t.db = loadArticlesSignatures s.db := by
      rw [loadArticlesSignatures, MongoDb.getFields]
      show ((t.db.getDocs "articles").map _).mapM _ = _
      rw [htouch.articles]
      rfl
    rw [loadArticleDedup, hload, htouch.dedup]
    exact h.dedup
  sent := htouch.sent.trans h.sent

/-- The first article that is stored shows the memory, and not what is sent. -/
theorem StoresMemory.not_restartAgrees {env : Env} {s t : System}
    {uninitialised signature : Signature} (h : StoresMemory env s uninitialised signature t)
    (hsent : s.sent = []) (hne : uninitialised ≠ signature) : ¬ RestartAgrees env t := by
  intro hagrees
  rcases h with ⟨⟨procArticle, hdocs, rfl⟩, hmessages⟩
  have hlast : ProcessedArticle.storedDoc (env.newOid s.db.inserted) procArticle ∈
      t.db.getDocs "articles" := by
    rw [hdocs]
    exact List.mem_append_right _ List.mem_cons_self
  obtain ⟨idSign, hdecoded, hidSign⟩ := hagrees.signatures _ hlast
  rw [artSigFromBson_storedDoc] at hdecoded
  cases hdecoded
  rcases hmessages _ hidSign with hold | hnew
  · rw [hsent] at hold
    cases hold
  · exact hne hnew

theorem exists_signature_ne (signature : Signature) : ∃ garbage, garbage ≠ signature := by
  by_cases hzero : signature = fun _ => 0
  · refine ⟨fun _ => 1, fun heq => ?_⟩
    rw [hzero] at heq
    exact absurd (congrFun heq 0) (by decide)
  · exact ⟨fun _ => 0, fun heq => hzero heq.symm⟩

/-- **When a restart changes nothing.** From an empty collection, whatever the
memory holds, a restart agrees in every state of a completed run exactly if no
article is stored. -/
theorem restartAgrees_iff {env : Env} {memory : ℕ → Signature} {s final : System}
    {events : List (Handled × Faults)} {first : ℕ} (hstart : JustStarted env s)
    (hrun : run (handle env memory) s (events.zipIdx first) = some final) :
    (∀ memory, AllStates (handle env memory) (fun _ => RestartAgrees env) s
      (events.zipIdx first)) ↔ ∀ event ∈ events, ¬ Stores env s event := by
  induction events generalizing s first with
  | nil =>
      refine ⟨fun _ event hevent => (by cases hevent), fun _ other hist hpre m hm => ?_⟩
      obtain rfl := List.prefix_nil.mp hpre
      obtain rfl : s = m := Option.some.inj hm
      exact hstart.restartAgrees
  | cons event rest ih =>
      rw [List.zipIdx_cons] at hrun ⊢
      obtain ⟨t, hstep, hrest⟩ := Option.bind_eq_some_iff.mp hrun
      by_cases hstores : Stores env s event
      · refine ⟨fun hall => ?_, fun hnone => absurd hstores (hnone event List.mem_cons_self)⟩
        exfalso
        obtain ⟨signature, hsignature⟩ := handle_of_stores hstores hstep
        obtain ⟨garbage, hne⟩ := exists_signature_ne signature
        obtain ⟨next, hnext, hstored⟩ := hsignature fun _ => garbage
        have hagrees := (allStates_cons.mp (hall fun _ => garbage)).2 next hnext [] List.nil_prefix
          next rfl
        exact hstored.not_restartAgrees hstart.sent hne hagrees
      · have hsame := handle_of_not_stores hstores hstep
        have htouch := (hsame memory).2
        have hlater := ih (hstart.of_untouched htouch) hrest
        have hcongr : ∀ event, Stores env t event ↔ Stores env s event :=
          stores_congr htouch.words htouch.stopWords
        simp only [hcongr] at hlater
        simp only [List.forall_mem_cons, allStates_cons, (hsame _).1, Option.some.injEq,
          forall_eq', hstores, hstart.restartAgrees, not_false_eq_true, true_and]
        exact hlater

/-! ## What the buckets are made from -/

/-- The running server has filed what it was sent. -/
def FilesSent (env : Env) (s : System) : Prop :=
  LSHDeduplication.Knows env.hashCombine s.sent s.dedup.lshDeduplication

theorem JustStarted.filesSent {env : Env} {s : System} (h : JustStarted env s) :
    FilesSent env s := by
  have hload : loadArticlesSignatures s.db = .ok [] := by
    have hdocs : s.db.collections "articles" = [] := h.articles
    rw [loadArticlesSignatures, MongoDb.getFields, hdocs]
    rfl
  have hmake := h.dedup
  rw [loadArticleDedup, hload] at hmake
  rw [FilesSent, h.sent]
  exact ArticleDedup.knows_of_make hmake

/-- A message is filed when it is answered. -/
theorem FilesSent.saveAndAsk {env : Env} {faults : Faults} {s t : System}
    {procArticle : ProcessedArticle} {shingles : SortedSet Int32}
    {result : Option (ProcessedArticle × Bool)} (h : FilesSent env s)
    (hsave : saveAndAsk env faults s procArticle shingles = some (t, result)) :
    FilesSent env t := by
  rcases saveAndAsk_cases hsave with ⟨-, rfl, -⟩ | ⟨-, -, rfl, -⟩ |
    ⟨-, -, isDuplicate, dedup, hverdict, rfl, -⟩
  · exact h
  · exact h
  · obtain ⟨next, hanswer, hknows⟩ :=
      LSHDeduplication.Knows.isDuplicate h (nextMessage env s shingles)
    have hdedup : (⟨next⟩ : ArticleDedup) = dedup :=
      congrArg Prod.snd (Option.some.inj (hanswer.symm.trans hverdict))
    rw [FilesSent, ← hdedup]
    exact hknows

theorem FilesSent.handle {env : Env} {memory : ℕ → Signature} {s t : System}
    {event : (Handled × Faults) × ℕ} (h : FilesSent env s)
    (hstep : handle env memory s event = some t) : FilesSent env t := by
  rcases event with ⟨⟨handled, faults⟩, idx⟩
  cases handled with
  | online articleStr =>
      change processArticle env faults (memory idx) articleStr s = some t at hstep
      rcases processArticle_cases hstep with rfl | ⟨url, rfl⟩ |
        ⟨vocab, procArticle, shingles, mid, result, hsave, hnext⟩
      · exact h
      · exact h
      · have hmid : FilesSent env mid := by
          apply FilesSent.saveAndAsk _ hsave
          exact h
        rcases hnext with rfl | rfl
        · exact hmid
        · exact hmid
  | batch article =>
      change (storeBatchArticle env faults (memory idx) (s, []) article).map Prod.fst = some t
        at hstep
      obtain ⟨⟨mid, kept⟩, hstored, rfl⟩ := Option.map_eq_some_iff.mp hstep
      obtain ⟨⟨vocab, procArticle, shingles⟩, -, hstored⟩ := Option.bind_eq_some_iff.mp hstored
      obtain ⟨⟨last, result⟩, hsave, hlast⟩ := Option.bind_eq_some_iff.mp hstored
      cases hlast
      apply FilesSent.saveAndAsk _ hsave
      exact h

/-- **What a restart needs.** If the stored signatures were those that were sent, in
any order, the buckets of a new server would be those of the running one. -/
theorem buckets_of_loaded {env : Env} {memory : ℕ → Signature} {s final : System}
    {events : List ((Handled × Faults) × ℕ)} {docs : List DocSignature}
    (hstart : JustStarted env s) (hrun : run (handle env memory) s events = some final)
    (hload : loadArticlesSignatures final.db = .ok docs)
    (hsame : ∀ doc, doc ∈ docs ↔ doc ∈ final.sent) :
    ∃ dedup, loadArticleDedup env.hashCombine final.db = some dedup ∧
      dedup.lshDeduplication.lshBuckets = final.dedup.lshDeduplication.lshBuckets := by
  have hfinal : FilesSent env final :=
    run_preserves hrun hstart.filesSent fun _ _ _ hmid hstep => FilesSent.handle hmid hstep
  obtain ⟨dedup, hmake, hknows⟩ := ArticleDedup.exists_make env.hashCombine docs
  refine ⟨dedup, ?_, hknows.holds.unique hfinal.holds hsame⟩
  rw [loadArticleDedup, hload]
  exact hmake

/-! ## A batch of one article -/

/-- The two programs, about to handle a batch of one valid article. -/
def letterSystem : System :=
  { emptySystem with
    startupVocab := letterVocabulary.addStems (SortedSet.empty.insert [97, 97]) }

/-- The second loop of that batch. -/
def letterBatch : List (Handled × Faults) :=
  [(.batch (letterArticle (List.replicate 100 97)), .none)]

theorem letterSystem_justStarted : JustStarted letterEnv letterSystem :=
  ⟨rfl, rfl, rfl⟩

/-- The equivalence for that article. -/
theorem restartAgrees_iff_letters :
    (∀ memory, AllStates (handle letterEnv memory) (fun _ => RestartAgrees letterEnv) letterSystem
        letterBatch.zipIdx) ↔
      ∀ event ∈ letterBatch, ¬ Stores letterEnv letterSystem event := by
  have hsome : (run (handle letterEnv fun _ _ => 0) letterSystem letterBatch.zipIdx).isSome := by
    decide +kernel
  obtain ⟨final, hrun⟩ := Option.isSome_iff_exists.mp hsome
  exact restartAgrees_iff letterSystem_justStarted hrun

/-- With zeros in the memory, zeros are stored for that article, and they are not
what is sent. -/
theorem stored_signature_not_sent :
    ¬ ∀ (env : Env) (memory : ℕ → Signature) (events : List (Handled × Faults))
      (start final : System), JustStarted env start →
        run (handle env memory) start events.zipIdx = some final → RestartAgrees env final := by
  intro hall
  have hcheck : ((run (handle letterEnv fun _ _ => 0) letterSystem letterBatch.zipIdx).map
      fun final => ((final.db.getDocs "articles").map fun doc =>
          (artSigFromBson doc ([], fun _ => 0)).toOption.map fun idSign => idSign.2 0,
        final.sent.map fun idSign => idSign.2 0)) = some ([some 0], [100000001]) := by
    decide +kernel
  obtain ⟨final, hrun, hfinal⟩ := Option.map_eq_some_iff.mp hcheck
  have hagrees := hall letterEnv _ letterBatch letterSystem final letterSystem_justStarted hrun
  obtain ⟨hstored, hsent⟩ := Prod.mk.inj hfinal
  obtain ⟨doc, hdoc, hzero⟩ := List.mem_map.mp (hstored ▸ List.mem_cons_self)
  obtain ⟨idSign, hdecoded, hidSign⟩ := hagrees.signatures doc hdoc
  have hmessage := List.mem_map_of_mem (f := fun idSign => idSign.2 0) hidSign
  rw [hsent, List.mem_singleton] at hmessage
  rw [hdecoded] at hzero
  have hstoredZero : idSign.2 0 = 0 := Option.some.inj hzero
  exact absurd (hstoredZero.symm.trans hmessage) (by decide)

end Unbiased
