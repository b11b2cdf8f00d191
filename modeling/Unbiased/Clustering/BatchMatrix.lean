/-
# The matrix of a batch

The start-up program counts a stem for every valid article, and builds its
matrix from those that the dedup server does not report as duplicates. A row
passes the frequency filter by the first count, and its entries are found in the
second set of articles.
-/

import Unbiased.Clustering.BatchCounts
import Unbiased.Clustering.MatrixEntries
import Unbiased.Clustering.Startup

namespace Unbiased

open Unbiased.Math

/-! ## The second loop, for any answers -/

/-- An article of the second loop, with the memory its signature is declared over and
the answer of the dedup server. -/
structure BatchEntry where
  article : Article
  uninitialised : Signature
  isDuplicate : Bool

/-- What an iteration of the second loop does to the vocabulary and to the articles that
are collected for the clustering. -/
def keepProcessed (text : TextOps) (murmur : Murmur)
    (state : Vocabulary × List ProcessedArticle) (entry : BatchEntry) :
    Option (Vocabulary × List ProcessedArticle) := do
  let (vocab, procArticle, shingles) ← processTokens text true state.1 entry.article
    (.fresh entry.uninitialised)
  let procArticle := { procArticle with
    signature := MinHash.engine.computeSignature murmur shingles }
  some (vocab, if entry.isDuplicate then state.2 else state.2 ++ [procArticle])

/-- The articles that are not reported as duplicates. -/
def keptArticles (batch : List BatchEntry) : List Article :=
  (batch.filter fun entry => !entry.isDuplicate).map BatchEntry.article

/-- An iteration that does not throw is one of these, with the answer it was given. -/
theorem exists_answer_of_storeBatchArticle {env : Env} {faults : Faults}
    {uninitialised : Signature} {state : System × List ProcessedArticle} {article : Article}
    {t : System} {kept : List ProcessedArticle}
    (h : storeBatchArticle env faults uninitialised state article = some (t, some kept)) :
    ∃ isDuplicate, keepProcessed env.text env.murmur (state.1.startupVocab, state.2)
      ⟨article, uninitialised, isDuplicate⟩ = some (t.startupVocab, kept) := by
  obtain ⟨⟨vocab, procArticle, shingles⟩, hprocess, h⟩ := Option.bind_eq_some_iff.mp h
  obtain ⟨⟨s, result⟩, hsave, h⟩ := Option.bind_eq_some_iff.mp h
  rcases saveAndAsk_cases hsave with ⟨-, -, rfl⟩ | ⟨-, -, -, rfl⟩ |
    ⟨-, -, isDuplicate, dedup, -, rfl, rfl⟩
  · cases h
  · cases h
  · cases h
    refine ⟨isDuplicate, ?_⟩
    rw [keepProcessed, hprocess]
    rfl

/-- The second loop of the program is a run of these iterations, unless a call throws. -/
theorem exists_batch_of_storeArticles {env : Env} {faults : ℕ → Faults}
    {memory : ℕ → Signature} {state : System × List ProcessedArticle}
    {entries : List (Article × ℕ)} {t : System} {kept : List ProcessedArticle}
    (h : storeArticles env faults memory state entries = some (t, some kept)) :
    ∃ batch, batch.map BatchEntry.article = entries.map Prod.fst ∧
      run (keepProcessed env.text env.murmur) (state.1.startupVocab, state.2) batch =
        some (t.startupVocab, kept) := by
  induction entries generalizing state with
  | nil =>
      cases h
      exact ⟨[], rfl, rfl⟩
  | cons entry rest ih =>
      obtain ⟨⟨next, collected⟩, hstep, h⟩ := Option.bind_eq_some_iff.mp h
      cases collected with
      | none => cases h
      | some collected =>
          obtain ⟨isDuplicate, hkeep⟩ := exists_answer_of_storeBatchArticle hstep
          obtain ⟨batch, harticles, hrun⟩ := ih h
          refine ⟨⟨entry.1, memory entry.2, isDuplicate⟩ :: batch, ?_, ?_⟩
          · rw [List.map_cons, List.map_cons, harticles]
          · rw [run_cons, hkeep]
            exact hrun

variable {text : TextOps} {murmur : Murmur} {vocab : Vocabulary} {batch : List BatchEntry}

/-- The vocabulary has counted every article of a batch, and the stem ids of those that
are not duplicates are collected. -/
structure BatchCollected (text : TextOps) (vocab : Vocabulary) (batch : List BatchEntry)
    (state : Vocabulary × List ProcessedArticle) : Prop where
  processed : BatchProcessed text vocab (batch.map BatchEntry.article) state.1
  stemIds : state.2.map ProcessedArticle.stemIds =
    (keptArticles batch).map fun article => vocab.recordedIds text article.tokens

theorem BatchCollected.step {state next : Vocabulary × List ProcessedArticle}
    {entry : BatchEntry} (h : BatchCollected text vocab batch state)
    (hstep : keepProcessed text murmur state entry = some next) :
    BatchCollected text vocab (batch ++ [entry]) next := by
  obtain ⟨⟨after, procArticle, shingles⟩, hprocess, hnext⟩ := Option.bind_eq_some_iff.mp hstep
  obtain ⟨hspec, idsTokensMap, hproc⟩ := processTokens_spec hprocess
  have hids : procArticle.stemIds = vocab.recordedIds text entry.article.tokens := by
    rw [hproc, ← h.processed.recordedIds_eq]
    exact List.nil_append _
  cases hnext
  constructor
  · rw [List.map_append]
    exact h.processed.concat hspec
  · cases hduplicate : entry.isDuplicate with
    | true => simpa [keptArticles, hduplicate] using h.stemIds
    | false =>
        simp only [keptArticles, List.filter_append, List.map_append, Bool.false_eq_true,
          if_false]
        simp [hduplicate, hids, h.stemIds, keptArticles]

theorem batchCollected_of_run {state : Vocabulary × List ProcessedArticle}
    (h : run (keepProcessed text murmur) (vocab, []) batch = some state) :
    BatchCollected text vocab batch state := by
  apply run_invariant (P := fun hist state => BatchCollected text vocab hist state) _ _ h
  · exact ⟨BatchProcessed.nil text vocab, rfl⟩
  · exact fun hist mid entry next hmid hstep => hmid.step hstep

/-! ## Rows and stems -/

/-- A number of articles that passes the frequency filter. -/
def PassesFilter (tfThreshold : Int32) (articlesNo : ℤ) : Prop :=
  tfThreshold.toInt < articlesNo ∧ articlesNo < 50

/-- The counter of a stem in an article: the number of tokens that are kept and stem to
it, narrowed to the counter's type. -/
def Vocabulary.occurrences (text : TextOps) (vocab : Vocabulary) (article : Article)
    (stem : Bytes) : Int32 :=
  Int32.ofNat (article.tokens.countP fun token =>
    vocab.keeps (text.toLower token) ∧ text.trimAndStem (text.toLower token) = stem)

/-- Every row has entries in a number of columns that passes the filter. -/
def RowsOccur (mat : Mat ℚ) (tfThreshold : Int32) : Prop :=
  ∀ row < mat.nr, PassesFilter tfThreshold (mat.entriesNo row)

/-- The recorded ids with the position of a stem are those of its tokens. -/
theorem countP_recordedIds {stem : Bytes} (hfits : vocab.stemsNo ≤ maxStemsNo)
    (hmem : stem ∈ vocab.stems) (tokens : List Bytes) :
    (vocab.recordedIds text tokens).countP
        (fun id => counterIdx id = vocab.stems.rank stem) =
      tokens.countP fun token =>
        vocab.keeps (text.toLower token) ∧ text.trimAndStem (text.toLower token) = stem := by
  have hrank := (SortedSet.rank_lt_size hmem).trans_le hfits
  rw [Vocabulary.recordedIds, List.countP_filterMap]
  apply List.countP_congr
  intro token _
  rw [decide_eq_true_iff, ← recordedId?_eq_rank_iff hfits hmem]
  cases hid : vocab.recordedId? text token with
  | none => simp
  | some id =>
      obtain ⟨slot, hslot⟩ := Vocabulary.exists_slot_of_recordedId? hfits hid
      obtain rfl := eq_ofNat_of_slot? hslot
      simp only [Option.map_some, Option.getD_some, decide_eq_true_eq, Option.some.injEq,
        counterIdx_ofNat slot.isLt]
      exact ⟨fun heq => by rw [heq], ofNat_inj_of_lt_maxStemsNo slot.isLt hrank⟩

/-- The kept articles that count a stem's position are those in which it occurs. -/
theorem BatchCollected.countP_termFreq {state : Vocabulary × List ProcessedArticle}
    (h : BatchCollected text vocab batch state) (hfits : vocab.stemsNo ≤ maxStemsNo)
    {stem : Bytes} (hmem : stem ∈ vocab.stems) :
    state.2.countP (fun article => 0 < article.termFreq (vocab.stems.rank stem)) =
      (keptArticles batch).countP fun article => 0 < vocab.occurrences text article stem := by
  have hcounter : ∀ article : Article,
      Int32.ofNat ((vocab.recordedIds text article.tokens).countP fun id =>
        counterIdx id = vocab.stems.rank stem) = vocab.occurrences text article stem :=
    fun article => congrArg Int32.ofNat (countP_recordedIds hfits hmem article.tokens)
  calc state.2.countP (fun article => 0 < article.termFreq (vocab.stems.rank stem))
    _ = (state.2.map ProcessedArticle.stemIds).countP fun ids =>
          0 < Int32.ofNat (ids.countP fun id => counterIdx id = vocab.stems.rank stem) := by
        rw [List.countP_map]
        rfl
    _ = (keptArticles batch).countP fun article =>
          0 < Int32.ofNat ((vocab.recordedIds text article.tokens).countP fun id =>
            counterIdx id = vocab.stems.rank stem) := by
        rw [h.stemIds, List.countP_map]
        rfl
    _ = (keptArticles batch).countP fun article => 0 < vocab.occurrences text article stem := by
        simp only [hcounter]

/-- A stem's position is a row exactly if the number of articles that mention the stem
passes the filter. -/
theorem BatchCollected.isTerm_rank {state : Vocabulary × List ProcessedArticle}
    (h : BatchCollected text vocab batch state) (hfits : vocab.stemsNo ≤ maxStemsNo)
    (hcounts : ∀ slot, vocab.stemsFreq slot = 0) {stem : Bytes} (hmem : stem ∈ vocab.stems)
    (tfThreshold : Int32) :
    state.1.isTerm tfThreshold (vocab.stems.rank stem) ↔
      PassesFilter tfThreshold (Int32.ofNat (batch.countP fun entry =>
        vocab.mentions text entry.article stem)).toInt := by
  have hcount := h.processed.stemCount_eq hfits hcounts hmem
  rw [Vocabulary.stemCount, Vocabulary.getStemId_of_mem (h.processed.stems ▸ hmem),
    Option.bind_some, h.processed.stems, List.countP_map] at hcount
  rw [Vocabulary.isTerm, hcount, Option.any_some, decide_eq_true_iff, Int32.lt_iff_toInt_lt,
    Int32.lt_iff_toInt_lt]
  rfl

/-- **When every row occurs in the kept articles.** In the matrix of a batch, from zero
counts, exactly if each stem that enough and not too many of all articles mention
occurs in enough and not too many of the kept ones. -/
theorem rowsOccur_iff {R : Type} [Zero R] {after : Vocabulary} {kept : List ProcessedArticle}
    {lsa : LSA R} {tfThreshold : Int32} (hcounts : ∀ slot, vocab.stemsFreq slot = 0)
    (hbatch : run (keepProcessed text murmur) (vocab, []) batch = some (after, kept))
    (hbuild : (LSA.fresh : LSA R).buildTermDocMatrix after kept tfThreshold = some lsa) :
    RowsOccur lsa.termDocMat tfThreshold ↔ ∀ stem ∈ vocab.stems,
      PassesFilter tfThreshold (Int32.ofNat (batch.countP fun entry =>
        vocab.mentions text entry.article stem)).toInt →
      PassesFilter tfThreshold ((keptArticles batch).countP fun article =>
        0 < vocab.occurrences text article stem) := by
  have hcollected := batchCollected_of_run hbatch
  have hstems : after.stems = vocab.stems := hcollected.processed.stems
  have hno : after.stemsNo = vocab.stemsNo := congrArg SortedSet.size hstems
  obtain ⟨hlarge, hterms, hbelow⟩ := LSA.buildTermDocMatrix_spec hbuild
  have hfits : vocab.stemsNo ≤ maxStemsNo := hno ▸ hlarge.le
  have hentries : ∀ {row : ℕ} {stem : Bytes}, stem ∈ vocab.stems →
      lsa.termsMatToVocab[row]? = some (vocab.stems.rank stem) →
      lsa.termDocMat.entriesNo row = (keptArticles batch).countP fun article =>
        0 < vocab.occurrences text article stem := by
    intro row stem hmem hrow
    rw [LSA.entriesNo_of_build hbuild hrow, hcollected.countP_termFreq hfits hmem]
  unfold RowsOccur
  rw [(LSA.size_of_build hbuild).1]
  constructor
  · intro hrows stem hmem hcount
    have hterm : vocab.stems.rank stem ∈ lsa.termsMatToVocab := by
      rw [hterms, List.mem_filter, List.mem_range, hno]
      exact ⟨(SortedSet.rank_lt_size hmem).trans (Nat.lt_succ_self _),
        (hcollected.isTerm_rank hfits hcounts hmem tfThreshold).mpr hcount⟩
    obtain ⟨row, hrow⟩ := List.getElem?_of_mem hterm
    rw [← hentries hmem hrow]
    exact hrows row (List.getElem?_eq_some_iff.mp hrow).1
  · intro hstem row hrow
    obtain ⟨term, hget⟩ : ∃ term, lsa.termsMatToVocab[row]? = some term :=
      ⟨_, List.getElem?_eq_getElem hrow⟩
    have hterm := List.mem_of_getElem? hget
    obtain ⟨stem, hmem, rfl⟩ := SortedSet.exists_rank_eq
      (show term < vocab.stems.size from (hbelow term hterm).trans_eq hno)
    rw [hentries hmem hget]
    rw [hterms, List.mem_filter] at hterm
    exact hstem stem hmem ((hcollected.isTerm_rank hfits hcounts hmem tfThreshold).mp hterm.2)

/-- A vocabulary with the word `aa` and its stem, counted nowhere. -/
def oneWord : Vocabulary := { oneStem with words := .ofList [[97, 97]] }

/-- An article of a hundred words, submitted five times. The dedup server knows it from
the second time on. -/
def fiveCopies : List BatchEntry :=
  [false, true, true, true, true].map
    (BatchEntry.mk (letterArticle (List.replicate 100 97)) fun _ => 0)

/-- The equivalence for the five copies. -/
theorem rowsOccur_iff_fiveCopies :
    ∃ after kept, ∃ lsa : LSA ℚ,
      run (keepProcessed letterText fun _ _ => 0) (oneWord, []) fiveCopies = some (after, kept) ∧
      (LSA.fresh : LSA ℚ).buildTermDocMatrix after kept 3 = some lsa ∧
      (RowsOccur lsa.termDocMat 3 ↔ ∀ stem ∈ oneWord.stems,
        PassesFilter 3 (Int32.ofNat (fiveCopies.countP fun entry =>
          oneWord.mentions letterText entry.article stem)).toInt →
        PassesFilter 3 ((keptArticles fiveCopies).countP fun article =>
          0 < oneWord.occurrences letterText article stem)) := by
  have hsome : ((run (keepProcessed letterText fun _ _ => 0) (oneWord, []) fiveCopies).bind
      fun state => (LSA.fresh : LSA ℚ).buildTermDocMatrix state.1 state.2 3).isSome := by
    decide +kernel
  obtain ⟨lsa, hlsa⟩ := Option.isSome_iff_exists.mp hsome
  obtain ⟨⟨after, kept⟩, hbatch, hbuild⟩ := Option.bind_eq_some_iff.mp hlsa
  exact ⟨after, kept, lsa, hbatch, hbuild, rowsOccur_iff (fun _ => rfl) hbatch hbuild⟩

/-- The matrix of the five copies has one row, with one entry. -/
theorem row_in_one_column :
    ¬ ∀ (text : TextOps) (murmur : Murmur) (vocab after : Vocabulary) (batch : List BatchEntry)
      (kept : List ProcessedArticle) (lsa : LSA ℚ), (∀ slot, vocab.stemsFreq slot = 0) →
        (∀ entry ∈ batch, entry.article.tokens = text.tokenize entry.article.text ∧
          (validate text vocab entry.article).1 = true) →
        run (keepProcessed text murmur) (vocab, []) batch = some (after, kept) →
        (LSA.fresh : LSA ℚ).buildTermDocMatrix after kept 3 = some lsa →
        RowsOccur lsa.termDocMat 3 := by
  intro hall
  have hrun : ((run (keepProcessed letterText fun _ _ => 0) (oneWord, []) fiveCopies).bind
      fun state => ((LSA.fresh : LSA ℚ).buildTermDocMatrix state.1 state.2 3).map fun lsa =>
        (lsa.termDocMat.nr, lsa.termDocMat.entriesNo 0)) = some (1, 1) := by
    decide +kernel
  obtain ⟨⟨after, kept⟩, hbatch, hrest⟩ := Option.bind_eq_some_iff.mp hrun
  obtain ⟨lsa, hbuild, hsizes⟩ := Option.map_eq_some_iff.mp hrest
  obtain ⟨hrows, hentries⟩ := Prod.mk.inj hsizes
  have hvalid : ∀ entry ∈ fiveCopies,
      entry.article.tokens = letterText.tokenize entry.article.text ∧
        (validate letterText oneWord entry.article).1 = true := by
    decide +kernel
  have hfirst := hall _ _ _ _ _ _ _ (fun _ => rfl) hvalid hbatch hbuild 0 (by rw [hrows]; decide)
  rw [hentries] at hfirst
  exact absurd hfirst.1 (by decide)

end Unbiased
