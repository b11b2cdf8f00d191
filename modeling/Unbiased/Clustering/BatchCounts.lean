/-
# Counting a batch

A batch processes its articles one after the other with a vocabulary whose stems
do not change. What it leaves in the arrays is, slot by slot, a function of the
articles that does not look at their order: a count goes up by the number of
articles that record the slot's id, and a cell gains the tokens recorded under
it.
-/

import Unbiased.Clustering.ProcessedTokens

namespace Unbiased

open Unbiased.Math

/-- Process one article, into the processed article that is given for it. -/
def processNext (text : TextOps) (collect : Bool) (vocab : Vocabulary)
    (entry : Article × ProcessedArticle) : Option Vocabulary :=
  (processTokens text collect vocab entry.1 entry.2).map Prod.fst

/-- The effect on a vocabulary of processing some articles. -/
structure BatchProcessed (text : TextOps) (before : Vocabulary) (articles : List Article)
    (after : Vocabulary) : Prop where
  stems : after.stems = before.stems
  words : after.words = before.words
  stopWords : after.stopWords = before.stopWords
  /-- A slot is counted once for each article that records its id. -/
  stemsFreq : ∀ slot : Fin maxStemsNo, after.stemsFreq slot = before.stemsFreq slot +
    Int32.ofNat (articles.countP fun article =>
      Int32.ofNat slot.val ∈ before.recordedIds text article.tokens)
  /-- A cell gains exactly the lower-cased tokens recorded under its id. -/
  mem_tokens : ∀ (slot : Fin maxStemsNo) (word : Bytes),
    word ∈ StemIdTokensRCUMap.tokensOf (after.stemidTokensMap slot) ↔
      word ∈ StemIdTokensRCUMap.tokensOf (before.stemidTokensMap slot) ∨
        ∃ article ∈ articles, ∃ token ∈ article.tokens, text.toLower token = word ∧
          before.recordedId? text token = some (Int32.ofNat slot.val)
  /-- A cell is set exactly if it was or if some article records its id. -/
  isSome_tokens : ∀ slot : Fin maxStemsNo, (after.stemidTokensMap slot).isSome ↔
    (before.stemidTokensMap slot).isSome ∨
      ∃ article ∈ articles, Int32.ofNat slot.val ∈ before.recordedIds text article.tokens

namespace BatchProcessed

variable {text : TextOps} {before mid after : Vocabulary} {articles : List Article}

theorem nil (text : TextOps) (vocab : Vocabulary) : BatchProcessed text vocab [] vocab where
  stems := rfl
  words := rfl
  stopWords := rfl
  stemsFreq slot := (Int32.add_zero _).symm
  mem_tokens := by simp
  isSome_tokens := by simp

/-- The ids of a later article do not depend on the articles before it. -/
theorem recordedIds_eq (h : BatchProcessed text before articles mid) (tokens : List Bytes) :
    mid.recordedIds text tokens = before.recordedIds text tokens := by
  have hids : mid.recordedId? text = before.recordedId? text := by
    funext token
    exact Vocabulary.recordedId?_congr h.stems h.stopWords token
  rw [Vocabulary.recordedIds, Vocabulary.recordedIds, hids]

/-- One more article. -/
theorem concat (h : BatchProcessed text before articles mid) {article : Article}
    (hnext : TokensProcessed text mid article.tokens after) :
    BatchProcessed text before (articles ++ [article]) after where
  stems := hnext.stems.trans h.stems
  words := hnext.words.trans h.words
  stopWords := hnext.stopWords.trans h.stopWords
  stemsFreq slot := by
    rw [hnext.stemsFreq, h.stemsFreq, h.recordedIds_eq, List.countP_append,
      List.countP_singleton]
    by_cases hrecorded : Int32.ofNat slot.val ∈ before.recordedIds text article.tokens
    · simp only [hrecorded, if_true, decide_true, Int32.ofNat_add, ← Int32.add_assoc]
      rfl
    · simp [hrecorded]
  mem_tokens slot word := by
    have hid : ∀ token, mid.recordedId? text token = before.recordedId? text token :=
      Vocabulary.recordedId?_congr h.stems h.stopWords
    simp only [hnext.mem_tokens, h.mem_tokens, hid, List.mem_append, List.mem_singleton,
      or_and_right, exists_or, exists_eq_left, or_assoc]
  isSome_tokens slot := by
    simp only [hnext.isSome_tokens, h.isSome_tokens, h.recordedIds_eq, List.mem_append,
      List.mem_singleton, or_and_right, exists_or, exists_eq_left, or_assoc]

/-- The order of the articles does not matter to the arrays. -/
theorem arrays_eq_of_perm {reordered : List Article} {other : Vocabulary}
    (h : BatchProcessed text before articles after)
    (hother : BatchProcessed text before reordered other) (hperm : reordered.Perm articles) :
    other.stemsFreq = after.stemsFreq ∧ other.stemidTokensMap = after.stemidTokensMap := by
  constructor
  · funext slot
    rw [h.stemsFreq, hother.stemsFreq, hperm.countP_eq]
  · funext slot
    have hmem : StemIdTokensRCUMap.tokensOf (other.stemidTokensMap slot) =
        StemIdTokensRCUMap.tokensOf (after.stemidTokensMap slot) := by
      ext word
      simp only [h.mem_tokens, hother.mem_tokens, hperm.mem_iff]
    have hsome : (other.stemidTokensMap slot).isSome ↔ (after.stemidTokensMap slot).isSome := by
      simp only [h.isSome_tokens, hother.isSome_tokens, hperm.mem_iff]
    cases hfirst : other.stemidTokensMap slot with
    | none =>
        rw [hfirst] at hsome
        exact (Option.not_isSome_iff_eq_none.mp (hsome.not.mp Bool.false_ne_true)).symm
    | some tokensSet =>
        have ⟨otherSet, hsecond⟩ := Option.isSome_iff_exists.mp (hsome.mp (by rw [hfirst]; rfl))
        rw [hfirst, hsecond] at hmem
        rw [hsecond]
        exact congrArg some hmem

end BatchProcessed

variable {text : TextOps} {collect : Bool} {vocab after : Vocabulary}
  {entries : List (Article × ProcessedArticle)}

theorem batchProcessed_of_run (h : run (processNext text collect) vocab entries = some after) :
    BatchProcessed text vocab (entries.map Prod.fst) after := by
  apply run_invariant (P := fun hist vocab' =>
    BatchProcessed text vocab (hist.map Prod.fst) vocab') _ _ h
  · exact BatchProcessed.nil text vocab
  · intro hist mid entry next hmid hstep
    have ⟨⟨_, final, shingles⟩, hprocessed, hnext⟩ := Option.map_eq_some_iff.mp hstep
    cases hnext
    rw [List.map_append]
    exact hmid.concat (processTokens_spec hprocessed).1

/-- A batch completes if the vocabulary fits the arrays. -/
theorem exists_run_processNext (text : TextOps) (collect : Bool)
    (hfits : vocab.stemsNo ≤ maxStemsNo) (entries : List (Article × ProcessedArticle)) :
    ∃ after, run (processNext text collect) vocab entries = some after := by
  have hloop : ∃ after, run (processNext text collect) vocab entries = some after ∧
      after.stems = vocab.stems := by
    apply exists_run_preserves (P := fun vocab' : Vocabulary => vocab'.stems = vocab.stems) rfl
    intro mid entry _ hstems
    have hmid : mid.stemsNo ≤ maxStemsNo := by
      rwa [Vocabulary.stemsNo, hstems]
    have ⟨next, final, shingles, hprocessed⟩ :=
      exists_processTokens_of_fits text collect hmid entry.1 entry.2
    exact ⟨next, by rw [processNext, hprocessed, Option.map_some],
      (processTokens_spec hprocessed).1.stems.trans hstems⟩
  have ⟨after, hrun, _⟩ := hloop
  exact ⟨after, hrun⟩

/-! ## Counts by stem -/

/-- The count of every stem is the number of articles with a token that is kept and
stems to it, and its token set lists those tokens. -/
structure BatchCounted (text : TextOps) (vocab : Vocabulary) (articles : List Article)
    (after : Vocabulary) : Prop where
  /-- The number is narrowed to the counter's type. -/
  count : ∀ stem ∈ vocab.stems, after.stemCount stem =
    some (Int32.ofNat (articles.countP fun article => vocab.mentions text article stem))
  tokens : ∀ stem ∈ vocab.stems, ∃ cell, after.stemTokens stem = some cell ∧
    (cell = none ↔ ∀ article ∈ articles, ¬ vocab.mentions text article stem) ∧
    ∀ tokensSet, cell = some tokensSet → ∀ word, word ∈ tokensSet ↔
      ∃ article ∈ articles, ∃ token ∈ article.tokens, text.toLower token = word ∧
        vocab.keeps word ∧ text.trimAndStem word = stem

/-- In a vocabulary that fits the arrays, a token is recorded at a stem's position
exactly if it is kept and stems to it. -/
theorem recordedId?_eq_rank_iff {token stem : Bytes} (hfits : vocab.stemsNo ≤ maxStemsNo)
    (hmem : stem ∈ vocab.stems) :
    vocab.recordedId? text token = some (Int32.ofNat (vocab.stems.rank stem)) ↔
      vocab.keeps (text.toLower token) ∧ text.trimAndStem (text.toLower token) = stem := by
  constructor
  · intro h
    exact ⟨(Vocabulary.recordedId?_eq_some.mp h).1,
      Vocabulary.trimAndStem_of_recordedId? hfits hmem h⟩
  · rintro ⟨hkeeps, rfl⟩
    exact Vocabulary.recordedId?_eq_some.mpr ⟨hkeeps, Vocabulary.getStemId_of_mem hmem⟩

/-- In such a vocabulary, an article records a stem's position exactly if it mentions
the stem. -/
theorem rank_mem_recordedIds_iff {article : Article} {stem : Bytes}
    (hfits : vocab.stemsNo ≤ maxStemsNo) (hmem : stem ∈ vocab.stems) :
    Int32.ofNat (vocab.stems.rank stem) ∈ vocab.recordedIds text article.tokens ↔
      vocab.mentions text article stem := by
  simp only [Vocabulary.mem_recordedIds, recordedId?_eq_rank_iff hfits hmem, Vocabulary.mentions]

/-- From zero counts, the count of a stem is the number of articles that mention it. -/
theorem BatchProcessed.stemCount_eq {articles : List Article}
    (h : BatchProcessed text vocab articles after) (hfits : vocab.stemsNo ≤ maxStemsNo)
    (hcounts : ∀ slot, vocab.stemsFreq slot = 0) {stem : Bytes} (hmem : stem ∈ vocab.stems) :
    after.stemCount stem =
      some (Int32.ofNat (articles.countP fun article => vocab.mentions text article stem)) := by
  have hafterFits : after.stems.size ≤ maxStemsNo := by
    rw [h.stems]
    exact hfits
  have hrank := (SortedSet.rank_lt_size hmem).trans_le hfits
  rw [Vocabulary.stemCount_eq (h.stems ▸ hmem) hafterFits, h.stems, Vocabulary.freqAt,
    dif_pos hrank, h.stemsFreq, hcounts, Int32.zero_add]
  simp only [rank_mem_recordedIds_iff hfits hmem]

theorem BatchProcessed.counted {articles : List Article}
    (h : BatchProcessed text vocab articles after) (hfits : vocab.stemsNo ≤ maxStemsNo)
    (hcounts : ∀ slot, vocab.stemsFreq slot = 0)
    (hcells : ∀ slot, vocab.stemidTokensMap slot = none) :
    BatchCounted text vocab articles after := by
  have hafterFits : after.stems.size ≤ maxStemsNo := by
    rw [h.stems]
    exact hfits
  constructor
  · exact fun stem hmem => h.stemCount_eq hfits hcounts hmem
  · intro stem hmem
    have hrank := (SortedSet.rank_lt_size hmem).trans_le hfits
    refine ⟨after.stemidTokensMap ⟨_, hrank⟩, ?_, ?_, ?_⟩
    · rw [Vocabulary.stemTokens_eq (h.stems ▸ hmem) hafterFits, h.stems, Vocabulary.cellAt,
        dif_pos hrank]
    · rw [← Option.not_isSome_iff_eq_none, h.isSome_tokens, hcells]
      simp [rank_mem_recordedIds_iff hfits hmem]
    · intro tokensSet hcell word
      have hword := h.mem_tokens ⟨_, hrank⟩ word
      rw [hcell, hcells, StemIdTokensRCUMap.tokensOf_some] at hword
      rw [hword]
      simp only [recordedId?_eq_rank_iff hfits hmem]
      constructor
      · rintro (hempty | ⟨article, harticle, token, htoken, rfl, hkept, hstem⟩)
        · exact absurd hempty (SortedSet.notMem_empty word)
        · exact ⟨article, harticle, token, htoken, rfl, hkept, hstem⟩
      · rintro ⟨article, harticle, token, htoken, rfl, hkept, hstem⟩
        exact Or.inr ⟨article, harticle, token, htoken, rfl, hkept, hstem⟩

/-- **A batch is counted, whatever its order.** From zero counts and an empty map, with
stems that fit the arrays, a batch completes, every stem's count and token set
are those of the batch, and the arrays are the same for every other order. -/
theorem batch_counted (text : TextOps) (collect : Bool) (vocab : Vocabulary)
    (entries : List (Article × ProcessedArticle)) (hfits : vocab.stemsNo ≤ maxStemsNo)
    (hcounts : ∀ slot, vocab.stemsFreq slot = 0)
    (hcells : ∀ slot, vocab.stemidTokensMap slot = none) :
    ∃ after, run (processNext text collect) vocab entries = some after ∧
      after.stems = vocab.stems ∧ BatchCounted text vocab (entries.map Prod.fst) after ∧
      ∀ reordered, reordered.Perm entries → ∃ other,
        run (processNext text collect) vocab reordered = some other ∧
        other.stems = after.stems ∧ other.stemsFreq = after.stemsFreq ∧
        other.stemidTokensMap = after.stemidTokensMap := by
  have ⟨after, hrun⟩ := exists_run_processNext text collect hfits entries
  have hafter := batchProcessed_of_run hrun
  refine ⟨after, hrun, hafter.stems, hafter.counted hfits hcounts hcells, ?_⟩
  intro reordered hperm
  have ⟨other, hother⟩ := exists_run_processNext text collect hfits reordered
  have hprocessed := batchProcessed_of_run hother
  exact ⟨other, hother, hprocessed.stems.trans hafter.stems.symm,
    hafter.arrays_eq_of_perm hprocessed (hperm.map Prod.fst)⟩

/-- A vocabulary with the stem `aa`, counted nowhere. -/
def oneStem : Vocabulary :=
  { Vocabulary.fresh fun _ => 0 with
    stems := SortedSet.empty.insert [97, 97] }

/-- An article with the word `aa`. -/
def oneWordEntry : Article × ProcessedArticle := (letterArticle [97], .fresh fun _ => 0)

/-- The result for one such article. -/
theorem batch_counted_oneWord :
    ∃ after, run (processNext letterText true) oneStem [oneWordEntry] = some after ∧
      after.stems = oneStem.stems ∧
      BatchCounted letterText oneStem ([oneWordEntry].map Prod.fst) after ∧
      ∀ reordered, reordered.Perm [oneWordEntry] → ∃ other,
        run (processNext letterText true) oneStem reordered = some other ∧
        other.stems = after.stems ∧ other.stemsFreq = after.stemsFreq ∧
        other.stemidTokensMap = after.stemidTokensMap :=
  batch_counted letterText true oneStem [oneWordEntry] (by decide) (fun _ => rfl) fun _ => rfl

/-- The count of a stem that 2147483648 articles mention is negative. -/
theorem batch_count_wraps :
    ¬ ∀ (text : TextOps) (collect : Bool) (vocab : Vocabulary)
      (entries : List (Article × ProcessedArticle)) (after : Vocabulary),
      vocab.stemsNo ≤ maxStemsNo → (∀ slot, vocab.stemsFreq slot = 0) →
      (∀ slot, vocab.stemidTokensMap slot = none) →
      run (processNext text collect) vocab entries = some after →
      ∀ stem ∈ vocab.stems, ∃ freq, after.stemCount stem = some freq ∧
        freq.toInt = (entries.map Prod.fst).countP fun article =>
          vocab.mentions text article stem := by
  intro hall
  have hfits : oneStem.stemsNo ≤ maxStemsNo := by decide
  have ⟨after, hrun⟩ := exists_run_processNext letterText true hfits
    (List.replicate (2 ^ 31) oneWordEntry)
  have hmem : [97, 97] ∈ oneStem.stems := by decide
  have ⟨freq, hfreq, hexact⟩ := hall _ _ _ _ after hfits (fun _ => rfl) (fun _ => rfl) hrun
    [97, 97] hmem
  have hcounted := ((batchProcessed_of_run hrun).counted hfits (fun _ => rfl)
    fun _ => rfl).count [97, 97] hmem
  have hmentions : oneStem.mentions letterText (letterArticle [97]) [97, 97] := by decide +kernel
  rw [hfreq] at hcounted
  rw [Option.some.inj hcounted, List.map_replicate, List.countP_replicate,
    show oneWordEntry.1 = letterArticle [97] from rfl, if_pos (decide_eq_true hmentions)] at hexact
  exact absurd hexact (by decide)

end Unbiased
