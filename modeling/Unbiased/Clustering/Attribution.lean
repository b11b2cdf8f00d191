/-
# Which stem a count belongs to

The online engine merges an article's stems into the vocabulary and then counts
the article under the positions of its stems. A count is stored under a
position, but belongs to a stem, and a merge moves positions.

The ledger below is what the counts are for: it keeps, by stem and not by
position, how many articles mentioned each stem. The vocabulary agrees with the
ledger along a whole run exactly as long as no merge places a new stem before a
counted one, the arrays are not outgrown and no count wraps around.
-/

import Unbiased.Clustering.ArticleParser

namespace Unbiased

open Unbiased.Math

/-- The two vocabulary updates of the online engine for one valid article: its
stems are merged, then its tokens are processed. -/
def submitArticle (text : TextOps) (uninitialised : Signature) (vocab : Vocabulary)
    (stems : SortedSet Bytes) (article : Article) :
    Option (Vocabulary × ProcessedArticle × SortedSet Int32) :=
  processTokens text true (vocab.addStems stems) article (.fresh uninitialised)

/-- One article of a run, with its stems and the memory its processed form is
placed in. -/
structure Submission where
  stems : SortedSet Bytes
  article : Article
  uninitialised : Signature

/-- The submission is one the engine makes: the article passes validation, and
the stems are those of its valid words. Validation reads the dictionary and the
stop words, which no submission changes. -/
def Submission.Accepted (text : TextOps) (start : Vocabulary) (submission : Submission) : Prop :=
  validate text start submission.article = (true, submission.article, submission.stems)

instance (text : TextOps) (start : Vocabulary) (submission : Submission) :
    Decidable (submission.Accepted text start) :=
  inferInstanceAs (Decidable (_ = _))

/-- The vocabulary after one submission. -/
def submit (text : TextOps) (vocab : Vocabulary) (submission : Submission) :
    Option Vocabulary :=
  (submitArticle text submission.uninitialised vocab submission.stems submission.article).map
    Prod.fst

/-! ## The ledger -/

/-- Some token that the loop keeps stems to `stem`. -/
def Vocabulary.mentions (text : TextOps) (vocab : Vocabulary) (article : Article)
    (stem : Bytes) : Prop :=
  ∃ token ∈ article.tokens,
    vocab.keeps (text.toLower token) ∧ text.trimAndStem (text.toLower token) = stem

instance (text : TextOps) (vocab : Vocabulary) (article : Article) (stem : Bytes) :
    Decidable (vocab.mentions text article stem) :=
  inferInstanceAs (Decidable (∃ _ ∈ _, _))

/-- The stems known so far, and for every stem the number of articles that
mentioned it while it was known. -/
structure Ledger where
  known : SortedSet Bytes
  articles : Bytes → ℕ

/-- Enter one submission. Stop words are those of the starting vocabulary. -/
def Ledger.record (text : TextOps) (start : Vocabulary) (ledger : Ledger)
    (submission : Submission) : Ledger where
  known := ledger.known.union submission.stems
  articles stem :=
    if stem ∈ ledger.known.union submission.stems ∧
        start.mentions text submission.article stem then
      ledger.articles stem + 1
    else ledger.articles stem

/-- The ledger of a run. -/
def ledgerOf (text : TextOps) (start : Vocabulary) (submissions : List Submission) : Ledger :=
  submissions.foldl (Ledger.record text start) ⟨start.stems, fun _ => 0⟩

/-- The count the vocabulary reports for a stem. -/
def Vocabulary.stemCount (vocab : Vocabulary) (stem : Bytes) : Option Int32 :=
  (vocab.getStemId stem).bind vocab.getStemFreq

/-- The token set the vocabulary reports for a stem. -/
def Vocabulary.stemTokens (vocab : Vocabulary) (stem : Bytes) : Option (Option TokensSet) :=
  (vocab.getStemId stem).bind vocab.getTokens

/-- Every stem's count is its number of articles in the ledger, and every token
stored for a stem is a lower-cased token of the run that stems to it. -/
def Attributed (text : TextOps) (start : Vocabulary) (submissions : List Submission)
    (vocab : Vocabulary) : Prop :=
  ∀ stem ∈ vocab.stems,
    (∃ freq, vocab.stemCount stem = some freq ∧
      freq.toInt = (ledgerOf text start submissions).articles stem) ∧
    ∃ cell, vocab.stemTokens stem = some cell ∧
      ∀ tokensSet, cell = some tokensSet → ∀ word ∈ tokensSet,
        text.trimAndStem word = stem ∧
          ∃ submission ∈ submissions, ∃ token ∈ submission.article.tokens,
            text.toLower token = word

/-- The condition on one submission, in the state before it: the merged stems fit
the arrays, no new stem sorts before a counted one, and no count that the
article increases is at its maximum. -/
structure InStep (text : TextOps) (vocab : Vocabulary) (submission : Submission) : Prop where
  fits : (vocab.stems.union submission.stems).size ≤ maxStemsNo
  inOrder : ∀ stem ∈ vocab.stems, vocab.stemCount stem ≠ some 0 →
    ∀ added ∈ submission.stems, added ∉ vocab.stems → stem < added
  noWrap : ∀ stem ∈ vocab.stems, vocab.mentions text submission.article stem →
    vocab.stemCount stem ≠ some Int32.maxValue

/-! ## Reading the arrays by position -/

namespace Vocabulary

/-- The count stored at a position; zero outside the array. -/
def freqAt (vocab : Vocabulary) (position : ℕ) : Int32 :=
  if h : position < maxStemsNo then vocab.stemsFreq ⟨position, h⟩ else 0

/-- The cell at a position; null outside the array. -/
def cellAt (vocab : Vocabulary) (position : ℕ) : Option TokensSet :=
  if h : position < maxStemsNo then vocab.stemidTokensMap ⟨position, h⟩ else none

theorem stemCount_eq {vocab : Vocabulary} {stem : Bytes} (hmem : stem ∈ vocab.stems)
    (hfits : vocab.stems.size ≤ maxStemsNo) :
    vocab.stemCount stem = some (vocab.freqAt (vocab.stems.rank stem)) := by
  have hrank := (SortedSet.rank_lt_size hmem).trans_le hfits
  rw [stemCount, getStemId_of_mem hmem, Option.bind_some, getStemFreq_rank hrank, freqAt,
    dif_pos hrank]

theorem stemTokens_eq {vocab : Vocabulary} {stem : Bytes} (hmem : stem ∈ vocab.stems)
    (hfits : vocab.stems.size ≤ maxStemsNo) :
    vocab.stemTokens stem = some (vocab.cellAt (vocab.stems.rank stem)) := by
  have hrank := (SortedSet.rank_lt_size hmem).trans_le hfits
  rw [stemTokens, getStemId_of_mem hmem, Option.bind_some, getTokens_rank hrank, cellAt,
    dif_pos hrank]

/-- In a vocabulary that fits the arrays, a position is recorded exactly if the
article mentions the stem at it. -/
theorem ofNat_mem_recordedIds {text : TextOps} {vocab : Vocabulary} {article : Article}
    {position : ℕ} (hfits : vocab.stems.size ≤ maxStemsNo) (hposition : position < maxStemsNo) :
    Int32.ofNat position ∈ vocab.recordedIds text article.tokens ↔
      ∃ stem ∈ vocab.stems, vocab.stems.rank stem = position ∧
        vocab.mentions text article stem := by
  rw [mem_recordedIds]
  refine ⟨?_, ?_⟩
  · rintro ⟨token, htoken, hid⟩
    obtain ⟨hkeeps, hstemId⟩ := recordedId?_eq_some.mp hid
    obtain ⟨hmem, hrank⟩ := getStemId_eq_some.mp hstemId
    have hsmall := (SortedSet.rank_lt_size hmem).trans_le hfits
    exact ⟨_, hmem, ofNat_inj_of_lt_maxStemsNo hsmall hposition hrank, token, htoken, hkeeps, rfl⟩
  · rintro ⟨stem, hmem, rfl, token, htoken, hkeeps, rfl⟩
    exact ⟨token, htoken, recordedId?_eq_some.mpr ⟨hkeeps, getStemId_of_mem hmem⟩⟩

/-- In a vocabulary that fits the arrays, a token is recorded at the position of its
own stem. -/
theorem trimAndStem_of_recordedId? {text : TextOps} {vocab : Vocabulary} {token stem : Bytes}
    (hfits : vocab.stems.size ≤ maxStemsNo) (hmem : stem ∈ vocab.stems)
    (h : vocab.recordedId? text token = some (Int32.ofNat (vocab.stems.rank stem))) :
    text.trimAndStem (text.toLower token) = stem := by
  obtain ⟨-, hstemId⟩ := recordedId?_eq_some.mp h
  obtain ⟨hother, hnarrow⟩ := getStemId_eq_some.mp hstemId
  have hrank := ofNat_inj_of_lt_maxStemsNo ((SortedSet.rank_lt_size hother).trans_le hfits)
    ((SortedSet.rank_lt_size hmem).trans_le hfits) hnarrow
  exact SortedSet.rank_inj hother hmem hrank

end Vocabulary

/-- The effect of one submission that fits the arrays, position by position. -/
structure Submitted (text : TextOps) (vocab : Vocabulary) (submission : Submission)
    (next : Vocabulary) : Prop where
  stems : next.stems = vocab.stems.union submission.stems
  stopWords : next.stopWords = vocab.stopWords
  freqAt_rank : ∀ stem ∈ next.stems, next.freqAt (next.stems.rank stem) =
    if vocab.mentions text submission.article stem then
      vocab.freqAt (next.stems.rank stem) + 1
    else vocab.freqAt (next.stems.rank stem)
  freqAt_beyond : ∀ position, next.stems.size ≤ position →
    next.freqAt position = vocab.freqAt position
  mem_cellAt_rank : ∀ stem ∈ next.stems, ∀ word,
    word ∈ StemIdTokensRCUMap.tokensOf (next.cellAt (next.stems.rank stem)) →
      word ∈ StemIdTokensRCUMap.tokensOf (vocab.cellAt (next.stems.rank stem)) ∨
        text.trimAndStem word = stem ∧
          ∃ token ∈ submission.article.tokens, text.toLower token = word
  isSome_cellAt_rank : ∀ stem ∈ next.stems,
    (next.cellAt (next.stems.rank stem)).isSome →
      (vocab.cellAt (next.stems.rank stem)).isSome ∨
        vocab.mentions text submission.article stem
  isSome_cellAt_beyond : ∀ position, next.stems.size ≤ position →
    (next.cellAt position).isSome → (vocab.cellAt position).isSome

/-- After a merge, membership of a stem's position in the recorded ids says
whether the article mentions that stem. -/
private theorem ofNat_rank_mem_iff (text : TextOps) (vocab : Vocabulary) (article : Article)
    (hfits : vocab.stems.size ≤ maxStemsNo) {stem : Bytes} (hmem : stem ∈ vocab.stems) :
    Int32.ofNat (vocab.stems.rank stem) ∈ vocab.recordedIds text article.tokens ↔
      vocab.mentions text article stem := by
  rw [Vocabulary.ofNat_mem_recordedIds hfits ((SortedSet.rank_lt_size hmem).trans_le hfits)]
  refine ⟨?_, fun hmentions => ⟨stem, hmem, rfl, hmentions⟩⟩
  rintro ⟨other, hother, hrank, hmentions⟩
  rwa [← SortedSet.rank_inj hother hmem hrank]

private theorem ofNat_beyond_notMem (text : TextOps) (vocab : Vocabulary) (article : Article)
    (hfits : vocab.stems.size ≤ maxStemsNo) {position : ℕ}
    (hposition : position < maxStemsNo) (hbeyond : vocab.stems.size ≤ position) :
    Int32.ofNat position ∉ vocab.recordedIds text article.tokens := by
  rw [Vocabulary.ofNat_mem_recordedIds hfits hposition]
  rintro ⟨stem, hmem, rfl, -⟩
  exact absurd (SortedSet.rank_lt_size hmem) (not_lt.mpr hbeyond)

theorem submit_stems {text : TextOps} {vocab next : Vocabulary} {submission : Submission}
    (h : submit text vocab submission = some next) :
    next.stems = vocab.stems.union submission.stems := by
  obtain ⟨⟨after, processed, shingles⟩, hafter, rfl⟩ := Option.map_eq_some_iff.mp h
  exact (processTokens_spec hafter).1.stems

theorem submit_submitted {text : TextOps} {vocab next : Vocabulary} {submission : Submission}
    (h : submit text vocab submission = some next)
    (hfits : (vocab.stems.union submission.stems).size ≤ maxStemsNo) :
    Submitted text vocab submission next := by
  obtain ⟨⟨after, processed, shingles⟩, hafter, rfl⟩ := Option.map_eq_some_iff.mp h
  obtain ⟨hspec, -⟩ := processTokens_spec hafter
  have hstems : after.stems = vocab.stems.union submission.stems := hspec.stems
  have hsmall : ∀ {stem}, stem ∈ after.stems → after.stems.rank stem < maxStemsNo := by
    intro stem hmem
    exact (SortedSet.rank_lt_size hmem).trans_le (hstems ▸ hfits)
  have hrecorded : ∀ {stem}, stem ∈ after.stems →
      (Int32.ofNat (after.stems.rank stem) ∈
          (vocab.addStems submission.stems).recordedIds text submission.article.tokens ↔
        vocab.mentions text submission.article stem) := by
    intro stem hmem
    rw [hstems] at hmem ⊢
    exact ofNat_rank_mem_iff text (vocab.addStems submission.stems) submission.article hfits hmem
  exact {
    stems := hstems
    stopWords := hspec.stopWords
    freqAt_rank := by
      intro stem hmem
      have hfreq := hspec.stemsFreq ⟨after.stems.rank stem, hsmall hmem⟩
      simp only [hrecorded hmem, Vocabulary.addStems_stemsFreq] at hfreq
      simpa only [Vocabulary.freqAt, dif_pos (hsmall hmem)] using hfreq
    freqAt_beyond := by
      intro position hbeyond
      by_cases hposition : position < maxStemsNo
      · have hfreq := hspec.stemsFreq ⟨position, hposition⟩
        have hnot := ofNat_beyond_notMem text (vocab.addStems submission.stems)
          submission.article hfits hposition (by simpa [hstems] using hbeyond)
        rw [if_neg hnot, Vocabulary.addStems_stemsFreq] at hfreq
        simpa only [Vocabulary.freqAt, dif_pos hposition] using hfreq
      · simp only [Vocabulary.freqAt, dif_neg hposition]
    mem_cellAt_rank := by
      intro stem hmem word hword
      simp only [Vocabulary.cellAt, dif_pos (hsmall hmem)] at hword ⊢
      rcases (hspec.mem_tokens _ word).mp hword with hold | ⟨token, htoken, rfl, hid⟩
      · exact Or.inl hold
      · change (vocab.addStems submission.stems).recordedId? text token =
          some (Int32.ofNat (after.stems.rank stem)) at hid
        rw [hstems] at hid
        have hmerged : stem ∈ vocab.stems.union submission.stems := by rwa [← hstems]
        exact Or.inr ⟨Vocabulary.trimAndStem_of_recordedId? hfits hmerged hid, token, htoken, rfl⟩
    isSome_cellAt_rank := by
      intro stem hmem hsome
      simp only [Vocabulary.cellAt, dif_pos (hsmall hmem)] at hsome ⊢
      rcases (hspec.isSome_tokens _).mp hsome with hold | hid
      · exact Or.inl hold
      · exact Or.inr ((hrecorded hmem).mp hid)
    isSome_cellAt_beyond := by
      intro position hbeyond hsome
      by_cases hposition : position < maxStemsNo
      · simp only [Vocabulary.cellAt, dif_pos hposition] at hsome ⊢
        rcases (hspec.isSome_tokens _).mp hsome with hold | hid
        · exact hold
        · exact absurd hid (ofNat_beyond_notMem text (vocab.addStems submission.stems)
            submission.article hfits hposition (by simpa [hstems] using hbeyond))
      · simp [Vocabulary.cellAt, dif_neg hposition] at hsome }

/-! ## The invariant -/

/-- What ties the arrays to the ledger while every submission is in step: the
count of every stem stands at its position, positions without a counted stem
hold zero, and only counted positions hold tokens. -/
structure Aligned (text : TextOps) (start : Vocabulary) (submissions : List Submission)
    (vocab : Vocabulary) : Prop where
  known : vocab.stems = (ledgerOf text start submissions).known
  stopWords : vocab.stopWords = start.stopWords
  fits : vocab.stems.size ≤ maxStemsNo
  counts : ∀ stem ∈ vocab.stems, (vocab.freqAt (vocab.stems.rank stem)).toInt =
    (ledgerOf text start submissions).articles stem
  unknown : ∀ stem, stem ∉ vocab.stems → (ledgerOf text start submissions).articles stem = 0
  beyond : ∀ position, vocab.stems.size ≤ position → vocab.freqAt position = 0
  countedCells : ∀ position, (vocab.cellAt position).isSome → vocab.freqAt position ≠ 0
  tokens : ∀ stem ∈ vocab.stems, ∀ word,
    word ∈ StemIdTokensRCUMap.tokensOf (vocab.cellAt (vocab.stems.rank stem)) →
      text.trimAndStem word = stem ∧
        ∃ submission ∈ submissions, ∃ token ∈ submission.article.tokens,
          text.toLower token = word

theorem ledgerOf_concat (text : TextOps) (start : Vocabulary) (submissions : List Submission)
    (submission : Submission) :
    ledgerOf text start (submissions ++ [submission]) =
      (ledgerOf text start submissions).record text start submission := by
  rw [ledgerOf, List.foldl_append]
  rfl

theorem ledgerOf_concat_of_mentions {text : TextOps} {start : Vocabulary}
    {submissions : List Submission} {submission : Submission} {stem : Bytes}
    (hknown : stem ∈ (ledgerOf text start submissions).known.union submission.stems)
    (hmentions : start.mentions text submission.article stem) :
    (ledgerOf text start (submissions ++ [submission])).articles stem =
      (ledgerOf text start submissions).articles stem + 1 := by
  rw [ledgerOf_concat]
  exact if_pos ⟨hknown, hmentions⟩

theorem ledgerOf_concat_of_not {text : TextOps} {start : Vocabulary}
    {submissions : List Submission} {submission : Submission} {stem : Bytes}
    (h : ¬ (stem ∈ (ledgerOf text start submissions).known.union submission.stems ∧
      start.mentions text submission.article stem)) :
    (ledgerOf text start (submissions ++ [submission])).articles stem =
      (ledgerOf text start submissions).articles stem := by
  rw [ledgerOf_concat]
  exact if_neg h

/-- Which stems an article mentions depends on the stop words only. -/
theorem Vocabulary.mentions_congr {text : TextOps} {first second : Vocabulary}
    (h : first.stopWords = second.stopWords) (article : Article) (stem : Bytes) :
    first.mentions text article stem ↔ second.mentions text article stem := by
  simp only [mentions, keeps, isStopWord, h]

namespace Aligned

variable {text : TextOps} {start vocab next : Vocabulary} {submissions : List Submission}
  {submission : Submission}

/-- A vocabulary with no counts and no tokens agrees with the empty ledger. -/
theorem initial (hfits : start.stemsNo ≤ maxStemsNo)
    (hcounts : ∀ slot, start.stemsFreq slot = 0)
    (htokens : ∀ slot, start.stemidTokensMap slot = none) :
    Aligned text start [] start := by
  have hfreq : ∀ position, start.freqAt position = 0 := by
    intro position
    unfold Vocabulary.freqAt
    split
    · exact hcounts _
    · rfl
  have hcell : ∀ position, start.cellAt position = none := by
    intro position
    unfold Vocabulary.cellAt
    split
    · exact htokens _
    · rfl
  refine ⟨rfl, rfl, hfits, ?_, fun _ _ => rfl, fun position _ => hfreq position, ?_, ?_⟩
  · intro stem _
    rw [hfreq]
    rfl
  · intro position hsome
    simp [hcell] at hsome
  · intro stem _ word hword
    simp [hcell, StemIdTokensRCUMap.tokensOf] at hword

/-- The invariant says what the vocabulary reports. -/
theorem attributed (h : Aligned text start submissions vocab) :
    Attributed text start submissions vocab := by
  intro stem hmem
  refine ⟨⟨_, Vocabulary.stemCount_eq hmem h.fits, h.counts stem hmem⟩,
    _, Vocabulary.stemTokens_eq hmem h.fits, ?_⟩
  intro tokensSet hcell word hword
  apply h.tokens stem hmem word
  rwa [hcell, StemIdTokensRCUMap.tokensOf_some]

theorem mentions_iff (h : Aligned text start submissions vocab) (article : Article)
    (stem : Bytes) : start.mentions text article stem ↔ vocab.mentions text article stem :=
  Vocabulary.mentions_congr h.stopWords.symm article stem

/-- The count of a known stem is zero only if the ledger has no article for it. -/
theorem freqAt_eq_zero_iff (h : Aligned text start submissions vocab) {stem : Bytes}
    (hmem : stem ∈ vocab.stems) :
    vocab.freqAt (vocab.stems.rank stem) = 0 ↔
      (ledgerOf text start submissions).articles stem = 0 := by
  rw [← Int32.toInt_inj, h.counts stem hmem]
  exact Int.natCast_eq_zero

/-- A position that holds a count is the position of a counted stem. -/
theorem exists_counted (h : Aligned text start submissions vocab) {position : ℕ}
    (hfreq : vocab.freqAt position ≠ 0) :
    ∃ stem ∈ vocab.stems, vocab.stems.rank stem = position := by
  apply SortedSet.exists_rank_eq
  by_contra hbeyond
  exact hfreq (h.beyond position (not_lt.mp hbeyond))

/-! ## Steps in order keep the invariant -/

/-- In order, a counted stem keeps its position. -/
theorem rank_eq_of_counted (h : Aligned text start submissions vocab)
    (hstep : InStep text vocab submission) {stem : Bytes} (hmem : stem ∈ vocab.stems)
    (hfreq : vocab.freqAt (vocab.stems.rank stem) ≠ 0) :
    (vocab.stems.union submission.stems).rank stem = vocab.stems.rank stem := by
  apply SortedSet.rank_union_eq_iff.mpr
  intro added hadded hnew
  apply le_of_lt
  apply hstep.inOrder stem hmem _ added hadded hnew
  rw [Vocabulary.stemCount_eq hmem h.fits]
  exact fun heq => hfreq (Option.some.inj heq)

/-- In order, a stem that lands on a counted position was there before. -/
theorem mem_of_counted (h : Aligned text start submissions vocab)
    (hstep : InStep text vocab submission) {stem : Bytes}
    (hmem : stem ∈ vocab.stems.union submission.stems)
    (hfreq : vocab.freqAt ((vocab.stems.union submission.stems).rank stem) ≠ 0) :
    stem ∈ vocab.stems ∧
      (vocab.stems.union submission.stems).rank stem = vocab.stems.rank stem := by
  obtain ⟨holder, hholder, hrank⟩ := h.exists_counted hfreq
  have hkept := h.rank_eq_of_counted hstep hholder (by rwa [hrank])
  obtain rfl : holder = stem :=
    SortedSet.rank_inj (SortedSet.mem_union.mpr (Or.inl hholder)) hmem (hkept.trans hrank)
  exact ⟨hholder, hkept⟩

/-- In order, the count found at a stem's new position is the stem's own. -/
theorem toInt_freqAt_rank_union (h : Aligned text start submissions vocab)
    (hstep : InStep text vocab submission) {stem : Bytes}
    (hmem : stem ∈ vocab.stems.union submission.stems) :
    (vocab.freqAt ((vocab.stems.union submission.stems).rank stem)).toInt =
      (ledgerOf text start submissions).articles stem := by
  by_cases hfreq : vocab.freqAt ((vocab.stems.union submission.stems).rank stem) = 0
  · have hzero : (ledgerOf text start submissions).articles stem = 0 := by
      by_cases hknown : stem ∈ vocab.stems
      · apply (h.freqAt_eq_zero_iff hknown).mp
        by_contra hcounted
        rw [h.rank_eq_of_counted hstep hknown hcounted] at hfreq
        exact hcounted hfreq
      · exact h.unknown stem hknown
    rw [hfreq, hzero]
    rfl
  · obtain ⟨hknown, hrank⟩ := h.mem_of_counted hstep hmem hfreq
    rw [hrank]
    exact h.counts stem hknown

/-- In order, a count that the article increases is below the maximum. -/
theorem toInt_freqAt_rank_union_lt (h : Aligned text start submissions vocab)
    (hstep : InStep text vocab submission) {stem : Bytes}
    (hmem : stem ∈ vocab.stems.union submission.stems)
    (hmentions : vocab.mentions text submission.article stem) :
    (vocab.freqAt ((vocab.stems.union submission.stems).rank stem)).toInt < 2 ^ 31 - 1 := by
  by_cases hfreq : vocab.freqAt ((vocab.stems.union submission.stems).rank stem) = 0
  · rw [hfreq]
    decide
  · obtain ⟨hknown, hrank⟩ := h.mem_of_counted hstep hmem hfreq
    have hnoWrap := hstep.noWrap stem hknown hmentions
    rw [Vocabulary.stemCount_eq hknown h.fits, ← hrank] at hnoWrap
    have hle := (vocab.freqAt ((vocab.stems.union submission.stems).rank stem)).toInt_lt
    by_contra hmax
    apply hnoWrap
    congr 1
    apply Int32.toInt_inj.mp
    rw [Int32.toInt_maxValue]
    omega

/-- The count stored for a stem after a step in order is the ledger's. -/
theorem counts_step (h : Aligned text start submissions vocab)
    (hstep : InStep text vocab submission) (hnext : Submitted text vocab submission next)
    {stem : Bytes} (hmem : stem ∈ next.stems) :
    (next.freqAt (next.stems.rank stem)).toInt =
      (ledgerOf text start (submissions ++ [submission])).articles stem := by
  have hfreq := hnext.freqAt_rank stem hmem
  rw [hnext.stems] at hmem hfreq ⊢
  have hcount := h.toInt_freqAt_rank_union hstep hmem
  have hentry : stem ∈ (ledgerOf text start submissions).known.union submission.stems := by
    rwa [← h.known]
  rw [hfreq]
  by_cases hmentions : vocab.mentions text submission.article stem
  · have hmentionsStart := (h.mentions_iff submission.article stem).mpr hmentions
    rw [if_pos hmentions, ledgerOf_concat_of_mentions hentry hmentionsStart,
      toInt_add_one_of_lt (h.toInt_freqAt_rank_union_lt hstep hmem hmentions), hcount]
    rfl
  · have hmentionsStart := mt (h.mentions_iff submission.article stem).mp hmentions
    rw [if_neg hmentions, ledgerOf_concat_of_not fun hboth => hmentionsStart hboth.2, hcount]

/-- After a step in order, tokens are stored at counted positions only. -/
theorem countedCells_step (h : Aligned text start submissions vocab)
    (hstep : InStep text vocab submission) (hnext : Submitted text vocab submission next)
    {position : ℕ} (hsome : (next.cellAt position).isSome) : next.freqAt position ≠ 0 := by
  by_cases hbeyond : next.stems.size ≤ position
  · rw [hnext.freqAt_beyond position hbeyond]
    exact h.countedCells position (hnext.isSome_cellAt_beyond position hbeyond hsome)
  · obtain ⟨stem, hmem, rfl⟩ := SortedSet.exists_rank_eq (not_le.mp hbeyond)
    rw [ne_eq, ← Int32.toInt_inj, h.counts_step hstep hnext hmem, Int32.toInt_zero,
      Int.natCast_eq_zero]
    by_cases hmentions : vocab.mentions text submission.article stem
    · have hentry : stem ∈ (ledgerOf text start submissions).known.union submission.stems := by
        rwa [← h.known, ← hnext.stems]
      rw [ledgerOf_concat_of_mentions hentry
        ((h.mentions_iff submission.article stem).mpr hmentions)]
      exact Nat.succ_ne_zero _
    · have hold := (hnext.isSome_cellAt_rank stem hmem hsome).resolve_right hmentions
      have hmentionsStart := mt (h.mentions_iff submission.article stem).mp hmentions
      rw [ledgerOf_concat_of_not fun hboth => hmentionsStart hboth.2]
      have hcounted := h.countedCells _ hold
      rw [hnext.stems] at hmem hcounted
      rwa [ne_eq, ← Int32.toInt_inj, h.toInt_freqAt_rank_union hstep hmem,
        Int32.toInt_zero, Int.natCast_eq_zero] at hcounted

/-- After a step in order, the tokens stored for a stem are tokens of the run that
stem to it. -/
theorem tokens_step (h : Aligned text start submissions vocab)
    (hstep : InStep text vocab submission) (hnext : Submitted text vocab submission next)
    {stem word : Bytes} (hmem : stem ∈ next.stems)
    (hword : word ∈ StemIdTokensRCUMap.tokensOf (next.cellAt (next.stems.rank stem))) :
    text.trimAndStem word = stem ∧
      ∃ earlier ∈ submissions ++ [submission], ∃ token ∈ earlier.article.tokens,
        text.toLower token = word := by
  rcases hnext.mem_cellAt_rank stem hmem word hword with hold | ⟨hstem, token, htoken, hlower⟩
  · -- A stored token sits at a counted position, so the stem was there before.
    have hcell : (vocab.cellAt (next.stems.rank stem)).isSome := by
      cases hcase : vocab.cellAt (next.stems.rank stem) with
      | none => simp [hcase, StemIdTokensRCUMap.tokensOf] at hold
      | some tokensSet => rfl
    have hcounted := h.countedCells _ hcell
    rw [hnext.stems] at hmem hcounted hold
    obtain ⟨hknown, hrank⟩ := h.mem_of_counted hstep hmem hcounted
    rw [hrank] at hold
    obtain ⟨hstem, earlier, hearlier, hrest⟩ := h.tokens stem hknown word hold
    exact ⟨hstem, earlier, List.mem_append_left _ hearlier, hrest⟩
  · exact ⟨hstem, submission, List.mem_append_right _ (List.mem_singleton_self _), token,
      htoken, hlower⟩

/-- A step in order keeps the invariant. -/
theorem step (h : Aligned text start submissions vocab)
    (hstep : InStep text vocab submission) (hnext : Submitted text vocab submission next) :
    Aligned text start (submissions ++ [submission]) next where
  known := by rw [hnext.stems, ledgerOf_concat, Ledger.record, h.known]
  stopWords := hnext.stopWords.trans h.stopWords
  fits := by
    rw [hnext.stems]
    exact hstep.fits
  counts stem := h.counts_step hstep hnext
  unknown stem hnot := by
    rw [hnext.stems, SortedSet.mem_union, not_or] at hnot
    have hentry : stem ∉ (ledgerOf text start submissions).known.union submission.stems := by
      rw [← h.known, SortedSet.mem_union, not_or]
      exact hnot
    rw [ledgerOf_concat_of_not fun hboth => hentry hboth.1]
    exact h.unknown stem hnot.1
  beyond position hbeyond := by
    rw [hnext.freqAt_beyond position hbeyond]
    apply h.beyond
    apply le_trans _ hbeyond
    rw [hnext.stems]
    exact SortedSet.size_le_size_union _ _
  countedCells position := h.countedCells_step hstep hnext
  tokens stem hmem word := h.tokens_step hstep hnext hmem

/-! ## Only steps in order keep the attribution -/

/-- A count that moves off its position has to be made up for by another count,
at the position its stem moves to. -/
theorem exists_counted_above (h : Aligned text start submissions vocab)
    (hnext : Submitted text vocab submission next) (hfits : next.stems.size ≤ maxStemsNo)
    (hgoal : Attributed text start (submissions ++ [submission]) next)
    {stem added : Bytes} (hmem : stem ∈ vocab.stems)
    (hfreq : vocab.freqAt (vocab.stems.rank stem) ≠ 0)
    (hadded : added ∈ submission.stems) (hnew : added ∉ vocab.stems) (hbelow : added < stem) :
    ∃ above ∈ vocab.stems, vocab.freqAt (vocab.stems.rank above) ≠ 0 ∧ stem < above := by
  have hnextMem : stem ∈ next.stems := by
    rw [hnext.stems]
    exact SortedSet.mem_union.mpr (Or.inl hmem)
  have hmoved : vocab.stems.rank stem < next.stems.rank stem := by
    rw [hnext.stems]
    apply lt_of_le_of_ne (SortedSet.rank_le_rank_union _ _ _)
    intro heq
    exact absurd hbelow (not_lt.mpr (SortedSet.rank_union_eq_iff.mp heq.symm added hadded hnew))
  have hcount : (next.freqAt (next.stems.rank stem)).toInt =
      (ledgerOf text start (submissions ++ [submission])).articles stem := by
    obtain ⟨freq, hfreqSome, hfreqInt⟩ := (hgoal stem hnextMem).1
    rw [Vocabulary.stemCount_eq hnextMem hfits] at hfreqSome
    rw [Option.some.inj hfreqSome]
    exact hfreqInt
  have harticles := mt (h.freqAt_eq_zero_iff hmem).mpr hfreq
  have htarget : vocab.freqAt (next.stems.rank stem) ≠ 0 := by
    intro hzero
    rw [hnext.freqAt_rank stem hnextMem, hzero] at hcount
    apply harticles
    by_cases hmentions : vocab.mentions text submission.article stem
    · have hentry : stem ∈ (ledgerOf text start submissions).known.union submission.stems := by
        rwa [← h.known, ← hnext.stems]
      rw [if_pos hmentions, ledgerOf_concat_of_mentions hentry
        ((h.mentions_iff submission.article stem).mpr hmentions), Int32.zero_add,
        Int32.toInt_one] at hcount
      omega
    · have hmentionsStart := mt (h.mentions_iff submission.article stem).mp hmentions
      rw [if_neg hmentions, ledgerOf_concat_of_not fun hboth => hmentionsStart hboth.2,
        Int32.toInt_zero] at hcount
      exact Int.natCast_eq_zero.mp hcount.symm
  obtain ⟨above, habove, hrank⟩ := h.exists_counted htarget
  refine ⟨above, habove, by rwa [hrank], ?_⟩
  by_contra hle
  have := vocab.stems.rank_le_rank (not_lt.mp hle)
  omega

/-- The counts above a moved one would have to go on without end. -/
theorem inOrder_of_attributed (h : Aligned text start submissions vocab)
    (hnext : Submitted text vocab submission next) (hfits : next.stems.size ≤ maxStemsNo)
    (hgoal : Attributed text start (submissions ++ [submission]) next)
    {stem added : Bytes} (hmem : stem ∈ vocab.stems)
    (hfreq : vocab.freqAt (vocab.stems.rank stem) ≠ 0)
    (hadded : added ∈ submission.stems) (hnew : added ∉ vocab.stems) : ¬ added < stem := by
  -- Induction on the number of positions above the stem.
  induction hroom : vocab.stems.size - vocab.stems.rank stem using Nat.strong_induction_on
    generalizing stem with
  | _ room ih =>
      intro hbelow
      obtain ⟨above, habove, hfreqAbove, hlt⟩ :=
        h.exists_counted_above hnext hfits hgoal hmem hfreq hadded hnew hbelow
      have hrank := SortedSet.rank_lt_rank hmem habove hlt
      have hsize := SortedSet.rank_lt_size habove
      exact ih _ (by omega) habove hfreqAbove rfl (hbelow.trans hlt)

end Aligned

/-- A vocabulary that has outgrown the arrays has a stem without a count. -/
theorem Attributed.fits {text : TextOps} {start vocab : Vocabulary}
    {submissions : List Submission} (h : Attributed text start submissions vocab) :
    vocab.stems.size ≤ maxStemsNo := by
  by_contra hlarge
  obtain ⟨stem, hmem, hrank⟩ := SortedSet.exists_rank_eq (not_le.mp hlarge)
  obtain ⟨freq, hfreq, -⟩ := (h stem hmem).1
  rw [Vocabulary.stemCount, Vocabulary.getStemId_of_mem hmem, hrank, Option.bind_some,
    Vocabulary.getStemFreq, slot?_ofNat_maxStemsNo] at hfreq
  cases hfreq

/-- A step that keeps the attribution is in order. -/
theorem Aligned.inStep_of_attributed {text : TextOps} {start vocab next : Vocabulary}
    {submissions : List Submission} {submission : Submission}
    (h : Aligned text start submissions vocab)
    (hsubmit : submit text vocab submission = some next)
    (hgoal : Attributed text start (submissions ++ [submission]) next) :
    InStep text vocab submission := by
  have hsize := hgoal.fits
  have hunion := hsize
  rw [submit_stems hsubmit] at hunion
  have hnext := submit_submitted hsubmit hunion
  have hinOrder : ∀ stem ∈ vocab.stems, vocab.stemCount stem ≠ some 0 →
      ∀ added ∈ submission.stems, added ∉ vocab.stems → stem < added := by
    intro stem hmem hcounted added hadded hnew
    rw [Vocabulary.stemCount_eq hmem h.fits] at hcounted
    have hfreq : vocab.freqAt (vocab.stems.rank stem) ≠ 0 := fun heq => hcounted (by rw [heq])
    have hnotBelow := h.inOrder_of_attributed hnext hsize hgoal hmem hfreq hadded hnew
    exact lt_of_le_of_ne (not_lt.mp hnotBelow) fun heq => hnew (heq ▸ hmem)
  refine ⟨hunion, hinOrder, ?_⟩
  intro stem hmem hmentions hmax
  have hnextMem : stem ∈ next.stems := by
    rw [hnext.stems]
    exact SortedSet.mem_union.mpr (Or.inl hmem)
  have hrank : next.stems.rank stem = vocab.stems.rank stem := by
    rw [hnext.stems]
    apply SortedSet.rank_union_eq_iff.mpr
    intro added hadded hnew
    apply le_of_lt
    apply hinOrder stem hmem _ added hadded hnew
    rw [hmax]
    decide
  obtain ⟨freq, hfreq, hint⟩ := (hgoal stem hnextMem).1
  rw [Vocabulary.stemCount_eq hnextMem hsize, Option.some.injEq,
    hnext.freqAt_rank stem hnextMem, if_pos hmentions, hrank] at hfreq
  rw [Vocabulary.stemCount_eq hmem h.fits, Option.some.injEq] at hmax
  have hwrap := toInt_add_one_of_max (a := vocab.freqAt (vocab.stems.rank stem)) (by
    rw [hmax]
    decide)
  rw [hfreq, hint] at hwrap
  omega

/-! ## When the attribution is kept -/

/-- An engine started on a dictionary of the two words `aa` and `bb`. -/
def letterVocabulary : Vocabulary where
  stems := SortedSet.empty
  words := UnorderedSet.ofList [[97, 97], [98, 98]]
  stopWords := UnorderedSet.empty
  stemsFreq := fun _ => 0
  freqStemsNo := 0
  stemidTokensMap := fun _ => none

/-- An article that repeats one letter a hundred times. -/
def letterSubmission (letter : Fin 256) : Submission where
  stems := SortedSet.empty.insert [letter, letter]
  article := letterArticle (List.replicate 100 letter)
  uninitialised := fun _ => 0

/-- **When counts and tokens stay with their stems.** Along a completed run from
zero counts, every vocabulary reached attributes correctly exactly if the
starting stems fit the arrays and every submission is in step. -/
theorem attributed_iff_inStep {text : TextOps} {start final : Vocabulary}
    {submissions : List Submission} (hcounts : ∀ slot, start.stemsFreq slot = 0)
    (htokens : ∀ slot, start.stemidTokensMap slot = none)
    (hrun : run (submit text) start submissions = some final) :
    AllStates (submit text) (Attributed text start) start submissions ↔
      start.stemsNo ≤ maxStemsNo ∧ AllSteps (submit text) (InStep text) start submissions := by
  have hguard : start.stemsNo ≤ maxStemsNo →
      (AllStates (submit text) (Attributed text start) start submissions ↔
        AllSteps (submit text) (InStep text) start submissions) := by
    intro hfits
    apply allStates_iff_allSteps (P := Aligned text start)
      (Aligned.initial hfits hcounts htokens) _ _ _ hrun
    · exact fun _ _ h => h.attributed
    · exact fun _ _ _ _ h hstep hnext => h.step hstep (submit_submitted hnext hstep.fits)
    · exact fun _ _ _ _ h hnext hgoal => h.inStep_of_attributed hnext hgoal
  refine ⟨fun hall => ?_, fun hall => (hguard hall.1).mpr hall.2⟩
  have hfits : start.stemsNo ≤ maxStemsNo :=
    (hall [] List.nil_prefix start rfl).fits
  exact ⟨hfits, (hguard hfits).mp hall⟩

/-- The equivalence for the two articles in alphabetical order. -/
theorem attributed_iff_inStep_letters :
    ∃ final, run (submit letterText) letterVocabulary
        [letterSubmission 97, letterSubmission 98] = some final ∧
      (AllStates (submit letterText) (Attributed letterText letterVocabulary) letterVocabulary
          [letterSubmission 97, letterSubmission 98] ↔
        letterVocabulary.stemsNo ≤ maxStemsNo ∧
          AllSteps (submit letterText) (InStep letterText) letterVocabulary
            [letterSubmission 97, letterSubmission 98]) := by
  have hsome : (run (submit letterText) letterVocabulary
      [letterSubmission 97, letterSubmission 98]).isSome := by
    decide +kernel
  obtain ⟨final, hrun⟩ := Option.isSome_iff_exists.mp hsome
  exact ⟨final, hrun, attributed_iff_inStep (fun _ => rfl) (fun _ => rfl) hrun⟩

/-- After an article about `bb`, one about `aa` takes over the count of `bb`. -/
theorem count_moves_to_smaller_stem :
    ¬ ∀ (text : TextOps) (start : Vocabulary) (submissions : List Submission)
      (final : Vocabulary), (∀ slot, start.stemsFreq slot = 0) →
        (∀ slot, start.stemidTokensMap slot = none) →
        (∀ submission ∈ submissions, submission.Accepted text start) →
        run (submit text) start submissions = some final →
        Attributed text start submissions final := by
  intro hall
  have hcount : ((run (submit letterText) letterVocabulary
      [letterSubmission 98, letterSubmission 97]).bind fun final =>
        final.stemCount [98, 98]) = some 0 := by
    decide +kernel
  obtain ⟨final, hrun, hzero⟩ := Option.bind_eq_some_iff.mp hcount
  have hattributed := hall letterText letterVocabulary _ final (fun _ => rfl) (fun _ => rfl)
    (by decide +kernel) hrun
  obtain ⟨id, hid, -⟩ := Option.bind_eq_some_iff.mp hzero
  obtain ⟨freq, hfreq, hint⟩ := (hattributed [98, 98] (Vocabulary.getStemId_eq_some.mp hid).1).1
  have harticles : (ledgerOf letterText letterVocabulary
      [letterSubmission 98, letterSubmission 97]).articles [98, 98] = 1 := by
    decide +kernel
  rw [hzero] at hfreq
  rw [← Option.some.inj hfreq, harticles] at hint
  exact absurd hint (by decide)

end Unbiased
