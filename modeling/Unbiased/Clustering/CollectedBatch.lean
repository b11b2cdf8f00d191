/-
# A batch and its processed articles

The tests and the Python binding fix the stems first, then process their
articles one after the other, each into a processed article of its own, and hand
the processed articles over in one list. The list holds, article by article, the
ids that the article records, and the vocabulary has counted them.
-/

import Unbiased.Clustering.BatchCounts
import Unbiased.Clustering.MatrixEntries

namespace Unbiased

open Unbiased.Math

/-- Recorded ids are positions of stems, narrowed. -/
theorem Vocabulary.exists_position_of_recorded {text : TextOps} {vocab : Vocabulary}
    {tokens : List Bytes} {id : StemId} (h : id ∈ vocab.recordedIds text tokens) :
    ∃ position < vocab.stemsNo, id = Int32.ofNat position := by
  obtain ⟨token, -, hrecorded⟩ := mem_recordedIds.mp h
  obtain ⟨-, hstemId⟩ := recordedId?_eq_some.mp hrecorded
  obtain ⟨hmem, hrank⟩ := getStemId_eq_some.mp hstemId
  exact ⟨_, SortedSet.rank_lt_size hmem, hrank.symm⟩

/-- Process one article, declared over the given memory, and collect the result. -/
def collectProcessed (text : TextOps) (collect : Bool) (state : Vocabulary × List ProcessedArticle)
    (entry : Article × Signature) : Option (Vocabulary × List ProcessedArticle) := do
  let (vocab, procArticle, _) ← processTokens text collect state.1 entry.1 (.fresh entry.2)
  some (vocab, state.2 ++ [procArticle])

/-- What processing makes of an article: the ids it records and the number of its tokens. -/
def ProcessedFrom (text : TextOps) (vocab : Vocabulary) (entry : Article × Signature)
    (procArticle : ProcessedArticle) : Prop :=
  procArticle.stemIds = vocab.recordedIds text entry.1.tokens ∧
    procArticle.tokensNo = entry.1.tokens.length

/-- The vocabulary has counted a batch, and its articles are collected. -/
structure Collected (text : TextOps) (vocab : Vocabulary) (entries : List (Article × Signature))
    (state : Vocabulary × List ProcessedArticle) : Prop where
  processed : BatchProcessed text vocab (entries.map Prod.fst) state.1
  articles : List.Forall₂ (ProcessedFrom text vocab) entries state.2

variable {text : TextOps} {collect : Bool} {vocab : Vocabulary}
  {entries : List (Article × Signature)} {state : Vocabulary × List ProcessedArticle}

theorem Collected.step {next : Vocabulary × List ProcessedArticle} {entry : Article × Signature}
    (h : Collected text vocab entries state)
    (hstep : collectProcessed text collect state entry = some next) :
    Collected text vocab (entries ++ [entry]) next := by
  obtain ⟨⟨after, procArticle, shingles⟩, hprocess, hnext⟩ := Option.bind_eq_some_iff.mp hstep
  obtain ⟨hspec, idsTokensMap, hproc⟩ := processTokens_spec hprocess
  cases hnext
  constructor
  · rw [List.map_append]
    exact h.processed.concat hspec
  · apply List.rel_append h.articles
    apply List.Forall₂.cons _ List.Forall₂.nil
    rw [hproc]
    constructor
    · rw [← h.processed.recordedIds_eq]
      exact List.nil_append _
    · rfl

theorem Collected.nil (text : TextOps) (vocab : Vocabulary) :
    Collected text vocab [] (vocab, []) where
  processed := BatchProcessed.nil text vocab
  articles := List.Forall₂.nil

theorem collected_of_run
    (h : run (collectProcessed text collect) (vocab, []) entries = some state) :
    Collected text vocab entries state :=
  run_invariant (P := Collected text vocab) (Collected.nil text vocab)
    (fun _ _ _ _ hmid hstep => hmid.step hstep) h

/-- A batch completes if the vocabulary fits the arrays. -/
theorem exists_run_collectProcessed (text : TextOps) (collect : Bool)
    (hfits : vocab.stemsNo ≤ maxStemsNo) (entries : List (Article × Signature)) :
    ∃ state, run (collectProcessed text collect) (vocab, []) entries = some state := by
  have hloop : ∃ state, run (collectProcessed text collect) (vocab, []) entries = some state ∧
      state.1.stems = vocab.stems := by
    apply exists_run_preserves (P := fun mid : Vocabulary × List ProcessedArticle =>
      mid.1.stems = vocab.stems) rfl
    intro mid entry _ hstems
    have hmid : mid.1.stemsNo ≤ maxStemsNo := by
      rwa [Vocabulary.stemsNo, hstems]
    obtain ⟨after, procArticle, shingles, hprocess⟩ :=
      exists_processTokens_of_fits text collect hmid entry.1 (.fresh entry.2)
    refine ⟨(after, mid.2 ++ [procArticle]), ?_, ?_⟩
    · rw [collectProcessed, hprocess]
      rfl
    · exact (processTokens_spec hprocess).1.stems.trans hstems
  obtain ⟨state, hrun, -⟩ := hloop
  exact ⟨state, hrun⟩

namespace Collected

theorem stemsNo_eq (h : Collected text vocab entries state) : state.1.stemsNo = vocab.stemsNo :=
  congrArg SortedSet.size h.processed.stems

/-- A count over the processed articles that reads their ids is one over the batch. -/
theorem countP_stemIds (h : Collected text vocab entries state) (p : List StemId → Bool) :
    state.2.countP (fun procArticle => p procArticle.stemIds) =
      entries.countP fun entry => p (vocab.recordedIds text entry.1.tokens) :=
  countP_eq_of_forall₂ (h.articles.imp fun _ _ hfrom => congrArg p hfrom.1)

/-- From zero counts, the count of an id is the number of processed articles that hold it. -/
theorem getStemFreq_eq (h : Collected text vocab entries state)
    (hcounts : ∀ slot, vocab.stemsFreq slot = 0) {position : ℕ}
    (hposition : position < maxStemsNo) :
    state.1.getStemFreq (Int32.ofNat position) = some (Int32.ofNat
      (state.2.countP fun procArticle => Int32.ofNat position ∈ procArticle.stemIds)) := by
  rw [h.countP_stemIds fun ids => Int32.ofNat position ∈ ids, Vocabulary.getStemFreq,
    slot?_ofNat hposition, Option.bind_eq_bind, Option.bind_some, h.processed.stemsFreq, hcounts,
    Int32.zero_add, List.countP_map]
  rfl

/-- The ids of a processed article are positions of stems. -/
theorem exists_position (h : Collected text vocab entries state) {procArticle : ProcessedArticle}
    (hmem : procArticle ∈ state.2) {stem : StemId} (hstem : stem ∈ procArticle.stemIds) :
    ∃ position < vocab.stemsNo, stem = Int32.ofNat position := by
  obtain ⟨entry, -, hfrom⟩ := exists_left_of_forall₂ h.articles hmem
  rw [hfrom.1] at hstem
  exact Vocabulary.exists_position_of_recorded hstem

/-- A processed article has at most as many ids as tokens. -/
theorem length_stemIds_le (h : Collected text vocab entries state)
    {procArticle : ProcessedArticle} (hmem : procArticle ∈ state.2) :
    procArticle.stemIds.length ≤ procArticle.tokensNo := by
  obtain ⟨entry, -, hfrom⟩ := exists_left_of_forall₂ h.articles hmem
  rw [hfrom.1, hfrom.2]
  exact List.length_filterMap_le _ _

end Collected

end Unbiased
