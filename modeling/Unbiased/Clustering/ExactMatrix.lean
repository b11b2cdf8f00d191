/-
# The matrix of the tests' flow, entry by entry

When all processed articles of a batch are handed to the build, an entry is the
quotient of the occurrences of its row's id and the tokens of its column's
article, and a row has as many entries as its id was counted. The articles are
counted in atomic `int32_t` counters, which wrap around. The occurrences are counted
in plain ones, whose overflow is undefined: what is said here about an article is said
below `2 ^ 31` tokens only.
-/

import Unbiased.Clustering.BatchMatrix
import Unbiased.Clustering.Handover
import Unbiased.Clustering.MatrixAccess

namespace Unbiased

open Unbiased.Math

/-- The number of times that an article records an id. -/
def ProcessedArticle.occurrences (article : ProcessedArticle) (term : ℕ) : ℕ :=
  article.stemIds.countP fun stem => counterIdx stem = term

/-- The entry for a number of occurrences: the quotient by the number of tokens if the
`int32_t` that counts the occurrences is positive, and else zero. From `2 ^ 31` occurrences on
the overflow of the counter is undefined, and this is the entry of a counter that wraps. -/
def termFrequency (occurrences tokensNo : ℕ) : ℚ :=
  if 0 < Int32.ofNat occurrences then (Int32.ofNat occurrences).toInt / tokensNo else 0

/-- Below `2 ^ 31` occurrences the quotient is exact. -/
theorem termFrequency_of_lt {occurrences : ℕ} (h : occurrences < 2 ^ 31) (tokensNo : ℕ) :
    termFrequency occurrences tokensNo = occurrences / tokensNo := by
  have hint : (Int32.ofNat occurrences).toInt = occurrences := Int32.toInt_ofNat_of_lt h
  unfold termFrequency
  split
  · rw [hint, Int.cast_natCast]
  · rename_i hnot
    rw [Int32.lt_iff_toInt_lt, hint, Int32.toInt_zero] at hnot
    obtain rfl : occurrences = 0 := by omega
    simp

/-- The sum of a column. -/
def Mat.columnSum (mat : Mat ℚ) (col : ℕ) : ℚ :=
  ((List.range mat.nr).map fun row => mat.elem row col).sum

/-- Distinct values are taken by at most all elements together. -/
theorem sum_countP_le {α : Type} (f : α → ℕ) {values : List ℕ} (h : values.Nodup) (l : List α) :
    (values.map fun value => l.countP fun a => f a = value).sum ≤ l.length := by
  have hcount : ∀ (x : ℕ) (values : List ℕ),
      (values.map fun value => if x = value then 1 else 0).sum = values.count x := by
    intro x values
    induction values with
    | nil => rfl
    | cons value values ih =>
        rw [List.map_cons, List.sum_cons, ih, List.count_cons, add_comm]
        by_cases heq : x = value
        · simp [heq]
        · simp [heq, Ne.symm heq]
  induction l with
  | nil => simp
  | cons a l ih =>
      have hone := List.nodup_iff_count_le_one.mp h (f a)
      simp only [List.countP_cons, List.sum_map_add, List.length_cons, decide_eq_true_eq, hcount]
      omega

namespace LSA

variable {R : Type} {vocab : Vocabulary} {tfThreshold : Int32}

/-- Every entry is zero or the quotient of its row's id in its column's article. -/
def HoldsQuotients (terms : List ℕ) (articles : List ProcessedArticle) (mat : Mat ℚ) : Prop :=
  ∀ row col, mat.elem row col ≠ 0 → ∃ article, articles[col]? = some article ∧
    ∃ term, terms[row]? = some term ∧
      mat.elem row col = (article.termFreq term).toInt / article.tokensNo

theorem HoldsQuotients.fillColumn {terms : List ℕ} {articles : List ProcessedArticle}
    {mat next : Mat ℚ} {entry : ProcessedArticle × ℕ} (h : HoldsQuotients terms articles mat)
    (hentry : entry ∈ articles.zipIdx) (hfill : fillColumn vocab terms mat entry = some next) :
    HoldsQuotients terms articles next := by
  obtain ⟨termsFreq, hcount, hcells⟩ := Option.bind_eq_some_iff.mp hfill
  apply run_preserves_of_mem (P := HoldsQuotients terms articles) hcells h
  rintro filled ⟨term, ridx⟩ hcell after hfilled hafter row col hne
  have hterm := List.mk_mem_zipIdx_iff_getElem?.mp hcell
  have hbound := lt_stemsNo_of_fillColumn hfill (List.mem_of_getElem? hterm)
  unfold fillCell at hafter
  split at hafter
  · cases hafter
  · rw [getElem?_of_run_countTerm hcount hbound, Option.bind_eq_bind, Option.bind_some] at hafter
    cases hafter
    split at hne
    · rename_i hpos
      rw [if_pos hpos, Mat.elem_set]
      rw [Mat.elem_set] at hne
      by_cases hat : row = ridx ∧ col = entry.2
      · obtain ⟨rfl, rfl⟩ := hat
        rw [if_pos ⟨rfl, rfl⟩]
        exact ⟨entry.1, List.mk_mem_zipIdx_iff_getElem?.mp hentry, term, hterm, rfl⟩
      · rw [if_neg hat] at hne ⊢
        exact hfilled row col hne
    · rename_i hnot
      rw [if_neg hnot]
      exact hfilled row col hne

variable [Zero R] {articles : List ProcessedArticle} {lsa : LSA R}

theorem holdsQuotients_of_build
    (h : (fresh : LSA R).buildTermDocMatrix vocab articles tfThreshold = some lsa) :
    HoldsQuotients lsa.termsMatToVocab articles lsa.termDocMat := by
  obtain ⟨-, terms, mat, -, hmat, rfl⟩ := buildTermDocMatrix_eq_some h
  apply run_preserves_of_mem (P := HoldsQuotients terms articles) hmat
  · exact fun row col hne => absurd rfl hne
  · exact fun filled entry hentry next hfilled hfill => hfilled.fillColumn hentry hfill

/-- **The value of an entry.** -/
theorem elem_of_build
    (h : (fresh : LSA R).buildTermDocMatrix vocab articles tfThreshold = some lsa)
    {row col term : ℕ} {article : ProcessedArticle} (hterm : lsa.termsMatToVocab[row]? = some term)
    (harticle : articles[col]? = some article) :
    lsa.termDocMat.elem row col = termFrequency (article.occurrences term) article.tokensNo := by
  have hset : lsa.termDocMat.elem row col ≠ 0 ↔ 0 < article.termFreq term := by
    rw [ne_zero_of_build h, hterm, harticle]
    simp
  unfold termFrequency
  split
  · rename_i hpos
    obtain ⟨article', harticle', term', hterm', hvalue⟩ :=
      holdsQuotients_of_build h row col (hset.mpr hpos)
    obtain rfl : article = article' := Option.some.inj (harticle.symm.trans harticle')
    obtain rfl : term = term' := Option.some.inj (hterm.symm.trans hterm')
    exact hvalue
  · rename_i hnot
    exact not_not.mp (hset.not.mpr hnot)

/-- The id after the last stem is not among the rows. -/
theorem rows_eq_of_build
    (h : (fresh : LSA R).buildTermDocMatrix vocab articles tfThreshold = some lsa) :
    lsa.termsMatToVocab = (List.range vocab.stemsNo).filter (vocab.isTerm tfThreshold) := by
  obtain ⟨-, hterms, hbelow⟩ := buildTermDocMatrix_spec h
  have hlast : vocab.isTerm tfThreshold vocab.stemsNo = false := by
    by_contra hterm
    have hmem := List.mem_filter.mpr ⟨List.self_mem_range_succ, Bool.eq_true_of_not_eq_false hterm⟩
    rw [← hterms] at hmem
    exact lt_irrefl _ (hbelow _ hmem)
  rw [hterms, List.range_succ, List.filter_append, List.filter_singleton, hlast]
  exact List.append_nil _

/-- The sum of a column is one of quotients over the rows' ids. -/
theorem columnSum_of_build
    (h : (fresh : LSA R).buildTermDocMatrix vocab articles tfThreshold = some lsa) {col : ℕ}
    {article : ProcessedArticle} (harticle : articles[col]? = some article)
    (hfew : ∀ term, article.occurrences term < 2 ^ 31) :
    lsa.termDocMat.columnSum col = (lsa.termsMatToVocab.map fun term =>
      (article.occurrences term : ℚ) / article.tokensNo).sum := by
  rw [Mat.columnSum, (size_of_build h).1]
  congr 1
  apply List.ext_getElem
  · simp
  · intro row hrow hrow'
    rw [List.getElem_map, List.getElem_map, List.getElem_range,
      elem_of_build h (List.getElem?_eq_getElem _) harticle, termFrequency_of_lt (hfew _)]

/-- A column sums to at most one if its article has at most as many ids as tokens. -/
theorem columnSum_le_one
    (h : (fresh : LSA R).buildTermDocMatrix vocab articles tfThreshold = some lsa) {col : ℕ}
    {article : ProcessedArticle} (harticle : articles[col]? = some article)
    (hfew : ∀ term, article.occurrences term < 2 ^ 31)
    (htokens : article.stemIds.length ≤ article.tokensNo) :
    lsa.termDocMat.columnSum col ≤ 1 := by
  have hnodup : lsa.termsMatToVocab.Nodup := by
    rw [(buildTermDocMatrix_spec h).2.1]
    exact List.nodup_range.filter _
  have hoccurrences : (lsa.termsMatToVocab.map article.occurrences).sum ≤ article.tokensNo :=
    (sum_countP_le counterIdx hnodup article.stemIds).trans htokens
  calc lsa.termDocMat.columnSum col
    _ = (lsa.termsMatToVocab.map fun term =>
          (article.occurrences term : ℚ) / article.tokensNo).sum :=
        columnSum_of_build h harticle hfew
    _ = ((lsa.termsMatToVocab.map article.occurrences).sum : ℕ) / article.tokensNo := by
        rw [Nat.cast_list_sum, List.map_map, div_eq_mul_inv, ← List.sum_map_mul_right]
        rfl
    _ ≤ 1 := div_le_one_of_le₀ (by exact_mod_cast hoccurrences) (Nat.cast_nonneg _)

/-- The number of entries of a row is the number of articles that hold its id, as long as
no counter wraps around. -/
theorem entriesNo_eq_countP
    (h : (fresh : LSA R).buildTermDocMatrix vocab articles tfThreshold = some lsa) {row term : ℕ}
    (hterm : lsa.termsMatToVocab[row]? = some term)
    (hfew : ∀ article ∈ articles, article.occurrences term < 2 ^ 31) :
    lsa.termDocMat.entriesNo row =
      articles.countP fun article => ∃ stem ∈ article.stemIds, counterIdx stem = term := by
  rw [entriesNo_of_build h hterm]
  apply List.countP_congr
  intro article harticle
  have hint : (article.termFreq term).toInt = article.occurrences term :=
    Int32.toInt_ofNat_of_lt (hfew article harticle)
  rw [decide_eq_true_iff, decide_eq_true_iff, Int32.lt_iff_toInt_lt, hint, Int32.toInt_zero,
    Nat.cast_pos, ProcessedArticle.occurrences, List.countP_pos_iff]
  simp only [decide_eq_true_eq]

end LSA

/-! ## A batch -/

/-- An article that was accepted by validation, whatever the vocabulary and the limits were
at the time. -/
def AcceptedArticle (text : TextOps) (article : Article) : Prop :=
  ∃ vocab source validStems minTokens threshold,
    (tokenizeValidate text vocab source validStems minTokens threshold).1 = true ∧
      (tokenizeValidate text vocab source validStems minTokens threshold).2.1 = article

/-- An accepted article has tokens: without any, even one unknown token is too many. -/
theorem AcceptedArticle.tokens_ne_nil {text : TextOps} {article : Article}
    (h : AcceptedArticle text article) : article.tokens ≠ [] := by
  obtain ⟨vocab, source, validStems, minTokens, threshold, hvalid, rfl⟩ := h
  rw [tokenizeValidate_tokens]
  intro hnil
  have hlimit := (tokenizeValidate_eq_true_iff.mp hvalid).2
  rw [hnil] at hlimit
  norm_num at hlimit

/-- What a build makes of processed articles that its vocabulary has counted, from zero
counts: the rows, the entries, the number of entries of a row, and the columns. -/
structure LSA.MatrixExact {R : Type} (vocab : Vocabulary) (articles : List ProcessedArticle)
    (tfThreshold : Int32) (lsa : LSA R) : Prop where
  /-- The rows are the stems whose count passes the filter, in the order of their ids. -/
  rows : lsa.termsMatToVocab = (List.range vocab.stemsNo).filter (vocab.isTerm tfThreshold)
  nr : lsa.termDocMat.nr = lsa.termsMatToVocab.length
  nc : lsa.termDocMat.nc = articles.length
  /-- The occurrences are counted in an `int32_t`, which must not overflow. -/
  entry : ∀ row term, lsa.termsMatToVocab[row]? = some term →
    ∀ col article, articles[col]? = some article → article.tokensNo < 2 ^ 31 →
      lsa.termDocMat.elem row col = article.occurrences term / article.tokensNo
  /-- The articles are counted in an atomic `int32_t`, which wraps around. -/
  entriesNo : (∀ article ∈ articles, article.tokensNo < 2 ^ 31) →
    ∀ row term, lsa.termsMatToVocab[row]? = some term → ∃ freq,
      vocab.getStemFreq (Int32.ofNat term) = some freq ∧ tfThreshold < freq ∧ freq < 50 ∧
      freq = Int32.ofNat (lsa.termDocMat.entriesNo row) ∧
      (articles.length < 2 ^ 31 → freq.toInt = lsa.termDocMat.entriesNo row)
  columnSum : ∀ col article, articles[col]? = some article → article.tokensNo < 2 ^ 31 →
    lsa.termDocMat.columnSum col ≤ 1

namespace Collected

variable {text : TextOps} {collect : Bool} {vocab : Vocabulary}
  {entries : List (Article × Signature)} {state : Vocabulary × List ProcessedArticle}
  {tfThreshold : Int32} {R : Type} [Zero R] {lsa : LSA R}

/-- An article of the batch holds an id exactly if it counts it. -/
theorem exists_counterIdx_iff (h : Collected text vocab entries state)
    (hfits : vocab.stemsNo ≤ maxStemsNo) {term : ℕ} (hterm : term < vocab.stemsNo)
    {article : ProcessedArticle} (harticle : article ∈ state.2) :
    (∃ stem ∈ article.stemIds, counterIdx stem = term) ↔
      Int32.ofNat term ∈ article.stemIds := by
  constructor
  · rintro ⟨stem, hstem, rfl⟩
    obtain ⟨position, hposition, rfl⟩ := h.exists_position harticle hstem
    rwa [counterIdx_ofNat (hposition.trans_le hfits)]
  · exact fun hstem => ⟨_, hstem, counterIdx_ofNat (hterm.trans_le hfits)⟩

theorem occurrences_le (h : Collected text vocab entries state) {article : ProcessedArticle}
    (harticle : article ∈ state.2) (term : ℕ) : article.occurrences term ≤ article.tokensNo :=
  List.countP_le_length.trans (h.length_stemIds_le harticle)

/-- If no counter wraps around, a row has an entry for each article that holds its id. -/
theorem entriesNo_eq (h : Collected text vocab entries state)
    (hbuild : (LSA.fresh : LSA R).buildTermDocMatrix state.1 state.2 tfThreshold = some lsa)
    (hfew : ∀ article ∈ state.2, article.tokensNo < 2 ^ 31) {row term : ℕ}
    (hterm : lsa.termsMatToVocab[row]? = some term) :
    lsa.termDocMat.entriesNo row =
      state.2.countP fun article => Int32.ofNat term ∈ article.stemIds := by
  obtain ⟨hroom, -, hbelow⟩ := LSA.buildTermDocMatrix_spec hbuild
  have hstem := hbelow term (List.mem_of_getElem? hterm)
  rw [h.stemsNo_eq] at hroom hstem
  rw [LSA.entriesNo_eq_countP hbuild hterm fun article harticle =>
    (h.occurrences_le harticle term).trans_lt (hfew article harticle)]
  apply List.countP_congr
  intro article harticle
  rw [decide_eq_true_iff, decide_eq_true_iff, h.exists_counterIdx_iff hroom.le hstem harticle]

/-- The matrix of a batch is exact. -/
theorem matrixExact (h : Collected text vocab entries state)
    (hcounts : ∀ slot, vocab.stemsFreq slot = 0)
    (hbuild : (LSA.fresh : LSA R).buildTermDocMatrix state.1 state.2 tfThreshold = some lsa) :
    lsa.MatrixExact state.1 state.2 tfThreshold := by
  obtain ⟨hroom, hterms, hbelow⟩ := LSA.buildTermDocMatrix_spec hbuild
  obtain ⟨hnr, hnc⟩ := LSA.size_of_build hbuild
  constructor
  · exact LSA.rows_eq_of_build hbuild
  · exact hnr
  · exact hnc
  · intro row term hterm col article harticle hfew
    rw [LSA.elem_of_build hbuild hterm harticle, termFrequency_of_lt]
    exact (h.occurrences_le (List.mem_of_getElem? harticle) term).trans_lt hfew
  · intro hfew row term hterm
    have hmem := List.mem_of_getElem? hterm
    have hfreq := h.getStemFreq_eq hcounts ((hbelow term hmem).trans hroom)
    have hentries := h.entriesNo_eq hbuild hfew hterm
    rw [← hentries] at hfreq
    rw [hterms, List.mem_filter, Vocabulary.isTerm, hfreq, Option.any_some,
      decide_eq_true_iff] at hmem
    refine ⟨_, hfreq, hmem.2.1, hmem.2.2, rfl, fun hlength => ?_⟩
    apply Int32.toInt_ofNat_of_lt
    rw [hentries]
    exact List.countP_le_length.trans_lt hlength
  · intro col article harticle hfew
    have hmem := List.mem_of_getElem? harticle
    exact LSA.columnSum_le_one hbuild harticle
      (fun term => (h.occurrences_le hmem term).trans_lt hfew) (h.length_stemIds_le hmem)

/-- A batch of accepted articles is built if there is a count left after the stems and the
threshold is not negative. -/
theorem exists_build (R : Type) [Zero R]
    (hrun : run (collectProcessed text collect) (vocab, []) entries = some state)
    (hroom : vocab.stemsNo < maxStemsNo) (hcounts : ∀ slot, vocab.stemsFreq slot = 0)
    (hnonempty : entries ≠ []) (haccepted : ∀ entry ∈ entries, AcceptedArticle text entry.1)
    (hthreshold : 0 ≤ tfThreshold) :
    ∃ lsa, (LSA.fresh : LSA R).buildTermDocMatrix state.1 state.2 tfThreshold = some lsa := by
  have hcollected := collected_of_run hrun
  have hafterRoom : state.1.stemsNo < maxStemsNo := hcollected.stemsNo_eq ▸ hroom
  have hbelow : CountsBelow state := by
    rw [run_collectProcessed_eq] at hrun
    exact countsBelow_of_run hcounts hrun hafterRoom.le
  have hprocessed : state.2 ≠ [] := by
    intro hnil
    have harticles := hcollected.articles
    rw [hnil] at harticles
    exact hnonempty (List.forall₂_nil_right_iff.mp harticles)
  apply Option.isSome_iff_exists.mp
  refine LSA.isSome_buildTermDocMatrix_iff.mpr ⟨hprocessed, ?_, ?_⟩
  · exact (hbelow.build_in_range_iff hprocessed (fun _ hmem => hmem)
      fun _ hmem => absurd hmem List.not_mem_nil).mpr ⟨hafterRoom, hthreshold⟩
  · intro article harticle _
    obtain ⟨entry, hentry, hfrom⟩ := exists_left_of_forall₂ hcollected.articles harticle
    rw [hfrom.2]
    exact List.length_eq_zero_iff.not.mpr (haccepted entry hentry).tokens_ne_nil

end Collected

/-- **The matrix is exact, up to the range of its counters.** From zero counts, for fewer
stems than the count array has counts and for accepted articles, the batch and the
build complete, and the matrix is that of the batch. -/
theorem matrix_of_batch {R : Type} [Zero R] (text : TextOps) (collect : Bool)
    {vocab : Vocabulary} {entries : List (Article × Signature)} {tfThreshold : Int32}
    (hroom : vocab.stemsNo < maxStemsNo) (hcounts : ∀ slot, vocab.stemsFreq slot = 0)
    (hnonempty : entries ≠ []) (haccepted : ∀ entry ∈ entries, AcceptedArticle text entry.1)
    (hthreshold : 0 ≤ tfThreshold) :
    ∃ after processed, run (collectProcessed text collect) (vocab, []) entries =
        some (after, processed) ∧
      List.Forall₂ (ProcessedFrom text vocab) entries processed ∧
      ∃ lsa, (LSA.fresh : LSA R).buildTermDocMatrix after processed tfThreshold = some lsa ∧
        lsa.MatrixExact after processed tfThreshold := by
  obtain ⟨⟨after, processed⟩, hrun⟩ := exists_run_collectProcessed text collect hroom.le entries
  have hcollected := collected_of_run hrun
  obtain ⟨lsa, hlsa⟩ := Collected.exists_build R hrun hroom hcounts hnonempty haccepted hthreshold
  exact ⟨after, processed, hrun, hcollected.articles, lsa, hlsa,
    hcollected.matrixExact hcounts hlsa⟩

/-! ## Articles that repeat one word -/

/-- The article that says `aa` a hundred times. -/
def repeatedWord : Article := letterArticle (List.replicate 100 97)

theorem repeatedWord_tokens : repeatedWord.tokens = List.replicate 100 [97, 97] := by decide

/-- It is accepted. -/
theorem acceptedArticle_repeatedWord : AcceptedArticle letterText repeatedWord :=
  ⟨oneWord, repeatedWord, .empty, 100, 3 / 10, by decide +kernel, by decide +kernel⟩

/-- It records the id of its word for each of its tokens. -/
theorem recordedIds_repeatedWord :
    oneStem.recordedIds letterText repeatedWord.tokens = List.replicate 100 0 := by
  have hrecorded : oneStem.recordedId? letterText [97, 97] = some 0 := by decide +kernel
  rw [repeatedWord_tokens, Vocabulary.recordedIds, List.filterMap_replicate_of_some hrecorded]

/-- A number of copies of this article. -/
def repeatedBatch (copies : ℕ) : List (Article × Signature) :=
  List.replicate copies (repeatedWord, fun _ => 0)

theorem repeatedBatch_ne_nil {copies : ℕ} (h : 0 < copies) : repeatedBatch copies ≠ [] := by
  rw [repeatedBatch, Ne, List.replicate_eq_nil_iff]
  exact h.ne'

theorem accepted_repeatedBatch (copies : ℕ) :
    ∀ entry ∈ repeatedBatch copies, AcceptedArticle letterText entry.1 := by
  intro entry hentry
  rw [List.eq_of_mem_replicate hentry]
  exact acceptedArticle_repeatedWord

theorem stemsNo_oneStem_lt : oneStem.stemsNo < maxStemsNo := by decide

/-- The result for four copies. -/
theorem matrix_of_batch_repeatedWord :
    ∃ after processed, run (collectProcessed letterText true) (oneStem, []) (repeatedBatch 4) =
        some (after, processed) ∧
      List.Forall₂ (ProcessedFrom letterText oneStem) (repeatedBatch 4) processed ∧
      ∃ lsa : LSA ℚ, LSA.fresh.buildTermDocMatrix after processed 3 = some lsa ∧
        lsa.MatrixExact after processed 3 :=
  matrix_of_batch letterText true stemsNo_oneStem_lt (fun _ => rfl)
    (repeatedBatch_ne_nil (by decide)) (accepted_repeatedBatch 4) (by decide)

/-- Every processed copy holds the id of its word, and has a hundred tokens. -/
theorem processed_repeatedBatch {copies : ℕ} {state : Vocabulary × List ProcessedArticle}
    (h : Collected letterText oneStem (repeatedBatch copies) state) :
    ∀ article ∈ state.2, Int32.ofNat 0 ∈ article.stemIds ∧ article.tokensNo = 100 := by
  intro article harticle
  obtain ⟨entry, hentry, hids, htokens⟩ := exists_left_of_forall₂ h.articles harticle
  rw [List.eq_of_mem_replicate hentry] at hids htokens
  rw [hids, htokens, recordedIds_repeatedWord, repeatedWord_tokens]
  exact ⟨List.mem_replicate.mpr ⟨by decide, rfl⟩, List.length_replicate⟩

/-- Whatever the number of copies is: if its counter passes the filter, the only row is that of
the word, and each copy has an entry in it. -/
theorem exists_matrix_repeatedBatch (copies : ℕ) (hpositive : 0 < copies)
    (hpasses : 3 < Int32.ofNat copies ∧ Int32.ofNat copies < 50) :
    ∃ after processed, ∃ lsa : LSA ℚ,
      run (collectProcessed letterText true) (oneStem, []) (repeatedBatch copies) =
        some (after, processed) ∧
      LSA.fresh.buildTermDocMatrix after processed 3 = some lsa ∧
      lsa.termsMatToVocab[0]? = some 0 ∧
      after.getStemFreq (Int32.ofNat 0) = some (Int32.ofNat copies) ∧
      lsa.termDocMat.entriesNo 0 = copies := by
  obtain ⟨⟨after, processed⟩, hrun⟩ := exists_run_collectProcessed letterText true
    stemsNo_oneStem_lt.le (repeatedBatch copies)
  have hcollected := collected_of_run hrun
  obtain ⟨lsa, hlsa⟩ := Collected.exists_build ℚ hrun stemsNo_oneStem_lt (fun _ => rfl)
    (repeatedBatch_ne_nil hpositive) (accepted_repeatedBatch copies) (show 0 ≤ 3 by decide)
  have hprocessed := processed_repeatedBatch hcollected
  have hcount : (processed.countP fun article => Int32.ofNat 0 ∈ article.stemIds) = copies := by
    rw [List.countP_eq_length.mpr fun article harticle =>
      decide_eq_true (hprocessed article harticle).1, ← hcollected.articles.length_eq]
    exact List.length_replicate
  have hfreq := hcollected.getStemFreq_eq (fun _ => rfl) (show 0 < maxStemsNo by decide)
  simp only [hcount] at hfreq
  have hrow : lsa.termsMatToVocab[0]? = some 0 := by
    have hterm : after.isTerm 3 0 = true := by
      rw [Vocabulary.isTerm, hfreq, Option.any_some]
      exact decide_eq_true hpasses
    have hno : after.stemsNo = 1 := hcollected.stemsNo_eq
    rw [(hcollected.matrixExact (fun _ => rfl) hlsa).rows, hno, List.range_one,
      List.filter_singleton, hterm]
    rfl
  have hfew : ∀ article ∈ processed, article.tokensNo < 2 ^ 31 := by
    intro article harticle
    rw [(hprocessed article harticle).2]
    norm_num
  exact ⟨after, processed, lsa, hrun, hlsa, hrow, hfreq,
    (hcollected.entriesNo_eq hlsa hfew hrow).trans hcount⟩

/-- `2 ^ 32 + 4` copies are counted as four, and have an entry each. -/
theorem counts_wrap :
    ¬ ∀ (text : TextOps) (collect : Bool) (vocab after : Vocabulary)
      (entries : List (Article × Signature)) (processed : List ProcessedArticle)
      (tfThreshold : Int32) (lsa : LSA ℚ), vocab.stemsNo < maxStemsNo →
        (∀ slot, vocab.stemsFreq slot = 0) → entries ≠ [] →
        (∀ entry ∈ entries, AcceptedArticle text entry.1) → 0 ≤ tfThreshold →
        run (collectProcessed text collect) (vocab, []) entries = some (after, processed) →
        LSA.fresh.buildTermDocMatrix after processed tfThreshold = some lsa →
        ∀ row term, lsa.termsMatToVocab[row]? = some term → ∃ freq,
          after.getStemFreq (Int32.ofNat term) = some freq ∧
            freq.toInt = lsa.termDocMat.entriesNo row := by
  intro hall
  obtain ⟨after, processed, lsa, hrun, hlsa, hrow, hfreq, hentries⟩ :=
    exists_matrix_repeatedBatch (2 ^ 32 + 4) (by decide) (by decide)
  obtain ⟨freq, hcounted, hsame⟩ := hall _ _ _ _ _ _ _ _ stemsNo_oneStem_lt (fun _ => rfl)
    (repeatedBatch_ne_nil (by decide)) (accepted_repeatedBatch _) (show 0 ≤ 3 by decide) hrun hlsa
    0 0 hrow
  obtain rfl := Option.some.inj (hfreq.symm.trans hcounted)
  rw [hentries, show (Int32.ofNat (2 ^ 32 + 4)).toInt = 4 by decide] at hsame
  norm_num at hsame

end Unbiased
