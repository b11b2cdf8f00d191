/-
# The entries of a term-document matrix

An entry is set if the counter of its row's id is positive in its column's
article. A row therefore has as many entries as there are articles that record
its id, up to the range of the counters.
-/

import Unbiased.Clustering.TermDocMatrix

namespace Unbiased

open Unbiased.Math

/-- The index of the counter of a stem id. -/
def counterIdx (stem : StemId) : ℕ := stem.toInt64.toUInt64.toNat

/-- The id of a position inside the arrays is counted at that position. -/
theorem counterIdx_ofNat {position : ℕ} (h : position < maxStemsNo) :
    counterIdx (Int32.ofNat position) = position :=
  toNat_toUInt64_toInt64_ofNat (h.trans maxStemsNo_lt)

/-- What the counter of an id ends at: the number of times that the article records the
id, narrowed to the counter's type. -/
def ProcessedArticle.termFreq (article : ProcessedArticle) (term : ℕ) : Int32 :=
  Int32.ofNat (article.stemIds.countP fun stem => counterIdx stem = term)

/-- The number of columns in which a row has an entry. -/
def Mat.entriesNo (mat : Mat ℚ) (row : ℕ) : ℕ :=
  (List.range mat.nc).countP fun col => mat.elem row col ≠ 0

@[simp]
theorem Mat.elem_set {R : Type} (mat : Mat R) (row col : ℕ) (value : R) (r c : ℕ) :
    (mat.set row col value).elem r c = if r = row ∧ c = col then value else mat.elem r c := rfl

/-- Counting in a list is counting among its indices. -/
theorem countP_range_getElem? {α : Type} (p : α → Bool) (l : List α) :
    (List.range l.length).countP (fun idx => (l[idx]?).any p) = l.countP p := by
  induction l with
  | nil => rfl
  | cons a l ih =>
      rw [List.length_cons, List.range_succ_eq_map, List.countP_cons, List.countP_cons,
        List.countP_map, ← ih]
      rfl

namespace LSA

variable {R : Type} {vocab : Vocabulary} {tfThreshold : Int32}

/-- Counting a stem id adds one to its counter and to no other. -/
theorem getElem?_of_countTerm {stemsNo : ℕ} {termsFreq next : List Int32} {stem : StemId}
    (h : countTerm stemsNo termsFreq stem = some next) (term : ℕ) :
    next[term]? = (termsFreq[term]?).map fun tf =>
      if counterIdx stem = term then tf + 1 else tf := by
  unfold countTerm at h
  simp only at h
  split at h
  · cases h
    rw [List.getElem?_modify]
    rfl
  · cases h

/-- The counters of an article. -/
theorem getElem?_of_run_countTerm {article : ProcessedArticle} {stemsNo : ℕ}
    {termsFreq : List Int32}
    (h : run (countTerm stemsNo) (List.replicate stemsNo 0) article.stemIds = some termsFreq)
    {term : ℕ} (hterm : term < stemsNo) : termsFreq[term]? = some (article.termFreq term) := by
  apply run_invariant (P := fun hist counters => counters[term]? =
    some (Int32.ofNat (hist.countP fun stem => counterIdx stem = term))) _ _ h
  · rw [List.getElem?_replicate, if_pos hterm]
    rfl
  · intro hist counters stem next hcounters hstep
    rw [getElem?_of_countTerm hstep, hcounters, Option.map_some, List.countP_append,
      List.countP_singleton]
    by_cases hidx : counterIdx stem = term
    · simp [hidx, Int32.ofNat_add]
    · simp [hidx]

/-- Filling a cell sets an entry exactly if its counter is positive. -/
theorem ne_zero_of_fillCell {termsFreq : List Int32} {tokensNo cidx : ℕ} {mat next : Mat ℚ}
    {entry : ℕ × ℕ} (h : fillCell termsFreq tokensNo cidx mat entry = some next) (row col : ℕ) :
    next.elem row col ≠ 0 ↔ mat.elem row col ≠ 0 ∨
      cidx = col ∧ entry.2 = row ∧ ∃ tf, termsFreq[entry.1]? = some tf ∧ 0 < tf := by
  unfold fillCell at h
  split at h
  · cases h
  · rename_i htokens
    obtain ⟨tf, htf, h⟩ := Option.bind_eq_some_iff.mp h
    cases h
    have hcounter : (∃ tf', termsFreq[entry.1]? = some tf' ∧ 0 < tf') ↔ 0 < tf := by
      simp [htf]
    rw [hcounter]
    by_cases hpos : 0 < tf
    · have hvalue : (tf.toInt : ℚ) / tokensNo ≠ 0 := by
        have hint : tf.toInt ≠ 0 := (Int32.lt_iff_toInt_lt.mp hpos).ne'
        exact div_ne_zero (Int.cast_ne_zero.mpr hint) (Nat.cast_ne_zero.mpr htokens)
      rw [if_pos hpos, Mat.elem_set]
      by_cases hcell : row = entry.2 ∧ col = cidx
      · simp [hcell, hvalue, hpos]
      · rw [if_neg hcell, or_iff_left]
        rintro ⟨rfl, rfl, -⟩
        exact hcell ⟨rfl, rfl⟩
    · simp [hpos]

/-- Filling a column sets the entries of the rows whose counters are positive. -/
theorem ne_zero_of_fillColumn {terms : List ℕ} {mat next : Mat ℚ} {entry : ProcessedArticle × ℕ}
    (h : fillColumn vocab terms mat entry = some next) (row col : ℕ) :
    next.elem row col ≠ 0 ↔ mat.elem row col ≠ 0 ∨
      entry.2 = col ∧ ∃ term, terms[row]? = some term ∧ 0 < entry.1.termFreq term := by
  obtain ⟨termsFreq, hcount, hfill⟩ := Option.bind_eq_some_iff.mp h
  have hcells := run_accumulates (P := fun filled : Mat ℚ => filled.elem row col ≠ 0) hfill
    fun before cell after hcell => ne_zero_of_fillCell hcell row col
  rw [hcells]
  refine or_congr_right ⟨?_, ?_⟩
  · rintro ⟨⟨term, ridx⟩, hmem, hcol, hrow, tf, htf, hpos⟩
    obtain rfl : ridx = row := hrow
    have hterm := List.mk_mem_zipIdx_iff_getElem?.mp hmem
    have hbound := lt_stemsNo_of_fillColumn h (List.mem_of_getElem? hterm)
    rw [getElem?_of_run_countTerm hcount hbound] at htf
    cases htf
    exact ⟨hcol, term, hterm, hpos⟩
  · rintro ⟨hcol, term, hterm, hpos⟩
    have hbound := lt_stemsNo_of_fillColumn h (List.mem_of_getElem? hterm)
    exact ⟨(term, row), List.mk_mem_zipIdx_iff_getElem?.mpr hterm, hcol, rfl, _,
      getElem?_of_run_countTerm hcount hbound, hpos⟩

/-! ## The matrix of a build -/

variable [Zero R] {articles : List ProcessedArticle} {lsa : LSA R}

omit [Zero R] in
/-- The matrix has a row for each id of the table and a column for each article. -/
theorem size_of_build {before : LSA R}
    (h : before.buildTermDocMatrix vocab articles tfThreshold = some lsa) :
    lsa.termDocMat.nr = lsa.termsMatToVocab.length ∧ lsa.termDocMat.nc = articles.length := by
  obtain ⟨-, terms, mat, -, hmat, rfl⟩ := buildTermDocMatrix_eq_some h
  apply run_preserves
    (P := fun filled : Mat ℚ => filled.nr = terms.length ∧ filled.nc = articles.length) hmat
    ⟨rfl, rfl⟩
  intro before entry after hbefore hcolumn
  have hsize := size_of_fillColumn hcolumn
  exact ⟨hsize.1.trans hbefore.1, hsize.2.trans hbefore.2⟩

/-- **The entries of a matrix.** There is one where the column's article counts the
row's id. -/
theorem ne_zero_of_build
    (h : (fresh : LSA R).buildTermDocMatrix vocab articles tfThreshold = some lsa)
    (row col : ℕ) :
    lsa.termDocMat.elem row col ≠ 0 ↔ ∃ article, articles[col]? = some article ∧
      ∃ term, lsa.termsMatToVocab[row]? = some term ∧ 0 < article.termFreq term := by
  obtain ⟨-, terms, mat, -, hmat, rfl⟩ := buildTermDocMatrix_eq_some h
  have hcolumns := run_accumulates (P := fun filled : Mat ℚ => filled.elem row col ≠ 0) hmat
    fun before entry after hcolumn => ne_zero_of_fillColumn hcolumn row col
  rw [hcolumns, or_iff_right (not_not_intro rfl)]
  constructor
  · rintro ⟨⟨article, cidx⟩, hmem, hcol, hterm⟩
    obtain rfl : cidx = col := hcol
    exact ⟨article, List.mk_mem_zipIdx_iff_getElem?.mp hmem, hterm⟩
  · rintro ⟨article, harticle, hterm⟩
    exact ⟨(article, col), List.mk_mem_zipIdx_iff_getElem?.mpr harticle, rfl, hterm⟩

/-- The number of entries of a row is the number of articles that count its id. -/
theorem entriesNo_of_build
    (h : (fresh : LSA R).buildTermDocMatrix vocab articles tfThreshold = some lsa) {row term : ℕ}
    (hterm : lsa.termsMatToVocab[row]? = some term) :
    lsa.termDocMat.entriesNo row = articles.countP fun article => 0 < article.termFreq term := by
  have hentry : ∀ col, lsa.termDocMat.elem row col ≠ 0 ↔
      ∃ article, articles[col]? = some article ∧ 0 < article.termFreq term := by
    intro col
    rw [ne_zero_of_build h, hterm]
    simp
  rw [Mat.entriesNo, (size_of_build h).2, ← countP_range_getElem?
    (fun article : ProcessedArticle => decide (0 < article.termFreq term)) articles]
  apply List.countP_congr
  intro col _
  rw [decide_eq_true_iff, hentry, Option.any_eq_true]
  simp

end LSA

end Unbiased
