/-
# Latent semantic analysis and its keywords

The rows of the term-document matrix are the stems that pass a frequency
filter, in the order of their ids. The table of the rows' ids is kept, but the
keyword of a row is looked up with the row's number as if it were an id. The
two agree exactly on the rows below which no stem was filtered out.

The decomposition is a library's, and its results are arbitrary matrices over
any type with a decidable order. Entries of the term-document matrix are exact
quotients.
-/

import Mathlib.Data.Rat.Defs
import Unbiased.Common.Article
import Unbiased.Common.Vocabulary
import Unbiased.Math.Execution

namespace Unbiased

open Unbiased.Math

/-- A `dlib::matrix`. -/
structure Mat (R : Type) where
  nr : ℕ
  nc : ℕ
  elem : ℕ → ℕ → R

namespace Mat

variable {R : Type}

/-- Checked access: nothing outside the matrix. -/
def at? (mat : Mat R) (row col : ℕ) : Option R :=
  if row < mat.nr ∧ col < mat.nc then some (mat.elem row col) else none

/-- Overwrite one element. -/
def set (mat : Mat R) (row col : ℕ) (value : R) : Mat R :=
  { mat with
    elem := fun r c => if r = row ∧ c = col then value else mat.elem r c }

theorem at?_eq_some {mat : Mat R} {row col : ℕ} {value : R} :
    mat.at? row col = some value ↔
      (row < mat.nr ∧ col < mat.nc) ∧ mat.elem row col = value := by
  unfold at?
  split
  · rename_i hin
    simp [hin]
  · rename_i hout
    simp [hout]

end Mat

/-- The state of an `LSA` object. -/
structure LSA (R : Type) where
  /-- For each row of the matrix, the id of its stem. -/
  termsMatToVocab : List ℕ
  termDocMat : Mat ℚ
  u : Mat R
  sigma : Mat R
  v : Mat R

namespace LSA

variable {R : Type}

/-- A constructed object: an empty table and empty matrices. -/
def fresh [Zero R] : LSA R where
  termsMatToVocab := []
  termDocMat := ⟨0, 0, fun _ _ => 0⟩
  u := ⟨0, 0, fun _ _ => 0⟩
  sigma := ⟨0, 0, fun _ _ => 0⟩
  v := ⟨0, 0, fun _ _ => 0⟩

/-! ## The term-document matrix -/

/-- One iteration of the filter loop: keep an id whose count is in range. -/
def collectTerm (vocab : Vocabulary) (tfThreshold : Int32) (terms : List ℕ) (stemId : ℕ) :
    Option (List ℕ) := do
  let stemFreq ← vocab.getStemFreq (Int32.ofNat stemId)
  some (if tfThreshold < stemFreq ∧ stemFreq < 50 then terms ++ [stemId] else terms)

/-- Count one stem id of an article. The id is compared as a `size_t`. The counter is a plain
`int32_t`, whose overflow is undefined; it wraps around here, so that what follows
describes the code for fewer than `2 ^ 31` occurrences of an id in an article. -/
def countTerm (stemsNo : ℕ) (termsFreq : List Int32) (stem : StemId) : Option (List Int32) :=
  let idx := stem.toInt64.toUInt64.toNat
  if idx ≤ stemsNo ∧ idx < termsFreq.length then some (termsFreq.modify idx (· + 1)) else none

/-- Fill one cell of an article's column. -/
def fillCell (termsFreq : List Int32) (tokensNo cidx : ℕ) (mat : Mat ℚ) (entry : ℕ × ℕ) :
    Option (Mat ℚ) :=
  if tokensNo = 0 then none
  else do
    let tf ← termsFreq[entry.1]?
    some (if 0 < tf then mat.set entry.2 cidx (tf.toInt / tokensNo) else mat)

/-- Fill the column of one article. -/
def fillColumn (vocab : Vocabulary) (terms : List ℕ) (mat : Mat ℚ)
    (entry : ProcessedArticle × ℕ) : Option (Mat ℚ) := do
  let termsFreq ← run (countTerm vocab.stemsNo) (List.replicate vocab.stemsNo 0) entry.1.stemIds
  run (fillCell termsFreq entry.1.tokensNo entry.2) mat terms.zipIdx

/-- Build the matrix. The filter loop runs up to and including the number of
stems. -/
def buildTermDocMatrix (vocab : Vocabulary) (lsa : LSA R) (articles : List ProcessedArticle)
    (tfThreshold : Int32) : Option (LSA R) :=
  if articles = [] then none
  else do
    let terms ← run (collectTerm vocab tfThreshold) lsa.termsMatToVocab
      (List.range (vocab.stemsNo + 1))
    let mat ← run (fillColumn vocab terms) ⟨terms.length, articles.length, fun _ _ => 0⟩
      articles.zipIdx
    some { lsa with
      termsMatToVocab := terms
      termDocMat := mat }

/-- Build the matrix and decompose it. -/
def runSvd (svd : Mat ℚ → Mat R × Mat R × Mat R) (vocab : Vocabulary) (lsa : LSA R)
    (articles : List ProcessedArticle) : Option (LSA R) := do
  let lsa ← lsa.buildTermDocMatrix vocab articles 3
  let (u, sigma, v) := svd lsa.termDocMat
  some { lsa with
    u := u
    sigma := sigma
    v := v }

/-! ## Keywords -/

section Keywords

variable [LT R] [DecidableLT R]

/-- Keep a row that weighs enough in a concept. -/
def collectKeyword (lsa : LSA R) (termThreshold : R) (conceptIdx : ℕ) (keywords : SortedSet ℕ)
    (termIdx : ℕ) : Option (SortedSet ℕ) := do
  let weight ← lsa.u.at? termIdx conceptIdx
  some (if termThreshold < weight then keywords.insert termIdx else keywords)

/-- Collect the rows of a concept if the document weighs enough in it. -/
def collectConcept (lsa : LSA R) (docThreshold termThreshold : R) (docIdx : ℕ)
    (keywords : SortedSet ℕ) (conceptIdx : ℕ) : Option (SortedSet ℕ) := do
  let weight ← lsa.v.at? docIdx conceptIdx
  if docThreshold < weight then
    run (lsa.collectKeyword termThreshold conceptIdx) keywords (List.range lsa.u.nr)
  else some keywords

/-- The keywords of one document, as row numbers. -/
def docKeywords (lsa : LSA R) (docThreshold termThreshold : R) (conceptsNo docIdx : ℕ) :
    Option (SortedSet ℕ) :=
  run (lsa.collectConcept docThreshold termThreshold docIdx) SortedSet.empty
    (List.range conceptsNo)

/-- The keywords of all documents. -/
def getDocsKeywords (lsa : LSA R) (docThreshold termThreshold : R) (conceptsNo : ℕ) :
    Option (List (SortedSet ℕ)) :=
  (List.range lsa.v.nr).mapM (lsa.docKeywords docThreshold termThreshold conceptsNo)

end Keywords

/-- The stem with an id, after the assertion that there is one. -/
def getWord (vocab : Vocabulary) (wordId : ℕ) : Option Bytes :=
  vocab.getStem (Int32.ofNat wordId)

end LSA

/-! ## Printing the clusters -/

/-- What is printed about one article of a topic. -/
structure PrintedArticle where
  artIdx : ℕ
  title : Bytes
  keys : List Bytes

namespace BUClustering

/-- Print one article: its title, and the word of each of its keywords. -/
def printArticle (vocab : Vocabulary) (articles : List ProcessedArticle)
    (docsKeywords : List (SortedSet ℕ)) (artIdx : ℕ) : Option PrintedArticle := do
  let article ← articles[artIdx]?
  let keywords ← docsKeywords[artIdx]?
  let keys ← keywords.elems.mapM (LSA.getWord vocab)
  some ⟨artIdx, article.metaData.title, keys⟩

end BUClustering

/-! ## What the loops compute -/

/-- A stem id whose count passes the filter. -/
def Vocabulary.isTerm (vocab : Vocabulary) (tfThreshold : Int32) (stemId : ℕ) : Bool :=
  (vocab.getStemFreq (Int32.ofNat stemId)).any fun stemFreq =>
    decide (tfThreshold < stemFreq ∧ stemFreq < 50)

namespace LSA

variable {R : Type} {vocab : Vocabulary} {tfThreshold : Int32}

/-- An iteration of the filter loop reads a count inside the array and keeps the
id if it is a term. -/
theorem collectTerm_eq_some {terms next : List ℕ} {stemId : ℕ}
    (h : collectTerm vocab tfThreshold terms stemId = some next) :
    (vocab.getStemFreq (Int32.ofNat stemId)).isSome ∧
      next = terms ++ [stemId].filter (vocab.isTerm tfThreshold) := by
  unfold collectTerm at h
  cases hfreq : vocab.getStemFreq (Int32.ofNat stemId) with
  | none =>
      rw [hfreq] at h
      cases h
  | some stemFreq =>
      rw [hfreq] at h
      have hterm : vocab.isTerm tfThreshold stemId =
          decide (tfThreshold < stemFreq ∧ stemFreq < 50) := by
        rw [Vocabulary.isTerm, hfreq]
        rfl
      refine ⟨rfl, ?_⟩
      rw [← Option.some.inj h, List.filter_singleton, hterm]
      by_cases hrange : tfThreshold < stemFreq ∧ stemFreq < 50
      · rw [if_pos hrange, decide_eq_true hrange]
        rfl
      · rw [if_neg hrange, decide_eq_false hrange]
        exact (List.append_nil terms).symm

/-- The filter loop keeps exactly the terms, in order. -/
theorem run_collectTerm {start terms ids : List ℕ}
    (h : run (collectTerm vocab tfThreshold) start ids = some terms) :
    terms = start ++ ids.filter (vocab.isTerm tfThreshold) := by
  apply run_invariant (P := fun hist terms =>
    terms = start ++ hist.filter (vocab.isTerm tfThreshold)) _ _ h
  · rw [List.filter_nil, List.append_nil]
  · intro hist terms stemId next hterms hstep
    rw [(collectTerm_eq_some hstep).2, hterms, List.filter_append, List.append_assoc]

/-- The counters of an article keep their number. -/
theorem length_of_countTerm {stemsNo : ℕ} {termsFreq next : List Int32} {stem : StemId}
    (h : countTerm stemsNo termsFreq stem = some next) : next.length = termsFreq.length := by
  unfold countTerm at h
  simp only at h
  split at h
  · cases h
    exact List.length_modify _ _ _
  · cases h

/-- A column can only be filled if every row's id is below the number of stems. -/
theorem lt_stemsNo_of_fillColumn {terms : List ℕ} {mat next : Mat ℚ}
    {entry : ProcessedArticle × ℕ} (h : fillColumn vocab terms mat entry = some next) {term : ℕ}
    (hterm : term ∈ terms) : term < vocab.stemsNo := by
  obtain ⟨termsFreq, hcount, hfill⟩ := Option.bind_eq_some_iff.mp h
  have hlength : termsFreq.length = vocab.stemsNo := by
    apply run_preserves (P := fun counters => counters.length = vocab.stemsNo) hcount
    · exact List.length_replicate
    · exact fun _ _ _ hlength hstep => (length_of_countTerm hstep).trans hlength
  obtain ⟨ridx, hridx⟩ := List.getElem?_of_mem hterm
  have hentry : (term, ridx) ∈ terms.zipIdx := List.mk_mem_zipIdx_iff_getElem?.mpr hridx
  obtain ⟨before, after, hcell⟩ := exists_step_of_mem hfill hentry
  unfold fillCell at hcell
  split at hcell
  · cases hcell
  · cases htf : termsFreq[term]? with
    | none =>
        simp only [htf] at hcell
        cases hcell
    | some tf =>
        rw [← hlength]
        exact (List.getElem?_eq_some_iff.mp htf).1

/-- What the two loops of a build have done. -/
theorem buildTermDocMatrix_eq_some {before after : LSA R}
    {articles : List ProcessedArticle}
    (h : before.buildTermDocMatrix vocab articles tfThreshold = some after) :
    articles ≠ [] ∧ ∃ terms mat,
      run (collectTerm vocab tfThreshold) before.termsMatToVocab
        (List.range (vocab.stemsNo + 1)) = some terms ∧
      run (fillColumn vocab terms) ⟨terms.length, articles.length, fun _ _ => 0⟩
        articles.zipIdx = some mat ∧
      after = { before with
        termsMatToVocab := terms
        termDocMat := mat } := by
  unfold buildTermDocMatrix at h
  split at h
  · cases h
  · rename_i hnonempty
    obtain ⟨terms, hterms, h⟩ := Option.bind_eq_some_iff.mp h
    obtain ⟨mat, hmat, h⟩ := Option.bind_eq_some_iff.mp h
    exact ⟨hnonempty, terms, mat, hterms, hmat, (Option.some.inj h).symm⟩

/-- **The rows of a matrix that was built.** The vocabulary fits its arrays, the
rows are its terms in the order of their ids, and each of them is a stem. -/
theorem buildTermDocMatrix_spec [Zero R] {articles : List ProcessedArticle} {lsa : LSA R}
    (h : (fresh : LSA R).buildTermDocMatrix vocab articles tfThreshold = some lsa) :
    vocab.stemsNo < maxStemsNo ∧
      lsa.termsMatToVocab =
        (List.range (vocab.stemsNo + 1)).filter (vocab.isTerm tfThreshold) ∧
      ∀ term ∈ lsa.termsMatToVocab, term < vocab.stemsNo := by
  obtain ⟨hnonempty, terms, mat, hterms, hmat, rfl⟩ := buildTermDocMatrix_eq_some h
  refine ⟨?_, run_collectTerm hterms, ?_⟩
  · -- The loop would have read the count at the end of the array.
    by_contra hlarge
    have hmem : maxStemsNo ∈ List.range (vocab.stemsNo + 1) := by
      rw [List.mem_range]
      omega
    obtain ⟨before, after, hstep⟩ := exists_step_of_mem hterms hmem
    have hsome := (collectTerm_eq_some hstep).1
    rw [Vocabulary.getStemFreq, slot?_ofNat_maxStemsNo] at hsome
    cases hsome
  · intro term hterm
    cases articles with
    | nil => exact absurd rfl hnonempty
    | cons article rest =>
        obtain ⟨before, after, hstep⟩ := exists_step_of_mem hmat
          (List.mem_cons_self : (article, 0) ∈ (article, 0) :: rest.zipIdx 1)
        exact lt_stemsNo_of_fillColumn hstep hterm

section Keywords

variable [LT R] [DecidableLT R]

theorem run_collectKeyword {lsa : LSA R} {termThreshold : R} {conceptIdx : ℕ}
    {keywords final : SortedSet ℕ} {rows : List ℕ}
    (h : run (lsa.collectKeyword termThreshold conceptIdx) keywords rows = some final)
    (row : ℕ) :
    row ∈ final ↔ row ∈ keywords ∨ row ∈ rows ∧ termThreshold < lsa.u.elem row conceptIdx := by
  apply run_invariant (P := fun hist final => row ∈ final ↔ row ∈ keywords ∨
    row ∈ hist ∧ termThreshold < lsa.u.elem row conceptIdx) _ _ h
  · simp
  · intro hist current termIdx next hcurrent hstep
    obtain ⟨weight, hweight, hnext⟩ := Option.bind_eq_some_iff.mp hstep
    obtain ⟨-, rfl⟩ := Mat.at?_eq_some.mp hweight
    rw [← Option.some.inj hnext, List.mem_append, List.mem_singleton, or_and_right, ← or_assoc,
      ← hcurrent]
    by_cases hheavy : termThreshold < lsa.u.elem termIdx conceptIdx
    · rw [if_pos hheavy, SortedSet.mem_insert, or_comm]
      apply or_congr_right
      refine ⟨fun heq => ⟨heq, heq ▸ hheavy⟩, And.left⟩
    · rw [if_neg hheavy]
      refine ⟨Or.inl, fun hmem => hmem.elim id ?_⟩
      rintro ⟨rfl, hrow⟩
      exact absurd hrow hheavy

/-- A document's keywords are the rows that weigh enough in one of its concepts. -/
theorem mem_docKeywords {lsa : LSA R} {docThreshold termThreshold : R} {conceptsNo docIdx : ℕ}
    {keywords : SortedSet ℕ}
    (h : lsa.docKeywords docThreshold termThreshold conceptsNo docIdx = some keywords)
    (row : ℕ) :
    row ∈ keywords ↔ ∃ conceptIdx < conceptsNo, docThreshold < lsa.v.elem docIdx conceptIdx ∧
      row < lsa.u.nr ∧ termThreshold < lsa.u.elem row conceptIdx := by
  have hrun : row ∈ keywords ↔ ∃ conceptIdx ∈ List.range conceptsNo,
      docThreshold < lsa.v.elem docIdx conceptIdx ∧
        row < lsa.u.nr ∧ termThreshold < lsa.u.elem row conceptIdx := by
    apply run_invariant (P := fun hist keywords => row ∈ keywords ↔ ∃ conceptIdx ∈ hist,
      docThreshold < lsa.v.elem docIdx conceptIdx ∧
        row < lsa.u.nr ∧ termThreshold < lsa.u.elem row conceptIdx) _ _ h
    · simp
    · intro hist current conceptIdx next hcurrent hstep
      obtain ⟨weight, hweight, hnext⟩ := Option.bind_eq_some_iff.mp hstep
      obtain ⟨-, rfl⟩ := Mat.at?_eq_some.mp hweight
      simp only [List.mem_append, List.mem_singleton, or_and_right, exists_or, exists_eq_left]
      rw [← hcurrent]
      by_cases hheavy : docThreshold < lsa.v.elem docIdx conceptIdx
      · rw [if_pos hheavy] at hnext
        rw [run_collectKeyword hnext, List.mem_range]
        exact or_congr_right (and_iff_right hheavy).symm
      · rw [if_neg hheavy] at hnext
        cases hnext
        refine ⟨Or.inl, fun hmem => hmem.elim id fun hrow => absurd hrow.1 hheavy⟩
  simpa only [List.mem_range] using hrun

/-- The keywords listed for a document. -/
theorem getElem?_getDocsKeywords {lsa : LSA R} {docThreshold termThreshold : R}
    {conceptsNo docIdx : ℕ} {docsKeywords : List (SortedSet ℕ)} {keywords : SortedSet ℕ}
    (h : lsa.getDocsKeywords docThreshold termThreshold conceptsNo = some docsKeywords) :
    docsKeywords[docIdx]? = some keywords ↔
      docIdx < lsa.v.nr ∧
        lsa.docKeywords docThreshold termThreshold conceptsNo docIdx = some keywords := by
  rw [getElem?_of_mapM h]
  by_cases hdoc : docIdx < lsa.v.nr
  · rw [List.getElem?_range hdoc, Option.bind_some]
    exact (and_iff_right hdoc).symm
  · rw [List.getElem?_eq_none (by rw [List.length_range]; exact not_lt.mp hdoc), Option.bind_none]
    exact iff_of_false (fun hnone => by cases hnone) fun hboth => hdoc hboth.1

omit [LT R] [DecidableLT R] in
/-- What the decomposition leaves as it was. -/
theorem runSvd_eq_some {svd : Mat ℚ → Mat R × Mat R × Mat R} {before after : LSA R}
    {articles : List ProcessedArticle} (h : before.runSvd svd vocab articles = some after) :
    ∃ built, before.buildTermDocMatrix vocab articles 3 = some built ∧
      after = { built with
        u := (svd built.termDocMat).1
        sigma := (svd built.termDocMat).2.1
        v := (svd built.termDocMat).2.2 } := by
  obtain ⟨built, hbuilt, hafter⟩ := Option.bind_eq_some_iff.mp h
  exact ⟨built, hbuilt, (Option.some.inj hafter).symm⟩

end Keywords

end LSA

/-! ## Fifty articles about two stems -/

/-- The stems `aa` and `bb`, found in one and in four articles. -/
def twoStems : Vocabulary where
  stems := (SortedSet.empty.insert [97, 97]).insert [98, 98]
  words := UnorderedSet.empty
  stopWords := UnorderedSet.empty
  stemsFreq := fun slot => if slot.val = 0 then 1 else if slot.val = 1 then 4 else 0
  freqStemsNo := 1
  stemidTokensMap := fun _ => none

/-- An article of a hundred tokens that mentions the given stems. -/
def articleWithStems (stemIds : List StemId) : ProcessedArticle :=
  { ProcessedArticle.fresh fun _ => 0 with
    stemIds := stemIds
    tokensNo := 100 }

/-- Four articles mention `bb`, one mentions `aa`, the others neither. -/
def fiftyArticles : List ProcessedArticle :=
  List.replicate 4 (articleWithStems [1]) ++ articleWithStems [0] ::
    List.replicate 45 (articleWithStems [])

/-- The singular value decomposition of the one-row matrix of these articles: a
single concept, in which the first four documents weigh one half each. -/
def oneConcept (mat : Mat ℚ) : Mat ℚ × Mat ℚ × Mat ℚ :=
  (⟨mat.nr, 50, fun row col => if row = col then 1 else 0⟩,
    ⟨50, 50, fun row col => if row = 0 ∧ col = 0 then 1 / 50 else 0⟩,
    ⟨50, 50, fun row col =>
      if row < 4 ∧ col < 4 then (if (row &&& col) = 1 ∨ (row &&& col) = 2 then -1 / 2 else 1 / 2)
      else if row = col then 1 else 0⟩)

end Unbiased
