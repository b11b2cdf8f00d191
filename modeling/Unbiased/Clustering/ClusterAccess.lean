/-
# The accesses of a clustering

Clustering reads fifty concepts of every document and of every term, whatever
the number of articles is. The threshold behind the keywords is a statistic of a
block of the term matrix whose arguments stand in the order of another function:
it selects no row, and starts behind as many columns as there are rows. The
threshold is then handed over where a threshold for the documents is expected,
which none of them exceeds.
-/

import Unbiased.Clustering.DistanceMatrix
import Unbiased.Clustering.MatrixEntries
import Unbiased.Math.WithNan

namespace Unbiased

open Unbiased.Math

namespace LSA

variable {R : Type}

/-! ## The threshold of the terms -/

/-- The block that `get_terms_threshold` passes to its statistics. -/
def thresholdBlock (u : Mat R) (conceptsNo : ℕ) : Option (Mat R) :=
  if conceptsNo ≤ u.nc then u.subm 0 u.nr 0 conceptsNo else none

/-- The threshold: a statistic of that block, the mean plus twice the standard deviation. -/
def getTermsThreshold (stat : Mat R → R) (lsa : LSA R) (conceptsNo : ℕ) : Option R :=
  (thresholdBlock lsa.u conceptsNo).map stat

/-- The block is empty where it lies inside. -/
theorem thresholdBlock_eq (u : Mat R) (conceptsNo : ℕ) :
    thresholdBlock u conceptsNo =
      if u.nr + conceptsNo ≤ u.nc then some ⟨0, conceptsNo, fun r c => u.elem r (u.nr + c)⟩
      else none := by
  unfold thresholdBlock Mat.subm
  by_cases hin : u.nr + conceptsNo ≤ u.nc
  · rw [if_pos ((Nat.le_add_left _ _).trans hin), if_pos ⟨Nat.zero_le _, hin⟩, if_pos hin]
    simp only [Nat.zero_add]
  · rw [if_neg hin]
    split
    · exact if_neg fun hboth => hin hboth.2
    · rfl

/-- **When the threshold is taken over the first concepts.** Only if there are no rows. -/
theorem thresholdBlock_iff {u : Mat R} {conceptsNo : ℕ} (hle : conceptsNo ≤ u.nc) :
    thresholdBlock u conceptsNo = u.subm 0 0 u.nr conceptsNo ↔ u.nr = 0 := by
  have hfirst : u.subm 0 0 u.nr conceptsNo =
      some ⟨u.nr, conceptsNo, fun r c => u.elem (0 + r) (0 + c)⟩ :=
    if_pos ⟨(Nat.zero_add _).le, (Nat.zero_add _).trans_le hle⟩
  constructor
  · intro hsame
    rw [hfirst, thresholdBlock_eq] at hsame
    split at hsame
    · exact (congrArg Mat.nr (Option.some.inj hsame)).symm
    · cases hsame
  · intro hempty
    rw [thresholdBlock, if_pos hle, hempty]

/-- A matrix of two terms and fifty concepts. -/
def twoTerms : Mat ℚ := ⟨2, 50, fun row col => if row = col then 1 else 0⟩

/-- The equivalence for these terms. -/
theorem thresholdBlock_iff_twoTerms :
    thresholdBlock twoTerms 50 = twoTerms.subm 0 0 twoTerms.nr 50 ↔ twoTerms.nr = 0 :=
  thresholdBlock_iff le_rfl

/-- For one of these concepts, the block has no row. -/
theorem threshold_over_no_row :
    ¬ ∀ (u : Mat ℚ) (conceptsNo : ℕ), 0 < conceptsNo → conceptsNo ≤ u.nc →
      thresholdBlock u conceptsNo = u.subm 0 0 u.nr conceptsNo := by
  intro hall
  have hsame := hall twoTerms 1 Nat.one_pos (by decide)
  rw [thresholdBlock_eq] at hsame
  exact absurd (congrArg (Option.map Mat.nr) hsame) (by decide)

/-! ## The keywords -/

section Keywords

variable [LT R] [DecidableLT R]

/-- The keywords that a clustering uses. The threshold of the terms is passed as the
threshold of the documents, both as a `float`, and a literal as that of the terms. -/
def clusterKeywords (toFloat : R → R) (literal : R) (lsa : LSA R) (termsTh : R) :
    Option (List (SortedSet ℕ)) :=
  lsa.getDocsKeywords (toFloat termsTh) (toFloat literal) 50

/-- A concept inside both matrices can be collected. -/
theorem isSome_collectConcept {lsa : LSA R} {docThreshold termThreshold : R}
    {docIdx conceptIdx : ℕ} (hdoc : docIdx < lsa.v.nr) (hdocs : conceptIdx < lsa.v.nc)
    (hterms : conceptIdx < lsa.u.nc) (keywords : SortedSet ℕ) :
    (lsa.collectConcept docThreshold termThreshold docIdx keywords conceptIdx).isSome := by
  have hweight : lsa.v.at? docIdx conceptIdx = some (lsa.v.elem docIdx conceptIdx) :=
    if_pos ⟨hdoc, hdocs⟩
  rw [collectConcept, hweight, Option.bind_eq_bind, Option.bind_some]
  split
  · have hrow : ∀ (collected : SortedSet ℕ) (termIdx : ℕ),
        (lsa.collectKeyword termThreshold conceptIdx collected termIdx).isSome ↔
          termIdx < lsa.u.nr := by
      intro collected termIdx
      by_cases hterm : termIdx < lsa.u.nr
      · simp [collectKeyword, Mat.at?, hterms, hterm]
      · simp [collectKeyword, Mat.at?, hterm]
    exact (isSome_run_iff_of_forall hrow).mpr fun termIdx => List.mem_range.mp
  · rfl

/-- The keywords can be collected where all their concepts exist. -/
theorem isSome_getDocsKeywords {lsa : LSA R} {docThreshold termThreshold : R} {conceptsNo : ℕ}
    (hdocs : conceptsNo ≤ lsa.v.nc) (hterms : conceptsNo ≤ lsa.u.nc) :
    (lsa.getDocsKeywords docThreshold termThreshold conceptsNo).isSome := by
  rw [getDocsKeywords, isSome_mapM_iff]
  intro docIdx hdoc
  apply isSome_run_of_forall_mem
  intro conceptIdx hconcept keywords
  have hlt : conceptIdx < conceptsNo := List.mem_range.mp hconcept
  exact isSome_collectConcept (List.mem_range.mp hdoc) (hlt.trans_le hdocs)
    (hlt.trans_le hterms) keywords

end Keywords

/-- Every keyword of a document weighs more than the threshold of the terms in one of the
first fifty concepts. -/
def KeywordsPass [LT R] (lsa : LSA R) (termsTh : R) (docsKeywords : List (SortedSet ℕ)) : Prop :=
  ∀ (docIdx : ℕ) (keywords : SortedSet ℕ), docsKeywords[docIdx]? = some keywords →
    ∀ row ∈ keywords, ∃ conceptIdx < 50, termsTh < lsa.u.elem row conceptIdx

/-- The statistic: the mean of a block plus twice its standard deviation. -/
def termsStat [Add R] [Mul R] [OfNat R 2] (mean stddev : Mat (WithNan R) → WithNan R)
    (block : Mat (WithNan R)) : WithNan R :=
  mean block + .num 2 * stddev block

/-- Where the mean of a block without entries is zero divided by zero, the threshold is no
number. -/
theorem eq_nan_of_getTermsThreshold [Add R] [Mul R] [OfNat R 2]
    {mean stddev : Mat (WithNan R) → WithNan R}
    (hmean : ∀ block, block.nr * block.nc = 0 → mean block = .nan) {lsa : LSA (WithNan R)}
    {conceptsNo : ℕ} {termsTh : WithNan R}
    (hth : lsa.getTermsThreshold (termsStat mean stddev) conceptsNo = some termsTh) :
    termsTh = .nan := by
  obtain ⟨block, hblock, rfl⟩ := Option.map_eq_some_iff.mp hth
  rw [thresholdBlock_eq] at hblock
  split at hblock
  · cases hblock
    rw [termsStat, hmean _ (Nat.zero_mul conceptsNo), WithNan.nan_add]
  · cases hblock

/-- No document has a keyword if its entries are compared with something that is no number. -/
theorem notMem_keywords_of_nan [LT R] [DecidableLT R] {lsa : LSA (WithNan R)}
    {termThreshold : WithNan R} {conceptsNo : ℕ} {docsKeywords : List (SortedSet ℕ)}
    (h : lsa.getDocsKeywords .nan termThreshold conceptsNo = some docsKeywords)
    {keywords : SortedSet ℕ} (hkeywords : keywords ∈ docsKeywords) (row : ℕ) :
    row ∉ keywords := by
  intro hmem
  obtain ⟨docIdx, hlisted⟩ := List.getElem?_of_mem hkeywords
  obtain ⟨-, hkeys⟩ := (getElem?_getDocsKeywords h).mp hlisted
  obtain ⟨conceptIdx, -, hheavy, -⟩ := (mem_docKeywords hkeys row).mp hmem
  exact WithNan.not_nan_lt _ hheavy

/-- **Every keyword passes the threshold of the terms.** The threshold is computed over a block
without entries, whose mean is no number. It is handed over as the threshold of the documents,
where no entry exceeds it, so that there is no keyword that could fail. -/
theorem keywordsPass_of_threshold [Add R] [Mul R] [OfNat R 2] [LT R] [DecidableLT R]
    {mean stddev : Mat (WithNan R) → WithNan R}
    (hmean : ∀ block, block.nr * block.nc = 0 → mean block = .nan)
    {toFloat : WithNan R → WithNan R} (hfloat : toFloat .nan = .nan) {literal : WithNan R}
    {lsa : LSA (WithNan R)} {termsTh : WithNan R} {docsKeywords : List (SortedSet ℕ)}
    (hth : lsa.getTermsThreshold (termsStat mean stddev) 50 = some termsTh)
    (h : lsa.clusterKeywords toFloat literal termsTh = some docsKeywords) :
    lsa.KeywordsPass termsTh docsKeywords ∧
      ∀ keywords ∈ docsKeywords, ∀ row : ℕ, row ∉ keywords := by
  obtain rfl := eq_nan_of_getTermsThreshold hmean hth
  rw [clusterKeywords, hfloat] at h
  have hnone : ∀ keywords ∈ docsKeywords, ∀ row : ℕ, row ∉ keywords :=
    fun _ hkeywords row => notMem_keywords_of_nan h hkeywords row
  refine ⟨fun docIdx keywords hlisted row hmem => ?_, hnone⟩
  exact absurd hmem (hnone keywords (List.mem_of_getElem? hlisted) row)

/-- The sum of a block divided by its size. -/
def meanOf (block : Mat (WithNan ℚ)) : WithNan ℚ :=
  match ((List.range block.nr).flatMap fun row =>
    (List.range block.nc).map (block.elem row)).foldl (· + ·) 0 with
  | .num total => if block.nr * block.nc = 0 then .nan else .num (total / (block.nr * block.nc))
  | .nan => .nan

theorem meanOf_eq_nan {block : Mat (WithNan ℚ)} (hempty : block.nr * block.nc = 0) :
    meanOf block = .nan := by
  unfold meanOf
  split
  · exact if_pos hempty
  · rfl

/-- A term that weighs one fifth in the concept of which the first of 51 documents is about. -/
def lightTerm : LSA (WithNan ℚ) :=
  { LSA.fresh with
    u := ⟨1, 51, fun _ col => if col = 0 then .num (1 / 5) else 0⟩
    v := ⟨51, 51, fun row col => if row = 0 ∧ col = 0 then .num (1 / 2) else 0⟩ }

/-- It is no keyword of that document. The standard deviation of no entries is zero. -/
theorem keywordsPass_of_threshold_lightTerm :
    ∃ termsTh docsKeywords,
      lightTerm.getTermsThreshold (termsStat meanOf fun _ => 0) 50 = some termsTh ∧
      lightTerm.clusterKeywords id (.num (11 / 100)) termsTh = some docsKeywords ∧
      lightTerm.KeywordsPass termsTh docsKeywords ∧
      ∀ keywords ∈ docsKeywords, ∀ row : ℕ, row ∉ keywords := by
  obtain ⟨termsTh, hth⟩ : ∃ termsTh,
      lightTerm.getTermsThreshold (termsStat meanOf fun _ => 0) 50 = some termsTh := ⟨_, rfl⟩
  have hcollected : (lightTerm.clusterKeywords id (.num (11 / 100)) termsTh).isSome :=
    isSome_getDocsKeywords (by decide) (by decide)
  obtain ⟨docsKeywords, hkeywords⟩ := Option.isSome_iff_exists.mp hcollected
  exact ⟨termsTh, docsKeywords, hth, hkeywords,
    keywordsPass_of_threshold (fun _ => meanOf_eq_nan) rfl hth hkeywords⟩

end LSA

/-! ## A clustering with its accesses -/

/-- The library functions of a clustering, and the memory of its distance matrix. -/
structure ClusterOps (R : Type) where
  /-- `dlib::svd`. -/
  svd : Mat ℚ → Mat R × Mat R × Mat R
  /-- `dlib::cosine_distance`, of the entries of two rows. -/
  distance : List R → List R → R
  memory : ℕ → ℕ → R
  /-- `dlib::bottom_up_cluster`: the label of each document. -/
  bottomUpCluster : Mat R → List ℕ
  /-- The mean of a block plus twice its standard deviation. -/
  stat : Mat R → R
  /-- The conversion of a `double` to a `float`. -/
  toFloat : R → R
  /-- The literal `0.11`. -/
  literal : R
  /-- The order in which a hash map lists its keys. -/
  mapOrder : List ℕ → List ℕ

namespace BUClustering

variable {R : Type} [LT R] [DecidableLT R]

/-- What a clustering computes before it prints: the decomposition, the label of each
article and the keywords of each document. -/
def clusterArticles (ops : ClusterOps R) (vocab : Vocabulary) (lsa : LSA R)
    (articles : List ProcessedArticle) : Option (LSA R × List ℕ × List (SortedSet ℕ)) := do
  let lsa ← lsa.runSvd ops.svd vocab articles
  let distMat ← buildDistMat ops.distance ops.memory lsa.v
  let labels := ops.bottomUpCluster distMat
  let artLabels ← (List.range articles.length).mapM fun idx => labels[idx]?
  let termsTh ← lsa.getTermsThreshold ops.stat 50
  let docsKeywords ← lsa.clusterKeywords ops.toFloat ops.literal termsTh
  some (lsa, artLabels, docsKeywords)

/-- The whole of a clustering, topic by topic. -/
def createClustersChecked (ops : ClusterOps R) (vocab : Vocabulary) (lsa : LSA R)
    (articles : List ProcessedArticle) : Option (LSA R × List (List PrintedArticle)) := do
  let (lsa, artLabels, docsKeywords) ← clusterArticles ops vocab lsa articles
  let printed ← (ops.mapOrder artLabels.dedup).mapM fun topic =>
    ((List.range articles.length).filter fun idx => artLabels[idx]? = some topic).mapM
      (printArticle vocab articles docsKeywords)
  some (lsa, printed)

/-- The documented shapes of a decomposition, for the matrix that was decomposed. -/
structure ThinShapes (lsa : LSA R) : Prop where
  uNr : lsa.u.nr = lsa.termDocMat.nr
  uNc : lsa.u.nc = lsa.termDocMat.nc
  vNr : lsa.v.nr = lsa.termDocMat.nc
  vNc : lsa.v.nc = lsa.termDocMat.nc

variable {ops : ClusterOps R} {vocab : Vocabulary} {before after : LSA R}
  {articles : List ProcessedArticle}

omit [LT R] [DecidableLT R] in
/-- A decomposition has a column for each article. -/
theorem nc_of_runSvd (h : before.runSvd ops.svd vocab articles = some after) :
    after.termDocMat.nc = articles.length := by
  obtain ⟨built, hbuilt, rfl⟩ := LSA.runSvd_eq_some h
  exact (LSA.size_of_build hbuilt).2

/-- A clustering that completes has read a block of fifty concepts behind as many as there
are rows. -/
theorem room_of_clusterArticles (hsvd : before.runSvd ops.svd vocab articles = some after)
    (h : (clusterArticles ops vocab before articles).isSome) :
    after.u.nr + 50 ≤ after.u.nc := by
  obtain ⟨result, h⟩ := Option.isSome_iff_exists.mp h
  rw [clusterArticles, hsvd, Option.bind_eq_bind, Option.bind_some] at h
  obtain ⟨distMat, -, h⟩ := Option.bind_eq_some_iff.mp h
  obtain ⟨artLabels, -, h⟩ := Option.bind_eq_some_iff.mp h
  obtain ⟨termsTh, hth, -⟩ := Option.bind_eq_some_iff.mp h
  obtain ⟨block, hblock, -⟩ := Option.map_eq_some_iff.mp hth
  rw [LSA.thresholdBlock_eq] at hblock
  split at hblock
  · rename_i hin
    exact hin
  · cases hblock

/-- **When a clustering stays inside its matrices.** With a decomposition of the documented
shapes and a label for each document, exactly if there are at least fifty more
articles than rows. -/
theorem isSome_clusterArticles_iff (hsvd : before.runSvd ops.svd vocab articles = some after)
    (hshapes : ThinShapes after) (hlabels : ∀ distMat, (ops.bottomUpCluster distMat).length =
      distMat.nr) :
    (clusterArticles ops vocab before articles).isSome ↔
      after.u.nr + 50 ≤ articles.length := by
  have hwidth := nc_of_runSvd hsvd
  have huNc : after.u.nc = articles.length := hshapes.uNc.trans hwidth
  have hvNr : after.v.nr = articles.length := hshapes.vNr.trans hwidth
  have hvNc : after.v.nc = articles.length := hshapes.vNc.trans hwidth
  constructor
  · exact fun hsome => huNc ▸ room_of_clusterArticles hsvd hsome
  · intro henough
    have hbuilt : (buildDistMat ops.distance ops.memory after.v).isSome :=
      isSome_buildDistMat_iff.mpr (Or.inr (by omega))
    obtain ⟨distMat, hdist⟩ := Option.isSome_iff_exists.mp hbuilt
    have hlabelled : ((List.range articles.length).mapM fun idx =>
        (ops.bottomUpCluster distMat)[idx]?).isSome := by
      rw [isSome_mapM_iff]
      intro idx hidx
      have hlt : idx < (ops.bottomUpCluster distMat).length := by
        rw [hlabels, (size_of_buildDistMat hdist).1, hvNr]
        exact List.mem_range.mp hidx
      rw [List.getElem?_eq_getElem hlt]
      rfl
    obtain ⟨artLabels, hartLabels⟩ := Option.isSome_iff_exists.mp hlabelled
    have hblock : LSA.thresholdBlock after.u 50 =
        some ⟨0, 50, fun r c => after.u.elem r (after.u.nr + c)⟩ := by
      rw [LSA.thresholdBlock_eq, if_pos (huNc ▸ henough)]
    obtain ⟨termsTh, hth⟩ : ∃ termsTh, after.getTermsThreshold ops.stat 50 = some termsTh :=
      ⟨_, by rw [LSA.getTermsThreshold, hblock, Option.map_some]⟩
    have hcollected : (after.clusterKeywords ops.toFloat ops.literal termsTh).isSome :=
      LSA.isSome_getDocsKeywords (by omega) (by omega)
    obtain ⟨docsKeywords, hkeywords⟩ := Option.isSome_iff_exists.mp hcollected
    simp [clusterArticles, hsvd, hdist, hartLabels, hth, hkeywords]

/-- The library functions for the fifty articles. Their documents are orthogonal, so no two
are close enough to be merged. -/
def fiftyArticlesOps : ClusterOps ℚ where
  svd := oneConcept
  distance := unitCosineDistance
  memory := fun _ _ => 0
  bottomUpCluster := fun distMat => List.range distMat.nr
  stat := fun _ => 0
  toFloat := id
  literal := 11 / 100
  mapOrder := id

/-- Their decomposition has the documented shapes, and one row. -/
theorem exists_runSvd_fiftyArticles :
    ∃ lsa, LSA.fresh.runSvd fiftyArticlesOps.svd twoStems fiftyArticles = some lsa ∧
      ThinShapes lsa ∧ lsa.u.nr = 1 ∧ lsa.u.nc = 50 := by
  have hsizes : (LSA.fresh.runSvd fiftyArticlesOps.svd twoStems fiftyArticles).map (fun lsa =>
      ((lsa.u.nr, lsa.u.nc), (lsa.v.nr, lsa.v.nc), lsa.termDocMat.nr, lsa.termDocMat.nc)) =
        some ((1, 50), (50, 50), 1, 50) := by
    decide +kernel
  obtain ⟨lsa, hlsa, hsizes⟩ := Option.map_eq_some_iff.mp hsizes
  simp only [Prod.mk.injEq] at hsizes
  obtain ⟨⟨huNr, huNc⟩, ⟨hvNr, hvNc⟩, hnr, hnc⟩ := hsizes
  exact ⟨lsa, hlsa, ⟨huNr.trans hnr.symm, huNc.trans hnc.symm, hvNr.trans hnc.symm,
    hvNc.trans hnc.symm⟩, huNr, huNc⟩

theorem length_bottomUpCluster_fiftyArticles (distMat : Mat ℚ) :
    (fiftyArticlesOps.bottomUpCluster distMat).length = distMat.nr := List.length_range

/-- The equivalence for the fifty articles. -/
theorem isSome_clusterArticles_iff_fiftyArticles :
    ∃ lsa, LSA.fresh.runSvd fiftyArticlesOps.svd twoStems fiftyArticles = some lsa ∧
      ((clusterArticles fiftyArticlesOps twoStems LSA.fresh fiftyArticles).isSome ↔
        lsa.u.nr + 50 ≤ fiftyArticles.length) := by
  obtain ⟨lsa, hlsa, hshapes, -⟩ := exists_runSvd_fiftyArticles
  exact ⟨lsa, hlsa,
    isSome_clusterArticles_iff hlsa hshapes length_bottomUpCluster_fiftyArticles⟩

/-- The block behind their threshold ends outside the matrix of the terms. -/
theorem fifty_articles_too_few :
    ¬ ∀ (ops : ClusterOps ℚ) (vocab : Vocabulary) (before after : LSA ℚ)
      (articles : List ProcessedArticle), articles ≠ [] →
        before.runSvd ops.svd vocab articles = some after → ThinShapes after →
        (∀ distMat, (ops.bottomUpCluster distMat).length = distMat.nr) → 0 < after.u.nr →
        (clusterArticles ops vocab before articles).isSome := by
  intro hall
  obtain ⟨lsa, hlsa, hshapes, hrows, hcols⟩ := exists_runSvd_fiftyArticles
  have hsome := hall fiftyArticlesOps twoStems LSA.fresh lsa fiftyArticles (by decide) hlsa hshapes
    length_bottomUpCluster_fiftyArticles (hrows ▸ Nat.one_pos)
  have hroom := room_of_clusterArticles hlsa hsome
  rw [hrows, hcols] at hroom
  exact absurd hroom (by decide)

end BUClustering

end Unbiased
