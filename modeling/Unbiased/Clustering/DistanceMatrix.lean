/-
# The distance matrix of the documents

The matrix is sized without being initialised, and a loop over the pairs of
different documents writes the two cells of each pair. So a cell outside the
diagonal is a function of the documents, and a cell of the diagonal is what the
memory held before.
-/

import Unbiased.Clustering.LSA

namespace Unbiased

open Unbiased.Math

namespace Mat

variable {R : Type}

/-- `dlib::subm`: the block of `nr` rows from `row` and `nc` columns from `col`, which must
lie inside the matrix. -/
def subm (mat : Mat R) (row col nr nc : ℕ) : Option (Mat R) :=
  if row + nr ≤ mat.nr ∧ col + nc ≤ mat.nc then
    some ⟨nr, nc, fun r c => mat.elem (row + r) (col + c)⟩
  else none

/-- Checked assignment: nothing outside the matrix. -/
def set? (mat : Mat R) (row col : ℕ) (value : R) : Option (Mat R) :=
  if row < mat.nr ∧ col < mat.nc then some (mat.set row col value) else none

/-- The elements, row by row. -/
def entries (mat : Mat R) : List R :=
  (List.range mat.nr).flatMap fun row => (List.range mat.nc).map (mat.elem row)

/-- The first entries of a row. -/
def rowStart (mat : Mat R) (row count : ℕ) : List R := (List.range count).map (mat.elem row)

theorem subm_eq_some {mat block : Mat R} {row col nr nc : ℕ} :
    mat.subm row col nr nc = some block ↔ (row + nr ≤ mat.nr ∧ col + nc ≤ mat.nc) ∧
      block = ⟨nr, nc, fun r c => mat.elem (row + r) (col + c)⟩ := by
  unfold subm
  split
  · rename_i hin
    simp [hin, eq_comm]
  · rename_i hout
    simp [hout]

theorem set?_eq_some {mat next : Mat R} {row col : ℕ} {value : R} :
    mat.set? row col value = some next ↔
      (row < mat.nr ∧ col < mat.nc) ∧ next = mat.set row col value := by
  unfold set?
  split
  · rename_i hin
    simp [hin, eq_comm]
  · rename_i hout
    simp [hout]

/-- The entries of a block of one row are the first entries of that row. -/
theorem entries_subm_row {mat block : Mat R} {row count : ℕ}
    (h : mat.subm row 0 1 count = some block) : block.entries = mat.rowStart row count := by
  obtain ⟨-, rfl⟩ := subm_eq_some.mp h
  simp [entries, rowStart]

end Mat

namespace BUClustering

variable {R : Type}

/-- The pairs of the two loops: the second index runs from the one after the first. -/
def pairs (docsNo : ℕ) : List (ℕ × ℕ) :=
  (List.range docsNo).flatMap fun di =>
    ((List.range docsNo).filter fun dj => di + 1 ≤ dj).map fun dj => (di, dj)

/-- The loop body: write the distance of two documents into the two cells of the pair. -/
def writePair (distance : List R → List R → R) (docsConcepts distMat : Mat R) (pair : ℕ × ℕ) :
    Option (Mat R) := do
  let rowI ← docsConcepts.subm pair.1 0 1 50
  let rowJ ← docsConcepts.subm pair.2 0 1 50
  let distMat ← distMat.set? pair.1 pair.2 (distance rowI.entries rowJ.entries)
  let written ← distMat.at? pair.1 pair.2
  distMat.set? pair.2 pair.1 written

/-- Size the matrix over whatever its memory holds, and run the loops. -/
def buildDistMat (distance : List R → List R → R) (memory : ℕ → ℕ → R) (docsConcepts : Mat R) :
    Option (Mat R) :=
  run (writePair distance docsConcepts) ⟨docsConcepts.nr, docsConcepts.nr, memory⟩
    (pairs docsConcepts.nr)

@[simp]
theorem mem_pairs {docsNo i j : ℕ} : (i, j) ∈ pairs docsNo ↔ i < j ∧ j < docsNo := by
  simp only [pairs, List.mem_flatMap, List.mem_range, List.mem_map, List.mem_filter,
    decide_eq_true_eq, Prod.mk.injEq]
  constructor
  · rintro ⟨di, -, dj, ⟨hdj, hlt⟩, rfl, rfl⟩
    exact ⟨hlt, hdj⟩
  · rintro ⟨hlt, hj⟩
    exact ⟨i, hlt.trans hj, j, ⟨hj, hlt⟩, rfl, rfl⟩

/-- The distance that a pair is given. -/
def pairDistance (distance : List R → List R → R) (docsConcepts : Mat R) (i j : ℕ) : R :=
  distance (docsConcepts.rowStart i 50) (docsConcepts.rowStart j 50)

variable {distance : List R → List R → R} {docsConcepts distMat next : Mat R}

/-- What the loop body does where its accesses lie inside. -/
theorem writePair_eq_some {pair : ℕ × ℕ}
    (h : writePair distance docsConcepts distMat pair = some next) :
    next.nr = distMat.nr ∧ next.nc = distMat.nc ∧
      ∀ row col, next.elem row col =
        if row = pair.2 ∧ col = pair.1 ∨ row = pair.1 ∧ col = pair.2 then
          pairDistance distance docsConcepts pair.1 pair.2
        else distMat.elem row col := by
  obtain ⟨rowI, hrowI, h⟩ := Option.bind_eq_some_iff.mp h
  obtain ⟨rowJ, hrowJ, h⟩ := Option.bind_eq_some_iff.mp h
  obtain ⟨first, hfirst, h⟩ := Option.bind_eq_some_iff.mp h
  obtain ⟨written, hwritten, h⟩ := Option.bind_eq_some_iff.mp h
  obtain ⟨-, rfl⟩ := Mat.set?_eq_some.mp hfirst
  obtain ⟨-, rfl⟩ := Mat.set?_eq_some.mp h
  obtain ⟨-, rfl⟩ := Mat.at?_eq_some.mp hwritten
  refine ⟨rfl, rfl, fun row col => ?_⟩
  rw [Mat.entries_subm_row hrowI, Mat.entries_subm_row hrowJ]
  simp only [Mat.set, and_self, if_true]
  by_cases hsecond : row = pair.2 ∧ col = pair.1
  · simp [hsecond, pairDistance]
  · by_cases hfirst : row = pair.1 ∧ col = pair.2
    · simp [hfirst, pairDistance]
    · simp [hsecond, hfirst]

/-- The loop body stops at a row block outside the documents, and nowhere else if its
cells lie inside. -/
theorem isSome_writePair {pair : ℕ × ℕ} (hnr : distMat.nr = docsConcepts.nr)
    (hnc : distMat.nc = docsConcepts.nr) :
    (writePair distance docsConcepts distMat pair).isSome ↔
      pair.1 < docsConcepts.nr ∧ pair.2 < docsConcepts.nr ∧ 50 ≤ docsConcepts.nc := by
  have hblock : ∀ row, (docsConcepts.subm row 0 1 50).isSome ↔
      row < docsConcepts.nr ∧ 50 ≤ docsConcepts.nc := by
    intro row
    unfold Mat.subm
    split
    · rename_i hin
      exact iff_of_true rfl ⟨by omega, by omega⟩
    · rename_i hout
      exact iff_of_false Bool.false_ne_true (by omega)
  constructor
  · intro hsome
    obtain ⟨next, h⟩ := Option.isSome_iff_exists.mp hsome
    obtain ⟨rowI, hrowI, h⟩ := Option.bind_eq_some_iff.mp h
    obtain ⟨rowJ, hrowJ, -⟩ := Option.bind_eq_some_iff.mp h
    have hfirst := (hblock pair.1).mp (Option.isSome_of_eq_some hrowI)
    have hsecond := (hblock pair.2).mp (Option.isSome_of_eq_some hrowJ)
    exact ⟨hfirst.1, hsecond.1, hsecond.2⟩
  · rintro ⟨hfirst, hsecond, hwide⟩
    obtain ⟨rowI, hrowI⟩ := Option.isSome_iff_exists.mp ((hblock pair.1).mpr ⟨hfirst, hwide⟩)
    obtain ⟨rowJ, hrowJ⟩ := Option.isSome_iff_exists.mp ((hblock pair.2).mpr ⟨hsecond, hwide⟩)
    simp [writePair, hrowI, hrowJ, Mat.set?, Mat.at?, Mat.set, hnr, hnc, hfirst, hsecond]

/-- The size of the matrix does not change. -/
theorem size_of_buildDistMat {memory : ℕ → ℕ → R}
    (h : buildDistMat distance memory docsConcepts = some distMat) :
    distMat.nr = docsConcepts.nr ∧ distMat.nc = docsConcepts.nr := by
  apply run_preserves (P := fun mat : Mat R =>
    mat.nr = docsConcepts.nr ∧ mat.nc = docsConcepts.nr) h ⟨rfl, rfl⟩
  intro mid pair next hmid hstep
  obtain ⟨hnr, hnc, -⟩ := writePair_eq_some hstep
  exact ⟨hnr.trans hmid.1, hnc.trans hmid.2⟩

/-- **When the matrix can be built.** Exactly if there are no two documents or fifty
columns. -/
theorem isSome_buildDistMat_iff {memory : ℕ → ℕ → R} :
    (buildDistMat distance memory docsConcepts).isSome ↔
      docsConcepts.nr ≤ 1 ∨ 50 ≤ docsConcepts.nc := by
  have hrun : (buildDistMat distance memory docsConcepts).isSome ↔
      ∀ pair ∈ pairs docsConcepts.nr,
        pair.1 < docsConcepts.nr ∧ pair.2 < docsConcepts.nr ∧ 50 ≤ docsConcepts.nc :=
    isSome_run_iff (P := fun mat : Mat R =>
        mat.nr = docsConcepts.nr ∧ mat.nc = docsConcepts.nr) ⟨rfl, rfl⟩
      (fun mid pair next hmid hstep =>
        ⟨(writePair_eq_some hstep).1.trans hmid.1, (writePair_eq_some hstep).2.1.trans hmid.2⟩)
      fun mid pair hmid => isSome_writePair hmid.1 hmid.2
  rw [hrun]
  constructor
  · intro hall
    by_contra hneither
    have hpair : (0, 1) ∈ pairs docsConcepts.nr := mem_pairs.mpr ⟨Nat.zero_lt_one, by omega⟩
    exact hneither (Or.inr (hall _ hpair).2.2)
  · rintro hsize ⟨i, j⟩ hpair
    obtain ⟨hlt, hj⟩ := mem_pairs.mp hpair
    exact ⟨hlt.trans hj, hj, by omega⟩

/-- **The cells of the matrix.** Those of a pair hold its distance, the others what the
memory held. -/
theorem elem_of_buildDistMat {memory : ℕ → ℕ → R}
    (h : buildDistMat distance memory docsConcepts = some distMat) (row col : ℕ) :
    distMat.elem row col =
      if row < col ∧ col < docsConcepts.nr then pairDistance distance docsConcepts row col
      else if col < row ∧ row < docsConcepts.nr then pairDistance distance docsConcepts col row
      else memory row col := by
  have hcells : (∀ pair ∈ pairs docsConcepts.nr, pair.1 < pair.2) →
      distMat.elem row col =
        if (row, col) ∈ pairs docsConcepts.nr then pairDistance distance docsConcepts row col
        else if (col, row) ∈ pairs docsConcepts.nr then pairDistance distance docsConcepts col row
        else memory row col := by
    apply run_invariant (P := fun hist (mat : Mat R) => (∀ pair ∈ hist, pair.1 < pair.2) →
      mat.elem row col = if (row, col) ∈ hist then pairDistance distance docsConcepts row col
        else if (col, row) ∈ hist then pairDistance distance docsConcepts col row
        else memory row col) _ _ h
    · intro _
      rfl
    · rintro hist mid ⟨i, j⟩ next hmid hstep hordered
      have hlt : i < j := hordered (i, j) (List.mem_append_right _ List.mem_cons_self)
      have hearlier := hmid fun pair hpair => hordered pair (List.mem_append_left _ hpair)
      rw [(writePair_eq_some hstep).2.2]
      simp only [List.mem_append, List.mem_singleton, Prod.mk.injEq]
      by_cases hupper : row = i ∧ col = j
      · obtain ⟨rfl, rfl⟩ := hupper
        simp
      · by_cases hlower : row = j ∧ col = i
        · obtain ⟨rfl, rfl⟩ := hlower
          have hnot : (row, col) ∉ hist := fun hmem =>
            absurd (hordered (row, col) (List.mem_append_left _ hmem)) (not_lt.mpr hlt.le)
          simp [hnot, hlt.ne']
        · have hswapped : ¬ (col = i ∧ row = j) := fun hboth => hlower hboth.symm
          simp [hupper, hlower, hswapped, hearlier]
  simp only [mem_pairs] at hcells
  exact hcells fun pair hpair => (mem_pairs.mp (show (pair.1, pair.2) ∈ _ from hpair)).1

/-! ## What the documents determine -/

/-- Whatever the memory holds, every cell gets the same value, and the two cells of a pair
get its distance. -/
def DistancesDetermined (distance : List R → List R → R) (docsConcepts : Mat R) : Prop :=
  ∃ value : ℕ → ℕ → R,
    (∀ memory, ∃ distMat, buildDistMat distance memory docsConcepts = some distMat ∧
      ∀ row < docsConcepts.nr, ∀ col < docsConcepts.nr, distMat.elem row col = value row col) ∧
    ∀ i j, i < j → j < docsConcepts.nr →
      value i j = pairDistance distance docsConcepts i j ∧
        value j i = pairDistance distance docsConcepts i j

/-- A cell of the diagonal keeps what the memory held. -/
theorem elem_diagonal {memory : ℕ → ℕ → R}
    (h : buildDistMat distance memory docsConcepts = some distMat) (i : ℕ) :
    distMat.elem i i = memory i i := by
  rw [elem_of_buildDistMat h]
  simp

/-- So no document may be there. -/
theorem nr_eq_zero_of_determined [Nontrivial R]
    (h : DistancesDetermined distance docsConcepts) : docsConcepts.nr = 0 := by
  obtain ⟨value, hvalue, -⟩ := h
  by_contra hdocs
  have hfirst := Nat.pos_of_ne_zero hdocs
  obtain ⟨a, b, hne⟩ := exists_pair_ne R
  have hkept : ∀ content : R, value 0 0 = content := by
    intro content
    obtain ⟨distMat, hdist, hcells⟩ := hvalue fun _ _ => content
    rw [← hcells 0 hfirst 0 hfirst, elem_diagonal hdist]
  exact hne ((hkept a).symm.trans (hkept b))

/-- **When the documents determine the distances.** Only if there are none. Otherwise the
two cells of every pair do hold its distance, and each cell of the diagonal keeps
what the memory held. -/
theorem distancesDetermined_iff [Nontrivial R] (distance : List R → List R → R)
    {docsConcepts : Mat R} (hwide : 50 ≤ docsConcepts.nc) :
    (DistancesDetermined distance docsConcepts ↔ docsConcepts.nr = 0) ∧
      ∀ memory, ∃ distMat, buildDistMat distance memory docsConcepts = some distMat ∧
        (∀ i j, i < j → j < docsConcepts.nr →
          distMat.elem i j = pairDistance distance docsConcepts i j ∧
            distMat.elem j i = pairDistance distance docsConcepts i j) ∧
        ∀ i, distMat.elem i i = memory i i := by
  have hbuilt : ∀ memory, ∃ distMat, buildDistMat distance memory docsConcepts = some distMat :=
    fun memory => Option.isSome_iff_exists.mp (isSome_buildDistMat_iff.mpr (Or.inr hwide))
  refine ⟨⟨nr_eq_zero_of_determined, ?_⟩, ?_⟩
  · intro hnone
    obtain ⟨a, -, -⟩ := exists_pair_ne R
    refine ⟨fun _ _ => a, fun memory => ?_, fun i j _ hj => by omega⟩
    obtain ⟨distMat, hdist⟩ := hbuilt memory
    exact ⟨distMat, hdist, fun row hrow => by omega⟩
  · intro memory
    obtain ⟨distMat, hdist⟩ := hbuilt memory
    refine ⟨distMat, hdist, fun i j hlt hj => ⟨?_, ?_⟩, elem_diagonal hdist⟩
    · rw [elem_of_buildDistMat hdist, if_pos ⟨hlt, hj⟩]
    · rw [elem_of_buildDistMat hdist, if_neg (fun h => absurd h.1 hlt.not_gt), if_pos ⟨hlt, hj⟩]

/-- The cosine distance of two vectors of length one. -/
def unitCosineDistance (first second : List ℚ) : ℚ :=
  1 - (List.zipWith (· * ·) first second).sum

/-- Documents that each are a concept of their own. -/
def ownConcepts (docsNo : ℕ) : Mat ℚ := ⟨docsNo, 50, fun row col => if row = col then 1 else 0⟩

/-- The result for two documents. -/
theorem distancesDetermined_iff_ownConcepts :
    (DistancesDetermined unitCosineDistance (ownConcepts 2) ↔ (ownConcepts 2).nr = 0) ∧
      ∀ memory, ∃ distMat, buildDistMat unitCosineDistance memory (ownConcepts 2) = some distMat ∧
        (∀ i j, i < j → j < (ownConcepts 2).nr →
          distMat.elem i j = pairDistance unitCosineDistance (ownConcepts 2) i j ∧
            distMat.elem j i = pairDistance unitCosineDistance (ownConcepts 2) i j) ∧
        ∀ i, distMat.elem i i = memory i i :=
  distancesDetermined_iff unitCosineDistance le_rfl

/-- The distance of a document to itself is never written. -/
theorem diagonal_not_written :
    ¬ ∀ (distance : List ℚ → List ℚ → ℚ) (docsConcepts : Mat ℚ), 50 ≤ docsConcepts.nc →
      DistancesDetermined distance docsConcepts := by
  intro hall
  have hnone := nr_eq_zero_of_determined (hall unitCosineDistance (ownConcepts 1) le_rfl)
  exact one_ne_zero hnone

end BUClustering

end Unbiased
