/-
# Building the term-document matrix again

The clustering keeps one `LSA` object, and building a matrix on it appends to
the table of row ids that the build before it left. Whether a build completes
depends on neither the matrix nor the repetitions in the table, so a second
build does complete, and its matrix has the rows of both.
-/

import Unbiased.Clustering.LSA

namespace Unbiased

open Unbiased.Math

namespace LSA

variable {R : Type} {vocab : Vocabulary} {tfThreshold : Int32}

/-! ## When the loops complete -/

/-- A cell can be filled exactly if the article has tokens and the row's id was
counted, whatever matrix and row it is filled in. -/
theorem isSome_fillCell {termsFreq : List Int32} {tokensNo cidx : ℕ} {mat : Mat ℚ}
    {entry : ℕ × ℕ} :
    (fillCell termsFreq tokensNo cidx mat entry).isSome ↔
      tokensNo ≠ 0 ∧ entry.1 < termsFreq.length := by
  unfold fillCell
  split
  · rename_i htokens
    simp [htokens]
  · rename_i htokens
    by_cases hlt : entry.1 < termsFreq.length
    · simp [htokens, hlt]
    · simp [htokens, hlt]

/-- Filling cells keeps the size of the matrix. -/
theorem size_of_fillColumn {terms : List ℕ} {mat next : Mat ℚ} {entry : ProcessedArticle × ℕ}
    (h : fillColumn vocab terms mat entry = some next) : next.nr = mat.nr ∧ next.nc = mat.nc := by
  obtain ⟨termsFreq, -, hfill⟩ := Option.bind_eq_some_iff.mp h
  apply run_preserves (P := fun filled => filled.nr = mat.nr ∧ filled.nc = mat.nc) hfill ⟨rfl, rfl⟩
  intro before cell after hbefore hcell
  rw [← hbefore.1, ← hbefore.2]
  unfold fillCell at hcell
  split at hcell
  · cases hcell
  · obtain ⟨tf, -, hafter⟩ := Option.bind_eq_some_iff.mp hcell
    rw [← Option.some.inj hafter]
    split
    · exact ⟨rfl, rfl⟩
    · exact ⟨rfl, rfl⟩

/-- A column can be filled for any rows with the same ids. -/
theorem exists_fillColumn {terms other : List ℕ} {mat next : Mat ℚ}
    {entry : ProcessedArticle × ℕ} (h : fillColumn vocab terms mat entry = some next)
    (hother : ∀ term ∈ other, term ∈ terms) (start : Mat ℚ) :
    ∃ final, fillColumn vocab other start entry = some final := by
  obtain ⟨termsFreq, hcount, hfill⟩ := Option.bind_eq_some_iff.mp h
  have hcells : (run (fillCell termsFreq entry.1.tokensNo entry.2) start other.zipIdx).isSome := by
    apply isSome_run_of_forall_mem
    intro cell hmem current
    have hterm := hother cell.1 (List.fst_mem_of_mem_zipIdx hmem)
    obtain ⟨ridx, hridx⟩ := List.getElem?_of_mem hterm
    have hentry : (cell.1, ridx) ∈ terms.zipIdx := List.mk_mem_zipIdx_iff_getElem?.mpr hridx
    obtain ⟨before, after, hcell⟩ := exists_step_of_mem hfill hentry
    have hcounted := isSome_fillCell.mp (Option.isSome_of_eq_some hcell)
    exact isSome_fillCell.mpr hcounted
  obtain ⟨final, hfinal⟩ := Option.isSome_iff_exists.mp hcells
  refine ⟨final, ?_⟩
  rw [fillColumn, hcount, Option.bind_eq_bind, Option.bind_some, hfinal]

/-- The filter loop reads the same counts whatever the table holds before it. -/
theorem run_collectTerm_append {start terms ids : List ℕ}
    (h : run (collectTerm vocab tfThreshold) start ids = some terms) (before : List ℕ) :
    run (collectTerm vocab tfThreshold) (before ++ start) ids = some (before ++ terms) := by
  have hcommutes : ∀ table id, collectTerm vocab tfThreshold (before ++ table) id =
      (collectTerm vocab tfThreshold table id).map (before ++ ·) := by
    intro table id
    unfold collectTerm
    cases vocab.getStemFreq (Int32.ofNat id) with
    | none => rfl
    | some stemFreq =>
        by_cases hrange : tfThreshold < stemFreq ∧ stemFreq < 50
        · simp [hrange]
        · simp [hrange]
  rw [run_map hcommutes, h, Option.map_some]

/-! ## Two builds -/

/-- A build on an object appends the terms to its table, and the matrix has a row
for each entry of the table. -/
theorem exists_buildTermDocMatrix [Zero R] {articles : List ProcessedArticle} {built : LSA R}
    (h : (fresh : LSA R).buildTermDocMatrix vocab articles tfThreshold = some built)
    {before : LSA R} (hbefore : ∀ term ∈ before.termsMatToVocab, term ∈ built.termsMatToVocab) :
    ∃ after, before.buildTermDocMatrix vocab articles tfThreshold = some after ∧
      after.termsMatToVocab = before.termsMatToVocab ++ built.termsMatToVocab ∧
      after.termDocMat.nr = after.termsMatToVocab.length := by
  obtain ⟨hnonempty, terms, mat, hterms, hmat, rfl⟩ := buildTermDocMatrix_eq_some h
  have hall := run_collectTerm_append hterms before.termsMatToVocab
  rw [show (fresh : LSA R).termsMatToVocab = [] from rfl, List.append_nil] at hall
  have hloop : ∃ final, run (fillColumn vocab (before.termsMatToVocab ++ terms))
      ⟨(before.termsMatToVocab ++ terms).length, articles.length, fun _ _ => 0⟩
      articles.zipIdx = some final ∧ final.nr = (before.termsMatToVocab ++ terms).length := by
    apply exists_run_preserves (P := fun filled : Mat ℚ =>
      filled.nr = (before.termsMatToVocab ++ terms).length) rfl
    intro current entry hmem hrows
    obtain ⟨start, filled, hfilled⟩ := exists_step_of_mem hmat hmem
    have hids : ∀ term ∈ before.termsMatToVocab ++ terms, term ∈ terms := by
      intro term hterm
      exact (List.mem_append.mp hterm).elim (hbefore term) id
    obtain ⟨next, hnext⟩ := exists_fillColumn hfilled hids current
    exact ⟨next, hnext, (size_of_fillColumn hnext).1.trans hrows⟩
  obtain ⟨final, hfinal, hrows⟩ := hloop
  refine ⟨{ before with
    termsMatToVocab := before.termsMatToVocab ++ terms
    termDocMat := final }, ?_, rfl, hrows⟩
  rw [buildTermDocMatrix, if_neg hnonempty, hall, Option.bind_eq_bind, Option.bind_some, hfinal]
  rfl

/-- Of the object, a build reads the table only. -/
theorem buildTermDocMatrix_congr {first second : LSA R}
    (h : first.termsMatToVocab = second.termsMatToVocab) (vocab : Vocabulary)
    (articles : List ProcessedArticle) (tfThreshold : Int32) :
    (first.buildTermDocMatrix vocab articles tfThreshold).map
        (fun lsa => (lsa.termDocMat, lsa.termsMatToVocab)) =
      (second.buildTermDocMatrix vocab articles tfThreshold).map
        fun lsa => (lsa.termDocMat, lsa.termsMatToVocab) := by
  unfold buildTermDocMatrix
  rw [h]
  split
  · rfl
  · cases run (collectTerm vocab tfThreshold) second.termsMatToVocab
        (List.range (vocab.stemsNo + 1)) with
    | none => rfl
    | some terms =>
        cases hmat : run (fillColumn vocab terms) ⟨terms.length, articles.length, fun _ _ => 0⟩
            articles.zipIdx with
        | none => simp [hmat]
        | some mat => simp [hmat]

/-- **When a second build forgets the first.** If the matrix of each of two batches
can be built on an object of its own, it can be built for the second batch after
the first, and it is the same, with the same row table, exactly if no id passes
the frequency filter. -/
theorem rebuild_eq_iff [Zero R] {first second : List ProcessedArticle} {old new : LSA R}
    (hold : (fresh : LSA R).buildTermDocMatrix vocab first tfThreshold = some old)
    (hnew : (fresh : LSA R).buildTermDocMatrix vocab second tfThreshold = some new) :
    ∃ again, old.buildTermDocMatrix vocab second tfThreshold = some again ∧
      (again.termDocMat = new.termDocMat ∧ again.termsMatToVocab = new.termsMatToVocab ↔
        ∀ stemId ≤ vocab.stemsNo, vocab.isTerm tfThreshold stemId = false) := by
  have hterms := (buildTermDocMatrix_spec hnew).2.1
  have htable : old.termsMatToVocab = new.termsMatToVocab := by
    rw [hterms, (buildTermDocMatrix_spec hold).2.1]
  have hids : ∀ term ∈ old.termsMatToVocab, term ∈ new.termsMatToVocab := by
    rw [htable]
    exact fun _ hterm => hterm
  obtain ⟨again, hagain, hrows, -⟩ := exists_buildTermDocMatrix hnew hids
  have hnil : new.termsMatToVocab = [] ↔
      ∀ stemId ≤ vocab.stemsNo, vocab.isTerm tfThreshold stemId = false := by
    rw [hterms, List.filter_eq_nil_iff]
    simp only [List.mem_range, Nat.lt_succ_iff, Bool.not_eq_true]
  refine ⟨again, hagain, ?_⟩
  rw [← hnil]
  refine ⟨fun hsame => ?_, fun hempty => ?_⟩
  · have hlength := congrArg List.length (hrows.symm.trans hsame.2)
    rw [List.length_append, htable] at hlength
    exact List.eq_nil_of_length_eq_zero (by omega)
  · have hcongr := buildTermDocMatrix_congr (htable.trans hempty :
      old.termsMatToVocab = (fresh : LSA R).termsMatToVocab) vocab second tfThreshold
    rw [hagain, hnew] at hcongr
    exact Prod.mk.inj (Option.some.inj hcongr)

/-- The equivalence for the fifty articles, clustered twice. -/
theorem rebuild_eq_iff_fiftyArticles :
    ∃ old again : LSA ℚ, old.buildTermDocMatrix twoStems fiftyArticles 3 = some again ∧
      (again.termDocMat = old.termDocMat ∧ again.termsMatToVocab = old.termsMatToVocab ↔
        ∀ stemId ≤ twoStems.stemsNo, twoStems.isTerm 3 stemId = false) := by
  have hsome : ((fresh : LSA ℚ).buildTermDocMatrix twoStems fiftyArticles 3).isSome := by
    decide +kernel
  obtain ⟨old, hold⟩ := Option.isSome_iff_exists.mp hsome
  exact ⟨old, rebuild_eq_iff hold hold⟩

/-- After two builds of the same articles, the stem `bb` has two rows. -/
theorem row_repeated :
    ¬ ∀ (vocab : Vocabulary) (first second : List ProcessedArticle) (tfThreshold : Int32)
      (old new again : LSA ℚ), first ≠ [] → second ≠ [] →
        (fresh : LSA ℚ).buildTermDocMatrix vocab first tfThreshold = some old →
        (fresh : LSA ℚ).buildTermDocMatrix vocab second tfThreshold = some new →
        old.buildTermDocMatrix vocab second tfThreshold = some again →
        again.termDocMat = new.termDocMat ∧ again.termsMatToVocab = new.termsMatToVocab := by
  intro hall
  have hrun : ((fresh : LSA ℚ).buildTermDocMatrix twoStems fiftyArticles 3).bind (fun old =>
      (old.buildTermDocMatrix twoStems fiftyArticles 3).map fun again =>
        (old.termsMatToVocab, again.termsMatToVocab)) = some ([1], [1, 1]) := by
    decide +kernel
  obtain ⟨old, hold, hrest⟩ := Option.bind_eq_some_iff.mp hrun
  obtain ⟨again, hagain, hrows⟩ := Option.map_eq_some_iff.mp hrest
  have hnonempty : fiftyArticles ≠ [] := by decide
  have hsame := (hall _ _ _ _ old old again hnonempty hnonempty hold hold hagain).2
  rw [(Prod.mk.inj hrows).1, (Prod.mk.inj hrows).2] at hsame
  cases hsame

end LSA

end Unbiased
