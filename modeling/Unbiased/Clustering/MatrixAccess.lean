/-
# The accesses of a matrix build

The filter loop reads the count of every id up to and including the number of
stems, each article's loop counts its stem ids in a vector with one counter for
each stem, and each row reads the counter of its id. The first limit is one more
than the others, so a vocabulary as large as the count array is read past its
end, and a negative threshold lets the id after the last stem become a row.
-/

import Unbiased.Clustering.CollectedBatch

namespace Unbiased

open Unbiased.Math

namespace LSA

variable {R : Type} {vocab : Vocabulary} {tfThreshold : Int32}

/-- The ids of the rows of a build that starts with a table. -/
def rowTable (vocab : Vocabulary) (table : List ℕ) (tfThreshold : Int32) : List ℕ :=
  table ++ (List.range (vocab.stemsNo + 1)).filter (vocab.isTerm tfThreshold)

/-- The indices that a build uses lie in the containers it uses them in. -/
structure AccessesInRange (vocab : Vocabulary) (table : List ℕ)
    (articles : List ProcessedArticle) (tfThreshold : Int32) : Prop where
  /-- The counts that the filter loop reads. -/
  stemFreq : ∀ stemId ∈ List.range (vocab.stemsNo + 1), stemId < maxStemsNo
  /-- The counters of an article's stem ids. -/
  stem : ∀ article ∈ articles, ∀ stem ∈ article.stemIds, counterIdx stem < vocab.stemsNo
  /-- The counters that the rows read for each article. -/
  row : ∀ article ∈ articles, ∀ term ∈ rowTable vocab table tfThreshold, term < vocab.stemsNo

/-! ## What stops a build -/

theorem isSome_collectTerm (terms : List ℕ) (stemId : ℕ) :
    (collectTerm vocab tfThreshold terms stemId).isSome ↔
      (slot? (Int32.ofNat stemId)).isSome := by
  rw [collectTerm, Vocabulary.getStemFreq]
  cases slot? (Int32.ofNat stemId) with
  | none => simp
  | some slot => simp

/-- The filter loop stops at the end of the count array. -/
theorem isSome_run_collectTerm {table : List ℕ} :
    (run (collectTerm vocab tfThreshold) table (List.range (vocab.stemsNo + 1))).isSome ↔
      ∀ stemId ∈ List.range (vocab.stemsNo + 1), stemId < maxStemsNo := by
  apply (isSome_run_iff_of_forall isSome_collectTerm).trans
  constructor
  · intro hall stemId hmem
    by_contra hlarge
    have hend : maxStemsNo ∈ List.range (vocab.stemsNo + 1) :=
      List.mem_range.mpr ((not_lt.mp hlarge).trans_lt (List.mem_range.mp hmem))
    have hsome := hall maxStemsNo hend
    rw [slot?_ofNat_maxStemsNo] at hsome
    cases hsome
  · intro hall stemId hmem
    rw [slot?_ofNat (hall stemId hmem)]
    rfl

theorem isSome_countTerm {termsFreq : List Int32} {stem : StemId}
    (hlength : termsFreq.length = vocab.stemsNo) :
    (countTerm vocab.stemsNo termsFreq stem).isSome ↔ counterIdx stem < vocab.stemsNo := by
  unfold countTerm counterIdx
  by_cases hlt : stem.toInt64.toUInt64.toNat < vocab.stemsNo
  · simp [hlength, hlt, hlt.le]
  · simp [hlength, hlt]

/-- A column can be filled exactly if its counters exist and, where there are rows, the
article has tokens. -/
theorem isSome_fillColumn {terms : List ℕ} (mat : Mat ℚ) (entry : ProcessedArticle × ℕ) :
    (fillColumn vocab terms mat entry).isSome ↔
      (∀ stem ∈ entry.1.stemIds, counterIdx stem < vocab.stemsNo) ∧
        ∀ term ∈ terms, entry.1.tokensNo ≠ 0 ∧ term < vocab.stemsNo := by
  have hlength : ∀ {stems : List StemId} {termsFreq : List Int32},
      run (countTerm vocab.stemsNo) (List.replicate vocab.stemsNo 0) stems = some termsFreq →
      termsFreq.length = vocab.stemsNo := by
    intro stems termsFreq hrun
    apply run_preserves (P := fun counters => counters.length = vocab.stemsNo) hrun
    · exact List.length_replicate
    · exact fun _ _ _ hlength hstep => (length_of_countTerm hstep).trans hlength
  have hcount : (run (countTerm vocab.stemsNo) (List.replicate vocab.stemsNo 0)
      entry.1.stemIds).isSome ↔ ∀ stem ∈ entry.1.stemIds, counterIdx stem < vocab.stemsNo :=
    isSome_run_iff (P := fun counters : List Int32 => counters.length = vocab.stemsNo)
      List.length_replicate (fun _ _ _ hlength hstep => (length_of_countTerm hstep).trans hlength)
      fun _ _ hlength => isSome_countTerm hlength
  have hfill : ∀ termsFreq : List Int32, termsFreq.length = vocab.stemsNo →
      ((run (fillCell termsFreq entry.1.tokensNo entry.2) mat terms.zipIdx).isSome ↔
        ∀ term ∈ terms, entry.1.tokensNo ≠ 0 ∧ term < vocab.stemsNo) := by
    intro termsFreq htermsFreq
    rw [← htermsFreq]
    have hcell : ∀ filled cell, (fillCell termsFreq entry.1.tokensNo entry.2 filled cell).isSome ↔
        entry.1.tokensNo ≠ 0 ∧ cell.1 < termsFreq.length := fun _ _ => isSome_fillCell
    apply (isSome_run_iff_of_forall hcell).trans
    exact forall_mem_zipIdx_fst (p := fun term => entry.1.tokensNo ≠ 0 ∧ term < termsFreq.length)
  rw [← hcount, fillColumn]
  cases htermsFreq : run (countTerm vocab.stemsNo) (List.replicate vocab.stemsNo 0)
      entry.1.stemIds with
  | none => simp
  | some termsFreq =>
      rw [Option.bind_eq_bind, Option.bind_some, hfill termsFreq (hlength htermsFreq)]
      simp

theorem isSome_run_fillColumn {terms : List ℕ} {articles : List ProcessedArticle} {mat : Mat ℚ} :
    (run (fillColumn vocab terms) mat articles.zipIdx).isSome ↔
      ∀ article ∈ articles, (∀ stem ∈ article.stemIds, counterIdx stem < vocab.stemsNo) ∧
        ∀ term ∈ terms, article.tokensNo ≠ 0 ∧ term < vocab.stemsNo := by
  apply (isSome_run_iff_of_forall isSome_fillColumn).trans
  exact forall_mem_zipIdx_fst (p := fun article : ProcessedArticle =>
    (∀ stem ∈ article.stemIds, counterIdx stem < vocab.stemsNo) ∧
      ∀ term ∈ terms, article.tokensNo ≠ 0 ∧ term < vocab.stemsNo)

/-- **When a build completes.** Exactly if there are articles, its indices are in range
and, where it has rows, every article has tokens. -/
theorem isSome_buildTermDocMatrix_iff {before : LSA R} {articles : List ProcessedArticle} :
    (before.buildTermDocMatrix vocab articles tfThreshold).isSome ↔
      articles ≠ [] ∧
        AccessesInRange vocab before.termsMatToVocab articles tfThreshold ∧
        ∀ article ∈ articles,
          rowTable vocab before.termsMatToVocab tfThreshold ≠ [] → article.tokensNo ≠ 0 := by
  constructor
  · intro hsome
    obtain ⟨after, hafter⟩ := Option.isSome_iff_exists.mp hsome
    unfold buildTermDocMatrix at hafter
    split at hafter
    · cases hafter
    · rename_i hnonempty
      obtain ⟨terms, hterms, hafter⟩ := Option.bind_eq_some_iff.mp hafter
      obtain ⟨mat, hmat, -⟩ := Option.bind_eq_some_iff.mp hafter
      obtain rfl : terms = rowTable vocab before.termsMatToVocab tfThreshold :=
        run_collectTerm hterms
      have hfilled := isSome_run_fillColumn.mp (Option.isSome_of_eq_some hmat)
      refine ⟨hnonempty, ⟨?_, ?_, ?_⟩, ?_⟩
      · exact isSome_run_collectTerm.mp (Option.isSome_of_eq_some hterms)
      · exact fun article harticle => (hfilled article harticle).1
      · exact fun article harticle term hterm => ((hfilled article harticle).2 term hterm).2
      · intro article harticle hrows
        obtain ⟨term, hterm⟩ := List.exists_mem_of_ne_nil _ hrows
        exact ((hfilled article harticle).2 term hterm).1
  · rintro ⟨hnonempty, hrange, htokens⟩
    obtain ⟨terms, hterms⟩ :=
      Option.isSome_iff_exists.mp (isSome_run_collectTerm.mpr hrange.stemFreq)
    obtain rfl : terms = rowTable vocab before.termsMatToVocab tfThreshold :=
      run_collectTerm hterms
    have hfilled : ∀ article ∈ articles,
        (∀ stem ∈ article.stemIds, counterIdx stem < vocab.stemsNo) ∧
          ∀ term ∈ rowTable vocab before.termsMatToVocab tfThreshold,
            article.tokensNo ≠ 0 ∧ term < vocab.stemsNo := by
      intro article harticle
      refine ⟨hrange.stem article harticle, fun term hterm => ⟨?_, ?_⟩⟩
      · exact htokens article harticle (List.ne_nil_of_mem hterm)
      · exact hrange.row article harticle term hterm
    obtain ⟨mat, hmat⟩ := Option.isSome_iff_exists.mp (isSome_run_fillColumn.mpr hfilled)
    rw [buildTermDocMatrix, if_neg hnonempty, hterms, Option.bind_eq_bind, Option.bind_some, hmat]
    rfl

end LSA

/-! ## Counts and ids from processing -/

/-- A call that changes the stems or the counts of a vocabulary, with the memory that the
signature of the processed article is declared over. -/
inductive VocabularyCall where
  | addStems (stems : SortedSet Bytes)
  | processTokens (article : Article) (uninitialised : Signature)

/-- The effect of a call on a vocabulary and on the list of processed articles. -/
def VocabularyCall.apply (text : TextOps) (collect : Bool)
    (state : Vocabulary × List ProcessedArticle) :
    VocabularyCall → Option (Vocabulary × List ProcessedArticle)
  | addStems stems => some (state.1.addStems stems, state.2)
  | processTokens article uninitialised =>
      collectProcessed text collect state (article, uninitialised)

/-- Only ids below the number of stems are counted and recorded. -/
structure CountsBelow (state : Vocabulary × List ProcessedArticle) : Prop where
  stemsFreq : ∀ slot : Fin maxStemsNo, state.1.stemsNo ≤ slot.val → state.1.stemsFreq slot = 0
  stemIds : ∀ article ∈ state.2, ∀ stem ∈ article.stemIds, counterIdx stem < state.1.stemsNo

variable {text : TextOps} {collect : Bool} {vocab : Vocabulary}

/-- In a vocabulary that fits the arrays, recorded ids are positions of stems. -/
theorem counterIdx_lt_stemsNo {tokens : List Bytes} {id : StemId}
    (hfits : vocab.stemsNo ≤ maxStemsNo) (hid : id ∈ vocab.recordedIds text tokens) :
    counterIdx id < vocab.stemsNo := by
  obtain ⟨position, hposition, rfl⟩ := Vocabulary.exists_position_of_recorded hid
  rwa [counterIdx_ofNat (hposition.trans_le hfits)]

/-- Calls never take stems away. -/
theorem VocabularyCall.stemsNo_le {state next : Vocabulary × List ProcessedArticle}
    {call : VocabularyCall} (h : call.apply text collect state = some next) :
    state.1.stemsNo ≤ next.1.stemsNo := by
  cases call with
  | addStems stems =>
      cases h
      exact SortedSet.size_le_size_union _ _
  | processTokens article uninitialised =>
      obtain ⟨⟨after, procArticle, shingles⟩, hprocess, hnext⟩ := Option.bind_eq_some_iff.mp h
      cases hnext
      exact (congrArg SortedSet.size (processTokens_spec hprocess).1.stems).ge

/-- A call keeps what is counted and recorded below the number of stems. -/
theorem CountsBelow.step {state next : Vocabulary × List ProcessedArticle} {call : VocabularyCall}
    (h : CountsBelow state) (hcall : call.apply text collect state = some next)
    (hfits : next.1.stemsNo ≤ maxStemsNo) : CountsBelow next := by
  have hgrows := VocabularyCall.stemsNo_le hcall
  cases call with
  | addStems stems =>
      cases hcall
      constructor
      · exact fun slot hslot => h.stemsFreq slot (hgrows.trans hslot)
      · exact fun article harticle stem hstem =>
          (h.stemIds article harticle stem hstem).trans_le hgrows
  | processTokens article uninitialised =>
      obtain ⟨⟨after, procArticle, shingles⟩, hprocess, hnext⟩ := Option.bind_eq_some_iff.mp hcall
      obtain ⟨hspec, idsTokensMap, hproc⟩ := processTokens_spec hprocess
      cases hnext
      have hno : after.stemsNo = state.1.stemsNo := congrArg SortedSet.size hspec.stems
      have hbefore : state.1.stemsNo ≤ maxStemsNo := hgrows.trans hfits
      constructor
      · intro slot hslot
        rw [hspec.stemsFreq, if_neg, h.stemsFreq slot (hno ▸ hslot)]
        intro hrecorded
        have hlt := counterIdx_lt_stemsNo hbefore hrecorded
        rw [counterIdx_ofNat slot.isLt] at hlt
        exact absurd (hno ▸ hslot) (not_le.mpr hlt)
      · intro other hother stem hstem
        show counterIdx stem < after.stemsNo
        rw [hno]
        rcases List.mem_append.mp hother with hother | hother
        · exact h.stemIds other hother stem hstem
        · obtain rfl := List.mem_singleton.mp hother
          rw [hproc] at hstem
          exact counterIdx_lt_stemsNo hbefore ((List.mem_append.mp hstem).resolve_left
            List.not_mem_nil)

/-- From zero counts, after any calls that leave a vocabulary that fits the arrays. -/
theorem countsBelow_of_run {state : Vocabulary × List ProcessedArticle}
    {calls : List VocabularyCall} (hcounts : ∀ slot, vocab.stemsFreq slot = 0)
    (hrun : run (VocabularyCall.apply text collect) (vocab, []) calls = some state)
    (hfits : state.1.stemsNo ≤ maxStemsNo) : CountsBelow state := by
  apply run_preserves (P := fun reached : Vocabulary × List ProcessedArticle =>
    reached.1.stemsNo ≤ maxStemsNo → CountsBelow reached) hrun _ _ hfits
  · intro _
    exact ⟨fun slot _ => hcounts slot, fun _ harticle => absurd harticle List.not_mem_nil⟩
  · intro mid call next hmid hcall hnextFits
    exact (hmid ((VocabularyCall.stemsNo_le hcall).trans hnextFits)).step hcall hnextFits

/-- The id after the last stem is counted nowhere, so only a negative threshold makes it
a row. -/
theorem CountsBelow.isTerm_stemsNo_iff {state : Vocabulary × List ProcessedArticle}
    (h : CountsBelow state) (hroom : state.1.stemsNo < maxStemsNo) {tfThreshold : Int32} :
    state.1.isTerm tfThreshold state.1.stemsNo ↔ tfThreshold < 0 := by
  rw [Vocabulary.isTerm, Vocabulary.getStemFreq, slot?_ofNat hroom]
  simp only [Option.bind_eq_bind, Option.bind_some, Option.any_some,
    h.stemsFreq ⟨state.1.stemsNo, hroom⟩ le_rfl, decide_eq_true_eq]
  exact and_iff_left (by decide)

/-- Where only ids below the number of stems are counted and recorded, a build stays in
range exactly if there is a count left after them and the threshold is not
negative. -/
theorem CountsBelow.build_in_range_iff {state : Vocabulary × List ProcessedArticle}
    (h : CountsBelow state) {articles : List ProcessedArticle} {table : List ℕ}
    {tfThreshold : Int32} (hnonempty : articles ≠ [])
    (harticles : ∀ article ∈ articles, article ∈ state.2)
    (htable : ∀ term ∈ table, term < state.1.stemsNo) :
    LSA.AccessesInRange state.1 table articles tfThreshold ↔
      state.1.stemsNo < maxStemsNo ∧ 0 ≤ tfThreshold := by
  have hlast : state.1.stemsNo ∈ List.range (state.1.stemsNo + 1) := List.self_mem_range_succ
  constructor
  · intro hrange
    have hroom := hrange.stemFreq state.1.stemsNo hlast
    refine ⟨hroom, ?_⟩
    by_contra hnegative
    -- Without counts, the id after the last stem is a row of the first article.
    obtain ⟨article, harticle⟩ := List.exists_mem_of_ne_nil articles hnonempty
    have hterm := (h.isTerm_stemsNo_iff hroom).mpr (not_le.mp hnegative)
    have hrow := hrange.row article harticle state.1.stemsNo
      (List.mem_append_right _ (List.mem_filter.mpr ⟨hlast, hterm⟩))
    exact lt_irrefl _ hrow
  · rintro ⟨hroom, hthreshold⟩
    refine ⟨?_, ?_, ?_⟩
    · exact fun stemId hmem => (Nat.lt_succ_iff.mp (List.mem_range.mp hmem)).trans_lt hroom
    · exact fun article harticle => h.stemIds article (harticles article harticle)
    · intro article _ term hrow
      rcases List.mem_append.mp hrow with hrow | hrow
      · exact htable term hrow
      · obtain ⟨hmem, hterm⟩ := List.mem_filter.mp hrow
        apply (Nat.lt_succ_iff.mp (List.mem_range.mp hmem)).lt_of_ne
        rintro rfl
        exact absurd ((h.isTerm_stemsNo_iff hroom).mp hterm) (not_lt.mpr hthreshold)

/-- **When a build stays in range.** From zero counts and any calls, for a table of rows
that are stems and for some of the articles processed on the way, exactly if the
vocabulary has fewer stems than the count array has counts and the threshold is
not negative. -/
theorem accessesInRange_iff {after : Vocabulary} {processed articles : List ProcessedArticle}
    {calls : List VocabularyCall} {table : List ℕ} {tfThreshold : Int32}
    (hcounts : ∀ slot, vocab.stemsFreq slot = 0)
    (hrun : run (VocabularyCall.apply text collect) (vocab, []) calls = some (after, processed))
    (hfits : after.stemsNo ≤ maxStemsNo) (hnonempty : articles ≠ [])
    (harticles : ∀ article ∈ articles, article ∈ processed)
    (htable : ∀ term ∈ table, term < after.stemsNo) :
    LSA.AccessesInRange after table articles tfThreshold ↔
      after.stemsNo < maxStemsNo ∧ 0 ≤ tfThreshold := by
  have hbelow := countsBelow_of_run hcounts hrun hfits
  exact hbelow.build_in_range_iff hnonempty harticles htable

/-- A batch is a run of calls that process its articles. -/
theorem run_collectProcessed_eq (vocab : Vocabulary) (entries : List (Article × Signature)) :
    run (collectProcessed text collect) (vocab, []) entries =
      run (VocabularyCall.apply text collect) (vocab, [])
        (entries.map fun entry => .processTokens entry.1 entry.2) := by
  rw [run_map_input]
  rfl

/-! ## A vocabulary as large as the count array -/

/-- A longer repetition of a byte sorts behind a shorter one. -/
theorem replicate_lt_replicate (byte : Fin 256) {first second : ℕ} (h : first < second) :
    List.replicate first byte < List.replicate second byte := by
  induction first generalizing second with
  | zero =>
      obtain ⟨rest, rfl⟩ := Nat.exists_eq_add_of_lt h
      exact List.nil_lt_cons _ _
  | succ first ih =>
      obtain ⟨rest, rfl⟩ := Nat.exists_eq_add_of_lt h
      exact List.cons_lt_cons_iff.mpr (Or.inr ⟨rfl, ih (by omega)⟩)

/-- As many stems as the count array has counts, each one byte longer than the one
before. -/
def everyCount : Vocabulary :=
  { Vocabulary.fresh fun _ => 0 with
    stems := {
      elems := (List.range maxStemsNo).map fun length => List.replicate length 0
      sorted := List.pairwise_map.mpr
        (List.pairwise_lt_range.imp fun h => replicate_lt_replicate 0 h) } }

theorem stemsNo_everyCount : everyCount.stemsNo = maxStemsNo := by
  rw [Vocabulary.stemsNo, SortedSet.size, everyCount, List.length_map, List.length_range]

/-- An article without words is processed. -/
theorem exists_run_processTokens (vocab : Vocabulary) :
    ∃ article, run (VocabularyCall.apply letterText true) (vocab, [])
      [.processTokens (letterArticle []) fun _ => 0] = some (vocab, [article]) :=
  ⟨_, rfl⟩

/-- The equivalence for a vocabulary with one stem and an article without words. -/
theorem accessesInRange_iff_oneStem :
    ∃ article, LSA.AccessesInRange oneStem [] [article] 3 ↔
      oneStem.stemsNo < maxStemsNo ∧ (0 : Int32) ≤ 3 := by
  obtain ⟨article, harticle⟩ := exists_run_processTokens oneStem
  exact ⟨article, accessesInRange_iff (fun _ => rfl) harticle (by decide)
    (List.cons_ne_nil _ _) (fun _ hmem => hmem) fun _ hmem => absurd hmem List.not_mem_nil⟩

/-- With as many stems as counts, the filter loop reads the count after the last one. -/
theorem count_read_past_end :
    ¬ ∀ (text : TextOps) (collect : Bool) (vocab after : Vocabulary)
      (processed articles : List ProcessedArticle) (calls : List VocabularyCall)
      (tfThreshold : Int32), (∀ slot, vocab.stemsFreq slot = 0) →
        run (VocabularyCall.apply text collect) (vocab, []) calls = some (after, processed) →
        after.stemsNo ≤ maxStemsNo → articles ≠ [] →
        (∀ article ∈ articles, article ∈ processed) →
        LSA.AccessesInRange after [] articles tfThreshold := by
  intro hall
  obtain ⟨article, harticle⟩ := exists_run_processTokens everyCount
  have hrange := hall _ _ _ _ _ _ _ 3 (fun _ => rfl) harticle stemsNo_everyCount.le
    (List.cons_ne_nil _ _) fun _ hmem => hmem
  have hlast : maxStemsNo < everyCount.stemsNo + 1 := by
    rw [stemsNo_everyCount]
    exact Nat.lt_succ_self maxStemsNo
  exact lt_irrefl _ (hrange.stemFreq maxStemsNo (List.mem_range.mpr hlast))

end Unbiased
