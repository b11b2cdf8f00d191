/-
# Filing stored documents, and filing them one by one

The constructor files the stored documents with loops of its own, which insert
at once. A call collects the keys of all bands before it inserts. Both loops
compute the same keys, so a call does to the buckets what the constructor does
with a stored document. The buckets are then a function of the set of documents.

This holds for any signature size, also where the rows of the bands reach beyond
the signature and nothing can be filed.
-/

import Unbiased.Dedup.LSHDeduplication

namespace Unbiased

open Unbiased.Math

namespace LSHDeduplication

variable {hashCombine : HashCombine} {rowsNo : ℕ}

/-! ## The keys of a signature -/

/-- The part the two band loops have in common: the key of the next band. -/
def collectBand (hashCombine : HashCombine) (rowsNo : ℕ) (signature : Signature)
    (state : Cursor × List (Fin bandsNo × Int32)) (bandIdx : Fin bandsNo) :
    Option (Cursor × List (Fin bandsNo × Int32)) := do
  let (cursor, hashValue) ← hashBand hashCombine rowsNo signature state.1
  some (cursor, state.2 ++ [(bandIdx, narrow hashValue)])

/-- The keys a signature is filed under, if it has all the rows. -/
def keys? (hashCombine : HashCombine) (rowsNo : ℕ) (signature : Signature) :
    Option (List (Fin bandsNo × Int32)) :=
  (run (collectBand hashCombine rowsNo signature) (⟨0, 0⟩, []) (List.finRange bandsNo)).map
    Prod.snd

/-- A stored document is filed under its keys. -/
theorem groupDoc_eq_map_keys? (buckets : BucketTable (Fin bandsNo) Int32 Bytes)
    (doc : DocSignature) :
    groupDoc hashCombine rowsNo buckets doc =
      (keys? hashCombine rowsNo doc.2).map fun keys => buckets.insertAll keys doc.1 := by
  have hstep : ∀ (state : Cursor × List (Fin bandsNo × Int32)) (band : Fin bandsNo),
      groupBand hashCombine rowsNo doc (state.1, buckets.insertAll state.2 doc.1) band =
        (collectBand hashCombine rowsNo doc.2 state band).map
          fun state => (state.1, buckets.insertAll state.2 doc.1) := by
    intro state band
    rw [groupBand, collectBand]
    cases hashBand hashCombine rowsNo doc.2 state.1 with
    | none => rfl
    | some result => simp [BucketTable.insertAll_concat]
  have hrun := run_simulates hstep (⟨0, 0⟩, []) (List.finRange bandsNo)
  rw [groupDoc, keys?, Option.map_map]
  exact (congrArg (Option.map Prod.snd) hrun).trans (Option.map_map _ _ _)

/-- A call files the document under its keys. -/
theorem call_eq_map_keys? (lsh : LSHDeduplication) (doc : DocSignature) :
    call hashCombine lsh doc = (keys? hashCombine lsh.rowsNo doc.2).map fun keys =>
      { lsh with lshBuckets := lsh.lshBuckets.insertAll keys doc.1 } := by
  have hstep : ∀ (loop : BandLoop) (band : Fin bandsNo),
      collectBand hashCombine lsh.rowsNo doc.2 (loop.cursor, loop.bucketHashes.map
          fun bucketHash => (bucketHash.1, narrow bucketHash.2)) band =
        (processBand hashCombine lsh doc.2 loop band).map fun loop =>
          (loop.cursor, loop.bucketHashes.map
            fun bucketHash => (bucketHash.1, narrow bucketHash.2)) := by
    intro loop band
    rw [collectBand, processBand]
    cases hashBand hashCombine lsh.rowsNo doc.2 loop.cursor with
    | none => rfl
    | some result => simp
  have hrun := run_simulates hstep ⟨⟨0, 0⟩, SortedSet.empty.insert doc.1, []⟩
    (List.finRange bandsNo)
  rw [List.map_nil] at hrun
  rw [call, processSignature, keys?, hrun]
  cases run (processBand hashCombine lsh doc.2) ⟨⟨0, 0⟩, SortedSet.empty.insert doc.1, []⟩
      (List.finRange bandsNo) with
  | none => rfl
  | some final => rfl

/-- A call does to the buckets what the constructor does with a stored document. -/
theorem call_eq_groupDoc (lsh : LSHDeduplication) (doc : DocSignature) :
    call hashCombine lsh doc = (groupDoc hashCombine lsh.rowsNo lsh.lshBuckets doc).map
      fun lshBuckets => { lsh with lshBuckets := lshBuckets } := by
  rw [call_eq_map_keys?, groupDoc_eq_map_keys?, Option.map_map]
  rfl

/-! ## Building the buckets -/

/-- Calls on an empty server build what the constructor builds from the list of
their documents. -/
theorem run_call_make_nil (hashCombine : HashCombine) (signatureSize : ℕ)
    (calls : List DocSignature) :
    ((make hashCombine signatureSize []).bind fun lsh => run (call hashCombine) lsh calls) =
      make hashCombine signatureSize calls := by
  unfold make computeLshGroups
  split
  · exact run_simulates (f := fun lshBuckets => LSHDeduplication.mk signatureSize
      (signatureSize / bandsNo) lshBuckets) (fun _ doc => call_eq_groupDoc _ doc) _ calls
  · rfl

/-- What a completed build files: each document under the keys of its signature. -/
theorem files_of_run_groupDoc {docs : List DocSignature}
    {table : BucketTable (Fin bandsNo) Int32 Bytes}
    (h : run (groupDoc hashCombine rowsNo) BucketTable.empty docs = some table) :
    BucketTable.Files (fun signature band key =>
      ∃ keys, keys? hashCombine rowsNo signature = some keys ∧ (band, key) ∈ keys) docs table := by
  apply run_invariant (P := BucketTable.Files _) BucketTable.Files.empty _ h
  intro hist current doc next hcurrent hstep
  rw [groupDoc_eq_map_keys?] at hstep
  obtain ⟨keys, hkeys, rfl⟩ := Option.map_eq_some_iff.mp hstep
  apply hcurrent.insertAll
  simp [hkeys]

/-- A build completes if that of other documents does, among which its own are. -/
theorem exists_run_groupDoc {docs other : List DocSignature}
    {table : BucketTable (Fin bandsNo) Int32 Bytes}
    (h : run (groupDoc hashCombine rowsNo) BucketTable.empty docs = some table)
    (hother : ∀ doc ∈ other, doc ∈ docs) :
    ∃ table', run (groupDoc hashCombine rowsNo) BucketTable.empty other = some table' := by
  apply Option.isSome_iff_exists.mp
  apply isSome_run_of_forall_mem
  intro doc hdoc current
  obtain ⟨before, after, hstep⟩ := exists_step_of_mem h (hother doc hdoc)
  rw [groupDoc_eq_map_keys?] at hstep ⊢
  obtain ⟨keys, hkeys, -⟩ := Option.map_eq_some_iff.mp hstep
  rw [hkeys]
  rfl

/-- The build depends on the set of documents only. -/
theorem run_groupDoc_congr {docs other : List DocSignature}
    (hsame : ∀ doc, doc ∈ docs ↔ doc ∈ other) :
    run (groupDoc hashCombine rowsNo) BucketTable.empty docs =
      run (groupDoc hashCombine rowsNo) BucketTable.empty other := by
  cases hdocs : run (groupDoc hashCombine rowsNo) BucketTable.empty docs with
  | some table =>
      obtain ⟨table', htable'⟩ := exists_run_groupDoc hdocs fun doc => (hsame doc).mpr
      rw [htable', (files_of_run_groupDoc hdocs).unique (files_of_run_groupDoc htable') hsame]
  | none =>
      cases hother : run (groupDoc hashCombine rowsNo) BucketTable.empty other with
      | none => rfl
      | some table' =>
          obtain ⟨table, htable⟩ := exists_run_groupDoc hother fun doc => (hsame doc).mp
          rw [hdocs] at htable
          cases htable

end LSHDeduplication

/-- **Bulk build and incremental build.** The constructor builds from stored
documents what calls about them build on an empty server, in any order and with
any repetitions; with signatures of the size the server uses, it does build it. -/
theorem make_eq_run_call (hashCombine : HashCombine) (signatureSize : ℕ)
    (docs calls : List DocSignature) (hsame : ∀ doc, doc ∈ docs ↔ doc ∈ calls) :
    LSHDeduplication.make hashCombine signatureSize docs =
        ((LSHDeduplication.make hashCombine signatureSize []).bind fun lsh =>
          run (LSHDeduplication.call hashCombine) lsh calls) ∧
      (LSHDeduplication.make hashCombine Unbiased.signatureSize docs).isSome := by
  refine ⟨?_, ?_⟩
  · rw [LSHDeduplication.run_call_make_nil, LSHDeduplication.make, LSHDeduplication.make,
      LSHDeduplication.computeLshGroups, LSHDeduplication.computeLshGroups,
      LSHDeduplication.run_groupDoc_congr hsame]
  · obtain ⟨lsh, hlsh, -⟩ := LSHDeduplication.make_knows hashCombine docs
    exact Option.isSome_of_eq_some hlsh

/-- Two documents, filed at once and by three calls in the other order. -/
theorem make_eq_run_call_pair :
    LSHDeduplication.make manualHashCombine 100 [([97], fun _ => 1), ([98], fun _ => 2)] =
        ((LSHDeduplication.make manualHashCombine 100 []).bind fun lsh =>
          run (LSHDeduplication.call manualHashCombine) lsh
            [([98], fun _ => 2), ([97], fun _ => 1), ([98], fun _ => 2)]) ∧
      (LSHDeduplication.make manualHashCombine Unbiased.signatureSize
        [([97], fun _ => 1), ([98], fun _ => 2)]).isSome :=
  make_eq_run_call manualHashCombine 100 _ _ fun doc => by
    simp only [List.mem_cons, List.not_mem_nil, or_false]
    tauto

end Unbiased
