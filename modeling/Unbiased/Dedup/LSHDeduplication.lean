/-
# Locality-sensitive hashing of signatures

A signature is cut into bands of consecutive rows. Each band is hashed, and a
document is filed in every band under its band hash. The answer for a signature
is everything filed under one of its keys, together with its own id.

The loops of the engine are given as they are, with the row and band cursors
that are carried from one band to the next. `mem_processSignature` says what
they compute over a whole history of documents and calls.
-/

import Mathlib.Data.List.FinRange
import Unbiased.Common.Article
import Unbiased.Math.BucketTable
import Unbiased.Math.Execution

namespace Unbiased

open Unbiased.Math

/-- The number of bands. -/
abbrev bandsNo : ℕ := 20

/-- `boost::hash_combine` of a seed and an `int32_t`. -/
abbrev HashCombine := UInt64 → Int32 → UInt64

/-- The formula that the library's manual gives, for values that are their own hash. -/
def manualHashCombine : HashCombine := fun seed value =>
  seed ^^^ (value.toInt64.toUInt64 + 0x9e3779b9 + (seed <<< (6 : UInt64)) +
    (seed >>> (2 : UInt64)))

/-- A document id with its signature. -/
abbrev DocSignature := Bytes × Signature

/-- The row of a signature at an index; nothing beyond its end. -/
def Signature.row? (signature : Signature) (rowIdx : ℕ) : Option Int32 :=
  if h : rowIdx < signatureSize then some (signature ⟨rowIdx, h⟩) else none

structure LSHDeduplication where
  signatureSize : ℕ
  rowsNo : ℕ
  /-- One map for each band, from a band hash narrowed to `int32_t`. -/
  lshBuckets : BucketTable (Fin bandsNo) Int32 Bytes

namespace LSHDeduplication

/-- The two cursors that the band loops carry. -/
structure Cursor where
  bandRows : ℕ
  rowIdx : ℕ
  deriving DecidableEq

/-- Hash the rows of the next band and move the cursors past it. -/
def hashBand (hashCombine : HashCombine) (rowsNo : ℕ) (signature : Signature)
    (cursor : Cursor) : Option (Cursor × UInt64) := do
  let bandRows := cursor.bandRows + rowsNo
  let hashValue ← run (fun hashValue rowIdx => (signature.row? rowIdx).map (hashCombine hashValue))
    17 (List.range' cursor.rowIdx (bandRows - cursor.rowIdx))
  some (⟨bandRows, max cursor.rowIdx bandRows⟩, hashValue)

/-- What the band loop of `processSignature` carries. -/
structure BandLoop where
  cursor : Cursor
  duplicates : SortedSet Bytes
  bucketHashes : List (Fin bandsNo × UInt64)

/-- One band of `processSignature`: look the band hash up and keep it for later. -/
def processBand (hashCombine : HashCombine) (lsh : LSHDeduplication) (signature : Signature)
    (loop : BandLoop) (bandIdx : Fin bandsNo) : Option BandLoop := do
  let (cursor, hashValue) ← hashBand hashCombine lsh.rowsNo signature loop.cursor
  some {
    cursor := cursor
    duplicates :=
      match lsh.lshBuckets bandIdx (narrow hashValue) with
      | some bucket => loop.duplicates.union bucket
      | none => loop.duplicates
    bucketHashes := loop.bucketHashes ++ [(bandIdx, hashValue)] }

/-- The ids filed under a key of the signature, and the own id; then file the
document. -/
def processSignature (hashCombine : HashCombine) (lsh : LSHDeduplication)
    (docSignature : DocSignature) : Option (SortedSet Bytes × LSHDeduplication) := do
  let final ← run (processBand hashCombine lsh docSignature.2)
    ⟨⟨0, 0⟩, SortedSet.empty.insert docSignature.1, []⟩ (List.finRange bandsNo)
  some (final.duplicates, { lsh with
    lshBuckets := lsh.lshBuckets.insertAll
      (final.bucketHashes.map fun bucketHash => (bucketHash.1, narrow bucketHash.2))
      docSignature.1 })

/-- One band of `computeLshGroups`. -/
def groupBand (hashCombine : HashCombine) (rowsNo : ℕ) (doc : DocSignature)
    (state : Cursor × BucketTable (Fin bandsNo) Int32 Bytes) (bandIdx : Fin bandsNo) :
    Option (Cursor × BucketTable (Fin bandsNo) Int32 Bytes) := do
  let (cursor, hashValue) ← hashBand hashCombine rowsNo doc.2 state.1
  some (cursor, state.2.insert bandIdx (narrow hashValue) doc.1)

/-- File one stored document. -/
def groupDoc (hashCombine : HashCombine) (rowsNo : ℕ)
    (buckets : BucketTable (Fin bandsNo) Int32 Bytes) (doc : DocSignature) :
    Option (BucketTable (Fin bandsNo) Int32 Bytes) :=
  (run (groupBand hashCombine rowsNo doc) (⟨0, 0⟩, buckets) (List.finRange bandsNo)).map Prod.snd

/-- File the stored documents, after the assertion that there are more rows than
bands. -/
def computeLshGroups (hashCombine : HashCombine) (lsh : LSHDeduplication)
    (docsSignatures : List DocSignature) : Option LSHDeduplication :=
  if bandsNo < lsh.signatureSize then
    (run (groupDoc hashCombine lsh.rowsNo) lsh.lshBuckets docsSignatures).map
      fun lshBuckets => { lsh with lshBuckets := lshBuckets }
  else none

/-- The constructor. -/
def make (hashCombine : HashCombine) (signatureSize : ℕ) (docsSignatures : List DocSignature) :
    Option LSHDeduplication :=
  computeLshGroups hashCombine
    ⟨signatureSize, signatureSize / bandsNo, BucketTable.empty⟩ docsSignatures

end LSHDeduplication

/-! ## The server's use of it -/

/-- The dedup server's state, without its database connection. -/
structure ArticleDedup where
  lshDeduplication : LSHDeduplication

namespace ArticleDedup

/-- The constructor, from the signatures the database returned. -/
def make (hashCombine : HashCombine) (docsSignatures : List DocSignature) :
    Option ArticleDedup :=
  (LSHDeduplication.make hashCombine Unbiased.signatureSize docsSignatures).map ArticleDedup.mk

/-- Whether something other than the article itself was found. -/
def isDuplicate (hashCombine : HashCombine) (dedup : ArticleDedup) (idSign : DocSignature) :
    Option (Bool × ArticleDedup) := do
  let (duplicates, lsh) ← dedup.lshDeduplication.processSignature hashCombine idSign
  some (decide (1 < duplicates.size), ⟨lsh⟩)

end ArticleDedup

/-! ## Band keys -/

/-- The number of rows in a band of a full signature. -/
abbrev bandSize : ℕ := signatureSize / bandsNo

/-- The bands lie inside the signature. -/
theorem bandRow_lt (band : Fin bandsNo) (row : Fin bandSize) :
    bandSize * band.val + row.val < signatureSize := by
  have hband : band.val < 20 := band.isLt
  have hrow : row.val < 5 := row.isLt
  show 5 * band.val + row.val < 100
  omega

/-- A row of a band, as a row of the signature. -/
def bandRow (band : Fin bandsNo) (row : Fin bandSize) : Fin signatureSize :=
  ⟨bandSize * band.val + row.val, bandRow_lt band row⟩

/-- The hash of a band of a signature. -/
def bandHash (hashCombine : HashCombine) (band : Fin bandsNo) (signature : Signature) : UInt64 :=
  (List.finRange bandSize).foldl
    (fun hashValue row => hashCombine hashValue (signature (bandRow band row))) 17

/-- The key of a signature in a band: the band hash as the buckets store it. -/
def bandKey (hashCombine : HashCombine) (band : Fin bandsNo) (signature : Signature) : Int32 :=
  narrow (bandHash hashCombine band signature)

/-- Two signatures have the same key in some band. -/
abbrev ShareBand (hashCombine : HashCombine) (first second : Signature) : Prop :=
  BucketTable.Collide (bandKey hashCombine) first second

/-- The next band of a list that runs through all bands in order. -/
theorem val_eq_length_of_prefix {n : ℕ} {hist : List (Fin n)} {band : Fin n}
    (h : hist ++ [band] <+: List.finRange n) : band.val = hist.length := by
  obtain ⟨rest, hrest⟩ := h
  have hget : (List.finRange n)[hist.length]? = some band := by
    rw [← hrest]
    simp
  obtain ⟨hlt, heq⟩ := List.getElem?_eq_some_iff.mp hget
  rw [← heq, List.getElem_finRange]
  rfl

namespace LSHDeduplication

variable {hashCombine : HashCombine}

/-- The cursors in front of a band. -/
def cursorAt (bandIdx : ℕ) : Cursor := ⟨bandSize * bandIdx, bandSize * bandIdx⟩

/-- From the cursors in front of a band, its hash is computed and the cursors
move in front of the next one. -/
theorem hashBand_cursorAt (signature : Signature) (band : Fin bandsNo) :
    hashBand hashCombine bandSize signature (cursorAt band) =
      some (cursorAt (band + 1), bandHash hashCombine band signature) := by
  have hrow : ∀ (row : ℕ) (h : row < bandSize),
      signature.row? (bandSize * band + row) = some (signature (bandRow band ⟨row, h⟩)) :=
    fun row h => dif_pos (bandRow_lt band ⟨row, h⟩)
  have hrange : List.range' (bandSize * band.val) bandSize =
      (List.finRange bandSize).map fun row => bandSize * band.val + row.val := by
    rfl
  have hhash : run (fun hashValue rowIdx =>
        (signature.row? rowIdx).map (hashCombine hashValue)) 17
      (List.range' (bandSize * band.val) bandSize) =
        some (bandHash hashCombine band signature) := by
    rw [hrange, bandHash]
    generalize (17 : UInt64) = hashValue
    induction List.finRange bandSize generalizing hashValue with
    | nil => rfl
    | cons row rows ih =>
        rw [List.map_cons, run_cons, hrow row.val row.isLt, Option.map_some, Option.bind_some,
          List.foldl_cons]
        exact ih _
  have hcursor : max (bandSize * band.val) (bandSize * band.val + bandSize) =
      bandSize * (band.val + 1) := by
    rw [Nat.mul_succ]
    exact max_eq_right (Nat.le_add_right _ _)
  simp only [hashBand, cursorAt, Nat.add_sub_cancel_left, hhash, hcursor, Option.bind_eq_bind,
    Option.bind_some]
  rfl

/-- The keys a document is filed under, band by band. -/
def keysOf (hashCombine : HashCombine) (signature : Signature) : List (Fin bandsNo × Int32) :=
  (List.finRange bandsNo).map fun band => (band, bandKey hashCombine band signature)

theorem mem_keysOf {signature : Signature} {band : Fin bandsNo} {key : Int32} :
    (band, key) ∈ keysOf hashCombine signature ↔ bandKey hashCombine band signature = key := by
  simp [keysOf]

/-- The loop of `groupDoc` after some bands. -/
structure GroupInvariant (hashCombine : HashCombine)
    (buckets : BucketTable (Fin bandsNo) Int32 Bytes) (doc : DocSignature)
    (bands : List (Fin bandsNo)) (state : Cursor × BucketTable (Fin bandsNo) Int32 Bytes) :
    Prop where
  cursor : state.1 = cursorAt bands.length
  buckets : state.2 = buckets.insertAll
    (bands.map fun band => (band, bandKey hashCombine band doc.2)) doc.1

/-- Filing a stored document always succeeds and uses all its keys. -/
theorem groupDoc_eq (buckets : BucketTable (Fin bandsNo) Int32 Bytes) (doc : DocSignature) :
    groupDoc hashCombine bandSize buckets doc =
      some (buckets.insertAll (keysOf hashCombine doc.2) doc.1) := by
  have hloop : ∃ final, run (groupBand hashCombine bandSize doc) (⟨0, 0⟩, buckets)
      (List.finRange bandsNo) = some final ∧
        GroupInvariant hashCombine buckets doc (List.finRange bandsNo) final := by
    apply exists_run
    · exact ⟨rfl, rfl⟩
    · intro hist band state hpre hstate
      have hlength := val_eq_length_of_prefix hpre
      rw [groupBand, hstate.cursor, hstate.buckets, ← hlength, hashBand_cursorAt]
      refine ⟨_, rfl, ?_, ?_⟩
      · rw [List.length_append, ← hlength]
        rfl
      · rw [List.map_append, List.map_singleton, BucketTable.insertAll_concat]
        rfl
  obtain ⟨final, hrun, hfinal⟩ := hloop
  rw [groupDoc, hrun, Option.map_some, hfinal.buckets]
  rfl

/-- What a full-size server knows: the documents filed so far. -/
structure Knows (hashCombine : HashCombine) (docs : List DocSignature)
    (lsh : LSHDeduplication) : Prop where
  signatureSize_eq : lsh.signatureSize = Unbiased.signatureSize
  rowsNo_eq : lsh.rowsNo = bandSize
  holds : BucketTable.Holds (bandKey hashCombine) docs lsh.lshBuckets

/-- The constructor files the stored documents. -/
theorem make_knows (hashCombine : HashCombine) (docs : List DocSignature) :
    ∃ lsh, make hashCombine Unbiased.signatureSize docs = some lsh ∧
      Knows hashCombine docs lsh := by
  have hloop : ∃ table, run (groupDoc hashCombine bandSize) BucketTable.empty docs = some table ∧
      BucketTable.Holds (bandKey hashCombine) docs table := by
    apply exists_run
    · exact BucketTable.Holds.empty
    · intro hist doc table _ hholds
      exact ⟨_, groupDoc_eq table doc, hholds.insertAll fun _ _ => mem_keysOf⟩
  obtain ⟨table, hrun, hholds⟩ := hloop
  refine ⟨⟨Unbiased.signatureSize, bandSize, table⟩, ?_, rfl, rfl, hholds⟩
  rw [make, computeLshGroups, if_pos (by decide), hrun]
  rfl

/-- The loop of `processSignature` after some bands: the ids found are those
filed under a key of these bands. -/
structure BandInvariant (hashCombine : HashCombine) (lsh : LSHDeduplication)
    (docSignature : DocSignature) (bands : List (Fin bandsNo)) (loop : BandLoop) : Prop where
  cursor : loop.cursor = cursorAt bands.length
  duplicates : ∀ id, id ∈ loop.duplicates ↔ id = docSignature.1 ∨ ∃ band ∈ bands,
    id ∈ lsh.lshBuckets.bucket band (bandKey hashCombine band docSignature.2)
  bucketHashes : loop.bucketHashes =
    bands.map fun band => (band, bandHash hashCombine band docSignature.2)

theorem BandInvariant.step {lsh : LSHDeduplication} {docSignature : DocSignature}
    {hist : List (Fin bandsNo)} {band : Fin bandsNo} {loop : BandLoop}
    (h : BandInvariant hashCombine lsh docSignature hist loop) (hrows : lsh.rowsNo = bandSize)
    (hpre : hist ++ [band] <+: List.finRange bandsNo) :
    ∃ next, processBand hashCombine lsh docSignature.2 loop band = some next ∧
      BandInvariant hashCombine lsh docSignature (hist ++ [band]) next := by
  have hlength := val_eq_length_of_prefix hpre
  rw [processBand, h.cursor, ← hlength, hrows, hashBand_cursorAt]
  refine ⟨_, rfl, ?_, ?_, ?_⟩
  · rw [List.length_append, ← hlength]
    rfl
  · intro id
    simp only [List.mem_append, List.mem_singleton, or_and_right, exists_or, exists_eq_left]
    rw [← or_assoc, ← h.duplicates, BucketTable.bucket]
    show id ∈ (match lsh.lshBuckets band (bandKey hashCombine band docSignature.2) with
      | some bucket => loop.duplicates.union bucket
      | none => loop.duplicates) ↔ _
    cases lsh.lshBuckets band (bandKey hashCombine band docSignature.2) with
    | none => simp
    | some bucket => simp
  · rw [h.bucketHashes, List.map_append, List.map_singleton]

/-- The band loop of `processSignature`, up to the insertions. -/
def lookup (hashCombine : HashCombine) (lsh : LSHDeduplication) (docSignature : DocSignature) :
    Option BandLoop :=
  run (processBand hashCombine lsh docSignature.2)
    ⟨⟨0, 0⟩, SortedSet.empty.insert docSignature.1, []⟩ (List.finRange bandsNo)

/-- What is looked up on a full-size server: the ids filed under a key of the
signature, and the keys. -/
theorem exists_lookup {lsh : LSHDeduplication} (hrows : lsh.rowsNo = bandSize)
    (docSignature : DocSignature) :
    ∃ loop, lsh.lookup hashCombine docSignature = some loop ∧
      (∀ id, id ∈ loop.duplicates ↔ id = docSignature.1 ∨ ∃ band,
        id ∈ lsh.lshBuckets.bucket band (bandKey hashCombine band docSignature.2)) ∧
      (loop.bucketHashes.map fun bucketHash => (bucketHash.1, narrow bucketHash.2)) =
        keysOf hashCombine docSignature.2 := by
  have hloop : ∃ loop, lsh.lookup hashCombine docSignature = some loop ∧
      BandInvariant hashCombine lsh docSignature (List.finRange bandsNo) loop := by
    apply exists_run
    · exact ⟨rfl, by simp, rfl⟩
    · exact fun _ _ _ hpre hinv => hinv.step hrows hpre
  obtain ⟨loop, hrun, hfinal⟩ := hloop
  refine ⟨loop, hrun, ?_, ?_⟩
  · intro id
    rw [hfinal.duplicates]
    simp
  · rw [hfinal.bucketHashes, List.map_map]
    rfl

/-- The answer to a call, and what the server knows after it. -/
theorem Knows.processSignature {docs : List DocSignature} {lsh : LSHDeduplication}
    (h : Knows hashCombine docs lsh) (docSignature : DocSignature) :
    ∃ duplicates next, lsh.processSignature hashCombine docSignature = some (duplicates, next) ∧
      (∀ id, id ∈ duplicates ↔ id = docSignature.1 ∨
        ∃ signature, (id, signature) ∈ docs ∧ ShareBand hashCombine docSignature.2 signature) ∧
      Knows hashCombine (docs ++ [docSignature]) next := by
  obtain ⟨loop, hrun, hduplicates, hkeys⟩ := exists_lookup h.rowsNo_eq docSignature
  have hanswer : lsh.processSignature hashCombine docSignature =
      some (loop.duplicates, { lsh with
        lshBuckets := lsh.lshBuckets.insertAll (keysOf hashCombine docSignature.2)
          docSignature.1 }) := by
    rw [lookup] at hrun
    rw [LSHDeduplication.processSignature, hrun, ← hkeys]
    rfl
  refine ⟨_, _, hanswer, ?_, h.signatureSize_eq, h.rowsNo_eq, ?_⟩
  · intro id
    rw [hduplicates, ← h.holds.exists_mem_bucket]
  · exact h.holds.insertAll fun _ _ => mem_keysOf

/-- The server after a call, whose answer is dropped. -/
def call (hashCombine : HashCombine) (lsh : LSHDeduplication) (docSignature : DocSignature) :
    Option LSHDeduplication :=
  (lsh.processSignature hashCombine docSignature).map Prod.snd

/-- Calls never fail, and the server remembers their documents. -/
theorem Knows.calls {docs : List DocSignature} {lsh : LSHDeduplication}
    (h : Knows hashCombine docs lsh) (calls : List DocSignature) :
    ∃ next, run (call hashCombine) lsh calls = some next ∧
      Knows hashCombine (docs ++ calls) next := by
  apply exists_run (P := fun hist next => Knows hashCombine (docs ++ hist) next)
  · rwa [List.append_nil]
  · intro hist docSignature current _ hcurrent
    obtain ⟨duplicates, next, hanswer, -, hnext⟩ := hcurrent.processSignature docSignature
    rw [List.append_assoc] at hnext
    exact ⟨next, by rw [call, hanswer, Option.map_some], hnext⟩

end LSHDeduplication

/-! ## Verdicts -/

/-- Some document with another id shares a band with the signature. -/
def Duplicated (hashCombine : HashCombine) (docs : List DocSignature) (idSign : DocSignature) :
    Prop :=
  ∃ doc ∈ docs, doc.1 ≠ idSign.1 ∧ ShareBand hashCombine idSign.2 doc.2

instance (hashCombine : HashCombine) (first second : Signature) :
    Decidable (ShareBand hashCombine first second) :=
  inferInstanceAs (Decidable (∃ _ : Fin bandsNo, _ = _))

instance (hashCombine : HashCombine) (docs : List DocSignature) (idSign : DocSignature) :
    Decidable (Duplicated hashCombine docs idSign) :=
  inferInstanceAs (Decidable (∃ _ ∈ docs, _))

/-- The constructor succeeds, and the server knows the documents it was made from. -/
theorem ArticleDedup.exists_make (hashCombine : HashCombine) (docs : List DocSignature) :
    ∃ dedup, ArticleDedup.make hashCombine docs = some dedup ∧
      LSHDeduplication.Knows hashCombine docs dedup.lshDeduplication := by
  obtain ⟨lsh, hmake, hknows⟩ := LSHDeduplication.make_knows hashCombine docs
  exact ⟨⟨lsh⟩, by rw [ArticleDedup.make, hmake, Option.map_some], hknows⟩

theorem ArticleDedup.knows_of_make {hashCombine : HashCombine} {docs : List DocSignature}
    {dedup : ArticleDedup} (hmake : ArticleDedup.make hashCombine docs = some dedup) :
    LSHDeduplication.Knows hashCombine docs dedup.lshDeduplication := by
  obtain ⟨made, hmade, hknows⟩ := ArticleDedup.exists_make hashCombine docs
  rw [hmake] at hmade
  cases hmade
  exact hknows

/-- The verdict of a server is about the documents it knows. -/
theorem LSHDeduplication.Knows.isDuplicate {hashCombine : HashCombine}
    {docs : List DocSignature} {lsh : LSHDeduplication} (h : Knows hashCombine docs lsh)
    (idSign : DocSignature) :
    ∃ next, (ArticleDedup.mk lsh).isDuplicate hashCombine idSign =
        some (decide (Duplicated hashCombine docs idSign), ⟨next⟩) ∧
      Knows hashCombine (docs ++ [idSign]) next := by
  obtain ⟨duplicates, next, hanswer, hmem, hnext⟩ := h.processSignature idSign
  have hself : idSign.1 ∈ duplicates := (hmem idSign.1).mpr (Or.inl rfl)
  have hverdict : 1 < duplicates.size ↔ Duplicated hashCombine docs idSign := by
    rw [SortedSet.one_lt_size_iff hself]
    refine ⟨?_, ?_⟩
    · rintro ⟨id, hid, hne⟩
      obtain ⟨signature, hdoc, hshare⟩ := ((hmem id).mp hid).resolve_left hne
      exact ⟨(id, signature), hdoc, hne, hshare⟩
    · rintro ⟨doc, hdoc, hne, hshare⟩
      exact ⟨doc.1, (hmem doc.1).mpr (Or.inr ⟨doc.2, hdoc, hshare⟩), hne⟩
  refine ⟨next, ?_, hnext⟩
  rw [ArticleDedup.isDuplicate, hanswer, ← decide_eq_decide.mpr hverdict]
  rfl

/-- The verdict that is given, and what is known after it. -/
theorem LSHDeduplication.Knows.of_isDuplicate {hashCombine : HashCombine}
    {docs : List DocSignature} {dedup next : ArticleDedup}
    (h : Knows hashCombine docs dedup.lshDeduplication) {idSign : DocSignature} {res : Bool}
    (hres : dedup.isDuplicate hashCombine idSign = some (res, next)) :
    res = decide (Duplicated hashCombine docs idSign) ∧
      Knows hashCombine (docs ++ [idSign]) next.lshDeduplication := by
  obtain ⟨lsh, hverdict, hknows⟩ := h.isDuplicate idSign
  cases hverdict.symm.trans hres
  exact ⟨rfl, hknows⟩

/-- **Exact meaning of an answer.** After any stored documents and any calls, the
answer to a call is its own id together with the ids of all earlier documents
that share a band key with it, and it is a duplicate exactly if one of these
has another id. -/
theorem mem_processSignature (hashCombine : HashCombine) (docs calls : List DocSignature)
    (docSignature : DocSignature) :
    ∃ lsh duplicates next verdict,
      (LSHDeduplication.make hashCombine signatureSize docs).bind
        (fun lsh => run (LSHDeduplication.call hashCombine) lsh calls) = some lsh ∧
      lsh.processSignature hashCombine docSignature = some (duplicates, next) ∧
      (∀ id, id ∈ duplicates ↔ id = docSignature.1 ∨
        ∃ signature, (id, signature) ∈ docs ++ calls ∧
          ∃ band, bandKey hashCombine band docSignature.2 = bandKey hashCombine band signature) ∧
      (ArticleDedup.mk lsh).isDuplicate hashCombine docSignature = some (verdict, ⟨next⟩) ∧
      (verdict = true ↔ ∃ id, id ≠ docSignature.1 ∧
        ∃ signature, (id, signature) ∈ docs ++ calls ∧
          ∃ band, bandKey hashCombine band docSignature.2 =
            bandKey hashCombine band signature) := by
  obtain ⟨initial, hmake, hinitial⟩ := LSHDeduplication.make_knows hashCombine docs
  obtain ⟨lsh, hcalls, hlsh⟩ := hinitial.calls calls
  obtain ⟨duplicates, next, hanswer, hmem, -⟩ := hlsh.processSignature docSignature
  obtain ⟨next', hverdict, -⟩ := hlsh.isDuplicate docSignature
  obtain rfl : next' = next := by
    rw [ArticleDedup.isDuplicate, hanswer] at hverdict
    have hstate := congrArg Prod.snd (Option.some.inj hverdict)
    exact (congrArg ArticleDedup.lshDeduplication hstate).symm
  refine ⟨lsh, duplicates, next', _, ?_, hanswer, hmem, hverdict, ?_⟩
  · rw [hmake, Option.bind_some, hcalls]
  · rw [decide_eq_true_iff]
    refine ⟨?_, ?_⟩
    · rintro ⟨doc, hdoc, hne, hshare⟩
      exact ⟨doc.1, hne, doc.2, hdoc, hshare⟩
    · rintro ⟨id, hne, signature, hdoc, hshare⟩
      exact ⟨(id, signature), hdoc, hne, hshare⟩

end Unbiased
