/-
# Tables of buckets

Items with a description are filed under one key in each of several bands. Two
items meet if their descriptions have the same key in some band. The table is
what an index stores, and `Holds` says which documents it stores. A table is
determined by its documents, so two ways of building one from the same
documents give the same table.
-/

import Mathlib.Data.Fintype.Card
import Mathlib.Logic.Function.Basic
import Mathlib.Tactic.Push
import Unbiased.Math.SortedSet

namespace Unbiased.Math

universe u v w x

/-- For each band, a map from keys to the items filed under them. A key that was
never used has no bucket. -/
abbrev BucketTable (β : Type u) (κ : Type v) (α : Type w) [LinearOrder α] :=
  β → κ → Option (SortedSet α)

namespace BucketTable

variable {β : Type u} {κ : Type v} {α : Type w} {σ : Type x}
variable [DecidableEq β] [DecidableEq κ] [LinearOrder α]

/-- The table without buckets. -/
def empty : BucketTable β κ α := fun _ _ => none

/-- The items filed under a key. -/
def bucket (table : BucketTable β κ α) (band : β) (key : κ) : SortedSet α :=
  (table band key).getD SortedSet.empty

/-- File an item under a key, making the bucket if there is none. -/
def insert (table : BucketTable β κ α) (band : β) (key : κ) (item : α) : BucketTable β κ α :=
  Function.update table band
    (Function.update (table band) key (some ((table.bucket band key).insert item)))

/-- The bucket an item is filed in is the only one that changes. -/
theorem insert_apply (table : BucketTable β κ α) (band other : β) (key otherKey : κ)
    (item : α) :
    table.insert band key item other otherKey =
      if other = band ∧ otherKey = key then some ((table.bucket band key).insert item)
      else table other otherKey := by
  unfold insert
  by_cases hband : other = band
  · subst hband
    by_cases hkey : otherKey = key
    · subst hkey
      simp
    · simp [hkey]
  · simp [hband]

theorem mem_bucket_insert {table : BucketTable β κ α} {band other : β} {key otherKey : κ}
    {item found : α} :
    found ∈ (table.insert band key item).bucket other otherKey ↔
      (found = item ∧ (other, otherKey) = (band, key)) ∨
        found ∈ table.bucket other otherKey := by
  rw [bucket, insert_apply, Prod.mk.injEq]
  by_cases hsame : other = band ∧ otherKey = key
  · obtain ⟨rfl, rfl⟩ := hsame
    simp
  · simp [hsame, bucket]

theorem isSome_insert {table : BucketTable β κ α} {band other : β} {key otherKey : κ}
    {item : α} :
    (table.insert band key item other otherKey).isSome ↔
      (other, otherKey) = (band, key) ∨ (table other otherKey).isSome := by
  rw [insert_apply, Prod.mk.injEq]
  by_cases hsame : other = band ∧ otherKey = key
  · simp [hsame]
  · simp [hsame]

/-- File an item under a list of keys. -/
def insertAll (table : BucketTable β κ α) (keys : List (β × κ)) (item : α) :
    BucketTable β κ α :=
  keys.foldl (fun table entry => table.insert entry.1 entry.2 item) table

theorem insertAll_cons (table : BucketTable β κ α) (entry : β × κ) (keys : List (β × κ))
    (item : α) :
    table.insertAll (entry :: keys) item =
      (table.insert entry.1 entry.2 item).insertAll keys item := rfl

theorem insertAll_concat (table : BucketTable β κ α) (entry : β × κ) (keys : List (β × κ))
    (item : α) :
    table.insertAll (keys ++ [entry]) item =
      (table.insertAll keys item).insert entry.1 entry.2 item := by
  simp [insertAll]

theorem mem_bucket_insertAll {table : BucketTable β κ α} {keys : List (β × κ)} {band : β}
    {key : κ} {item found : α} :
    found ∈ (table.insertAll keys item).bucket band key ↔
      (found = item ∧ (band, key) ∈ keys) ∨ found ∈ table.bucket band key := by
  induction keys generalizing table with
  | nil => simp [insertAll]
  | cons entry keys ih =>
      rw [insertAll_cons, ih, mem_bucket_insert, List.mem_cons]
      tauto

theorem isSome_insertAll {table : BucketTable β κ α} {keys : List (β × κ)} {band : β}
    {key : κ} {item : α} :
    (table.insertAll keys item band key).isSome ↔
      (band, key) ∈ keys ∨ (table band key).isSome := by
  induction keys generalizing table with
  | nil => simp [insertAll]
  | cons entry keys ih =>
      rw [insertAll_cons, ih, isSome_insert, List.mem_cons]
      tauto

/-! ## What a table stores -/

/-- The table files exactly the given documents, each under the keys that belong to
its description. -/
structure Files (filed : σ → β → κ → Prop) (docs : List (α × σ)) (table : BucketTable β κ α) :
    Prop where
  /-- A bucket lists the documents filed under its key. -/
  mem_bucket : ∀ band key item, item ∈ table.bucket band key ↔
    ∃ description, (item, description) ∈ docs ∧ filed description band key
  /-- A bucket exists exactly if some document is filed under its key. -/
  isSome : ∀ band key, (table band key).isSome ↔ ∃ doc ∈ docs, filed doc.2 band key

namespace Files

variable {filed : σ → β → κ → Prop} {docs : List (α × σ)} {table : BucketTable β κ α}

omit [DecidableEq β] [DecidableEq κ] in
theorem empty : Files filed [] (empty : BucketTable β κ α) where
  mem_bucket := by simp [BucketTable.bucket, BucketTable.empty]
  isSome := by simp [BucketTable.empty]

/-- Filing a document under its keys adds it to the documents. -/
theorem insertAll (h : Files filed docs table) {keys : List (β × κ)} {item : α}
    {description : σ} (hkeys : ∀ band key, (band, key) ∈ keys ↔ filed description band key) :
    Files filed (docs ++ [(item, description)]) (table.insertAll keys item) where
  mem_bucket band key found := by
    rw [mem_bucket_insertAll, hkeys, h.mem_bucket]
    simp only [List.mem_append, List.mem_singleton, Prod.mk.injEq, or_and_right, exists_or]
    rw [or_comm]
    apply or_congr Iff.rfl
    refine ⟨fun hnew => ⟨description, ⟨hnew.1, rfl⟩, hnew.2⟩, ?_⟩
    rintro ⟨_, ⟨hitem, rfl⟩, hkey⟩
    exact ⟨hitem, hkey⟩
  isSome band key := by
    rw [isSome_insertAll, hkeys, h.isSome]
    simp only [List.mem_append, List.mem_singleton, or_and_right, exists_or, exists_eq_left]
    exact or_comm

omit [DecidableEq β] [DecidableEq κ] in
/-- A table is determined by the documents it files. -/
theorem unique (h : Files filed docs table) {docs' : List (α × σ)}
    {table' : BucketTable β κ α} (h' : Files filed docs' table')
    (hdocs : ∀ doc, doc ∈ docs ↔ doc ∈ docs') : table = table' := by
  funext band key
  have hmem : ∀ item, item ∈ table.bucket band key ↔ item ∈ table'.bucket band key := by
    intro item
    simp only [h.mem_bucket, h'.mem_bucket, hdocs]
  have hbucket := SortedSet.ext hmem
  have hsome : (table band key).isSome ↔ (table' band key).isSome := by
    simp only [h.isSome, h'.isSome, hdocs]
  unfold bucket at hbucket
  cases hfirst : table band key with
  | none =>
      cases hsecond : table' band key with
      | none => rfl
      | some bucket' => simp [hfirst, hsecond] at hsome
  | some bucket =>
      cases hsecond : table' band key with
      | none => simp [hfirst, hsecond] at hsome
      | some bucket' =>
          rw [hfirst, hsecond] at hbucket
          exact congrArg some hbucket

end Files

/-! ## One key in each band -/

/-- Two descriptions have the same key in some band. -/
def Collide (keyOf : β → σ → κ) (first second : σ) : Prop :=
  ∃ band, keyOf band first = keyOf band second

omit [DecidableEq β] [DecidableEq κ] in
theorem Collide.refl [Nonempty β] (keyOf : β → σ → κ) (description : σ) :
    Collide keyOf description description := by
  cases ‹Nonempty β› with
  | intro band => exact ⟨band, rfl⟩

omit [DecidableEq β] [DecidableEq κ] in
theorem Collide.symm {keyOf : β → σ → κ} {first second : σ} (h : Collide keyOf first second) :
    Collide keyOf second first := by
  cases h with
  | intro band heq => exact ⟨band, heq.symm⟩

omit [DecidableEq β] [DecidableEq κ] in
/-- **Few differences.** If every key is computed from a block of positions of its own,
two descriptions that differ in fewer positions than there are bands have the
same key in some band. -/
theorem Collide.of_few_differences {ρ : Type x} {π : Type u} {ν : Type v} [Fintype β]
    [Fintype π] [DecidableEq ν] {keyOf : β → (π → ν) → κ} {position : β → ρ → π}
    (hlocal : ∀ band first second, (∀ row, first (position band row) =
      second (position band row)) → keyOf band first = keyOf band second)
    (hdisjoint : ∀ band other row otherRow,
      position band row = position other otherRow → band = other)
    {first second : π → ν}
    (hfew : (Finset.univ.filter fun p => first p ≠ second p).card < Fintype.card β) :
    Collide keyOf first second := by
  by_contra hapart
  have hdiffers : ∀ band, ∃ row, first (position band row) ≠ second (position band row) := by
    intro band
    by_contra hsame
    push Not at hsame
    exact hapart ⟨band, hlocal band first second hsame⟩
  choose row hrow using hdiffers
  have hcard : (Finset.univ : Finset β).card ≤
      (Finset.univ.filter fun p => first p ≠ second p).card := by
    apply Finset.card_le_card_of_injOn fun band => position band (row band)
    · intro band _
      exact Finset.mem_coe.mpr (Finset.mem_filter.mpr ⟨Finset.mem_univ _, hrow band⟩)
    · intro band _ other _ heq
      exact hdisjoint band other _ _ heq
  exact absurd hfew (not_lt.mpr hcard)

/-- The table files exactly the given documents. -/
structure Holds (keyOf : β → σ → κ) (docs : List (α × σ)) (table : BucketTable β κ α) :
    Prop where
  /-- A bucket lists the documents with its key. -/
  mem_bucket : ∀ band key item, item ∈ table.bucket band key ↔
    ∃ description, (item, description) ∈ docs ∧ keyOf band description = key
  /-- A bucket exists exactly if some document has its key. -/
  isSome : ∀ band key, (table band key).isSome ↔ ∃ doc ∈ docs, keyOf band doc.2 = key

namespace Holds

variable {keyOf : β → σ → κ} {docs : List (α × σ)} {table : BucketTable β κ α}

omit [DecidableEq β] [DecidableEq κ] in
/-- Here the only key of a band is the one computed for it. -/
theorem iff_files : Holds keyOf docs table ↔
    Files (fun description band key => keyOf band description = key) docs table :=
  ⟨fun h => ⟨h.mem_bucket, h.isSome⟩, fun h => ⟨h.mem_bucket, h.isSome⟩⟩

omit [DecidableEq β] [DecidableEq κ] in
theorem empty : Holds keyOf [] (empty : BucketTable β κ α) := iff_files.mpr Files.empty

/-- Filing a document under all its keys adds it to the documents. -/
theorem insertAll (h : Holds keyOf docs table) {keys : List (β × κ)} {item : α}
    {description : σ} (hkeys : ∀ band key, (band, key) ∈ keys ↔ keyOf band description = key) :
    Holds keyOf (docs ++ [(item, description)]) (table.insertAll keys item) :=
  iff_files.mpr ((iff_files.mp h).insertAll hkeys)

omit [DecidableEq β] [DecidableEq κ] in
/-- An item meets a description if one of its documents collides with it. -/
theorem exists_mem_bucket (h : Holds keyOf docs table) {description : σ} {item : α} :
    (∃ band, item ∈ table.bucket band (keyOf band description)) ↔
      ∃ other, (item, other) ∈ docs ∧ Collide keyOf description other := by
  simp only [h.mem_bucket, Collide]
  refine ⟨?_, ?_⟩
  · rintro ⟨band, other, hmem, hkey⟩
    exact ⟨other, hmem, band, hkey.symm⟩
  · rintro ⟨other, hmem, band, hkey⟩
    exact ⟨band, other, hmem, hkey.symm⟩

omit [DecidableEq β] [DecidableEq κ] in
/-- A table is determined by the documents it files. -/
theorem unique (h : Holds keyOf docs table) {docs' : List (α × σ)}
    {table' : BucketTable β κ α} (h' : Holds keyOf docs' table')
    (hdocs : ∀ doc, doc ∈ docs ↔ doc ∈ docs') : table = table' :=
  (iff_files.mp h).unique (iff_files.mp h') hdocs

end Holds

end BucketTable

end Unbiased.Math
