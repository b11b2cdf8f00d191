/-
# Finite sets kept in increasing order

An ordered container numbers its elements: the position of an element is the
number of smaller ones. That numbering is not stable, because inserting a
smaller element moves every larger one up. This module keeps a finite set as a
strictly increasing list, so both views are computable, and states exactly how
a union moves positions.
-/

import Mathlib.Data.List.Sort
import Mathlib.Data.Finset.Basic
import Mathlib.Data.Finset.Card

namespace Unbiased.Math

universe u

/-- A finite set, presented by its elements in strictly increasing order. -/
structure SortedSet (α : Type u) [LinearOrder α] where
  /-- The elements, smallest first. -/
  elems : List α
  /-- No element is repeated or out of order. -/
  sorted : elems.Pairwise (· < ·)
  deriving DecidableEq

namespace SortedSet

variable {α : Type u} [LinearOrder α]

instance : Membership α (SortedSet α) := ⟨fun s a => a ∈ s.elems⟩

instance (a : α) (s : SortedSet α) : Decidable (a ∈ s) :=
  inferInstanceAs (Decidable (a ∈ s.elems))

theorem mem_def {a : α} {s : SortedSet α} : a ∈ s ↔ a ∈ s.elems := Iff.rfl

theorem nodup (s : SortedSet α) : s.elems.Nodup :=
  s.sorted.imp fun h => ne_of_lt h

/-- Two sets with the same members are the same list. -/
@[ext]
theorem ext {s t : SortedSet α} (h : ∀ a, a ∈ s ↔ a ∈ t) : s = t := by
  obtain ⟨selems, ssorted⟩ := s
  obtain ⟨telems, tsorted⟩ := t
  have helems : selems = telems := ssorted.eq_of_mem_iff tsorted h
  subst helems
  rfl

/-- The set with no elements. -/
def empty : SortedSet α := ⟨[], List.Pairwise.nil⟩

@[simp]
theorem notMem_empty (a : α) : a ∉ (empty : SortedSet α) := List.not_mem_nil

/-- The number of elements. -/
def size (s : SortedSet α) : ℕ := s.elems.length

/-! ## Insertion and union -/

/-- Insert into an increasing list, leaving a list that has the element as it is. -/
def insertElem (a : α) : List α → List α
  | [] => [a]
  | b :: rest =>
    if a < b then a :: b :: rest
    else if a = b then b :: rest
    else b :: insertElem a rest

theorem mem_insertElem {a b : α} {l : List α} :
    b ∈ insertElem a l ↔ b = a ∨ b ∈ l := by
  induction l with
  | nil => simp [insertElem]
  | cons c rest ih =>
      simp only [insertElem]
      split
      · simp
      · split
        · rename_i heq
          subst heq
          simp
        · simp only [List.mem_cons, ih]
          tauto

theorem insertElem_sorted {a : α} {l : List α} (h : l.Pairwise (· < ·)) :
    (insertElem a l).Pairwise (· < ·) := by
  induction l with
  | nil => simp [insertElem]
  | cons c rest ih =>
      obtain ⟨hhead, htail⟩ := List.pairwise_cons.mp h
      simp only [insertElem]
      split
      · rename_i hlt
        refine List.pairwise_cons.mpr ⟨fun b hb => ?_, h⟩
        rcases List.mem_cons.mp hb with rfl | hb
        · exact hlt
        · exact hlt.trans (hhead b hb)
      · split
        · exact h
        · rename_i hle hne
          have hgt : c < a := lt_of_le_of_ne (not_lt.mp hle) (Ne.symm hne)
          refine List.pairwise_cons.mpr ⟨fun b hb => ?_, ih htail⟩
          rcases mem_insertElem.mp hb with rfl | hb
          · exact hgt
          · exact hhead b hb

/-- Add one element. -/
def insert (a : α) (s : SortedSet α) : SortedSet α :=
  ⟨insertElem a s.elems, insertElem_sorted s.sorted⟩

@[simp]
theorem mem_insert {a b : α} {s : SortedSet α} : b ∈ s.insert a ↔ b = a ∨ b ∈ s :=
  mem_insertElem

/-- The set of the elements of a list. -/
def ofList (l : List α) : SortedSet α := l.foldl (fun s a => s.insert a) empty

theorem mem_foldl_insert {a : α} {l : List α} {s : SortedSet α} :
    a ∈ l.foldl (fun s b => s.insert b) s ↔ a ∈ l ∨ a ∈ s := by
  induction l generalizing s with
  | nil => simp
  | cons b rest ih =>
      rw [List.foldl_cons, ih, mem_insert, List.mem_cons]
      tauto

@[simp]
theorem mem_ofList {a : α} {l : List α} : a ∈ ofList l ↔ a ∈ l := by
  simp [ofList, mem_foldl_insert]

/-- Listing a set and collecting the list again gives the set back. -/
@[simp]
theorem ofList_elems (s : SortedSet α) : ofList s.elems = s := by
  ext a
  rw [mem_ofList, mem_def]

/-- The union, built by inserting the elements of `t` one by one. -/
def union (s t : SortedSet α) : SortedSet α :=
  t.elems.foldl (fun s a => s.insert a) s

@[simp]
theorem mem_union {a : α} {s t : SortedSet α} : a ∈ s.union t ↔ a ∈ s ∨ a ∈ t := by
  rw [union, mem_foldl_insert, mem_def (s := t)]
  exact or_comm

/-! ## Positions -/

/-- The number of elements below `a`: the position of `a` if it is an element. -/
def rank (s : SortedSet α) (a : α) : ℕ := s.elems.countP (· < a)

/-- The position of an element, or nothing for a value outside the set. -/
def position? (s : SortedSet α) (a : α) : Option ℕ :=
  if a ∈ s then some (s.elems.idxOf a) else none

/-- The element at a position. -/
def nth? (s : SortedSet α) (i : ℕ) : Option α := s.elems[i]?

/-- In an increasing list the index of a member counts the smaller members. -/
theorem idxOf_eq_countP {l : List α} (h : l.Pairwise (· < ·)) {a : α} (ha : a ∈ l) :
    l.idxOf a = l.countP (· < a) := by
  induction l with
  | nil => exact absurd ha List.not_mem_nil
  | cons b rest ih =>
      obtain ⟨hhead, htail⟩ := List.pairwise_cons.mp h
      rcases List.mem_cons.mp ha with rfl | hrest
      · have hnone : rest.countP (· < a) = 0 :=
          List.countP_eq_zero.mpr fun c hc => by simpa using (hhead c hc).le
        simp [hnone]
      · have hlt : b < a := hhead a hrest
        rw [List.idxOf_cons_ne rest hlt.ne, ih htail hrest,
          List.countP_cons_of_pos (by simpa using hlt)]

theorem position?_of_mem {s : SortedSet α} {a : α} (h : a ∈ s) :
    s.position? a = some (s.rank a) := by
  rw [position?, if_pos h, rank, idxOf_eq_countP s.sorted h]

theorem nth?_rank {s : SortedSet α} {a : α} (h : a ∈ s) : s.nth? (s.rank a) = some a := by
  rw [nth?, rank, ← idxOf_eq_countP s.sorted h]
  exact List.getElem?_idxOf h

theorem rank_lt_size {s : SortedSet α} {a : α} (h : a ∈ s) : s.rank a < s.size := by
  rw [rank, ← idxOf_eq_countP s.sorted h]
  exact List.idxOf_lt_length_of_mem h

/-- Positions and elements determine each other. -/
theorem nth?_eq_some {s : SortedSet α} {a : α} {i : ℕ} :
    s.nth? i = some a ↔ a ∈ s ∧ s.rank a = i := by
  constructor
  · intro h
    have hmem : a ∈ s := List.mem_of_getElem? h
    refine ⟨hmem, ?_⟩
    have hlt : i < s.elems.length := (List.getElem?_eq_some_iff.mp h).1
    have hrank := nth?_rank hmem
    exact (List.getElem?_inj hlt s.nodup).mp (h.trans hrank.symm) |>.symm
  · rintro ⟨hmem, rfl⟩
    exact nth?_rank hmem

theorem rank_inj {s : SortedSet α} {a b : α} (ha : a ∈ s) (hb : b ∈ s)
    (h : s.rank a = s.rank b) : a = b := by
  have heq := nth?_rank ha
  rw [h, nth?_rank hb] at heq
  exact (Option.some.inj heq).symm

/-- Every position below the size is taken. -/
theorem exists_rank_eq {s : SortedSet α} {i : ℕ} (h : i < s.size) :
    ∃ a ∈ s, s.rank a = i := by
  obtain ⟨a, ha⟩ : ∃ a, s.elems[i]? = some a := ⟨_, List.getElem?_eq_getElem h⟩
  exact ⟨a, nth?_eq_some.mp ha⟩

theorem rank_le_rank (s : SortedSet α) {a b : α} (h : a ≤ b) : s.rank a ≤ s.rank b :=
  List.countP_mono_left fun _ _ hc => by
    simp only [decide_eq_true_eq] at hc ⊢
    exact hc.trans_le h

/-- Larger elements have larger positions. -/
theorem rank_lt_rank {s : SortedSet α} {a b : α} (ha : a ∈ s) (hb : b ∈ s) (h : a < b) :
    s.rank a < s.rank b :=
  lt_of_le_of_ne (s.rank_le_rank h.le) fun heq => h.ne (rank_inj ha hb heq)

/-! ## How a union moves positions -/

/-- The members of `s`, as a `Finset`. -/
def toFinset (s : SortedSet α) : Finset α := ⟨s.elems, s.nodup⟩

@[simp]
theorem mem_toFinset {a : α} {s : SortedSet α} : a ∈ s.toFinset ↔ a ∈ s := Iff.rfl

theorem card_toFinset (s : SortedSet α) : s.toFinset.card = s.size := rfl

/-- A list without repetitions has as many elements as the set of its elements. -/
theorem size_ofList {l : List α} (h : l.Nodup) : (ofList l).size = l.length := by
  have helems : (ofList l).toFinset = l.toFinset := by
    ext a
    rw [mem_toFinset, mem_ofList, List.mem_toFinset]
  rw [← card_toFinset, helems, List.toFinset_card_of_nodup h]

/-- Beside a member there is another one exactly if the size exceeds one. -/
theorem one_lt_size_iff {s : SortedSet α} {a : α} (h : a ∈ s) :
    1 < s.size ↔ ∃ b ∈ s, b ≠ a := by
  rw [← card_toFinset]
  refine ⟨fun hcard => Finset.exists_mem_ne hcard a, ?_⟩
  rintro ⟨b, hb, hne⟩
  exact Finset.one_lt_card.mpr ⟨b, hb, a, h, hne⟩

theorem rank_eq_card (s : SortedSet α) (a : α) :
    s.rank a = (s.toFinset.filter (· < a)).card := by
  rw [rank, List.countP_eq_length_filter]
  rfl

/-- A union moves an element up by the number of new elements below it. -/
theorem rank_union (s t : SortedSet α) (a : α) :
    (s.union t).rank a =
      s.rank a + (t.toFinset.filter fun b => b ∉ s ∧ b < a).card := by
  rw [rank_eq_card, rank_eq_card, ← Finset.card_union_of_disjoint]
  · congr 1
    ext b
    simp only [Finset.mem_filter, mem_toFinset, mem_union, Finset.mem_union]
    tauto
  · rw [Finset.disjoint_left]
    intro b hb hb'
    simp only [Finset.mem_filter, mem_toFinset] at hb hb'
    exact hb'.2.1 hb.1

/-- An element keeps its position exactly when no new element sorts before it. -/
theorem rank_union_eq_iff {s t : SortedSet α} {a : α} :
    (s.union t).rank a = s.rank a ↔ ∀ b ∈ t, b ∉ s → a ≤ b := by
  rw [rank_union, Nat.add_eq_left, Finset.card_eq_zero, Finset.filter_eq_empty_iff]
  simp only [mem_toFinset, not_and, not_lt]

theorem rank_le_rank_union (s t : SortedSet α) (a : α) :
    s.rank a ≤ (s.union t).rank a := by
  rw [rank_union]
  exact Nat.le_add_right _ _

theorem size_le_size_union (s t : SortedSet α) : s.size ≤ (s.union t).size := by
  rw [← card_toFinset, ← card_toFinset]
  exact Finset.card_le_card fun a ha => mem_union.mpr (Or.inl ha)

end SortedSet

end Unbiased.Math
