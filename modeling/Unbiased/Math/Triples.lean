/-
# Reading a stream by threes

A reader that takes three items at a time, whatever their boundaries were when
they were written. A triple that cannot be read stops it for good, and fewer than
three items make it wait. `wholeTriples` says that a stream is read to its end,
and `leadingTriples` what a reader gets out of any stream.
-/

import Mathlib.Data.List.Basic

namespace Unbiased.Math

universe u v

variable {α : Type u} {β : Type v}

/-- The records of a stream that is nothing but triples that can be read. -/
def wholeTriples (read : α → α → α → Option β) : List α → Option (List β)
  | [] => some []
  | first :: second :: third :: rest => do
    let record ← read first second third
    let records ← wholeTriples read rest
    some (record :: records)
  | _ => none

/-- The records that a reader gets before it stops or waits. -/
def leadingTriples (read : α → α → α → Option β) : List α → List β
  | first :: second :: third :: rest =>
    match read first second third with
    | some record => record :: leadingTriples read rest
    | none => []
  | _ => []

variable {read : α → α → α → Option β}

theorem wholeTriples_cons (first second third : α) (rest : List α) :
    wholeTriples read (first :: second :: third :: rest) =
      (read first second third).bind fun record =>
        (wholeTriples read rest).bind fun records => some (record :: records) := rfl

theorem leadingTriples_cons_of_some {first second third : α} {record : β}
    (h : read first second third = some record) (rest : List α) :
    leadingTriples read (first :: second :: third :: rest) =
      record :: leadingTriples read rest := by
  rw [leadingTriples, h]

theorem leadingTriples_cons_of_none {first second third : α}
    (h : read first second third = none) (rest : List α) :
    leadingTriples read (first :: second :: third :: rest) = [] := by
  rw [leadingTriples, h]

/-- **Induction along a stream of readable triples.** -/
@[elab_as_elim]
theorem wholeTriples_induction {motive : List α → List β → Prop} {stream : List α}
    {records : List β} (h : wholeTriples read stream = some records) (nil : motive [] [])
    (cons : ∀ first second third rest record later, read first second third = some record →
      motive rest later → motive (first :: second :: third :: rest) (record :: later)) :
    motive stream records := by
  fun_induction wholeTriples read stream generalizing records with
  | case1 =>
      cases h
      exact nil
  | case2 first second third rest ih =>
      obtain ⟨record, hread, h⟩ := Option.bind_eq_some_iff.mp h
      obtain ⟨later, hlater, h⟩ := Option.bind_eq_some_iff.mp h
      cases h
      exact cons first second third rest record later hread (ih hlater)
  | case3 => cases h

/-- Three items make a record. -/
theorem length_of_wholeTriples {stream : List α} {records : List β}
    (h : wholeTriples read stream = some records) : stream.length = 3 * records.length := by
  refine wholeTriples_induction h rfl ?_
  intro first second third rest record later _ ih
  simp only [List.length_cons, ih]
  omega

/-- Reading goes on behind readable triples as if they had not been there. -/
theorem wholeTriples_append {stream : List α} {records : List β}
    (h : wholeTriples read stream = some records) (rest : List α) :
    wholeTriples read (stream ++ rest) = (wholeTriples read rest).map (records ++ ·) := by
  refine wholeTriples_induction h ?_ ?_
  · simp
  · intro first second third tail record later hread ih
    rw [List.cons_append, List.cons_append, List.cons_append, wholeTriples_cons, hread,
      Option.bind_some, ih]
    cases wholeTriples read rest with
    | none => rfl
    | some behind => rfl

theorem leadingTriples_append {stream : List α} {records : List β}
    (h : wholeTriples read stream = some records) (rest : List α) :
    leadingTriples read (stream ++ rest) = records ++ leadingTriples read rest := by
  refine wholeTriples_induction h rfl ?_
  intro first second third tail record later hread ih
  rw [List.cons_append, List.cons_append, List.cons_append, leadingTriples_cons_of_some hread,
    ih, List.cons_append]

/-- The first record comes from the first triple. -/
theorem leadingTriples_eq_cons {stream : List α} {record : β} {later : List β}
    (h : leadingTriples read stream = record :: later) :
    ∃ first second third rest, stream = first :: second :: third :: rest ∧
      read first second third = some record ∧ leadingTriples read rest = later := by
  unfold leadingTriples at h
  split at h
  · split at h
    · obtain ⟨rfl, hrest⟩ := List.cons.inj h
      exact ⟨_, _, _, _, rfl, ‹_›, hrest⟩
    · cases h
  · cases h

/-- A record comes from a triple that has only readable triples before it. -/
theorem exists_triple_of_leadingTriples {stream : List α} {earlier later : List β} {record : β}
    (h : leadingTriples read stream = earlier ++ record :: later) :
    ∃ before first second third rest, stream = before ++ first :: second :: third :: rest ∧
      wholeTriples read before = some earlier ∧ read first second third = some record := by
  induction earlier generalizing stream with
  | nil =>
      obtain ⟨first, second, third, rest, hstream, hread, -⟩ := leadingTriples_eq_cons h
      exact ⟨[], first, second, third, rest, hstream, rfl, hread⟩
  | cons head earlier ih =>
      obtain ⟨a, b, c, tail, rfl, hhead, htail⟩ := leadingTriples_eq_cons h
      obtain ⟨before, first, second, third, rest, rfl, hbefore, hread⟩ := ih htail
      refine ⟨a :: b :: c :: before, first, second, third, rest, rfl, ?_, hread⟩
      rw [wholeTriples_cons, hhead, hbefore]
      rfl

end Unbiased.Math
