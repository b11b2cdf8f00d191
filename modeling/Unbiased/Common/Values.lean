/-
# Values of the engine's language

Strings are byte strings, ordered by unsigned byte values as `std::string` is.
Fixed-width integers are Lean's own. Narrowing conversions that the engine
performs silently are named here, so that every later definition shows where
bits are dropped.
-/

import Mathlib
import Unbiased.Math.SortedSet

namespace Unbiased

open Unbiased.Math

/-- A `std::string`: bytes compared as unsigned values. -/
abbrev Bytes := List (Fin 256)

/-- Byte literals elaborate through this instance. -/
instance byteNeZero : NeZero 256 := ⟨by decide⟩

/-- The signed order of `int32_t`. -/
instance int32LinearOrder : LinearOrder Int32 where
  le_refl := Int32.le_refl
  le_trans := fun _ _ _ => Int32.le_trans
  le_antisymm := fun _ _ => Int32.le_antisymm
  le_total := Int32.le_total
  lt_iff_le_not_ge a b := by
    rw [Int32.lt_iff_toInt_lt, Int32.le_iff_toInt_le, Int32.le_iff_toInt_le]
    omega
  toDecidableLE := inferInstance
  toDecidableLT := inferInstance
  toDecidableEq := inferInstance
  min_def _ _ := rfl
  max_def _ _ := rfl

/-- The conversion of a `size_t` to `int32_t`: the low 32 bits. -/
def narrow (value : UInt64) : Int32 := value.toUInt32.toInt32

/-- Adding one is exact below the largest `int32_t`. -/
theorem toInt_add_one_of_lt {a : Int32} (h : a.toInt < 2 ^ 31 - 1) :
    (a + 1).toInt = a.toInt + 1 := by
  have hlow := a.le_toInt
  rw [Int32.toInt_add, Int32.toInt_one, Int.bmod_def]
  omega

/-- Adding one to the largest `int32_t` wraps around to the smallest. -/
theorem toInt_add_one_of_max {a : Int32} (h : a.toInt = 2 ^ 31 - 1) :
    (a + 1).toInt = -2 ^ 31 := by
  rw [Int32.toInt_add, Int32.toInt_one, h]
  rfl

/-- Widening to `size_t` keeps values apart. -/
theorem toUInt64_toInt64_inj {first second : Int32}
    (h : first.toInt64.toUInt64 = second.toInt64.toUInt64) : first = second := by
  have hwide : first.toInt64 = second.toInt64 := by
    simpa using congrArg UInt64.toInt64 h
  have hint := congrArg Int64.toInt hwide
  rw [Int32.toInt_toInt64, Int32.toInt_toInt64] at hint
  exact Int32.toInt_inj.mp hint

/-- A number below `2 ^ 31` survives being stored as an `int32_t` and widened. -/
theorem toNat_toUInt64_toInt64_ofNat {n : ℕ} (h : n < 2 ^ 31) :
    (Int32.ofNat n).toInt64.toUInt64.toNat = n := by
  have hint : (Int32.ofNat n).toInt = n := Int32.toInt_ofNat_of_lt h
  have hnonneg : 0 ≤ (Int32.ofNat n).toInt64 := by
    rw [Int64.le_iff_toInt_le, Int32.toInt_toInt64, hint]
    exact Int.natCast_nonneg n
  rw [Int64.toNat_toUInt64_of_le hnonneg, Int64.toNatClampNeg, Int32.toInt_toInt64, hint,
    Int.toNat_natCast]

/-- Only multiples of the range of `int32_t` are lost when they are added. -/
theorem ofNat_add_eq_iff {n m : ℕ} : Int32.ofNat (n + m) = Int32.ofNat n ↔ 2 ^ 32 ∣ m := by
  have hbits : ∀ k, (Int32.ofNat k).toUInt32.toNat = k % 2 ^ 32 := by
    intro k
    simp
  constructor
  · intro heq
    have hmod := congrArg (fun i : Int32 => i.toUInt32.toNat) heq
    simp only [hbits] at hmod
    omega
  · rintro ⟨k, rfl⟩
    apply Int32.toInt_inj.mp
    simp [Int32.toInt_ofNat']

/-- A `std::unordered_set`: distinct elements in the container's own iteration
order, about which nothing is assumed. -/
structure UnorderedSet (α : Type*) where
  /-- The elements in iteration order. -/
  elems : List α
  /-- An element is stored once. -/
  nodup : elems.Nodup

namespace UnorderedSet

variable {α : Type*}

instance : Membership α (UnorderedSet α) := ⟨fun s a => a ∈ s.elems⟩

instance [DecidableEq α] (a : α) (s : UnorderedSet α) : Decidable (a ∈ s) :=
  inferInstanceAs (Decidable (a ∈ s.elems))

/-- The container with no elements. -/
def empty : UnorderedSet α := ⟨[], List.nodup_nil⟩

/-- Insert the elements of a list one by one. -/
def ofList [DecidableEq α] (l : List α) : UnorderedSet α := ⟨l.dedup, l.nodup_dedup⟩

@[simp]
theorem mem_ofList [DecidableEq α] {a : α} {l : List α} : a ∈ ofList l ↔ a ∈ l :=
  List.mem_dedup

@[simp]
theorem notMem_empty (a : α) : a ∉ (empty : UnorderedSet α) := List.not_mem_nil

end UnorderedSet

end Unbiased
