/-
# MinHash signatures

For each component of a signature, the smallest hash that any shingle has under
that component's function. The hash family is vendored code and a parameter
here.
-/

import Unbiased.Common.Article
import Unbiased.Math.LeastHash

namespace Unbiased

open Unbiased.Math

/-- `MurmurHash3_x86_32` of an `int32_t`, by its seed. -/
abbrev Murmur := Int32 → ℕ → Int32

/-- The largest value a component is reduced by. -/
def minHashRangeMax : Int32 := 100000000

structure MinHash where
  hashFctsNo : ℕ
  rangeMax : Int32
  /-- There is a component for each function. -/
  fits : hashFctsNo ≤ signatureSize

namespace MinHash

/-- The instance that the engine constructs. -/
def engine : MinHash := ⟨signatureSize, minHashRangeMax, le_rfl⟩

/-- Hash one shingle with one function and keep the minimum. -/
def lowerComponent (murmur : Murmur) (minhash : MinHash) (elem : Int32) (signature : Signature)
    (hidx : Fin minhash.hashFctsNo) : Signature :=
  let slot := Fin.castLE minhash.fits hidx
  let hashVal := murmur elem hidx.val % minhash.rangeMax
  if hashVal < signature slot then Function.update signature slot hashVal else signature

/-- The signature of a set of shingles. -/
def computeSignature (murmur : Murmur) (minhash : MinHash) (shingles : SortedSet Int32) :
    Signature :=
  shingles.elems.foldl
    (fun signature elem =>
      (List.finRange minhash.hashFctsNo).foldl (minhash.lowerComponent murmur elem) signature)
    fun _ => minhash.rangeMax + 1

/-! ## What the loops compute -/

variable {murmur : Murmur} {minhash : MinHash}

/-- The hash of a shingle under one function, reduced. The remainder has the sign
of the hash. -/
def reducedHash (murmur : Murmur) (minhash : MinHash) (hidx : ℕ) (elem : Int32) : Int32 :=
  murmur elem hidx % minhash.rangeMax

/-- Lowering a component takes the minimum. -/
theorem lowerComponent_eq (elem : Int32) (signature : Signature)
    (hidx : Fin minhash.hashFctsNo) :
    minhash.lowerComponent murmur elem signature hidx =
      Function.update signature (Fin.castLE minhash.fits hidx)
        (min (signature (Fin.castLE minhash.fits hidx))
          (reducedHash murmur minhash hidx elem)) := by
  show (if reducedHash murmur minhash hidx elem < signature (Fin.castLE minhash.fits hidx) then _
    else _) = _
  split
  · rename_i hlt
    rw [min_eq_right hlt.le]
    rfl
  · rename_i hle
    rw [min_eq_left (not_lt.mp hle), Function.update_eq_self]

/-- Going through some functions lowers their components. -/
theorem foldl_lowerComponent (elem : Int32) (signature : Signature)
    (functions : List (Fin minhash.hashFctsNo)) (hidx : Fin minhash.hashFctsNo) :
    functions.foldl (minhash.lowerComponent murmur elem) signature
        (Fin.castLE minhash.fits hidx) =
      if hidx ∈ functions then
        min (signature (Fin.castLE minhash.fits hidx)) (reducedHash murmur minhash hidx elem)
      else signature (Fin.castLE minhash.fits hidx) := by
  induction functions generalizing signature with
  | nil => rfl
  | cons first rest ih =>
      rw [List.foldl_cons, ih, lowerComponent_eq]
      by_cases heq : hidx = first
      · subst heq
        simp
      · simp [heq]

/-- A component without a function stays as it is. -/
theorem foldl_lowerComponent_of_le (elem : Int32) (signature : Signature)
    (functions : List (Fin minhash.hashFctsNo)) {component : Fin signatureSize}
    (h : minhash.hashFctsNo ≤ component) :
    functions.foldl (minhash.lowerComponent murmur elem) signature component =
      signature component := by
  induction functions generalizing signature with
  | nil => rfl
  | cons first rest ih =>
      have hne : component ≠ Fin.castLE minhash.fits first := by
        rintro rfl
        exact absurd first.isLt (not_lt.mpr h)
      rw [List.foldl_cons, ih, lowerComponent_eq, Function.update_of_ne hne]

/-- Going through some shingles lowers a component with a function to their least
reduced hash. -/
theorem foldl_shingles (shingles : List Int32) (signature : Signature)
    (hidx : Fin minhash.hashFctsNo) :
    shingles.foldl (fun signature elem => (List.finRange minhash.hashFctsNo).foldl
        (minhash.lowerComponent murmur elem) signature) signature (Fin.castLE minhash.fits hidx) =
      leastHash (reducedHash murmur minhash hidx) (signature (Fin.castLE minhash.fits hidx))
        shingles := by
  induction shingles generalizing signature with
  | nil => rfl
  | cons elem rest ih =>
      rw [List.foldl_cons, ih, foldl_lowerComponent, if_pos (List.mem_finRange hidx),
        leastHash_cons]

/-- A component with a function is the least reduced hash of the shingles. -/
theorem computeSignature_castLE (murmur : Murmur) (minhash : MinHash)
    (shingles : SortedSet Int32) (hidx : Fin minhash.hashFctsNo) :
    minhash.computeSignature murmur shingles (Fin.castLE minhash.fits hidx) =
      leastHash (reducedHash murmur minhash hidx) (minhash.rangeMax + 1) shingles.elems :=
  foldl_shingles shingles.elems (fun _ => minhash.rangeMax + 1) hidx

theorem foldl_shingles_of_le (shingles : List Int32) (signature : Signature)
    {component : Fin signatureSize} (h : minhash.hashFctsNo ≤ component) :
    shingles.foldl (fun signature elem => (List.finRange minhash.hashFctsNo).foldl
        (minhash.lowerComponent murmur elem) signature) signature component =
      signature component := by
  induction shingles generalizing signature with
  | nil => rfl
  | cons elem rest ih => rw [List.foldl_cons, ih, foldl_lowerComponent_of_le _ _ _ h]

/-- A component without a function keeps its start value. -/
theorem computeSignature_of_le (murmur : Murmur) (shingles : SortedSet Int32)
    {component : Fin signatureSize} (h : minhash.hashFctsNo ≤ component) :
    minhash.computeSignature murmur shingles component = minhash.rangeMax + 1 :=
  foldl_shingles_of_le shingles.elems (fun _ => minhash.rangeMax + 1) h

/-! ## The instance of the engine -/

/-- The hash of a shingle under the function of a component, reduced to its range. -/
def componentHash (murmur : Murmur) (component : Fin signatureSize) (elem : Int32) : Int32 :=
  murmur elem component.val % minHashRangeMax

/-- A reduced hash is below the number it was reduced by. -/
theorem toInt_componentHash_lt (component : Fin signatureSize) (elem : Int32) :
    (componentHash murmur component elem).toInt < minHashRangeMax.toInt := by
  rw [componentHash, Int32.toInt_mod]
  exact Int.tmod_lt_of_pos _ (by decide)

/-- A reduced hash is below the value that a component starts from. -/
theorem componentHash_lt (component : Fin signatureSize) (elem : Int32) :
    componentHash murmur component elem < minHashRangeMax + 1 := by
  rw [Int32.lt_iff_toInt_lt]
  exact (toInt_componentHash_lt component elem).trans (by decide)

/-- A component of a signature is the least hash of the shingles under its
function. -/
theorem computeSignature_apply (murmur : Murmur) (shingles : SortedSet Int32)
    (component : Fin signatureSize) :
    engine.computeSignature murmur shingles component =
      leastHash (componentHash murmur component) (minHashRangeMax + 1) shingles.elems :=
  computeSignature_castLE murmur engine shingles component

/-- **Disjoint sets have different components,** if no two of their shingles have the
same reduced hash and one of the sets has a shingle. -/
theorem computeSignature_ne {first second : SortedSet Int32} {component : Fin signatureSize}
    (hinj : ∀ a ∈ first, ∀ b ∈ second,
      componentHash murmur component a = componentHash murmur component b → a = b)
    (hdisjoint : ∀ a ∈ first, a ∉ second) (hne : first.elems ≠ [] ∨ second.elems ≠ []) :
    engine.computeSignature murmur first component ≠
      engine.computeSignature murmur second component := by
  rw [computeSignature_apply, computeSignature_apply]
  exact leastHash_ne (componentHash_lt component) hinj hdisjoint hne

end MinHash

end Unbiased
