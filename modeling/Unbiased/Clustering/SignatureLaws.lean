/-
# Laws of signatures

The signature of a union is the componentwise minimum of the signatures,
whatever the hash functions are: the start value of the components is kept by
the empty set and lies on both sides of the equation.

The reduced hashes of the engine are signed remainders. A signature stays in
the range it was reduced to exactly as long as no hash has a negative one.
-/

import Unbiased.Clustering.MinHash

namespace Unbiased

open Unbiased.Math

namespace MinHash

/-- The signature of a set with the shingles of two others is their minimum. -/
theorem computeSignature_eq_min (murmur : Murmur) (minhash : MinHash)
    {first second union : SortedSet Int32}
    (hmem : ∀ shingle, shingle ∈ union ↔ shingle ∈ first ∨ shingle ∈ second)
    (component : Fin signatureSize) :
    minhash.computeSignature murmur union component =
      min (minhash.computeSignature murmur first component)
        (minhash.computeSignature murmur second component) := by
  rcases lt_or_ge component.val minhash.hashFctsNo with hfunction | hnone
  · have hcomponent : component = Fin.castLE minhash.fits ⟨component, hfunction⟩ := rfl
    rw [hcomponent, computeSignature_castLE, computeSignature_castLE, computeSignature_castLE]
    exact leastHash_union hmem
  · rw [computeSignature_of_le murmur _ hnone, computeSignature_of_le murmur _ hnone,
      computeSignature_of_le murmur _ hnone, min_self]

/-- More shingles never make a component larger. -/
theorem computeSignature_anti (murmur : Murmur) (minhash : MinHash)
    {first second : SortedSet Int32} (hsubset : ∀ shingle ∈ first, shingle ∈ second)
    (component : Fin signatureSize) :
    minhash.computeSignature murmur second component ≤
      minhash.computeSignature murmur first component := by
  have hunion : ∀ shingle, shingle ∈ second ↔ shingle ∈ first ∨ shingle ∈ second :=
    fun shingle => (or_iff_right_of_imp (hsubset shingle)).symm
  exact (computeSignature_eq_min murmur minhash hunion component).le.trans (min_le_left _ _)

/-- **Signatures turn unions into minima.** The empty set's signature is neutral,
and more shingles never make a component larger. -/
theorem computeSignature_union (murmur : Murmur) (minhash : MinHash)
    (first second : SortedSet Int32) :
    (∀ component, minhash.computeSignature murmur (first.union second) component =
      min (minhash.computeSignature murmur first component)
        (minhash.computeSignature murmur second component)) ∧
    (∀ component, min (minhash.computeSignature murmur first component)
        (minhash.computeSignature murmur SortedSet.empty component) =
      minhash.computeSignature murmur first component) ∧
    ((∀ shingle ∈ first, shingle ∈ second) → ∀ component,
      minhash.computeSignature murmur second component ≤
        minhash.computeSignature murmur first component) := by
  refine ⟨fun component => ?_, fun component => ?_, fun hsubset component => ?_⟩
  · exact computeSignature_eq_min murmur minhash (fun shingle => SortedSet.mem_union) component
  · exact (computeSignature_eq_min murmur minhash (fun shingle => by simp) component).symm
  · exact computeSignature_anti murmur minhash hsubset component

/-- Every component is a value below the range, and none is negative. -/
def InRange (signature : Signature) : Prop :=
  ∀ component, 0 ≤ signature component ∧ signature component ≤ minHashRangeMax - 1

/-- A remainder is negative exactly if the hash is negative and not a multiple. -/
theorem componentHash_nonneg_iff {murmur : Murmur} {component : Fin signatureSize}
    {elem : Int32} :
    0 ≤ componentHash murmur component elem ↔
      0 ≤ murmur elem component ∨ minHashRangeMax.toInt ∣ (murmur elem component).toInt := by
  rw [Int32.le_iff_toInt_le, Int32.le_iff_toInt_le, componentHash, Int32.toInt_mod,
    Int32.toInt_zero]
  have hpos : 0 < minHashRangeMax.toInt := by decide
  constructor
  · intro hrem
    by_cases hneg : 0 ≤ (murmur elem component).toInt
    · exact Or.inl hneg
    · refine Or.inr (Int.dvd_of_tmod_eq_zero (le_antisymm ?_ hrem))
      have hrest := Int.tmod_nonneg minHashRangeMax.toInt
        (show 0 ≤ -(murmur elem component).toInt by omega)
      rw [Int.neg_tmod] at hrest
      omega
  · rintro (hnonneg | hdvd)
    · exact Int.tmod_nonneg _ hnonneg
    · exact (Int.tmod_eq_zero_of_dvd hdvd).ge

/-- **When a signature stays in range.** The signature of a set with shingles has all
its components in the range exactly if every hash of a shingle, under the
function of any component, is non-negative or a multiple of the range. -/
theorem inRange_iff {murmur : Murmur} {shingles : SortedSet Int32} (hne : shingles.elems ≠ []) :
    InRange (engine.computeSignature murmur shingles) ↔
      ∀ component : Fin signatureSize, ∀ shingle ∈ shingles,
        0 ≤ murmur shingle component ∨
          minHashRangeMax.toInt ∣ (murmur shingle component).toInt := by
  simp only [InRange, ← componentHash_nonneg_iff, computeSignature_apply, le_leastHash_iff]
  refine forall_congr' fun component => ?_
  have hbound : (0 : Int32) ≤ minHashRangeMax + 1 := by decide
  constructor
  · exact fun hrange => hrange.1.2
  · intro hhashes
    refine ⟨⟨hbound, hhashes⟩, ?_⟩
    obtain ⟨shingle, -, hleast⟩ := exists_leastHash (componentHash_lt component) hne
    have hlt : (componentHash murmur component shingle).toInt < minHashRangeMax.toInt :=
      toInt_componentHash_lt component shingle
    have hlast : (minHashRangeMax - 1).toInt = minHashRangeMax.toInt - 1 := by decide
    rw [hleast, Int32.le_iff_toInt_le, hlast]
    omega

/-- The equivalence for one shingle and a hash family that gives its seeds. -/
theorem inRange_iff_seeds :
    InRange (engine.computeSignature (fun _ seed => Int32.ofNat seed)
        (SortedSet.empty.insert 0)) ↔
      ∀ component : Fin signatureSize, ∀ shingle ∈ (SortedSet.empty.insert 0 : SortedSet Int32),
        0 ≤ Int32.ofNat component.val ∨
          minHashRangeMax.toInt ∣ (Int32.ofNat component.val).toInt :=
  inRange_iff (List.cons_ne_nil 0 [])

/-- The hash 0xfbf1402a is negative as an `int32_t`, and so is the component. -/
theorem component_below_range :
    ¬ ∀ (murmur : Murmur) (shingles : SortedSet Int32), shingles.elems ≠ [] →
      InRange (engine.computeSignature murmur shingles) := by
  intro hall
  have hrange := hall (fun _ _ => -68075478) (SortedSet.empty.insert 1) (List.cons_ne_nil 1 []) 0
  exact absurd hrange.1 (by decide +kernel)

end MinHash

end Unbiased
