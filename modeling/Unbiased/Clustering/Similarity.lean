/-
# What equal components estimate

If the hash function of a component numbers the shingles in an order of its own,
the component is the number of the first shingle of the set. Two sets then have
equal components exactly if the first shingle of their union is in both, and
over all numberings that is the share of the shingles they have in common: the
Jaccard similarity that signatures stand for.
-/

import Unbiased.Clustering.MinHash
import Unbiased.Math.FirstInNumbering

namespace Unbiased

open Unbiased.Math
open scoped Nat

namespace MinHash

/-- A hash family in which one function numbers the shingles of a set. -/
def numberedHash (murmur : Murmur) (hidx : ℕ) {all : Finset Int32} (numbering : Numbering all) :
    Murmur :=
  fun elem seed =>
    if h : seed = hidx ∧ elem ∈ all then Int32.ofNat (numbering ⟨elem, h.2⟩)
    else murmur elem seed

variable {murmur : Murmur} {minhash : MinHash} {all : Finset Int32}

/-- A number below the range is its own remainder. -/
theorem toInt_reducedHash_numberedHash (hidx : ℕ) (numbering : Numbering all)
    (hcard : all.card ≤ minhash.rangeMax.toInt) (shingle : all) :
    (reducedHash (numberedHash murmur hidx numbering) minhash hidx shingle).toInt =
      numbering shingle := by
  have hlt : (numbering shingle).val < all.card := by
    simpa using (numbering shingle).isLt
  have hsmall : (numbering shingle).val < 2 ^ 31 := by
    have hrange := minhash.rangeMax.toInt_lt
    omega
  have hhash : numberedHash murmur hidx numbering shingle hidx =
      Int32.ofNat (numbering shingle) := dif_pos ⟨rfl, shingle.2⟩
  rw [reducedHash, hhash, Int32.toInt_mod, Int32.toInt_ofNat_of_lt hsmall]
  exact Int.tmod_eq_of_lt (Int.natCast_nonneg _) (by omega)

/-- The shingles of a set, as elements of a larger one. -/
def within (all : Finset Int32) (shingles : Finset Int32) : Finset all :=
  shingles.subtype (· ∈ all)

theorem mem_within {shingles : Finset Int32} {shingle : all} :
    shingle ∈ within all shingles ↔ shingle.val ∈ shingles :=
  Finset.mem_subtype

theorem card_within {shingles : Finset Int32} (h : shingles ⊆ all) :
    (within all shingles).card = shingles.card := by
  rw [within, Finset.card_subtype, Finset.filter_true_of_mem h]

/-- Equal components come from a first shingle that both sets have. -/
theorem component_eq_iff {hidx : Fin minhash.hashFctsNo} {first second : SortedSet Int32}
    {numbering : Numbering all} {shingle : all} (hfirst : first.toFinset ⊆ all)
    (hsecond : second.toFinset ⊆ all) (hcard : all.card ≤ minhash.rangeMax.toInt)
    (hsentinel : minhash.rangeMax.toInt < 2 ^ 31 - 1)
    (hleast : ComesFirst (within all (first.toFinset ∪ second.toFinset)) numbering shingle) :
    minhash.computeSignature (numberedHash murmur hidx numbering) first
          (Fin.castLE minhash.fits hidx) =
        minhash.computeSignature (numberedHash murmur hidx numbering) second
          (Fin.castLE minhash.fits hidx) ↔
      shingle.val ∈ first ∧ shingle.val ∈ second := by
  have hhash : ∀ other : all,
      (reducedHash (numberedHash murmur hidx numbering) minhash hidx other).toInt =
        numbering other :=
    toInt_reducedHash_numberedHash hidx numbering hcard
  have hbound : reducedHash (numberedHash murmur hidx numbering) minhash hidx shingle <
      minhash.rangeMax + 1 := by
    have hlt : (numbering shingle).val < all.card := by
      simpa using (numbering shingle).isLt
    rw [Int32.lt_iff_toInt_lt, hhash, toInt_add_one_of_lt hsentinel]
    omega
  -- the set that has the shingle has its number as least hash, and no other set has
  have hmem : ∀ set : SortedSet Int32, set.toFinset ⊆ all →
      set.toFinset ⊆ first.toFinset ∪ second.toFinset →
      (minhash.computeSignature (numberedHash murmur hidx numbering) set
          (Fin.castLE minhash.fits hidx) =
        reducedHash (numberedHash murmur hidx numbering) minhash hidx shingle ↔
      shingle.val ∈ set) := by
    intro set hall hunion
    rw [computeSignature_castLE]
    apply leastHash_eq_iff_mem hbound
    · intro other hother heq
      have hequal : numbering ⟨other, hall hother⟩ = numbering shingle := by
        have hints := congrArg Int32.toInt heq
        rw [hhash, hhash ⟨other, hall hother⟩] at hints
        exact Fin.ext (Int.ofNat.inj hints)
      exact congrArg Subtype.val (numbering.injective hequal)
    · intro other hother
      have hle := hleast.2 ⟨other, hall hother⟩ (mem_within.mpr (hunion hother))
      rw [Int32.le_iff_toInt_le, hhash, hhash ⟨other, hall hother⟩]
      exact Int.ofNat_le.mpr hle
  have hfirstMem := hmem first hfirst Finset.subset_union_left
  have hsecondMem := hmem second hsecond Finset.subset_union_right
  constructor
  · intro heq
    rcases Finset.mem_union.mp (mem_within.mp hleast.1) with hin | hin
    · exact ⟨hin, hsecondMem.mp (heq.symm.trans (hfirstMem.mpr hin))⟩
    · exact ⟨hfirstMem.mp (heq.trans (hsecondMem.mpr hin)), hin⟩
  · rintro ⟨hinFirst, hinSecond⟩
    exact (hfirstMem.mpr hinFirst).trans (hsecondMem.mpr hinSecond).symm

/-- **Equal components estimate the Jaccard similarity.** Over all numberings of a set
that contains two others, the share of those that give equal components is the
share of the common shingles among all shingles of the two. -/
theorem card_equalComponents_mul_card (murmur : Murmur) (minhash : MinHash)
    (hidx : Fin minhash.hashFctsNo) (first second : SortedSet Int32) (all : Finset Int32)
    (hfirst : first.toFinset ⊆ all) (hsecond : second.toFinset ⊆ all)
    (hne : (first.toFinset ∪ second.toFinset).Nonempty)
    (hcard : all.card ≤ minhash.rangeMax.toInt)
    (hsentinel : minhash.rangeMax.toInt < 2 ^ 31 - 1) :
    (Finset.univ.filter fun numbering : Numbering all =>
        minhash.computeSignature (numberedHash murmur hidx numbering) first
            (Fin.castLE minhash.fits hidx) =
          minhash.computeSignature (numberedHash murmur hidx numbering) second
            (Fin.castLE minhash.fits hidx)).card *
        (first.toFinset ∪ second.toFinset).card =
      (all.card)! * (first.toFinset ∩ second.toFinset).card := by
  have hunion := Finset.union_subset hfirst hsecond
  have hinter : first.toFinset ∩ second.toFinset ⊆ first.toFinset ∪ second.toFinset :=
    Finset.inter_subset_left.trans Finset.subset_union_left
  have hnonempty : (within all (first.toFinset ∪ second.toFinset)).Nonempty := by
    rw [← Finset.card_pos, card_within hunion]
    exact hne.card_pos
  have hcount := card_comesFirst_mul_card hnonempty
    (show within all (first.toFinset ∩ second.toFinset) ⊆
      within all (first.toFinset ∪ second.toFinset) from
        fun shingle hshingle => mem_within.mpr (hinter (mem_within.mp hshingle)))
  rw [card_within hunion, card_within (hinter.trans hunion)] at hcount
  rw [← Fintype.card_coe all, ← hcount]
  congr 2
  ext numbering
  have ⟨shingle, hleast⟩ := exists_comesFirst hnonempty numbering
  simp only [Finset.mem_filter, Finset.mem_univ, true_and,
    component_eq_iff hfirst hsecond hcard hsentinel hleast]
  constructor
  · rintro ⟨hinFirst, hinSecond⟩
    exact ⟨shingle, mem_within.mpr (Finset.mem_inter.mpr ⟨hinFirst, hinSecond⟩), hleast⟩
  · rintro ⟨other, hother, hfirstOther⟩
    obtain rfl := hleast.unique hfirstOther
    exact Finset.mem_inter.mp (mem_within.mp hother)

/-- The shingles 1 and 2, of which the other set has the second, in the first
component of the engine. -/
theorem card_equalComponents_mul_card_pair :
    (Finset.univ.filter fun numbering : Numbering ({1, 2} : Finset Int32) =>
        engine.computeSignature (numberedHash (fun elem _ => elem) 0 numbering)
            ((SortedSet.empty.insert 1).insert 2) 0 =
          engine.computeSignature (numberedHash (fun elem _ => elem) 0 numbering)
            (SortedSet.empty.insert 2) 0).card *
        (((SortedSet.empty.insert 1).insert 2 : SortedSet Int32).toFinset ∪
          (SortedSet.empty.insert 2).toFinset).card =
      (({1, 2} : Finset Int32).card)! *
        (((SortedSet.empty.insert 1).insert 2 : SortedSet Int32).toFinset ∩
          (SortedSet.empty.insert 2).toFinset).card := by
  have hshare := card_equalComponents_mul_card (fun elem _ => elem) engine ⟨0, by decide⟩
    ((SortedSet.empty.insert 1).insert 2) (SortedSet.empty.insert 2) {1, 2}
    (by decide) (by decide) (by decide) (by decide) (by decide)
  -- without these the two products of closed terms are compared by evaluating them
  have hidx : ((⟨0, by decide⟩ : Fin engine.hashFctsNo) : ℕ) = 0 := rfl
  have hcomponent : Fin.castLE engine.fits (⟨0, by decide⟩ : Fin engine.hashFctsNo) =
    (0 : Fin signatureSize) := rfl
  rw [hidx, hcomponent] at hshare
  exact hshare

end MinHash

end Unbiased
