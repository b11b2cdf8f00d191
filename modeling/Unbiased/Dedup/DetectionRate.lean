/-
# How often similar articles are found

The components of a signature are compared in bands, and one band that agrees is enough. If
every component numbers the shingles in an order of its own, a component agrees with the
similarity of the two articles, a band with its power, and some band with what the
bands amplify this to. So the share of the hash families under which the server finds a
stored article is known, whatever else it has filed.
-/

import Unbiased.Clustering.Similarity
import Unbiased.Dedup.NearDuplicates
import Unbiased.Math.Shares

namespace Unbiased

open Unbiased.Math
open scoped Nat

/-- The id of an article with its shingles. -/
abbrev DocShingles := Bytes × SortedSet Int32

/-- A numbering of some shingles for each component of a signature. -/
abbrev HashFamily (all : Finset Int32) := Fin signatureSize → Numbering all

/-- The hashes that number shingles in the order of a family. -/
def familyHash {all : Finset Int32} (murmur : Murmur) (family : HashFamily all) : Murmur :=
  fun elem seed =>
    if h : seed < signatureSize ∧ elem ∈ all then
      Int32.ofNat (family ⟨seed, h.1⟩ ⟨elem, h.2⟩)
    else murmur elem seed

/-- The article as the engine asks about it. -/
def signDoc (murmur : Murmur) (doc : DocShingles) : DocSignature :=
  (doc.1, MinHash.engine.computeSignature murmur doc.2)

/-- The share of the shingles that two articles have in common. -/
def jaccard (first second : SortedSet Int32) : ℚ :=
  (first.toFinset ∩ second.toFinset).card / (first.toFinset ∪ second.toFinset).card

/-- A server that was made from some documents and asked about others finds an id when it is
asked about one more. -/
def Detects (hashCombine : HashCombine) (docs calls : List DocSignature) (asked : DocSignature)
    (id : Bytes) : Prop :=
  ∃ lsh duplicates next,
    (LSHDeduplication.make hashCombine signatureSize docs).bind
      (fun lsh => run (LSHDeduplication.call hashCombine) lsh calls) = some lsh ∧
    lsh.processSignature hashCombine asked = some (duplicates, next) ∧ id ∈ duplicates ∧
    (ArticleDedup.mk lsh).isDuplicate hashCombine asked = some (true, ⟨next⟩)

theorem detects_iff {hashCombine : HashCombine} {docs calls : List DocSignature}
    {asked : DocSignature} {id : Bytes} (hids : asked.1 ≠ id) :
    Detects hashCombine docs calls asked id ↔
      ∃ signature, (id, signature) ∈ docs ++ calls ∧ ShareBand hashCombine asked.2 signature := by
  obtain ⟨initial, hmake, hinitial⟩ := LSHDeduplication.make_knows hashCombine docs
  obtain ⟨lsh, hcalls, hlsh⟩ := hinitial.calls calls
  obtain ⟨duplicates, next, hanswer, hmem, -⟩ := hlsh.processSignature asked
  have hserver : (LSHDeduplication.make hashCombine signatureSize docs).bind
      (fun lsh => run (LSHDeduplication.call hashCombine) lsh calls) = some lsh := by
    rw [hmake, Option.bind_some, hcalls]
  constructor
  · rintro ⟨server, found, after, hrun, hfound, hid, -⟩
    obtain rfl : lsh = server := Option.some.inj (hserver.symm.trans hrun)
    rw [hanswer] at hfound
    cases hfound
    exact ((hmem id).mp hid).resolve_left hids.symm
  · rintro ⟨signature, hdoc, hshare⟩
    have hid : id ∈ duplicates := (hmem id).mpr (Or.inr ⟨signature, hdoc, hshare⟩)
    refine ⟨lsh, duplicates, next, hserver, hanswer, hid, ?_⟩
    have hmany : 1 < duplicates.size :=
      (SortedSet.one_lt_size_iff ((hmem asked.1).mpr (Or.inl rfl))).mpr ⟨id, hid, hids.symm⟩
    rw [ArticleDedup.isDuplicate, hanswer, Option.bind_eq_bind, Option.bind_some]
    dsimp only
    rw [decide_eq_true hmany]

/-! ## One component -/

section Component

variable {all : Finset Int32} {murmur : Murmur} {first second : SortedSet Int32}

/-- The first shingle of the two articles is one they have in common. -/
def FirstIsCommon (all : Finset Int32) (first second : SortedSet Int32)
    (numbering : Numbering all) : Prop :=
  ∃ shingle ∈ MinHash.within all (first.toFinset ∩ second.toFinset),
    ComesFirst (MinHash.within all (first.toFinset ∪ second.toFinset)) numbering shingle

instance (all : Finset Int32) (first second : SortedSet Int32) (numbering : Numbering all) :
    Decidable (FirstIsCommon all first second numbering) :=
  inferInstanceAs (Decidable (∃ shingle ∈ _, _))

theorem share_firstIsCommon (hfirst : first.toFinset ⊆ all) (hsecond : second.toFinset ⊆ all)
    (hne : (first.toFinset ∪ second.toFinset).Nonempty) :
    share (FirstIsCommon all first second) = jaccard first second := by
  have hunion := Finset.union_subset hfirst hsecond
  have hinter : first.toFinset ∩ second.toFinset ⊆ first.toFinset ∪ second.toFinset :=
    Finset.inter_subset_left.trans Finset.subset_union_left
  have hnonempty : (MinHash.within all (first.toFinset ∪ second.toFinset)).Nonempty := by
    rw [← Finset.card_pos, MinHash.card_within hunion]
    exact hne.card_pos
  have hcount := card_comesFirst_mul_card hnonempty
    (show MinHash.within all (first.toFinset ∩ second.toFinset) ⊆
      MinHash.within all (first.toFinset ∪ second.toFinset) from
        fun shingle hshingle => MinHash.mem_within.mpr (hinter (MinHash.mem_within.mp hshingle)))
  rw [MinHash.card_within hunion, MinHash.card_within (hinter.trans hunion)] at hcount
  have hall : ((Fintype.card all)! : ℚ) ≠ 0 := Nat.cast_ne_zero.mpr (Nat.factorial_ne_zero _)
  have hpos : ((first.toFinset ∪ second.toFinset).card : ℚ) ≠ 0 :=
    Nat.cast_ne_zero.mpr hne.card_pos.ne'
  rw [share, jaccard, Nat.card_eq_fintype_card, Nat.card_eq_fintype_card, Fintype.card_subtype,
    Fintype.card_numbering, div_eq_div_iff hall hpos,
    mul_comm ((first.toFinset ∩ second.toFinset).card : ℚ)]
  exact_mod_cast hcount

/-- A component is that of its own numbering. -/
theorem computeSignature_familyHash (family : HashFamily all) (shingles : SortedSet Int32)
    (component : Fin signatureSize) :
    MinHash.engine.computeSignature (familyHash murmur family) shingles component =
      MinHash.engine.computeSignature
        (MinHash.numberedHash murmur component (family component)) shingles component := by
  have hhash : MinHash.reducedHash (familyHash murmur family) MinHash.engine component =
      MinHash.reducedHash (MinHash.numberedHash murmur component (family component))
        MinHash.engine component := by
    funext elem
    rw [MinHash.reducedHash, MinHash.reducedHash, familyHash, MinHash.numberedHash]
    by_cases helem : elem ∈ all
    · rw [dif_pos ⟨component.isLt, helem⟩, dif_pos ⟨rfl, helem⟩]
    · rw [dif_neg fun h => helem h.2, dif_neg fun h => helem h.2]
  have hleft := MinHash.computeSignature_castLE (familyHash murmur family) MinHash.engine shingles
    component
  have hright := MinHash.computeSignature_castLE
    (MinHash.numberedHash murmur component (family component)) MinHash.engine shingles component
  rw [hhash, ← hright] at hleft
  exact hleft

/-- A component agrees if its numbering puts a common shingle first. -/
theorem component_familyHash_eq_iff (hfirst : first.toFinset ⊆ all)
    (hsecond : second.toFinset ⊆ all) (hne : (first.toFinset ∪ second.toFinset).Nonempty)
    (hcard : all.card ≤ minHashRangeMax.toInt) (family : HashFamily all)
    (component : Fin signatureSize) :
    MinHash.engine.computeSignature (familyHash murmur family) first component =
        MinHash.engine.computeSignature (familyHash murmur family) second component ↔
      FirstIsCommon all first second (family component) := by
  have hnonempty : (MinHash.within all (first.toFinset ∪ second.toFinset)).Nonempty := by
    rw [← Finset.card_pos, MinHash.card_within (Finset.union_subset hfirst hsecond)]
    exact hne.card_pos
  obtain ⟨shingle, hleast⟩ := exists_comesFirst hnonempty (family component)
  have hequal : MinHash.engine.computeSignature
        (MinHash.numberedHash murmur component (family component)) first component =
      MinHash.engine.computeSignature
        (MinHash.numberedHash murmur component (family component)) second component ↔
      shingle.val ∈ first ∧ shingle.val ∈ second :=
    MinHash.component_eq_iff hfirst hsecond hcard (by decide) hleast
  rw [computeSignature_familyHash, computeSignature_familyHash, hequal]
  constructor
  · rintro ⟨hinFirst, hinSecond⟩
    exact ⟨shingle, MinHash.mem_within.mpr (Finset.mem_inter.mpr ⟨hinFirst, hinSecond⟩), hleast⟩
  · rintro ⟨other, hother, hfirstOther⟩
    obtain rfl := hleast.unique hfirstOther
    exact Finset.mem_inter.mp (MinHash.mem_within.mp hother)

end Component

/-! ## The bands -/

/-- The rows of all bands are the rows of a signature. -/
noncomputable def rowsEquiv : Fin bandsNo × Fin bandSize ≃ Fin signatureSize :=
  Equiv.ofBijective (fun place => bandRow place.1 place.2) (by
    rw [Fintype.bijective_iff_injective_and_card]
    constructor
    · rintro ⟨band, row⟩ ⟨other, otherRow⟩ h
      have hsame : bandRow band row = bandRow other otherRow := h
      obtain rfl := band_of_bandRow hsame
      have hval : 5 * band.val + row.val = 5 * band.val + otherRow.val :=
        congrArg Fin.val hsame
      rw [Fin.ext (Nat.add_left_cancel hval)]
    · rfl)

/-- The share of the families with a band that has a property throughout. -/
theorem share_bands {all : Finset Int32} (p : Numbering all → Prop) :
    share (fun family : HashFamily all => ∃ band, ∀ row, p (family (bandRow band row))) =
      1 - (1 - share p ^ bandSize) ^ bandsNo := by
  have hnonempty : Nonempty (Numbering all) := ⟨Fintype.equivFin all⟩
  have hblocks := share_exists_forall (ι := Fin bandsNo) (κ := Fin bandSize) p
  rw [Nat.card_eq_fintype_card, Nat.card_eq_fintype_card, Fintype.card_fin,
    Fintype.card_fin] at hblocks
  rw [← hblocks]
  exact share_comp_equiv (Equiv.arrowCongr rowsEquiv.symm (Equiv.refl (Numbering all)))
    fun family => ∃ band, ∀ row, p (family (band, row))

section Detection

variable {all : Finset Int32} {murmur : Murmur} {hashCombine : HashCombine}
  {docs calls : List DocShingles} {stored asked : DocShingles}

/-- No family gives two articles bands that differ and have one key. -/
def NeverClash (hashCombine : HashCombine) (murmur : Murmur) (all : Finset Int32)
    (first second : SortedSet Int32) : Prop :=
  ∀ (family : HashFamily all) (band : Fin bandsNo),
    let signature := MinHash.engine.computeSignature (familyHash murmur family)
    bandKey hashCombine band (signature first) = bandKey hashCombine band (signature second) →
      ∀ row, signature first (bandRow band row) = signature second (bandRow band row)

/-- A server finds an id through a document that was filed under it. -/
theorem detects_signDoc_iff {id : Bytes} (hids : asked.1 ≠ id) (signed : DocShingles → Signature) :
    Detects hashCombine (docs.map fun doc => (doc.1, signed doc))
        (calls.map fun doc => (doc.1, signed doc)) (asked.1, signed asked) id ↔
      ∃ doc ∈ docs ++ calls, doc.1 = id ∧ ShareBand hashCombine (signed asked) (signed doc) := by
  rw [detects_iff hids, ← List.map_append]
  constructor
  · rintro ⟨signature, hmem, hshare⟩
    obtain ⟨doc, hdoc, heq⟩ := List.mem_map.mp hmem
    cases heq
    exact ⟨doc, hdoc, rfl, hshare⟩
  · rintro ⟨doc, hdoc, rfl, hshare⟩
    exact ⟨signed doc, List.mem_map.mpr ⟨doc, hdoc, rfl⟩, hshare⟩

/-- **How often similar articles are found.** A server that was given an article finds it for
another one under at least the share of the hash families that the bands amplify the
similarity of the two to, and under exactly that share if no bands clash and the id
stands for that article alone. -/
theorem share_detects (hashCombine : HashCombine) (murmur : Murmur)
    (docs calls : List DocShingles) (stored asked : DocShingles)
    (hstored : stored ∈ docs ++ calls) (hids : asked.1 ≠ stored.1)
    (hstoredAll : stored.2.toFinset ⊆ all) (haskedAll : asked.2.toFinset ⊆ all)
    (hne : (stored.2.toFinset ∪ asked.2.toFinset).Nonempty)
    (hcard : all.card ≤ minHashRangeMax.toInt) :
    1 - (1 - jaccard stored.2 asked.2 ^ bandSize) ^ bandsNo ≤
      share (fun family : HashFamily all =>
        Detects hashCombine (docs.map (signDoc (familyHash murmur family)))
          (calls.map (signDoc (familyHash murmur family)))
          (signDoc (familyHash murmur family) asked) stored.1) ∧
    (NeverClash hashCombine murmur all asked.2 stored.2 →
      (∀ doc ∈ docs ++ calls, doc.1 = stored.1 → doc = stored) →
      share (fun family : HashFamily all =>
        Detects hashCombine (docs.map (signDoc (familyHash murmur family)))
          (calls.map (signDoc (familyHash murmur family)))
          (signDoc (familyHash murmur family) asked) stored.1) =
        1 - (1 - jaccard stored.2 asked.2 ^ bandSize) ^ bandsNo) := by
  have hrate := share_bands (FirstIsCommon all stored.2 asked.2)
  rw [share_firstIsCommon hstoredAll haskedAll hne] at hrate
  rw [← hrate]
  have hequal : ∀ (family : HashFamily all) component,
      MinHash.engine.computeSignature (familyHash murmur family) stored.2 component =
          MinHash.engine.computeSignature (familyHash murmur family) asked.2 component ↔
        FirstIsCommon all stored.2 asked.2 (family component) :=
    component_familyHash_eq_iff hstoredAll haskedAll hne hcard
  constructor
  · apply share_mono
    rintro family ⟨band, hband⟩
    apply (detects_signDoc_iff hids _).mpr
    refine ⟨stored, hstored, rfl, band, bandKey_congr fun row => ?_⟩
    exact ((hequal family _).mpr (hband row)).symm
  · intro hclash hunique
    apply share_congr
    intro family
    apply (detects_signDoc_iff hids _).trans
    constructor
    · rintro ⟨doc, hdoc, hid, band, hkey⟩
      obtain rfl := hunique doc hdoc hid
      refine ⟨band, fun row => (hequal family _).mp ?_⟩
      exact (hclash family band hkey row).symm
    · rintro ⟨band, hband⟩
      refine ⟨stored, hstored, rfl, band, bandKey_congr fun row => ?_⟩
      exact ((hequal family _).mpr (hband row)).symm

/-- Two articles of which the second has one shingle more, after an unrelated one. -/
theorem share_detects_halved :
    1 - (1 - jaccard (SortedSet.empty.insert 1) ((SortedSet.empty.insert 1).insert 2) ^
        bandSize) ^ bandsNo ≤
      share (fun family : HashFamily {1, 2} =>
        Detects manualHashCombine
          ([([97], SortedSet.empty.insert 3)].map
            (signDoc (familyHash (fun elem _ => elem) family)))
          ([([98], SortedSet.empty.insert 1)].map
            (signDoc (familyHash (fun elem _ => elem) family)))
          (signDoc (familyHash (fun elem _ => elem) family)
            ([99], (SortedSet.empty.insert 1).insert 2)) [98]) :=
  (share_detects manualHashCombine (fun elem _ => elem) [([97], SortedSet.empty.insert 3)]
    [([98], SortedSet.empty.insert 1)] ([98], SortedSet.empty.insert 1)
    ([99], (SortedSet.empty.insert 1).insert 2) (by decide) (by decide) (by decide) (by decide)
    (by decide) (by decide)).1

end Detection

end Unbiased
