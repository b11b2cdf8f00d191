/-
# The labels of the entity recogniser

Each data set is given an encoder of its own, and the codes of all of them go into one
vector. A code is the position of a tag among the tags of its data set, so codes of
different sets mean the same tags only where the tags of one set begin those of the other.
-/

import Mathlib
import Unbiased.Math.CommonRanks
import Unbiased.Ner.Custom

namespace Unbiased

open Unbiased.Math

namespace Ner

/-- `LabelEncoder.fit`: the distinct labels, sorted. -/
def fitLabels (data : List Sample) : SortedSet PyStr := .ofList (data.map Sample.tag)

/-- `__build_targets`: the position of each label among those of its data set is appended. -/
def buildSetTargets (data : List Sample) (Y : List ℕ) : List ℕ :=
  Y ++ data.map fun sample => (fitLabels data).rank sample.tag

/-- `build_targets`. -/
def buildTargets (trainData testAData testBData : List Sample) (Y : List ℕ) : List ℕ :=
  buildSetTargets testBData (buildSetTargets testAData (buildSetTargets trainData Y))

/-- There is a label for each sample, and labels agree exactly where the tags do. -/
structure LabelsShared (samples : List Sample) (Y : List ℕ) : Prop where
  length : Y.length = samples.length
  iff : ∀ (i j : ℕ) (first second : Sample), samples[i]? = some first →
    samples[j]? = some second → (Y[i]? = Y[j]? ↔ first.tag = second.tag)

/-- The tags of one data set begin those of the other. -/
def Comparable (first second : List Sample) : Prop :=
  (fitLabels first).elems <+: (fitLabels second).elems ∨
    (fitLabels second).elems <+: (fitLabels first).elems

instance decidableComparable (first second : List Sample) : Decidable (Comparable first second) :=
  inferInstanceAs (Decidable (_ ∨ _))

/-- Codes of two data sets mean the same tags exactly if these are comparable. -/
theorem comparable_iff {first second : List Sample} :
    Comparable first second ↔ ∀ a ∈ first, ∀ b ∈ second,
      (fitLabels first).rank a.tag = (fitLabels second).rank b.tag ↔ a.tag = b.tag := by
  rw [Comparable, ← SortedSet.rank_eq_rank_iff]
  simp only [fitLabels, SortedSet.mem_ofList, List.forall_mem_map]

/-- Each sample of some data sets with its code. -/
def codedSamples (sets : List (List Sample)) : List (Sample × ℕ) :=
  sets.flatMap fun data => data.map fun sample => (sample, (fitLabels data).rank sample.tag)

theorem mem_codedSamples {sets : List (List Sample)} {entry : Sample × ℕ} :
    entry ∈ codedSamples sets ↔
      ∃ data ∈ sets, ∃ sample ∈ data, (sample, (fitLabels data).rank sample.tag) = entry := by
  simp only [codedSamples, List.mem_flatMap, List.mem_map]

/-- Labels are shared if the codes of any two samples are. -/
theorem labelsShared_iff_forall_mem {entries : List (Sample × ℕ)} :
    LabelsShared (entries.map Prod.fst) (entries.map Prod.snd) ↔
      ∀ p ∈ entries, ∀ q ∈ entries, p.2 = q.2 ↔ p.1.tag = q.1.tag := by
  constructor
  · intro h p hp q hq
    obtain ⟨i, hi⟩ := List.mem_iff_getElem?.mp hp
    obtain ⟨j, hj⟩ := List.mem_iff_getElem?.mp hq
    have hpair := h.iff i j p.1 q.1 (by rw [List.getElem?_map, hi]; rfl)
      (by rw [List.getElem?_map, hj]; rfl)
    rw [List.getElem?_map, List.getElem?_map, hi, hj] at hpair
    simpa using hpair
  · intro h
    refine ⟨by rw [List.length_map, List.length_map], fun i j first second hfirst hsecond => ?_⟩
    rw [List.getElem?_map] at hfirst hsecond
    obtain ⟨p, hp, rfl⟩ := Option.map_eq_some_iff.mp hfirst
    obtain ⟨q, hq, rfl⟩ := Option.map_eq_some_iff.mp hsecond
    rw [List.getElem?_map, List.getElem?_map, hp, hq, Option.map_some, Option.map_some,
      Option.some.injEq]
    exact h p (List.mem_of_getElem? hp) q (List.mem_of_getElem? hq)

/-- The codes of some data sets are shared if any two sets are comparable. -/
theorem labelsShared_codedSamples_iff {sets : List (List Sample)} :
    LabelsShared ((codedSamples sets).map Prod.fst) ((codedSamples sets).map Prod.snd) ↔
      ∀ first ∈ sets, ∀ second ∈ sets, Comparable first second := by
  rw [labelsShared_iff_forall_mem]
  constructor
  · intro h first hfirst second hsecond
    rw [comparable_iff]
    intro a ha b hb
    exact h _ (mem_codedSamples.mpr ⟨first, hfirst, a, ha, rfl⟩) _
      (mem_codedSamples.mpr ⟨second, hsecond, b, hb, rfl⟩)
  · intro h p hp q hq
    obtain ⟨first, hfirst, a, ha, rfl⟩ := mem_codedSamples.mp hp
    obtain ⟨second, hsecond, b, hb, rfl⟩ := mem_codedSamples.mp hq
    exact comparable_iff.mp (h first hfirst second hsecond) a ha b hb

/-- The three calls append the codes of the three data sets. -/
theorem buildTargets_eq (trainData testAData testBData : List Sample) :
    buildTargets trainData testAData testBData [] =
      (codedSamples [trainData, testAData, testBData]).map Prod.snd := by
  simp [buildTargets, buildSetTargets, codedSamples, Function.comp_def]

theorem samples_eq (trainData testAData testBData : List Sample) :
    trainData ++ testAData ++ testBData =
      (codedSamples [trainData, testAData, testBData]).map Prod.fst := by
  simp [codedSamples, Function.comp_def]

/-- **Labels have one meaning** across the data sets exactly if of any two of them the tags of
one, in order, begin those of the other. -/
theorem labelsShared_iff (trainData testAData testBData : List Sample) :
    LabelsShared (trainData ++ testAData ++ testBData)
        (buildTargets trainData testAData testBData []) ↔
      ∀ first ∈ [trainData, testAData, testBData],
        ∀ second ∈ [trainData, testAData, testBData], Comparable first second := by
  rw [buildTargets_eq, samples_eq, labelsShared_codedSamples_iff]

/-- A word with a tag. -/
def taggedSample (tag : String) : Sample where
  word := pyStr "word"
  pos := pyStr "NN"
  chunk := pyStr "I-NP"
  tag := pyStr tag

/-- A person of a test set gets the label that no entity has in the training set. -/
theorem label_of_other_tag :
    ¬ ∀ trainData testAData testBData : List Sample,
      LabelsShared (trainData ++ testAData ++ testBData)
        (buildTargets trainData testAData testBData []) := by
  intro hall
  have hshared := hall [taggedSample "O", taggedSample "PER"] [taggedSample "PER"] []
  have hsame := (hshared.iff 0 2 (taggedSample "O") (taggedSample "PER") rfl rfl).mp
    (by decide +kernel)
  exact absurd hsame (by decide +kernel)

end Ner

end Unbiased
