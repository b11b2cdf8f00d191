/-
# The vocabulary

The engine numbers stems by their position in a sorted set. Counts and token
sets live in arrays indexed by those positions. Operations that touch the
arrays are partial: an id outside them stops the program on an assertion.

Text processing that the engine takes from libraries (case mapping, stemming,
word boundaries, string hashing) is a parameter throughout.
-/

import Unbiased.Common.TokensMap

namespace Unbiased

open Unbiased.Math

/-- The library functions on text. -/
structure TextOps where
  /-- `boost::locale::to_lower`. -/
  toLower : Bytes → Bytes
  /-- `Porter2Stemmer::trim` followed by `Porter2Stemmer::stem`. -/
  trimAndStem : Bytes → Bytes
  /-- The word segments of a text. -/
  tokenize : Bytes → List Bytes
  /-- `std::hash<std::string>`. -/
  hashString : Bytes → UInt64
  /-- `boost::hash_combine` of a seed and an unsigned value. -/
  hashCombine : UInt64 → UInt32 → UInt64

/-- The known stems, the dictionary and stop words, and the per-stem arrays. -/
structure Vocabulary where
  stems : SortedSet Bytes
  words : UnorderedSet Bytes
  stopWords : UnorderedSet Bytes
  stemsFreq : Fin maxStemsNo → Int32
  freqStemsNo : Int32
  stemidTokensMap : StemIdTokensRCUMap

namespace Vocabulary

/-- The default constructor. The count array is left as the memory it was given
held it; the language standard the engine is built with does not clear it. -/
def fresh (stemsFreq : Fin maxStemsNo → Int32) : Vocabulary where
  stems := SortedSet.empty
  words := UnorderedSet.empty
  stopWords := UnorderedSet.empty
  stemsFreq := stemsFreq
  freqStemsNo := 0
  stemidTokensMap := fun _ => none

/-- The constructor from a words file and a stop-words file. Only the first
line of each is read, and a file that cannot be opened throws. -/
def ofFiles (text : TextOps) (wordsFile stopwordsFile : Option Bytes)
    (stemsFreq : Fin maxStemsNo → Int32) : Option Vocabulary := do
  let wordsFile ← wordsFile
  let stopwordsFile ← stopwordsFile
  let newline : Fin 256 := 10
  let wordsStr := wordsFile.takeWhile (· ≠ newline)
  let stopwordsStr := stopwordsFile.takeWhile (· ≠ newline)
  some { fresh stemsFreq with
    stopWords := UnorderedSet.ofList (text.tokenize stopwordsStr)
    words := UnorderedSet.ofList (text.tokenize wordsStr) }

/-- Count one more article for a stem. The counts are atomic and wrap around. The number of
frequent stems is a plain `int32_t`, whose overflow is undefined; it wraps around here too, so
that it is the code's for fewer than `2 ^ 31` increments of it. -/
def increaseStemFreq (vocab : Vocabulary) (stemId : StemId) : Option Vocabulary := do
  let slot ← slot? stemId
  let freq := vocab.stemsFreq slot + 1
  some { vocab with
    stemsFreq := Function.update vocab.stemsFreq slot freq
    freqStemsNo := if 3 < freq then vocab.freqStemsNo + 1 else vocab.freqStemsNo }

/-- The number of articles a stem shows up in. -/
def getStemFreq (vocab : Vocabulary) (stemId : StemId) : Option Int32 := do
  let slot ← slot? stemId
  some (vocab.stemsFreq slot)

/-- All counts, each widened to `uint64_t`. -/
def getStemsFreq (vocab : Vocabulary) : List UInt64 :=
  List.ofFn fun slot => (vocab.stemsFreq slot).toInt64.toUInt64

/-- The number of stems that show up in more than three articles, as counted. -/
def getFreqStemsNo (vocab : Vocabulary) : UInt64 :=
  vocab.freqStemsNo.toInt64.toUInt64

/-- The stem at a position. A negative index is compared as a `size_t`, where it
exceeds the size of any container. -/
def getStem (vocab : Vocabulary) (idx : StemId) : Option Bytes :=
  if idx < 0 then none else vocab.stems.nth? idx.toInt.toNat

/-- The position of a stem, narrowed to a stem id. -/
def getStemId (vocab : Vocabulary) (stem : Bytes) : Option StemId :=
  (vocab.stems.position? stem).map Int32.ofNat

def isValidStem (vocab : Vocabulary) (stem : Bytes) : Bool := stem ∈ vocab.stems

def isStopWord (vocab : Vocabulary) (word : Bytes) : Bool := word ∈ vocab.stopWords

def isValidWord (vocab : Vocabulary) (word : Bytes) : Bool := word ∈ vocab.words

def stemsNo (vocab : Vocabulary) : ℕ := vocab.stems.size

/-- Merge a set of stems into the known ones. -/
def addStems (vocab : Vocabulary) (stems : SortedSet Bytes) : Vocabulary :=
  { vocab with stems := vocab.stems.union stems }

def addToken (vocab : Vocabulary) (stemId : StemId) (token : Bytes) : Option Vocabulary := do
  let map ← vocab.stemidTokensMap.addToken stemId token
  some { vocab with stemidTokensMap := map }

def getTokens (vocab : Vocabulary) (id : StemId) : Option (Option TokensSet) :=
  vocab.stemidTokensMap.getTokens id

/-! ## What the operations do -/

@[simp] theorem addStems_stems (vocab : Vocabulary) (stems : SortedSet Bytes) :
    (vocab.addStems stems).stems = vocab.stems.union stems := rfl

@[simp] theorem addStems_stemsFreq (vocab : Vocabulary) (stems : SortedSet Bytes) :
    (vocab.addStems stems).stemsFreq = vocab.stemsFreq := rfl

theorem getStemId_of_mem {vocab : Vocabulary} {stem : Bytes} (h : stem ∈ vocab.stems) :
    vocab.getStemId stem = some (Int32.ofNat (vocab.stems.rank stem)) := by
  rw [getStemId, SortedSet.position?_of_mem h, Option.map_some]

theorem getStemId_eq_none {vocab : Vocabulary} {stem : Bytes} (h : stem ∉ vocab.stems) :
    vocab.getStemId stem = none := by
  rw [getStemId, SortedSet.position?, if_neg h, Option.map_none]

theorem getStemId_eq_some {vocab : Vocabulary} {stem : Bytes} {id : StemId} :
    vocab.getStemId stem = some id ↔
      stem ∈ vocab.stems ∧ Int32.ofNat (vocab.stems.rank stem) = id := by
  by_cases h : stem ∈ vocab.stems
  · simp [getStemId_of_mem h, h]
  · simp [getStemId_eq_none h, h]

theorem increaseStemFreq_eq_some {vocab next : Vocabulary} {stemId : StemId} :
    vocab.increaseStemFreq stemId = some next ↔
      ∃ slot, slot? stemId = some slot ∧
        next = { vocab with
          stemsFreq := Function.update vocab.stemsFreq slot (vocab.stemsFreq slot + 1)
          freqStemsNo := if 3 < vocab.stemsFreq slot + 1 then vocab.freqStemsNo + 1
            else vocab.freqStemsNo } := by
  refine ⟨fun h => ?_, fun ⟨slot, hslot, hnext⟩ => ?_⟩
  · obtain ⟨slot, hslot, hnext⟩ := Option.bind_eq_some_iff.mp h
    exact ⟨slot, hslot, (Option.some.inj hnext).symm⟩
  · subst hnext
    simp [increaseStemFreq, hslot]

theorem addToken_eq_some {vocab next : Vocabulary} {stemId : StemId} {token : Bytes} :
    vocab.addToken stemId token = some next ↔
      ∃ slot, slot? stemId = some slot ∧
        next = { vocab with
          stemidTokensMap := Function.update vocab.stemidTokensMap slot
            (some (StemIdTokensRCUMap.withToken token (vocab.stemidTokensMap slot))) } := by
  refine ⟨fun h => ?_, fun ⟨slot, hslot, hnext⟩ => ?_⟩
  · obtain ⟨map, hmap, hnext⟩ := Option.bind_eq_some_iff.mp h
    obtain ⟨slot, hslot, hupdate⟩ := Option.bind_eq_some_iff.mp hmap
    obtain rfl := Option.some.inj hupdate
    exact ⟨slot, hslot, (Option.some.inj hnext).symm⟩
  · subst hnext
    simp [addToken, StemIdTokensRCUMap.addToken, hslot]

/-- A stem that is looked up is a stem of the vocabulary. -/
theorem mem_of_getStem {vocab : Vocabulary} {idx : StemId} {stem : Bytes}
    (h : vocab.getStem idx = some stem) : stem ∈ vocab.stems := by
  unfold getStem at h
  split at h
  · cases h
  · exact (SortedSet.nth?_eq_some.mp h).1

/-- A stem whose position fits the arrays is counted in that position's slot. -/
theorem getStemFreq_rank {vocab : Vocabulary} {stem : Bytes}
    (h : vocab.stems.rank stem < maxStemsNo) :
    vocab.getStemFreq (Int32.ofNat (vocab.stems.rank stem)) =
      some (vocab.stemsFreq ⟨vocab.stems.rank stem, h⟩) := by
  simp [getStemFreq, slot?_ofNat h]

theorem getTokens_rank {vocab : Vocabulary} {stem : Bytes}
    (h : vocab.stems.rank stem < maxStemsNo) :
    vocab.getTokens (Int32.ofNat (vocab.stems.rank stem)) =
      some (vocab.stemidTokensMap ⟨vocab.stems.rank stem, h⟩) := by
  simp [getTokens, StemIdTokensRCUMap.getTokens, slot?_ofNat h]

end Vocabulary

end Unbiased
