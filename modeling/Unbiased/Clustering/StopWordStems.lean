/-
# Stop words among the stems

Validation asks whether a token is a word of the dictionary before it asks whether the
token is a stop word, and never whether the stem of a word is one. So the stop words stay
out of the stems, over all runs, exactly if no word of the dictionary has a stop word for
its stem. The dictionary that the engine comes with has such words.
-/

import Unbiased.Clustering.StopWords
import Unbiased.Common.Porter2Stemmer
import Unbiased.Math.Loops

namespace Unbiased

open Unbiased.Math

/-! ## Calls that change the stems -/

/-- A vocabulary, and the set of stems that the caller collects for it. -/
structure StemState where
  vocabulary : Vocabulary
  validStems : SortedSet Bytes

/-- What a caller does with them. -/
inductive StemCall where
  | tokenizeValidate (article : Article) (minTokens : ℕ) (threshold : ℚ)
  /-- Hand the collected stems over. -/
  | addStems
  /-- Begin with an empty set. -/
  | discard

/-- One call. Merging leaves in the caller's set the stems that were known before. -/
def applyStemCall (text : TextOps) (s : StemState) : StemCall → StemState
  | .tokenizeValidate article minTokens threshold =>
    { s with validStems :=
        (tokenizeValidate text s.vocabulary article s.validStems minTokens threshold).2.2 }
  | .addStems => {
      vocabulary := s.vocabulary.addStems s.validStems
      validStems := .ofList (s.validStems.elems.filter fun stem => stem ∈ s.vocabulary.stems) }
  | .discard => { s with validStems := SortedSet.empty }

/-- The state after some calls on a new vocabulary. -/
def stemsAfter (text : TextOps) (vocab : Vocabulary) (calls : List StemCall) : StemState :=
  calls.foldl (applyStemCall text) ⟨vocab, SortedSet.empty⟩

/-- The stem of a word of the dictionary. -/
def StemOfWord (text : TextOps) (vocab : Vocabulary) (stem : Bytes) : Prop :=
  ∃ word ∈ vocab.words, text.trimAndStem (text.toLower word) = stem

/-- The dictionary stays as it is, and all stems are those of its words. -/
structure StemsOfWords (text : TextOps) (vocab : Vocabulary) (s : StemState) : Prop where
  words : s.vocabulary.words = vocab.words
  stems : ∀ stem ∈ s.vocabulary.stems, StemOfWord text vocab stem
  validStems : ∀ stem ∈ s.validStems, StemOfWord text vocab stem

variable {text : TextOps} {vocab : Vocabulary} {s : StemState}

/-- One call keeps this. -/
theorem StemsOfWords.step (h : StemsOfWords text vocab s) (call : StemCall) :
    StemsOfWords text vocab (applyStemCall text s call) := by
  cases call with
  | tokenizeValidate article minTokens threshold =>
      refine ⟨h.words, h.stems, fun stem hstem => ?_⟩
      rcases mem_tokenizeValidate_stems.mp hstem with hold | ⟨-, word, -, hvalid, hword⟩
      · exact h.validStems stem hold
      · rw [Vocabulary.isValidWord, h.words, decide_eq_true_eq] at hvalid
        exact ⟨word, hvalid, hword⟩
  | addStems =>
      refine ⟨h.words, fun stem hstem => ?_, fun stem hstem => ?_⟩
      · rcases SortedSet.mem_union.mp hstem with hold | hnew
        · exact h.stems stem hold
        · exact h.validStems stem hnew
      · exact h.validStems stem (List.mem_of_mem_filter (SortedSet.mem_ofList.mp hstem))
  | discard =>
      exact ⟨h.words, h.stems, fun stem hstem => absurd hstem (SortedSet.notMem_empty stem)⟩

/-- **Over a whole run**, stems are stems of words of the dictionary. -/
theorem stemsOfWords_stemsAfter (hnew : ∀ stem, stem ∉ vocab.stems) (calls : List StemCall) :
    StemsOfWords text vocab (stemsAfter text vocab calls) := by
  apply foldl_preserves
  · exact ⟨rfl, fun stem hstem => absurd hstem (hnew stem),
      fun stem hstem => absurd hstem (SortedSet.notMem_empty stem)⟩
  · exact fun s call hs => hs.step call

/-- Every stem of a word becomes a stem, through a long enough article that has the word. -/
theorem mem_stemsAfter {article : Article} {word : Bytes} {minTokens : ℕ}
    (hword : word ∈ vocab.words) (htoken : word ∈ text.tokenize article.text)
    (hlong : minTokens ≤ (text.tokenize article.text).length) (threshold : ℚ) :
    text.trimAndStem (text.toLower word) ∈ (stemsAfter text vocab
      [.tokenizeValidate article minTokens threshold, .addStems]).vocabulary.stems := by
  have hvalid : text.trimAndStem (text.toLower word) ∈
      (tokenizeValidate text vocab article SortedSet.empty minTokens threshold).2.2 :=
    mem_tokenizeValidate_stems.mpr (.inr ⟨hlong, word, htoken, decide_eq_true hword, rfl⟩)
  exact SortedSet.mem_union.mpr (.inr hvalid)

/-! ## Stop words -/

/-- No id is found for any stop word. -/
def StopWordsExcluded (vocab : Vocabulary) : Prop :=
  ∀ word ∈ vocab.stopWords, vocab.getStemId word = none

/-- No call touches the stop words. -/
theorem stopWords_stemsAfter (calls : List StemCall) :
    (stemsAfter text vocab calls).vocabulary.stopWords = vocab.stopWords := by
  apply foldl_preserves (P := fun s : StemState => s.vocabulary.stopWords = vocab.stopWords) rfl
  intro s call hs
  cases call with
  | tokenizeValidate article minTokens threshold => exact hs
  | addStems => exact hs
  | discard => exact hs

/-- **No stop word becomes a stem**, in any run on a vocabulary from files, exactly if no word
of the words file has a stop word for its stem. -/
theorem stopWordsExcluded_iff {wordsFile stopwordsFile : Option Bytes}
    {stemsFreq : Fin maxStemsNo → Int32}
    (hfiles : Vocabulary.ofFiles text wordsFile stopwordsFile stemsFreq = some vocab) :
    (∀ calls, StopWordsExcluded (stemsAfter text vocab calls).vocabulary) ↔
      ∀ word ∈ vocab.words, text.trimAndStem (text.toLower word) ∉ vocab.stopWords := by
  obtain ⟨wordsBytes, -, hrest⟩ := Option.bind_eq_some_iff.mp hfiles
  obtain ⟨stopwordsBytes, -, hvocab⟩ := Option.bind_eq_some_iff.mp hrest
  have hvocab := (Option.some.inj hvocab).symm
  have hnew : ∀ stem, stem ∉ vocab.stems := by
    rw [hvocab]
    exact fun stem => SortedSet.notMem_empty stem
  constructor
  · intro hexcluded word hword hstop
    -- An article with the text of the words file has every word of the dictionary.
    let article : Article := ⟨wordsBytes.takeWhile (· ≠ 10), [], .fresh⟩
    have htoken : word ∈ text.tokenize article.text := by
      rw [hvocab] at hword
      exact UnorderedSet.mem_ofList.mp hword
    have hmem := mem_stemsAfter hword htoken (Nat.zero_le _) 1
    have hnone := hexcluded [.tokenizeValidate article 0 1, .addStems] _
      (by rwa [stopWords_stemsAfter])
    rw [Vocabulary.getStemId_of_mem hmem] at hnone
    cases hnone
  · intro hdictionary calls stop hstop
    rw [stopWords_stemsAfter] at hstop
    apply Vocabulary.getStemId_eq_none
    intro hmem
    obtain ⟨word, hword, hstem⟩ := (stemsOfWords_stemsAfter hnew calls).stems stop hmem
    rw [← hstem] at hstop
    exact hdictionary word hword hstop

/-! ## Two dictionaries -/

/-- Words between blanks, stemmed by the Porter2 algorithm. -/
def porterText : TextOps := { letterText with trimAndStem := Porter2Stemmer.trimAndStem }

/-- The vocabulary from a file with one word and a file with one stop word. -/
def dictionaryOf (word stopWord : Bytes) : Vocabulary :=
  { Vocabulary.fresh fun _ => 0 with
    words := .ofList [word]
    stopWords := .ofList [stopWord] }

/-- A dictionary whose word has no stop word for its stem. -/
theorem stopWordsExcluded_running :
    Vocabulary.ofFiles porterText (some (ascii "running")) (some (ascii "will")) (fun _ => 0) =
        some (dictionaryOf (ascii "running") (ascii "will")) ∧
      ∀ calls, StopWordsExcluded (stemsAfter porterText
        (dictionaryOf (ascii "running") (ascii "will")) calls).vocabulary := by
  have hfiles : Vocabulary.ofFiles porterText (some (ascii "running")) (some (ascii "will"))
      (fun _ => 0) = some (dictionaryOf (ascii "running") (ascii "will")) := rfl
  refine ⟨hfiles, (stopWordsExcluded_iff hfiles).mpr fun word hword hstop => ?_⟩
  have hword : word = ascii "running" :=
    List.mem_singleton.mp (UnorderedSet.mem_ofList.mp hword)
  have hstem := List.mem_singleton.mp (UnorderedSet.mem_ofList.mp hstop)
  rw [hword] at hstem
  exact absurd hstem (by decide +kernel)

/-- An article that repeats a word of which the stem is a stop word. -/
def willedArticle : Article where
  text := (List.replicate 100 (ascii "willed ")).flatten
  tokens := []
  metaData := .fresh

/-- The calls of the start-up program for that article. -/
def willedCalls : List StemCall :=
  [.tokenizeValidate willedArticle minTokensDefault invalidTokensThresholdDefault, .addStems]

/-- A word and a stop word of the files that the engine comes with: the stop word is the stem
of the word. -/
theorem stop_word_becomes_stem :
    ¬ ∀ (text : TextOps) (wordsFile stopwordsFile : Option Bytes)
      (stemsFreq : Fin maxStemsNo → Int32) (vocab : Vocabulary),
      text.trimAndStem = Porter2Stemmer.trimAndStem →
        Vocabulary.ofFiles text wordsFile stopwordsFile stemsFreq = some vocab →
        (∀ word ∈ vocab.words, word ∉ vocab.stopWords) →
          ∀ calls, StopWordsExcluded (stemsAfter text vocab calls).vocabulary := by
  intro hall
  let vocab := dictionaryOf (ascii "willed") (ascii "will")
  have hfiles : Vocabulary.ofFiles porterText (some (ascii "willed")) (some (ascii "will"))
      (fun _ => 0) = some vocab := rfl
  have hword : ascii "willed" ∈ vocab.words :=
    UnorderedSet.mem_ofList.mpr (List.mem_singleton.mpr rfl)
  have hstop : ascii "will" ∈ vocab.stopWords :=
    UnorderedSet.mem_ofList.mpr (List.mem_singleton.mpr rfl)
  have hdisjoint : ∀ word ∈ vocab.words, word ∉ vocab.stopWords := by
    intro word hmem hstop
    have hword := List.mem_singleton.mp (UnorderedSet.mem_ofList.mp hmem)
    have hboth := List.mem_singleton.mp (UnorderedSet.mem_ofList.mp hstop)
    exact absurd (hword.symm.trans hboth) (by decide +kernel)
  have htoken : ascii "willed" ∈ porterText.tokenize willedArticle.text := by decide +kernel
  have hlong : minTokensDefault ≤ (porterText.tokenize willedArticle.text).length := by
    decide +kernel
  have hmem : porterText.trimAndStem (porterText.toLower (ascii "willed")) ∈
      (stemsAfter porterText vocab willedCalls).vocabulary.stems :=
    mem_stemsAfter hword htoken hlong invalidTokensThresholdDefault
  have hstem : porterText.trimAndStem (porterText.toLower (ascii "willed")) = ascii "will" :=
    Porter2Stemmer.trimAndStem_willed
  have hstopAfter :
      ascii "will" ∈ (stemsAfter porterText vocab willedCalls).vocabulary.stopWords := by
    rw [stopWords_stemsAfter]
    exact hstop
  have hnone := hall porterText _ _ _ vocab rfl hfiles hdisjoint willedCalls _ hstopAfter
  rw [hstem] at hmem
  rw [Vocabulary.getStemId_of_mem hmem] at hnone
  cases hnone

end Unbiased
