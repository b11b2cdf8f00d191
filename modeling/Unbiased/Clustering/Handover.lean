/-
# The vocabulary that is handed to the online engine

Validation reads the dictionary and the stop words. The start-up program reads
both from its files, and saves the stems and the stop words; the online engine
loads the stems. So the two programs validate with different vocabularies: the
loaded one has neither words nor stop words, and counts every long token as
unknown.
-/

import Unbiased.Clustering.Startup

namespace Unbiased

open Unbiased.Math

/-! ## What validation counts -/

/-- A token that validation counts as unknown. -/
def Vocabulary.isUnknown (vocab : Vocabulary) (token : Bytes) : Bool :=
  !vocab.isValidWord token && (!vocab.isStopWord token && 1 < token.length)

/-- The loop counts the unknown tokens. -/
theorem foldl_validateToken_fst (text : TextOps) (vocab : Vocabulary) (tokens : List Bytes)
    (state : ℕ × SortedSet Bytes) :
    (tokens.foldl (validateToken text vocab) state).1 =
      state.1 + tokens.countP vocab.isUnknown := by
  induction tokens generalizing state with
  | nil => rfl
  | cons token rest ih =>
      have hstep : (validateToken text vocab state token).1 =
          state.1 + if vocab.isUnknown token then 1 else 0 := by
        unfold validateToken Vocabulary.isUnknown
        cases vocab.isValidWord token with
        | true => simp
        | false =>
            cases !vocab.isStopWord token && decide (1 < token.length) with
            | true => simp
            | false => simp
      rw [List.foldl_cons, ih, hstep, List.countP_cons]
      omega

/-- The verdict on a list of tokens. -/
def Vocabulary.accepts (vocab : Vocabulary) (tokens : List Bytes) : Prop :=
  minTokensDefault ≤ tokens.length ∧
    (tokens.countP vocab.isUnknown + 1 : ℚ) ≤ invalidTokensThresholdDefault * tokens.length

/-- An article is valid if it has enough tokens and few enough of them are unknown. -/
theorem tokenizeValidate_eq_true_iff {text : TextOps} {vocab : Vocabulary} {article : Article}
    {validStems : SortedSet Bytes} {minTokens : ℕ} {threshold : ℚ} :
    (tokenizeValidate text vocab article validStems minTokens threshold).1 = true ↔
      minTokens ≤ (text.tokenize article.text).length ∧
        ((text.tokenize article.text).countP vocab.isUnknown + 1 : ℚ) ≤
          threshold * (text.tokenize article.text).length := by
  unfold tokenizeValidate
  by_cases hshort : (text.tokenize article.text).length < minTokens
  · simp [hshort]
  · simp [hshort, foldl_validateToken_fst, not_lt.mp hshort]

/-- **What validation decides.** -/
theorem validate_eq_true_iff (text : TextOps) (vocab : Vocabulary) (article : Article) :
    (validate text vocab article).1 = true ↔ vocab.accepts (text.tokenize article.text) :=
  tokenizeValidate_eq_true_iff

theorem mem_validate_stems (text : TextOps) (vocab : Vocabulary) (article : Article)
    (stem : Bytes) :
    stem ∈ (validate text vocab article).2.2 ↔
      minTokensDefault ≤ (text.tokenize article.text).length ∧
        ∃ word ∈ text.tokenize article.text,
          vocab.isValidWord word ∧ text.trimAndStem (text.toLower word) = stem :=
  mem_tokenizeValidate_stems.trans (or_iff_right (SortedSet.notMem_empty stem))

/-! ## What is loaded -/

/-- The pipeline's constructor, after the vocabulary was saved, ends with its stems. -/
theorem makePipeline_of_saved (newOid : ℕ → ObjectId) {s : System} {db : MongoDb}
    {vocab : Vocabulary} (hsaved : s.db.collections "vocabulary" =
      (saveVocabulary newOid db vocab).collections "vocabulary")
    (stemsFreq : Fin maxStemsNo → Int32) :
    makePipeline s stemsFreq = .ok { s with
      pipelineVocab := (Vocabulary.fresh stemsFreq).addStems vocab.stems
      processedArticles := 0 } := by
  rw [makePipeline, loadVocabulary_saveVocabulary newOid db vocab _ hsaved]
  rfl

/-- The number of tokens that are longer than a byte. -/
def longTokensNo (tokens : List Bytes) : ℕ := tokens.countP fun token => 1 < token.length

/-- The number of those among them that are no stop words. -/
def Vocabulary.longNonStopNo (vocab : Vocabulary) (tokens : List Bytes) : ℕ :=
  tokens.countP fun token => !vocab.isStopWord token && 1 < token.length

theorem longNonStopNo_le (vocab : Vocabulary) (tokens : List Bytes) :
    vocab.longNonStopNo tokens ≤ longTokensNo tokens := by
  apply List.countP_mono_left
  intro token _ hboth
  exact (Bool.and_eq_true_iff.mp hboth).2

/-- Without words of the dictionary, the unknown tokens are the long ones that are no
stop words. -/
theorem countP_isUnknown {vocab : Vocabulary} {tokens : List Bytes}
    (h : ∀ token ∈ tokens, vocab.isValidWord token = false) :
    tokens.countP vocab.isUnknown = vocab.longNonStopNo tokens := by
  apply List.countP_congr
  intro token htoken
  rw [Vocabulary.isUnknown, h token htoken]
  rfl

/-- The vocabulary that is loaded. -/
def Vocabulary.loaded (vocab : Vocabulary) (stemsFreq : Fin maxStemsNo → Int32) : Vocabulary :=
  (Vocabulary.fresh stemsFreq).addStems vocab.stems

theorem isValidWord_loaded (vocab : Vocabulary) (stemsFreq : Fin maxStemsNo → Int32)
    (word : Bytes) : (vocab.loaded stemsFreq).isValidWord word = false :=
  decide_eq_false (UnorderedSet.notMem_empty word)

/-- A loaded vocabulary counts every long token. -/
theorem longNonStopNo_loaded (vocab : Vocabulary) (stemsFreq : Fin maxStemsNo → Int32)
    (tokens : List Bytes) :
    (vocab.loaded stemsFreq).longNonStopNo tokens = longTokensNo tokens := by
  have hstop : ∀ token, (vocab.loaded stemsFreq).isStopWord token = false :=
    fun token => decide_eq_false (UnorderedSet.notMem_empty token)
  simp [Vocabulary.longNonStopNo, longTokensNo, hstop]

/-- An article without words of the dictionary has no valid stems. -/
theorem validate_stems_eq_empty {text : TextOps} {vocab : Vocabulary} {article : Article}
    (h : ∀ word ∈ text.tokenize article.text, vocab.isValidWord word = false) :
    (validate text vocab article).2.2 = SortedSet.empty := by
  ext stem
  rw [mem_validate_stems]
  refine iff_of_false ?_ (SortedSet.notMem_empty stem)
  rintro ⟨-, word, hword, hvalid, -⟩
  rw [h word hword] at hvalid
  cases hvalid

/-- The verdict and the valid stems of an article. -/
def verdictAndStems (text : TextOps) (vocab : Vocabulary) (article : Article) :
    Bool × SortedSet Bytes :=
  ((validate text vocab article).1, (validate text vocab article).2.2)

/-- The number of unknown tokens is low enough. -/
def UnknownFew (unknownTokensNo tokensNo : ℕ) : Prop :=
  (unknownTokensNo + 1 : ℚ) ≤ invalidTokensThresholdDefault * tokensNo

theorem UnknownFew.of_le {few many tokensNo : ℕ} (h : UnknownFew many tokensNo)
    (hle : few ≤ many) : UnknownFew few tokensNo := by
  have hcast : (few : ℚ) ≤ many := Nat.cast_le.mpr hle
  exact (add_le_add_left hcast 1).trans h

/-- **When the two programs agree on an article.** With a vocabulary and the one a
pipeline loads after it was saved, validation has the same verdict and stems
exactly if the article is too short, or it has no word of the dictionary and does
not owe its acceptance to the stop words. -/
theorem handover_agrees_iff (text : TextOps) {vocab : Vocabulary} {newOid : ℕ → ObjectId}
    {db : MongoDb} {s : System} (hsaved : s.db.collections "vocabulary" =
      (saveVocabulary newOid db vocab).collections "vocabulary")
    (loadedFreq : Fin maxStemsNo → Int32) (article : Article) :
    ∃ pipeline, makePipeline s loadedFreq = .ok pipeline ∧
      (verdictAndStems text pipeline.pipelineVocab article = verdictAndStems text vocab article ↔
        (text.tokenize article.text).length < minTokensDefault ∨
        (∀ token ∈ text.tokenize article.text, vocab.isValidWord token = false) ∧
        (UnknownFew (vocab.longNonStopNo (text.tokenize article.text))
            (text.tokenize article.text).length →
          UnknownFew (longTokensNo (text.tokenize article.text))
            (text.tokenize article.text).length)) := by
  refine ⟨_, makePipeline_of_saved newOid hsaved loadedFreq, ?_⟩
  have hnoWord : ∀ word ∈ text.tokenize article.text,
      (vocab.loaded loadedFreq).isValidWord word = false :=
    fun word _ => isValidWord_loaded vocab loadedFreq word
  show verdictAndStems text (vocab.loaded loadedFreq) article = _ ↔ _
  rw [verdictAndStems, verdictAndStems, Prod.mk.injEq, validate_stems_eq_empty hnoWord,
    Bool.eq_iff_iff, validate_eq_true_iff, validate_eq_true_iff, Vocabulary.accepts,
    Vocabulary.accepts, countP_isUnknown hnoWord, longNonStopNo_loaded]
  by_cases hshort : (text.tokenize article.text).length < minTokensDefault
  · refine iff_of_true ⟨?_, ?_⟩ (Or.inl hshort)
    · simp [hshort]
    · ext stem
      rw [mem_validate_stems]
      simp [hshort]
  · rw [or_iff_right hshort]
    have hlong := not_lt.mp hshort
    by_cases hwords : ∀ token ∈ text.tokenize article.text, vocab.isValidWord token = false
    · rw [validate_stems_eq_empty hwords, countP_isUnknown hwords]
      simp only [and_true, hlong, true_and]
      refine ⟨fun hiff => ⟨hwords, hiff.mpr⟩, fun hboth => ⟨fun hmany => ?_, hboth.2⟩⟩
      exact UnknownFew.of_le hmany (longNonStopNo_le vocab _)
    · -- a word of the dictionary leaves a stem in one of the sets only
      refine iff_of_false ?_ fun hboth => hwords hboth.1
      rintro ⟨-, hstems⟩
      push Not at hwords
      obtain ⟨token, htoken, hvalid⟩ := hwords
      have hmem := (mem_validate_stems text vocab article
        (text.trimAndStem (text.toLower token))).mpr
          ⟨hlong, token, htoken, Bool.eq_true_of_not_eq_false hvalid, rfl⟩
      rw [← hstems] at hmem
      exact SortedSet.notMem_empty _ hmem

/-- The state after the vocabulary of two words was saved. -/
def savedSystem : System :=
  { emptySystem with
    db := saveVocabulary letterEnv.newOid emptySystem.db letterVocabulary }

/-- The equivalence for an article that repeats one of them. -/
theorem handover_agrees_iff_letters :
    ∃ pipeline, makePipeline savedSystem (fun _ => 0) = .ok pipeline ∧
      (verdictAndStems letterText pipeline.pipelineVocab (letterArticle (List.replicate 100 97)) =
          verdictAndStems letterText letterVocabulary (letterArticle (List.replicate 100 97)) ↔
        (letterText.tokenize (letterArticle (List.replicate 100 97)).text).length <
          minTokensDefault ∨
        (∀ token ∈ letterText.tokenize (letterArticle (List.replicate 100 97)).text,
          letterVocabulary.isValidWord token = false) ∧
        (UnknownFew (letterVocabulary.longNonStopNo
              (letterText.tokenize (letterArticle (List.replicate 100 97)).text))
            (letterText.tokenize (letterArticle (List.replicate 100 97)).text).length →
          UnknownFew (longTokensNo
              (letterText.tokenize (letterArticle (List.replicate 100 97)).text))
            (letterText.tokenize (letterArticle (List.replicate 100 97)).text).length)) :=
  handover_agrees_iff letterText rfl (fun _ => 0) (letterArticle (List.replicate 100 97))

/-- That article is accepted with the words of the file, and not with the loaded
vocabulary. -/
theorem accepted_before_handover :
    ¬ ∀ (text : TextOps) (wordsFile stopwordsFile : Option Bytes)
      (stemsFreq loadedFreq : Fin maxStemsNo → Int32) (vocab : Vocabulary)
      (newOid : ℕ → ObjectId) (s pipeline : System) (article : Article),
      Vocabulary.ofFiles text wordsFile stopwordsFile stemsFreq = some vocab →
      makePipeline { s with db := saveVocabulary newOid s.db vocab } loadedFreq = .ok pipeline →
        verdictAndStems text pipeline.pipelineVocab article =
          verdictAndStems text vocab article := by
  intro hall
  have haccepted : (Vocabulary.ofFiles letterText (some [97, 97]) (some []) fun _ => 0).map
      (fun vocab => (verdictAndStems letterText vocab (letterArticle (List.replicate 100 97))).1) =
        some true := by
    decide +kernel
  obtain ⟨vocab, hfiles, hverdict⟩ := Option.map_eq_some_iff.mp haccepted
  have hsame := hall letterText (some [97, 97]) (some []) _ (fun _ => 0) vocab letterEnv.newOid
    emptySystem _ (letterArticle (List.replicate 100 97)) hfiles
    (makePipeline_of_saved letterEnv.newOid rfl _)
  rw [← hsame] at hverdict
  have haccepts := (validate_eq_true_iff letterText (vocab.loaded fun _ => 0) _).mp hverdict
  have hlong : longTokensNo (letterText.tokenize (letterArticle (List.replicate 100 97)).text) =
      100 := by
    decide +kernel
  have hlength : (letterText.tokenize (letterArticle (List.replicate 100 97)).text).length =
      100 := by
    decide +kernel
  have hfew := haccepts.2
  rw [countP_isUnknown fun word _ => isValidWord_loaded vocab _ word, longNonStopNo_loaded, hlong,
    hlength, invalidTokensThresholdDefault] at hfew
  norm_num at hfew

end Unbiased
