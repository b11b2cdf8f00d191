/-
# Stop words in two loops

Validation looks a token up among the stop words as it stands, processing looks
up its lower-case form. So a stop word with a capital letter is passed over by
processing and may be counted as unknown by validation.
-/

import Unbiased.Clustering.Handover

namespace Unbiased

open Unbiased.Math

variable {text : TextOps} {vocab : Vocabulary}

/-! ## The verdict on a list of tokens -/

/-- The verdict on an article that is tokenized into this list. -/
def verdictOn (text : TextOps) (vocab : Vocabulary) (tokens : List Bytes) (minTokens : ℕ)
    (threshold : ℚ) : Bool :=
  (tokenizeValidate { text with tokenize := fun _ => tokens } vocab ⟨[], [], .fresh⟩ .empty
    minTokens threshold).1

theorem verdictOn_eq_true_iff {tokens : List Bytes} {minTokens : ℕ} {threshold : ℚ} :
    verdictOn text vocab tokens minTokens threshold = true ↔
      minTokens ≤ tokens.length ∧
        (tokens.countP vocab.isUnknown + 1 : ℚ) ≤ threshold * tokens.length :=
  tokenizeValidate_eq_true_iff

/-- The verdict of validation is the one on the article's tokens. -/
theorem tokenizeValidate_fst (text : TextOps) (vocab : Vocabulary) (article : Article)
    (validStems : SortedSet Bytes) (minTokens : ℕ) (threshold : ℚ) :
    (tokenizeValidate text vocab article validStems minTokens threshold).1 =
      verdictOn text vocab (text.tokenize article.text) minTokens threshold := by
  rw [Bool.eq_iff_iff, tokenizeValidate_eq_true_iff, verdictOn_eq_true_iff]

/-- The loop counts a token exactly if it is unknown. -/
theorem validateToken_fst_eq_iff {token : Bytes} :
    (∀ state, (validateToken text vocab state token).1 = state.1) ↔
      vocab.isUnknown token = false := by
  have hstep : ∀ state, (validateToken text vocab state token).1 =
      state.1 + if vocab.isUnknown token then 1 else 0 := by
    intro state
    rw [← List.countP_singleton, ← foldl_validateToken_fst text vocab [token] state]
    rfl
  simp only [hstep]
  cases vocab.isUnknown token with
  | false => simp
  | true => simpa using ⟨SortedSet.empty⟩

/-! ## Changes of letter case -/

/-- A token of which only the letter case is changed, if processing takes it for a
stop word. -/
def CaseVariant (text : TextOps) (vocab : Vocabulary) (token variant : Bytes) : Prop :=
  variant = token ∨
    vocab.isStopWord (text.toLower token) ∧ text.toLower variant = text.toLower token

/-- What processing takes for a stop word does not count against the article, and its
letter case does not matter. -/
structure StopWordsIgnored (text : TextOps) (vocab : Vocabulary) (tokens : List Bytes) :
    Prop where
  notCounted : ∀ token ∈ tokens, vocab.isStopWord (text.toLower token) →
    ∀ state, (validateToken text vocab state token).1 = state.1
  sameVerdict : ∀ variants, List.Forall₂ (CaseVariant text vocab) tokens variants →
    ∀ minTokens threshold, verdictOn text vocab variants minTokens threshold =
      verdictOn text vocab tokens minTokens threshold

/-- A token that validation passes over or knows, as it is spelled. -/
def Vocabulary.Spelled (vocab : Vocabulary) (token : Bytes) : Prop :=
  vocab.isValidWord token ∨ vocab.isStopWord token ∨ token.length ≤ 1

theorem spelled_iff {token : Bytes} : vocab.Spelled token ↔ vocab.isUnknown token = false := by
  unfold Vocabulary.Spelled Vocabulary.isUnknown
  cases vocab.isValidWord token with
  | true => simp
  | false =>
      cases vocab.isStopWord token with
      | true => simp
      | false => simp

theorem caseVariant_refl (token : Bytes) : CaseVariant text vocab token token := Or.inl rfl

/-- The verdict depends on the number of tokens and of unknown ones. -/
theorem verdictOn_congr {tokens variants : List Bytes} (hlength : variants.length = tokens.length)
    (hcount : variants.countP vocab.isUnknown = tokens.countP vocab.isUnknown) (minTokens : ℕ)
    (threshold : ℚ) :
    verdictOn text vocab variants minTokens threshold =
      verdictOn text vocab tokens minTokens threshold := by
  rw [Bool.eq_iff_iff, verdictOn_eq_true_iff, verdictOn_eq_true_iff, hlength, hcount]

/-- Two lists of one length that get the same verdict at every threshold have the
same number of unknown tokens. -/
theorem countP_le_of_verdictOn {tokens variants : List Bytes} (hne : tokens ≠ [])
    (hlength : variants.length = tokens.length)
    (h : ∀ threshold, verdictOn text vocab variants 0 threshold =
      verdictOn text vocab tokens 0 threshold) :
    variants.countP vocab.isUnknown ≤ tokens.countP vocab.isUnknown := by
  have hpos : (0 : ℚ) < tokens.length := by
    exact_mod_cast List.length_pos_iff.mpr hne
  -- at this threshold the list is just accepted
  have hexact : verdictOn text vocab tokens 0
      ((tokens.countP vocab.isUnknown + 1) / tokens.length) = true := by
    rw [verdictOn_eq_true_iff, div_mul_cancel₀ _ hpos.ne']
    exact ⟨Nat.zero_le _, le_rfl⟩
  rw [← h, verdictOn_eq_true_iff, hlength, div_mul_cancel₀ _ hpos.ne'] at hexact
  exact_mod_cast (add_le_add_iff_right 1).mp hexact.2

/-- Changes of letter case among spellings that are not counted change no count. -/
theorem CaseVariant.sameUnknown {token variant : Bytes} (h : CaseVariant text vocab token variant)
    (hspelled : vocab.isStopWord (text.toLower token) →
      ∀ spelling, text.toLower spelling = text.toLower token → vocab.Spelled spelling) :
    vocab.isUnknown variant = vocab.isUnknown token := by
  rcases h with rfl | ⟨hstop, hlower⟩
  · rfl
  · rw [spelled_iff.mp (hspelled hstop variant hlower), spelled_iff.mp (hspelled hstop token rfl)]

/-- **When stop words do not count against an article.** Every spelling of a token that
processing takes for a stop word is a stop word, a word of the dictionary or a
single byte. -/
theorem stopWordsIgnored_iff (text : TextOps) (vocab : Vocabulary) (tokens : List Bytes) :
    StopWordsIgnored text vocab tokens ↔
      ∀ token ∈ tokens, vocab.isStopWord (text.toLower token) →
        ∀ spelling, text.toLower spelling = text.toLower token → vocab.Spelled spelling := by
  constructor
  · rintro ⟨hnot, hsame⟩ token htoken hstop spelling hspelling
    rw [spelled_iff]
    by_contra hunknown
    have hcounted := Bool.eq_true_of_not_eq_false hunknown
    have hignored := validateToken_fst_eq_iff.mp (hnot token htoken hstop)
    -- the list with this one token in the other spelling has one unknown token more
    obtain ⟨before, behind, rfl⟩ := List.append_of_mem htoken
    have hvariants : List.Forall₂ (CaseVariant text vocab) (before ++ token :: behind)
        (before ++ spelling :: behind) := by
      apply List.rel_append (List.forall₂_same.mpr fun other _ => caseVariant_refl other)
      exact List.Forall₂.cons (Or.inr ⟨hstop, hspelling⟩)
        (List.forall₂_same.mpr fun other _ => caseVariant_refl other)
    have hle := countP_le_of_verdictOn (by simp) (by simp) (hsame _ hvariants 0)
    simp only [List.countP_append, List.countP_cons, hcounted, hignored] at hle
    simp at hle
  · intro hspelled
    refine ⟨fun token htoken hstop => ?_, fun variants hvariants => ?_⟩
    · exact validateToken_fst_eq_iff.mpr (spelled_iff.mp (hspelled token htoken hstop token rfl))
    · intro minTokens threshold
      apply verdictOn_congr hvariants.length_eq.symm
      have hboth := (List.forall₂_and_left tokens variants).mpr ⟨hspelled, hvariants⟩
      exact countP_eq_of_forall₂ (hboth.imp fun token variant h => h.2.sameUnknown h.1)

/-- Text functions that lower the letters of ASCII. -/
def asciiText : TextOps :=
  { letterText with
    toLower := fun word => word.map fun byte => if 65 ≤ byte ∧ byte ≤ 90 then byte + 32 else byte }

/-- A vocabulary with the stop word `the`. -/
def theVocabulary : Vocabulary :=
  { Vocabulary.fresh fun _ => 0 with stopWords := .ofList [[116, 104, 101]] }

/-- An article of a hundred tokens `The` is rejected at the default limits, and one of a
hundred tokens `the` is not. -/
theorem capital_stop_words_counted :
    ¬ ∀ (text : TextOps) (vocab : Vocabulary) (tokens : List Bytes),
      StopWordsIgnored text vocab tokens := by
  intro hall
  have hvariants : List.Forall₂ (CaseVariant asciiText theVocabulary)
      (List.replicate 100 [84, 104, 101]) (List.replicate 100 [116, 104, 101]) := by
    rw [List.forall₂_iff_get]
    refine ⟨by simp, fun idx hfirst hsecond => ?_⟩
    rw [List.get_eq_getElem, List.get_eq_getElem, List.getElem_replicate, List.getElem_replicate]
    exact Or.inr (by decide)
  have hsame := (hall asciiText theVocabulary _).sameVerdict _ hvariants minTokensDefault
    invalidTokensThresholdDefault
  exact absurd hsame (by decide +kernel)

end Unbiased
