/-
# Known words stay known

Validation collects the stems of the dictionary words of an article, and
processing looks stems up in the vocabulary that they were merged into. The two
loops stem a word alike, so processing finds the stem of every dictionary word
that it keeps, whatever else was merged in before.
-/

import Unbiased.Clustering.ProcessedTokens
import Unbiased.Clustering.Startup

namespace Unbiased

open Unbiased.Math

variable {text : TextOps} {collect : Bool} {vocab : Vocabulary}

/-! ## The log of the loop -/

/-- The stem and the lower-case token that are logged as an invalid stem. -/
abbrev InvalidStem := Bytes × Bytes

/-- What the loop logs of a token: a token that it keeps and whose stem is unknown. -/
def Vocabulary.invalidStem? (text : TextOps) (vocab : Vocabulary) (token : Bytes) :
    Option InvalidStem :=
  let lowerToken := text.toLower token
  let stem := text.trimAndStem lowerToken
  if vocab.keeps lowerToken ∧ vocab.getStemId stem = none then some (stem, lowerToken) else none

/-- The loop body, with the log. -/
def processTokenLogged (text : TextOps) (collect : Bool) (tokens : List Bytes)
    (state : TokenLoop × List InvalidStem) (entry : Bytes × ℕ) :
    Option (TokenLoop × List InvalidStem) := do
  let next ← processToken text collect tokens state.1 entry
  some (next, state.2 ++ (state.1.vocabulary.invalidStem? text entry.1).toList)

/-- Process the tokens of an article, and return what was logged as well. -/
def processTokensLogged (text : TextOps) (collect : Bool) (vocab : Vocabulary)
    (article : Article) (processedArticle : ProcessedArticle) :
    Option ((Vocabulary × ProcessedArticle × SortedSet Int32) × List InvalidStem) := do
  let (final, log) ← run (processTokenLogged text collect article.tokens)
    (TokenLoop.start vocab article processedArticle, []) article.tokens.zipIdx
  some ((final.vocabulary, final.article, final.shingles), log)

/-- Stems and stop words decide what is logged. -/
theorem Vocabulary.invalidStem?_congr {first second : Vocabulary}
    (hstems : second.stems = first.stems) (hstop : second.stopWords = first.stopWords)
    (token : Bytes) : second.invalidStem? text token = first.invalidStem? text token := by
  cases first
  cases second
  cases hstems
  cases hstop
  rfl

/-- The log changes nothing else. -/
theorem map_processTokensLogged (text : TextOps) (collect : Bool) (vocab : Vocabulary)
    (article : Article) (processed : ProcessedArticle) :
    (processTokensLogged text collect vocab article processed).map Prod.fst =
      processTokens text collect vocab article processed := by
  have hstep : ∀ state entry, processToken text collect article.tokens (Prod.fst state) entry =
      (processTokenLogged text collect article.tokens state entry).map Prod.fst := by
    intro state entry
    unfold processTokenLogged
    cases processToken text collect article.tokens state.1 entry with
    | none => rfl
    | some next => rfl
  have hrun := run_simulates hstep (TokenLoop.start vocab article processed, [])
    article.tokens.zipIdx
  unfold processTokensLogged processTokens
  rw [hrun]
  cases run (processTokenLogged text collect article.tokens)
      (TokenLoop.start vocab article processed, []) article.tokens.zipIdx with
  | none => rfl
  | some state => rfl

/-- The log lists what is logged of each token. -/
theorem log_eq {article : Article} {processed : ProcessedArticle}
    {result : Vocabulary × ProcessedArticle × SortedSet Int32} {log : List InvalidStem}
    (h : processTokensLogged text collect vocab article processed = some (result, log)) :
    log = article.tokens.filterMap (vocab.invalidStem? text) := by
  obtain ⟨⟨loop, logged⟩, hrun, hfinal⟩ := Option.bind_eq_some_iff.mp h
  cases hfinal
  have hinv := run_invariant
    (P := fun (hist : List (Bytes × ℕ)) (state : TokenLoop × List InvalidStem) =>
      state.1.vocabulary.stems = vocab.stems ∧ state.1.vocabulary.stopWords = vocab.stopWords ∧
        state.2 = (hist.map Prod.fst).filterMap (vocab.invalidStem? text))
    ⟨rfl, rfl, rfl⟩ ?_ hrun
  · rw [List.zipIdx_map_fst] at hinv
    exact hinv.2.2
  · rintro hist ⟨before, logged⟩ ⟨token, tidx⟩ next ⟨hstems, hstop, hlogged⟩ hstep
    obtain ⟨after, hprocess, hnext⟩ := Option.bind_eq_some_iff.mp hstep
    cases hnext
    have hkept := processToken_stems hprocess
    refine ⟨hkept.1.trans hstems, hkept.2.trans hstop, ?_⟩
    simp only at hlogged
    rw [List.map_append, List.filterMap_append, ← hlogged, List.map_singleton,
      Vocabulary.invalidStem?_congr hstems hstop]
    cases hmessage : vocab.invalidStem? text token with
    | none => simp [hmessage]
    | some message => simp [hmessage]

/-! ## Validated words -/

/-- A stem that is logged is unknown. -/
theorem notMem_stems_of_invalidStem? {token stem lowerToken : Bytes}
    (h : vocab.invalidStem? text token = some (stem, lowerToken)) : stem ∉ vocab.stems := by
  intro hmem
  obtain ⟨⟨-, hunknown⟩, hmessage⟩ := Option.ite_none_right_eq_some.mp h
  cases hmessage
  rw [Vocabulary.getStemId_of_mem hmem] at hunknown
  cases hunknown

/-- What processing leaves of the dictionary words of a list of tokens. -/
structure KnownWordsRecorded (text : TextOps) (vocab : Vocabulary) (tokens : List Bytes)
    (final : ProcessedArticle) (log : List InvalidStem) : Prop where
  stemIds : final.stemIds = tokens.filterMap (vocab.recordedId? text)
  /-- A kept word has the id of its stem, and the id is in the list. -/
  recorded : ∀ token ∈ tokens, vocab.isValidWord token → vocab.keeps (text.toLower token) →
    ∃ id, vocab.getStemId (text.trimAndStem (text.toLower token)) = some id ∧
      vocab.recordedId? text token = some id ∧ id ∈ final.stemIds
  /-- No word is logged as an invalid stem. -/
  notLogged : ∀ token ∈ tokens, vocab.isValidWord token →
    (text.trimAndStem (text.toLower token), text.toLower token) ∉ log

/-- Known words are recorded by a vocabulary that has their stems. -/
theorem knownWordsRecorded_of_mem_stems {article : Article} {uninitialised : Signature}
    {after : Vocabulary} {final : ProcessedArticle} {shingles : SortedSet Int32}
    {log : List InvalidStem}
    (hstems : ∀ token ∈ article.tokens, vocab.isValidWord token →
      text.trimAndStem (text.toLower token) ∈ vocab.stems)
    (h : processTokensLogged text collect vocab article (.fresh uninitialised) =
      some ((after, final, shingles), log)) :
    KnownWordsRecorded text vocab article.tokens final log := by
  have hrun : processTokens text collect vocab article (.fresh uninitialised) =
      some (after, final, shingles) := by
    rw [← map_processTokensLogged, h]
    rfl
  have hids : final.stemIds = article.tokens.filterMap (vocab.recordedId? text) := by
    have ⟨_, _, hfinal⟩ := processTokens_spec hrun
    rw [hfinal]
    exact List.nil_append _
  exact {
    stemIds := hids
    recorded := by
      intro token htoken hword hkeeps
      have hid := Vocabulary.getStemId_of_mem (hstems token htoken hword)
      have hrecorded := Vocabulary.recordedId?_eq_some.mpr ⟨hkeeps, hid⟩
      exact ⟨_, hid, hrecorded, hids ▸ List.mem_filterMap.mpr ⟨token, htoken, hrecorded⟩⟩
    notLogged := by
      intro token htoken hword hlogged
      rw [log_eq h, List.mem_filterMap] at hlogged
      have ⟨_, _, hmessage⟩ := hlogged
      exact notMem_stems_of_invalidStem? hmessage (hstems token htoken hword) }

/-- **Known words stay known.** Processing a valid article after its stems, and any
others, were added completes if they fit the arrays, and whenever it completes, it
records every dictionary word that it keeps, and logs none. -/
theorem valid_words_recorded (text : TextOps) (collect : Bool) (vocab : Vocabulary)
    (article : Article) (initial further : SortedSet Bytes) (minTokens : ℕ) (threshold : ℚ)
    (uninitialised : Signature) {tokenized : Article} {validStems : SortedSet Bytes}
    (hvalid : tokenizeValidate text vocab article initial minTokens threshold =
      (true, tokenized, validStems)) :
    (((vocab.addStems validStems).addStems further).stemsNo ≤ maxStemsNo → ∃ result log,
      processTokensLogged text collect ((vocab.addStems validStems).addStems further) tokenized
        (.fresh uninitialised) = some (result, log)) ∧
    ∀ after final shingles log,
      processTokensLogged text collect ((vocab.addStems validStems).addStems further) tokenized
        (.fresh uninitialised) = some ((after, final, shingles), log) →
      KnownWordsRecorded text ((vocab.addStems validStems).addStems further) tokenized.tokens
        final log := by
  constructor
  · intro hfits
    have ⟨after, final, shingles, hrun⟩ :=
      exists_processTokens_of_fits text collect hfits tokenized (.fresh uninitialised)
    rw [← map_processTokensLogged] at hrun
    have ⟨⟨result, log⟩, hlog, _⟩ := Option.map_eq_some_iff.mp hrun
    exact ⟨result, log, hlog⟩
  · intro after final shingles log h
    apply knownWordsRecorded_of_mem_stems _ h
    intro token htoken hword
    have htrue : (tokenizeValidate text vocab article initial minTokens threshold).1 = true := by
      rw [hvalid]
    have htokens : tokenized.tokens = text.tokenize article.text := by
      rw [← tokenizeValidate_tokens text vocab article initial minTokens threshold, hvalid]
    have hmem : text.trimAndStem (text.toLower token) ∈
        (tokenizeValidate text vocab article initial minTokens threshold).2.2 := by
      rw [mem_tokenizeValidate_stems]
      exact Or.inr ⟨le_length_of_tokenizeValidate htrue, token, htokens ▸ htoken, hword, rfl⟩
    rw [hvalid] at hmem
    simp [hmem]

/-- A dictionary with the word `aa` only. -/
def letterDictionary : Vocabulary :=
  { Vocabulary.fresh fun _ => 0 with words := .ofList [[97, 97]] }

/-- The result for an article of three words, of which two are in the dictionary. -/
theorem valid_words_recorded_letters :
    ∃ tokenized validStems result log,
      tokenizeValidate letterText letterDictionary (letterArticle [97, 98, 97]) .empty 3 1 =
        (true, tokenized, validStems) ∧
      processTokensLogged letterText true
        ((letterDictionary.addStems validStems).addStems .empty) tokenized (.fresh fun _ => 0) =
          some (result, log) ∧
      KnownWordsRecorded letterText ((letterDictionary.addStems validStems).addStems .empty)
        tokenized.tokens result.2.1 log := by
  have hvalid : tokenizeValidate letterText letterDictionary (letterArticle [97, 98, 97]) .empty
      3 1 = (true, letterArticle [97, 98, 97], SortedSet.empty.insert [97, 97]) := by
    decide +kernel
  have hall := valid_words_recorded letterText true letterDictionary (letterArticle [97, 98, 97])
    .empty .empty 3 1 (fun _ => 0) hvalid
  have ⟨⟨after, final, shingles⟩, log, hrun⟩ := hall.1 (by decide +kernel)
  exact ⟨_, _, _, log, hvalid, hrun, hall.2 after final shingles log hrun⟩

end Unbiased
