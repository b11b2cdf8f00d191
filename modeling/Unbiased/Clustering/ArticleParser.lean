/-
# Reading, validating and processing an article

`parseFromXml` reads an article out of a property tree, `tokenizeValidate`
decides whether enough of its words are known, and `processTokens` is the loop
that counts stems, records tokens and collects shingles. The loop is given as a
run of its body, and its effect on the vocabulary and on the list of stem ids
is stated once, as a function of the token list.
-/

import Mathlib.Data.Rat.Defs
import Mathlib.Algebra.Order.Field.Rat
import Mathlib.Data.Finset.Insert
import Mathlib.Data.Finset.Dedup
import Unbiased.Common.Article
import Unbiased.Common.Vocabulary
import Unbiased.Math.Execution

namespace Unbiased

open Unbiased.Math

/-! ## Parsing -/

/-- A `boost::property_tree::ptree`: data and named children. -/
inductive Ptree where
  | node (data : Bytes) (children : List (String × Ptree))

namespace Ptree

def data : Ptree → Bytes
  | node data _ => data

def children : Ptree → List (String × Ptree)
  | node _ children => children

/-- The node at a path, following the first child of each name. -/
def getChild? : Ptree → List String → Option Ptree
  | tree, [] => some tree
  | node _ children, name :: path => do
      let child ← children.lookup name
      child.getChild? path

end Ptree

/-- Read the fields of an article out of its XML text. The XML reader is a
library; it, and every missing field, throws. -/
def parseFromXml (readXml : Bytes → Option Ptree) (articleXml : Bytes) : Option Article := do
  let pt ← readXml articleXml
  let url ← pt.getChild? ["article", "url"]
  let title ← pt.getChild? ["article", "title"]
  let date ← pt.getChild? ["article", "date"]
  let authorsNode ← pt.getChild? ["article", "authors"]
  let articleText ← pt.getChild? ["article", "text"]
  some {
    text := articleText.data
    tokens := []
    metaData := { ArticleMetaData.fresh with
      url := url.data
      title := title.data
      date := date.data
      authors := authorsNode.children.map fun author => author.2.data } }

/-! ## Validation -/

/-- One iteration of the validation loop over the tokens: the number of unknown
tokens so far and the stems of the valid ones. -/
def validateToken (text : TextOps) (vocab : Vocabulary) (state : ℕ × SortedSet Bytes)
    (token : Bytes) : ℕ × SortedSet Bytes :=
  if vocab.isValidWord token then
    (state.1, state.2.insert (text.trimAndStem (text.toLower token)))
  else if !vocab.isStopWord token && 1 < token.length then
    (state.1 + 1, state.2)
  else state

/-- Tokenize an article and decide whether few enough of its tokens are unknown.
Returns the verdict, the article with its tokens and the stems of its valid
words. The threshold is compared in exact rational arithmetic, where the code rounds to
`float`. -/
def tokenizeValidate (text : TextOps) (vocab : Vocabulary) (article : Article)
    (validStems : SortedSet Bytes) (minTokens : ℕ) (invalidTokensThreshold : ℚ) :
    Bool × Article × SortedSet Bytes :=
  let article := { article with tokens := text.tokenize article.text }
  if article.tokens.length < minTokens then
    (false, article, validStems)
  else
    let (unknownTokensNo, validStems) :=
      article.tokens.foldl (validateToken text vocab) (0, validStems)
    (decide ((unknownTokensNo + 1 : ℚ) ≤ invalidTokensThreshold * article.tokens.length),
      article, validStems)

/-- The default minimum number of tokens. -/
def minTokensDefault : ℕ := 100

/-- The default share of unknown tokens. -/
def invalidTokensThresholdDefault : ℚ := 3 / 10

/-- Validation of an article with the default limits, into an empty set of stems. -/
def validate (text : TextOps) (vocab : Vocabulary) (article : Article) :
    Bool × Article × SortedSet Bytes :=
  tokenizeValidate text vocab article SortedSet.empty minTokensDefault
    invalidTokensThresholdDefault

/-! ## Processing -/

/-- The shingle of three consecutive tokens. The first hash keeps 64 bits, the
others are narrowed to 32 before they are combined. -/
def getShingle (text : TextOps) (w1 w2 w3 : Bytes) : Int32 :=
  let hashVal := text.hashString w1
  let hashVal1 := (text.hashString w2).toUInt32
  let hashVal2 := (text.hashString w3).toUInt32
  narrow (text.hashCombine (text.hashCombine hashVal hashVal1) hashVal2)

/-- What the token loop carries from one token to the next. -/
structure TokenLoop where
  vocabulary : Vocabulary
  /-- The ids counted so far for this article. -/
  counted : Finset StemId
  shingles : SortedSet Int32
  article : ProcessedArticle

/-- The guard of the loop: not a stop word and at least two bytes long. -/
def Vocabulary.keeps (vocab : Vocabulary) (lowerToken : Bytes) : Bool :=
  !vocab.isStopWord lowerToken && 2 ≤ lowerToken.length

/-- Count the article for a stem unless it was counted before. -/
def TokenLoop.countStem (loop : TokenLoop) (stemId : StemId) : Option Vocabulary :=
  if stemId ∈ loop.counted then some loop.vocabulary
  else loop.vocabulary.increaseStemFreq stemId

/-- The loop body. `collect` is true in the instance that collects shingles and
false in the integral one. -/
def processToken (text : TextOps) (collect : Bool) (tokens : List Bytes) (loop : TokenLoop)
    (entry : Bytes × ℕ) : Option TokenLoop :=
  let token := entry.1
  let tidx := entry.2
  let lowerToken := text.toLower token
  if loop.vocabulary.keeps lowerToken then
    let stem := text.trimAndStem lowerToken
    match loop.vocabulary.getStemId stem with
    | some stemId => do
        let vocabulary ← loop.countStem stemId
        let vocabulary ← vocabulary.addToken stemId lowerToken
        some { loop with
          vocabulary := vocabulary
          counted := insert stemId loop.counted
          article := loop.article.recordStem stemId tidx }
    -- Only logged, as an invalid stem.
    | none => some loop
  else if collect then
    match tokens[tidx + 1]?, tokens[tidx + 2]? with
    | some w2, some w3 =>
        some { loop with shingles := loop.shingles.insert (getShingle text token w2 w3) }
    | _, _ => some loop
  else some loop

/-- The loop state before the first token, with the fields that do not depend on
the tokens filled in. -/
def TokenLoop.start (vocab : Vocabulary) (article : Article)
    (processedArticle : ProcessedArticle) : TokenLoop where
  vocabulary := vocab
  counted := ∅
  shingles := SortedSet.empty
  article := { processedArticle with
    tokensNo := article.tokens.length
    length := UInt64.ofNat article.text.length
    metaData := article.metaData }

/-- Process the tokens of an article into `processedArticle`. Returns the
vocabulary with its counters advanced, the processed article and the shingles. -/
def processTokens (text : TextOps) (collect : Bool) (vocab : Vocabulary) (article : Article)
    (processedArticle : ProcessedArticle) :
    Option (Vocabulary × ProcessedArticle × SortedSet Int32) := do
  let final ← run (processToken text collect article.tokens)
    (TokenLoop.start vocab article processedArticle) article.tokens.zipIdx
  some (final.vocabulary, final.article, final.shingles)

/-! ## What the loop does

The id a token is recorded under depends on the stems and stop words only, and
the loop changes neither. Everything it does to the arrays is then a function
of the list of recorded ids.
-/

/-- The id a token is recorded under, if the loop keeps it and knows its stem. -/
def Vocabulary.recordedId? (text : TextOps) (vocab : Vocabulary) (token : Bytes) :
    Option StemId :=
  if vocab.keeps (text.toLower token) then
    vocab.getStemId (text.trimAndStem (text.toLower token))
  else none

theorem Vocabulary.recordedId?_eq_some {text : TextOps} {vocab : Vocabulary} {token : Bytes}
    {id : StemId} :
    vocab.recordedId? text token = some id ↔
      vocab.keeps (text.toLower token) = true ∧
        vocab.getStemId (text.trimAndStem (text.toLower token)) = some id := by
  unfold recordedId?
  split
  · rename_i hkeeps
    simp [hkeeps]
  · rename_i hkeeps
    simp [hkeeps]

/-- The stop words decide which tokens are kept. -/
theorem Vocabulary.keeps_congr {first second : Vocabulary}
    (hstop : second.stopWords = first.stopWords) (lowerToken : Bytes) :
    second.keeps lowerToken = first.keeps lowerToken := by
  rw [keeps, keeps, isStopWord, isStopWord, hstop]

/-- Stems and stop words decide which id a token is recorded under. -/
theorem Vocabulary.recordedId?_congr {text : TextOps} {first second : Vocabulary}
    (hstems : second.stems = first.stems) (hstop : second.stopWords = first.stopWords)
    (token : Bytes) : second.recordedId? text token = first.recordedId? text token := by
  cases first
  cases second
  cases hstems
  cases hstop
  rfl

/-- One recorded token, on the vocabulary: its slot is counted unless the article
counted it before, and its cell gains the token. -/
def Vocabulary.recordToken (vocab : Vocabulary) (slot : Fin maxStemsNo) (count : Bool)
    (lowerToken : Bytes) : Vocabulary :=
  { vocab with
    stemsFreq := if count then
        Function.update vocab.stemsFreq slot (vocab.stemsFreq slot + 1)
      else vocab.stemsFreq
    freqStemsNo := if count ∧ 3 < vocab.stemsFreq slot + 1 then vocab.freqStemsNo + 1
      else vocab.freqStemsNo
    stemidTokensMap := Function.update vocab.stemidTokensMap slot
      (some (StemIdTokensRCUMap.withToken lowerToken (vocab.stemidTokensMap slot))) }

/-- Counting a stem and adding a token record the token. -/
theorem TokenLoop.eq_recordToken {loop : TokenLoop} {id : StemId} {counting adding : Vocabulary}
    {lowerToken : Bytes} (hcounting : loop.countStem id = some counting)
    (hadding : counting.addToken id lowerToken = some adding) :
    ∃ slot, slot? id = some slot ∧
      adding = loop.vocabulary.recordToken slot (decide (id ∉ loop.counted)) lowerToken := by
  obtain ⟨slot, hslot, rfl⟩ := Vocabulary.addToken_eq_some.mp hadding
  refine ⟨slot, hslot, ?_⟩
  unfold TokenLoop.countStem at hcounting
  by_cases hcounted : id ∈ loop.counted
  · rw [if_pos hcounted] at hcounting
    obtain rfl := Option.some.inj hcounting
    simp [Vocabulary.recordToken, hcounted]
  · rw [if_neg hcounted] at hcounting
    obtain ⟨slot', hslot', rfl⟩ := Vocabulary.increaseStemFreq_eq_some.mp hcounting
    obtain rfl : slot' = slot := Option.some.inj (hslot'.symm.trans hslot)
    simp [Vocabulary.recordToken, hcounted]

/-- **What an iteration does.** Either the token is recorded under an id inside
the arrays, or only the shingles may change. -/
theorem processToken_cases {text : TextOps} {collect : Bool} {tokens : List Bytes}
    {loop next : TokenLoop} {token : Bytes} {tidx : ℕ}
    (h : processToken text collect tokens loop (token, tidx) = some next) :
    (∃ id slot, loop.vocabulary.recordedId? text token = some id ∧ slot? id = some slot ∧
      next = { loop with
        vocabulary := loop.vocabulary.recordToken slot (decide (id ∉ loop.counted))
          (text.toLower token)
        counted := insert id loop.counted
        article := loop.article.recordStem id tidx }) ∨
    (loop.vocabulary.recordedId? text token = none ∧
      ∃ shingles, next = { loop with shingles := shingles }) := by
  unfold processToken at h
  simp only at h
  split at h
  · rename_i hkeeps
    cases hid : loop.vocabulary.getStemId (text.trimAndStem (text.toLower token)) with
    | none =>
        right
        rw [hid] at h
        obtain rfl := Option.some.inj h
        exact ⟨by rw [Vocabulary.recordedId?, if_pos hkeeps, hid], loop.shingles, rfl⟩
    | some id =>
        left
        rw [hid] at h
        obtain ⟨counting, hcounting, h⟩ := Option.bind_eq_some_iff.mp h
        obtain ⟨adding, hadding, h⟩ := Option.bind_eq_some_iff.mp h
        obtain rfl := Option.some.inj h
        obtain ⟨slot, hslot, rfl⟩ := TokenLoop.eq_recordToken hcounting hadding
        exact ⟨id, slot, by rw [Vocabulary.recordedId?, if_pos hkeeps, hid], hslot, rfl⟩
  · rename_i hkeeps
    right
    refine ⟨by rw [Vocabulary.recordedId?, if_neg hkeeps], ?_⟩
    split at h
    · split at h
      · exact ⟨_, (Option.some.inj h).symm⟩
      · exact ⟨loop.shingles, (Option.some.inj h).symm⟩
    · exact ⟨loop.shingles, (Option.some.inj h).symm⟩

/-- An iteration keeps the stems and the stop words. -/
theorem processToken_stems {text : TextOps} {collect : Bool} {tokens : List Bytes}
    {loop next : TokenLoop} {token : Bytes} {tidx : ℕ}
    (h : processToken text collect tokens loop (token, tidx) = some next) :
    next.vocabulary.stems = loop.vocabulary.stems ∧
      next.vocabulary.stopWords = loop.vocabulary.stopWords := by
  rcases processToken_cases h with ⟨id, slot, -, -, rfl⟩ | ⟨-, shingles, rfl⟩
  · exact ⟨rfl, rfl⟩
  · exact ⟨rfl, rfl⟩

/-- The ids the tokens are recorded under, in token order and with repetitions. -/
def Vocabulary.recordedIds (text : TextOps) (vocab : Vocabulary) (tokens : List Bytes) :
    List StemId :=
  tokens.filterMap (vocab.recordedId? text)

theorem Vocabulary.mem_recordedIds {text : TextOps} {vocab : Vocabulary} {tokens : List Bytes}
    {id : StemId} :
    id ∈ vocab.recordedIds text tokens ↔
      ∃ token ∈ tokens, vocab.recordedId? text token = some id :=
  List.mem_filterMap

theorem Vocabulary.recordedIds_concat_of_some {text : TextOps} {vocab : Vocabulary} {token : Bytes}
    {id : StemId} (h : vocab.recordedId? text token = some id) (tokens : List Bytes) :
    vocab.recordedIds text (tokens ++ [token]) = vocab.recordedIds text tokens ++ [id] := by
  simp [recordedIds, h]

theorem Vocabulary.recordedIds_concat_of_none {text : TextOps} {vocab : Vocabulary} {token : Bytes}
    (h : vocab.recordedId? text token = none) (tokens : List Bytes) :
    vocab.recordedIds text (tokens ++ [token]) = vocab.recordedIds text tokens := by
  simp [recordedIds, h]

/-- The effect on a vocabulary of processing some tokens of one article. -/
structure TokensProcessed (text : TextOps) (before : Vocabulary) (tokens : List Bytes)
    (after : Vocabulary) : Prop where
  stems : after.stems = before.stems
  words : after.words = before.words
  stopWords : after.stopWords = before.stopWords
  /-- Every recorded id lies inside the arrays. -/
  inArray : ∀ id ∈ before.recordedIds text tokens, ∃ slot, slot? id = some slot
  /-- A slot is counted once if its id was recorded at all. -/
  stemsFreq : ∀ slot : Fin maxStemsNo, after.stemsFreq slot =
    if Int32.ofNat slot.val ∈ before.recordedIds text tokens then before.stemsFreq slot + 1
    else before.stemsFreq slot
  /-- A cell gains exactly the lower-cased tokens recorded under its id. -/
  mem_tokens : ∀ (slot : Fin maxStemsNo) (word : Bytes),
    word ∈ StemIdTokensRCUMap.tokensOf (after.stemidTokensMap slot) ↔
      word ∈ StemIdTokensRCUMap.tokensOf (before.stemidTokensMap slot) ∨
        ∃ token ∈ tokens, text.toLower token = word ∧
          before.recordedId? text token = some (Int32.ofNat slot.val)
  /-- A cell is set exactly if it was or if its id was recorded. -/
  isSome_tokens : ∀ slot : Fin maxStemsNo, (after.stemidTokensMap slot).isSome ↔
    (before.stemidTokensMap slot).isSome ∨
      Int32.ofNat slot.val ∈ before.recordedIds text tokens

namespace TokensProcessed

variable {text : TextOps} {before after : Vocabulary} {tokens : List Bytes}

theorem nil (text : TextOps) (vocab : Vocabulary) : TokensProcessed text vocab [] vocab where
  stems := rfl
  words := rfl
  stopWords := rfl
  inArray := by simp [Vocabulary.recordedIds]
  stemsFreq := by simp [Vocabulary.recordedIds]
  mem_tokens := by simp
  isSome_tokens := by simp [Vocabulary.recordedIds]

/-- The id of a later token does not depend on the tokens before it. -/
theorem recordedId?_eq (h : TokensProcessed text before tokens after) (token : Bytes) :
    after.recordedId? text token = before.recordedId? text token :=
  Vocabulary.recordedId?_congr h.stems h.stopWords token

/-- A token that is not recorded leaves the vocabulary as it is. -/
theorem concat_of_none (h : TokensProcessed text before tokens after) {token : Bytes}
    (hnone : before.recordedId? text token = none) :
    TokensProcessed text before (tokens ++ [token]) after := by
  have hids := Vocabulary.recordedIds_concat_of_none hnone tokens
  refine ⟨h.stems, h.words, h.stopWords, ?_, ?_, ?_, ?_⟩
  · rw [hids]
    exact h.inArray
  · rw [hids]
    exact h.stemsFreq
  · intro slot word
    rw [h.mem_tokens]
    simp [or_and_right, exists_or, hnone]
  · rw [hids]
    exact h.isSome_tokens

/-- A recorded token counts its slot the first time and adds itself to its cell. -/
theorem concat_of_some (h : TokensProcessed text before tokens after) {token : Bytes}
    {id : StemId} {slot : Fin maxStemsNo} (hid : before.recordedId? text token = some id)
    (hslot : slot? id = some slot) :
    TokensProcessed text before (tokens ++ [token])
      (after.recordToken slot (decide (id ∉ before.recordedIds text tokens))
        (text.toLower token)) := by
  have hids := Vocabulary.recordedIds_concat_of_some hid tokens
  have hofNat : id = Int32.ofNat slot.val := eq_ofNat_of_slot? hslot
  have hother : ∀ other : Fin maxStemsNo, other ≠ slot → Int32.ofNat other.val ≠ id := by
    intro other hne heq
    have hslot' := slot?_ofNat other.isLt
    rw [heq, hslot] at hslot'
    exact hne (Option.some.inj hslot').symm
  exact {
    stems := h.stems
    words := h.words
    stopWords := h.stopWords
    inArray := by
      intro other hmem
      rw [hids, List.mem_append, List.mem_singleton] at hmem
      rcases hmem with hmem | rfl
      · exact h.inArray other hmem
      · exact ⟨slot, hslot⟩
    stemsFreq := by
      intro other
      have hfreq := h.stemsFreq other
      rw [hids]
      by_cases heq : other = slot
      · subst heq
        rw [← hofNat] at hfreq ⊢
        by_cases hseen : id ∈ before.recordedIds text tokens
        · simpa [Vocabulary.recordToken, hseen] using hfreq
        · rw [if_neg hseen] at hfreq
          simp [Vocabulary.recordToken, hseen, hfreq]
      · have hne := hother other heq
        by_cases hseen : id ∈ before.recordedIds text tokens
        · simpa [Vocabulary.recordToken, hseen, hne] using hfreq
        · simpa [Vocabulary.recordToken, hseen, hne, heq] using hfreq
    mem_tokens := by
      intro other word
      by_cases heq : other = slot
      · subst heq
        have hsymm : word = text.toLower token ↔ text.toLower token = word := eq_comm
        simp only [Vocabulary.recordToken, Function.update_self, hsymm,
          StemIdTokensRCUMap.tokensOf_some, StemIdTokensRCUMap.mem_withToken, h.mem_tokens,
          List.mem_append, List.mem_singleton, or_and_right, exists_or, exists_eq_left, hid,
          hofNat, and_true]
        rw [or_comm, or_assoc]
      · have hne : id ≠ Int32.ofNat other.val := (hother other heq).symm
        simp only [Vocabulary.recordToken, Function.update_of_ne heq, h.mem_tokens,
          List.mem_append, List.mem_singleton, or_and_right, exists_or, exists_eq_left, hid,
          Option.some.injEq, hne, and_false, or_false]
    isSome_tokens := by
      intro other
      rw [hids]
      by_cases heq : other = slot
      · subst heq
        simp [Vocabulary.recordToken, ← hofNat]
      · have hne := hother other heq
        simpa [Vocabulary.recordToken, heq, hne] using h.isSome_tokens other }

end TokensProcessed

/-- The loop invariant: what the tokens seen so far did to the vocabulary, which
ids are counted, and the list of stem ids. -/
structure LoopInvariant (text : TextOps) (start : TokenLoop) (seen : List Bytes)
    (loop : TokenLoop) : Prop where
  vocabulary : TokensProcessed text start.vocabulary seen loop.vocabulary
  counted : ∀ id, id ∈ loop.counted ↔ id ∈ start.vocabulary.recordedIds text seen
  article : ∃ idsTokensMap, loop.article = { start.article with
    stemIds := start.article.stemIds ++ start.vocabulary.recordedIds text seen
    idsTokensMap := idsTokensMap }

theorem LoopInvariant.step {text : TextOps} {collect : Bool} {tokens seen : List Bytes}
    {start loop next : TokenLoop} {token : Bytes} {tidx : ℕ}
    (h : LoopInvariant text start seen loop)
    (hstep : processToken text collect tokens loop (token, tidx) = some next) :
    LoopInvariant text start (seen ++ [token]) next := by
  obtain ⟨hvocab, hcounted, idsTokensMap, harticle⟩ := h
  have hrecorded := hvocab.recordedId?_eq token
  rcases processToken_cases hstep with ⟨id, slot, hid, hslot, rfl⟩ | ⟨hnone, shingles, rfl⟩
  · rw [hrecorded] at hid
    have hfirst : decide (id ∉ loop.counted) =
        decide (id ∉ start.vocabulary.recordedIds text seen) := by
      rw [decide_eq_decide, hcounted]
    have hids := Vocabulary.recordedIds_concat_of_some hid seen
    refine ⟨?_, ?_, ?_⟩
    · rw [hfirst]
      exact hvocab.concat_of_some hid hslot
    · intro other
      rw [hids, Finset.mem_insert, hcounted, List.mem_append, List.mem_singleton]
      exact or_comm
    · refine ⟨Function.update idsTokensMap id.toInt64.toUInt64 (some tidx), ?_⟩
      rw [hids, harticle]
      simp only [ProcessedArticle.recordStem, List.append_assoc]
  · rw [hrecorded] at hnone
    have hids := Vocabulary.recordedIds_concat_of_none hnone seen
    refine ⟨hvocab.concat_of_none hnone, ?_, ?_⟩
    · rw [hids]
      exact hcounted
    · rw [hids]
      exact ⟨idsTokensMap, harticle⟩

/-- **What processing an article does.** The vocabulary changes as the list of
recorded ids says, and that list is appended to the processed article. -/
theorem processTokens_spec {text : TextOps} {collect : Bool} {vocab after : Vocabulary}
    {article : Article} {processed final : ProcessedArticle} {shingles : SortedSet Int32}
    (h : processTokens text collect vocab article processed = some (after, final, shingles)) :
    TokensProcessed text vocab article.tokens after ∧
      ∃ idsTokensMap, final = { processed with
        tokensNo := article.tokens.length
        length := UInt64.ofNat article.text.length
        metaData := article.metaData
        stemIds := processed.stemIds ++ vocab.recordedIds text article.tokens
        idsTokensMap := idsTokensMap } := by
  obtain ⟨loop, hrun, hfinal⟩ := Option.bind_eq_some_iff.mp h
  cases hfinal
  have hinv := run_invariant
    (P := fun seen loop => LoopInvariant text _ (seen.map Prod.fst) loop)
    ⟨TokensProcessed.nil text _, by simp [TokenLoop.start, Vocabulary.recordedIds],
      processed.idsTokensMap, by simp [TokenLoop.start, Vocabulary.recordedIds]⟩
    (fun seen loop entry next hloop hstep => by
      simpa using LoopInvariant.step hloop hstep) hrun
  rw [List.zipIdx_map_fst] at hinv
  exact ⟨hinv.vocabulary, hinv.article⟩

/-! ## The signature is left alone -/

/-- The loop state over an article with another signature. -/
def TokenLoop.withSignature (signature : Signature) (loop : TokenLoop) : TokenLoop :=
  { loop with
    article := { loop.article with signature := signature } }

/-- An iteration neither reads nor writes the signature. -/
theorem processToken_withSignature (text : TextOps) (collect : Bool) (tokens : List Bytes)
    (signature : Signature) (loop : TokenLoop) (entry : Bytes × ℕ) :
    processToken text collect tokens (loop.withSignature signature) entry =
      (processToken text collect tokens loop entry).map (TokenLoop.withSignature signature) := by
  have hcount : ∀ stemId, (loop.withSignature signature).countStem stemId =
      loop.countStem stemId := fun _ => rfl
  unfold processToken
  simp only [hcount]
  show (if loop.vocabulary.keeps (text.toLower entry.1) then _ else _) = _
  split
  · show (match loop.vocabulary.getStemId _ with | some stemId => _ | none => _) = _
    cases loop.vocabulary.getStemId (text.trimAndStem (text.toLower entry.1)) with
    | none => rfl
    | some stemId =>
        cases hcounted : loop.countStem stemId with
        | none => simp [hcounted]
        | some counting =>
            cases hadded : counting.addToken stemId (text.toLower entry.1) with
            | none => simp [hcounted, hadded]
            | some adding => simp [hcounted, hadded, TokenLoop.withSignature,
                ProcessedArticle.recordStem]
  · split
    · split
      · rfl
      · rfl
    · rfl

/-- What memory an article is processed in shows in its signature only. -/
theorem processTokens_fresh (text : TextOps) (collect : Bool) (vocab : Vocabulary)
    (article : Article) (first second : Signature) :
    processTokens text collect vocab article (.fresh second) =
      (processTokens text collect vocab article (.fresh first)).map fun result =>
        (result.1, { result.2.1 with signature := second }, result.2.2) := by
  have hstart : TokenLoop.start vocab article (.fresh second) =
      (TokenLoop.start vocab article (.fresh first)).withSignature second := rfl
  unfold processTokens
  rw [hstart, run_map (processToken_withSignature text collect article.tokens second)]
  cases run (processToken text collect article.tokens)
      (TokenLoop.start vocab article (.fresh first)) article.tokens.zipIdx with
  | none => rfl
  | some final => rfl

/-! ## Texts of short words -/

/-- Text functions for texts of short lower-case words with blanks between them,
without shingles. Such words are their own stems. -/
def letterText : TextOps where
  toLower := id
  trimAndStem := id
  tokenize text := (text.splitOn 32).filter (· ≠ [])
  hashString _ := 0
  hashCombine seed _ := seed

/-- A text with a word of two bytes for each letter. -/
def letterWords (letters : Bytes) : Bytes := letters.flatMap fun letter => [letter, letter, 32]

/-- The tokenized article with that text. -/
def letterArticle (letters : Bytes) : Article where
  text := letterWords letters
  tokens := letterText.tokenize (letterWords letters)
  metaData := .fresh

end Unbiased
