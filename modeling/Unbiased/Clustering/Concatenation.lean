/-
# Shingles of a concatenation

A shingle is computed from a window of three tokens. Appending to a list of
tokens therefore keeps its shingles, and adds at most two that span the border
beside those of the appended list.

The loop reads tokens by their index. It is given here a second time with every
read checked, and no read fails.
-/

import Unbiased.Clustering.ProcessedTokens
import Unbiased.Clustering.Shingles
import Unbiased.Clustering.SignatureLaws
import Unbiased.Math.Windows

namespace Unbiased

open Unbiased.Math

variable {text : TextOps} {collect : Bool}

/-! ## The loop over indices -/

/-- What an index can lie outside of. -/
inductive Outside where
  | tokens
  | arrays
  deriving DecidableEq

/-- Read the token at an index. -/
def tokenAt (tokens : List Bytes) (tidx : ℕ) : Except Outside Bytes :=
  match tokens[tidx]? with
  | some token => .ok token
  | none => .error .tokens

/-- The result of an access to the arrays of the vocabulary. -/
def accessed {α : Type} : Option α → Except Outside α
  | some a => .ok a
  | none => .error .arrays

/-- The loop body at an index, with every read of a token checked. -/
def processTokenAt (text : TextOps) (collect : Bool) (tokens : List Bytes) (loop : TokenLoop)
    (tidx : ℕ) : Except Outside TokenLoop := do
  let token ← tokenAt tokens tidx
  let lowerToken := text.toLower token
  if loop.vocabulary.keeps lowerToken then
    let stem := text.trimAndStem lowerToken
    match loop.vocabulary.getStemId stem with
    | some stemId => do
        let vocabulary ← accessed (loop.countStem stemId)
        let vocabulary ← accessed (vocabulary.addToken stemId lowerToken)
        .ok { loop with
          vocabulary := vocabulary
          counted := insert stemId loop.counted
          article := loop.article.recordStem stemId tidx }
    | none => .ok loop
  else if collect then
    if tidx + 2 < tokens.length then
      let w1 ← tokenAt tokens tidx
      let w2 ← tokenAt tokens (tidx + 1)
      let w3 ← tokenAt tokens (tidx + 2)
      .ok { loop with shingles := loop.shingles.insert (getShingle text w1 w2 w3) }
    else .ok loop
  else .ok loop

/-- The loop over the indices of an article's tokens. -/
def processTokensAt (text : TextOps) (collect : Bool) (vocab : Vocabulary) (article : Article)
    (processedArticle : ProcessedArticle) :
    Except Outside (Vocabulary × ProcessedArticle × SortedSet Int32) := do
  let final ← (List.range article.tokens.length).foldlM
    (processTokenAt text collect article.tokens) (TokenLoop.start vocab article processedArticle)
  .ok (final.vocabulary, final.article, final.shingles)

theorem tokenAt_eq_ok {tokens : List Bytes} {tidx : ℕ} {token : Bytes}
    (h : tokens[tidx]? = some token) : tokenAt tokens tidx = .ok token := by
  rw [tokenAt, h]

@[simp]
theorem accessed_bind {α β : Type} (a : Option α) (f : α → Option β) :
    accessed (a.bind f) = (accessed a).bind fun value => accessed (f value) := by
  cases a with
  | none => rfl
  | some value => rfl

/-- An iteration reads tokens of the list only. -/
theorem processTokenAt_eq {tokens : List Bytes} {tidx : ℕ} {token : Bytes}
    (htoken : tokens[tidx]? = some token) (loop : TokenLoop) :
    processTokenAt text collect tokens loop tidx =
      accessed (processToken text collect tokens loop (token, tidx)) := by
  unfold processTokenAt processToken
  rw [tokenAt_eq_ok htoken]
  simp only [bind, Except.bind]
  by_cases hkeeps : loop.vocabulary.keeps (text.toLower token)
  · rw [if_pos hkeeps, if_pos hkeeps]
    cases loop.vocabulary.getStemId (text.trimAndStem (text.toLower token)) with
    | none => rfl
    | some stemId =>
        simp only [accessed_bind]
        rfl
  · rw [if_neg hkeeps, if_neg hkeeps]
    cases collect with
    | false => rfl
    | true =>
        by_cases hlength : tidx + 2 < tokens.length
        · have hsecond := List.getElem?_eq_getElem (show tidx + 1 < tokens.length by omega)
          have hthird := List.getElem?_eq_getElem hlength
          rw [if_pos rfl, if_pos rfl, if_pos hlength, tokenAt_eq_ok hsecond, tokenAt_eq_ok hthird,
            hsecond, hthird]
          rfl
        · rw [if_pos rfl, if_pos rfl, if_neg hlength,
            List.getElem?_eq_none (show tokens.length ≤ tidx + 2 by omega)]
          cases tokens[tidx + 1]? with
          | none => rfl
          | some w2 => rfl

theorem foldlM_processTokenAt {tokens : List Bytes} {entries : List (Bytes × ℕ)}
    (hentries : ∀ entry ∈ entries, tokens[entry.2]? = some entry.1) (loop : TokenLoop) :
    (entries.map Prod.snd).foldlM (processTokenAt text collect tokens) loop =
      accessed (run (processToken text collect tokens) loop entries) := by
  induction entries generalizing loop with
  | nil => rfl
  | cons entry rest ih =>
      obtain ⟨token, tidx⟩ := entry
      rw [List.map_cons, List.foldlM_cons, run_cons, accessed_bind,
        processTokenAt_eq (hentries _ List.mem_cons_self)]
      have hrest : ∀ entry ∈ rest, tokens[entry.2]? = some entry.1 := fun entry hentry =>
        hentries entry (List.mem_cons_of_mem _ hentry)
      exact congrArg _ (funext fun next => ih hrest next)

/-- **No token outside the list is read.** The loop with checked reads does what the
loop over the tokens does. -/
theorem processTokensAt_eq (text : TextOps) (collect : Bool) (vocab : Vocabulary)
    (article : Article) (processed : ProcessedArticle) :
    processTokensAt text collect vocab article processed =
      accessed (processTokens text collect vocab article processed) := by
  have hindices : article.tokens.zipIdx.map Prod.snd = List.range article.tokens.length := by
    rw [List.zipIdx_map_snd, List.range_eq_range']
  unfold processTokensAt processTokens
  rw [← hindices, foldlM_processTokenAt]
  · cases run (processToken text collect article.tokens)
      (TokenLoop.start vocab article processed) article.tokens.zipIdx with
    | none => rfl
    | some final => rfl
  · rintro ⟨token, tidx⟩ hentry
    exact List.mk_mem_zipIdx_iff_getElem?.mp hentry

/-! ## Shingles as values of windows -/

/-- The shingle of a window, if its first token starts one. -/
def shingleOfWindow (text : TextOps) (stopWords : UnorderedSet Bytes) : List Bytes → Option Int32
  | [w1, w2, w3] =>
      if text.toLower w1 ∈ stopWords ∨ (text.toLower w1).length < 2 then
        some (getShingle text w1 w2 w3)
      else none
  | _ => none

/-- The shingles of a list of tokens are the values of its windows of three. -/
theorem mem_shinglesOf_iff_windowValue {stopWords : UnorderedSet Bytes} {tokens : List Bytes}
    {shingle : Int32} :
    shingle ∈ shinglesOf text stopWords tokens ↔
      WindowValue (shingleOfWindow text stopWords) 3 tokens shingle := by
  rw [mem_shinglesOf]
  unfold StartsShingle WindowValue
  simp only [window?_three, Option.bind_eq_some_iff, Option.map_eq_some_iff]
  constructor
  · rintro ⟨w1, w2, w3, ⟨tidx, hfirst, hsecond, hthird, hstop⟩, rfl⟩
    exact ⟨tidx, _, ⟨w1, hfirst, w2, hsecond, w3, hthird, rfl⟩, if_pos hstop⟩
  · rintro ⟨tidx, _, ⟨w1, hfirst, w2, hsecond, w3, hthird, rfl⟩, hvalue⟩
    obtain ⟨hstop, hshingle⟩ := Option.ite_none_right_eq_some.mp hvalue
    exact ⟨w1, w2, w3, ⟨tidx, hfirst, hsecond, hthird, hstop⟩, Option.some.inj hshingle⟩

/-- The shingles of a list that are shingles of neither of two others. -/
def newShingles (both first second : SortedSet Int32) : Finset Int32 :=
  {shingle ∈ both.toFinset | shingle ∉ first ∧ shingle ∉ second}

/-- How the results for two lists of tokens and for their concatenation are related. -/
structure ShinglesAppended (first second both : SortedSet Int32) : Prop where
  left : ∀ shingle ∈ first, shingle ∈ both
  right : ∀ shingle ∈ second, shingle ∈ both
  /-- At most two shingles span the border. -/
  border : (newShingles both first second).card ≤ 2
  signature : ∀ (murmur : Murmur) (minhash : MinHash) (component : Fin signatureSize),
    minhash.computeSignature murmur both component ≤
        minhash.computeSignature murmur first component ∧
      minhash.computeSignature murmur both component ≤
        minhash.computeSignature murmur second component

theorem shinglesAppended (text : TextOps) (stopWords : UnorderedSet Bytes)
    (first second : List Bytes) :
    ShinglesAppended (shinglesOf text stopWords first) (shinglesOf text stopWords second)
      (shinglesOf text stopWords (first ++ second)) := by
  have hleft : ∀ shingle ∈ shinglesOf text stopWords first,
      shingle ∈ shinglesOf text stopWords (first ++ second) := by
    intro shingle hshingle
    rw [mem_shinglesOf_iff_windowValue] at hshingle ⊢
    exact hshingle.append_right second
  have hright : ∀ shingle ∈ shinglesOf text stopWords second,
      shingle ∈ shinglesOf text stopWords (first ++ second) := by
    intro shingle hshingle
    rw [mem_shinglesOf_iff_windowValue] at hshingle ⊢
    exact hshingle.append_left first
  refine ⟨hleft, hright, ?_, fun murmur minhash component => ⟨?_, ?_⟩⟩
  · have hnew : ∀ shingle ∈ newShingles (shinglesOf text stopWords (first ++ second))
        (shinglesOf text stopWords first) (shinglesOf text stopWords second),
        WindowValue (shingleOfWindow text stopWords) 3 (first ++ second) shingle ∧
          ¬ WindowValue (shingleOfWindow text stopWords) 3 first shingle ∧
          ¬ WindowValue (shingleOfWindow text stopWords) 3 second shingle := by
      simp only [newShingles, Finset.mem_filter, SortedSet.mem_toFinset,
        mem_shinglesOf_iff_windowValue]
      exact fun shingle hshingle => hshingle
    exact card_new_le _ hnew
  · exact MinHash.computeSignature_anti murmur minhash hleft component
  · exact MinHash.computeSignature_anti murmur minhash hright component

/-- **The shingles of a concatenation.** No run reads a token outside its list, the
runs complete in a vocabulary that fits the arrays, and whenever they complete,
the concatenation has the shingles of both lists and at most two more. -/
theorem processTokens_append (text : TextOps) (vocab : Vocabulary) (article : Article)
    (processed : ProcessedArticle) (first second : List Bytes) :
    (∀ tokens, processTokensAt text true vocab { article with tokens := tokens } processed =
      accessed (processTokens text true vocab { article with tokens := tokens } processed)) ∧
    (vocab.stemsNo ≤ maxStemsNo → ∀ tokens, ∃ after final shingles,
      processTokens text true vocab { article with tokens := tokens } processed =
        some (after, final, shingles)) ∧
    ∀ {after₁ after₂ after₃ : Vocabulary} {final₁ final₂ final₃ : ProcessedArticle}
      {shingles₁ shingles₂ both : SortedSet Int32},
      processTokens text true vocab { article with tokens := first } processed =
        some (after₁, final₁, shingles₁) →
      processTokens text true vocab { article with tokens := second } processed =
        some (after₂, final₂, shingles₂) →
      processTokens text true vocab { article with tokens := first ++ second } processed =
        some (after₃, final₃, both) →
      ShinglesAppended shingles₁ shingles₂ both := by
  refine ⟨fun tokens => processTokensAt_eq text true vocab _ processed, ?_, ?_⟩
  · exact fun hfits tokens => exists_processTokens_of_fits text true hfits _ processed
  · intro after₁ after₂ after₃ final₁ final₂ final₃ shingles₁ shingles₂ both hfirst hsecond hboth
    rw [shingles_eq_shinglesOf hfirst, shingles_eq_shinglesOf hsecond,
      shingles_eq_shinglesOf hboth]
    exact shinglesAppended text vocab.stopWords first second

end Unbiased
