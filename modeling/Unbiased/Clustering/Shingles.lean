/-
# The shingles of an article

The token loop collects a shingle at every token that it does not keep, if two
more tokens follow. Which tokens it keeps depends on the stop words alone, so
the shingles of an article, and with them its signature, depend on nothing else
of the vocabulary.
-/

import Unbiased.Clustering.ArticleParser
import Unbiased.Clustering.MinHash

namespace Unbiased

open Unbiased.Math

/-- Three tokens in a row make a shingle if the first, in lower case, is a stop word
or shorter than two bytes. -/
def StartsShingle (text : TextOps) (stopWords : UnorderedSet Bytes) (tokens : List Bytes)
    (w1 w2 w3 : Bytes) : Prop :=
  ∃ tidx : ℕ, tokens[tidx]? = some w1 ∧ tokens[tidx + 1]? = some w2 ∧
    tokens[tidx + 2]? = some w3 ∧ (text.toLower w1 ∈ stopWords ∨ (text.toLower w1).length < 2)

/-- The shingles of a list of tokens. -/
def shinglesOf (text : TextOps) (stopWords : UnorderedSet Bytes) (tokens : List Bytes) :
    SortedSet Int32 :=
  SortedSet.ofList <| tokens.zipIdx.filterMap fun (w1, tidx) =>
    if text.toLower w1 ∈ stopWords ∨ (text.toLower w1).length < 2 then
      (tokens[tidx + 1]?).bind fun w2 => (tokens[tidx + 2]?).map fun w3 => getShingle text w1 w2 w3
    else none

theorem mem_shinglesOf {text : TextOps} {stopWords : UnorderedSet Bytes} {tokens : List Bytes}
    {shingle : Int32} :
    shingle ∈ shinglesOf text stopWords tokens ↔
      ∃ w1 w2 w3, StartsShingle text stopWords tokens w1 w2 w3 ∧
        getShingle text w1 w2 w3 = shingle := by
  simp only [shinglesOf, SortedSet.mem_ofList, List.mem_filterMap, Prod.exists,
    List.mk_mem_zipIdx_iff_getElem?, Option.ite_none_right_eq_some, Option.bind_eq_some_iff,
    Option.map_eq_some_iff]
  constructor
  · rintro ⟨w1, tidx, hfirst, hstop, w2, hsecond, w3, hthird, hshingle⟩
    exact ⟨w1, w2, w3, ⟨tidx, hfirst, hsecond, hthird, hstop⟩, hshingle⟩
  · rintro ⟨w1, w2, w3, ⟨tidx, hfirst, hsecond, hthird, hstop⟩, hshingle⟩
    exact ⟨w1, tidx, hfirst, hstop, w2, hsecond, w3, hthird, hshingle⟩

/-- There are shingles exactly if three tokens make one. -/
theorem elems_shinglesOf_ne_nil {text : TextOps} {stopWords : UnorderedSet Bytes}
    {tokens : List Bytes} :
    (shinglesOf text stopWords tokens).elems ≠ [] ↔
      ∃ w1 w2 w3, StartsShingle text stopWords tokens w1 w2 w3 := by
  constructor
  · intro hne
    obtain ⟨shingle, hmem⟩ := List.exists_mem_of_ne_nil _ hne
    obtain ⟨w1, w2, w3, hstarts, -⟩ := mem_shinglesOf.mp hmem
    exact ⟨w1, w2, w3, hstarts⟩
  · rintro ⟨w1, w2, w3, hstarts⟩
    exact List.ne_nil_of_mem (mem_shinglesOf.mpr ⟨w1, w2, w3, hstarts, rfl⟩)

/-- A word is passed over by the loop if it is a stop word or too short. -/
theorem Vocabulary.keeps_eq_false {vocab : Vocabulary} {lowerToken : Bytes} :
    vocab.keeps lowerToken = false ↔ lowerToken ∈ vocab.stopWords ∨ lowerToken.length < 2 := by
  simp [keeps, isStopWord, Classical.or_iff_not_imp_left]

/-- What an iteration does to the shingles. -/
theorem processToken_shingles {text : TextOps} {tokens : List Bytes} {loop next : TokenLoop}
    {token : Bytes} {tidx : ℕ}
    (h : processToken text true tokens loop (token, tidx) = some next) (shingle : Int32) :
    shingle ∈ next.shingles ↔ shingle ∈ loop.shingles ∨
      loop.vocabulary.keeps (text.toLower token) = false ∧
        ∃ w2 w3, tokens[tidx + 1]? = some w2 ∧ tokens[tidx + 2]? = some w3 ∧
          getShingle text token w2 w3 = shingle := by
  cases hkeeps : loop.vocabulary.keeps (text.toLower token) with
  | true =>
      have hsame : next.shingles = loop.shingles := by
        simp only [processToken, hkeeps, if_true] at h
        cases hid : loop.vocabulary.getStemId (text.trimAndStem (text.toLower token)) with
        | none =>
            rw [hid] at h
            cases h
            rfl
        | some id =>
            rw [hid] at h
            obtain ⟨counting, -, h⟩ := Option.bind_eq_some_iff.mp h
            obtain ⟨adding, -, h⟩ := Option.bind_eq_some_iff.mp h
            cases h
            rfl
      simp [hsame]
  | false =>
      simp only [processToken, hkeeps, Bool.false_eq_true, if_false, if_true] at h
      cases hsecond : tokens[tidx + 1]? with
      | none =>
          rw [hsecond] at h
          cases h
          simp
      | some w2 =>
          cases hthird : tokens[tidx + 2]? with
          | none =>
              rw [hsecond, hthird] at h
              cases h
              simp
          | some w3 =>
              rw [hsecond, hthird] at h
              cases h
              simp [or_comm, eq_comm]

/-- **The shingles of an article** are those of its tokens. -/
theorem shingles_eq_shinglesOf {text : TextOps} {vocab after : Vocabulary} {article : Article}
    {processed final : ProcessedArticle} {shingles : SortedSet Int32}
    (h : processTokens text true vocab article processed = some (after, final, shingles)) :
    shingles = shinglesOf text vocab.stopWords article.tokens := by
  obtain ⟨loop, hrun, hfinal⟩ := Option.bind_eq_some_iff.mp h
  cases hfinal
  have hinv := run_invariant (P := fun (hist : List (Bytes × ℕ)) (loop : TokenLoop) =>
      loop.vocabulary.stopWords = vocab.stopWords ∧
        ∀ shingle, shingle ∈ loop.shingles ↔
          ∃ entry ∈ hist, vocab.keeps (text.toLower entry.1) = false ∧
            ∃ w2 w3, article.tokens[entry.2 + 1]? = some w2 ∧
              article.tokens[entry.2 + 2]? = some w3 ∧ getShingle text entry.1 w2 w3 = shingle)
    ⟨rfl, by simp [TokenLoop.start]⟩ ?_ hrun
  · ext shingle
    rw [hinv.2, mem_shinglesOf]
    simp only [Vocabulary.keeps_eq_false]
    constructor
    · rintro ⟨⟨w1, tidx⟩, hentry, hstop, w2, w3, hsecond, hthird, hshingle⟩
      have hfirst := List.mk_mem_zipIdx_iff_getElem?.mp hentry
      exact ⟨w1, w2, w3, ⟨tidx, hfirst, hsecond, hthird, hstop⟩, hshingle⟩
    · rintro ⟨w1, w2, w3, ⟨tidx, hfirst, hsecond, hthird, hstop⟩, hshingle⟩
      exact ⟨(w1, tidx), List.mk_mem_zipIdx_iff_getElem?.mpr hfirst, hstop, w2, w3, hsecond,
        hthird, hshingle⟩
  · rintro hist loop ⟨token, tidx⟩ next ⟨hstop, hmem⟩ hstep
    have hkeeps : loop.vocabulary.keeps (text.toLower token) =
        vocab.keeps (text.toLower token) := Vocabulary.keeps_congr hstop _
    refine ⟨(processToken_stems hstep).2.trans hstop, fun shingle => ?_⟩
    rw [processToken_shingles hstep, hmem, hkeeps]
    simp only [List.mem_append, List.mem_singleton, or_and_right, exists_or, exists_eq_left]

end Unbiased
