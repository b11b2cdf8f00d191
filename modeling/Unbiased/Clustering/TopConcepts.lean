/-
# The top concepts

A concept is reported by the first tokens of its heaviest rows. They are gathered
in a set, so as many are reported as there were rows chosen only if different
rows have different first tokens. They do: a token is recorded under one id.

The sort is a library's, and rows of the same weight may come in any order.
-/

import Unbiased.Clustering.CollectedBatch
import Unbiased.Math.Selection

namespace Unbiased

open Unbiased.Math

namespace LSA

variable {R : Type}

/-- The token that stands for a row: the first one of its stem, after the assertion
that there is one. -/
def rowToken (lsa : LSA R) (vocab : Vocabulary) (row : ℕ) : Option Bytes := do
  let stemId ← lsa.termsMatToVocab[row]?
  let tokensPtr ← vocab.getTokens (Int32.ofNat stemId)
  let tokensSet ← tokensPtr
  tokensSet.elems.head?

/-- That token; empty if there is none. -/
def rowName (lsa : LSA R) (vocab : Vocabulary) (row : ℕ) : Bytes :=
  (lsa.rowToken vocab row).getD []

/-- The token and the value of a row. -/
def termVal (lsa : LSA R) (vocab : Vocabulary) (col row : ℕ) : Option (Bytes × R) := do
  let term ← lsa.rowToken vocab row
  let val ← lsa.u.at? row col
  some (term, val)

/-- Each row of the terms' matrix has a token of its own. -/
structure RowsNamed (lsa : LSA R) (vocab : Vocabulary) : Prop where
  named : ∀ row < lsa.u.nr, ∃ token, lsa.rowToken vocab row = some token
  distinct : ∀ first < lsa.u.nr, ∀ second < lsa.u.nr,
    lsa.rowToken vocab first = lsa.rowToken vocab second → first = second

section TopConcepts

variable [LinearOrder R]

/-- The comparator of the sort: larger values first. -/
abbrev LargerVal (first second : Bytes × R) : Prop := second.2 < first.2

/-- The tokens of a concept. The number of terms is compared as a `size_t`. -/
def conceptTerms (order : StdSort (Bytes × R) LargerVal) (lsa : LSA R) (vocab : Vocabulary)
    (terms : Int64) (col : ℕ) : Option (SortedSet Bytes) := do
  let conceptTermsVals ← (List.range lsa.u.nr).mapM (lsa.termVal vocab col)
  let minSz := min conceptTermsVals.length terms.toUInt64.toNat
  some (SortedSet.ofList (((order.sort conceptTermsVals).take minSz).map Prod.fst))

/-- The tokens of each of the first concepts. -/
def getTopConcepts (order : StdSort (Bytes × R) LargerVal) (lsa : LSA R) (vocab : Vocabulary)
    (concepts terms : Int64) : Option (List (SortedSet Bytes)) :=
  (List.range (min concepts.toInt lsa.u.nc).toNat).mapM (lsa.conceptTerms order vocab terms)

/-- A set of tokens names the heaviest rows of a concept: as many rows as there are tokens,
each by its own token, and none that was left out is heavier. -/
structure NamesHeaviest (lsa : LSA R) (vocab : Vocabulary) (count col : ℕ)
    (tokens : SortedSet Bytes) : Prop where
  size : tokens.size = count
  rows : ∃ rows : Finset ℕ, rows ⊆ Finset.range lsa.u.nr ∧ rows.card = count ∧
    (∀ token, token ∈ tokens ↔ ∃ row ∈ rows, lsa.rowToken vocab row = some token) ∧
    ∀ row ∈ rows, ∀ other < lsa.u.nr, other ∉ rows → lsa.u.elem other col ≤ lsa.u.elem row col

namespace RowsNamed

variable {lsa : LSA R} {vocab : Vocabulary}

omit [LinearOrder R] in
theorem rowToken_eq (h : lsa.RowsNamed vocab) {row : ℕ} (hrow : row < lsa.u.nr) :
    lsa.rowToken vocab row = some (lsa.rowName vocab row) := by
  obtain ⟨token, htoken⟩ := h.named row hrow
  rw [rowName, htoken, Option.getD_some]

omit [LinearOrder R] in
/-- The tokens and values of all rows. -/
theorem mapM_termVal (h : lsa.RowsNamed vocab) {col : ℕ} (hcol : col < lsa.u.nc) :
    (List.range lsa.u.nr).mapM (lsa.termVal vocab col) =
      some ((List.range lsa.u.nr).map fun row => (lsa.rowName vocab row, lsa.u.elem row col)) := by
  apply mapM_eq_some_map
  intro row hrow
  have hlt : row < lsa.u.nr := List.mem_range.mp hrow
  have hval : lsa.u.at? row col = some (lsa.u.elem row col) := if_pos ⟨hlt, hcol⟩
  simp only [termVal, h.rowToken_eq hlt, hval, Option.bind_eq_bind, Option.bind_some]

/-- Chosen rows that no other row outweighs are named by their tokens. -/
theorem namesHeaviest (h : lsa.RowsNamed vocab) {chosen : List ℕ} {col : ℕ}
    (hnodup : chosen.Nodup) (hrows : ∀ row ∈ chosen, row < lsa.u.nr)
    (hheaviest : ∀ row ∈ chosen, ∀ other < lsa.u.nr, other ∉ chosen →
      lsa.u.elem other col ≤ lsa.u.elem row col) :
    lsa.NamesHeaviest vocab chosen.length col
      (SortedSet.ofList (chosen.map (lsa.rowName vocab))) := by
  have hnames : (chosen.map (lsa.rowName vocab)).Nodup := by
    apply List.Nodup.map_on _ hnodup
    intro first hfirst second hsecond hsame
    apply h.distinct first (hrows first hfirst) second (hrows second hsecond)
    rw [h.rowToken_eq (hrows first hfirst), h.rowToken_eq (hrows second hsecond), hsame]
  refine ⟨?_, chosen.toFinset, ?_, List.toFinset_card_of_nodup hnodup, ?_, ?_⟩
  · rw [SortedSet.size_ofList hnames, List.length_map]
  · intro row hmem
    exact Finset.mem_range.mpr (hrows row (List.mem_toFinset.mp hmem))
  · intro token
    rw [SortedSet.mem_ofList, List.mem_map]
    simp only [List.mem_toFinset]
    apply exists_congr
    intro row
    apply and_congr_right
    intro hmem
    rw [h.rowToken_eq (hrows row hmem), Option.some_inj]
  · simp only [List.mem_toFinset]
    exact hheaviest

/-- One concept of named rows is reported by its heaviest ones. -/
theorem exists_conceptTerms (h : lsa.RowsNamed vocab) (order : StdSort (Bytes × R) LargerVal)
    (terms : Int64) {col : ℕ} (hcol : col < lsa.u.nc) :
    ∃ tokens, lsa.conceptTerms order vocab terms col = some tokens ∧
      lsa.NamesHeaviest vocab (min lsa.u.nr terms.toUInt64.toNat) col tokens := by
  obtain ⟨chosen, hnodup, hsubset, hlength, htake, hheaviest⟩ := order.exists_take
    (fun row => (lsa.rowName vocab row, lsa.u.elem row col)) List.nodup_range
    (min lsa.u.nr terms.toUInt64.toNat)
  have hcount : chosen.length = min lsa.u.nr terms.toUInt64.toNat := by
    rw [hlength, List.length_range]
    exact min_eq_left (min_le_left _ _)
  have hterms : lsa.conceptTerms order vocab terms col =
      some (SortedSet.ofList (chosen.map (lsa.rowName vocab))) := by
    simp only [conceptTerms, h.mapM_termVal hcol, Option.bind_eq_bind, Option.bind_some,
      List.length_map, List.length_range, htake, List.map_map]
    rfl
  have hnames := h.namesHeaviest hnodup (fun row hrow => List.mem_range.mp (hsubset hrow))
    fun row hrow other hlt hother =>
      not_lt.mp (hheaviest row hrow other (List.mem_range.mpr hlt) hother)
  rw [hcount] at hnames
  exact ⟨_, hterms, hnames⟩

/-- The concepts of named rows are reported completely. -/
theorem exists_getTopConcepts (h : lsa.RowsNamed vocab)
    (order : StdSort (Bytes × R) LargerVal) {concepts terms : Int64} (hconcepts : 0 ≤ concepts)
    (hterms : 0 ≤ terms) :
    ∃ topConcepts, lsa.getTopConcepts order vocab concepts terms = some topConcepts ∧
      (topConcepts.length : ℤ) = min concepts.toInt lsa.u.nc ∧
      ∀ col tokens, topConcepts[col]? = some tokens →
        lsa.NamesHeaviest vocab (min terms.toInt.toNat lsa.u.nr) col tokens := by
  have hcount : 0 ≤ min concepts.toInt lsa.u.nc :=
    le_min (Int64.le_iff_toInt_le.mp hconcepts) (Int.natCast_nonneg _)
  have hcol : ∀ col ∈ List.range (min concepts.toInt lsa.u.nc).toNat, col < lsa.u.nc := by
    intro col hmem
    have hlt := List.mem_range.mp hmem
    omega
  have hsome : (lsa.getTopConcepts order vocab concepts terms).isSome := by
    rw [getTopConcepts, isSome_mapM_iff]
    intro col hmem
    obtain ⟨tokens, htokens, -⟩ := h.exists_conceptTerms order terms (hcol col hmem)
    exact Option.isSome_of_eq_some htokens
  obtain ⟨topConcepts, hresult⟩ := Option.isSome_iff_exists.mp hsome
  have hlength := length_of_mapM hresult
  rw [List.length_range] at hlength
  refine ⟨topConcepts, hresult, ?_, ?_⟩
  · rw [hlength, Int.toNat_of_nonneg hcount]
  · intro col tokens htokens
    have hlt : col < (min concepts.toInt lsa.u.nc).toNat :=
      hlength ▸ (List.getElem?_eq_some_iff.mp htokens).1
    rw [getElem?_of_mapM hresult, List.getElem?_range hlt, Option.bind_some] at htokens
    obtain ⟨names, hnames, hheaviest⟩ :=
      h.exists_conceptTerms order terms (hcol col (List.mem_range.mpr hlt))
    rw [htokens] at hnames
    cases hnames
    rw [min_comm, Int64.toNat_toUInt64_of_le hterms] at hheaviest
    exact hheaviest

end RowsNamed

end TopConcepts

end LSA

/-! ## The tokens of a batch -/

/-- A token is recorded under the id of its lower-cased spelling. -/
theorem Vocabulary.recordedId?_congr_spelling {text : TextOps} {vocab : Vocabulary}
    {first second : Bytes} (h : text.toLower first = text.toLower second) :
    vocab.recordedId? text first = vocab.recordedId? text second := by
  rw [recordedId?, recordedId?, h]

variable {text : TextOps} {vocab after : Vocabulary} {articles : List Article}

/-- A term of a batch has tokens, and the first one is recorded under its id. -/
theorem BatchProcessed.exists_first_token (h : BatchProcessed text vocab articles after)
    (hcounts : ∀ slot, vocab.stemsFreq slot = 0)
    (hcells : ∀ slot, vocab.stemidTokensMap slot = none) {tfThreshold : Int32}
    (hthreshold : 0 ≤ tfThreshold) {id : ℕ} (hid : id < maxStemsNo)
    (hterm : after.isTerm tfThreshold id) :
    ∃ tokensSet first, after.getTokens (Int32.ofNat id) = some (some tokensSet) ∧
      tokensSet.elems.head? = some first ∧
      ∃ spelling, text.toLower spelling = first ∧
        vocab.recordedId? text spelling = some (Int32.ofNat id) := by
  have hfreq : tfThreshold < Int32.ofNat (articles.countP fun article =>
      Int32.ofNat id ∈ vocab.recordedIds text article.tokens) := by
    rw [Vocabulary.isTerm, Vocabulary.getStemFreq, slot?_ofNat hid, Option.bind_eq_bind,
      Option.bind_some, h.stemsFreq, hcounts, Int32.zero_add, Option.any_some,
      decide_eq_true_iff] at hterm
    exact hterm.1
  -- A count above the threshold is not the zero of an id that no article records.
  have hrecorded : ∃ article ∈ articles,
      Int32.ofNat id ∈ vocab.recordedIds text article.tokens := by
    by_contra hnone
    rw [List.countP_eq_zero.mpr fun article harticle =>
      decide_eq_true_iff.not.mpr fun hmem => hnone ⟨article, harticle, hmem⟩] at hfreq
    exact absurd hfreq (not_lt.mpr hthreshold)
  obtain ⟨tokensSet, hcell⟩ := Option.isSome_iff_exists.mp
    ((h.isSome_tokens ⟨id, hid⟩).mpr (Or.inr hrecorded))
  have hmem : ∀ word, word ∈ tokensSet ↔ ∃ article ∈ articles, ∃ token ∈ article.tokens,
      text.toLower token = word ∧ vocab.recordedId? text token = some (Int32.ofNat id) := by
    intro word
    have hword := h.mem_tokens ⟨id, hid⟩ word
    rw [hcell, hcells, StemIdTokensRCUMap.tokensOf_some] at hword
    exact hword.trans (or_iff_right (SortedSet.notMem_empty word))
  have htokens : after.getTokens (Int32.ofNat id) = some (some tokensSet) := by
    rw [Vocabulary.getTokens, StemIdTokensRCUMap.getTokens, slot?_ofNat hid,
      Option.bind_eq_bind, Option.bind_some, hcell]
  obtain ⟨article, harticle, hids⟩ := hrecorded
  obtain ⟨token, htoken, hrecordedId⟩ := Vocabulary.mem_recordedIds.mp hids
  have hlisted : text.toLower token ∈ tokensSet.elems :=
    (hmem _).mpr ⟨article, harticle, token, htoken, rfl, hrecordedId⟩
  obtain ⟨first, hfirst⟩ : ∃ first, tokensSet.elems.head? = some first :=
    ⟨_, List.head?_eq_some_head (List.ne_nil_of_mem hlisted)⟩
  obtain ⟨_, _, spelling, _, hlower, hspelling⟩ := (hmem first).mp (List.mem_of_head? hfirst)
  exact ⟨tokensSet, first, htokens, hfirst, spelling, hlower, hspelling⟩

variable {R : Type} {tfThreshold : Int32} {lsa : LSA R}

/-- In the matrix of a batch, each row has a token, which is recorded under the row's id. -/
theorem LSA.exists_rowToken (h : BatchProcessed text vocab articles after)
    (hcounts : ∀ slot, vocab.stemsFreq slot = 0)
    (hcells : ∀ slot, vocab.stemidTokensMap slot = none) (hthreshold : 0 ≤ tfThreshold)
    {row id : ℕ} (hrow : lsa.termsMatToVocab[row]? = some id) (hid : id < maxStemsNo)
    (hterm : after.isTerm tfThreshold id) :
    ∃ token, lsa.rowToken after row = some token ∧
      ∃ spelling, text.toLower spelling = token ∧
        vocab.recordedId? text spelling = some (Int32.ofNat id) := by
  obtain ⟨tokensSet, token, htokens, hfirst, hspelling⟩ :=
    h.exists_first_token hcounts hcells hthreshold hid hterm
  refine ⟨token, ?_, hspelling⟩
  simp only [rowToken, hrow, htokens, Option.bind_eq_bind, Option.bind_some, hfirst]

/-- The rows of a batch are named. -/
theorem LSA.rowsNamed_of_batch [Zero R] {processed : List ProcessedArticle}
    {svd : Mat ℚ → Mat R × Mat R × Mat R} (h : BatchProcessed text vocab articles after)
    (hcounts : ∀ slot, vocab.stemsFreq slot = 0)
    (hcells : ∀ slot, vocab.stemidTokensMap slot = none)
    (hsvd : LSA.fresh.runSvd svd after processed = some lsa)
    (hrows : lsa.u.nr = lsa.termsMatToVocab.length) : lsa.RowsNamed after := by
  obtain ⟨built, hbuilt, hlsa⟩ := runSvd_eq_some hsvd
  obtain ⟨hfits, htable, hbelow⟩ := buildTermDocMatrix_spec hbuilt
  have hids : lsa.termsMatToVocab = built.termsMatToVocab := by
    rw [hlsa]
  rw [← hids] at htable hbelow
  have hrow : ∀ row < lsa.u.nr, ∃ id < maxStemsNo, lsa.termsMatToVocab[row]? = some id ∧
      ∃ token, lsa.rowToken after row = some token ∧
        ∃ spelling, text.toLower spelling = token ∧
          vocab.recordedId? text spelling = some (Int32.ofNat id) := by
    intro row hlt
    obtain ⟨id, hid⟩ : ∃ id, lsa.termsMatToVocab[row]? = some id :=
      ⟨_, List.getElem?_eq_getElem (hrows ▸ hlt)⟩
    have hmem := List.mem_of_getElem? hid
    have hslot : id < maxStemsNo := (hbelow id hmem).trans hfits
    rw [htable] at hmem
    exact ⟨id, hslot, hid, exists_rowToken h hcounts hcells (by decide) hid hslot
      (List.mem_filter.mp hmem).2⟩
  constructor
  · intro row hlt
    obtain ⟨_, -, -, token, htoken, -⟩ := hrow row hlt
    exact ⟨token, htoken⟩
  · intro first hfirst second hsecond hsame
    obtain ⟨firstId, hfirstLt, hfirstId, _, htoken, spelling, hlower, hrecorded⟩ :=
      hrow first hfirst
    obtain ⟨secondId, hsecondLt, hsecondId, _, hother, otherSpelling, hotherLower,
      hotherRecorded⟩ := hrow second hsecond
    rw [htoken, hother, Option.some_inj, ← hlower, ← hotherLower] at hsame
    rw [Vocabulary.recordedId?_congr_spelling hsame, hotherRecorded] at hrecorded
    have hid := ofNat_inj_of_lt_maxStemsNo hsecondLt hfirstLt (Option.some.inj hrecorded)
    have hnodup : lsa.termsMatToVocab.Nodup := htable ▸ List.nodup_range.filter _
    apply (List.getElem?_inj (hrows ▸ hfirst) hnodup).mp
    rw [hfirstId, hsecondId, hid]

/-- **The top concepts of a batch are complete.** After the articles are processed from zero
counts and an empty map, and decomposed, no row lacks a token, and each concept is reported
by as many tokens as there are rows to choose: the first tokens of its heaviest rows. -/
theorem LSA.top_concepts_of_batch [Zero R] [LinearOrder R] {collect : Bool}
    {entries : List (Article × Signature)} {processed : List ProcessedArticle}
    {svd : Mat ℚ → Mat R × Mat R × Mat R} (order : StdSort (Bytes × R) LargerVal)
    (hcounts : ∀ slot, vocab.stemsFreq slot = 0)
    (hcells : ∀ slot, vocab.stemidTokensMap slot = none)
    (hrun : run (collectProcessed text collect) (vocab, []) entries = some (after, processed))
    (hsvd : LSA.fresh.runSvd svd after processed = some lsa)
    (hrows : lsa.u.nr = lsa.termsMatToVocab.length) {concepts terms : Int64}
    (hconcepts : 0 ≤ concepts) (hterms : 0 ≤ terms) :
    ∃ topConcepts, lsa.getTopConcepts order after concepts terms = some topConcepts ∧
      (topConcepts.length : ℤ) = min concepts.toInt lsa.u.nc ∧
      ∀ col tokens, topConcepts[col]? = some tokens →
        lsa.NamesHeaviest after (min terms.toInt.toNat lsa.u.nr) col tokens :=
  (rowsNamed_of_batch (collected_of_run hrun).processed hcounts hcells hsvd
    hrows).exists_getTopConcepts order hconcepts hterms

/-- Four articles with the word `aa`. -/
def fourWords : List (Article × Signature) := List.replicate 4 (letterArticle [97], fun _ => 0)

/-- The result for these articles, of which the word is the only row. -/
theorem LSA.top_concepts_of_batch_fourWords :
    ∃ after processed lsa, run (collectProcessed letterText true) (oneStem, []) fourWords =
        some (after, processed) ∧
      LSA.fresh.runSvd oneConcept after processed = some lsa ∧
      ∃ topConcepts, lsa.getTopConcepts (.byKey Prod.snd) after 10 5 = some topConcepts ∧
        (topConcepts.length : ℤ) = min (10 : Int64).toInt lsa.u.nc ∧
        ∀ col tokens, topConcepts[col]? = some tokens →
          lsa.NamesHeaviest after (min (5 : Int64).toInt.toNat lsa.u.nr) col tokens := by
  have hrows : (run (collectProcessed letterText true) (oneStem, []) fourWords).bind (fun state =>
      (LSA.fresh.runSvd oneConcept state.1 state.2).map fun lsa =>
        (lsa.u.nr, lsa.termsMatToVocab.length)) = some (1, 1) := by
    decide +kernel
  obtain ⟨⟨after, processed⟩, hrun, hrows⟩ := Option.bind_eq_some_iff.mp hrows
  obtain ⟨lsa, hsvd, hrows⟩ := Option.map_eq_some_iff.mp hrows
  obtain ⟨hnr, hlength⟩ := Prod.mk.inj hrows
  exact ⟨after, processed, lsa, hrun, hsvd, top_concepts_of_batch (.byKey Prod.snd)
    (fun _ => rfl) (fun _ => rfl) hrun hsvd (hnr.trans hlength.symm) (by decide) (by decide)⟩

end Unbiased
