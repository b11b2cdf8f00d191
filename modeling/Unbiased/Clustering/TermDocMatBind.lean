/-
# The Python binding

The binding reads the vocabulary and the scraped articles from their files, keeps the first
article of each title, and builds the term-document matrix of those that are valid. What
it returns is determined by the stems of their tokens.

A file that cannot be opened and an article that cannot be parsed throw, also an article that
would not be kept.
-/

import Unbiased.Clustering.BatchMatrix
import Unbiased.Clustering.ExactMatrix
import Unbiased.Clustering.Faults
import Unbiased.Math.FirstBy
import Unbiased.Scripts.ArticlesFile

namespace Unbiased

open Unbiased.Math

/-! ## The loops -/

/-- What the first loop carries. -/
structure TitlesLoop where
  vocab : Vocabulary
  titles : SortedSet Bytes
  articles : List Article

/-- One article of the first loop. One that cannot be parsed throws. -/
def keepNewTitle (readXml : Bytes → Option Ptree) (text : TextOps) (loop : TitlesLoop)
    (articleXml : Bytes) : Option TitlesLoop := do
  let newArticle ← parseFromXml readXml articleXml
  if newArticle.metaData.title ∈ loop.titles then some loop
  else
    let loop := { loop with titles := loop.titles.insert newArticle.metaData.title }
    let (valid, newArticle, stems) := validate text loop.vocab newArticle
    some (if valid then
      { loop with
        vocab := loop.vocab.addStems stems
        articles := loop.articles ++ [newArticle] }
    else loop)

/-- The vocabulary and the articles that are processed. -/
def keepNewTitles (readXml : Bytes → Option Ptree) (text : TextOps) (ctype : Ctype)
    (wordsFile stopwordsFile articlesFile : Option Bytes) (stemsFreq : Fin maxStemsNo → Int32) :
    Option TitlesLoop := do
  let vocab ← Vocabulary.ofFiles text wordsFile stopwordsFile stemsFreq
  let articlesXml ← loadArticlesXml ctype articlesFile
  run (keepNewTitle readXml text) ⟨vocab, SortedSet.empty, []⟩ articlesXml

/-- The matrix of the articles that are processed. There is none if an assertion fails or an
access is out of range. -/
def buildKept (text : TextOps) (memory : ℕ → Signature) (loop : TitlesLoop) : Option (Mat ℚ) := do
  let (vocab, processedArticles) ← run (collectProcessed text false) (loop.vocab, [])
    (loop.articles.zipIdx.map fun entry => (entry.1, memory entry.2))
  let lsaProcessor ← (LSA.fresh : LSA ℚ).buildTermDocMatrix vocab processedArticles 3
  some lsaProcessor.termDocMat

/-- The matrix that is returned, or nothing if an exception is thrown. -/
def computeTermDocMat (readXml : Bytes → Option Ptree) (text : TextOps) (ctype : Ctype)
    (memory : ℕ → Signature) (wordsFile stopwordsFile articlesFile : Option Bytes)
    (stemsFreq : Fin maxStemsNo → Int32) : Option (Option (Mat ℚ)) :=
  match keepNewTitles readXml text ctype wordsFile stopwordsFile articlesFile stemsFreq with
  | none => some none
  | some loop => (buildKept text memory loop).map some

/-! ## What the first loop keeps -/

/-- The articles of a list that are the first of their titles and valid. The first of a title
counts also if it is not valid. -/
def validFirsts (text : TextOps) (vocab : Vocabulary) (articles : List Article) : List Article :=
  ((firstBy (fun article => article.metaData.title) articles).filter fun article =>
    (validate text vocab article).1).map fun article => (validate text vocab article).2.1

/-- The loop for an article that was parsed. -/
def keepTitle (text : TextOps) (loop : TitlesLoop) (article : Article) : TitlesLoop :=
  if article.metaData.title ∈ loop.titles then loop
  else if (validate text loop.vocab article).1 then
    ⟨loop.vocab.addStems (validate text loop.vocab article).2.2,
      loop.titles.insert article.metaData.title,
      loop.articles ++ [(validate text loop.vocab article).2.1]⟩
  else { loop with titles := loop.titles.insert article.metaData.title }

theorem keepNewTitle_eq (readXml : Bytes → Option Ptree) (text : TextOps) (loop : TitlesLoop)
    (articleXml : Bytes) :
    keepNewTitle readXml text loop articleXml =
      (parseFromXml readXml articleXml).map (keepTitle text loop) := by
  unfold keepNewTitle
  cases parseFromXml readXml articleXml with
  | none => rfl
  | some article =>
      simp only [Option.bind_eq_bind, Option.bind_some, Option.map_some, keepTitle]
      split
      · rfl
      · rfl

/-- The state of the loop after some articles. -/
structure KeepsFirsts (text : TextOps) (vocab : Vocabulary) (parsed : List Article)
    (loop : TitlesLoop) : Prop where
  sameVocab : loop.vocab = { vocab with stems := loop.vocab.stems }
  titles : ∀ title, title ∈ loop.titles ↔
    title ∈ parsed.map fun article => article.metaData.title
  articles : loop.articles = validFirsts text vocab parsed
  stems : ∀ stem, stem ∈ loop.vocab.stems ↔
    stem ∈ vocab.stems ∨ HasValidStem text vocab loop.articles stem

theorem validFirsts_concat (text : TextOps) (vocab : Vocabulary) (articles : List Article)
    (article : Article) :
    validFirsts text vocab (articles ++ [article]) =
      if article.metaData.title ∈ articles.map (fun article => article.metaData.title) then
        validFirsts text vocab articles
      else if (validate text vocab article).1 then
        validFirsts text vocab articles ++ [(validate text vocab article).2.1]
      else validFirsts text vocab articles := by
  rw [validFirsts, firstBy_concat]
  split
  · rfl
  · rw [List.filter_append, List.map_append, ← validFirsts]
    cases hvalid : (validate text vocab article).1 with
    | true => simp [hvalid]
    | false => simp [hvalid]

theorem hasValidStem_append (text : TextOps) (vocab : Vocabulary) (first rest : List Article)
    (stem : Bytes) :
    HasValidStem text vocab (first ++ rest) stem ↔
      HasValidStem text vocab first stem ∨ HasValidStem text vocab rest stem := by
  simp only [HasValidStem, List.mem_append, or_and_right, exists_or]

theorem KeepsFirsts.step {text : TextOps} {vocab : Vocabulary} {parsed : List Article}
    {loop : TitlesLoop} (h : KeepsFirsts text vocab parsed loop) (article : Article) :
    KeepsFirsts text vocab (parsed ++ [article]) (keepTitle text loop article) := by
  have hvalidate : validate text loop.vocab article = validate text vocab article := by
    rw [h.sameVocab]
    rfl
  have hconcat := validFirsts_concat text vocab parsed article
  have htitles : ∀ title, title ∈ loop.titles.insert article.metaData.title ↔
      title ∈ (parsed ++ [article]).map fun article => article.metaData.title := by
    intro title
    rw [SortedSet.mem_insert, h.titles, List.map_append, List.mem_append, List.map_singleton,
      List.mem_singleton, or_comm]
  unfold keepTitle
  rw [hvalidate]
  split
  · rename_i hseen
    have htitle := (h.titles _).mp hseen
    rw [if_pos htitle] at hconcat
    refine ⟨h.sameVocab, fun title => ?_, h.articles.trans hconcat.symm, h.stems⟩
    rw [h.titles, List.map_append, List.mem_append, List.map_singleton, List.mem_singleton]
    exact ⟨Or.inl, fun hor => hor.elim id fun heq => heq ▸ htitle⟩
  · rename_i hnew
    rw [if_neg fun htitle => hnew ((h.titles _).mpr htitle)] at hconcat
    split
    · rename_i hvalid
      rw [if_pos hvalid, ← h.articles] at hconcat
      refine ⟨?_, htitles, hconcat.symm, fun stem => ?_⟩
      · rw [h.sameVocab]
        rfl
      · rw [Vocabulary.addStems_stems, SortedSet.mem_union, h.stems, mem_stems_of_validate hvalid,
          hasValidStem_append, or_assoc]
    · rename_i hinvalid
      rw [if_neg hinvalid, ← h.articles] at hconcat
      exact ⟨h.sameVocab, htitles, hconcat.symm, h.stems⟩

/-- The first loop, over articles that can all be parsed. -/
theorem keepsFirsts_foldl (text : TextOps) (vocab : Vocabulary) (parsed : List Article) :
    KeepsFirsts text vocab parsed
      (parsed.foldl (keepTitle text) ⟨vocab, SortedSet.empty, []⟩) := by
  induction parsed using List.reverseRecOn with
  | nil => exact ⟨rfl, fun title => by simp, rfl, fun stem => by simp [HasValidStem]⟩
  | append_singleton parsed article ih =>
      rw [List.foldl_append]
      exact ih.step article

/-- No two articles that are kept have one title. -/
theorem nodup_titles_validFirsts (text : TextOps) (vocab : Vocabulary) (articles : List Article) :
    ((validFirsts text vocab articles).map fun article => article.metaData.title).Nodup := by
  have htitle : ∀ article, (validate text vocab article).2.1.metaData.title =
      article.metaData.title := by
    intro article
    unfold validate tokenizeValidate
    simp only
    split
    · rfl
    · rfl
  rw [validFirsts, List.map_map]
  simp only [Function.comp_def, htitle]
  exact (nodup_map_firstBy _ articles).sublist (List.filter_sublist.map _)

/-- What is kept was accepted. -/
theorem accepted_of_mem_validFirsts {text : TextOps} {vocab : Vocabulary}
    {articles : List Article} {article : Article} (h : article ∈ validFirsts text vocab articles) :
    AcceptedArticle text article := by
  obtain ⟨source, hsource, rfl⟩ := List.mem_map.mp h
  exact ⟨vocab, source, _, _, _, (List.mem_filter.mp hsource).2, rfl⟩

/-! ## The matrix -/

instance (tfThreshold : Int32) (articlesNo : ℤ) : Decidable (PassesFilter tfThreshold articlesNo) :=
  inferInstanceAs (Decidable (_ ∧ _))

/-- The stems of a vocabulary that enough and not too many articles mention, in order. -/
def filteredStems (text : TextOps) (vocab : Vocabulary) (articles : List Article) : List Bytes :=
  vocab.stems.elems.filter fun stem => PassesFilter 3
    (Int32.ofNat (articles.countP fun article => vocab.mentions text article stem)).toInt

/-- A row for each of these stems, a column for each article, and for an entry the share of
the article's tokens that are kept and stem to the row's stem. From `2 ^ 31` such tokens on the
code's counter overflows, which is undefined. -/
structure IsTermDocMat (text : TextOps) (vocab : Vocabulary) (articles : List Article)
    (mat : Mat ℚ) : Prop where
  nr : mat.nr = (filteredStems text vocab articles).length
  nc : mat.nc = articles.length
  entry : ∀ row stem, (filteredStems text vocab articles)[row]? = some stem →
    ∀ col article, articles[col]? = some article →
      mat.elem row col = termFrequency (article.tokens.countP fun token =>
        vocab.keeps (text.toLower token) ∧ text.trimAndStem (text.toLower token) = stem)
        article.tokens.length

/-- The elements of a set, by their positions. -/
theorem map_rank_elems {s : SortedSet Bytes} :
    s.elems.map s.rank = List.range s.size := by
  apply List.ext_getElem
  · rw [List.length_map, List.length_range]
    rfl
  · intro idx hidx _
    rw [List.getElem_map, List.getElem_range]
    exact (SortedSet.nth?_eq_some.mp (List.getElem?_eq_getElem _)).2

section

variable {text : TextOps} {vocab : Vocabulary} {entries : List (Article × Signature)}
  {state : Vocabulary × List ProcessedArticle}

/-- A stem's position is a row if enough and not too many articles mention the stem. -/
theorem Collected.isTerm_rank (h : Collected text vocab entries state)
    (hfits : vocab.stemsNo ≤ maxStemsNo) (hcounts : ∀ slot, vocab.stemsFreq slot = 0)
    {stem : Bytes} (hmem : stem ∈ vocab.stems) :
    state.1.isTerm 3 (vocab.stems.rank stem) = decide (PassesFilter 3
      (Int32.ofNat ((entries.map Prod.fst).countP fun article =>
        vocab.mentions text article stem)).toInt) := by
  have hcount := h.processed.stemCount_eq hfits hcounts hmem
  rw [Vocabulary.stemCount, Vocabulary.getStemId_of_mem (h.processed.stems ▸ hmem),
    Option.bind_some, h.processed.stems] at hcount
  rw [Vocabulary.isTerm, hcount, Option.any_some, decide_eq_decide, Int32.lt_iff_toInt_lt,
    Int32.lt_iff_toInt_lt]
  rfl

/-- The rows of a batch are the positions of the stems that pass the filter. -/
theorem Collected.rows_eq {lsa : LSA ℚ} (h : Collected text vocab entries state)
    (hfits : vocab.stemsNo ≤ maxStemsNo) (hcounts : ∀ slot, vocab.stemsFreq slot = 0)
    (hbuild : (LSA.fresh : LSA ℚ).buildTermDocMatrix state.1 state.2 3 = some lsa) :
    lsa.termsMatToVocab =
      (filteredStems text vocab (entries.map Prod.fst)).map vocab.stems.rank := by
  rw [LSA.rows_eq_of_build hbuild, h.stemsNo_eq, Vocabulary.stemsNo, ← map_rank_elems,
    List.filter_map, filteredStems]
  congr 1
  apply List.filter_congr
  exact fun stem hmem => h.isTerm_rank hfits hcounts hmem

/-- The matrix of a batch. -/
theorem Collected.isTermDocMat {lsa : LSA ℚ} (h : Collected text vocab entries state)
    (hfits : vocab.stemsNo ≤ maxStemsNo) (hcounts : ∀ slot, vocab.stemsFreq slot = 0)
    (hbuild : (LSA.fresh : LSA ℚ).buildTermDocMatrix state.1 state.2 3 = some lsa) :
    IsTermDocMat text vocab (entries.map Prod.fst) lsa.termDocMat := by
  have hrows := h.rows_eq hfits hcounts hbuild
  obtain ⟨hnr, hnc⟩ := LSA.size_of_build hbuild
  constructor
  · rw [hnr, hrows, List.length_map]
  · rw [hnc, List.length_map, h.articles.length_eq]
  · intro row stem hstem col article harticle
    have hmem : stem ∈ vocab.stems :=
      (List.mem_filter.mp (List.mem_of_getElem? hstem)).1
    have hrow : lsa.termsMatToVocab[row]? = some (vocab.stems.rank stem) := by
      rw [hrows, List.getElem?_map, hstem, Option.map_some]
    rw [List.getElem?_map] at harticle
    obtain ⟨entry, hentry, rfl⟩ := Option.map_eq_some_iff.mp harticle
    obtain ⟨procArticle, hproc, hfrom⟩ := exists_getElem?_of_forall₂ h.articles hentry
    rw [LSA.elem_of_build hbuild hrow hproc, hfrom.2, ProcessedArticle.occurrences, hfrom.1,
      countP_recordedIds hfits hmem]

end

/-! ## The whole flow -/

/-- What the binding makes of the articles that it keeps. -/
structure BindsTo (text : TextOps) (vocab : Vocabulary) (articles : List Article)
    (result : Option (Mat ℚ)) : Prop where
  titles : (articles.map fun article => article.metaData.title).Nodup
  /-- Without an article the build stops. -/
  stops : articles = [] → result = none
  /-- The stems are those of the valid words of these articles. -/
  returns : ∀ stems : SortedSet Bytes,
    (∀ stem, stem ∈ stems ↔ HasValidStem text vocab articles stem) →
    articles ≠ [] → stems.size < maxStemsNo →
      ∃ mat, result = some mat ∧ IsTermDocMat text { vocab with stems } articles mat

theorem KeepsFirsts.bindsTo {text : TextOps} {vocab : Vocabulary} {parsed : List Article}
    {loop : TitlesLoop} (h : KeepsFirsts text vocab parsed loop)
    (hnew : ∀ stem, stem ∉ vocab.stems) (hcounts : ∀ slot, vocab.stemsFreq slot = 0)
    (memory : ℕ → Signature) :
    BindsTo text vocab (validFirsts text vocab parsed) (buildKept text memory loop) := by
  have hentries : (loop.articles.zipIdx.map fun entry => (entry.1, memory entry.2)).map
      Prod.fst = loop.articles := by
    rw [List.map_map]
    exact List.zipIdx_map_fst 0 _
  have haccepted : ∀ entry ∈ loop.articles.zipIdx.map fun entry => (entry.1, memory entry.2),
      AcceptedArticle text entry.1 := by
    intro entry hentry
    have hmem := List.mem_map_of_mem (f := Prod.fst) hentry
    rw [hentries, h.articles] at hmem
    exact accepted_of_mem_validFirsts hmem
  have hcountsLoop : ∀ slot, loop.vocab.stemsFreq slot = 0 := by
    rw [h.sameVocab]
    exact hcounts
  constructor
  · exact nodup_titles_validFirsts text vocab parsed
  · intro hnil
    rw [buildKept, h.articles, hnil]
    rfl
  · intro stems hstems hnonempty hroom
    rw [← h.articles] at hstems hnonempty ⊢
    obtain rfl : loop.vocab.stems = stems := by
      ext stem
      rw [h.stems, hstems, or_iff_right (hnew stem)]
    obtain ⟨state, hrun⟩ := exists_run_collectProcessed text false hroom.le
      (loop.articles.zipIdx.map fun entry => (entry.1, memory entry.2))
    obtain ⟨lsa, hlsa⟩ := Collected.exists_build ℚ hrun hroom hcountsLoop
      (fun hnil => hnonempty (by rw [← hentries, hnil]; rfl)) haccepted
      (show (0 : Int32) ≤ 3 by decide)
    have hmat := (collected_of_run hrun).isTermDocMat hroom.le hcountsLoop hlsa
    rw [hentries] at hmat
    refine ⟨lsa.termDocMat, ?_, h.sameVocab ▸ hmat⟩
    rw [buildKept, hrun]
    simp only [hlsa, Option.bind_eq_bind, Option.bind_some]

/-- **What the binding returns.** For files that can be opened, and from zero counts: it throws
if an article cannot be parsed, and else it builds the matrix of the first articles of their
titles that are valid, over the stems of their valid words. -/
theorem computeTermDocMat_spec {readXml : Bytes → Option Ptree} {text : TextOps} {ctype : Ctype}
    {memory : ℕ → Signature} {wordsFile stopwordsFile articlesFile : Option Bytes}
    {stemsFreq : Fin maxStemsNo → Int32} {vocab : Vocabulary} {articlesXml : List Bytes}
    (hvocab : Vocabulary.ofFiles text wordsFile stopwordsFile stemsFreq = some vocab)
    (hload : loadArticlesXml ctype articlesFile = some articlesXml)
    (hcounts : ∀ slot, vocab.stemsFreq slot = 0) :
    (articlesXml.mapM (parseFromXml readXml) = none →
      computeTermDocMat readXml text ctype memory wordsFile stopwordsFile articlesFile
        stemsFreq = some none) ∧
    ∀ articles, articlesXml.mapM (parseFromXml readXml) = some articles →
      ∃ result, computeTermDocMat readXml text ctype memory wordsFile stopwordsFile articlesFile
          stemsFreq = result.map some ∧
        BindsTo text vocab (validFirsts text vocab articles) result := by
  have hkeep : keepNewTitles readXml text ctype wordsFile stopwordsFile articlesFile stemsFreq =
      (articlesXml.mapM (parseFromXml readXml)).map fun articles =>
        articles.foldl (keepTitle text) ⟨vocab, SortedSet.empty, []⟩ := by
    rw [keepNewTitles, hvocab, hload]
    exact run_eq_map_foldl (keepNewTitle_eq readXml text) _ _
  unfold computeTermDocMat
  rw [hkeep]
  constructor
  · intro hparsed
    rw [hparsed]
    rfl
  · intro articles hparsed
    rw [hparsed]
    refine ⟨_, rfl, ?_⟩
    exact (keepsFirsts_foldl text vocab articles).bindsTo (notMem_stems_of_ofFiles hvocab)
      hcounts memory

/-- The specification for a file with one article, which can be parsed. -/
theorem computeTermDocMat_spec_loaded :
    ∃ vocab articles, Vocabulary.ofFiles letterText (some [97, 97]) (some []) (fun _ => 0) =
        some vocab ∧
      [loadedXml].mapM (parseFromXml letterEnv.readXml) = some articles ∧
      ∃ result, computeTermDocMat letterEnv.readXml letterText .classic (fun _ _ => 0)
          (some [97, 97]) (some []) (some (loadedXml ++ ascii "\n\n")) (fun _ => 0) =
            result.map some ∧
        BindsTo letterText vocab (validFirsts letterText vocab articles) result := by
  have hload : loadArticlesXml .classic (some (loadedXml ++ ascii "\n\n")) = some [loadedXml] := by
    decide +kernel
  have hparsed : ([loadedXml].mapM (parseFromXml letterEnv.readXml)).isSome := by decide +kernel
  obtain ⟨articles, harticles⟩ := Option.isSome_iff_exists.mp hparsed
  obtain ⟨vocab, hvocab⟩ : ∃ vocab, Vocabulary.ofFiles letterText (some [97, 97]) (some [])
      (fun _ => 0) = some vocab := ⟨_, rfl⟩
  have hcounts : ∀ slot, vocab.stemsFreq slot = 0 := by
    cases hvocab
    exact fun _ => rfl
  exact ⟨vocab, articles, hvocab, harticles,
    (computeTermDocMat_spec hvocab hload hcounts).2 articles harticles⟩

end Unbiased
