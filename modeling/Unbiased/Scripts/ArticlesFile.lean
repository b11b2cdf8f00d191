/-
# The file of scraped articles

The scraper writes its articles one after the other, each followed by two newlines,
and the engine splits the file where an article ends. What it searches for is the
closing tag with the newlines, in any letter case, so an article that has them
inside is split.
-/

import Unbiased.Math.Splitting
import Unbiased.Scripts.ToXml

namespace Unbiased

open Unbiased.Math

/-- The upper case of each byte, `std::ctype<char>::toupper` of a locale. -/
structure Ctype where
  toUpper : Fin 256 → Fin 256
  /-- The sign `<` is no letter, and is nothing else's upper case. -/
  eq_of_toUpper : ∀ byte, toUpper byte = toUpper 60 → byte = 60

/-- The classic locale, with the letters of ASCII. -/
def Ctype.classic : Ctype where
  toUpper byte := if 97 ≤ byte ∧ byte ≤ 122 then byte - 32 else byte
  eq_of_toUpper := by decide +kernel

/-- What the engine searches for. -/
def articleEnd : Bytes := ascii "</article>\n\n"

/-- Load the articles of a file. A file that cannot be opened throws. -/
def loadArticlesXml (ctype : Ctype) (articlesFile : Option Bytes) : Option (List Bytes) := do
  let articlesStr ← articlesFile
  let pieces := split ctype.toUpper articleEnd articlesStr
  some ((pieces.filter fun piece => !piece.isEmpty).map (· ++ ascii "</article>"))

/-- The file that is written for the articles that were downloaded. -/
def downloadArticlesSample {Date : Type} (strftime : Date → Bytes)
    (articles : List (NewspaperArticle Date)) : Bytes :=
  articles.foldl (fun articlesOutfile article =>
    articlesOutfile ++ (toXml strftime article ++ ascii "\n\n")) []

/-- A file of contents that are each followed by the closing tag and two newlines. -/
def fileOf (contents : List Bytes) : Bytes :=
  contents.flatMap (· ++ articleEnd)

/-- The closing tag and two newlines stand somewhere in the text, in any letter case. -/
abbrev HoldsArticleEnd (ctype : Ctype) (text : Bytes) : Prop :=
  Occurs ctype.toUpper articleEnd text

theorem articleEnd_eq : articleEnd = 60 :: articleEnd.tail := by decide +kernel

/-- The sign `<` comes once in what is searched for. -/
theorem toUpper_ne_of_mem_tail (ctype : Ctype) :
    ∀ byte ∈ articleEnd.tail, ctype.toUpper byte ≠ ctype.toUpper 60 := by
  intro byte hbyte hsame
  have hother : ∀ byte ∈ articleEnd.tail, byte ≠ 60 := by decide +kernel
  exact hother byte hbyte (ctype.eq_of_toUpper byte hsame)

/-- The contents are loaded again exactly if they are the non-empty pieces. -/
theorem loadArticlesXml_eq_some_iff (ctype : Ctype) (file : Bytes) (contents : List Bytes) :
    loadArticlesXml ctype (some file) = some (contents.map (· ++ ascii "</article>")) ↔
      (split ctype.toUpper articleEnd file).filter (fun piece => !piece.isEmpty) = contents := by
  have hinjective : Function.Injective fun content : Bytes => content ++ ascii "</article>" :=
    List.append_left_injective _
  rw [loadArticlesXml, Option.bind_eq_bind, Option.bind_some, Option.some_inj,
    (List.map_injective_iff.mpr hinjective).eq_iff]

/-- Of a file of non-empty contents, these are the pieces exactly if none holds what is
searched for. -/
theorem pieces_fileOf_eq_iff (ctype : Ctype) {contents : List Bytes}
    (hnonempty : ∀ content ∈ contents, content ≠ []) :
    (split ctype.toUpper articleEnd (fileOf contents)).filter (fun piece => !piece.isEmpty) =
        contents ↔
      ∀ content ∈ contents, ¬ HoldsArticleEnd ctype content := by
  have hpieces := filter_split_eq_iff (toUpper_ne_of_mem_tail ctype) hnonempty
  rwa [← articleEnd_eq] at hpieces

/-- **When the contents of a file are loaded again.** -/
theorem loadArticlesXml_fileOf_iff (ctype : Ctype) {contents : List Bytes}
    (hnonempty : ∀ content ∈ contents, content ≠ []) :
    loadArticlesXml ctype (some (fileOf contents)) =
        some (contents.map (· ++ ascii "</article>")) ↔
      ∀ content ∈ contents, ¬ HoldsArticleEnd ctype content :=
  (loadArticlesXml_eq_some_iff ctype _ contents).trans (pieces_fileOf_eq_iff ctype hnonempty)

/-- Two contents, one of which holds a closing tag, but no newlines behind it. -/
def twoContents : List Bytes := [ascii "<article>a", ascii "<article></article>\nb"]

/-- The equivalence for these contents. -/
theorem loadArticlesXml_fileOf_iff_twoContents :
    loadArticlesXml .classic (some (fileOf twoContents)) =
        some (twoContents.map (· ++ ascii "</article>")) ↔
      ∀ content ∈ twoContents, ¬ HoldsArticleEnd .classic content :=
  loadArticlesXml_fileOf_iff .classic (by decide +kernel)

example : loadArticlesXml .classic (some (fileOf twoContents)) =
    some (twoContents.map (· ++ ascii "</article>")) := by decide +kernel

/-! ## The articles of the scraper -/

section

variable {Date : Type} {strftime : Date → Bytes}

/-- An article is some content and the closing tag. -/
theorem exists_toXml_eq (strftime : Date → Bytes) (article : NewspaperArticle Date) :
    ∃ content, content ≠ [] ∧ toXml strftime article = content ++ ascii "</article>" := by
  have hclosing : endTag (ascii "article") = ascii "</article>" := by decide +kernel
  rw [toXml_eq, xmlElement, ← List.append_assoc, hclosing]
  exact ⟨_, List.append_ne_nil_of_left_ne_nil (List.cons_ne_nil _ _) _, rfl⟩

/-- The closing tag alone brings nothing that is searched for. -/
theorem holdsArticleEnd_append (ctype : Ctype) (content : Bytes) :
    HoldsArticleEnd ctype (content ++ ascii "</article>") ↔ HoldsArticleEnd ctype content := by
  have hclosing : ascii "</article>" = 60 :: (ascii "</article>").tail := by decide +kernel
  have hshorter : (ascii "</article>").tail.length < articleEnd.tail.length := by decide +kernel
  rw [HoldsArticleEnd, HoldsArticleEnd, articleEnd_eq, hclosing]
  exact occurs_append_iff (toUpper_ne_of_mem_tail ctype) hshorter

/-- **When the scraped articles are loaded as they were written.** -/
theorem loadArticlesXml_downloadArticlesSample_iff (ctype : Ctype)
    (articles : List (NewspaperArticle Date)) :
    loadArticlesXml ctype (some (downloadArticlesSample strftime articles)) =
        some (articles.map (toXml strftime)) ↔
      ∀ article ∈ articles, ¬ HoldsArticleEnd ctype (toXml strftime article) := by
  choose content hnonempty hcontent using exists_toXml_eq strftime
  have hend : articleEnd = ascii "</article>" ++ ascii "\n\n" := by decide +kernel
  have hfile : downloadArticlesSample strftime articles = fileOf (articles.map content) := by
    rw [downloadArticlesSample, ← List.flatMap_eq_foldl, fileOf, List.flatMap_map]
    simp only [hcontent, hend, List.append_assoc]
  have hall : ∀ text ∈ articles.map content, text ≠ [] := by
    rw [List.forall_mem_map]
    exact fun article _ => hnonempty article
  have hwritten : articles.map (toXml strftime) =
      (articles.map content).map (· ++ ascii "</article>") := by
    rw [List.map_map]
    exact List.map_congr_left fun article _ => hcontent article
  rw [hfile, hwritten, loadArticlesXml_eq_some_iff, pieces_fileOf_eq_iff ctype hall,
    List.forall_mem_map]
  simp only [hcontent, holdsArticleEnd_append]

end

end Unbiased
