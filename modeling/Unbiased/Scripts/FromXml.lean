/-
# The scraped file, read by the scripts

The scripts read the file of scraped articles with their own reader. It splits the file at
every closing tag, without the newlines behind it, so each article but the first comes with the
newlines of the one before, and the newlines of the last are a piece of their own.

That piece has no root, so the reader counts one invalid article in every file.
-/

import Unbiased.Scripts.ArticlesFile

namespace Unbiased

open Unbiased.Math

/-! ## The reader -/

/-- What is read from a file in text mode: every carriage return, with a newline behind it or
without one, is a newline. The flag is set behind a carriage return. -/
def universalNewlines : Bool → Bytes → Bytes
  | _, [] => []
  | afterReturn, byte :: rest =>
    if byte = 13 then 10 :: universalNewlines true rest
    else if byte = 10 ∧ afterReturn then universalNewlines false rest
    else byte :: universalNewlines false rest

/-- An element of the XML library. -/
inductive Element where
  | node (tag : Bytes) (text : Option Bytes) (children : List Element)

namespace Element

def tag : Element → Bytes
  | node tag _ _ => tag

def text : Element → Option Bytes
  | node _ text _ => text

def findall : Element → String → List Element
  | node _ _ children, name => children.filter fun child => child.tag = ascii name

def find (element : Element) (name : String) : Option Element := (element.findall name).head?

end Element

/-- Library code: parsing with recovery, which gives no root or throws, and the constructor of
an article, which prepares its link or throws. -/
structure ScriptLibrary where
  parse : Bytes → Option (Option Element)
  prepareUrl : Option Bytes → Option (Option Bytes)

/-- An article as it is read. An empty element has no text. -/
structure ReadArticle where
  url : Option Bytes
  date : Option Bytes
  title : Option Bytes
  authors : List (Option Bytes)
  text : Option Bytes

/-- Read an article from its root. An element that is missing throws. -/
def readRoot (library : ScriptLibrary) (root : Element) : Option ReadArticle := do
  let url ← library.prepareUrl (← root.find "url").text
  let date ← root.find "date"
  let title ← root.find "title"
  let authors ← root.find "authors"
  let text ← root.find "text"
  some ⟨url, date.text, title.text, (authors.findall "author").map Element.text, text.text⟩

structure FromXmlLoop where
  newspaperArticles : List ReadArticle
  invalidCount : ℕ
  count : ℕ

def articleClosing : Bytes := ascii "</article>"

/-- One piece of the file. -/
def readPiece (library : ScriptLibrary) (loop : FromXmlLoop) (articleXml : Bytes) :
    Option FromXmlLoop := do
  let root ← library.parse (articleXml ++ articleClosing)
  match root with
  | none => some { loop with invalidCount := loop.invalidCount + 1 }
  | some root => do
    let newspaperArticle ← readRoot library root
    some { loop with
      newspaperArticles := loop.newspaperArticles ++ [newspaperArticle]
      count := loop.count + 1 }

/-- The articles of a file, with the two counts that are printed. -/
def fromXml (library : ScriptLibrary) (articlesXmlFile : Bytes) : Option FromXmlLoop :=
  let contents := universalNewlines false articlesXmlFile
  run (readPiece library) ⟨[], 0, 0⟩ (split id articleClosing contents)

/-! ## What the loop computes -/

/-- What is read from one text, if anything is. -/
def readOne (library : ScriptLibrary) (articleXml : Bytes) : Option (Option ReadArticle) := do
  let root ← library.parse articleXml
  match root with
  | none => some none
  | some root => (readRoot library root).map some

/-- The state after some results. -/
def tally (results : List (Option ReadArticle)) : FromXmlLoop :=
  ⟨results.filterMap id, results.countP Option.isNone, results.countP Option.isSome⟩

def tallyOne (loop : FromXmlLoop) : Option ReadArticle → FromXmlLoop
  | none => { loop with invalidCount := loop.invalidCount + 1 }
  | some article => { loop with
      newspaperArticles := loop.newspaperArticles ++ [article]
      count := loop.count + 1 }

theorem readPiece_eq (library : ScriptLibrary) (loop : FromXmlLoop) (articleXml : Bytes) :
    readPiece library loop articleXml =
      (readOne library (articleXml ++ articleClosing)).map (tallyOne loop) := by
  unfold readPiece readOne
  cases library.parse (articleXml ++ articleClosing) with
  | none => rfl
  | some root =>
      cases root with
      | none => rfl
      | some root =>
          simp only [Option.bind_eq_bind, Option.bind_some]
          cases readRoot library root with
          | none => rfl
          | some article => rfl

theorem foldl_tallyOne (results : List (Option ReadArticle)) :
    results.foldl tallyOne ⟨[], 0, 0⟩ = tally results := by
  induction results using List.reverseRecOn with
  | nil => rfl
  | append_singleton results result ih =>
      rw [List.foldl_append, ih]
      cases result with
      | none => simp [tally, tallyOne]
      | some article => simp [tally, tallyOne]

theorem fromXml_eq (library : ScriptLibrary) (articlesXmlFile : Bytes) :
    fromXml library articlesXmlFile =
      ((split id articleClosing (universalNewlines false articlesXmlFile)).mapM fun piece =>
        readOne library (piece ++ articleClosing)).map tally := by
  rw [fromXml, run_eq_map_foldl (readPiece_eq library)]
  simp only [foldl_tallyOne]

/-! ## The scraped file in text mode -/

/-- A text without newlines of any kind comes through behind any other. -/
theorem universalNewlines_append {text : Bytes}
    (htext : ∀ afterReturn, universalNewlines afterReturn text = text) (before : Bytes)
    (afterReturn : Bool) :
    universalNewlines afterReturn (before ++ text) =
      universalNewlines afterReturn before ++ text := by
  induction before generalizing afterReturn with
  | nil => exact htext afterReturn
  | cons byte before ih =>
      simp only [List.cons_append, universalNewlines, ih]
      split_ifs <;> rfl

/-- Behind a byte that is no carriage return, reading starts anew. -/
theorem universalNewlines_append_cons (before : Bytes) {byte : Fin 256} (hbyte : byte ≠ 13)
    (rest : Bytes) (afterReturn : Bool) :
    universalNewlines afterReturn (before ++ byte :: rest) =
      universalNewlines afterReturn (before ++ [byte]) ++ universalNewlines false rest := by
  induction before generalizing afterReturn with
  | nil =>
      simp only [List.nil_append, universalNewlines, if_neg hbyte]
      split_ifs <;> rfl
  | cons other before ih =>
      simp only [List.cons_append, universalNewlines, ih]
      split_ifs <;> rfl

/-! ## The pieces of the scraped file -/

def newlines : Bytes := ascii "\n\n"

theorem newlines_eq : newlines = [10, 10] := by decide

/-- Contents with the newlines of the one before, and the newlines of the last. -/
def piecesOf : Bytes → List Bytes → List Bytes
  | lead, [] => [lead]
  | lead, content :: contents => (lead ++ content) :: piecesOf newlines contents

theorem articleClosing_eq : articleClosing = 60 :: articleClosing.tail := by decide

theorem ne_of_mem_tail_closing : ∀ byte ∈ articleClosing.tail, id byte ≠ id (60 : Fin 256) := by
  have hall : articleClosing.tail.all (· ≠ 60) = true := by decide
  exact fun byte hbyte => of_decide_eq_true (List.all_eq_true.mp hall byte hbyte)

theorem occurs_newlines_append (content : Bytes) :
    Occurs id articleClosing (newlines ++ content) ↔ Occurs id articleClosing content := by
  have hfront : ∀ rest, ¬ StartsWith id articleClosing ((10 : Fin 256) :: rest) := by
    intro rest h
    rw [articleClosing_eq] at h
    exact absurd (List.cons_prefix_cons.mp h).1 (by decide)
  rw [newlines_eq, List.cons_append, List.cons_append, List.nil_append, occurs_cons, occurs_cons,
    or_iff_right (hfront _), or_iff_right (hfront _)]

theorem Occurs.append_left {content : Bytes} (h : Occurs id articleClosing content)
    (lead : Bytes) : Occurs id articleClosing (lead ++ content) := by
  rw [Occurs, List.map_append]
  exact h.trans (List.suffix_append _ _).isInfix

theorem exists_mem_piecesOf {content : Bytes} {contents : List Bytes} (h : content ∈ contents)
    (lead : Bytes) : ∃ before, before ++ content ∈ piecesOf lead contents := by
  induction contents generalizing lead with
  | nil => cases h
  | cons other contents ih =>
      rcases List.mem_cons.mp h with rfl | h
      · exact ⟨lead, List.mem_cons_self⟩
      · obtain ⟨before, hmem⟩ := ih h newlines
        exact ⟨before, List.mem_cons_of_mem _ hmem⟩

/-- The contents are the pieces, with their newlines, exactly if none holds a closing tag. -/
theorem split_eq_piecesOf_iff {lead : Bytes}
    (hlead : ∀ content, Occurs id articleClosing (lead ++ content) ↔
      Occurs id articleClosing content) (contents : List Bytes) :
    split id articleClosing
        (lead ++ contents.flatMap fun content => content ++ (articleClosing ++ newlines)) =
          piecesOf lead contents ↔
      ∀ content ∈ contents, ¬ Occurs id articleClosing content := by
  constructor
  · intro hpieces content hcontent hoccurs
    obtain ⟨before, hmem⟩ := exists_mem_piecesOf hcontent lead
    rw [← hpieces] at hmem
    apply not_occurs_of_mem_split _ hmem (Occurs.append_left hoccurs before)
    rw [articleClosing_eq]
    exact List.cons_ne_nil _ _
  · intro hclean
    induction contents generalizing lead with
    | nil =>
        rw [List.flatMap_nil, List.append_nil, piecesOf]
        apply split_of_not_occurs
        rw [← List.append_nil lead, hlead, articleClosing_eq]
        exact not_occurs_nil (List.cons_ne_nil _ _)
    | cons content contents ih =>
        obtain ⟨hcontent, hrest⟩ := List.forall_mem_cons.mp hclean
        have hfirst : ¬ Occurs id (60 :: articleClosing.tail) (lead ++ content) := by
          rw [← articleClosing_eq, hlead]
          exact hcontent
        have hsplit := split_append ne_of_mem_tail_closing hfirst
          (newlines ++ contents.flatMap fun content => content ++ (articleClosing ++ newlines))
        rw [← articleClosing_eq, ih occurs_newlines_append hrest] at hsplit
        rw [List.flatMap_cons, piecesOf, ← hsplit]
        simp only [List.append_assoc]

/-- The text begins with a '<', and not with that of a declaration, which no blank may stand in
front of. -/
def BeginsTag (text : Bytes) : Prop := ∃ second rest, text = 60 :: second :: rest ∧ second ≠ 63

/-- The pieces are read like the contents, and the last one gives nothing. -/
theorem mapM_piecesOf {library : ScriptLibrary}
    (hblank : ∀ text, BeginsTag text → library.parse (newlines ++ text) = library.parse text)
    (hclosing : library.parse articleClosing = some none) {lead : Bytes}
    (hlead : ∀ text, BeginsTag text → library.parse (lead ++ text) = library.parse text)
    {contents : List Bytes}
    (hcontents : ∀ content ∈ contents, BeginsTag (content ++ articleClosing)) :
    (piecesOf lead contents).mapM (fun piece => readOne library (piece ++ articleClosing)) =
      (contents.mapM fun content => readOne library (content ++ articleClosing)).map
        (· ++ [none]) := by
  have hread : ∀ text, BeginsTag text →
      readOne library (lead ++ text) = readOne library text := by
    intro text htext
    rw [readOne, hlead text htext, readOne]
  induction contents generalizing lead with
  | nil =>
      have hsecond : articleClosing = 60 :: 47 :: ascii "article>" := by decide
      have hlast : readOne library articleClosing = some none := by
        rw [readOne, hclosing]
        rfl
      simp only [piecesOf, List.mapM_cons,
        hread _ ⟨47, _, hsecond, by decide⟩, hlast, List.mapM_nil]
      rfl
  | cons content contents ih =>
      obtain ⟨hcontent, hrest⟩ := List.forall_mem_cons.mp hcontents
      have hnext : ∀ text, BeginsTag text →
          readOne library (newlines ++ text) = readOne library text := by
        intro text htext
        rw [readOne, hblank text htext, readOne]
      simp only [piecesOf, List.mapM_cons, List.append_assoc, hread _ hcontent,
        ih hblank hrest hnext]
      cases readOne library (content ++ articleClosing) with
      | none => rfl
      | some result =>
          cases contents.mapM fun content => readOne library (content ++ articleClosing) with
          | none => rfl
          | some results => rfl

section

variable {Date : Type} {strftime : Date → Bytes}

/-- The text of an article as it is read from the file. -/
def textRead (strftime : Date → Bytes) (article : NewspaperArticle Date) : Bytes :=
  universalNewlines false (toXml strftime article)

/-- Another closing tag stands in an article, in front of its own. -/
def HoldsClosing (strftime : Date → Bytes) (article : NewspaperArticle Date) : Prop :=
  ∃ content, textRead strftime article = content ++ articleClosing ∧
    Occurs id articleClosing content

theorem exists_textRead_eq (strftime : Date → Bytes) (article : NewspaperArticle Date) :
    ∃ content, textRead strftime article = content ++ articleClosing := by
  obtain ⟨content, -, htoXml⟩ := exists_toXml_eq strftime article
  have hclosing : ∀ afterReturn,
      universalNewlines afterReturn articleClosing = articleClosing := by decide
  exact ⟨_, (congrArg _ htoXml).trans (universalNewlines_append hclosing content false)⟩

/-- An article begins with a tag. -/
theorem beginsTag_textRead (article : NewspaperArticle Date) :
    BeginsTag (textRead strftime article) := by
  have hopening : startTag (ascii "article") = 60 :: 97 :: ascii "rticle>" := by decide
  rw [textRead, toXml_eq, xmlElement, hopening]
  exact ⟨97, _, rfl, by decide⟩

/-- An article ends with a tag, so it is read apart from the newlines behind it. -/
theorem universalNewlines_toXml_append (article : NewspaperArticle Date) (rest : Bytes) :
    universalNewlines false (toXml strftime article ++ (newlines ++ rest)) =
      textRead strftime article ++ (newlines ++ universalNewlines false rest) := by
  obtain ⟨content, -, htoXml⟩ := exists_toXml_eq strftime article
  have hclosing : ascii "</article>" = ascii "</article" ++ [62] := by decide
  have hlast : toXml strftime article = (content ++ ascii "</article") ++ [62] := by
    rw [htoXml, hclosing, List.append_assoc]
  have hafter : universalNewlines false (10 :: 10 :: rest) =
      10 :: 10 :: universalNewlines false rest := rfl
  rw [textRead, hlast, newlines_eq, List.append_assoc _ [62]]
  show _ = _ ++ (10 :: 10 :: universalNewlines false rest)
  rw [← hafter]
  exact universalNewlines_append_cons _ (by decide) _ false

theorem universalNewlines_downloadArticlesSample (articles : List (NewspaperArticle Date)) :
    universalNewlines false (downloadArticlesSample strftime articles) =
      articles.flatMap fun article => textRead strftime article ++ newlines := by
  rw [downloadArticlesSample, ← List.flatMap_eq_foldl]
  induction articles with
  | nil => rfl
  | cons article articles ih =>
      rw [List.flatMap_cons, List.flatMap_cons, ← ih, List.append_assoc, List.append_assoc]
      exact universalNewlines_toXml_append article _

/-- **The scraped file, read by the scripts.** Its pieces are the scraped articles, each with
the newlines of the one before, and the newlines of the last, exactly if no article holds a
closing tag of its own. Then each article is read like its text alone, and one more text is
counted as invalid. -/
theorem fromXml_downloadArticlesSample {library : ScriptLibrary}
    (hblank : ∀ text, BeginsTag text → library.parse (newlines ++ text) = library.parse text)
    (hclosing : library.parse articleClosing = some none)
    (articles : List (NewspaperArticle Date)) :
    ∃ contents, articles.map (textRead strftime) = contents.map (· ++ articleClosing) ∧
      (split id articleClosing
          (universalNewlines false (downloadArticlesSample strftime articles)) =
            piecesOf [] contents ↔
        ∀ article ∈ articles, ¬ HoldsClosing strftime article) ∧
      ((∀ article ∈ articles, ¬ HoldsClosing strftime article) →
        fromXml library (downloadArticlesSample strftime articles) =
          (articles.mapM fun article => readOne library (textRead strftime article)).map
            fun results => ⟨results.filterMap id, results.countP Option.isNone + 1,
              results.countP Option.isSome⟩) := by
  choose content hcontent using exists_textRead_eq strftime
  have hholds : ∀ article, HoldsClosing strftime article ↔
      Occurs id articleClosing (content article) := by
    intro article
    constructor
    · rintro ⟨other, hother, hoccurs⟩
      rw [hcontent] at hother
      rwa [List.append_cancel_right hother]
    · exact fun hoccurs => ⟨_, hcontent article, hoccurs⟩
  have hfile : universalNewlines false (downloadArticlesSample strftime articles) =
      [] ++ (articles.map content).flatMap fun content =>
        content ++ (articleClosing ++ newlines) := by
    rw [universalNewlines_downloadArticlesSample, List.flatMap_map, List.nil_append]
    simp only [hcontent, List.append_assoc]
  have hpieces := @split_eq_piecesOf_iff [] (fun _ => Iff.rfl) (articles.map content)
  rw [← hfile, List.forall_mem_map] at hpieces
  simp only [← hholds] at hpieces
  refine ⟨articles.map content, ?_, hpieces, fun hclean => ?_⟩
  · rw [List.map_map]
    exact List.map_congr_left fun article _ => hcontent article
  · have hcontents : ∀ text ∈ articles.map content, BeginsTag (text ++ articleClosing) := by
      rw [List.forall_mem_map]
      exact fun article _ => hcontent article ▸ beginsTag_textRead article
    rw [fromXml_eq, hpieces.mpr hclean, mapM_piecesOf hblank hclosing (fun _ _ => rfl) hcontents,
      List.mapM_map]
    simp only [hcontent, Function.comp_def]
    cases articles.mapM fun article => readOne library (content article ++ articleClosing) with
    | none => rfl
    | some results => simp [tally]

end

/-- An article without a date and authors. -/
def shortArticle : NewspaperArticle Unit := ⟨ascii "u", none, ascii "t", [], ascii "x"⟩

/-- Its elements. -/
def shortRoot : Element :=
  .node (ascii "article") none [.node (ascii "url") (some (ascii "u")) [],
    .node (ascii "date") none [], .node (ascii "title") (some (ascii "t")) [],
    .node (ascii "authors") none [], .node (ascii "text") (some (ascii "x")) []]

/-- A library that knows this article. -/
def shortLibrary : ScriptLibrary where
  parse text :=
    if text.dropWhile (· = 10) = toXml (fun _ => []) shortArticle then some (some shortRoot)
    else some none
  prepareUrl url := some url

/-- The reading of this article, twice. -/
theorem fromXml_downloadArticlesSample_short :
    ∃ contents, [shortArticle, shortArticle].map (textRead fun _ => []) =
        contents.map (· ++ articleClosing) ∧
      (split id articleClosing (universalNewlines false (downloadArticlesSample (fun _ => [])
          [shortArticle, shortArticle])) = piecesOf [] contents ↔
        ∀ article ∈ [shortArticle, shortArticle], ¬ HoldsClosing (fun _ => []) article) ∧
      ((∀ article ∈ [shortArticle, shortArticle], ¬ HoldsClosing (fun _ => []) article) →
        fromXml shortLibrary (downloadArticlesSample (fun _ => [])
          [shortArticle, shortArticle]) =
          ([shortArticle, shortArticle].mapM fun article =>
            readOne shortLibrary (textRead (fun _ => []) article)).map
            fun results => ⟨results.filterMap id, results.countP Option.isNone + 1,
              results.countP Option.isSome⟩) := by
  have hblank : ∀ text, BeginsTag text →
      shortLibrary.parse (newlines ++ text) = shortLibrary.parse text := by
    intro text _
    have hdrop : (newlines ++ text).dropWhile (· = 10) = text.dropWhile (· = 10) := by
      rw [newlines_eq]
      rfl
    simp only [shortLibrary, hdrop]
  have hclosing : shortLibrary.parse articleClosing = some none := by
    have hother : articleClosing.dropWhile (· = 10) ≠ toXml (fun _ => []) shortArticle := by
      decide
    simp only [shortLibrary, if_neg hother]
  exact fromXml_downloadArticlesSample hblank hclosing [shortArticle, shortArticle]

example : (fromXml shortLibrary (downloadArticlesSample (fun _ => [])
    [shortArticle, shortArticle])).map (fun loop => (loop.count, loop.invalidCount)) =
      some (2, 1) := by decide

end Unbiased
