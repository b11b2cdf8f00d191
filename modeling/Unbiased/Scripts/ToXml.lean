/-
# From the scraper to the engine

`toXml` writes an article by putting its fields between tags as they are, and the
engine reads it with its XML library. Nothing is escaped, so an article comes
through exactly if the reader has no reason to take any of its characters for
anything but itself. A '<' of a field never comes through: to get into the data it needs a
reference, a comment or a CDATA section, whose '&' or '!' would be missing elsewhere.
-/

import Unbiased.Scripts.PlainReader

namespace Unbiased

open Unbiased.Math

/-- An article as the scraper has it. -/
structure NewspaperArticle (Date : Type) where
  url : Bytes
  publishDate : Option Date
  title : Bytes
  authors : List Bytes
  text : Bytes

namespace NewspaperArticle

variable {Date : Type}

/-- The formatted date; empty if there is none. -/
def date (strftime : Date → Bytes) (article : NewspaperArticle Date) : Bytes :=
  match article.publishDate with
  | some publishDate => strftime publishDate
  | none => []

/-- What is written between tags, in order. -/
def fields (strftime : Date → Bytes) (article : NewspaperArticle Date) : List Bytes :=
  [article.url, article.date strftime, article.title] ++ article.authors ++ [article.text]

end NewspaperArticle

/-- Write an article. -/
def toXml {Date : Type} (strftime : Date → Bytes) (article : NewspaperArticle Date) : Bytes :=
  let result := ascii "<article>"
  let result := result ++ (ascii "<url>" ++ article.url ++ ascii "</url>")
  let result := result ++ (ascii "<date>" ++ article.date strftime ++ ascii "</date>")
  let result := result ++ (ascii "<title>" ++ article.title ++ ascii "</title>")
  let result := result ++ ascii "<authors>"
  let result := article.authors.foldl (fun result author =>
    result ++ (ascii "<author>" ++ author ++ ascii "</author>")) result
  let result := result ++ ascii "</authors>"
  let result := result ++ (ascii "<text>" ++ article.text ++ ascii "</text>")
  result ++ ascii "</article>"

/-- The article that is written is read again. -/
def XmlRoundTrip {Date : Type} (reader : XmlReader) (strftime : Date → Bytes)
    (article : NewspaperArticle Date) : Prop :=
  ∃ parsed, parseFromXml reader.read (toXml strftime article) = some parsed ∧
    parsed.metaData.url = article.url ∧ parsed.metaData.date = article.date strftime ∧
    parsed.metaData.title = article.title ∧ parsed.metaData.authors = article.authors ∧
    parsed.text = article.text

/-- No character of the field means anything but itself: no markup starts in it,
and there is no reference in it. -/
def MeansItself (field : Bytes) : Prop :=
  60 ∉ field ∧ ∀ rest, rest <:+ field → reference? rest = none

instance (field : Bytes) : Decidable (MeansItself field) :=
  decidable_of_iff (60 ∉ field ∧ ∀ rest ∈ field.tails, reference? rest = none)
    (by simp only [MeansItself, List.mem_tails])

/-! ## What is written -/

/-- A field between the tags of a name. -/
def xmlElement (name : String) (content : Bytes) : Bytes :=
  startTag (ascii name) ++ (content ++ endTag (ascii name))

/-- The authors between their tags. -/
def authorElements (authors : List Bytes) : Bytes := authors.flatMap (xmlElement "author")

section

variable {Date : Type} (strftime : Date → Bytes) (article : NewspaperArticle Date)

theorem foldl_authors (authors : List Bytes) (result : Bytes) :
    authors.foldl (fun result author =>
      result ++ (ascii "<author>" ++ author ++ ascii "</author>")) result =
        result ++ authorElements authors := by
  induction authors generalizing result with
  | nil => simp [authorElements]
  | cons author authors ih =>
      have helement : ascii "<author>" ++ author ++ ascii "</author>" =
          xmlElement "author" author :=
        List.append_assoc _ _ _
      rw [List.foldl_cons, ih, helement, authorElements, authorElements, List.flatMap_cons,
        List.append_assoc]

/-- The document is one element. -/
theorem toXml_eq : toXml strftime article = xmlElement "article"
    (xmlElement "url" article.url ++ xmlElement "date" (article.date strftime) ++
      xmlElement "title" article.title ++ xmlElement "authors" (authorElements article.authors) ++
      xmlElement "text" article.text) := by
  rw [toXml, foldl_authors]
  simp only [xmlElement, List.append_assoc]
  rfl

end

/-- The names of the elements. -/
def elementNames : List String := ["article", "url", "date", "title", "authors", "author", "text"]

theorem plainName_of_mem (name : String) (h : name ∈ elementNames) : PlainName (ascii name) := by
  have hall : ∀ name ∈ elementNames, PlainName (ascii name) := by
    decide +kernel
  exact hall name h

theorem nameOf_ascii_of_mem {name : String} (h : name ∈ elementNames) :
    nameOf (ascii name) = name := by
  have hall : ∀ name ∈ elementNames, nameOf (ascii name) = name := by
    decide +kernel
  exact hall name h

/-! ## What is read if nothing is markup -/

/-- A field is read as a node with its text decoded. -/
def fieldNode (field : Bytes) : Ptree := .node (decode field) []

/-- A field of legal characters that is text to the reader. -/
structure IsText (reader : XmlReader) (field : Bytes) : Prop where
  legal : XmlLegal field
  markup : 60 ∉ field
  decodes : reader.Decodes field

section

variable {Date : Type} {reader : XmlReader} {strftime : Date → Bytes}
  {article : NewspaperArticle Date}

/-- Another field behind some content. -/
theorem Content.field {before data : Bytes} {children : List (String × Ptree)}
    (hbefore : Content reader.readText before data children) (name : String)
    (hname : name ∈ elementNames) {field : Bytes} (hfield : IsText reader field) :
    Content reader.readText (before ++ xmlElement name field) data
      (children ++ [(name, fieldNode field)]) := by
  have helement := hbefore.element (ascii name) (plainName_of_mem name hname)
    (Content.text hfield.legal hfield.markup hfield.decodes)
  rwa [nameOf_ascii_of_mem hname] at helement

theorem Content.nil : Content reader.readText [] [] [] :=
  Content.text (fun _ hbyte => absurd hbyte List.not_mem_nil) List.not_mem_nil reader.readText_nil

theorem content_authorElements (authors : List Bytes)
    (h : ∀ author ∈ authors, IsText reader author) :
    Content reader.readText (authorElements authors) []
      (authors.map fun author => ("author", fieldNode author)) := by
  induction authors using List.reverseRecOn with
  | nil => exact Content.nil
  | append_singleton authors author ih =>
      have hbefore := ih fun other hother => h other (List.mem_append_left _ hother)
      have hauthor := h author (List.mem_append_right _ List.mem_cons_self)
      have hfield := hbefore.field "author" (by decide) hauthor
      simpa [authorElements] using hfield

/-- What the reader makes of the article. -/
def articleTree (strftime : Date → Bytes) (article : NewspaperArticle Date) : Ptree :=
  .node [] [("article", .node [] [("url", fieldNode article.url),
    ("date", fieldNode (article.date strftime)), ("title", fieldNode article.title),
    ("authors", .node [] (article.authors.map fun author => ("author", fieldNode author))),
    ("text", fieldNode article.text)])]

theorem read_toXml (h : ∀ field ∈ article.fields strftime, IsText reader field) :
    reader.read (toXml strftime article) = some (articleTree strftime article) := by
  have hurl := h article.url (by simp [NewspaperArticle.fields])
  have hdate := h (article.date strftime) (by simp [NewspaperArticle.fields])
  have htitle := h article.title (by simp [NewspaperArticle.fields])
  have htext := h article.text (by simp [NewspaperArticle.fields])
  have hauthors := content_authorElements article.authors fun author hauthor =>
    h author (by simp [NewspaperArticle.fields, hauthor])
  have hbefore := ((Content.nil.field "url" (by decide) hurl).field "date" (by decide) hdate).field
    "title" (by decide) htitle
  have hinside := (hbefore.element (ascii "authors") (plainName_of_mem "authors" (by decide))
    hauthors).field "text" (by decide) htext
  rw [toXml_eq]
  exact reader.read_element (plainName_of_mem "article" (by decide)) hinside

/-- Fields that are text come back decoded. -/
theorem parseFromXml_toXml (h : ∀ field ∈ article.fields strftime, IsText reader field) :
    parseFromXml reader.read (toXml strftime article) = some {
      text := decode article.text
      tokens := []
      metaData := { ArticleMetaData.fresh with
        url := decode article.url
        title := decode article.title
        date := decode (article.date strftime)
        authors := article.authors.map decode } } := by
  have hurl : (articleTree strftime article).getChild? ["article", "url"] =
      some (fieldNode article.url) := rfl
  have htitle : (articleTree strftime article).getChild? ["article", "title"] =
      some (fieldNode article.title) := rfl
  have hdate : (articleTree strftime article).getChild? ["article", "date"] =
      some (fieldNode (article.date strftime)) := rfl
  have hauthors : (articleTree strftime article).getChild? ["article", "authors"] = some
      (.node [] (article.authors.map fun author => ("author", fieldNode author))) := rfl
  have htext : (articleTree strftime article).getChild? ["article", "text"] =
      some (fieldNode article.text) := rfl
  have hdata : (article.authors.map fun author => ("author", fieldNode author)).map
      (fun author => author.2.data) = article.authors.map decode := List.map_map
  simp only [parseFromXml, read_toXml h, hurl, htitle, hdate, hauthors, htext,
    Option.bind_eq_bind, Option.bind_some, Ptree.children, hdata]
  rfl

/-! ## What the reader can make of it otherwise -/

theorem countP_escapes_xmlElement {name : String} (hname : name ∈ elementNames)
    (content : Bytes) :
    (xmlElement name content).countP escapes = content.countP escapes := by
  have hnone : ∀ name ∈ elementNames, (startTag (ascii name)).countP escapes = 0 ∧
      (endTag (ascii name)).countP escapes = 0 := by
    decide +kernel
  rw [xmlElement, List.countP_append, List.countP_append, (hnone name hname).1,
    (hnone name hname).2, Nat.zero_add, Nat.add_zero]

theorem countP_escapes_authorElements (authors : List Bytes) :
    (authorElements authors).countP escapes = (authors.map (List.countP escapes)).sum := by
  induction authors with
  | nil => rfl
  | cons author authors ih =>
      rw [authorElements, List.flatMap_cons, List.countP_append, ← authorElements, ih,
        countP_escapes_xmlElement (by decide), List.map_cons, List.sum_cons]

/-- The writer's tags hold none of these characters. -/
theorem countP_escapes_toXml : (toXml strftime article).countP escapes =
    ((article.fields strftime).map (List.countP escapes)).sum := by
  rw [toXml_eq, countP_escapes_xmlElement (by decide)]
  simp only [List.countP_append]
  rw [countP_escapes_xmlElement (by decide), countP_escapes_xmlElement (by decide),
    countP_escapes_xmlElement (by decide), countP_escapes_xmlElement (by decide),
    countP_escapes_xmlElement (by decide), countP_escapes_authorElements]
  simp [NewspaperArticle.fields, Nat.add_assoc]

/-- A child that is found by its name, and the other children. -/
theorem Ptree.totalOf_of_lookup (measure : Bytes → ℕ) {children : List (String × Ptree)}
    {name : String} (hname : name ≠ "<xmlattr>") {child : Ptree}
    (h : children.lookup name = some child) :
    ∃ others, totalOf measure children = child.total measure + totalOf measure others ∧
      ∀ other, other ≠ name → others.lookup other = children.lookup other := by
  induction children with
  | nil => cases h
  | cons entry children ih =>
      rw [List.lookup_cons] at h
      split at h
      · rename_i hsame
        cases h
        have hentry : entry.1 = name := (eq_of_beq hsame).symm
        refine ⟨children, ?_, fun other hother => ?_⟩
        · rw [totalOf, if_neg (hentry ▸ hname)]
        · have hne : (other == entry.1) = false := by
            rw [hentry]
            exact beq_false_of_ne hother
          rw [List.lookup_cons, hne]
      · obtain ⟨others, htotal, hothers⟩ := ih h
        refine ⟨entry :: others, ?_, fun other hother => ?_⟩
        · rw [totalOf, totalOf, htotal]
          omega
        · rw [List.lookup_cons, List.lookup_cons, hothers other hother]

/-- Children that are found by distinct names are part of the total. -/
theorem Ptree.sum_total_le_of_lookup (measure : Bytes → ℕ) {children : List (String × Ptree)}
    {names : List String} {found : List Ptree}
    (h : List.Forall₂ (fun name child => children.lookup name = some child) names found)
    (hnodup : names.Nodup) (hnames : "<xmlattr>" ∉ names) :
    (found.map (total measure)).sum ≤ totalOf measure children := by
  induction names generalizing children found with
  | nil =>
      cases h
      exact Nat.zero_le _
  | cons name names ih =>
      cases h with
      | @cons _ child _ found hchild hrest =>
          obtain ⟨hother, hnodup⟩ := List.nodup_cons.mp hnodup
          obtain ⟨hname, hnames⟩ := not_or.mp (mt List.mem_cons.mpr hnames)
          obtain ⟨others, htotal, hkeep⟩ := totalOf_of_lookup measure (Ne.symm hname) hchild
          -- the other names are found among the others
          have hfound : List.Forall₂ (fun name child => others.lookup name = some child)
              names found := by
            rw [List.forall₂_iff_get] at hrest ⊢
            refine ⟨hrest.1, fun idx hidx hidx' => ?_⟩
            rw [hkeep _ fun heq => hother (heq ▸ List.get_mem _ _)]
            exact hrest.2 idx hidx hidx'
          rw [List.map_cons, List.sum_cons, htotal]
          exact Nat.add_le_add_left (ih hfound hnodup hnames) _

theorem Ptree.total_eq (measure : Bytes → ℕ) (tree : Ptree) :
    tree.total measure = measure tree.data + totalOf measure tree.children := by
  cases tree with
  | node data children => rfl

/-- The data of children are part of their total. -/
theorem Ptree.sum_data_le (measure : Bytes → ℕ) (children : List (String × Ptree)) :
    (children.map fun child => measure child.2.data).sum ≤ totalOf measure children := by
  induction children with
  | nil => exact le_rfl
  | cons child children ih =>
      rw [List.map_cons, List.sum_cons, totalOf, total_eq]
      split
      · exact Nat.add_le_add_left ih _
      · exact Nat.add_le_add (Nat.le_add_right _ _) ih

theorem Ptree.getChild?_pair (tree : Ptree) (first second : String) :
    tree.getChild? [first, second] =
      (tree.children.lookup first).bind fun child => child.children.lookup second := by
  cases tree with
  | node data children =>
      rw [getChild?]
      cases hfirst : children.lookup first with
      | none => simp [Ptree.children, hfirst]
      | some child =>
          cases child with
          | node data' grandchildren =>
              cases hsecond : grandchildren.lookup second with
              | none => simp [Ptree.children, hfirst, getChild?, hsecond]
              | some grandchild => simp [Ptree.children, hfirst, getChild?, hsecond]

/-- What the engine reads is part of the tree, each field in a node of its own. -/
theorem parsed_le_total (measure : Bytes → ℕ) {tree : Ptree} {parsed : Article}
    {articleXml : Bytes} (hread : reader.read articleXml = some tree)
    (hparse : parseFromXml reader.read articleXml = some parsed) :
    measure parsed.metaData.url + measure parsed.metaData.title + measure parsed.metaData.date +
      (parsed.metaData.authors.map measure).sum + measure parsed.text ≤ tree.total measure := by
  simp only [parseFromXml, hread, Option.bind_eq_bind, Option.bind_some] at hparse
  obtain ⟨url, hurl, hparse⟩ := Option.bind_eq_some_iff.mp hparse
  obtain ⟨title, htitle, hparse⟩ := Option.bind_eq_some_iff.mp hparse
  obtain ⟨date, hdate, hparse⟩ := Option.bind_eq_some_iff.mp hparse
  obtain ⟨authorsNode, hauthors, hparse⟩ := Option.bind_eq_some_iff.mp hparse
  obtain ⟨articleText, htext, hparse⟩ := Option.bind_eq_some_iff.mp hparse
  cases hparse
  rw [Ptree.getChild?_pair] at hurl htitle hdate hauthors htext
  obtain ⟨root, hroot, hurl⟩ := Option.bind_eq_some_iff.mp hurl
  rw [hroot, Option.bind_some] at htitle hdate hauthors htext
  have hfields := Ptree.sum_total_le_of_lookup measure
    (.cons hurl (.cons htitle (.cons hdate (.cons hauthors (.cons htext .nil)))))
    (by decide) (by decide)
  simp only [List.map_cons, List.map_nil, List.sum_cons, List.sum_nil] at hfields
  obtain ⟨others, hothers, -⟩ := Ptree.totalOf_of_lookup measure (by decide) hroot
  have hsum := Ptree.sum_data_le measure authorsNode.children
  have hurlTotal := Ptree.total_eq measure url
  have htitleTotal := Ptree.total_eq measure title
  have hdateTotal := Ptree.total_eq measure date
  have hauthorsTotal := Ptree.total_eq measure authorsNode
  have htextTotal := Ptree.total_eq measure articleText
  have hchildren := Ptree.total_eq measure root
  have htree := Ptree.total_eq measure tree
  rw [List.map_map]
  simp only [Function.comp_def]
  omega

/-- The fields of an article that comes through are part of the tree. -/
theorem fields_le_total (measure : Bytes → ℕ) {tree : Ptree}
    (h : XmlRoundTrip reader strftime article)
    (hread : reader.read (toXml strftime article) = some tree) :
    ((article.fields strftime).map measure).sum ≤ tree.total measure := by
  obtain ⟨parsed, hparse, hurl, hdate, htitle, hauthors, htext⟩ := h
  have hparsed := parsed_le_total measure hread hparse
  rw [hurl, hdate, htitle, hauthors, htext] at hparsed
  simp only [NewspaperArticle.fields, List.map_append, List.map_cons, List.map_nil,
    List.sum_append, List.sum_cons, List.sum_nil]
  omega

/-- Where markup starts in a field, the article does not come through: the '<' would come
out of something that costs a character. -/
theorem notMem_of_xmlRoundTrip (h : XmlRoundTrip reader strftime article) :
    ∀ field ∈ article.fields strftime, 60 ∉ field := by
  intro field hfield hmem
  obtain ⟨parsed, hparse, -⟩ := id h
  obtain ⟨tree, hread, -⟩ := Option.bind_eq_some_iff.mp hparse
  have hbracket : 0 < tree.total (List.count 60) := by
    have hone : field.count 60 ≤ ((article.fields strftime).map (List.count 60)).sum :=
      List.single_le_sum (by simp) _ (List.mem_map_of_mem hfield)
    have htotal := fields_le_total (List.count 60) h hread
    have hpos := List.count_pos_iff.mpr hmem
    omega
  have hlost := reader.escapes_lt hread hbracket
  rw [countP_escapes_toXml] at hlost
  exact absurd (fields_le_total (List.countP escapes) h hread) (not_le.mpr hlost)

theorem meansItself_iff {field : Bytes} :
    MeansItself field ↔ 60 ∉ field ∧ decode field = field := by
  rw [MeansItself, decode, replaceAll_eq_self_iff reference?_shrinks]

theorem map_eq_self_iff {authors : List Bytes} :
    authors.map decode = authors ↔ ∀ author ∈ authors, decode author = author := by
  have hmap := List.map_inj_left (f := decode) (g := id) (l := authors)
  rwa [List.map_id] at hmap

/-- An article of text comes through if decoding changes nothing. -/
theorem xmlRoundTrip_iff_decode
    (h : ∀ field ∈ article.fields strftime, IsText reader field) :
    XmlRoundTrip reader strftime article ↔
      ∀ field ∈ article.fields strftime, decode field = field := by
  have hparse := parseFromXml_toXml h
  have hround : XmlRoundTrip reader strftime article ↔
      decode article.url = article.url ∧ decode (article.date strftime) = article.date strftime ∧
        decode article.title = article.title ∧ article.authors.map decode = article.authors ∧
        decode article.text = article.text := by
    simp only [XmlRoundTrip, hparse, Option.some.injEq, exists_eq_left']
  rw [hround, map_eq_self_iff]
  simp only [NewspaperArticle.fields, List.mem_append, List.mem_cons, List.not_mem_nil, or_false,
    or_imp, forall_and, forall_eq]
  tauto

end

/-- **What comes through.** An article of legal characters is read as it was written
exactly if every character of its fields means itself. Of the reader it is assumed that it
decodes those fields in which no markup starts, and returns them as they stand otherwise. -/
theorem xmlRoundTrip_iff {Date : Type} (reader : XmlReader) (strftime : Date → Bytes)
    (article : NewspaperArticle Date) (hlegal : ∀ field ∈ article.fields strftime, XmlLegal field)
    (hdecodes : ∀ field ∈ article.fields strftime, 60 ∉ field → reader.Decodes field) :
    XmlRoundTrip reader strftime article ↔
      ∀ field ∈ article.fields strftime, MeansItself field := by
  constructor
  · intro h field hfield
    have hmarkup := notMem_of_xmlRoundTrip h
    have htext : ∀ other ∈ article.fields strftime, IsText reader other := fun other hother =>
      ⟨hlegal other hother, hmarkup other hother, hdecodes other hother (hmarkup other hother)⟩
    have hdecode := (xmlRoundTrip_iff_decode htext).mp h
    exact meansItself_iff.mpr ⟨hmarkup field hfield, hdecode field hfield⟩
  · intro h
    have hplain := fun field hfield => meansItself_iff.mp (h field hfield)
    have htext : ∀ field ∈ article.fields strftime, IsText reader field := fun field hfield =>
      ⟨hlegal field hfield, (hplain field hfield).1,
        hdecodes field hfield (hplain field hfield).1⟩
    exact (xmlRoundTrip_iff_decode htext).mpr fun field hfield => (hplain field hfield).2

/-! ## Two articles -/

/-- An article with a date, two authors, a lone ampersand and a closing bracket. -/
def plainArticle : NewspaperArticle Unit where
  url := ascii "http://a.example/?b=1&c=2"
  publishDate := some ()
  title := ascii "R&D > 1%"
  authors := [ascii "A. Author", ascii "B. Writer"]
  text := ascii "Costs rise; \"so what?\""

/-- It comes through. -/
theorem xmlRoundTrip_plainArticle :
    XmlRoundTrip plainReader (fun _ => ascii "2019-05-02 10:30:00") plainArticle :=
  (xmlRoundTrip_iff plainReader _ plainArticle (by decide +kernel) fun _ _ _ => rfl).mpr
    (by decide +kernel)

/-- The same article with a title that says what is less. -/
def lessArticle : NewspaperArticle Unit := { plainArticle with title := ascii "R<D" }

/-- It does not come through. -/
theorem opening_bracket_lost :
    ¬ ∀ (Date : Type) (reader : XmlReader) (strftime : Date → Bytes)
      (article : NewspaperArticle Date),
      (∀ field ∈ article.fields strftime, XmlLegal field) →
      (∀ field, XmlLegal field → 60 ∉ field → reader.Decodes field) →
      (∃ byte ∈ article.text, byte ≠ 32 ∧ byte ≠ 9 ∧ byte ≠ 10 ∧ byte ≠ 13) →
      XmlRoundTrip reader strftime article := by
  intro hall
  have hround := hall Unit plainReader (fun _ => []) lessArticle (by decide +kernel)
    (fun _ _ _ => rfl) ⟨67, List.mem_cons_self, by decide⟩
  exact notMem_of_xmlRoundTrip hround (ascii "R<D") (by simp [NewspaperArticle.fields, lessArticle])
    (by decide)

end Unbiased
