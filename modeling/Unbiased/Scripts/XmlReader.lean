/-
# The XML reader

What the engine relies on in its XML library. In content a '<' starts markup, and text without
one is read by itself, whatever stands around it. Of documents that are not made of elements
and text, `XmlReader` only says how a '<' can come into the data of an element: out of a
reference, or out of a comment or a CDATA section. Either costs a character, '&' or '!', that
no data come from. What the values of attributes hold does not matter here.
-/

import Unbiased.Clustering.ArticleParser
import Unbiased.Math.Markup

namespace Unbiased

open Unbiased.Math

/-! ## References -/

/-- The bytes of a text in ASCII. -/
def ascii (text : String) : Bytes := text.toList.map fun char => Fin.ofNat 256 char.toNat

/-- A name read back from its bytes. -/
def nameOf (name : Bytes) : String := String.ofList (name.map fun byte => Char.ofNat byte.val)

/-- The predefined entities, with what they stand for. -/
def predefinedEntities : List (Bytes × Bytes) := [
  (ascii "&lt;", ascii "<"),
  (ascii "&gt;", ascii ">"),
  (ascii "&amp;", ascii "&"),
  (ascii "&quot;", ascii "\""),
  (ascii "&apos;", ascii "'")]

/-- The value of a digit. -/
def digitValue? (base : ℕ) (byte : Fin 256) : Option ℕ :=
  let value :=
    if 48 ≤ byte ∧ byte ≤ 57 then byte.val - 48
    else if 65 ≤ byte ∧ byte ≤ 70 then byte.val - 55
    else if 97 ≤ byte ∧ byte ≤ 102 then byte.val - 87
    else base
  if value < base then some value else none

/-- The character at a code point, in UTF-8. -/
def encodeChar? (code : ℕ) : Option Bytes :=
  if code.isValidChar then
    some ((String.utf8EncodeChar (Char.ofNat code)).map fun byte => Fin.ofNat 256 byte.toNat)
  else none

/-- A numeric reference whose digits begin behind a prefix of some length. -/
def numericReference? (base skip : ℕ) (rest : Bytes) : Option (Bytes × ℕ) :=
  let digits := rest.takeWhile fun byte => (digitValue? base byte).isSome
  if digits ≠ [] ∧ rest[digits.length]? = some 59 then
    let code := (digits.filterMap (digitValue? base)).foldl (fun sofar digit =>
      base * sofar + digit) 0
    (encodeChar? code).map fun out => (out, skip + digits.length + 1)
  else none

/-- The reference at the front of a text, with what it stands for and its length. -/
def reference? (text : Bytes) : Option (Bytes × ℕ) :=
  match predefinedEntities.find? fun entity => entity.1.isPrefixOf text with
  | some entity => some (entity.2, entity.1.length)
  | none =>
    if (ascii "&#x").isPrefixOf text then numericReference? 16 3 (text.drop 3)
    else if (ascii "&#").isPrefixOf text then numericReference? 10 2 (text.drop 2)
    else none

/-- Content with its references decoded. -/
def decode (content : Bytes) : Bytes := replaceAll reference? content

theorem length_encodeChar?_le {code : ℕ} {out : Bytes} (h : encodeChar? code = some out) :
    out.length ≤ 4 := by
  unfold encodeChar? at h
  split at h
  · cases h
    rw [List.length_map, String.length_utf8EncodeChar]
    exact Char.utf8Size_le_four _
  · cases h

theorem digitValue?_lt {base : ℕ} {byte : Fin 256} {value : ℕ}
    (h : digitValue? base byte = some value) : value < base := by
  simp only [digitValue?, Option.ite_none_right_eq_some, Option.some.injEq] at h
  rw [← h.2]
  exact h.1

/-- The characters below ten take one byte. -/
theorem length_encodeChar?_of_digit {code : ℕ} (hcode : code < 10) {out : Bytes}
    (h : encodeChar? code = some out) : out.length = 1 := by
  have hsize : ∀ digit : Fin 10, (encodeChar? digit.val).map List.length = some 1 := by
    decide +kernel
  have hthis := hsize ⟨code, hcode⟩
  rw [h] at hthis
  exact Option.some.inj hthis

/-- A numeric reference is longer than the character it stands for. -/
theorem numericReference?_shrinks {base skip : ℕ}
    (hbase : base = 10 ∧ skip = 2 ∨ base = 16 ∧ skip = 3) {rest out : Bytes} {length : ℕ}
    (h : numericReference? base skip rest = some (out, length)) :
    out.length < length ∧ length ≤ skip + rest.length := by
  simp only [numericReference?] at h
  generalize hdigits : rest.takeWhile (fun byte => (digitValue? base byte).isSome) = digits at h
  have hvalue : ∀ byte ∈ digits, ∃ value, digitValue? base byte = some value := by
    intro byte hbyte
    rw [← hdigits] at hbyte
    have hsome := List.mem_takeWhile_imp (p := fun byte => (digitValue? base byte).isSome) hbyte
    exact Option.isSome_iff_exists.mp hsome
  split at h
  · rename_i hends
    have ⟨code, hcode, heq⟩ := Option.map_eq_some_iff.mp h
    have ⟨hout, hlength⟩ := Prod.mk.inj heq
    have hinside := (List.getElem?_eq_some_iff.mp hends.2).1
    have hfour := length_encodeChar?_le hcode
    have hdigit := List.length_pos_of_ne_nil hends.1
    rw [← hout, ← hlength]
    refine ⟨?_, by omega⟩
    by_cases hlong : 4 < skip + digits.length + 1
    · omega
    · -- one decimal digit
      have hone : base = 10 ∧ digits.length = 1 := by omega
      have ⟨digit, hsingle⟩ := List.length_eq_one_iff.mp hone.2
      have ⟨value, hdigitValue⟩ := hvalue digit (by rw [hsingle]; exact List.mem_cons_self)
      have hlt := digitValue?_lt hdigitValue
      rw [hsingle, List.filterMap_cons_some hdigitValue, List.filterMap_nil, List.foldl_cons,
        List.foldl_nil, Nat.mul_zero, Nat.zero_add] at hcode
      rw [length_encodeChar?_of_digit (hone.1 ▸ hlt) hcode]
      omega
  · cases h

theorem reference?_shrinks : Shrinks reference? := by
  intro text out length h
  unfold reference? at h
  split at h
  · rename_i entity hentity
    cases h
    have hfound := List.find?_some
      (p := fun entity : Bytes × Bytes => entity.1.isPrefixOf text) hentity
    have hprefix := List.isPrefixOf_iff_prefix.mp hfound
    have hshorter : ∀ entity ∈ predefinedEntities, entity.2.length < entity.1.length := by
      decide
    exact ⟨hshorter entity (List.mem_of_find?_eq_some hentity), hprefix.length_le⟩
  · split at h
    · rename_i hprefix
      have hle := (List.isPrefixOf_iff_prefix.mp hprefix).length_le
      have hnumeric := numericReference?_shrinks (Or.inr ⟨rfl, rfl⟩) h
      have hthree : (ascii "&#x").length = 3 := rfl
      rw [List.length_drop] at hnumeric
      omega
    · split at h
      · rename_i hprefix
        have hle := (List.isPrefixOf_iff_prefix.mp hprefix).length_le
        have hnumeric := numericReference?_shrinks (Or.inl ⟨rfl, rfl⟩) h
        have htwo : (ascii "&#").length = 2 := rfl
        rw [List.length_drop] at hnumeric
        omega
      · cases h

/-- The characters without which no '<' comes into data: a reference begins with an '&', and a
comment or a CDATA section has a '!' behind its '<'. -/
def escapes (byte : Fin 256) : Bool := byte = 38 || byte = 33

/-- A character is one byte, or has none in ASCII. -/
theorem encodeChar?_ascii {code : ℕ} {out : Bytes} (h : encodeChar? code = some out) :
    (∃ byte, out = [byte]) ∨ ∀ byte ∈ out, 128 ≤ byte.val := by
  unfold encodeChar? at h
  split at h
  · cases h
    fun_cases String.utf8EncodeChar with
    | case1 => exact Or.inl ⟨_, rfl⟩
    | case2 | case3 | case4 =>
        right
        simp only [List.map_cons, List.map_nil, List.forall_mem_cons, List.not_mem_nil,
          IsEmpty.forall_iff, implies_true, and_true, UInt8.toNat_ofNat', Fin.val_ofNat]
        omega
  · cases h

/-- A character costs an '&', and a '<' holds none itself. -/
theorem countP_escapes_encodeChar? {code : ℕ} {out : Bytes} (h : encodeChar? code = some out) :
    out.countP escapes ≤ 1 ∧ (60 ∈ out → out.countP escapes < 1) := by
  rcases encodeChar?_ascii h with ⟨byte, rfl⟩ | hlarge
  · refine ⟨List.countP_le_length, fun hmem => ?_⟩
    obtain rfl := List.mem_singleton.mp hmem
    decide
  · have hnone : out.countP escapes = 0 := by
      rw [List.countP_eq_zero]
      intro byte hbyte hescapes
      have hbound := hlarge byte hbyte
      simp only [escapes, Bool.or_eq_true, decide_eq_true_eq] at hescapes
      rcases hescapes with rfl | rfl
      · exact absurd hbound (by decide)
      · exact absurd hbound (by decide)
    rw [hnone]
    exact ⟨Nat.zero_le _, fun _ => Nat.one_pos⟩

theorem numericReference?_costs {base skip : ℕ} {rest out : Bytes} {length : ℕ}
    (h : numericReference? base skip rest = some (out, length)) :
    0 < length ∧ out.countP escapes ≤ 1 ∧ (60 ∈ out → out.countP escapes < 1) := by
  simp only [numericReference?] at h
  split at h
  · obtain ⟨code, hcode, heq⟩ := Option.map_eq_some_iff.mp h
    obtain ⟨rfl, rfl⟩ := Prod.mk.inj heq
    exact ⟨Nat.succ_pos _, countP_escapes_encodeChar? hcode⟩
  · cases h

/-- What begins with an '&' holds one in every prefix that is not empty. -/
theorem one_le_countP_take {front text : Bytes} (hfront : front.head? = some 38)
    (hbegins : front <+: text) {length : ℕ} (hlength : 0 < length) :
    1 ≤ (text.take length).countP escapes := by
  obtain ⟨rest, rfl⟩ := hbegins
  obtain ⟨before, rfl⟩ := Nat.exists_eq_add_one.mpr hlength
  obtain ⟨front, rfl⟩ := List.head?_eq_some_iff.mp hfront
  rw [List.cons_append, List.take_succ_cons, List.countP_cons_of_pos (by decide)]
  exact Nat.succ_pos _

/-- A reference costs an '&'. -/
theorem reference?_costs : Costs escapes 60 reference? := by
  intro text out length h
  unfold reference? at h
  split at h
  · rename_i entity hentity
    cases h
    have hprefix := List.isPrefixOf_iff_prefix.mp (List.find?_some
      (p := fun entity : Bytes × Bytes => entity.1.isPrefixOf text) hentity)
    have hentities : ∀ entity ∈ predefinedEntities, entity.2.countP escapes ≤
        entity.1.countP escapes ∧
          (60 ∈ entity.2 → entity.2.countP escapes < entity.1.countP escapes) := by
      decide
    rw [← List.prefix_iff_eq_take.mp hprefix]
    exact hentities entity (List.mem_of_find?_eq_some hentity)
  · have hnumeric : ∀ {base skip : ℕ} {front rest : Bytes}, front.head? = some 38 →
        front.isPrefixOf text → numericReference? base skip rest = some (out, length) →
        out.countP escapes ≤ (text.take length).countP escapes ∧
          (60 ∈ out → out.countP escapes < (text.take length).countP escapes) := by
      intro base skip front rest hfront hprefix hfound
      obtain ⟨hlength, hle, hlt⟩ := numericReference?_costs hfound
      have hone := one_le_countP_take hfront (List.isPrefixOf_iff_prefix.mp hprefix) hlength
      exact ⟨hle.trans hone, fun hmem => (hlt hmem).trans_le hone⟩
    split at h
    · rename_i hprefix
      exact hnumeric rfl hprefix h
    · split at h
      · rename_i hprefix
        exact hnumeric rfl hprefix h
      · cases h

example : decode (ascii "&#65;&#x42;&amp;lt;&lt;&") = ascii "AB&lt;<&" := by decide +kernel

/-! ## Documents of elements and text -/

/-- The bytes of legal characters. -/
def XmlLegal (content : Bytes) : Prop :=
  ∀ byte ∈ content, 32 ≤ byte ∨ byte = 9 ∨ byte = 10 ∨ byte = 13

instance (content : Bytes) : Decidable (XmlLegal content) := List.decidableBAll _ _

/-- A name of lower-case letters. -/
def PlainName (name : Bytes) : Prop := name ≠ [] ∧ ∀ byte ∈ name, 97 ≤ byte ∧ byte ≤ 122

instance (name : Bytes) : Decidable (PlainName name) :=
  @instDecidableAnd _ _ _ (List.decidableBAll _ _)

def startTag (name : Bytes) : Bytes := 60 :: (name ++ [62])

def endTag (name : Bytes) : Bytes := 60 :: 47 :: (name ++ [62])

/-- Content that is text followed by elements, with the data and the children that
it means to a reader of text. -/
inductive Content (readText : Bytes → Option Bytes) :
    Bytes → Bytes → List (String × Ptree) → Prop where
  | text {text data : Bytes} (hlegal : XmlLegal text) (hmarkup : 60 ∉ text)
    (hdata : readText text = some data) : Content readText text data []
  | element {before data content inner : Bytes} {children grandchildren : List (String × Ptree)}
    (hbefore : Content readText before data children) (name : Bytes) (hname : PlainName name)
    (hcontent : Content readText content inner grandchildren) :
    Content readText (before ++ (startTag name ++ (content ++ endTag name))) data
      (children ++ [(nameOf name, .node inner grandchildren)])

mutual

/-- The total of a measure over the data of a tree. The values of attributes are left out, which
are below a child of their own. -/
def Ptree.total (measure : Bytes → ℕ) : Ptree → ℕ
  | .node data children => measure data + Ptree.totalOf measure children

/-- The total over children. -/
def Ptree.totalOf (measure : Bytes → ℕ) : List (String × Ptree) → ℕ
  | [] => 0
  | child :: children =>
    (if child.1 = "<xmlattr>" then measure child.2.data else child.2.total measure) +
      Ptree.totalOf measure children

end

theorem Ptree.totalOf_append (measure : Bytes → ℕ) (first rest : List (String × Ptree)) :
    Ptree.totalOf measure (first ++ rest) =
      Ptree.totalOf measure first + Ptree.totalOf measure rest := by
  induction first with
  | nil => rw [List.nil_append, Ptree.totalOf, Nat.zero_add]
  | cons child first ih =>
      rw [List.cons_append, Ptree.totalOf, Ptree.totalOf, ih, Nat.add_assoc]

/-- What the engine relies on. -/
structure XmlReader where
  /-- Missing if it throws. -/
  read : Bytes → Option Ptree
  /-- What it makes of text between two tags; missing if it throws. -/
  readText : Bytes → Option Bytes
  readText_nil : readText [] = some []
  /-- Documents of elements and text mean what their content means. -/
  read_element : ∀ {name content data : Bytes} {children : List (String × Ptree)},
    PlainName name → Content readText content data children →
    read (startTag name ++ (content ++ endTag name)) =
      some (.node [] [(nameOf name, .node data children)])
  /-- Whatever a document is, these characters in data come from it. -/
  escapes_le : ∀ {document : Bytes} {tree : Ptree}, read document = some tree →
    tree.total (List.countP escapes) ≤ document.countP escapes
  /-- Where data hold a '<', the document has one of them more: that of the reference, of the
  comment or of the CDATA section that the '<' comes out of. -/
  escapes_lt : ∀ {document : Bytes} {tree : Ptree}, read document = some tree →
    0 < tree.total (List.count 60) →
    tree.total (List.countP escapes) < document.countP escapes

/-- The reader decodes the references of a text, and returns everything else as it stands. -/
def XmlReader.Decodes (reader : XmlReader) (text : Bytes) : Prop :=
  reader.readText text = some (decode text)

end Unbiased
