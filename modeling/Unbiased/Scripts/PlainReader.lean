/-
# A reader of plain documents

A reader that knows start tags, end tags and text. It cuts a document into tags
and the text between them, and keeps a stack of the elements that are open. It
shows that an `XmlReader` can be had.
-/

import Unbiased.Math.Execution
import Unbiased.Scripts.XmlReader

namespace Unbiased

open Unbiased.Math

namespace PlainReader

/-- A piece of a document. -/
inductive Token where
  | text (text : Bytes)
  /-- What is between the brackets of a tag. -/
  | tag (name : Bytes)

/-- Cut a document into pieces, from inside a tag or not, with the bytes of the
current piece so far. -/
def tokens : Bool → Bytes → Bytes → Option (List Token)
  | false, text, [] => some [.text text]
  | true, _, [] => none
  | false, text, byte :: rest =>
    if byte = 60 then (tokens true [] rest).map (.text text :: ·)
    else tokens false (text ++ [byte]) rest
  | true, name, byte :: rest =>
    if byte = 62 then (tokens false [] rest).map (.tag name :: ·)
    else tokens true (name ++ [byte]) rest

/-- An element whose end tag has not been read. -/
structure OpenElement where
  name : Bytes
  data : Bytes
  children : List (String × Ptree)

/-- End the innermost element, if this is its name. -/
def close : List OpenElement → Bytes → Option (List OpenElement)
  | top :: parent :: stack, name =>
    if top.name = name then
      some ({ parent with
        children := parent.children ++ [(nameOf top.name, .node top.data top.children)] } :: stack)
    else none
  | _, _ => none

/-- Read one piece. The innermost open element comes first. -/
def readToken : List OpenElement → Token → Option (List OpenElement)
  | [], _ => none
  | top :: stack, .text text => some ({ top with data := top.data ++ decode text } :: stack)
  | top :: stack, .tag name =>
    if name.head? = some 47 then close (top :: stack) name.tail
    else some (⟨name, [], []⟩ :: top :: stack)

/-- Read a document, which closes all its elements. -/
def read (document : Bytes) : Option Ptree := do
  let pieces ← tokens false [] document
  let stack ← run readToken [⟨[], [], []⟩] pieces
  match stack with
  | [root] => some (.node root.data root.children)
  | _ => none

/-! ## It reads what is written -/

theorem tokens_text {text : Bytes} (h : 60 ∉ text) (sofar rest : Bytes) :
    tokens false sofar (text ++ 60 :: rest) =
      (tokens true [] rest).map (.text (sofar ++ text) :: ·) := by
  induction text generalizing sofar with
  | nil => rw [List.nil_append, tokens, if_pos rfl, List.append_nil]
  | cons byte text ih =>
      obtain ⟨hne, htext⟩ := not_or.mp (mt List.mem_cons.mpr h)
      rw [List.cons_append, tokens, if_neg (Ne.symm hne), ih htext, List.append_assoc]
      rfl

theorem tokens_tag {name : Bytes} (h : 62 ∉ name) (sofar rest : Bytes) :
    tokens true sofar (name ++ 62 :: rest) =
      (tokens false [] rest).map (.tag (sofar ++ name) :: ·) := by
  induction name generalizing sofar with
  | nil => rw [List.nil_append, tokens, if_pos rfl, List.append_nil]
  | cons byte name ih =>
      obtain ⟨hne, hname⟩ := not_or.mp (mt List.mem_cons.mpr h)
      rw [List.cons_append, tokens, if_neg (Ne.symm hne), ih hname, List.append_assoc]
      rfl

theorem notMem_of_plainName {name : Bytes} (h : PlainName name) : 62 ∉ name ∧ 62 ∉ 47 :: name := by
  have hname : 62 ∉ name := fun hmem => absurd (h.2 62 hmem).1 (by decide)
  exact ⟨hname, fun hmem => (List.mem_cons.mp hmem).elim (by decide) hname⟩

theorem readToken_startTag {name : Bytes} (h : PlainName name) (top : OpenElement)
    (stack : List OpenElement) :
    readToken (top :: stack) (.tag name) = some (⟨name, [], []⟩ :: top :: stack) := by
  have hhead : name.head? ≠ some 47 := fun hhead =>
    absurd (h.2 47 (List.mem_of_head? hhead)).1 (by decide)
  rw [readToken, if_neg hhead]

theorem readToken_endTag (name : Bytes) (top parent : OpenElement) (stack : List OpenElement)
    (h : top.name = name) :
    readToken (top :: parent :: stack) (.tag (47 :: name)) =
      some ({ parent with
        children := parent.children ++ [(nameOf name, .node top.data top.children)] } ::
          stack) := by
  rw [readToken, List.head?_cons, if_pos rfl, List.tail_cons, close, if_pos h, h]

/-- **Content is read as what it means.** Up to the tag behind it, into the element
that is open. -/
theorem exists_tokens_of_content {content data : Bytes} {children : List (String × Ptree)}
    (h : Content (some ∘ decode) content data children) :
    ∃ pieces,
      (∀ rest, tokens false [] (content ++ 60 :: rest) =
        (tokens true [] rest).map (pieces ++ ·)) ∧
      ∀ (top : OpenElement) (stack : List OpenElement), run readToken (top :: stack) pieces =
        some (⟨top.name, top.data ++ data, top.children ++ children⟩ :: stack) := by
  induction h with
  | @text text data hlegal hmarkup hdata =>
      obtain rfl : decode text = data := Option.some.inj hdata
      refine ⟨[.text text], fun rest => tokens_text hmarkup [] rest, fun top stack => ?_⟩
      rw [List.append_nil]
      rfl
  | @element before' data content inner children grandchildren hbefore name hname hcontent
      ihbefore ihcontent =>
      obtain ⟨before, hbeforeTokens, hbeforeRun⟩ := ihbefore
      obtain ⟨inside, hinsideTokens, hinsideRun⟩ := ihcontent
      obtain ⟨hstart, hend⟩ := notMem_of_plainName hname
      refine ⟨before ++ (.tag name :: (inside ++ [.tag (47 :: name), .text []])), ?_, ?_⟩
      · intro rest
        have hdocument : (before' ++ (startTag name ++ (content ++ endTag name))) ++ 60 :: rest =
            before' ++ 60 :: (name ++ 62 :: (content ++ 60 ::
              ((47 :: name) ++ 62 :: ([] ++ 60 :: rest)))) := by
          simp [startTag, endTag]
        rw [hdocument, hbeforeTokens, tokens_tag hstart, hinsideTokens, tokens_tag hend,
          tokens_text List.not_mem_nil]
        simp only [Option.map_map, List.nil_append]
        congr 1
        funext pieces
        simp
      · intro top stack
        rw [run_append, hbeforeRun, Option.bind_some, run_cons, readToken_startTag hname,
          Option.bind_some, run_append, hinsideRun, Option.bind_some, run_cons,
          readToken_endTag name _ _ _ rfl, Option.bind_some, run_cons, readToken, Option.bind_some,
          run_nil]
        simp [decode, replaceAll, replaceFrom]

/-- An element is read as a document. -/
theorem read_element {name content data : Bytes} {children : List (String × Ptree)}
    (hname : PlainName name) (hcontent : Content (some ∘ decode) content data children) :
    read (startTag name ++ (content ++ endTag name)) =
      some (.node [] [(nameOf name, .node data children)]) := by
  obtain ⟨pieces, htokens, hrun⟩ := exists_tokens_of_content hcontent
  obtain ⟨hstart, hend⟩ := notMem_of_plainName hname
  have hdocument : startTag name ++ (content ++ endTag name) =
      [] ++ 60 :: (name ++ 62 :: (content ++ 60 :: ((47 :: name) ++ 62 :: []))) := by
    simp [startTag, endTag]
  have hpieces : tokens false [] (startTag name ++ (content ++ endTag name)) =
      some (.text [] :: .tag name :: (pieces ++ [.tag (47 :: name), .text []])) := by
    rw [hdocument, tokens_text List.not_mem_nil, tokens_tag hstart, htokens, tokens_tag hend,
      tokens]
    rfl
  have hstack : run readToken [⟨[], [], []⟩]
      (.text [] :: .tag name :: (pieces ++ [.tag (47 :: name), .text []])) =
        some [⟨[], [], [(nameOf name, .node data children)]⟩] := by
    rw [run_cons, readToken, Option.bind_some, run_cons, readToken_startTag hname,
      Option.bind_some, run_append, hrun, Option.bind_some, run_cons,
      readToken_endTag name _ _ _ rfl, Option.bind_some, run_cons, readToken, Option.bind_some,
      run_nil]
    rfl
  rw [read, hpieces, Option.bind_eq_bind, Option.bind_some, hstack]
  rfl

/-! ## Data come from text -/

/-- The texts among pieces. -/
def texts (pieces : List Token) : List Bytes :=
  pieces.filterMap fun
    | .text text => some text
    | .tag _ => none

/-- The texts of a document come from it in order, and no markup starts in them. -/
theorem texts_of_tokens {inside : Bool} {sofar document : Bytes} {pieces : List Token}
    (h : tokens inside sofar document = some pieces) (hsofar : inside = false → 60 ∉ sofar) :
    (texts pieces).flatten.Sublist ((if inside then [] else sofar) ++ document) ∧
      ∀ text ∈ texts pieces, 60 ∉ text := by
  induction document generalizing inside sofar pieces with
  | nil =>
      cases inside with
      | true => cases h
      | false =>
          cases h
          exact ⟨by simp [texts], by simpa [texts] using hsofar⟩
  | cons byte document ih =>
      cases inside with
      | true =>
          rw [tokens] at h
          split at h
          · obtain ⟨rest, hrest, rfl⟩ := Option.map_eq_some_iff.mp h
            obtain ⟨hsublist, hmarkup⟩ := ih hrest fun _ => List.not_mem_nil
            exact ⟨hsublist.cons byte, hmarkup⟩
          · obtain ⟨hsublist, hmarkup⟩ := ih h Bool.noConfusion
            exact ⟨hsublist.cons byte, hmarkup⟩
      | false =>
          rw [tokens] at h
          split at h
          · obtain ⟨rest, hrest, rfl⟩ := Option.map_eq_some_iff.mp h
            obtain ⟨hsublist, hmarkup⟩ := ih hrest Bool.noConfusion
            refine ⟨(List.Sublist.refl sofar).append (hsublist.cons byte), ?_⟩
            exact List.forall_mem_cons.mpr ⟨hsofar rfl, hmarkup⟩
          · rename_i hopening
            obtain ⟨hsublist, hmarkup⟩ := ih h fun _ hmem => (List.mem_append.mp hmem).elim
              (hsofar rfl) fun hlast => hopening (List.mem_singleton.mp hlast).symm
            refine ⟨?_, hmarkup⟩
            rwa [if_neg Bool.false_ne_true, List.append_assoc, List.singleton_append] at hsublist

/-- A measure of which concatenation is the sum. -/
def Additive (measure : Bytes → ℕ) : Prop :=
  measure [] = 0 ∧ ∀ first rest, measure (first ++ rest) = measure first + measure rest

/-- The total over open elements. -/
def stackTotal (measure : Bytes → ℕ) (stack : List OpenElement) : ℕ :=
  (stack.map fun element => measure element.data + Ptree.totalOf measure element.children).sum

/-- The total over the texts of pieces, decoded. -/
def textTotal (measure : Bytes → ℕ) (pieces : List Token) : ℕ :=
  ((texts pieces).map fun text => measure (decode text)).sum

/-- A piece adds its text at most. -/
theorem stackTotal_of_readToken {measure : Bytes → ℕ} (h : Additive measure)
    {stack next : List OpenElement} {token : Token} (hread : readToken stack token = some next) :
    stackTotal measure next ≤ stackTotal measure stack + textTotal measure [token] := by
  cases stack with
  | nil => cases hread
  | cons top stack =>
      cases token with
      | text text =>
          cases hread
          simp only [stackTotal, List.map_cons, List.sum_cons, h.2, textTotal, texts,
            List.filterMap_cons, List.filterMap_nil, List.map_nil, List.sum_nil]
          omega
      | tag name =>
          rw [readToken] at hread
          split at hread
          · cases stack with
            | nil => cases hread
            | cons parent stack =>
                rw [close] at hread
                split at hread
                · cases hread
                  simp only [stackTotal, List.map_cons, List.sum_cons, Ptree.totalOf_append,
                    Ptree.totalOf, Ptree.total, Ptree.data]
                  split
                  · omega
                  · omega
                · cases hread
          · cases hread
            simp [stackTotal, Ptree.totalOf, h.1]

/-- Data are no more than the texts that they are decoded from. -/
theorem total_le_of_read {measure : Bytes → ℕ} (h : Additive measure) {document : Bytes}
    {tree : Ptree} (hread : read document = some tree) :
    ∃ pieces, tokens false [] document = some pieces ∧
      tree.total measure ≤ textTotal measure pieces := by
  obtain ⟨pieces, hpieces, hread⟩ := Option.bind_eq_some_iff.mp hread
  obtain ⟨stack, hstack, hread⟩ := Option.bind_eq_some_iff.mp hread
  have htotal := run_invariant (P := fun hist m => stackTotal measure m ≤ textTotal measure hist)
    (by simp [stackTotal, textTotal, texts, Ptree.totalOf, h.1])
    (fun hist m token next hm hstep => by
      have hsplit : textTotal measure (hist ++ [token]) =
          textTotal measure hist + textTotal measure [token] := by
        simp [textTotal, texts]
      rw [hsplit]
      exact (stackTotal_of_readToken h hstep).trans (Nat.add_le_add_right hm _)) hstack
  refine ⟨pieces, hpieces, ?_⟩
  split at hread
  · cases hread
    simpa [stackTotal, Ptree.total] using htotal
  · cases hread

/-- Texts are decoded to no more of these characters than they hold, and to fewer if a '<' comes
out of them. -/
theorem sum_escapes_decode {texts : List Bytes} (h : ∀ text ∈ texts, 60 ∉ text) :
    (texts.map fun text => (decode text).countP escapes).sum ≤
        (texts.map (List.countP escapes)).sum ∧
      (0 < (texts.map fun text => (decode text).count 60).sum →
        (texts.map fun text => (decode text).countP escapes).sum <
          (texts.map (List.countP escapes)).sum) := by
  induction texts with
  | nil => exact ⟨le_rfl, fun hpos => hpos⟩
  | cons text texts ih =>
      obtain ⟨htext, htexts⟩ := List.forall_mem_cons.mp h
      obtain ⟨hle, hlt⟩ := countP_replaceAll reference?_shrinks reference?_costs text
      obtain ⟨ihle, ihlt⟩ := ih htexts
      simp only [List.map_cons, List.sum_cons]
      rw [← decode] at hle hlt
      refine ⟨Nat.add_le_add hle ihle, fun hpos => ?_⟩
      by_cases hhere : 60 ∈ decode text
      · have hless := hlt htext hhere
        omega
      · rw [List.count_eq_zero_of_not_mem hhere, Nat.zero_add] at hpos
        have hless := ihlt hpos
        omega

theorem additive_countP (p : Fin 256 → Bool) : Additive (List.countP p) :=
  ⟨rfl, fun _ _ => List.countP_append⟩

/-- The texts of a document hold no more of these characters than it does. -/
theorem sum_escapes_texts {document : Bytes} {pieces : List Token}
    (h : tokens false [] document = some pieces) :
    ((texts pieces).map (List.countP escapes)).sum ≤ document.countP escapes := by
  have hsublist := (texts_of_tokens h fun _ => List.not_mem_nil).1
  rw [← List.countP_flatten]
  exact hsublist.countP_le

theorem escapes_le {document : Bytes} {tree : Ptree} (h : read document = some tree) :
    tree.total (List.countP escapes) ≤ document.countP escapes := by
  obtain ⟨pieces, hpieces, htotal⟩ := total_le_of_read (additive_countP escapes) h
  have hmarkup := (texts_of_tokens hpieces fun _ => List.not_mem_nil).2
  exact (htotal.trans (sum_escapes_decode hmarkup).1).trans (sum_escapes_texts hpieces)

theorem escapes_lt {document : Bytes} {tree : Ptree} (h : read document = some tree)
    (hbracket : 0 < tree.total (List.count 60)) :
    tree.total (List.countP escapes) < document.countP escapes := by
  obtain ⟨pieces, hpieces, htotal⟩ := total_le_of_read (additive_countP escapes) h
  obtain ⟨same, hsame, hbrackets⟩ := total_le_of_read (additive_countP (· == 60)) h
  obtain rfl : pieces = same := Option.some.inj (hpieces.symm.trans hsame)
  have hmarkup := (texts_of_tokens hpieces fun _ => List.not_mem_nil).2
  exact (htotal.trans_lt ((sum_escapes_decode hmarkup).2 (hbracket.trans_le hbrackets))).trans_le
    (sum_escapes_texts hpieces)

end PlainReader

/-- The reader, with what the engine relies on. -/
def plainReader : XmlReader where
  read := PlainReader.read
  readText := some ∘ decode
  readText_nil := rfl
  read_element := PlainReader.read_element
  escapes_le := PlainReader.escapes_le
  escapes_lt := PlainReader.escapes_lt

end Unbiased
