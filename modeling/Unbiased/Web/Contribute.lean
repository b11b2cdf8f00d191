/-
# Contributed links

The page on which users contribute links parses the body of its request by hand, checks the
link, and stores an entry for it with the user. Whatever goes wrong is logged and
answered like a success.

The column of the links is unique, so only the first entry of a link is stored.
-/

import Mathlib.Data.List.SplitBy
import Unbiased.Math.Execution
import Unbiased.Math.FirstBy
import Unbiased.Math.PercentCoding

namespace Unbiased

open Unbiased.Math

/-! ## Requests -/

inductive Method where
  | get
  | other
  deriving DecidableEq

/-- A request, of a user if one is logged in. -/
structure Request (User : Type) where
  method : Method
  user : Option User
  body : List UInt8

/-- What the page answers: a redirection to the login page, or some content. -/
inductive Response where
  | login
  | content (html : Option (List Char))

/-- What the loop over the items of a body assigns. -/
structure ContributeVars where
  srcType : Option (List Char)
  userInput : Option (List Char)
  keywords : List Char

/-- One item of a body. A known name without a value throws. -/
def parseItem (vars : ContributeVars) (item : List Char) : Option ContributeVars :=
  let parts := item.splitOn '='
  if parts[0]? = some "src_type_sel".toList then
    parts[1]?.map fun value => { vars with srcType := some value }
  else if parts[0]? = some "slink".toList then
    parts[1]?.map fun value => { vars with userInput := some value }
  else if parts[0]? = some "stext".toList then
    parts[1]?.map fun value => { vars with userInput := some value }
  else if parts[0]? = some "keywords".toList then
    parts[1]?.map fun value => { vars with keywords := value }
  else some vars

/-- The type of the source, the input and the keywords. A body that is not UTF-8 throws, and
so does one that does not assign the first two. -/
def parseContributeReq (body : List UInt8) : Option (List Char × List Char × List Char) := do
  let body ← utf8Decode? body
  let vars ← run parseItem ⟨none, none, []⟩ (body.splitOn '&')
  let srcType ← vars.srcType
  let userInput ← vars.userInput
  some (srcType, userInput, vars.keywords)

/-! ## The page -/

/-- The functions of the web framework, and what Python decodes invalid UTF-8 to. -/
structure Web where
  validUrl : List Char → Bool
  replace : List UInt8 → List Char
  contributeHtml : List Char

def isAscii (ch : Char) : Bool := ch.toNat < 128

/-- `urllib.parse.unquote`: escapes are read in the stretches of ASCII. -/
def unquote (replace : List UInt8 → List Char) (text : List Char) : List Char :=
  (text.splitBy fun a b => isAscii a == isAscii b).flatMap fun chunk =>
    if chunk.all isAscii then
      let bytes := percentDecode (utf8 chunk)
      (utf8Decode? bytes).getD (replace bytes)
    else chunk

/-- What a column of 200 characters stores of a text. A longer text is refused unless spaces
make it longer, and a null character is refused. -/
def column (text : List Char) : Option (List Char) :=
  if Char.ofNat 0 ∈ text then none
  else if text.length ≤ 200 then some text
  else if (text.drop 200).all (· = ' ') then some (text.take 200)
  else none

structure UserEntry (User : Type) where
  url : List Char
  keywords : List Char
  users : List User

variable {User : Type}

/-- A new entry, without users. -/
def createEntry (entries : List (UserEntry User)) (url keywords : List Char) :
    Option (UserEntry User) := do
  let url ← column url
  let keywords ← column keywords
  if url ∈ entries.map UserEntry.url then none else some ⟨url, keywords, []⟩

/-- What is done to the entries for a request that is not a `GET`, unless it throws. -/
def storeContribution (web : Web) (entries : List (UserEntry User)) (user : User)
    (body : List UInt8) : Option (List (UserEntry User)) := do
  let (srcType, userInput, keywords) ← parseContributeReq body
  if srcType ≠ "Text".toList then
    let inputUrl := unquote web.replace userInput
    if web.validUrl inputUrl then
      let userEntry ← createEntry entries inputUrl keywords
      some (entries ++ [{ userEntry with users := [user] }])
    else none
  -- users cannot be given to the constructor of an entry
  else none

def contributePage (web : Web) (entries : List (UserEntry User)) (request : Request User) :
    List (UserEntry User) × Response :=
  match request.user with
  | none => (entries, .login)
  | some user =>
    match request.method with
    | .get => (entries, .content (some web.contributeHtml))
    | .other => ((storeContribution web entries user request.body).getD entries, .content none)

/-! ## Runs of requests -/

/-- The entry that a request asks for. -/
def submission (web : Web) (request : Request User) : Option (UserEntry User) := do
  let user ← request.user
  if request.method = .get then none
  else
    let (srcType, userInput, keywords) ← parseContributeReq request.body
    let inputUrl := unquote web.replace userInput
    if srcType ≠ "Text".toList ∧ web.validUrl inputUrl then
      some ⟨← column inputUrl, ← column keywords, [user]⟩
    else none

/-- A request adds the entry that it asks for if the link is new. -/
theorem contributePage_fst (web : Web) (entries : List (UserEntry User))
    (request : Request User) :
    (contributePage web entries request).1 =
      match submission web request with
      | none => entries
      | some entry =>
        if entry.url ∈ entries.map UserEntry.url then entries else entries ++ [entry] := by
  unfold contributePage submission
  cases request.user with
  | none => rfl
  | some user =>
      simp only [Option.bind_eq_bind, Option.bind_some]
      cases request.method with
      | get => rfl
      | other =>
          simp only [reduceCtorEq, if_false]
          unfold storeContribution
          cases parseContributeReq request.body with
          | none => rfl
          | some parsed =>
              obtain ⟨srcType, userInput, keywords⟩ := parsed
              simp only [Option.bind_eq_bind, Option.bind_some]
              by_cases htype : srcType = "Text".toList
              · rw [if_neg (not_not.mpr htype), if_neg fun h => h.1 htype]
                rfl
              · rw [if_pos htype]
                by_cases hvalid : web.validUrl (unquote web.replace userInput) = true
                · rw [if_pos hvalid, if_pos ⟨htype, hvalid⟩, createEntry]
                  cases column (unquote web.replace userInput) with
                  | none => rfl
                  | some url =>
                      cases column keywords with
                      | none => rfl
                      | some keywords =>
                          simp only [Option.bind_eq_bind, Option.bind_some]
                          split
                          · rfl
                          · rfl
                · rw [if_neg hvalid, if_neg fun h => hvalid h.2]
                  rfl

/-- The entries after some requests. -/
def entriesAfter (web : Web) (requests : List (Request User)) : List (UserEntry User) :=
  requests.foldl (fun entries request => (contributePage web entries request).1) []

/-- The entries are the first ones of their links. -/
theorem entriesAfter_eq (web : Web) (requests : List (Request User)) :
    entriesAfter web requests = firstBy UserEntry.url (requests.filterMap (submission web)) := by
  induction requests using List.reverseRecOn with
  | nil => rfl
  | append_singleton requests request ih =>
      rw [entriesAfter, List.foldl_append, ← entriesAfter, List.foldl_cons, List.foldl_nil,
        contributePage_fst, List.filterMap_append, List.filterMap_cons, List.filterMap_nil, ih]
      cases submission web request with
      | none => rw [List.append_nil]
      | some entry =>
          dsimp only
          rw [firstBy_concat]
          by_cases hseen : entry.url ∈ (requests.filterMap (submission web)).map UserEntry.url
          · rw [if_pos (mem_map_firstBy.mpr hseen), if_pos hseen]
          · rw [if_neg (mem_map_firstBy.not.mpr hseen), if_neg hseen]

/-- The entry that a request asks for has its user, and no other. -/
theorem users_of_submission {web : Web} {request : Request User} {entry : UserEntry User}
    (h : submission web request = some entry) :
    ∃ user, request.user = some user ∧ entry.users = [user] := by
  obtain ⟨user, huser, h⟩ := Option.bind_eq_some_iff.mp h
  split at h
  · cases h
  · obtain ⟨⟨srcType, userInput, keywords⟩, -, h⟩ := Option.bind_eq_some_iff.mp h
    dsimp only at h
    split at h
    · obtain ⟨url, -, h⟩ := Option.bind_eq_some_iff.mp h
      obtain ⟨keywords, -, h⟩ := Option.bind_eq_some_iff.mp h
      cases h
      exact ⟨user, huser, rfl⟩
    · cases h

/-- **What a run of requests stores.** Of the entries that were asked for, the first ones of
their links, each with the user who asked for it first and nobody else. -/
theorem contributions_of_run (web : Web) (requests : List (Request User)) :
    entriesAfter web requests = firstBy UserEntry.url (requests.filterMap (submission web)) ∧
      ((entriesAfter web requests).map UserEntry.url).Nodup ∧
      ∀ entry ∈ entriesAfter web requests, ∃ request ∈ requests, ∃ user,
        request.user = some user ∧ entry.users = [user] := by
  have heq := entriesAfter_eq web requests
  rw [heq]
  refine ⟨rfl, nodup_map_firstBy _ _, fun entry hentry => ?_⟩
  obtain ⟨request, hrequest, hasked⟩ :=
    List.mem_filterMap.mp ((firstBy_sublist _ _).subset hentry)
  exact ⟨request, hrequest, users_of_submission hasked⟩

/-! ## The form of the page -/

/-- The options of the form. -/
inductive SrcType where
  | article
  | video
  | blog
  | text
  deriving DecidableEq

def SrcType.value : SrcType → List Char
  | article => "Article".toList
  | video => "Video".toList
  | blog => "Blog".toList
  | text => "Text".toList

/-- The bytes that a browser sends as they are: letters, digits and `*`, `-`, `.`, `_`. -/
def formPlain (b : UInt8) : Bool :=
  48 ≤ b && b ≤ 57 || 65 ≤ b && b ≤ 90 || 97 ≤ b && b ≤ 122 || b ∈ [42, 45, 46, 95]

/-- A browser sends a space as a plus sign. -/
def formByte (b : UInt8) : List UInt8 := if b = 32 then [43] else escape formPlain b

def formValue (text : List Char) : List Char := ((utf8 text).flatMap formByte).map charOfByte

/-- What a browser sends for the form, with no keywords, since the form does not ask for any. -/
def formText (srcType : SrcType) (link : List Char) : List Char :=
  ("src_type_sel".toList ++ '=' :: formValue srcType.value) ++
    '&' :: ("slink".toList ++ '=' :: formValue link)

/-- A link that a user submits with the form. -/
structure Form (User : Type) where
  user : User
  srcType : SrcType
  link : List Char

def Form.request (form : Form User) : Request User :=
  ⟨.other, some form.user, utf8 (formText form.srcType form.link)⟩

theorem formByte_spec (b : UInt8) :
    ∀ x ∈ formByte b, x < 128 ∧ charOfByte x ≠ '&' ∧ charOfByte x ≠ '=' := by
  have hall : (List.range 256).all (fun n => (formByte (UInt8.ofNat n)).all fun x =>
      decide (x < 128 ∧ charOfByte x ≠ '&' ∧ charOfByte x ≠ '=')) = true := by
    decide +kernel
  intro x hx
  have hbyte := List.all_eq_true.mp hall b.toNat (List.mem_range.mpr b.toNat_lt)
  rw [UInt8.ofNat_toNat] at hbyte
  exact of_decide_eq_true (List.all_eq_true.mp hbyte x hx)

theorem notMem_formValue (text : List Char) : '&' ∉ formValue text ∧ '=' ∉ formValue text := by
  have hne : ∀ ch ∈ formValue text, ch ≠ '&' ∧ ch ≠ '=' := by
    intro ch hch
    obtain ⟨x, hx, rfl⟩ := List.mem_map.mp hch
    obtain ⟨b, -, hxb⟩ := List.mem_flatMap.mp hx
    exact (formByte_spec b x hxb).2
  exact ⟨fun h => (hne _ h).1 rfl, fun h => (hne _ h).2 rfl⟩

theorem splitOn_item (name : List Char) (hname : '=' ∉ name) (text : List Char) :
    (name ++ '=' :: formValue text).splitOn '=' = [name, formValue text] := by
  rw [List.splitOn_append_cons_self_of_not_mem hname,
    List.splitOn_eq_singleton (notMem_formValue text).2]

theorem parseItem_srcType (vars : ContributeVars) (text : List Char) :
    parseItem vars ("src_type_sel".toList ++ '=' :: formValue text) =
      some { vars with srcType := some (formValue text) } := by
  rw [parseItem, splitOn_item _ (by decide)]
  exact if_pos rfl

theorem parseItem_slink (vars : ContributeVars) (text : List Char) :
    parseItem vars ("slink".toList ++ '=' :: formValue text) =
      some { vars with userInput := some (formValue text) } := by
  have hother : some "slink".toList ≠ some "src_type_sel".toList := by decide
  rw [parseItem, splitOn_item _ (by decide)]
  exact (if_neg hother).trans (if_pos rfl)

theorem notMem_item {name : List Char} (hname : '&' ∉ name) (text : List Char) :
    '&' ∉ name ++ '=' :: formValue text := by
  rw [List.mem_append, List.mem_cons, not_or, not_or]
  exact ⟨hname, by decide, (notMem_formValue text).1⟩

theorem splitOn_formText (srcType : SrcType) (link : List Char) :
    (formText srcType link).splitOn '&' =
      ["src_type_sel".toList ++ '=' :: formValue srcType.value,
        "slink".toList ++ '=' :: formValue link] := by
  have hfirst : '&' ∉ "src_type_sel".toList := by decide
  have hsecond : '&' ∉ "slink".toList := by decide
  unfold formText
  rw [List.splitOn_append_cons_self_of_not_mem (notMem_item hfirst srcType.value),
    List.splitOn_eq_singleton (notMem_item hsecond link)]

/-- The body of the form is parsed into its values. -/
theorem parseContributeReq_formText (srcType : SrcType) (link : List Char) :
    parseContributeReq (utf8 (formText srcType link)) =
      some (formValue srcType.value, formValue link, []) := by
  rw [parseContributeReq, utf8Decode?_utf8, Option.bind_eq_bind, Option.bind_some,
    splitOn_formText, run_cons, parseItem_srcType, Option.bind_some, run_cons, parseItem_slink]
  rfl

/-- What becomes of the spaces of a link. -/
def plusForSpace (ch : Char) : Char := if ch = ' ' then '+' else ch

theorem percentDecode_formByte (b : UInt8) (rest : List UInt8) :
    percentDecode (formByte b ++ rest) = (if b = 32 then 43 else b) :: percentDecode rest := by
  unfold formByte
  split
  · exact percentDecode_cons (by decide) rest
  · exact percentDecode_escape (by decide) b rest

theorem map_utf8EncodeChar (ch : Char) :
    (String.utf8EncodeChar ch).map (fun b => if b = 32 then 43 else b) =
      String.utf8EncodeChar (plusForSpace ch) := by
  unfold plusForSpace
  split
  · rename_i hspace
    rw [hspace]
    decide
  · rename_i hother
    have hsame : ∀ b ∈ String.utf8EncodeChar ch, (if b = 32 then 43 else b) = b := by
      intro b hb
      apply if_neg
      rintro rfl
      exact hother (eq_of_mem_utf8EncodeChar hb (by decide))
    rw [List.map_congr_left hsame, List.map_id']

theorem map_utf8 (text : List Char) :
    (utf8 text).map (fun b => if b = 32 then 43 else b) = utf8 (text.map plusForSpace) := by
  rw [utf8, List.map_flatMap, utf8, List.flatMap_map]
  simp only [map_utf8EncodeChar]

/-- A value of the form is read back with plus signs for its spaces. -/
theorem unquote_formValue (replace : List UInt8 → List Char) (text : List Char) :
    unquote replace (formValue text) = text.map plusForSpace := by
  have hascii : ∀ b ∈ (utf8 text).flatMap formByte, b < 128 := by
    intro x hx
    obtain ⟨b, -, hxb⟩ := List.mem_flatMap.mp hx
    exact (formByte_spec b x hxb).1
  have hbytes : percentDecode (utf8 (formValue text)) = utf8 (text.map plusForSpace) := by
    rw [formValue, utf8_map_charOfByte hascii, percentDecode_flatMap percentDecode_formByte,
      map_utf8]
  have hall : ∀ ch ∈ formValue text, isAscii ch = true := by
    have hsmall : ∀ n < 128, isAscii (Char.ofNat n) = true := by decide
    intro ch hch
    obtain ⟨b, hb, rfl⟩ := List.mem_map.mp hch
    exact hsmall _ (UInt8.lt_iff_toNat_lt.mp (hascii b hb))
  unfold unquote
  by_cases hnil : formValue text = []
  · rw [hnil] at hbytes ⊢
    have hdecoded := utf8Decode?_utf8 (text.map plusForSpace)
    rw [← hbytes] at hdecoded
    exact (Option.some.inj hdecoded)
  · have hchunk : (formValue text).splitBy (fun a b => isAscii a == isAscii b) =
        [formValue text] := by
      apply List.splitBy_of_isChain hnil
      apply List.Pairwise.isChain
      apply List.pairwise_of_forall_mem_list
      intro a ha b hb
      rw [hall a ha, hall b hb]
      rfl
    rw [hchunk, List.flatMap_singleton, if_pos (List.all_eq_true.mpr hall)]
    dsimp only
    rw [hbytes, utf8Decode?_utf8, Option.getD_some]

theorem formValue_eq_text_iff (srcType : SrcType) :
    formValue srcType.value = "Text".toList ↔ srcType = .text := by
  cases srcType with
  | article => decide
  | video => decide
  | blog => decide
  | text => decide

/-- The entry for a form. -/
def Form.entry (web : Web) (form : Form User) : Option (UserEntry User) :=
  let link := form.link.map plusForSpace
  if form.srcType ≠ .text ∧ web.validUrl link then
    (column link).map fun url => ⟨url, [], [form.user]⟩
  else none

theorem submission_request (web : Web) (form : Form User) :
    submission web form.request = form.entry web := by
  have hkeywords : column [] = some [] := rfl
  have hmethod : Method.other ≠ Method.get := by decide
  simp only [submission, Form.request, Option.bind_eq_bind, Option.bind_some, if_neg hmethod,
    parseContributeReq_formText, ne_eq, formValue_eq_text_iff, unquote_formValue, Form.entry,
    hkeywords]
  split
  · cases column (form.link.map plusForSpace) with
    | none => rfl
    | some url => rfl
  · rfl

/-- **What the form stores.** For every run of submitted forms, the links come through the
encoding of the browser and the decoding of the page with plus signs for their spaces. Those
that are no text, valid and short enough are stored, each once, for its first user. -/
theorem entries_of_forms (web : Web) (forms : List (Form User)) :
    entriesAfter web (forms.map Form.request) =
      firstBy UserEntry.url (forms.filterMap (Form.entry web)) := by
  rw [entriesAfter_eq, List.filterMap_map]
  congr 1
  exact List.filterMap_congr fun form _ => submission_request web form

end Unbiased
