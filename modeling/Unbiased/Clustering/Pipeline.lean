/-
# The online engine

`processArticle` is the whole path of one article through the online program:
parse, validate, merge the stems, process the tokens, store, sign, ask the
dedup server. An exception ends it where it happened, and is caught. What the
library code throws is an argument.

The database and the dedup server are shared with the start-up program, so the
state holds them beside the two programs' vocabularies.
-/

import Unbiased.Clustering.Attribution
import Unbiased.Clustering.MinHash
import Unbiased.Dedup.LSHDeduplication
import Unbiased.Store.MongoDb

namespace Unbiased

open Unbiased.Math

/-- The library code the two programs call. -/
structure Env where
  text : TextOps
  readXml : Bytes → Option Ptree
  murmur : Murmur
  hashCombine : HashCombine
  newOid : ℕ → ObjectId

/-- The state of the engine. -/
structure System where
  db : MongoDb
  /-- The state of the dedup server. -/
  dedup : ArticleDedup
  /-- The messages the dedup server has received. -/
  sent : List DocSignature
  startupVocab : Vocabulary
  pipelineVocab : Vocabulary
  processedArticles : Int32

/-- Which calls throw while an article is handled. -/
structure Faults where
  saveThrows : Bool
  dedupThrows : Bool

/-- Nothing throws. -/
def Faults.none : Faults := ⟨false, false⟩

/-- What both programs do with a processed article: store it, then sign it, then
ask about it. The inner result is missing if a call threw. -/
def saveAndAsk (env : Env) (faults : Faults) (s : System) (procArticle : ProcessedArticle)
    (shingles : SortedSet Int32) : Option (System × Option (ProcessedArticle × Bool)) :=
  if faults.saveThrows then some (s, .none)
  else
    let (id, db) := saveArticle env.newOid s.db procArticle
    let procArticle := { procArticle with
      signature := MinHash.engine.computeSignature env.murmur shingles }
    if faults.dedupThrows then some ({ s with db := db }, .none)
    else do
      let (isDuplicate, dedup) ← s.dedup.isDuplicate env.hashCombine (id, procArticle.signature)
      some ({ s with
        db := db
        dedup := dedup
        sent := s.sent ++ [(id, procArticle.signature)] }, some (procArticle, isDuplicate))

/-- Handle one article that arrives online. -/
def processArticle (env : Env) (faults : Faults) (uninitialised : Signature)
    (articleStr : Bytes) (s : System) : Option System :=
  match parseFromXml env.readXml articleStr with
  | .none => some s
  | some newArticle =>
    let (valid, newArticle, stems) := validate env.text s.pipelineVocab newArticle
    if valid then do
      let (vocab, procArticle, shingles) ← submitArticle env.text uninitialised s.pipelineVocab
        stems newArticle
      let (s, result) ← saveAndAsk env faults { s with pipelineVocab := vocab } procArticle shingles
      match result with
      | some (_, false) => some { s with processedArticles := s.processedArticles + 1 }
      | _ => some s
    else some { s with db := saveInvalidUrl env.newOid s.db newArticle.metaData.url }

/-- The constructor: load the stored vocabulary into a default one. -/
def makePipeline (s : System) (stemsFreq : Fin maxStemsNo → Int32) : Except LoadError System :=
  (loadVocabulary s.db (Vocabulary.fresh stemsFreq)).map fun vocab =>
    { s with
      pipelineVocab := vocab
      processedArticles := 0 }

/-! ## Validation reads the dictionary and the stop words only -/

theorem validateToken_congr {text : TextOps} {first second : Vocabulary}
    (hwords : first.words = second.words) (hstop : first.stopWords = second.stopWords) :
    validateToken text first = validateToken text second := by
  funext state token
  have hword : first.isValidWord token = second.isValidWord token := by
    rw [Vocabulary.isValidWord, Vocabulary.isValidWord, hwords]
  have hstopWord : first.isStopWord token = second.isStopWord token := by
    rw [Vocabulary.isStopWord, Vocabulary.isStopWord, hstop]
  rw [validateToken, validateToken, hword, hstopWord]

theorem validate_congr {text : TextOps} {first second : Vocabulary}
    (hwords : first.words = second.words) (hstop : first.stopWords = second.stopWords)
    (article : Article) : validate text first article = validate text second article := by
  unfold validate tokenizeValidate
  rw [validateToken_congr hwords hstop]

/-! ## What storing an article does -/

/-- The message that asks about an article with the next object id. -/
def nextMessage (env : Env) (s : System) (shingles : SortedSet Int32) : DocSignature :=
  ((env.newOid s.db.inserted).toString, MinHash.engine.computeSignature env.murmur shingles)

/-- What storing and asking does to the state: nothing if storing throws; else
the document is appended, as it was before it was signed; and unless asking
throws, the server has answered the message. -/
theorem saveAndAsk_cases {env : Env} {faults : Faults} {s t : System}
    {procArticle : ProcessedArticle} {shingles : SortedSet Int32}
    {result : Option (ProcessedArticle × Bool)}
    (h : saveAndAsk env faults s procArticle shingles = some (t, result)) :
    (faults.saveThrows = true ∧ t = s ∧ result = none) ∨
    (faults.saveThrows = false ∧ faults.dedupThrows = true ∧
      t = { s with db := (saveArticle env.newOid s.db procArticle).2 } ∧ result = none) ∨
    (faults.saveThrows = false ∧ faults.dedupThrows = false ∧ ∃ isDuplicate dedup,
      s.dedup.isDuplicate env.hashCombine (nextMessage env s shingles) =
        some (isDuplicate, dedup) ∧
      t = { s with
        db := (saveArticle env.newOid s.db procArticle).2
        dedup := dedup
        sent := s.sent ++ [nextMessage env s shingles] } ∧
      result = some ({ procArticle with
        signature := MinHash.engine.computeSignature env.murmur shingles }, isDuplicate)) := by
  unfold saveAndAsk at h
  cases hsave : faults.saveThrows with
  | true =>
      rw [hsave, if_pos rfl] at h
      cases h
      exact Or.inl ⟨rfl, rfl, rfl⟩
  | false =>
      rw [hsave, if_neg Bool.false_ne_true] at h
      cases hdedup : faults.dedupThrows with
      | true =>
          rw [hdedup] at h
          cases h
          exact Or.inr (Or.inl ⟨rfl, rfl, rfl, rfl⟩)
      | false =>
          rw [hdedup] at h
          obtain ⟨⟨isDuplicate, dedup⟩, hverdict, hresult⟩ := Option.bind_eq_some_iff.mp h
          cases hresult
          exact Or.inr (Or.inr ⟨rfl, rfl, isDuplicate, dedup, hverdict, rfl, rfl⟩)

/-- If storing throws, nothing is done. -/
theorem saveAndAsk_of_throws {faults : Faults} (hthrows : faults.saveThrows = true) (env : Env)
    (s : System) (procArticle : ProcessedArticle) (shingles : SortedSet Int32) :
    saveAndAsk env faults s procArticle shingles = some (s, none) :=
  if_pos hthrows

/-- Whatever was processed can be stored in its place; what is sent is the same. -/
theorem exists_saveAndAsk {env : Env} {faults : Faults} {s t : System}
    {procArticle : ProcessedArticle} {shingles : SortedSet Int32}
    {result : Option (ProcessedArticle × Bool)} (hsaves : faults.saveThrows = false)
    (h : saveAndAsk env faults s procArticle shingles = some (t, result))
    (other : ProcessedArticle) :
    ∃ next answer, saveAndAsk env faults s other shingles = some (next, answer) ∧
      next.db = (saveArticle env.newOid s.db other).2 ∧
      ∀ message ∈ next.sent, message ∈ s.sent ∨ message = nextMessage env s shingles := by
  rcases saveAndAsk_cases h with ⟨hthrows, -, -⟩ | ⟨-, hdedup, -, -⟩ |
    ⟨-, hdedup, isDuplicate, dedup, hverdict, -, -⟩
  · rw [hsaves] at hthrows
    cases hthrows
  · refine ⟨{ s with db := (saveArticle env.newOid s.db other).2 }, none, ?_, rfl,
      fun message hmessage => Or.inl hmessage⟩
    rw [saveAndAsk, hsaves, hdedup]
    rfl
  · refine ⟨{ s with
      db := (saveArticle env.newOid s.db other).2
      dedup := dedup
      sent := s.sent ++ [nextMessage env s shingles] }, some ({ other with
        signature := MinHash.engine.computeSignature env.murmur shingles }, isDuplicate),
      ?_, rfl, ?_⟩
    · rw [saveAndAsk, hsaves, hdedup]
      show (s.dedup.isDuplicate env.hashCombine (nextMessage env s shingles)).bind _ = _
      rw [hverdict]
      rfl
    · intro message hmessage
      rw [List.mem_append, List.mem_singleton] at hmessage
      exact hmessage

theorem processArticle_of_not_valid {env : Env} {faults : Faults} {uninitialised : Signature}
    {articleStr : Bytes} {s : System} {article : Article}
    (hparse : parseFromXml env.readXml articleStr = some article)
    (hvalid : (validate env.text s.pipelineVocab article).1 = false) :
    processArticle env faults uninitialised articleStr s = some { s with
      db := saveInvalidUrl env.newOid s.db
        (validate env.text s.pipelineVocab article).2.1.metaData.url } := by
  rw [processArticle, hparse]
  exact if_neg (ne_true_of_eq_false hvalid)

/-- Where the text is that of a valid article, it is submitted, stored and asked about. -/
theorem processArticle_of_valid {env : Env} {faults : Faults} {uninitialised : Signature}
    {articleStr : Bytes} {s : System} {article : Article}
    (hparse : parseFromXml env.readXml articleStr = some article)
    (hvalid : (validate env.text s.pipelineVocab article).1 = true) :
    processArticle env faults uninitialised articleStr s =
      (submitArticle env.text uninitialised s.pipelineVocab
        (validate env.text s.pipelineVocab article).2.2
        (validate env.text s.pipelineVocab article).2.1).bind fun (vocab, procArticle, shingles) =>
      (saveAndAsk env faults { s with pipelineVocab := vocab } procArticle shingles).bind
        fun (s, result) =>
          match result with
          | some (_, false) => some { s with processedArticles := s.processedArticles + 1 }
          | _ => some s := by
  rw [processArticle, hparse]
  exact if_pos hvalid

/-- What handling a text does: nothing if it cannot be parsed, its address is stored
if it is that of an invalid article, and else it is submitted, stored and asked
about, and counted if it is new. -/
theorem processArticle_cases {env : Env} {faults : Faults} {uninitialised : Signature}
    {articleStr : Bytes} {s t : System}
    (h : processArticle env faults uninitialised articleStr s = some t) :
    t = s ∨ (∃ url, t = { s with db := saveInvalidUrl env.newOid s.db url }) ∨
    ∃ vocab procArticle shingles mid result,
      saveAndAsk env faults { s with pipelineVocab := vocab } procArticle shingles =
        some (mid, result) ∧
      (t = mid ∨ t = { mid with processedArticles := mid.processedArticles + 1 }) := by
  cases hparse : parseFromXml env.readXml articleStr with
  | none =>
      rw [processArticle, hparse] at h
      cases h
      exact Or.inl rfl
  | some article =>
      cases hvalid : (validate env.text s.pipelineVocab article).1 with
      | false =>
          rw [processArticle_of_not_valid hparse hvalid] at h
          cases h
          exact Or.inr (Or.inl ⟨_, rfl⟩)
      | true =>
          rw [processArticle_of_valid hparse hvalid] at h
          obtain ⟨⟨vocab, procArticle, shingles⟩, -, h⟩ := Option.bind_eq_some_iff.mp h
          obtain ⟨⟨mid, result⟩, hsave, h⟩ := Option.bind_eq_some_iff.mp h
          refine Or.inr (Or.inr ⟨vocab, procArticle, shingles, mid, result, hsave, ?_⟩)
          rcases result with _ | ⟨signed, isDuplicate⟩
          · cases h
            exact Or.inl rfl
          · cases isDuplicate with
            | true =>
                cases h
                exact Or.inl rfl
            | false =>
                cases h
                exact Or.inr rfl

/-! ## An engine over texts of short words -/

/-- `<article><url/><title/><date/><authors/><text>` -/
def letterXmlHead : Bytes :=
  [60, 97, 114, 116, 105, 99, 108, 101, 62, 60, 117, 114, 108, 47, 62, 60, 116, 105, 116,
    108, 101, 47, 62, 60, 100, 97, 116, 101, 47, 62, 60, 97, 117, 116, 104, 111, 114, 115,
    47, 62, 60, 116, 101, 120, 116, 62]

/-- `</text></article>` -/
def letterXmlTail : Bytes :=
  [60, 47, 116, 101, 120, 116, 62, 60, 47, 97, 114, 116, 105, 99, 108, 101, 62]

/-- The XML text of an article with a word for each letter and no other data. -/
def letterXml (letters : Bytes) : Bytes :=
  letterXmlHead ++ letterWords letters ++ letterXmlTail

/-- What the XML reader makes of such texts. -/
def readLetterXml (articleXml : Bytes) : Option Ptree :=
  if letterXmlHead.isPrefixOf articleXml && letterXmlTail.isSuffixOf articleXml then
    let text := articleXml.drop letterXmlHead.length
    some (.node [] [("article", .node [] [("url", .node [] []), ("title", .node [] []),
      ("date", .node [] []), ("authors", .node [] []),
      ("text", .node (text.take (text.length - letterXmlTail.length)) [])])])
  else none

/-- Library code for such articles. -/
def letterEnv : Env where
  text := letterText
  readXml := readLetterXml
  murmur elem seed := elem + Int32.ofNat seed
  hashCombine := manualHashCombine
  newOid count := fun _ => Fin.ofNat 256 count

/-- An engine with an empty database, just started. -/
def emptySystem : System where
  db := ⟨fun _ => [], 0⟩
  dedup := ⟨⟨signatureSize, bandSize, BucketTable.empty⟩⟩
  sent := []
  startupVocab := Vocabulary.fresh fun _ => 0
  pipelineVocab := Vocabulary.fresh fun _ => 0
  processedArticles := 0

end Unbiased
