/-
# The Porter2 stemmer

The stemming algorithm, after the copy of the library that the engine keeps beside its
other external code. Words are cut to letters and apostrophes, and suffixes are rewritten
step by step, each inside a region of the word that is fixed at the start. The engine is
linked with the library itself, which is not kept with it; the copy stands for it here.

Positions are natural numbers. Where the library subtracts from a size and wraps around,
it compares the result with the size and does nothing, and so does the difference of
natural numbers here, which is zero. Reading the last letter of an empty word has no
defined result; the empty word is left alone.
-/

import Unbiased.Scripts.XmlReader

namespace Unbiased

namespace Porter2Stemmer

/-- The byte of a letter. -/
def letter (ch : Char) : Fin 256 := Fin.ofNat 256 ch.toNat

/-- A suffix with what takes its place. -/
def sub (suffix replacement : String) : Bytes × Bytes := (ascii suffix, ascii replacement)

/-! ## Letters and suffixes -/

def isVowel (ch : Fin 256) : Bool := (ascii "eaiou").contains ch

def isVowelY (ch : Fin 256) : Bool := (ascii "eaiouy").contains ch

def isValidLIEnding (ch : Fin 256) : Bool := (ascii "cdeghkmnrt").contains ch

def endsWith (word : Bytes) (str : String) : Bool := (ascii str).isSuffixOf word

def endsInDouble (word : Bytes) : Bool :=
  match word.reverse with
  | a :: b :: _ => a = b && (ascii "bdfgmnprt").contains a
  | _ => false

/-- There is a vowel among the first letters. -/
def containsVowel (word : Bytes) (size : ℕ) : Bool := (word.take size).any isVowelY

/-- The word ends in a short syllable. -/
def isShort (word : Bytes) : Bool :=
  match word.reverse with
  | [second, first] => isVowelY first && !isVowelY second
  | last :: middle :: before :: _ =>
    !isVowelY before && isVowelY middle && !isVowelY last && last ≠ letter 'w' &&
      last ≠ letter 'x' && last ≠ letter 'Y'
  | _ => false

/-- Replace a suffix that begins at a position or later. -/
def replaceIfExists (word : Bytes) (suffix : Bytes × Bytes) (start : ℕ) : Option Bytes :=
  let idx := word.length - suffix.1.length
  if suffix.1.isSuffixOf word ∧ start ≤ idx then some (word.take idx ++ suffix.2) else none

/-- The first replacement of a list that can be made. -/
def replaceFirst (word : Bytes) (subs : List (Bytes × Bytes)) (start : ℕ) : Option Bytes :=
  subs.findSome? fun suffix => replaceIfExists word suffix start

/-! ## Regions -/

/-- The position after the first consonant that follows a vowel. -/
def firstNonVowelAfterVowel (word : Bytes) (start : ℕ) : ℕ :=
  if start = 0 then word.length
  else
    let found := (List.range' start (word.length - start)).find? fun i =>
      !isVowelY (word.getD i 0) && isVowelY (word.getD (i - 1) 0)
    match found with
    | some i => i + 1
    | none => word.length

def getStartR1 (word : Bytes) : ℕ :=
  if (ascii "gener").isPrefixOf word then 5
  else if (ascii "commun").isPrefixOf word then 6
  else if (ascii "arsen").isPrefixOf word then 5
  else firstNonVowelAfterVowel word 1

def getStartR2 (word : Bytes) (startR1 : ℕ) : ℕ :=
  if startR1 = word.length then startR1 else firstNonVowelAfterVowel word (startR1 + 1)

/-- Write `Y` for a `y` after a vowel, going on from a letter. The letter after a changed
one is skipped. -/
def changeYAfter (prev : Fin 256) (skip : Bool) : Bytes → Bytes
  | [] => []
  | ch :: rest =>
    if !skip && ch = letter 'y' && isVowel prev then
      letter 'Y' :: changeYAfter (letter 'Y') true rest
    else ch :: changeYAfter ch false rest

def changeY : Bytes → Bytes
  | [] => []
  | first :: rest =>
    let first := if first = letter 'y' then letter 'Y' else first
    first :: changeYAfter first false rest

/-! ## Steps -/

def step0 (word : Bytes) : Bytes :=
  (replaceFirst word [sub "'s'" "", sub "'s" "", sub "'" ""] 0).getD word

/-- Step 1a, and whether the word is finished after it. -/
def step1A (word : Bytes) : Bytes × Bool :=
  let word :=
    match replaceIfExists word (sub "sses" "ss") 0 with
    | some word => word
    | none =>
      if endsWith word "ied" || endsWith word "ies" then
        if word.length ≤ 4 then word.dropLast else word.dropLast.dropLast
      else if endsWith word "s" && !endsWith word "us" && !endsWith word "ss" then
        if 2 < word.length && containsVowel word (word.length - 2) then word.dropLast else word
      else word
  (word, (word.length = 6 ∨ word.length = 7) ∧
    word ∈ ["inning", "outing", "canning", "herring", "earring", "proceed", "exceed",
      "succeed"].map ascii)

def step1B (word : Bytes) (startR1 : ℕ) : Bytes :=
  if endsWith word "eedly" || endsWith word "eed" then
    (replaceFirst word [sub "eedly" "ee", sub "eed" "ee"] startR1).getD word
  else
    let deleted := ["ed", "edly", "ing", "ingly"].findSome? fun suffix =>
      if containsVowel word (word.length - suffix.length) then
        replaceIfExists word (sub suffix "") 0
      else none
    match deleted with
    | none => word
    | some word =>
      if endsWith word "at" || endsWith word "bl" || endsWith word "iz" then
        word ++ [letter 'e']
      else if endsInDouble word then word.dropLast
      else if startR1 = word.length && isShort word then word ++ [letter 'e']
      else word

def step1C (word : Bytes) : Bytes :=
  match word.reverse with
  | last :: before :: _ :: _ =>
    if (last = letter 'y' || last = letter 'Y') && !isVowel before then
      word.dropLast ++ [letter 'i']
    else word
  | _ => word

def step2 (word : Bytes) (startR1 : ℕ) : Bytes :=
  let subs := [sub "ational" "ate", sub "tional" "tion", sub "enci" "ence", sub "anci" "ance",
    sub "abli" "able", sub "entli" "ent", sub "izer" "ize", sub "ization" "ize",
    sub "ation" "ate", sub "ator" "ate", sub "alism" "al", sub "aliti" "al", sub "alli" "al",
    sub "fulness" "ful", sub "ousli" "ous", sub "ousness" "ous", sub "iveness" "ive",
    sub "iviti" "ive", sub "biliti" "ble", sub "bli" "ble", sub "fulli" "ful",
    sub "lessli" "less"]
  let longer := ["abli", "entli", "aliti", "alli", "ousli", "bli", "fulli", "lessli"]
  match replaceFirst word subs startR1 with
  | some word => word
  | none =>
    match replaceIfExists word (sub "logi" "log") (startR1 - 1) with
    | some word => word
    | none =>
      if endsWith word "li" && !longer.any (endsWith word) && 3 < word.length &&
          startR1 ≤ word.length - 2 && isValidLIEnding (word.getD (word.length - 3) 0) then
        word.dropLast.dropLast
      else word

def step3 (word : Bytes) (startR1 startR2 : ℕ) : Bytes :=
  let subs := [sub "ational" "ate", sub "tional" "tion", sub "alize" "al", sub "icate" "ic",
    sub "iciti" "ic", sub "ical" "ic", sub "ful" "", sub "ness" ""]
  match replaceFirst word subs startR1 with
  | some word => word
  | none => (replaceIfExists word (sub "ative" "") startR2).getD word

def step4 (word : Bytes) (startR2 : ℕ) : Bytes :=
  let subs := ["al", "ance", "ence", "er", "ic", "able", "ible", "ant", "ement", "ment", "ism",
    "ate", "iti", "ous", "ive", "ize"].map fun suffix => sub suffix ""
  match replaceFirst word subs startR2 with
  | some word => word
  | none =>
    let deleted :=
      if !endsWith word "ement" && !endsWith word "ment" then
        replaceIfExists word (sub "ent" "") startR2
      else none
    match deleted with
    | some word => word
    | none => (replaceFirst word [sub "sion" "s", sub "tion" "t"] (startR2 - 1)).getD word

def step5 (word : Bytes) (startR1 startR2 : ℕ) : Bytes :=
  match word.reverse with
  | [] => word
  | last :: before =>
    if last = letter 'e' then
      if startR2 ≤ word.length - 1 then word.dropLast
      else if startR1 ≤ word.length - 1 && !isShort word.dropLast then word.dropLast
      else word
    else if last = letter 'l' then
      if startR2 ≤ word.length - 1 && before.head? = some (letter 'l') then word.dropLast
      else word
    else word

/-! ## The stemmer -/

/-- Words with a stem of their own. -/
def exceptions : List (Bytes × Bytes) := [
  sub "skis" "ski", sub "skies" "sky", sub "dying" "die", sub "lying" "lie", sub "tying" "tie",
  sub "idly" "idl", sub "gently" "gentl", sub "ugly" "ugli", sub "early" "earli",
  sub "only" "onli", sub "singly" "singl"]

/-- The stem of a word that the steps are not made for. One of the words listed last is too
long to be found. -/
def special (word : Bytes) : Option Bytes :=
  match exceptions.lookup word with
  | some stem => some stem
  | none =>
    if 3 ≤ word.length ∧ word.length ≤ 5 ∧
        word ∈ ["sky", "news", "howe", "atlas", "cosmos", "bias", "andes"].map ascii then some word
    else none

/-- Sentence tags are neither trimmed nor stemmed. -/
def isTag (word : Bytes) : Bool := word = ascii "<s>" || word = ascii "</s>"

def replaceY (word : Bytes) : Bytes :=
  word.map fun ch => if ch = letter 'Y' then letter 'y' else ch

def stem (word : Bytes) : Bytes :=
  if word.length ≤ 2 || isTag word then word
  else
    let word := word.take 35
    let word := if word.head? = some 39 then word.tail else word
    match special word with
    | some stem => stem
    | none =>
      let word := changeY word
      let startR1 := getStartR1 word
      let startR2 := getStartR2 word startR1
      match step1A (step0 word) with
      | (word, true) => replaceY word
      | (word, false) =>
        let word := step2 (step1C (step1B word startR1)) startR1
        replaceY (step5 (step4 (step3 word startR1 startR2) startR2) startR1 startR2)

/-- `tolower` in the "C" locale. -/
def toLower (ch : Fin 256) : Fin 256 :=
  if 65 ≤ ch.val ∧ ch.val ≤ 90 then Fin.ofNat 256 (ch.val + 32) else ch

def trim (word : Bytes) : Bytes :=
  if isTag word then word
  else (word.map toLower).filter fun ch => (97 ≤ ch.val && ch.val ≤ 122) || ch = 39

/-- `trim_and_stem`. -/
def trimAndStem (token : Bytes) : Bytes := stem (trim token)

example : ["Running", "luxuriated", "cries", "generously", "hopefulness", "atlas", "cosmos"].map
    (fun word => trimAndStem (ascii word)) =
      ["run", "luxuri", "cri", "generous", "hope", "atlas", "cosmo"].map ascii := by
  decide +kernel

/-- The past form of a stop word has that word as its stem. -/
theorem trimAndStem_willed : trimAndStem (ascii "willed") = ascii "will" := by decide +kernel

end Porter2Stemmer

end Unbiased
