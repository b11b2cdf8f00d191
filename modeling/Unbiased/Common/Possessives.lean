/-
# Possessive endings

A possessive ending makes the regions of a word longer, but only where there is nothing to
replace once it is deleted. So a token has the same stem with such an ending and without it.

Two starts of a region agree below a length if they are equal or both past it. No step can
tell them apart in a word of that length.
-/

import Unbiased.Common.StemShape

namespace Unbiased

open Unbiased.Math

namespace Porter2Stemmer

/-- The starts of two regions are the same to words of at most some length. -/
def AgreeBelow (n first second : ℕ) : Prop := first = second ∨ n ≤ first ∧ n ≤ second

/-! ## Steps that agree -/

theorem replaceIfExists_eq_none {word : Bytes} {suffix : Bytes × Bytes} {start : ℕ}
    (h : word.length < start + suffix.1.length) : replaceIfExists word suffix start = none := by
  cases hreplaced : replaceIfExists word suffix start with
  | none => rfl
  | some result =>
      obtain ⟨kept, rfl, -, hstart⟩ := replaceIfExists_eq_some hreplaced
      rw [List.length_append] at h
      omega

section Agreement

variable {n startR1 startR2 first second : ℕ} {word : Bytes}

/-- Also if the start is moved back by less than the length of the suffix. -/
theorem replaceIfExists_sub_congr {suffix : Bytes × Bytes} {back : ℕ}
    (h : AgreeBelow n first second) (hword : word.length ≤ n) (hback : back < suffix.1.length) :
    replaceIfExists word suffix (first - back) = replaceIfExists word suffix (second - back) := by
  rcases h with rfl | ⟨hfirst, hsecond⟩
  · rfl
  · rw [replaceIfExists_eq_none (by omega), replaceIfExists_eq_none (by omega)]

theorem replaceIfExists_congr {suffix : Bytes × Bytes} (h : AgreeBelow n first second)
    (hword : word.length ≤ n) (hsuffix : 0 < suffix.1.length) :
    replaceIfExists word suffix first = replaceIfExists word suffix second :=
  replaceIfExists_sub_congr h hword hsuffix

theorem replaceFirst_sub_congr {subs : List (Bytes × Bytes)} {back : ℕ}
    (h : AgreeBelow n first second) (hword : word.length ≤ n)
    (hback : ∀ suffix ∈ subs, back < suffix.1.length) :
    replaceFirst word subs (first - back) = replaceFirst word subs (second - back) := by
  induction subs with
  | nil => rfl
  | cons suffix subs ih =>
      obtain ⟨hsuffix, hsubs⟩ := List.forall_mem_cons.mp hback
      rw [replaceFirst, replaceFirst, List.findSome?_cons, List.findSome?_cons,
        replaceIfExists_sub_congr h hword hsuffix, ← replaceFirst, ← replaceFirst, ih hsubs]

theorem replaceFirst_congr {subs : List (Bytes × Bytes)} (h : AgreeBelow n first second)
    (hword : word.length ≤ n) (hsubs : ∀ suffix ∈ subs, 0 < suffix.1.length) :
    replaceFirst word subs first = replaceFirst word subs second :=
  replaceFirst_sub_congr h hword hsubs

theorem le_iff_of_agreeBelow (h : AgreeBelow n first second) {idx : ℕ} (hidx : idx < n) :
    first ≤ idx ↔ second ≤ idx := by
  rcases h with rfl | ⟨hfirst, hsecond⟩
  · rfl
  · omega

theorem step1B_congr (h : AgreeBelow n first second) (hword : word.length ≤ n) :
    step1B word first = step1B word second := by
  unfold step1B
  split
  · rw [replaceFirst_congr h hword]
    decide
  · dsimp only
    split
    · rfl
    · rename_i result hdeleted
      obtain ⟨-, -, hshorter⟩ := deleted_shape (by decide) hdeleted
      have hstart : first = result.length ↔ second = result.length := by
        rcases h with rfl | ⟨hfirst, hsecond⟩
        · rfl
        · omega
      simp only [hstart]

theorem step2_congr (h : AgreeBelow n first second) (hne : word ≠ []) (hword : word.length ≤ n) :
    step2 word first = step2 word second := by
  have hlength := List.length_pos_iff.mpr hne
  have hli : first ≤ word.length - 2 ↔ second ≤ word.length - 2 :=
    le_iff_of_agreeBelow h (by omega)
  unfold step2
  dsimp only
  rw [replaceFirst_congr h hword, replaceIfExists_sub_congr h hword]
  · simp only [hli]
  · decide
  · decide

theorem step3_congr (hR1 : AgreeBelow n startR1 first) (hR2 : AgreeBelow n startR2 second)
    (hword : word.length ≤ n) : step3 word startR1 startR2 = step3 word first second := by
  unfold step3
  dsimp only
  rw [replaceFirst_congr hR1 hword]
  · split
    · rfl
    · rw [replaceIfExists_congr hR2 hword]
      decide
  · decide

theorem step4_congr (h : AgreeBelow n first second) (hword : word.length ≤ n) :
    step4 word first = step4 word second := by
  unfold step4
  dsimp only
  rw [replaceFirst_congr h hword, replaceIfExists_congr h hword, replaceFirst_sub_congr h hword]
  · decide
  · decide
  · decide

theorem step5_congr (hR1 : AgreeBelow n startR1 first) (hR2 : AgreeBelow n startR2 second)
    (hword : word.length ≤ n) : step5 word startR1 startR2 = step5 word first second := by
  unfold step5
  split
  · rfl
  · rename_i last before hreverse
    have hlength : word.length = before.length + 1 := by
      rw [← List.length_reverse, hreverse, List.length_cons]
    simp only [le_iff_of_agreeBelow hR1 (show word.length - 1 < n by omega),
      le_iff_of_agreeBelow hR2 (show word.length - 1 < n by omega)]

end Agreement

/-! ## Regions of a longer word -/

/-- A consonant after a vowel. -/
def turnsAt (word : Bytes) (idx : ℕ) : Bool :=
  !isVowelY (word.getD idx 0) && isVowelY (word.getD (idx - 1) 0)

/-- A region starts after the first consonant that follows a vowel, or nowhere. -/
theorem firstNonVowelAfterVowel_cases (word : Bytes) {start : ℕ} (hstart : 0 < start) :
    (∃ idx, start ≤ idx ∧ idx < word.length ∧ turnsAt word idx ∧
      (∀ j, start ≤ j → j < idx → turnsAt word j = false) ∧
      firstNonVowelAfterVowel word start = idx + 1) ∨
    ((∀ j, start ≤ j → j < word.length → turnsAt word j = false) ∧
      firstNonVowelAfterVowel word start = word.length) := by
  unfold firstNonVowelAfterVowel
  rw [if_neg hstart.ne']
  dsimp only
  split
  · rename_i idx hfound
    obtain ⟨hturns, hmem, hfirst⟩ := List.find?_range'_eq_some.mp hfound
    obtain ⟨hle, hlt⟩ := List.mem_range'_1.mp hmem
    left
    refine ⟨idx, hle, by omega, hturns, fun j hj hidx => ?_, rfl⟩
    have hnot := hfirst j hj hidx
    rwa [Bool.not_eq_true'] at hnot
  · rename_i hnone
    right
    refine ⟨fun j hj hlength => ?_, rfl⟩
    have hnot := List.find?_range'_eq_none.mp hnone j hj (by omega)
    rwa [Bool.not_eq_true'] at hnot

theorem turnsAt_append {word ending : Bytes} {idx : ℕ} (h : idx < word.length) :
    turnsAt (word ++ ending) idx = turnsAt word idx := by
  rw [turnsAt, turnsAt, List.getD_append _ _ _ _ h, List.getD_append _ _ _ _ (by omega)]

/-- The region of a longer word starts at the same letter, or past the shorter word. -/
theorem firstNonVowelAfterVowel_append (word : Bytes) {ending : Bytes} {start : ℕ}
    (hstart : 0 < start) :
    AgreeBelow word.length (firstNonVowelAfterVowel word start)
      (firstNonVowelAfterVowel (word ++ ending) start) := by
  have hlength : (word ++ ending).length = word.length + ending.length := List.length_append
  rcases firstNonVowelAfterVowel_cases word hstart with
    ⟨i, hi, hword, hturns, hfirst, heq⟩ | ⟨hnone, heq⟩
  · rcases firstNonVowelAfterVowel_cases (word ++ ending) hstart with
      ⟨j, hj, hlonger, hlongTurns, hlongFirst, hlongEq⟩ | ⟨hlongNone, -⟩
    · left
      rw [heq, hlongEq]
      rcases Nat.lt_trichotomy i j with hlt | rfl | hgt
      · have hnot := hlongFirst i hi hlt
        rw [turnsAt_append hword, hturns] at hnot
        cases hnot
      · rfl
      · rw [turnsAt_append (by omega), hfirst j hj hgt] at hlongTurns
        cases hlongTurns
    · have hnot := hlongNone i hi (by omega)
      rw [turnsAt_append hword, hturns] at hnot
      cases hnot
  · right
    rw [heq]
    refine ⟨le_rfl, ?_⟩
    rcases firstNonVowelAfterVowel_cases (word ++ ending) hstart with
      ⟨j, hj, hlonger, hlongTurns, -, hlongEq⟩ | ⟨-, hlongEq⟩
    · rw [hlongEq]
      by_contra hshort
      rw [turnsAt_append (by omega), hnone j hj (by omega)] at hlongTurns
      cases hlongTurns
    · omega

theorem lt_firstNonVowelAfterVowel (word : Bytes) {start : ℕ} (hstart : 0 < start) :
    start < firstNonVowelAfterVowel word start ∨
      firstNonVowelAfterVowel word start = word.length := by
  rcases firstNonVowelAfterVowel_cases word hstart with ⟨i, hi, -, -, -, heq⟩ | ⟨-, heq⟩
  · left
    omega
  · exact Or.inr heq

theorem firstNonVowelAfterVowel_le (word : Bytes) {start : ℕ} (hstart : 0 < start) :
    firstNonVowelAfterVowel word start ≤ word.length := by
  rcases firstNonVowelAfterVowel_cases word hstart with ⟨i, -, hword, -, -, heq⟩ | ⟨-, heq⟩
  · omega
  · exact heq.le

/-- A beginning without an apostrophe does not reach an ending that starts with one. -/
theorem isPrefixOf_append {pattern word rest : Bytes} (h : 39 ∉ pattern) :
    pattern.isPrefixOf (word ++ 39 :: rest) = pattern.isPrefixOf word := by
  induction pattern generalizing word with
  | nil => rfl
  | cons ch pattern ih =>
      rw [List.mem_cons, not_or] at h
      cases word with
      | nil =>
          rw [List.nil_append, List.isPrefixOf_cons_cons, beq_eq_false_iff_ne.mpr (Ne.symm h.1)]
          rfl
      | cons first word =>
          rw [List.cons_append, List.isPrefixOf_cons_cons, List.isPrefixOf_cons_cons, ih h.2]

theorem getStartR1_append (word rest : Bytes) :
    AgreeBelow word.length (getStartR1 word) (getStartR1 (word ++ 39 :: rest)) := by
  unfold getStartR1
  rw [isPrefixOf_append (by decide), isPrefixOf_append (by decide),
    isPrefixOf_append (by decide)]
  split
  · exact Or.inl rfl
  · split
    · exact Or.inl rfl
    · split
      · exact Or.inl rfl
      · exact firstNonVowelAfterVowel_append word one_pos

theorem getStartR1_le (word : Bytes) : getStartR1 word ≤ word.length := by
  unfold getStartR1
  split
  · rename_i hprefix
    exact (List.isPrefixOf_iff_prefix.mp hprefix).length_le
  · split
    · rename_i hprefix
      exact (List.isPrefixOf_iff_prefix.mp hprefix).length_le
    · split
      · rename_i hprefix
        exact (List.isPrefixOf_iff_prefix.mp hprefix).length_le
      · exact firstNonVowelAfterVowel_le word one_pos

theorem getStartR2_append {word ending : Bytes} {startR1 longStartR1 : ℕ}
    (h : AgreeBelow word.length startR1 longStartR1) (hle : startR1 ≤ word.length)
    (hending : ending ≠ []) :
    AgreeBelow word.length (getStartR2 word startR1) (getStartR2 (word ++ ending) longStartR1) := by
  have hlength : (word ++ ending).length = word.length + ending.length := List.length_append
  have hpos := List.length_pos_iff.mpr hending
  by_cases hpast : startR1 = word.length
  · right
    have hlong : word.length ≤ longStartR1 := by
      rcases h with heq | ⟨-, hlong⟩
      · omega
      · exact hlong
    rw [getStartR2, if_pos hpast, getStartR2]
    refine ⟨hpast.ge, ?_⟩
    split
    · exact hlong
    · rcases lt_firstNonVowelAfterVowel (word ++ ending) (Nat.add_one_pos longStartR1) with
        hlt | heq
      · omega
      · omega
  · obtain rfl : startR1 = longStartR1 := by
      rcases h with heq | ⟨hshort, -⟩
      · exact heq
      · omega
    rw [getStartR2, if_neg hpast, getStartR2, if_neg (by omega)]
    exact firstNonVowelAfterVowel_append word (Nat.add_one_pos startR1)

/-! ## The first step -/

/-- A mark at the end is not where a word without one is. -/
theorem suffix_of_append_eq {word ending kept rest : Bytes} (hmark : 39 ∉ word)
    (h : word ++ ending = kept ++ 39 :: rest) : 39 :: rest <:+ ending := by
  rcases List.append_eq_append_iff.mp h with ⟨between, -, hending⟩ | ⟨between, hword, hrest⟩
  · exact ⟨between, hending.symm⟩
  · cases between with
    | nil =>
        rw [List.nil_append] at hrest
        rw [hrest]
    | cons ch between =>
        obtain ⟨rfl, -⟩ := List.cons.inj hrest
        exact absurd (hword ▸ List.mem_append_right _ List.mem_cons_self) hmark

/-- The endings that the first step deletes. -/
def possessives : List Bytes := ["'s'", "'s", "'"].map ascii

theorem replaceIfExists_possessive {word ending rest : Bytes} (hmark : 39 ∉ word)
    (h : ¬ 39 :: rest <:+ ending) :
    replaceIfExists (word ++ ending) (39 :: rest, []) 0 = none := by
  cases hreplaced : replaceIfExists (word ++ ending) (39 :: rest, []) 0 with
  | none => rfl
  | some result =>
      obtain ⟨kept, heq, -, -⟩ := replaceIfExists_eq_some hreplaced
      exact absurd (suffix_of_append_eq hmark heq) h

theorem replaceIfExists_append (word suffix : Bytes) :
    replaceIfExists (word ++ suffix) (suffix, []) 0 = some word := by
  unfold replaceIfExists
  dsimp only
  rw [List.length_append, Nat.add_sub_cancel, if_pos, List.append_nil, List.take_left]
  exact ⟨List.isSuffixOf_iff_suffix.mpr (List.suffix_append _ _), Nat.zero_le _⟩

/-- The first step as the three suffixes it tries. -/
theorem step0_eq (word : Bytes) :
    step0 word = (((replaceIfExists word ([39, 115, 39], []) 0).or
      ((replaceIfExists word ([39, 115], []) 0).or
        (replaceIfExists word ([39], []) 0))).getD word) := by
  have hsubs : [sub "'s'" "", sub "'s" "", sub "'" ""] =
      [([39, 115, 39], []), ([39, 115], []), ([39], [])] := by
    decide
  rw [step0, hsubs, replaceFirst]
  simp only [List.findSome?_cons, List.findSome?_nil]
  cases replaceIfExists word ([39, 115, 39], []) 0 with
  | some result => rfl
  | none =>
      cases replaceIfExists word ([39, 115], []) 0 with
      | some result => rfl
      | none =>
          cases replaceIfExists word ([39], []) 0 with
          | some result => rfl
          | none => rfl

theorem step0_append {word ending : Bytes} (hmark : 39 ∉ word) (hending : ending ∈ possessives) :
    step0 (word ++ ending) = word := by
  have hpossessives : possessives = [[39, 115, 39], [39, 115], [39]] := by decide
  rw [hpossessives] at hending
  simp only [List.mem_cons, List.not_mem_nil, or_false] at hending
  rw [step0_eq]
  rcases hending with rfl | rfl | rfl
  · rw [replaceIfExists_append]
    rfl
  · rw [replaceIfExists_possessive hmark (by decide), replaceIfExists_append]
    rfl
  · rw [replaceIfExists_possessive hmark (by decide),
      replaceIfExists_possessive hmark (by decide), replaceIfExists_append]
    rfl

theorem step0_of_notMem {word : Bytes} (hmark : 39 ∉ word) : step0 word = word := by
  have hnone : ∀ rest, replaceIfExists word (39 :: rest, []) 0 = none := by
    intro rest
    rw [← List.append_nil word]
    exact replaceIfExists_possessive hmark (by simp)
  rw [step0_eq, hnone, hnone, hnone]
  rfl

/-! ## The whole word -/

theorem changeYAfter_of_notMem (prev : Fin 256) (skip : Bool) {word : Bytes}
    (h : letter 'y' ∉ word) : changeYAfter prev skip word = word := by
  induction word generalizing prev skip with
  | nil => rfl
  | cons ch rest ih =>
      rw [List.mem_cons, not_or] at h
      rw [changeYAfter, if_neg, ih _ _ h.2]
      simp [Ne.symm h.1]

theorem changeYAfter_append (prev : Fin 256) (skip : Bool) (word : Bytes) {ending : Bytes}
    (h : letter 'y' ∉ ending) :
    changeYAfter prev skip (word ++ ending) = changeYAfter prev skip word ++ ending := by
  induction word generalizing prev skip with
  | nil => exact changeYAfter_of_notMem prev skip h
  | cons ch rest ih =>
      rw [List.cons_append, changeYAfter, changeYAfter]
      split
      · rw [ih, List.cons_append]
      · rw [ih, List.cons_append]

theorem changeY_append {word : Bytes} (hne : word ≠ []) {ending : Bytes}
    (h : letter 'y' ∉ ending) : changeY (word ++ ending) = changeY word ++ ending := by
  cases word with
  | nil => exact absurd rfl hne
  | cons first rest =>
      rw [List.cons_append, changeY, changeY, changeYAfter_append _ _ _ h, List.cons_append]

/-- The steps after the first do not tell regions apart that agree. -/
theorem steps_congr {word stemmed : Bytes} {startR1 startR2 first second : ℕ}
    (h : Stems 0 word stemmed) (hR1 : AgreeBelow word.length startR1 first)
    (hR2 : AgreeBelow word.length startR2 second) (hfirst : 0 < first) (hsecond : 0 < second) :
    step5 (step4 (step3 (step2 (step1C (step1B stemmed startR1)) startR1) startR1 startR2)
        startR2) startR1 startR2 =
      step5 (step4 (step3 (step2 (step1C (step1B stemmed first)) first) first second) second)
        first second := by
  have h1C := (h.step1B hfirst).step1C
  have h2 := h1C.step2 hfirst
  have h3 := h2.step3 hfirst hsecond
  have h4 := h3.step4 hsecond
  rw [step1B_congr hR1 h.length, step2_congr hR1 h1C.ne_nil h1C.length,
    step3_congr hR1 hR2 h2.stems.length, step4_congr hR2 h3.stems.length,
    step5_congr hR1 hR2 h4.stems.length]

/-- No word with a mark has a stem of its own. -/
theorem special_of_mem {word : Bytes} (h : 39 ∈ word) : special word = none := by
  unfold special
  have hexceptions : ∀ entry ∈ exceptions, 39 ∉ entry.1 := by decide
  have hinvariants : ∀ other ∈ ["sky", "news", "howe", "atlas", "cosmos", "bias",
      "andes"].map ascii, 39 ∉ other := by
    decide
  split
  · rename_i stem hlookup
    obtain ⟨before, after, heq, -⟩ := List.lookup_eq_some_iff.mp hlookup
    have hmem : (word, stem) ∈ exceptions := heq ▸ List.mem_append_right _ List.mem_cons_self
    exact absurd h (hexceptions _ hmem)
  · rw [if_neg]
    rintro ⟨-, -, hmem⟩
    exact absurd h (hinvariants _ hmem)

theorem body_of_head {word : Bytes} (hlength : word.length ≤ 35) (hhead : word.head? ≠ some 39) :
    body word = word := by
  rw [body, List.take_of_length_le hlength, if_neg hhead]

/-- What is done to a word without a tag, a stem of its own or an apostrophe at its
beginning. -/
theorem stem_eq {word : Bytes} (hlong : 2 < word.length) (hshort : word.length ≤ 35)
    (htag : isTag word = false) (hhead : word.head? ≠ some 39) (hspecial : special word = none) :
    stem word =
      match step1A (step0 (changeY word)) with
      | (stemmed, true) => replaceY stemmed
      | (stemmed, false) =>
        let startR1 := getStartR1 (changeY word)
        let startR2 := getStartR2 (changeY word) startR1
        let stemmed := step2 (step1C (step1B stemmed startR1)) startR1
        replaceY (step5 (step4 (step3 stemmed startR1 startR2) startR2) startR1 startR2) := by
  rw [stem, if_neg]
  · dsimp only
    rw [← body, body_of_head hshort hhead]
    split
    · rename_i hother
      cases hspecial.symm.trans hother
    · rfl
  · rw [htag, Bool.or_false, decide_eq_true_eq]
    omega

theorem notMem_changeY {word : Bytes} (hletters : ∀ ch ∈ word, isLetter ch) (hmark : 39 ∉ word) :
    39 ∉ changeY word := by
  intro hmem
  rw [← replaceY_changeY hletters] at hmark
  exact hmark (List.mem_map.mpr ⟨39, hmem, by decide⟩)

theorem possessive_forms : ∀ ending ∈ possessives, letter 'y' ∉ ending ∧
    (∀ ch ∈ ending, isLetter ch) ∧ ending = 39 :: ending.tail := by
  decide +kernel

/-- **Possessives have the same stem.** As words of letters. -/
theorem stem_append {word ending : Bytes} (hletters : ∀ ch ∈ word, isLetter ch)
    (hmark : 39 ∉ word) (hlong : 2 < word.length) (hshort : (word ++ ending).length ≤ 35)
    (hspecial : special word = none) (hending : ending ∈ possessives) :
    stem (word ++ ending) = stem word := by
  obtain ⟨hy, hendingLetters, hform⟩ := possessive_forms ending hending
  have hne : word ≠ [] := List.length_pos_iff.mp (by omega)
  have hbothLetters : ∀ ch ∈ word ++ ending, isLetter ch := by
    intro ch hch
    rcases List.mem_append.mp hch with hword | hlast
    · exact hletters ch hword
    · exact hendingLetters ch hlast
  have hhead : word.head? ≠ some 39 := fun h => hmark (List.mem_of_head? h)
  have hbothHead : (word ++ ending).head? ≠ some 39 := by
    rwa [List.head?_append_of_ne_nil _ hne]
  have hbothSpecial : special (word ++ ending) = none := by
    apply special_of_mem
    rw [hform]
    exact List.mem_append_right _ List.mem_cons_self
  have hlength : (word ++ ending).length = word.length + ending.length := List.length_append
  rw [stem_eq hlong (by omega) (isTag_eq_false hletters) hhead hspecial,
    stem_eq (by omega) hshort (isTag_eq_false hbothLetters) hbothHead hbothSpecial,
    changeY_append hne hy]
  -- the first step deletes the ending, and what is left is the word with longer regions
  have hmarkY := notMem_changeY hletters hmark
  rw [step0_append hmarkY hending, step0_of_notMem hmarkY]
  have hword : changeY word ≠ [] := by
    rw [← List.length_pos_iff, length_changeY]
    omega
  have hstart : Stems 0 (changeY word) (changeY word) :=
    ⟨hword, isWritten_of_replaceY (by rwa [replaceY_changeY hletters]), le_rfl,
      BeginsAllBut.of_prefix List.prefix_rfl⟩
  have hR1 : AgreeBelow (changeY word).length (getStartR1 (changeY word))
      (getStartR1 (changeY word ++ ending)) := by
    rw [hform]
    exact getStartR1_append _ _
  have hR2 := getStartR2_append hR1 (getStartR1_le _)
    (List.ne_nil_of_mem (hform ▸ List.mem_cons_self) : ending ≠ [])
  have hboth : changeY word ++ ending ≠ [] := List.append_ne_nil_of_left_ne_nil hword _
  have hpos := getStartR1_pos hboth
  split
  · rfl
  · rename_i stemmed hnext
    have hfirst := hstart.step1A
    rw [hnext] at hfirst
    exact congrArg replaceY
      (steps_congr hfirst hR1 hR2 hpos (getStartR2_pos hboth hpos)).symm

/-! ## Tokens -/

theorem trim_append_possessive {token ending : Bytes} (htag : isTag token = false)
    (hending : ending ∈ possessives) : trim (token ++ ending) = trim token ++ ending := by
  have htrimmed : ∀ ending ∈ possessives, (ending.map toLower).filter
      (fun ch => (97 ≤ ch.val && ch.val ≤ 122) || ch = 39) = ending := by
    decide
  have hlast : ∀ ending ∈ possessives, ∀ tag ∈ [ascii "<s>", ascii "</s>"],
      ending.getLast? ≠ tag.getLast? := by
    decide
  have hbothTag : isTag (token ++ ending) = false := by
    rw [← Bool.not_eq_true]
    intro hboth
    have hne : ending ≠ [] := fun hnil => by
      rw [hnil] at hending
      exact absurd hending (by decide)
    have hmem : token ++ ending ∈ [ascii "<s>", ascii "</s>"] := by
      rcases eq_of_isTag hboth with heq | heq
      · rw [heq]
        exact List.mem_cons_self
      · rw [heq]
        exact List.mem_cons_of_mem _ List.mem_cons_self
    apply hlast ending hending _ hmem
    rw [List.getLast?_append_of_ne_nil _ hne]
  rw [trim, hbothTag, trim, htag, if_neg Bool.false_ne_true, if_neg Bool.false_ne_true,
    List.map_append, List.filter_append, htrimmed ending hending]

theorem notMem_trim {token : Bytes} (hmark : 39 ∉ token) : 39 ∉ trim token := by
  intro hmem
  unfold trim at hmem
  split at hmem
  · exact hmark hmem
  · obtain ⟨ch, hch, hlower⟩ := List.mem_map.mp (List.mem_filter.mp hmem).1
    have hmarks : ∀ ch, toLower ch = 39 → ch = 39 := by decide +kernel
    exact hmark (hmarks ch hlower ▸ hch)

/-- **Possessives have the same stem.** A token without an apostrophe, of which trimming
leaves at least three letters and not too many, has the same stem with a possessive ending,
unless it has a stem of its own. -/
theorem trimAndStem_append_possessive {token ending : Bytes} (htag : isTag token = false)
    (hmark : 39 ∉ token) (hlong : 2 < (trim token).length)
    (hshort : (trim token ++ ending).length ≤ 35) (hspecial : special (trim token) = none)
    (hending : ending ∈ possessives) : trimAndStem (token ++ ending) = trimAndStem token := by
  rw [trimAndStem, trim_append_possessive htag hending, trimAndStem]
  exact stem_append (isLetter_of_mem_trim htag) (notMem_trim hmark) hlong hshort hspecial hending

theorem trimAndStem_owners :
    trimAndStem (ascii "Owners" ++ ascii "'") = trimAndStem (ascii "Owners") :=
  trimAndStem_append_possessive (by decide) (by decide) (by decide)
    (by decide) (by decide) (by decide)

end Porter2Stemmer

end Unbiased
