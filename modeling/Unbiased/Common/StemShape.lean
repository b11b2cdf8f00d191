/-
# What the stemmer leaves of a word

Each step replaces a suffix by one that is no longer and that differs from the suffix, if
it is not a beginning of it, in the last letter only. One rule is different, and its result
loses the letter too many in the last step. So a stem is a word of letters, no longer than
the word it was made from, and with all but its last letter it begins that word.

Every rule is checked by evaluation. The steps then follow from what one replacement does.
-/

import Unbiased.Common.Porter2Stemmer
import Unbiased.Math.Beginnings

namespace Unbiased

open Unbiased.Math

namespace Porter2Stemmer

/-- What `trim` keeps of a word. -/
def isLetter (ch : Fin 256) : Bool := (97 ≤ ch.val && ch.val ≤ 122) || ch = 39

/-- A letter, or the mark of a `y` that is read as a consonant. -/
def isWritten (ch : Fin 256) : Bool := isLetter ch || ch = letter 'Y'

/-- What the steps keep of a word that is not empty. -/
structure Stems (n : ℕ) (word stemmed : Bytes) : Prop where
  ne_nil : stemmed ≠ []
  written : ∀ ch ∈ stemmed, isWritten ch
  length : stemmed.length ≤ word.length
  begins : BeginsAllBut n stemmed word

/-! ## One replacement -/

theorem replaceIfExists_eq_some {word result : Bytes} {suffix : Bytes × Bytes} {start : ℕ}
    (h : replaceIfExists word suffix start = some result) :
    ∃ kept, word = kept ++ suffix.1 ∧ result = kept ++ suffix.2 ∧ start ≤ kept.length := by
  unfold replaceIfExists at h
  dsimp only at h
  split at h
  · rename_i hends
    cases h
    obtain ⟨kept, rfl⟩ := List.isSuffixOf_iff_suffix.mp hends.1
    have hstart := hends.2
    rw [List.length_append, Nat.add_sub_cancel] at hstart ⊢
    exact ⟨kept, rfl, by rw [List.take_left], hstart⟩
  · cases h

theorem replaceFirst_eq_some {word result : Bytes} {subs : List (Bytes × Bytes)} {start : ℕ}
    (h : replaceFirst word subs start = some result) :
    ∃ suffix ∈ subs, replaceIfExists word suffix start = some result :=
  List.exists_of_findSome?_eq_some h

/-- The rule keeps the shape of a word, and how much of it is a beginning. -/
def RuleKeeps (m n : ℕ) (suffix : Bytes × Bytes) : Prop :=
  m ≤ suffix.1.length ∧ suffix.2.length ≤ suffix.1.length ∧
    suffix.2.all isWritten ∧
    BeginsAllBut n suffix.2 (suffix.1.take (suffix.1.length - m))

instance (m n : ℕ) (suffix : Bytes × Bytes) : Decidable (RuleKeeps m n suffix) :=
  inferInstanceAs (Decidable (_ ∧ _))

namespace Stems

variable {m n : ℕ} {word stemmed result : Bytes} {suffix : Bytes × Bytes} {start : ℕ}

theorem mono (h : Stems m word stemmed) (hmn : m ≤ n) : Stems n word stemmed :=
  ⟨h.ne_nil, h.written, h.length, h.begins.mono hmn⟩

theorem replaceIfExists (h : Stems m word stemmed) (hrule : RuleKeeps m n suffix)
    (hne : result ≠ [])
    (hresult : Porter2Stemmer.replaceIfExists stemmed suffix start = some result) :
    Stems n word result := by
  obtain ⟨kept, rfl, rfl, -⟩ := replaceIfExists_eq_some hresult
  obtain ⟨hm, hshorter, hwritten, hbegins⟩ := hrule
  have hlength := h.length
  rw [List.length_append] at hlength
  refine ⟨hne, fun ch hch => ?_, ?_, h.begins.replace hm hbegins⟩
  · rcases List.mem_append.mp hch with hkept | hnew
    · exact h.written ch (List.mem_append_left _ hkept)
    · exact List.all_eq_true.mp hwritten ch hnew
  · rw [List.length_append]
    omega

/-- A replacement inside a region leaves something. -/
theorem replaceFirst {subs : List (Bytes × Bytes)} (h : Stems m word stemmed)
    (hrules : ∀ suffix ∈ subs, RuleKeeps m n suffix)
    (hstart : 0 < start ∨ ∀ suffix ∈ subs, suffix.2 ≠ [])
    (hresult : Porter2Stemmer.replaceFirst stemmed subs start = some result) :
    Stems n word result := by
  obtain ⟨suffix, hmem, hreplaced⟩ := replaceFirst_eq_some hresult
  refine h.replaceIfExists (hrules suffix hmem) ?_ hreplaced
  obtain ⟨kept, -, rfl, hkept⟩ := replaceIfExists_eq_some hreplaced
  rcases hstart with hpos | hne
  · exact List.append_ne_nil_of_left_ne_nil (List.length_pos_iff.mp (by omega)) _
  · exact List.append_ne_nil_of_right_ne_nil _ (hne suffix hmem)

/-- The last letter goes, and something is left. -/
theorem dropLast (h : Stems (n + 1) word stemmed) (hlength : 2 ≤ stemmed.length) :
    Stems n word stemmed.dropLast where
  ne_nil := by
    rw [← List.length_pos_iff, List.length_dropLast]
    omega
  written ch hch := h.written ch (List.dropLast_subset _ hch)
  length := by
    rw [List.length_dropLast]
    exact (Nat.sub_le _ _).trans h.length
  begins := h.begins.dropLast

theorem of_prefix (h : Stems 0 word stemmed) (hne : result ≠ []) (hbegins : result <+: stemmed) :
    Stems 0 word result where
  ne_nil := hne
  written ch hch := h.written ch (hbegins.subset hch)
  length := hbegins.length_le.trans h.length
  begins := BeginsAllBut.of_prefix (hbegins.trans (BeginsAllBut.zero_iff.mp h.begins))

/-- A letter is added. -/
theorem concat (h : Stems 0 word stemmed) (hlength : stemmed.length < word.length) {ch : Fin 256}
    (hch : isWritten ch) : Stems 1 word (stemmed ++ [ch]) where
  ne_nil := List.concat_ne_nil ch stemmed
  written other hother := by
    rcases List.mem_append.mp hother with hold | hnew
    · exact h.written other hold
    · rwa [List.mem_singleton.mp hnew]
  length := by
    rw [List.length_append, List.length_singleton]
    exact hlength
  begins := by
    rw [BeginsAllBut.one_iff, List.dropLast_concat]
    exact BeginsAllBut.zero_iff.mp h.begins

end Stems

/-! ## The steps -/

theorem length_of_endsWith {word : Bytes} {str : String} (h : endsWith word str = true) :
    (ascii str).length ≤ word.length :=
  (List.isSuffixOf_iff_suffix.mp h).length_le

/-- The first step takes letters away from the end. -/
theorem step1A_beginning (word : Bytes) : (step1A word).1 <+: word := by
  unfold step1A
  dsimp only
  split
  · rename_i result hreplaced
    obtain ⟨kept, rfl, rfl, -⟩ := replaceIfExists_eq_some hreplaced
    exact (List.prefix_append_right_inj kept).mpr (by decide)
  · split
    · split
      · exact List.dropLast_prefix _
      · exact (List.dropLast_prefix _).trans (List.dropLast_prefix _)
    · split
      · split
        · exact List.dropLast_prefix _
        · exact List.prefix_rfl
      · exact List.prefix_rfl

theorem step1A_ne_nil {word : Bytes} (h : word ≠ []) : (step1A word).1 ≠ [] := by
  unfold step1A
  dsimp only
  split
  · rename_i result hreplaced
    obtain ⟨kept, -, rfl, -⟩ := replaceIfExists_eq_some hreplaced
    exact List.append_ne_nil_of_right_ne_nil _ (by decide)
  · split
    · rename_i hends
      have hlength : 3 ≤ word.length := by
        rcases Bool.or_eq_true_iff.mp hends with hied | hies
        · exact length_of_endsWith hied
        · exact length_of_endsWith hies
      split
      · rw [← List.length_pos_iff, List.length_dropLast]
        omega
      · rw [← List.length_pos_iff, List.length_dropLast, List.length_dropLast]
        omega
    · split
      · split
        · rename_i hlong
          rw [Bool.and_eq_true, decide_eq_true_eq] at hlong
          rw [← List.length_pos_iff, List.length_dropLast]
          omega
        · exact h
      · exact h

theorem Stems.step1A {word stemmed : Bytes} (h : Stems 0 word stemmed) :
    Stems 0 word (step1A stemmed).1 :=
  h.of_prefix (step1A_ne_nil h.ne_nil) (step1A_beginning stemmed)

theorem pos_of_containsVowel {word : Bytes} {size : ℕ} (h : containsVowel word size = true) :
    0 < size := by
  rw [pos_iff_ne_zero]
  rintro rfl
  rw [containsVowel, List.take_zero] at h
  cases h

/-- What is left of a word with a vowel when an ending is deleted. -/
theorem deleted_shape {word result : Bytes} {suffixes : List String}
    (hlong : ∀ suffix ∈ suffixes, 2 ≤ (ascii suffix).length ∧ suffix.length = (ascii suffix).length)
    (h : (suffixes.findSome? fun suffix =>
      if containsVowel word (word.length - suffix.length) then
        replaceIfExists word (sub suffix "") 0
      else none) = some result) :
    result <+: word ∧ result ≠ [] ∧ result.length + 2 ≤ word.length := by
  obtain ⟨suffix, hmem, hdeleted⟩ := List.exists_of_findSome?_eq_some h
  obtain ⟨htwo, hsame⟩ := hlong suffix hmem
  split at hdeleted
  · rename_i hvowel
    obtain ⟨kept, rfl, rfl, -⟩ := replaceIfExists_eq_some hdeleted
    have hpos := pos_of_containsVowel hvowel
    rw [sub, List.length_append, hsame, Nat.add_sub_cancel] at hpos
    have hnone : (sub suffix "").2 = [] := rfl
    rw [hnone, List.append_nil]
    refine ⟨List.prefix_append _ _, List.length_pos_iff.mp hpos, ?_⟩
    rw [List.length_append]
    exact Nat.add_le_add_left htwo _
  · cases hdeleted

theorem Stems.step1B {word stemmed : Bytes} {startR1 : ℕ} (h : Stems 0 word stemmed)
    (hstart : 0 < startR1) : Stems 1 word (step1B stemmed startR1) := by
  unfold Porter2Stemmer.step1B
  split
  · cases hreplaced : Porter2Stemmer.replaceFirst stemmed
      [sub "eedly" "ee", sub "eed" "ee"] startR1 with
    | none => exact h.mono (Nat.zero_le 1)
    | some result => exact h.replaceFirst (by decide) (Or.inl hstart) hreplaced
  · dsimp only
    split
    · exact h.mono (Nat.zero_le 1)
    · rename_i result hdeleted
      obtain ⟨hbegins, hne, hlength⟩ := deleted_shape (by decide) hdeleted
      have hresult := h.of_prefix hne hbegins
      have hshorter : result.length < word.length := by
        have := h.length
        omega
      split
      · exact hresult.concat hshorter (by decide)
      · split
        · rename_i hdouble
          apply (hresult.mono (Nat.zero_le 2)).dropLast
          unfold endsInDouble at hdouble
          split at hdouble
          · rename_i first second rest hreverse
            rw [← List.length_reverse, hreverse]
            exact Nat.le_add_left 2 _
          · cases hdouble
        · split
          · exact hresult.concat hshorter (by decide)
          · exact hresult.mono (Nat.zero_le 1)

/-- A final `y` becomes `i`. -/
theorem Stems.step1C {word stemmed : Bytes} (h : Stems 1 word stemmed) :
    Stems 1 word (step1C stemmed) := by
  unfold Porter2Stemmer.step1C
  split
  · rename_i last before third rest hreverse
    split
    · have hlength := h.length
      have hlong : 3 ≤ stemmed.length := by
        rw [← List.length_reverse, hreverse]
        exact Nat.le_add_left 3 _
      have hbegins : stemmed.dropLast <+: word := BeginsAllBut.one_iff.mp h.begins
      have hshorter := @List.length_dropLast _ stemmed
      apply Stems.concat _ _ (by decide)
      · exact ⟨List.length_pos_iff.mp (by omega),
          fun ch hch => h.written ch (List.dropLast_subset _ hch), hbegins.length_le,
          BeginsAllBut.of_prefix hbegins⟩
      · omega
    · exact h
  · exact h

/-- The word ends in `ble`, the ending of the only rule that changes two letters, in the
first region. -/
def EndsInBle (startR1 : ℕ) (word : Bytes) : Prop :=
  ∃ kept, word = kept ++ ascii "ble" ∧ startR1 ≤ kept.length

/-- What the second step and those after it keep. -/
def StemsOrBle (startR1 : ℕ) (word stemmed : Bytes) : Prop :=
  Stems 1 word stemmed ∨ Stems 2 word stemmed ∧ EndsInBle startR1 stemmed

namespace StemsOrBle

variable {word stemmed result : Bytes} {startR1 : ℕ}

theorem stems (h : StemsOrBle startR1 word stemmed) : Stems 2 word stemmed := by
  rcases h with hone | htwo
  · exact hone.mono (Nat.le_succ 1)
  · exact htwo.1

theorem replaceFirst {subs : List (Bytes × Bytes)} {start : ℕ}
    (h : StemsOrBle startR1 word stemmed) (hrules : ∀ suffix ∈ subs, RuleKeeps 2 1 suffix)
    (hstart : 0 < start ∨ ∀ suffix ∈ subs, suffix.2 ≠ [])
    (hresult : Porter2Stemmer.replaceFirst stemmed subs start = some result) :
    StemsOrBle startR1 word result :=
  Or.inl (h.stems.replaceFirst hrules hstart hresult)

/-- All rules of the second step but one change the last letter only. -/
theorem of_rules {subs : List (Bytes × Bytes)} (h : Stems 1 word stemmed)
    (hrules : ∀ suffix ∈ subs, RuleKeeps 1 1 suffix ∨ suffix = sub "biliti" "ble")
    (hstart : 0 < startR1)
    (hresult : Porter2Stemmer.replaceFirst stemmed subs startR1 = some result) :
    StemsOrBle startR1 word result := by
  obtain ⟨suffix, hmem, hreplaced⟩ := replaceFirst_eq_some hresult
  obtain ⟨kept, -, hkept, hregion⟩ := replaceIfExists_eq_some hreplaced
  have hne : result ≠ [] := by
    rw [hkept]
    exact List.append_ne_nil_of_left_ne_nil (List.length_pos_iff.mp (by omega)) _
  rcases hrules suffix hmem with hkeeps | rfl
  · exact Or.inl (h.replaceIfExists hkeeps hne hreplaced)
  · exact Or.inr ⟨h.replaceIfExists (by decide) hne hreplaced, kept, hkept, hregion⟩

end StemsOrBle

theorem Stems.step2 {word stemmed : Bytes} {startR1 : ℕ} (h : Stems 1 word stemmed)
    (hstart : 0 < startR1) : StemsOrBle startR1 word (step2 stemmed startR1) := by
  unfold Porter2Stemmer.step2
  dsimp only
  split
  · rename_i result hreplaced
    exact StemsOrBle.of_rules h (by decide) hstart hreplaced
  · left
    split
    · rename_i result hreplaced
      apply h.replaceIfExists (by decide) _ hreplaced
      obtain ⟨kept, -, rfl, -⟩ := replaceIfExists_eq_some hreplaced
      exact List.append_ne_nil_of_right_ne_nil _ (by decide)
    · split
      · rename_i hli
        simp only [Bool.and_eq_true, decide_eq_true_eq] at hli
        have hlong : 3 < stemmed.length := hli.1.1.2
        apply (Stems.dropLast (h.mono (Nat.le_add_right 1 2)) (by omega)).dropLast
        rw [List.length_dropLast]
        omega
      · exact h

theorem StemsOrBle.step3 {word stemmed : Bytes} {startR1 startR2 : ℕ}
    (h : StemsOrBle startR1 word stemmed) (hR1 : 0 < startR1) (hR2 : 0 < startR2) :
    StemsOrBle startR1 word (step3 stemmed startR1 startR2) := by
  unfold Porter2Stemmer.step3
  dsimp only
  split
  · rename_i result hreplaced
    exact h.replaceFirst (by decide) (Or.inl hR1) hreplaced
  · cases hreplaced : replaceIfExists stemmed (sub "ative" "") startR2 with
    | none => exact h
    | some result =>
        left
        apply h.stems.replaceIfExists (by decide) _ hreplaced
        obtain ⟨kept, -, rfl, hregion⟩ := replaceIfExists_eq_some hreplaced
        exact List.append_ne_nil_of_left_ne_nil (List.length_pos_iff.mp (by omega)) _

theorem StemsOrBle.step4 {word stemmed : Bytes} {startR1 startR2 : ℕ}
    (h : StemsOrBle startR1 word stemmed) (hR2 : 0 < startR2) :
    StemsOrBle startR1 word (step4 stemmed startR2) := by
  unfold Porter2Stemmer.step4
  dsimp only
  split
  · rename_i result hreplaced
    exact h.replaceFirst (by decide) (Or.inl hR2) hreplaced
  · split
    · rename_i result hdeleted
      split at hdeleted
      · left
        apply h.stems.replaceIfExists (by decide) _ hdeleted
        obtain ⟨kept, -, rfl, hregion⟩ := replaceIfExists_eq_some hdeleted
        exact List.append_ne_nil_of_left_ne_nil (List.length_pos_iff.mp (by omega)) _
      · cases hdeleted
    · cases hreplaced : Porter2Stemmer.replaceFirst stemmed
        [sub "sion" "s", sub "tion" "t"] (startR2 - 1) with
      | none => exact h
      | some result =>
          exact h.replaceFirst (by decide) (Or.inr (by decide)) hreplaced

/-- No word that ends in `bl` ends in a short syllable. -/
theorem isShort_append_bl (kept : Bytes) : isShort (kept ++ ascii "bl") = false := by
  have hreverse : (kept ++ ascii "bl").reverse = letter 'l' :: letter 'b' :: kept.reverse :=
    List.reverse_append
  rw [isShort, hreverse]
  cases kept.reverse with
  | nil => decide
  | cons before rest =>
      have hconsonant : isVowelY (letter 'b') = false := by decide
      simp [hconsonant]

theorem StemsOrBle.step5 {word stemmed : Bytes} {startR1 startR2 : ℕ}
    (h : StemsOrBle startR1 word stemmed) (hR1 : 0 < startR1) (hR2 : 0 < startR2) :
    Stems 1 word (step5 stemmed startR1 startR2) := by
  rcases h with hone | ⟨htwo, kept, rfl, hregion⟩
  · unfold Porter2Stemmer.step5
    split
    · exact hone
    · split
      · split
        · exact (hone.mono (Nat.le_succ 1)).dropLast (by omega)
        · split
          · rename_i hlast
            rw [Bool.and_eq_true, decide_eq_true_eq] at hlast
            exact (hone.mono (Nat.le_succ 1)).dropLast (by omega)
          · exact hone
      · split
        · split
          · rename_i hlast
            rw [Bool.and_eq_true, decide_eq_true_eq] at hlast
            exact (hone.mono (Nat.le_succ 1)).dropLast (by omega)
          · exact hone
        · exact hone
  · have hlength : (kept ++ ascii "ble").length = kept.length + 3 := List.length_append
    have hstep : Porter2Stemmer.step5 (kept ++ ascii "ble") startR1 startR2 =
        (kept ++ ascii "ble").dropLast := by
      have hreverse : (kept ++ ascii "ble").reverse =
          letter 'e' :: letter 'l' :: letter 'b' :: kept.reverse := List.reverse_append
      have hdropLast : (kept ++ ascii "ble").dropLast = kept ++ ascii "bl" := by
        rw [List.dropLast_append_of_ne_nil (by decide)]
        rfl
      rw [Porter2Stemmer.step5, hreverse]
      dsimp only
      rw [if_pos rfl, hdropLast, isShort_append_bl, hlength]
      split
      · rfl
      · rw [if_pos]
        simp
        omega
    rw [hstep]
    exact htwo.dropLast (by omega)

/-! ## Regions and marks -/

theorem firstNonVowelAfterVowel_pos {word : Bytes} (h : word ≠ []) (start : ℕ) :
    0 < firstNonVowelAfterVowel word start := by
  have hlength := List.length_pos_iff.mpr h
  unfold firstNonVowelAfterVowel
  dsimp only
  split
  · exact hlength
  · split
    · exact Nat.succ_pos _
    · exact hlength

theorem getStartR1_pos {word : Bytes} (h : word ≠ []) : 0 < getStartR1 word := by
  unfold getStartR1
  split
  · decide
  · split
    · decide
    · split
      · decide
      · exact firstNonVowelAfterVowel_pos h 1

theorem getStartR2_pos {word : Bytes} (h : word ≠ []) {startR1 : ℕ} (hR1 : 0 < startR1) :
    0 < getStartR2 word startR1 := by
  unfold getStartR2
  split
  · exact hR1
  · exact firstNonVowelAfterVowel_pos h _

@[simp]
theorem length_changeYAfter (prev : Fin 256) (skip : Bool) (word : Bytes) :
    (changeYAfter prev skip word).length = word.length := by
  induction word generalizing prev skip with
  | nil => rfl
  | cons ch rest ih =>
      rw [changeYAfter]
      split
      · rw [List.length_cons, ih, List.length_cons]
      · rw [List.length_cons, ih, List.length_cons]

@[simp]
theorem length_changeY (word : Bytes) : (changeY word).length = word.length := by
  cases word with
  | nil => rfl
  | cons first rest => simp [changeY]

theorem replaceY_changeYAfter (prev : Fin 256) (skip : Bool) {word : Bytes}
    (h : ∀ ch ∈ word, isLetter ch) : replaceY (changeYAfter prev skip word) = word := by
  induction word generalizing prev skip with
  | nil => rfl
  | cons ch rest ih =>
      obtain ⟨hch, hrest⟩ := List.forall_mem_cons.mp h
      rw [changeYAfter]
      split
      · rename_i hy
        rw [replaceY, List.map_cons, if_pos rfl, ← replaceY, ih _ _ hrest]
        simp only [Bool.and_eq_true, decide_eq_true_eq] at hy
        rw [hy.1.2]
      · have hne : ch ≠ letter 'Y' := by
          rintro rfl
          exact absurd hch (by decide)
        rw [replaceY, List.map_cons, if_neg hne, ← replaceY, ih _ _ hrest]

/-- The marks are taken off again. -/
theorem replaceY_changeY {word : Bytes} (h : ∀ ch ∈ word, isLetter ch) :
    replaceY (changeY word) = word := by
  cases word with
  | nil => rfl
  | cons first rest =>
      obtain ⟨hfirst, hrest⟩ := List.forall_mem_cons.mp h
      have hne : first ≠ letter 'Y' := by
        rintro rfl
        exact absurd hfirst (by decide)
      simp only [changeY]
      split
      · rename_i hy
        rw [replaceY, List.map_cons, if_pos rfl, ← replaceY, replaceY_changeYAfter _ _ hrest, hy]
      · rw [replaceY, List.map_cons, if_neg hne, ← replaceY, replaceY_changeYAfter _ _ hrest]

/-- A word without its marks is one of letters. -/
theorem isLetter_of_replaceY {word : Bytes} (h : ∀ ch ∈ word, isWritten ch) :
    ∀ ch ∈ replaceY word, isLetter ch := by
  intro ch hch
  obtain ⟨old, hold, rfl⟩ := List.mem_map.mp hch
  have hwritten := h old hold
  split
  · decide
  · rename_i hne
    rw [isWritten, Bool.or_eq_true, decide_eq_true_eq] at hwritten
    exact hwritten.resolve_right hne

theorem isWritten_of_replaceY {word : Bytes} (h : ∀ ch ∈ replaceY word, isLetter ch) :
    ∀ ch ∈ word, isWritten ch := by
  intro ch hch
  rw [isWritten, Bool.or_eq_true, decide_eq_true_eq]
  by_cases hy : ch = letter 'Y'
  · exact Or.inr hy
  · left
    have hmap := h _ (List.mem_map_of_mem hch)
    rwa [if_neg hy] at hmap

/-! ## The stem -/

/-- The part of a word that is stemmed. -/
def body (word : Bytes) : Bytes :=
  let word := word.take 35
  if word.head? = some 39 then word.tail else word

theorem body_sublist (word : Bytes) : (body word).Sublist word := by
  unfold body
  dsimp only
  split
  · exact (List.tail_sublist _).trans (List.take_sublist _ _)
  · exact List.take_sublist _ _

theorem length_body (word : Bytes) :
    (body word).length ≤ min word.length 35 ∧ min word.length 35 ≤ (body word).length + 1 := by
  unfold body
  dsimp only
  split
  · rw [List.length_tail, List.length_take]
    omega
  · rw [List.length_take]
    omega

/-- Two apostrophes begin a word of which one is left. -/
theorem eq_of_body_eq {word rest : Bytes} (hbody : body word = 39 :: rest)
    (hrest : rest.length < 33) : word = 39 :: 39 :: rest := by
  unfold body at hbody
  dsimp only at hbody
  split at hbody
  · rename_i hhead
    have htake : word.take 35 = 39 :: 39 :: rest := by
      cases htake : word.take 35 with
      | nil =>
          rw [htake] at hhead
          cases hhead
      | cons first others =>
          rw [htake] at hhead hbody
          cases hhead
          rw [List.tail_cons] at hbody
          rw [hbody]
    have hlength := congrArg List.length htake
    rw [List.length_take, List.length_cons, List.length_cons] at hlength
    rw [← htake, List.take_of_length_le (by omega)]
  · rename_i hhead
    exact absurd (hbody ▸ rfl) hhead

theorem step0_beginning (word : Bytes) : step0 word <+: word := by
  rw [step0]
  cases hreplaced : replaceFirst word [sub "'s'" "", sub "'s" "", sub "'" ""] 0 with
  | none => exact List.prefix_rfl
  | some result =>
      obtain ⟨suffix, hmem, hresult⟩ := replaceFirst_eq_some hreplaced
      obtain ⟨kept, rfl, rfl, -⟩ := replaceIfExists_eq_some hresult
      have hnone : ∀ suffix ∈ [sub "'s'" "", sub "'s" "", sub "'" ""], suffix.2 = [] := by
        decide
      rw [Option.getD_some, hnone suffix hmem, List.append_nil]
      exact List.prefix_append _ _

/-- Only what is deleted leaves nothing. -/
theorem eq_of_step0_eq_nil {word : Bytes} (h : step0 word = []) :
    word ∈ ["'s'", "'s", "'", ""].map ascii := by
  rw [step0] at h
  cases hreplaced : replaceFirst word [sub "'s'" "", sub "'s" "", sub "'" ""] 0 with
  | none =>
      rw [hreplaced, Option.getD_none] at h
      rw [h]
      decide
  | some result =>
      rw [hreplaced, Option.getD_some] at h
      obtain ⟨suffix, hmem, hresult⟩ := replaceFirst_eq_some hreplaced
      obtain ⟨kept, rfl, rfl, -⟩ := replaceIfExists_eq_some hresult
      obtain ⟨rfl, -⟩ := List.append_eq_nil_iff.mp h
      have hdeleted : ∀ suffix ∈ [sub "'s'" "", sub "'s" "", sub "'" ""],
          [] ++ suffix.1 ∈ ["'s'", "'s", "'", ""].map ascii := by
        decide
      exact hdeleted suffix hmem

/-- The words that have a stem of their own with which they do not begin. -/
def irregular : List (Bytes × Bytes) := [sub "dying" "die", sub "lying" "lie", sub "tying" "tie"]

/-- What is left of a word whose body is not empty. -/
structure Shape (body stemmed : Bytes) : Prop where
  ne_nil : stemmed ≠ []
  letters : ∀ ch ∈ stemmed, isLetter ch
  length : stemmed.length ≤ body.length
  begins : stemmed.dropLast <+: body ∨ (body, stemmed) ∈ irregular

theorem shape_of_special {word result : Bytes} (hne : word ≠ [])
    (hletters : ∀ ch ∈ word, isLetter ch) (h : special word = some result) :
    Shape word result := by
  unfold special at h
  split at h
  · rename_i stem hlookup
    cases h
    obtain ⟨before, after, hmem, -⟩ := List.lookup_eq_some_iff.mp hlookup
    have hexceptions : ∀ entry ∈ exceptions, entry.2 ≠ [] ∧ entry.2.all isLetter ∧
        entry.2.length ≤ entry.1.length ∧
        (entry.2.dropLast <+: entry.1 ∨ entry ∈ irregular) := by
      decide
    obtain ⟨h1, h2, h3, h4⟩ := hexceptions (word, result)
      (hmem ▸ List.mem_append_right _ List.mem_cons_self)
    exact ⟨h1, List.all_eq_true.mp h2, h3, h4⟩
  · split at h
    · cases h
      exact ⟨hne, hletters, le_rfl, Or.inl (List.dropLast_prefix _)⟩
    · cases h

theorem Stems.shape {word stemmed : Bytes} (hletters : ∀ ch ∈ word, isLetter ch)
    (h : Stems 1 (changeY word) stemmed) : Shape word (replaceY stemmed) where
  ne_nil hnil := h.ne_nil (List.map_eq_nil_iff.mp hnil)
  letters := isLetter_of_replaceY h.written
  length := by
    have hlength := h.length
    rw [length_changeY] at hlength
    rwa [replaceY, List.length_map]
  begins := by
    have hbegins := h.begins.map fun ch => if ch = letter 'Y' then letter 'y' else ch
    rw [← replaceY, ← replaceY, replaceY_changeY hletters, BeginsAllBut.one_iff] at hbegins
    exact Or.inl hbegins

/-- The steps keep the shape of a word of which the first leaves something. -/
theorem shape_of_steps {word : Bytes} (hletters : ∀ ch ∈ word, isLetter ch)
    (hne : step0 (changeY word) ≠ []) :
    Shape word (
      match step1A (step0 (changeY word)) with
      | (stemmed, true) => replaceY stemmed
      | (stemmed, false) =>
        let startR1 := getStartR1 (changeY word)
        let startR2 := getStartR2 (changeY word) startR1
        let stemmed := step2 (step1C (step1B stemmed startR1)) startR1
        replaceY (step5 (step4 (step3 stemmed startR1 startR2) startR2) startR1 startR2)) := by
  have hword : changeY word ≠ [] := by
    intro hnil
    rw [hnil] at hne
    exact hne rfl
  have hwritten : ∀ ch ∈ changeY word, isWritten ch :=
    isWritten_of_replaceY (by rwa [replaceY_changeY hletters])
  have hstart : Stems 0 (changeY word) (changeY word) :=
    ⟨hword, hwritten, le_rfl, BeginsAllBut.of_prefix List.prefix_rfl⟩
  have hfirst := (hstart.of_prefix hne (step0_beginning _)).step1A
  have hR1 := getStartR1_pos hword
  have hR2 := getStartR2_pos hword hR1
  split
  · rename_i stemmed hdone
    rw [hdone] at hfirst
    exact (hfirst.mono (Nat.zero_le 1)).shape hletters
  · rename_i stemmed hnext
    rw [hnext] at hfirst
    exact Stems.shape hletters
      ((((hfirst.step1B hR1).step1C.step2 hR1).step3 hR1 hR2).step4 hR2 |>.step5 hR1 hR2)

/-- The words that the stemmer deletes. -/
def emptied : List Bytes := ["''s", "''s'"].map ascii

/-- A word whose first step leaves nothing is one of two. -/
theorem mem_emptied {word : Bytes} (hletters : ∀ ch ∈ word, isLetter ch) (hlong : 2 < word.length)
    (h : step0 (changeY (body word)) = []) : word ∈ emptied := by
  have hbody : body word ∈ ["'s'", "'s", "'", ""].map ascii := by
    have hdeleted := List.mem_map_of_mem (f := replaceY) (eq_of_step0_eq_nil h)
    rw [replaceY_changeY fun ch hch => hletters ch ((body_sublist word).subset hch)] at hdeleted
    revert hdeleted
    generalize body word = result
    revert result
    decide
  have hlength := (length_body word).2
  simp only [List.map_cons, List.map_nil, List.mem_cons, List.not_mem_nil, or_false] at hbody
  rcases hbody with hbody | hbody | hbody | hbody
  · have hdeleted : ascii "'s'" = 39 :: ascii "s'" := by decide
    rw [eq_of_body_eq (hbody.trans hdeleted) (by decide)]
    decide
  · have hdeleted : ascii "'s" = 39 :: ascii "s" := by decide
    rw [eq_of_body_eq (hbody.trans hdeleted) (by decide)]
    decide
  · rw [hbody] at hlength
    have hone : (ascii "'").length = 1 := rfl
    omega
  · rw [hbody] at hlength
    have hzero : (ascii "").length = 0 := rfl
    omega

theorem isTag_eq_false {word : Bytes} (hletters : ∀ ch ∈ word, isLetter ch) :
    isTag word = false := by
  rw [← Bool.not_eq_true, isTag, Bool.or_eq_true, decide_eq_true_eq, decide_eq_true_eq]
  rintro (rfl | rfl)
  · exact absurd hletters (by decide +kernel)
  · exact absurd hletters (by decide +kernel)

/-- **The shape of a stem.** Of a word of letters that is long enough to be stemmed. -/
theorem shape_of_stem {word : Bytes} (hletters : ∀ ch ∈ word, isLetter ch)
    (hlong : 2 < word.length) (hkept : word ∉ emptied) : Shape (body word) (stem word) := by
  have hbody : ∀ ch ∈ body word, isLetter ch := fun ch hch =>
    hletters ch ((body_sublist word).subset hch)
  have hshort : ¬ (decide (word.length ≤ 2) || isTag word) = true := by
    rw [isTag_eq_false hletters, Bool.or_false, decide_eq_true_eq]
    omega
  rw [stem, if_neg hshort]
  dsimp only
  rw [← body]
  split
  · rename_i result hspecial
    apply shape_of_special _ hbody hspecial
    rw [← List.length_pos_iff]
    have hlength := (length_body word).2
    omega
  · exact shape_of_steps hbody fun hnil => hkept (mem_emptied hletters hlong hnil)

/-! ## Tokens -/

theorem trim_of_isTag {token : Bytes} (h : isTag token) : trim token = token := by
  rw [trim, if_pos h]

theorem isLetter_of_mem_trim {token : Bytes} (h : isTag token = false) :
    ∀ ch ∈ trim token, isLetter ch := by
  intro ch hch
  rw [trim, h, if_neg Bool.false_ne_true] at hch
  exact (List.mem_filter.mp hch).2

theorem eq_of_isTag {token : Bytes} (h : isTag token) :
    token = ascii "<s>" ∨ token = ascii "</s>" := by
  rwa [isTag, Bool.or_eq_true, decide_eq_true_eq, decide_eq_true_eq] at h

theorem stem_of_short {word : Bytes} (h : word.length ≤ 2) : stem word = word := by
  rw [stem, if_pos]
  rw [Bool.or_eq_true, decide_eq_true_eq]
  exact Or.inl h

theorem stem_of_mem_emptied {word : Bytes} (h : word ∈ emptied) : stem word = [] := by
  revert h
  revert word
  decide

/-- A token is not stemmed, deleted, or stemmed to a word of the shape above. -/
theorem trimAndStem_cases (token : Bytes) :
    (trimAndStem token = trim token ∧ (isTag token ∨ (trim token).length ≤ 2)) ∨
      (trimAndStem token = [] ∧ trim token ∈ emptied) ∨
      (Shape (body (trim token)) (trimAndStem token) ∧ trim token ∉ emptied ∧
        2 < (trim token).length) := by
  cases htag : isTag token with
  | true =>
      left
      refine ⟨?_, Or.inl rfl⟩
      rw [trimAndStem, trim_of_isTag htag]
      rcases eq_of_isTag htag with rfl | rfl
      · decide
      · decide
  | false =>
      by_cases hlong : (trim token).length ≤ 2
      · exact Or.inl ⟨stem_of_short hlong, Or.inr hlong⟩
      · by_cases hemptied : trim token ∈ emptied
        · exact Or.inr (Or.inl ⟨stem_of_mem_emptied hemptied, hemptied⟩)
        · exact Or.inr (Or.inr ⟨shape_of_stem (isLetter_of_mem_trim htag) (by omega) hemptied,
            hemptied, by omega⟩)

/-- **Stems are words.** Of no more letters than the word that was trimmed, and of at least
one unless that word has none or is one of two. -/
theorem trimAndStem_word (token : Bytes) :
    (trimAndStem token).length ≤ min (trim token).length 35 ∧
    (isTag token = false → ∀ ch ∈ trimAndStem token, isLetter ch) ∧
    (trimAndStem token = [] ↔ trim token = [] ∨ trim token ∈ emptied) := by
  rcases trimAndStem_cases token with ⟨hsame, hshort⟩ | ⟨hnil, hemptied⟩ | ⟨hshape, hkept, hlong⟩
  · have hlength : (trim token).length ≤ 4 := by
      rcases hshort with htag | hshort
      · rw [trim_of_isTag htag]
        rcases eq_of_isTag htag with rfl | rfl
        · decide
        · decide
      · omega
    rw [hsame]
    refine ⟨by omega, isLetter_of_mem_trim, ⟨Or.inl, fun h => ?_⟩⟩
    rcases h with hnil | hemptied
    · exact hnil
    · rw [← hsame]
      exact stem_of_mem_emptied hemptied
  · rw [hnil]
    exact ⟨Nat.zero_le _, fun _ ch hch => absurd hch List.not_mem_nil,
      ⟨fun _ => Or.inr hemptied, fun _ => rfl⟩⟩
  · refine ⟨hshape.length.trans (length_body _).1, fun _ => hshape.letters,
      ⟨fun hnil => absurd hnil hshape.ne_nil, fun h => ?_⟩⟩
    rcases h with hnil | hemptied
    · rw [hnil] at hlong
      cases hlong
    · exact absurd hemptied hkept

/-- The part of a word that the stemmer works on. -/
def base (word : Bytes) : Bytes :=
  if word.length ≤ 2 || isTag word then word else body word

/-- **Stems begin words.** With all but its last letter a stem begins the word, but for three
words. -/
theorem trimAndStem_begins (token : Bytes) :
    (trimAndStem token).dropLast <+: base (trim token) ∨
      (base (trim token), trimAndStem token) ∈ irregular := by
  rcases trimAndStem_cases token with ⟨hsame, hshort⟩ | ⟨hnil, -⟩ | ⟨hshape, -, hlong⟩
  · left
    have hbase : base (trim token) = trim token := by
      rw [base, if_pos]
      rw [Bool.or_eq_true, decide_eq_true_eq]
      rcases hshort with htag | hshort
      · rw [trim_of_isTag htag]
        exact Or.inr htag
      · exact Or.inl hshort
    rw [hsame, hbase]
    exact List.dropLast_prefix _
  · left
    rw [hnil]
    exact List.nil_prefix
  · cases htag : isTag (trim token) with
    | true =>
        left
        have hsame : trimAndStem token = trim token := by
          rw [trimAndStem, stem, htag, Bool.or_true, if_pos rfl]
        rw [hsame, base, htag, Bool.or_true, if_pos rfl]
        exact List.dropLast_prefix _
    | false =>
        rw [base, htag, Bool.or_false, if_neg (by simpa using hlong)]
        exact hshape.begins

end Porter2Stemmer

end Unbiased
