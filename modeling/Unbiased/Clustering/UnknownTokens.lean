/-
# The number of unknown tokens

Validation counts the tokens it does not know, decides on the ratio and forgets the
count. Processing fills in a processed article, but not this number: the field keeps the
zero it starts with, and this zero is what is stored.
-/

import Unbiased.Clustering.Handover
import Unbiased.Clustering.ProcessedTokens

namespace Unbiased

open Unbiased.Math

variable {text : TextOps} {collect : Bool} {vocab current after : Vocabulary}
  {article : Article} {processed final : ProcessedArticle} {shingles : SortedSet Int32}

/-- No token changes the number of unknown tokens, nor that of tokens. -/
theorem processToken_numbers {tokens : List Bytes} {loop next : TokenLoop} {entry : Bytes × ℕ}
    (h : processToken text collect tokens loop entry = some next) :
    next.article.unknownTokensNo = loop.article.unknownTokensNo ∧
      next.article.tokensNo = loop.article.tokensNo := by
  rcases processToken_cases h with ⟨id, slot, -, -, rfl⟩ | ⟨-, shingles, rfl⟩
  · exact ⟨rfl, rfl⟩
  · exact ⟨rfl, rfl⟩

/-- **The loop leaves both numbers** as they were filled in before it. -/
theorem processTokens_numbers
    (h : processTokens text collect vocab article processed = some (after, final, shingles)) :
    final.unknownTokensNo = processed.unknownTokensNo ∧
      final.tokensNo = article.tokens.length := by
  obtain ⟨loop, hrun, hfinal⟩ := Option.bind_eq_some_iff.mp h
  obtain ⟨-, rfl, -⟩ := Prod.mk.inj (Option.some.inj hfinal) |>.imp id Prod.mk.inj
  apply run_preserves (P := fun loop : TokenLoop =>
    loop.article.unknownTokensNo = processed.unknownTokensNo ∧
      loop.article.tokensNo = article.tokens.length) hrun ⟨rfl, rfl⟩
  intro mid entry next hmid hstep
  have hkept := processToken_numbers hstep
  exact ⟨hkept.1.trans hmid.1, hkept.2.trans hmid.2⟩

/-- The number that is stored is the one that validation counted, and few of the tokens. -/
def RecordsUnknown (vocab : Vocabulary) (tokens : List Bytes) (processed : ProcessedArticle) :
    Prop :=
  processed.unknownTokensNo.toInt = tokens.countP vocab.isUnknown ∧
    (processed.unknownTokensNo.toInt + 1 : ℚ) / processed.tokensNo ≤
      invalidTokensThresholdDefault

/-- The element of the stored document is the field. -/
theorem element_unknownTokensNo (oid : ObjectId) (processed : ProcessedArticle) :
    BsonDoc.element (processed.storedDoc oid) "unknown_tokens_no" =
      some (.int32 processed.unknownTokensNo) := rfl

/-- A token of none is few enough for an article that is long enough. -/
theorem one_div_le_threshold {tokensNo : ℕ} (h : minTokensDefault ≤ tokensNo) :
    (0 + 1 : ℚ) / tokensNo ≤ invalidTokensThresholdDefault := by
  have hlong : (100 : ℚ) ≤ tokensNo := by exact_mod_cast h
  calc (0 + 1 : ℚ) / tokensNo ≤ (0 + 1) / 100 := by gcongr
    _ ≤ invalidTokensThresholdDefault := by
      rw [invalidTokensThresholdDefault]
      norm_num

/-- **The recorded number of unknown tokens is the one of validation** exactly if there are
none. The vocabulary may have changed between validation and processing. -/
theorem recordsUnknown_iff {uninitialised : Signature}
    (haccepted : (validate text vocab article).1 = true)
    (hprocess : processTokens text collect current (validate text vocab article).2.1
      (.fresh uninitialised) = some (after, final, shingles)) :
    RecordsUnknown vocab (text.tokenize article.text) final ↔
      ∀ token ∈ text.tokenize article.text, vocab.isUnknown token = false := by
  obtain ⟨hlong, -⟩ := (validate_eq_true_iff text vocab article).mp haccepted
  obtain ⟨hunknown, htokens⟩ := processTokens_numbers hprocess
  have hlength : final.tokensNo = (text.tokenize article.text).length := by
    rw [htokens, validate, tokenizeValidate_tokens]
  have hzero : final.unknownTokensNo.toInt = 0 := by
    rw [hunknown]
    rfl
  rw [RecordsUnknown, hzero, hlength]
  constructor
  · rintro ⟨hcount, -⟩ token htoken
    have hnone : (text.tokenize article.text).countP vocab.isUnknown = 0 := by
      exact_mod_cast hcount.symm
    exact Bool.eq_false_iff.mpr (List.countP_eq_zero.mp hnone token htoken)
  · intro hnone
    have hcount : (text.tokenize article.text).countP vocab.isUnknown = 0 :=
      List.countP_eq_zero.mpr fun token htoken => Bool.eq_false_iff.mp (hnone token htoken)
    refine ⟨by rw [hcount]; rfl, ?_⟩
    rw [Int.cast_zero]
    exact one_div_le_threshold hlong

/-- An article of words of the dictionary, submitted with its stems. -/
theorem recordsUnknown_letters :
    ∃ after final shingles, processTokens letterText true
        (letterVocabulary.addStems (SortedSet.empty.insert [97, 97]))
        (validate letterText letterVocabulary (letterArticle (List.replicate 100 97))).2.1
        (.fresh fun _ => 0) = some (after, final, shingles) ∧
      (RecordsUnknown letterVocabulary
          (letterText.tokenize (letterArticle (List.replicate 100 97)).text) final ↔
        ∀ token ∈ letterText.tokenize (letterArticle (List.replicate 100 97)).text,
          letterVocabulary.isUnknown token = false) := by
  have hfits : (letterVocabulary.addStems (SortedSet.empty.insert [97, 97])).stemsNo ≤
      maxStemsNo := by
    decide
  obtain ⟨after, final, shingles, hprocess⟩ :=
    exists_processTokens_of_fits letterText true hfits _ _
  exact ⟨after, final, shingles, hprocess, recordsUnknown_iff (by decide +kernel) hprocess⟩

/-- With one unknown word among a hundred, the recorded number is wrong. -/
theorem unknown_token_not_recorded :
    ¬ ∀ (text : TextOps) (collect : Bool) (vocab after : Vocabulary) (article : Article)
      (uninitialised : Signature) (final : ProcessedArticle) (shingles : SortedSet Int32),
      (validate text vocab article).1 = true →
        processTokens text collect (vocab.addStems (validate text vocab article).2.2)
          (validate text vocab article).2.1 (.fresh uninitialised) =
            some (after, final, shingles) →
          RecordsUnknown vocab (text.tokenize article.text) final := by
  intro hall
  let article := letterArticle (List.replicate 99 97 ++ [99])
  have hfits :
      (letterVocabulary.addStems (validate letterText letterVocabulary article).2.2).stemsNo ≤
        maxStemsNo := by
    decide +kernel
  obtain ⟨after, final, shingles, hprocess⟩ :=
    exists_processTokens_of_fits letterText true hfits
      (validate letterText letterVocabulary article).2.1 (.fresh fun _ => 0)
  have hrecorded := (hall _ _ _ _ _ _ _ _ (by decide +kernel) hprocess).1
  have hcount : (letterText.tokenize article.text).countP letterVocabulary.isUnknown = 1 := by
    decide +kernel
  rw [(processTokens_numbers hprocess).1, hcount] at hrecorded
  exact absurd hrecorded (by decide)

end Unbiased
