/-
# Everything the token loop leaves

The loop stops only at an id outside the arrays, which a vocabulary that fits
them does not have. What it leaves is a function of the tokens: the recorded
ids with repetitions, for each of them the index of its last token, and one
more article in the count of each.

Counts are `int32_t`, and the count after 2147483647 is -2147483648.
-/

import Unbiased.Clustering.Attribution
import Unbiased.Math.LastIndex

namespace Unbiased

open Unbiased.Math

variable {text : TextOps} {collect : Bool} {vocab : Vocabulary} {article : Article}

/-! ## The loop completes -/

/-- In a vocabulary that fits the arrays every recorded id addresses a slot. -/
theorem Vocabulary.exists_slot_of_recordedId? {token : Bytes} {id : StemId}
    (hfits : vocab.stemsNo ≤ maxStemsNo) (h : vocab.recordedId? text token = some id) :
    ∃ slot, slot? id = some slot := by
  obtain ⟨-, hstemId⟩ := recordedId?_eq_some.mp h
  obtain ⟨hmem, rfl⟩ := getStemId_eq_some.mp hstemId
  exact ⟨_, slot?_ofNat ((SortedSet.rank_lt_size hmem).trans_le hfits)⟩

/-- An iteration completes if the id it records addresses a slot. -/
theorem isSome_processToken {tokens : List Bytes} {loop : TokenLoop} {token : Bytes} {tidx : ℕ}
    (h : ∀ id, loop.vocabulary.recordedId? text token = some id → ∃ slot, slot? id = some slot) :
    ∃ next, processToken text collect tokens loop (token, tidx) = some next := by
  unfold processToken
  simp only
  by_cases hkeeps : loop.vocabulary.keeps (text.toLower token)
  · rw [if_pos hkeeps]
    cases hid : loop.vocabulary.getStemId (text.trimAndStem (text.toLower token)) with
    | none => exact ⟨loop, rfl⟩
    | some id =>
        have ⟨slot, hslot⟩ := h id (Vocabulary.recordedId?_eq_some.mpr ⟨hkeeps, hid⟩)
        have ⟨counting, hcounting⟩ : ∃ counting, loop.countStem id = some counting := by
          unfold TokenLoop.countStem
          split
          · exact ⟨_, rfl⟩
          · exact ⟨_, Vocabulary.increaseStemFreq_eq_some.mpr ⟨slot, hslot, rfl⟩⟩
        have ⟨adding, hadding⟩ : ∃ adding, counting.addToken id (text.toLower token) =
            some adding := ⟨_, Vocabulary.addToken_eq_some.mpr ⟨slot, hslot, rfl⟩⟩
        simp [hcounting, hadding]
  · rw [if_neg hkeeps]
    split
    · split
      · exact ⟨_, rfl⟩
      · exact ⟨_, rfl⟩
    · exact ⟨_, rfl⟩

/-- **The loop completes** if all ids it records address slots. -/
theorem exists_processTokens {processed : ProcessedArticle}
    (h : ∀ id ∈ vocab.recordedIds text article.tokens, ∃ slot, slot? id = some slot) :
    ∃ after final shingles,
      processTokens text collect vocab article processed = some (after, final, shingles) := by
  have hloop : ∃ loop, run (processToken text collect article.tokens)
      (TokenLoop.start vocab article processed) article.tokens.zipIdx = some loop ∧
        loop.vocabulary.stems = vocab.stems ∧ loop.vocabulary.stopWords = vocab.stopWords := by
    apply exists_run_preserves (P := fun loop : TokenLoop =>
      loop.vocabulary.stems = vocab.stems ∧ loop.vocabulary.stopWords = vocab.stopWords)
    · exact ⟨rfl, rfl⟩
    · rintro loop ⟨token, tidx⟩ hentry ⟨hstems, hstop⟩
      have hmem : token ∈ article.tokens :=
        List.mem_of_getElem? (List.mk_mem_zipIdx_iff_getElem?.mp hentry)
      have ⟨next, hnext⟩ : ∃ next, processToken text collect article.tokens loop (token, tidx) =
          some next := by
        apply isSome_processToken
        intro id hid
        rw [Vocabulary.recordedId?_congr hstems hstop] at hid
        exact h id (Vocabulary.mem_recordedIds.mpr ⟨token, hmem, hid⟩)
      have hkept := processToken_stems hnext
      exact ⟨next, hnext, hkept.1.trans hstems, hkept.2.trans hstop⟩
  have ⟨loop, hrun, _⟩ := hloop
  refine ⟨loop.vocabulary, loop.article, loop.shingles, ?_⟩
  rw [processTokens, hrun]
  rfl

theorem exists_processTokens_of_fits (text : TextOps) (collect : Bool)
    (hfits : vocab.stemsNo ≤ maxStemsNo) (article : Article) (processed : ProcessedArticle) :
    ∃ after final shingles,
      processTokens text collect vocab article processed = some (after, final, shingles) := by
  apply exists_processTokens
  intro id hid
  have ⟨token, _, hrecorded⟩ := Vocabulary.mem_recordedIds.mp hid
  exact Vocabulary.exists_slot_of_recordedId? hfits hrecorded

/-! ## The last token of an id -/

/-- The token is recorded under an id that is this key of the map. -/
def RecordedAt (text : TextOps) (vocab : Vocabulary) (key : UInt64) (token : Bytes) : Prop :=
  ∃ id, vocab.recordedId? text token = some id ∧ id.toInt64.toUInt64 = key

theorem recordedAt_widened {token : Bytes} {id : StemId} :
    RecordedAt text vocab id.toInt64.toUInt64 token ↔ vocab.recordedId? text token = some id := by
  constructor
  · rintro ⟨other, hother, hkey⟩
    rwa [← toUInt64_toInt64_inj hkey]
  · exact fun h => ⟨id, h, rfl⟩

/-- An entry of a numbered list carries the number of those before it. -/
theorem idx_eq_length_of_zipIdx {α : Type} {l : List α} {hist : List (α × ℕ)} {a : α} {idx : ℕ}
    (h : hist ++ [(a, idx)] <+: l.zipIdx) : idx = hist.length := by
  obtain ⟨rest, hrest⟩ := h
  have hget : l.zipIdx[hist.length]? = some (a, idx) := by
    rw [← hrest]
    simp
  rw [List.getElem?_zipIdx] at hget
  obtain ⟨b, -, hentry⟩ := Option.map_eq_some_iff.mp hget
  simpa using (congrArg Prod.snd hentry).symm

/-- The loop keeps in its map the index of the last token of each id. -/
structure IdsMapInvariant (text : TextOps) (vocab : Vocabulary) (seen : List Bytes)
    (loop : TokenLoop) : Prop where
  stems : loop.vocabulary.stems = vocab.stems
  stopWords : loop.vocabulary.stopWords = vocab.stopWords
  idsTokensMap : ∀ key idx, loop.article.idsTokensMap key = some idx ↔
    LastIndex (RecordedAt text vocab key) seen idx

theorem IdsMapInvariant.step {tokens seen : List Bytes} {loop next : TokenLoop} {token : Bytes}
    (h : IdsMapInvariant text vocab seen loop)
    (hstep : processToken text collect tokens loop (token, seen.length) = some next) :
    IdsMapInvariant text vocab (seen ++ [token]) next := by
  have hrecorded : loop.vocabulary.recordedId? text token = vocab.recordedId? text token :=
    Vocabulary.recordedId?_congr h.stems h.stopWords token
  rcases processToken_cases hstep with ⟨id, slot, hid, -, rfl⟩ | ⟨hnone, shingles, rfl⟩
  · rw [hrecorded] at hid
    refine ⟨h.stems, h.stopWords, fun key idx => ?_⟩
    show Function.update loop.article.idsTokensMap id.toInt64.toUInt64 (some seen.length) key =
      some idx ↔ _
    by_cases hkey : key = id.toInt64.toUInt64
    · rw [hkey, Function.update_self, lastIndex_concat_of_pos (recordedAt_widened.mpr hid),
        Option.some.injEq]
      exact eq_comm
    · have hother : ¬ RecordedAt text vocab key token := by
        rintro ⟨other, hsome, rfl⟩
        rw [hid] at hsome
        cases hsome
        exact hkey rfl
      rw [Function.update_of_ne hkey, lastIndex_concat_of_neg hother]
      exact h.idsTokensMap key idx
  · rw [hrecorded] at hnone
    refine ⟨h.stems, h.stopWords, fun key idx => ?_⟩
    have hother : ¬ RecordedAt text vocab key token := by
      rintro ⟨other, hsome, -⟩
      rw [hnone] at hsome
      cases hsome
    rw [lastIndex_concat_of_neg hother]
    exact h.idsTokensMap key idx

theorem idsTokensMap_of_processTokens {processed final : ProcessedArticle} {after : Vocabulary}
    {shingles : SortedSet Int32}
    (h : processTokens text collect vocab article processed = some (after, final, shingles))
    (hempty : processed.idsTokensMap = fun _ => none) (key : UInt64) (idx : ℕ) :
    final.idsTokensMap key = some idx ↔
      LastIndex (RecordedAt text vocab key) article.tokens idx := by
  obtain ⟨loop, hrun, hfinal⟩ := Option.bind_eq_some_iff.mp h
  cases hfinal
  have hall : AllStates (processToken text collect article.tokens)
      (fun hist loop => IdsMapInvariant text vocab (hist.map Prod.fst) loop)
      (TokenLoop.start vocab article processed) article.tokens.zipIdx := by
    apply allStates_of_kept
    · refine ⟨rfl, rfl, fun key idx => ?_⟩
      show processed.idsTokensMap key = some idx ↔ _
      simp [hempty, not_lastIndex_nil]
    · rintro hist ⟨token, tidx⟩ hpre loop next - hstep hinv
      rw [idx_eq_length_of_zipIdx hpre, ← List.length_map (f := Prod.fst)] at hstep
      rw [List.map_append]
      exact hinv.step hstep
  have hinv : IdsMapInvariant text vocab (article.tokens.zipIdx.map Prod.fst) loop :=
    hall _ List.prefix_rfl loop hrun
  rw [List.zipIdx_map_fst] at hinv
  exact hinv.idsTokensMap key idx

/-! ## The whole result -/

/-- What the loop leaves of an article. -/
structure TokensRecorded (text : TextOps) (before : Vocabulary) (article : Article)
    (after : Vocabulary) (final : ProcessedArticle) : Prop where
  /-- The ids of the recorded tokens, in order and with repetitions. -/
  stemIds : final.stemIds = article.tokens.filterMap (before.recordedId? text)
  tokensNo : final.tokensNo = article.tokens.length
  length_le : final.stemIds.length ≤ final.tokensNo
  /-- The keys of the map are the ids. -/
  keys : ∀ key, (final.idsTokensMap key).isSome ↔
    ∃ id ∈ final.stemIds, id.toInt64.toUInt64 = key
  /-- An id is mapped to the last token recorded under it. -/
  last : ∀ id idx, final.idsTokensMap id.toInt64.toUInt64 = some idx ↔
    LastIndex (fun token => before.recordedId? text token = some id) article.tokens idx
  /-- A count goes up once if its id is recorded at all. -/
  counts : ∀ id freq, before.getStemFreq id = some freq →
    after.getStemFreq id = some (if id ∈ final.stemIds then freq + 1 else freq)

/-- **Everything the token loop leaves.** Processing an article with a vocabulary that
fits the arrays completes, and whenever it completes, it leaves this. -/
theorem processTokens_full (text : TextOps) (collect : Bool) (vocab : Vocabulary)
    (article : Article) (uninitialised : Signature) :
    (vocab.stemsNo ≤ maxStemsNo → ∃ after final shingles,
      processTokens text collect vocab article (.fresh uninitialised) =
        some (after, final, shingles)) ∧
    ∀ after final shingles, processTokens text collect vocab article (.fresh uninitialised) =
        some (after, final, shingles) → TokensRecorded text vocab article after final := by
  constructor
  · exact fun hfits => exists_processTokens_of_fits text collect hfits article _
  · intro after final shingles h
    have ⟨hspec, idsTokensMap, hfinal⟩ := processTokens_spec h
    have hmap := idsTokensMap_of_processTokens h rfl
    have hids : final.stemIds = vocab.recordedIds text article.tokens := by
      rw [hfinal]
      exact List.nil_append _
    have hno : final.tokensNo = article.tokens.length := by
      rw [hfinal]
    exact {
      stemIds := hids
      tokensNo := hno
      length_le := by
        rw [hids, hno]
        exact List.length_filterMap_le _ _
      keys := by
        intro key
        rw [Option.isSome_iff_exists, exists_congr (hmap key), exists_lastIndex, hids]
        simp only [Vocabulary.mem_recordedIds, RecordedAt]
        constructor
        · rintro ⟨token, htoken, id, hid, hkey⟩
          exact ⟨id, ⟨token, htoken, hid⟩, hkey⟩
        · rintro ⟨id, ⟨token, htoken, hid⟩, hkey⟩
          exact ⟨token, htoken, id, hid, hkey⟩
      last := by
        intro id idx
        rw [hmap]
        simp only [LastIndex, recordedAt_widened]
      counts := by
        intro id freq hfreq
        have ⟨slot, hslot, hvalue⟩ := Option.bind_eq_some_iff.mp hfreq
        have hcount := hspec.stemsFreq slot
        rw [← eq_ofNat_of_slot? hslot, Option.some.inj hvalue, ← hids] at hcount
        rw [Vocabulary.getStemFreq, hslot, ← hcount]
        rfl }

/-- A vocabulary with the stem `aa`, whose count is the largest `int32_t`. -/
def fullVocabulary : Vocabulary :=
  { Vocabulary.fresh fun _ => Int32.maxValue with
    stems := SortedSet.empty.insert [97, 97] }

/-- That count does not grow by one, but wraps around. -/
theorem full_count_wraps :
    ¬ ∀ (text : TextOps) (collect : Bool) (vocab : Vocabulary) (article : Article)
      (uninitialised : Signature) (after : Vocabulary) (final : ProcessedArticle)
      (shingles : SortedSet Int32),
      processTokens text collect vocab article (.fresh uninitialised) =
        some (after, final, shingles) →
      ∀ id freq next, vocab.getStemFreq id = some freq → after.getStemFreq id = some next →
        next.toInt = freq.toInt + if id ∈ final.stemIds then 1 else 0 := by
  intro hall
  have hcheck : (processTokens letterText true fullVocabulary (letterArticle [97])
      (.fresh fun _ => 0)).map (fun result => (result.1.getStemFreq 0, result.2.1.stemIds)) =
        some (some Int32.minValue, [0]) := by
    decide +kernel
  have hbefore : fullVocabulary.getStemFreq 0 = some Int32.maxValue := by decide +kernel
  obtain ⟨⟨after, final, shingles⟩, hrun, hresult⟩ := Option.map_eq_some_iff.mp hcheck
  obtain ⟨hafter, hids⟩ := Prod.mk.inj hresult
  have hgrows := hall _ _ _ _ _ _ _ _ hrun 0 _ _ hbefore hafter
  rw [show final.stemIds = [0] from hids] at hgrows
  exact absurd hgrows (by decide)

end Unbiased
