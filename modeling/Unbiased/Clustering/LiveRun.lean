/-
# Runs against a live dedup server

Articles are processed, signed and asked about while the vocabulary goes on
changing. The server's answers are a function of the documents it was made from
and of what was asked before, and an article's shingles and signature are a
function of its tokens and the stop words, which never change.
-/

import Unbiased.Clustering.Pipeline
import Unbiased.Clustering.Shingles

namespace Unbiased

open Unbiased.Math

/-- What was asked about an article, and the answer. -/
structure Asked where
  id : Bytes
  tokens : List Bytes
  shingles : SortedSet Int32
  signature : Signature
  verdict : Bool

/-- The message that was sent. -/
def Asked.message (asked : Asked) : DocSignature := (asked.id, asked.signature)

/-- The vocabulary, the server and what it was asked, oldest first. -/
structure LiveRun where
  vocab : Vocabulary
  dedup : ArticleDedup
  log : List Asked

/-- The calls of a run. -/
inductive LiveCall where
  | addStems (stems : SortedSet Bytes)
  | increaseStemFreq (stemId : StemId)
  /-- Process the tokens of an article, and no more. -/
  | processTokens (collect : Bool) (article : Article) (uninitialised : Signature)
  /-- Process the tokens of an article, sign it and ask about it. -/
  | submit (id : Bytes) (article : Article) (uninitialised : Signature)

namespace LiveRun

/-- One call. -/
def step (env : Env) (s : LiveRun) : LiveCall → Option LiveRun
  | .addStems stems => some { s with vocab := s.vocab.addStems stems }
  | .increaseStemFreq stemId =>
    (s.vocab.increaseStemFreq stemId).map fun vocab => { s with vocab := vocab }
  | .processTokens collect article uninitialised =>
    (processTokens env.text collect s.vocab article (.fresh uninitialised)).map
      fun result => { s with vocab := result.1 }
  | .submit id article uninitialised => do
    let (vocab, _, shingles) ←
      processTokens env.text true s.vocab article (.fresh uninitialised)
    let signature := MinHash.engine.computeSignature env.murmur shingles
    let (verdict, dedup) ← s.dedup.isDuplicate env.hashCombine (id, signature)
    some {
      vocab := vocab
      dedup := dedup
      log := s.log ++ [⟨id, article.tokens, shingles, signature, verdict⟩] }

/-- What a call does: it may change the vocabulary, and a submission asks the server. -/
theorem step_cases {env : Env} {s t : LiveRun} {call : LiveCall}
    (hstep : s.step env call = some t) :
    t.vocab.stopWords = s.vocab.stopWords ∧
      ((t.dedup = s.dedup ∧ t.log = s.log) ∨
        ∃ asked, s.dedup.isDuplicate env.hashCombine asked.message =
            some (asked.verdict, t.dedup) ∧
          asked.shingles = shinglesOf env.text s.vocab.stopWords asked.tokens ∧
          asked.signature = MinHash.engine.computeSignature env.murmur asked.shingles ∧
          t.log = s.log ++ [asked]) := by
  cases call with
  | addStems stems =>
      cases hstep
      exact ⟨rfl, Or.inl ⟨rfl, rfl⟩⟩
  | increaseStemFreq stemId =>
      obtain ⟨vocab, hvocab, rfl⟩ := Option.map_eq_some_iff.mp hstep
      obtain ⟨slot, -, rfl⟩ := Vocabulary.increaseStemFreq_eq_some.mp hvocab
      exact ⟨rfl, Or.inl ⟨rfl, rfl⟩⟩
  | processTokens collect article uninitialised =>
      obtain ⟨⟨vocab, processed, shingles⟩, hprocess, rfl⟩ := Option.map_eq_some_iff.mp hstep
      exact ⟨(processTokens_spec hprocess).1.stopWords, Or.inl ⟨rfl, rfl⟩⟩
  | submit id article uninitialised =>
      obtain ⟨⟨vocab, processed, shingles⟩, hprocess, hstep⟩ := Option.bind_eq_some_iff.mp hstep
      obtain ⟨⟨verdict, dedup⟩, hverdict, hstep⟩ := Option.bind_eq_some_iff.mp hstep
      cases hstep
      refine ⟨(processTokens_spec hprocess).1.stopWords, Or.inr ⟨⟨id, article.tokens, shingles,
        MinHash.engine.computeSignature env.murmur shingles, verdict⟩, hverdict, ?_, rfl, rfl⟩⟩
      exact shingles_eq_shinglesOf hprocess

/-- What holds in a run from a vocabulary and stored documents. -/
structure Consistent (env : Env) (start : Vocabulary) (docs : List DocSignature)
    (s : LiveRun) : Prop where
  stopWords : s.vocab.stopWords = start.stopWords
  knows : s.dedup.lshDeduplication.Knows env.hashCombine (docs ++ s.log.map Asked.message)
  shingles : ∀ asked ∈ s.log,
    asked.shingles = shinglesOf env.text start.stopWords asked.tokens
  signature : ∀ asked ∈ s.log,
    asked.signature = MinHash.engine.computeSignature env.murmur asked.shingles
  /-- A verdict is about the documents and what was asked before. -/
  verdict : ∀ before asked after, s.log = before ++ asked :: after →
    asked.verdict = decide (Duplicated env.hashCombine (docs ++ before.map Asked.message)
      asked.message)

/-- **Step lemma.** -/
theorem Consistent.step {env : Env} {start : Vocabulary} {docs : List DocSignature}
    {s t : LiveRun} {call : LiveCall} (h : Consistent env start docs s)
    (hstep : s.step env call = some t) : Consistent env start docs t := by
  obtain ⟨hstop, ⟨hdedup, hlog⟩ | ⟨asked, hverdict, hshingles, hsignature, hlog⟩⟩ :=
    step_cases hstep
  · refine ⟨hstop.trans h.stopWords, ?_, ?_, ?_, ?_⟩
    · rw [hdedup, hlog]
      exact h.knows
    · rw [hlog]
      exact h.shingles
    · rw [hlog]
      exact h.signature
    · rw [hlog]
      exact h.verdict
  · obtain ⟨next, hanswer, hnext⟩ := h.knows.isDuplicate asked.message
    obtain ⟨hres, hdedup⟩ := Prod.mk.inj (Option.some.inj (hverdict.symm.trans hanswer))
    refine ⟨hstop.trans h.stopWords, ?_, ?_, ?_, ?_⟩
    · rw [hlog, hdedup, List.map_append, ← List.append_assoc]
      exact hnext
    · rw [hlog]
      intro other hother
      rcases List.mem_append.mp hother with hother | hother
      · exact h.shingles other hother
      · rw [List.mem_singleton.mp hother, hshingles, h.stopWords]
    · rw [hlog]
      intro other hother
      rcases List.mem_append.mp hother with hother | hother
      · exact h.signature other hother
      · rw [List.mem_singleton.mp hother, hsignature]
    · rw [hlog]
      intro before other after hsplit
      rcases List.eq_nil_or_concat after with rfl | ⟨init, last, rfl⟩
      · obtain ⟨rfl, hlast⟩ := List.append_inj' hsplit rfl
        rw [← List.singleton_inj.mp hlast]
        exact hres
      · rw [List.concat_eq_append, ← List.cons_append, ← List.append_assoc] at hsplit
        exact h.verdict before other init (List.append_inj' hsplit rfl).1

/-- **Run lemma.** -/
theorem consistent_of_run {env : Env} {docs : List DocSignature} {dedup : ArticleDedup}
    (hmake : ArticleDedup.make env.hashCombine docs = some dedup) {vocab : Vocabulary}
    {calls : List LiveCall} {final : LiveRun}
    (hrun : run (step env) ⟨vocab, dedup, []⟩ calls = some final) :
    Consistent env vocab docs final := by
  apply run_preserves hrun
  · refine ⟨rfl, ?_, ?_, ?_, ?_⟩
    · simpa using ArticleDedup.knows_of_make hmake
    · simp
    · simp
    · intro before asked after hsplit
      simp at hsplit
  · exact fun _ _ _ hconsistent hstep => hconsistent.step hstep

/-- The log of a run grows at its end. -/
theorem log_prefix_of_run {env : Env} {s t : LiveRun} {calls : List LiveCall}
    (hrun : run (step env) s calls = some t) : s.log <+: t.log := by
  apply run_preserves (P := fun m => s.log <+: m.log) hrun List.prefix_rfl
  intro m call next hprefix hstep
  rcases (step_cases hstep).2 with ⟨-, hlog⟩ | ⟨asked, -, -, -, hlog⟩
  · rwa [hlog]
  · rw [hlog]
    exact hprefix.trans (List.prefix_append _ _)

end LiveRun

/-! ## The same text again -/

/-- **A text is caught when it is submitted again.** Whatever documents the server
was made from and whatever was called since, an article with the tokens of an
earlier one and another id is found to be a duplicate: shingles and signature
depend on the vocabulary through its stop words only, and nothing is ever
removed from a bucket. -/
theorem resubmission_caught (env : Env) (docs : List DocSignature) (vocab : Vocabulary)
    (calls : List LiveCall) :
    ∃ dedup, ArticleDedup.make env.hashCombine docs = some dedup ∧
      ∀ final, run (LiveRun.step env) ⟨vocab, dedup, []⟩ calls = some final →
        (∀ before first between second after,
          final.log = before ++ first :: between ++ second :: after →
          first.tokens = second.tokens → first.id ≠ second.id → second.verdict = true) ∧
        (∀ asked ∈ final.log,
          asked.shingles = shinglesOf env.text vocab.stopWords asked.tokens ∧
          asked.signature = MinHash.engine.computeSignature env.murmur
            (shinglesOf env.text vocab.stopWords asked.tokens)) ∧
        ∀ hist, hist <+: calls → ∀ mid, run (LiveRun.step env) ⟨vocab, dedup, []⟩ hist = some mid →
          ∀ band key id, id ∈ mid.dedup.lshDeduplication.lshBuckets.bucket band key →
            id ∈ final.dedup.lshDeduplication.lshBuckets.bucket band key := by
  obtain ⟨dedup, hmake, -⟩ := ArticleDedup.exists_make env.hashCombine docs
  refine ⟨dedup, hmake, fun final hrun => ?_⟩
  have hfinal := LiveRun.consistent_of_run hmake hrun
  have hsigned : ∀ asked ∈ final.log,
      asked.shingles = shinglesOf env.text vocab.stopWords asked.tokens ∧
      asked.signature = MinHash.engine.computeSignature env.murmur
        (shinglesOf env.text vocab.stopWords asked.tokens) := by
    intro asked hasked
    have hshingles := hfinal.shingles asked hasked
    exact ⟨hshingles, hshingles ▸ hfinal.signature asked hasked⟩
  refine ⟨?_, hsigned, ?_⟩
  · intro before first between second after hlog htokens hids
    have hfirst := (hsigned first (by rw [hlog]; simp)).2
    have hsecond := (hsigned second (by rw [hlog]; simp)).2
    rw [hfinal.verdict (before ++ first :: between) second after hlog, decide_eq_true_iff]
    refine ⟨first.message, ?_, hids, ?_⟩
    · simp
    · show ShareBand env.hashCombine second.signature first.signature
      rw [hfirst, hsecond, htokens]
      exact BucketTable.Collide.refl _ _
  · rintro hist ⟨rest, rfl⟩ mid hmid band key id hid
    obtain ⟨mid', hmid', hrest⟩ := run_append_eq_some.mp hrun
    obtain rfl : mid = mid' := Option.some.inj (hmid.symm.trans hmid')
    obtain ⟨later, hlater⟩ := LiveRun.log_prefix_of_run hrest
    obtain ⟨signature, hdoc, hkey⟩ :=
      ((LiveRun.consistent_of_run hmake hmid).knows.holds.mem_bucket band key id).mp hid
    refine (hfinal.knows.holds.mem_bucket band key id).mpr ⟨signature, ?_, hkey⟩
    rw [← hlater, List.map_append, ← List.append_assoc]
    exact List.mem_append_left _ hdoc

/-! ## Unrelated texts -/

/-- The hash functions have no collision on the shingles that occur. -/
def HashesApart (env : Env) (log : List Asked) : Prop :=
  ∀ component, ∀ first ∈ log, ∀ second ∈ log, ∀ a ∈ first.shingles, ∀ b ∈ second.shingles,
    MinHash.componentHash env.murmur component a = MinHash.componentHash env.murmur component b →
      a = b

/-- The narrowed band hash has no collision on the bands that occur. -/
def BandsApart (env : Env) (log : List Asked) : Prop :=
  ∀ band, ∀ first ∈ log, ∀ second ∈ log,
    bandKey env.hashCombine band first.signature = bandKey env.hashCombine band second.signature →
      ∀ row, first.signature (bandRow band row) = second.signature (bandRow band row)

/-- The article is one that validation lets through as it is. -/
def LiveCall.Accepted (env : Env) (vocab : Vocabulary) : LiveCall → Prop
  | .submit _ article _ => (validate env.text vocab article).1 = true ∧
      (validate env.text vocab article).2.1 = article
  | _ => True

/-- **When an unrelated text is found new.** Without hash collisions, an article that
has no shingle in common with any article before it is found new exactly if it
has a shingle, or all of those before it have. -/
theorem unrelated_new_iff {env : Env} {vocab : Vocabulary} {calls : List LiveCall}
    {dedup : ArticleDedup} {final : LiveRun}
    (hmake : ArticleDedup.make env.hashCombine [] = some dedup)
    (hrun : run (LiveRun.step env) ⟨vocab, dedup, []⟩ calls = some final)
    (hids : (final.log.map Asked.id).Nodup) (hhashes : HashesApart env final.log)
    (hbands : BandsApart env final.log) :
    ∀ before asked after, final.log = before ++ asked :: after →
      (∀ earlier ∈ before, ∀ shingle ∈ asked.shingles, shingle ∉ earlier.shingles) →
      (asked.verdict = false ↔
        (∃ w1 w2 w3, StartsShingle env.text vocab.stopWords asked.tokens w1 w2 w3) ∨
        ∀ earlier ∈ before,
          ∃ w1 w2 w3, StartsShingle env.text vocab.stopWords earlier.tokens w1 w2 w3) := by
  intro before asked after hlog hunrelated
  have hfinal := LiveRun.consistent_of_run hmake hrun
  have hasked : asked ∈ final.log := by simp [hlog]
  have hbefore : ∀ earlier ∈ before, earlier ∈ final.log := by
    intro earlier hearlier
    rw [hlog]
    exact List.mem_append_left _ hearlier
  have hne : ∀ earlier ∈ before, earlier.id ≠ asked.id := by
    rw [hlog, List.map_append] at hids
    intro earlier hearlier heq
    have hdisjoint := (List.nodup_append.mp hids).2.2
    exact hdisjoint earlier.id (List.mem_map_of_mem hearlier) asked.id (by simp) heq
  have hshingles : ∀ other ∈ final.log, (other.shingles.elems ≠ [] ↔
      ∃ w1 w2 w3, StartsShingle env.text vocab.stopWords other.tokens w1 w2 w3) := by
    intro other hother
    rw [hfinal.shingles other hother]
    exact elems_shinglesOf_ne_nil
  rw [hfinal.verdict before asked after hlog, List.nil_append, decide_eq_false_iff_not,
    ← hshingles asked hasked]
  constructor
  · intro hnew
    by_contra hempty
    push Not at hempty
    obtain ⟨hnone, earlier, hearlier, hnoneEarlier⟩ := hempty
    have hnoneEarlier : earlier.shingles.elems = [] := by
      by_contra hsome
      obtain ⟨w1, w2, w3, hstarts⟩ := (hshingles earlier (hbefore earlier hearlier)).mp hsome
      exact hnoneEarlier w1 w2 w3 hstarts
    -- two articles without shingles have the same signature
    have hsame : asked.shingles = earlier.shingles := by
      ext shingle
      rw [SortedSet.mem_def, SortedSet.mem_def, hnone, hnoneEarlier]
    refine hnew ⟨earlier.message, List.mem_map_of_mem hearlier, hne earlier hearlier, ?_⟩
    show ShareBand env.hashCombine asked.signature earlier.signature
    rw [hfinal.signature asked hasked, hfinal.signature earlier (hbefore earlier hearlier), hsame]
    exact BucketTable.Collide.refl _ _
  · rintro hsome ⟨doc, hdoc, -, band, hkey⟩
    obtain ⟨earlier, hearlier, rfl⟩ := List.mem_map.mp hdoc
    have hlogged := hbefore earlier hearlier
    have hpos : 0 < bandSize := by decide
    have hrow := hbands band asked hasked earlier hlogged hkey ⟨0, hpos⟩
    rw [hfinal.signature asked hasked, hfinal.signature earlier hlogged] at hrow
    refine MinHash.computeSignature_ne ?_ (hunrelated earlier hearlier) ?_ hrow
    · exact fun a ha b hb => hhashes _ asked hasked earlier hlogged a ha b hb
    · exact hsome.imp_right fun hall => (hshingles earlier hlogged).mpr (hall earlier hearlier)

/-- Text functions that tell shingles apart by the first bytes of their words. -/
def firstByteText : TextOps :=
  { letterText with
    hashString := fun word => UInt64.ofNat (word.headD 0).val
    hashCombine := fun seed value => seed + value.toUInt64 }

/-- Library code with these text functions, in which a shingle is its own hash. -/
def firstByteEnv : Env :=
  { letterEnv with
    text := firstByteText
    murmur := fun elem _ => elem }

/-- An article of a hundred words of one letter. -/
def oneLetterArticle (letter : Fin 256) : Article where
  text := (List.replicate 100 [letter, 32]).flatten
  tokens := List.replicate 100 [letter]
  metaData := .fresh

/-- The ids of a log are different if they are in a listing that starts with them. -/
theorem nodup_ids_of_map_eq {α : Type} {log : List Asked} {details : Asked → α}
    {entries : List (Bytes × α)}
    (hlog : (log.map fun asked => (asked.id, details asked)) = entries)
    (hentries : (entries.map Prod.fst).Nodup) : (log.map Asked.id).Nodup := by
  have hids : log.map Asked.id = entries.map Prod.fst := by
    rw [← hlog, List.map_map]
    rfl
  rwa [hids]

/-- Two unrelated articles with shingles. -/
def unrelatedCalls : List LiveCall :=
  [LiveCall.submit [49] (oneLetterArticle 97) fun _ => 0,
    LiveCall.submit [50] (oneLetterArticle 98) fun _ => 0]

/-- The equivalence for these articles. -/
theorem unrelated_new_iff_letters :
    ∃ dedup final, ArticleDedup.make firstByteEnv.hashCombine [] = some dedup ∧
      run (LiveRun.step firstByteEnv) ⟨letterVocabulary, dedup, []⟩
        unrelatedCalls = some final ∧
      ∀ before asked after, final.log = before ++ asked :: after →
        (∀ earlier ∈ before, ∀ shingle ∈ asked.shingles, shingle ∉ earlier.shingles) →
        (asked.verdict = false ↔
          (∃ w1 w2 w3, StartsShingle firstByteText letterVocabulary.stopWords asked.tokens
            w1 w2 w3) ∨
          ∀ earlier ∈ before, ∃ w1 w2 w3, StartsShingle firstByteText letterVocabulary.stopWords
            earlier.tokens w1 w2 w3) := by
  have hcheck : (ArticleDedup.make firstByteEnv.hashCombine []).bind (fun dedup =>
      (run (LiveRun.step firstByteEnv) ⟨letterVocabulary, dedup, []⟩
        unrelatedCalls).map fun final =>
          final.log.map fun asked => (asked.id, asked.shingles.elems)) =
      some [([49], [291]), ([50], [294])] := by
    decide +kernel
  obtain ⟨dedup, hmake, hcheck⟩ := Option.bind_eq_some_iff.mp hcheck
  obtain ⟨final, hrun, hlog⟩ := Option.map_eq_some_iff.mp hcheck
  have hfinal := LiveRun.consistent_of_run hmake hrun
  have helems : ∀ asked ∈ final.log, asked.shingles.elems ∈ [[291], [294]] := by
    intro asked hasked
    have hmem := List.mem_map_of_mem (f := fun asked : Asked => (asked.id, asked.shingles.elems))
      hasked
    rw [hlog] at hmem
    exact List.mem_map_of_mem (f := Prod.snd) hmem
  have hids : (final.log.map Asked.id).Nodup := nodup_ids_of_map_eq hlog (by decide)
  have hmem : ∀ asked ∈ final.log, ∀ shingle ∈ asked.shingles, shingle = 291 ∨ shingle = 294 := by
    intro asked hasked shingle hshingle
    have heither := helems asked hasked
    simp only [List.mem_cons, List.not_mem_nil, or_false] at heither
    rw [SortedSet.mem_def] at hshingle
    rcases heither with heq | heq
    · exact Or.inl (List.mem_singleton.mp (heq ▸ hshingle))
    · exact Or.inr (List.mem_singleton.mp (heq ▸ hshingle))
  have hhashes : HashesApart firstByteEnv final.log := by
    have hapart : (291 : Int32) % minHashRangeMax ≠ 294 % minHashRangeMax := by decide
    intro component first hfirst second hsecond a ha b hb heq
    rcases hmem first hfirst a ha with rfl | rfl
    · rcases hmem second hsecond b hb with rfl | rfl
      · rfl
      · exact absurd heq hapart
    · rcases hmem second hsecond b hb with rfl | rfl
      · exact absurd heq.symm hapart
      · rfl
  have hbands : BandsApart firstByteEnv final.log := by
    have hall : ∀ first ∈ ([[291], [294]] : List (List Int32)),
        ∀ second ∈ ([[291], [294]] : List (List Int32)),
          bandKey manualHashCombine 0 (fun _ =>
              leastHash (· % minHashRangeMax) (minHashRangeMax + 1) first) =
            bandKey manualHashCombine 0 (fun _ =>
              leastHash (· % minHashRangeMax) (minHashRangeMax + 1) second) →
          first = second := by
      decide +kernel
    have hsignature : ∀ asked ∈ final.log, asked.signature = fun _ =>
        leastHash (· % minHashRangeMax) (minHashRangeMax + 1) asked.shingles.elems := by
      intro asked hasked
      rw [hfinal.signature asked hasked]
      funext component
      exact MinHash.computeSignature_apply _ _ component
    intro band first hfirst second hsecond hkey row
    rw [hsignature first hfirst, hsignature second hsecond] at hkey ⊢
    rw [hall _ (helems first hfirst) _ (helems second hsecond) hkey]
  exact ⟨dedup, final, hmake, hrun, unrelated_new_iff hmake hrun hids hhashes hbands⟩

/-- Two articles of one long word each, with no shingle, are taken for duplicates. -/
theorem unrelated_found_duplicate :
    ¬ ∀ (env : Env) (vocab : Vocabulary) (calls : List LiveCall) (dedup : ArticleDedup)
      (final : LiveRun), ArticleDedup.make env.hashCombine [] = some dedup →
      run (LiveRun.step env) ⟨vocab, dedup, []⟩ calls = some final →
      (∀ call ∈ calls, call.Accepted env vocab) → (final.log.map Asked.id).Nodup →
      HashesApart env final.log → BandsApart env final.log →
      ∀ before asked after, final.log = before ++ asked :: after →
        (∀ earlier ∈ before, ∀ shingle ∈ asked.shingles, shingle ∉ earlier.shingles) →
        asked.verdict = false := by
  intro hall
  have hcheck : (ArticleDedup.make letterEnv.hashCombine []).bind (fun dedup =>
      (run (LiveRun.step letterEnv) ⟨letterVocabulary, dedup, []⟩
        [LiveCall.submit [49] (letterArticle (List.replicate 100 97)) fun _ => 0,
          LiveCall.submit [50] (letterArticle (List.replicate 100 98)) fun _ => 0]).map
        fun final => final.log.map fun asked => (asked.id, asked.shingles.elems, asked.verdict)) =
      some [([49], [], false), ([50], [], true)] := by
    decide +kernel
  obtain ⟨dedup, hmake, hcheck⟩ := Option.bind_eq_some_iff.mp hcheck
  obtain ⟨final, hrun, hlog⟩ := Option.map_eq_some_iff.mp hcheck
  have hfinal := LiveRun.consistent_of_run hmake hrun
  have hempty : ∀ asked ∈ final.log, asked.shingles = SortedSet.empty := by
    intro asked hasked
    have hmem := List.mem_map_of_mem (f := fun asked : Asked =>
      (asked.id, asked.shingles.elems, asked.verdict)) hasked
    have helems := List.mem_map_of_mem (f := fun entry : Bytes × List Int32 × Bool => entry.2.1)
      (hlog ▸ hmem)
    ext shingle
    rw [SortedSet.mem_def, show asked.shingles.elems = [] by simpa using helems]
    rfl
  have haccepted : ∀ letter ∈ ([97, 98] : Bytes),
      (validate letterText letterVocabulary (letterArticle (List.replicate 100 letter))).1 =
          true ∧
        (validate letterText letterVocabulary (letterArticle (List.replicate 100 letter))).2.1 =
          letterArticle (List.replicate 100 letter) := by
    decide +kernel
  have hids : (final.log.map Asked.id).Nodup := nodup_ids_of_map_eq hlog (by decide)
  obtain ⟨first, rest, hfirst, -, hrest⟩ := List.map_eq_cons_iff.mp hlog
  obtain ⟨second, others, hsecond, hsecondEq, -⟩ := List.map_eq_cons_iff.mp hrest
  have hverdict := hall letterEnv letterVocabulary _ dedup final hmake hrun ?_ hids ?_ ?_ [first]
    second others (by rw [hfirst, hsecond]; rfl) ?_
  · have htrue : second.verdict = true := congrArg (fun entry => entry.2.2) hsecondEq
    rw [hverdict] at htrue
    cases htrue
  · simp only [List.mem_cons, List.not_mem_nil, or_false]
    rintro call (rfl | rfl)
    · exact haccepted 97 (by simp)
    · exact haccepted 98 (by simp)
  · intro component one hone other hother a ha
    rw [hempty one hone] at ha
    exact absurd ha (SortedSet.notMem_empty a)
  · intro band one hone other hother _ row
    rw [hfinal.signature one hone, hfinal.signature other hother, hempty one hone,
      hempty other hother]
  · intro earlier _ shingle hshingle
    rw [hempty second (by rw [hfirst, hsecond]; simp)] at hshingle
    exact absurd hshingle (SortedSet.notMem_empty shingle)

end Unbiased
