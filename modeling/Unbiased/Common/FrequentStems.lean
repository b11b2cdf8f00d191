/-
# The counter of frequent stems

Beside the counts of the stems, the vocabulary keeps a counter of the stems that
are counted more than three times. Every call that leaves a count above three
advances it, and not only the call that takes the count there. The counter is
therefore ahead by the number of calls that found their count above three
already.
-/

import Unbiased.Common.Vocabulary
import Unbiased.Math.Execution

namespace Unbiased

open Unbiased.Math

/-- Updating a function at one place changes the number of places that satisfy a
predicate by what the old and the new value there contribute. -/
theorem card_filter_update {ι α : Type} [Fintype ι] [DecidableEq ι] (p : α → Prop)
    [DecidablePred p] (f : ι → α) (i : ι) (a : α) :
    (Finset.univ.filter fun j => p (Function.update f i a j)).card + (if p (f i) then 1 else 0) =
      (Finset.univ.filter fun j => p (f j)).card + if p a then 1 else 0 := by
  have hsplit : ∀ g : ι → α, (Finset.univ.filter fun j => p (g j)).card =
      ((Finset.univ.erase i).filter fun j => p (g j)).card + if p (g i) then 1 else 0 := by
    intro g
    rw [Finset.card_filter, Finset.card_filter,
      ← Finset.sum_erase_add _ _ (Finset.mem_univ i)]
  have hrest : (Finset.univ.erase i).filter (fun j => p (Function.update f i a j)) =
      (Finset.univ.erase i).filter fun j => p (f j) := by
    apply Finset.filter_congr
    intro j hj
    rw [Function.update_of_ne (Finset.ne_of_mem_erase hj)]
  rw [hsplit, hsplit f, hrest, Function.update_self]
  omega

/-- The number of ids whose stem shows up in more than three articles. -/
def Vocabulary.frequentNo (vocab : Vocabulary) : ℕ :=
  (Finset.univ.filter fun slot : Fin maxStemsNo =>
    (vocab.getStemFreq (Int32.ofNat slot.val)).any fun freq => 3 < freq).card

/-- The counter is the number of frequent stems. -/
def Vocabulary.FrequentCounted (vocab : Vocabulary) : Prop :=
  vocab.getFreqStemsNo.toNat = vocab.frequentNo

/-- The number of calls that find the count of their id above three: it was counted that
often before, in the counter's type. -/
def lateCallsNo (calls : List StemId) : ℕ :=
  calls.zipIdx.countP fun call => 3 < Int32.ofNat ((calls.take call.2).count call.1)

theorem Vocabulary.frequentNo_eq (vocab : Vocabulary) :
    vocab.frequentNo =
      (Finset.univ.filter fun slot : Fin maxStemsNo => 3 < vocab.stemsFreq slot).card := by
  simp [frequentNo, getStemFreq, slot?_ofNat]

theorem Vocabulary.frequentNo_le (vocab : Vocabulary) : vocab.frequentNo ≤ maxStemsNo :=
  (Finset.card_filter_le _ _).trans_eq (Finset.card_fin _)

/-- Whether a call is late depends on the calls before it only. -/
theorem lateCallsNo_concat (calls : List StemId) (stemId : StemId) :
    lateCallsNo (calls ++ [stemId]) =
      lateCallsNo calls + if 3 < Int32.ofNat (calls.count stemId) then 1 else 0 := by
  have hearlier : calls.zipIdx.countP
        (fun call => 3 < Int32.ofNat (((calls ++ [stemId]).take call.2).count call.1)) =
      lateCallsNo calls := by
    apply List.countP_congr
    rintro ⟨id, idx⟩ hmem
    have hidx : idx < calls.length := by
      simpa using List.snd_lt_add_of_mem_zipIdx hmem
    rw [List.take_append_of_le_length hidx.le]
  rw [lateCallsNo, List.zipIdx_append, List.countP_append, hearlier]
  simp

/-- No call is late exactly if no id is called more than four times. -/
theorem lateCallsNo_eq_zero_iff {calls : List StemId} :
    lateCallsNo calls = 0 ↔ ∀ stemId, calls.count stemId ≤ 4 := by
  induction calls using List.reverseRecOn with
  | nil => simp [lateCallsNo]
  | append_singleton calls stemId ih =>
      rw [lateCallsNo_concat, Nat.add_eq_zero_iff, ih]
      constructor
      · rintro ⟨hearlier, hlast⟩ other
        have hcount := hearlier other
        rw [List.count_append, List.count_singleton]
        by_cases heq : stemId = other
        · subst heq
          have hne : calls.count stemId ≠ 4 := by
            intro hfour
            rw [hfour] at hlast
            exact absurd hlast (by decide)
          rw [if_pos (beq_self_eq_true stemId)]
          omega
        · rw [if_neg (by simpa using heq)]
          exact hcount
      · intro hall
        refine ⟨fun other => ?_, ?_⟩
        · exact (List.Sublist.count_le other (List.sublist_append_left _ _)).trans (hall other)
        · have hcount := hall stemId
          rw [List.count_append, List.count_singleton_self] at hcount
          have hsmall : calls.count stemId ≤ 3 := by omega
          apply if_neg
          generalize calls.count stemId = earlier at hsmall
          interval_cases earlier <;> decide

theorem lateCallsNo_le_length (calls : List StemId) : lateCallsNo calls ≤ calls.length :=
  List.countP_le_length.trans_eq List.length_zipIdx

/-- The counts after some calls, and how far the counter is ahead. -/
structure CallsCounted (calls : List StemId) (vocab : Vocabulary) : Prop where
  stemsFreq : ∀ slot : Fin maxStemsNo,
    vocab.stemsFreq slot = Int32.ofNat (calls.count (Int32.ofNat slot.val))
  freqStemsNo : vocab.freqStemsNo = Int32.ofNat (vocab.frequentNo + lateCallsNo calls)

/-- A vocabulary with zero counts has no frequent stems. -/
theorem Vocabulary.frequentNo_of_zero {vocab : Vocabulary}
    (hcounts : ∀ slot, vocab.stemsFreq slot = 0) : vocab.frequentNo = 0 := by
  rw [frequentNo_eq, Finset.card_eq_zero, Finset.filter_eq_empty_iff]
  intro slot _
  rw [hcounts]
  decide

theorem CallsCounted.initial {vocab : Vocabulary} (hcounts : ∀ slot, vocab.stemsFreq slot = 0)
    (hcounter : vocab.freqStemsNo = 0) : CallsCounted [] vocab where
  stemsFreq := hcounts
  freqStemsNo := by
    rw [hcounter, Vocabulary.frequentNo_of_zero hcounts]
    rfl

/-- A call moves the number of frequent stems and the number of late calls together by as
much as it moves the counter. -/
theorem CallsCounted.step {calls : List StemId} {vocab next : Vocabulary} {stemId : StemId}
    (h : CallsCounted calls vocab) (hcall : vocab.increaseStemFreq stemId = some next) :
    CallsCounted (calls ++ [stemId]) next := by
  obtain ⟨slot, hslot, rfl⟩ := Vocabulary.increaseStemFreq_eq_some.mp hcall
  have hid : stemId = Int32.ofNat slot.val := eq_ofNat_of_slot? hslot
  constructor
  · intro other
    rw [List.count_append, List.count_singleton, hid]
    by_cases heq : other = slot
    · subst heq
      simp [h.stemsFreq, Int32.ofNat_add]
    · have hne : Int32.ofNat slot.val ≠ Int32.ofNat other.val := fun hsame =>
        heq (Fin.ext (ofNat_inj_of_lt_maxStemsNo other.isLt slot.isLt hsame.symm))
      simp [h.stemsFreq, Function.update_of_ne heq, hne]
  · have hmoved := card_filter_update (fun freq : Int32 => 3 < freq) vocab.stemsFreq slot
      (vocab.stemsFreq slot + 1)
    rw [← Vocabulary.frequentNo_eq vocab] at hmoved
    rw [lateCallsNo_concat, Vocabulary.frequentNo_eq, hid, ← h.stemsFreq]
    have hsum : (Finset.univ.filter fun j => 3 < Function.update vocab.stemsFreq slot
          (vocab.stemsFreq slot + 1) j).card +
        (lateCallsNo calls + if 3 < vocab.stemsFreq slot then 1 else 0) =
        vocab.frequentNo + lateCallsNo calls +
          if 3 < vocab.stemsFreq slot + 1 then 1 else 0 := by
      omega
    rw [hsum, h.freqStemsNo]
    by_cases hfrequent : 3 < vocab.stemsFreq slot + 1
    · simp [hfrequent, Int32.ofNat_add]
    · simp [hfrequent]

theorem callsCounted_of_run {vocab final : Vocabulary} {calls : List StemId}
    (hcounts : ∀ slot, vocab.stemsFreq slot = 0) (hcounter : vocab.freqStemsNo = 0)
    (hrun : run Vocabulary.increaseStemFreq vocab calls = some final) :
    CallsCounted calls final :=
  run_invariant (P := CallsCounted) (CallsCounted.initial hcounts hcounter)
    (fun _ _ _ _ h hcall => h.step hcall) hrun

/-- The counter is exact if it is ahead by a multiple of its range. -/
theorem CallsCounted.counter_exact_iff {calls : List StemId} {vocab : Vocabulary}
    (h : CallsCounted calls vocab) : vocab.FrequentCounted ↔ 2 ^ 32 ∣ lateCallsNo calls := by
  have hsmall : vocab.frequentNo < 2 ^ 31 := vocab.frequentNo_le.trans_lt maxStemsNo_lt
  calc vocab.FrequentCounted
    _ ↔ vocab.getFreqStemsNo.toNat =
          (Int32.ofNat vocab.frequentNo).toInt64.toUInt64.toNat := by
        rw [Vocabulary.FrequentCounted, toNat_toUInt64_toInt64_ofNat hsmall]
    _ ↔ vocab.freqStemsNo = Int32.ofNat vocab.frequentNo := by
        rw [UInt64.toNat_inj]
        exact ⟨toUInt64_toInt64_inj, congrArg fun counter : Int32 => counter.toInt64.toUInt64⟩
    _ ↔ 2 ^ 32 ∣ lateCallsNo calls := by
        rw [h.freqStemsNo, ofNat_add_eq_iff]

/-- **When the counter is the number of frequent stems.** From zero counts, after calls in
any order, exactly if the number of calls that found their count above three is a
multiple of `2 ^ 32`. In fewer than `2 ^ 32` calls, that is exactly if no id was
called more than four times. (From `2 ^ 31` increments on, the plain counter is taken to
wrap around.) -/
theorem frequentCounted_iff {vocab final : Vocabulary} {calls : List StemId}
    (hcounts : ∀ slot, vocab.stemsFreq slot = 0) (hcounter : vocab.freqStemsNo = 0)
    (hrun : run Vocabulary.increaseStemFreq vocab calls = some final) :
    (final.FrequentCounted ↔ 2 ^ 32 ∣ lateCallsNo calls) ∧
      (calls.length < 2 ^ 32 →
        (final.FrequentCounted ↔ ∀ stemId, calls.count stemId ≤ 4)) := by
  have hfinal := (callsCounted_of_run hcounts hcounter hrun).counter_exact_iff
  refine ⟨hfinal, fun hfew => ?_⟩
  have hlate := (lateCallsNo_le_length calls).trans_lt hfew
  rw [hfinal, ← lateCallsNo_eq_zero_iff]
  exact ⟨fun hdvd => Nat.eq_zero_of_dvd_of_lt hdvd hlate, fun hzero => hzero ▸ dvd_zero _⟩

/-- A constructed vocabulary with cleared counts, after five calls for its first id. -/
theorem exists_run_fiveCalls :
    ∃ final, run Vocabulary.increaseStemFreq (Vocabulary.fresh fun _ => 0)
      (List.replicate 5 0) = some final :=
  ⟨_, rfl⟩

/-- The equivalences for five calls. -/
theorem frequentCounted_iff_fiveCalls :
    ∃ final, run Vocabulary.increaseStemFreq (Vocabulary.fresh fun _ => 0)
        (List.replicate 5 0) = some final ∧
      (final.FrequentCounted ↔ 2 ^ 32 ∣ lateCallsNo (List.replicate 5 0)) ∧
      ((List.replicate 5 (0 : StemId)).length < 2 ^ 32 →
        (final.FrequentCounted ↔ ∀ stemId, (List.replicate 5 (0 : StemId)).count stemId ≤ 4)) := by
  obtain ⟨final, hfinal⟩ := exists_run_fiveCalls
  exact ⟨final, hfinal, frequentCounted_iff (fun _ => rfl) rfl hfinal⟩

/-- After five calls for one id the counter is two, and one stem is frequent. -/
theorem frequent_stem_counted_twice :
    ¬ ∀ (vocab final : Vocabulary) (calls : List StemId),
      (∀ slot, vocab.stemsFreq slot = 0) → vocab.freqStemsNo = 0 →
      run Vocabulary.increaseStemFreq vocab calls = some final → final.FrequentCounted := by
  intro hall
  obtain ⟨final, hfinal⟩ := exists_run_fiveCalls
  have hcounted := hall _ final _ (fun _ => rfl) rfl hfinal
  rw [(callsCounted_of_run (fun _ => rfl) rfl hfinal).counter_exact_iff] at hcounted
  exact absurd hcounted (by decide)

end Unbiased
