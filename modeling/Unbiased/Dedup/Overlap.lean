/-
# Overlapping calls of the deduplication

A call looks its bands up without the lock and then inserts them under it. Any
number of threads call at once, and between the two halves of a call there may
be halves of others. Of two calls that share a band, the later lookup misses
the earlier call if that one has not inserted yet, and the earlier call has
missed the later one already.
-/

import Unbiased.Dedup.LSHDeduplication

namespace Unbiased

open Unbiased.Math

/-- The shared buckets, and the calls of the threads. -/
structure Overlap (Thread : Type) where
  lsh : LSHDeduplication
  /-- The call a thread has begun, with what its lookup found. -/
  pending : Thread → Option (DocSignature × LSHDeduplication.BandLoop)
  /-- The calls that have returned, with the sets they returned. -/
  completed : List (DocSignature × SortedSet Bytes)

/-- The two halves of `process_signature`. -/
inductive OverlapAction (Thread : Type) where
  /-- Enter, and look all bands up. -/
  | lookup (thread : Thread) (docSignature : DocSignature)
  /-- Insert into all bands, and return. -/
  | insert (thread : Thread)

namespace Overlap

variable {Thread : Type}

/-- No thread is in a call. -/
def start (lsh : LSHDeduplication) : Overlap Thread := ⟨lsh, fun _ => none, []⟩

variable [DecidableEq Thread]

/-- One half of a call. -/
def step (hashCombine : HashCombine) (s : Overlap Thread) :
    OverlapAction Thread → Option (Overlap Thread)
  | .lookup thread docSignature =>
    match s.pending thread with
    | some _ => none
    | none => (s.lsh.lookup hashCombine docSignature).map fun loop => { s with
        pending := Function.update s.pending thread (some (docSignature, loop)) }
  | .insert thread => (s.pending thread).map fun (docSignature, loop) => { s with
      lsh := { s.lsh with
        lshBuckets := s.lsh.lshBuckets.insertAll
          (loop.bucketHashes.map fun bucketHash => (bucketHash.1, narrow bucketHash.2))
          docSignature.1 }
      pending := Function.update s.pending thread none
      completed := s.completed ++ [(docSignature, loop.duplicates)] }

/-- Without others in between, the two halves are a call. -/
theorem run_lookup_insert (hashCombine : HashCombine) {s : Overlap Thread} {thread : Thread}
    (hidle : s.pending thread = none) (docSignature : DocSignature) :
    run (step hashCombine) s [.lookup thread docSignature, .insert thread] =
      (s.lsh.processSignature hashCombine docSignature).map fun (duplicates, lsh) =>
        { s with
          lsh := lsh
          completed := s.completed ++ [(docSignature, duplicates)] } := by
  rw [run_cons, step, hidle, LSHDeduplication.processSignature, ← LSHDeduplication.lookup]
  cases s.lsh.lookup hashCombine docSignature with
  | none => rfl
  | some loop =>
      have hback : Function.update (Function.update s.pending thread
          (some (docSignature, loop))) thread none = s.pending := by
        rw [Function.update_idem, ← hidle, Function.update_eq_self]
      simp [run_cons, step, hback]

/-- Of any two of the calls that have different ids and share a band, one has found
the other. -/
def Detected (hashCombine : HashCombine) (calls : Set (DocSignature × SortedSet Bytes)) : Prop :=
  ∀ first ∈ calls, ∀ second ∈ calls, first.1.1 ≠ second.1.1 →
    ShareBand hashCombine first.1.2 second.1.2 →
      second.1.1 ∈ first.2 ∨ first.1.1 ∈ second.2

/-- The calls that have returned. -/
def returned (s : Overlap Thread) : Set (DocSignature × SortedSet Bytes) :=
  { call | call ∈ s.completed }

/-- The calls whose lookup is done, with what it found. -/
def begun (s : Overlap Thread) : Set (DocSignature × SortedSet Bytes) :=
  { call | call ∈ s.completed ∨
    ∃ thread loop, s.pending thread = some (call.1, loop) ∧ loop.duplicates = call.2 }

end Overlap

/-! ## The order of the halves -/

/-- What the order of the halves says, without any lookup. -/
structure Schedule (Thread : Type) where
  /-- The documents stored at the start, and those inserted since. -/
  filed : List DocSignature
  /-- The document a thread has looked up and not inserted, with those filed before it did. -/
  between : Thread → Option (DocSignature × List DocSignature)

namespace Schedule

variable {Thread : Type}

/-- Only the stored documents are filed. -/
def start (docs : List DocSignature) : Schedule Thread := ⟨docs, fun _ => none⟩

/-- The documents hold one with this id and a band in common with the signature. -/
def Has (hashCombine : HashCombine) (docs : List DocSignature) (id : Bytes)
    (signature : Signature) : Prop :=
  ∃ doc ∈ docs, doc.1 = id ∧ ShareBand hashCombine signature doc.2

theorem has_iff {hashCombine : HashCombine} {docs : List DocSignature} {id : Bytes}
    {signature : Signature} :
    Has hashCombine docs id signature ↔
      ∃ other, (id, other) ∈ docs ∧ ShareBand hashCombine signature other := by
  simp [Has]

instance (hashCombine : HashCombine) (docs : List DocSignature) (id : Bytes)
    (signature : Signature) : Decidable (Has hashCombine docs id signature) :=
  inferInstanceAs (Decidable (∃ _ ∈ docs, _))

/-- A half may come now. Of each thread that is between its halves with another id and a band
in common, a document with the id looked up now was filed before that thread's lookup, or one
with that thread's id is filed by now. -/
def Ok (hashCombine : HashCombine) (schedule : Schedule Thread) : OverlapAction Thread → Prop
  | .lookup _ docSignature => ∀ other, ∀ call ∈ schedule.between other,
      call.1.1 ≠ docSignature.1 → ShareBand hashCombine call.1.2 docSignature.2 →
        Has hashCombine call.2 docSignature.1 call.1.2 ∨
          Has hashCombine schedule.filed call.1.1 docSignature.2
  | .insert _ => True

instance [Fintype Thread] (hashCombine : HashCombine) (schedule : Schedule Thread) :
    ∀ action, Decidable (schedule.Ok hashCombine action)
  | .lookup _ _ => inferInstanceAs (Decidable (∀ _, ∀ _ ∈ _, _))
  | .insert _ => isTrue trivial

variable [DecidableEq Thread]

/-- After one more half. -/
def next (schedule : Schedule Thread) : OverlapAction Thread → Schedule Thread
  | .lookup thread docSignature => { schedule with
      between := Function.update schedule.between thread (some (docSignature, schedule.filed)) }
  | .insert thread =>
    match schedule.between thread with
    | none => schedule
    | some (docSignature, _) => {
        filed := schedule.filed ++ [docSignature]
        between := Function.update schedule.between thread none }

/-- Each half comes when it may. -/
def InOrder (hashCombine : HashCombine) : Schedule Thread → List (OverlapAction Thread) → Prop
  | _, [] => True
  | schedule, action :: rest =>
      schedule.Ok hashCombine action ∧ (schedule.next action).InOrder hashCombine rest

instance decidableInOrder [Fintype Thread] (hashCombine : HashCombine) :
    ∀ (schedule : Schedule Thread) actions, Decidable (schedule.InOrder hashCombine actions)
  | _, [] => isTrue trivial
  | schedule, action :: rest =>
      have := decidableInOrder hashCombine (schedule.next action) rest
      inferInstanceAs (Decidable (_ ∧ _))

end Schedule

namespace Overlap

variable {Thread : Type} [DecidableEq Thread]

/-! ## What the halves do -/

variable {hashCombine : HashCombine} {schedule : Schedule Thread} {s t final : Overlap Thread}

/-- The lookup of a call found what was filed before it. -/
structure FoundAmong (hashCombine : HashCombine) (asked : DocSignature)
    (loop : LSHDeduplication.BandLoop) (before : List DocSignature) : Prop where
  duplicates : ∀ id, id ∈ loop.duplicates ↔
    id = asked.1 ∨ Schedule.Has hashCombine before id asked.2
  keys : (loop.bucketHashes.map fun bucketHash => (bucketHash.1, narrow bucketHash.2)) =
    LSHDeduplication.keysOf hashCombine asked.2

/-- The buckets hold the documents that the schedule has filed, and its calls are pending. -/
structure Consistent (hashCombine : HashCombine) (schedule : Schedule Thread)
    (s : Overlap Thread) : Prop where
  knows : s.lsh.Knows hashCombine schedule.filed
  returned : ∀ call ∈ s.completed, call.1 ∈ schedule.filed
  between : ∀ thread, Option.Rel
    (fun call entry => call.1 = entry.1 ∧ FoundAmong hashCombine entry.1 call.2 entry.2)
    (s.pending thread) (schedule.between thread)

omit [DecidableEq Thread] in
theorem Consistent.exists_pending (h : Consistent hashCombine schedule s) {thread : Thread}
    {asked : DocSignature} {before : List DocSignature}
    (hbetween : schedule.between thread = some (asked, before)) :
    ∃ loop, s.pending thread = some (asked, loop) ∧
      FoundAmong hashCombine asked loop before := by
  have hrel := h.between thread
  rw [hbetween] at hrel
  cases hpending : s.pending thread with
  | none =>
      rw [hpending] at hrel
      cases hrel
  | some call =>
      obtain ⟨same, loop⟩ := call
      rw [hpending] at hrel
      obtain ⟨rfl, hfound⟩ := Option.rel_some_some.mp hrel
      exact ⟨loop, rfl, hfound⟩

omit [DecidableEq Thread] in
theorem Consistent.exists_between (h : Consistent hashCombine schedule s) {thread : Thread}
    {asked : DocSignature} {loop : LSHDeduplication.BandLoop}
    (hpending : s.pending thread = some (asked, loop)) :
    ∃ before, schedule.between thread = some (asked, before) ∧
      FoundAmong hashCombine asked loop before := by
  have hrel := h.between thread
  rw [hpending] at hrel
  cases hbetween : schedule.between thread with
  | none =>
      rw [hbetween] at hrel
      cases hrel
  | some entry =>
      obtain ⟨same, before⟩ := entry
      rw [hbetween] at hrel
      obtain ⟨rfl, hfound⟩ := Option.rel_some_some.mp hrel
      exact ⟨before, rfl, hfound⟩

theorem step_lookup_eq_some {thread : Thread} {docSignature : DocSignature} :
    s.step hashCombine (.lookup thread docSignature) = some t ↔
      s.pending thread = none ∧ ∃ loop, s.lsh.lookup hashCombine docSignature = some loop ∧
        t = { s with
          pending := Function.update s.pending thread (some (docSignature, loop)) } := by
  cases hpending : s.pending thread with
  | some call => simp [step, hpending]
  | none => simp [step, hpending, eq_comm]

theorem step_insert_eq_some {thread : Thread} :
    s.step hashCombine (.insert thread) = some t ↔
      ∃ asked loop, s.pending thread = some (asked, loop) ∧
        t = { s with
          lsh := { s.lsh with
            lshBuckets := s.lsh.lshBuckets.insertAll
              (loop.bucketHashes.map fun bucketHash => (bucketHash.1, narrow bucketHash.2))
              asked.1 }
          pending := Function.update s.pending thread none
          completed := s.completed ++ [(asked, loop.duplicates)] } := by
  simp [step, eq_comm]

/-- A lookup begins one call. -/
theorem begun_lookup {thread : Thread} (hidle : s.pending thread = none)
    (docSignature : DocSignature) (loop : LSHDeduplication.BandLoop) :
    ({ s with
      pending := Function.update s.pending thread (some (docSignature, loop)) } :
        Overlap Thread).begun = insert (docSignature, loop.duplicates) s.begun := by
  ext ⟨asked, found⟩
  simp only [begun, Set.mem_ofPred_eq, Set.mem_insert_iff, Prod.mk.injEq]
  constructor
  · rintro (hreturned | ⟨other, earlier, hother, rfl⟩)
    · exact Or.inr (Or.inl hreturned)
    · by_cases heq : other = thread
      · subst heq
        rw [Function.update_self] at hother
        cases hother
        exact Or.inl ⟨rfl, rfl⟩
      · rw [Function.update_of_ne heq] at hother
        exact Or.inr (Or.inr ⟨other, earlier, hother, rfl⟩)
  · rintro (⟨rfl, rfl⟩ | hreturned | ⟨other, earlier, hother, rfl⟩)
    · exact Or.inr ⟨thread, loop, Function.update_self .., rfl⟩
    · exact Or.inl hreturned
    · have hne : other ≠ thread := by
        rintro rfl
        rw [hidle] at hother
        cases hother
      exact Or.inr ⟨other, earlier, by rwa [Function.update_of_ne hne], rfl⟩

/-- An insertion returns a call that was begun. -/
theorem begun_insert {thread : Thread} {asked : DocSignature} {loop : LSHDeduplication.BandLoop}
    (hpending : s.pending thread = some (asked, loop)) (lsh : LSHDeduplication) :
    (Overlap.mk lsh (Function.update s.pending thread none)
      (s.completed ++ [(asked, loop.duplicates)])).begun = s.begun := by
  ext ⟨other, found⟩
  simp only [begun, Set.mem_ofPred_eq, List.mem_append, List.mem_singleton, Prod.mk.injEq]
  constructor
  · rintro ((hreturned | ⟨rfl, rfl⟩) | ⟨caller, earlier, hcaller, rfl⟩)
    · exact Or.inl hreturned
    · exact Or.inr ⟨thread, loop, hpending, rfl⟩
    · by_cases heq : caller = thread
      · rw [heq, Function.update_self] at hcaller
        cases hcaller
      · rw [Function.update_of_ne heq] at hcaller
        exact Or.inr ⟨caller, earlier, hcaller, rfl⟩
  · rintro (hreturned | ⟨caller, earlier, hcaller, rfl⟩)
    · exact Or.inl (Or.inl hreturned)
    · by_cases heq : caller = thread
      · rw [heq, hpending] at hcaller
        cases hcaller
        exact Or.inl (Or.inr ⟨rfl, rfl⟩)
      · exact Or.inr ⟨caller, earlier, by rwa [Function.update_of_ne heq], rfl⟩

omit [DecidableEq Thread] in
theorem Detected.mono {calls more : Set (DocSignature × SortedSet Bytes)}
    (h : Detected hashCombine more) (hsubset : calls ⊆ more) : Detected hashCombine calls :=
  fun first hfirst second hsecond => h first (hsubset hfirst) second (hsubset hsecond)

omit [DecidableEq Thread] in
/-- One more call is detected if it is with each of the others. -/
theorem detected_insert {call : DocSignature × SortedSet Bytes}
    {calls : Set (DocSignature × SortedSet Bytes)} :
    Detected hashCombine (insert call calls) ↔ Detected hashCombine calls ∧
      ∀ other ∈ calls, other.1.1 ≠ call.1.1 → ShareBand hashCombine other.1.2 call.1.2 →
        call.1.1 ∈ other.2 ∨ other.1.1 ∈ call.2 := by
  constructor
  · intro h
    refine ⟨h.mono (Set.subset_insert call calls), ?_⟩
    intro other hother
    exact h other (Set.mem_insert_of_mem call hother) call (Set.mem_insert call calls)
  · rintro ⟨hcalls, hcall⟩ first (rfl | hfirst) second (rfl | hsecond) hids hshare
    · exact absurd rfl hids
    · exact (hcall second hsecond hids.symm hshare.symm).symm
    · exact hcall first hfirst hids hshare
    · exact hcalls first hfirst second hsecond hids hshare

/-- Related calls stay related when one thread gets a new one. -/
theorem rel_update {α β : Type} {R : α → β → Prop} {f : Thread → Option α}
    {g : Thread → Option β} (h : ∀ thread, Option.Rel R (f thread) (g thread)) (thread : Thread)
    {a : Option α} {b : Option β} (hab : Option.Rel R a b) (other : Thread) :
    Option.Rel R (Function.update f thread a other) (Function.update g thread b other) := by
  by_cases heq : other = thread
  · rw [heq, Function.update_self, Function.update_self]
    exact hab
  · rw [Function.update_of_ne heq, Function.update_of_ne heq]
    exact h other

omit [DecidableEq Thread] in
/-- A lookup finds what is filed. -/
theorem Consistent.foundAmong (h : Consistent hashCombine schedule s)
    {docSignature : DocSignature} {loop : LSHDeduplication.BandLoop}
    (hlookup : s.lsh.lookup hashCombine docSignature = some loop) :
    FoundAmong hashCombine docSignature loop schedule.filed := by
  obtain ⟨found, hfound, hduplicates, hkeys⟩ :=
    @LSHDeduplication.exists_lookup hashCombine s.lsh h.knows.rowsNo_eq docSignature
  obtain rfl : loop = found := Option.some.inj (hlookup.symm.trans hfound)
  refine ⟨fun id => ?_, hkeys⟩
  rw [hduplicates, h.knows.holds.exists_mem_bucket, Schedule.has_iff]

/-- **Step lemma, lookup.** All calls stay detected exactly if the lookup may come now. -/
theorem Consistent.lookup (h : Consistent hashCombine schedule s) {thread : Thread}
    {docSignature : DocSignature}
    (hstep : s.step hashCombine (.lookup thread docSignature) = some t) :
    Consistent hashCombine (schedule.next (.lookup thread docSignature)) t ∧
      (Detected hashCombine t.begun ↔ Detected hashCombine s.begun ∧
        schedule.Ok hashCombine (.lookup thread docSignature)) := by
  obtain ⟨hidle, loop, hlookup, rfl⟩ := step_lookup_eq_some.mp hstep
  have hfound := h.foundAmong hlookup
  refine ⟨⟨h.knows, h.returned, rel_update h.between thread (.some ⟨rfl, hfound⟩)⟩, ?_⟩
  rw [begun_lookup hidle, detected_insert]
  apply and_congr_right
  intro _
  constructor
  · rintro hall other ⟨asked, before⟩ hother hids hshare
    obtain ⟨earlier, hpending, hasked⟩ := h.exists_pending hother
    have hpair := hall (asked, earlier.duplicates) (Or.inr ⟨other, earlier, hpending, rfl⟩)
      hids hshare
    rwa [hfound.duplicates, hasked.duplicates, or_iff_right hids, or_iff_right hids.symm] at hpair
  · rintro hok ⟨asked, set⟩ (hreturned | ⟨other, earlier, hpending, rfl⟩) hids hshare
    · -- a call that has returned is filed, and its id is found
      right
      rw [hfound.duplicates]
      exact Or.inr ⟨asked, h.returned (asked, set) hreturned, rfl, hshare.symm⟩
    · obtain ⟨before, hbetween, hasked⟩ := h.exists_between hpending
      rw [hfound.duplicates, hasked.duplicates, or_iff_right hids, or_iff_right hids.symm]
      exact hok other (asked, before) hbetween hids hshare

/-- **Step lemma, insertion.** It files the document of its call, and no call more is begun. -/
theorem Consistent.insert (h : Consistent hashCombine schedule s) {thread : Thread}
    (hstep : s.step hashCombine (.insert thread) = some t) :
    Consistent hashCombine (schedule.next (.insert thread)) t ∧ t.begun = s.begun := by
  obtain ⟨asked, loop, hpending, rfl⟩ := step_insert_eq_some.mp hstep
  obtain ⟨before, hbetween, hasked⟩ := h.exists_between hpending
  rw [Schedule.next, hbetween]
  refine ⟨⟨⟨h.knows.signatureSize_eq, h.knows.rowsNo_eq, ?_⟩, ?_, ?_⟩, begun_insert hpending _⟩
  · rw [hasked.keys]
    exact h.knows.holds.insertAll fun _ _ => LSHDeduplication.mem_keysOf
  · intro call hcall
    rcases List.mem_append.mp hcall with hearlier | hlast
    · exact List.mem_append_left _ (h.returned call hearlier)
    · rw [List.mem_singleton.mp hlast]
      exact List.mem_append_right _ List.mem_cons_self
  · exact rel_update h.between thread .none

/-- **Step lemma.** A half keeps the buckets and the pending calls consistent with the schedule,
and keeps all calls detected exactly if it may come now. -/
theorem Consistent.step (h : Consistent hashCombine schedule s) {action : OverlapAction Thread}
    (hstep : s.step hashCombine action = some t) :
    Consistent hashCombine (schedule.next action) t ∧
      (Detected hashCombine t.begun ↔
        Detected hashCombine s.begun ∧ schedule.Ok hashCombine action) := by
  cases action with
  | lookup thread docSignature => exact h.lookup hstep
  | insert thread =>
      obtain ⟨hnext, hbegun⟩ := h.insert hstep
      rw [hbegun]
      exact ⟨hnext, (and_iff_left trivial).symm⟩

/-- A call that has begun stays so. -/
theorem begun_subset {actions : List (OverlapAction Thread)}
    (hrun : run (step hashCombine) s actions = some t) : s.begun ⊆ t.begun := by
  apply run_preserves (P := fun m => s.begun ⊆ m.begun) hrun Set.Subset.rfl
  intro m action next hsubset hstep
  cases action with
  | lookup thread docSignature =>
      obtain ⟨hidle, loop, -, rfl⟩ := step_lookup_eq_some.mp hstep
      rw [begun_lookup hidle]
      exact hsubset.trans (Set.subset_insert _ _)
  | insert thread =>
      obtain ⟨asked, loop, hpending, rfl⟩ := step_insert_eq_some.mp hstep
      rwa [begun_insert hpending]

omit [DecidableEq Thread] in
/-- Where no thread is in a call, all calls have returned. -/
theorem begun_of_idle (hidle : ∀ thread, s.pending thread = none) : s.begun = s.returned := by
  ext call
  simp [begun, returned, hidle]

/-- **Run lemma.** In a run whose halves come in order, the calls begun are detected in every
state. -/
theorem Consistent.detected_of_inOrder (h : Consistent hashCombine schedule s)
    (hdetected : Detected hashCombine s.begun) {actions : List (OverlapAction Thread)}
    (horder : schedule.InOrder hashCombine actions) :
    AllStates (Overlap.step hashCombine) (fun _ m => Detected hashCombine m.begun) s actions := by
  induction actions generalizing schedule s with
  | nil =>
      intro hist hpre m hm
      obtain rfl := List.prefix_nil.mp hpre
      obtain rfl : s = m := Option.some.inj hm
      exact hdetected
  | cons action rest ih =>
      refine allStates_cons.mpr ⟨hdetected, fun t hstep => ?_⟩
      obtain ⟨hnext, hiff⟩ := h.step hstep
      exact ih hnext (hiff.mpr ⟨hdetected, horder.1⟩) horder.2

/-- **Run lemma, converse.** The halves of a run came in order if the calls begun are detected
in the end. -/
theorem Consistent.inOrder_of_detected (h : Consistent hashCombine schedule s)
    {actions : List (OverlapAction Thread)}
    (hrun : run (Overlap.step hashCombine) s actions = some final)
    (hdetected : Detected hashCombine final.begun) : schedule.InOrder hashCombine actions := by
  induction actions generalizing schedule s with
  | nil => trivial
  | cons action rest ih =>
      obtain ⟨t, hstep, hrest⟩ := Option.bind_eq_some_iff.mp hrun
      obtain ⟨hnext, hiff⟩ := h.step hstep
      exact ⟨(hiff.mp (hdetected.mono (begun_subset hrest))).2, ih hnext hrest⟩

omit [DecidableEq Thread] in
/-- At the start no call is begun. -/
theorem begun_start (lsh : LSHDeduplication) : (start lsh : Overlap Thread).begun = ∅ := by
  rw [begun_of_idle fun _ => rfl]
  simp [returned, start]

omit [DecidableEq Thread] in
theorem Consistent.start {docs : List DocSignature} {lsh : LSHDeduplication}
    (hknows : lsh.Knows hashCombine docs) :
    Consistent hashCombine (Schedule.start docs : Schedule Thread) (Overlap.start lsh) :=
  ⟨hknows, fun _ hcall => absurd hcall List.not_mem_nil, fun _ => .none⟩

end Overlap

/-- **When overlapping calls find each other.** Of any two calls that have returned
one has found the other, in every state of every run whose halves come in order; and in a run
that ends with no thread in a call, only if they did. -/
theorem overlap_detected {Thread : Type} [DecidableEq Thread] (hashCombine : HashCombine)
    (docs : List DocSignature) (actions : List (OverlapAction Thread)) :
    ∃ lsh, LSHDeduplication.make hashCombine signatureSize docs = some lsh ∧
      ((Schedule.start docs).InOrder hashCombine actions →
        AllStates (Overlap.step hashCombine)
          (fun _ s => Overlap.Detected hashCombine s.returned) (Overlap.start lsh) actions) ∧
      ∀ final, run (Overlap.step hashCombine) (Overlap.start lsh) actions = some final →
        (∀ thread, final.pending thread = none) →
        Overlap.Detected hashCombine final.returned →
          (Schedule.start docs).InOrder hashCombine actions := by
  obtain ⟨lsh, hmake, hknows⟩ := LSHDeduplication.make_knows hashCombine docs
  have hstart : Overlap.Consistent hashCombine (Schedule.start docs : Schedule Thread)
      (Overlap.start lsh) := .start hknows
  refine ⟨lsh, hmake, fun horder hist hpre m hm => ?_, fun final hrun hidle hdetected => ?_⟩
  · have hnone : Overlap.Detected hashCombine (Overlap.start lsh : Overlap Thread).begun := by
      rw [Overlap.begun_start]
      exact fun first hfirst => absurd hfirst (Set.notMem_empty first)
    exact (hstart.detected_of_inOrder hnone horder hist hpre m hm).mono fun _ => Or.inl
  · rw [← Overlap.begun_of_idle hidle] at hdetected
    exact hstart.inOrder_of_detected hrun hdetected

/-- The document 'b' is stored and comes again, between the halves of the calls for 'a' and
for 'c', all with one signature. -/
def storedAgain : List (OverlapAction Bool) :=
  [.lookup false ([97], fun _ => 0), .lookup true ([98], fun _ => 0), .insert false,
    .lookup false ([99], fun _ => 0), .insert true, .insert false]

theorem overlap_detected_storedAgain :
    ∃ lsh final, LSHDeduplication.make manualHashCombine signatureSize [([98], fun _ => 0)] =
        some lsh ∧
      run (Overlap.step manualHashCombine) (Overlap.start lsh) storedAgain = some final ∧
      final.completed.length = 3 ∧ Overlap.Detected manualHashCombine final.returned := by
  obtain ⟨lsh, hmake, hdetected, -⟩ :=
    overlap_detected manualHashCombine [([98], fun _ => 0)] storedAgain
  have horder : (Schedule.start [([98], fun _ => 0)]).InOrder manualHashCombine storedAgain := by
    decide +kernel
  have hlength : ((LSHDeduplication.make manualHashCombine signatureSize
      [([98], fun _ => 0)]).bind fun lsh =>
        (run (Overlap.step manualHashCombine) (Overlap.start lsh) storedAgain).map
          fun final => final.completed.length) = some 3 := by
    decide +kernel
  rw [hmake, Option.bind_some] at hlength
  obtain ⟨final, hfinal, hthree⟩ := Option.map_eq_some_iff.mp hlength
  exact ⟨lsh, final, hmake, hfinal, hthree,
    hdetected horder storedAgain List.prefix_rfl final hfinal⟩

/-- Two calls with equal signatures look up before either inserts, and neither
finds the other. -/
theorem overlap_missed :
    ¬ ∀ (Thread : Type) (_ : DecidableEq Thread) (hashCombine : HashCombine)
      (docs : List DocSignature) (lsh : LSHDeduplication) (actions : List (OverlapAction Thread))
      (final : Overlap Thread),
      LSHDeduplication.make hashCombine signatureSize docs = some lsh →
      run (Overlap.step hashCombine) (Overlap.start lsh) actions = some final →
        Overlap.Detected hashCombine final.returned := by
  intro hall
  have hrun : ((LSHDeduplication.make manualHashCombine signatureSize []).bind fun lsh =>
      (run (Overlap.step manualHashCombine) (Overlap.start lsh : Overlap Bool)
        [OverlapAction.lookup false ([97], fun _ => 0),
          OverlapAction.lookup true ([98], fun _ => 0),
          OverlapAction.insert false, OverlapAction.insert true]).bind fun final =>
        (final.completed[0]?).bind fun first => (final.completed[1]?).bind fun second =>
          if first.1.1 ≠ second.1.1 ∧ ShareBand manualHashCombine first.1.2 second.1.2 ∧
            second.1.1 ∉ first.2 ∧ first.1.1 ∉ second.2 then some () else none) = some () := by
    decide +kernel
  obtain ⟨lsh, hmake, hrest⟩ := Option.bind_eq_some_iff.mp hrun
  obtain ⟨final, hfinal, hrest⟩ := Option.bind_eq_some_iff.mp hrest
  obtain ⟨first, hfirst, hrest⟩ := Option.bind_eq_some_iff.mp hrest
  obtain ⟨second, hsecond, hcheck⟩ := Option.bind_eq_some_iff.mp hrest
  split at hcheck
  · rename_i hfacts
    obtain ⟨hids, hshare, hmissed, hmissedToo⟩ := hfacts
    have hdetected := hall Bool inferInstance manualHashCombine [] lsh _ final hmake hfinal
    have hpair := hdetected first (List.mem_of_getElem? hfirst) second
      (List.mem_of_getElem? hsecond) hids hshare
    exact hpair.elim hmissed hmissedToo
  · cases hcheck

end Unbiased
