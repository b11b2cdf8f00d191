/-
# What the dedup protocol is for

Abstractly, the dedup server is one object that remembers documents. Asking about a
document says whether another one with a band in common is known, and makes it known.
A run of the protocol, with all its frames and sockets, behaves as this object: the server's
log is a sequence of questions to it that agrees with the order in which the clients saw
their calls begin and return.

So no story is lost. A document may be found to duplicate one that is a duplicate itself,
but each of them is linked to one that was found new or was stored before.
-/

import Unbiased.Dedup.ProtocolProgress
import Unbiased.Math.Chains

namespace Unbiased

open Unbiased.Math

namespace AskService

/-- One question to the service that knows some documents, with its answer. -/
def ask (hashCombine : HashCombine) (known : List DocSignature) (verdict : Verdict) :
    Option (List DocSignature) :=
  if verdict.2 = decide (Duplicated hashCombine known verdict.1) then some (known ++ [verdict.1])
  else none

/-- The questions that the service can be asked one after the other, with these answers, are
those with its verdicts. -/
theorem run_ask_iff {hashCombine : HashCombine} {docs known : List DocSignature}
    {log : List Verdict} :
    run (ask hashCombine) docs log = some known ↔
      log.map Prod.snd = verdicts hashCombine docs (log.map Prod.fst) ∧
        known = docs ++ log.map Prod.fst := by
  induction log generalizing docs with
  | nil => simp [verdicts, eq_comm]
  | cons verdict log ih =>
      rw [run_cons, List.map_cons, List.map_cons, verdicts, ask]
      by_cases hverdict : verdict.2 = decide (Duplicated hashCombine docs verdict.1)
      · rw [if_pos hverdict, Option.bind_some, ih, List.append_assoc, List.singleton_append,
          ← hverdict, List.cons.injEq, and_iff_right rfl]
      · rw [if_neg hverdict, Option.bind_none, List.cons.injEq]
        simp [hverdict]

variable {hashCombine : HashCombine} {docs known : List DocSignature} {log : List Verdict}

/-- What was known when a question was asked. -/
theorem verdict_of_run {before after : List Verdict} {verdict : Verdict}
    (h : run (ask hashCombine) docs (before ++ verdict :: after) = some known) :
    verdict.2 = decide (Duplicated hashCombine (docs ++ before.map Prod.fst) verdict.1) := by
  obtain ⟨mid, hmid, h⟩ := run_append_eq_some.mp h
  obtain ⟨next, hnext, -⟩ := Option.bind_eq_some_iff.mp h
  obtain ⟨-, rfl⟩ := run_ask_iff.mp hmid
  unfold ask at hnext
  split at hnext
  · assumption
  · cases hnext

/-! ## Stories -/

/-- Two documents with different ids and a band in common. -/
def Near (hashCombine : HashCombine) (first second : DocSignature) : Prop :=
  first.1 ≠ second.1 ∧ ShareBand hashCombine first.2 second.2

theorem duplicated_iff {message : DocSignature} :
    Duplicated hashCombine docs message ↔ ∃ doc ∈ docs, Near hashCombine message doc :=
  exists_congr fun _ => and_congr_right fun _ => and_congr_left' ne_comm

/-- The documents of which the service has heard in the end. -/
def heard (docs : List DocSignature) (log : List Verdict) : List DocSignature :=
  docs ++ log.map Prod.fst

theorem mem_heard_of_log {verdict : Verdict} (h : verdict ∈ log) : verdict.1 ∈ heard docs log :=
  List.mem_append_right _ (List.mem_map_of_mem h)

/-- Two documents near each other, of all of which the service has heard. -/
def NearHeard (hashCombine : HashCombine) (docs : List DocSignature) (log : List Verdict)
    (first second : DocSignature) : Prop :=
  first ∈ heard docs log ∧ second ∈ heard docs log ∧ Near hashCombine first second

/-- A document asked about was found new, or is near one that is stored or was asked about
before it. -/
theorem near_earlier_of_run (h : run (ask hashCombine) docs log = some known)
    {before after : List Verdict} {verdict : Verdict} (hlog : log = before ++ verdict :: after) :
    (verdict.2 = false ∨ ∃ doc ∈ docs, NearHeard hashCombine docs log verdict.1 doc) ∨
      ∃ earlier ∈ before, NearHeard hashCombine docs log verdict.1 earlier.1 := by
  have hheard : verdict.1 ∈ heard docs log := mem_heard_of_log (by simp [hlog])
  have hbefore : ∀ earlier ∈ before, earlier.1 ∈ heard docs log := by
    intro earlier hmem
    apply mem_heard_of_log
    rw [hlog]
    exact List.mem_append_left _ hmem
  have hanswer := verdict_of_run (hlog ▸ h)
  cases hverdict : verdict.2 with
  | false => exact Or.inl (Or.inl rfl)
  | true =>
      rw [hverdict, eq_comm, decide_eq_true_iff, duplicated_iff] at hanswer
      obtain ⟨doc, hdoc, hnear⟩ := hanswer
      rcases List.mem_append.mp hdoc with hstored | hearlier
      · exact Or.inl (Or.inr ⟨doc, hstored, hheard, List.mem_append_left _ hstored, hnear⟩)
      · obtain ⟨earlier, hmem, rfl⟩ := List.mem_map.mp hearlier
        exact Or.inr ⟨earlier, hmem, hheard, hbefore earlier hmem, hnear⟩

/-- From every document asked about, a chain of documents the service has heard of, each near
the next, leads to one that was known at the start or was found new. -/
theorem linked_of_run (h : run (ask hashCombine) docs log = some known) {verdict : Verdict}
    (hverdict : verdict ∈ log) :
    ∃ root, Relation.ReflTransGen (NearHeard hashCombine docs log) verdict.1 root ∧
      (root ∈ docs ∨ (root, false) ∈ log) := by
  obtain ⟨root, hmem, hroot, hchain⟩ := exists_root
    (R := fun a b : Verdict => NearHeard hashCombine docs log a.1 b.1)
    (fun _ _ _ hlog => near_earlier_of_run h hlog) hverdict
  have hdocs := hchain.lift (p := NearHeard hashCombine docs log) Prod.fst fun _ _ hnear => hnear
  rcases hroot with hnew | ⟨doc, hdoc, hnear⟩
  · refine ⟨root.1, hdocs, Or.inr ?_⟩
    rwa [← hnew]
  · exact ⟨doc, hdocs.tail hnear, Or.inl hdoc⟩

/-- A document that was found new is near none that was known. -/
theorem not_near_of_new {before after : List Verdict} {message : DocSignature}
    (h : run (ask hashCombine) docs (before ++ (message, false) :: after) = some known)
    {doc : DocSignature} (hdoc : doc ∈ docs ++ before.map Prod.fst) :
    ¬ Near hashCombine message doc := by
  intro hnear
  have hanswer := verdict_of_run h
  rw [eq_comm, decide_eq_false_iff_not, duplicated_iff] at hanswer
  exact hanswer ⟨doc, hdoc, hnear⟩

/-- Of two documents found new, neither is near the other. -/
theorem not_near_of_news (h : run (ask hashCombine) docs log = some known)
    {first second : DocSignature} (hfirst : (first, false) ∈ log)
    (hsecond : (second, false) ∈ log) : ¬ Near hashCombine first second := by
  intro hnear
  obtain ⟨before, after, rfl⟩ := List.append_of_mem hfirst
  rcases List.mem_append.mp hsecond with hearlier | hlater
  · exact not_near_of_new h (List.mem_append_right _ (List.mem_map_of_mem hearlier)) hnear
  · rcases List.mem_cons.mp hlater with hsame | hafter
    · exact hnear.1 (congrArg (fun verdict : Verdict => verdict.1.1) hsame).symm
    · obtain ⟨middle, rest, rfl⟩ := List.append_of_mem hafter
      have hsplit : before ++ (first, false) :: (middle ++ (second, false) :: rest) =
          (before ++ (first, false) :: middle) ++ (second, false) :: rest := by
        simp
      rw [hsplit] at h
      have hearlier : first ∈ docs ++
          ((before ++ (first, false) :: middle).map Prod.fst) := by
        simp
      exact not_near_of_new h hearlier ⟨hnear.1.symm, hnear.2.symm⟩

/-- The stories that are told by the documents: a chain of documents the service has heard of
leads from each one back to one that was stored or found new. Of each story that was asked
about and not known, at least one document was found new, if documents near each other tell one
story. Where all documents of a story are near each other, exactly one was, and none
of a story that was known. Only the documents that the service has heard of matter. -/
structure StoriesKept (hashCombine : HashCombine) (docs : List DocSignature)
    (log : List Verdict) : Prop where
  linked : ∀ verdict ∈ log, ∃ root,
    Relation.ReflTransGen (NearHeard hashCombine docs log) verdict.1 root ∧
      (root ∈ docs ∨ (root, false) ∈ log)
  atLeastOne : ∀ (κ : Type) (story : DocSignature → κ),
    (∀ first second, NearHeard hashCombine docs log first second →
      story first = story second) →
    ∀ verdict ∈ log, (∀ doc ∈ docs, story doc ≠ story verdict.1) →
      ∃ message, (message, false) ∈ log ∧ story message = story verdict.1
  atMostOne : ∀ (κ : Type) (story : DocSignature → κ),
    (∀ first ∈ heard docs log, ∀ second ∈ heard docs log, first.1 ≠ second.1 →
      story first = story second → Near hashCombine first second) →
    ∀ message, (message, false) ∈ log →
      (∀ doc ∈ docs, doc.1 ≠ message.1 → story doc ≠ story message) ∧
      ∀ other, (other, false) ∈ log → story other = story message → other.1 = message.1

theorem storiesKept_of_run (h : run (ask hashCombine) docs log = some known) :
    StoriesKept hashCombine docs log where
  linked _ hverdict := linked_of_run h hverdict
  atLeastOne κ story hnear verdict hverdict hunknown := by
    obtain ⟨root, hchain, hroot⟩ := linked_of_run h hverdict
    have hsame := eq_of_chain hnear hchain
    rcases hroot with hstored | hnew
    · exact absurd hsame.symm (hunknown root hstored)
    · exact ⟨root, hnew, hsame.symm⟩
  atMostOne κ story hnear message hmessage := by
    have hheard : message ∈ heard docs log := mem_heard_of_log hmessage
    constructor
    · intro doc hdoc hid hsame
      obtain ⟨before, after, rfl⟩ := List.append_of_mem hmessage
      exact not_near_of_new h (List.mem_append_left _ hdoc)
        (hnear message hheard doc (List.mem_append_left _ hdoc) hid.symm hsame.symm)
    · intro other hother hsame
      by_contra hid
      exact not_near_of_news h hother hmessage
        (hnear other (mem_heard_of_log hother) message hheard hid hsame)

end AskService

section Runs

variable {Thread Stub : Type} [DecidableEq Thread] [DecidableEq Stub]
  {transport : Transport Stub} {archive : Archive} {hashCombine : HashCombine}
  {stubOf : Thread → Stub} {docs : List DocSignature} {actions : List (NetAction Thread)}
  {s t final : Net Thread Stub}

/-! ## The server's log -/

omit [DecidableEq Thread] [DecidableEq Stub] in
theorem served_of_recvFrame {frame : Frame} {mid : Net Thread Stub}
    (hframe : s.recvFrame transport = some (frame, mid)) : mid.served = s.served := by
  unfold Net.recvFrame at hframe
  split at hframe
  · cases hframe
    rfl
  · cases hframe
    rfl
  · cases hframe

/-- Nobody takes anything out of the log. -/
theorem served_prefix_of_step {action : NetAction Thread}
    (hstep : s.step transport archive hashCombine stubOf action = some t) :
    s.served <+: t.served := by
  cases action with
  | send thread message =>
      simp only [Net.step, Net.send] at hstep
      split at hstep
      · cases hstep
      · cases hstep
        exact List.prefix_rfl
      · cases hstep
        exact List.prefix_rfl
  | deliverRequest idx =>
      obtain ⟨request, -, rfl⟩ := Option.map_eq_some_iff.mp hstep
      exact List.prefix_rfl
  | serve =>
      cases Net.serves_of_serve hstep with
      | recvIdentity hpc hframe => exact (served_of_recvFrame hframe).symm ▸ List.prefix_rfl
      | recvDelimiter hpc hframe => exact (served_of_recvFrame hframe).symm ▸ List.prefix_rfl
      | throws hpc hframe hthrows => exact (served_of_recvFrame hframe).symm ▸ List.prefix_rfl
      | recvIdSign hpc hframe hidSign hres =>
          rw [← served_of_recvFrame hframe]
          exact List.prefix_append _ _
      | sendIdentity hpc => exact List.prefix_rfl
      | sendDelimiter hpc => exact List.prefix_rfl
      | sendRes hpc =>
          simp only [Net.sendLast]
          split
          · exact List.prefix_rfl
          · split
            · exact List.prefix_rfl
            · exact List.prefix_rfl
  | deliverReply idx =>
      obtain ⟨⟨stub, frames⟩, -, rfl⟩ := Option.map_eq_some_iff.mp hstep
      dsimp only
      split
      · exact List.prefix_rfl
      · exact List.prefix_rfl
  | receive thread =>
      obtain ⟨message, -, hreceived⟩ := Option.bind_eq_some_iff.mp hstep
      dsimp only at hreceived
      split at hreceived
      · cases hreceived
        exact List.prefix_rfl
      · cases hreceived
      · cases hreceived
      · obtain ⟨res, -, hreceived⟩ := Option.bind_eq_some_iff.mp hreceived
        cases hreceived
        exact List.prefix_rfl

theorem served_prefix_of_run
    (hrun : run (Net.step transport archive hashCombine stubOf) s actions = some t) :
    s.served <+: t.served := by
  apply run_preserves (P := fun m : Net Thread Stub => s.served <+: m.served) hrun List.prefix_rfl
  intro m action next hm hstep
  exact hm.trans (served_prefix_of_step hstep)

/-! ## The protocol behaves as the service -/

/-- The log is a sequence of questions to the service, each call returns the answer to
its own question, and a call that returned before another began is asked before it. -/
structure ServesAsOne (transport : Transport Stub) (archive : Archive)
    (hashCombine : HashCombine) (stubOf : Thread → Stub) (docs : List DocSignature)
    (dedup : ArticleDedup) (actions : List (NetAction Thread)) (final : Net Thread Stub) :
    Prop where
  questions : run (AskService.ask hashCombine) docs (final.served.map Prod.snd) =
    some (docs ++ (final.served.map Prod.snd).map Prod.fst)
  answers : ∀ stub, logOf (stubOf · = stub) final.completed <+:
    logOf (· = transport.identity stub) final.served
  realTime : ∀ hist, hist <+: actions → ∀ mid,
    run (Net.step transport archive hashCombine stubOf) (Net.start dedup) hist = some mid →
    mid.served <+: final.served ∧
    (∀ thread verdict, (thread, verdict) ∈ mid.completed →
      (transport.identity (stubOf thread), verdict) ∈ mid.served) ∧
    ∀ entry ∈ mid.served, ∃ thread, entry.1 = transport.identity (stubOf thread) ∧
      (thread, entry.2.1) ∈ NetAction.sends hist

/-- **Run lemma.** Every state of a run whose calls begin in turn represents calls in
progress. -/
theorem represents_of_inTurn {dedup : ArticleDedup}
    (hmake : ArticleDedup.make hashCombine docs = some dedup)
    (hturn : AllSteps (Net.step transport archive hashCombine stubOf) (InTurn stubOf)
      (Net.start dedup) actions) :
    AllStates (Net.step transport archive hashCombine stubOf)
      (fun hist m => ∃ progress,
        Represents transport archive hashCombine stubOf docs hist progress m)
      (Net.start dedup) actions := by
  apply allStates_of_allSteps (P := fun hist m => ∃ progress,
    Represents transport archive hashCombine stubOf docs hist progress m) _ _ hturn
  · exact ⟨_, Represents.start hmake⟩
  · rintro hist m action next ⟨progress, h⟩ hok hstep
    exact h.step hok hstep

omit [DecidableEq Thread] in
/-- The log is a sequence of questions to the service. -/
theorem Represents.questions {progress : Stub → Option (Call Thread)}
    (h : Represents transport archive hashCombine stubOf docs actions progress s) :
    run (AskService.ask hashCombine) docs (s.served.map Prod.snd) =
      some (docs ++ (s.served.map Prod.snd).map Prod.fst) := by
  rw [AskService.run_ask_iff, List.map_map, List.map_map]
  exact ⟨h.inTurn.verdicts, rfl⟩

/-- **The protocol is one object.** In every run whose calls begin in turn. -/
theorem servesAsOne_of_run {dedup : ArticleDedup}
    (hmake : ArticleDedup.make hashCombine docs = some dedup)
    (hrun : run (Net.step transport archive hashCombine stubOf) (Net.start dedup) actions =
      some final)
    (hturn : AllSteps (Net.step transport archive hashCombine stubOf) (InTurn stubOf)
      (Net.start dedup) actions) :
    ServesAsOne transport archive hashCombine stubOf docs dedup actions final := by
  have hstates := represents_of_inTurn hmake hturn
  obtain ⟨progress, h⟩ := hstates actions List.prefix_rfl final hrun
  exact {
    questions := h.questions
    answers := by
      intro stub
      rw [(h.history stub).served]
      exact List.prefix_append _ _
    realTime := by
      intro hist hpre mid hmid
      obtain ⟨earlier, hearlier⟩ := hstates hist hpre mid hmid
      obtain ⟨rest, rfl⟩ := hpre
      obtain ⟨m, hm, hrest⟩ := run_append_eq_some.mp hrun
      obtain rfl : mid = m := Option.some.inj (hmid.symm.trans hm)
      refine ⟨served_prefix_of_run hrest, fun thread verdict hmem =>
        hearlier.served_of_completed hmem, ?_⟩
      intro entry hentry
      obtain ⟨stub, hstub⟩ := hearlier.inTurn.peers entry hentry
      obtain ⟨thread, hthread, hsent⟩ := hearlier.sent_of_served hstub hentry
      exact ⟨thread, hthread.symm ▸ hstub, hsent⟩ }

/-- **No story is lost.** In every run whose calls begin in turn. -/
theorem noStoryLost_of_run {dedup : ArticleDedup}
    (hmake : ArticleDedup.make hashCombine docs = some dedup)
    (hrun : run (Net.step transport archive hashCombine stubOf) (Net.start dedup) actions =
      some final)
    (hturn : AllSteps (Net.step transport archive hashCombine stubOf) (InTurn stubOf)
      (Net.start dedup) actions) :
    AskService.StoriesKept hashCombine docs (final.served.map Prod.snd) := by
  obtain ⟨progress, h⟩ := represents_of_inTurn hmake hturn actions List.prefix_rfl final hrun
  exact AskService.storiesKept_of_run h.questions

end Runs

/-! ## Two clients that ask at once -/

/-- The run of the two calls begins its calls in turn. -/
theorem exists_run_twoCalls :
    ∃ dedup final, ArticleDedup.make manualHashCombine [] = some dedup ∧
      run (Net.step twoClients textArchive manualHashCombine id) (Net.start dedup) twoCalls =
        some final ∧
      AllSteps (Net.step twoClients textArchive manualHashCombine id) (InTurn id)
        (Net.start dedup) twoCalls := by
  have hsome : (protocolRun twoClients textArchive manualHashCombine [] twoCalls).isSome := by
    decide +kernel
  obtain ⟨final, hfinal⟩ := Option.isSome_iff_exists.mp hsome
  obtain ⟨dedup, hmake, hrun⟩ := Option.bind_eq_some_iff.mp hfinal
  exact ⟨dedup, final, hmake, hrun, allSteps_inTurn_of_own hrun⟩

theorem servesAsOne_of_two_calls :
    ∃ dedup final, ArticleDedup.make manualHashCombine [] = some dedup ∧
      run (Net.step twoClients textArchive manualHashCombine id) (Net.start dedup) twoCalls =
        some final ∧
      ServesAsOne twoClients textArchive manualHashCombine id [] dedup twoCalls final := by
  obtain ⟨dedup, final, hmake, hrun, hturn⟩ := exists_run_twoCalls
  exact ⟨dedup, final, hmake, hrun, servesAsOne_of_run hmake hrun hturn⟩

theorem noStoryLost_of_two_calls :
    ∃ dedup final, ArticleDedup.make manualHashCombine [] = some dedup ∧
      run (Net.step twoClients textArchive manualHashCombine id) (Net.start dedup) twoCalls =
        some final ∧
      AskService.StoriesKept manualHashCombine [] (final.served.map Prod.snd) := by
  obtain ⟨dedup, final, hmake, hrun, hturn⟩ := exists_run_twoCalls
  exact ⟨dedup, final, hmake, hrun, noStoryLost_of_run hmake hrun hturn⟩

end Unbiased
