/-
# The invariant of the dedup protocol

At every moment each stub has at most one call in progress, and the call is at
one place: its request in flight, its request waiting at the server, in the
server's hands, its reply in flight, or its reply waiting at the client. The
frames, the sockets and the server loop say nothing else. What has happened at a
stub is a list of calls that were answered in order.

Here are the invariant and what it takes to keep it; the steps themselves follow
in a module of their own.
-/

import Unbiased.Dedup.Protocol

namespace Unbiased

open Unbiased.Math

/-! ## Verdicts in a row -/

/-- What the server says about messages it gets one after the other. -/
def verdicts (hashCombine : HashCombine) : List DocSignature → List DocSignature → List Bool
  | _, [] => []
  | docs, message :: rest =>
    decide (Duplicated hashCombine docs message) :: verdicts hashCombine (docs ++ [message]) rest

theorem verdicts_concat (hashCombine : HashCombine) (docs messages : List DocSignature)
    (message : DocSignature) :
    verdicts hashCombine docs (messages ++ [message]) = verdicts hashCombine docs messages ++
      [decide (Duplicated hashCombine (docs ++ messages) message)] := by
  induction messages generalizing docs with
  | nil => simp [verdicts]
  | cons first rest ih =>
      rw [List.cons_append, verdicts, ih, List.append_assoc]
      rfl

/-- The verdicts recorded after one more message. -/
theorem verdicts_log_concat {hashCombine : HashCombine} {docs : List DocSignature}
    {log : List Verdict} {verdict : Verdict}
    (h : (log ++ [verdict]).map Prod.snd =
      verdicts hashCombine docs ((log ++ [verdict]).map Prod.fst)) :
    log.map Prod.snd = verdicts hashCombine docs (log.map Prod.fst) ∧
      verdict.2 = decide (Duplicated hashCombine (docs ++ log.map Prod.fst) verdict.1) := by
  rw [List.map_append, List.map_append, List.map_singleton, List.map_singleton,
    verdicts_concat] at h
  have hsplit := List.append_inj' h rfl
  exact ⟨hsplit.1, List.singleton_inj.mp hsplit.2⟩

/-- Of the messages with one signature, only the first can be found new. -/
theorem eq_of_ok {hashCombine : HashCombine} {docs : List DocSignature} {log : List Verdict}
    (hlog : log.map Prod.snd = verdicts hashCombine docs (log.map Prod.fst))
    (hids : (log.map fun verdict => verdict.1.1).Nodup) {first second : DocSignature}
    (hfirst : (first, false) ∈ log) (hsecond : (second, false) ∈ log)
    (hsignature : first.2 = second.2) : first = second := by
  induction log using List.reverseRecOn with
  | nil => cases hfirst
  | append_singleton log verdict ih =>
      have ⟨hbefore, hverdict⟩ := verdicts_log_concat hlog
      rw [List.map_append, List.map_singleton, List.nodup_append] at hids
      have hnew : ∀ message, (message, false) ∈ log → verdict.2 = false →
          message.2 ≠ verdict.1.2 := by
        intro message hmessage hok heq
        rw [hok, eq_comm, decide_eq_false_iff_not] at hverdict
        apply hverdict
        refine ⟨message, List.mem_append_right _ (List.mem_map_of_mem hmessage), ?_, ?_⟩
        · exact hids.2.2 message.1 (List.mem_map_of_mem hmessage) _ List.mem_cons_self
        · rw [heq]
          exact BucketTable.Collide.refl _ _
      rw [List.mem_append, List.mem_singleton] at hfirst hsecond
      rcases hfirst with hfirst | rfl
      · rcases hsecond with hsecond | rfl
        · exact ih hbefore hids.1 hfirst hsecond
        · exact absurd hsignature (hnew first hfirst rfl)
      · rcases hsecond with hsecond | hsecond
        · exact absurd hsignature.symm (hnew second hsecond rfl)
        · exact (congrArg Prod.fst hsecond).symm

/-- A message that shares a band with another document known from the start is
never found new. -/
theorem not_shareBand_of_ok {hashCombine : HashCombine} {docs : List DocSignature}
    {log : List Verdict} (hlog : log.map Prod.snd = verdicts hashCombine docs (log.map Prod.fst))
    {message doc : DocSignature} (hmessage : (message, false) ∈ log) (hdoc : doc ∈ docs)
    (hid : doc.1 ≠ message.1) : ¬ ShareBand hashCombine message.2 doc.2 := by
  intro hshare
  induction log using List.reverseRecOn with
  | nil => cases hmessage
  | append_singleton log verdict ih =>
      have ⟨hbefore, hverdict⟩ := verdicts_log_concat hlog
      rw [List.mem_append, List.mem_singleton] at hmessage
      rcases hmessage with hmessage | rfl
      · exact ih hbefore hmessage
      · rw [eq_comm, decide_eq_false_iff_not] at hverdict
        exact hverdict ⟨doc, List.mem_append_left _ hdoc, hid, hshare⟩

/-! ## Where a call is -/

/-- How far a call has come. -/
inductive Stage where
  /-- Its request is in flight. -/
  | sent
  /-- Its request has arrived. -/
  | queued
  /-- The server is receiving its request. -/
  | serving
  /-- The server is sending its reply. -/
  | answered (res : Bool)
  /-- Its reply is in flight. -/
  | routed (res : Bool)
  /-- Its reply has arrived. -/
  | delivered (res : Bool)

/-- A call in progress. -/
structure Call (Thread : Type) where
  thread : Thread
  message : DocSignature
  stage : Stage

namespace Call

variable {Thread : Type}

/-- The frames that a REQ socket puts around a request. -/
def requestFrames (archive : Archive) (message : DocSignature) : List Frame :=
  [[], archive.serializeIdSign message]

/-- The request in flight of a stub with this call in progress, if there is one. -/
def requestOf (archive : Archive) : Option (Call Thread) → Option (List Frame)
  | some ⟨_, message, .sent⟩ => some (requestFrames archive message)
  | _ => none

/-- Its request that has arrived. -/
def queuedOf (archive : Archive) : Option (Call Thread) → Option (List Frame)
  | some ⟨_, message, .queued⟩ => some (requestFrames archive message)
  | _ => none

/-- Its message at the server, with the verdict once there is one. -/
def servingOf : Option (Call Thread) → Option (DocSignature × Option Bool)
  | some ⟨_, message, .serving⟩ => some (message, none)
  | some ⟨_, message, .answered res⟩ => some (message, some res)
  | _ => none

/-- Its reply in flight. -/
def replyOf : Option (Call Thread) → Option (List Frame)
  | some ⟨_, _, .routed res⟩ => some [[], resStr res]
  | _ => none

/-- Its socket. -/
def socketOf : Option (Call Thread) → ReqSocket
  | none => .ready
  | some ⟨_, _, .delivered res⟩ => .replied [resStr res]
  | some _ => .waiting

/-- The verdict that it has not returned yet. -/
def verdictOf : Option (Call Thread) → List Verdict
  | some ⟨_, message, .answered res⟩ => [(message, res)]
  | some ⟨_, message, .routed res⟩ => [(message, res)]
  | some ⟨_, message, .delivered res⟩ => [(message, res)]
  | _ => []

/-- The reply that it has not received yet. -/
def arrivedOf : Option (Call Thread) → List Frame
  | some ⟨_, _, .delivered res⟩ => [resStr res]
  | _ => []

theorem requestOf_eq_some {archive : Archive} {call : Option (Call Thread)} {frames : List Frame}
    (h : requestOf archive call = some frames) :
    ∃ thread message, call = some ⟨thread, message, .sent⟩ ∧
      frames = requestFrames archive message := by
  unfold requestOf at h
  split at h
  · cases h
    exact ⟨_, _, rfl, rfl⟩
  · cases h

theorem queuedOf_eq_some {archive : Archive} {call : Option (Call Thread)} {frames : List Frame}
    (h : queuedOf archive call = some frames) :
    ∃ thread message, call = some ⟨thread, message, .queued⟩ ∧
      frames = requestFrames archive message := by
  unfold queuedOf at h
  split at h
  · cases h
    exact ⟨_, _, rfl, rfl⟩
  · cases h

theorem servingOf_eq_some {call : Option (Call Thread)} {message : DocSignature}
    {verdict : Option Bool} (h : servingOf call = some (message, verdict)) :
    ∃ thread, (call = some ⟨thread, message, .serving⟩ ∧ verdict = none) ∨
      ∃ res, call = some ⟨thread, message, .answered res⟩ ∧ verdict = some res := by
  unfold servingOf at h
  split at h
  · cases h
    exact ⟨_, Or.inl ⟨rfl, rfl⟩⟩
  · cases h
    exact ⟨_, Or.inr ⟨_, rfl, rfl⟩⟩
  · cases h

theorem replyOf_eq_some {call : Option (Call Thread)} {frames : List Frame}
    (h : replyOf call = some frames) :
    ∃ thread message res, call = some ⟨thread, message, .routed res⟩ ∧
      frames = [[], resStr res] := by
  unfold replyOf at h
  split at h
  · cases h
    exact ⟨_, _, _, rfl, rfl⟩
  · cases h

/-- A socket that is ready has no call in progress. -/
theorem eq_none_of_socketOf_ready {call : Option (Call Thread)} (h : socketOf call = .ready) :
    call = none := by
  unfold socketOf at h
  split at h
  · rfl
  · cases h
  · cases h

/-- A socket with a reply is that of a call whose reply has arrived. -/
theorem socketOf_eq_replied {call : Option (Call Thread)} {frames : List Frame}
    (h : socketOf call = .replied frames) :
    ∃ thread message res, call = some ⟨thread, message, .delivered res⟩ ∧
      frames = [resStr res] := by
  unfold socketOf at h
  split at h
  · cases h
  · cases h
    exact ⟨_, _, _, rfl, rfl⟩
  · cases h

end Call

/-- The state of the server loop, by the call it works on. -/
inductive ServerHolds {Stub : Type} (transport : Transport Stub) (archive : Archive) :
    ServerPc → List Frame → List Frame → List (Stub × DocSignature × Option Bool) → Prop where
  | idle : ServerHolds transport archive .recvIdentity [] [] []
  | identity (stub : Stub) (message : DocSignature) :
    ServerHolds transport archive (.recvDelimiter (transport.identity stub))
      (Call.requestFrames archive message) [] [(stub, message, none)]
  | delimiter (stub : Stub) (message : DocSignature) :
    ServerHolds transport archive (.recvIdSign (transport.identity stub))
      [archive.serializeIdSign message] [] [(stub, message, none)]
  | verdict (stub : Stub) (message : DocSignature) (res : Bool) :
    ServerHolds transport archive (.sendIdentity (transport.identity stub) (resStr res))
      [] [] [(stub, message, some res)]
  | addressed (stub : Stub) (message : DocSignature) (res : Bool) :
    ServerHolds transport archive (.sendDelimiter (resStr res))
      [] [transport.identity stub] [(stub, message, some res)]
  | delimited (stub : Stub) (message : DocSignature) (res : Bool) :
    ServerHolds transport archive (.sendRes (resStr res))
      [] [transport.identity stub, []] [(stub, message, some res)]

/-! ## The invariant -/

section Invariant

variable {Thread Stub : Type} [DecidableEq Stub]

/-- The messages in flight, the server loop and the sockets are those of the calls
in progress, one for each stub at most. -/
structure InFlight (transport : Transport Stub) (archive : Archive)
    (progress : Stub → Option (Call Thread)) (s : Net Thread Stub) : Prop where
  requests : Pool (Call.requestOf archive) progress s.requests
  inbox : Pool (Call.queuedOf archive) progress s.inbox
  server : ∃ held, Pool Call.servingOf progress held ∧
    ServerHolds transport archive s.pc s.unread s.unsent held
  replies : Pool Call.replyOf progress s.replies
  sockets : ∀ stub, s.sockets stub = Call.socketOf (progress stub)

/-- The threads that wait are those of the calls in progress. -/
structure Callers (stubOf : Thread → Stub) (progress : Stub → Option (Call Thread))
    (calls : Thread → Option DocSignature) : Prop where
  owner : ∀ stub call, progress stub = some call →
    stubOf call.thread = stub ∧ calls call.thread = some call.message
  caller : ∀ thread message, calls thread = some message →
    ∃ call, progress (stubOf thread) = some call ∧ call.thread = thread

/-- What has happened at one stub: its messages were answered in order, each once,
and each answer was delivered and returned, up to the call in progress. -/
structure StubHistory (transport : Transport Stub) (stubOf : Thread → Stub)
    (actions : List (NetAction Thread)) (s : Net Thread Stub) (stub : Stub)
    (call : Option (Call Thread)) : Prop where
  sent : logOf (stubOf · = stub) (NetAction.sends actions) =
    (logOf (stubOf · = stub) s.completed).map Prod.fst ++ (call.map Call.message).toList
  served : logOf (· = transport.identity stub) s.served =
    logOf (stubOf · = stub) s.completed ++ Call.verdictOf call
  delivered : logOf (· = stub) s.delivered =
    (logOf (stubOf · = stub) s.completed).map (fun verdict => resStr verdict.2) ++
      Call.arrivedOf call

/-- The server's verdicts are those of a server that gets the messages it has
served one after the other. -/
structure ServedInTurn (transport : Transport Stub) (hashCombine : HashCombine)
    (docs : List DocSignature) (s : Net Thread Stub) : Prop where
  peers : ∀ entry ∈ s.served, ∃ stub, entry.1 = transport.identity stub
  knows : LSHDeduplication.Knows hashCombine (docs ++ s.served.map fun entry => entry.2.1)
    s.dedup.lshDeduplication
  verdicts : (s.served.map fun entry => entry.2.2) =
    verdicts hashCombine docs (s.served.map fun entry => entry.2.1)

/-- Every message and every waiting thread belongs to a call in progress, no call
has thrown, and the server has served in turn. -/
structure Represents (transport : Transport Stub) (archive : Archive)
    (hashCombine : HashCombine) (stubOf : Thread → Stub) (docs : List DocSignature)
    (actions : List (NetAction Thread)) (progress : Stub → Option (Call Thread))
    (s : Net Thread Stub) : Prop where
  inFlight : InFlight transport archive progress s
  callers : Callers stubOf progress s.calls
  history : ∀ stub, StubHistory transport stubOf actions s stub (progress stub)
  inTurn : ServedInTurn transport hashCombine docs s
  thrown : s.thrown = []

variable {transport : Transport Stub} {archive : Archive} {hashCombine : HashCombine}
  {stubOf : Thread → Stub} {docs : List DocSignature} {actions : List (NetAction Thread)}
  {progress : Stub → Option (Call Thread)} {s t : Net Thread Stub}

/-- At the start there are no calls. -/
theorem Represents.start {dedup : ArticleDedup}
    (hmake : ArticleDedup.make hashCombine docs = some dedup) :
    Represents transport archive hashCombine stubOf docs [] (fun _ => none)
      (Net.start dedup : Net Thread Stub) := by
  refine ⟨⟨Pool.empty fun _ => rfl, Pool.empty fun _ => rfl, ⟨[], Pool.empty fun _ => rfl, .idle⟩,
    Pool.empty fun _ => rfl, fun _ => rfl⟩, ⟨?_, ?_⟩, fun stub => ⟨rfl, rfl, rfl⟩,
    ⟨?_, ?_, rfl⟩, rfl⟩
  · intro stub call hcall
    cases hcall
  · intro thread message hmessage
    cases hmessage
  · intro entry hentry
    cases hentry
  · show LSHDeduplication.Knows hashCombine (docs ++ []) dedup.lshDeduplication
    rw [List.append_nil]
    exact ArticleDedup.knows_of_make hmake

/-! ## Keeping the invariant -/

theorem Callers.begins [DecidableEq Thread] (h : Callers stubOf progress s.calls) {thread : Thread}
    {message : DocSignature} (hfree : progress (stubOf thread) = none) :
    Callers stubOf (Function.update progress (stubOf thread) (some ⟨thread, message, .sent⟩))
      (Function.update s.calls thread (some message)) where
  owner stub call hcall := by
    by_cases hstub : stub = stubOf thread
    · rw [hstub, Function.update_self] at hcall
      cases hcall
      exact ⟨hstub.symm, Function.update_self ..⟩
    · rw [Function.update_of_ne hstub] at hcall
      have howner := h.owner stub call hcall
      have hne : call.thread ≠ thread := by
        intro heq
        exact hstub (howner.1.symm.trans (congrArg stubOf heq))
      rw [Function.update_of_ne hne]
      exact howner
  caller other message hcalls := by
    by_cases hother : other = thread
    · rw [hother, Function.update_self]
      exact ⟨_, rfl, rfl⟩
    · rw [Function.update_of_ne hother] at hcalls
      have ⟨call, hcall, hthread⟩ := h.caller other message hcalls
      have hne : stubOf other ≠ stubOf thread := by
        intro heq
        rw [heq, hfree] at hcall
        cases hcall
      rw [Function.update_of_ne hne]
      exact ⟨call, hcall, hthread⟩

theorem Callers.advances (h : Callers stubOf progress s.calls) {stub : Stub}
    {call : Call Thread} (hcall : progress stub = some call) (stage : Stage) :
    Callers stubOf (Function.update progress stub (some { call with stage := stage }))
      s.calls where
  owner other found hfound := by
    by_cases hother : other = stub
    · rw [hother, Function.update_self] at hfound
      cases hfound
      rw [hother]
      exact h.owner stub call hcall
    · rw [Function.update_of_ne hother] at hfound
      exact h.owner other found hfound
  caller thread message hcalls := by
    have ⟨found, hfound, hthread⟩ := h.caller thread message hcalls
    by_cases hstub : stubOf thread = stub
    · rw [hstub, hcall] at hfound
      cases hfound
      rw [hstub, Function.update_self]
      exact ⟨_, rfl, hthread⟩
    · rw [Function.update_of_ne hstub]
      exact ⟨found, hfound, hthread⟩

theorem Callers.ends [DecidableEq Thread] (h : Callers stubOf progress s.calls) {stub : Stub}
    {call : Call Thread} (hcall : progress stub = some call) :
    Callers stubOf (Function.update progress stub none)
      (Function.update s.calls call.thread none) where
  owner other found hfound := by
    by_cases hother : other = stub
    · rw [hother, Function.update_self] at hfound
      cases hfound
    · rw [Function.update_of_ne hother] at hfound
      have howner := h.owner other found hfound
      have hne : found.thread ≠ call.thread := by
        intro heq
        exact hother (howner.1.symm.trans ((congrArg stubOf heq).trans (h.owner stub call hcall).1))
      rw [Function.update_of_ne hne]
      exact howner
  caller thread message hcalls := by
    by_cases hthread : thread = call.thread
    · rw [hthread, Function.update_self] at hcalls
      cases hcalls
    · rw [Function.update_of_ne hthread] at hcalls
      have ⟨found, hfound, hfoundThread⟩ := h.caller thread message hcalls
      have hne : stubOf thread ≠ stub := by
        intro heq
        rw [heq, hcall] at hfound
        cases hfound
        exact hthread hfoundThread.symm
      rw [Function.update_of_ne hne]
      exact ⟨found, hfound, hfoundThread⟩

/-- A step that logs nothing at a stub leaves its history as it is. -/
theorem StubHistory.keep {stub : Stub} {call next : Option (Call Thread)}
    {later : List (NetAction Thread)}
    (h : StubHistory transport stubOf actions s stub call)
    (hsends : logOf (stubOf · = stub) (NetAction.sends later) =
      logOf (stubOf · = stub) (NetAction.sends actions))
    (hserved : logOf (· = transport.identity stub) t.served =
      logOf (· = transport.identity stub) s.served)
    (hdelivered : logOf (· = stub) t.delivered = logOf (· = stub) s.delivered)
    (hcompleted : logOf (stubOf · = stub) t.completed = logOf (stubOf · = stub) s.completed)
    (hmessage : next.map Call.message = call.map Call.message)
    (hverdict : Call.verdictOf next = Call.verdictOf call)
    (harrived : Call.arrivedOf next = Call.arrivedOf call) :
    StubHistory transport stubOf later t stub next where
  sent := by rw [hsends, hcompleted, hmessage, h.sent]
  served := by rw [hserved, hcompleted, hverdict, h.served]
  delivered := by rw [hdelivered, hcompleted, harrived, h.delivered]

/-- One stub's call goes on, and the other stubs keep their histories. -/
theorem histories_update {later : List (NetAction Thread)} {stub : Stub}
    {call : Option (Call Thread)} (hstub : StubHistory transport stubOf later t stub call)
    (hothers : ∀ other ≠ stub, StubHistory transport stubOf later t other (progress other))
    (other : Stub) :
    StubHistory transport stubOf later t other (Function.update progress stub call other) := by
  by_cases hother : other = stub
  · rw [hother, Function.update_self]
    exact hstub
  · rw [Function.update_of_ne hother]
    exact hothers other hother

/-- The sockets stay as they are if a call moves on without using its own. -/
theorem sockets_of_keep {sockets : Stub → ReqSocket} {stub : Stub} {x : Option (Call Thread)}
    (h : ∀ stub, sockets stub = Call.socketOf (progress stub))
    (hsame : Call.socketOf x = Call.socketOf (progress stub)) (other : Stub) :
    sockets other = Call.socketOf (Function.update progress stub x other) := by
  by_cases hother : other = stub
  · rw [hother, Function.update_self, hsame]
    exact h stub
  · rw [Function.update_of_ne hother]
    exact h other

/-- A call uses its socket. -/
theorem sockets_of_use {sockets : Stub → ReqSocket} {stub : Stub} {x : Option (Call Thread)}
    {socket : ReqSocket} (h : ∀ stub, sockets stub = Call.socketOf (progress stub))
    (hsocket : socket = Call.socketOf x) (other : Stub) :
    Function.update sockets stub socket other =
      Call.socketOf (Function.update progress stub x other) := by
  by_cases hother : other = stub
  · rw [hother, Function.update_self, Function.update_self, hsocket]
  · rw [Function.update_of_ne hother, Function.update_of_ne hother]
    exact h other

/-- The step changes messages and sockets only. -/
structure SameLogs (s t : Net Thread Stub) : Prop where
  calls : t.calls = s.calls
  dedup : t.dedup = s.dedup
  served : t.served = s.served
  delivered : t.delivered = s.delivered
  completed : t.completed = s.completed
  thrown : t.thrown = s.thrown

omit [DecidableEq Stub] in
theorem ServedInTurn.of_same (h : ServedInTurn transport hashCombine docs s)
    (hserved : t.served = s.served) (hdedup : t.dedup = s.dedup) :
    ServedInTurn transport hashCombine docs t where
  peers := by
    rw [hserved]
    exact h.peers
  knows := by
    rw [hserved, hdedup]
    exact h.knows
  verdicts := by
    rw [hserved]
    exact h.verdicts

omit [DecidableEq Stub] in
/-- The server gives one more verdict. -/
theorem ServedInTurn.answers (h : ServedInTurn transport hashCombine docs s) {stub : Stub}
    {message : DocSignature} {res : Bool}
    (hres : s.dedup.isDuplicate hashCombine message = some (res, t.dedup))
    (hserved : t.served = s.served ++ [(transport.identity stub, message, res)]) :
    ServedInTurn transport hashCombine docs t := by
  have ⟨hverdict, hknows⟩ := h.knows.of_isDuplicate hres
  exact {
    peers := by
      rw [hserved]
      intro entry hentry
      rcases List.mem_append.mp hentry with hold | hnew
      · exact h.peers entry hold
      · rw [List.mem_singleton.mp hnew]
        exact ⟨stub, rfl⟩
    knows := by
      rw [hserved, List.map_append, ← List.append_assoc]
      exact hknows
    verdicts := by
      rw [hserved, List.map_append, List.map_append, List.map_singleton, List.map_singleton,
        verdicts_concat, h.verdicts, hverdict] }

/-- The verdict on a message belongs to the history of its stub. -/
theorem StubHistory.answers {stub : Stub} {thread : Thread} {message : DocSignature} {res : Bool}
    {later : List (NetAction Thread)}
    (h : StubHistory transport stubOf actions s stub (some ⟨thread, message, .serving⟩))
    (hsends : NetAction.sends later = NetAction.sends actions)
    (hserved : t.served = s.served ++ [(transport.identity stub, message, res)])
    (hdelivered : t.delivered = s.delivered) (hcompleted : t.completed = s.completed) :
    StubHistory transport stubOf later t stub (some ⟨thread, message, .answered res⟩) where
  sent := by
    rw [hsends, hcompleted]
    exact h.sent
  served := by
    have hlog : logOf (· = transport.identity stub) t.served =
        logOf (· = transport.identity stub) s.served ++ [(message, res)] := by
      rw [hserved]
      exact logOf_concat_of_mine rfl
    rw [hlog, hcompleted, h.served]
    exact congrArg (· ++ [(message, res)]) (List.append_nil _)
  delivered := by
    rw [hdelivered, hcompleted]
    exact h.delivered

/-- The call that the server holds gets its verdict. -/
theorem held_answers {stub : Stub} {thread : Thread} {message : DocSignature}
    (hheld : Pool Call.servingOf progress [(stub, message, none)]) (res : Bool) :
    Pool Call.servingOf
      (Function.update progress stub (some ⟨thread, message, .answered res⟩))
      [(stub, message, some res)] := by
  have hfirst : [(stub, message, (none : Option Bool))][0]? = some (stub, message, none) := rfl
  have hleft := hheld.leave (x := none) hfirst rfl
  have hback := hleft.enter (x := some ⟨thread, message, .answered res⟩)
    (by rw [Function.update_self]; rfl) rfl
  rwa [Function.update_idem] at hback

/-- A step within the network or the server that leaves all calls where they are. -/
theorem Represents.stays
    (h : Represents transport archive hashCombine stubOf docs actions progress s)
    {later : List (NetAction Thread)} (hsends : NetAction.sends later = NetAction.sends actions)
    (hflight : InFlight transport archive progress t) (hsame : SameLogs s t) :
    Represents transport archive hashCombine stubOf docs later progress t where
  inFlight := hflight
  callers := by
    rw [hsame.calls]
    exact h.callers
  history stub := (h.history stub).keep (by rw [hsends]) (by rw [hsame.served])
    (by rw [hsame.delivered]) (by rw [hsame.completed]) rfl rfl rfl
  inTurn := h.inTurn.of_same hsame.served hsame.dedup
  thrown := hsame.thrown.trans h.thrown

/-- A step within the network or the server that takes one call further. -/
theorem Represents.moves
    (h : Represents transport archive hashCombine stubOf docs actions progress s)
    {later : List (NetAction Thread)} (hsends : NetAction.sends later = NetAction.sends actions)
    {stub : Stub} {call : Call Thread} (stage : Stage) (hcall : progress stub = some call)
    (hflight : InFlight transport archive
      (Function.update progress stub (some { call with stage := stage })) t)
    (hsame : SameLogs s t)
    (hverdict : Call.verdictOf (some { call with stage := stage }) = Call.verdictOf (some call))
    (harrived : Call.arrivedOf (some { call with stage := stage }) = Call.arrivedOf (some call)) :
    Represents transport archive hashCombine stubOf docs later
      (Function.update progress stub (some { call with stage := stage })) t where
  inFlight := hflight
  callers := by
    rw [hsame.calls]
    exact h.callers.advances hcall stage
  history := by
    apply histories_update
    · have hold := h.history stub
      rw [hcall] at hold
      exact hold.keep (by rw [hsends]) (by rw [hsame.served]) (by rw [hsame.delivered])
        (by rw [hsame.completed]) rfl hverdict harrived
    · intro other hother
      exact (h.history other).keep (by rw [hsends]) (by rw [hsame.served])
        (by rw [hsame.delivered]) (by rw [hsame.completed]) rfl rfl rfl
  inTurn := h.inTurn.of_same hsame.served hsame.dedup
  thrown := hsame.thrown.trans h.thrown

end Invariant

end Unbiased
