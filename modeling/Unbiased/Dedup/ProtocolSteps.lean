/-
# Steps of the dedup protocol

Every step keeps the invariant as long as calls begin in turn: only while no
other thread waits at the stub.
-/

import Unbiased.Dedup.ProtocolInvariant

namespace Unbiased

open Unbiased.Math

section Steps

variable {Thread Stub : Type} [DecidableEq Stub]

variable {transport : Transport Stub} {archive : Archive} {hashCombine : HashCombine}
  {stubOf : Thread → Stub} {docs : List DocSignature} {actions : List (NetAction Thread)}
  {progress : Stub → Option (Call Thread)} {s t : Net Thread Stub}

/-! ## Steps of the network and the server loop -/

theorem Represents.deliverRequest
    (h : Represents transport archive hashCombine stubOf docs actions progress s) {idx : ℕ}
    (hstep : s.deliverRequest idx = some t) :
    ∃ next, Represents transport archive hashCombine stubOf docs (actions ++ [.deliverRequest idx])
      next t := by
  rcases Option.map_eq_some_iff.mp hstep with ⟨⟨stub, frames⟩, hidx, rfl⟩
  have hflight := h.inFlight
  rcases Call.requestOf_eq_some (hflight.requests.content_of_mem (List.mem_of_getElem? hidx)) with
    ⟨thread, message, hcall, rfl⟩
  have ⟨held, hheld, hpc⟩ := hflight.server
  refine ⟨_, h.moves ?_ .queued hcall ?_ ⟨rfl, rfl, rfl, rfl, rfl, rfl⟩ rfl rfl⟩
  · simp [NetAction.sends]
  · exact {
      requests := hflight.requests.leave hidx rfl
      inbox := hflight.inbox.enter (by rw [hcall]; rfl) rfl
      server := ⟨held, hheld.keep (by rw [hcall]; rfl), hpc⟩
      replies := hflight.replies.keep (by rw [hcall]; rfl)
      sockets := sockets_of_keep hflight.sockets (by rw [hcall]; rfl) }

theorem NetAction.sends_concat_serve (actions : List (NetAction Thread)) :
    NetAction.sends (actions ++ [.serve]) = NetAction.sends actions := by
  simp [NetAction.sends]

/-- A step of the server that keeps the call it works on. -/
theorem Represents.serves
    (h : Represents transport archive hashCombine stubOf docs actions progress s)
    {held : List (Stub × DocSignature × Option Bool)} (hheld : Pool Call.servingOf progress held)
    {pc : ServerPc} {unread unsent : List Frame}
    (hholds : ServerHolds transport archive pc unread unsent held) :
    Represents transport archive hashCombine stubOf docs (actions ++ [.serve]) progress
      { s with
        pc := pc
        unread := unread
        unsent := unsent } :=
  h.stays (NetAction.sends_concat_serve actions)
    { requests := h.inFlight.requests
      inbox := h.inFlight.inbox
      server := ⟨held, hheld, hholds⟩
      replies := h.inFlight.replies
      sockets := h.inFlight.sockets } ⟨rfl, rfl, rfl, rfl, rfl, rfl⟩

/-- The server receives an identity, the first frame of the next message. -/
theorem Represents.recvIdentity
    (h : Represents transport archive hashCombine stubOf docs actions progress s)
    (hunread : s.unread = []) (hunsent : s.unsent = []) (hheld : Pool Call.servingOf progress [])
    {identity : Frame} {mid : Net Thread Stub}
    (hframe : s.recvFrame transport = some (identity, mid)) :
    ∃ next, Represents transport archive hashCombine stubOf docs (actions ++ [.serve]) next
      { mid with pc := .recvDelimiter identity } := by
  have hflight := h.inFlight
  have hinbox := hflight.inbox
  cases harrived : s.inbox with
  | nil =>
      simp only [Net.recvFrame, hunread, harrived] at hframe
      cases hframe
  | cons first inbox =>
      simp only [Net.recvFrame, hunread, harrived] at hframe
      cases hframe
      rw [harrived] at hinbox
      rcases Call.queuedOf_eq_some (hinbox.content_of_mem List.mem_cons_self) with
        ⟨thread, message, hcall, hframes⟩
      have hfirst : (first :: inbox)[0]? = some (first.1, first.2) := rfl
      refine ⟨_, h.moves (NetAction.sends_concat_serve actions) .serving hcall ?_
        ⟨rfl, rfl, rfl, rfl, rfl, rfl⟩ rfl rfl⟩
      exact {
        requests := hflight.requests.keep (by rw [hcall]; rfl)
        inbox := hinbox.leave hfirst rfl
        server := ⟨_, hheld.enter (by rw [hcall]; rfl) rfl, by
          rw [hframes, hunsent]
          exact .identity first.1 message⟩
        replies := hflight.replies.keep (by rw [hcall]; rfl)
        sockets := sockets_of_keep hflight.sockets (by rw [hcall]; rfl) }

/-- The server has received the message, and gives its verdict. -/
theorem Represents.recvIdSign
    (h : Represents transport archive hashCombine stubOf docs actions progress s)
    {stub : Stub} {message : DocSignature} (hunsent : s.unsent = [])
    (hheld : Pool Call.servingOf progress [(stub, message, none)])
    {res : Bool} {dedup : ArticleDedup}
    (hres : s.dedup.isDuplicate hashCombine message = some (res, dedup)) :
    ∃ next, Represents transport archive hashCombine stubOf docs (actions ++ [.serve]) next
      { s with
        unread := []
        pc := .sendIdentity (transport.identity stub) (resStr res)
        dedup := dedup
        served := s.served ++ [(transport.identity stub, message, res)] } := by
  have hflight := h.inFlight
  have ⟨thread, hserving⟩ := Call.servingOf_eq_some (hheld.content_of_mem List.mem_cons_self)
  rcases hserving with ⟨hcall, -⟩ | ⟨given, -, hgiven⟩
  · refine ⟨Function.update progress stub (some ⟨thread, message, .answered res⟩), ?_⟩
    exact {
      inFlight := {
        requests := hflight.requests.keep (by rw [hcall]; rfl)
        inbox := hflight.inbox.keep (by rw [hcall]; rfl)
        server := ⟨_, held_answers hheld res, by
          rw [hunsent]
          exact .verdict stub message res⟩
        replies := hflight.replies.keep (by rw [hcall]; rfl)
        sockets := sockets_of_keep hflight.sockets (by rw [hcall]; rfl) }
      callers := h.callers.advances hcall (.answered res)
      history := by
        apply histories_update
        · have hold := h.history stub
          rw [hcall] at hold
          exact hold.answers (NetAction.sends_concat_serve actions) rfl rfl rfl
        · intro other hother
          have hne : transport.identity stub ≠ transport.identity other := fun heq =>
            hother (transport.identity_injective heq).symm
          exact (h.history other).keep (by rw [NetAction.sends_concat_serve])
            (logOf_concat_of_not_mine hne) rfl rfl rfl rfl rfl
      inTurn := h.inTurn.answers hres rfl
      thrown := h.thrown }
  · cases hgiven

/-- The server sends the answer, and the message leaves for the client. -/
theorem Represents.sendRes
    (h : Represents transport archive hashCombine stubOf docs actions progress s)
    {stub : Stub} {message : DocSignature} {res : Bool}
    (hunread : s.unread = []) (hunsent : s.unsent = [transport.identity stub, []])
    (hheld : Pool Call.servingOf progress [(stub, message, some res)]) :
    ∃ next, Represents transport archive hashCombine stubOf docs (actions ++ [.serve]) next
      { s.sendLast transport (resStr res) with pc := .recvIdentity } := by
  have hflight := h.inFlight
  have hpeer := (transport.peer_eq_some (transport.identity stub) stub).mpr rfl
  have ⟨thread, hserving⟩ := Call.servingOf_eq_some (hheld.content_of_mem List.mem_cons_self)
  rcases hserving with ⟨-, hres⟩ | ⟨given, hcall, hgiven⟩
  · cases hres
  · cases hgiven
    simp only [Net.sendLast, hunsent, List.cons_append, List.nil_append, hpeer]
    have hfirst : [(stub, message, some res)][0]? = some (stub, message, some res) := rfl
    refine ⟨_, h.moves (NetAction.sends_concat_serve actions) (.routed res) hcall ?_
      ⟨rfl, rfl, rfl, rfl, rfl, rfl⟩ rfl rfl⟩
    exact {
      requests := hflight.requests.keep (by rw [hcall]; rfl)
      inbox := hflight.inbox.keep (by rw [hcall]; rfl)
      server := ⟨[], hheld.leave hfirst rfl, by
        rw [hunread]
        exact .idle⟩
      replies := hflight.replies.enter (by rw [hcall]; rfl) rfl
      sockets := sockets_of_keep hflight.sockets (by rw [hcall]; rfl) }

/-- Any step of the server, by the socket call that it makes. -/
theorem Represents.serve
    (h : Represents transport archive hashCombine stubOf docs actions progress s)
    (hstep : s.serve transport archive hashCombine = some t) :
    ∃ next, Represents transport archive hashCombine stubOf docs (actions ++ [.serve]) next t := by
  have ⟨held, hheld, hholds⟩ := h.inFlight.server
  generalize hunread : s.unread = unread at hholds
  generalize hunsent : s.unsent = unsent at hholds
  cases Net.serves_of_serve hstep with
  | recvIdentity hpc hframe =>
      rw [hpc] at hholds
      cases hholds
      exact h.recvIdentity hunread hunsent hheld hframe
  | recvDelimiter hpc hframe =>
      rw [hpc] at hholds
      cases hholds with
      | identity stub message =>
          simp only [Net.recvFrame, hunread, Call.requestFrames] at hframe
          cases hframe
          refine ⟨progress, h.serves hheld ?_⟩
          rw [hunsent]
          exact .delimiter stub message
  | throws hpc hframe hthrows =>
      rw [hpc] at hholds
      cases hholds with
      | delimiter stub message =>
          simp only [Net.recvFrame, hunread] at hframe
          cases hframe
          rw [archive.deserialize_serialize] at hthrows
          cases hthrows
  | recvIdSign hpc hframe hidSign hres =>
      rw [hpc] at hholds
      cases hholds with
      | delimiter stub message =>
          simp only [Net.recvFrame, hunread] at hframe
          cases hframe
          rw [archive.deserialize_serialize] at hidSign
          cases hidSign
          exact h.recvIdSign hunsent hheld hres
  | sendIdentity hpc =>
      rw [hpc] at hholds
      cases hholds with
      | verdict stub message res =>
          refine ⟨progress, h.serves hheld ?_⟩
          rw [hunread, hunsent]
          exact .addressed stub message res
  | sendDelimiter hpc =>
      rw [hpc] at hholds
      cases hholds with
      | addressed stub message res =>
          refine ⟨progress, h.serves hheld ?_⟩
          rw [hunread, hunsent]
          exact .delimited stub message res
  | sendRes hpc =>
      rw [hpc] at hholds
      cases hholds
      exact h.sendRes hunread hunsent hheld

/-! ## Steps of the clients -/

/-- A call begins if no other call is in progress at its stub. -/
theorem Represents.send [DecidableEq Thread]
    (h : Represents transport archive hashCombine stubOf docs actions progress s)
    {thread : Thread} {message : DocSignature}
    (hturn : ∀ other, stubOf other = stubOf thread → s.calls other = none)
    (hstep : s.send archive stubOf thread message = some t) :
    ∃ next, Represents transport archive hashCombine stubOf docs
      (actions ++ [.send thread message]) next t := by
  have hflight := h.inFlight
  have hfree : progress (stubOf thread) = none := by
    cases hcall : progress (stubOf thread) with
    | none => rfl
    | some call =>
        have howner := h.callers.owner _ call hcall
        rw [hturn call.thread howner.1] at howner
        cases howner.2
  have hready : s.sockets (stubOf thread) = .ready := by
    rw [hflight.sockets, hfree]
    rfl
  simp only [Net.send, hturn thread rfl, hready] at hstep
  cases hstep
  have ⟨held, hheld, hholds⟩ := hflight.server
  refine ⟨Function.update progress (stubOf thread) (some ⟨thread, message, .sent⟩), ?_⟩
  exact {
    inFlight := {
      requests := hflight.requests.enter (by rw [hfree]; rfl) rfl
      inbox := hflight.inbox.keep (by rw [hfree]; rfl)
      server := ⟨held, hheld.keep (by rw [hfree]; rfl), hholds⟩
      replies := hflight.replies.keep (by rw [hfree]; rfl)
      sockets := sockets_of_use hflight.sockets rfl }
    callers := h.callers.begins hfree
    history := by
      have hsends : NetAction.sends (actions ++ [.send thread message]) =
          NetAction.sends actions ++ [(thread, message)] := by
        simp [NetAction.sends]
      apply histories_update
      · have hsent : logOf (stubOf · = stubOf thread)
            (NetAction.sends actions ++ [(thread, message)]) =
              logOf (stubOf · = stubOf thread) (NetAction.sends actions) ++ [message] :=
          logOf_concat_of_mine rfl
        have hold := h.history (stubOf thread)
        rw [hfree] at hold
        exact {
          sent := by
            rw [hsends, hsent, hold.sent]
            exact congrArg (· ++ [message]) (List.append_nil _)
          served := hold.served
          delivered := hold.delivered }
      · intro other hother
        refine (h.history other).keep ?_ rfl rfl rfl rfl rfl rfl
        rw [hsends]
        exact logOf_concat_of_not_mine fun heq => hother heq.symm
    inTurn := h.inTurn.of_same rfl rfl
    thrown := h.thrown }

/-- A reply reaches the client that waits for it. -/
theorem Represents.deliverReply
    (h : Represents transport archive hashCombine stubOf docs actions progress s) {idx : ℕ}
    (hstep : s.deliverReply idx = some t) :
    ∃ next, Represents transport archive hashCombine stubOf docs (actions ++ [.deliverReply idx])
      next t := by
  have hflight := h.inFlight
  rcases Option.map_eq_some_iff.mp hstep with ⟨⟨stub, frames⟩, hidx, hnext⟩
  rcases Call.replyOf_eq_some (hflight.replies.content_of_mem (List.mem_of_getElem? hidx)) with
    ⟨thread, message, res, hcall, rfl⟩
  have hwaiting : s.sockets stub = .waiting := by
    rw [hflight.sockets, hcall]
    rfl
  have ⟨held, hheld, hholds⟩ := hflight.server
  have hsends : NetAction.sends (actions ++ [.deliverReply idx]) = NetAction.sends actions := by
    simp [NetAction.sends]
  simp only [hwaiting] at hnext
  cases hnext
  refine ⟨Function.update progress stub (some ⟨thread, message, .delivered res⟩), ?_⟩
  exact {
    inFlight := {
      requests := hflight.requests.keep (by rw [hcall]; rfl)
      inbox := hflight.inbox.keep (by rw [hcall]; rfl)
      server := ⟨held, hheld.keep (by rw [hcall]; rfl), hholds⟩
      replies := hflight.replies.leave hidx rfl
      sockets := sockets_of_use hflight.sockets rfl }
    callers := h.callers.advances hcall (.delivered res)
    history := by
      apply histories_update
      · have hdelivered : logOf (· = stub) (s.delivered ++ [(stub, resStr res)]) =
            logOf (· = stub) s.delivered ++ [resStr res] :=
          logOf_concat_of_mine rfl
        have hold := h.history stub
        rw [hcall] at hold
        exact {
          sent := by
            rw [hsends]
            exact hold.sent
          served := hold.served
          delivered := by
            rw [hdelivered, hold.delivered]
            exact congrArg (· ++ [resStr res]) (List.append_nil _) }
      · intro other hother
        exact (h.history other).keep (by rw [hsends]) rfl
          (logOf_concat_of_not_mine fun heq => hother heq.symm) rfl rfl rfl rfl
    inTurn := h.inTurn.of_same rfl rfl
    thrown := h.thrown }

/-- A call returns the answer that has arrived for it. -/
theorem Represents.receive [DecidableEq Thread]
    (h : Represents transport archive hashCombine stubOf docs actions progress s)
    {thread : Thread} (hstep : s.receive stubOf thread = some t) :
    ∃ next, Represents transport archive hashCombine stubOf docs (actions ++ [.receive thread])
      next t := by
  have hflight := h.inFlight
  rcases Option.bind_eq_some_iff.mp hstep with ⟨message, hmessage, hnext⟩
  have ⟨call, hcall, hthread⟩ := h.callers.caller thread message hmessage
  have howner := h.callers.owner _ call hcall
  have hsends : NetAction.sends (actions ++ [.receive thread]) = NetAction.sends actions := by
    simp [NetAction.sends]
  cases hsocket : s.sockets (stubOf thread) with
  | ready =>
      have hnone := Call.eq_none_of_socketOf_ready ((hflight.sockets _).symm.trans hsocket)
      rw [hnone] at hcall
      cases hcall
  | waiting =>
      simp only [hsocket] at hnext
      cases hnext
  | replied frames =>
      rcases Call.socketOf_eq_replied ((hflight.sockets _).symm.trans hsocket) with
        ⟨waiting, asked, res, hdelivered, rfl⟩
      rw [hcall] at hdelivered
      cases hdelivered
      obtain rfl : waiting = thread := hthread
      obtain rfl : asked = message := Option.some.inj (howner.2.symm.trans hmessage)
      simp only [hsocket, readRes_resStr, Option.bind_eq_bind, Option.bind_some,
        if_true] at hnext
      cases hnext
      have ⟨held, hheld, hholds⟩ := hflight.server
      refine ⟨Function.update progress (stubOf waiting) none, ?_⟩
      exact {
        inFlight := {
          requests := hflight.requests.keep (by rw [hcall]; rfl)
          inbox := hflight.inbox.keep (by rw [hcall]; rfl)
          server := ⟨held, hheld.keep (by rw [hcall]; rfl), hholds⟩
          replies := hflight.replies.keep (by rw [hcall]; rfl)
          sockets := sockets_of_use hflight.sockets rfl }
        callers := h.callers.ends hcall
        history := by
          apply histories_update
          · have hcompleted : logOf (stubOf · = stubOf waiting)
                (s.completed ++ [(waiting, asked, res)]) =
                  logOf (stubOf · = stubOf waiting) s.completed ++ [(asked, res)] :=
              logOf_concat_of_mine rfl
            have hold := h.history (stubOf waiting)
            rw [hcall] at hold
            exact {
              sent := by
                rw [hsends, hcompleted, hold.sent, List.map_append, List.append_assoc]
                rfl
              served := by
                rw [hcompleted, hold.served, List.append_assoc]
                rfl
              delivered := by
                rw [hcompleted, hold.delivered, List.map_append, List.append_assoc]
                rfl }
          · intro other hother
            exact (h.history other).keep (by rw [hsends]) rfl rfl
              (logOf_concat_of_not_mine fun heq => hother heq.symm) rfl rfl rfl
        inTurn := h.inTurn.of_same rfl rfl
        thrown := h.thrown }

/-! ## Runs -/

/-- A call begins only while no other thread waits at its stub. -/
def InTurn (stubOf : Thread → Stub) (s : Net Thread Stub) : NetAction Thread → Prop
  | .send thread _ => ∀ other, stubOf other = stubOf thread → s.calls other = none
  | _ => True

/-- **Step lemma.** -/
theorem Represents.step [DecidableEq Thread]
    (h : Represents transport archive hashCombine stubOf docs actions progress s)
    {action : NetAction Thread} (hturn : InTurn stubOf s action)
    (hstep : s.step transport archive hashCombine stubOf action = some t) :
    ∃ next, Represents transport archive hashCombine stubOf docs (actions ++ [action]) next t := by
  cases action with
  | send thread message => exact h.send hturn hstep
  | deliverRequest idx => exact h.deliverRequest hstep
  | serve => exact h.serve hstep
  | deliverReply idx => exact h.deliverReply hstep
  | receive thread => exact h.receive hstep

/-- A call that has returned was answered by the server. -/
theorem Represents.served_of_completed
    (h : Represents transport archive hashCombine stubOf docs actions progress s)
    {thread : Thread} {verdict : Verdict} (hmem : (thread, verdict) ∈ s.completed) :
    (transport.identity (stubOf thread), verdict) ∈ s.served := by
  have hlog : verdict ∈ logOf (· = transport.identity (stubOf thread)) s.served := by
    rw [(h.history (stubOf thread)).served]
    exact List.mem_append_left _ (mem_logOf.mpr ⟨thread, rfl, hmem⟩)
  have ⟨frame, hframe, hserved⟩ := mem_logOf.mp hlog
  rwa [hframe] at hserved

omit [DecidableEq Stub] in
theorem Call.verdictOf_sublist (call : Option (Call Thread)) :
    ((Call.verdictOf call).map Prod.fst).Sublist (call.map Call.message).toList := by
  unfold Call.verdictOf
  split
  · exact List.Sublist.refl _
  · exact List.Sublist.refl _
  · exact List.Sublist.refl _
  · exact List.nil_sublist _

/-- The messages answered at a stub are among those sent, in order. -/
theorem StubHistory.served_sublist {stub : Stub} {call : Option (Call Thread)}
    (h : StubHistory transport stubOf actions s stub call) :
    ((logOf (· = transport.identity stub) s.served).map Prod.fst).Sublist
      (logOf (stubOf · = stub) (NetAction.sends actions)) := by
  rw [h.served, h.sent, List.map_append]
  exact (List.Sublist.refl _).append (Call.verdictOf_sublist call)

/-- What the server has answered was sent by a thread of the stub. -/
theorem Represents.sent_of_served
    (h : Represents transport archive hashCombine stubOf docs actions progress s)
    {frame : Frame} {stub : Stub} {verdict : Verdict} (hframe : frame = transport.identity stub)
    (hmem : (frame, verdict) ∈ s.served) :
    ∃ thread, stubOf thread = stub ∧ (thread, verdict.1) ∈ NetAction.sends actions := by
  have hlog : verdict ∈ logOf (· = transport.identity stub) s.served :=
    mem_logOf.mpr ⟨frame, hframe, hmem⟩
  exact mem_logOf.mp ((h.history stub).served_sublist.subset (List.mem_map_of_mem hlog))

/-- If the messages sent have different ids, so do the messages answered. -/
theorem Represents.served_nodup
    (h : Represents transport archive hashCombine stubOf docs actions progress s)
    (hids : ((NetAction.sends actions).map fun entry => entry.2.1).Nodup) :
    (s.served.map fun entry => entry.2.1.1).Nodup := by
  apply nodup_map_of_logOf (f := fun verdict : Verdict => verdict.1.1)
  · intro frame
    by_cases hpeer : ∃ stub, frame = transport.identity stub
    · have ⟨stub, hstub⟩ := hpeer
      rw [hstub]
      have hsent : ((logOf (stubOf · = stub) (NetAction.sends actions)).map Prod.fst).Nodup :=
        nodup_map_logOf hids
      have hsub := (h.history stub).served_sublist.map Prod.fst
      rw [List.map_map] at hsub
      exact hsub.nodup hsent
    · have hnone : logOf (· = frame) s.served = [] := by
        rw [List.eq_nil_iff_forall_not_mem]
        intro verdict hverdict
        have ⟨key, hkey, hmem⟩ := mem_logOf.mp hverdict
        have ⟨stub, hstub⟩ := h.inTurn.peers _ hmem
        exact hpeer ⟨stub, hkey.symm.trans hstub⟩
      rw [hnone]
      exact List.nodup_nil
  · intro first hfirst second hsecond heq
    have ⟨firstStub, hfirstStub⟩ := h.inTurn.peers first hfirst
    have ⟨secondStub, hsecondStub⟩ := h.inTurn.peers second hsecond
    have ⟨firstThread, hfirstThread, hfirstSent⟩ := h.sent_of_served hfirstStub hfirst
    have ⟨secondThread, hsecondThread, hsecondSent⟩ := h.sent_of_served hsecondStub hsecond
    have hsame := List.inj_on_of_nodup_map hids hfirstSent hsecondSent heq
    have hthread : firstThread = secondThread := congrArg Prod.fst hsame
    rw [hfirstStub, hsecondStub, ← hfirstThread, ← hsecondThread, hthread]

/-! ## Nobody gets stuck -/

/-- The server can go on if it works on a call or a message has arrived. -/
theorem Represents.isSome_serve
    (h : Represents transport archive hashCombine stubOf docs actions progress s) (stub : Stub)
    (hwork : (Call.queuedOf archive (progress stub)).isSome ∨
      (Call.servingOf (progress stub)).isSome) :
    (s.serve transport archive hashCombine).isSome := by
  obtain ⟨held, hheld, hholds⟩ := h.inFlight.server
  generalize hpc : s.pc = pc at hholds
  generalize hunread : s.unread = unread at hholds
  generalize hunsent : s.unsent = unsent at hholds
  cases hholds with
  | idle =>
      cases hinbox : s.inbox with
      | nil =>
          exfalso
          rcases hwork with hqueued | hserving
          · obtain ⟨frames, hframes⟩ := Option.isSome_iff_exists.mp hqueued
            have hmem := (h.inFlight.inbox.mem stub frames).mpr hframes
            rw [hinbox] at hmem
            cases hmem
          · obtain ⟨work, hwork⟩ := Option.isSome_iff_exists.mp hserving
            have hmem := (hheld.mem stub work).mpr hwork
            cases hmem
      | cons first inbox =>
          simp only [Net.serve, hpc, Net.recvFrame, hunread, hinbox]
          rfl
  | identity stub message =>
      simp only [Net.serve, hpc, Net.recvFrame, hunread, Call.requestFrames]
      rfl
  | delimiter stub message =>
      obtain ⟨lsh, hverdict, _⟩ := h.inTurn.knows.isDuplicate message
      have hdedup : s.dedup.isDuplicate hashCombine message = some (_, ⟨lsh⟩) := hverdict
      simp only [Net.serve, hpc, Net.recvFrame, hunread, Option.bind_eq_bind, Option.bind_some,
        archive.deserialize_serialize, hdedup]
      rfl
  | verdict stub message res =>
      simp only [Net.serve, hpc]
      rfl
  | addressed stub message res =>
      simp only [Net.serve, hpc]
      rfl
  | delimited stub message res =>
      simp only [Net.serve, hpc]
      rfl

/-- **No deadlock.** While a thread waits, a step is possible that is not a new call. -/
theorem Represents.exists_step [DecidableEq Thread]
    (h : Represents transport archive hashCombine stubOf docs actions progress s)
    {thread : Thread} {message : DocSignature} (hwaits : s.calls thread = some message) :
    ∃ action, (∀ other asked, action ≠ .send other asked) ∧
      (s.step transport archive hashCombine stubOf action).isSome := by
  have ⟨call, hcall, hthread⟩ := h.callers.caller thread message hwaits
  have hflight := h.inFlight
  rcases call with ⟨waiting, asked, stage⟩
  obtain rfl : waiting = thread := hthread
  cases stage with
  | sent =>
      have hmem := (hflight.requests.mem (stubOf waiting) _).mpr (by rw [hcall]; rfl)
      have ⟨idx, hidx⟩ := List.getElem?_of_mem hmem
      refine ⟨.deliverRequest idx, fun _ _ heq => (by cases heq), ?_⟩
      rw [Net.step, Net.deliverRequest, hidx]
      rfl
  | queued =>
      refine ⟨.serve, fun _ _ heq => (by cases heq), h.isSome_serve (stubOf waiting) ?_⟩
      exact Or.inl (by rw [hcall]; rfl)
  | serving =>
      refine ⟨.serve, fun _ _ heq => (by cases heq), h.isSome_serve (stubOf waiting) ?_⟩
      exact Or.inr (by rw [hcall]; rfl)
  | answered res =>
      refine ⟨.serve, fun _ _ heq => (by cases heq), h.isSome_serve (stubOf waiting) ?_⟩
      exact Or.inr (by rw [hcall]; rfl)
  | routed res =>
      have hmem := (hflight.replies.mem (stubOf waiting) _).mpr (by rw [hcall]; rfl)
      have ⟨idx, hidx⟩ := List.getElem?_of_mem hmem
      refine ⟨.deliverReply idx, fun _ _ heq => (by cases heq), ?_⟩
      rw [Net.step, Net.deliverReply, hidx]
      rfl
  | delivered res =>
      have hsocket := hflight.sockets (stubOf waiting)
      rw [hcall] at hsocket
      refine ⟨.receive waiting, fun _ _ heq => (by cases heq), ?_⟩
      simp only [Net.step, Net.receive, hwaits, hsocket, Call.socketOf, Option.bind_eq_bind,
        Option.bind_some, readRes_resStr]
      rfl

end Steps

end Unbiased
