/-
# The server loop and malformed requests

The server reads frames by threes, wherever a message begins, and its only
handler is outside the loop. Clients may send anything. So the loop depends on
the frames of all messages that have arrived, one behind the other: what it
answers are the triples that lead this stream, and the first payload that does
not deserialise ends it.

A malformed message is harmless to the requests behind it exactly if its frames
keep the server in step, and nothing it registers or addresses concerns them.
-/

import Unbiased.Dedup.Agreement
import Unbiased.Math.Triples

namespace Unbiased

open Unbiased.Math

/-! ## Messages -/

/-- The request that a message makes: an empty delimiter and one payload, which
deserialises. -/
def Archive.request? (archive : Archive) : List Frame → Option DocSignature
  | [[], idSignStr] => archive.deserializeIdSign idSignStr
  | _ => none

/-- A payload that does not deserialise, or another number of frames. -/
def Archive.Malformed (archive : Archive) (frames : List Frame) : Prop :=
  ∀ delimiter idSignStr, frames = [delimiter, idSignStr] →
    archive.deserializeIdSign idSignStr = none

/-- What one pass of the loop makes of three frames. -/
def Archive.readRequest (archive : Archive) (identity _delimiter idSignStr : Frame) :
    Option (Frame × DocSignature) :=
  (archive.deserializeIdSign idSignStr).map fun idSign => (identity, idSign)

variable {Thread Stub : Type}

/-- The frames of messages as the server receives them. -/
def frameStream (transport : Transport Stub) (messages : List (Stub × List Frame)) : List Frame :=
  messages.flatMap fun message => transport.identity message.1 :: message.2

/-- The requests among messages. -/
def requestsOf (archive : Archive) (messages : List (Stub × List Frame)) : List DocSignature :=
  messages.filterMap fun message => archive.request? message.2

/-- The messages that make requests. -/
def withoutMalformed (archive : Archive) (messages : List (Stub × List Frame)) :
    List (Stub × List Frame) :=
  messages.filter fun message => (archive.request? message.2).isSome

/-- The identities and messages of verdicts. -/
def recordsOf (served : List (Frame × Verdict)) : List (Frame × DocSignature) :=
  served.map fun entry => (entry.1, entry.2.1)

/-- The replies that leave for a client, out of all that are sent. -/
def repliesOf (transport : Transport Stub) (served : List (Frame × Verdict)) :
    List (Stub × List Frame) :=
  served.filterMap fun entry =>
    (transport.peer entry.1).map fun stub => (stub, [[], resStr entry.2.2])

/-- What happens at the server. -/
inductive ServerAction (Stub : Type) where
  /-- A message arrives, whoever has sent it. -/
  | arrive (stub : Stub) (frames : List Frame)
  /-- The server makes its next socket call. -/
  | serve

/-- The messages that arrive. -/
def ServerAction.arrivals (actions : List (ServerAction Stub)) : List (Stub × List Frame) :=
  actions.filterMap fun action =>
    match action with
    | .arrive stub frames => some (stub, frames)
    | .serve => none

/-- One step at the server. -/
def Net.serverStep (transport : Transport Stub) (archive : Archive) (hashCombine : HashCombine)
    (s : Net Thread Stub) : ServerAction Stub → Option (Net Thread Stub)
  | .arrive stub frames => some { s with inbox := s.inbox ++ [(stub, frames)] }
  | .serve => s.serve transport archive hashCombine

theorem frameStream_append (transport : Transport Stub) (first rest : List (Stub × List Frame)) :
    frameStream transport (first ++ rest) =
      frameStream transport first ++ frameStream transport rest := by
  simp [frameStream]

theorem frameStream_cons (transport : Transport Stub) (stub : Stub) (frames : List Frame)
    (rest : List (Stub × List Frame)) :
    frameStream transport ((stub, frames) :: rest) =
      transport.identity stub :: (frames ++ frameStream transport rest) := by
  simp [frameStream]

/-- A message that makes a request is two frames, the second of which deserialises. -/
theorem Archive.request?_eq_some {archive : Archive} {frames : List Frame} {idSign : DocSignature}
    (h : archive.request? frames = some idSign) :
    ∃ idSignStr, frames = [[], idSignStr] ∧
      archive.deserializeIdSign idSignStr = some idSign := by
  unfold Archive.request? at h
  split at h
  · exact ⟨_, rfl, h⟩
  · cases h

/-- The loop reads a request that it is in step with. -/
theorem Archive.readRequest_of_request {archive : Archive} {idSignStr : Frame}
    {idSign : DocSignature} (h : archive.deserializeIdSign idSignStr = some idSign)
    (identity delimiter : Frame) :
    archive.readRequest identity delimiter idSignStr = some (identity, idSign) := by
  rw [Archive.readRequest, h]
  rfl

/-! ## The loop -/

/-- The loop between two socket calls, with the frames of the current triple that
it has received, the frames of the reply that it has sent, and the verdict that
it is sending. -/
inductive LoopAt (archive : Archive) :
    ServerPc → List Frame → List Frame → List (Frame × Verdict) → Prop where
  | idle : LoopAt archive .recvIdentity [] [] []
  | identity (identity : Frame) : LoopAt archive (.recvDelimiter identity) [identity] [] []
  | delimiter (identity delimiter : Frame) :
    LoopAt archive (.recvIdSign identity) [identity, delimiter] [] []
  | verdict (identity : Frame) (message : DocSignature) (res : Bool) :
    LoopAt archive (.sendIdentity identity (resStr res)) [] [] [(identity, message, res)]
  | addressed (identity : Frame) (message : DocSignature) (res : Bool) :
    LoopAt archive (.sendDelimiter (resStr res)) [] [identity] [(identity, message, res)]
  | delimited (identity : Frame) (message : DocSignature) (res : Bool) :
    LoopAt archive (.sendRes (resStr res)) [] [identity, []] [(identity, message, res)]
  | stopped (identity delimiter idSignStr : Frame)
    (hthrows : archive.deserializeIdSign idSignStr = none) :
    LoopAt archive .stopped [identity, delimiter, idSignStr] [] []

/-- What the server has made of the messages that have arrived: the triples it has
read, in turn, and what is left of the stream. -/
structure ReadsStream (transport : Transport Stub) (archive : Archive)
    (hashCombine : HashCombine) (docs : List DocSignature) (messages : List (Stub × List Frame))
    (s : Net Thread Stub) : Prop where
  loop : ∃ done received sent sending,
    frameStream transport messages =
        done ++ (received ++ (s.unread ++ frameStream transport s.inbox)) ∧
      wholeTriples archive.readRequest done =
        some (recordsOf s.served) ∧
      s.served = sent ++ sending ∧ s.replies = repliesOf transport sent ∧
      LoopAt archive s.pc received s.unsent sending
  knows : LSHDeduplication.Knows hashCombine (docs ++ (s.served.map Prod.snd).map Prod.fst)
    s.dedup.lshDeduplication
  verdicts : (s.served.map Prod.snd).map Prod.snd =
    verdicts hashCombine docs ((s.served.map Prod.snd).map Prod.fst)

section Loop

variable {transport : Transport Stub} {archive : Archive} {hashCombine : HashCombine}
  {docs : List DocSignature} {messages : List (Stub × List Frame)} {s t : Net Thread Stub}

theorem ReadsStream.start {dedup : ArticleDedup}
    (hmake : ArticleDedup.make hashCombine docs = some dedup) :
    ReadsStream transport archive hashCombine docs [] (Net.start dedup : Net Thread Stub) where
  loop := ⟨[], [], [], [], rfl, rfl, rfl, rfl, .idle⟩
  knows := by
    show LSHDeduplication.Knows hashCombine (docs ++ []) dedup.lshDeduplication
    rw [List.append_nil]
    exact ArticleDedup.knows_of_make hmake
  verdicts := rfl

/-- A receive gets the next frame of the stream. -/
theorem Net.recvFrame_eq_some {frame : Frame} (h : s.recvFrame transport = some (frame, t)) :
    ∃ unread inbox, t = { s with unread := unread, inbox := inbox } ∧
      s.unread ++ frameStream transport s.inbox =
        frame :: (unread ++ frameStream transport inbox) := by
  unfold Net.recvFrame at h
  split at h
  · rename_i frame unread hunread
    cases h
    rw [hunread]
    exact ⟨unread, s.inbox, rfl, rfl⟩
  · rename_i stub frames inbox hunread hinbox
    cases h
    rw [hunread, hinbox]
    exact ⟨frames, inbox, rfl, frameStream_cons _ _ _ _⟩
  · cases h

/-- Nothing is received only if nothing is left. -/
theorem Net.recvFrame_eq_none (h : s.recvFrame transport = none) :
    s.unread ++ frameStream transport s.inbox = [] := by
  unfold Net.recvFrame at h
  split at h
  · cases h
  · cases h
  · rename_i hunread hinbox
    rw [hunread, hinbox]
    rfl

/-- A message arrives behind the others. -/
theorem ReadsStream.arrive
    (h : ReadsStream transport archive hashCombine docs messages s) (stub : Stub)
    (frames : List Frame) :
    ReadsStream transport archive hashCombine docs (messages ++ [(stub, frames)])
      { s with inbox := s.inbox ++ [(stub, frames)] } where
  loop := by
    have ⟨done, received, sent, sending, hstream, hdone, hserved, hreplies, hloop⟩ := h.loop
    refine ⟨done, received, sent, sending, ?_, hdone, hserved, hreplies, hloop⟩
    rw [frameStream_append, frameStream_append, hstream]
    simp only [List.append_assoc]
  knows := h.knows
  verdicts := h.verdicts

/-- The server gives its verdict on the payload it has received. -/
theorem ReadsStream.recvIdSign
    (h : ReadsStream transport archive hashCombine docs messages s)
    {done rest : List Frame} {identity delimiter idSignStr : Frame} {idSign : DocSignature}
    (hstream : frameStream transport messages =
      done ++ ([identity, delimiter] ++ (idSignStr :: rest)))
    (hdone : wholeTriples archive.readRequest done =
      some (recordsOf s.served))
    (hreplies : s.replies = repliesOf transport s.served) (hunsent : s.unsent = [])
    (hidSign : archive.deserializeIdSign idSignStr = some idSign)
    {unread : List Frame} {inbox : List (Stub × List Frame)}
    (hrest : rest = unread ++ frameStream transport inbox)
    {res : Bool} {dedup : ArticleDedup}
    (hres : s.dedup.isDuplicate hashCombine idSign = some (res, dedup)) :
    ReadsStream transport archive hashCombine docs messages { s with
      unread := unread
      inbox := inbox
      pc := .sendIdentity identity (resStr res)
      dedup := dedup
      served := s.served ++ [(identity, idSign, res)] } := by
  have ⟨hverdict, hknows⟩ := h.knows.of_isDuplicate hres
  have hread := archive.readRequest_of_request hidSign identity delimiter
  exact {
    loop := by
      refine ⟨done ++ [identity, delimiter, idSignStr], [], s.served, _, ?_, ?_, rfl, hreplies, ?_⟩
      · rw [hstream, hrest]
        simp
      · rw [wholeTriples_append hdone, wholeTriples_cons, hread]
        simp [wholeTriples, recordsOf]
      · rw [hunsent]
        exact .verdict identity idSign _
    knows := by
      simpa using hknows
    verdicts := by
      have hold := h.verdicts
      simp only [List.map_append, List.map_cons, List.map_nil, verdicts_concat] at hold ⊢
      rw [hold, hverdict] }

/-- Between two verdicts only the place in the stream changes. -/
theorem ReadsStream.moves (h : ReadsStream transport archive hashCombine docs messages s)
    (hdedup : t.dedup = s.dedup) (hserved : t.served = s.served)
    {done received : List Frame} {sent sending : List (Frame × Verdict)}
    (hloop : LoopAt archive t.pc received t.unsent sending)
    (hstream : frameStream transport messages =
      done ++ (received ++ (t.unread ++ frameStream transport t.inbox)))
    (hdone : wholeTriples archive.readRequest done =
      some (recordsOf s.served))
    (hsplit : s.served = sent ++ sending) (hreplies : t.replies = repliesOf transport sent) :
    ReadsStream transport archive hashCombine docs messages t where
  loop := ⟨done, received, sent, sending, hstream, by rw [hserved, hdone], by rw [hserved, hsplit],
    hreplies, hloop⟩
  knows := by
    rw [hdedup, hserved]
    exact h.knows
  verdicts := by
    rw [hserved]
    exact h.verdicts

/-- One more reply, if its first frame names a peer. -/
theorem repliesOf_concat (transport : Transport Stub) (sent : List (Frame × Verdict))
    (entry : Frame × Verdict) :
    repliesOf transport (sent ++ [entry]) = repliesOf transport sent ++
      ((transport.peer entry.1).map fun stub => (stub, [[], resStr entry.2.2])).toList := by
  rw [repliesOf, List.filterMap_append]
  cases hpeer : transport.peer entry.1 with
  | none => simp [repliesOf, hpeer]
  | some stub => simp [repliesOf, hpeer]

/-- With the last frame a reply leaves, if its first frame names a peer. -/
theorem Net.sendLast_of_unsent {identity : Frame} (hunsent : s.unsent = [identity, []])
    (frame : Frame) : s.sendLast transport frame = { s with
      unsent := []
      replies := s.replies ++
        ((transport.peer identity).map fun stub => (stub, [[], frame])).toList } := by
  simp only [Net.sendLast, hunsent, List.cons_append, List.nil_append]
  cases transport.peer identity with
  | none => simp
  | some stub => rfl

/-- **Step lemma.** The server goes on reading the stream. -/
theorem ReadsStream.serve (h : ReadsStream transport archive hashCombine docs messages s)
    (hstep : s.serve transport archive hashCombine = some t) :
    ReadsStream transport archive hashCombine docs messages t := by
  rcases h.loop with ⟨done, received, sent, sending, hstream, hdone, hserved, hreplies, hloop⟩
  generalize hunsent : s.unsent = unsent at hloop
  cases Net.serves_of_serve hstep with
  | @recvIdentity identity mid hpc hframe =>
      rcases Net.recvFrame_eq_some hframe with ⟨unread, inbox, rfl, hrest⟩
      rw [hpc] at hloop
      cases hloop
      have hloop : LoopAt archive (.recvDelimiter identity) [identity] s.unsent [] := by
        rw [hunsent]
        exact .identity identity
      rw [hrest] at hstream
      exact h.moves rfl rfl hloop hstream hdone hserved hreplies
  | @recvDelimiter identity delimiter mid hpc hframe =>
      rcases Net.recvFrame_eq_some hframe with ⟨unread, inbox, rfl, hrest⟩
      rw [hpc] at hloop
      cases hloop
      have hloop : LoopAt archive (.recvIdSign identity) [identity, delimiter] s.unsent [] := by
        rw [hunsent]
        exact .delimiter identity delimiter
      rw [hrest] at hstream
      exact h.moves rfl rfl hloop hstream hdone hserved hreplies
  | @throws identity idSignStr mid hpc hframe hthrows =>
      rcases Net.recvFrame_eq_some hframe with ⟨unread, inbox, rfl, hrest⟩
      rw [hpc] at hloop
      cases hloop with
      | delimiter identity delimiter =>
          have hloop : LoopAt archive .stopped [identity, delimiter, idSignStr] s.unsent [] := by
            rw [hunsent]
            exact .stopped identity delimiter idSignStr hthrows
          rw [hrest] at hstream
          exact h.moves rfl rfl hloop hstream hdone hserved hreplies
  | recvIdSign hpc hframe hidSign hres =>
      rcases Net.recvFrame_eq_some hframe with ⟨unread, inbox, rfl, hrest⟩
      rw [hpc] at hloop
      cases hloop
      rw [hrest] at hstream
      rw [List.append_nil] at hserved
      exact h.recvIdSign hstream hdone (hserved ▸ hreplies) hunsent hidSign rfl hres
  | @sendIdentity identity _ hpc =>
      rw [hpc] at hloop
      cases hloop with
      | verdict _ message res =>
          have hloop : LoopAt archive (.sendDelimiter (resStr res)) [] (s.unsent ++ [identity])
              [(identity, message, res)] := by
            rw [hunsent]
            exact .addressed identity message res
          exact h.moves rfl rfl hloop hstream hdone hserved hreplies
  | sendDelimiter hpc =>
      rw [hpc] at hloop
      cases hloop with
      | addressed identity message res =>
          have hloop : LoopAt archive (.sendRes (resStr res)) [] (s.unsent ++ [[]])
              [(identity, message, res)] := by
            rw [hunsent]
            exact .delimited identity message res
          exact h.moves rfl rfl hloop hstream hdone hserved hreplies
  | sendRes hpc =>
      rw [hpc] at hloop
      cases hloop with
      | delimited identity message res =>
          rw [Net.sendLast_of_unsent hunsent]
          exact h.moves rfl rfl .idle hstream hdone (List.append_nil _).symm
            (by rw [hserved, repliesOf_concat, ← hreplies])

/-- **Run lemma.** -/
theorem readsStream_of_run {dedup : ArticleDedup} {actions : List (ServerAction Stub)}
    (hmake : ArticleDedup.make hashCombine docs = some dedup)
    (hrun : run (Net.serverStep transport archive hashCombine)
      (Net.start dedup : Net Thread Stub) actions = some s) :
    ReadsStream transport archive hashCombine docs (ServerAction.arrivals actions) s := by
  apply run_invariant (P := fun hist m =>
    ReadsStream transport archive hashCombine docs (ServerAction.arrivals hist) m) _ _ hrun
  · exact ReadsStream.start hmake
  · intro hist m action next hm hstep
    rw [ServerAction.arrivals, List.filterMap_append]
    cases action with
    | arrive stub frames =>
        cases hstep
        exact hm.arrive stub frames
    | serve =>
        rw [List.filterMap_cons_none rfl, List.filterMap_nil, List.append_nil]
        exact hm.serve hstep

/-- When the server can do no more, it has answered what leads the stream. -/
theorem ReadsStream.of_blocked (h : ReadsStream transport archive hashCombine docs messages s)
    (hblocked : s.serve transport archive hashCombine = none) :
    leadingTriples archive.readRequest (frameStream transport messages) =
        recordsOf s.served ∧
      s.replies = repliesOf transport s.served := by
  rcases h.loop with ⟨done, received, sent, sending, hstream, hdone, hserved, hreplies, hloop⟩
  rw [hstream, leadingTriples_append hdone]
  have hwaits : s.recvFrame transport = none → leadingTriples archive.readRequest received = [] →
      sending = [] → recordsOf s.served ++
          leadingTriples archive.readRequest
            (received ++ (s.unread ++ frameStream transport s.inbox)) =
        recordsOf s.served ∧
      s.replies = repliesOf transport s.served := by
    intro hframe hreceived hsending
    rw [Net.recvFrame_eq_none hframe, List.append_nil, hreceived, List.append_nil, hreplies,
      hserved, hsending, List.append_nil]
    exact ⟨rfl, rfl⟩
  generalize hpc : s.pc = pc at hloop
  generalize s.unsent = unsent at hloop
  cases hloop with
  | idle =>
      simp only [Net.serve, hpc] at hblocked
      cases hframe : s.recvFrame transport with
      | none => exact hwaits hframe rfl rfl
      | some next =>
          rw [hframe] at hblocked
          cases hblocked
  | identity identity =>
      simp only [Net.serve, hpc] at hblocked
      cases hframe : s.recvFrame transport with
      | none => exact hwaits hframe rfl rfl
      | some next =>
          rw [hframe] at hblocked
          cases hblocked
  | delimiter identity delimiter =>
      simp only [Net.serve, hpc] at hblocked
      cases hframe : s.recvFrame transport with
      | none => exact hwaits hframe rfl rfl
      | some next =>
          rcases next with ⟨frame, mid⟩
          rcases Net.recvFrame_eq_some hframe with ⟨unread, inbox, rfl, -⟩
          rw [hframe] at hblocked
          cases hidSign : archive.deserializeIdSign frame with
          | none =>
              simp [hidSign] at hblocked
          | some idSign =>
              -- the server can always answer
              rcases h.knows.isDuplicate idSign with ⟨lsh, hverdict, -⟩
              have hdedup : s.dedup.isDuplicate hashCombine idSign = some (_, ⟨lsh⟩) := hverdict
              simp [hidSign, hdedup] at hblocked
  | verdict identity message res =>
      simp only [Net.serve, hpc] at hblocked
      cases hblocked
  | addressed identity message res =>
      simp only [Net.serve, hpc] at hblocked
      cases hblocked
  | delimited identity message res =>
      simp only [Net.serve, hpc] at hblocked
      cases hblocked
  | stopped identity delimiter idSignStr hthrows =>
      rw [List.append_nil] at hserved
      have hread : archive.readRequest identity delimiter idSignStr = none := by
        rw [Archive.readRequest, hthrows]
        rfl
      exact ⟨by simp [leadingTriples_cons_of_none hread], by rw [hreplies, hserved]⟩

/-- The socket calls that are left. -/
def Net.work (transport : Transport Stub) (s : Net Thread Stub) : ℕ :=
  4 * (s.unread ++ frameStream transport s.inbox).length +
    match s.pc with
    | .sendIdentity _ _ => 3
    | .sendDelimiter _ => 2
    | .sendRes _ => 1
    | _ => 0

/-- Sending the last frame receives nothing. -/
theorem Net.sendLast_keeps (transport : Transport Stub) (s : Net Thread Stub) (frame : Frame) :
    (s.sendLast transport frame).unread = s.unread ∧
      (s.sendLast transport frame).inbox = s.inbox := by
  unfold Net.sendLast
  split
  · exact ⟨rfl, rfl⟩
  · split
    · exact ⟨rfl, rfl⟩
    · exact ⟨rfl, rfl⟩

theorem Net.work_lt_of_serve (hstep : s.serve transport archive hashCombine = some t) :
    t.work transport < s.work transport := by
  cases Net.serves_of_serve hstep with
  | recvIdentity hpc hframe =>
      rcases Net.recvFrame_eq_some hframe with ⟨unread, inbox, rfl, hrest⟩
      simp only [Net.work, hrest, hpc, List.length_cons]
      omega
  | recvDelimiter hpc hframe =>
      rcases Net.recvFrame_eq_some hframe with ⟨unread, inbox, rfl, hrest⟩
      simp only [Net.work, hrest, hpc, List.length_cons]
      omega
  | throws hpc hframe hthrows =>
      rcases Net.recvFrame_eq_some hframe with ⟨unread, inbox, rfl, hrest⟩
      simp only [Net.work, hrest, hpc, List.length_cons]
      omega
  | recvIdSign hpc hframe hidSign hres =>
      rcases Net.recvFrame_eq_some hframe with ⟨unread, inbox, rfl, hrest⟩
      simp only [Net.work, hrest, hpc, List.length_cons]
      omega
  | sendIdentity hpc => simp [Net.work, hpc]
  | sendDelimiter hpc => simp [Net.work, hpc]
  | sendRes hpc =>
      have hsend := s.sendLast_keeps transport
      simp [Net.work, hpc, hsend]

/-- The server always gets to where it can do no more. -/
theorem Net.exists_blocked (transport : Transport Stub) (archive : Archive)
    (hashCombine : HashCombine) (s : Net Thread Stub) :
    ∃ n t, run (Net.serverStep transport archive hashCombine) s (List.replicate n .serve) =
        some t ∧
      t.serve transport archive hashCombine = none := by
  induction hwork : s.work transport using Nat.strongRecOn generalizing s with
  | ind work ih =>
      cases hstep : s.serve transport archive hashCombine with
      | none => exact ⟨0, s, rfl, hstep⟩
      | some t =>
          have ⟨n, final, hrun, hfinal⟩ := ih _ (hwork ▸ Net.work_lt_of_serve hstep) t rfl
          refine ⟨n + 1, final, ?_, hfinal⟩
          rw [List.replicate_succ, run_cons, Net.serverStep, hstep]
          exact hrun

/-! ## Malformed requests -/

/-- A verdict is about the stored documents and the messages before. -/
theorem verdict_of_log {log earlier later : List Verdict} {verdict : Verdict}
    (hlog : log.map Prod.snd = Unbiased.verdicts hashCombine docs (log.map Prod.fst))
    (hsplit : log = earlier ++ verdict :: later) :
    verdict.2 = decide (Duplicated hashCombine (docs ++ earlier.map Prod.fst) verdict.1) := by
  induction later using List.reverseRecOn generalizing log with
  | nil =>
      rw [hsplit] at hlog
      exact (verdicts_log_concat hlog).2
  | append_singleton later last ih =>
      rw [hsplit, ← List.cons_append, ← List.append_assoc] at hlog
      exact ih (verdicts_log_concat hlog).1 rfl

end Loop

/-- Each request gets the reply of the pass that reads its own frames, with the
verdict that a server gives which never sees the malformed messages. -/
structure RequestsAnswered (transport : Transport Stub) (archive : Archive)
    (messages : List (Stub × List Frame)) (s filtered : Net Thread Stub) : Prop where
  answered : ∀ before stub frames after idSign, messages = before ++ (stub, frames) :: after →
    archive.request? frames = some idSign →
    ∃ earlier res later,
      s.served = earlier ++ (transport.identity stub, idSign, res) :: later ∧
      3 * earlier.length = (frameStream transport before).length ∧
      s.replies = repliesOf transport earlier ++
        (stub, [[], resStr res]) :: repliesOf transport later ∧
      filtered.served[(requestsOf archive before).length]? =
        some (transport.identity stub, idSign, res)
  /-- Who makes requests gets no reply but to messages of his own. -/
  unasked : ∀ earlier stub verdict later,
    s.served = earlier ++ (transport.identity stub, verdict) :: later →
    (∃ frames, (stub, frames) ∈ messages ∧ (archive.request? frames).isSome) →
    ∃ before frames after, messages = before ++ (stub, frames) :: after ∧
      3 * earlier.length = (frameStream transport before).length

/-- The messages are harmless to the requests among them. -/
structure Harmless (transport : Transport Stub) (archive : Archive) (hashCombine : HashCombine)
    (docs : List DocSignature) (messages : List (Stub × List Frame)) : Prop where
  /-- The frames before a request are triples whose payloads deserialise, and what
  they register changes the verdict on the request only as requests before it do. -/
  inStep : ∀ before stub frames after idSign, messages = before ++ (stub, frames) :: after →
    archive.request? frames = some idSign →
    ∃ earlier, wholeTriples archive.readRequest (frameStream transport before) = some earlier ∧
      (Duplicated hashCombine (earlier.map Prod.snd) idSign →
        Duplicated hashCombine (docs ++ requestsOf archive before) idSign)
  /-- A triple that begins with the identity of someone who makes requests begins a
  message of his. -/
  own : ∀ first stub delimiter idSignStr rest,
    frameStream transport messages =
      first ++ transport.identity stub :: delimiter :: idSignStr :: rest →
    (wholeTriples archive.readRequest first).isSome →
    (archive.deserializeIdSign idSignStr).isSome →
    (∃ frames, (stub, frames) ∈ messages ∧ (archive.request? frames).isSome) →
    ∃ before frames after, messages = before ++ (stub, frames) :: after ∧
      first = frameStream transport before

section Malformed

variable {transport : Transport Stub} {archive : Archive} {hashCombine : HashCombine}
  {docs : List DocSignature} {messages : List (Stub × List Frame)} {s t : Net Thread Stub}

theorem duplicated_append {first second : List DocSignature} {idSign : DocSignature} :
    Duplicated hashCombine (first ++ second) idSign ↔
      Duplicated hashCombine first idSign ∨ Duplicated hashCombine second idSign := by
  simp only [Duplicated, List.mem_append, or_and_right, exists_or]

theorem map_snd_recordsOf (served : List (Frame × Verdict)) :
    (recordsOf served).map Prod.snd = (served.map Prod.snd).map Prod.fst := by
  rw [recordsOf, List.map_map, List.map_map]
  rfl

/-- The verdict on a served message is about the documents registered before it. -/
theorem ReadsStream.verdict_eq (h : ReadsStream transport archive hashCombine docs messages s)
    {earlier later : List (Frame × Verdict)} {identity : Frame} {idSign : DocSignature} {res : Bool}
    (hserved : s.served = earlier ++ (identity, idSign, res) :: later) :
    res = decide (Duplicated hashCombine (docs ++ (recordsOf earlier).map Prod.snd) idSign) := by
  have hlog : s.served.map Prod.snd =
      earlier.map Prod.snd ++ (idSign, res) :: later.map Prod.snd := by
    rw [hserved, List.map_append, List.map_cons]
  rw [map_snd_recordsOf]
  exact verdict_of_log h.verdicts hlog

/-- What has been served was in step. -/
theorem whole_of_served {served earlier later : List (Frame × Verdict)} {entry : Frame × Verdict}
    {stream : List Frame}
    (hlead : leadingTriples archive.readRequest stream = recordsOf served)
    (hserved : served = earlier ++ entry :: later) :
    ∃ first delimiter idSignStr rest,
      stream = first ++ entry.1 :: delimiter :: idSignStr :: rest ∧
        wholeTriples archive.readRequest first = some (recordsOf earlier) ∧
        archive.deserializeIdSign idSignStr = some entry.2.1 := by
  rw [hserved, recordsOf, List.map_append, List.map_cons] at hlead
  have ⟨first, identity, delimiter, idSignStr, rest, hstream, hfirst, hread⟩ :=
    exists_triple_of_leadingTriples hlead
  have ⟨idSign, hidSign, heq⟩ := Option.map_eq_some_iff.mp hread
  cases heq
  exact ⟨first, delimiter, idSignStr, rest, hstream, hfirst, hidSign⟩

/-- What is in step has been served. -/
theorem served_of_whole {served : List (Frame × Verdict)} {records : List (Frame × DocSignature)}
    {first rest : List Frame} {identity delimiter idSignStr : Frame} {idSign : DocSignature}
    (hlead : leadingTriples archive.readRequest
      (first ++ identity :: delimiter :: idSignStr :: rest) = recordsOf served)
    (hfirst : wholeTriples archive.readRequest first = some records)
    (hidSign : archive.deserializeIdSign idSignStr = some idSign) :
    ∃ earlier res later, served = earlier ++ (identity, idSign, res) :: later ∧
      recordsOf earlier = records := by
  rw [leadingTriples_append hfirst,
    leadingTriples_cons_of_some
      (archive.readRequest_of_request hidSign identity delimiter)] at hlead
  have ⟨earlier, behind, hserved, hearlier, hbehind⟩ := List.map_eq_append_iff.mp hlead.symm
  have ⟨entry, later, hcons, hentry, _⟩ := List.map_eq_cons_iff.mp hbehind
  cases hentry
  exact ⟨earlier, entry.2.2, later, by rw [hserved, hcons], hearlier⟩

/-- Requests alone keep the server in step. -/
theorem whole_withoutMalformed (transport : Transport Stub) (archive : Archive)
    (messages : List (Stub × List Frame)) :
    ∃ records, wholeTriples archive.readRequest
        (frameStream transport (withoutMalformed archive messages)) = some records ∧
      records.map Prod.snd = requestsOf archive messages := by
  induction messages with
  | nil => exact ⟨[], rfl, rfl⟩
  | cons message messages ih =>
      have ⟨records, hrecords, hmap⟩ := ih
      cases hrequest : archive.request? message.2 with
      | none =>
          have hfilter : withoutMalformed archive (message :: messages) =
              withoutMalformed archive messages := List.filter_cons_of_neg (by simp [hrequest])
          have hrequests : requestsOf archive (message :: messages) =
              requestsOf archive messages := List.filterMap_cons_none hrequest
          exact ⟨records, by rw [hfilter, hrecords], by rw [hrequests, hmap]⟩
      | some idSign =>
          have ⟨idSignStr, hframes, hidSign⟩ := Archive.request?_eq_some hrequest
          have hfilter : withoutMalformed archive (message :: messages) =
              (message.1, message.2) :: withoutMalformed archive messages :=
            List.filter_cons_of_pos (by simp [hrequest])
          have hrequests : requestsOf archive (message :: messages) =
              idSign :: requestsOf archive messages := List.filterMap_cons_some hrequest
          refine ⟨(transport.identity message.1, idSign) :: records, ?_, ?_⟩
          · rw [hfilter, frameStream_cons, hframes, List.cons_append, List.cons_append,
              List.nil_append, wholeTriples_cons, archive.readRequest_of_request hidSign,
              Option.bind_some, hrecords, Option.bind_some]
          · rw [hrequests, List.map_cons, hmap]

/-- A request splits the stream. -/
theorem frameStream_of_request {before after : List (Stub × List Frame)} {stub : Stub}
    {idSignStr : Frame} (hmessages : messages = before ++ (stub, [[], idSignStr]) :: after) :
    frameStream transport messages = frameStream transport before ++
      transport.identity stub :: [] :: idSignStr :: frameStream transport after := by
  rw [hmessages, frameStream_append, frameStream_cons]
  rfl

/-- A request that the server is in step with is registered. -/
theorem registered_of_request {before after : List (Stub × List Frame)} {stub : Stub}
    {frames : List Frame} {idSign : DocSignature} {first records : List (Frame × DocSignature)}
    (hmessages : messages = before ++ (stub, frames) :: after)
    (hrequest : archive.request? frames = some idSign)
    (hfirst : wholeTriples archive.readRequest (frameStream transport before) = some first)
    (hrecords : wholeTriples archive.readRequest (frameStream transport messages) =
      some records) : idSign ∈ records.map Prod.snd := by
  have ⟨idSignStr, hframes, hidSign⟩ := Archive.request?_eq_some hrequest
  rw [hframes] at hmessages
  rw [frameStream_of_request hmessages, wholeTriples_append hfirst, wholeTriples_cons,
    archive.readRequest_of_request hidSign, Option.bind_some] at hrecords
  have ⟨behind, hbehind, heq⟩ := Option.map_eq_some_iff.mp hrecords
  have ⟨later, _, hlater⟩ := Option.bind_eq_some_iff.mp hbehind
  cases hlater
  rw [← heq, List.map_append, List.map_cons]
  exact List.mem_append_right _ List.mem_cons_self

/-- What a request means for the run without the malformed messages. -/
theorem filtered_served {filtered : Net Thread Stub} {before after : List (Stub × List Frame)}
    {stub : Stub} {frames : List Frame} {idSign : DocSignature}
    (hfiltered : ReadsStream transport archive hashCombine docs
      (withoutMalformed archive messages) filtered)
    (hblocked : filtered.serve transport archive hashCombine = none)
    (hmessages : messages = before ++ (stub, frames) :: after)
    (hrequest : archive.request? frames = some idSign) :
    filtered.served[(requestsOf archive before).length]? = some (transport.identity stub, idSign,
      decide (Duplicated hashCombine (docs ++ requestsOf archive before) idSign)) := by
  have ⟨hlead, _⟩ := hfiltered.of_blocked hblocked
  have ⟨records, hrecords, hmap⟩ := whole_withoutMalformed transport archive before
  have ⟨idSignStr, hframes, hidSign⟩ := Archive.request?_eq_some hrequest
  have hsplit : withoutMalformed archive messages =
      withoutMalformed archive before ++ (stub, [[], idSignStr]) ::
        withoutMalformed archive after := by
    rw [hmessages, ← hframes, withoutMalformed, List.filter_append,
      List.filter_cons_of_pos (by simp [hrequest])]
    rfl
  rw [frameStream_of_request hsplit] at hlead
  have ⟨earlier, res, later, hserved, hearlier⟩ := served_of_whole hlead hrecords hidSign
  have hres := hfiltered.verdict_eq hserved
  have hlength : (requestsOf archive before).length = earlier.length := by
    rw [← hmap, ← hearlier, recordsOf, List.length_map, List.length_map]
  rw [hearlier, hmap] at hres
  rw [hserved, hlength, List.getElem?_append_right le_rfl, Nat.sub_self, List.getElem?_cons_zero,
    hres]

/-- Being answered means being in step. -/
theorem Harmless.of_answered {filtered : Net Thread Stub}
    (hreads : ReadsStream transport archive hashCombine docs messages s)
    (hblocked : s.serve transport archive hashCombine = none)
    (hfiltered : ReadsStream transport archive hashCombine docs
      (withoutMalformed archive messages) filtered)
    (hfilteredBlocked : filtered.serve transport archive hashCombine = none)
    (hanswered : RequestsAnswered transport archive messages s filtered) :
    Harmless transport archive hashCombine docs messages where
  inStep before stub frames after idSign hmessages hrequest := by
    have ⟨earlier, res, later, hserved, hlength, _, hother⟩ :=
      hanswered.answered before stub frames after idSign hmessages hrequest
    have ⟨first, delimiter, idSignStr, rest, hstream, hfirst, _⟩ :=
      whole_of_served (hreads.of_blocked hblocked).1 hserved
    have hbefore : frameStream transport before = first := by
      rw [hmessages, frameStream_append] at hstream
      apply List.append_inj_left hstream
      rw [length_of_wholeTriples hfirst, ← hlength, recordsOf, List.length_map]
    refine ⟨recordsOf earlier, by rw [hbefore, hfirst], ?_⟩
    intro hduplicated
    have hres := hreads.verdict_eq hserved
    rw [filtered_served hfiltered hfilteredBlocked hmessages hrequest] at hother
    cases hother
    rw [eq_comm, decide_eq_true (duplicated_append.mpr (Or.inr hduplicated)), eq_comm,
      decide_eq_true_iff] at hres
    exact hres
  own first stub delimiter idSignStr rest hstream hfirst hidSign hasks := by
    have ⟨records, hrecords⟩ := Option.isSome_iff_exists.mp hfirst
    have ⟨idSign, hidSign⟩ := Option.isSome_iff_exists.mp hidSign
    have hlead := (hreads.of_blocked hblocked).1
    rw [hstream] at hlead
    have ⟨earlier, res, later, hserved, hearlier⟩ := served_of_whole hlead hrecords hidSign
    have ⟨before, frames, after, hmessages, hlength⟩ :=
      hanswered.unasked earlier stub (idSign, res) later hserved hasks
    refine ⟨before, frames, after, hmessages, ?_⟩
    rw [hmessages, frameStream_append] at hstream
    apply List.append_inj_left hstream.symm
    rw [length_of_wholeTriples hrecords, ← hlength, ← hearlier, recordsOf, List.length_map]

/-- Of the documents registered before a request, those of requests decide. -/
theorem Harmless.duplicated_iff (h : Harmless transport archive hashCombine docs messages)
    {before after : List (Stub × List Frame)} {stub : Stub} {frames : List Frame}
    {idSign : DocSignature} (hmessages : messages = before ++ (stub, frames) :: after)
    (hrequest : archive.request? frames = some idSign) :
    ∃ records, wholeTriples archive.readRequest (frameStream transport before) = some records ∧
      (Duplicated hashCombine (docs ++ records.map Prod.snd) idSign ↔
        Duplicated hashCombine (docs ++ requestsOf archive before) idSign) := by
  have ⟨records, hrecords, hverdict⟩ := h.inStep before stub frames after idSign hmessages hrequest
  refine ⟨records, hrecords, ?_, ?_⟩
  · intro hduplicated
    rcases duplicated_append.mp hduplicated with hstored | hregistered
    · exact duplicated_append.mpr (Or.inl hstored)
    · exact hverdict hregistered
  · intro hduplicated
    rcases duplicated_append.mp hduplicated with hstored | ⟨doc, hdoc, hshares⟩
    · exact duplicated_append.mpr (Or.inl hstored)
    · have ⟨message, hmessage, hasks⟩ := List.mem_filterMap.mp hdoc
      have ⟨earlier, later, hbefore⟩ := List.append_of_mem hmessage
      have hsplit : messages = earlier ++ (message.1, message.2) ::
          (later ++ (stub, frames) :: after) := by
        rw [hmessages, hbefore, List.append_assoc, List.cons_append]
      have ⟨first, hfirst, _⟩ := h.inStep earlier message.1 message.2 _ doc hsplit hasks
      have hregistered := registered_of_request hbefore hasks hfirst hrecords
      exact duplicated_append.mpr (Or.inr ⟨doc, hregistered, hshares⟩)

/-- Being in step means being answered. -/
theorem RequestsAnswered.of_harmless {filtered : Net Thread Stub}
    (hreads : ReadsStream transport archive hashCombine docs messages s)
    (hblocked : s.serve transport archive hashCombine = none)
    (hfiltered : ReadsStream transport archive hashCombine docs
      (withoutMalformed archive messages) filtered)
    (hfilteredBlocked : filtered.serve transport archive hashCombine = none)
    (hharmless : Harmless transport archive hashCombine docs messages) :
    RequestsAnswered transport archive messages s filtered where
  answered before stub frames after idSign hmessages hrequest := by
    have ⟨records, hrecords, hverdict⟩ := hharmless.duplicated_iff hmessages hrequest
    have ⟨idSignStr, hframes, hidSign⟩ := Archive.request?_eq_some hrequest
    have ⟨hlead, hreplies⟩ := hreads.of_blocked hblocked
    rw [frameStream_of_request (hframes ▸ hmessages)] at hlead
    have ⟨earlier, res, later, hserved, hearlier⟩ := served_of_whole hlead hrecords hidSign
    have hres := hreads.verdict_eq hserved
    rw [hearlier, decide_eq_decide.mpr hverdict] at hres
    have hpeer := (transport.peer_eq_some (transport.identity stub) stub).mpr rfl
    refine ⟨earlier, res, later, hserved, ?_, ?_, ?_⟩
    · rw [length_of_wholeTriples hrecords, ← hearlier, recordsOf, List.length_map]
    · rw [hreplies, hserved, repliesOf, List.filterMap_append, List.filterMap_cons, hpeer]
      rfl
    · rw [hres]
      exact filtered_served hfiltered hfilteredBlocked hmessages hrequest
  unasked earlier stub verdict later hserved hasks := by
    have ⟨first, delimiter, idSignStr, rest, hstream, hfirst, hidSign⟩ :=
      whole_of_served (hreads.of_blocked hblocked).1 hserved
    have ⟨before, frames, after, hmessages, hbefore⟩ := hharmless.own first stub delimiter
      idSignStr rest hstream (by rw [hfirst]; rfl) (by rw [hidSign]; rfl) hasks
    refine ⟨before, frames, after, hmessages, ?_⟩
    rw [← hbefore, length_of_wholeTriples hfirst, recordsOf, List.length_map]

/-- **When a malformed message does no harm.** Whatever arrives, and however the
arrivals and the server's socket calls interleave, all requests are answered as
without the malformed messages exactly if these are harmless. -/
theorem requestsAnswered_iff_harmless {dedup : ArticleDedup}
    {actions filteredActions : List (ServerAction Stub)} {final filtered : Net Thread Stub}
    (hmake : ArticleDedup.make hashCombine docs = some dedup)
    (hrun : run (Net.serverStep transport archive hashCombine)
      (Net.start dedup) actions = some final)
    (hblocked : final.serve transport archive hashCombine = none)
    (hfilteredRun : run (Net.serverStep transport archive hashCombine)
      (Net.start dedup) filteredActions = some filtered)
    (hfilteredBlocked : filtered.serve transport archive hashCombine = none)
    (hwithout : ServerAction.arrivals filteredActions =
      withoutMalformed archive (ServerAction.arrivals actions)) :
    RequestsAnswered transport archive (ServerAction.arrivals actions) final filtered ↔
      Harmless transport archive hashCombine docs (ServerAction.arrivals actions) := by
  have hreads := readsStream_of_run hmake hrun
  have hfiltered := readsStream_of_run hmake hfilteredRun
  rw [hwithout] at hfiltered
  constructor
  · exact Harmless.of_answered hreads hblocked hfiltered hfilteredBlocked
  · exact RequestsAnswered.of_harmless hreads hblocked hfiltered hfilteredBlocked

end Malformed

/-! ## Two clients -/

/-- One sends two requests in one message, and the other one request. -/
def doubleRequest : List (ServerAction Bool) :=
  [.arrive false [[], textArchive.serializeIdSign ([97], fun _ => 7), [], [],
      textArchive.serializeIdSign ([98], fun _ => 8)],
    .arrive true [[], textArchive.serializeIdSign ([99], fun _ => 9)]] ++ List.replicate 18 .serve

/-- The other one alone. -/
def singleRequest : List (ServerAction Bool) :=
  .arrive true [[], textArchive.serializeIdSign ([99], fun _ => 9)] :: List.replicate 6 .serve

/-- The equivalence for a message that is two requests in one. -/
theorem requestsAnswered_iff_harmless_double :
    ∃ (dedup : ArticleDedup) (final filtered : Net Bool Bool),
      run (Net.serverStep twoClients textArchive manualHashCombine) (Net.start dedup)
        doubleRequest = some final ∧
      (RequestsAnswered twoClients textArchive (ServerAction.arrivals doubleRequest) final
          filtered ↔
        Harmless twoClients textArchive manualHashCombine []
          (ServerAction.arrivals doubleRequest)) := by
  have hcheck : ((ArticleDedup.make manualHashCombine []).bind fun dedup =>
      (run (Net.serverStep twoClients textArchive manualHashCombine)
        (Net.start dedup : Net Bool Bool) doubleRequest).bind fun final =>
      (run (Net.serverStep twoClients textArchive manualHashCombine)
        (Net.start dedup : Net Bool Bool) singleRequest).map fun filtered =>
      ((final.serve twoClients textArchive manualHashCombine).isNone,
        (filtered.serve twoClients textArchive manualHashCombine).isNone)) =
          some (true, true) := by
    decide +kernel
  have ⟨dedup, hmake, hcheck⟩ := Option.bind_eq_some_iff.mp hcheck
  have ⟨final, hrun, hcheck⟩ := Option.bind_eq_some_iff.mp hcheck
  have ⟨filtered, hfiltered, hcheck⟩ := Option.map_eq_some_iff.mp hcheck
  have ⟨hblocked, hfilteredBlocked⟩ := Prod.mk.inj hcheck
  exact ⟨dedup, final, filtered, hrun, requestsAnswered_iff_harmless hmake hrun
    (Option.isNone_iff_eq_none.mp hblocked) hfiltered
    (Option.isNone_iff_eq_none.mp hfilteredBlocked) (by decide +kernel)⟩

/-- One sends a payload that is no archive, and the other a request. -/
def badPayload : List (ServerAction Bool) :=
  [.arrive false [[], [1]],
    .arrive true [[], textArchive.serializeIdSign ([99], fun _ => 9)]] ++ List.replicate 3 .serve

/-- The payload ends the loop, and the request is never answered. -/
theorem request_lost_after_bad_payload :
    ¬ ∀ (transport : Transport Bool) (archive : Archive) (hashCombine : HashCombine)
      (docs : List DocSignature) (dedup : ArticleDedup)
      (actions filteredActions : List (ServerAction Bool)) (final filtered : Net Bool Bool),
      (∀ message ∈ ServerAction.arrivals actions, (archive.request? message.2).isSome ∨
        archive.Malformed message.2) →
      ArticleDedup.make hashCombine docs = some dedup →
      run (Net.serverStep transport archive hashCombine) (Net.start dedup) actions =
        some final →
      final.serve transport archive hashCombine = none →
      run (Net.serverStep transport archive hashCombine) (Net.start dedup) filteredActions =
        some filtered →
      filtered.serve transport archive hashCombine = none →
      ServerAction.arrivals filteredActions =
        withoutMalformed archive (ServerAction.arrivals actions) →
      RequestsAnswered transport archive (ServerAction.arrivals actions) final filtered := by
  intro hall
  have hcheck : ((ArticleDedup.make manualHashCombine []).bind fun dedup =>
      (run (Net.serverStep twoClients textArchive manualHashCombine)
        (Net.start dedup : Net Bool Bool) badPayload).bind fun final =>
      (run (Net.serverStep twoClients textArchive manualHashCombine)
        (Net.start dedup : Net Bool Bool) singleRequest).map fun filtered =>
      ((final.serve twoClients textArchive manualHashCombine).isNone, final.served.length,
        (filtered.serve twoClients textArchive manualHashCombine).isNone)) =
          some (true, 0, true) := by
    decide +kernel
  have ⟨dedup, hmake, hcheck⟩ := Option.bind_eq_some_iff.mp hcheck
  have ⟨final, hrun, hcheck⟩ := Option.bind_eq_some_iff.mp hcheck
  have ⟨filtered, hfiltered, hcheck⟩ := Option.map_eq_some_iff.mp hcheck
  have ⟨hblocked, hcheck⟩ := Prod.mk.inj hcheck
  have ⟨hserved, hfilteredBlocked⟩ := Prod.mk.inj hcheck
  have hanswered := hall _ _ _ [] dedup badPayload singleRequest final filtered (by
    intro message hmessage
    rcases List.mem_cons.mp hmessage with rfl | hmessage
    · right
      intro delimiter idSignStr hframes
      cases hframes
      decide +kernel
    · left
      cases List.mem_singleton.mp hmessage
      decide +kernel) hmake hrun (Option.isNone_iff_eq_none.mp hblocked) hfiltered
    (Option.isNone_iff_eq_none.mp hfilteredBlocked) (by decide +kernel)
  have ⟨earlier, res, later, hsplit, _⟩ := hanswered.answered
    [(false, [[], [1]])] true _ [] ([99], fun _ => 9) rfl (textArchive.deserialize_serialize _)
  rw [List.length_eq_zero_iff.mp hserved] at hsplit
  cases earlier with
  | nil => cases hsplit
  | cons entry earlier => cases hsplit

end Unbiased
