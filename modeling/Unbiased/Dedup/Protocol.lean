/-
# The dedup protocol

A client asks the dedup server about a document over a REQ socket and waits for
the answer. The server reads requests from a ROUTER socket frame by frame,
answers each from its buckets, and writes the reply frame by frame. Messages
are in flight for an arbitrary time and arrive in any order, and the steps of
all parties interleave.

The sockets lose nothing, tag a request with its sender's identity and route a
reply by its first frame. A REQ socket refuses to send while a reply is
outstanding and to receive while none is. How threads share stubs is an argument.
-/

import Unbiased.Dedup.LSHDeduplication
import Unbiased.Math.Pool

namespace Unbiased

open Unbiased.Math

/-- A frame of a multipart message. -/
abbrev Frame := Bytes

/-- How the ROUTER socket names its peers. -/
structure Transport (Stub : Type) where
  identity : Stub → Frame
  peer : Frame → Option Stub
  /-- An identity is that of one peer. -/
  peer_eq_some : ∀ frame stub, peer frame = some stub ↔ frame = identity stub

/-- Different peers have different identities. -/
theorem Transport.identity_injective {Stub : Type} (transport : Transport Stub) :
    Function.Injective transport.identity := by
  intro first second heq
  have hfirst := (transport.peer_eq_some _ first).mpr rfl
  have hsecond := (transport.peer_eq_some _ second).mpr heq
  exact Option.some.inj (hfirst.symm.trans hsecond)

/-- The text archive that carries an id and a signature. -/
structure Archive where
  serializeIdSign : DocSignature → Frame
  /-- Missing if the archive throws. -/
  deserializeIdSign : Frame → Option DocSignature
  /-- What was written is read back. -/
  deserialize_serialize : ∀ idSign, deserializeIdSign (serializeIdSign idSign) = some idSign

/-- The state of a REQ socket. -/
inductive ReqSocket where
  /-- The next call must send. -/
  | ready
  /-- A request is out, and the next call must receive. -/
  | waiting
  /-- The reply has arrived; these of its frames are still to be received. -/
  | replied (frames : List Frame)
  deriving DecidableEq

/-- The socket calls of the server loop, with the variables that are live. -/
inductive ServerPc where
  | recvIdentity
  | recvDelimiter (identity : Frame)
  | recvIdSign (identity : Frame)
  | sendIdentity (identity res : Frame)
  | sendDelimiter (res : Frame)
  | sendRes (res : Frame)
  /-- An exception has ended the loop. -/
  | stopped
  deriving DecidableEq

/-- A message with the server's verdict on it. -/
abbrev Verdict := DocSignature × Bool

/-- All parties, the messages in flight, and what has happened so far. -/
structure Net (Thread Stub : Type) where
  sockets : Stub → ReqSocket
  /-- The message a thread has sent and waits for. -/
  calls : Thread → Option DocSignature
  /-- Requests in flight, by sender. -/
  requests : List (Stub × List Frame)
  /-- Replies in flight, by receiver. -/
  replies : List (Stub × List Frame)
  /-- Messages that have arrived at the server, oldest first, by sender. -/
  inbox : List (Stub × List Frame)
  /-- Frames of the message the server is receiving. -/
  unread : List Frame
  /-- Frames of the message the server is sending. -/
  unsent : List Frame
  pc : ServerPc
  dedup : ArticleDedup
  /-- The verdicts of the server, with the identities they were asked under. -/
  served : List (Frame × Verdict)
  /-- The replies that have reached a socket which waited. -/
  delivered : List (Stub × Frame)
  /-- The calls that have returned. -/
  completed : List (Thread × Verdict)
  /-- The calls that have thrown. -/
  thrown : List (Thread × DocSignature)

/-- Everybody idle, and a server just constructed. -/
def Net.start {Thread Stub : Type} (dedup : ArticleDedup) : Net Thread Stub where
  sockets _ := .ready
  calls _ := none
  requests := []
  replies := []
  inbox := []
  unread := []
  unsent := []
  pc := .recvIdentity
  dedup := dedup
  served := []
  delivered := []
  completed := []
  thrown := []

/-- What can happen next. -/
inductive NetAction (Thread : Type) where
  /-- A thread enters `isDuplicate` and sends its message. -/
  | send (thread : Thread) (idSign : DocSignature)
  /-- The request at a place arrives at the server. -/
  | deliverRequest (idx : ℕ)
  /-- The server makes its next socket call. -/
  | serve
  /-- The reply at a place arrives at its client. -/
  | deliverReply (idx : ℕ)
  /-- A thread receives, and returns from `isDuplicate`. -/
  | receive (thread : Thread)

/-- The server's answer. -/
def resStr (res : Bool) : Frame := if res then [68, 85, 80] else [79, 75]

/-- What the client makes of the answer. Anything but the two texts fails an
assertion. -/
def readRes (frame : Frame) : Option Bool :=
  if frame = [68, 85, 80] then some true
  else if frame = [79, 75] then some false
  else none

@[simp]
theorem readRes_resStr (res : Bool) : readRes (resStr res) = some res := by
  cases res with
  | false => rfl
  | true => rfl

namespace Net

variable {Thread Stub : Type} [DecidableEq Thread] [DecidableEq Stub]

/-- The client half of `DedupRPCStub::is_duplicate`, up to the send. Sending out
of turn throws. -/
def send (archive : Archive) (stubOf : Thread → Stub) (thread : Thread) (idSign : DocSignature)
    (s : Net Thread Stub) : Option (Net Thread Stub) :=
  match s.calls thread, s.sockets (stubOf thread) with
  | some _, _ => none
  | none, .ready => some { s with
      sockets := Function.update s.sockets (stubOf thread) .waiting
      calls := Function.update s.calls thread (some idSign)
      requests := s.requests ++ [(stubOf thread, [[], archive.serializeIdSign idSign])] }
  | none, _ => some { s with thrown := s.thrown ++ [(thread, idSign)] }

/-- A request arrives at the server, behind those that are there. -/
def deliverRequest (idx : ℕ) (s : Net Thread Stub) : Option (Net Thread Stub) :=
  (s.requests[idx]?).map fun request => { s with
    requests := s.requests.eraseIdx idx
    inbox := s.inbox ++ [request] }

/-- Receive one frame at the server. The first frame of a message is the sender's
identity. Blocks if nothing has arrived. -/
def recvFrame (transport : Transport Stub) (s : Net Thread Stub) :
    Option (Frame × Net Thread Stub) :=
  match s.unread, s.inbox with
  | frame :: unread, _ => some (frame, { s with unread := unread })
  | [], (stub, frames) :: inbox =>
    some (transport.identity stub, { s with
      unread := frames
      inbox := inbox })
  | [], [] => none

/-- Send the last frame at the server. The message goes to the peer its first
frame names, or nowhere. -/
def sendLast (transport : Transport Stub) (frame : Frame) (s : Net Thread Stub) :
    Net Thread Stub :=
  match s.unsent ++ [frame] with
  | [] => s
  | identity :: frames =>
    match transport.peer identity with
    | some stub => { s with
        unsent := []
        replies := s.replies ++ [(stub, frames)] }
    | none => { s with unsent := [] }

/-- The server loop, up to its next socket call. -/
def serve (transport : Transport Stub) (archive : Archive) (hashCombine : HashCombine)
    (s : Net Thread Stub) : Option (Net Thread Stub) :=
  match s.pc with
  | .recvIdentity => do
    let (identity, s) ← s.recvFrame transport
    some { s with pc := .recvDelimiter identity }
  | .recvDelimiter identity => do
    let (_, s) ← s.recvFrame transport
    some { s with pc := .recvIdSign identity }
  | .recvIdSign identity => do
    let (idSignStr, s) ← s.recvFrame transport
    match archive.deserializeIdSign idSignStr with
    | none => some { s with pc := .stopped }
    | some idSign => do
      let (res, dedup) ← s.dedup.isDuplicate hashCombine idSign
      some { s with
        pc := .sendIdentity identity (resStr res)
        dedup := dedup
        served := s.served ++ [(identity, idSign, res)] }
  | .sendIdentity identity res => some { s with
      pc := .sendDelimiter res
      unsent := s.unsent ++ [identity] }
  | .sendDelimiter res => some { s with
      pc := .sendRes res
      unsent := s.unsent ++ [[]] }
  | .sendRes res => some { s.sendLast transport res with pc := .recvIdentity }
  | .stopped => none

/-- A reply arrives at a client. A socket that waits strips the delimiter; else
the message is dropped. -/
def deliverReply (idx : ℕ) (s : Net Thread Stub) : Option (Net Thread Stub) :=
  (s.replies[idx]?).map fun (stub, frames) =>
    let s := { s with replies := s.replies.eraseIdx idx }
    match s.sockets stub, frames with
    | .waiting, [] :: res :: rest => { s with
        sockets := Function.update s.sockets stub (.replied (res :: rest))
        delivered := s.delivered ++ [(stub, res)] }
    | _, _ => s

/-- The rest of `DedupRPCStub::is_duplicate`. Receiving out of turn throws, and
receiving before the reply has arrived blocks. -/
def receive (stubOf : Thread → Stub) (thread : Thread) (s : Net Thread Stub) :
    Option (Net Thread Stub) := do
  let idSign ← s.calls thread
  let s := { s with calls := Function.update s.calls thread none }
  match s.sockets (stubOf thread) with
  | .ready => some { s with thrown := s.thrown ++ [(thread, idSign)] }
  | .waiting => none
  | .replied [] => none
  | .replied (frame :: rest) => do
    let res ← readRes frame
    some { s with
      sockets := Function.update s.sockets (stubOf thread)
        (if rest = [] then .ready else .replied rest)
      completed := s.completed ++ [(thread, idSign, res)] }

/-- One step of anybody. -/
def step (transport : Transport Stub) (archive : Archive) (hashCombine : HashCombine)
    (stubOf : Thread → Stub) (s : Net Thread Stub) : NetAction Thread → Option (Net Thread Stub)
  | .send thread idSign => s.send archive stubOf thread idSign
  | .deliverRequest idx => s.deliverRequest idx
  | .serve => s.serve transport archive hashCombine
  | .deliverReply idx => s.deliverReply idx
  | .receive thread => s.receive stubOf thread

/-- What one step of the server loop can do, by the socket call that it makes. -/
inductive Serves (transport : Transport Stub) (archive : Archive) (hashCombine : HashCombine)
    (s : Net Thread Stub) : Net Thread Stub → Prop where
  | recvIdentity {identity : Frame} {mid : Net Thread Stub} (hpc : s.pc = .recvIdentity)
    (hframe : s.recvFrame transport = some (identity, mid)) :
    Serves transport archive hashCombine s { mid with pc := .recvDelimiter identity }
  | recvDelimiter {identity delimiter : Frame} {mid : Net Thread Stub}
    (hpc : s.pc = .recvDelimiter identity)
    (hframe : s.recvFrame transport = some (delimiter, mid)) :
    Serves transport archive hashCombine s { mid with pc := .recvIdSign identity }
  | throws {identity idSignStr : Frame} {mid : Net Thread Stub}
    (hpc : s.pc = .recvIdSign identity) (hframe : s.recvFrame transport = some (idSignStr, mid))
    (hthrows : archive.deserializeIdSign idSignStr = none) :
    Serves transport archive hashCombine s { mid with pc := .stopped }
  | recvIdSign {identity idSignStr : Frame} {mid : Net Thread Stub} {idSign : DocSignature}
    {res : Bool} {dedup : ArticleDedup}
    (hpc : s.pc = .recvIdSign identity) (hframe : s.recvFrame transport = some (idSignStr, mid))
    (hidSign : archive.deserializeIdSign idSignStr = some idSign)
    (hres : mid.dedup.isDuplicate hashCombine idSign = some (res, dedup)) :
    Serves transport archive hashCombine s { mid with
      pc := .sendIdentity identity (resStr res)
      dedup := dedup
      served := mid.served ++ [(identity, idSign, res)] }
  | sendIdentity {identity res : Frame} (hpc : s.pc = .sendIdentity identity res) :
    Serves transport archive hashCombine s { s with
      pc := .sendDelimiter res
      unsent := s.unsent ++ [identity] }
  | sendDelimiter {res : Frame} (hpc : s.pc = .sendDelimiter res) :
    Serves transport archive hashCombine s { s with
      pc := .sendRes res
      unsent := s.unsent ++ [[]] }
  | sendRes {res : Frame} (hpc : s.pc = .sendRes res) :
    Serves transport archive hashCombine s { s.sendLast transport res with pc := .recvIdentity }

omit [DecidableEq Thread] [DecidableEq Stub] in
/-- Every step of the server is one of these. -/
theorem serves_of_serve {transport : Transport Stub} {archive : Archive}
    {hashCombine : HashCombine} {s t : Net Thread Stub}
    (hstep : s.serve transport archive hashCombine = some t) :
    Serves transport archive hashCombine s t := by
  cases hpc : s.pc with
  | recvIdentity =>
      simp only [serve, hpc] at hstep
      rcases Option.bind_eq_some_iff.mp hstep with ⟨⟨identity, mid⟩, hframe, hstep⟩
      cases hstep
      exact .recvIdentity hpc hframe
  | recvDelimiter identity =>
      simp only [serve, hpc] at hstep
      rcases Option.bind_eq_some_iff.mp hstep with ⟨⟨delimiter, mid⟩, hframe, hstep⟩
      cases hstep
      exact .recvDelimiter hpc hframe
  | recvIdSign identity =>
      simp only [serve, hpc] at hstep
      rcases Option.bind_eq_some_iff.mp hstep with ⟨⟨idSignStr, mid⟩, hframe, hstep⟩
      cases hidSign : archive.deserializeIdSign idSignStr with
      | none =>
          simp only [hidSign] at hstep
          cases hstep
          exact .throws hpc hframe hidSign
      | some idSign =>
          simp only [hidSign] at hstep
          rcases Option.bind_eq_some_iff.mp hstep with ⟨⟨res, dedup⟩, hres, hstep⟩
          cases hstep
          exact .recvIdSign hpc hframe hidSign hres
  | sendIdentity identity res =>
      simp only [serve, hpc] at hstep
      cases hstep
      exact .sendIdentity hpc
  | sendDelimiter res =>
      simp only [serve, hpc] at hstep
      cases hstep
      exact .sendDelimiter hpc
  | sendRes res =>
      simp only [serve, hpc] at hstep
      cases hstep
      exact .sendRes hpc
  | stopped =>
      simp only [serve, hpc] at hstep
      cases hstep

end Net

/-- The messages of all calls begun, by thread. -/
def NetAction.sends {Thread : Type} (actions : List (NetAction Thread)) :
    List (Thread × DocSignature) :=
  actions.filterMap fun action =>
    match action with
    | .send thread idSign => some (thread, idSign)
    | _ => none

end Unbiased
