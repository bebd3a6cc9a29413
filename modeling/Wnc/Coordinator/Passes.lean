/-
The passes of a coordinator over its sessions, one step at a time: a pass takes a connection, pumps every session that
is in use and drops those that are idle. What the operating system does is answered at the step that asks it.
-/
import Wnc.Coordinator.Requests

namespace Wnc

open Lib Wire

def maxSessions : Nat := 64

/-- The most bytes that one receive takes, and that one send is given. -/
def receiveChunkBytes : Nat := 16 * 1024

/-- The frames that are served from one session in one pass. -/
def framesPerPass : Nat := 8

def sessionDrainMillis : UInt64 := 2000

/-! ## What the operating system does -/

inductive AcceptOutcome
  /-- No connection waits. -/
  | none
  | accepted (nonBlocking : Bool)

inductive SendOutcome
  /-- One byte is sent, and at most `more` others. -/
  | progress (more : Nat)
  | wouldBlock
  | failed

inductive WaitOutcome
  | readable
  | deadline
  | failed

/-- What one receive hands out. -/
structure Chunk where
  bytes : Bytes
  nonempty : bytes ≠ []
  length_le : bytes.length ≤ receiveChunkBytes

inductive ReceiveOutcome
  | data (chunk : Chunk)
  | wouldBlock
  | closed
  | failed

/-- What a step meets outside the coordinator. A step that does not ask for something does not look at it. -/
structure Outside where
  now : UInt64
  accept : AcceptOutcome
  send : SendOutcome
  writable : Bool
  wait : WaitOutcome
  receive : ReceiveOutcome
  around : Surroundings

/-! ## One session -/

namespace Session

/-- Takes a connection in an unused slot. -/
def accept (now : UInt64) : Session := { lastActivityMillis := now, used := true }

/-- One round of the loop that sends what is queued, and whether the loop ends with it. -/
def flush (os : Outside) (s : Session) : Session × Bool :=
  if s.pendingOutput then
    match os.send with
    | .progress more =>
      let slice := min (s.outbound.length - s.outOffset) receiveChunkBytes
      ({ s with outOffset := s.outOffset + min (more + 1) slice, lastActivityMillis := os.now }, false)
    | .wouldBlock => ({ s with ready := true }, true)
    | .failed => (s.drop, true)
  else ({ s with outbound := [], outOffset := 0 }, true)

end Session

/-- Where the pump of a session stands. -/
inductive Point
  /-- In the flush it begins with. -/
  | entering
  /-- Before the next frame of the buffer. -/
  | serving (processed : Nat)
  | handling (processed : Nat) (frame : Frame)
  /-- In the flush behind a frame. -/
  | flushing (processed : Nat)
  /-- Behind the last frame of the buffer that is served now. -/
  | pausing (processed : Nat)
  /-- Before the size of the buffer is tested. -/
  | bounding (processed : Nat)
  | waiting (processed : Nat)
  | receiving (processed : Nat)

namespace Coordinator

/-- One step of the pump of a session; there is no next point where the pump returns. -/
def pump (os : Outside) (c : Coordinator) (s : Session) : Point → Coordinator × Session × Option Point
  | .entering =>
    match s.flush os with
    | (s, false) => (c, s, some .entering)
    | (s, true) =>
      if !s.used then (c, s, none)
      else if s.pendingOutput then (c, { s with ready := true }, none)
      else (c, s, some (.serving 0))
  | .serving processed =>
    if processed < framesPerPass && !s.pendingOutput then
      if s.inbound.length < headerBytes then (c, s, some (.pausing processed))
      else
        match decodeFrame s.inbound with
        | .error f =>
          -- the rest of the frame may still arrive; behind any other failure no frame can be found
          if f.code = .truncatedFrame then (c, s, some (.pausing processed))
          else ({ c with rejected := c.rejected + 1 }, s.drop, none)
        | .ok (frame, consumed) =>
          (c, { s with inbound := s.inbound.drop consumed, lastActivityMillis := os.now },
            some (.handling processed frame))
    else (c, s, some (.pausing processed))
  | .handling processed frame =>
    match handleFrame os.around frame c s with
    | (c, s) => if !s.used then (c, s, none) else (c, s, some (.flushing processed))
  | .flushing processed =>
    match s.flush os with
    | (s, false) => (c, s, some (.flushing processed))
    | (s, true) => if !s.used then (c, s, none) else (c, s, some (.serving (processed + 1)))
  | .pausing processed =>
    if s.pendingOutput then (c, { s with ready := true }, none)
    else if processed ≥ framesPerPass then (c, { s with ready := true }, none)
    else (c, s, some (.bounding processed))
  | .bounding processed =>
    if s.inbound.length > maxFrameBytes then (c, s.drop, none) else (c, s, some (.waiting processed))
  | .waiting processed =>
    match os.wait with
    | .readable => (c, s, some (.receiving processed))
    | .deadline => (c, s, none)
    | .failed => (c, s.drop, none)
  | .receiving processed =>
    match os.receive with
    | .data chunk =>
      (c, { s with inbound := s.inbound ++ chunk.bytes, lastActivityMillis := os.now }, some (.serving processed))
    | .wouldBlock => (c, s, none)
    | .closed | .failed => (c, s.drop, none)

/-! ## All sessions -/

/-- The slot a new connection is given: the first that is not in use, or one more while there may be one. -/
def acceptSession (now : UInt64) (c : Coordinator) : Option Coordinator :=
  match c.sessions.findIdx? fun s => !s.used with
  | some slot => some { c with sessions := c.sessions.set slot (.accept now) }
  | none =>
    if c.sessions.length ≥ c.options.maxSessions then none
    else some { c with sessions := c.sessions ++ [.accept now] }

def acceptPending (os : Outside) (c : Coordinator) : Coordinator :=
  if !c.listening || c.stopRequested then c
  else
    match os.accept with
    | .none => c
    | .accepted nonBlocking =>
      if c.activeSessions ≥ c.options.maxSessions || !nonBlocking then { c with rejected := c.rejected + 1 }
      else (c.acceptSession os.now).getD { c with rejected := c.rejected + 1 }

def reapIdle (now : UInt64) (c : Coordinator) : Coordinator :=
  if c.options.idleTimeoutMillis = 0 then c
  else
    { c with
      sessions := c.sessions.map fun s =>
        if s.used && now - s.lastActivityMillis > c.options.idleTimeoutMillis then s.drop else s }

end Coordinator

/-- What the coordinator is at: the pass it makes, session by session, or its shutdown. -/
inductive Control
  | idle
  | visiting (index : Nat)
  | pumping (index : Nat) (point : Point)
  | draining (deadline : UInt64) (index : Nat)
  /-- In the flush of a session that drains. -/
  | drainFlushing (deadline : UInt64) (index : Nat)

structure Machine where
  coordinator : Coordinator
  control : Control

/-- What the coordinator does next: it goes on, or it is asked to stop, or is stopped where it is between two passes. -/
inductive Action
  | proceed (os : Outside)
  | requestStop
  | stop (os : Outside)

namespace Machine

/-- The machine with a session that has changed. -/
def settle (c : Coordinator) (index : Nat) (s : Session) (control : Control) : Machine :=
  { coordinator := { c with sessions := c.sessions.set index s }, control := control }

def proceed (os : Outside) (m : Machine) : Machine :=
  let c := m.coordinator
  match m.control with
  | .idle => if c.stopRequested || c.stopped then m else ⟨c.acceptPending os, .visiting 0⟩
  | .visiting index =>
    match c.sessions[index]? with
    | none => ⟨c.reapIdle os.now, .idle⟩
    | some s =>
      if !s.used then ⟨c, .visiting (index + 1)⟩
      else settle c index { s with ready := false } (.pumping index .entering)
  | .pumping index point =>
    match c.sessions[index]? with
    | none => ⟨c, .visiting (index + 1)⟩
    | some s =>
      match c.pump os s point with
      | (c, s, some next) => settle c index s (.pumping index next)
      | (c, s, none) => settle c index s (.visiting (index + 1))
  | .draining deadline index =>
    match c.sessions[index]? with
    | none => ⟨{ c with sessions := [], stopped := true }, .idle⟩
    | some s =>
      if !s.used then ⟨c, .draining deadline (index + 1)⟩
      else if s.pendingOutput && os.now < deadline then
        if os.writable then ⟨c, .drainFlushing deadline index⟩ else m
      else settle c index s.drop (.draining deadline (index + 1))
  | .drainFlushing deadline index =>
    match c.sessions[index]? with
    | none => ⟨c, .draining deadline index⟩
    | some s =>
      match s.flush os with
      | (s, false) => settle c index s (.drainFlushing deadline index)
      | (s, true) => settle c index s (.draining deadline index)

def step (m : Machine) : Action → Machine
  | .proceed os => m.proceed os
  | .requestStop => { m with coordinator := { m.coordinator with stopRequested := true } }
  | .stop os =>
    match m.control with
    | .idle =>
      ⟨{ m.coordinator with stopRequested := true, listening := false }, .draining (os.now + sessionDrainMillis) 0⟩
    | _ => m

/-- The machine after some actions. -/
def run (m : Machine) (actions : List Action) : Machine := actions.foldl step m

end Machine

/-- A coordinator as it is started over an open runtime: every slot is free. -/
def Coordinator.start (options : CoordinatorOptions) (runtime : Runtime) (directory : Directory) : Machine :=
  let options := if options.maxSessions = 0 then { options with maxSessions := Wnc.maxSessions } else options
  { coordinator :=
      { options := options
        runtime := runtime
        directory := directory
        sessions := List.replicate (min options.maxSessions Wnc.maxSessions) {} }
    control := .idle }

end Wnc
