import AgosMemory.Library.Channel
import AgosMemory.Storage.Schema

/-!
# The single writer

One thread owns the write connection and runs the closures that callers send it. A caller waits for a
reply on a channel of its own and then takes the result from another. The closure and the loop around
it both send a reply, and either channel holds one message.

Timeouts are steps that may come at any moment. A step that is not enabled leaves the state alone, so
every list of steps is a run. `accepted`, `started`, `finished` and the stage of a caller are history,
which no step reads.
-/

namespace AgosMemory.Writer

open Library

variable {σ α : Type}

/-! ## Callers -/

/-- How a closure ends. -/
inductive Outcome (α : Type) where
  | returned (r : Except Error α)
  | panicked

/-- Debug texts of the two timeouts, which the errors show, and the size of the job channel. -/
structure WriterConfig where
  sendTimeout : String := "5s"
  recvTimeout : String := "30s"
  queueSize : Nat := 1024

def queueFull (config : WriterConfig) : Error :=
  .storage ("writer queue full, timeout after " ++ config.sendTimeout)

def threadStopped : Error := .storage "writer thread has stopped"

def notInTime (config : WriterConfig) : Error :=
  .storage ("writer did not respond within " ++ config.recvTimeout)

def replyDropped : Error := .storage "writer thread dropped the reply channel"

def resultDropped : Error := .storage "writer dropped result channel"

/-- The payload of a panic is shown as the type of its box. -/
def jobPanicked : Error := .storage "writer job panicked: Any \x7b .. \x7d"

/-- Where a call of `write` stands. -/
inductive Phase (α : Type) where
  | sending
  | waiting
  | collecting
  | returned (r : Except Error α)

def Phase.isReturned : Phase α → Bool
  | returned _ => true
  | _ => false

/-- How far the writer got with a closure. -/
inductive Stage (α : Type) where
  | unsent
  | queued
  | running
  | replying (r : Except Error α)
  | answering (o : Outcome α)
  | done (o : Outcome α)

structure Caller (α : Type) where
  phase : Phase α := .sending
  reply : Channel (Except Error Unit) := .bounded 1
  result : Channel (Except Error α) := .bounded 1
  stage : Stage α := .unsent

def Caller.new : Caller α := {}

/-- `write` returns, and drops its receivers. -/
def Caller.finish (c : Caller α) (r : Except Error α) : Caller α :=
  { c with phase := .returned r, reply := c.reply.close, result := c.result.close }

/-! ## The actor -/

/-- A message to the writer thread; a job is named by the number of its caller. -/
inductive WriterMsg where
  | job (k : Nat)
  | shutdown
  deriving DecidableEq, Repr

/-- The writer thread. It sends the first reply inside the closure and the second one after it. -/
inductive Loop where
  | idle
  | running (k : Nat)
  | replying (k : Nat)
  | answering (k : Nat) (reply : Except Error Unit)
  | stopping
  | stopped

/-- The caller whose job is in hand. -/
def Loop.job? : Loop → Option Nat
  | running k | replying k | answering k _ => some k
  | _ => none

structure Actor (σ α : Type) where
  config : WriterConfig
  conn : σ
  healthy : Bool := true
  handles : Bool := true
  callers : List (Caller α) := []
  queue : Channel WriterMsg
  loop : Loop := .idle
  accepted : List Nat := []
  started : List Nat := []
  finished : List Nat := []

def spawn (α : Type) (config : WriterConfig) (conn : σ) : Actor σ α :=
  { config, conn, queue := .bounded config.queueSize }

namespace Actor

def setCaller (s : Actor σ α) (k : Nat) (c : Caller α) : Actor σ α :=
  { s with callers := s.callers.set k c }

def isIdle (s : Actor σ α) : Bool :=
  match s.loop with
  | .idle => true
  | _ => false

/-- Whether someone may still send a reply to caller `k`. -/
def holdsReply (s : Actor σ α) (k : Nat) : Bool :=
  .job k ∈ s.queue.items || s.loop.job? = some k

/-- Whether someone may still send a result to caller `k`: the closure owns that sender. -/
def holdsResult (s : Actor σ α) (k : Nat) : Bool :=
  .job k ∈ s.queue.items ||
    match s.loop with
    | .running j | .replying j => j = k
    | _ => false

end Actor

/-- A step inside a call of `write`. -/
inductive CallerStep where
  | accept
  | sendTimeout
  | sendDisconnected
  | receive
  | recvTimeout
  | recvDisconnected
  | collect
  | collectDisconnected
  deriving DecidableEq, Repr

/-- A step of a caller, of the program that holds the handles, or of the writer thread. -/
inductive Event where
  | call
  | caller (k : Nat) (step : CallerStep)
  | shutdown
  | dropHandles
  | writer
  deriving DecidableEq, Repr

/-- The next stage, once the loop has sent a reply. -/
def Stage.replied : Stage α → Stage α
  | replying r => answering (.returned r)
  | answering o => done o
  | stage => stage

namespace Actor

/-- One step of the call of `write` that caller `k` is in. -/
def callerStep (s : Actor σ α) (k : Nat) (c : Caller α) : Phase α → CallerStep → Option (Actor σ α)
  | .sending, .accept =>
    if s.queue.receiver then
      (s.queue.send? s.isIdle (.job k)).map fun queue =>
        { s.setCaller k { c with phase := .waiting, stage := .queued } with
          queue, accepted := s.accepted ++ [k] }
    else none
  | .sending, .sendTimeout => some (s.setCaller k (c.finish (.error (queueFull s.config))))
  | .sending, .sendDisconnected =>
    if s.queue.receiver then none else some (s.setCaller k (c.finish (.error threadStopped)))
  | .waiting, .receive =>
    match c.reply.items with
    | .ok () :: rest =>
      some (s.setCaller k { c with phase := .collecting, reply := { c.reply with items := rest } })
    | .error e :: _ => some (s.setCaller k (c.finish (.error e)))
    | [] => none
  | .waiting, .recvTimeout => some (s.setCaller k (c.finish (.error (notInTime s.config))))
  | .waiting, .recvDisconnected =>
    if c.reply.items.isEmpty && !s.holdsReply k then
      some (s.setCaller k (c.finish (.error replyDropped)))
    else none
  | .collecting, .collect =>
    match c.result.items with
    | r :: _ => some (s.setCaller k (c.finish r))
    | [] => none
  | .collecting, .collectDisconnected =>
    if c.result.items.isEmpty && !s.holdsResult k then
      some (s.setCaller k (c.finish (.error resultDropped)))
    else none
  | _, _ => none

/-- The closure of caller `k` ends; a value or an error goes to the result channel. -/
def runJob (s : Actor σ α) (k : Nat) (c : Caller α) : Outcome α × σ → Option (Actor σ α)
  | (.returned r, conn) =>
    (c.result.send? false r).map fun result =>
      { s.setCaller k { c with result, stage := .replying r } with
        conn, loop := .replying k, finished := s.finished ++ [k] }
  | (.panicked, conn) =>
    some { s.setCaller k { c with stage := .answering .panicked } with
      conn, healthy := false, loop := .answering k (.error jobPanicked)
      finished := s.finished ++ [k] }

/-- A reply to caller `k`, after which the writer is at `loop`. -/
def sendReply (s : Actor σ α) (k : Nat) (reply : Except Error Unit) (loop : Loop) :
    Option (Actor σ α) :=
  s.callers[k]?.bind fun c => (c.reply.send? false reply).map fun ch =>
    { s.setCaller k { c with reply := ch, stage := c.stage.replied } with loop }

/-- `writer_loop`; `jobs k` is the closure of caller `k`. -/
def writerStep (jobs : Nat → σ → Outcome α × σ) (s : Actor σ α) : Option (Actor σ α) :=
  match s.loop with
  | .idle =>
    match s.queue.items with
    | .job k :: rest => s.callers[k]?.map fun c =>
      { s.setCaller k { c with stage := .running } with
        queue := { s.queue with items := rest }, loop := .running k, started := s.started ++ [k] }
    | .shutdown :: rest =>
      some { s with queue := { s.queue with items := rest }, loop := .stopping }
    | [] => if s.handles then none else some { s with loop := .stopping }
  | .running k => s.callers[k]?.bind fun c => s.runJob k c (jobs k s.conn)
  | .replying k => s.sendReply k (.ok ()) (.answering k (.ok ()))
  | .answering k reply => s.sendReply k reply .idle
  | .stopping => some { s with queue := s.queue.close, healthy := false, loop := .stopped }
  | .stopped => none

/-- A step, when it is enabled. A call of `write` or `shutdown` borrows a handle. -/
def step? (jobs : Nat → σ → Outcome α × σ) (s : Actor σ α) : Event → Option (Actor σ α)
  | .call => if s.handles then some { s with callers := s.callers ++ [.new] } else none
  | .caller k e => s.callers[k]?.bind fun c => s.callerStep k c c.phase e
  | .shutdown =>
    if s.handles then (s.queue.send? s.isIdle .shutdown).map fun queue => { s with queue }
    else none
  | .dropHandles =>
    if s.callers.all fun c => c.phase.isReturned then some { s with handles := false } else none
  | .writer => s.writerStep jobs

def run (jobs : Nat → σ → Outcome α × σ) (events : List Event) (s : Actor σ α) : Actor σ α :=
  events.foldl (fun s e => (s.step? jobs e).getD s) s

end Actor

/-! ## What the writer has done -/

/-- The closures of `ks` one after the other. -/
def replay (jobs : Nat → σ → Outcome α × σ) (ks : List Nat) (conn : σ) : σ :=
  ks.foldl (fun conn k => (jobs k conn).2) conn

/-- How the closure of caller `k` ended, if it did. -/
def outcomeOf (jobs : Nat → σ → Outcome α × σ) (conn : σ) (finished : List Nat) (k : Nat) :
    Option (Outcome α) :=
  if k ∈ finished then some (jobs k (replay jobs (finished.takeWhile fun j => j ≠ k) conn)).1
  else none

end AgosMemory.Writer
