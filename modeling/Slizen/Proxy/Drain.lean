import Slizen.Interleaving.Program
import Slizen.Proxy.World

namespace Slizen.Proxy
set_option autoImplicit true

open Interleaving

/-- A method of the proxy as a program over its atomic actions. -/
abbrev Run (α : Type) := Prog Action Action.Resp α

def Run.do (a : Action) : Run a.Resp := Prog.perform a

def Run.when (c : Prop) [Decidable c] (p : Run Unit) : Run Unit := if c then p else pure ()

def lock (m : Mutex) : Run Unit := Run.do (.lock m)

def unlock (m : Mutex) : Run Unit := Run.do (.unlock m)

def drainingLoad : Run Bool := Run.do .drainingLoad

def note (n : Note) : Run Unit := Run.do (.note n)

/-- A call of the drain tracker, between the notes that it is under way. -/
def during (p : Run α) : Run α := do
  note .enter
  let r ← p
  note .leave
  pure r

def signalDrainedLocked : Run Unit := do
  let draining ← drainingLoad
  if draining then
    let active ← Run.do .activeLoad
    if active = 0 then
      let connections ← Run.do .connectionsLen
      if connections = 0 then Run.do (.onceClose .drained) else pure ()
    else pure ()
  else pure ()

def stopAdmissionLocked : Run Unit := do
  let draining ← Run.do .drainingSwap
  if draining then pure () else Run.do (.closeChannel .started)

def decrementActiveHandler : Run Unit := do
  let remaining ← Run.do (.activeAdd (-1))
  if remaining < 0 then
    let _ ← Run.do (.activeAdd 1)
    let never ← Run.do (.panic "proxy active handler count underflow")
    nomatch never
  else pure ()

inductive AcceptError where
  | connectionLimit
  | deadline (e : Error)

/-- The locked section of `accept`. -/
def acceptLocked (conn : Conn) (readTimeout : Time) (maxConnections : Int) :
    Run (Bool × Option AcceptError) := do
  let draining ← drainingLoad
  if draining then pure (false, none)
  else
    let connections ← Run.do .connectionsLen
    if (connections : Int) ≥ maxConnections then pure (false, some .connectionLimit)
    else
      let now ← Run.do .now
      let err ← Run.do (.setDeadline conn .read (now + readTimeout))
      match err with
      | some e => pure (false, some (.deadline e))
      | none =>
        Run.do (.track conn)
        pure (true, none)

def accept (conn : Option Conn) (readTimeout : Time) (maxConnections : Int) :
    Run (Bool × Option AcceptError) :=
  during
    (match conn with
    | none => pure (false, none)
    | some conn => do
      lock .mu
      let r ← acceptLocked conn readTimeout maxConnections
      unlock .mu
      pure r)

def connectionClosed (conn : Option Conn) : Run Unit :=
  during
    (match conn with
    | none => pure ()
    | some conn => do
      lock .mu
      Run.do (.untrack conn)
      signalDrainedLocked
      unlock .mu)

/-- The reservation that `beginHandler` gives up because a drain has won. -/
def rollBack : Run Unit := do
  decrementActiveHandler
  lock .mu
  signalDrainedLocked
  unlock .mu

/-- `beginHandler` once it has found no drain. -/
def reserveHandler : Run Bool := do
  let active ← Run.do (.activeAdd 1)
  if active ≤ 0 then
    let _ ← Run.do (.activeAdd (-1))
    let never ← Run.do (.panic "proxy active handler count overflow")
    nomatch never
  else
    let draining ← drainingLoad
    if draining then
      rollBack
      pure false
    else pure true

def beginHandler : Run Bool :=
  during do
    let draining ← drainingLoad
    if draining then pure false else reserveHandler

/-- The deadlines that `prepareHandlerDone` sets; the errors are joined. -/
def setDeadlines (conn : Option Conn) (readTimeout writeTimeout : Time) : Run (List Error) :=
  match conn with
  | none => pure []
  | some conn => do
    let now ← Run.do .now
    let readErr ← Run.do (.setDeadline conn .read (now + readTimeout))
    let writeErr ← Run.do (.setDeadline conn .write (now + writeTimeout))
    pure (readErr.toList ++ writeErr.toList)

/-- The locked section of `prepareHandlerDone`. -/
def finishLocked : Run Bool := do
  let draining ← drainingLoad
  if draining then pure true
  else
    decrementActiveHandler
    pure false

def prepareHandlerDone (conn : Option Conn) (readTimeout writeTimeout : Time) :
    Run (Bool × List Error) :=
  during do
    let draining ← drainingLoad
    if draining then pure (true, [])
    else
      let deadlineErr ← setDeadlines conn readTimeout writeTimeout
      lock .mu
      let draining ← finishLocked
      unlock .mu
      pure (draining, deadlineErr)

def completeDrainingHandler : Run Unit :=
  during do
    lock .mu
    let draining ← drainingLoad
    if draining then
      decrementActiveHandler
      signalDrainedLocked
      unlock .mu
    else
      let never ← Run.do
        (.panic "proxy handler completed through the drain path before drain startup")
      nomatch never

def stopAdmission : Run Unit :=
  during do
    lock .mu
    stopAdmissionLocked
    signalDrainedLocked
    unlock .mu

/-- Wake the connections of one batch; the answer counts the failures. -/
def wakeBatch (wakeAt deadline : Time) : List Conn → Run Nat
  | [] => pure 0
  | conn :: batch => do
    let readErr ← Run.do (.setDeadline conn .read wakeAt)
    let writeErr ← Run.do (.setDeadline conn .write deadline)
    let failures ← wakeBatch wakeAt deadline batch
    pure (readErr.toList.length + writeErr.toList.length + failures)

/-- The batch that a round of `beginDrain` takes; the loop ends with an empty one. -/
def nextBatch (deadline : Time) : Run (List Conn) := do
  let now ← Run.do .now
  if now < deadline then
    let drained ← Run.do (.isClosed .drained)
    if drained then pure []
    else
      lock .mu
      let batch ← Run.do .takeBatch
      unlock .mu
      pure batch
  else pure []

/-- The loop of `beginDrain`. Every round but the last takes a connection from the pending list,
and nothing is added to it once admission has stopped, so there is one round more than there were
pending connections. -/
def wakePending (wakeAt deadline : Time) : Nat → Run Nat
  | 0 => do
    let batch ← nextBatch deadline
    wakeBatch wakeAt deadline batch
  | rounds + 1 => do
    let batch ← nextBatch deadline
    if batch.isEmpty then pure 0
    else
      let failures ← wakeBatch wakeAt deadline batch
      let more ← wakePending wakeAt deadline rounds
      pure (failures + more)

structure DrainReport where
  active : Int
  connections : Nat
  deadlineFailures : Nat

def beginDrain (deadline : Time) : Run DrainReport :=
  during do
    lock .mu
    stopAdmissionLocked
    let active ← Run.do .activeLoad
    let connections ← Run.do .connectionsLen
    signalDrainedLocked
    let rounds ← Run.do .pendingLen
    unlock .mu
    let wakeAt ← Run.do .now
    let deadlineFailures ← wakePending wakeAt deadline rounds
    pure ⟨active, connections, deadlineFailures⟩

def snapshot : Run (Int × Nat) :=
  during do
    lock .mu
    let active ← Run.do .activeLoad
    let connections ← Run.do .connectionsLen
    unlock .mu
    pure (active, connections)

end Slizen.Proxy
