import Slizen.Interleaving.Machine
import Slizen.Proxy.Handle

namespace Slizen.Proxy
set_option autoImplicit true

open Interleaving

inductive ServerError where
  | alreadyStarted
  | isClosed
  | listener (e : Error)
  | closeListener (e : Error)

def load (f : Flag) : Run Bool := Run.do (.load f)

def store (f : Flag) (b : Bool) : Run Unit := Run.do (.store f b)

def setProxyActive (b : Bool) : Run Unit := Run.do (.setProxyActive b)

/-- The locked section of `closeListener`, with the redcon server that is to be closed. -/
def claimListener : Run (Option Nat) := do
  let listenerClosed ← load .listenerClosed
  if listenerClosed then pure none
  else
    let listenerReady ← load .listenerReady
    if listenerReady then
      let finished ← load .finished
      if finished then pure none
      else
        let server ← Run.do .getServer
        match server with
        | none => pure none
        | some server =>
          store .listenerClosed true
          pure (some server)
    else pure none

def closeListener : Run (Option ServerError) := do
  lock .lifecycleMu
  let server ← claimListener
  unlock .lifecycleMu
  match server with
  | none => pure none
  | some server =>
    let err ← Run.do (.serverClose server)
    match err with
    | some (.other e) => pure (some (.closeListener e))
    | _ => pure none

def pollServeResult (server : Nat) : Run (Option ServerError) := do
  let done ← Run.do (.pollDone server)
  match done with
  | some err => pure (err.map .listener)
  | none =>
    Run.do (.goReceiveDone server)
    pure none

/-- `closeListener`, and then the result of the listener if there is one. -/
def closeAndPoll (server : Nat) : Run (Option ServerError) := do
  let closeErr ← closeListener
  match closeErr with
  | some e => pure (some e)
  | none => pollServeResult server

def waitForDrain (deadline : Time) : Run DrainOutcome := do
  let forced ← Run.do (.isClosed .forceClose)
  if forced then pure .drainForced
  else
    let drained ← Run.do (.isClosed .drained)
    if drained then pure .drainCompleted
    else
      let now ← Run.do .now
      if deadline ≤ now then pure .drainTimedOut else Run.do (.waitDrain deadline)

/-- The numbers for the log after the deadline. -/
def logSnapshot : Run Unit := do
  let _ ← snapshot
  pure ()

namespace Server

variable (srv : Server)

/-- What both ends of a serving listener begin with. -/
def drainUntil : Run Time := do
  let now ← Run.do .now
  let deadline := now + srv.cfg.shutdownTimeout
  let _ ← beginDrain deadline
  pure deadline

def drainAndClose (server : Nat) : Run (Option ServerError) := do
  setProxyActive false
  let deadline ← srv.drainUntil
  let outcome ← waitForDrain deadline
  Run.when (outcome ≠ .drainCompleted) (Run.do .cancelRequests)
  Run.when (outcome = .drainTimedOut) logSnapshot
  let closeErr ← closeListener
  match closeErr with
  | some e => pure (some e)
  | none =>
    if outcome = .drainCompleted then
      let err ← Run.do (.receiveDone server)
      pure (err.map .listener)
    else pollServeResult server

def waitAfterListenerExit (serveErr : Option Error) : Run (Option ServerError) := do
  setProxyActive false
  Run.do .cancelRequests
  let deadline ← srv.drainUntil
  let outcome ← waitForDrain deadline
  Run.when (outcome = .drainTimedOut) logSnapshot
  pure (serveErr.map .listener)

/-- The first locked section of `Start`: the error, if it is not the one that proceeds. -/
def claimStart (server : Nat) : Run (Option ServerError) := do
  let started ← load .started
  if started then pure (some .alreadyStarted)
  else
    let closing ← load .closing
    if closing then pure (some .isClosed)
    else
      store .started true
      Run.do (.setServer server)
      pure none

/-- The second locked section of `Start`: whether a `Close` was there before. -/
def publishReady : Run Bool := do
  store .listenerReady true
  let closing ← load .closing
  Run.when (closing = false) (setProxyActive true)
  pure closing

/-- The `select` of `Start` and what follows it. -/
def awaitEnd (server : Nat) : Run (Option ServerError) := do
  let event ← Run.do (.select server)
  match event with
  | .done err => srv.waitAfterListenerExit err
  | .cancelled => srv.drainAndClose server
  | .forced =>
    Run.do .cancelRequests
    stopAdmission
    closeAndPoll server

/-- `Start` between its first locked section and the deferred function. -/
def serveListener (server : Nat) : Run (Option ServerError) := do
  Run.do (.goServe server)
  let signal ← Run.do (.listenSignal server)
  match signal with
  | some e => pure (some (.listener e))
  | none =>
    lock .lifecycleMu
    let closing ← publishReady
    unlock .lifecycleMu
    Run.do (.closeChannel .listening)
    if closing then closeAndPoll server else srv.awaitEnd server

/-- The deferred function of `Start`. -/
def retire : Run Unit := do
  Run.do .cancelRequests
  setProxyActive false
  lock .lifecycleMu
  store .listenerReady false
  store .finished true
  unlock .lifecycleMu

def start : Run (Option ServerError) := do
  let server ← Run.do .newServer
  lock .lifecycleMu
  let refused ← claimStart server
  unlock .lifecycleMu
  match refused with
  | some e => pure (some e)
  | none =>
    let r ← srv.serveListener server
    retire
    pure r

def close : Run (Option ServerError) := do
  lock .lifecycleMu
  store .closing true
  setProxyActive false
  stopAdmission
  unlock .lifecycleMu
  Run.do .cancelRequests
  Run.do (.onceClose .forceClose)
  closeListener

def acceptConnection (conn : Option Conn) : Run Bool := do
  let r ← accept conn srv.cfg.readTimeout srv.cfg.maxConnections
  Run.when (r.1 = true) (Run.do .connectionOpened)
  pure r.1

def connectionEnded (conn : Option Conn) (metricCounted : Bool) : Run Unit := do
  Run.when (metricCounted = true) (Run.do .connectionClosed)
  connectionClosed conn

def perform : Job → Run Unit
  | .acceptConnection conn => do
    let _ ← srv.acceptConnection conn
    pure ()
  | .connectionClosed conn metricCounted => connectionEnded conn metricCounted
  | .serve conn commands => do
    let _ ← srv.dispatchAll conn commands (some { metricCounted := true })
    pure ()
  | .stopAdmission => stopAdmission
  | .beginDrain deadline => do
    let _ ← beginDrain deadline
    pure ()
  | .snapshot => do
    let _ ← snapshot
    pure ()
  | .start => do
    let _ ← srv.start
    pure ()
  | .close => do
    let _ ← close
    pure ()

def run (job : Job) : Run Unit := do
  note (.job job)
  srv.perform job

/-- `ListenServeAndSignal` of redcon, as far as the server sees it: it listens or fails, serves
for a while, and returns. -/
def listenServeAndSignal (server : Nat) : Run Unit := do
  let err ← Run.do (.listen server)
  match err with
  | some e => Run.do (.sendDone server (some e))
  | none =>
    let err ← Run.do (.serve server)
    Run.do (.sendDone server err)

/-- The goroutines that `Start` starts. -/
def fork : (a : Action) → a.Resp → Option (Run Unit)
  | .goServe server, _ => some (listenServeAndSignal server)
  | .goReceiveDone server, _ =>
    some do
      let _ ← Run.do (.receiveDone server)
      pure ()
  | _, _ => none

def machine : Machine where
  Action := Action
  Resp := Action.Resp
  State := World
  Choice := Choice
  Env := Env
  exec := World.exec
  fork := fork
  env := fun e s => s.env e

/-- Every interleaving of the jobs. -/
def jobs : machine.Rules where
  entry := fun p => ∃ job, p = srv.run job
  allow := fun _ _ _ => True
  external := fun _ _ => True

/-- `NewServer`. -/
def init : World where
  mutex := fun _ => none
  drain := {}
  channels := fun _ => 0
  flags := fun _ => false
  server := none
  redcon := fun _ => {}
  closed := []
  proxyActive := false
  requestsCancelled := false
  contexts := fun _ => false
  clock := 0
  deadlines := []
  trace := fun _ => {}
  left := false
  admissions := 0
  acceptances := 0

end Server
end Slizen.Proxy
