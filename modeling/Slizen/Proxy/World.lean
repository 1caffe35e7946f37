import Mathlib.Data.List.AList
import Mathlib.Logic.Function.Basic
import Slizen.Proxy.Commands

namespace Slizen.Proxy
set_option autoImplicit true

abbrev Conn := Nat

/-- What `upstream.Do` returns, by its Go type; `other` holds what `fmt.Sprint` makes of it. -/
inductive Any where
  | nil
  | string (s : Bytes)
  | bytes (b : Bytes)
  | int (n : Int)
  | int64 (n : Int)
  | uint64 (n : Nat)
  | bool (b : Bool)
  | array (items : List Any)
  | other (text : Bytes)

/-- The calls of `redcon.Conn` that write to the client. -/
inductive Write where
  | error (msg : Bytes)
  | string (s : Bytes)
  | bulk (b : Bytes)
  | bulkString (s : Bytes)
  | int (n : Int)
  | int64 (n : Int)
  | uint64 (n : Nat)
  | null
  | array (count : Nat)

/-- The calls of the service that a handler makes. -/
inductive Call where
  | get (key : Key)
  | mget (keys : List Key)
  | executeWrite (command : Bytes) (args keys : List Bytes)
  | passThrough (command : Bytes) (args : List Bytes)

abbrev Call.Resp : Call → Type
  | get _ => Except Error Value
  | mget _ => Except Error (List Value)
  | executeWrite _ _ _ => Except Error Any
  | passThrough _ _ => Except Error Any

/-- `mu` of the drain tracker and `lifecycleMu` of the server. -/
inductive Mutex where
  | mu
  | lifecycleMu
  deriving DecidableEq

/-- The fields that `lifecycleMu` guards. -/
inductive Flag where
  | started
  | closing
  | listenerReady
  | listenerClosed
  | finished
  deriving DecidableEq

/-- The channels that are only ever closed: `started` and `drained` of the tracker, `listening`
and `forceClose` of the server. -/
inductive Channel where
  | started
  | drained
  | listening
  | forceClose
  deriving DecidableEq

inductive DeadlineKind where
  | read
  | write
  deriving DecidableEq

/-- The error of a `Close` is ignored if it is `net.ErrClosed`. -/
inductive CloseError where
  | errClosed
  | other (e : Error)

inductive DrainOutcome where
  | drainCompleted
  | drainTimedOut
  | drainForced
  deriving DecidableEq

inductive StartEvent where
  | done (err : Option Error)
  | cancelled
  | forced

/-- What a goroutine is started for. The pieces of a `beginDrain` or a `stopAdmission` are also
parts of `start` and `close`. -/
inductive Job where
  | acceptConnection (conn : Option Conn)
  | connectionClosed (conn : Option Conn) (metricCounted : Bool)
  | serve (conn : Option Conn) (commands : List Command)
  | stopAdmission
  | beginDrain (deadline : Time)
  | snapshot
  | start
  | close

/-- Points of a run that only its history takes notice of: a goroutine starts, and a call of the
drain tracker begins and returns. -/
inductive Note where
  | job (job : Job)
  | enter
  | leave

inductive Action where
  | lock (m : Mutex)
  | unlock (m : Mutex)
  | drainingLoad
  | drainingSwap
  | activeAdd (delta : Int)
  | activeLoad
  | connectionsLen
  | pendingLen
  | track (conn : Conn)
  | untrack (conn : Conn)
  | takeBatch
  | setDeadline (conn : Conn) (kind : DeadlineKind) (time : Time)
  | closeChannel (ch : Channel)
  | onceClose (ch : Channel)
  | isClosed (ch : Channel)
  | waitDrain (deadline : Time)
  | load (f : Flag)
  | store (f : Flag) (b : Bool)
  | newServer
  | setServer (server : Nat)
  | getServer
  | setProxyActive (b : Bool)
  | cancelRequests
  | goServe (server : Nat)
  | listen (server : Nat)
  | listenSignal (server : Nat)
  | serve (server : Nat)
  | sendDone (server : Nat) (err : Option Error)
  | receiveDone (server : Nat)
  | pollDone (server : Nat)
  | goReceiveDone (server : Nat)
  | select (server : Nat)
  | serverClose (server : Nat)
  | write (w : Write)
  | connClose
  | readPipeline
  | call (c : Call) (timeout : Option Time)
  | observeRequest (command : Bytes) (ok : Bool) (elapsed : Time)
  | connectionOpened
  | connectionClosed
  | now
  | panic (msg : String)
  | note (n : Note)

abbrev Action.Resp : Action → Type
  | drainingLoad => Bool
  | drainingSwap => Bool
  | activeAdd _ => Int
  | activeLoad => Int
  | connectionsLen => Nat
  | pendingLen => Nat
  | takeBatch => List Conn
  | setDeadline _ _ _ => Option Error
  | isClosed _ => Bool
  | waitDrain _ => DrainOutcome
  | load _ => Bool
  | newServer => Nat
  | getServer => Option Nat
  | listen _ => Option Error
  | listenSignal _ => Option Error
  | serve _ => Option Error
  | receiveDone _ => Option Error
  | pollDone _ => Option (Option Error)
  | select _ => StartEvent
  | serverClose _ => Option CloseError
  | connClose => Option CloseError
  | call c _ => c.Resp
  | now => Time
  | panic _ => Empty
  | _ => Unit

structure TrackedConnection where
  conn : Conn
  prev : Option Nat
  next : Option Nat
  pending : Bool

/-- `drainTracker` without its mutex and its channels. A pointer to a `trackedConnection` is its
place among all that were ever made. The 64-bit counter does not wrap around in the model. -/
structure DrainTracker where
  draining : Bool := false
  active : Int := 0
  connections : AList fun _ : Conn => Nat := ∅
  nodes : List TrackedConnection := []
  pendingHead : Option Nat := none

namespace DrainTracker

def modify (d : DrainTracker) (node : Nat) (f : TrackedConnection → TrackedConnection) :
    DrainTracker :=
  { d with nodes := d.nodes.modify node f }

/-- What `accept` does with a connection that it takes. -/
def track (d : DrainTracker) (conn : Conn) : DrainTracker :=
  let node := d.nodes.length
  let linked := match d.pendingHead with
    | some head => d.modify head fun tracked => { tracked with prev := some node }
    | none => d
  { linked with
    nodes := linked.nodes ++ [⟨conn, none, d.pendingHead, true⟩]
    pendingHead := some node
    connections := d.connections.insert conn node }

def removePendingLocked (d : DrainTracker) (node : Nat) : DrainTracker :=
  match d.nodes[node]? with
  | none => d
  | some tracked =>
    if tracked.pending then
      let d := match tracked.prev with
        | none => { d with pendingHead := tracked.next }
        | some prev => d.modify prev fun other => { other with next := tracked.next }
      let d := match tracked.next with
        | none => d
        | some next => d.modify next fun other => { other with prev := tracked.prev }
      d.modify node fun tracked => { tracked with prev := none, next := none, pending := false }
    else d

/-- What `connectionClosed` does with a connection. -/
def untrack (d : DrainTracker) (conn : Conn) : DrainTracker :=
  let unlinked := match d.connections.lookup conn with
    | some node => d.removePendingLocked node
    | none => d
  { unlinked with connections := d.connections.erase conn }

/-- The loop of `beginDrain` that fills a batch from the head of the pending list. -/
def takeBatch : Nat → DrainTracker → List Conn × DrainTracker
  | 0, d => ([], d)
  | room + 1, d =>
    match d.pendingHead.bind fun node => d.nodes[node]?.map fun tracked => (node, tracked.conn) with
    | none => ([], d)
    | some (node, conn) =>
      let rest := takeBatch room (d.removePendingLocked node)
      (conn :: rest.1, rest.2)

def pendingLen (d : DrainTracker) : Nat := d.nodes.countP TrackedConnection.pending

end DrainTracker

/-- A `redcon.Server`: the values in the two channels that `Start` made for it, and whether it has
failed to listen or stopped serving. -/
structure Redcon where
  signal : Option (Option Error) := none
  done : Option (Option Error) := none
  exited : Bool := false

/-- Where a handler stands: it has added itself to `active` and not yet decided, it was admitted,
or it was refused and has not taken its reservation back. -/
inductive Phase where
  | idle
  | reserved
  | refused
  | admitted
  deriving DecidableEq

/-- The history of one goroutine. `calling` is set during a call of the drain tracker, `duty` from
the point where the tracker may have become drained until it was found not to be or the channel
was closed, `proceeded` once `Start` is past its checks, `ready` once it has seen its listener
ready, and `mustClose` between the store to `listenerClosed` and the `Close` of the redcon server.
`acts` is all it has done so far. -/
structure Trace where
  job : Option Job := none
  calling : Bool := false
  phase : Phase := .idle
  duty : Bool := false
  proceeded : Bool := false
  ready : Bool := false
  mustClose : Bool := false
  acts : List (Σ a : Action, a.Resp) := []

structure Deadline where
  setter : Nat
  conn : Conn
  kind : DeadlineKind
  time : Time

/-- The mutable part of the server and what surrounds it. `channels` counts how often a channel
was closed, `closed` lists the redcon servers whose `Close` was called. `left` says that a `Close`
has left its locked section; `admissions` and `acceptances` count the handlers and connections let
in so far. -/
structure World where
  mutex : Mutex → Option Nat
  drain : DrainTracker
  channels : Channel → Nat
  flags : Flag → Bool
  server : Option Nat
  redcon : Nat → Redcon
  closed : List Nat
  proxyActive : Bool
  requestsCancelled : Bool
  contexts : Nat → Bool
  clock : Time
  deadlines : List Deadline
  trace : Nat → Trace
  left : Bool
  admissions : Nat
  acceptances : Nat

/-- How the nondeterminism of an action is resolved: the arm of a `select`, a failure, or the
answer of the service. -/
inductive Choice where
  | any
  | fail (e : Error)
  | errClosed
  | done
  | cancelled
  | forced
  | drained
  | value (v : Value)
  | values (l : List Value)
  | reply (v : Any)

namespace Choice

def err : Choice → Option Error
  | fail e => some e
  | _ => none

def closeErr : Choice → Option CloseError
  | fail e => some (.other e)
  | errClosed => some .errClosed
  | _ => none

def answer (c : Choice) : (call : Call) → Option call.Resp
  | .get _ =>
    match c with
    | value v => some (.ok v)
    | fail e => some (.error e)
    | _ => none
  | .mget _ =>
    match c with
    | values l => some (.ok l)
    | fail e => some (.error e)
    | _ => none
  | .executeWrite _ _ _ =>
    match c with
    | reply v => some (.ok v)
    | fail e => some (.error e)
    | _ => none
  | .passThrough _ _ =>
    match c with
    | reply v => some (.ok v)
    | fail e => some (.error e)
    | _ => none

end Choice

namespace World

def setDrain (s : World) (d : DrainTracker) : World := { s with drain := d }

def setRedcon (s : World) (server : Nat) (r : Redcon) : World :=
  { s with redcon := Function.update s.redcon server r }

def closeChannel (s : World) (ch : Channel) : World :=
  { s with channels := Function.update s.channels ch (s.channels ch + 1) }

def waitDrain (s : World) (deadline : Time) : Choice → Option DrainOutcome
  | .forced => if 0 < s.channels .forceClose then some .drainForced else none
  | .drained => if 0 < s.channels .drained then some .drainCompleted else none
  | _ => if deadline ≤ s.clock then some .drainTimedOut else none

def select (s : World) (t server : Nat) : Choice → Option (StartEvent × World)
  | .cancelled => if s.contexts t then some (.cancelled, s) else none
  | .forced => if 0 < s.channels .forceClose then some (.forced, s) else none
  | _ =>
    (s.redcon server).done.map fun err =>
      (.done err, s.setRedcon server { s.redcon server with done := none })

def step (s : World) (t : Nat) (c : Choice) : (a : Action) → Option (a.Resp × World)
  | .lock m =>
    if s.mutex m = none then some ((), { s with mutex := Function.update s.mutex m (some t) })
    else none
  | .unlock m =>
    if s.mutex m = some t then some ((), { s with mutex := Function.update s.mutex m none })
    else none
  | .drainingLoad => some (s.drain.draining, s)
  | .drainingSwap => some (s.drain.draining, s.setDrain { s.drain with draining := true })
  | .activeAdd delta =>
    some (s.drain.active + delta, s.setDrain { s.drain with active := s.drain.active + delta })
  | .activeLoad => some (s.drain.active, s)
  | .connectionsLen => some (s.drain.connections.keys.length, s)
  | .pendingLen => some (s.drain.pendingLen, s)
  | .track conn => some ((), s.setDrain (s.drain.track conn))
  | .untrack conn => some ((), s.setDrain (s.drain.untrack conn))
  | .takeBatch => some ((s.drain.takeBatch 128).1, s.setDrain (s.drain.takeBatch 128).2)
  | .setDeadline conn kind time =>
    some (c.err, { s with deadlines := ⟨t, conn, kind, time⟩ :: s.deadlines })
  | .closeChannel ch => some ((), s.closeChannel ch)
  | .onceClose ch => some ((), if s.channels ch = 0 then s.closeChannel ch else s)
  | .isClosed ch => some (decide (0 < s.channels ch), s)
  | .waitDrain deadline => (s.waitDrain deadline c).map fun outcome => (outcome, s)
  | .load f => some (s.flags f, s)
  | .store f b => some ((), { s with flags := Function.update s.flags f b })
  | .newServer => some (t, s)
  | .setServer server => some ((), { s with server := some server })
  | .getServer => some (s.server, s)
  | .setProxyActive b => some ((), { s with proxyActive := b })
  | .cancelRequests => some ((), { s with requestsCancelled := true })
  | .goServe _ => some ((), s)
  | .listen server =>
    some (c.err,
      s.setRedcon server
        { s.redcon server with
          signal := some c.err
          exited := (s.redcon server).exited || c.err.isSome })
  | .listenSignal server =>
    (s.redcon server).signal.map fun err =>
      (err, s.setRedcon server { s.redcon server with signal := none })
  | .serve server => some (c.err, s.setRedcon server { s.redcon server with exited := true })
  | .sendDone server err => some ((), s.setRedcon server { s.redcon server with done := some err })
  | .receiveDone server =>
    (s.redcon server).done.map fun err =>
      (err, s.setRedcon server { s.redcon server with done := none })
  | .pollDone server =>
    some ((s.redcon server).done, s.setRedcon server { s.redcon server with done := none })
  | .goReceiveDone _ => some ((), s)
  | .select server => s.select t server c
  | .serverClose server => some (c.closeErr, { s with closed := server :: s.closed })
  | .write _ => some ((), s)
  | .connClose => some (c.closeErr, s)
  | .readPipeline => some ((), s)
  | .call call _ => (c.answer call).map fun r => (r, s)
  | .observeRequest _ _ _ => some ((), s)
  | .connectionOpened => some ((), s)
  | .connectionClosed => some ((), s)
  | .now => some (s.clock, s)
  | .panic _ => none
  | .note _ => some ((), s)

end World

namespace Trace

/-- The loads of `beginHandler` and of the signal are told apart by where the goroutine stands. -/
def recordLoad (tr : Trace) : Bool → Trace
  | true => if tr.phase = .reserved then { tr with phase := .refused } else tr
  | false =>
    { tr with phase := if tr.phase = .reserved then .admitted else tr.phase, duty := false }

/-- The history of a goroutine after its action in the world `s` was answered by `b`. -/
def record (tr : Trace) (s : World) : (a : Action) → a.Resp → Trace
  | .drainingLoad, b => tr.recordLoad b
  | .drainingSwap, _ => { tr with duty := true }
  | .activeAdd delta, _ =>
    if 0 < delta then { tr with phase := .reserved }
    else { tr with phase := .idle, duty := s.drain.draining }
  | .activeLoad, n => if n = 0 then tr else { tr with duty := false }
  | .connectionsLen, n => if n = 0 then tr else { tr with duty := false }
  | .untrack _, _ => { tr with duty := s.drain.draining }
  | .onceClose .drained, _ => { tr with duty := false }
  | .store .started _, _ => { tr with proceeded := true }
  | .store .listenerReady b, _ => { tr with ready := tr.ready || b }
  | .store .listenerClosed _, _ => { tr with mustClose := true }
  | .serverClose _, _ => { tr with mustClose := false }
  | .note (.job job), _ => { tr with job := some job }
  | .note .enter, _ => { tr with calling := true }
  | .note .leave, _ => { tr with calling := false }
  | _, _ => tr

end Trace

def Action.admits (tr : Trace) : (a : Action) → a.Resp → Bool
  | .drainingLoad, b => !b && tr.phase = .reserved
  | _, _ => false

def Action.accepts : Action → Bool
  | .track _ => true
  | _ => false

def Action.leaves (tr : Trace) : Action → Bool
  | .unlock .lifecycleMu =>
    match tr.job with
    | some .close => true
    | _ => false
  | _ => false

/-- One atomic action of goroutine `t`, with its record. -/
def World.exec (t : Nat) (a : Action) (c : Choice) (s : World) : Option (a.Resp × World) :=
  (s.step t c a).map fun r =>
    (r.1,
      { r.2 with
        trace := Function.update s.trace t
          { (s.trace t).record s a r.1 with acts := (s.trace t).acts ++ [⟨a, r.1⟩] }
        left := s.left || a.leaves (s.trace t)
        admissions := s.admissions + (a.admits (s.trace t) r.1).toNat
        acceptances := s.acceptances + a.accepts.toNat })

/-- What happens outside the proxy: time passes, and the context of a `Start` ends. -/
inductive Env where
  | tick (d : Nat)
  | cancel (t : Nat)

def World.env (s : World) : Env → Option World
  | .tick d => some { s with clock := s.clock + d }
  | .cancel t => some { s with contexts := Function.update s.contexts t true }

end Slizen.Proxy
