import Slizen.Proxy.Lifecycle
import Slizen.Proxy.Replies

namespace Slizen.Proxy
set_option autoImplicit true

open Interleaving

/-- Actions that have nothing to do with the drain tracker. -/
def Action.Remote : Action → Prop
  | .lock .mu => False
  | .unlock .mu => False
  | .drainingLoad => False
  | .drainingSwap => False
  | .activeAdd _ => False
  | .activeLoad => False
  | .connectionsLen => False
  | .pendingLen => False
  | .track _ => False
  | .untrack _ => False
  | .takeBatch => False
  | .closeChannel .started => False
  | .closeChannel .drained => False
  | .onceClose .started => False
  | .onceClose .drained => False
  | .note _ => False
  | .panic _ => False
  | _ => True

/-- What the tracker does to its counters and channels while it holds its mutex. -/
def Action.Inner : Action → Prop
  | .drainingLoad => True
  | .drainingSwap => True
  | .activeLoad => True
  | .connectionsLen => True
  | .closeChannel .started => True
  | .onceClose .drained => True
  | _ => False

/-- Actions by which a goroutine waits for something, or sets a deadline. -/
def Action.Waiting : Action → Prop
  | .setDeadline _ _ _ => True
  | .isClosed _ => True
  | .waitDrain _ => True
  | .pollDone _ => True
  | .goReceiveDone _ => True
  | .now => True
  | _ => False

/-- The actions of the drain tracker. -/
def Action.Tracker : Action → Prop
  | .lock .mu => True
  | .unlock .mu => True
  | .activeAdd _ => True
  | .pendingLen => True
  | .track _ => True
  | .untrack _ => True
  | .takeBatch => True
  | .panic _ => True
  | .note .enter => True
  | .note .leave => True
  | .setDeadline _ _ _ => True
  | .isClosed _ => True
  | .waitDrain _ => True
  | .pollDone _ => True
  | .goReceiveDone _ => True
  | .now => True
  | a => a.Inner

theorem Action.Inner.tracker {a : Action} (h : a.Inner) : a.Tracker := by
  cases a <;> first | exact h | trivial

theorem Action.Waiting.tracker {a : Action} (h : a.Waiting) : a.Tracker := by
  cases a <;> trivial

theorem Action.Waiting.remote {a : Action} (h : a.Waiting) : a.Remote := by
  cases a <;> trivial

theorem uses_do {a : Action} (h : q a) : (Run.do a).Uses q := ⟨h, fun _ => trivial⟩

theorem signalDrainedLocked_inner : signalDrainedLocked.Uses Action.Inner := by
  refine ⟨trivial, fun draining => ?_⟩
  cases draining with
  | false => trivial
  | true =>
    refine (uses_do (a := .activeLoad) trivial).bind fun active => ?_
    split
    · refine (uses_do (a := .connectionsLen) trivial).bind fun n => ?_
      split
      · exact ⟨trivial, fun _ => trivial⟩
      · trivial
    · trivial

theorem stopAdmissionLocked_inner : stopAdmissionLocked.Uses Action.Inner := by
  refine ⟨trivial, fun draining => ?_⟩
  cases draining with
  | true => trivial
  | false => exact ⟨trivial, fun _ => trivial⟩

theorem Action.Handles.remote {a : Action} (h : a.Handles) : a.Remote := by
  cases a <;> trivial

theorem setDeadlines_waiting :
    (setDeadlines conn readTimeout writeTimeout).Uses Action.Waiting := by
  cases conn with
  | none => trivial
  | some conn =>
    exact ⟨trivial, fun _ => ⟨trivial, fun _ => ⟨trivial, fun _ => trivial⟩⟩⟩

theorem wakeBatch_waiting : (wakeBatch wakeAt deadline batch).Uses Action.Waiting := by
  induction batch with
  | nil => trivial
  | cons conn batch ih => exact ⟨trivial, fun _ => ⟨trivial, fun _ => ih.bind fun _ => trivial⟩⟩

theorem tracker_waiting {p : Run α} (hp : p.Uses Action.Waiting) : p.Uses Action.Tracker :=
  hp.mono fun _ => Action.Waiting.tracker

theorem tracker_signalDrainedLocked : signalDrainedLocked.Uses Action.Tracker :=
  signalDrainedLocked_inner.mono fun _ => Action.Inner.tracker

theorem tracker_stopAdmissionLocked : stopAdmissionLocked.Uses Action.Tracker :=
  stopAdmissionLocked_inner.mono fun _ => Action.Inner.tracker

theorem tracker_during {p : Run α} (hp : p.Uses Action.Tracker) : (during p).Uses Action.Tracker :=
  ⟨trivial, fun _ => hp.bind fun _ => ⟨trivial, fun _ => trivial⟩⟩

theorem tracker_locked {p : Run α} (hp : p.Uses Action.Tracker) :
    (lock .mu >>= fun _ => p >>= fun x => unlock .mu >>= fun _ => pure x).Uses Action.Tracker :=
  ⟨trivial, fun _ => hp.bind fun _ => ⟨trivial, fun _ => trivial⟩⟩

theorem tracker_decrementActiveHandler : decrementActiveHandler.Uses Action.Tracker := by
  refine (uses_do (a := .activeAdd (-1)) trivial).bind fun remaining => ?_
  split
  · exact ⟨trivial, fun _ => ⟨trivial, nofun⟩⟩
  · trivial

theorem tracker_accept : (accept conn readTimeout maxConnections).Uses Action.Tracker := by
  refine tracker_during ?_
  cases conn with
  | none => trivial
  | some conn =>
    refine tracker_locked ⟨trivial, fun draining => ?_⟩
    cases draining with
    | true => trivial
    | false =>
      refine (uses_do (a := .connectionsLen) trivial).bind fun connections => ?_
      split
      · trivial
      · refine ⟨trivial, fun now => ⟨trivial, fun err => ?_⟩⟩
        cases err with
        | some e => trivial
        | none => exact ⟨trivial, fun _ => trivial⟩

theorem tracker_connectionClosed : (connectionClosed conn).Uses Action.Tracker := by
  refine tracker_during ?_
  cases conn with
  | none => trivial
  | some conn =>
    exact ⟨trivial, fun _ => ⟨trivial, fun _ =>
      tracker_signalDrainedLocked.bind fun _ => ⟨trivial, fun _ => trivial⟩⟩⟩

theorem tracker_rollBack : rollBack.Uses Action.Tracker :=
  tracker_decrementActiveHandler.bind fun _ => ⟨trivial, fun _ =>
    tracker_signalDrainedLocked.bind fun _ => ⟨trivial, fun _ => trivial⟩⟩

theorem tracker_beginHandler : beginHandler.Uses Action.Tracker := by
  refine tracker_during ⟨trivial, fun draining => ?_⟩
  cases draining with
  | true => trivial
  | false =>
    refine (uses_do (a := .activeAdd 1) trivial).bind fun active => ?_
    split
    · exact ⟨trivial, fun _ => ⟨trivial, nofun⟩⟩
    · refine ⟨trivial, fun draining => ?_⟩
      cases draining with
      | true => exact tracker_rollBack.bind fun _ => trivial
      | false => trivial

theorem tracker_prepareHandlerDone :
    (prepareHandlerDone conn readTimeout writeTimeout).Uses Action.Tracker := by
  refine tracker_during ⟨trivial, fun draining => ?_⟩
  cases draining with
  | true => trivial
  | false =>
    refine (tracker_waiting setDeadlines_waiting).bind
      fun err => ⟨trivial, fun _ => ⟨trivial, fun draining => ?_⟩⟩
    cases draining with
    | true => exact ⟨trivial, fun _ => trivial⟩
    | false =>
      exact Prog.Uses.bind (p := decrementActiveHandler >>= fun _ => pure false)
        (tracker_decrementActiveHandler.bind fun _ => trivial) fun _ => ⟨trivial, fun _ => trivial⟩

theorem tracker_completeDrainingHandler : completeDrainingHandler.Uses Action.Tracker := by
  refine tracker_during ⟨trivial, fun _ => ⟨trivial, fun draining => ?_⟩⟩
  cases draining with
  | true =>
    exact tracker_decrementActiveHandler.bind fun _ => tracker_signalDrainedLocked.bind fun _ =>
      ⟨trivial, fun _ => trivial⟩
  | false => exact ⟨trivial, nofun⟩

theorem tracker_nextBatch : (nextBatch deadline).Uses Action.Tracker := by
  refine (uses_do (a := .now) trivial).bind fun now => ?_
  split
  · refine ⟨trivial, fun drained => ?_⟩
    cases drained with
    | true => trivial
    | false => exact ⟨trivial, fun _ => ⟨trivial, fun _ => ⟨trivial, fun _ => trivial⟩⟩⟩
  · trivial

theorem tracker_wakePending : (wakePending wakeAt deadline rounds).Uses Action.Tracker := by
  induction rounds with
  | zero => exact tracker_nextBatch.bind fun _ => (tracker_waiting wakeBatch_waiting)
  | succ rounds ih =>
    refine tracker_nextBatch.bind fun batch => ?_
    split
    · trivial
    · exact (tracker_waiting wakeBatch_waiting).bind fun _ => ih.bind fun _ => trivial

theorem tracker_beginDrain : (beginDrain deadline).Uses Action.Tracker :=
  tracker_during ⟨trivial, fun _ => tracker_stopAdmissionLocked.bind fun _ => ⟨trivial, fun _ =>
    ⟨trivial, fun _ => tracker_signalDrainedLocked.bind fun _ => ⟨trivial, fun _ =>
      ⟨trivial, fun _ => ⟨trivial, fun _ => tracker_wakePending.bind fun _ => trivial⟩⟩⟩⟩⟩⟩

theorem tracker_snapshot : snapshot.Uses Action.Tracker :=
  tracker_during
    ⟨trivial, fun _ => ⟨trivial, fun _ => ⟨trivial, fun _ => ⟨trivial, fun _ => trivial⟩⟩⟩⟩

theorem tracker_stopAdmission : stopAdmission.Uses Action.Tracker :=
  tracker_during ⟨trivial, fun _ =>
    tracker_stopAdmissionLocked.bind fun _ =>
      tracker_signalDrainedLocked.bind fun _ =>
        ⟨trivial, fun _ => trivial⟩⟩

theorem claimListener_remote : claimListener.Uses Action.Remote := by
  refine ⟨trivial, fun closed => ?_⟩
  cases closed with
  | true => trivial
  | false =>
    refine ⟨trivial, fun ready => ?_⟩
    cases ready with
    | false => trivial
    | true =>
      refine ⟨trivial, fun finished => ?_⟩
      cases finished with
      | true => trivial
      | false =>
        refine ⟨trivial, fun server => ?_⟩
        cases server with
        | none => trivial
        | some server => exact ⟨trivial, fun _ => trivial⟩

theorem closeListener_remote : closeListener.Uses Action.Remote := by
  refine ⟨trivial, fun _ => claimListener_remote.bind fun server => ⟨trivial, fun _ => ?_⟩⟩
  cases server with
  | none => trivial
  | some server =>
    refine ⟨trivial, fun err => ?_⟩
    rcases err with _ | _ | _ <;> trivial

theorem pollServeResult_waiting : (pollServeResult server).Uses Action.Waiting := by
  refine ⟨trivial, fun done => ?_⟩
  cases done with
  | some err => trivial
  | none => exact ⟨trivial, fun _ => trivial⟩

theorem pollServeResult_remote : (pollServeResult server).Uses Action.Remote :=
  pollServeResult_waiting.mono fun _ => Action.Waiting.remote

theorem closeAndPoll_remote : (closeAndPoll server).Uses Action.Remote := by
  refine closeListener_remote.bind fun closeErr => ?_
  cases closeErr with
  | some e => trivial
  | none => exact pollServeResult_remote

theorem waitForDrain_waiting : (waitForDrain deadline).Uses Action.Waiting := by
  refine ⟨trivial, fun forced => ?_⟩
  cases forced with
  | true => trivial
  | false =>
    refine ⟨trivial, fun drained => ?_⟩
    cases drained with
    | true => trivial
    | false =>
      refine (uses_do (a := .now) trivial).bind fun now => ?_
      split
      · trivial
      · exact ⟨trivial, fun _ => trivial⟩

theorem waitForDrain_remote : (waitForDrain deadline).Uses Action.Remote :=
  waitForDrain_waiting.mono fun _ => Action.Waiting.remote

theorem publishReady_remote : Server.publishReady.Uses Action.Remote := by
  refine ⟨trivial, fun _ => ⟨trivial, fun closing => ?_⟩⟩
  cases closing with
  | true => trivial
  | false => exact ⟨trivial, fun _ => trivial⟩

theorem claimStart_remote : (Server.claimStart server).Uses Action.Remote := by
  refine ⟨trivial, fun started => ?_⟩
  cases started with
  | true => trivial
  | false =>
    refine ⟨trivial, fun closing => ?_⟩
    cases closing with
    | true => trivial
    | false => exact ⟨trivial, fun _ => ⟨trivial, fun _ => trivial⟩⟩

theorem retire_remote : Server.retire.Uses Action.Remote :=
  ⟨trivial, fun _ => ⟨trivial, fun _ => ⟨trivial, fun _ => ⟨trivial, fun _ => ⟨trivial, fun _ =>
    ⟨trivial, fun _ => trivial⟩⟩⟩⟩⟩⟩

theorem fork_remote {a : Action} {b : a.Resp} (h : Server.fork a b = some p) :
    p.Uses Action.Remote := by
  unfold Server.fork at h
  split at h
  · cases h
    refine ⟨trivial, fun err => ?_⟩
    cases err with
    | none => exact ⟨trivial, fun _ => ⟨trivial, fun _ => trivial⟩⟩
    | some e => exact ⟨trivial, fun _ => trivial⟩
  · cases h
    exact ⟨trivial, fun _ => trivial⟩
  · cases h

/-- A property of programs that holds of what has nothing to do with the tracker and of its calls,
and that sequences keep. -/
structure ServerRules (srv : Server) (C : (α : Type) → Run α → Prop) : Prop where
  ret : ∀ {α : Type} (x : α), C α (.ret x)
  bind : ∀ {α β : Type} {p : Run α} {f : α → Run β}, C α p → (∀ x, C β (f x)) → C β (p >>= f)
  remote : ∀ {α : Type} {p : Run α}, p.Uses Action.Remote → C α p
  accept : ∀ conn, C _ (accept conn srv.cfg.readTimeout srv.cfg.maxConnections)
  connectionClosed : ∀ conn, C _ (connectionClosed conn)
  stopAdmission : C _ stopAdmission
  drainUntil : C _ srv.drainUntil
  snapshot : C _ snapshot

namespace ServerRules

variable {srv : Server} {C : (α : Type) → Run α → Prop} (R : ServerRules srv C)
include R

theorem act (a : Action) (ha : a.Remote) : C _ (Run.do a) := R.remote ⟨ha, fun _ => trivial⟩

theorem when {c : Prop} [Decidable c] {p : Run Unit} (hp : C _ p) : C _ (Run.when c p) := by
  unfold Run.when
  split
  · exact hp
  · exact R.ret _

theorem logSnapshot : C _ Proxy.logSnapshot :=
  R.bind R.snapshot fun _ => R.ret _

theorem drainAndClose (server : Nat) : C _ (srv.drainAndClose server) := by
  refine R.bind (R.act (.setProxyActive false) trivial) fun _ => ?_
  refine R.bind R.drainUntil fun deadline => ?_
  refine R.bind (R.remote waitForDrain_remote) fun outcome => ?_
  refine R.bind (R.when (R.act .cancelRequests trivial)) fun _ => ?_
  refine R.bind (R.when R.logSnapshot) fun _ => ?_
  refine R.bind (R.remote closeListener_remote) fun closeErr => ?_
  cases closeErr with
  | some e => exact R.ret _
  | none =>
    dsimp only
    split
    · exact R.bind (R.act (.receiveDone server) trivial) fun _ => R.ret _
    · exact R.remote pollServeResult_remote

theorem waitAfterListenerExit (err : Option Error) : C _ (srv.waitAfterListenerExit err) := by
  refine R.bind (R.act (.setProxyActive false) trivial) fun _ => ?_
  refine R.bind (R.act .cancelRequests trivial) fun _ => R.bind R.drainUntil fun deadline => ?_
  refine R.bind (R.remote waitForDrain_remote) fun outcome => ?_
  exact R.bind (R.when R.logSnapshot) fun _ => R.ret _

theorem awaitEnd (server : Nat) : C _ (srv.awaitEnd server) := by
  refine R.bind (R.act (.select server) trivial) fun event => ?_
  cases event with
  | done err => exact R.waitAfterListenerExit err
  | cancelled => exact R.drainAndClose server
  | forced =>
    refine R.bind (R.act .cancelRequests trivial) fun _ => R.bind R.stopAdmission fun _ => ?_
    exact R.remote closeAndPoll_remote

theorem serveListener (server : Nat) : C _ (srv.serveListener server) := by
  refine R.bind (R.act (.goServe server) trivial) fun _ => ?_
  refine R.bind (R.act (.listenSignal server) trivial) fun signal => ?_
  cases signal with
  | some e => exact R.ret _
  | none =>
    refine R.bind (R.act (.lock .lifecycleMu) trivial) fun _ => ?_
    refine R.bind (R.remote publishReady_remote) fun closing => ?_
    refine R.bind (R.act (.unlock .lifecycleMu) trivial) fun _ => ?_
    refine R.bind (R.act (.closeChannel .listening) trivial) fun _ => ?_
    cases closing with
    | true => exact R.remote closeAndPoll_remote
    | false => exact R.awaitEnd server

theorem start : C _ srv.start := by
  refine R.bind (R.act .newServer trivial) fun server => ?_
  refine R.bind (R.act (.lock .lifecycleMu) trivial) fun _ => ?_
  refine R.bind (R.remote claimStart_remote) fun refused => ?_
  refine R.bind (R.act (.unlock .lifecycleMu) trivial) fun _ => ?_
  cases refused with
  | some e => exact R.ret _
  | none =>
    refine R.bind (R.serveListener server) fun r => ?_
    exact R.bind (R.remote retire_remote) fun _ => R.ret _

theorem close : C _ Server.close := by
  refine R.bind (R.act (.lock .lifecycleMu) trivial) fun _ => ?_
  refine R.bind (R.act (.store .closing true) trivial) fun _ => ?_
  refine R.bind (R.act (.setProxyActive false) trivial) fun _ => R.bind R.stopAdmission fun _ => ?_
  refine R.bind (R.act (.unlock .lifecycleMu) trivial) fun _ => ?_
  refine R.bind (R.act .cancelRequests trivial) fun _ => ?_
  refine R.bind (R.act (.onceClose .forceClose) trivial) fun _ => ?_
  exact R.remote closeListener_remote

theorem acceptConnection (conn : Option Conn) : C _ (srv.acceptConnection conn) := by
  refine R.bind (R.accept conn) fun r => ?_
  exact R.bind (R.when (R.act .connectionOpened trivial)) fun _ => R.ret _

theorem connectionEnded (conn : Option Conn) (counted : Bool) :
    C _ (Server.connectionEnded conn counted) :=
  R.bind (R.when (R.act .connectionClosed trivial)) fun _ => R.connectionClosed conn

end ServerRules
end Slizen.Proxy
