import Slizen.Proxy.DrainRuns
import Slizen.Proxy.Pending
import Slizen.Proxy.Wakeups

namespace Slizen.Proxy
set_option autoImplicit true

open Interleaving Machine

/-- What has become of a connection: `accept` has not taken it, it waits to be woken, a `beginDrain`
has taken it for that, or it was closed first. -/
inductive Status where
  | unknown
  | pending
  | taken
  | closed
  deriving DecidableEq

namespace Status

def step (conn : Conn) (st : Status) : (a : Action) → a.Resp → Status
  | .track c, _ => if c = conn then .pending else st
  | .untrack c, _ => if c = conn ∧ st = .pending then .closed else st
  | .takeBatch, batch => if conn ∈ batch then .taken else st
  | _, _ => st

end Status

def Action.tracked : Action → List Conn
  | .track conn => [conn]
  | _ => []

def accepted (tr : List Server.machine.Event) : List Conn :=
  tr.flatMap fun e => Action.tracked e.action

def status (tr : List Server.machine.Event) (conn : Conn) : Status :=
  tr.foldl (fun st e => st.step conn e.action e.answer) .unknown

/-- A run as the tracking of connections sees it. -/
structure Scene where
  mems : Nat → Drainer
  mu : Option Nat
  drain : DrainTracker
  drained : Nat
  clock : Time
  accepted : List Conn
  status : Conn → Status

namespace Scene

def step (srv : Server) (sc : Scene) (t : Nat) (a : Action) (b : a.Resp) : Scene where
  mems := Function.update sc.mems t ((sc.mems t).next srv a b)
  mu := match a with
    | .lock .mu => some t
    | .unlock .mu => none
    | _ => sc.mu
  drain := match a with
    | .drainingSwap => { sc.drain with draining := true }
    | .activeAdd delta => { sc.drain with active := sc.drain.active + delta }
    | .track conn => sc.drain.track conn
    | .untrack conn => sc.drain.untrack conn
    | .takeBatch => (sc.drain.takeBatch 128).2
    | _ => sc.drain
  drained := match a with
    | .closeChannel .drained => sc.drained + 1
    | .onceClose .drained => if sc.drained = 0 then sc.drained + 1 else sc.drained
    | _ => sc.drained
  clock := sc.clock
  accepted := sc.accepted ++ a.tracked
  status := fun conn => (sc.status conn).step conn a b

def Answers (sc : Scene) : (a : Action) → a.Resp → Prop
  | .lock .mu, _ => sc.mu = none
  | .connectionsLen, n => n = sc.drain.connections.keys.length
  | .pendingLen, n => n = sc.drain.pendingLen
  | .takeBatch, batch => batch = (sc.drain.takeBatch 128).1
  | .isClosed .drained, b => b = decide (0 < sc.drained)
  | .now, time => time = sc.clock
  | _, _ => True

end Scene

def scene (srv : Server) (tr : List Server.machine.Event) (s : World) : Scene where
  mems := fun t => mem (M := Server.machine) (watch srv) tr t
  mu := s.mutex .mu
  drain := s.drain
  drained := s.channels .drained
  clock := s.clock
  accepted := accepted tr
  status := status tr

theorem World.step_scene {b : a.Resp} (srv : Server) (tr : List Server.machine.Event)
    (h : World.step s t c a = some (b, s')) :
    (scene srv tr s).Answers a b ∧
      s'.mutex .mu = ((scene srv tr s).step srv t a b).mu ∧
      s'.drain = ((scene srv tr s).step srv t a b).drain ∧
      s'.channels .drained = ((scene srv tr s).step srv t a b).drained ∧ s'.clock = s.clock := by
  cases a with
  | lock m =>
    simp only [World.step] at h
    split at h
    · rename_i hfree
      cases h
      cases m with
      | mu => exact ⟨hfree, rfl, rfl, rfl, rfl⟩
      | lifecycleMu => exact ⟨trivial, rfl, rfl, rfl, rfl⟩
    · cases h
  | unlock m =>
    simp only [World.step] at h
    split at h
    · cases h
      cases m <;> exact ⟨trivial, rfl, rfl, rfl, rfl⟩
    · cases h
  | closeChannel ch =>
    cases h
    cases ch <;> exact ⟨trivial, rfl, rfl, rfl, rfl⟩
  | onceClose ch =>
    cases h
    cases ch with
    | drained =>
      refine ⟨trivial, ?_⟩
      by_cases hz : s.channels .drained = 0
      · rw [if_pos hz]
        exact ⟨rfl, rfl, (if_pos hz).symm, rfl⟩
      · rw [if_neg hz]
        exact ⟨rfl, rfl, (if_neg hz).symm, rfl⟩
    | _ =>
      refine ⟨trivial, ?_⟩
      split <;> exact ⟨rfl, rfl, rfl, rfl⟩
  | isClosed ch =>
    cases h
    cases ch <;> first | exact ⟨rfl, rfl, rfl, rfl, rfl⟩ | exact ⟨trivial, rfl, rfl, rfl, rfl⟩
  | waitDrain deadline =>
    obtain ⟨_, -, hs⟩ := Option.map_eq_some_iff.1 h
    cases hs
    exact ⟨trivial, rfl, rfl, rfl, rfl⟩
  | listenSignal server =>
    obtain ⟨_, -, hs⟩ := Option.map_eq_some_iff.1 h
    cases hs
    exact ⟨trivial, rfl, rfl, rfl, rfl⟩
  | receiveDone server =>
    obtain ⟨_, -, hs⟩ := Option.map_eq_some_iff.1 h
    cases hs
    exact ⟨trivial, rfl, rfl, rfl, rfl⟩
  | select server =>
    simp only [World.step, World.select] at h
    split at h
    · split at h
      · cases h
        exact ⟨trivial, rfl, rfl, rfl, rfl⟩
      · cases h
    · split at h
      · cases h
        exact ⟨trivial, rfl, rfl, rfl, rfl⟩
      · cases h
    · obtain ⟨_, -, hs⟩ := Option.map_eq_some_iff.1 h
      cases hs
      exact ⟨trivial, rfl, rfl, rfl, rfl⟩
  | call c timeout =>
    obtain ⟨_, -, hs⟩ := Option.map_eq_some_iff.1 h
    cases hs
    exact ⟨trivial, rfl, rfl, rfl, rfl⟩
  | panic msg => cases h
  | _ =>
    cases h
    first | exact ⟨rfl, rfl, rfl, rfl, rfl⟩ | exact ⟨trivial, rfl, rfl, rfl, rfl⟩

theorem accepted_snoc (tr : List Server.machine.Event) (e : Server.machine.Event) :
    accepted (tr ++ [e]) = accepted tr ++ Action.tracked e.action := by
  simp [accepted]

theorem scene_exec {a : Action} {b : a.Resp} (srv : Server) (tr : List Server.machine.Event)
    (he : World.exec t a c s = some (b, s')) :
    (scene srv tr s).Answers a b ∧
      scene srv (tr ++ [⟨t, s, a, b⟩]) s' = (scene srv tr s).step srv t a b := by
  obtain ⟨s₁, hs, rfl⟩ := World.exec_eq he
  obtain ⟨hans, hmu, hdrain, hdrained, hclock⟩ := World.step_scene srv tr hs
  refine ⟨hans, ?_⟩
  have hmems : (scene srv (tr ++ [⟨t, s, a, b⟩]) s₁).mems =
      ((scene srv tr s).step srv t a b).mems := by
    funext u
    by_cases hu : u = t
    · subst hu
      simp only [Scene.step, scene, Function.update_self]
      exact mem_self (M := Server.machine) tr u s a b
    · simp only [Scene.step, scene, Function.update_of_ne hu]
      exact mem_other (M := Server.machine) tr s a b hu
  have hstatus : status (tr ++ [⟨t, s, a, b⟩]) = ((scene srv tr s).step srv t a b).status := by
    funext conn
    simp [status, Scene.step, scene]
  have haccepted : accepted (tr ++ [⟨t, s, a, b⟩]) =
      ((scene srv tr s).step srv t a b).accepted := accepted_snoc ..
  cases hstep : (scene srv tr s).step srv t a b
  rw [hstep] at hmu hdrain hdrained hmems hstatus haccepted
  have hclock' : s.clock = _ := congrArg Scene.clock hstep
  simp only [scene, Scene.mk.injEq]
  exact ⟨hmems, hmu, hdrain, hdrained, hclock.trans hclock', haccepted, hstatus⟩

namespace Scene

variable {srv : Server} {sc sc' : Scene} {μ : Drainer} {t u : Nat} {l l' : List Nat}

@[simp] theorem step_self (sc : Scene) (t : Nat) (a : Action) (b : a.Resp) :
    (sc.step srv t a b).mems t = (sc.mems t).next srv a b := Function.update_self ..

theorem step_other (sc : Scene) (a : Action) (b : a.Resp) (h : u ≠ t) :
    (sc.step srv t a b).mems u = sc.mems u := Function.update_of_ne h ..

/-- What a scene says of one goroutine that may hold the mutex. -/
structure Holding (sc : Scene) (u : Nat) (μ : Drainer) : Prop where
  owner : sc.mu = some u ↔ μ.holds = true
  within : μ.holds = true → μ.inside = true
  room : ∀ n, μ.room = some n → μ.holds = true ∧ sc.drain.connections.keys.length = n
  stopped : μ.stopped = true → sc.drain.draining = true

structure Bounded (srv : Server) (sc : Scene) : Prop where
  holding : ∀ u, sc.Holding u (sc.mems u)
  bound : sc.drain.connections.keys.length ≤ srv.cfg.maxConnections.toNat

theorem Holding.congr (h : sc.Holding u μ) (hmu : sc'.mu = sc.mu)
    (hconns : sc'.drain.connections = sc.drain.connections)
    (hd : sc.drain.draining = true → sc'.drain.draining = true) : sc'.Holding u μ :=
  ⟨hmu ▸ h.owner, h.within, hconns ▸ h.room, fun hs => hd (h.stopped hs)⟩

theorem Holding.apart (h : sc.Holding u μ) (hne : u ≠ t) (hmu : sc.mu = some t)
    (hmu' : sc'.mu = some t ∨ sc'.mu = none)
    (hd : sc.drain.draining = true → sc'.drain.draining = true) : sc'.Holding u μ := by
  have hholds : μ.holds = false := by
    rw [← Bool.not_eq_true, ← h.owner, hmu]
    intro ht
    exact hne (Option.some.inj ht).symm
  refine ⟨?_, h.within, fun n hn => ?_, fun hs => hd (h.stopped hs)⟩
  · rw [hholds]
    rcases hmu' with hmu' | hmu'
    · simp [hmu', hne.symm]
    · simp [hmu']
  · cases hholds.symm.trans (h.room n hn).1

theorem Bounded.unlock_owner (h : sc.Bounded srv) (hh : (sc.mems t).holds = true) :
    sc.mu = some t := (h.holding t).owner.2 hh

theorem Bounded.of_step {a : Action} {b : a.Resp}
    (hself : (sc.step srv t a b).Holding t ((sc.mems t).next srv a b))
    (hother : ∀ u, u ≠ t → (sc.step srv t a b).Holding u (sc.mems u))
    (hbound : (sc.step srv t a b).drain.connections.keys.length ≤ srv.cfg.maxConnections.toNat) :
    (sc.step srv t a b).Bounded srv := by
  refine ⟨fun u => ?_, hbound⟩
  by_cases hu : u = t
  · rw [hu, step_self]
    exact hself
  · rw [step_other _ _ _ hu]
    exact hother u hu

theorem Bounded.plain {a : Action} {b : a.Resp} (h : sc.Bounded srv)
    (hmu : (sc.step srv t a b).mu = sc.mu)
    (hconns : (sc.step srv t a b).drain.connections = sc.drain.connections)
    (hd : sc.drain.draining = true → (sc.step srv t a b).drain.draining = true)
    (hμ : ∃ i σ, (sc.mems t).next srv a b = { sc.mems t with inside := i, sweeper := σ } ∧
      ((sc.mems t).holds = true → i = true)) : (sc.step srv t a b).Bounded srv := by
  refine .of_step ?_ (fun u _ => (h.holding u).congr hmu hconns hd) (hconns ▸ h.bound)
  obtain ⟨i, σ, hnext, hi⟩ := hμ
  have hself := (h.holding t).congr hmu hconns hd
  rw [hnext]
  exact ⟨hself.owner, hi, hself.room, hself.stopped⟩

theorem length_insert (m : AList fun _ : Conn => Nat) (c : Conn) (n : Nat) :
    (m.insert c n).keys.length ≤ m.keys.length + 1 := by
  rw [AList.keys_insert, List.length_cons]
  exact Nat.succ_le_succ (List.length_erase_le ..)

theorem length_erase (m : AList fun _ : Conn => Nat) (c : Conn) :
    (m.erase c).keys.length ≤ m.keys.length := by
  rw [AList.keys_erase]
  exact List.length_erase_le ..

theorem Bounded.step {a : Action} {b : a.Resp} (h : sc.Bounded srv)
    (hok : (sc.mems t).Expects srv a) (hans : sc.Answers a b) :
    (sc.step srv t a b).Bounded srv := by
  have hself := h.holding t
  cases a with
  | lock m =>
    cases m with
    | mu =>
      have hfree : sc.mu = none := hans
      refine .of_step ⟨⟨fun _ => rfl, fun _ => rfl⟩, fun _ => hok.1, ?_, hself.stopped⟩ ?_ h.bound
      · intro n hn
        exact ⟨rfl, (hself.room n hn).2⟩
      · intro u hu
        have hmu := (h.holding u).owner
        rw [hfree] at hmu
        have hholds : (sc.mems u).holds = false := by simpa using hmu
        refine ⟨?_, (h.holding u).within, (h.holding u).room, (h.holding u).stopped⟩
        simp [Scene.step, hholds, Ne.symm hu]
    | lifecycleMu => exact h.plain rfl rfl id ⟨_, _, rfl, hself.within⟩
  | unlock m =>
    cases m with
    | mu =>
      refine .of_step ⟨?_, nofun, nofun, hself.stopped⟩ ?_ h.bound
      · simp [Scene.step, Drainer.next]
      · intro u hu
        exact (h.holding u).apart hu (h.unlock_owner hok) (.inr rfl) id
    | lifecycleMu => exact h.plain rfl rfl id ⟨_, _, rfl, hself.within⟩
  | drainingSwap =>
    refine .of_step ⟨hself.owner, hself.within, hself.room, fun _ => rfl⟩ ?_ h.bound
    intro u _
    exact (h.holding u).congr rfl rfl fun _ => rfl
  | connectionsLen =>
    refine .of_step ⟨hself.owner, hself.within, ?_, hself.stopped⟩ ?_ h.bound
    · intro n hn
      cases hn
      exact ⟨hok, hans.symm⟩
    · exact fun u _ => (h.holding u).congr rfl rfl id
  | track conn =>
    obtain ⟨hholds, n, hn, hlt⟩ := hok
    have hlen := (hself.room n hn).2
    have hd : (sc.drain.track conn).draining = sc.drain.draining := (sc.drain.track_frame conn).1
    refine .of_step ⟨hself.owner, hself.within, nofun, ?_⟩ ?_ ?_
    · exact fun hs => hd.trans (hself.stopped hs)
    · intro u hu
      exact (h.holding u).apart hu (h.unlock_owner hholds) (.inl (h.unlock_owner hholds))
        fun hs => hd.trans hs
    · have := length_insert sc.drain.connections conn sc.drain.nodes.length
      have hconns : (sc.drain.track conn).connections.keys.length ≤ n + 1 := hlen ▸ this
      exact hconns.trans (by omega)
  | untrack conn =>
    have hd : (sc.drain.untrack conn).draining = sc.drain.draining :=
      (sc.drain.untrack_frame conn).1
    refine .of_step ⟨hself.owner, hself.within, nofun, ?_⟩ ?_ ?_
    · exact fun hs => hd.trans (hself.stopped hs)
    · intro u hu
      exact (h.holding u).apart hu (h.unlock_owner hok) (.inl (h.unlock_owner hok))
        fun hs => hd.trans hs
    · exact (length_erase sc.drain.connections conn).trans h.bound
  | takeBatch =>
    have hsame := sc.drain.takeBatch_same 128
    exact h.plain rfl hsame.connections hsame.draining.trans ⟨_, _, rfl, hself.within⟩
  | note n =>
    cases n with
    | leave =>
      refine h.plain rfl rfl id ⟨_, _, rfl, fun hh => ?_⟩
      cases hok.1.symm.trans hh
    | enter => exact h.plain rfl rfl id ⟨_, _, rfl, fun _ => rfl⟩
    | job j => exact h.plain rfl rfl id ⟨_, _, rfl, hself.within⟩
  | isClosed ch =>
    cases ch with
    | drained => cases b <;> exact h.plain rfl rfl id ⟨_, _, rfl, hself.within⟩
    | _ => exact h.plain rfl rfl id ⟨_, _, rfl, hself.within⟩
  | _ => exact h.plain rfl rfl id ⟨_, _, rfl, hself.within⟩

end Scene

namespace Sweeper

theorem read_taken (srv : Server) (σ : Sweeper) (time : Time) :
    (σ.read srv time).taken = σ.taken := by
  unfold read
  split
  · rfl
  · split <;> rfl
  · rfl

theorem hear_taken (σ : Sweeper) : σ.hear.taken = σ.taken := by
  unfold hear
  split <;> rfl

theorem wake_taken (σ : Sweeper) (x : Wake) : (σ.wake x).taken = σ.taken := by
  unfold wake
  split <;> rfl

end Sweeper

def Drainer.took (μ : Drainer) : List Conn := μ.sweeper.taken.map Prod.fst

theorem Drainer.took_next {a : Action} (μ : Drainer) (b : a.Resp) (ha : a ≠ .takeBatch) :
    (μ.next srv a b).took = μ.took := by
  cases a with
  | takeBatch => exact absurd rfl ha
  | note n => cases n <;> rfl
  | lock m => cases m <;> rfl
  | unlock m => cases m <;> rfl
  | now => exact congrArg (List.map Prod.fst) (μ.sweeper.read_taken srv b)
  | isClosed ch =>
    cases ch with
    | drained =>
      cases b with
      | false => rfl
      | true => exact congrArg (List.map Prod.fst) μ.sweeper.hear_taken
    | _ => rfl
  | setDeadline conn kind time => exact congrArg (List.map Prod.fst) (μ.sweeper.wake_taken _)
  | _ => rfl

theorem Drainer.took_takeBatch {μ : Drainer} {batch : List Conn}
    (hs : μ.sweeper.stage = .loop w rounds) :
    (μ.next srv .takeBatch batch).took = μ.took ++ batch := by
  simp only [next, took, Sweeper.take, hs, List.map_append, List.map_map]
  congr 1
  exact List.map_id _

namespace Scene

variable {srv : Server} {sc sc' : Scene} {μ : Drainer} {t u : Nat} {l l' : List Nat}

/-- The pending list `l` and what the goroutines have taken agree with what has become of the
connections. -/
structure Ledger (sc : Scene) (l : List Nat) : Prop where
  tracking : sc.drain.Tracking l
  conns : sc.drain.conns = sc.accepted
  known : ∀ c, sc.status c ≠ .unknown → c ∈ sc.accepted
  pending : ∀ c, sc.drain.Waits l c ↔ sc.status c = .pending
  taken : ∀ c, (∃ u, c ∈ (sc.mems u).took) ↔ sc.status c = .taken
  once : ∀ u, (sc.mems u).took.Nodup
  apart : ∀ u v c, c ∈ (sc.mems u).took → c ∈ (sc.mems v).took → u = v

theorem took_step {a : Action} (srv : Server) (sc : Scene) (t : Nat) (b : a.Resp)
    (ha : a ≠ .takeBatch) (u : Nat) :
    ((sc.step srv t a b).mems u).took = (sc.mems u).took := by
  by_cases hu : u = t
  · rw [hu, step_self, Drainer.took_next _ _ ha]
  · rw [step_other _ _ _ hu]

theorem Ledger.of_step {a : Action} {b : a.Resp} (h : sc.Ledger l) (ha : a ≠ .takeBatch)
    (htracking : (sc.step srv t a b).drain.Tracking l')
    (hconns : (sc.step srv t a b).drain.conns = (sc.step srv t a b).accepted)
    (hknown : ∀ c, (sc.step srv t a b).status c ≠ .unknown → c ∈ (sc.step srv t a b).accepted)
    (hpending : ∀ c, (sc.step srv t a b).drain.Waits l' c ↔
      (sc.step srv t a b).status c = .pending)
    (htaken : ∀ c, (sc.step srv t a b).status c = .taken ↔ sc.status c = .taken) :
    (sc.step srv t a b).Ledger l' := by
  have htook := took_step srv sc t b ha
  refine ⟨htracking, hconns, hknown, hpending, fun c => ?_, fun u => ?_, fun u v c => ?_⟩
  · simp only [htook, htaken, h.taken]
  · rw [htook]
    exact h.once u
  · rw [htook, htook]
    exact h.apart u v c

theorem Ledger.plain {a : Action} {b : a.Resp} (h : sc.Ledger l) (ha : a ≠ .takeBatch)
    (htracking : (sc.step srv t a b).drain.Tracking l)
    (hconns : (sc.step srv t a b).drain.conns = sc.drain.conns)
    (haccepted : a.tracked = []) (hstatus : (sc.step srv t a b).status = sc.status) :
    (sc.step srv t a b).Ledger l := by
  have hacc : (sc.step srv t a b).accepted = sc.accepted :=
    (congrArg (sc.accepted ++ ·) haccepted).trans (List.append_nil _)
  apply h.of_step ha htracking
  · rw [hconns, hacc]
    exact h.conns
  · rw [hstatus, hacc]
    exact h.known
  · intro c
    rw [hstatus, ← h.pending c]
    simp only [DrainTracker.Waits, hconns]
  · intro c
    rw [hstatus]

theorem Ledger.track {b : Unit} {conn : Conn} (h : sc.Ledger l) (hfresh : conn ∉ sc.accepted) :
    (sc.step srv t (.track conn) b).Ledger (sc.drain.nodes.length :: l) := by
  have hnew : conn ∉ sc.drain.conns := h.conns ▸ hfresh
  have hunknown : sc.status conn = .unknown := by
    by_contra hne
    exact hfresh (h.known conn hne)
  have hstatus : ∀ c, (sc.step srv t (.track conn) b).status c =
      if conn = c then .pending else sc.status c := fun _ => rfl
  apply Ledger.of_step (a := .track conn) h nofun (h.tracking.track hnew)
  · exact (DrainTracker.conns_track _ _).trans (congrArg (· ++ [conn]) h.conns)
  · intro c hc
    apply List.mem_append.2
    rw [hstatus] at hc
    split at hc
    · rename_i heq
      exact .inr (List.mem_singleton.2 heq.symm)
    · exact .inl (h.known c hc)
  · intro c
    rw [hstatus]
    apply (DrainTracker.waits_track h.tracking hnew).trans
    rw [h.pending]
    split
    · rename_i heq
      simp [heq]
    · rename_i hne
      simp [Ne.symm hne]
  · intro c
    rw [hstatus]
    split
    · rename_i heq
      simp [← heq, hunknown]
    · rfl

theorem Ledger.untrack {b : Unit} {conn : Conn} (h : sc.Ledger l) :
    ∃ l', (sc.step srv t (.untrack conn) b).Ledger l' ∧ l'.length ≤ l.length := by
  obtain ⟨l', htracking, hconns, hlen, hwaits⟩ := h.tracking.untrack conn
  have hstatus : ∀ c, (sc.step srv t (.untrack conn) b).status c =
      if conn = c ∧ sc.status c = .pending then .closed else sc.status c := fun _ => rfl
  have hacc : (sc.step srv t (.untrack conn) b).accepted = sc.accepted := List.append_nil _
  refine ⟨l', ?_, hlen⟩
  apply Ledger.of_step (a := .untrack conn) h nofun htracking
  · exact hconns.trans (h.conns.trans hacc.symm)
  · intro c hc
    rw [hacc]
    apply h.known c
    rw [hstatus] at hc
    split at hc
    · rename_i hp
      rw [hp.2]
      exact nofun
    · exact hc
  · intro c
    rw [hstatus]
    apply (hwaits c).trans
    rw [h.pending]
    by_cases hc : conn = c
    · subst hc
      by_cases hp : sc.status conn = .pending <;> simp [hp]
    · simp [hc, Ne.symm hc]
  · intro c
    rw [hstatus]
    split
    · rename_i hp
      simp [hp.2]
    · rfl

theorem Ledger.takeBatch {batch : List Conn} (h : sc.Ledger l)
    (hs : (sc.mems t).sweeper.stage = .loop w rounds)
    (hbatch : batch = (sc.drain.takeBatch 128).1) :
    (sc.step srv t .takeBatch batch).Ledger (l.drop 128) := by
  obtain ⟨htracking, hnodup, hwaits⟩ := h.tracking.takeBatch 128
  have hconns : (sc.drain.takeBatch 128).2.conns = sc.drain.conns :=
    (h.tracking.toQueue.takeBatch 128).2.2
  rw [← hbatch] at hnodup hwaits
  have hacc : (sc.step srv t .takeBatch batch).accepted = sc.accepted := List.append_nil _
  have hstatus : ∀ c, (sc.step srv t .takeBatch batch).status c =
      if c ∈ batch then .taken else sc.status c := fun _ => rfl
  -- What is in the batch was waiting, so nobody had taken it before.
  have hwas : ∀ c ∈ batch, sc.status c = .pending := by
    intro c hc
    rw [← h.pending]
    rw [hbatch, DrainTracker.mem_batch h.tracking.toQueue] at hc
    obtain ⟨n, hn, hs⟩ := hc
    exact ⟨n, List.mem_of_mem_take hn, hs⟩
  have hnew : ∀ c ∈ batch, ∀ u, c ∉ (sc.mems u).took := by
    intro c hc u hu
    cases (hwas c hc).symm.trans ((h.taken c).1 ⟨u, hu⟩)
  have htook : ∀ u c, c ∈ ((sc.step srv t .takeBatch batch).mems u).took ↔
      c ∈ (sc.mems u).took ∨ u = t ∧ c ∈ batch := by
    intro u c
    by_cases hu : u = t
    · rw [hu, step_self, Drainer.took_takeBatch hs]
      simp
    · rw [step_other _ _ _ hu]
      simp [hu]
  refine ⟨htracking, hconns.trans (h.conns.trans hacc.symm), ?_, ?_, ?_, ?_, ?_⟩
  · intro c hc
    rw [hacc]
    apply h.known c
    rw [hstatus] at hc
    split at hc
    · rename_i hb
      rw [hwas c hb]
      exact nofun
    · exact hc
  · intro c
    rw [hstatus]
    apply (hwaits c).trans
    rw [h.pending]
    by_cases hc : c ∈ batch <;> simp [hc]
  · intro c
    simp only [htook, exists_or, h.taken, hstatus]
    by_cases hc : c ∈ batch <;> simp [hc]
  · intro u
    by_cases hu : u = t
    · rw [hu, step_self, Drainer.took_takeBatch hs]
      apply List.nodup_append'.2
      exact ⟨h.once t, hnodup, fun c hc hb => hnew c hb t hc⟩
    · rw [step_other _ _ _ hu]
      exact h.once u
  · intro u v c hcu hcv
    rcases (htook u c).1 hcu with hu | ⟨rfl, hb⟩
    · rcases (htook v c).1 hcv with hv | ⟨-, hb⟩
      · exact h.apart u v c hu hv
      · exact absurd hu (hnew c hb u)
    · rcases (htook v c).1 hcv with hv | ⟨rfl, -⟩
      · exact absurd hv (hnew c hb v)
      · rfl

theorem Ledger.step {a : Action} {b : a.Resp} (h : sc.Ledger l)
    (hok : (sc.mems t).Expects srv a) (hans : sc.Answers a b)
    (hnodup : (sc.step srv t a b).accepted.Nodup)
    (htrack : ∀ c, a = .track c → sc.drain.draining = false) :
    ∃ l', (sc.step srv t a b).Ledger l' ∧ (a = .takeBatch → l' = l.drop 128) ∧
      (sc.drain.draining = true →
        (sc.step srv t a b).drain.draining = true ∧ l'.length ≤ l.length) := by
  have hsame : sc.drain.Tracking l := h.tracking
  cases a with
  | track conn =>
    have hfresh : conn ∉ sc.accepted := fun hc =>
      (List.nodup_append'.1 hnodup).2.2 hc List.mem_cons_self
    refine ⟨_, h.track hfresh, nofun, fun hd => ?_⟩
    cases (htrack conn rfl).symm.trans hd
  | untrack conn =>
    obtain ⟨l', hledger, hlen⟩ := h.untrack
    exact ⟨l', hledger, nofun, fun hd => ⟨(sc.drain.untrack_frame conn).1.trans hd, hlen⟩⟩
  | takeBatch =>
    obtain ⟨-, -, w, rounds, hs⟩ := hok
    refine ⟨_, h.takeBatch hs hans, fun _ => rfl, fun hd => ?_⟩
    exact ⟨(sc.drain.takeBatch_same 128).draining.trans hd, by simp⟩
  | drainingSwap =>
    exact ⟨l, h.plain nofun ⟨⟨hsame.spells, hsame.pending⟩, hsame.named, hsame.live⟩ rfl rfl rfl,
      nofun, fun _ => ⟨rfl, le_rfl⟩⟩
  | activeAdd delta =>
    exact ⟨l, h.plain nofun ⟨⟨hsame.spells, hsame.pending⟩, hsame.named, hsame.live⟩ rfl rfl rfl,
      nofun, fun hd => ⟨hd, le_rfl⟩⟩
  | _ => exact ⟨l, h.plain nofun hsame rfl rfl rfl, nofun, fun hd => ⟨hd, le_rfl⟩⟩

end Scene

end Slizen.Proxy
