import Slizen.Interleaving.Monitor
import Slizen.Proxy.Composition

namespace Slizen.Proxy
set_option autoImplicit true

open Interleaving

structure Wake where
  conn : Conn
  kind : DeadlineKind
  time : Time
  deriving DecidableEq

/-- One loop of `beginDrain`: its deadline and the instant it wakes connections for. -/
structure Sweep where
  deadline : Time
  wakeAt : Time
  deriving DecidableEq

def Sweep.wakes (w : Sweep) (conn : Conn) : List Wake :=
  [⟨conn, .read, w.wakeAt⟩, ⟨conn, .write, w.deadline⟩]

/-- Where a goroutine stands in `beginDrain`: not in it or still in its first locked section, before
the loop, in the loop with so many rounds left for non-empty batches, at one of the exits of the
loop, or beyond the rounds it was given. -/
inductive Stage where
  | outside
  | begun (rounds : Nat)
  | loop (w : Sweep) (rounds : Nat)
  | ended
  | spent
  deriving DecidableEq

def Stage.further (w : Sweep) : Nat → Stage
  | 0 => .spent
  | rounds + 1 => .loop w rounds

theorem Stage.further_ne (w : Sweep) (rounds : Nat) : Stage.further w rounds ≠ .outside := by
  cases rounds <;> exact nofun

/-- What is known of a goroutine that may drain: its job, the last clock reading outside
`beginDrain`, its loops so far, the connections it has taken and the deadlines it has set in
`beginDrain`. -/
structure Sweeper where
  job : Option Job := none
  last : Time := 0
  stage : Stage := .outside
  sweeps : List Sweep := []
  taken : List (Conn × Sweep) := []
  done : List Wake := []

namespace Sweeper

def plan (σ : Sweeper) : List Wake := σ.taken.flatMap fun x => x.2.wakes x.1

/-- The deadline of the `beginDrain` that the goroutine begins: `Start` adds the timeout to the
clock. -/
def deadline (srv : Server) (σ : Sweeper) : Time :=
  match σ.job with
  | some (.beginDrain deadline) => deadline
  | _ => σ.last + srv.cfg.shutdownTimeout

def read (srv : Server) (σ : Sweeper) (time : Time) : Sweeper :=
  match σ.stage with
  | .begun rounds =>
    { σ with
      stage := .loop ⟨σ.deadline srv, time⟩ rounds
      sweeps := ⟨σ.deadline srv, time⟩ :: σ.sweeps }
  | .loop w _ => if time < w.deadline then σ else { σ with stage := .ended }
  | _ => { σ with last := time }

def hear (σ : Sweeper) : Sweeper :=
  match σ.stage with
  | .loop _ _ => { σ with stage := .ended }
  | _ => σ

def take (σ : Sweeper) (batch : List Conn) : Sweeper :=
  match σ.stage with
  | .loop w rounds =>
    { σ with
      stage := if batch = [] then .ended else .further w rounds
      taken := σ.taken ++ batch.map fun c => (c, w) }
  | _ => σ

def wake (σ : Sweeper) (x : Wake) : Sweeper :=
  if σ.stage = .outside then σ else { σ with done := σ.done ++ [x] }

end Sweeper

/-- What is known of a goroutine: whether it is in a call of the tracker, whether it holds `mu`,
how many connections it has counted since it got it, whether it has stopped admission, and what it
does for the drain. -/
structure Drainer where
  inside : Bool := false
  holds : Bool := false
  room : Option Nat := none
  stopped : Bool := false
  sweeper : Sweeper := {}

namespace Drainer

def next (srv : Server) (μ : Drainer) : (a : Action) → a.Resp → Drainer
  | .note (.job job), _ => { μ with sweeper := { μ.sweeper with job := some job } }
  | .note .enter, _ => { μ with inside := true }
  | .note .leave, _ => { μ with inside := false, sweeper := { μ.sweeper with stage := .outside } }
  | .lock .mu, _ => { μ with holds := true }
  | .unlock .mu, _ => { μ with holds := false, room := none }
  | .drainingSwap, _ => { μ with stopped := true }
  | .connectionsLen, n => { μ with room := some n }
  | .track _, _ => { μ with room := none }
  | .untrack _, _ => { μ with room := none }
  | .pendingLen, n => { μ with sweeper := { μ.sweeper with stage := .begun n } }
  | .now, time => { μ with sweeper := μ.sweeper.read srv time }
  | .isClosed .drained, b => if b then { μ with sweeper := μ.sweeper.hear } else μ
  | .takeBatch, batch => { μ with sweeper := μ.sweeper.take batch }
  | .setDeadline conn kind time, _ => { μ with sweeper := μ.sweeper.wake ⟨conn, kind, time⟩ }
  | _, _ => μ

/-- What a goroutine may do next. Inside a call of the tracker it waits for nothing but `mu`. -/
def Expects (srv : Server) (μ : Drainer) : Action → Prop
  | .note (.job _) => μ.inside = false
  | .note .enter => μ.inside = false
  | .note .leave => μ.holds = false ∧ (μ.sweeper.stage = .outside ∨
      (μ.sweeper.stage = .ended ∨ μ.sweeper.stage = .spent) ∧ μ.sweeper.done = μ.sweeper.plan)
  | .lock .mu => μ.inside = true ∧ μ.holds = false
  | .unlock .mu => μ.holds = true
  | .connectionsLen => μ.holds = true
  | .untrack _ => μ.holds = true
  | .track _ => μ.holds = true ∧ ∃ n : Nat, μ.room = some n ∧ (n : Int) < srv.cfg.maxConnections
  | .pendingLen => μ.holds = true ∧ μ.stopped = true ∧ μ.sweeper.stage = .outside
  | .takeBatch => μ.holds = true ∧ μ.sweeper.done = μ.sweeper.plan ∧
      ∃ w rounds, μ.sweeper.stage = .loop w rounds
  | .setDeadline conn kind time => μ.sweeper.stage = .outside ∨
      μ.sweeper.done ++ [⟨conn, kind, time⟩] <+: μ.sweeper.plan
  | .lock .lifecycleMu => μ.inside = false
  | .unlock .lifecycleMu => μ.inside = false
  | .waitDrain _ => μ.inside = false
  | .listenSignal _ => μ.inside = false
  | .receiveDone _ => μ.inside = false
  | .select _ => μ.inside = false
  | _ => True

structure At (job : Option Job) (inside holds : Bool) (μ : Drainer) : Prop where
  inside : μ.inside = inside
  holds : μ.holds = holds
  job : μ.sweeper.job = job
  outside : μ.sweeper.stage = .outside
  settled : μ.sweeper.done = μ.sweeper.plan

end Drainer

abbrev watch (srv : Server) : Monitor Action Action.Resp where
  Mem := Drainer
  fresh := {}
  Ok := Drainer.Expects srv
  next := Drainer.next srv
  Idle := fun μ => ∃ job, Drainer.At job false false μ

namespace Drainer

variable {srv : Server} {μ : Drainer} {job : Option Job} {i h : Bool} {α β : Type}

def Leads (srv : Server) (job : Option Job) (i h i' h' : Bool) (p : Run α) : Prop :=
  ∀ μ, At job i h μ → (watch srv).Obeys p (fun _ => At job i' h') μ

abbrev Rests (srv : Server) (job : Option Job) (i h : Bool) (p : Run α) : Prop :=
  Leads srv job i h i h p

theorem rests_ret (x : α) : Rests srv job i h (.ret x : Run α) := fun _ hμ => hμ

theorem Leads.bind {p : Run α} {f : α → Run β} (hp : Leads srv job i h i₁ h₁ p)
    (hf : ∀ x, Leads srv job i₁ h₁ i₂ h₂ (f x)) : Leads srv job i h i₂ h₂ (p >>= f) :=
  fun μ hμ => Monitor.Obeys.bind (hp μ hμ) fun x μ' hμ' => hf x μ' hμ'

theorem leads_lock : Leads srv job true false true true (lock .mu) :=
  fun _ hμ => ⟨⟨hμ.inside, hμ.holds⟩, fun _ =>
    ⟨hμ.inside, rfl, hμ.job, hμ.outside, hμ.settled⟩⟩

theorem leads_unlock : Leads srv job true true true false (unlock .mu) :=
  fun _ hμ => ⟨hμ.holds, fun _ => ⟨hμ.inside, rfl, hμ.job, hμ.outside, hμ.settled⟩⟩

theorem leads_enter : Leads srv job false false true false (note .enter) :=
  fun _ hμ => ⟨hμ.inside, fun _ => ⟨rfl, hμ.holds, hμ.job, hμ.outside, hμ.settled⟩⟩

theorem leads_leave : Leads srv job true false false false (note .leave) :=
  fun _ hμ => ⟨⟨hμ.holds, .inl hμ.outside⟩, fun _ => ⟨rfl, hμ.holds, hμ.job, rfl, hμ.settled⟩⟩

theorem At.read (srv : Server) (hμ : At job i h μ) (time : Time) :
    At job i h { μ with sweeper := μ.sweeper.read srv time } := by
  unfold Sweeper.read
  split
  · rename_i hs
    cases hμ.outside.symm.trans hs
  · rename_i hs
    cases hμ.outside.symm.trans hs
  · exact ⟨hμ.inside, hμ.holds, hμ.job, hμ.outside, hμ.settled⟩

theorem At.wake (hμ : At job i h μ) (x : Wake) :
    At job i h { μ with sweeper := μ.sweeper.wake x } := by
  rw [Sweeper.wake, if_pos hμ.outside]
  exact hμ

theorem At.hear (hμ : At job i h μ) : At job i h { μ with sweeper := μ.sweeper.hear } := by
  rw [Sweeper.hear, hμ.outside]
  exact hμ

theorem rests_now : Rests srv job i h (Run.do .now) :=
  fun _ hμ => ⟨trivial, fun time => hμ.read srv time⟩

theorem rests_setDeadline : Rests srv job i h (Run.do (.setDeadline conn kind time)) :=
  fun _ hμ => ⟨.inl hμ.outside, fun _ => hμ.wake _⟩

theorem rests_remote {p : Run α} (hp : p.Uses Action.Remote) : Rests srv job false false p := by
  intro μ hμ
  apply Monitor.Obeys.steady (K := watch srv) hp _ hμ
  intro a μ ha hμ
  cases a with
  | lock m =>
    cases m with
    | mu => exact ha.elim
    | lifecycleMu => exact ⟨hμ.inside, fun _ => hμ⟩
  | unlock m =>
    cases m with
    | mu => exact ha.elim
    | lifecycleMu => exact ⟨hμ.inside, fun _ => hμ⟩
  | waitDrain _ => exact ⟨hμ.inside, fun _ => hμ⟩
  | listenSignal _ => exact ⟨hμ.inside, fun _ => hμ⟩
  | receiveDone _ => exact ⟨hμ.inside, fun _ => hμ⟩
  | select _ => exact ⟨hμ.inside, fun _ => hμ⟩
  | now => exact ⟨trivial, fun time => hμ.read srv time⟩
  | setDeadline conn kind time => exact ⟨.inl hμ.outside, fun _ => hμ.wake _⟩
  | isClosed ch =>
    refine ⟨trivial, fun b => ?_⟩
    cases ch with
    | drained =>
      cases b with
      | true => exact hμ.hear
      | false => exact hμ
    | _ => exact hμ
  | note n => exact ha.elim
  | _ => first | exact ha.elim | exact ⟨trivial, fun _ => hμ⟩

theorem inner_step (srv : Server) {a : Action} (ha : a.Inner) (hμ : μ.holds = true) :
    Expects srv μ a ∧
    ∀ b, (next srv μ a b).inside = μ.inside ∧ (next srv μ a b).holds = true ∧
      (next srv μ a b).sweeper = μ.sweeper ∧
      (μ.stopped = true → (next srv μ a b).stopped = true) := by
  cases a with
  | connectionsLen => exact ⟨hμ, fun _ => ⟨rfl, hμ, rfl, id⟩⟩
  | drainingSwap => exact ⟨trivial, fun _ => ⟨rfl, hμ, rfl, fun _ => rfl⟩⟩
  | isClosed _ => exact ha.elim
  | lock m => cases m <;> exact ha.elim
  | unlock m => cases m <;> exact ha.elim
  | note n => cases n <;> exact ha.elim
  | _ => first | exact ha.elim | exact ⟨trivial, fun _ => ⟨rfl, hμ, rfl, id⟩⟩

theorem rests_inner {p : Run α} (hp : p.Uses Action.Inner) : Rests srv job i true p := by
  intro μ hμ
  apply Monitor.Obeys.steady (K := watch srv) hp _ hμ
  intro a μ ha hμ
  obtain ⟨hok, hnext⟩ := inner_step srv ha hμ.holds
  refine ⟨hok, fun b => ?_⟩
  obtain ⟨hi, hh, hs, -⟩ := hnext b
  exact ⟨hi.trans hμ.inside, hh, hs ▸ hμ.job, hs ▸ hμ.outside, hs ▸ hμ.settled⟩

theorem rests_during {p : Run α} (hp : Rests srv job true false p) :
    Rests srv job false false (during p) :=
  leads_enter.bind fun _ => hp.bind fun _ => leads_leave.bind fun _ => rests_ret _

theorem rests_drainingLoad : Rests srv job i h (Run.do .drainingLoad) :=
  fun _ hμ => ⟨trivial, fun _ => hμ⟩

theorem rests_activeAdd : Rests srv job i h (Run.do (.activeAdd delta)) :=
  fun _ hμ => ⟨trivial, fun _ => hμ⟩

theorem rests_acceptLocked :
    Rests srv job true true (acceptLocked conn readTimeout srv.cfg.maxConnections) := by
  apply rests_drainingLoad.bind
  intro draining
  cases draining with
  | true => exact rests_ret _
  | false =>
    intro μ hμ
    apply And.intro hμ.holds
    intro n
    have hn : At job true true (next srv μ .connectionsLen n) :=
      ⟨hμ.inside, hμ.holds, hμ.job, hμ.outside, hμ.settled⟩
    change (watch srv).Obeys (if (n : Int) ≥ srv.cfg.maxConnections then _ else _) _ _
    split
    · exact hn
    · rename_i hroom
      apply And.intro trivial
      intro time
      have hread := hn.read srv time
      apply And.intro (.inl hread.outside)
      intro err
      have hset := hread.wake ⟨conn, .read, time + readTimeout⟩
      cases err with
      | some e => exact hset
      | none =>
        refine ⟨⟨hset.holds, n, rfl, not_le.1 hroom⟩, fun _ => ?_⟩
        exact ⟨hset.inside, hset.holds, hset.job, hset.outside, hset.settled⟩

theorem rests_accept : Rests srv job false false
    (accept conn srv.cfg.readTimeout srv.cfg.maxConnections) := by
  apply rests_during
  cases conn with
  | none => exact rests_ret _
  | some conn =>
    exact leads_lock.bind fun _ => rests_acceptLocked.bind fun _ =>
      leads_unlock.bind fun _ => rests_ret _

theorem rests_untrack : Rests srv job true true (Run.do (.untrack conn)) :=
  fun _ hμ => ⟨hμ.holds, fun _ => ⟨hμ.inside, hμ.holds, hμ.job, hμ.outside, hμ.settled⟩⟩

theorem rests_signal : Rests srv job true true signalDrainedLocked :=
  rests_inner signalDrainedLocked_inner

theorem rests_connectionClosed : Rests srv job false false (connectionClosed conn) := by
  apply rests_during
  cases conn with
  | none => exact rests_ret _
  | some conn =>
    exact leads_lock.bind fun _ => rests_untrack.bind fun _ => rests_signal.bind fun _ =>
      leads_unlock

theorem rests_stopAdmission : Rests srv job false false stopAdmission := by
  apply rests_during
  apply leads_lock.bind
  intro _
  apply (rests_inner stopAdmissionLocked_inner).bind
  intro _
  exact rests_signal.bind fun _ => leads_unlock

theorem rests_snapshot : Rests srv job false false snapshot := by
  apply rests_during
  apply leads_lock.bind
  intro _
  apply (rests_inner (p := Run.do .activeLoad) ⟨trivial, fun _ => trivial⟩).bind
  intro active
  apply (rests_inner (p := Run.do .connectionsLen) ⟨trivial, fun _ => trivial⟩).bind
  intro connections
  exact leads_unlock.bind fun _ => rests_ret _

theorem rests_panic (msg : String) : Rests srv job i h (Run.do (.panic msg)) :=
  fun _ _ => ⟨trivial, nofun⟩

theorem rests_decrementActiveHandler : Rests srv job i h decrementActiveHandler := by
  apply rests_activeAdd.bind
  intro remaining
  split
  · exact rests_activeAdd.bind fun _ => (rests_panic _).bind nofun
  · exact rests_ret _

theorem rests_rollBack : Rests srv job true false rollBack :=
  rests_decrementActiveHandler.bind fun _ => leads_lock.bind fun _ => rests_signal.bind fun _ =>
    leads_unlock

theorem rests_beginHandler : Rests srv job false false beginHandler := by
  apply rests_during
  apply rests_drainingLoad.bind
  intro draining
  split
  · exact rests_ret _
  · apply rests_activeAdd.bind
    intro active
    split
    · exact rests_activeAdd.bind fun _ => (rests_panic _).bind nofun
    · apply rests_drainingLoad.bind
      intro draining
      split
      · exact rests_rollBack.bind fun _ => rests_ret _
      · exact rests_ret _

theorem rests_setDeadlines : Rests srv job i h (setDeadlines conn readTimeout writeTimeout) := by
  cases conn with
  | none => exact rests_ret _
  | some conn =>
    exact rests_now.bind fun _ => rests_setDeadline.bind fun _ => rests_setDeadline.bind fun _ =>
      rests_ret _

theorem rests_prepareHandlerDone :
    Rests srv job false false (prepareHandlerDone conn readTimeout writeTimeout) := by
  apply rests_during
  apply rests_drainingLoad.bind
  intro draining
  split
  · exact rests_ret _
  · apply rests_setDeadlines.bind
    intro err
    apply leads_lock.bind
    intro _
    have hfinish : Rests srv job true true finishLocked := by
      apply rests_drainingLoad.bind
      intro draining
      split
      · exact rests_ret _
      · exact rests_decrementActiveHandler.bind fun _ => rests_ret _
    exact hfinish.bind fun _ => leads_unlock.bind fun _ => rests_ret _

theorem rests_completeDrainingHandler : Rests srv job false false completeDrainingHandler := by
  apply rests_during
  apply leads_lock.bind
  intro _
  apply rests_drainingLoad.bind
  intro draining
  split
  · exact rests_decrementActiveHandler.bind fun _ => rests_signal.bind fun _ => leads_unlock
  · exact fun μ _ => ⟨trivial, nofun⟩

theorem rests_emits {p : Run α} {Q : α → Prop} (hp : Emits n p Q) : Rests srv job false false p :=
  rests_remote (hp.handles.mono fun _ => Action.Handles.remote)

theorem rests_finishHandler : Rests srv job false false (srv.finishHandler conn state) := by
  apply rests_prepareHandlerDone.bind
  intro r
  split
  · apply (rests_emits (emits_stopDispatch state)).bind
    intro state
    apply (rests_remote (p := Run.do .connClose) ⟨trivial, fun _ => trivial⟩).bind
    intro _
    exact rests_completeDrainingHandler.bind fun _ => rests_ret _
  · exact rests_ret _

theorem rests_dispatch : Rests srv job false false (srv.dispatch conn cmd state) := by
  unfold Server.dispatch
  split
  · exact rests_ret _
  · apply rests_beginHandler.bind
    intro admitted
    cases admitted with
    | true => exact (rests_emits Server.emits_handle).bind fun _ => rests_finishHandler
    | false => exact rests_emits (Server.emits_last (.error _) rfl id state)

theorem rests_dispatchAll : Rests srv job false false (srv.dispatchAll conn cmds state) := by
  induction cmds generalizing state with
  | nil => exact rests_ret _
  | cons cmd cmds ih => exact rests_dispatch.bind fun _ => ih

/-- In the loop of `beginDrain`, with the deadlines that are still to be set for the last batch. -/
structure Sweeping (job : Option Job) (stage : Stage) (owed : List Wake) (μ : Drainer) : Prop where
  inside : μ.inside = true
  holds : μ.holds = false
  job : μ.sweeper.job = job
  stage : μ.sweeper.stage = stage
  owed : μ.sweeper.plan = μ.sweeper.done ++ owed

theorem Sweeping.wake (srv : Server) {st : Stage} {l : List Wake} (hs : st ≠ .outside)
    (hμ : Sweeping job st (x :: l) μ) :
    Expects srv μ (.setDeadline x.conn x.kind x.time) ∧
      Sweeping job st l { μ with sweeper := μ.sweeper.wake x } := by
  constructor
  · refine .inr ⟨l, ?_⟩
    rw [hμ.owed, List.append_assoc]
    rfl
  · have hne : μ.sweeper.stage ≠ .outside := hμ.stage ▸ hs
    rw [Sweeper.wake, if_neg hne]
    refine ⟨hμ.inside, hμ.holds, hμ.job, hμ.stage, ?_⟩
    rw [List.append_assoc]
    exact hμ.owed

theorem obeys_wakeBatch {st : Stage} {w : Sweep} {batch : List Conn} (hs : st ≠ .outside)
    (hμ : Sweeping job st (batch.flatMap w.wakes) μ) :
    (watch srv).Obeys (wakeBatch w.wakeAt w.deadline batch) (fun _ => Sweeping job st []) μ := by
  induction batch generalizing μ with
  | nil => exact hμ
  | cons conn batch ih =>
    rw [List.flatMap_cons] at hμ
    obtain ⟨hread, h₁⟩ := Sweeping.wake srv hs hμ
    apply And.intro hread
    intro _
    obtain ⟨hwrite, h₂⟩ := Sweeping.wake srv hs h₁
    apply And.intro hwrite
    intro _
    exact (ih h₂).bind fun _ _ hμ' => hμ'

theorem Sweeping.read (srv : Server) {w : Sweep} (hμ : Sweeping job (.loop w rounds) [] μ)
    (time : Time) :
    Sweeping job (if time < w.deadline then .loop w rounds else .ended) []
      { μ with sweeper := μ.sweeper.read srv time } := by
  rw [Sweeper.read, hμ.stage]
  dsimp only
  split
  · exact hμ
  · exact ⟨hμ.inside, hμ.holds, hμ.job, rfl, hμ.owed⟩

theorem Sweeping.hear {w : Sweep} (hμ : Sweeping job (.loop w rounds) [] μ) :
    Sweeping job .ended [] { μ with sweeper := μ.sweeper.hear } := by
  rw [Sweeper.hear, hμ.stage]
  exact ⟨hμ.inside, hμ.holds, hμ.job, rfl, hμ.owed⟩

theorem Sweeping.take {w : Sweep} (hμ : Sweeping job (.loop w rounds) [] μ) (batch : List Conn) :
    Sweeping job (if batch = [] then .ended else .further w rounds) (batch.flatMap w.wakes)
      { μ with holds := false, room := none, sweeper := μ.sweeper.take batch } := by
  rw [Sweeper.take, hμ.stage]
  refine ⟨hμ.inside, rfl, hμ.job, rfl, ?_⟩
  have howed := hμ.owed
  rw [List.append_nil] at howed
  rw [← howed, Sweeper.plan, Sweeper.plan, List.flatMap_append, List.flatMap_map]

theorem obeys_nextBatch {w : Sweep} (hμ : Sweeping job (.loop w rounds) [] μ) :
    (watch srv).Obeys (nextBatch w.deadline)
      (fun batch μ' => batch = [] ∧ Sweeping job .ended [] μ' ∨ batch ≠ [] ∧
        Sweeping job (.further w rounds) (batch.flatMap w.wakes) μ') μ := by
  apply And.intro trivial
  intro now
  have hnow := hμ.read srv now
  change (watch srv).Obeys (if now < w.deadline then _ else _) _ _
  split
  · rename_i hlt
    rw [if_pos hlt] at hnow
    apply And.intro trivial
    intro drained
    cases drained with
    | true => exact .inl ⟨rfl, hnow.hear⟩
    | false =>
      apply And.intro ⟨hnow.inside, hnow.holds⟩
      intro _
      refine ⟨⟨rfl, ?_, w, rounds, hnow.stage⟩, fun batch => ?_⟩
      · exact (List.append_nil _).symm.trans hnow.owed.symm
      · apply And.intro rfl
        intro _
        have htake := hnow.take batch
        cases batch with
        | nil => exact .inl ⟨rfl, htake⟩
        | cons conn batch => exact .inr ⟨nofun, htake⟩
  · rename_i hlt
    rw [if_neg hlt] at hnow
    exact .inl ⟨rfl, hnow⟩

theorem obeys_wakePending {w : Sweep} (hμ : Sweeping job (.loop w rounds) [] μ) :
    (watch srv).Obeys (wakePending w.wakeAt w.deadline rounds)
      (fun _ μ' => Sweeping job .ended [] μ' ∨ Sweeping job .spent [] μ') μ := by
  induction rounds generalizing μ with
  | zero =>
    apply Monitor.Obeys.bind (obeys_nextBatch hμ)
    rintro batch μ' (⟨rfl, h'⟩ | ⟨-, h'⟩)
    · exact .inl h'
    · exact (obeys_wakeBatch (Stage.further_ne _ _) h').mono fun _ _ h => .inr h
  | succ rounds ih =>
    apply Monitor.Obeys.bind (obeys_nextBatch hμ)
    rintro batch μ' (⟨rfl, h'⟩ | ⟨hne, h'⟩)
    · exact .inl h'
    · rw [if_neg (by simpa using hne)]
      apply Monitor.Obeys.bind (obeys_wakeBatch (Stage.further_ne _ _) h')
      intro failures μ₂ h₂
      exact (ih h₂).bind fun _ _ h => h

theorem Sweeping.leave (srv : Server) {st : Stage} (hst : st = .ended ∨ st = .spent)
    (hμ : Sweeping job st [] μ) :
    Expects srv μ (.note .leave) ∧ At job false false (next srv μ (.note .leave) ()) := by
  have hset : μ.sweeper.done = μ.sweeper.plan := (List.append_nil _).symm.trans hμ.owed.symm
  have hstage : μ.sweeper.stage = .ended ∨ μ.sweeper.stage = .spent := by
    rw [hμ.stage]
    exact hst
  exact ⟨⟨hμ.holds, .inr ⟨hstage, hset⟩⟩, rfl, hμ.holds, hμ.job, rfl, hset⟩

/-- The first locked section of `beginDrain`, once admission is stopped. -/
structure Stopping (σ : Sweeper) (μ : Drainer) : Prop where
  inside : μ.inside = true
  holds : μ.holds = true
  sweeper : μ.sweeper = σ
  stopped : μ.stopped = true

theorem Stopping.inner {p : Run α} (hp : p.Uses Action.Inner) (hμ : Stopping σ μ) :
    (watch srv).Obeys p (fun _ => Stopping σ) μ := by
  apply Monitor.Obeys.steady (K := watch srv) hp _ hμ
  intro a μ ha hμ
  obtain ⟨hok, hnext⟩ := inner_step srv ha hμ.holds
  refine ⟨hok, fun b => ?_⟩
  obtain ⟨hi, hh, hs, hst⟩ := hnext b
  exact ⟨hi.trans hμ.inside, hh, hs.trans hμ.sweeper, hst hμ.stopped⟩

theorem obeys_stopAdmissionLocked (hi : μ.inside = true) (hh : μ.holds = true) :
    (watch srv).Obeys stopAdmissionLocked (fun _ => Stopping μ.sweeper) μ :=
  ⟨trivial, fun draining =>
    Stopping.inner (stopAdmissionLocked_inner.2 draining) ⟨hi, hh, rfl, rfl⟩⟩

theorem obeys_sweep {σ : Sweeper} (hμ : Stopping σ μ) (hjob : σ.job = job)
    (hout : σ.stage = .outside) (hset : σ.done = σ.plan) (hd : σ.deadline srv = deadline)
    (active : Int) (connections : Nat) :
    (watch srv).Obeys (do
        let rounds ← Run.do .pendingLen
        unlock .mu
        let wakeAt ← Run.do .now
        let deadlineFailures ← wakePending wakeAt deadline rounds
        pure (⟨active, connections, deadlineFailures⟩ : DrainReport))
      (fun _ μ' => Sweeping job .ended [] μ' ∨ Sweeping job .spent [] μ') μ := by
  apply And.intro ⟨hμ.holds, hμ.stopped, (congrArg Sweeper.stage hμ.sweeper).trans hout⟩
  intro rounds
  apply And.intro hμ.holds
  intro _
  apply And.intro trivial
  intro wakeAt
  have hloop : Sweeping job (.loop ⟨deadline, wakeAt⟩ rounds) []
      (next srv (next srv (next srv μ .pendingLen rounds) (.unlock .mu) ()) .now wakeAt) := by
    have hs := hμ.sweeper
    subst hs hd
    exact ⟨hμ.inside, rfl, hjob, rfl, (List.append_nil _).symm ▸ hset.symm⟩
  exact (obeys_wakePending hloop).bind fun _ _ h => h

theorem obeys_beginDrain (hμ : At job false false μ) (hd : μ.sweeper.deadline srv = deadline) :
    (watch srv).Obeys (beginDrain deadline) (fun _ => At job false false) μ := by
  apply And.intro hμ.inside
  intro _
  apply And.intro ⟨rfl, hμ.holds⟩
  intro _
  have hstop : (watch srv).Obeys stopAdmissionLocked (fun _ => Stopping μ.sweeper)
      (next srv (next srv μ (.note .enter) ()) (.lock .mu) ()) := obeys_stopAdmissionLocked rfl rfl
  apply Monitor.Obeys.bind (Q := fun _ μ' => Sweeping job .ended [] μ' ∨ Sweeping job .spent [] μ')
  · apply Monitor.Obeys.bind hstop
    intro _ μ₁ h₁
    apply Monitor.Obeys.bind
      (Stopping.inner (p := Run.do .activeLoad) ⟨trivial, fun _ => trivial⟩ h₁)
    intro active μ₂ h₂
    apply Monitor.Obeys.bind
      (Stopping.inner (p := Run.do .connectionsLen) ⟨trivial, fun _ => trivial⟩ h₂)
    intro connections μ₃ h₃
    apply Monitor.Obeys.bind (Stopping.inner signalDrainedLocked_inner h₃)
    intro _ μ₄ h₄
    exact obeys_sweep h₄ hμ.job hμ.outside hμ.settled hd active connections
  · rintro _ μ' (h' | h')
    · obtain ⟨hok, hleft⟩ := h'.leave srv (.inl rfl)
      exact ⟨hok, fun _ => hleft⟩
    · obtain ⟨hok, hleft⟩ := h'.leave srv (.inr rfl)
      exact ⟨hok, fun _ => hleft⟩

theorem rests_drainUntil (hjob : ∀ d, job ≠ some (.beginDrain d)) :
    Rests srv job false false srv.drainUntil := by
  intro μ hμ
  apply And.intro trivial
  intro now
  have hdeadline : (μ.sweeper.read srv now).deadline srv = now + srv.cfg.shutdownTimeout := by
    unfold Sweeper.read
    split
    · rename_i hs
      cases hμ.outside.symm.trans hs
    · rename_i hs
      cases hμ.outside.symm.trans hs
    · rw [Sweeper.deadline]
      dsimp only
      split
      · rename_i d hd
        exact absurd (hμ.job.symm.trans hd) (hjob d)
      · rfl
  exact (obeys_beginDrain (hμ.read srv now) hdeadline).bind fun _ _ h => h

theorem serverRules (srv : Server) (hjob : ∀ d, job ≠ some (.beginDrain d)) :
    ServerRules srv fun _ p => Rests srv job false false p where
  ret := rests_ret
  bind := fun hp hf => hp.bind hf
  remote := rests_remote
  accept := fun _ => rests_accept
  connectionClosed := fun _ => rests_connectionClosed
  stopAdmission := rests_stopAdmission
  drainUntil := rests_drainUntil hjob
  snapshot := rests_snapshot

theorem keeps_run (job : Job) : (watch srv).Keeps (srv.run job) := by
  rintro μ ⟨j, hμ⟩
  apply And.intro hμ.inside
  intro _
  have hjob : At (some job) false false (next srv μ (.note (.job job)) ()) :=
    ⟨hμ.inside, hμ.holds, rfl, hμ.outside, hμ.settled⟩
  have hrests : ∀ {p : Run Unit}, Rests srv (some job) false false p →
      (watch srv).Obeys p (fun _ => (watch srv).Idle) (next srv μ (.note (.job job)) ()) :=
    fun hp => Monitor.Obeys.mono (hp _ hjob) fun _ _ h => ⟨_, h⟩
  have hvoid : ∀ {α : Type} {p : Run α}, Rests srv (some job) false false p →
      Rests srv (some job) false false (p >>= fun _ => pure ()) :=
    fun hp => hp.bind fun _ => rests_ret _
  cases job with
  | acceptConnection conn =>
    exact hrests (hvoid ((serverRules srv (by simp)).acceptConnection conn))
  | connectionClosed conn counted =>
    exact hrests ((serverRules srv (by simp)).connectionEnded conn counted)
  | serve conn commands => exact hrests (hvoid rests_dispatchAll)
  | stopAdmission => exact hrests rests_stopAdmission
  | beginDrain deadline =>
    exact (obeys_beginDrain hjob rfl).bind fun _ _ h => ⟨_, h⟩
  | snapshot => exact hrests (hvoid rests_snapshot)
  | start => exact hrests (hvoid (serverRules srv (by simp)).start)
  | close => exact hrests (hvoid (serverRules srv (by simp)).close)

end Drainer

open Drainer in
theorem watched (srv : Server) : Machine.Watched (M := Server.machine) (watch srv) srv.jobs where
  idle := ⟨none, rfl, rfl, rfl, rfl, rfl⟩
  entry := by
    rintro p ⟨job, rfl⟩
    exact keeps_run job
  fork := by
    rintro a b p hp μ ⟨job, hμ⟩
    exact (rests_remote (fork_remote hp) μ hμ).mono fun _ _ h => ⟨job, h⟩

end Slizen.Proxy
