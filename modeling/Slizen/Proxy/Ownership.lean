import Slizen.Proxy.Accounting

namespace Slizen.Proxy
set_option autoImplicit true

open Interleaving

/-- What the lifecycle of the server knows of a goroutine. -/
structure Role where
  job : Option Job := none
  proceeded : Bool := false
  ready : Bool := false
  mustClose : Bool := false

def Trace.role (tr : Trace) : Role := ⟨tr.job, tr.proceeded, tr.ready, tr.mustClose⟩

def Role.store (r : Role) : Flag → Bool → Role
  | .started, _ => { r with proceeded := true }
  | .listenerReady, v => { r with ready := r.ready || v }
  | .listenerClosed, _ => { r with mustClose := true }
  | .closing, _ => r
  | .finished, _ => r

/-- Actions that leave the lifecycle alone, but for what can only grow. -/
def Action.Plain : Action → Prop
  | .lock .lifecycleMu => False
  | .unlock .lifecycleMu => False
  | .store _ _ => False
  | .setServer _ => False
  | .setProxyActive true => False
  | .sendDone _ _ => False
  | .serverClose _ => False
  | .note (.job _) => False
  | _ => True

theorem Trace.record_role {a : Action} (ha : a.Plain) (tr : Trace) (s : World) (b : a.Resp) :
    (tr.record s a b).role = tr.role := by
  cases a with
  | drainingLoad =>
    cases b with
    | true =>
      simp only [record, recordLoad]
      split <;> rfl
    | false => rfl
  | activeAdd delta =>
    simp only [record]
    split <;> rfl
  | activeLoad =>
    simp only [record]
    split <;> rfl
  | connectionsLen =>
    simp only [record]
    split <;> rfl
  | note n => cases n <;> first | rfl | exact ha.elim
  | onceClose ch => cases ch <;> rfl
  | store _ _ => exact ha.elim
  | serverClose _ => exact ha.elim
  | _ => rfl

theorem Action.job_of_leaves {a : Action} {tr : Trace} (h : a.leaves tr = true) :
    tr.role.job = some .close := by
  unfold leaves at h
  split at h
  · split at h
    · assumption
    · cases h
  · cases h

namespace World

abbrev role (s : World) (t : Nat) : Role := (s.trace t).role

variable {s s' s₁ : World} {t : Nat} {a : Action} {b : a.Resp} {c : Choice}

theorem exec_role (h : exec t a c s = some (b, s')) :
    s'.role t = ((s.trace t).record s a b).role := by
  rw [role, exec_trace h]
  rfl

theorem exec_role_of_ne (h : exec t a c s = some (b, s')) (hu : u ≠ t) : s'.role u = s.role u :=
  congrArg Trace.role (exec_trace_of_ne h hu)

/-- The lifecycle is as before, or further on. -/
structure SameLife (s s' : World) : Prop where
  mu : s'.mutex .lifecycleMu = s.mutex .lifecycleMu
  flags : s'.flags = s.flags
  server : s'.server = s.server
  closed : s'.closed = s.closed
  proxyActive : s.proxyActive = false → s'.proxyActive = false
  draining : s.drain.draining = true → s'.drain.draining = true
  exited : ∀ u, (s.redcon u).exited = true → (s'.redcon u).exited = true
  done : ∀ u, (s'.redcon u).done ≠ none → (s.redcon u).done ≠ none

theorem SameLife.refl (s : World) : s.SameLife s :=
  ⟨rfl, rfl, rfl, rfl, id, id, fun _ => id, fun _ => id⟩

theorem sameLife_drain (d : DrainTracker)
    (hd : s.drain.draining = true → d.draining = true) : s.SameLife (s.setDrain d) :=
  ⟨rfl, rfl, rfl, rfl, id, hd, fun _ => id, fun _ => id⟩

theorem sameLife_redcon (server : Nat) (r : Redcon)
    (he : (s.redcon server).exited = true → r.exited = true)
    (hd : r.done ≠ none → (s.redcon server).done ≠ none) : s.SameLife (s.setRedcon server r) := by
  refine ⟨rfl, rfl, rfl, rfl, id, id, fun u => ?_, fun u => ?_⟩
  · by_cases hu : u = server
    · subst hu
      simpa [setRedcon] using he
    · simp [setRedcon, hu]
  · by_cases hu : u = server
    · subst hu
      simpa [setRedcon] using hd
    · simp [setRedcon, hu]

theorem select_life {srv : Nat} (h : s.select t srv c = some (e, s₁)) : s.SameLife s₁ := by
  unfold select at h
  split at h
  · split at h <;> cases h
    exact .refl s
  · split at h <;> cases h
    exact .refl s
  · obtain ⟨err, -, he⟩ := Option.map_eq_some_iff.1 h
    cases he
    exact sameLife_redcon _ _ id (by simp)

theorem step_life (ha : a.Plain) (h : s.step t c a = some (b, s₁)) : s.SameLife s₁ := by
  cases a with
  | lock m =>
    cases m with
    | lifecycleMu => exact ha.elim
    | mu =>
      simp only [step] at h
      split at h <;> cases h
      exact ⟨rfl, rfl, rfl, rfl, id, id, fun _ => id, fun _ => id⟩
  | unlock m =>
    cases m with
    | lifecycleMu => exact ha.elim
    | mu =>
      simp only [step] at h
      split at h <;> cases h
      exact ⟨rfl, rfl, rfl, rfl, id, id, fun _ => id, fun _ => id⟩
  | drainingSwap =>
    cases h
    exact sameLife_drain _ fun _ => rfl
  | activeAdd delta =>
    cases h
    exact sameLife_drain _ id
  | track conn =>
    cases h
    exact sameLife_drain _ fun hd => (s.drain.track_frame conn).1.trans hd
  | untrack conn =>
    cases h
    exact sameLife_drain _ fun hd => (s.drain.untrack_frame conn).1.trans hd
  | takeBatch =>
    cases h
    exact sameLife_drain _ fun hd => (s.drain.takeBatch_same 128).draining.trans hd
  | onceClose ch =>
    cases h
    split
    · exact ⟨rfl, rfl, rfl, rfl, id, id, fun _ => id, fun _ => id⟩
    · exact .refl s
  | setProxyActive active =>
    cases active with
    | true => exact ha.elim
    | false =>
      cases h
      exact ⟨rfl, rfl, rfl, rfl, fun _ => rfl, id, fun _ => id, fun _ => id⟩
  | listen server =>
    cases h
    exact sameLife_redcon _ _ (fun he => by simp [he]) id
  | serve server =>
    cases h
    exact sameLife_redcon _ _ (fun _ => rfl) id
  | listenSignal server =>
    obtain ⟨_, -, he⟩ := Option.map_eq_some_iff.1 h
    cases he
    exact sameLife_redcon _ _ id id
  | receiveDone server =>
    obtain ⟨_, -, he⟩ := Option.map_eq_some_iff.1 h
    cases he
    exact sameLife_redcon _ _ id (by simp)
  | pollDone server =>
    cases h
    exact sameLife_redcon _ _ id (by simp)
  | select server => exact select_life h
  | waitDrain deadline =>
    obtain ⟨_, -, he⟩ := Option.map_eq_some_iff.1 h
    cases he
    exact .refl s
  | call call timeout =>
    obtain ⟨_, -, he⟩ := Option.map_eq_some_iff.1 h
    cases he
    exact .refl s
  | store _ _ => exact ha.elim
  | setServer _ => exact ha.elim
  | sendDone _ _ => exact ha.elim
  | serverClose _ => exact ha.elim
  | panic _ => cases h
  | _ =>
    cases h
    exact ⟨rfl, rfl, rfl, rfl, id, id, fun _ => id, fun _ => id⟩

end World

namespace Life

variable {s s' s₁ : World} {t u : Nat} {a : Action} {b : a.Resp} {c : Choice}

structure Rely (t : Nat) (s s' : World) : Prop where
  role : s'.role t = s.role t
  owns : s'.mutex .lifecycleMu = some t ↔ s.mutex .lifecycleMu = some t
  draining : s.drain.draining = true → s'.drain.draining = true
  listenerClosed : s.flags .listenerClosed = true → s'.flags .listenerClosed = true
  server : ∀ v, s.server = some v → s'.server = some v
  exited : ∀ u, (s.redcon u).exited = true → (s'.redcon u).exited = true
  owned : s.mutex .lifecycleMu = some t →
    s'.flags = s.flags ∧ s'.server = s.server ∧ (s.proxyActive = false → s'.proxyActive = false)
  starter : (s.role t).proceeded = true →
    s'.flags .listenerReady = s.flags .listenerReady ∧ s'.flags .finished = s.flags .finished
  left : s.left = true → s'.left = true

theorem Rely.refl (t : Nat) (s : World) : Rely t s s :=
  ⟨rfl, Iff.rfl, id, id, fun _ => id, fun _ => id, fun _ => ⟨rfl, rfl, id⟩, fun _ => ⟨rfl, rfl⟩, id⟩

theorem Rely.trans (h₁ : Rely t s s₁) (h₂ : Rely t s₁ s') : Rely t s s' where
  role := h₂.role.trans h₁.role
  owns := h₂.owns.trans h₁.owns
  draining := fun h => h₂.draining (h₁.draining h)
  listenerClosed := fun h => h₂.listenerClosed (h₁.listenerClosed h)
  server := fun v h => h₂.server v (h₁.server v h)
  exited := fun u h => h₂.exited u (h₁.exited u h)
  owned := by
    intro ho
    obtain ⟨hf, hs, hp⟩ := h₁.owned ho
    obtain ⟨hf', hs', hp'⟩ := h₂.owned (h₁.owns.2 ho)
    exact ⟨hf'.trans hf, hs'.trans hs, fun h => hp' (hp h)⟩
  starter := by
    intro hp
    obtain ⟨hr, hf⟩ := h₁.starter hp
    obtain ⟨hr', hf'⟩ := h₂.starter (by rw [h₁.role]; exact hp)
    exact ⟨hr'.trans hr, hf'.trans hf⟩
  left := fun h => h₂.left (h₁.left h)

/-- The invariant of the lifecycle. At most one `Start` proceeds; after a `Close` has left its
locked section nothing is let in; whoever has claimed the listener has closed it or is about to,
and is the only one. -/
structure Base (s : World) : Prop where
  started : ∀ t, (s.role t).proceeded = true → s.flags .started = true
  starter : ∀ t, (s.role t).proceeded = true → (s.role t).job = some .start
  ready : ∀ t, (s.role t).ready = true → (s.role t).proceeded = true
  closer : ∀ t, (s.role t).mustClose = true →
    (s.role t).proceeded = true ∨ (s.role t).job = some .close
  single : ∀ t u, (s.role t).proceeded = true → (s.role u).proceeded = true → t = u
  server : s.flags .started = false → s.server = none ∧ s.flags .finished = false
  left : s.left = true →
    s.flags .closing = true ∧ s.drain.draining = true ∧ s.proxyActive = false
  done : ∀ u, (s.redcon u).done ≠ none → (s.redcon u).exited = true
  unclaimed : s.flags .listenerClosed = false → s.closed = [] ∧ ∀ t, (s.role t).mustClose = false
  claimed : s.flags .listenerClosed = true →
    (∃ t, (s.role t).mustClose = true) ∨ ∃ v, s.server = some v ∧ s.closed = [v]
  sole : ∀ t u, (s.role t).mustClose = true → (s.role u).mustClose = true → t = u
  pending : ∀ t, (s.role t).mustClose = true → s.closed = []

def Pre (t : Nat) (a : Action) (s : World) : Prop :=
  match a with
  | .unlock .lifecycleMu => (s.role t).job = some .close →
    s.flags .closing = true ∧ s.drain.draining = true ∧ s.proxyActive = false
  | .store .started b => s.mutex .lifecycleMu = some t ∧ b = true ∧ s.flags .started = false ∧
    (s.role t).job = some .start
  | .store .closing b => s.mutex .lifecycleMu = some t ∧ b = true
  | .store .listenerReady _ => s.mutex .lifecycleMu = some t ∧ (s.role t).proceeded = true
  | .store .listenerClosed b =>
    s.mutex .lifecycleMu = some t ∧ b = true ∧ s.flags .listenerClosed = false ∧
      ((s.role t).proceeded = true ∨ (s.role t).job = some .close)
  | .store .finished _ => s.mutex .lifecycleMu = some t ∧ (s.role t).proceeded = true
  | .setServer _ => s.mutex .lifecycleMu = some t ∧ (s.role t).proceeded = true ∧ s.server = none
  | .setProxyActive true => s.mutex .lifecycleMu = some t ∧ s.flags .closing = false
  | .sendDone v _ => (s.redcon v).exited = true
  | .serverClose v => (s.role t).mustClose = true ∧ s.server = some v
  | .note (.job _) => s.role t = {}
  | _ => True

def Keeps (t : Nat) (s s' : World) : Prop := Base s' ∧ ∀ u, u ≠ t → Rely u s s'

theorem Base.of_same (h : Base s) (hflags : s'.flags = s.flags) (hserver : s'.server = s.server)
    (hclosed : s'.closed = s.closed) (hrole : ∀ u, s'.role u = s.role u)
    (hleft : s'.left = true →
      s.flags .closing = true ∧ s'.drain.draining = true ∧ s'.proxyActive = false)
    (hdone : ∀ u, (s'.redcon u).done ≠ none → (s'.redcon u).exited = true) : Base s' where
  started := by
    simp only [hrole, hflags]
    exact h.started
  starter := by
    simp only [hrole]
    exact h.starter
  ready := by
    simp only [hrole]
    exact h.ready
  closer := by
    simp only [hrole]
    exact h.closer
  single := by
    simp only [hrole]
    exact h.single
  server := by
    rw [hflags, hserver]
    exact h.server
  left := by
    rw [hflags]
    exact hleft
  done := hdone
  unclaimed := by
    simp only [hflags, hclosed, hrole]
    exact h.unclaimed
  claimed := by
    simp only [hflags, hserver, hclosed, hrole]
    exact h.claimed
  sole := by
    simp only [hrole]
    exact h.sole
  pending := by
    simp only [hrole, hclosed]
    exact h.pending

theorem roles_kept (he : World.exec t a c s = some (b, s'))
    (hr : ((s.trace t).record s a b).role = s.role t) (u : Nat) : s'.role u = s.role u := by
  by_cases hu : u = t
  · rw [hu, World.exec_role he, hr]
  · exact World.exec_role_of_ne he hu

theorem left_mono (he : World.exec t a c s = some (b, s')) (h : s.left = true) :
    s'.left = true := by
  obtain ⟨s₁, -, rfl⟩ := World.exec_eq he
  simp [h]

theorem plain_roles (ha : a.Plain) (he : World.exec t a c s = some (b, s')) (u : Nat) :
    s'.role u = s.role u :=
  roles_kept he (Trace.record_role ha _ _ _) u

theorem plain_life (ha : a.Plain) (he : World.exec t a c s = some (b, s')) :
    s.SameLife s' ∧ s'.left = s.left := by
  obtain ⟨s₁, hs, rfl⟩ := World.exec_eq he
  have h := World.step_life ha hs
  refine ⟨⟨h.mu, h.flags, h.server, h.closed, h.proxyActive, h.draining, h.exited, h.done⟩, ?_⟩
  have hleaves : a.leaves (s.trace t) = false := by
    cases a with
    | unlock m => cases m <;> first | rfl | exact ha.elim
    | _ => rfl
  simp [hleaves]

theorem Rely.of_same (h : s.SameLife s') (hrole : s'.role u = s.role u) (hleft : s'.left = s.left) :
    Rely u s s' where
  role := hrole
  owns := by rw [h.mu]
  draining := h.draining
  listenerClosed := by
    rw [h.flags]
    exact id
  server := by
    rw [h.server]
    exact fun _ => id
  exited := h.exited
  owned := fun _ => ⟨h.flags, h.server, h.proxyActive⟩
  starter := fun _ => ⟨congrFun h.flags _, congrFun h.flags _⟩
  left := by
    rw [hleft]
    exact id

theorem rely_of_plain (ha : a.Plain) (he : World.exec t a c s = some (b, s')) (u : Nat) :
    Rely u s s' :=
  .of_same (plain_life ha he).1 (plain_roles ha he u) (plain_life ha he).2

theorem Base.of_life (h : Base s) (hl : s.SameLife s') (hrole : ∀ u, s'.role u = s.role u)
    (hleft : s'.left = s.left) : Base s' := by
  refine h.of_same hl.flags hl.server hl.closed hrole (fun hl' => ?_)
    fun u hu => hl.exited u (h.done u (hl.done u hu))
  obtain ⟨hc, hd, hp⟩ := h.left (hleft.symm.trans hl')
  exact ⟨hc, hl.draining hd, hl.proxyActive hp⟩

theorem Base.plain (h : Base s) (he : World.exec t a c s = some (b, s')) (ha : a.Plain) :
    Keeps t s s' :=
  ⟨h.of_life (plain_life ha he).1 (plain_roles ha he) (plain_life ha he).2,
    fun u _ => rely_of_plain ha he u⟩

theorem Base.lock {b : Unit} (h : Base s)
    (he : World.exec t (.lock .lifecycleMu) c s = some (b, s')) : Keeps t s s' := by
  have hrole := roles_kept he rfl
  have hmono := left_mono he
  obtain ⟨s₁, hs, rfl⟩ := World.exec_eq he
  simp only [World.step] at hs
  split at hs
  · rename_i hfree
    cases hs
    refine ⟨h.of_same rfl rfl rfl hrole ?_ h.done,
      fun u hu => ⟨hrole u, by simp [hfree, Ne.symm hu], id, id, fun _ => id, fun _ => id,
        fun _ => ⟨rfl, rfl, id⟩, fun _ => ⟨rfl, rfl⟩, hmono⟩⟩
    simpa [Action.leaves] using h.left
  · cases hs

theorem Base.unlock {b : Unit} (h : Base s) (hp : Pre t (.unlock .lifecycleMu) s)
    (he : World.exec t (.unlock .lifecycleMu) c s = some (b, s')) : Keeps t s s' := by
  have hrole := roles_kept he rfl
  have hmono := left_mono he
  obtain ⟨s₁, hs, rfl⟩ := World.exec_eq he
  simp only [World.step] at hs
  split at hs
  · rename_i hown
    cases hs
    refine ⟨h.of_same rfl rfl rfl hrole ?_ h.done,
      fun u hu => ⟨hrole u, by simp [hown, Ne.symm hu], id, id, fun _ => id, fun _ => id,
        fun _ => ⟨rfl, rfl, id⟩, fun _ => ⟨rfl, rfl⟩, hmono⟩⟩
    intro hl
    rcases Bool.or_eq_true_iff.1 hl with hl | hl
    · exact h.left hl
    · exact hp (Action.job_of_leaves hl)
  · cases hs

theorem Rely.of_owner (hu : u ≠ t) (ho : s.mutex .lifecycleMu = some t)
    (hrole : s'.role u = s.role u) (hmu : s'.mutex = s.mutex)
    (hdrain : s'.drain = s.drain) (hredcon : ∀ v, s'.redcon v = s.redcon v)
    (hclosed : s.flags .listenerClosed = true → s'.flags .listenerClosed = true)
    (hserver : ∀ v, s.server = some v → s'.server = some v)
    (hstarter : (s.role u).proceeded = true → s'.flags .listenerReady = s.flags .listenerReady ∧
      s'.flags .finished = s.flags .finished)
    (hleft : s.left = true → s'.left = true) : Rely u s s' where
  role := hrole
  owns := by rw [hmu]
  draining := by
    rw [hdrain]
    exact id
  listenerClosed := hclosed
  server := hserver
  exited := by
    simp only [hredcon]
    exact fun _ => id
  owned := fun ho' => absurd (Option.some.inj (ho'.symm.trans ho)) hu
  starter := hstarter
  left := hleft

structure Stores (t : Nat) (f : Flag) (v : Bool) (s s' : World) : Prop where
  mine : s'.role t = (s.role t).store f v
  others : ∀ u, u ≠ t → s'.role u = s.role u
  flag : s'.flags f = v
  flags : ∀ f', f' ≠ f → s'.flags f' = s.flags f'
  mutex : s'.mutex = s.mutex
  server : s'.server = s.server
  closed : s'.closed = s.closed
  proxyActive : s'.proxyActive = s.proxyActive
  drain : s'.drain = s.drain
  redcon : ∀ u, s'.redcon u = s.redcon u
  left : s'.left = s.left

theorem stores {b : Unit} (he : World.exec t (.store f v) c s = some (b, s')) :
    Stores t f v s s' := by
  have hmine : s'.role t = (s.role t).store f v := (World.exec_role he).trans (by cases f <;> rfl)
  have hothers := fun u (hu : u ≠ t) => World.exec_role_of_ne he hu
  obtain ⟨s₁, hs, rfl⟩ := World.exec_eq he
  cases hs
  exact ⟨hmine, hothers, by simp, fun f' hf => by simp [hf], rfl, rfl, rfl, rfl, rfl,
    fun _ => rfl, by simp [Action.leaves]⟩

/-- A store by the holder of the mutex. The others only see that the listener was not reopened
and that `Start` alone takes back what it has said of its listener. -/
theorem Stores.rely (hs : Stores t f v s s') (ho : s.mutex .lifecycleMu = some t)
    (hclosed : f = .listenerClosed → v = true)
    (hstarter : f = .listenerReady ∨ f = .finished →
      ∀ u, u ≠ t → (s.role u).proceeded = false) (u : Nat) (hu : u ≠ t) : Rely u s s' := by
  refine .of_owner hu ho (hs.others u hu) hs.mutex hs.drain hs.redcon ?_ ?_ ?_ ?_
  · have := hs.flag
    have := hs.flags .listenerClosed
    grind
  · rw [hs.server]
    exact fun _ => id
  · have := hs.flags .listenerReady
    have := hs.flags .finished
    grind
  · rw [hs.left]
    exact id

theorem Base.single_of_proceeded (h : Base s) (hp : (s.role t).proceeded = true) (hu : u ≠ t) :
    (s.role u).proceeded = false :=
  Bool.eq_false_iff.2 fun hq => hu (h.single u t hq hp)

theorem Base.storeStarted (h : Base s) (hp : Pre t (.store .started v) s)
    (hs : Stores t .started v s s') : Keeps t s s' := by
  obtain ⟨ho, rfl, hfirst, hjob⟩ := hp
  refine ⟨?_, hs.rely ho nofun nofun⟩
  have hmine : s'.role t = { s.role t with proceeded := true } := hs.mine
  have hback := fun u hu => (hs.others u hu).symm
  cases hs
  cases h
  constructor <;> grind

theorem Base.storeClosing (h : Base s) (hp : Pre t (.store .closing v) s)
    (hs : Stores t .closing v s s') : Keeps t s s' := by
  obtain ⟨ho, rfl⟩ := hp
  refine ⟨?_, hs.rely ho nofun nofun⟩
  have hmine : s'.role t = s.role t := hs.mine
  have hback := fun u hu => (hs.others u hu).symm
  cases hs
  cases h
  constructor <;> grind

theorem Base.storeListenerReady (h : Base s) (hp : Pre t (.store .listenerReady v) s)
    (hs : Stores t .listenerReady v s s') : Keeps t s s' := by
  obtain ⟨ho, hproceeded⟩ := hp
  refine ⟨?_, hs.rely ho nofun fun _ _ => h.single_of_proceeded hproceeded⟩
  have hmine : s'.role t = { s.role t with ready := (s.role t).ready || v } := hs.mine
  have hback := fun u hu => (hs.others u hu).symm
  cases hs
  cases h
  constructor <;> grind

theorem Base.storeListenerClosed (h : Base s) (hp : Pre t (.store .listenerClosed v) s)
    (hs : Stores t .listenerClosed v s s') : Keeps t s s' := by
  obtain ⟨ho, rfl, hopen, hrole⟩ := hp
  refine ⟨?_, hs.rely ho (fun _ => rfl) nofun⟩
  have hmine : s'.role t = { s.role t with mustClose := true } := hs.mine
  have hback := fun u hu => (hs.others u hu).symm
  obtain ⟨hempty, hnone⟩ := h.unclaimed hopen
  cases hs
  cases h
  constructor <;> grind

theorem Base.storeFinished (h : Base s) (hp : Pre t (.store .finished v) s)
    (hs : Stores t .finished v s s') : Keeps t s s' := by
  obtain ⟨ho, hproceeded⟩ := hp
  refine ⟨?_, hs.rely ho nofun fun _ _ => h.single_of_proceeded hproceeded⟩
  have hmine : s'.role t = s.role t := hs.mine
  have hback := fun u hu => (hs.others u hu).symm
  cases hs
  cases h
  constructor <;> grind

theorem Base.job {job : Job} {b : Unit} (h : Base s) (hp : s.role t = {})
    (he : World.exec t (.note (.job job)) c s = some (b, s')) : Keeps t s s' := by
  have hmine : s'.role t = { s.role t with job := some job } := World.exec_role he
  have hothers := fun u (hu : u ≠ t) => World.exec_role_of_ne he hu
  obtain ⟨hl, hleft⟩ : s.SameLife s' ∧ s'.left = s.left := by
    obtain ⟨s₁, hs, rfl⟩ := World.exec_eq he
    cases hs
    exact ⟨⟨rfl, rfl, rfl, rfl, id, id, fun _ => id, fun _ => id⟩, by simp [Action.leaves]⟩
  refine ⟨?_, fun u hu => .of_same hl (hothers u hu) hleft⟩
  have hback := fun u hu => (hothers u hu).symm
  obtain ⟨-, hflags, hserver, hclosed, hactive, hdrain, hexited, hdone⟩ := hl
  cases h
  constructor <;> grind

theorem Base.setServer {v : Nat} {b : Unit} (h : Base s) (hp : Pre t (.setServer v) s)
    (he : World.exec t (.setServer v) c s = some (b, s')) : Keeps t s s' := by
  obtain ⟨ho, hproceeded, hnone⟩ := hp
  have hrole := roles_kept he rfl
  have hmono := left_mono he
  have hstarted := h.started t hproceeded
  obtain ⟨s₁, hs, rfl⟩ := World.exec_eq he
  cases hs
  refine ⟨⟨?_, ?_, ?_, ?_, ?_, ?_, ?_, h.done, ?_, ?_, ?_, ?_⟩, fun u hu =>
    .of_owner hu ho (hrole u) rfl rfl (fun _ => rfl) id ?_ (fun _ => ⟨rfl, rfl⟩) hmono⟩
  all_goals simp only [hrole]
  · exact h.started
  · exact h.starter
  · exact h.ready
  · exact h.closer
  · exact h.single
  · exact fun hf => absurd (hstarted.symm.trans hf) nofun
  · simpa [Action.leaves] using h.left
  · exact h.unclaimed
  · intro hc
    rcases h.claimed hc with hc | ⟨w, hw, -⟩
    · exact .inl hc
    · exact absurd (hnone.symm.trans hw) nofun
  · exact h.sole
  · exact h.pending
  · exact fun w hw => absurd (hnone.symm.trans hw) nofun

theorem Base.activate {b : Unit} (h : Base s) (hp : Pre t (.setProxyActive true) s)
    (he : World.exec t (.setProxyActive true) c s = some (b, s')) : Keeps t s s' := by
  obtain ⟨ho, hclosing⟩ := hp
  have hrole := roles_kept he rfl
  have hmono := left_mono he
  obtain ⟨s₁, hs, rfl⟩ := World.exec_eq he
  cases hs
  refine ⟨h.of_same rfl rfl rfl hrole (fun hleft => ?_) h.done, fun u hu =>
    .of_owner hu ho (hrole u) rfl rfl (fun _ => rfl) id (fun _ => id) (fun _ => ⟨rfl, rfl⟩) hmono⟩
  have hleft' : s.left = true := by simpa [Action.leaves] using hleft
  exact absurd (hclosing.symm.trans (h.left hleft').1) nofun

theorem Base.sendDone {v : Nat} {b : Unit} (h : Base s) (hp : (s.redcon v).exited = true)
    (he : World.exec t (.sendDone v err) c s = some (b, s')) : Keeps t s s' := by
  have hrole := roles_kept he rfl
  have hmono := left_mono he
  obtain ⟨s₁, hs, rfl⟩ := World.exec_eq he
  cases hs
  have hexited : ∀ u, (s.redcon u).exited = true → ((Function.update s.redcon v
      { s.redcon v with done := some err }) u).exited = true := by
    intro u hu
    by_cases huv : u = v
    · subst huv
      simpa using hu
    · simpa [huv] using hu
  refine ⟨h.of_same rfl rfl rfl hrole ?_ fun u hu => hexited u ?_, fun u hu =>
    ⟨hrole u, Iff.rfl, id, id, fun _ => id, hexited, fun _ => ⟨rfl, rfl, id⟩, fun _ => ⟨rfl, rfl⟩,
      hmono⟩⟩
  · simpa [Action.leaves, World.setRedcon] using h.left
  · by_cases huv : u = v
    · rw [huv]
      exact hp
    · exact h.done u (by simpa [World.setRedcon, huv] using hu)

theorem Base.serverClose {v : Nat} {b : Option CloseError} (h : Base s)
    (hp : Pre t (.serverClose v) s) (he : World.exec t (.serverClose v) c s = some (b, s')) :
    Keeps t s s' := by
  obtain ⟨hmust, hserver⟩ := hp
  have hmine : s'.role t = { s.role t with mustClose := false } := World.exec_role he
  have hothers := fun u (hu : u ≠ t) => World.exec_role_of_ne he hu
  have hnone : ∀ u, (s'.role u).mustClose = false := by
    intro u
    by_cases hu : u = t
    · rw [hu, hmine]
    · rw [hothers u hu]
      exact Bool.eq_false_iff.2 fun hq => hu (h.sole u t hq hmust)
  have hclaimed : s.flags .listenerClosed = true := by
    by_contra hf
    have := (h.unclaimed (by simpa using hf)).2 t
    exact absurd (hmust.symm.trans this) nofun
  have hempty := h.pending t hmust
  obtain ⟨hl, hclosed, hleft⟩ : s.SameLife { s' with closed := s.closed } ∧
      s'.closed = v :: s.closed ∧ s'.left = s.left := by
    obtain ⟨s₁, hs, rfl⟩ := World.exec_eq he
    cases hs
    exact ⟨⟨rfl, rfl, rfl, rfl, id, id, fun _ => id, fun _ => id⟩, rfl, by simp [Action.leaves]⟩
  refine ⟨?_, fun u hu => ?_⟩
  · obtain ⟨-, hflags, hserver', -, hactive, hdrain, hexited, hdone⟩ := hl
    cases h
    constructor <;> grind
  · have hrely : Rely u s { s' with closed := s.closed } := .of_same hl (hothers u hu) hleft
    exact ⟨hrely.role, hrely.owns, hrely.draining, hrely.listenerClosed, hrely.server,
      hrely.exited, hrely.owned, hrely.starter, hrely.left⟩

theorem Base.act (h : Base s) (hp : Pre t a s) (he : World.exec t a c s = some (b, s')) :
    Keeps t s s' := by
  by_cases ha : a.Plain
  · exact h.plain he ha
  · cases a with
    | lock m =>
      cases m with
      | mu => exact absurd trivial ha
      | lifecycleMu => exact h.lock he
    | unlock m =>
      cases m with
      | mu => exact absurd trivial ha
      | lifecycleMu => exact h.unlock hp he
    | store f v =>
      cases f with
      | started => exact h.storeStarted hp (stores he)
      | closing => exact h.storeClosing hp (stores he)
      | listenerReady => exact h.storeListenerReady hp (stores he)
      | listenerClosed => exact h.storeListenerClosed hp (stores he)
      | finished => exact h.storeFinished hp (stores he)
    | setServer v => exact h.setServer hp he
    | setProxyActive v =>
      cases v with
      | true => exact h.activate hp he
      | false => exact absurd trivial ha
    | sendDone v err => exact h.sendDone hp he
    | serverClose v => exact h.serverClose hp he
    | note n =>
      cases n with
      | job job => exact h.job hp he
      | enter => exact absurd trivial ha
      | leave => exact absurd trivial ha
    | _ => exact absurd trivial ha

theorem Base.env {e : Env} (h : Base s) (he : s.env e = some s') : Base s' ∧ ∀ u, Rely u s s' := by
  have hrole : ∀ u, s'.role u = s.role u := by
    rw [Drain.env_eq he]
    exact fun _ => rfl
  have hl : s.SameLife s' := by
    rw [Drain.env_eq he]
    exact ⟨rfl, rfl, rfl, rfl, id, id, fun _ => id, fun _ => id⟩
  have hleft : s'.left = s.left := by rw [Drain.env_eq he]
  exact ⟨h.of_life hl hrole hleft, fun u => .of_same hl (hrole u) hleft⟩

end Life
end Slizen.Proxy
