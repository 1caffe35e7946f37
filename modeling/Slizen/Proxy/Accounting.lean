import Slizen.Interleaving.Totals
import Slizen.Interleaving.Outline
import Slizen.Proxy.Lifecycle

namespace Slizen.Proxy
set_option autoImplicit true

open Interleaving

/-- What the drain accounting knows of a goroutine. -/
structure Share where
  phase : Phase
  duty : Bool
  calling : Bool

def Trace.share (tr : Trace) : Share := ⟨tr.phase, tr.duty, tr.calling⟩

def Phase.weight : Phase → Int
  | .idle => 0
  | _ => 1

theorem Phase.weight_nonneg (ph : Phase) : 0 ≤ ph.weight := by
  cases ph <;> decide

theorem Phase.weight_pos {ph : Phase} (h : ph ≠ .idle) : ph.weight = 1 := by
  cases ph <;> first | rfl | exact absurd rfl h

namespace DrainTracker

variable {d : DrainTracker}

structure SameCounts (d d' : DrainTracker) : Prop where
  draining : d'.draining = d.draining
  active : d'.active = d.active
  connections : d'.connections = d.connections

theorem removePendingLocked_same (d : DrainTracker) (node : Nat) :
    d.SameCounts (d.removePendingLocked node) := by
  unfold removePendingLocked
  split
  · exact ⟨rfl, rfl, rfl⟩
  · split
    · dsimp only
      split <;> split <;> exact ⟨rfl, rfl, rfl⟩
    · exact ⟨rfl, rfl, rfl⟩

theorem takeBatch_same (room : Nat) (d : DrainTracker) : d.SameCounts (d.takeBatch room).2 := by
  induction room generalizing d with
  | zero => exact ⟨rfl, rfl, rfl⟩
  | succ room ih =>
    unfold takeBatch
    split
    · exact ⟨rfl, rfl, rfl⟩
    · rename_i node _ _
      have h₁ := d.removePendingLocked_same node
      have h₂ := ih (d.removePendingLocked node)
      exact ⟨h₂.draining.trans h₁.draining, h₂.active.trans h₁.active,
        h₂.connections.trans h₁.connections⟩

theorem track_frame (d : DrainTracker) (conn : Conn) :
    (d.track conn).draining = d.draining ∧ (d.track conn).active = d.active := by
  unfold track
  dsimp only
  split <;> exact ⟨rfl, rfl⟩

theorem untrack_frame (d : DrainTracker) (conn : Conn) :
    (d.untrack conn).draining = d.draining ∧ (d.untrack conn).active = d.active := by
  unfold untrack
  dsimp only
  split
  · have h := d.removePendingLocked_same
    exact ⟨(h _).draining, (h _).active⟩
  · exact ⟨rfl, rfl⟩

end DrainTracker

/-- Actions that neither change nor find out anything about the accounting. -/
def Action.Neutral : Action → Prop
  | .lock .mu => False
  | .unlock .mu => False
  | .drainingLoad => False
  | .drainingSwap => False
  | .activeAdd _ => False
  | .activeLoad => False
  | .connectionsLen => False
  | .track _ => False
  | .untrack _ => False
  | .closeChannel .started => False
  | .closeChannel .drained => False
  | .onceClose .started => False
  | .onceClose .drained => False
  | .note .enter => False
  | .note .leave => False
  | .panic _ => False
  | _ => True

namespace World

abbrev share (s : World) (t : Nat) : Share := (s.trace t).share

variable {s s' s₁ : World} {t : Nat} {a : Action} {b : a.Resp} {c : Choice}

theorem exec_eq (h : exec t a c s = some (b, s')) : ∃ s₁, s.step t c a = some (b, s₁) ∧
    s' = { s₁ with
      trace := Function.update s.trace t
        { (s.trace t).record s a b with acts := (s.trace t).acts ++ [⟨a, b⟩] }
      left := s.left || a.leaves (s.trace t)
      admissions := s.admissions + (a.admits (s.trace t) b).toNat
      acceptances := s.acceptances + a.accepts.toNat } := by
  obtain ⟨⟨b₁, s₁⟩, hs, he⟩ := Option.map_eq_some_iff.1 h
  cases he
  exact ⟨s₁, hs, rfl⟩

theorem exec_trace (h : exec t a c s = some (b, s')) : s'.trace t =
    { (s.trace t).record s a b with acts := (s.trace t).acts ++ [⟨a, b⟩] } := by
  obtain ⟨s₁, -, rfl⟩ := exec_eq h
  exact Function.update_self ..

theorem exec_trace_of_ne (h : exec t a c s = some (b, s')) (hu : u ≠ t) :
    s'.trace u = s.trace u := by
  obtain ⟨s₁, -, rfl⟩ := exec_eq h
  exact Function.update_of_ne hu ..

theorem exec_share (h : exec t a c s = some (b, s')) :
    s'.share t = ((s.trace t).record s a b).share := by
  rw [share, exec_trace h]
  rfl

theorem exec_share_of_ne (h : exec t a c s = some (b, s')) (hu : u ≠ t) : s'.share u = s.share u :=
  congrArg Trace.share (exec_trace_of_ne h hu)

theorem exec_shares (h : exec t a c s = some (b, s'))
    (hr : ((s.trace t).record s a b).share = s.share t) (u : Nat) : s'.share u = s.share u := by
  by_cases hu : u = t
  · rw [hu, exec_share h, hr]
  · exact exec_share_of_ne h hu

structure SameDrain (s s' : World) : Prop where
  drain : s.drain.SameCounts s'.drain
  mu : s'.mutex .mu = s.mutex .mu
  started : s'.channels .started = s.channels .started
  drained : s'.channels .drained = s.channels .drained

theorem SameDrain.refl (s : World) : s.SameDrain s := ⟨⟨rfl, rfl, rfl⟩, rfl, rfl, rfl⟩

theorem select_same {srv : Nat} (h : s.select t srv c = some (e, s₁)) : s.SameDrain s₁ := by
  unfold select at h
  split at h
  · split at h <;> cases h
    exact .refl s
  · split at h <;> cases h
    exact .refl s
  · obtain ⟨err, -, he⟩ := Option.map_eq_some_iff.1 h
    cases he
    exact ⟨⟨rfl, rfl, rfl⟩, rfl, rfl, rfl⟩

theorem step_same (ha : a.Neutral) (h : s.step t c a = some (b, s₁)) : s.SameDrain s₁ := by
  cases a with
  | lock m =>
    cases m with
    | mu => exact ha.elim
    | lifecycleMu =>
      simp only [step] at h
      split at h <;> cases h
      exact ⟨⟨rfl, rfl, rfl⟩, rfl, rfl, rfl⟩
  | unlock m =>
    cases m with
    | mu => exact ha.elim
    | lifecycleMu =>
      simp only [step] at h
      split at h <;> cases h
      exact ⟨⟨rfl, rfl, rfl⟩, rfl, rfl, rfl⟩
  | takeBatch =>
    cases h
    exact ⟨s.drain.takeBatch_same 128, rfl, rfl, rfl⟩
  | closeChannel ch =>
    cases h
    cases ch with
    | started => exact ha.elim
    | drained => exact ha.elim
    | _ =>
      exact ⟨⟨rfl, rfl, rfl⟩, rfl, rfl, rfl⟩
  | onceClose ch =>
    cases h
    cases ch with
    | started => exact ha.elim
    | drained => exact ha.elim
    | _ =>
      split
      · exact ⟨⟨rfl, rfl, rfl⟩, rfl, rfl, rfl⟩
      · exact .refl s
  | select server => exact select_same h
  | waitDrain deadline =>
    obtain ⟨_, -, he⟩ := Option.map_eq_some_iff.1 h
    cases he
    exact .refl s
  | listenSignal server =>
    obtain ⟨_, -, he⟩ := Option.map_eq_some_iff.1 h
    cases he
    exact ⟨⟨rfl, rfl, rfl⟩, rfl, rfl, rfl⟩
  | receiveDone server =>
    obtain ⟨_, -, he⟩ := Option.map_eq_some_iff.1 h
    cases he
    exact ⟨⟨rfl, rfl, rfl⟩, rfl, rfl, rfl⟩
  | call call timeout =>
    obtain ⟨_, -, he⟩ := Option.map_eq_some_iff.1 h
    cases he
    exact .refl s
  | drainingLoad => exact ha.elim
  | drainingSwap => exact ha.elim
  | activeAdd _ => exact ha.elim
  | activeLoad => exact ha.elim
  | connectionsLen => exact ha.elim
  | track _ => exact ha.elim
  | untrack _ => exact ha.elim
  | panic _ => exact ha.elim
  | _ =>
    cases h
    exact ⟨⟨rfl, rfl, rfl⟩, rfl, rfl, rfl⟩

end World

theorem Trace.record_share {a : Action} (ha : a.Neutral) (tr : Trace) (s : World) (b : a.Resp) :
    (tr.record s a b).share = tr.share := by
  cases a with
  | note n => cases n <;> first | rfl | exact ha.elim
  | store f v => cases f <;> rfl
  | onceClose ch => cases ch <;> first | rfl | exact ha.elim
  | drainingLoad => exact ha.elim
  | drainingSwap => exact ha.elim
  | activeAdd _ => exact ha.elim
  | activeLoad => exact ha.elim
  | connectionsLen => exact ha.elim
  | untrack _ => exact ha.elim
  | _ => rfl

namespace Drain

variable {s s' s₁ : World} {t u : Nat} {a : Action} {b : a.Resp} {c : Choice}

def NoneAdmitted (s : World) : Prop := ∀ u, (s.share u).phase ≠ .admitted

/-- What the other goroutines do to the accounting between two actions of `t`. -/
structure Rely (t : Nat) (s s' : World) : Prop where
  share : s'.share t = s.share t
  owns : s'.mutex .mu = some t ↔ s.mutex .mu = some t
  draining : s.drain.draining = true → s'.drain.draining = true
  settled : s.drain.draining = true → NoneAdmitted s → NoneAdmitted s'
  guarded : s.mutex .mu = some t → s'.drain.draining = s.drain.draining ∧
    s'.drain.connections = s.drain.connections ∧ s'.channels .started = s.channels .started

theorem Rely.refl (t : Nat) (s : World) : Rely t s s :=
  ⟨rfl, Iff.rfl, id, fun _ h => h, fun _ => ⟨rfl, rfl, rfl⟩⟩

theorem Rely.trans (h₁ : Rely t s s₁) (h₂ : Rely t s₁ s') : Rely t s s' where
  share := h₂.share.trans h₁.share
  owns := h₂.owns.trans h₁.owns
  draining := fun h => h₂.draining (h₁.draining h)
  settled := fun h hn => h₂.settled (h₁.draining h) (h₁.settled h hn)
  guarded := by
    intro ho
    obtain ⟨hd, hc, hs⟩ := h₁.guarded ho
    obtain ⟨hd', hc', hs'⟩ := h₂.guarded (h₁.owns.2 ho)
    exact ⟨hd'.trans hd, hc'.trans hc, hs'.trans hs⟩

structure Empty (s : World) : Prop where
  draining : s.drain.draining = true
  active : s.drain.active = 0
  connections : s.drain.connections.keys = []

/-- The invariant of the accounting. `active` counts the goroutines that have reserved or got a
handler; the channels are closed in order and once; a tracker that could signal and has not is
somebody's duty. -/
structure Base (s : World) : Prop where
  balance : Balance (fun u => (s.share u).phase.weight) s.drain.active
  unstarted : s.drain.draining = false → s.channels .started = 0
  started : s.channels .started ≤ 1
  drained : 0 < s.channels .drained →
    s.drain.draining = true ∧ NoneAdmitted s ∧ s.drain.connections.keys = []
  once : s.channels .drained ≤ 1
  duty : Empty s → s.channels .drained = 0 → ∃ u, (s.share u).duty = true
  calling : ∀ u, (s.share u).duty = true → (s.share u).calling = true

def Pre (t : Nat) (a : Action) (s : World) : Prop :=
  match a with
  | .drainingSwap => s.mutex .mu = some t ∧ (s.share t).calling = true
  | .activeAdd delta =>
    delta = 1 ∧ (s.share t).phase = .idle ∨
      delta = -1 ∧ (s.share t).phase ≠ .idle ∧ (s.share t).calling = true
  | .track _ => s.mutex .mu = some t ∧ s.drain.draining = false
  | .untrack _ => s.mutex .mu = some t ∧ (s.share t).calling = true
  | .closeChannel .started =>
    s.mutex .mu = some t ∧ s.drain.draining = true ∧ s.channels .started = 0
  | .closeChannel .drained => False
  | .onceClose .started => False
  | .onceClose .drained =>
    s.drain.draining = true ∧ NoneAdmitted s ∧ s.drain.connections.keys = []
  | .note .leave => (s.share t).duty = false
  | .panic _ => False
  | _ => True

theorem NoneAdmitted.congr (h : NoneAdmitted s) (hs : ∀ u, s'.share u = s.share u) :
    NoneAdmitted s' := fun u => by
  rw [hs u]
  exact h u

theorem same_shares (ha : a.Neutral) (he : World.exec t a c s = some (b, s')) (u : Nat) :
    s'.share u = s.share u :=
  World.exec_shares he (Trace.record_share ha _ _ _) u

theorem same_drain (ha : a.Neutral) (he : World.exec t a c s = some (b, s')) : s.SameDrain s' := by
  obtain ⟨s₁, hs, rfl⟩ := World.exec_eq he
  have h := World.step_same ha hs
  exact ⟨h.drain, h.mu, h.started, h.drained⟩

theorem rely_of_neutral (ha : a.Neutral) (he : World.exec t a c s = some (b, s')) (u : Nat) :
    Rely u s s' := by
  have hs := same_drain ha he
  have hsh := same_shares ha he
  refine ⟨hsh u, by rw [hs.mu], fun hd => hs.drain.draining.trans hd, fun _ hn => hn.congr hsh, ?_⟩
  exact fun _ => ⟨hs.drain.draining, hs.drain.connections, hs.started⟩

theorem Empty.of_same (h : Empty s') (hs : s.drain.SameCounts s'.drain) : Empty s := by
  obtain ⟨hd, ha, hc⟩ := h
  rw [hs.draining] at hd
  rw [hs.active] at ha
  rw [hs.connections] at hc
  exact ⟨hd, ha, hc⟩

theorem Base.of_share (h : Base s) (hs : s.drain.SameCounts s'.drain)
    (hstarted : s'.channels .started = s.channels .started)
    (hdrained : s'.channels .drained = s.channels .drained)
    (hne : ∀ u, u ≠ t → s'.share u = s.share u)
    (hw : (s'.share t).phase.weight = (s.share t).phase.weight)
    (hadm : s.drain.draining = true → (s'.share t).phase = .admitted →
      (s.share t).phase = .admitted)
    (hduty : Empty s → (s.share t).duty = true → (s'.share t).duty = true)
    (hcall : (s'.share t).duty = true → (s'.share t).calling = true) : Base s' where
  balance := by
    rw [hs.active]
    refine h.balance.congr fun u => ?_
    by_cases hu : u = t
    · rw [hu, hw]
    · rw [hne u hu]
  unstarted := by
    rw [hs.draining, hstarted]
    exact h.unstarted
  started := by
    rw [hstarted]
    exact h.started
  drained := by
    rw [hdrained, hs.draining, hs.connections]
    intro hpos
    obtain ⟨hd, hn, hk⟩ := h.drained hpos
    refine ⟨hd, fun u hu => ?_, hk⟩
    by_cases hut : u = t
    · subst hut
      exact hn u (hadm hd hu)
    · rw [hne u hut] at hu
      exact hn u hu
  once := by
    rw [hdrained]
    exact h.once
  duty := by
    rw [hdrained]
    intro he hz
    obtain ⟨u, hu⟩ := h.duty (he.of_same hs) hz
    by_cases hut : u = t
    · subst hut
      exact ⟨u, hduty (he.of_same hs) hu⟩
    · exact ⟨u, by rw [hne u hut]; exact hu⟩
  calling := by
    intro u hu
    by_cases hut : u = t
    · subst hut
      exact hcall hu
    · rw [hne u hut] at hu ⊢
      exact h.calling u hu

theorem NoneAdmitted.of_ne (h : NoneAdmitted s) (hne : ∀ u, u ≠ t → s'.share u = s.share u)
    (hadm : (s'.share t).phase = .admitted → (s.share t).phase = .admitted) : NoneAdmitted s' := by
  intro u hu
  by_cases hut : u = t
  · subst hut
    exact h u (hadm hu)
  · rw [hne u hut] at hu
    exact h u hu

theorem Rely.of_share (hut : u ≠ t) (hs : s.SameDrain s')
    (hne : ∀ u, u ≠ t → s'.share u = s.share u)
    (hadm : s.drain.draining = true → (s'.share t).phase = .admitted →
      (s.share t).phase = .admitted) :
    Rely u s s' where
  share := hne u hut
  owns := by rw [hs.mu]
  draining := fun hd => hs.drain.draining.trans hd
  settled := fun hd hn => hn.of_ne hne (hadm hd)
  guarded := fun _ => ⟨hs.drain.draining, hs.drain.connections, hs.started⟩

theorem Rely.of_owner (hut : u ≠ t) (ho : s.mutex .mu = some t) (hmu : s'.mutex .mu = s.mutex .mu)
    (hne : ∀ u, u ≠ t → s'.share u = s.share u)
    (hadm : (s'.share t).phase = .admitted → (s.share t).phase = .admitted)
    (hd : s.drain.draining = true → s'.drain.draining = true) : Rely u s s' where
  share := hne u hut
  owns := by rw [hmu]
  draining := hd
  settled := fun _ hn => hn.of_ne hne hadm
  guarded := by
    intro hu
    rw [ho] at hu
    exact absurd (Option.some.inj hu).symm hut

def Keeps (t : Nat) (s s' : World) : Prop := Base s' ∧ ∀ u, u ≠ t → Rely u s s'

theorem Base.neutral (h : Base s) (he : World.exec t a c s = some (b, s')) (ha : a.Neutral) :
    Keeps t s s' := by
  have hs := same_drain ha he
  have hsh := same_shares ha he t
  refine ⟨h.of_share (t := t) hs.drain hs.started hs.drained (fun u _ => same_shares ha he u)
    ?_ ?_ ?_ ?_,
    fun u _ => rely_of_neutral ha he u⟩
  · rw [hsh]
  · rw [hsh]
    exact fun _ => id
  · rw [hsh]
    exact fun _ => id
  · rw [hsh]
    exact h.calling t

theorem Base.find (h : Base s) (hstep : s.step t c a = some (b, s))
    (he : World.exec t a c s = some (b, s'))
    (hw : ((s.trace t).record s a b).share.phase.weight = (s.share t).phase.weight)
    (hadm : s.drain.draining = true → ((s.trace t).record s a b).share.phase = .admitted →
      (s.share t).phase = .admitted)
    (hduty : Empty s → (s.share t).duty = true → ((s.trace t).record s a b).share.duty = true)
    (hcall : ((s.trace t).record s a b).share.duty = true →
      ((s.trace t).record s a b).share.calling = true) : Keeps t s s' := by
  have hne := fun u (hu : u ≠ t) => World.exec_share_of_ne he hu
  rw [← World.exec_share he] at hw hadm hduty hcall
  obtain ⟨s₁, hs, rfl⟩ := World.exec_eq he
  rw [hstep] at hs
  cases hs
  exact ⟨h.of_share ⟨rfl, rfl, rfl⟩ rfl rfl hne hw hadm hduty hcall,
    fun u hu => .of_share hu ⟨⟨rfl, rfl, rfl⟩, rfl, rfl, rfl⟩ hne hadm⟩

theorem Base.drainingLoad {b : Bool} (h : Base s)
    (he : World.exec t .drainingLoad c s = some (b, s')) :
    Keeps t s s' := by
  have hb : b = s.drain.draining := by
    obtain ⟨s₁, hs, -⟩ := World.exec_eq he
    cases hs
    rfl
  have hcall := h.calling t
  refine h.find ?_ he ?_ ?_ ?_ ?_
  · rw [hb]
    rfl
  all_goals
    cases hd : s.drain.draining <;> rw [hd] at hb <;> subst hb <;>
      simp only [Trace.record, Trace.recordLoad] <;> grind [Empty, Trace.share, Phase.weight]

theorem Base.activeLoad {b : Int} (h : Base s)
    (he : World.exec t .activeLoad c s = some (b, s')) :
    Keeps t s s' := by
  have hb : b = s.drain.active := by
    obtain ⟨s₁, hs, -⟩ := World.exec_eq he
    cases hs
    rfl
  have hcall := h.calling t
  refine h.find ?_ he ?_ ?_ ?_ ?_
  · rw [hb]
    rfl
  all_goals
    simp only [Trace.record]
    grind [Empty, Trace.share]

theorem Base.connectionsLen {b : Nat} (h : Base s)
    (he : World.exec t .connectionsLen c s = some (b, s')) :
    Keeps t s s' := by
  have hb : b = s.drain.connections.keys.length := by
    obtain ⟨s₁, hs, -⟩ := World.exec_eq he
    cases hs
    rfl
  have hcall := h.calling t
  refine h.find ?_ he ?_ ?_ ?_ ?_
  · rw [hb]
    rfl
  all_goals
    simp only [Trace.record]
    grind [Empty, Trace.share]

theorem Base.note {b : Unit} (h : Base s) (hp : Pre t (.note n) s)
    (he : World.exec t (.note n) c s = some (b, s')) : Keeps t s s' := by
  cases n with
  | job job => exact h.neutral he trivial
  | enter => exact h.find rfl he rfl (fun _ => id) (fun _ => id) fun _ => rfl
  | leave =>
    have hduty : (s.share t).duty = false := hp
    refine h.find rfl he rfl (fun _ => id) (fun _ => id) fun hd => ?_
    rw [show ((s.trace t).record s (.note .leave) ()).share.duty = (s.share t).duty from rfl,
      hduty] at hd
    cases hd

theorem Base.mutex (h : Base s) (hs : s.drain.SameCounts s'.drain)
    (hch : s'.channels = s.channels) (hsh : ∀ u, s'.share u = s.share u)
    (hmu : ∀ u, u ≠ t → (s'.mutex .mu = some u ↔ s.mutex .mu = some u)) : Keeps t s s' := by
  refine ⟨h.of_share (t := t) hs (by rw [hch]) (by rw [hch]) (fun u _ => hsh u) ?_ ?_ ?_ ?_,
    fun u hu => ⟨hsh u, hmu u hu, fun hd => hs.draining.trans hd, fun _ hn => hn.congr hsh,
      fun _ => ⟨hs.draining, hs.connections, by rw [hch]⟩⟩⟩
  · rw [hsh]
  · rw [hsh]
    exact fun _ => id
  · rw [hsh]
    exact fun _ => id
  · rw [hsh]
    exact h.calling t

theorem Base.lock {b : Unit} (h : Base s) (he : World.exec t (.lock .mu) c s = some (b, s')) :
    Keeps t s s' := by
  have hsh := World.exec_shares he rfl
  obtain ⟨s₁, hs, rfl⟩ := World.exec_eq he
  simp only [World.step] at hs
  split at hs
  · rename_i hfree
    cases hs
    refine h.mutex ⟨rfl, rfl, rfl⟩ rfl hsh fun u hu => ?_
    simp [hfree, Ne.symm hu]
  · cases hs

theorem Base.unlock {b : Unit} (h : Base s) (he : World.exec t (.unlock .mu) c s = some (b, s')) :
    Keeps t s s' := by
  have hsh := World.exec_shares he rfl
  obtain ⟨s₁, hs, rfl⟩ := World.exec_eq he
  simp only [World.step] at hs
  split at hs
  · rename_i hown
    cases hs
    refine h.mutex ⟨rfl, rfl, rfl⟩ rfl hsh fun u hu => ?_
    simp [hown, Ne.symm hu]
  · cases hs

theorem Base.drainingSwap {b : Bool} (h : Base s) (hp : Pre t .drainingSwap s)
    (he : World.exec t .drainingSwap c s = some (b, s')) : Keeps t s s' := by
  obtain ⟨ho, hcall⟩ := hp
  have hne := fun u (hu : u ≠ t) => World.exec_share_of_ne he hu
  have hsh : s'.share t = { s.share t with duty := true } := World.exec_share he
  obtain ⟨s₁, hs, rfl⟩ := World.exec_eq he
  cases hs
  have hadm : NoneAdmitted s → NoneAdmitted _ := fun hn => hn.of_ne hne (by rw [hsh]; exact id)
  refine ⟨⟨?_, nofun, h.started, fun hpos => ?_, h.once, fun _ _ => ⟨t, by rw [hsh]⟩,
    fun u hu => ?_⟩, fun u hu => .of_owner hu ho rfl hne (by rw [hsh]; exact id) fun _ => rfl⟩
  · refine h.balance.congr fun u => ?_
    by_cases hu : u = t
    · rw [hu, hsh]
    · rw [hne u hu]
  · obtain ⟨-, hn, hk⟩ := h.drained hpos
    exact ⟨rfl, hadm hn, hk⟩
  · by_cases hut : u = t
    · rw [hut, hsh]
      exact hcall
    · rw [hne u hut] at hu ⊢
      exact h.calling u hu

theorem Base.activeAdd {b : Int} (h : Base s) (hp : Pre t (.activeAdd delta) s)
    (he : World.exec t (.activeAdd delta) c s = some (b, s')) : Keeps t s s' := by
  have hne := fun u (hu : u ≠ t) => World.exec_share_of_ne he hu
  have hsh := World.exec_share he
  have hw : (s'.share t).phase.weight - (s.share t).phase.weight = delta := by
    rw [hsh]
    rcases hp with ⟨rfl, hidle⟩ | ⟨rfl, hbusy, -⟩
    · rw [hidle]
      rfl
    · rw [Phase.weight_pos hbusy]
      rfl
  have hadm : (s'.share t).phase ≠ .admitted := by
    rw [hsh]
    simp only [Trace.record]
    split <;> exact nofun
  -- A handler that goes away during a drain has to look whether it was the last one.
  have hduty : s.drain.draining = true → delta = -1 → (s'.share t).duty = true := by
    rintro hd rfl
    rw [hsh]
    exact hd
  have hcall : (s'.share t).duty = true → (s'.share t).calling = true := by
    rw [hsh]
    rcases hp with ⟨rfl, -⟩ | ⟨rfl, -, hcalling⟩
    · exact h.calling t
    · exact fun _ => hcalling
  obtain ⟨s₁, hs, rfl⟩ := World.exec_eq he
  cases hs
  have hnone : NoneAdmitted s → NoneAdmitted _ := fun hn =>
    hn.of_ne hne fun hu => absurd hu hadm
  refine ⟨⟨?_, h.unstarted, h.started, fun hpos => ?_, h.once, fun hempty hz => ?_, fun u hu => ?_⟩,
    fun u hu => ⟨hne u hu, Iff.rfl, id, fun _ => hnone, fun _ => ⟨rfl, rfl, rfl⟩⟩⟩
  · have hbal :=
      h.balance.step (t := t) fun u hu => congrArg (Phase.weight ∘ Share.phase) (hne u hu)
    simp only [Function.comp_apply] at hbal
    rw [hw] at hbal
    exact hbal
  · obtain ⟨hd, hn, hk⟩ := h.drained hpos
    exact ⟨hd, hnone hn, hk⟩
  · rcases hp with ⟨rfl, hidle⟩ | ⟨rfl, -⟩
    · -- A new reservation leaves a counter above zero.
      have hle := h.balance.le (fun u => Phase.weight_nonneg _) t
      rw [hidle] at hle
      have hzero : s.drain.active + 1 = 0 := hempty.active
      have : (0 : Int) ≤ s.drain.active := hle
      omega
    · exact ⟨t, hduty hempty.draining rfl⟩
  · by_cases hut : u = t
    · subst hut
      exact hcall hu
    · rw [hne u hut] at hu ⊢
      exact h.calling u hu

theorem Base.track {b : Unit} (h : Base s) (hp : Pre t (.track conn) s)
    (he : World.exec t (.track conn) c s = some (b, s')) : Keeps t s s' := by
  obtain ⟨ho, hd⟩ := hp
  have hsh := World.exec_shares he rfl
  obtain ⟨s₁, hs, rfl⟩ := World.exec_eq he
  cases hs
  obtain ⟨hdraining, hactive⟩ := s.drain.track_frame conn
  have hnot : (s.drain.track conn).draining ≠ true := by
    rw [hdraining, hd]
    exact nofun
  refine ⟨⟨?_, fun _ => h.unstarted hd, h.started, fun hpos => ?_, h.once,
    fun hempty => absurd hempty.draining hnot, fun u => ?_⟩,
    fun u hu => .of_owner hu ho rfl (fun u _ => hsh u) (by rw [hsh]; exact id) fun hd' => ?_⟩
  · rw [show (s.setDrain (s.drain.track conn)).drain.active = s.drain.active from hactive]
    exact h.balance.congr fun u => by rw [hsh]
  · have := (h.drained hpos).1
    rw [hd] at this
    cases this
  · rw [hsh]
    exact h.calling u
  · rw [hd] at hd'
    cases hd'

theorem keys_erase_nil {m : AList fun _ : Conn => Nat} (h : m.keys = []) (conn : Conn) :
    (m.erase conn).keys = [] := by
  rw [AList.keys_erase, h]
  rfl

theorem Base.untrack {b : Unit} (h : Base s) (hp : Pre t (.untrack conn) s)
    (he : World.exec t (.untrack conn) c s = some (b, s')) : Keeps t s s' := by
  obtain ⟨ho, hcall⟩ := hp
  have hne := fun u (hu : u ≠ t) => World.exec_share_of_ne he hu
  have hsh : s'.share t = { s.share t with duty := s.drain.draining } := World.exec_share he
  obtain ⟨s₁, hs, rfl⟩ := World.exec_eq he
  cases hs
  obtain ⟨hdraining, hactive⟩ := s.drain.untrack_frame conn
  have hadm : NoneAdmitted s → NoneAdmitted _ := fun hn => hn.of_ne hne (by rw [hsh]; exact id)
  refine ⟨⟨?_, fun hd => h.unstarted (hdraining.symm.trans hd), h.started, fun hpos => ?_, h.once,
    fun hempty _ => ⟨t, ?_⟩, fun u hu => ?_⟩,
    fun u hu => .of_owner hu ho rfl hne (by rw [hsh]; exact id) fun hd => hdraining.trans hd⟩
  · rw [show (s.setDrain (s.drain.untrack conn)).drain.active = s.drain.active from hactive]
    refine h.balance.congr fun u => ?_
    by_cases hu : u = t
    · rw [hu, hsh]
    · rw [hne u hu]
  · obtain ⟨hd, hn, hk⟩ := h.drained hpos
    exact ⟨hdraining.trans hd, hadm hn, keys_erase_nil hk conn⟩
  · rw [hsh]
    exact hdraining.symm.trans hempty.draining
  · by_cases hut : u = t
    · rw [hut, hsh]
      exact hcall
    · rw [hne u hut] at hu ⊢
      exact h.calling u hu

theorem Base.closeStarted {b : Unit} (h : Base s) (hp : Pre t (.closeChannel .started) s)
    (he : World.exec t (.closeChannel .started) c s = some (b, s')) : Keeps t s s' := by
  obtain ⟨ho, hd, hz⟩ := hp
  have hsh := World.exec_shares he rfl
  obtain ⟨s₁, hs, rfl⟩ := World.exec_eq he
  cases hs
  have hstarted : (s.closeChannel .started).channels .started = 1 := by
    simp [World.closeChannel, hz]
  refine ⟨⟨h.balance.congr fun u => by rw [hsh], fun hd' => ?_, hstarted.le, fun hpos => ?_, h.once,
    fun hempty hz' => ?_, fun u => ?_⟩,
    fun u hu => .of_owner hu ho rfl (fun u _ => hsh u) (by rw [hsh]; exact id) id⟩
  · exact absurd (hd.symm.trans hd') nofun
  · obtain ⟨_, hn, hk⟩ := h.drained hpos
    exact ⟨hd, hn.congr hsh, hk⟩
  · obtain ⟨u, hu⟩ := h.duty ⟨hempty.draining, hempty.active, hempty.connections⟩ hz'
    exact ⟨u, by rw [hsh]; exact hu⟩
  · rw [hsh]
    exact h.calling u

theorem Base.closeDrained {b : Unit} (h : Base s) (hp : Pre t (.onceClose .drained) s)
    (he : World.exec t (.onceClose .drained) c s = some (b, s')) : Keeps t s s' := by
  obtain ⟨hd, hn, hk⟩ := hp
  have hne := fun u (hu : u ≠ t) => World.exec_share_of_ne he hu
  have hsh : s'.share t = { s.share t with duty := false } := World.exec_share he
  have hview : s'.drain = s.drain ∧ s'.mutex = s.mutex ∧
      s'.channels .started = s.channels .started ∧ s'.channels .drained = 1 := by
    obtain ⟨s₁, hs, rfl⟩ := World.exec_eq he
    cases hs
    dsimp only
    split
    · rename_i hz
      exact ⟨rfl, rfl, rfl, by simp [World.closeChannel, hz]⟩
    · rename_i hz
      exact ⟨rfl, rfl, rfl, le_antisymm h.once (Nat.pos_of_ne_zero hz)⟩
  obtain ⟨hdrain, hmu, hstarted, hdrained⟩ := hview
  have hadm : NoneAdmitted s → NoneAdmitted s' := fun hn => hn.of_ne hne (by rw [hsh]; exact id)
  refine ⟨⟨?_, ?_, by rw [hstarted]; exact h.started, fun _ => ?_, hdrained.le, fun _ hz => ?_,
    fun u hu => ?_⟩,
    fun u hu => ⟨hne u hu, by rw [hmu], by rw [hdrain]; exact id, fun _ => hadm, ?_⟩⟩
  · rw [hdrain]
    refine h.balance.congr fun u => ?_
    by_cases hu : u = t
    · rw [hu, hsh]
    · rw [hne u hu]
  · rw [hdrain, hstarted]
    exact h.unstarted
  · rw [hdrain]
    exact ⟨hd, hadm hn, hk⟩
  · rw [hdrained] at hz
    cases hz
  · by_cases hut : u = t
    · rw [hut, hsh] at hu
      cases hu
    · rw [hne u hut] at hu ⊢
      exact h.calling u hu
  · rw [hdrain]
    exact fun _ => ⟨rfl, rfl, hstarted⟩

theorem Base.act (h : Base s) (hp : Pre t a s) (he : World.exec t a c s = some (b, s')) :
    Keeps t s s' := by
  cases a with
  | lock m =>
    cases m with
    | mu => exact h.lock he
    | lifecycleMu => exact h.neutral he trivial
  | unlock m =>
    cases m with
    | mu => exact h.unlock he
    | lifecycleMu => exact h.neutral he trivial
  | drainingLoad => exact h.drainingLoad he
  | drainingSwap => exact h.drainingSwap hp he
  | activeAdd delta => exact h.activeAdd hp he
  | activeLoad => exact h.activeLoad he
  | connectionsLen => exact h.connectionsLen he
  | track conn => exact h.track hp he
  | untrack conn => exact h.untrack hp he
  | closeChannel ch =>
    cases ch with
    | started => exact h.closeStarted hp he
    | drained => exact hp.elim
    | listening => exact h.neutral he trivial
    | forceClose => exact h.neutral he trivial
  | onceClose ch =>
    cases ch with
    | started => exact hp.elim
    | drained => exact h.closeDrained hp he
    | listening => exact h.neutral he trivial
    | forceClose => exact h.neutral he trivial
  | panic msg => exact hp.elim
  | note n => exact h.note hp he
  | _ => exact h.neutral he trivial

theorem env_eq (h : s.env e = some s') :
    s' = { s with clock := s'.clock, contexts := s'.contexts } := by
  cases e <;> cases h <;> rfl

theorem Base.env (h : Base s) (he : s.env e = some s') : Base s' ∧ ∀ u, Rely u s s' := by
  rw [env_eq he]
  exact ⟨⟨h.balance, h.unstarted, h.started, h.drained, h.once,
    fun hempty => h.duty ⟨hempty.draining, hempty.active, hempty.connections⟩, h.calling⟩,
    fun u => ⟨rfl, Iff.rfl, id, fun _ hn => hn, fun _ => ⟨rfl, rfl, rfl⟩⟩⟩

end Drain
end Slizen.Proxy
