import Slizen.Proxy.Tracking

namespace Slizen.Proxy
set_option autoImplicit true

open Interleaving Machine

namespace Scene

variable {srv : Server} {sc sc' : Scene} {μ : Drainer} {σ : Sweeper} {t u : Nat} {l l' : List Nat}

/-- A loop of `beginDrain` may end: its deadline has passed, everything has drained, or nothing is
left to be woken. -/
def Excused (sc : Scene) (l : List Nat) (w : Sweep) : Prop :=
  w.deadline ≤ sc.clock ∨ 0 < sc.drained ∨ sc.drain.draining = true ∧ l = []

/-- What a goroutine has achieved for the drain, given the pending list. The rounds that are left
suffice for the list, and a loop is not left without an excuse. -/
structure Progress (sc : Scene) (l : List Nat) (σ : Sweeper) : Prop where
  begun : ∀ n, σ.stage = .begun n → sc.drain.draining = true ∧ l.length ≤ n
  loop : ∀ w n, σ.stage = .loop w n →
    sc.drain.draining = true ∧ l.length ≤ n ∧ w ∈ σ.sweeps
  unspent : σ.stage ≠ .spent
  excused : ∀ w ∈ σ.sweeps, (∃ n, σ.stage = .loop w n) ∨ sc.Excused l w
  owned : ∀ x ∈ σ.taken, x.2 ∈ σ.sweeps
  settled : σ.stage = .outside → σ.done = σ.plan

theorem Progress.mono (h : sc.Progress l σ)
    (hd : sc.drain.draining = true → sc'.drain.draining = true ∧ l'.length ≤ l.length)
    (hclock : sc.clock ≤ sc'.clock) (hdrained : sc.drained ≤ sc'.drained) :
    sc'.Progress l' σ := by
  have hexcused : ∀ w, sc.Excused l w → sc'.Excused l' w := by
    rintro w (hw | hw | ⟨hw, rfl⟩)
    · exact .inl (hw.trans hclock)
    · exact .inr (.inl (hw.trans_le hdrained))
    · obtain ⟨hw', hlen⟩ := hd hw
      exact .inr (.inr ⟨hw', List.length_eq_zero_iff.1 (Nat.le_zero.1 hlen)⟩)
  constructor
  · intro n hn
    obtain ⟨hs, hlen⟩ := h.begun n hn
    exact ⟨(hd hs).1, (hd hs).2.trans hlen⟩
  · intro w n hn
    obtain ⟨hs, hlen, hw⟩ := h.loop w n hn
    exact ⟨(hd hs).1, (hd hs).2.trans hlen, hw⟩
  · exact h.unspent
  · exact fun w hw => (h.excused w hw).imp_right (hexcused w)
  · exact h.owned
  · exact h.settled

theorem Progress.excuse (h : sc.Progress l σ) (hs : ∀ w n, σ.stage ≠ .loop w n) :
    ∀ w ∈ σ.sweeps, sc.Excused l w := by
  intro w hw
  rcases h.excused w hw with ⟨n, hn⟩ | he
  · exact absurd hn (hs w n)
  · exact he

theorem Progress.ended (h : sc.Progress l σ) (hs : σ.stage = .loop w n) (he : sc.Excused l w) :
    sc.Progress l { σ with stage := .ended } := by
  constructor
  · nofun
  · nofun
  · nofun
  · intro v hv
    rcases h.excused v hv with ⟨m, hm⟩ | hv
    · cases hs.symm.trans hm
      exact .inr he
    · exact .inr hv
  · exact h.owned
  · nofun

theorem Progress.read (h : sc.Progress l σ) (srv : Server) :
    sc.Progress l (σ.read srv sc.clock) := by
  unfold Sweeper.read
  split
  · rename_i n hs
    obtain ⟨hd, hlen⟩ := h.begun n hs
    constructor
    · nofun
    · rintro w m ⟨⟩
      exact ⟨hd, hlen, List.mem_cons_self⟩
    · nofun
    · intro w hw
      rcases List.mem_cons.1 hw with rfl | hw
      · exact .inl ⟨n, rfl⟩
      · refine .inr (h.excuse (fun v m hv => ?_) w hw)
        cases hs.symm.trans hv
    · exact fun x hx => List.mem_cons_of_mem _ (h.owned x hx)
    · nofun
  · rename_i w n hs
    split
    · exact h
    · rename_i hlt
      exact h.ended hs (.inl (not_lt.1 hlt))
  · exact ⟨h.begun, h.loop, h.unspent, h.excused, h.owned, h.settled⟩

theorem Progress.hear (h : sc.Progress l σ) (hdrained : 0 < sc.drained) :
    sc.Progress l σ.hear := by
  unfold Sweeper.hear
  split
  · rename_i w n hs
    exact h.ended hs (.inr (.inl hdrained))
  · exact h

theorem Progress.wake (h : sc.Progress l σ) (x : Wake) : sc.Progress l (σ.wake x) := by
  unfold Sweeper.wake
  split
  · exact h
  · rename_i hs
    exact ⟨h.begun, h.loop, h.unspent, h.excused, h.owned, fun hout => absurd hout hs⟩

theorem Progress.leave (h : sc.Progress l σ)
    (hs : σ.stage = .outside ∨ (σ.stage = .ended ∨ σ.stage = .spent) ∧ σ.done = σ.plan) :
    sc.Progress l { σ with stage := .outside } := by
  have hloop : ∀ w n, σ.stage ≠ .loop w n := by
    intro w n hw
    rw [hw] at hs
    simp at hs
  constructor
  · nofun
  · nofun
  · nofun
  · exact fun w hw => .inr (h.excuse hloop w hw)
  · exact h.owned
  · intro _
    exact hs.elim h.settled fun hs => hs.2

theorem Progress.begin (h : sc.Progress l σ) (hs : σ.stage = .outside)
    (hd : sc.drain.draining = true) (hn : l.length ≤ n) :
    sc.Progress l { σ with stage := .begun n } := by
  constructor
  · rintro m ⟨⟩
    exact ⟨hd, hn⟩
  · nofun
  · nofun
  · refine fun w hw => .inr (h.excuse (fun v m hv => ?_) w hw)
    cases hs.symm.trans hv
  · exact h.owned
  · nofun

theorem Progress.take (h : sc.Progress l σ) (hs : σ.stage = .loop w n)
    (hbatch : batch = [] → l = []) (hempty : l = [] → batch = [])
    (hd : sc'.drain.draining = sc.drain.draining) (hclock : sc'.clock = sc.clock)
    (hdrained : sc'.drained = sc.drained) :
    sc'.Progress (l.drop 128) (σ.take batch) := by
  obtain ⟨hdraining, hlen, hw⟩ := h.loop w n hs
  have hmono : sc'.Progress (l.drop 128) σ :=
    h.mono (fun hds => ⟨hd.trans hds, by simp⟩) hclock.ge hdrained.ge
  have howned : ∀ x ∈ σ.taken ++ batch.map fun c => (c, w), x.2 ∈ σ.sweeps := by
    intro x hx
    rcases List.mem_append.1 hx with hx | hx
    · exact h.owned x hx
    · obtain ⟨c, -, rfl⟩ := List.mem_map.1 hx
      exact hw
  rw [Sweeper.take, hs]
  simp only
  by_cases hb : batch = []
  · have hended := hmono.ended hs (.inr (.inr ⟨hd.trans hdraining, by simp [hbatch hb]⟩))
    rw [if_pos hb]
    exact ⟨hended.begun, hended.loop, hended.unspent, hended.excused, howned, (by simp)⟩
  · have hpos : 0 < l.length := List.length_pos_iff.2 fun hl => hb (hempty hl)
    obtain ⟨m, rfl⟩ : ∃ m, n = m + 1 := ⟨n - 1, by omega⟩
    rw [if_neg hb, Stage.further]
    constructor
    · simp
    · rintro v k ⟨⟩
      refine ⟨hd.trans hdraining, ?_, hw⟩
      rw [List.length_drop]
      omega
    · simp
    · intro v hv
      rcases hmono.excused v hv with ⟨k, hk⟩ | he
      · cases hs.symm.trans hk
        exact .inl ⟨m, rfl⟩
      · exact .inr he
    · exact howned
    · simp

structure Sound (srv : Server) (sc : Scene) (l : List Nat) : Prop where
  bounded : sc.Bounded srv
  ledger : sc.Ledger l
  progress : ∀ u, sc.Progress l (sc.mems u).sweeper

theorem clock_step (sc : Scene) (t : Nat) (a : Action) (b : a.Resp) :
    (sc.step srv t a b).clock = sc.clock := rfl

theorem drained_step (sc : Scene) (t : Nat) (a : Action) (b : a.Resp) :
    sc.drained ≤ (sc.step srv t a b).drained := by
  cases a with
  | closeChannel ch => cases ch <;> simp [Scene.step]
  | onceClose ch =>
    cases ch with
    | drained =>
      simp only [Scene.step]
      split
      · exact Nat.le_succ _
      · exact le_rfl
    | _ => exact le_rfl
  | _ => exact le_rfl

theorem Ledger.batch_nil (h : sc.Ledger l) : (sc.drain.takeBatch 128).1 = [] ↔ l = [] := by
  rw [List.eq_nil_iff_forall_not_mem]
  constructor
  · intro hnone
    by_contra hne
    obtain ⟨n, rest, rfl⟩ := List.exists_cons_of_ne_nil hne
    obtain ⟨c, hc⟩ := h.tracking.toQueue.conn_of_mem List.mem_cons_self
    apply hnone c
    rw [DrainTracker.mem_batch h.tracking.toQueue]
    exact ⟨n, List.mem_cons_self, hc⟩
  · rintro rfl c hc
    rw [DrainTracker.mem_batch h.tracking.toQueue] at hc
    obtain ⟨n, hn, -⟩ := hc
    cases hn

theorem Sound.progress_self {a : Action} {b : a.Resp} (h : sc.Sound srv l)
    (hok : (sc.mems t).Expects srv a) (hans : sc.Answers a b)
    (htake : a = .takeBatch → l' = l.drop 128)
    (hd : sc.drain.draining = true →
      (sc.step srv t a b).drain.draining = true ∧ l'.length ≤ l.length)
    (hmono : (sc.step srv t a b).Progress l' (sc.mems t).sweeper) :
    (sc.step srv t a b).Progress l' ((sc.mems t).next srv a b).sweeper := by
  cases a with
  | note n =>
    cases n with
    | job j => exact ⟨hmono.begun, hmono.loop, hmono.unspent, hmono.excused, hmono.owned,
        hmono.settled⟩
    | enter => exact hmono
    | leave => exact hmono.leave hok.2
  | lock m => cases m <;> exact hmono
  | unlock m => cases m <;> exact hmono
  | pendingLen =>
    obtain ⟨-, hstopped, hout⟩ := hok
    obtain ⟨hdraining, hlen⟩ := hd ((h.bounded.holding t).stopped hstopped)
    have hrounds : b = sc.drain.pendingLen := hans
    apply hmono.begin hout hdraining
    rw [hrounds]
    exact hlen.trans h.ledger.tracking.toQueue.length_le
  | now =>
    have htime : b = sc.clock := hans
    have hread := hmono.read srv
    rwa [clock_step, ← htime] at hread
  | isClosed ch =>
    cases ch with
    | drained =>
      cases b with
      | true =>
        have hpos : true = decide (0 < sc.drained) := hans
        exact hmono.hear (of_decide_eq_true hpos.symm)
      | false => exact hmono
    | _ => exact hmono
  | takeBatch =>
    obtain ⟨-, -, w, n, hs⟩ := hok
    have hbatch : b = (sc.drain.takeBatch 128).1 := hans
    rw [htake rfl]
    apply (h.progress t).take hs
    · intro hb
      exact h.ledger.batch_nil.1 (hbatch.symm.trans hb)
    · intro hl
      exact hbatch.trans (h.ledger.batch_nil.2 hl)
    · exact (sc.drain.takeBatch_same 128).draining
    · rfl
    · rfl
  | setDeadline conn kind time => exact hmono.wake _
  | _ => exact hmono

theorem Sound.step {a : Action} {b : a.Resp} (h : sc.Sound srv l)
    (hok : (sc.mems t).Expects srv a) (hans : sc.Answers a b)
    (hnodup : (sc.step srv t a b).accepted.Nodup)
    (htrack : ∀ c, a = .track c → sc.drain.draining = false) :
    ∃ l', (sc.step srv t a b).Sound srv l' := by
  obtain ⟨l', hledger, htake, hd⟩ := h.ledger.step hok hans hnodup htrack
  have hmono : ∀ u, (sc.step srv t a b).Progress l' (sc.mems u).sweeper :=
    fun u => (h.progress u).mono hd le_rfl (drained_step sc t a b)
  refine ⟨l', h.bounded.step hok hans, hledger, fun u => ?_⟩
  by_cases hu : u = t
  · rw [hu, step_self]
    exact h.progress_self hok hans htake hd (hmono t)
  · rw [step_other _ _ _ hu]
    exact hmono u

theorem queue_start : DrainTracker.Queue {} [] where
  spells := ⟨List.nodup_nil, rfl, trivial, fun _ _ => ⟨rfl, rfl⟩⟩
  pending := fun _ => ⟨nofun, nofun⟩

theorem ledger_start (srv : Server) : (scene srv [] Server.init).Ledger [] where
  tracking := ⟨queue_start, nofun, nofun⟩
  conns := rfl
  known := fun _ hc => absurd rfl hc
  pending := by
    intro c
    constructor
    · rintro ⟨n, hn, -⟩
      cases hn
    · nofun
  taken := by
    intro c
    constructor
    · rintro ⟨u, hu⟩
      cases hu
    · nofun
  once := fun _ => List.nodup_nil
  apart := nofun

theorem sound_start (srv : Server) : (scene srv [] Server.init).Sound srv [] where
  bounded := ⟨fun _ => ⟨⟨nofun, nofun⟩, nofun, nofun, nofun⟩, Nat.zero_le _⟩
  ledger := ledger_start srv
  progress := fun _ => ⟨nofun, nofun, nofun, nofun, nofun, fun _ => rfl⟩

end Scene

variable {srv : Server} {tr : List Server.machine.Event} {g : Server.machine.Config}

theorem scene_env (srv : Server) (tr : List Server.machine.Event) (he : World.env s e = some s') :
    ∃ time, s.clock ≤ time ∧ scene srv tr s' = { scene srv tr s with clock := time } := by
  cases e with
  | tick d =>
    cases he
    exact ⟨s.clock + d, Int.le_add_of_nonneg_right (Int.natCast_nonneg d), rfl⟩
  | cancel t =>
    cases he
    exact ⟨s.clock, le_rfl, rfl⟩

theorem Scene.Bounded.clock {sc : Scene} (h : sc.Bounded srv) (time : Time) :
    Scene.Bounded srv { sc with clock := time } :=
  ⟨fun u => (h.holding u).congr rfl rfl id, h.bound⟩

theorem Scene.Sound.clock {sc : Scene} (h : sc.Sound srv l) (htime : sc.clock ≤ time) :
    Scene.Sound srv { sc with clock := time } l where
  bounded := h.bounded.clock time
  ledger := ⟨h.ledger.tracking, h.ledger.conns, h.ledger.known, h.ledger.pending, h.ledger.taken,
    h.ledger.once, h.ledger.apart⟩
  progress := fun u => (h.progress u).mono (fun hd => ⟨hd, le_rfl⟩) htime le_rfl

theorem bounded (h : Trail srv.jobs ⟨Server.init, []⟩ tr g) :
    (scene srv tr g.state).Bounded srv := by
  apply (watched srv).invariant (J := fun tr s => (scene srv tr s).Bounded srv) h
  · exact (Scene.sound_start srv).bounded
  · intro tr g t a c b s _ hb hok he
    obtain ⟨hans, hscene⟩ := scene_exec srv tr he
    rw [hscene]
    exact hb.step hok hans
  · intro tr e s s' hb he
    obtain ⟨time, -, hscene⟩ := scene_env srv tr he
    rw [hscene]
    exact hb.clock time

theorem sound (h : Trail srv.jobs ⟨Server.init, []⟩ tr g) (hn : (accepted tr).Nodup) :
    ∃ l, (scene srv tr g.state).Sound srv l := by
  induction h with
  | nil => exact ⟨[], Scene.sound_start srv⟩
  | @run tr g t a k c b s hg hp _ he ih =>
    rw [accepted_snoc] at hn
    obtain ⟨l, hl⟩ := ih (List.nodup_append'.1 hn).1
    obtain ⟨hans, hscene⟩ := scene_exec srv tr he
    rw [hscene]
    apply hl.step ((watched srv).obeys hg hp).1 hans hn
    rintro conn rfl
    exact ((Drain.verified srv).pre hg.reach hp).2
  | spawn _ _ ih => exact ih hn
  | env hg _ he ih =>
    obtain ⟨l, hl⟩ := ih hn
    obtain ⟨time, htime, hscene⟩ := scene_env srv _ he
    exact ⟨l, hscene ▸ hl.clock htime⟩

theorem World.step_inside {μ : Drainer} {a : Action} (hok : μ.Expects srv a)
    (hin : μ.inside = true) (hpre : Drain.Pre t a s)
    (hlock : a = .lock .mu → s.mutex .mu = none)
    (hown : μ.holds = true → s.mutex .mu = some t) : ∃ c r, World.step s t c a = some r := by
  have hout : μ.inside ≠ false := by simp [hin]
  cases a with
  | lock m =>
    cases m with
    | mu => exact ⟨.any, _, if_pos (hlock rfl)⟩
    | lifecycleMu => exact absurd hok hout
  | unlock m =>
    cases m with
    | mu => exact ⟨.any, _, if_pos (hown hok)⟩
    | lifecycleMu => exact absurd hok hout
  | waitDrain deadline => exact absurd hok hout
  | listenSignal server => exact absurd hok hout
  | receiveDone server => exact absurd hok hout
  | select server => exact absurd hok hout
  | call c timeout => cases c <;> exact ⟨.fail .canceled, _, rfl⟩
  | panic msg => exact hpre.elim
  | _ => exact ⟨.any, _, rfl⟩

def Enabled (g : Server.machine.Config) (t : Nat) : Prop :=
  ∃ a k c b s, g.pool[t]? = some (.act a k) ∧ World.exec t a c g.state = some (b, s)

theorem enabled_inside (h : Trail srv.jobs ⟨Server.init, []⟩ tr g)
    (hin : (mem (M := Server.machine) (watch srv) tr t).inside = true) :
    ∃ a k, g.pool[t]? = some (.act a k) ∧ ((a = .lock .mu → g.state.mutex .mu = none) →
      ∃ c b s, World.exec t a c g.state = some (b, s)) := by
  cases hp : g.pool[t]? with
  | none =>
    obtain ⟨begun, hb⟩ := h.threads
    have hnil : acts tr t = acts [] t := hb.acts_eq_nil (List.getElem?_eq_none_iff.1 hp)
    have hfresh : (mem (M := Server.machine) (watch srv) tr t).inside = false :=
      congrArg Drainer.inside (mem_congr (M := Server.machine) (K := watch srv) hnil)
    cases hin.symm.trans hfresh
  | some p =>
    have hobeys := (watched srv).obeys h hp
    cases p with
    | ret x =>
      obtain ⟨job, hμ⟩ := hobeys
      cases hin.symm.trans hμ.inside
    | act a k =>
      refine ⟨a, k, rfl, fun hlock => ?_⟩
      obtain ⟨c, ⟨b, s⟩, hs⟩ := World.step_inside hobeys.1 hin
        ((Drain.verified srv).pre h.reach hp) hlock ((bounded h).holding t).owner.2
      exact ⟨c, b, _, congrArg (Option.map _) hs⟩

theorem Scene.mu_step {a : Action} {b : a.Resp} {sc : Scene} (h : sc.mu = none ∨ sc.mu = some t) :
    (sc.step srv t a b).mu = none ∨ (sc.step srv t a b).mu = some t := by
  cases a with
  | lock m =>
    cases m with
    | mu => exact .inr rfl
    | lifecycleMu => exact h
  | unlock m =>
    cases m with
    | mu => exact .inl rfl
    | lifecycleMu => exact h
  | _ => exact h

/-- With the mutex free or its own, a goroutine that goes on alone comes to the end of what it is
in, be it a call of the tracker or a locked section. -/
theorem runs_until {q : Drainer → Bool}
    (hq : ∀ μ : Drainer, (μ.holds = true → μ.inside = true) → q μ = true → μ.inside = true)
    (h : Trail srv.jobs ⟨Server.init, []⟩ tr g) (hp : g.pool[t]? = some p)
    (hmu : g.state.mutex .mu = none ∨ g.state.mutex .mu = some t) :
    ∃ tr' g', Trail srv.jobs ⟨Server.init, []⟩ (tr ++ tr') g' ∧ (∀ e ∈ tr', e.thread = t) ∧
      q (mem (M := Server.machine) (watch srv) (tr ++ tr') t) = false ∧
      (g'.state.mutex .mu = none ∨ g'.state.mutex .mu = some t) := by
  cases hend : q (mem (M := Server.machine) (watch srv) tr t) with
  | false => exact ⟨[], g, by simpa using h, by simp, by simpa using hend, hmu⟩
  | true =>
    have hin := hq _ ((bounded h).holding t).within hend
    induction p generalizing tr g with
    | ret x =>
      obtain ⟨a, k, hp', -⟩ := enabled_inside h hin
      cases hp.symm.trans hp'
    | act a k ih =>
      obtain ⟨a', k', hp', hexec⟩ := enabled_inside h hin
      cases hp.symm.trans hp'
      have hlock : a = .lock .mu → g.state.mutex .mu = none := by
        rintro rfl
        have hfree := ((watched srv).obeys h hp).1.2
        refine hmu.resolve_right fun hown => ?_
        cases hfree.symm.trans (((bounded h).holding t).owner.1 hown)
      obtain ⟨c, b, s, he⟩ := hexec hlock
      have hrun := Trail.run h hp trivial he
      have hlt := (List.getElem?_eq_some_iff.1 hp).1
      have hp₁ : (g.pool.set t (k b) ++ (Server.machine.fork a b).toList)[t]? = some (k b) := by
        rw [List.getElem?_append_left (by simpa using hlt), List.getElem?_set_self hlt]
      have hmu₁ : s.mutex .mu = none ∨ s.mutex .mu = some t := by
        have hscene := (scene_exec srv tr he).2
        have hmu₂ : s.mutex .mu = _ := congrArg Scene.mu hscene
        rw [hmu₂]
        exact Scene.mu_step hmu
      cases hend₁ : q (mem (M := Server.machine) (watch srv) (tr ++ [⟨t, g.state, a, b⟩]) t) with
      | false => exact ⟨_, _, hrun, by simp, hend₁, hmu₁⟩
      | true =>
        have hin₁ := hq _ ((bounded hrun).holding t).within hend₁
        obtain ⟨tr', g', htrail, hthread, hq', hmu'⟩ := ih b hrun hp₁ hmu₁ hend₁ hin₁
        refine ⟨⟨t, g.state, a, b⟩ :: tr', g', by simpa using htrail, ?_, by simpa using hq', hmu'⟩
        exact List.forall_mem_cons.2 ⟨rfl, hthread⟩

theorem mem_append_other {tr' : List Server.machine.Event} (h : ∀ e ∈ tr', e.thread = u)
    (hne : t ≠ u) : mem (M := Server.machine) (watch srv) (tr ++ tr') t =
      mem (M := Server.machine) (watch srv) tr t := by
  apply mem_congr
  have hnil : acts tr' t = [] := acts_eq_nil fun e he => h e he ▸ hne.symm
  rw [acts_append, hnil, List.append_nil]

theorem returns (h : Trail srv.jobs ⟨Server.init, []⟩ tr g)
    (hin : (mem (M := Server.machine) (watch srv) tr t).inside = true) :
    ∃ tr' g', Trail srv.jobs ⟨Server.init, []⟩ (tr ++ tr') g' ∧
      (mem (M := Server.machine) (watch srv) (tr ++ tr') t).inside = false := by
  obtain ⟨a, k, hp, -⟩ := enabled_inside h hin
  by_cases hmu : g.state.mutex .mu = none ∨ g.state.mutex .mu = some t
  · obtain ⟨tr', g', htrail, -, hend, -⟩ := runs_until (q := Drainer.inside)
      (fun _ _ hi => hi) h hp hmu
    exact ⟨tr', g', htrail, hend⟩
  · obtain ⟨hnone, hother⟩ := not_or.1 hmu
    obtain ⟨u, hu⟩ := Option.ne_none_iff_exists'.1 hnone
    have hne : t ≠ u := by
      rintro rfl
      exact hother hu
    have hholds := ((bounded h).holding u).owner.1 hu
    obtain ⟨a', k', hp', -⟩ := enabled_inside h (((bounded h).holding u).within hholds)
    obtain ⟨tr₁, g₁, h₁, hthread, hend₁, hmu₁⟩ := runs_until (q := Drainer.holds)
      (fun _ hi hh => hi hh) h hp' (.inr hu)
    have hin₁ : (mem (M := Server.machine) (watch srv) (tr ++ tr₁) t).inside = true :=
      (congrArg Drainer.inside (mem_append_other hthread hne)).trans hin
    obtain ⟨a₁, k₁, hp₁, -⟩ := enabled_inside h₁ hin₁
    have hfree : g₁.state.mutex .mu = none := by
      refine hmu₁.resolve_right fun hown => ?_
      cases hend₁.symm.trans (((bounded h₁).holding u).owner.1 hown)
    obtain ⟨tr₂, g₂, h₂, -, hend₂, -⟩ := runs_until (q := Drainer.inside)
      (fun _ _ hi => hi) h₁ hp₁ (.inl hfree)
    rw [List.append_assoc] at h₂ hend₂
    exact ⟨tr₁ ++ tr₂, g₂, h₂, hend₂⟩

theorem not_stuck (h : Trail srv.jobs ⟨Server.init, []⟩ tr g)
    (hin : (mem (M := Server.machine) (watch srv) tr t).inside = true) :
    Enabled g t ∨ ∃ u, u ≠ t ∧ g.state.mutex .mu = some u ∧ Enabled g u := by
  obtain ⟨a, k, hp, hexec⟩ := enabled_inside h hin
  by_cases hlock : a = .lock .mu → g.state.mutex .mu = none
  · obtain ⟨c, b, s, he⟩ := hexec hlock
    exact .inl ⟨a, k, c, b, s, hp, he⟩
  · obtain ⟨rfl, hnone⟩ := Classical.not_imp.1 hlock
    obtain ⟨u, hu⟩ := Option.ne_none_iff_exists'.1 hnone
    have hholds := ((bounded h).holding u).owner.1 hu
    have hfree := ((watched srv).obeys h hp).1.2
    have hne : u ≠ t := by
      rintro rfl
      cases hfree.symm.trans hholds
    obtain ⟨a', k', hp', hexec'⟩ := enabled_inside h (((bounded h).holding u).within hholds)
    have hlock' : a' = .lock .mu → g.state.mutex .mu = none := by
      rintro rfl
      cases ((watched srv).obeys h hp').1.2.symm.trans hholds
    obtain ⟨c, b, s, he⟩ := hexec' hlock'
    exact .inr ⟨u, hne, hu, a', k', c, b, s, hp', he⟩

theorem plan_filter (taken : List (Conn × Sweep)) (c : Conn) :
    (taken.flatMap fun x => x.2.wakes x.1).filter (·.conn = c) =
      (taken.filter (·.1 = c)).flatMap fun x => x.2.wakes x.1 := by
  induction taken with
  | nil => rfl
  | cons x taken ih =>
    rw [List.flatMap_cons, List.filter_append, ih, List.filter_cons]
    by_cases hx : x.1 = c
    · simp [Sweep.wakes, hx]
    · simp [Sweep.wakes, hx]

theorem filter_taken {taken : List (Conn × Sweep)} (hn : (taken.map Prod.fst).Nodup)
    (hx : (c, w) ∈ taken) : taken.filter (·.1 = c) = [(c, w)] := by
  induction taken with
  | nil => cases hx
  | cons y taken ih =>
    obtain ⟨hy, hn⟩ := List.nodup_cons.1 hn
    rcases List.mem_cons.1 hx with rfl | hx
    · rw [List.filter_cons_of_pos (by simp), List.filter_eq_nil_iff.2]
      intro z hz
      rw [decide_eq_true_eq]
      rintro rfl
      exact hy (List.mem_map.2 ⟨z, hz, rfl⟩)
    · have hne : y.1 ≠ c := by
        rintro rfl
        exact hy (List.mem_map.2 ⟨_, hx, rfl⟩)
      rw [List.filter_cons_of_neg (by simpa using hne), ih hn hx]

def wakesSet (srv : Server) (tr : List Server.machine.Event) (t : Nat) (conn : Conn) : List Wake :=
  (mem (M := Server.machine) (watch srv) tr t).sweeper.done.filter (·.conn = conn)

def sweeps (srv : Server) (tr : List Server.machine.Event) (t : Nat) : List Sweep :=
  (mem (M := Server.machine) (watch srv) tr t).sweeper.sweeps

def stage (srv : Server) (tr : List Server.machine.Event) (t : Nat) : Stage :=
  (mem (M := Server.machine) (watch srv) tr t).sweeper.stage

theorem Status.step_ne_unknown {a : Action} {b : a.Resp} {st : Status} (c : Conn)
    (h : st ≠ .unknown) : st.step c a b ≠ .unknown := by
  cases a with
  | track conn =>
    rw [Status.step]
    split
    · nofun
    · exact h
  | untrack conn =>
    rw [Status.step]
    split
    · nofun
    · exact h
  | takeBatch =>
    rw [Status.step]
    split
    · nofun
    · exact h
  | _ => exact h

theorem status_of_accepted (hc : c ∈ accepted tr) : status tr c ≠ .unknown := by
  induction tr using List.reverseRecOn with
  | nil => cases hc
  | append_singleton tr e ih =>
    have hstep : status (tr ++ [e]) c = (status tr c).step c e.action e.answer := by simp [status]
    rw [accepted_snoc] at hc
    rw [hstep]
    rcases List.mem_append.1 hc with hc | hc
    · exact Status.step_ne_unknown c (ih hc)
    · obtain ⟨t, s, a, b⟩ := e
      cases a with
      | track conn =>
        cases List.mem_singleton.1 hc
        simp [Status.step]
      | _ => cases hc

namespace Scene.Sound

variable {sc : Scene} {l : List Nat}

theorem wakes_taken (h : sc.Sound srv l) (hout : (sc.mems t).sweeper.stage = .outside)
    (hx : (c, w) ∈ (sc.mems t).sweeper.taken) :
    (sc.mems t).sweeper.done.filter (·.conn = c) = w.wakes c := by
  rw [(h.progress t).settled hout, Sweeper.plan, plan_filter, filter_taken (h.ledger.once t) hx]
  exact List.append_nil _

theorem wakes_other (h : sc.Sound srv l) (hout : (sc.mems t).sweeper.stage = .outside)
    (hc : c ∉ (sc.mems t).took) : (sc.mems t).sweeper.done.filter (·.conn = c) = [] := by
  have hnone : (sc.mems t).sweeper.taken.filter (·.1 = c) = [] := by
    rw [List.filter_eq_nil_iff]
    intro x hx
    rw [decide_eq_true_eq]
    rintro rfl
    exact hc (List.mem_map_of_mem hx)
  rw [(h.progress t).settled hout, Sweeper.plan, plan_filter, hnone]
  rfl

theorem nothing_pending (h : sc.Sound srv l) (hout : ∀ t, (sc.mems t).sweeper.stage = .outside)
    (hw : w ∈ (sc.mems t).sweeper.sweeps) (htime : sc.clock < w.deadline)
    (hdrained : sc.drained = 0) : l = [] := by
  have hstage : ∀ v n, (sc.mems t).sweeper.stage ≠ .loop v n := by
    intro v n hv
    cases (hout t).symm.trans hv
  rcases (h.progress t).excuse hstage w hw with he | he | he
  · exact absurd htime (not_lt.2 he)
  · omega
  · exact he.2

end Scene.Sound

/-- Connection tracking and drain wake-up, in every run in which no connection is accepted twice.
The tracked connections are within the limit, where a negative one is zero. The pending list is well
formed and holds the connections that are neither closed nor taken. No drain outlives the rounds
that suffice for the pending connections; a call of the tracker can always go on or wait for one
that can, and it can be completed. When every drain has returned, none of their deadlines has passed
and the drained signal has not fired, every connection that was accepted and not closed before it
was taken has had its read and write deadline set once. -/
theorem connection_tracking (h : Trail srv.jobs ⟨Server.init, []⟩ tr g)
    (hn : (accepted tr).Nodup) :
    (g.state.drain.connections.keys.length : Int) ≤ max srv.cfg.maxConnections 0 ∧
    ((∀ m n, g.state.drain.links.next m = some n ↔ g.state.drain.links.prev n = some m) ∧
      (∀ n, ¬ g.state.drain.links.Leads n n) ∧
      (∀ n, g.state.drain.pendingHead = some n → g.state.drain.links.prev n = none) ∧
      ∀ c, (∃ n, g.state.drain.links.Member n ∧ g.state.drain.conns[n]? = some c) ↔
        status tr c = .pending) ∧
    ((∀ t, stage srv tr t ≠ .spent) ∧
      ∀ t, (mem (M := Server.machine) (watch srv) tr t).inside = true →
        (Enabled g t ∨ ∃ u, u ≠ t ∧ g.state.mutex .mu = some u ∧ Enabled g u) ∧
        ∃ tr' g', Trail srv.jobs ⟨Server.init, []⟩ (tr ++ tr') g' ∧
          (mem (M := Server.machine) (watch srv) (tr ++ tr') t).inside = false) ∧
    ((∀ t, stage srv tr t = .outside) → (∃ t, sweeps srv tr t ≠ []) →
      (∀ t, ∀ w ∈ sweeps srv tr t, g.state.clock < w.deadline) →
      g.state.channels .drained = 0 →
      ∀ c ∈ accepted tr, status tr c ≠ .closed →
        ∃ t, ∃ w ∈ sweeps srv tr t,
          wakesSet srv tr t c = [⟨c, .read, w.wakeAt⟩, ⟨c, .write, w.deadline⟩] ∧
          ∀ u, u ≠ t → wakesSet srv tr u c = []) := by
  obtain ⟨l, hl⟩ := sound h hn
  have hspells : g.state.drain.links.Spells l := hl.ledger.tracking.spells
  refine ⟨?_, ⟨?_, ?_, ?_, ?_⟩, ⟨?_, ?_⟩, ?_⟩
  · have hbound : g.state.drain.connections.keys.length ≤ srv.cfg.maxConnections.toNat :=
      (bounded h).bound
    omega
  · exact fun m n => hspells.next_iff_prev
  · exact hspells.acyclic
  · exact fun n hhead => hspells.head_prev hhead
  · intro c
    simp only [hspells.member_iff]
    exact hl.ledger.pending c
  · exact fun t => (hl.progress t).unspent
  · exact fun t hin => ⟨not_stuck h hin, returns h hin⟩
  · rintro hout ⟨t₀, ht₀⟩ htime hdrained c hc hclosed
    obtain ⟨w₀, hw₀⟩ := List.exists_mem_of_ne_nil _ ht₀
    have hnil := hl.nothing_pending hout hw₀ (htime t₀ w₀ hw₀) hdrained
    have hpending : status tr c ≠ .pending := by
      intro hp
      obtain ⟨n, hmem, -⟩ := (hl.ledger.pending c).2 hp
      rw [hnil] at hmem
      cases hmem
    have htaken : status tr c = .taken := by
      cases hs : status tr c with
      | unknown => exact absurd hs (status_of_accepted hc)
      | pending => exact absurd hs hpending
      | taken => rfl
      | closed => exact absurd hs hclosed
    obtain ⟨t, ht⟩ := (hl.ledger.taken c).2 htaken
    obtain ⟨⟨c', w⟩, hx, rfl⟩ := List.mem_map.1 ht
    refine ⟨t, w, (hl.progress t).owned _ hx, hl.wakes_taken (hout t) hx, fun u hu => ?_⟩
    exact hl.wakes_other (hout u) fun hc => hu (hl.ledger.apart u t _ hc ht)

/-- Three connections are accepted, and the second one is closed while all are pending. The drain
that takes the others is overtaken by another one, between the two that it wakes. -/
def sampleTurns : List (Turn Server.machine) :=
  [.spawn (Server.sample.run (.acceptConnection (some 7))), .run 0 100,
    .spawn (Server.sample.run (.acceptConnection (some 8))), .run 1 100,
    .spawn (Server.sample.run (.acceptConnection (some 9))), .run 2 100,
    .spawn (Server.sample.run (.connectionClosed (some 8) true)), .run 3 100,
    .spawn (Server.sample.run (.beginDrain 100)), .run 4 20,
    .spawn (Server.sample.run (.beginDrain 200)), .run 5 100, .run 4 100]

def sampleTracked : Server.machine.Config × List Server.machine.Event :=
  Config.play (M := Server.machine) Server.pick ⟨Server.init, []⟩ sampleTurns

theorem sampleTracked_trail :
    Trail Server.sample.jobs ⟨Server.init, []⟩ sampleTracked.2 sampleTracked.1 := by
  have hturns : ∀ x ∈ sampleTurns, x.Allowed Server.sample.jobs := by
    simp only [sampleTurns, List.forall_mem_cons, Turn.Allowed, true_and]
    exact ⟨⟨_, rfl⟩, ⟨_, rfl⟩, ⟨_, rfl⟩, ⟨_, rfl⟩, ⟨_, rfl⟩, ⟨_, rfl⟩, by simp⟩
  have hnil : Trail Server.sample.jobs ⟨Server.init, []⟩ [] ⟨Server.init, []⟩ := .nil
  have h := hnil.play (fun _ _ _ => trivial) Server.pick hturns
  rwa [List.nil_append] at h

theorem connection_tracking_sample :
    status sampleTracked.2 8 = .closed ∧
    ∀ c ∈ [7, 9], ∃ t, ∃ w ∈ sweeps Server.sample sampleTracked.2 t,
      wakesSet Server.sample sampleTracked.2 t c =
        [⟨c, .read, w.wakeAt⟩, ⟨c, .write, w.deadline⟩] ∧
      ∀ u, u ≠ t → wakesSet Server.sample sampleTracked.2 u c = [] := by
  have hquiet : sampleTracked.1.Quiescent := by decide +kernel
  have hthreads : ∀ e ∈ sampleTracked.2, e.thread < 6 := by decide +kernel
  have hopen : ∀ c ∈ [7, 9], c ∈ accepted sampleTracked.2 ∧ status sampleTracked.2 c ≠ .closed := by
    decide +kernel
  refine ⟨by decide +kernel, fun c hc => ?_⟩
  refine (connection_tracking sampleTracked_trail (by decide +kernel)).2.2.2 ?_
    ⟨4, by decide +kernel⟩ ?_
    (by decide +kernel) c (hopen c hc).1 (hopen c hc).2
  · intro t
    obtain ⟨job, hμ⟩ := (watched Server.sample).idle_mem sampleTracked_trail hquiet t
    exact hμ.outside
  · intro t w hw
    by_cases ht : t < 6
    · have hall : ∀ t < 6, ∀ w ∈ sweeps Server.sample sampleTracked.2 t,
          sampleTracked.1.state.clock < w.deadline := by decide +kernel
      exact hall t ht w hw
    · have hnil : acts sampleTracked.2 t = acts [] t :=
        acts_eq_nil fun e he hthread => ht (hthread ▸ hthreads e he)
      have hnone : sweeps Server.sample sampleTracked.2 t = [] :=
        congrArg (fun μ : Drainer => μ.sweeper.sweeps)
          (mem_congr (M := Server.machine) (K := watch Server.sample) hnil)
      rw [hnone] at hw
      cases hw

end Slizen.Proxy
