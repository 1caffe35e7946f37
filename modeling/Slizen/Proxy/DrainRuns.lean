import Mathlib.Algebra.BigOperators.Ring.Finset
import Slizen.Interleaving.Trail
import Slizen.Proxy.DrainOutline

namespace Slizen.Proxy
set_option autoImplicit true

open Interleaving Machine Finset

theorem World.admits_eq_false {b : a.Resp} (he : World.exec t a c s = some (b, s'))
    (hd : s.drain.draining = true) : a.admits (s.trace t) b = false := by
  obtain ⟨s₁, hs, -⟩ := World.exec_eq he
  cases a with
  | drainingLoad =>
    cases hs
    simp [Action.admits, hd]
  | _ => rfl

theorem World.exec_connections {conn : Conn} {b : a.Resp}
    (he : World.exec t a c s = some (b, s')) : conn ∈ s'.drain.connections.keys ↔
      a = .track conn ∨ conn ∈ s.drain.connections.keys ∧ a ≠ .untrack conn := by
  obtain ⟨s₁, hs, rfl⟩ := World.exec_eq he
  have hsame (h : s₁.drain.connections = s.drain.connections)
      (hno : ∀ conn, a ≠ .track conn ∧ a ≠ .untrack conn) : conn ∈ s₁.drain.connections.keys ↔
        a = .track conn ∨ conn ∈ s.drain.connections.keys ∧ a ≠ .untrack conn := by
    simp [h, hno]
  cases a with
  | track conn' =>
    cases hs
    show conn ∈ s.drain.connections.insert conn' s.drain.nodes.length ↔ _
    rw [AList.mem_insert]
    simp [AList.mem_keys, eq_comm]
  | untrack conn' =>
    cases hs
    show conn ∈ s.drain.connections.erase conn' ↔ _
    rw [AList.mem_erase]
    simp [AList.mem_keys, and_comm, eq_comm]
  | lock m =>
    simp only [World.step] at hs
    split at hs <;> cases hs
    exact hsame rfl (by simp)
  | unlock m =>
    simp only [World.step] at hs
    split at hs <;> cases hs
    exact hsame rfl (by simp)
  | onceClose ch =>
    cases hs
    refine hsame ?_ (by simp)
    split <;> rfl
  | _ =>
    first
    | exact hsame (World.step_same (by trivial) hs).drain.connections (by simp)
    | cases hs
      exact hsame rfl (by simp)

namespace Drain

theorem Pre.accepts (hp : Pre t a s) (hd : s.drain.draining = true) : a.accepts = false := by
  cases a with
  | track conn =>
    have hfalse := hp.2
    rw [hd] at hfalse
    cases hfalse
  | _ => rfl

end Drain

namespace Server

abbrev Reachable (srv : Server) (g : machine.Config) : Prop := Reach srv.jobs ⟨init, []⟩ g

variable {srv : Server} {g g' : machine.Config} {t : Nat}

theorem Reachable.base (h : srv.Reachable g) : Drain.Base g.state :=
  ((Drain.verified srv).holds h).inv

theorem Reachable.stopped_step (h : srv.Reachable g) (hd : g.state.drain.draining = true)
    (hn : g.next m = some g') : g'.state.drain.draining = true ∧
      g'.state.admissions = g.state.admissions ∧ g'.state.acceptances = g.state.acceptances := by
  cases m with
  | run t c =>
    obtain ⟨a, k, b, s, hp, he, rfl⟩ := Config.next_run hn
    have hpre : Drain.Pre t a g.state := (Drain.verified srv).pre h hp
    have hrely := (h.base.act hpre he).2 (t + 1) (Nat.succ_ne_self t)
    have hadmits := World.admits_eq_false he hd
    obtain ⟨s₁, -, rfl⟩ := World.exec_eq he
    refine ⟨hrely.draining hd, ?_, ?_⟩
    · exact congrArg (g.state.admissions + Bool.toNat ·) hadmits
    · exact congrArg (g.state.acceptances + Bool.toNat ·) (hpre.accepts hd)
  | spawn p =>
    cases hn
    exact ⟨hd, rfl, rfl⟩
  | env e =>
    obtain ⟨s, he, rfl⟩ := Config.next_env hn
    have hs : s.drain = g.state.drain ∧ s.admissions = g.state.admissions ∧
        s.acceptances = g.state.acceptances := by
      rw [Drain.env_eq he]
      exact ⟨rfl, rfl, rfl⟩
    exact ⟨by rw [hs.1]; exact hd, hs.2⟩

theorem Reachable.stopped (h : srv.Reachable g) (hd : g.state.drain.draining = true)
    (hr : Reach srv.jobs g g') : g'.state.drain.draining = true ∧
      g'.state.admissions = g.state.admissions ∧ g'.state.acceptances = g.state.acceptances := by
  induction hr with
  | refl => exact ⟨hd, rfl, rfl⟩
  | step m hg _ hn ih =>
    obtain ⟨hd', hadm, hacc⟩ := Reachable.stopped_step (h.trans hg) ih.1 hn
    exact ⟨hd', hadm.trans ih.2.1, hacc.trans ih.2.2⟩

def count (g : machine.Config) (q : Phase → Prop) [DecidablePred q] : Nat :=
  ((range g.pool.length).filter fun t => q (g.state.trace t).phase).card

theorem Phase.weight_eq (ph : Phase) : ph.weight = (if ph = .admitted then 1 else 0) +
    if ph = .reserved ∨ ph = .refused then 1 else 0 := by
  cases ph <;> rfl

theorem Reachable.active_eq (h : srv.Reachable g) : g.state.drain.active =
    count g (· = .admitted) + count g (fun ph => ph = .reserved ∨ ph = .refused) := by
  have hz : ∀ u, g.pool.length ≤ u → (g.state.share u).phase.weight = 0 := by
    intro u hu
    have hfresh : Drain.Outside u .idle g.state :=
      (Drain.verified srv).unborn h (List.getElem?_eq_none_iff.2 hu)
    rw [hfresh.share]
    rfl
  rw [h.base.balance.range hz]
  simp only [Phase.weight_eq, sum_add_distrib, sum_boole, count]
  rfl

/-- An accepted connection that has not been closed since. -/
def Open (tr : List machine.Event) (conn : Conn) : Prop :=
  ∃ tr₁ e tr₂, tr = tr₁ ++ e :: tr₂ ∧ e.action = .track conn ∧
    ∀ e' ∈ tr₂, e'.action ≠ .untrack conn

theorem not_open_nil (conn : Conn) : ¬ Open [] conn := by
  rintro ⟨tr₁, e, tr₂, htr, -⟩
  simp at htr

theorem open_snoc {tr : List machine.Event} {e : machine.Event} : Open (tr ++ [e]) conn ↔
    e.action = .track conn ∨ Open tr conn ∧ e.action ≠ .untrack conn := by
  constructor
  · rintro ⟨tr₁, e', tr₂, htr, he', hno⟩
    rcases List.eq_nil_or_concat tr₂ with rfl | ⟨tr₂, x, rfl⟩
    · obtain ⟨-, hlast⟩ := List.append_inj' htr rfl
      cases hlast
      exact .inl he'
    · rw [List.concat_eq_append] at htr hno
      rw [← List.cons_append, ← List.append_assoc] at htr
      obtain ⟨rfl, hlast⟩ := List.append_inj' htr rfl
      cases hlast
      obtain ⟨hno, hx⟩ := List.forall_mem_append.1 hno
      exact .inr ⟨⟨tr₁, e', tr₂, rfl, he', hno⟩, hx _ (List.mem_singleton_self _)⟩
  · rintro (he | ⟨⟨tr₁, e', tr₂, rfl, he', hno⟩, he⟩)
    · exact ⟨tr, e, [], rfl, he, by simp⟩
    · refine ⟨tr₁, e', tr₂ ++ [e], by simp, he', ?_⟩
      rw [List.forall_mem_append]
      exact ⟨hno, by simpa using he⟩

/-- The tracker knows the connections that were accepted and have not been closed since. -/
theorem tracked_iff_open {tr : List machine.Event} (h : Trail srv.jobs ⟨init, []⟩ tr g)
    (conn : Conn) : conn ∈ g.state.drain.connections.keys ↔ Open tr conn := by
  apply h.invariant (J := fun tr s => conn ∈ (World.drain s).connections.keys ↔ Open tr conn)
  · exact iff_of_false (by simp [init]) (not_open_nil conn)
  · intro tr g t a k c b s _ _ ih he
    rw [open_snoc, ← ih]
    exact World.exec_connections he
  · intro tr e s s' ih he
    rw [Drain.env_eq he]
    exact ih

/-- Drain completion. Once the channel is closed no admitted handler is unfinished, no accepted
connection is open, and nothing is ever let in again. Where no call of the tracker is under way
and nothing is left, the channel is closed; it is closed once, as is the one that tells of the
start. The tracker knows exactly the open connections, its counter is the number of admitted
handlers and of reservations that are undecided or not yet given up, and no goroutine ever
panics. -/
theorem drain_exact {tr : List machine.Event} (h : Trail srv.jobs ⟨init, []⟩ tr g) :
    (0 < g.state.channels .drained →
      (∀ t, (g.state.trace t).phase ≠ .admitted) ∧ (∀ conn, ¬ Open tr conn) ∧
      ∀ g', Reach srv.jobs g g' → g'.state.admissions = g.state.admissions ∧
        g'.state.acceptances = g.state.acceptances) ∧
    ((∀ t, (g.state.trace t).calling = false) → g.state.drain.draining = true →
      g.state.drain.active = 0 → (∀ conn, ¬ Open tr conn) → 0 < g.state.channels .drained) ∧
    g.state.channels .drained ≤ 1 ∧ g.state.channels .started ≤ 1 ∧
    (∀ conn, conn ∈ g.state.drain.connections.keys ↔ Open tr conn) ∧
    g.state.drain.active =
      count g (· = .admitted) + count g (fun ph => ph = .reserved ∨ ph = .refused) ∧
    ∀ (t : Nat) msg k, g.pool[t]? ≠ some (Prog.act (.panic msg) k : machine.Program) := by
  have hr : srv.Reachable g := h.reach
  have hb := hr.base
  have hopen : g.state.drain.connections.keys = [] ↔ ∀ conn, ¬ Open tr conn := by
    simp only [List.eq_nil_iff_forall_not_mem, tracked_iff_open h]
  refine ⟨fun hpos => ?_, fun hcalling hd ha hk => ?_, hb.once, hb.started, tracked_iff_open h,
    hr.active_eq, fun t msg k hp => ?_⟩
  · obtain ⟨hd, hnone, hk⟩ := hb.drained hpos
    exact ⟨hnone, hopen.1 hk, fun g' hr' => (hr.stopped hd hr').2⟩
  · by_contra hz
    obtain ⟨u, hu⟩ := hb.duty ⟨hd, ha, hopen.2 hk⟩ (Nat.eq_zero_of_not_pos hz)
    have hc := hb.calling u hu
    exact absurd (hc.symm.trans (hcalling u)) nofun
  · exact (Drain.verified srv).pre hr hp

def sample : Server := ⟨(Config.default "secret").proxy, ⟨id, id⟩⟩

def pick (_ : World) (_ : Action) : Choice := .any

theorem Reachable.call (h : srv.Reachable g) (job : Job) : srv.Reachable (g.spawn (srv.run job)) :=
  .step (.spawn (srv.run job)) h ⟨job, rfl⟩ rfl

theorem Reachable.go (h : srv.Reachable g) (t n : Nat) : srv.Reachable (g.drive pick t n) :=
  h.drive (fun _ _ _ => trivial) pick t n

/-- A drain begins while a command of an accepted connection is being handled, and the handler
comes to its end. -/
def sampleDraining : machine.Config :=
  let g : machine.Config := ⟨init, []⟩
  let g := (g.spawn (sample.run (.acceptConnection (some 5)))).drive pick 0 100
  let g := (g.spawn (sample.run (.serve (some 5) [⟨[], [ascii "PING"]⟩]))).drive pick 1 6
  ((g.spawn (sample.run .stopAdmission)).drive pick 2 100).drive pick 1 100

def sampleDrained : machine.Config :=
  (sampleDraining.spawn (sample.run (.connectionClosed (some 5) true))).drive pick 3 100

theorem drain_exact_sample : sampleDraining.state.drain.active = 0 ∧
    sampleDraining.state.channels .drained = 0 ∧ sampleDrained.state.channels .drained = 1 ∧
    ∃ tr tr', Trail sample.jobs ⟨init, []⟩ tr sampleDraining ∧ Open tr 5 ∧
      Trail sample.jobs ⟨init, []⟩ tr' sampleDrained ∧ (∀ conn, ¬ Open tr' conn) ∧
      ∀ g', Reach sample.jobs sampleDrained g' →
        g'.state.admissions = 1 ∧ g'.state.acceptances = 1 := by
  have hdraining : sample.Reachable sampleDraining :=
    ((((((Reachable.call .refl (.acceptConnection (some 5))).go 0 100).call
      (.serve (some 5) [⟨[], [ascii "PING"]⟩])).go 1 6).call .stopAdmission).go 2 100).go 1 100
  have hdrained : sample.Reachable sampleDrained :=
    (hdraining.call (.connectionClosed (some 5) true)).go 3 100
  obtain ⟨tr, htr⟩ := hdraining.trail
  obtain ⟨tr', htr'⟩ := hdrained.trail
  have hrun : sampleDraining.state.drain.active = 0 ∧
      sampleDraining.state.channels .drained = 0 ∧ sampleDrained.state.channels .drained = 1 ∧
      5 ∈ sampleDraining.state.drain.connections.keys ∧ sampleDrained.state.admissions = 1 ∧
      sampleDrained.state.acceptances = 1 := by decide +kernel
  obtain ⟨hactive, hopen, hclosed, hmem, hadm, hacc⟩ := hrun
  obtain ⟨-, hnone, hlater⟩ := (drain_exact htr').1 (by omega)
  refine ⟨hactive, hopen, hclosed, tr, tr', htr, ?_, htr', hnone, fun g' hg => ?_⟩
  · exact ((drain_exact htr).2.2.2.2.1 5).1 hmem
  · exact ⟨(hlater g' hg).1.trans hadm, (hlater g' hg).2.trans hacc⟩

end Server
end Slizen.Proxy
