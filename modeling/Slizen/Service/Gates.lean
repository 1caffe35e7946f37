import Mathlib.Data.Fintype.EquivFin
import Slizen.Service.Runs

namespace Slizen
set_option autoImplicit true

open Interleaving Machine

def Job.isWrite : Job → Bool
  | .executeWrite _ _ _ => true
  | _ => false

def Action.Waits : Action → Prop
  | .ctxErr => True
  | .gate _ _ => True
  | .note _ => True
  | _ => False

/-- A write has got its gates, or a call turns out to be no write. -/
def Action.Opens : Action → Prop
  | .note (.openWindow _) => True
  | .note (.start job) => job.isWrite = false
  | _ => False

theorem Action.Waits.frame {a : Action} {b : a.Resp} {s s' : World} (ha : a.Waits)
    (h : World.exec t a c s = some (b, s')) :
    s'.tiers = s.tiers ∧ s'.stripes = s.stripes ∧ s'.origin = s.origin := by
  obtain ⟨s₁, hs, rfl⟩ := World.exec_eq_some.1 h
  have hf := World.step_frame hs
  cases a <;> first | exact ha.elim | exact ⟨hf.tiers nofun, hf.stripes nofun, hf.origin nofun⟩

namespace Service

variable {svc : Service} {direct : Bool} {content : Key → Option Bytes} {g : svc.machine.Config}
  {s s' : World} {t : Nat} {a : Action} {b : a.Resp} {c : Choice}

theorem until_each {f : α → Run Unit} (hf : ∀ x, (f x).Until Action.Opens Action.Waits)
    (l : List α) :
    (Run.each f l).Until Action.Opens Action.Waits := by
  induction l with
  | nil => trivial
  | cons x rest ih => exact (hf x).bind fun _ => ih

theorem until_release (l : List Stripe) :
    (releaseMutationStripes l).Until Action.Opens Action.Waits := by
  have hone : ∀ σ : Stripe, (Run.do (.gate σ .receive)).Until Action.Opens Action.Waits :=
    fun _ => .inr ⟨trivial, fun _ => trivial⟩
  exact until_each hone _

theorem until_acquire (rest acquired : List Stripe) :
    (acquireMutationStripes acquired rest).Until Action.Opens Action.Waits := by
  induction rest generalizing acquired with
  | nil => trivial
  | cons σ rest ih =>
    refine .inr ⟨trivial, fun err => ?_⟩
    cases err with
    | some e => exact (until_release acquired).bind fun _ => trivial
    | none =>
      refine .inr ⟨trivial, fun err => ?_⟩
      cases err with
      | some e => exact (until_release acquired).bind fun _ => trivial
      | none => exact ih _

theorem until_call (job : Job) : (svc.call job).Until Action.Opens Action.Waits := by
  cases job with
  | executeWrite command args keys =>
    have hfinish : ∀ reply, (note (.finish reply)).Until Action.Opens Action.Waits :=
      fun _ => .inr ⟨trivial, fun _ => trivial⟩
    have hwrite : (svc.executeWrite command args keys).Until Action.Opens Action.Waits := by
      refine (until_acquire _ _).bind fun acquired => ?_
      cases acquired with
      | error e => trivial
      | ok stripes => exact .inl trivial
    have hperform :
        (svc.perform (.executeWrite command args keys)).Until Action.Opens Action.Waits :=
      hwrite.bind fun _ => trivial
    exact .inr ⟨trivial, fun _ => hperform.bind hfinish⟩
  | _ => exact .inl rfl

theorem until_fork {a : Action} {b : a.Resp} (h : svc.fork a b = some p) :
    p.Until Action.Opens Action.Waits := by
  obtain ⟨key, epoch, policy, f, rfl⟩ := fork_flight h
  exact .inl rfl

/-- The goroutine has not turned out to be anything but a write, and has not got its gates. -/
def Early (t : Nat) (s : World) : Prop :=
  (∀ j, (s.trace t).call = some j → j.isWrite = true) ∧ (s.trace t).opened = false

theorem Early.before (hp : svc.Pre t a s) (he : World.exec t a c s = some (b, s'))
    (h : Early t s') : Early t s ∧ ¬ a.Opens := by
  have hc := change hp he
  refine ⟨⟨fun j hj => ?_, hc.opened h.2⟩, fun ha => ?_⟩
  · rcases hc.call_cases with ⟨hsame, -⟩ | ⟨hnew, -⟩
    · exact h.1 j (hsame.trans hj)
    · rw [hnew] at hj
      cases hj
  · have htr := World.exec_trace he
    unfold Action.Opens at ha
    split at ha
    · have := h.2
      rw [htr] at this
      cases this
    · rename_i job
      have := h.1 job (by rw [htr]; rfl)
      rw [ha] at this
      cases this
    · exact ha

/-- A step of a write that has not got its gates leaves the tiers, the stripes and the origin
alone. -/
theorem Reachable.early (h : svc.Reachable direct content g) (hp : g.pool[t]? = some (.act a k))
    (he : World.exec t a c g.state = some (b, s')) (hs : Early t s') : Early t g.state ∧
      s'.tiers = g.state.tiers ∧ s'.stripes = g.state.stripes ∧ s'.origin = g.state.origin := by
  obtain ⟨hs₀, hopens⟩ := hs.before (h.verified.pre h hp) he
  have hu : (Prog.act a k : svc.machine.Program).Until Action.Opens Action.Waits := by
    refine h.verified.early (E := Early) ?_ ?_ (fun hp he hs => hs.before hp he) ?_ h hp hs₀
    · rintro p ⟨job, -, rfl⟩
      exact until_call job
    · exact fun a b p hf => until_fork hf
    · intro u s s' hr hs
      unfold Early at hs ⊢
      rw [hr.same] at hs
      exact hs
  exact ⟨hs₀, (hu.resolve_left hopens).1.frame he⟩

structure Orderly (s : World) : Prop where
  gates : ∀ σ t, s.gates σ = some t →
    ∃ command args keys, (s.trace t).job = some (.executeWrite command args keys)
  gated : ∀ t keys, (s.trace t).gated = some keys →
    ∀ k ∈ keys, s.gates (cacheEpochStripe k) = some t
  underway : ∀ t j, (s.trace t).job = some j → (s.trace t).call = some j ∧ (s.trace t).done = none
  refused :
    ∀ t m reply command args keys, (s.trace t).call = some (.executeWrite command args keys) →
    (s.trace t).done = some (m, reply) → (s.trace t).opened = false →
      ∃ e, reply = .executeWrite (.error e)

theorem Orderly.gates_act (h : Orderly s) (hp : svc.Pre t a s)
    (he : World.exec t a c s = some (b, s')) (hg : s'.gates σ = some u) :
    ∃ command args keys, (s'.trace u).job = some (.executeWrite command args keys) := by
  rcases gates_cases he hg with hg₀ | ⟨rfl, rfl⟩
  · obtain ⟨command, args, keys, hj⟩ := h.gates σ u hg₀
    rcases trace_cases hp he u with hsame | ⟨rfl, hc⟩
    · exact ⟨command, args, keys, hsame ▸ hj⟩
    · rcases hc.job_cases with ⟨hsame, -⟩ | ⟨hnew, -⟩ | ⟨reply, rfl, -⟩
      · exact ⟨command, args, keys, hsame.trans hj⟩
      · rw [hnew] at hj
        cases hj
      · exact absurd hg₀ (hp.2.gates σ)
  · rw [World.exec_trace he]
    exact hp.2.1

theorem Orderly.gated_act (h : Orderly s) (hi : svc.Base s) (hp : svc.Pre t a s)
    (he : World.exec t a c s = some (b, s')) (hw : (s'.trace u).gated = some keys) (hk : k ∈ keys) :
    s'.gates (cacheEpochStripe k) = some u := by
  have hold : (s.trace u).gated = some keys → s'.gates (cacheEpochStripe k) = some u := by
    intro hw₀
    refine (gates_kept hi hp he (h.gated u keys hw₀ k hk)).resolve_right ?_
    rintro ⟨rfl, rfl⟩
    rw [hp.2] at hw₀
    cases hw₀
  rcases trace_cases hp he u with hsame | ⟨rfl, hc⟩
  · exact hold (hsame ▸ hw)
  · rcases hc.gated_cases hw with hw₀ | rfl
    · exact hold hw₀
    · exact (gates_kept hi hp he (hp.2.2 k hk)).resolve_right nofun

theorem Orderly.refused_act (h : Orderly s) (hp : svc.Pre t a s)
    (he : World.exec t a c s = some (b, s'))
    (hw : (s'.trace u).call = some (.executeWrite command args keys))
    (hd : (s'.trace u).done = some (m, reply)) (ho : (s'.trace u).opened = false) :
    ∃ e, reply = .executeWrite (.error e) := by
  rcases trace_cases hp he u with hsame | ⟨rfl, hc⟩
  · rw [hsame] at hw hd ho
    exact h.refused u m reply command args keys hw hd ho
  · rcases hc.job_cases with ⟨-, hdone⟩ | ⟨-, hnone, -⟩ | ⟨reply', rfl, -, -, hdone⟩
    · rcases hc.call_cases with ⟨hcall, -⟩ | ⟨-, job, -, hnew⟩
      · exact h.refused u m reply command args keys (hcall.symm.trans hw) (hdone.symm.trans hd)
          (hc.opened ho)
      · rw [hnew] at hd
        cases hd
    · rw [hnone] at hd
      cases hd
    · -- The write returns just now, with the reply that the goroutine knows about.
      obtain ⟨⟨j, hj, hret⟩, -⟩ := hp
      rw [hdone] at hd
      cases hd
      rcases hc.call_cases with ⟨hcall, -⟩ | ⟨-, job, ha, -⟩
      · have hjw := (h.underway u j hj).1.symm.trans (hcall.symm.trans hw)
        cases hjw
        exact hret.2 (hc.opened ho)
      · cases ha

theorem Orderly.act (h : Orderly s) (hi : svc.Base s) (hp : svc.Pre t a s)
    (he : World.exec t a c s = some (b, s')) : Orderly s' where
  gates := fun _ _ hg => h.gates_act hp he hg
  gated := fun _ _ hw _ hk => h.gated_act hi hp he hw hk
  underway := by
    intro u
    rcases trace_cases hp he u with hsame | ⟨rfl, hc⟩
    · rw [hsame]
      exact h.underway u
    · exact hc.underway (h.underway u)
  refused := fun _ _ _ _ _ _ hw hd ho => h.refused_act hp he hw hd ho

theorem Reachable.orderly (h : svc.Reachable direct content g) : Orderly g.state := by
  refine h.invariant (J := Orderly) ⟨nofun, nofun, nofun, nofun⟩
    (fun hi hj hp he => hj.act hi hp he) ?_
  intro e s s' _ hj _ he
  rw [World.env_eq he]
  exact ⟨hj.gates, hj.gated, hj.underway, hj.refused⟩

def Unfinished (g : svc.machine.Config) (t : Nat) : Prop := ∃ a k, g.pool[t]? = some (.act a k)

/-- The operation waits for a stripe mutex or a mutation gate, and nothing lets it go on. -/
def Blocked (g : svc.machine.Config) (t : Nat) : Prop := ∃ a k, g.pool[t]? = some (.act a k) ∧
  (∃ σ, a = .stripe σ .lock ∨ a = .gate σ .send) ∧ ∀ c, World.exec t a c g.state = none

theorem locked_of_blocked (h : ∀ c, World.exec t (.stripe σ .lock) c s = none) :
    ∃ u, s.Owns u σ := by
  cases ho : (s.stripes σ).owner with
  | some u => exact ⟨u, ho⟩
  | none =>
    have := h .any
    simp [World.exec, World.step, StripeOp.run, ho] at this

theorem full_of_blocked (h : ∀ c, World.exec t (.gate σ .send) c s = none) :
    ∃ u, s.gates σ = some u := by
  cases hg : s.gates σ with
  | some u => exact ⟨u, rfl⟩
  | none =>
    have := h .any
    simp [World.exec, World.step, GateOp.run, hg] at this

theorem Reachable.holder (h : svc.Reachable direct content g) (t : Nat)
    (hold : (∃ σ, g.state.Owns t σ) ∨ ∃ σ, g.state.gates σ = some t) : Unfinished g t := by
  cases hp : g.pool[t]? with
  | none =>
    have hu : Unstarted t g.state := h.verified.unborn h hp
    rcases hold with ⟨σ, ho⟩ | ⟨σ, hg⟩
    · exact absurd ho (hu.stripes σ)
    · exact absurd hg (hu.gates σ)
  | some p =>
    cases p with
    | ret x =>
      have hr : AtRest t g.state := h.verified.done h hp
      rcases hold with ⟨σ, ho⟩ | ⟨σ, hg⟩
      · exact absurd ho (hr.stripes σ)
      · exact absurd hg (hr.gates σ)
    | act a k => exact ⟨a, k, hp⟩

theorem Reachable.higher_stripe (h : svc.Reachable direct content g)
    (hall : ∀ t, Unfinished g t → Blocked g t) (ho : g.state.Owns u σ) :
    ∃ τ v, σ < τ ∧ g.state.Owns v τ := by
  obtain ⟨a, k, hp, ⟨τ, rfl | rfl⟩, hb⟩ := hall u (h.holder u (.inl ⟨σ, ho⟩))
  · have hpre : svc.Pre u (.stripe τ .lock) g.state := h.verified.pre h hp
    obtain ⟨v, hv⟩ := locked_of_blocked hb
    exact ⟨τ, v, hpre σ ho, hv⟩
  · have hpre : svc.Pre u (.gate τ .send) g.state := h.verified.pre h hp
    exact absurd ho (hpre.2.2.1 σ)

theorem Reachable.no_stripe (h : svc.Reachable direct content g)
    (hall : ∀ t, Unfinished g t → Blocked g t) (σ : Stripe) : ∀ u, ¬ g.state.Owns u σ := by
  induction σ using WellFoundedGT.induction with
  | ind σ ih =>
  intro u ho
  obtain ⟨τ, v, hlt, hv⟩ := h.higher_stripe hall ho
  exact ih τ hlt v hv

/-- If everybody is blocked, nobody waits for a stripe, and the holder of a gate waits for a
higher one. -/
theorem Reachable.higher_gate (h : svc.Reachable direct content g)
    (hall : ∀ t, Unfinished g t → Blocked g t) (ht : Unfinished g t) :
    ∃ τ v, (∀ σ, g.state.gates σ = some t → σ < τ) ∧ g.state.gates τ = some v := by
  obtain ⟨a, k, hp, ⟨τ, rfl | rfl⟩, hb⟩ := hall t ht
  · obtain ⟨v, hv⟩ := locked_of_blocked hb
    exact absurd hv (h.no_stripe hall τ v)
  · have hpre : svc.Pre t (.gate τ .send) g.state := h.verified.pre h hp
    obtain ⟨v, hv⟩ := full_of_blocked hb
    exact ⟨τ, v, hpre.2.2.2, hv⟩

theorem Reachable.no_gate (h : svc.Reachable direct content g)
    (hall : ∀ t, Unfinished g t → Blocked g t) (σ : Stripe) : ∀ u, g.state.gates σ ≠ some u := by
  induction σ using WellFoundedGT.induction with
  | ind σ ih =>
  intro u hg
  obtain ⟨τ, v, hlt, hv⟩ := h.higher_gate hall (h.holder u (.inr ⟨σ, hg⟩))
  exact ih τ (hlt σ hg) v hv

/-- The mutation gates. Two writes that have their gates share no stripe. A write that is refused
returns an error and holds no gate, and no step of it touches the tiers, the epochs or the origin;
gates are held by writes that have not returned, so all are free when every call has returned.
And never is everybody who has not returned blocked at a gate or a stripe. -/
theorem mutation_gates (h : svc.Reachable direct content g) :
    (∀ t u keys keys', t ≠ u → (g.state.trace t).gated = some keys →
      (g.state.trace u).gated = some keys' →
        ∀ k ∈ keys, ∀ k' ∈ keys', cacheEpochStripe k ≠ cacheEpochStripe k') ∧
    (∀ t m reply command args keys,
      (g.state.trace t).call = some (.executeWrite command args keys) →
      (g.state.trace t).done = some (m, reply) → (g.state.trace t).opened = false →
        (∃ e, reply = .executeWrite (.error e)) ∧ ∀ σ, g.state.gates σ ≠ some t) ∧
    (∀ t c g' command args keys, g.next (.run t c) = some g' →
      (g'.state.trace t).call = some (.executeWrite command args keys) →
      (g'.state.trace t).opened = false →
        (g.state.trace t).opened = false ∧ g'.state.tiers = g.state.tiers ∧
          (∀ σ, (g'.state.stripes σ).epoch = (g.state.stripes σ).epoch) ∧
          g'.state.origin = g.state.origin) ∧
    (∀ σ t, g.state.gates σ = some t →
      ∃ command args keys, (g.state.trace t).job = some (.executeWrite command args keys)) ∧
    (g.Quiescent → ∀ σ, g.state.gates σ = none) ∧
    ¬ ((∃ t, Unfinished g t) ∧ ∀ t, Unfinished g t → Blocked g t) := by
  have hj := h.orderly
  refine ⟨?_, ?_, ?_, hj.gates, ?_, ?_⟩
  · intro t u keys keys' htu ht hu k hk k' hk' heq
    have hg := hj.gated t keys ht k hk
    rw [heq, hj.gated u keys' hu k' hk'] at hg
    exact htu (Option.some.inj hg).symm
  · intro t m reply command args keys hw hd ho
    refine ⟨hj.refused t m reply command args keys hw hd ho, fun σ hg => ?_⟩
    obtain ⟨_, _, _, hjob⟩ := hj.gates σ t hg
    rw [(hj.underway t _ hjob).2] at hd
    cases hd
  · intro t c g' command args keys hn hw ho
    obtain ⟨a, k, b, s, hp, he, rfl⟩ := Config.next_run hn
    have hs : Early t s := by
      refine ⟨fun j hj => ?_, ho⟩
      cases hw.symm.trans hj
      rfl
    obtain ⟨hs₀, htiers, hstripes, horigin⟩ := h.early hp he hs
    exact ⟨hs₀.2, htiers, fun σ => congrArg StripeState.epoch (congrFun hstripes σ), horigin⟩
  · intro hq σ
    rw [Option.eq_none_iff_forall_ne_some]
    intro t hg
    obtain ⟨a, k, hp⟩ := h.holder t (.inr ⟨σ, hg⟩)
    cases hq _ (List.mem_of_getElem? hp)
  · rintro ⟨⟨t, ht⟩, hall⟩
    obtain ⟨τ, v, -, hv⟩ := h.higher_gate hall ht
    exact h.no_gate hall τ v hv

def sampleRefused : sample.machine.Config :=
  let first := sampleStart.spawn (sample.call (.executeWrite wordSET [[7], [1]] [[7]]))
  let g := (first.drive pick 0 4).spawn
    (sample.call (.executeWrite wordSET [[7], [2]] [[7]]))
  Config.drive pick 1 100 ⟨(g.state.env (.cancel 1 false)).getD g.state, g.pool⟩

theorem mutation_gates_sample :
    (sampleRefused.state.trace 0).gated = some [[7]] ∧
      (sampleRefused.state.trace 1).done.isSome = true ∧
      (∀ σ, sampleRefused.state.gates σ ≠ some 1) := by
  have hr : sample.Reachable false (fun _ => some [0]) sampleRefused :=
    ((((Reachable.call .refl (.executeWrite wordSET [[7], [1]] [[7]]) nofun).go 0 4).call
      (.executeWrite wordSET [[7], [2]] [[7]]) nofun).cancel 1 false rfl).go 1 100
  have hdone : (sampleRefused.state.trace 1).done.isSome = true := by decide +kernel
  obtain ⟨⟨m, reply⟩, hd⟩ := Option.isSome_iff_exists.1 hdone
  refine ⟨by decide +kernel, hdone, ?_⟩
  exact ((mutation_gates hr).2.1 1 m reply wordSET [[7], [2]] [[7]] (by decide +kernel) hd
    (by decide +kernel)).2

end Service
end Slizen
