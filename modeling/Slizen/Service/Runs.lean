import Slizen.Interleaving.Trail
import Slizen.Service.CallOutline
import Slizen.Service.Effects

namespace Slizen
set_option autoImplicit true

open Interleaving Machine

theorem World.env_eq {s s' : World} (h : s.env e = some s') :
    s' = { s with clock := s'.clock, contexts := s'.contexts, origin := s'.origin } := by
  cases e with
  | cancel t expired =>
    simp only [env] at h
    split at h <;> cases h
    rfl
  | _ =>
    cases h
    rfl

theorem World.env_contexts {s s' : World} {e : Env} (h : s.env e = some s')
    (hc : s.contexts t = some err) : s'.contexts t = some err := by
  cases e with
  | cancel u expired =>
    simp only [env] at h
    split at h
    · cases h
    · rename_i hnone
      cases h
      have hne : t ≠ u := by
        rintro rfl
        rw [hnone] at hc
        cases hc
      exact (Function.update_of_ne hne _ _).trans hc
  | _ =>
    cases h
    exact hc

namespace Service

def threadActs {svc : Service} (tr : List svc.machine.Event) (t : Nat) :
    List (Σ a, Action.Resp a) := acts tr t

theorem exec_of_mem {svc : Service} {P : svc.machine.Rules} {g₀ g : svc.machine.Config}
    {tr : List svc.machine.Event} (h : Trail P g₀ tr g) {a : Action} {b : a.Resp}
    (hx : ⟨a, b⟩ ∈ threadActs tr t) :
    ∃ e ∈ tr, e.thread = t ∧ e.act = ⟨a, b⟩ ∧ ∃ c s, World.exec t a c e.before = some (b, s) := by
  obtain ⟨⟨_, before, a, b⟩, he, rfl, hact⟩ := mem_acts.1 hx
  cases hact
  exact ⟨_, he, rfl, rfl, h.exec he⟩

/-- A configuration of some run of the service, over an origin with this content at first. -/
abbrev Reachable (svc : Service) (direct : Bool) (content : Key → Option Bytes)
    (g : svc.machine.Config) : Prop := Reach (svc.calls direct) ⟨svc.init content, []⟩ g

variable {svc : Service} {direct : Bool} {content : Key → Option Bytes} {g : svc.machine.Config}

theorem Reachable.verified (_ : svc.Reachable direct content g) :
    (svc.outline (svc.calls direct)).Verified (svc.init content) :=
  Service.verified _ (fun _ hp => hp) content

theorem Reachable.base (h : svc.Reachable direct content g) : svc.Base g.state :=
  (h.verified.holds h).inv

/-- The rule for properties of the shared state: every action keeps them where the goroutine
knows what it has to know, and so does the environment. -/
theorem Reachable.invariant {J : World → Prop} (h : svc.Reachable direct content g)
    (h₀ : J (svc.init content))
    (hact : ∀ {t : Nat} {a : Action} {c : Choice} {b : a.Resp} {s s' : World}, svc.Base s → J s →
      svc.Pre t a s → World.exec t a c s = some (b, s') → J s')
    (henv : ∀ {e : Env} {s s' : World}, svc.Base s → J s →
      (direct = true ∨ ∀ key value, e ≠ .originWrite key value) → s.env e = some s' → J s') :
    J g.state :=
  h.verified.invariant h₀ (fun hi hj _ hp he => hact hi hj hp he)
    (fun hi hj hx he => henv hi hj hx he) h

theorem Reachable.onward {J : World → Prop} {g₁ : svc.machine.Config}
    (h₁ : svc.Reachable direct content g₁) (h : Reach (svc.calls direct) g₁ g) (hj : J g₁.state)
    (hact : ∀ {t : Nat} {a : Action} {c : Choice} {b : a.Resp} {s s' : World}, svc.Base s → J s →
      svc.Pre t a s → World.exec t a c s = some (b, s') → J s')
    (henv : ∀ {e : Env} {s s' : World}, svc.Base s → J s → s.env e = some s' → J s') :
    J g.state :=
  h₁.verified.onward h₁ hj (fun hi hj _ hp he => hact hi hj hp he)
    (fun hi hj _ he => henv hi hj he) h

theorem Reachable.unfinished (h : svc.Reachable direct content g) (t : Nat)
    (hd : (g.state.trace t).debt ≠ {}) : ∃ a k, g.pool[t]? = some (.act a k) := by
  cases hp : g.pool[t]? with
  | none =>
    have hu : Unstarted t g.state := h.verified.unborn h hp
    exact absurd (by rw [hu.trace]) hd
  | some p =>
    cases p with
    | ret x =>
      have hr : AtRest t g.state := h.verified.done h hp
      exact absurd hr.debt hd
    | act a k => exact ⟨a, k, rfl⟩

theorem Reachable.traces {Q : Trace → Prop} (h : svc.Reachable direct content g) (h₀ : Q {})
    (hall : ∀ t, t < g.pool.length → Q (g.state.trace t)) (t : Nat) : Q (g.state.trace t) := by
  cases hp : g.pool[t]? with
  | none =>
    have hu : Unstarted t g.state := h.verified.unborn h hp
    rw [hu.trace]
    exact h₀
  | some p => exact hall t (List.getElem?_eq_some_iff.1 hp).1

theorem Reachable.settled (h : svc.Reachable direct content g) (hq : g.Quiescent) (t : Nat) :
    (g.state.trace t).debt = {} := by
  by_contra hd
  obtain ⟨a, k, hp⟩ := h.unfinished t hd
  cases hq _ (List.mem_of_getElem? hp)

theorem Reachable.cancel (h : svc.Reachable direct content g) (t : Nat) (expired : Bool)
    (he : g.state.env (.cancel t expired) = some s) : svc.Reachable direct content ⟨s, g.pool⟩ :=
  .step (.env (.cancel t expired)) h (.inr nofun) (congrArg (Option.map _) he)

theorem Reachable.call (h : svc.Reachable direct content g) (job : Job)
    (hj : ∀ f key, job ≠ .flight f key) : svc.Reachable direct content (g.spawn (svc.call job)) :=
  .step (.spawn (svc.call job)) h ⟨job, hj, rfl⟩ rfl

/-- Maps are gone through in their own order, reads find the present content without an expiry,
and writes store a fixed value. -/
def pick (s : World) : Action → Choice
  | .tracker _ => .orders s.tracker.items.keys s.tracker.items.keys
  | .upstream (.answer _ keys) => .values (keys.map fun _ => (s.origin.version, -1))
  | .upstream (.dispatch _ _ keys) => .effect (some (keys.map fun k => (k, some [1]))) (.ok .other)
  | _ => .any

theorem Reachable.go (h : svc.Reachable direct content g) (t n : Nat) :
    svc.Reachable direct content (g.drive pick t n) :=
  h.drive (fun _ _ _ => trivial) pick t n

inductive Cue where
  | call (job : Job)
  | go (t n : Nat)
  | env (e : Env)

def Cue.turn (svc : Service) : Cue → Turn svc.machine
  | .call job => .spawn (svc.call job)
  | .go t n => .run t n
  | .env e => .env e

def Cue.allowed (direct : Bool) : Cue → Bool
  | .call (.flight _ _) => false
  | .env (.originWrite _ _) => direct
  | _ => true

theorem Cue.turn_allowed {x : Cue} (h : x.allowed direct = true) :
    (x.turn svc).Allowed (svc.calls direct) := by
  cases x with
  | call job =>
    refine ⟨job, ?_, rfl⟩
    rintro f key rfl
    cases h
  | go t n => trivial
  | env e =>
    intro s
    cases e with
    | originWrite key value => exact .inl h
    | _ => exact .inr nofun

theorem play_trail (pick : World → Action → Choice) (g : svc.machine.Config) {l : List Cue}
    (h : l.all (Cue.allowed direct) = true) :
    Trail (svc.calls direct) g (g.play pick (l.map (Cue.turn svc))).2
      (g.play pick (l.map (Cue.turn svc))).1 := by
  have hnil : Trail (svc.calls direct) g [] g := .nil
  refine hnil.play (fun _ _ _ => trivial) pick ?_
  intro x hx
  obtain ⟨cue, hcue, rfl⟩ := List.mem_map.1 hx
  exact Cue.turn_allowed (List.all_eq_true.1 h cue hcue)

def schedule (svc : Service) (content : Key → Option Bytes) (pick : World → Action → Choice)
    (l : List Cue) : svc.machine.Config × List svc.machine.Event :=
  (⟨svc.init content, []⟩ : svc.machine.Config).play pick (l.map (Cue.turn svc))

theorem schedule_trail (pick : World → Action → Choice) {l : List Cue}
    (h : l.all (Cue.allowed direct) = true) :
    Trail (svc.calls direct) ⟨svc.init content, []⟩ (svc.schedule content pick l).2
      (svc.schedule content pick l).1 :=
  play_trail pick _ h

def follow (g : svc.machine.Config) (pick : World → Action → Choice) (l : List Cue) :
    svc.machine.Config :=
  (g.play pick (l.map (Cue.turn svc))).1

theorem follow_reach (pick : World → Action → Choice) (g : svc.machine.Config) {l : List Cue}
    (h : l.all (Cue.allowed direct) = true) : Reach (svc.calls direct) g (follow g pick l) :=
  (play_trail pick g h).reach

/-- A service with the default settings, but for the mode. -/
def sample : Service where
  cfg := { Config.default "secret" with mode := "cache" }
  floorLog := fun _ _ => 0
  keyHash := fun _ key => key
  started := 0
  version := ""
  commit := ""

def sampleStart : sample.machine.Config := ⟨sample.init fun _ => some [0], []⟩

def sampleRead : sample.machine.Config :=
  let g := sampleStart.spawn (sample.call (.get [7]))
  ((g.drive pick 0 100).drive pick 1 100).drive pick 0 100

def samplePromoted : sample.machine.Config :=
  (sampleRead.spawn (sample.call (.get [7]))).drive pick 2 100

theorem sampleRead_reachable : sample.Reachable false (fun _ => some [0]) sampleRead :=
  (((Reachable.call .refl (.get [7]) nofun).go 0 100).go 1 100).go 0 100

theorem samplePromoted_reachable : sample.Reachable false (fun _ => some [0]) samplePromoted :=
  (sampleRead_reachable.call (.get [7]) nofun).go 2 100

end Service
end Slizen
