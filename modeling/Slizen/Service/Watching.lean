import Slizen.Interleaving.Monitor
import Slizen.Service.Composition
import Slizen.Service.Runs

namespace Slizen.Service
set_option autoImplicit true

open Interleaving Machine

variable {svc : Service} {K : Monitor Action Action.Resp}

theorem obeys_when {c : Prop} [Decidable c] {p : Run Unit} {Q : Unit → K.Mem → Prop} {μ : K.Mem}
    (hp : c → K.Obeys p Q μ) (hn : ¬ c → Q () μ) : K.Obeys (Run.when c p) Q μ := by
  rw [Run.when]
  split
  · rename_i hc
    exact hp hc
  · rename_i hc
    exact hn hc

def Ignores (K : Monitor Action Action.Resp) (a : Action) : Prop :=
  ∀ μ, K.Ok μ a ∧ ∀ b, K.next μ a b = μ

theorem obeys_plain {p : Run α} (hq : ∀ a : Action, a.Quiet → Ignores K a)
    (hp : p.Uses Action.Plain) (μ : K.Mem) : K.Obeys p (fun _ μ' => μ' = μ) μ :=
  .of_uses hp fun a ha => hq a ha.quiet μ

theorem obeys_applyTransitions (hq : ∀ a : Action, a.Quiet → Ignores K a)
    (l : List Hotness.Transition) (μ : K.Mem) :
    K.Obeys (svc.applyTransitions l) (fun _ μ' => μ' = μ) μ :=
  obeys_plain hq ((svc.bare_applyTransitions l).mono fun _ h => h.steady.plain) μ

/-- A monitor that minds the numbers of the tracker only, and for which every answer of the tracker
is worked off by what the service does next. -/
structure Minds (svc : Service) (K : Monitor Action Action.Resp) : Prop where
  idle : K.Idle K.fresh
  quiet : ∀ a : Action, a.Quiet → Ignores K a
  tracker : ∀ op μ, K.Idle μ → K.Ok μ (.tracker op)
  observed : ∀ key o μ, K.Idle μ → K.Obeys (svc.handleObservation o) (fun _ => K.Idle)
    (K.next μ (.tracker (.observeWithState key)) o)
  admitted : ∀ key o μ, K.Idle μ → K.Obeys (svc.handleObservation o) (fun _ => K.Idle)
    (K.next μ (.tracker (.admitKey key)) o)
  advanced : ∀ l μ, K.Idle μ → K.Obeys (svc.handleTransitions l) (fun _ => K.Idle)
    (K.next μ (.tracker .advance) l)
  viewed : ∀ limit v μ, K.Idle μ → K.Obeys (svc.handleTransitions v.transitions)
    (fun _ => K.Idle) (K.next μ (.tracker (.advanceAndSnapshot limit)) v)
  published : ∀ x μ, K.Idle μ → K.Obeys (record (.setHotKeys x.2)) (fun _ => K.Idle)
    (K.next μ (.tracker .stats) x)

namespace Minds

variable (h : Minds svc K)
include h

theorem keeps_quiet {a : Action} (ha : a.Quiet) : K.Keeps (Run.do a) := by
  apply Monitor.Keeps.perform
  intro μ hμ
  obtain ⟨hok, hnext⟩ := h.quiet a ha μ
  exact ⟨hok, fun b => (hnext b).symm ▸ hμ⟩

theorem callRules : CallRules svc fun (_ : Type) p => K.Keeps p where
  ret := Monitor.Keeps.ret
  bind := Monitor.Keeps.bind
  steady := fun _ ha => h.keeps_quiet ha.plain.quiet
  observed := fun key _ hk μ hμ => ⟨h.tracker _ μ hμ, fun o =>
    (h.observed key o μ hμ).bind fun _ => hk o⟩
  admitted := by
    intro α β key p k hp hk μ hμ
    apply And.intro (h.tracker _ μ hμ)
    intro o
    apply (obeys_plain h.quiet ((hp o).mono fun _ => Action.Steady.plain) _).bind
    rintro x _ rfl
    exact (h.admitted key o μ hμ).bind fun _ => hk o x
  quiet := fun _ _ ha => h.keeps_quiet ha
  advanced := fun _ hk μ hμ => ⟨h.tracker _ μ hμ, fun l => (h.advanced l μ hμ).bind fun _ => hk⟩
  viewed := fun limit _ hk μ hμ => ⟨h.tracker _ μ hμ, fun v =>
    (h.viewed limit v μ hμ).bind fun _ => hk v⟩
  published := fun _ hk μ hμ => ⟨h.tracker _ μ hμ, fun x =>
    (h.published x μ hμ).bind fun _ => hk x⟩
  other := fun _ ha => h.keeps_quiet ha

theorem watched (direct : Bool) : Watched (M := svc.machine) K (svc.calls direct) where
  idle := h.idle
  entry := by
    rintro p ⟨job, -, rfl⟩
    exact h.callRules.call job
  fork := by
    intro a b p hp
    obtain ⟨key, epoch, policy, f, rfl⟩ := fork_flight hp
    exact h.callRules.flight key epoch policy f

end Minds
end Slizen.Service
