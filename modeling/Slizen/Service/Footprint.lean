import Slizen.Service.Composition

namespace Slizen.Service
set_option autoImplicit true

open Interleaving

variable (svc : Service) {q : Action → Prop}

theorem localRules_uses (hs : ∀ a : Action, a.Steady → q a) (hk : ∀ a : Action, a.Keeping → q a)
    (ht : ∀ op, q (.tracker op)) : LocalRules svc fun (_ : Type) p => p.Uses q where
  ret := fun _ => trivial
  bind := Prog.Uses.bind
  steady := fun a ha => ⟨hs a ha, fun _ => trivial⟩
  observed := fun _ _ hc => ⟨ht _, fun o =>
    ((svc.keeping_handleObservation o).mono hk).bind fun _ => hc o⟩
  admitted := fun _ _ _ hp hc => ⟨ht _, fun o => ((hp o).mono hs).bind fun x =>
    ((svc.keeping_handleObservation o).mono hk).bind fun _ => hc o x⟩

theorem localRules : LocalRules svc fun (_ : Type) p => p.Uses Action.Local :=
  svc.localRules_uses (fun _ ha => ha.plain.isLocal) (fun _ => Action.Keeping.isLocal)
    fun _ => trivial

theorem local_observeCache : svc.observeCache.Uses Action.Local :=
  svc.localRules.observeCache

theorem local_getCached (key : Key) (policy : Decision) (state : Option Hotness.State) :
    (svc.getCached key policy state).Uses Action.Local :=
  svc.localRules.getCached key policy state

theorem local_observeRead (key : Key) (policy : Decision) :
    (svc.observeRead key policy).Uses Action.Local := svc.localRules.observeRead key policy

theorem local_reconcileLocalIfCurrent (key : Key) (value : Value) (epoch : Nat)
    (policy : Decision) : (svc.reconcileLocalIfCurrent key value epoch policy).Uses Action.Local :=
  (svc.plain_reconcileLocalIfCurrent ..).mono fun _ => Action.Plain.isLocal

theorem local_getFallback (key : Key) (e : Error) : (svc.getFallback key e).Uses Action.Local :=
  svc.localRules.of_steady (svc.steady_getFallback key e)

theorem local_mgetStale (out : List Answer) (n : Nat) (missing : List MissingRead) :
    (svc.mgetStale out n missing).Uses Action.Local :=
  svc.localRules.of_steady (svc.steady_mgetStale out n missing)

theorem local_mgetStore (out : List Answer) (l : List (MissingRead × Value)) :
    (svc.mgetStore out l).Uses Action.Local :=
  (svc.plain_mgetStore out l).mono fun _ => Action.Plain.isLocal

variable {svc}

theorem ordinary_handleTransitions (l : List Hotness.Transition) :
    (svc.handleTransitions l).Uses Action.Ordinary :=
  (svc.keeping_handleTransitions l).mono fun _ ha => ha.isLocal.ordinary

theorem ordinaryRules_uses : OrdinaryRules svc fun (_ : Type) p => p.Uses Action.Ordinary where
  toLocalRules := svc.localRules_uses (fun _ ha => ha.plain.isLocal.ordinary)
    (fun _ ha => ha.isLocal.ordinary) fun _ => trivial
  quiet := fun _ ha _ => ⟨ha, fun _ => trivial⟩
  advanced := fun _ hk => ⟨trivial, fun l => (ordinary_handleTransitions l).bind fun _ => hk⟩
  viewed := fun _ _ hk => ⟨trivial, fun v =>
    (ordinary_handleTransitions v.transitions).bind fun _ => hk v⟩
  published := fun _ hk => ⟨trivial, fun x => ⟨trivial, fun _ => hk x⟩⟩

theorem ordinary_flightRead (key : Key) (epoch : Nat) (policy : Decision) :
    (svc.flightRead key epoch policy).Uses Action.Ordinary :=
  ordinaryRules_uses.flightRead key epoch policy

theorem ordinary_perform {job : Job} (h : job ≠ .close) :
    (svc.perform job).Uses Action.Ordinary := ordinaryRules_uses.perform h

end Slizen.Service
