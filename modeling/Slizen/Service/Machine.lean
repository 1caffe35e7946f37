import Slizen.Interleaving.Machine
import Slizen.Service.Programs

namespace Slizen.Service
set_option autoImplicit true

open Interleaving

variable (svc : Service)

/-- Joining a flight that nobody has started makes the caller its leader. -/
def fork : (a : Action) → a.Resp → Option (Run Unit)
  | .group (.doChan key epoch policy), j =>
    if j.leader then some (svc.flight key epoch policy j.flight) else none
  | _, _ => none

def machine : Machine where
  Action := Action
  Resp := Action.Resp
  State := World
  Choice := Choice
  Env := Env
  exec := World.exec
  fork := svc.fork
  env := fun e s => s.env e

def IsCall (p : Run Unit) : Prop := ∃ job, (∀ f key, job ≠ .flight f key) ∧ p = svc.call job

/-- Every interleaving of calls, with other clients that write to the origin or without. -/
def calls (direct : Bool) : svc.machine.Rules where
  entry := svc.IsCall
  allow := fun _ _ _ => True
  external := fun e _ => direct = true ∨ ∀ key value, e ≠ .originWrite key value

/-- The cache that `New` makes for a tier; a tier that is not there is a cache without room. -/
def newTier : Tier → Cache
  | .cache => .new svc.limits.protectedBytes svc.limits.protectedEntries
  | .probationary => .new svc.limits.probationaryBytes svc.limits.probationaryEntries

/-- `New`, over an origin with this content. -/
def init (content : Key → Option Bytes) : World where
  tiers := svc.newTier
  tracker := .new (svc.cfg.tracker svc.floorLog) svc.started
  recorder := {}
  closed := false
  stripes := fun _ => {}
  gates := fun _ => none
  group := fun _ => none
  flights := []
  clock := svc.started
  contexts := fun _ => none
  origin := ⟨0, fun _ => content⟩
  reqs := 0
  past :=
    { time := 0
      trace := fun _ => {}
      bump := fun _ => ⟨0, 0, 0⟩
      born := fun _ => ⟨0, 0, 0⟩
      lodged := fun _ _ => ⟨0, false⟩ }

end Slizen.Service
