import Slizen.CacheRuns
import Slizen.Metrics
import Slizen.Policy
import Slizen.Scorer
import Slizen.Tiers
import Slizen.TrackerLog

namespace Slizen
set_option autoImplicit true

/-- The immutable part of `Service`. `keyHash secret key` is `HMACKeyIdentifier`. -/
structure Service where
  cfg : Config
  floorLog : ℚ → ℚ → Int
  keyHash : String → Key → Bytes
  started : Time
  version : String
  commit : String

namespace Service

def limits (svc : Service) : CacheTierLimits :=
  splitCacheTierLimits svc.cfg.cache.maxBytes svc.cfg.cache.maxEntries

/-- `s.probationary != nil`. -/
def hasProbationary (svc : Service) : Bool := svc.limits.probationaryEnabled

/-- `s.policies.Match`. -/
def policy (svc : Service) (key : Key) : Decision := svc.cfg.newPolicyMatcher.matchKey key

end Service

/-- The two caches of the service, `s.cache` and `s.probationary`. -/
inductive Tier where
  | cache
  | probationary
  deriving DecidableEq

def Tier.other : Tier → Tier
  | .cache => .probationary
  | .probationary => .cache

abbrev Stripe := Fin 256

def cacheEpochStripe (key : Key) : Stripe :=
  Fin.ofNat 256
    (key.foldl (fun (hash : UInt32) b => (hash ^^^ b.toUInt32) * 16777619) 2166136261).toNat

/-- What `upstream.Do` returns without an error. -/
inductive RedisReply where
  | nil
  | text (s : Bytes)
  | integer (n : Int)
  | other
  deriving DecidableEq

/-- How a read was answered: from one of the tiers, from a shared flight or by an upstream call
of its own. It is a history variable. -/
inductive Via where
  | tier
  | flight
  | upstream
  deriving DecidableEq

structure Answer where
  value : Value
  via : Via
  deriving DecidableEq

structure Status where
  version : String
  commit : String
  mode : String
  keyVisibility : String
  uptime : Time
  upstreamOK : Bool
  cacheBytes : Int
  cacheEntries : Nat
  trackedKeys : Nat
  hotKeys : Int
  counters : Recorder

structure HotKey where
  id : Bytes
  state : Hotness.State
  score : ℚ
  requestRate : ℚ
  locallyCached : Bool
  cacheAge : Option Time
  remainingLocalTTL : Option Time

structure CacheInfo where
  entries : Nat
  bytes : Int
  maxBytes : Int
  evictions : Nat

inductive Recommendation where
  | reviewForCache
  | continueObserving
  | noChange
  deriving DecidableEq

inductive ReasonCode where
  | effectivePolicyObserve
  | effectivePolicyCache
  | effectivePolicyDeny
  | hotnessStateHot
  | hotnessStateNotHot
  deriving DecidableEq

structure AuditEntry where
  id : Bytes
  requestRate : ℚ
  hotnessState : Hotness.State
  effectivePolicyMode : Mode
  recommendation : Recommendation
  reasonCodes : List ReasonCode

structure AuditReport where
  generatedAt : Time
  measurementWindow : Time
  mode : String
  keyVisibility : String
  trackedKeys : Nat
  trackingCapacity : Int
  trackingEvictions : Nat
  capacityObservationsDropped : Nat
  oversizedObservationsDropped : Nat
  telemetryComplete : Bool
  returnedEntries : Nat
  truncated : Bool
  entries : List AuditEntry

/-- What a goroutine has been started for: one call of the service, or the shared read of a
flight. -/
inductive Job where
  | get (key : Key)
  | mget (keys : List Key)
  | executeWrite (command : Bytes) (args keys : List Bytes)
  | passThrough (command : Bytes) (args : List Bytes)
  | status
  | hotKeys (limit : Int)
  | audit (limit : Int)
  | cacheInfo
  | purgeCache (key : Key)
  | close
  | flight (f : Nat) (key : Key)
  deriving DecidableEq

inductive Reply where
  | get (r : Except Error Answer)
  | mget (r : Except Error (List Answer))
  | executeWrite (r : Except Error RedisReply)
  | passThrough (r : Except Error RedisReply)
  | status (st : Status)
  | hotKeys (l : List HotKey)
  | audit (report : AuditReport)
  | cacheInfo (info : CacheInfo)
  | purgeCache (ok : Bool)
  | close
  | flight

namespace Job

def writeKeys : Job → List Key
  | .executeWrite _ _ keys => keys
  | _ => []

def answers : Job → Reply → List (Key × Answer)
  | .get key, .get (.ok a) => [(key, a)]
  | .mget keys, .mget (.ok l) => keys.zip l
  | _, _ => []

end Job

inductive TrackerOp where
  | observeWithState (key : Key)
  | admitKey (key : Key)
  | advance
  | advanceAndSnapshot (limit : Int)
  | isHot (key : Key)
  | isTracked (key : Key)
  | stats
  | capacityDrops
  | oversizedObservationsDropped

/-- The operations on a `cacheEpochStripeState`. -/
inductive StripeOp where
  | lock
  | unlock
  | epochLoad
  | epochAdd
  | promotionLoad
  | promotionStore (b : Bool)

/-- `send` is the `select` between the gate and the end of the caller's context. -/
inductive GateOp where
  | send
  | receive

/-- The operations on the singleflight group. `wait` is the `select` between the result and the
end of the read context, and `complete` is what the group does when the function returns. -/
inductive GroupOp where
  | doChan (key : Key) (epoch : Nat) (policy : Decision)
  | wait (f : Nat) (deadline : Time)
  | complete (f : Nat) (result : Except Error Value)
  | forget (key : Key)

/-- An upstream read that is under way: its number, and the version of the origin when it was
sent. -/
structure Issue where
  ticket : Nat
  version : Nat

/-- The calls of `upstream.Client`. A read is sent by `issue` and returns by `answer`; `dispatch`
is the `Do` of a write, answered together with the source of what it has written. -/
inductive UpstreamOp where
  | issue (keys : List Key)
  | answer (i : Issue) (keys : List Key)
  | dispatch (command : Bytes) (args keys : List Bytes)
  | passThrough (command : Bytes) (args : List Bytes)
  | ping
  | close

/-- Points of a call that leave the service as it is and are only written into the history. -/
inductive Note where
  | start (job : Job)
  | finish (reply : Reply)
  | openWindow (keys : List Key)
  | closeWindow
  | releaseGates
  | cleared (key : Key)
  | clearedAll
  | applied (key : Key)

inductive Action where
  | tracker (op : TrackerOp)
  | cache (tier : Tier) (op : CacheOp)
  | stripe (stripe : Stripe) (op : StripeOp)
  | gate (stripe : Stripe) (op : GateOp)
  | group (op : GroupOp)
  | upstream (op : UpstreamOp)
  | record (m : Metric)
  | counters
  | now
  | ctxErr
  | closeSwap
  | note (n : Note)

structure Joined where
  flight : Nat
  leader : Bool

inductive Waited where
  | done (e : Error)
  | result (r : Except Error Value) (shared : Bool)

namespace TrackerOp

abbrev Resp : TrackerOp → Type
  | observeWithState _ => Hotness.Observation
  | admitKey _ => Hotness.Observation
  | advance => List Hotness.Transition
  | advanceAndSnapshot _ => Hotness.View
  | isHot _ => Bool
  | isTracked _ => Bool
  | stats => Nat × Int
  | capacityDrops => Nat
  | oversizedObservationsDropped => Nat

def transitions : (op : TrackerOp) → op.Resp → List Hotness.Transition
  | observeWithState _, observation => observation.transitions
  | admitKey _, observation => observation.transitions
  | advance, l => l
  | advanceAndSnapshot _, view => view.transitions
  | _, _ => []

end TrackerOp

namespace StripeOp

abbrev Resp : StripeOp → Type
  | lock => Unit
  | unlock => Unit
  | epochLoad => Nat
  | epochAdd => Unit
  | promotionLoad => Bool
  | promotionStore _ => Unit

end StripeOp

namespace GateOp

abbrev Resp : GateOp → Type
  | send => Option Error
  | receive => Unit

end GateOp

namespace GroupOp

abbrev Resp : GroupOp → Type
  | doChan _ _ _ => Joined
  | wait _ _ => Waited
  | complete _ _ => Unit
  | forget _ => Unit

end GroupOp

namespace UpstreamOp

abbrev Resp : UpstreamOp → Type
  | issue _ => Issue
  | answer _ _ => Except Error (List Value)
  | dispatch _ _ _ => Except Error RedisReply × Source
  | passThrough _ _ => Except Error RedisReply
  | ping => Option Error
  | close => Unit

end UpstreamOp

abbrev Action.Resp : Action → Type
  | .tracker op => op.Resp
  | .cache _ op => op.Resp
  | .stripe _ op => op.Resp
  | .gate _ op => op.Resp
  | .group op => op.Resp
  | .upstream op => op.Resp
  | .record _ => Unit
  | .counters => Recorder
  | .now => Time
  | .ctxErr => Option Error
  | .closeSwap => Bool
  | .note _ => Unit

end Slizen
