import Slizen.Cache

namespace Slizen
set_option autoImplicit true

inductive CacheMissReason where
  | unclassified
  | policyBypass
  | notAdmitted
  | notPresent
  deriving DecidableEq

/-- The totals and gauges of `metrics.Recorder`. The Prometheus vectors repeat the totals by
label and are left out. -/
structure Recorder where
  totalRequests : Nat := 0
  cacheHits : Nat := 0
  cacheMisses : Nat := 0
  cacheMissesByReason : CacheMissReason → Nat := fun _ => 0
  upstreamReqs : Nat := 0
  upstreamGets : Nat := 0
  upstreamErrs : Nat := 0
  promotions : Nat := 0
  demotions : Nat := 0
  invalidates : Nat := 0
  coalesced : Nat := 0
  hotKeys : Int := 0
  cacheEntries : Nat := 0
  cacheBytes : Int := 0
  evictionSeen : Nat := 0
  cacheEvictions : Nat := 0
  hotnessCapacityDropSeen : Nat := 0
  hotnessCapacityDrops : Nat := 0
  hotnessOversizedDropSeen : Nat := 0
  hotnessOversizedDrops : Nat := 0

/-- One call of a recorder method; durations and labels are left out. -/
inductive Metric where
  | cacheHit
  | cacheMissWithReason (reason : CacheMissReason)
  | observeUpstream (get failed : Bool)
  | promotion
  | demotion
  | invalidation
  | coalesced
  | setHotKeys (count : Int)
  | observeCache (entries : Nat) (bytes : Int) (evictions : Nat)
  | observeHotnessCapacityDrops (total : Nat)
  | observeHotnessOversizedDrops (total : Nat)

def upperASCII (b : UInt8) : UInt8 := if 97 ≤ b ∧ b ≤ 122 then b - 32 else b

/-- The label of the command is GET. No other character has G, E or T as its upper case. -/
def isGetCommand (command : Bytes) : Bool := command.map upperASCII = [0x47, 0x45, 0x54]

namespace Recorder

/-- `advanceHighWater` adds to the exported counter what a total is above the mark. -/
def record (r : Recorder) : Metric → Recorder
  | .cacheHit => { r with cacheHits := r.cacheHits + 1 }
  | .cacheMissWithReason reason =>
    { r with
      cacheMisses := r.cacheMisses + 1
      cacheMissesByReason := fun x =>
        if x = reason then r.cacheMissesByReason x + 1 else r.cacheMissesByReason x }
  | .observeUpstream get failed =>
    { r with
      upstreamReqs := r.upstreamReqs + 1
      upstreamGets := if get then r.upstreamGets + 1 else r.upstreamGets
      upstreamErrs := if failed then r.upstreamErrs + 1 else r.upstreamErrs }
  | .promotion => { r with promotions := r.promotions + 1 }
  | .demotion => { r with demotions := r.demotions + 1 }
  | .invalidation => { r with invalidates := r.invalidates + 1 }
  | .coalesced => { r with coalesced := r.coalesced + 1 }
  | .setHotKeys count => { r with hotKeys := count }
  | .observeCache entries bytes evictions =>
    { r with
      cacheEntries := entries
      cacheBytes := bytes
      evictionSeen := max r.evictionSeen evictions
      cacheEvictions := r.cacheEvictions + (evictions - r.evictionSeen) }
  | .observeHotnessCapacityDrops total =>
    { r with
      hotnessCapacityDropSeen := max r.hotnessCapacityDropSeen total
      hotnessCapacityDrops := r.hotnessCapacityDrops + (total - r.hotnessCapacityDropSeen) }
  | .observeHotnessOversizedDrops total =>
    { r with
      hotnessOversizedDropSeen := max r.hotnessOversizedDropSeen total
      hotnessOversizedDrops := r.hotnessOversizedDrops + (total - r.hotnessOversizedDropSeen) }

end Recorder
end Slizen
