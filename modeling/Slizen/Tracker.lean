import Mathlib.Algebra.Order.Field.Rat
import Mathlib.Data.List.AList
import Slizen.Basic

namespace Slizen.Hotness
set_option autoImplicit true

inductive State where
  | cold
  | warm
  | hot
  | cooling
  deriving DecidableEq

structure Transition where
  key : Key
  before : State
  after : State
  deriving DecidableEq

/-- `hotness.Config`, with exact rationals for its floats. `floorLog x y` is the integer that
`math.Floor(math.Log(x) / math.Log(y))` happens to produce. -/
structure Config where
  window : Time
  ewmaAlpha : ℚ
  promotionThreshold : ℚ
  demotionThreshold : ℚ
  minimumHotWindows : Int
  cooldown : Time
  maxTrackedKeys : Int
  floorLog : ℚ → ℚ → Int

structure Entry where
  key : Key
  state : State
  score : ℚ
  count : Nat
  lastRate : ℚ
  lastSeen : Time
  createdAt : Time
  hotWindows : Nat
  coolingAt : Time
  deriving DecidableEq

/-- `hotness.Tracker`. An entry lives in a slot of the admission ring as long as the tracker
does, so the map holds slots where the program holds pointers. -/
structure Tracker where
  cfg : Config
  window : Time
  items : AList fun _ : Key => Nat
  admissionRing : List Entry
  nextVictim : Nat
  hot : Int
  evictions : Nat
  capacityDrops : Nat
  oversizedObservationsDropped : Nat

/-- `hotness.Observation`; the empty state of a key that is not tracked is `none`. -/
structure Observation where
  transitions : List Transition
  state : Option State
  hot : Int
  capacityObservationDropped : Bool
  capacityDrops : Nat
  oversizedObservationDropped : Bool
  oversizedObservationsDropped : Nat

def maxTrackedKeyBytes : Nat := 1024

def secondInNanos : Time := 1000000000

def Config.seconds (cfg : Config) : ℚ := (cfg.window : ℚ) / (secondInNanos : ℚ)

/-- The defaults that `hotness.New` puts in place of unusable settings. -/
def Config.normalize (cfg : Config) : Config :=
  { cfg with
    window := if cfg.window ≤ 0 then secondInNanos else cfg.window
    ewmaAlpha := if cfg.ewmaAlpha ≤ 0 ∨ cfg.ewmaAlpha > 1 then 1 / 2 else cfg.ewmaAlpha
    minimumHotWindows := if cfg.minimumHotWindows ≤ 0 then 2 else cfg.minimumHotWindows
    maxTrackedKeys := if cfg.maxTrackedKeys ≤ 0 then 1 else cfg.maxTrackedKeys }

def lowerEstimate (initial decay threshold : ℚ) : Nat → Nat
  | 0 => 0
  | estimate + 1 =>
    if initial * decay ^ (estimate + 1) < threshold then
      lowerEstimate initial decay threshold estimate
    else estimate + 1

/-- The upward loop, with the windows left to the maximum. -/
def raiseEstimate (initial decay threshold : ℚ) : Nat → Nat → Nat
  | 0, estimate => estimate
  | left + 1, estimate =>
    if initial * decay ^ (estimate + 1) ≥ threshold then
      raiseEstimate initial decay threshold left (estimate + 1)
    else estimate

def decayWindowsAtLeast (floorLog : ℚ → ℚ → Int) (initial decay threshold : ℚ)
    (maxWindows : Nat) : Nat :=
  if maxWindows = 0 ∨ initial ≤ 0 ∨ threshold ≤ 0 ∨ decay ≤ 0 ∨ initial * decay < threshold then 0
  else if decay ≥ 1 ∨ initial * decay ^ maxWindows ≥ threshold then maxWindows
  else
    let estimate := min (floorLog (threshold / initial) decay).toNat maxWindows
    let estimate := lowerEstimate initial decay threshold estimate
    raiseEstimate initial decay threshold (maxWindows - estimate) estimate

namespace Entry

/-- The transition to report for an entry whose state was `before`. -/
def changedFrom (ent : Entry) (before : State) : List Transition :=
  if before = ent.state then [] else [⟨ent.key, before, ent.state⟩]

/-- The three branches of `applyStateLocked`. -/
def applyHigh (cfg : Config) (ent : Entry) : Entry :=
  let ent := { ent with hotWindows := ent.hotWindows + 1 }
  if ent.state = .cooling then { ent with state := .hot, coolingAt := 0 }
  else if ent.hotWindows ≥ cfg.minimumHotWindows then { ent with state := .hot }
  else if ent.state = .cold then { ent with state := .warm }
  else ent

def applyMid (ent : Entry) : Entry :=
  let ent := { ent with hotWindows := 0 }
  if ent.state = .cold then { ent with state := .warm } else ent

def applyLow (cfg : Config) (ent : Entry) (now : Time) : Entry :=
  let ent := { ent with hotWindows := 0 }
  if ent.state = .hot then { ent with state := .cooling, coolingAt := now }
  else if ent.state = .cooling ∧ now - ent.coolingAt ≥ cfg.cooldown then
    { ent with state := .cold, coolingAt := 0 }
  else if ent.state = .warm ∧ ent.score = 0 then { ent with state := .cold }
  else ent

def applyState (cfg : Config) (ent : Entry) (now : Time) : Entry :=
  if ent.score ≥ cfg.promotionThreshold then ent.applyHigh cfg
  else if ent.score ≥ cfg.demotionThreshold then ent.applyMid
  else ent.applyLow cfg now

def applyStateLocked (cfg : Config) (ent : Entry) (now : Time) : List Transition × Entry :=
  ((ent.applyState cfg now).changedFrom ent.state, ent.applyState cfg now)

/-- The segment of the catch-up whose scores stay at or above the promotion threshold. -/
def catchUpHigh (cfg : Config) (ent : Entry) (highWindows : Nat) : List Transition × Entry :=
  if highWindows > 0 then
    let before := ent.state
    let ent := if ent.state = .cooling then { ent with state := .hot, coolingAt := 0 } else ent
    let needed := max (cfg.minimumHotWindows - ent.hotWindows) 0
    let ent := if ent.state ≠ .hot ∧ highWindows ≥ needed then { ent with state := .hot } else ent
    let ent :=
      if highWindows ≥ cfg.minimumHotWindows ∨
          ent.hotWindows + highWindows ≥ cfg.minimumHotWindows then
        { ent with hotWindows := cfg.minimumHotWindows.toNat }
      else { ent with hotWindows := ent.hotWindows + highWindows }
    (ent.changedFrom before, ent)
  else ([], ent)

def catchUpMid (ent : Entry) (midWindows : Nat) : List Transition × Entry :=
  if midWindows > 0 then (ent.applyMid.changedFrom ent.state, ent.applyMid) else ([], ent)

def catchUpLow (cfg : Config) (ent : Entry) (lowWindows : Nat) (finalScore : ℚ)
    (lowStart finalBoundary : Time) : List Transition × Entry :=
  if lowWindows > 0 then
    let ent := { ent with hotWindows := 0 }
    let (cooled, ent) :=
      if ent.state = .hot then
        ([⟨ent.key, .hot, .cooling⟩], { ent with state := .cooling, coolingAt := lowStart })
      else ([], ent)
    if ent.state = .cooling ∧ finalBoundary - ent.coolingAt ≥ cfg.cooldown then
      (cooled ++ [⟨ent.key, .cooling, .cold⟩], { ent with state := .cold, coolingAt := 0 })
    else if ent.state = .warm ∧ finalScore = 0 then
      (cooled ++ [⟨ent.key, .warm, .cold⟩], { ent with state := .cold })
    else (cooled, ent)
  else ([], ent)

/-- The empty windows after the first one, by threshold segments. The offset of the last segment
is `highWindows + midWindows + 1`, where `midWindows` may be negative. -/
def catchUp (cfg : Config) (ent : Entry) (highWindows atLeastDemotion remaining : Nat)
    (finalScore : ℚ) (firstBoundary : Time) : List Transition × Entry :=
  let (high, ent) := ent.catchUpHigh cfg highWindows
  let (mid, ent) := ent.catchUpMid (atLeastDemotion - highWindows)
  let lowStart := firstBoundary + (atLeastDemotion + 1 : Nat) * cfg.window
  let finalBoundary := firstBoundary + remaining * cfg.window
  let (low, ent) :=
    ent.catchUpLow cfg (remaining - atLeastDemotion) finalScore lowStart finalBoundary
  (high ++ mid ++ low, { ent with score := finalScore })

def advanceEntryLocked (cfg : Config) (ent : Entry) (rate : ℚ) (elapsedWindows : Nat)
    (firstBoundary : Time) : List Transition × Entry :=
  let beta := 1 - cfg.ewmaAlpha
  let firstScore := cfg.ewmaAlpha * rate + beta * ent.score
  let (first, ent) :=
    { ent with score := firstScore, lastRate := rate }.applyStateLocked cfg firstBoundary
  if elapsedWindows = 1 then (first, ent)
  else
    let remaining := elapsedWindows - 1
    let highWindows :=
      decayWindowsAtLeast cfg.floorLog firstScore beta cfg.promotionThreshold remaining
    let atLeastDemotion :=
      decayWindowsAtLeast cfg.floorLog firstScore beta cfg.demotionThreshold remaining
    let (later, ent) := { ent with lastRate := 0 }.catchUp cfg highWindows atLeastDemotion
      remaining (firstScore * beta ^ remaining) firstBoundary
    (first ++ later, ent)

end Entry

/-- What `adjustHotCountLocked` adds to the count. -/
def hotDelta (before after : State) : Int :=
  (if after = .hot then 1 else 0) - (if before = .hot then 1 else 0)

namespace Tracker

def new (cfg : Config) (now : Time) : Tracker where
  cfg := cfg.normalize
  window := now
  items := ∅
  admissionRing := []
  nextVictim := 0
  hot := 0
  evictions := 0
  capacityDrops := 0
  oversizedObservationsDropped := 0

/-- `t.items[key]`, with the entry that the pointer leads to. -/
def find (t : Tracker) (key : Key) : Option Entry :=
  (t.items.lookup key).bind fun slot => t.admissionRing[slot]?

/-- Write the entry of a slot, with the adjustment of the hot count. -/
def replace (t : Tracker) (slot : Nat) (ent ent' : Entry) : Tracker :=
  { t with
    admissionRing := t.admissionRing.set slot ent'
    hot := t.hot + hotDelta ent.state ent'.state }

/-- One round of the loop of `advanceLocked`. -/
def advanceSlot (t : Tracker) (elapsedWindows : Nat) (firstBoundary : Time) (key : Key) :
    List Transition × Tracker :=
  match t.items.lookup key with
  | none => ([], t)
  | some slot =>
    match t.admissionRing[slot]? with
    | none => ([], t)
    | some ent =>
      let rate := ent.count / t.cfg.seconds
      let (transitions, ent') := ent.advanceEntryLocked t.cfg rate elapsedWindows firstBoundary
      (transitions, t.replace slot ent { ent' with count := 0 })

/-- The loop of `advanceLocked`, over the keys in the order in which the map yields them. -/
def advanceSlots (t : Tracker) (elapsedWindows : Nat) (firstBoundary : Time) :
    List Key → List Transition × Tracker
  | [] => ([], t)
  | key :: keys =>
    let (transitions, t) := t.advanceSlot elapsedWindows firstBoundary key
    let (later, t) := t.advanceSlots elapsedWindows firstBoundary keys
    (transitions ++ later, t)

def elapsedWindows (t : Tracker) (now : Time) : Nat :=
  max ((now - t.window).tdiv t.cfg.window).toNat 1

def advanceLocked (t : Tracker) (order : List Key) (now : Time) : List Transition × Tracker :=
  if now < t.window + t.cfg.window then ([], t)
  else
    let elapsedWindows := t.elapsedWindows now
    let (transitions, t) := t.advanceSlots elapsedWindows (t.window + t.cfg.window) order
    (transitions, { t with window := t.window + elapsedWindows * t.cfg.window })

def freshEntry (key : Key) (now : Time) : Entry where
  key := key
  state := .cold
  score := 0
  count := 0
  lastRate := 0
  lastSeen := now
  createdAt := now
  hotWindows := 0
  coolingAt := 0

/-- The slot of the key and the eviction to report, or `none` for a dropped observation. -/
def getOrCreateLocked (t : Tracker) (key : Key) (now : Time) :
    Option (Nat × Option Transition) × Tracker :=
  match t.items.lookup key with
  | some slot => (some (slot, none), t)
  | none =>
    if t.admissionRing.length < t.cfg.maxTrackedKeys then
      (some (t.admissionRing.length, none),
        { t with
          admissionRing := t.admissionRing ++ [freshEntry key now]
          items := t.items.insert key t.admissionRing.length })
    else
      let slot := t.nextVictim
      match t.admissionRing[slot]? with
      | none => (none, t) -- index out of range; the cursor stays inside the ring
      | some victim =>
        let t := { t with nextVictim := if slot + 1 = t.admissionRing.length then 0 else slot + 1 }
        if victim.state = .hot then (none, { t with capacityDrops := t.capacityDrops + 1 })
        else
          let t :=
            { t with
              items := (t.items.erase victim.key).insert key slot
              hot := t.hot + hotDelta victim.state .cold
              evictions := t.evictions + 1
              admissionRing := t.admissionRing.set slot (freshEntry key now) }
          (some (slot,
              if victim.state = .cold then none else some ⟨victim.key, victim.state, .cold⟩),
            t)

/-- The promotion that no later count of the open window can take back. -/
def guaranteedPromotion (cfg : Config) (ent : Entry) : Bool :=
  ent.state = .warm ∧ 0 < ent.hotWindows ∧ ¬ ((ent.hotWindows : Int) + 1 < cfg.minimumHotWindows) ∧
    ¬ (cfg.ewmaAlpha * (ent.count / cfg.seconds) + (1 - cfg.ewmaAlpha) * ent.score
      < cfg.promotionThreshold)

def commitGuaranteedPromotionLocked (cfg : Config) (ent : Entry) : List Transition × Entry :=
  if guaranteedPromotion cfg ent then
    ([⟨ent.key, .warm, .hot⟩], { ent with state := .hot, hotWindows := ent.hotWindows + 1 })
  else ([], ent)

def observation (t : Tracker) (transitions : List Transition) (state : Option State) :
    Observation where
  transitions := transitions
  state := state
  hot := t.hot
  capacityObservationDropped := false
  capacityDrops := t.capacityDrops
  oversizedObservationDropped := false
  oversizedObservationsDropped := t.oversizedObservationsDropped

/-- What `ObserveWithState` does after it has advanced the window. -/
def observeLocked (t : Tracker) (key : Key) (now : Time) : Observation × Tracker :=
  if key.length > maxTrackedKeyBytes then
    let t := { t with oversizedObservationsDropped := t.oversizedObservationsDropped + 1 }
    ({ t.observation [] none with oversizedObservationDropped := true }, t)
  else if key = [] then (t.observation [] none, t)
  else
    match t.getOrCreateLocked key now with
    | (none, t) => ({ t.observation [] none with capacityObservationDropped := true }, t)
    | (some (slot, eviction), t) =>
      match t.admissionRing[slot]? with
      | none => (t.observation [] none, t) -- no pointer of the map is dangling
      | some ent =>
        let (promotion, ent') :=
          commitGuaranteedPromotionLocked t.cfg { ent with count := ent.count + 1, lastSeen := now }
        let t := t.replace slot ent ent'
        (t.observation (eviction.toList ++ promotion) (some ent'.state), t)

def observeWithState (t : Tracker) (order : List Key) (key : Key) (now : Time) :
    Observation × Tracker :=
  let (transitions, t) := t.advanceLocked order now
  let (observation, t) := t.observeLocked key now
  ({ observation with transitions := transitions ++ observation.transitions }, t)

/-- The new state of an entry that `Admit` promotes. -/
def admitEntry (ent : Entry) : Entry :=
  if ent.state = .hot then ent else { ent with state := .hot, hotWindows := 0, coolingAt := 0 }

/-- What `Admit` does after it has advanced the window. -/
def admitLocked (t : Tracker) (key : Key) : Observation × Tracker :=
  match t.items.lookup key with
  | none => (t.observation [] none, t)
  | some slot =>
    match t.admissionRing[slot]? with
    | none => (t.observation [] none, t)
    | some ent =>
      let ent' := admitEntry ent
      let t := t.replace slot ent ent'
      (t.observation (ent'.changedFrom ent.state) (some ent'.state), t)

def admitKey (t : Tracker) (order : List Key) (key : Key) (now : Time) : Observation × Tracker :=
  let (transitions, t) := t.advanceLocked order now
  let (observation, t) := t.admitLocked key
  ({ observation with transitions := transitions ++ observation.transitions }, t)

def advance (t : Tracker) (order : List Key) (now : Time) : List Transition × Tracker :=
  t.advanceLocked order now

def isHot (t : Tracker) (key : Key) : Bool :=
  match t.find key with
  | some ent => ent.state = .hot
  | none => false

def isTracked (t : Tracker) (key : Key) : Bool := (t.items.lookup key).isSome

def stats (t : Tracker) : Nat × Int := (t.items.keys.length, t.hot)

end Tracker
end Slizen.Hotness
