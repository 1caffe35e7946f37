import Slizen.Interleaving.Program
import Slizen.Service.History

namespace Slizen
set_option autoImplicit true

open Interleaving

/-- A method of the service as a program over its atomic actions. -/
abbrev Run (α : Type) := Prog Action Action.Resp α

def Run.do (a : Action) : Run a.Resp := Prog.perform a

def Run.when (c : Prop) [Decidable c] (p : Run Unit) : Run Unit := if c then p else pure ()

def Run.each (f : α → Run Unit) : List α → Run Unit
  | [] => pure ()
  | x :: xs => do
    f x
    each f xs

namespace Service

open Run (each when)

def record (m : Metric) : Run Unit := Run.do (.record m)

def lock (σ : Stripe) : Run Unit := Run.do (.stripe σ .lock)

def unlock (σ : Stripe) : Run Unit := Run.do (.stripe σ .unlock)

def isHot (key : Key) : Run Bool := Run.do (.tracker (.isHot key))

def delete (tier : Tier) (key : Key) : Run Bool := Run.do (.cache tier (.delete key))

def note (n : Note) : Run Unit := Run.do (.note n)

variable (svc : Service)

/-- `if s.probationary != nil { ... }` around a deletion. -/
def deleteProbationary (key : Key) : Run Bool :=
  if svc.hasProbationary then delete .probationary key else pure false

def combinedStats : Run CacheStats := do
  let protectedStats ← Run.do (.cache .cache .stats)
  if svc.hasProbationary then
    let candidate ← Run.do (.cache .probationary .stats)
    pure (combinedCacheStats protectedStats (some candidate))
  else pure (combinedCacheStats protectedStats none)

def observeCache : Run Unit := do
  let stats ← svc.combinedStats
  record (.observeCache stats.entries stats.bytes stats.evictions)

/-- The removal of a key that has left the HOT state, unless it has come back meanwhile; the
answer says whether a tier changed. -/
def dropDemoted (key : Key) : Run Bool := do
  lock (cacheEpochStripe key)
  let hot ← isHot key
  if hot then
    note (.applied key)
    unlock (cacheEpochStripe key)
    pure false
  else
    let deleted ← delete .cache key
    let deleted' ← svc.deleteProbationary key
    note (.applied key)
    unlock (cacheEpochStripe key)
    pure (deleted || deleted')

/-- One round of the loop of `applyTransitions`. -/
def applyTransition (transition : Hotness.Transition) : Run Bool := do
  when (transition.after = .hot ∧ transition.before ≠ .hot) (record .promotion)
  if transition.before = .hot ∧ transition.after ≠ .hot then
    let changed ← svc.dropDemoted transition.key
    record .demotion
    pure changed
  else pure false

def applyTransitionsLoop (cacheChanged : Bool) : List Hotness.Transition → Run Bool
  | [] => pure cacheChanged
  | transition :: rest => do
    let changed ← svc.applyTransition transition
    applyTransitionsLoop (cacheChanged || changed) rest

def applyTransitions (transitions : List Hotness.Transition) : Run Unit := do
  let cacheChanged ← svc.applyTransitionsLoop false transitions
  when cacheChanged svc.observeCache

def publishHotKeys : Run Unit := do
  let stats ← Run.do (.tracker .stats)
  record (.setHotKeys stats.2)

def handleTransitions (transitions : List Hotness.Transition) : Run Unit := do
  svc.applyTransitions transitions
  publishHotKeys
  let drops ← Run.do (.tracker .capacityDrops)
  record (.observeHotnessCapacityDrops drops)
  let oversized ← Run.do (.tracker .oversizedObservationsDropped)
  record (.observeHotnessOversizedDrops oversized)

def handleObservation (observation : Hotness.Observation) : Run Unit := do
  svc.applyTransitions observation.transitions
  when (observation.transitions ≠ []) publishHotKeys
  when observation.oversizedObservationDropped
    (record (.observeHotnessOversizedDrops observation.oversizedObservationsDropped))
  when observation.capacityObservationDropped
    (record (.observeHotnessCapacityDrops observation.capacityDrops))

def getFreshProtected (key : Key) : Run (Option EntrySnapshot) :=
  if svc.cfg.cache.allowStaleOnUpstreamError ∧ svc.cfg.cache.staleGrace > 0 then
    Run.do (.cache .cache (.getStale key 0))
  else Run.do (.cache .cache (.get key))

/-- The part of `getFreshCachedInState` after a first look has found no candidate. -/
def getPromoted (key : Key) : Run (Option EntrySnapshot) := do
  let hot ← isHot key
  if hot then
    let promoting ← Run.do (.stripe (cacheEpochStripe key) .promotionLoad)
    if promoting then
      lock (cacheEpochStripe key)
      let item ← svc.getFreshProtected key
      unlock (cacheEpochStripe key)
      pure item
    else svc.getFreshProtected key
  else pure none

/-- The candidate leaves probation before it enters the protected tier, so that the tiers never
exceed their common budget; without an admission it is dropped. -/
def transferCandidate (key : Key) (candidate : EntrySnapshot) (promoting : Bool) : Run Bool :=
  if promoting then do
    Run.do (.stripe (cacheEpochStripe key) (.promotionStore true))
    let _ ← delete .probationary key
    let stored ← Run.do (.cache .cache (.putUntil key candidate.value candidate.expiresAt))
    Run.do (.stripe (cacheEpochStripe key) (.promotionStore false))
    pure stored
  else do
    let _ ← delete .probationary key
    pure false

/-- The second look at a candidate, under the stripe. -/
def promoteCandidate (key : Key) : Run (Option EntrySnapshot) := do
  let candidate ← Run.do (.cache .probationary (.get key))
  match candidate with
  | none =>
    unlock (cacheEpochStripe key)
    pure none
  | some candidate =>
    let observation ← Run.do (.tracker (.admitKey key))
    let stored ← transferCandidate key candidate (observation.state = some .hot)
    unlock (cacheEpochStripe key)
    svc.handleObservation observation
    svc.observeCache
    pure (if stored then some candidate else none)

/-- The part of `getFreshCachedInState` after a first look has found a candidate. -/
def promote (key : Key) : Run (Option EntrySnapshot) := do
  lock (cacheEpochStripe key)
  let hot ← isHot key
  if hot then
    let item ← svc.getFreshProtected key
    match item with
    | some item =>
      unlock (cacheEpochStripe key)
      pure (some item)
    | none => svc.promoteCandidate key
  else svc.promoteCandidate key

def getProbationary (key : Key) : Run (Option EntrySnapshot) :=
  if svc.hasProbationary then do
    let candidate ← Run.do (.cache .probationary (.get key))
    match candidate with
    | none => svc.getPromoted key
    | some _ => svc.promote key
  else pure none

def getFreshCachedInState (key : Key) (state : Option Hotness.State) :
    Run (Option EntrySnapshot) := do
  if state = some .hot then
    let item ← svc.getFreshProtected key
    match item with
    | some item => pure (some item)
    | none => svc.getProbationary key
  else svc.getProbationary key

def cacheMissReason (policy : Decision) (state : Option Hotness.State) : CacheMissReason :=
  if policy.mode ≠ .cache then .policyBypass
  else if state = some .hot then .notPresent
  else .notAdmitted

def localTTL (upstreamTTL policyMaxTTL : Time) : Time :=
  if policyMaxTTL ≤ 0 then 0
  else
    let maxTTL :=
      if policyMaxTTL < svc.cfg.cache.maxLocalTTL then policyMaxTTL else svc.cfg.cache.maxLocalTTL
    if upstreamTTL = 0 then 0
    else if upstreamTTL > 0 ∧ upstreamTTL < maxTTL then upstreamTTL
    else maxTTL

/-- The common shape of `storeLocal` and `storeProbationary`: what does not fit the policy
removes the key from the tier. -/
def storeIn (tier : Tier) (key : Key) (value : Value) (policy : Decision) (ttl : Time) : Run Bool :=
  if policy.maxItemBytes ≤ 0 ∨ estimateSize key value.data > policy.maxItemBytes ∨ ttl ≤ 0 then do
    let _ ← delete tier key
    pure false
  else Run.do (.cache tier (.put key value.data ttl))

def storeLocal (key : Key) (value : Value) (policy : Decision) : Run Bool :=
  storeIn .cache key value policy (svc.localTTL value.pttl policy.maxLocalTTL)

def probationaryTTL (value : Value) (policy : Decision) : Time :=
  let ttl := svc.localTTL value.pttl policy.maxLocalTTL
  if svc.cfg.hotness.window > 0 ∧ svc.cfg.hotness.window < ttl then svc.cfg.hotness.window else ttl

def storeProbationary (key : Key) (value : Value) (policy : Decision) : Run Bool :=
  if svc.hasProbationary then do
    let tracked ← Run.do (.tracker (.isTracked key))
    if tracked then storeIn .probationary key value policy (svc.probationaryTTL value policy)
    else pure false
  else pure false

/-- The closure of `reconcileLocalIfCurrent`. -/
def reconcile (key : Key) (value : Value) (policy : Decision) : Run Unit :=
  if value.exists? then do
    let hot ← isHot key
    if hot then
      let _ ← svc.deleteProbationary key
      let _ ← svc.storeLocal key value policy
    else
      let _ ← delete .cache key
      let _ ← svc.storeProbationary key value policy
  else do
    let _ ← delete .cache key
    let _ ← svc.deleteProbationary key

/-- `reconcileLocalIfCurrent` with the body of `withCurrentCacheEpoch`. -/
def reconcileLocalIfCurrent (key : Key) (value : Value) (epoch : Nat) (policy : Decision) :
    Run Unit := do
  lock (cacheEpochStripe key)
  let current ← Run.do (.stripe (cacheEpochStripe key) .epochLoad)
  when (current = epoch) (svc.reconcile key value policy)
  unlock (cacheEpochStripe key)

def single : Except Error (List Value) → Except Error Value
  | .ok (value :: _) => .ok value
  | .ok [] => .error (.upstream "")
  | .error e => .error e

def failed : Except Error α → Bool
  | .ok _ => false
  | .error _ => true

/-- An upstream read with its metric: the body of `fetchUpstreamGet`, and the `MGet` of the
upstream client as `MGet` calls it. -/
def fetchUpstream (isGet : Bool) (keys : List Key) : Run (Except Error (List Value)) := do
  let i ← Run.do (.upstream (.issue keys))
  let r ← Run.do (.upstream (.answer i keys))
  record (.observeUpstream isGet (failed r))
  pure r

def fetchUpstreamGet (key : Key) : Run (Except Error Value) := do
  let r ← fetchUpstream true [key]
  pure (single r)

/-- The function that `Get` hands to the flight. -/
def flightRead (key : Key) (epoch : Nat) (policy : Decision) : Run (Except Error Value) := do
  let r ← fetchUpstreamGet key
  match r with
  | .error e => pure (.error e)
  | .ok value =>
    svc.reconcileLocalIfCurrent key value epoch policy
    pure (.ok value)

def flight (key : Key) (epoch : Nat) (policy : Decision) (f : Nat) : Run Unit := do
  note (.start (.flight f key))
  let r ← svc.flightRead key epoch policy
  Run.do (.group (.complete f r))
  note (.finish .flight)

def secondsInNanos (n : Int) : Time := n * Hotness.secondInNanos

def sharedReadTimeout : Time :=
  let upstreamTimeout :=
    if svc.cfg.upstream.readTimeout ≤ 0 then secondsInNanos 2 else svc.cfg.upstream.readTimeout
  if svc.cfg.proxy.readTimeout > 0 ∧ svc.cfg.proxy.readTimeout < upstreamTimeout then
    svc.cfg.proxy.readTimeout
  else upstreamTimeout

/-- The tracker sees the read unless the policy denies it. -/
def observeRead (key : Key) (policy : Decision) : Run (Option Hotness.State) :=
  if policy.mode ≠ .deny then do
    let observation ← Run.do (.tracker (.observeWithState key))
    svc.handleObservation observation
    pure observation.state
  else pure none

def getCached (key : Key) (policy : Decision) (state : Option Hotness.State) :
    Run (Option EntrySnapshot) :=
  if policy.mode = .cache then svc.getFreshCachedInState key state else pure none

/-- The stale fallback of `Get` after the shared read has failed. -/
def getFallback (key : Key) (e : Error) : Run (Except Error Answer) := do
  if svc.cfg.cache.allowStaleOnUpstreamError then
    let item ← Run.do (.cache .cache (.getStale key svc.cfg.cache.staleGrace))
    match item with
    | some item => pure (.ok ⟨item.toValue, .tier⟩)
    | none => pure (.error e)
  else pure (.error e)

/-- `Get` from its `select` on. -/
def getAwait (key : Key) (f : Nat) (deadline : Time) : Run (Except Error Answer) := do
  let waited ← Run.do (.group (.wait f deadline))
  match waited with
  | .done e => pure (.error e)
  | .result r shared =>
    when shared (record .coalesced)
    match r with
    | .error e => svc.getFallback key e
    | .ok value =>
      svc.observeCache
      pure (.ok ⟨value, .flight⟩)

/-- `Get` after a miss. -/
def getMissed (key : Key) (policy : Decision) : Run (Except Error Answer) := do
  let now ← Run.do .now
  if policy.mode = .cache then
    let epoch ← Run.do (.stripe (cacheEpochStripe key) .epochLoad)
    let j ← Run.do (.group (.doChan key epoch policy))
    svc.getAwait key j.flight (now + svc.sharedReadTimeout)
  else
    let r ← fetchUpstreamGet key
    svc.observeCache
    match r with
    | .ok value => pure (.ok ⟨value, .upstream⟩)
    | .error e => pure (.error e)

def get (key : Key) : Run (Except Error Answer) :=
  if key = [] then pure (.error .keyRequired)
  else do
    let err ← Run.do .ctxErr
    match err with
    | some e => pure (.error e)
    | none =>
      let policy := svc.policy key
      let state ← svc.observeRead key policy
      let item ← svc.getCached key policy state
      match item with
      | some item =>
        record .cacheHit
        pure (.ok ⟨item.toValue, .tier⟩)
      | none =>
        record (.cacheMissWithReason (cacheMissReason policy state))
        svc.getMissed key policy

/-- `missingRead`, with its key. -/
structure MissingRead where
  position : Nat
  key : Key
  epoch : Nat
  policy : Decision

/-- The zero `upstream.Value` that fills the result of `MGet` at first. -/
def zeroAnswer : Answer := ⟨⟨⟨[], .read 0 0 0⟩, false, 0⟩, .upstream⟩

/-- The first loop of `MGet`: the local hits at their positions, and the reads that are left. -/
def mgetLocal (out : List Answer) (missing : List MissingRead) (position : Nat) :
    List Key → Run (List Answer × List MissingRead)
  | [] => pure (out, missing)
  | key :: keys => do
    let policy := svc.policy key
    let state ← svc.observeRead key policy
    let item ← svc.getCached key policy state
    match item with
    | some item =>
      record .cacheHit
      mgetLocal (out.set position ⟨item.toValue, .tier⟩) missing (position + 1) keys
    | none =>
      record (.cacheMissWithReason (cacheMissReason policy state))
      if policy.mode = .cache then
        let epoch ← Run.do (.stripe (cacheEpochStripe key) .epochLoad)
        mgetLocal out (missing ++ [⟨position, key, epoch, policy⟩]) (position + 1) keys
      else mgetLocal out (missing ++ [⟨position, key, 0, policy⟩]) (position + 1) keys

/-- The stale fallback of `MGet`, with the number of positions it has filled. -/
def mgetStale (out : List Answer) (staleCount : Nat) : List MissingRead → Run (List Answer × Nat)
  | [] => pure (out, staleCount)
  | read :: rest =>
    if read.policy.mode = .cache then do
      let item ← Run.do (.cache .cache (.getStale read.key svc.cfg.cache.staleGrace))
      match item with
      | some item => mgetStale (out.set read.position ⟨item.toValue, .tier⟩) (staleCount + 1) rest
      | none => mgetStale out staleCount rest
    else mgetStale out staleCount rest

/-- The last loop of `MGet`, over the values of the upstream reply. -/
def mgetStore (out : List Answer) : List (MissingRead × Value) → Run (List Answer)
  | [] => pure out
  | (read, value) :: rest => do
    when (read.policy.mode = .cache)
      (svc.reconcileLocalIfCurrent read.key value read.epoch read.policy)
    mgetStore (out.set read.position ⟨value, .upstream⟩) rest

/-- `MGet` once the keys without a local hit are known. -/
def mgetMissing (out : List Answer) (missing : List MissingRead) :
    Run (Except Error (List Answer)) := do
  let r ← fetchUpstream false (missing.map MissingRead.key)
  match r with
  | .error e =>
    if svc.cfg.cache.allowStaleOnUpstreamError then
      let stale ← svc.mgetStale out 0 missing
      pure (if stale.2 = missing.length then .ok stale.1 else .error e)
    else pure (.error e)
  | .ok values =>
    let out ← svc.mgetStore out (missing.zip values)
    svc.observeCache
    pure (.ok out)

def mget (keys : List Key) : Run (Except Error (List Answer)) := do
  let found ← svc.mgetLocal (keys.map fun _ => zeroAnswer) [] 0 keys
  if found.2.isEmpty then pure (.ok found.1) else svc.mgetMissing found.1 found.2

/-- The gates that a write needs, each once and in ascending order. -/
def neededStripes (keys : List Key) : List Stripe :=
  (List.finRange 256).filter fun σ => σ ∈ keys.map cacheEpochStripe

def releaseMutationStripes (stripes : List Stripe) : Run Unit :=
  each (fun σ => Run.do (.gate σ .receive)) stripes.reverse

/-- The loop of `acquireMutationStripes` over the stripes that are left. -/
def acquireMutationStripes (acquired : List Stripe) :
    List Stripe → Run (Except Error (List Stripe))
  | [] => pure (.ok acquired)
  | σ :: rest => do
    let err ← Run.do .ctxErr
    match err with
    | some e =>
      releaseMutationStripes acquired
      pure (.error e)
    | none =>
      let err ← Run.do (.gate σ .send)
      match err with
      | some e =>
        releaseMutationStripes acquired
        pure (.error e)
      | none => acquireMutationStripes (acquired ++ [σ]) rest

/-- The critical section of `invalidateCacheKeys` for one key. -/
def invalidateCacheKey (key : Key) (advance : Bool) : Run Bool := do
  lock (cacheEpochStripe key)
  when advance (Run.do (.stripe (cacheEpochStripe key) .epochAdd))
  let deleted ← delete .cache key
  let deleted' ← svc.deleteProbationary key
  note (.cleared key)
  unlock (cacheEpochStripe key)
  pure (deleted || deleted')

/-- `invalidateCacheKeys` with the stripes whose epoch it has advanced and its count so far. -/
def invalidateCacheKeys (advanced : List Stripe) (invalidated : Nat) : List Key → Run Nat
  | [] => pure invalidated
  | key :: keys => do
    let deleted ← svc.invalidateCacheKey key (decide (cacheEpochStripe key ∉ advanced))
    invalidateCacheKeys (cacheEpochStripe key :: advanced)
      (if deleted then invalidated + 1 else invalidated) keys

/-- `policy.Mode == cachepolicy.ModeCache && s.tracker.IsHot(key)`. -/
def cachedHot (key : Key) : Run Bool :=
  if (svc.policy key).mode = .cache then isHot key else pure false

/-- The removal of a candidate by `writeThroughSet`; the answer says whether it was fresh. -/
def takeCandidate (key : Key) : Run Bool :=
  if svc.hasProbationary then do
    let candidate ← Run.do (.cache .probationary (.inspect key))
    let _ ← delete .probationary key
    pure candidate.isSome
  else pure false

/-- What `writeThroughSet` does with the protected tier, and its result. -/
def writeThrough (key : Key) (value : Blob) (present probationary : Bool) : Run Nat := do
  let hot ← svc.cachedHot key
  if hot then
    let stored ← svc.storeLocal key ⟨value, true, -1⟩ (svc.policy key)
    pure (if stored then 0 else if present || probationary then 1 else 0)
  else
    let deleted ← delete .cache key
    pure (if deleted || probationary then 1 else 0)

/-- `writeThroughSet`. The source of the value is the write that set it at the origin. -/
def writeThroughSet (key : Key) (value : Blob) : Run Nat := do
  lock (cacheEpochStripe key)
  Run.do (.stripe (cacheEpochStripe key) .epochAdd)
  let present ← Run.do (.cache .cache (.inspect key))
  let probationary ← svc.takeCandidate key
  let invalidated ← svc.writeThrough key value present.isSome probationary
  note (.cleared key)
  unlock (cacheEpochStripe key)
  pure invalidated

def finalizeWrite (command : Bytes) (args keys : List Bytes) (source : Source)
    (r : Except Error RedisReply) : Run Nat :=
  match acknowledgedSet command args keys r with
  | some (key, value) => svc.writeThroughSet key ⟨value, source⟩
  | none => svc.invalidateCacheKeys [] 0 keys

/-- `ExecuteWrite` while it holds its gates. -/
def executeGated (command : Bytes) (args keys : List Bytes) : Run (Except Error RedisReply) := do
  note (.openWindow keys)
  let before ← svc.invalidateCacheKeys [] 0 keys
  let done ← Run.do (.upstream (.dispatch command args keys))
  record (.observeUpstream (isGetCommand command) (failed done.1))
  let after ← svc.finalizeWrite command args keys done.2 done.1
  note .closeWindow
  each (fun key => Run.do (.group (.forget key))) keys
  each record (List.replicate (before + after) .invalidation)
  svc.observeCache
  pure done.1

def executeWrite (command : Bytes) (args keys : List Bytes) : Run (Except Error RedisReply) := do
  let acquired ← acquireMutationStripes [] (neededStripes keys)
  match acquired with
  | .error e => pure (.error e)
  | .ok stripes =>
    let r ← svc.executeGated command args keys
    note .releaseGates
    releaseMutationStripes stripes
    pure r

def passThrough (command : Bytes) (args : List Bytes) : Run (Except Error RedisReply) := do
  let r ← Run.do (.upstream (.passThrough command args))
  record (.observeUpstream (isGetCommand command) (failed r))
  pure r

def purgeAllCache : Run Unit := do
  each lock (List.finRange 256)
  Run.do (.cache .cache .purge)
  when svc.hasProbationary (Run.do (.cache .probationary .purge))
  each (fun σ => Run.do (.stripe σ .epochAdd)) (List.finRange 256)
  note .clearedAll
  each unlock (List.finRange 256).reverse

def purgeCache (key : Key) : Run Bool :=
  if key = [] then do
    svc.purgeAllCache
    svc.observeCache
    pure true
  else do
    let invalidated ← svc.invalidateCacheKeys [] 0 [key]
    Run.do (.group (.forget key))
    when (invalidated > 0) (record .invalidation)
    svc.observeCache
    pure (decide (invalidated > 0))

/-- `Duration.Round`: halves go away from zero. -/
def roundDuration (d unit : Time) : Time :=
  let r := d.tmod unit
  if d < 0 then if -r + -r < unit then d - r else d - r - unit
  else if r + r < unit then d - r else d - r + unit

def status : Run Status := do
  let transitions ← Run.do (.tracker .advance)
  svc.handleTransitions transitions
  let stats ← svc.combinedStats
  record (.observeCache stats.entries stats.bytes stats.evictions)
  let tracked ← Run.do (.tracker .stats)
  record (.setHotKeys tracked.2)
  let counters ← Run.do .counters
  let pingErr ← Run.do (.upstream .ping)
  let now ← Run.do .now
  pure
    { version := svc.version
      commit := svc.commit
      mode := svc.cfg.mode
      keyVisibility := svc.cfg.effectiveKeyVisibility
      uptime := roundDuration (now - svc.started) (secondsInNanos 1)
      upstreamOK := pingErr.isNone
      cacheBytes := stats.bytes
      cacheEntries := stats.entries
      trackedKeys := tracked.1
      hotKeys := tracked.2
      counters := counters }

def keyIdentifier (key : Key) : Bytes :=
  if svc.cfg.effectiveKeyVisibility = "plain" then key
  else svc.keyHash svc.cfg.privacy.keyHashSecret key

def hotKey (snapshot : Hotness.Snapshot) (cached : Option EntrySnapshot) : HotKey where
  id := svc.keyIdentifier snapshot.key
  state := snapshot.state
  score := snapshot.score
  requestRate := snapshot.requestRate
  locallyCached := cached.isSome
  cacheAge := cached.map fun item => roundDuration item.age 1000000
  remainingLocalTTL := cached.map fun item => roundDuration item.ttl 1000000

def hotKeysLoop (out : List HotKey) : List Hotness.Snapshot → Run (List HotKey)
  | [] => pure out
  | snapshot :: rest => do
    let cached ← Run.do (.cache .cache (.inspect snapshot.key))
    hotKeysLoop (out ++ [svc.hotKey snapshot cached]) rest

def hotKeys (limit : Int) : Run (List HotKey) := do
  let view ← Run.do (.tracker (.advanceAndSnapshot limit))
  svc.handleTransitions view.transitions
  svc.hotKeysLoop [] view.snapshots

def defaultAuditLimit : Int := 100

def maxAuditLimit : Int := 1000

def normalizeAuditLimit (limit : Int) : Int :=
  if limit ≤ 0 then defaultAuditLimit else if limit > maxAuditLimit then maxAuditLimit else limit

def auditRecommendation (policyMode : Mode) (state : Hotness.State) :
    Recommendation × List ReasonCode :=
  match policyMode with
  | .observe =>
    if state = .hot then (.reviewForCache, [.effectivePolicyObserve, .hotnessStateHot])
    else (.continueObserving, [.effectivePolicyObserve, .hotnessStateNotHot])
  | .cache =>
    (.noChange,
      [.effectivePolicyCache, if state = .hot then .hotnessStateHot else .hotnessStateNotHot])
  | .deny => (.noChange, [.effectivePolicyDeny])

def auditEntry (snapshot : Hotness.Snapshot) : AuditEntry :=
  let policyMode := (svc.policy snapshot.key).mode
  let (recommendation, reasons) := auditRecommendation policyMode snapshot.state
  { id := svc.keyIdentifier snapshot.key
    requestRate := snapshot.requestRate
    hotnessState := snapshot.state
    effectivePolicyMode := policyMode
    recommendation := recommendation
    reasonCodes := reasons }

def audit (limit : Int) : Run AuditReport := do
  let view ← Run.do (.tracker (.advanceAndSnapshot (normalizeAuditLimit limit)))
  svc.handleTransitions view.transitions
  let entries := view.snapshots.map svc.auditEntry
  let now ← Run.do .now
  pure
    { generatedAt := now
      measurementWindow := svc.cfg.hotness.window
      mode := svc.cfg.mode
      keyVisibility := svc.cfg.effectiveKeyVisibility
      trackedKeys := view.tracked
      trackingCapacity := svc.cfg.hotness.maxTrackedKeys
      trackingEvictions := view.evictions
      capacityObservationsDropped := view.capacityDrops
      oversizedObservationsDropped := view.oversizedObservationsDropped
      telemetryComplete := view.tracked ≤ entries.length ∧ view.evictions = 0 ∧
        view.capacityDrops = 0 ∧ view.oversizedObservationsDropped = 0
      returnedEntries := entries.length
      truncated := view.tracked > entries.length
      entries := entries }

def cacheInfo : Run CacheInfo := do
  let stats ← svc.combinedStats
  record (.observeCache stats.entries stats.bytes stats.evictions)
  pure ⟨stats.entries, stats.bytes, stats.maxBytes, stats.evictions⟩

/-- `Close`. The end of the lifetime context shows as failing reads of the flights, which can
fail at any time. -/
def close : Run Unit := do
  let swapped ← Run.do .closeSwap
  if swapped then
    Run.do (.cache .cache .close)
    when svc.hasProbationary (Run.do (.cache .probationary .close))
    Run.do (.upstream .close)
  else pure ()

/-- One call of the service, from its start to its return. -/
def perform : Job → Run Reply
  | .get key => return .get (← svc.get key)
  | .mget keys => return .mget (← svc.mget keys)
  | .executeWrite command args keys => return .executeWrite (← svc.executeWrite command args keys)
  | .passThrough command args => return .passThrough (← passThrough command args)
  | .status => return .status (← svc.status)
  | .hotKeys limit => return .hotKeys (← svc.hotKeys limit)
  | .audit limit => return .audit (← svc.audit limit)
  | .cacheInfo => return .cacheInfo (← svc.cacheInfo)
  | .purgeCache key => return .purgeCache (← svc.purgeCache key)
  | .close => do
    svc.close
    return .close
  | .flight _ _ => return .flight

def call (job : Job) : Run Unit := do
  note (.start job)
  let reply ← svc.perform job
  note (.finish reply)

end Service
end Slizen
