import Mathlib.Logic.Function.Basic
import Slizen.Benchmark.Values
import Slizen.Benchmark.Workload

namespace Slizen.Benchmark
set_option autoImplicit true

/-- What `runRedisWorkloadWithClients` is given; there is a digest for every key. -/
structure Workload where
  scenario : String
  cfg : WorkloadConfig
  keys : List Key
  values : WorkloadValues
  sum256 : Bytes → Digest
  aligned : values.digests.length = keys.length

namespace Issuance

/-- `workloadKeyState`: the version, and the state of the mutex that guards it. -/
structure WorkloadKeyState where
  version : UInt64 := 0
  readers : Nat := 0
  writing : Bool := false

/-- The counters of `workloadWorkerResult`. Each counts operations of the worker, of which there
are fewer than `2 ^ 63`. -/
structure WorkloadWorkerResult where
  reads : Nat := 0
  writes : Nat := 0
  failures : Nat := 0
  valueMismatches : Nat := 0
  deriving DecidableEq

/-- Where a worker stands: before the check of the context, before it takes an index, before it
locks the key of its operation; with the read lock, before it reads the version, before the
comparison, before the unlock; with the write lock, before it fills the value, before the command,
before it stores the version, before the unlock; at its end, or at an index out of range. -/
inductive Point (n : Nat) where
  | top
  | issue
  | wait (index : UInt64) (key : Fin n) (read : Bool)
  | reading (index : UInt64) (key : Fin n)
  | expecting (index : UInt64) (key : Fin n) (version : UInt64)
  | compared (key : Fin n) (failed mismatch : Bool)
  | writing (index : UInt64) (key : Fin n)
  | filled (index : UInt64) (key : Fin n) (version : UInt64) (value : Bytes)
  | answered (key : Fin n) (version : UInt64) (failed : Bool)
  | stored (key : Fin n) (failed : Bool)
  | returned
  | panicked (index : UInt64)
  deriving DecidableEq

structure Worker (n : Nat) where
  point : Point n
  valueBuffer : Bytes
  result : WorkloadWorkerResult
  deriving DecidableEq

/-- What the workers share: the counter, whether `ctx` has ended, and the states of the keys. -/
structure Shared (n : Nat) where
  issued : UInt64
  expired : Bool
  keyStates : Fin n → WorkloadKeyState

/-- What a worker does that others can see; a failed command has no reply. -/
inductive Event (n : Nat) where
  | rlock (worker : Nat) (key : Fin n)
  | get (worker : Nat) (index : UInt64) (key : Fin n) (expected : UInt64) (reply : Option Bytes)
  | set (worker : Nat) (index : UInt64) (key : Fin n) (version : UInt64) (value : Bytes)
      (failed : Bool)
  deriving DecidableEq

def Shared.update (sh : Shared n) (key : Fin n) (f : WorkloadKeyState → WorkloadKeyState) :
    Shared n :=
  { sh with keyStates := Function.update sh.keyStates key (f (sh.keyStates key)) }

def WorkloadWorkerResult.count (r : WorkloadWorkerResult) (read failed mismatch : Bool) :
    WorkloadWorkerResult :=
  if failed then
    { r with failures := r.failures + 1, valueMismatches := r.valueMismatches + mismatch.toNat }
  else if read then { r with reads := r.reads + 1 }
  else { r with writes := r.writes + 1 }

section

variable (w : Workload)

def request (index : UInt64) : Point w.keys.length :=
  if toUint64 w.cfg.maxRequests ≤ index then .returned
  else match workloadRequestAt w.scenario w.cfg index with
    | none => .panicked index
    | some (keyIndex, read) =>
      if h : 0 ≤ keyIndex ∧ keyIndex.toNat < w.keys.length then
        .wait index ⟨keyIndex.toNat, h.2⟩ read
      else .panicked index

def fill (key : Fin w.keys.length) (version : UInt64) (buffer : Bytes) : Bytes :=
  w.values.fill w.sum256 (key.cast w.aligned.symm) version buffer

/-- `err == nil && !values.Matches(…)`. -/
def mismatch (key : Fin w.keys.length) (version : UInt64) (reply : Option Bytes) : Bool :=
  match reply with
  | none => false
  | some value => !w.values.matches w.sum256 (key.cast w.aligned.symm) version value

/-- One atomic step of worker `t`, or `none` while it waits for a lock. What only the worker itself
reads goes with the step before. -/
def Worker.step (t : Nat) (reply : Option Bytes) (sh : Shared w.keys.length)
    (x : Worker w.keys.length) :
    Option (Shared w.keys.length × Worker w.keys.length × Option (Event w.keys.length)) :=
  match x.point with
  | .top => some (sh, { x with point := if sh.expired then .returned else .issue }, none)
  | .issue =>
    let issued := sh.issued + 1
    some ({ sh with issued := issued }, { x with point := request w (issued - 1) }, none)
  | .wait index key true =>
    if (sh.keyStates key).writing then none
    else some (sh.update key fun st => { st with readers := st.readers + 1 },
      { x with point := .reading index key }, some (.rlock t key))
  | .reading index key =>
    some (sh, { x with point := .expecting index key (sh.keyStates key).version }, none)
  | .expecting index key version =>
    let mismatch := mismatch w key version reply
    some (sh, { x with point := .compared key (reply.isNone || mismatch) mismatch },
      some (.get t index key version reply))
  | .compared key failed mismatch =>
    some (sh.update key fun st => { st with readers := st.readers - 1 },
      { x with point := .top, result := x.result.count true failed mismatch }, none)
  | .wait index key false =>
    if (sh.keyStates key).writing ∨ (sh.keyStates key).readers ≠ 0 then none
    else some (sh.update key fun st => { st with writing := true },
      { x with point := .writing index key }, none)
  | .writing index key =>
    let version := (sh.keyStates key).version + 1
    let value := fill w key version x.valueBuffer
    some (sh, { x with point := .filled index key version value, valueBuffer := value }, none)
  | .filled index key version value =>
    some (sh, { x with point := .answered key version reply.isNone },
      some (.set t index key version value reply.isNone))
  | .answered key version failed =>
    some (sh.update key fun st => if failed then st else { st with version := version },
      { x with point := .stored key failed }, none)
  | .stored key failed =>
    some (sh.update key fun st => { st with writing := false },
      { x with point := .top, result := x.result.count false failed false }, none)
  | .returned => none
  | .panicked _ => none

/-- The workers, and what they have done so far, the latest event first. -/
structure State where
  shared : Shared w.keys.length
  workers : List (Worker w.keys.length)
  history : List (Event w.keys.length)

/-- The duration limit fires, or worker `t` goes on; `reply` is what its command returns if it is
at one. -/
inductive Move where
  | expire
  | work (t : Nat) (reply : Option Bytes)

variable {w} in
def State.step (s : State w) : Move → State w
  | .expire => { s with shared := { s.shared with expired := true } }
  | .work t reply =>
    match s.workers[t]? with
    | none => s
    | some x =>
      match x.step w t reply s.shared with
      | none => s
      | some (sh, y, e) => ⟨sh, s.workers.set t y, e.toList ++ s.history⟩

def start : State w :=
  ⟨⟨0, false, fun _ => {}⟩,
    List.replicate w.cfg.concurrency.toNat ⟨.top, List.replicate w.values.size 0, {}⟩, []⟩

def run (moves : List Move) : State w := moves.foldl State.step (start w)

end

/-- The fields of `benchmarkPhase` that do not depend on time. -/
structure BenchmarkPhase where
  requests : Nat
  operationAttempts : Nat
  terminationReason : String
  reads : Nat
  writes : Nat
  failures : Nat
  valueMismatches : Nat
  validationReads : Nat
  validationFailures : Nat
  validationMismatches : Nat

def workloadTerminationReason (operationAttempts : Nat) (maxRequests : Int) : String :=
  if operationAttempts ≥ (toUint64 maxRequests).toNat then "request_limit" else "duration_limit"

/-- The phase that is reported, from the results of the workers and the outcome of
`validateWrittenWorkloadValues`. -/
def report (cfg : WorkloadConfig) (workers : List WorkloadWorkerResult)
    (validation : WorkloadWorkerResult) (validationReads : Nat) : BenchmarkPhase :=
  let reads := (workers.map (·.reads)).sum
  let writes := (workers.map (·.writes)).sum
  let operationFailures := (workers.map (·.failures)).sum
  let valueMismatches := (workers.map (·.valueMismatches)).sum
  let operationAttempts := reads + writes + operationFailures
  { requests := reads + validation.reads + writes
    operationAttempts := operationAttempts
    terminationReason := workloadTerminationReason operationAttempts cfg.maxRequests
    reads := reads + validation.reads
    writes := writes
    failures := operationFailures + validation.failures
    valueMismatches := valueMismatches + validation.valueMismatches
    validationReads := validationReads
    validationFailures := validation.failures
    validationMismatches := validation.valueMismatches }

def Event.index : Event n → Option UInt64
  | .rlock _ _ => none
  | .get _ index _ _ _ => some index
  | .set _ index _ _ _ _ => some index

def Event.wrote (key : Fin n) : Event n → Option UInt64
  | .set _ _ key' version _ false => if key' = key then some version else none
  | _ => none

def Event.worker : Event n → Nat
  | .rlock t _ => t
  | .get t _ _ _ _ => t
  | .set t _ _ _ _ _ => t

/-- What comes of a command: a value that matches, a write, an error, or a value that does not
match. -/
inductive Outcome where
  | read
  | written
  | failed
  | mismatched
  deriving DecidableEq

/-- The reply to a read is held against the content of the key at the expected version. -/
def Event.outcome (w : Workload) : Event w.keys.length → Option Outcome
  | .rlock _ _ => none
  | .get _ _ _ _ none => some .failed
  | .get _ _ key version (some value) =>
    if w.values.matches w.sum256 (key.cast w.aligned.symm) version value then some .read
    else some .mismatched
  | .set _ _ _ _ _ failed => some (if failed then .failed else .written)

/-- A value that `Fill` has made for this version. -/
def Filled (w : Workload) (key : Fin w.keys.length) (version : UInt64) (value : Bytes) : Prop :=
  ∃ buffer, value = w.values.fill w.sum256 (key.cast w.aligned.symm) version buffer

def WorkloadWorkerResult.add (r : WorkloadWorkerResult) : Outcome → WorkloadWorkerResult
  | .read => { r with reads := r.reads + 1 }
  | .written => { r with writes := r.writes + 1 }
  | .failed => { r with failures := r.failures + 1 }
  | .mismatched =>
    { r with failures := r.failures + 1, valueMismatches := r.valueMismatches + 1 }

def tally (w : Workload) (t : Nat) : List (Event w.keys.length) → WorkloadWorkerResult
  | [] => {}
  | e :: past =>
    if e.worker = t then (e.outcome w).elim (tally w t past) (tally w t past).add
    else tally w t past

def executed (h : List (Event n)) : List UInt64 := h.filterMap Event.index

def written (key : Fin n) (h : List (Event n)) : List UInt64 := h.filterMap (Event.wrote key)

def lastVersion (key : Fin n) (h : List (Event n)) : UInt64 := (written key h).headD 0

/-- The key of the read lock that worker `t` has taken last, and what had happened before. -/
def lastLock (t : Nat) : List (Event n) → Option (Fin n × List (Event n))
  | [] => none
  | .rlock u key :: past => if u = t then some (key, past) else lastLock t past
  | _ :: past => lastLock t past

end Issuance
end Slizen.Benchmark
