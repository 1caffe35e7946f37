import Slizen.Basic
import Slizen.FixedWidth

namespace Slizen.Benchmark
set_option autoImplicit true

variable {cfg : WorkloadConfig}

def workloadScenarioAll : String := "all"

def workloadScenarioUniform : String := "uniform"

def workloadScenarioSkew80 : String := "skew-80-20"

def workloadScenarioSkew99 : String := "skew-99-1"

def workloadScenarioMovingFlash : String := "moving-flash"

def maxWorkloadConcurrency : Int := 1024

def maxWorkloadRequests : Int := 1000000

def maxWorkloadKeys : Int := 100000

def minWorkloadValueBytes : Int := 16

def maxWorkloadValueBytes : Int := 1 * 2 ^ 20

def maxWorkloadDataset : Int := 256 * 2 ^ 20

def maxWorkloadDuration : Time := 3600 * 1000000000

def maxWorkloadKeyPrefix : Nat := 128

/-- `workloadConfig`. An `int` is an integer here, and has 64 bits where it is converted. -/
structure WorkloadConfig where
  originAddr : String
  proxyAddr : String
  adminURL : String
  scenario : String
  keyPrefix : String
  keyCount : Int
  valueSize : Int
  readRatio : Int
  concurrency : Int
  maxRequests : Int
  duration : Time
  seed : Int64
  flashEvery : Int
  output : String

def workloadScenarios : List String :=
  [workloadScenarioUniform, workloadScenarioSkew80, workloadScenarioSkew99,
    workloadScenarioMovingFlash]

def isWorkloadScenario (scenario : String) : Bool :=
  scenario == workloadScenarioAll || workloadScenarios.any (scenario == ·)

def selectedWorkloadScenarios (selection : String) : List String :=
  if selection = workloadScenarioAll then workloadScenarios else [selection]

/-- The error of `validateWorkloadConfig`, if there is one. -/
def validateWorkloadConfig (cfg : WorkloadConfig) : Option String :=
  if ¬ isWorkloadScenario cfg.scenario then
    some "scenario must be one of: all, uniform, skew-80-20, skew-99-1, moving-flash"
  else if cfg.originAddr = "" ∨ cfg.proxyAddr = "" ∨ cfg.adminURL = "" then
    some "origin, proxy, and admin addresses must not be empty"
  else if cfg.keyPrefix = "" then some "key-prefix must not be empty"
  else if cfg.keyPrefix.utf8ByteSize > maxWorkloadKeyPrefix then
    some "key-prefix must not exceed 128 bytes"
  else if cfg.keyCount < 2 ∨ cfg.keyCount > maxWorkloadKeys then
    some "keys must be between 2 and 100000"
  else if (cfg.scenario = workloadScenarioAll ∨ cfg.scenario = workloadScenarioSkew99) ∧
      cfg.keyCount < 100 then
    some "keys must be at least 100 for all and skew-99-1 scenarios"
  else if cfg.scenario = workloadScenarioSkew80 ∧ cfg.keyCount < 5 then
    some "keys must be at least 5 for the skew-80-20 scenario"
  else if cfg.valueSize < minWorkloadValueBytes ∨ cfg.valueSize > maxWorkloadValueBytes then
    some "value-size must be between 16 and 1048576 bytes"
  else if cfg.keyCount * cfg.valueSize * (selectedWorkloadScenarios cfg.scenario).length >
      maxWorkloadDataset then
    some "generated dataset must not exceed 268435456 bytes"
  else if cfg.readRatio < 1 ∨ cfg.readRatio > 100 then
    some "read-ratio must be between 1 and 100 percent"
  else if cfg.concurrency < 1 ∨ cfg.concurrency > maxWorkloadConcurrency then
    some "concurrency must be between 1 and 1024"
  else if cfg.maxRequests < 1 ∨ cfg.maxRequests > maxWorkloadRequests then
    some "requests must be between 1 and 1000000"
  else if cfg.concurrency > cfg.maxRequests then some "concurrency must not exceed requests"
  else if cfg.duration ≤ 0 ∨ cfg.duration > maxWorkloadDuration then
    some "duration must be greater than zero and at most 1h0m0s"
  else if cfg.flashEvery < 1 ∨ cfg.flashEvery > maxWorkloadRequests then
    some "flash-every must be between 1 and 1000000"
  else if (cfg.scenario = workloadScenarioAll ∨ cfg.scenario = workloadScenarioMovingFlash) ∧
      cfg.flashEvery ≥ cfg.maxRequests then
    some "flash-every must be less than requests for moving-flash workloads"
  else if cfg.output ≠ "text" ∧ cfg.output ≠ "json" then some "output must be text or json"
  else none

/-- `uint64(x)` of an `int`. -/
def toUint64 (x : Int) : UInt64 := UInt64.ofInt x

/-- `int(u)` of a `uint64`. -/
def int (u : UInt64) : Int := FixedWidth.wrap 64 u.toNat

def mod64 (a b : UInt64) : Option UInt64 := if b = 0 then none else some (a % b)

def div64 (a b : UInt64) : Option UInt64 := if b = 0 then none else some (a / b)

def deterministicWorkloadValue (seed : Int64) (operationIndex stream : UInt64) : UInt64 :=
  let value := seed.toUInt64 + 0x9e3779b97f4a7c15 * (operationIndex + 1) +
    0xd1b54a32d192ed03 * stream
  let value := (value ^^^ (value >>> 30)) * 0xbf58476d1ce4e5b9
  let value := (value ^^^ (value >>> 27)) * 0x94d049bb133111eb
  value ^^^ (value >>> 31)

/-- The draw that decides whether an operation goes to the favoured keys. -/
def choiceDraw (cfg : WorkloadConfig) (operationIndex : UInt64) : UInt64 :=
  deterministicWorkloadValue cfg.seed operationIndex 2 % 100

def hotKeys (cfg : WorkloadConfig) (divisor : Int) : Int := max 1 (cfg.keyCount.tdiv divisor)

def skewedKey (cfg : WorkloadConfig) (divisor : Int) (percent choice keyValue : UInt64) :
    Option Int := do
  if choice < percent then
    let position ← mod64 keyValue (toUint64 (hotKeys cfg divisor))
    pure (int position)
  else
    let position ← mod64 keyValue (toUint64 (cfg.keyCount - hotKeys cfg divisor))
    pure (hotKeys cfg divisor + int position)

/-- The key of a scenario; `none` is the panic of a division by zero. -/
def workloadKeyAt (scenario : String) (cfg : WorkloadConfig) (operationIndex : UInt64) :
    Option Int := do
  let choice := choiceDraw cfg operationIndex
  let keyValue := deterministicWorkloadValue cfg.seed operationIndex 3
  if scenario = workloadScenarioSkew80 then skewedKey cfg 5 80 choice keyValue
  else if scenario = workloadScenarioSkew99 then skewedKey cfg 100 99 choice keyValue
  else if scenario = workloadScenarioMovingFlash ∧ choice < 99 then
    let offset ← mod64 (deterministicWorkloadValue cfg.seed 0 4) (toUint64 cfg.keyCount)
    let window ← div64 operationIndex (toUint64 cfg.flashEvery)
    let position ← mod64 (offset + window) (toUint64 cfg.keyCount)
    pure (int position)
  else
    let position ← mod64 keyValue (toUint64 cfg.keyCount)
    pure (int position)

def workloadRequestAt (scenario : String) (cfg : WorkloadConfig) (operationIndex : UInt64) :
    Option (Int × Bool) := do
  let read := deterministicWorkloadValue cfg.seed operationIndex 1 % 100 < toUint64 cfg.readRatio
  let keyIndex ← workloadKeyAt scenario cfg operationIndex
  pure (keyIndex, read)

/-- What acceptance says of the numbers that the selection of keys works with. -/
structure Accepted (cfg : WorkloadConfig) : Prop where
  scenario : cfg.scenario = workloadScenarioAll ∨ cfg.scenario ∈ workloadScenarios
  keys : 2 ≤ cfg.keyCount ∧ cfg.keyCount ≤ 100000
  keys99 : cfg.scenario = workloadScenarioAll ∨ cfg.scenario = workloadScenarioSkew99 →
    100 ≤ cfg.keyCount
  keys80 : cfg.scenario = workloadScenarioSkew80 → 5 ≤ cfg.keyCount
  requests : 1 ≤ cfg.maxRequests ∧ cfg.maxRequests ≤ 1000000
  concurrency : 1 ≤ cfg.concurrency ∧ cfg.concurrency ≤ 1024
  flash : 1 ≤ cfg.flashEvery ∧ cfg.flashEvery ≤ 1000000

theorem check_eq_none {c : Prop} [Decidable c] {msg : String} {rest : Option String} :
    (if c then some msg else rest) = none ↔ ¬ c ∧ rest = none := by
  split <;> simp_all

theorem accepted_of_validate (h : validateWorkloadConfig cfg = none) : Accepted cfg := by
  simp only [validateWorkloadConfig, check_eq_none] at h
  obtain ⟨hscenario, -, -, -, hkeys, h99, h80, -, -, -, hconcurrency, hrequests, -, -,
    hflash, -⟩ := h
  simp only [maxWorkloadKeys, maxWorkloadRequests, maxWorkloadConcurrency] at *
  refine ⟨?_, by omega, fun hs => ?_, fun hs => ?_, by omega, by omega, by omega⟩
  · have hs := not_not.1 hscenario
    simp only [isWorkloadScenario, Bool.or_eq_true, beq_iff_eq, List.any_eq_true] at hs
    rcases hs with hs | ⟨candidate, hmem, heq⟩
    · exact .inl hs
    · exact .inr (heq ▸ hmem)
  · by_contra hlt
    exact h99 ⟨hs, by omega⟩
  · by_contra hlt
    exact h80 ⟨hs, by omega⟩

/-- What the selected scenarios require of the number of keys. -/
structure Selected (scenario : String) (cfg : WorkloadConfig) : Prop where
  keys80 : scenario = workloadScenarioSkew80 → 5 ≤ cfg.keyCount
  keys99 : scenario = workloadScenarioSkew99 → 100 ≤ cfg.keyCount

theorem Accepted.selected {scenario : String} (h : Accepted cfg)
    (hs : scenario ∈ selectedWorkloadScenarios cfg.scenario) : Selected scenario cfg := by
  unfold selectedWorkloadScenarios at hs
  split at hs
  · rename_i hall
    have := h.keys99 (.inl hall)
    exact ⟨fun _ => by omega, fun _ => this⟩
  · have heq := List.mem_singleton.1 hs
    subst heq
    exact ⟨h.keys80, fun h99 => h.keys99 (.inr h99)⟩

theorem toNat_toUint64 (h₀ : 0 ≤ x) (h : x < 2 ^ 64) : (toUint64 x).toNat = x.toNat := by
  obtain ⟨n, rfl⟩ := Int.eq_ofNat_of_zero_le h₀
  have hn : n < 2 ^ 64 := by exact_mod_cast h
  have hmod : ((n : Int) % 2 ^ 64).toNat = n := by omega
  rw [toUint64, UInt64.ofInt, hmod, UInt64.toNat_ofNat', Nat.mod_eq_of_lt hn, Int.toNat_natCast]

theorem int_eq (h : u.toNat < 2 ^ 63) : int u = u.toNat :=
  FixedWidth.Fits.wrap_eq (by decide) ⟨by omega, by exact_mod_cast h⟩

theorem toUint64_ne_zero (h₀ : 0 < x) (h : x < 2 ^ 63) : toUint64 x ≠ 0 := by
  have hx : (toUint64 x).toNat = x.toNat := toNat_toUint64 (by omega) (by omega)
  intro hz
  have hzero : (0 : UInt64).toNat = 0 := rfl
  rw [hz, hzero] at hx
  omega

theorem mod64_eq (a : UInt64) (h₀ : 0 < x) (h : x < 2 ^ 63) :
    ∃ position, mod64 a (toUint64 x) = some position ∧ int position = a.toNat % x ∧
      position.toNat < x := by
  have hx : (toUint64 x).toNat = x.toNat := toNat_toUint64 (by omega) (by omega)
  have hmod : (a % toUint64 x).toNat = a.toNat % x.toNat := by rw [UInt64.toNat_mod, hx]
  have hlt := Nat.mod_lt a.toNat (show 0 < x.toNat by omega)
  have hcast : (x.toNat : Int) = x := by omega
  refine ⟨a % toUint64 x, if_neg (toUint64_ne_zero h₀ h), ?_, by omega⟩
  rw [int_eq (by omega), hmod, Int.natCast_mod, hcast]

theorem hotKeys_bounds (hd : 2 ≤ divisor) (h : divisor ≤ cfg.keyCount) :
    1 ≤ hotKeys cfg divisor ∧ hotKeys cfg divisor < cfg.keyCount := by
  have hdiv : cfg.keyCount.tdiv divisor = cfg.keyCount / divisor :=
    Int.tdiv_eq_ediv_of_nonneg (by omega)
  have hlt : cfg.keyCount / divisor < cfg.keyCount := Int.ediv_lt_self_of_pos_of_ne_one
    (by omega) (by omega)
  rw [hotKeys, hdiv]
  omega

theorem skewedKey_spec (hd : 2 ≤ divisor) (h : divisor ≤ cfg.keyCount)
    (hmax : cfg.keyCount ≤ 100000) (percent choice keyValue : UInt64) :
    ∃ key, skewedKey cfg divisor percent choice keyValue = some key ∧
      0 ≤ key ∧ key < cfg.keyCount ∧ (key < hotKeys cfg divisor ↔ choice < percent) := by
  obtain ⟨hlow, hhigh⟩ := hotKeys_bounds hd h
  unfold skewedKey
  split
  · rename_i hchoice
    obtain ⟨position, hposition, hint, -⟩ := mod64_eq keyValue (x := hotKeys cfg divisor)
      (by omega) (by omega)
    rw [hposition]
    refine ⟨int position, rfl, ?_⟩
    have h₁ := Int.emod_nonneg keyValue.toNat (b := hotKeys cfg divisor) (by omega)
    have h₂ := Int.emod_lt_of_pos keyValue.toNat (b := hotKeys cfg divisor) (by omega)
    rw [hint]
    exact ⟨h₁, by omega, fun _ => hchoice, fun _ => h₂⟩
  · rename_i hchoice
    obtain ⟨position, hposition, hint, -⟩ :=
      mod64_eq keyValue (x := cfg.keyCount - hotKeys cfg divisor)
      (by omega) (by omega)
    rw [hposition]
    refine ⟨hotKeys cfg divisor + int position, rfl, ?_⟩
    have h₁ := Int.emod_nonneg keyValue.toNat (b := cfg.keyCount - hotKeys cfg divisor) (by omega)
    have h₂ := Int.emod_lt_of_pos keyValue.toNat (b := cfg.keyCount - hotKeys cfg divisor)
      (by omega)
    rw [hint]
    exact ⟨by omega, by omega, fun hlt => by omega, fun hc => absurd hc hchoice⟩

/-- The key that a moving flash favours in a block. -/
def flashKey (cfg : WorkloadConfig) (block : Nat) : Int :=
  ((deterministicWorkloadValue cfg.seed 0 4).toNat % cfg.keyCount + block) % cfg.keyCount

theorem flashKey_succ (cfg : WorkloadConfig) (block : Nat) :
    flashKey cfg (block + 1) = (flashKey cfg block + 1) % cfg.keyCount := by
  simp only [flashKey, Int.emod_add_emod, Nat.cast_add, Nat.cast_one, add_assoc]

theorem flashKey_bounds (h : Accepted cfg) (block : Nat) :
    0 ≤ flashKey cfg block ∧ flashKey cfg block < cfg.keyCount := by
  obtain ⟨hlow, -⟩ := h.keys
  exact ⟨Int.emod_nonneg _ (by omega), Int.emod_lt_of_pos _ (by omega)⟩

theorem div64_eq (a : UInt64) (h₀ : 0 < x) (h : x < 2 ^ 63) :
    ∃ q, div64 a (toUint64 x) = some q ∧ q.toNat = a.toNat / x.toNat := by
  have hx : (toUint64 x).toNat = x.toNat := toNat_toUint64 (by omega) (by omega)
  refine ⟨a / toUint64 x, if_neg (toUint64_ne_zero h₀ h), ?_⟩
  rw [UInt64.toNat_div, hx]

theorem workloadKeyAt_flash (h : Accepted cfg) {i : UInt64} (hi : i.toNat < cfg.maxRequests)
    (hchoice : choiceDraw cfg i < 99) :
    workloadKeyAt workloadScenarioMovingFlash cfg i =
      some (flashKey cfg (i.toNat / cfg.flashEvery.toNat)) := by
  obtain ⟨hflash, hflash'⟩ := h.flash
  obtain ⟨hlow, hhigh⟩ := h.keys
  obtain ⟨-, hrequests⟩ := h.requests
  obtain ⟨offset, hoffset, hint, hlt⟩ :=
    mod64_eq (deterministicWorkloadValue cfg.seed 0 4) (x := cfg.keyCount) (by omega) (by omega)
  obtain ⟨window, hwindow, hquot⟩ := div64_eq i (x := cfg.flashEvery) (by omega) (by omega)
  obtain ⟨position, hposition, hkey, -⟩ :=
    mod64_eq (offset + window) (x := cfg.keyCount) (by omega) (by omega)
  -- The sum of the offset and the block stays far below the width of the word.
  have hsum : (offset + window).toNat = offset.toNat + window.toNat := by
    have hle := Nat.div_le_self i.toNat cfg.flashEvery.toNat
    rw [UInt64.toNat_add, Nat.mod_eq_of_lt (by omega)]
  have hstart : (offset.toNat : Int) =
      (deterministicWorkloadValue cfg.seed 0 4).toNat % cfg.keyCount := by
    rw [← hint, int_eq (by omega)]
  unfold workloadKeyAt
  rw [if_neg (by decide), if_neg (by decide), if_pos ⟨rfl, hchoice⟩, hoffset]
  show (div64 i (toUint64 cfg.flashEvery)).bind _ = _
  rw [hwindow]
  show (mod64 (offset + window) (toUint64 cfg.keyCount)).bind _ = _
  rw [hposition]
  refine congrArg some ?_
  rw [hkey, hsum, Nat.cast_add, hstart, hquot, flashKey]

theorem workloadKeyAt_bounds {scenario : String} (h : Accepted cfg) (hs : Selected scenario cfg)
    {i : UInt64} (hi : i.toNat < cfg.maxRequests) :
    ∃ key, workloadKeyAt scenario cfg i = some key ∧ 0 ≤ key ∧ key < cfg.keyCount := by
  obtain ⟨hlow, hhigh⟩ := h.keys
  by_cases h80 : scenario = workloadScenarioSkew80
  · obtain ⟨key, hkey, h₀, hlt, -⟩ := skewedKey_spec (by decide) (hs.keys80 h80) hhigh 80
      (choiceDraw cfg i) (deterministicWorkloadValue cfg.seed i 3)
    rw [workloadKeyAt, if_pos h80]
    exact ⟨key, hkey, h₀, hlt⟩
  by_cases h99 : scenario = workloadScenarioSkew99
  · obtain ⟨key, hkey, h₀, hlt, -⟩ := skewedKey_spec (by decide) (hs.keys99 h99) hhigh 99
      (choiceDraw cfg i) (deterministicWorkloadValue cfg.seed i 3)
    rw [workloadKeyAt, if_neg h80, if_pos h99]
    exact ⟨key, hkey, h₀, hlt⟩
  by_cases hflash : scenario = workloadScenarioMovingFlash ∧ choiceDraw cfg i < 99
  · rw [hflash.1, workloadKeyAt_flash h hi hflash.2]
    exact ⟨_, rfl, flashKey_bounds h _⟩
  · obtain ⟨position, hposition, hint, -⟩ := mod64_eq (deterministicWorkloadValue cfg.seed i 3)
      (x := cfg.keyCount) (by omega) (by omega)
    rw [workloadKeyAt, if_neg h80, if_neg h99, if_neg hflash, hposition]
    refine ⟨int position, rfl, ?_⟩
    rw [hint]
    exact ⟨Int.emod_nonneg _ (by omega), Int.emod_lt_of_pos _ (by omega)⟩

theorem workloadRequestAt_key {scenario : String} {i : UInt64} :
    workloadRequestAt scenario cfg i = (workloadKeyAt scenario cfg i).map fun key =>
      (key, decide (deterministicWorkloadValue cfg.seed i 1 % 100 < toUint64 cfg.readRatio)) := by
  unfold workloadRequestAt
  cases workloadKeyAt scenario cfg i <;> rfl

/-- Key selection. In every scenario of an accepted configuration no operation divides by zero and
every one goes to one of the keys. In the skewed scenarios it goes to a hot key exactly if its draw
is below the percentage. In a moving flash the operations of a block whose draw is below 99 go to
one key, and the next block has the key after it. -/
theorem workload_selection (cfg : WorkloadConfig) (h : validateWorkloadConfig cfg = none)
    (scenario : String) (hs : scenario ∈ selectedWorkloadScenarios cfg.scenario) :
    (∀ i : UInt64, i.toNat < cfg.maxRequests → ∃ key read,
      workloadRequestAt scenario cfg i = some (key, read) ∧ 0 ≤ key ∧ key < cfg.keyCount ∧
      (scenario = workloadScenarioSkew80 → (key < hotKeys cfg 5 ↔ choiceDraw cfg i < 80)) ∧
      (scenario = workloadScenarioSkew99 → (key < hotKeys cfg 100 ↔ choiceDraw cfg i < 99))) ∧
    (scenario = workloadScenarioMovingFlash → ∃ flash : Nat → Int,
      (∀ i : UInt64, i.toNat < cfg.maxRequests → choiceDraw cfg i < 99 →
        ∃ read, workloadRequestAt scenario cfg i =
          some (flash (i.toNat / cfg.flashEvery.toNat), read)) ∧
      ∀ block, flash (block + 1) = (flash block + 1) % cfg.keyCount) := by
  have hacc := accepted_of_validate h
  have hsel := hacc.selected hs
  obtain ⟨-, hhigh⟩ := hacc.keys
  constructor
  · intro i hi
    rw [workloadRequestAt_key]
    by_cases h80 : scenario = workloadScenarioSkew80
    · obtain ⟨key, hkey, h₀, hlt, hiff⟩ := skewedKey_spec (by decide) (hsel.keys80 h80) hhigh 80
        (choiceDraw cfg i) (deterministicWorkloadValue cfg.seed i 3)
      rw [workloadKeyAt, if_pos h80, hkey]
      refine ⟨key, _, rfl, h₀, hlt, fun _ => hiff, fun h99 => ?_⟩
      exact absurd (h80.symm.trans h99) (by decide)
    by_cases h99 : scenario = workloadScenarioSkew99
    · obtain ⟨key, hkey, h₀, hlt, hiff⟩ := skewedKey_spec (by decide) (hsel.keys99 h99) hhigh 99
        (choiceDraw cfg i) (deterministicWorkloadValue cfg.seed i 3)
      rw [workloadKeyAt, if_neg h80, if_pos h99, hkey]
      exact ⟨key, _, rfl, h₀, hlt, fun h => absurd h h80, fun _ => hiff⟩
    obtain ⟨key, hkey, h₀, hlt⟩ := workloadKeyAt_bounds hacc hsel hi
    rw [hkey]
    exact ⟨key, _, rfl, h₀, hlt, fun h => absurd h h80, fun h => absurd h h99⟩
  · rintro rfl
    refine ⟨flashKey cfg, fun i hi hchoice => ?_, flashKey_succ cfg⟩
    rw [workloadRequestAt_key, workloadKeyAt_flash hacc hi hchoice]
    exact ⟨_, rfl⟩

def sampleConfig : WorkloadConfig where
  originAddr := "127.0.0.1:6379"
  proxyAddr := "127.0.0.1:6380"
  adminURL := "http://127.0.0.1:9090"
  scenario := "all"
  keyPrefix := "bench"
  keyCount := 100
  valueSize := 64
  readRatio := 95
  concurrency := 2
  maxRequests := 5000
  duration := 1000000000
  seed := 42
  flashEvery := 1000
  output := "text"

theorem workload_selection_sample :
    ∃ key read, workloadRequestAt workloadScenarioSkew99 sampleConfig 7 = some (key, read) ∧
      0 ≤ key ∧ key < 100 := by
  obtain ⟨key, read, hkey, h₀, hlt, -⟩ := (workload_selection sampleConfig (by decide +kernel)
    workloadScenarioSkew99 (by decide +kernel)).1 7 (by decide +kernel)
  exact ⟨key, read, hkey, h₀, hlt⟩

end Slizen.Benchmark
