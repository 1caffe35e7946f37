import Slizen.CatchUp

namespace Slizen
set_option autoImplicit true

structure ProxyConfig where
  listen : String
  readTimeout : Time
  writeTimeout : Time
  shutdownTimeout : Time
  maxCommandBytes : Int
  maxCommandArgs : Int
  maxMGetKeys : Int
  maxConnections : Int

structure AdminConfig where
  listen : String
  exposeRawKeys : Bool

structure UpstreamConfig where
  address : String
  database : Int
  dialTimeout : Time
  readTimeout : Time
  writeTimeout : Time

structure CachePolicyConfig where
  keyPrefix : Bytes
  mode : String
  maxItemBytes : Int
  maxLocalTTL : Time

structure CacheConfig where
  maxBytes : Int
  maxEntries : Int
  maxLocalTTL : Time
  allowStaleOnUpstreamError : Bool
  staleGrace : Time
  negativeTTL : Time
  policies : List CachePolicyConfig

/-- The hotness settings, with exact rationals for the floats. -/
structure HotnessConfig where
  window : Time
  ewmaAlpha : ℚ
  promotionThreshold : ℚ
  demotionThreshold : ℚ
  minimumHotWindows : Int
  cooldown : Time
  maxTrackedKeys : Int

structure PrivacyConfig where
  keyVisibility : String
  keyHashSecret : String

structure LoggingConfig where
  level : String
  format : String

structure Config where
  mode : String
  proxy : ProxyConfig
  admin : AdminConfig
  upstream : UpstreamConfig
  cache : CacheConfig
  hotness : HotnessConfig
  privacy : PrivacyConfig
  logging : LoggingConfig

/-- `cachepolicy.Mode`. -/
inductive Mode where
  | deny
  | observe
  | cache
  deriving DecidableEq

def parseMode (value : String) : Option Mode :=
  if value = "deny" then some .deny
  else if value = "observe" then some .observe
  else if value = "cache" then some .cache
  else none

namespace Config

def maxCachePolicies : Nat := 1024
def maxCachePolicyPrefixBytes : Nat := 1024
def maxCachePolicyTotalPrefixBytes : Nat := 262144
def maxHotnessTrackedKeys : Int := 100000
def maxProxyCommandBytes : Int := 16777216
def maxProxyCommandArgs : Int := 4096
def maxProxyMGetKeys : Int := 2048
def maxProxyConnections : Int := 10000

/-- `unicode.IsSpace`. -/
def isSpace (c : Char) : Bool :=
  c.toNat ∈ [0x09, 0x0A, 0x0B, 0x0C, 0x0D, 0x20, 0x85, 0xA0, 0x1680, 0x2028, 0x2029, 0x202F, 0x205F,
    0x3000] ∨ (0x2000 ≤ c.toNat ∧ c.toNat ≤ 0x200A)

/-- `strings.TrimSpace(value) == ""`. -/
def isBlank (value : String) : Bool := value.toList.all isSpace

def splitLastColon : List Char → Option (List Char × List Char)
  | [] => none
  | c :: cs =>
    match splitLastColon cs with
    | some (host, port) => some (c :: host, port)
    | none => if c = ':' then some ([], cs) else none

/-- `net.SplitHostPort`, without the texts of its errors. -/
def splitHostPort (hostport : List Char) : Option (List Char × List Char) :=
  match splitLastColon hostport with
  | none => none
  | some (host, port) =>
    match host with
    | '[' :: inner =>
      -- The first closing bracket has to stand right before the last colon.
      if inner.getLast? = some ']' ∧ ']' ∉ inner.dropLast ∧ '[' ∉ inner ∧ '[' ∉ port ∧ ']' ∉ port
      then some (inner.dropLast, port) else none
    | _ =>
      if ':' ∈ host ∨ '[' ∈ hostport ∨ ']' ∈ hostport then none else some (host, port)

def checkAddress (name value : String) : List String :=
  if isBlank value then [name ++ " address is required"]
  else
    match splitHostPort value.toList with
    | some (_ :: _, _ :: _) => []
    | _ => [name ++ " must be host:port"]

def positiveDuration (name : String) (d : Time) : List String :=
  if d ≤ 0 then [name ++ " must be greater than zero"] else []

def nonNegativeDuration (name : String) (d : Time) : List String :=
  if d < 0 then [name ++ " must be non-negative"] else []

def positiveBoundedInt (name : String) (value maximum : Int) : List String :=
  if value ≤ 0 then [name ++ " must be greater than zero"]
  else if value > maximum then [name ++ " must not exceed " ++ toString maximum]
  else []

def require (condition : Bool) (message : String) : List String :=
  if condition then [] else [message]

/-- The checks of one policy that do not look at the other policies. -/
def checkPolicy (cfg : CacheConfig) (path : String) (policy : CachePolicyConfig) : List String :=
  match parseMode policy.mode with
  | none => [path ++ ".mode must be deny, observe, or cache"]
  | some .cache =>
    (if policy.maxItemBytes ≤ 0 then
      [path ++ ".max_item_bytes must be greater than zero in cache mode"]
    else if policy.maxItemBytes > cfg.maxBytes then
      [path ++ ".max_item_bytes must not exceed cache.max_bytes"]
    else []) ++
    (if policy.maxLocalTTL ≤ 0 then
      [path ++ ".max_local_ttl must be greater than zero in cache mode"]
    else if policy.maxLocalTTL > cfg.maxLocalTTL then
      [path ++ ".max_local_ttl must not exceed cache.max_local_ttl"]
    else [])
  | some _ =>
    require (policy.maxItemBytes = 0 ∧ policy.maxLocalTTL = 0)
      (path ++ " cache limits must be omitted outside cache mode")

/-- The running total of prefix bytes, which stops just above its maximum. -/
def addPrefixBytes (total prefixBytes : Nat) : Nat :=
  if total ≤ maxCachePolicyTotalPrefixBytes then
    if prefixBytes > maxCachePolicyTotalPrefixBytes - total then maxCachePolicyTotalPrefixBytes + 1
    else total + prefixBytes
  else total

/-- The loop over the policies, from index `i` on, with the prefixes seen so far. -/
def checkPolicies (cfg : CacheConfig) :
    Nat → List Bytes → Nat → List CachePolicyConfig → List String × Nat
  | _, _, total, [] => ([], total)
  | i, seen, total, policy :: rest =>
    let path := "cache.policies[" ++ toString i ++ "]"
    let tooLong := require (policy.keyPrefix.length ≤ maxCachePolicyPrefixBytes)
      (path ++ ".prefix must contain at most " ++ toString maxCachePolicyPrefixBytes ++ " bytes")
    let duplicate := require (policy.keyPrefix ∉ seen) (path ++ ".prefix duplicates another policy")
    let (later, total) := checkPolicies cfg (i + 1) (policy.keyPrefix :: seen)
      (addPrefixBytes total policy.keyPrefix.length) rest
    (tooLong ++ duplicate ++ checkPolicy cfg path policy ++ later, total)

def validatePolicies (cfg : CacheConfig) : List String :=
  let (errors, totalPrefixBytes) := checkPolicies cfg 0 [] 0 (cfg.policies.take maxCachePolicies)
  require (cfg.policies.length ≤ maxCachePolicies)
    ("cache.policies must contain at most " ++ toString maxCachePolicies ++ " entries") ++
  errors ++
  require (totalPrefixBytes ≤ maxCachePolicyTotalPrefixBytes)
    ("cache.policies prefixes must contain at most " ++ toString maxCachePolicyTotalPrefixBytes ++
      " bytes in total")

def validateHotness (h : HotnessConfig) : List String :=
  List.flatten [
    if h.maxTrackedKeys ≤ 0 then ["hotness.max_tracked_keys must be greater than zero"]
    else if h.maxTrackedKeys > maxHotnessTrackedKeys then
      ["hotness.max_tracked_keys must not exceed " ++ toString maxHotnessTrackedKeys]
    else [],
    require (0 < h.ewmaAlpha ∧ h.ewmaAlpha ≤ 1)
      "hotness.ewma_alpha must be greater than 0 and at most 1",
    require (0 < h.promotionThreshold)
      "hotness.promotion_threshold must be finite and greater than zero",
    require (0 < h.demotionThreshold)
      "hotness.demotion_threshold must be finite and greater than zero",
    require (¬ (0 < h.promotionThreshold ∧ 0 < h.demotionThreshold ∧
        h.promotionThreshold ≤ h.demotionThreshold))
      "hotness.promotion_threshold must be greater than demotion_threshold",
    require (0 < h.minimumHotWindows) "hotness.minimum_hot_windows must be greater than zero"]

/-- `config.Validate`: the texts of the errors it joins. -/
def validate (cfg : Config) : List String :=
  List.flatten [
    checkAddress "proxy.listen" cfg.proxy.listen,
    checkAddress "admin.listen" cfg.admin.listen,
    checkAddress "upstream.address" cfg.upstream.address,
    require (cfg.mode = "cache" ∨ cfg.mode = "observe") "mode must be cache or observe",
    positiveDuration "proxy.read_timeout" cfg.proxy.readTimeout,
    positiveDuration "proxy.write_timeout" cfg.proxy.writeTimeout,
    positiveDuration "proxy.shutdown_timeout" cfg.proxy.shutdownTimeout,
    positiveDuration "upstream.dial_timeout" cfg.upstream.dialTimeout,
    positiveDuration "upstream.read_timeout" cfg.upstream.readTimeout,
    positiveDuration "upstream.write_timeout" cfg.upstream.writeTimeout,
    positiveDuration "cache.max_local_ttl" cfg.cache.maxLocalTTL,
    nonNegativeDuration "cache.stale_grace" cfg.cache.staleGrace,
    positiveDuration "hotness.window" cfg.hotness.window,
    positiveDuration "hotness.cooldown" cfg.hotness.cooldown,
    positiveBoundedInt "proxy.max_command_bytes" cfg.proxy.maxCommandBytes maxProxyCommandBytes,
    positiveBoundedInt "proxy.max_command_args" cfg.proxy.maxCommandArgs maxProxyCommandArgs,
    positiveBoundedInt "proxy.max_mget_keys" cfg.proxy.maxMGetKeys maxProxyMGetKeys,
    positiveBoundedInt "proxy.max_connections" cfg.proxy.maxConnections maxProxyConnections,
    require (¬ (0 < cfg.proxy.maxCommandArgs ∧ cfg.proxy.maxMGetKeys ≥ cfg.proxy.maxCommandArgs))
      "proxy.max_mget_keys must be less than proxy.max_command_args",
    require (cfg.upstream.database = 0) "upstream.database must be 0",
    require (0 < cfg.cache.maxBytes) "cache.max_bytes must be greater than zero",
    require (0 ≤ cfg.cache.maxEntries) "cache.max_entries must be non-negative",
    require (cfg.cache.negativeTTL = 0) "cache.negative_ttl is reserved and must be zero",
    validatePolicies cfg.cache,
    validateHotness cfg.hotness,
    require (cfg.privacy.keyVisibility = "hash" ∨ cfg.privacy.keyVisibility = "plain")
      "privacy.key_visibility must be hash or plain",
    require (!(cfg.privacy.keyVisibility == "hash" && isBlank cfg.privacy.keyHashSecret))
      "privacy.key_hash_secret is required when key_visibility is hash",
    require (cfg.logging.level ∈ ["debug", "info", "warn", "error"])
      "logging.level must be debug, info, warn, or error",
    require (cfg.logging.format ∈ ["json", "text"]) "logging.format must be json or text"]

/-- `config.Default`; the secret is random text. -/
def default (secret : String) : Config where
  mode := "observe"
  proxy :=
    { listen := "0.0.0.0:6380"
      readTimeout := 300000000000
      writeTimeout := 3000000000
      shutdownTimeout := 10000000000
      maxCommandBytes := 1048576
      maxCommandArgs := 1024
      maxMGetKeys := 512
      maxConnections := 1024 }
  admin := { listen := "127.0.0.1:9090", exposeRawKeys := false }
  upstream :=
    { address := "127.0.0.1:6379"
      database := 0
      dialTimeout := 2000000000
      readTimeout := 2000000000
      writeTimeout := 2000000000 }
  cache :=
    { maxBytes := 67108864
      maxEntries := 100000
      maxLocalTTL := 30000000000
      allowStaleOnUpstreamError := false
      staleGrace := 0
      negativeTTL := 0
      policies := [] }
  hotness :=
    { window := 1000000000
      ewmaAlpha := 1 / 2
      promotionThreshold := 100
      demotionThreshold := 20
      minimumHotWindows := 2
      cooldown := 30000000000
      maxTrackedKeys := 100000 }
  privacy := { keyVisibility := "hash", keyHashSecret := secret }
  logging := { level := "info", format := "json" }

def effectiveKeyVisibility (cfg : Config) : String :=
  if cfg.admin.exposeRawKeys then "plain" else cfg.privacy.keyVisibility

/-- The tracker settings that `service.New` hands over. -/
def tracker (cfg : Config) (floorLog : ℚ → ℚ → Int) : Hotness.Config where
  window := cfg.hotness.window
  ewmaAlpha := cfg.hotness.ewmaAlpha
  promotionThreshold := cfg.hotness.promotionThreshold
  demotionThreshold := cfg.hotness.demotionThreshold
  minimumHotWindows := cfg.hotness.minimumHotWindows
  cooldown := cfg.hotness.cooldown
  maxTrackedKeys := cfg.hotness.maxTrackedKeys
  floorLog := floorLog

@[simp] theorem require_eq_nil (condition : Bool) (message : String) :
    require condition message = [] ↔ condition = true := by
  cases condition <;> simp [require]

@[simp] theorem positiveDuration_eq_nil (name : String) (d : Time) :
    positiveDuration name d = [] ↔ 0 < d := by
  simp [positiveDuration]

@[simp] theorem nonNegativeDuration_eq_nil (name : String) (d : Time) :
    nonNegativeDuration name d = [] ↔ 0 ≤ d := by
  simp [nonNegativeDuration]

/-- What an accepted configuration guarantees to the service. -/
structure Accepted (cfg : Config) : Prop where
  mode : cfg.mode = "cache" ∨ cfg.mode = "observe"
  readTimeout : 0 < cfg.proxy.readTimeout
  upstreamReadTimeout : 0 < cfg.upstream.readTimeout
  maxLocalTTL : 0 < cfg.cache.maxLocalTTL
  staleGrace : 0 ≤ cfg.cache.staleGrace
  maxBytes : 0 < cfg.cache.maxBytes
  maxEntries : 0 ≤ cfg.cache.maxEntries
  maxTrackedKeys : 0 < cfg.hotness.maxTrackedKeys
  hotness : ∀ floorLog, (cfg.tracker floorLog).Valid

theorem validateHotness_eq_nil (h : validateHotness cfg = []) :
    0 < cfg.maxTrackedKeys ∧ 0 < cfg.ewmaAlpha ∧ cfg.ewmaAlpha ≤ 1 ∧ 0 < cfg.demotionThreshold ∧
      cfg.demotionThreshold < cfg.promotionThreshold ∧ 0 < cfg.minimumHotWindows := by
  rw [validateHotness, List.flatten_eq_nil_iff] at h
  simp only [List.forall_mem_cons, require_eq_nil, decide_eq_true_eq] at h
  obtain ⟨hk, ⟨ha, ha'⟩, hp, hd, hpd, hm, -⟩ := h
  refine ⟨?_, ha, ha', hd, ?_, hm⟩
  · by_contra hle
    rw [if_pos (not_lt.1 hle)] at hk
    cases hk
  · by_contra hle
    exact hpd ⟨hp, hd, not_lt.1 hle⟩

theorem accepted (h : validate cfg = []) : cfg.Accepted := by
  rw [validate, List.flatten_eq_nil_iff] at h
  simp only [List.forall_mem_cons] at h
  obtain ⟨-, -, -, hmode, hread, -, -, -, hupstream, -, hlocal, hgrace, hwindow, hcooldown, -,
    -, -, -, -, -, hbytes, hentries, -, -, hhot, -⟩ := h
  rw [require_eq_nil, decide_eq_true_eq] at hmode hbytes hentries
  rw [positiveDuration_eq_nil] at hread hupstream hlocal hwindow hcooldown
  rw [nonNegativeDuration_eq_nil] at hgrace
  obtain ⟨hk, ha, ha', hd, hdp, hm⟩ := validateHotness_eq_nil hhot
  exact ⟨hmode, hread, hupstream, hlocal, hgrace, hbytes, hentries, hk,
    fun _ => ⟨hwindow, ha, ha', hd, hdp, hm, hcooldown⟩⟩

/-- The limits of a caching policy stay within those of the whole cache. -/
structure Limited (cfg : CacheConfig) (maxItemBytes : Int) (maxLocalTTL : Time) : Prop where
  item_pos : 0 < maxItemBytes
  item_le : maxItemBytes ≤ cfg.maxBytes
  ttl_pos : 0 < maxLocalTTL
  ttl_le : maxLocalTTL ≤ cfg.maxLocalTTL

theorem checkPolicy_eq_nil (h : checkPolicy cfg path policy = []) :
    ∃ mode, parseMode policy.mode = some mode ∧
      (mode = .cache → Limited cfg policy.maxItemBytes policy.maxLocalTTL) := by
  rw [checkPolicy] at h
  split at h
  case h_1 => cases h
  case h_2 hm =>
    obtain ⟨hitem, httl⟩ := List.append_eq_nil_iff.1 h
    split_ifs at hitem with hitem_pos hitem_le
    split_ifs at httl with httl_pos httl_le
    exact ⟨.cache, hm, fun _ =>
      ⟨not_le.1 hitem_pos, not_lt.1 hitem_le, not_le.1 httl_pos, not_lt.1 httl_le⟩⟩
  case h_3 mode hne hm =>
    exact ⟨mode, hm, fun hc => absurd hc hne⟩

theorem checkPolicies_eq_nil (policies : List CachePolicyConfig)
    (h : (checkPolicies cfg i seen total policies).1 = []) :
    (policies.map CachePolicyConfig.keyPrefix).Nodup ∧
      ∀ policy ∈ policies, policy.keyPrefix ∉ seen ∧ ∃ path, checkPolicy cfg path policy = [] := by
  induction policies generalizing i seen total with
  | nil => exact ⟨List.nodup_nil, nofun⟩
  | cons policy rest ih =>
    simp only [checkPolicies, List.append_eq_nil_iff, require_eq_nil, decide_eq_true_eq] at h
    obtain ⟨⟨⟨-, hseen⟩, hpolicy⟩, hrest⟩ := h
    obtain ⟨hnodup, hlater⟩ := ih hrest
    constructor
    · rw [List.map_cons, List.nodup_cons]
      refine ⟨?_, hnodup⟩
      intro hmem
      obtain ⟨other, hother, heq⟩ := List.mem_map.1 hmem
      exact (hlater other hother).1 (heq ▸ List.mem_cons_self)
    · intro p hp
      rcases List.mem_cons.1 hp with rfl | hp
      · exact ⟨hseen, _, hpolicy⟩
      · obtain ⟨hnot, hpath⟩ := hlater p hp
        exact ⟨fun hm => hnot (List.mem_cons_of_mem _ hm), hpath⟩

theorem accepted_policies (h : validate cfg = []) :
    (cfg.cache.policies.map CachePolicyConfig.keyPrefix).Nodup ∧
      ∀ policy ∈ cfg.cache.policies, ∃ mode, parseMode policy.mode = some mode ∧
        (mode = .cache → Limited cfg.cache policy.maxItemBytes policy.maxLocalTTL) := by
  rw [validate, List.flatten_eq_nil_iff] at h
  have hpolicies : validatePolicies cfg.cache = [] := h _ (by simp)
  simp only [validatePolicies, List.append_eq_nil_iff, require_eq_nil, decide_eq_true_eq]
    at hpolicies
  obtain ⟨⟨hcount, herrors⟩, -⟩ := hpolicies
  -- At most the maximum is configured, so the loop goes through all of them.
  rw [List.take_of_length_le hcount] at herrors
  obtain ⟨hnodup, hall⟩ := checkPolicies_eq_nil _ herrors
  refine ⟨hnodup, fun policy hp => ?_⟩
  obtain ⟨-, path, hpath⟩ := hall policy hp
  exact checkPolicy_eq_nil hpath

theorem validate_default (h : isBlank secret = false) : validate (default secret) = [] := by
  have hx : isBlank "x" = false := by decide +kernel
  have hsame : validate (default secret) = validate (default "x") := by
    simp only [validate, default, h, hx]
    rfl
  rw [hsame]
  decide +kernel

end Config
end Slizen
