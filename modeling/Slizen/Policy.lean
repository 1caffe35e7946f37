import Mathlib.Data.List.AList
import Mathlib.Data.List.Sort
import Slizen.Config

namespace Slizen
set_option autoImplicit true

structure Decision where
  mode : Mode
  maxItemBytes : Int
  maxLocalTTL : Time
  deriving DecidableEq

structure Rule where
  keyPrefix : Bytes
  decision : Decision

/-- `cachepolicy.Matcher`: the rules by their key prefix, and the lengths of the prefixes with
the longest first. -/
structure Matcher where
  fallback : Decision
  rules : AList fun _ : Bytes => Decision
  lengths : List Nat
  longest_first : lengths.Pairwise (· ≥ ·)
  covered : ∀ p d, rules.lookup p = some d → p.length ∈ lengths

namespace Matcher

/-- One round of the loop of `cachepolicy.New`; a later rule for the same prefix replaces the
earlier one. -/
def addRule (acc : (AList fun _ : Bytes => Decision) × List Nat) (rule : Rule) :
    (AList fun _ : Bytes => Decision) × List Nat :=
  (acc.1.insert rule.keyPrefix rule.decision,
    if rule.keyPrefix.length ∈ acc.2 then acc.2 else acc.2 ++ [rule.keyPrefix.length])

theorem addRule_covered {acc : (AList fun _ : Bytes => Decision) × List Nat}
    (h : ∀ p d, acc.1.lookup p = some d → p.length ∈ acc.2) (rule : Rule) :
    ∀ p d, (addRule acc rule).1.lookup p = some d → p.length ∈ (addRule acc rule).2 := by
  intro p d hp
  have hmem : ∀ n ∈ acc.2, n ∈ (addRule acc rule).2 := by
    intro n hn
    simp only [addRule]
    split
    · exact hn
    · exact List.mem_append_left _ hn
  by_cases hpr : p = rule.keyPrefix
  · subst hpr
    simp only [addRule]
    split
    · assumption
    · simp
  · have hl : acc.1.lookup p = some d := by
      rw [← hp]
      exact (AList.lookup_insert_ne hpr).symm
    exact hmem _ (h p d hl)

theorem foldl_addRule_covered (rules : List Rule)
    {acc : (AList fun _ : Bytes => Decision) × List Nat}
    (h : ∀ p d, acc.1.lookup p = some d → p.length ∈ acc.2) :
    ∀ p d, (rules.foldl addRule acc).1.lookup p = some d →
      p.length ∈ (rules.foldl addRule acc).2 := by
  induction rules generalizing acc with
  | nil => exact h
  | cons rule rules ih => exact ih (addRule_covered h rule)

/-- `cachepolicy.New`. -/
def new (fallback : Decision) (rules : List Rule) : Matcher where
  fallback := fallback
  rules := (rules.foldl addRule (∅, [])).1
  lengths := (rules.foldl addRule (∅, [])).2.insertionSort (· ≥ ·)
  longest_first := List.pairwise_insertionSort _ _
  covered := by
    intro p d h
    rw [List.mem_insertionSort]
    exact foldl_addRule_covered rules (fun _ _ h => by cases h) p d h

theorem lookup_foldl_addRule (rules : List Rule) (hnodup : (rules.map Rule.keyPrefix).Nodup)
    (acc : (AList fun _ : Bytes => Decision) × List Nat) (p : Bytes) (d : Decision) :
    (rules.foldl addRule acc).1.lookup p = some d ↔
      ⟨p, d⟩ ∈ rules ∨ p ∉ rules.map Rule.keyPrefix ∧ acc.1.lookup p = some d := by
  induction rules generalizing acc with
  | nil => simp
  | cons rule rules ih =>
    rw [List.map_cons, List.nodup_cons] at hnodup
    rw [List.foldl_cons, ih hnodup.2]
    by_cases hp : p = rule.keyPrefix
    · subst hp
      have hnot : (⟨rule.keyPrefix, d⟩ : Rule) ∉ rules :=
        fun hm => hnodup.1 (List.mem_map.2 ⟨_, hm, rfl⟩)
      simp only [addRule, AList.lookup_insert, hnot, hnodup.1, List.mem_cons, false_or,
        not_false_eq_true, true_and, List.map_cons, not_true_eq_false, false_and, or_false,
        Option.some.injEq]
      exact ⟨fun h => by rw [← h], fun h => by rw [← h]⟩
    · have hne : (⟨p, d⟩ : Rule) ≠ rule := fun h => hp (by rw [← h])
      simp only [addRule, AList.lookup_insert_ne hp, List.map_cons, List.mem_cons, hne, hp,
        false_or]

theorem lookup_new {fallback : Decision} {rules : List Rule}
    (hnodup : (rules.map Rule.keyPrefix).Nodup) :
    (new fallback rules).rules.lookup p = some d ↔ ⟨p, d⟩ ∈ rules := by
  rw [new, lookup_foldl_addRule rules hnodup]
  simp

/-- The loop of `Match` over the lengths that are left. -/
def matchLengths (m : Matcher) (key : Key) : List Nat → Decision
  | [] => m.fallback
  | length :: rest =>
    if length > key.length then m.matchLengths key rest
    else
      match m.rules.lookup (key.take length) with
      | some decision => decision
      | none => m.matchLengths key rest

def matchKey (m : Matcher) (key : Key) : Decision := m.matchLengths key m.lengths

theorem matchLengths_spec (m : Matcher) (key : Key) (lengths : List Nat)
    (hs : lengths.Pairwise (· ≥ ·)) :
    (∃ p, p <+: key ∧ m.rules.lookup p = some (m.matchLengths key lengths) ∧
      ∀ q d, q <+: key → q.length ∈ lengths → m.rules.lookup q = some d → q.length ≤ p.length) ∨
    ((∀ q d, q <+: key → q.length ∈ lengths → m.rules.lookup q ≠ some d) ∧
      m.matchLengths key lengths = m.fallback) := by
  induction lengths with
  | nil => exact .inr ⟨nofun, rfl⟩
  | cons length rest ih =>
    obtain ⟨hge, hs⟩ := List.pairwise_cons.1 hs
    -- A length without a rule for this key leaves the search to the shorter ones.
    have hskip : (∀ q d, q <+: key → q.length = length → m.rules.lookup q ≠ some d) →
        m.matchLengths key (length :: rest) = m.matchLengths key rest →
        (∃ p, p <+: key ∧ m.rules.lookup p = some (m.matchLengths key (length :: rest)) ∧
          ∀ q d, q <+: key → q.length ∈ length :: rest → m.rules.lookup q = some d →
            q.length ≤ p.length) ∨
        ((∀ q d, q <+: key → q.length ∈ length :: rest → m.rules.lookup q ≠ some d) ∧
          m.matchLengths key (length :: rest) = m.fallback) := by
      intro hno heq
      rw [heq]
      rcases ih hs with ⟨p, hp, hl, hmax⟩ | ⟨hnone, hf⟩
      · refine .inl ⟨p, hp, hl, fun q d hq hm hd => ?_⟩
        rcases List.mem_cons.1 hm with hm | hm
        · exact absurd hd (hno q d hq hm)
        · exact hmax q d hq hm hd
      · refine .inr ⟨fun q d hq hm => ?_, hf⟩
        rcases List.mem_cons.1 hm with hm | hm
        · exact hno q d hq hm
        · exact hnone q d hq hm
    by_cases hlen : length > key.length
    · apply hskip
      · intro q d hq hl
        have := hq.length_le
        omega
      · rw [matchLengths, if_pos hlen]
    · have htake : (key.take length).length = length := by
        rw [List.length_take]
        omega
      cases hr : m.rules.lookup (key.take length) with
      | some decision =>
        have heq : m.matchLengths key (length :: rest) = decision := by
          rw [matchLengths, if_neg hlen, hr]
        refine .inl ⟨key.take length, List.take_prefix _ _, by rw [heq, hr], ?_⟩
        intro q d _ hm _
        rw [htake]
        rcases List.mem_cons.1 hm with hm | hm
        · exact hm.le
        · exact hge _ hm
      | none =>
        apply hskip
        · intro q d hq hl
          rw [List.prefix_iff_eq_take.1 hq, hl, hr]
          simp
        · rw [matchLengths, if_neg hlen, hr]

/-- A key is decided by the rule with the longest prefix of it, and by the fallback if no rule
has one. -/
theorem matchKey_spec (m : Matcher) (key : Key) :
    (∃ p, p <+: key ∧ m.rules.lookup p = some (m.matchKey key) ∧
      ∀ q d, q <+: key → m.rules.lookup q = some d → q.length ≤ p.length) ∨
    ((∀ q d, q <+: key → m.rules.lookup q ≠ some d) ∧ m.matchKey key = m.fallback) := by
  rcases m.matchLengths_spec key m.lengths m.longest_first with ⟨p, hp, hl, hmax⟩ | ⟨hnone, hf⟩
  · exact .inl ⟨p, hp, hl, fun q d hq hd => hmax q d hq (m.covered q d hd) hd⟩
  · exact .inr ⟨fun q d hq hd => hnone q d hq (m.covered q d hd) hd, hf⟩

theorem prefix_unique (hp : p <+: key) (hq : q <+: key) (h : p.length = q.length) : p = q := by
  rw [List.prefix_iff_eq_take.1 hp, List.prefix_iff_eq_take.1 hq, h]

theorem matchKey_congr (hrules : ∀ p, m.rules.lookup p = m'.rules.lookup p)
    (hfallback : m.fallback = m'.fallback) (key : Key) : matchKey m key = matchKey m' key := by
  rcases m.matchKey_spec key with ⟨p, hp, hl, hmax⟩ | ⟨hnone, hf⟩
  · rcases m'.matchKey_spec key with ⟨q, hq, hl', hmax'⟩ | ⟨hnone', -⟩
    · have hpq : p = q := by
        apply prefix_unique hp hq
        exact le_antisymm (hmax' p _ hp (hrules p ▸ hl)) (hmax q _ hq (hrules q ▸ hl'))
      subst hpq
      rw [hrules, hl'] at hl
      exact (Option.some.inj hl).symm
    · exact absurd (hrules p ▸ hl) (hnone' p _ hp)
  · rcases m'.matchKey_spec key with ⟨q, hq, hl', -⟩ | ⟨-, hf'⟩
    · exact absurd ((hrules q).trans hl') (hnone q _ hq)
    · rw [hf, hf', hfallback]

end Matcher

namespace Config

/-- The settings of a decision count only where it lets the key be cached. -/
def decision (mode : Mode) (maxItemBytes : Int) (maxLocalTTL : Time) : Decision :=
  if mode = .cache then ⟨mode, maxItemBytes, maxLocalTTL⟩ else ⟨mode, 0, 0⟩

/-- The rule of one configured policy; the global observe mode takes caching away. -/
def policyRule (cfg : Config) (policy : CachePolicyConfig) : Rule :=
  let mode := (parseMode policy.mode).getD .deny
  let mode := if cfg.mode = "observe" ∧ mode = .cache then .observe else mode
  ⟨policy.keyPrefix, decision mode policy.maxItemBytes policy.maxLocalTTL⟩

def newPolicyMatcher (cfg : Config) : Matcher :=
  .new (decision ((parseMode cfg.mode).getD .deny) cfg.cache.maxBytes cfg.cache.maxLocalTTL)
    (cfg.cache.policies.map cfg.policyRule)

/-- What a policy in the given mode decides under the global mode. -/
def granted (cfg : Config) (policy : CachePolicyConfig) : Mode → Decision
  | .deny => ⟨.deny, 0, 0⟩
  | .observe => ⟨.observe, 0, 0⟩
  | .cache =>
    if cfg.mode = "observe" then ⟨.observe, 0, 0⟩
    else ⟨.cache, policy.maxItemBytes, policy.maxLocalTTL⟩

/-- What is decided for the keys of no policy. -/
def globalDecision (cfg : Config) : Decision :=
  if cfg.mode = "cache" then ⟨.cache, cfg.cache.maxBytes, cfg.cache.maxLocalTTL⟩
  else ⟨.observe, 0, 0⟩

def withPolicies (cfg : Config) (policies : List CachePolicyConfig) : Config :=
  { cfg with cache := { cfg.cache with policies := policies } }

variable {cfg : Config}

theorem policyRule_decision (cfg : Config) {mode : Mode} (h : parseMode policy.mode = some mode) :
    (cfg.policyRule policy).decision = cfg.granted policy mode := by
  by_cases hmode : cfg.mode = "observe"
  · cases mode <;> simp [policyRule, granted, decision, h, hmode]
  · cases mode <;> simp [policyRule, granted, decision, h, hmode]

theorem newPolicyMatcher_fallback (h : cfg.mode = "cache" ∨ cfg.mode = "observe") :
    cfg.newPolicyMatcher.fallback = cfg.globalDecision := by
  rcases h with h | h
  · simp [newPolicyMatcher, Matcher.new, globalDecision, decision, parseMode, h]
  · simp [newPolicyMatcher, Matcher.new, globalDecision, decision, parseMode, h]

theorem policyRule_prefixes (cfg : Config) (policies : List CachePolicyConfig) :
    (policies.map cfg.policyRule).map Rule.keyPrefix =
      policies.map CachePolicyConfig.keyPrefix := by
  rw [List.map_map]
  rfl

theorem lookup_newPolicyMatcher (h : (cfg.cache.policies.map CachePolicyConfig.keyPrefix).Nodup) :
    (newPolicyMatcher cfg).rules.lookup p = some d ↔
      ∃ policy ∈ cfg.cache.policies, policy.keyPrefix = p ∧
        (cfg.policyRule policy).decision = d := by
  rw [newPolicyMatcher, Matcher.lookup_new (by rwa [policyRule_prefixes]), List.mem_map]
  constructor
  · rintro ⟨policy, hm, he⟩
    refine ⟨policy, hm, ?_, by rw [he]⟩
    have := congrArg Rule.keyPrefix he
    exact this
  · rintro ⟨policy, hm, rfl, rfl⟩
    exact ⟨policy, hm, rfl⟩

theorem newPolicyMatcher_perm {policies : List CachePolicyConfig}
    (h : (cfg.cache.policies.map CachePolicyConfig.keyPrefix).Nodup)
    (hperm : policies.Perm cfg.cache.policies) (key : Key) :
    (cfg.withPolicies policies).newPolicyMatcher.matchKey key =
      cfg.newPolicyMatcher.matchKey key := by
  have h' : ((cfg.withPolicies policies).cache.policies.map CachePolicyConfig.keyPrefix).Nodup :=
    (hperm.map _).nodup_iff.2 h
  apply Matcher.matchKey_congr
  · intro p
    apply Option.ext
    intro d
    rw [lookup_newPolicyMatcher h, lookup_newPolicyMatcher h']
    constructor
    · rintro ⟨policy, hm, hrest⟩
      exact ⟨policy, hperm.mem_iff.1 hm, hrest⟩
    · rintro ⟨policy, hm, hrest⟩
      exact ⟨policy, hperm.mem_iff.2 hm, hrest⟩
  · rfl

theorem matchKey_policy (h : validate cfg = []) (key : Key) :
    (∃ policy ∈ cfg.cache.policies, policy.keyPrefix <+: key ∧
      (∀ other ∈ cfg.cache.policies, other.keyPrefix <+: key → other ≠ policy →
        other.keyPrefix.length < policy.keyPrefix.length) ∧
      ∃ mode, parseMode policy.mode = some mode ∧
        cfg.newPolicyMatcher.matchKey key = cfg.granted policy mode) ∨
    ((∀ policy ∈ cfg.cache.policies, ¬ policy.keyPrefix <+: key) ∧
      cfg.newPolicyMatcher.matchKey key = cfg.globalDecision) := by
  obtain ⟨hnodup, hmodes⟩ := accepted_policies h
  rcases cfg.newPolicyMatcher.matchKey_spec key with ⟨p, hp, hl, hmax⟩ | ⟨hnone, hf⟩
  · obtain ⟨policy, hpolicy, rfl, hd⟩ := (lookup_newPolicyMatcher hnodup).1 hl
    obtain ⟨mode, hmode, -⟩ := hmodes policy hpolicy
    refine .inl ⟨policy, hpolicy, hp, ?_, mode, hmode, by rw [← hd, policyRule_decision _ hmode]⟩
    intro other hother hprefix hne
    have hle := hmax _ _ hprefix ((lookup_newPolicyMatcher hnodup).2 ⟨other, hother, rfl, rfl⟩)
    apply lt_of_le_of_ne hle
    intro hlen
    exact hne (List.inj_on_of_nodup_map hnodup hother hpolicy
      (Matcher.prefix_unique hprefix hp hlen))
  · refine .inr ⟨?_, by rw [hf, newPolicyMatcher_fallback (accepted h).mode]⟩
    intro policy hpolicy hprefix
    exact hnone _ _ hprefix ((lookup_newPolicyMatcher hnodup).2 ⟨policy, hpolicy, rfl, rfl⟩)

/-- A decision carries limits exactly if it lets the key be cached. -/
def Bounded (cfg : CacheConfig) (d : Decision) : Prop :=
  if d.mode = .cache then Limited cfg d.maxItemBytes d.maxLocalTTL
  else d.maxItemBytes = 0 ∧ d.maxLocalTTL = 0

theorem bounded_granted {mode : Mode}
    (h : mode = .cache → Limited cfg.cache policy.maxItemBytes policy.maxLocalTTL) :
    Bounded cfg.cache (granted cfg policy mode) := by
  cases mode with
  | deny => exact ⟨rfl, rfl⟩
  | observe => exact ⟨rfl, rfl⟩
  | cache =>
    rw [granted]
    split
    · exact ⟨rfl, rfl⟩
    · exact h rfl

theorem bounded_globalDecision (h : cfg.Accepted) : Bounded cfg.cache (globalDecision cfg) := by
  rw [globalDecision]
  split
  · exact ⟨h.maxBytes, le_refl _, h.maxLocalTTL, le_refl _⟩
  · exact ⟨rfl, rfl⟩

theorem bounded_matchKey (h : validate cfg = []) (key : Key) :
    Bounded cfg.cache (cfg.newPolicyMatcher.matchKey key) := by
  rcases matchKey_policy h key with ⟨policy, hpolicy, -, -, mode, hmode, heq⟩ | ⟨-, heq⟩
  · obtain ⟨mode', hmode', hlimits⟩ := (accepted_policies h).2 policy hpolicy
    obtain rfl : mode' = mode := Option.some.inj (hmode'.symm.trans hmode)
    rw [heq]
    exact bounded_granted hlimits
  · rw [heq]
    exact bounded_globalDecision (accepted h)

/-- Policies are resolved by the longest prefix, in any order of the rules, and the limits of a
decision are within those of the cache. -/
theorem policy_resolution (h : validate cfg = []) (key : Key) :
    ((∃ policy ∈ cfg.cache.policies, policy.keyPrefix <+: key ∧
        (∀ other ∈ cfg.cache.policies, other.keyPrefix <+: key → other ≠ policy →
          other.keyPrefix.length < policy.keyPrefix.length) ∧
        ∃ mode, parseMode policy.mode = some mode ∧
          cfg.newPolicyMatcher.matchKey key = cfg.granted policy mode) ∨
      ((∀ policy ∈ cfg.cache.policies, ¬ policy.keyPrefix <+: key) ∧
        cfg.newPolicyMatcher.matchKey key = cfg.globalDecision)) ∧
    (∀ policies, policies.Perm cfg.cache.policies →
      (cfg.withPolicies policies).newPolicyMatcher.matchKey key =
        cfg.newPolicyMatcher.matchKey key) ∧
    Bounded cfg.cache (cfg.newPolicyMatcher.matchKey key) := by
  refine ⟨matchKey_policy h key, ?_, bounded_matchKey h key⟩
  intro _ hperm
  exact newPolicyMatcher_perm (accepted_policies h).1 hperm key

def samplePolicies : Config :=
  let base := default "secret"
  { base with
    mode := "cache"
    cache := { base.cache with
      policies := [⟨[0x61], "observe", 0, 0⟩, ⟨[0x61, 0x3A], "cache", 100, 5⟩] } }

theorem policy_resolution_sample :
    validate samplePolicies = [] ∧
      samplePolicies.newPolicyMatcher.matchKey [0x61, 0x3A, 0x31] = ⟨.cache, 100, 5⟩ ∧
      Bounded samplePolicies.cache (samplePolicies.newPolicyMatcher.matchKey [0x61, 0x3A, 0x31]) :=
  ⟨by decide +kernel, by decide +kernel, (policy_resolution (by decide +kernel) _).2.2⟩

end Config
end Slizen
