import Slizen.CacheEviction
import Slizen.Interleaving.Sequential
import Slizen.Service.Runs

namespace Slizen
set_option autoImplicit true

open Interleaving

/-- Nothing but the tiers and the stripes has changed, and they into these. -/
def World.Becomes (s s' : World) (tiers : Tier → Cache) (stripes : Stripe → StripeState) : Prop :=
  ∃ past, s' = { s with tiers := tiers, stripes := stripes, past := past }

namespace World.Becomes

variable {s s₁ s' : World} {tiers tiers' : Tier → Cache} {stripes stripes' : Stripe → StripeState}

theorem trans (h : s.Becomes s₁ tiers stripes) (h' : s₁.Becomes s' tiers' stripes') :
    s.Becomes s' tiers' stripes' := by
  obtain ⟨past, rfl⟩ := h
  obtain ⟨past', rfl⟩ := h'
  exact ⟨past', rfl⟩

theorem tiers_eq (h : s.Becomes s' tiers stripes) : s'.tiers = tiers := by
  obtain ⟨past, rfl⟩ := h
  rfl

theorem stripes_eq (h : s.Becomes s' tiers stripes) : s'.stripes = stripes := by
  obtain ⟨past, rfl⟩ := h
  rfl

theorem tracker_eq (h : s.Becomes s' tiers stripes) : s'.tracker = s.tracker := by
  obtain ⟨past, rfl⟩ := h
  rfl

theorem clock_eq (h : s.Becomes s' tiers stripes) : s'.clock = s.clock := by
  obtain ⟨past, rfl⟩ := h
  rfl

end World.Becomes

namespace Service

variable {svc : Service} {s s₁ s' : World} {t : Nat} {key : Key}

abbrev ensures (svc : Service) (t : Nat) (p : Run α) (Q : α → World → Prop) (s : World) : Prop :=
  svc.machine.Ensures t p Q s

theorem ensures_do {a : Action} {b : a.Resp} {Q : a.Resp → World → Prop}
    (hstep : ∀ c, s.step t c a = some (b, s₁))
    (hQ : Q b { s₁ with past := Past.record s₁ t a b }) : svc.ensures t (Run.do a) Q s := by
  have he : ∀ c, World.exec t a c s = some (b, { s₁ with past := Past.record s₁ t a b }) :=
    fun c => World.exec_eq_some.2 ⟨s₁, hstep c, rfl⟩
  exact Machine.Ensures.perform Choice.any he hQ

theorem ensures_stripe {σ : Stripe} {op : StripeOp} {b : op.Resp} {st : StripeState}
    (h : op.run (s.stripes σ) t = some (b, st)) : svc.ensures t (Run.do (.stripe σ op))
      (fun _ s' => s.Becomes s' s.tiers (Function.update s.stripes σ st)) s := by
  have hstep : ∀ c, s.step t c (.stripe σ op) =
      some (b, { s with stripes := Function.update s.stripes σ st }) := by
    intro c
    simp only [World.step, h, Option.map_some]
  exact ensures_do hstep ⟨_, rfl⟩

theorem ensures_cache (tier : Tier) (op : CacheOp) : svc.ensures t (Run.do (.cache tier op))
    (fun _ s' => s.Becomes s'
      (Function.update s.tiers tier (op.run (s.tiers tier) s.clock).2) s.stripes) s := by
  exact ensures_do (fun _ => rfl) ⟨_, rfl⟩

theorem ensures_note (n : Note) :
    svc.ensures t (note n) (fun _ s' => s.Becomes s' s.tiers s.stripes) s :=
  ensures_do (fun _ => rfl) ⟨_, rfl⟩

theorem ensures_isHot (key : Key) : svc.ensures t (isHot key)
    (fun hot s' => hot = s.tracker.isHot key ∧ s.Becomes s' s.tiers s.stripes) s :=
  ensures_do (fun _ => rfl) ⟨rfl, _, rfl⟩

def drop (tiers : Tier → Cache) (tier : Tier) (key : Key) : Tier → Cache :=
  Function.update tiers tier ((tiers tier).removeElementLocked key)

theorem drop_of_absent {tiers : Tier → Cache} (h : (tiers tier).find key = none) :
    drop tiers tier key = tiers := by
  rw [drop, Cache.removeElementLocked, h, Function.update_eq_self]

theorem find_drop (tiers : Tier → Cache) (tier tier' : Tier) (key k : Key) :
    (drop tiers tier key tier').find k =
      if tier' = tier ∧ k = key then none else (tiers tier').find k := by
  rw [drop]
  by_cases ht : tier' = tier
  · subst ht
    simp
  · simp [ht]

theorem ensures_delete (tier : Tier) (key : Key) : svc.ensures t (delete tier key)
    (fun _ s' => s.Becomes s' (drop s.tiers tier key) s.stripes) s := by
  apply (ensures_cache tier (.delete key)).mono
  intro _ s' h
  rwa [CacheOp.run, Cache.delete, Cache.removeLocked_snd] at h

def Absent (svc : Service) (s : World) : Prop :=
  svc.hasProbationary = false → ∀ k, s.find .probationary k = none

theorem ensures_deleteProbationary (ha : svc.Absent s) (key : Key) :
    svc.ensures t (svc.deleteProbationary key)
      (fun _ s' => s.Becomes s' (drop s.tiers .probationary key) s.stripes) s := by
  unfold deleteProbationary
  split
  · exact ensures_delete .probationary key
  · rename_i hp
    have hnone := ha (by simpa using hp) key
    exact ⟨s.past, by rw [drop_of_absent hnone]⟩

theorem ensures_takeCandidate (ha : svc.Absent s) (key : Key) :
    svc.ensures t (svc.takeCandidate key)
      (fun _ s' => s.Becomes s' (drop s.tiers .probationary key) s.stripes) s := by
  unfold takeCandidate
  split
  · apply Machine.Ensures.seq (ensures_cache .probationary (.inspect key))
    intro _ s₁ h₁
    rw [CacheOp.run, Function.update_eq_self] at h₁
    apply Machine.Ensures.seq (ensures_delete .probationary key)
    intro _ s₂ h₂
    rw [h₁.tiers_eq, h₁.stripes_eq] at h₂
    exact h₁.trans h₂
  · rename_i hp
    have hnone := ha (by simpa using hp) key
    exact ⟨s.past, by rw [drop_of_absent hnone]⟩

/-- The critical section of one stripe around a part that changes the tiers only. -/
def advanced (stripes : Stripe → StripeState) (σ : Stripe) (n : Nat) : Stripe → StripeState :=
  Function.update stripes σ { stripes σ with epoch := (stripes σ).epoch + n }

theorem ensures_locked {σ : Stripe} (hfree : (s.stripes σ).owner = none) :
    svc.ensures t (lock σ) (fun _ s' => s.Becomes s' s.tiers
      (Function.update s.stripes σ { s.stripes σ with owner := some t })) s :=
  ensures_stripe (by rw [StripeOp.run, if_pos hfree])

theorem ensures_unlocked {σ : Stripe} {stripes : Stripe → StripeState} {n : Nat}
    (hfree : (stripes σ).owner = none)
    (hs : s.stripes = Function.update stripes σ
      { stripes σ with owner := some t, epoch := (stripes σ).epoch + n }) :
    svc.ensures t (unlock σ) (fun _ s' => s.Becomes s' s.tiers (advanced stripes σ n)) s := by
  have hrun : StripeOp.unlock.run (s.stripes σ) t =
      some ((), { stripes σ with epoch := (stripes σ).epoch + n }) := by
    rw [hs, Function.update_self, StripeOp.run, if_pos rfl, ← hfree]
  apply (ensures_stripe hrun).mono
  intro _ s' h
  rwa [hs, Function.update_idem] at h

theorem ensures_epochAdd (advance : Bool) {σ : Stripe} {stripes : Stripe → StripeState}
    (hs : s.stripes = Function.update stripes σ { stripes σ with owner := some t }) :
    svc.ensures t (Run.when advance (Run.do (.stripe σ .epochAdd)))
      (fun _ s' => s.Becomes s' s.tiers (Function.update stripes σ
        { stripes σ with owner := some t, epoch := (stripes σ).epoch + advance.toNat })) s := by
  cases advance with
  | false => exact ⟨s.past, congrArg (fun stripes => { s with stripes := stripes }) hs⟩
  | true =>
    have hrun : StripeOp.epochAdd.run (s.stripes σ) t =
        some ((), { stripes σ with owner := some t, epoch := (stripes σ).epoch + 1 }) := by
      rw [hs, Function.update_self]
      rfl
    apply (ensures_stripe hrun).mono
    intro _ s' h
    rwa [hs, Function.update_idem] at h

theorem ensures_invalidateCacheKey (ha : svc.Absent s) (key : Key) (advance : Bool)
    (hfree : (s.stripes (cacheEpochStripe key)).owner = none) :
    svc.ensures t (svc.invalidateCacheKey key advance)
      (fun _ s' => s.Becomes s' (drop (drop s.tiers .cache key) .probationary key)
        (advanced s.stripes (cacheEpochStripe key) advance.toNat)) s := by
  unfold invalidateCacheKey
  apply Machine.Ensures.seq (ensures_locked hfree)
  intro _ s₁ h₁
  apply Machine.Ensures.seq (ensures_epochAdd advance h₁.stripes_eq)
  intro _ s₂ h₂
  replace h₂ := h₁.trans (h₁.tiers_eq ▸ h₂)
  apply Machine.Ensures.seq (ensures_delete .cache key)
  intro _ s₃ h₃
  rw [h₂.tiers_eq, h₂.stripes_eq] at h₃
  replace h₃ := h₂.trans h₃
  have ha₃ : svc.Absent s₃ := by
    intro hno k
    show (s₃.tiers .probationary).find k = none
    rw [h₃.tiers_eq, find_drop, if_neg nofun]
    exact ha hno k
  apply Machine.Ensures.seq (ensures_deleteProbationary ha₃ key)
  intro _ s₄ h₄
  rw [h₃.tiers_eq, h₃.stripes_eq] at h₄
  replace h₄ := h₃.trans h₄
  apply Machine.Ensures.seq (ensures_note (.cleared key))
  intro _ s₅ h₅
  rw [h₄.tiers_eq, h₄.stripes_eq] at h₅
  replace h₅ := h₄.trans h₅
  apply Machine.Ensures.seq (ensures_unlocked hfree h₅.stripes_eq)
  intro _ s₆ h₆
  rw [h₅.tiers_eq] at h₆
  exact h₅.trans h₆

/-- What `invalidateCacheKeys` leaves, with the stripes that it had advanced before: the keys are
gone, and the epoch of each of their stripes has moved once. -/
structure Invalidated (seen : List Stripe) (keys : List Key) (s s' : World) : Prop where
  tracker : s'.tracker = s.tracker
  find : ∀ tier k, s'.find tier k = if k ∈ keys then none else s.find tier k
  owner : ∀ σ, (s'.stripes σ).owner = (s.stripes σ).owner
  epoch : ∀ σ, (s'.stripes σ).epoch = (s.stripes σ).epoch +
    if σ ∈ keys.map cacheEpochStripe ∧ σ ∉ seen then 1 else 0

theorem Invalidated.nil (seen : List Stripe) (s : World) : Invalidated seen [] s s := by
  constructor <;> simp

theorem Invalidated.cons {seen : List Stripe} {keys : List Key}
    (h : s.Becomes s₁ (drop (drop s.tiers .cache key) .probationary key)
      (advanced s.stripes (cacheEpochStripe key)
        (decide (cacheEpochStripe key ∉ seen)).toNat))
    (hrest : Invalidated (cacheEpochStripe key :: seen) keys s₁ s') :
    Invalidated seen (key :: keys) s s' := by
  constructor
  · rw [hrest.tracker, h.tracker_eq]
  · intro tier k
    have hfind : s₁.find tier k = if k = key then none else s.find tier k := by
      show (s₁.tiers tier).find k = _
      rw [h.tiers_eq, find_drop, find_drop]
      cases tier <;> by_cases hk : k = key <;> simp [hk]
    rw [hrest.find, hfind]
    by_cases hk : k = key
    · simp [hk]
    · simp [hk]
  · intro σ
    rw [hrest.owner, h.stripes_eq, advanced]
    by_cases hσ : σ = cacheEpochStripe key
    · simp [hσ]
    · simp [hσ]
  · intro σ
    rw [hrest.epoch, h.stripes_eq, advanced]
    by_cases hσ : σ = cacheEpochStripe key
    · subst hσ
      by_cases hseen : cacheEpochStripe key ∈ seen <;> simp [hseen]
    · simp [hσ]

theorem ensures_invalidateCacheKeys (seen : List Stripe) (invalidated : Nat) (keys : List Key)
    (ha : svc.Absent s) (hfree : ∀ k ∈ keys, (s.stripes (cacheEpochStripe k)).owner = none) :
    svc.ensures t (svc.invalidateCacheKeys seen invalidated keys)
      (fun _ s' => Invalidated seen keys s s') s := by
  induction keys generalizing s seen invalidated with
  | nil => exact Invalidated.nil seen s
  | cons key keys ih =>
    obtain ⟨hkey, hkeys⟩ := List.forall_mem_cons.1 hfree
    rw [invalidateCacheKeys]
    apply Machine.Ensures.seq (ensures_invalidateCacheKey ha key _ hkey)
    intro deleted s₁ h₁
    have ha₁ : svc.Absent s₁ := by
      intro hno k
      show (s₁.tiers .probationary).find k = none
      rw [h₁.tiers_eq, find_drop, find_drop]
      simp [ha hno k]
    have hfree₁ : ∀ k ∈ keys, (s₁.stripes (cacheEpochStripe k)).owner = none := by
      intro k hk
      rw [h₁.stripes_eq, advanced]
      by_cases hσ : cacheEpochStripe k = cacheEpochStripe key
      · simp [hσ, hkey]
      · simp [hσ, hkeys k hk]
    exact (ih _ _ ha₁ hfree₁).mono fun _ _ h => .cons h₁ h

def writeTTL (svc : Service) (key : Key) : Time :=
  min svc.cfg.cache.maxLocalTTL (svc.policy key).maxLocalTTL

theorem localTTL_write (svc : Service) (key : Key) :
    (0 < svc.writeTTL key → svc.localTTL (-1) (svc.policy key).maxLocalTTL = svc.writeTTL key) ∧
      (¬ 0 < svc.writeTTL key → svc.localTTL (-1) (svc.policy key).maxLocalTTL ≤ 0) := by
  unfold writeTTL localTTL
  grind

/-- An acknowledged value that the protected tier takes. -/
structure Accepts (svc : Service) (s : World) (key : Key) (value : Blob) : Prop where
  mode : (svc.policy key).mode = .cache
  hot : s.tracker.isHot key = true
  size : estimateSize key value ≤ (svc.policy key).maxItemBytes
  ttl : 0 < svc.writeTTL key
  opened : (s.tiers .cache).closed = false
  room : estimateSize key value ≤ (s.tiers .cache).maxBytes

theorem accepts_congr {value : Blob} (ht : s'.tracker = s.tracker)
    (hc : s'.tiers .cache = s.tiers .cache) :
    svc.Accepts s' key value ↔ svc.Accepts s key value := by
  constructor
  · rintro ⟨h₁, h₂, h₃, h₄, h₅, h₆⟩
    exact ⟨h₁, ht ▸ h₂, h₃, h₄, hc ▸ h₅, hc ▸ h₆⟩
  · rintro ⟨h₁, h₂, h₃, h₄, h₅, h₆⟩
    exact ⟨h₁, ht.symm ▸ h₂, h₃, h₄, hc.symm ▸ h₅, hc.symm ▸ h₆⟩

structure Written (svc : Service) (s : World) (key : Key) (value : Blob) (c : Cache) : Prop where
  stored : svc.Accepts s key value →
    (s.tiers .cache).Stored c key value s.clock (s.clock + svc.writeTTL key)
  dropped : ¬ svc.Accepts s key value → c = (s.tiers .cache).removeElementLocked key

theorem Written.congr {value : Blob} {c : Cache} (h : svc.Written s' key value c)
    (ht : s'.tracker = s.tracker) (hc : s'.tiers .cache = s.tiers .cache)
    (hclock : s'.clock = s.clock) : svc.Written s key value c := by
  obtain ⟨hstored, hdropped⟩ := h
  rw [accepts_congr ht hc, hc] at hstored hdropped
  rw [hclock] at hstored
  exact ⟨hstored, hdropped⟩

theorem put_refused {c : Cache} {value : Blob} {ttl now : Time} (hk : key ≠ []) (httl : 0 < ttl)
    (h : c.closed ∨ c.maxBytes ≤ 0 ∨ estimateSize key value > c.maxBytes) :
    (c.put key value ttl now).2 = c.removeElementLocked key := by
  rw [Cache.put, if_neg, Cache.putLocked, if_pos h, Cache.removeLocked_snd]
  rintro (hle | hnil)
  · exact absurd httl (not_lt.2 hle)
  · exact hk hnil

theorem put_stored {c : Cache} {value : Blob} {ttl now : Time} (hk : key ≠ []) (httl : 0 < ttl)
    (hwf : c.WF) (h : ¬ (c.closed ∨ c.maxBytes ≤ 0 ∨ estimateSize key value > c.maxBytes)) :
    c.Stored (c.put key value ttl now).2 key value now (now + ttl) := by
  rw [Cache.put, if_neg, Cache.putLocked, if_neg h]
  · apply hwf.stored
    rw [not_or, not_or, not_lt] at h
    exact h.2.2
  · rintro (hle | hnil)
    · exact absurd httl (not_lt.2 hle)
    · exact hk hnil

theorem ensures_storeLocal {value : Blob} (hwf : (s.tiers .cache).WF) (hk : key ≠ [])
    (hmode : (svc.policy key).mode = .cache) (hhot : s.tracker.isHot key = true) :
    svc.ensures t (svc.storeLocal key ⟨value, true, -1⟩ (svc.policy key))
      (fun _ s' => ∃ c, s.Becomes s' (Function.update s.tiers .cache c) s.stripes ∧
        svc.Written s key value c) s := by
  obtain ⟨hpos, hneg⟩ := svc.localTTL_write key
  unfold storeLocal storeIn
  split
  · rename_i hc
    apply Machine.Ensures.seq (ensures_delete .cache key)
    intro _ s₁ h₁
    refine ⟨_, h₁, fun ha => ?_, fun _ => rfl⟩
    have hsize := estimateSize_pos key value
    rcases hc with hc | hc | hc
    · exact absurd (hsize.trans_le ha.size) (not_lt.2 hc)
    · exact absurd ha.size (not_le.2 hc)
    · rw [hpos ha.ttl] at hc
      exact absurd ha.ttl (not_lt.2 hc)
  · rename_i hc
    rw [not_or, not_or, not_lt] at hc
    obtain ⟨-, hsize, httl⟩ := hc
    have hwrite : 0 < svc.writeTTL key := by
      by_contra hno
      exact httl (hneg hno)
    apply (ensures_cache .cache _).mono
    intro _ s₁ h₁
    refine ⟨_, h₁, fun ha => ?_, fun ha => ?_⟩
    · rw [hpos hwrite, CacheOp.run]
      apply put_stored hk hwrite hwf
      rw [ha.opened]
      rintro (h | h | h)
      · cases h
      · exact absurd ((estimateSize_pos key value).trans_le ha.room) (not_lt.2 h)
      · exact absurd ha.room (not_le.2 h)
    · rw [hpos hwrite, CacheOp.run]
      apply put_refused hk hwrite
      by_contra hfits
      rw [not_or, not_or, not_lt] at hfits
      exact ha ⟨hmode, hhot, hsize, hwrite, by simpa using hfits.1, hfits.2.2⟩

theorem ensures_cachedHot (svc : Service) (key : Key) : svc.ensures t (svc.cachedHot key)
    (fun hot s' => (hot = true ↔ (svc.policy key).mode = .cache ∧ s.tracker.isHot key = true) ∧
      s.Becomes s' s.tiers s.stripes) s := by
  unfold cachedHot
  split
  · rename_i hmode
    apply (ensures_isHot key).mono
    rintro hot s' ⟨rfl, h⟩
    exact ⟨⟨fun hh => ⟨hmode, hh⟩, fun hh => hh.2⟩, h⟩
  · rename_i hmode
    exact ⟨⟨nofun, fun hh => absurd hh.1 hmode⟩, s.past, rfl⟩

theorem ensures_writeThrough {value : Blob} (hwf : (s.tiers .cache).WF)
    (hrep : s.tracker.Rep) (present probationary : Bool) :
    svc.ensures t (svc.writeThrough key value present probationary)
      (fun _ s' => ∃ c, s.Becomes s' (Function.update s.tiers .cache c) s.stripes ∧
        svc.Written s key value c) s := by
  unfold writeThrough
  apply Machine.Ensures.seq (svc.ensures_cachedHot key)
  rintro hot s₁ ⟨hhot, h₁⟩
  split
  · rename_i hyes
    obtain ⟨hmode, hhot⟩ := hhot.1 hyes
    have hk := (hrep.trackable_of_isHot hhot).1
    apply Machine.Ensures.seq (ensures_storeLocal (h₁.tiers_eq ▸ hwf) hk hmode
      (h₁.tracker_eq ▸ hhot))
    rintro stored s₂ ⟨c, h₂, hc⟩
    rw [h₁.tiers_eq, h₁.stripes_eq] at h₂
    exact ⟨c, h₁.trans h₂, hc.congr h₁.tracker_eq (by rw [h₁.tiers_eq]) h₁.clock_eq⟩
  · rename_i hno
    apply Machine.Ensures.seq (ensures_delete .cache key)
    intro _ s₂ h₂
    rw [h₁.tiers_eq, h₁.stripes_eq] at h₂
    exact ⟨_, h₁.trans h₂, fun ha => absurd (hhot.2 ⟨ha.mode, ha.hot⟩) hno, fun _ => rfl⟩

theorem ensures_writeThroughSet {value : Blob} (hi : svc.Base s)
    (hfree : (s.stripes (cacheEpochStripe key)).owner = none) :
    svc.ensures t (svc.writeThroughSet key value)
      (fun _ s' => ∃ c, s.Becomes s' (Function.update (drop s.tiers .probationary key) .cache c)
        (advanced s.stripes (cacheEpochStripe key) 1) ∧ svc.Written s key value c) s := by
  unfold writeThroughSet
  apply Machine.Ensures.seq (ensures_locked hfree)
  intro _ s₁ h₁
  apply Machine.Ensures.seq (ensures_epochAdd true h₁.stripes_eq)
  intro _ s₂ h₂
  replace h₂ := h₁.trans (h₁.tiers_eq ▸ h₂)
  apply Machine.Ensures.seq (ensures_cache .cache (.inspect key))
  intro present s₃ h₃
  rw [CacheOp.run, Function.update_eq_self, h₂.tiers_eq, h₂.stripes_eq] at h₃
  replace h₃ := h₂.trans h₃
  have ha : svc.Absent s₃ := by
    intro hno k
    show (s₃.tiers .probationary).find k = none
    rw [h₃.tiers_eq]
    exact hi.absent hno k
  apply Machine.Ensures.seq (ensures_takeCandidate ha key)
  intro probationary s₄ h₄
  rw [h₃.tiers_eq, h₃.stripes_eq] at h₄
  replace h₄ := h₃.trans h₄
  have hcache : s₄.tiers .cache = s.tiers .cache := by
    rw [h₄.tiers_eq, drop]
    rfl
  apply Machine.Ensures.seq (ensures_writeThrough (hcache.symm ▸ hi.wf .cache)
    (h₄.tracker_eq.symm ▸ hi.tracker) _ _)
  rintro invalidated s₅ ⟨c, h₅, hc⟩
  rw [h₄.tiers_eq, h₄.stripes_eq] at h₅
  replace h₅ := h₄.trans h₅
  apply Machine.Ensures.seq (ensures_note (.cleared key))
  intro _ s₆ h₆
  rw [h₅.tiers_eq, h₅.stripes_eq] at h₆
  replace h₆ := h₅.trans h₆
  apply Machine.Ensures.seq (ensures_unlocked hfree h₆.stripes_eq)
  intro _ s₇ h₇
  rw [h₆.tiers_eq] at h₇
  exact ⟨c, h₆.trans h₇, hc.congr h₄.tracker_eq hcache h₄.clock_eq⟩

/-- The write is an acknowledged plain SET whose value the protected tier takes. -/
structure WritesThrough (svc : Service) (s : World) (command : Bytes) (args keys : List Bytes)
    (source : Source) (r : Except Error RedisReply) (key : Key) (value : Bytes) : Prop where
  command : equalFold command wordSET = true
  args : args = [key, value]
  keys : keys = [key]
  reply : ∃ status, r = .ok (.text status) ∧ equalFold status wordOK = true
  accepts : svc.Accepts s key ⟨value, source⟩

/-- What `finalizeWrite` leaves behind. -/
structure WriteOutcome (svc : Service) (command : Bytes) (args keys : List Bytes) (source : Source)
    (r : Except Error RedisReply) (s s' : World) : Prop where
  absent : (∀ key value, ¬ svc.WritesThrough s command args keys source r key value) →
    ∀ tier, ∀ k ∈ keys, s'.find tier k = none
  stored : ∀ key value, svc.WritesThrough s command args keys source r key value →
    s'.find .probationary key = none ∧
      s'.find .cache key = some ⟨⟨value, source⟩, s.clock, s.clock + svc.writeTTL key, s.clock,
        estimateSize key ⟨value, source⟩⟩
  epoch :
    ∀ k ∈ keys, (s.stripes (cacheEpochStripe k)).epoch < (s'.stripes (cacheEpochStripe k)).epoch
  tracker : s'.tracker = s.tracker
  others : ∀ tier, ∀ k ∉ keys, s'.find tier k = s.find tier k ∨
    tier = .cache ∧ s'.find .cache k = none ∧ ∃ key value,
      svc.WritesThrough s command args keys source r key value ∧ k ∉ (s'.tiers .cache).lru ∧
        LongestPrefix ((s.tiers .cache).HasRoom ((s.tiers .cache).sizesWith key ⟨value, source⟩))
          (key :: (s.tiers .cache).lru.erase key) (s'.tiers .cache).lru

theorem Invalidated.outcome {command : Bytes} {args keys : List Bytes} {source : Source}
    {r : Except Error RedisReply} (h : Invalidated [] keys s s')
    (hno : acknowledgedSet command args keys r = none) :
    svc.WriteOutcome command args keys source r s s' := by
  constructor
  · intro _ tier k hk
    rw [h.find, if_pos hk]
  · intro key value hw
    rw [acknowledgedSet_eq_some.2 ⟨hw.command, hw.args, hw.keys, hw.reply⟩] at hno
    cases hno
  · intro k hk
    rw [h.epoch, if_pos ⟨List.mem_map_of_mem hk, List.not_mem_nil⟩]
    exact Nat.lt_succ_self _
  · exact h.tracker
  · intro tier k hk
    rw [h.find, if_neg hk]
    exact .inl rfl

theorem Written.outcome {command : Bytes} {args keys : List Bytes} {source : Source}
    {r : Except Error RedisReply} {value : Bytes} {c : Cache}
    (hset : acknowledgedSet command args keys r = some (key, value))
    (hb : s.Becomes s' (Function.update (drop s.tiers .probationary key) .cache c)
      (advanced s.stripes (cacheEpochStripe key) 1))
    (hc : svc.Written s key ⟨value, source⟩ c) :
    svc.WriteOutcome command args keys source r s s' := by
  obtain ⟨hcommand, rfl, rfl, hreply⟩ := acknowledgedSet_eq_some.1 hset
  have hcache : s'.tiers .cache = c := by rw [hb.tiers_eq, Function.update_self]
  have hprobation : ∀ k, s'.find .probationary k =
      if k = key then none else s.find .probationary k := by
    intro k
    show (s'.tiers .probationary).find k = _
    rw [hb.tiers_eq, Function.update_of_ne (by decide), find_drop]
    simp
  have hthrough : svc.Accepts s key ⟨value, source⟩ →
      svc.WritesThrough s command [key, value] [key] source r key value :=
    fun ha => ⟨hcommand, rfl, rfl, hreply, ha⟩
  constructor
  · intro hno tier k hk
    cases List.mem_singleton.1 hk
    cases tier with
    | probationary => rw [hprobation, if_pos rfl]
    | cache =>
      show (s'.tiers .cache).find key = none
      rw [hcache, hc.dropped fun ha => hno _ _ (hthrough ha), Cache.find_removeElementLocked,
        if_pos rfl]
  · intro key' value' hw
    cases hw.args
    refine ⟨by rw [hprobation, if_pos rfl], ?_⟩
    show (s'.tiers .cache).find key = _
    rw [hcache]
    exact (hc.stored hw.accepts).found
  · intro k hk
    cases List.mem_singleton.1 hk
    rw [hb.stripes_eq, advanced, Function.update_self]
    exact Nat.lt_succ_self _
  · exact hb.tracker_eq
  · intro tier k hk
    rw [List.mem_singleton] at hk
    cases tier with
    | probationary =>
      rw [hprobation, if_neg hk]
      exact .inl rfl
    | cache =>
      rw [hcache]
      show (s'.tiers .cache).find k = _ ∨ _ ∧ (s'.tiers .cache).find k = none ∧ _
      rw [hcache]
      by_cases ha : svc.Accepts s key ⟨value, source⟩
      · have hs := hc.stored ha
        by_cases hlru : k ∈ c.lru
        · exact .inl (hs.others k hlru hk)
        · exact .inr ⟨rfl, hs.dropped k hlru, key, value, hthrough ha, hlru, hs.keeps⟩
      · rw [hc.dropped ha, Cache.find_removeElementLocked, if_neg hk]
        exact .inl rfl

theorem ensures_finalizeWrite {command : Bytes} {args keys : List Bytes} {source : Source}
    {r : Except Error RedisReply} (hi : svc.Base s)
    (hfree : ∀ k ∈ keys, (s.stripes (cacheEpochStripe k)).owner = none) :
    svc.ensures t (svc.finalizeWrite command args keys source r)
      (fun _ s' => svc.WriteOutcome command args keys source r s s') s := by
  unfold finalizeWrite
  cases hset : acknowledgedSet command args keys r with
  | none =>
    apply (ensures_invalidateCacheKeys [] 0 keys (fun hno k => hi.absent hno k) hfree).mono
    exact fun _ _ h => h.outcome hset
  | some kv =>
    obtain ⟨key, value⟩ := kv
    obtain ⟨-, -, hkeys, -⟩ := acknowledgedSet_eq_some.1 hset
    have hkey : (s.stripes (cacheEpochStripe key)).owner = none :=
      hfree key (by rw [hkeys]; exact List.mem_singleton_self key)
    apply (ensures_writeThroughSet hi hkey).mono
    rintro _ s' ⟨c, hb, hc⟩
    exact hc.outcome hset hb

theorem writeTTL_pos (h : svc.cfg.validate = []) (hm : (svc.policy key).mode = .cache) :
    0 < svc.writeTTL key := by
  have hb : Config.Bounded svc.cfg.cache (svc.policy key) := Config.bounded_matchKey h key
  rw [Config.Bounded, if_pos hm] at hb
  rw [writeTTL, lt_min_iff]
  exact ⟨(Config.accepted h).maxLocalTTL, hb.ttl_pos⟩

/-- A goroutine that finalises a write alone, in any state in which the stripes of its keys are
free, comes to an end and leaves nothing of its keys but the value of an acknowledged plain SET.
With a valid configuration the local TTL of such a value is positive. -/
theorem finalizeWrite_exact (command : Bytes) (args keys : List Bytes) (source : Source)
    (r : Except Error RedisReply) (hi : svc.Base s)
    (hfree : ∀ k ∈ keys, (s.stripes (cacheEpochStripe k)).owner = none) :
    (∃ n s', svc.machine.Runs t (svc.finalizeWrite command args keys source r) s n s') ∧
    (∀ n s', svc.machine.Runs t (svc.finalizeWrite command args keys source r) s n s' →
      svc.WriteOutcome command args keys source r s s') ∧
    (svc.cfg.validate = [] → ∀ key, (svc.policy key).mode = .cache → 0 < svc.writeTTL key) := by
  have hensures : svc.ensures t (svc.finalizeWrite command args keys source r)
      (fun _ s' => svc.WriteOutcome command args keys source r s s') s :=
    ensures_finalizeWrite hi hfree
  obtain ⟨hends, hall⟩ := hensures.runs
  exact ⟨hends, hall, fun hvalid key hm => writeTTL_pos hvalid hm⟩

/-- A SET of the promoted key. -/
theorem finalizeWrite_exact_sample :
    ∃ n s', sample.machine.Runs 3 (sample.finalizeWrite wordSET [[7], [9]] [[7]] (.write 1 1)
        (.ok (.text wordOK))) samplePromoted.state n s' ∧
      s'.find .probationary [7] = none ∧
        (s'.find .cache [7]).map (fun e => e.value.bytes) = some [9] := by
  have hfree : ∀ k ∈ ([[7]] : List Key),
      (samplePromoted.state.stripes (cacheEpochStripe k)).owner = none := by decide +kernel
  obtain ⟨⟨n, s', hruns⟩, hall, -⟩ := finalizeWrite_exact (t := 3) wordSET [[7], [9]] [[7]]
    (.write 1 1) (.ok (.text wordOK)) samplePromoted_reachable.base hfree
  have haccepts : sample.Accepts samplePromoted.state [7] ⟨[9], .write 1 1⟩ :=
    ⟨by decide +kernel, by decide +kernel, by decide +kernel, by decide +kernel, by decide +kernel,
      by decide +kernel⟩
  obtain ⟨hprobation, hcache⟩ := (hall n s' hruns).stored [7] [9]
    ⟨by decide, rfl, rfl, ⟨wordOK, rfl, by decide⟩, haccepts⟩
  exact ⟨n, s', hruns, hprobation, by rw [hcache]; rfl⟩

end Service
end Slizen
