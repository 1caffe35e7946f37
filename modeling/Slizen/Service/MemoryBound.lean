import Slizen.Service.Promotion
import Slizen.Service.Recency
import Slizen.Service.Residency

namespace Slizen
set_option autoImplicit true

open Interleaving Machine

theorem Cache.WF.keys_eq_nil {c : Cache} (h : c.WF) (h₀ : c.maxBytes ≤ 0) : c.items.keys = [] := by
  rw [List.eq_nil_iff_forall_not_mem]
  intro k hk
  obtain ⟨e, he⟩ := Option.isSome_iff_exists.1 (AList.lookup_isSome.2 hk)
  have hnone := h.find_eq_none h₀ k
  rw [Cache.find, he] at hnone
  cases hnone

namespace Service

variable {svc : Service} {direct : Bool} {content : Key → Option Bytes} {g : svc.machine.Config}
  {s s' : World} {t u : Nat} {k : Key} {a : Action} {b : a.Resp} {c : Choice}

/-- Two numbers of bytes and of entries stay within the configured limits. -/
structure Within (svc : Service) (bytes entries : Int) : Prop where
  bytes : bytes ≤ svc.cfg.cache.maxBytes
  entries : 0 < svc.cfg.cache.maxEntries → entries ≤ svc.cfg.cache.maxEntries

theorem shares (hv : svc.cfg.validate = []) :
    svc.limits.Shares svc.cfg.cache.maxBytes svc.cfg.cache.maxEntries :=
  splitCacheTierLimits_shares (Config.accepted hv).maxBytes.le _

theorem newTier_cache_maxBytes (hv : svc.cfg.validate = []) :
    (svc.newTier .cache).maxBytes = svc.limits.protectedBytes := by
  have hs := svc.shares hv
  exact if_neg (not_lt.2 (hs.nonneg.trans hs.probationary_le))

theorem newTier_probationary_maxBytes (hv : svc.cfg.validate = []) :
    (svc.newTier .probationary).maxBytes = svc.limits.probationaryBytes :=
  if_neg (not_lt.2 (svc.shares hv).nonneg)

theorem Within.combined (hv : svc.cfg.validate = []) {p q : CacheStats}
    (hp : p.Bounded (svc.newTier .cache).maxBytes (svc.newTier .cache).maxEntries)
    (hq : q.Bounded (svc.newTier .probationary).maxBytes (svc.newTier .probationary).maxEntries) :
    let st := combinedCacheStats p (if svc.hasProbationary then some q else none)
    svc.Within st.bytes st.entries ∧ st.maxBytes = svc.cfg.cache.maxBytes := by
  have hs := svc.shares hv
  have hpb := hp.bytes
  have hqb := hq.bytes
  have hpm := hp.maxBytes
  have hqm := hq.maxBytes
  rw [newTier_cache_maxBytes hv] at hpb hpm
  rw [newTier_probationary_maxBytes hv] at hqb hqm
  have hpe : 0 < svc.limits.protectedEntries → (p.entries : Int) ≤ svc.limits.protectedEntries :=
    hp.entries
  have hqe : 0 < svc.limits.probationaryEntries →
      (q.entries : Int) ≤ svc.limits.probationaryEntries := hq.entries
  have hbytes := hs.bytes
  have hentries := hs.entries
  by_cases hprob : svc.hasProbationary = true
  · rw [if_pos hprob]
    refine ⟨⟨?_, ?_⟩, ?_⟩
    · show p.bytes + q.bytes ≤ _
      omega
    · intro hpos
      obtain ⟨hfirst, hsecond⟩ := hs.limited hpos
      have hple := hpe hfirst
      have hqle := hqe (hsecond hprob)
      show ((p.entries + q.entries : Nat) : Int) ≤ _
      omega
    · show p.maxBytes + q.maxBytes = _
      omega
  · rw [if_neg hprob]
    have hwhole : svc.limits = ⟨svc.cfg.cache.maxBytes, svc.cfg.cache.maxEntries, 0, 0, false⟩ :=
      splitCacheTierLimits_whole ((Bool.not_eq_true _).mp hprob)
    rw [hwhole] at hpb hpm hpe
    exact ⟨⟨hpb, hpe⟩, hpm⟩

theorem stats_tier (hi : svc.Base s) (tier : Tier) :
    (s.tiers tier).stats.Bounded (svc.newTier tier).maxBytes (svc.newTier tier).maxEntries := by
  obtain ⟨hbytes, hentries⟩ := Prod.mk.inj (hi.limits tier)
  rw [← hbytes, ← hentries]
  exact Cache.stats_bounded (hi.wf tier)

theorem Base.within (hi : svc.Base s) (hv : svc.cfg.validate = []) :
    svc.Within ((s.tiers .cache).bytes + (s.tiers .probationary).bytes)
      ((s.tiers .cache).items.keys.length + (s.tiers .probationary).items.keys.length) := by
  have hcombined := (Within.combined hv (stats_tier hi .cache) (stats_tier hi .probationary)).1
  by_cases hprob : svc.hasProbationary = true
  · rw [if_pos hprob] at hcombined
    refine ⟨hcombined.bytes, fun hpos => ?_⟩
    have hentries := hcombined.entries hpos
    dsimp only [combinedCacheStats, Cache.stats] at hentries
    rw [Nat.cast_add] at hentries
    exact hentries
  · rw [if_neg hprob] at hcombined
    have hroom : (s.tiers .probationary).maxBytes ≤ 0 := by
      rw [(Prod.mk.inj (hi.limits .probationary)).1, newTier_probationary_maxBytes hv]
      exact (splitCacheTierLimits_disabled ((Bool.not_eq_true _).mp hprob)).le
    have hbytes := (hi.wf .probationary).bytes_le.trans hroom
    have hkeys := (hi.wf .probationary).keys_eq_nil hroom
    constructor
    · exact (add_le_add_right hbytes _).trans (by rw [add_zero]; exact hcombined.bytes)
    · intro hpos
      rw [hkeys, List.length_nil, Nat.cast_zero, add_zero]
      exact hcombined.entries hpos

/-- The reports that calls have returned stay within the limits as well. -/
def Reports (svc : Service) : Job → Reply → Prop
  | .status, .status status => svc.Within status.cacheBytes status.cacheEntries
  | .cacheInfo, .cacheInfo info =>
    svc.Within info.bytes info.entries ∧ info.maxBytes = svc.cfg.cache.maxBytes
  | _, _ => True

theorem Returns.reports {job : Job} {reply : Reply} (hv : svc.cfg.validate = [])
    (h : svc.Returns s t job reply) : svc.Reports job reply := by
  unfold Reports
  split
  · obtain ⟨st, ⟨p, q, hp, hq, rfl⟩, hbytes, hentries⟩ := h
    rw [hbytes, hentries]
    exact (Within.combined hv hp hq).1
  · obtain ⟨st, ⟨p, q, hp, hq, rfl⟩, rfl⟩ := h
    exact Within.combined hv hp hq
  · trivial

theorem Reachable.replied {R : Job → Reply → Prop} (h : svc.Reachable direct content g)
    (hR : ∀ s t job reply, svc.Returns s t job reply → R job reply) (t : Nat) (m : Moment)
    (reply : Reply) (job : Job) (hd : (g.state.trace t).done = some (m, reply))
    (hcall : (g.state.trace t).call = some job) : R job reply := by
  have hj : Orderly g.state ∧ ∀ t m reply job, (g.state.trace t).done = some (m, reply) →
      (g.state.trace t).call = some job → R job reply := by
    apply h.invariant (J := fun s => Orderly s ∧ ∀ t m reply job,
      (s.trace t).done = some (m, reply) → (s.trace t).call = some job → R job reply)
    · refine ⟨Reachable.orderly (g := ⟨_, []⟩) (.refl : svc.Reachable direct content _), ?_⟩
      intro t m reply job hd
      cases hd
    · intro v a c b s s' hi hj hp he
      refine ⟨hj.1.act hi hp he, ?_⟩
      intro t m reply job hd hcall
      by_cases hd₀ : (s.trace t).done = none
      · exact hR s t job reply (returned_now hj.1 hp he hd₀ hd hcall).1
      · have hfrozen := Service.frozen hj.1 hp he hd₀
        exact hj.2 t m reply job (hfrozen.done.symm.trans hd) (hfrozen.call.symm.trans hcall)
    · intro e s s' _ hj _ he
      rw [World.env_eq he]
      exact ⟨⟨hj.1.gates, hj.1.gated, hj.1.underway, hj.1.refused⟩, hj.2⟩
  exact hj.2 t m reply job hd hcall

theorem Reachable.carried_fits (h : svc.Reachable direct content g) (t : Nat) (x : Candidate)
    (hx : (g.state.trace t).carried = some x) :
    estimateSize x.key x.value ≤ (svc.newTier .probationary).maxBytes := by
  have hj : ∀ t x, (g.state.trace t).carried = some x →
      estimateSize x.key x.value ≤ (svc.newTier .probationary).maxBytes := by
    apply h.invariant (J := fun s => ∀ t x, (s.trace t).carried = some x →
      estimateSize x.key x.value ≤ (svc.newTier .probationary).maxBytes)
    · exact nofun
    · intro v a c b s s' hi hj hp he t x hx
      rcases carried_source he hx with ⟨hx₀, -⟩ | ⟨-, e, -, hf, hxe, -⟩
      · exact hj t x hx₀
      · have hvalue : x.value = e.value := congrArg Candidate.value hxe
        rw [hvalue, ← (Prod.mk.inj (hi.limits .probationary)).1,
          ← (hi.wf .probationary).size _ e hf]
        exact (hi.wf .probationary).size_le hf
    · intro e s s' _ hj _ he
      rw [World.env_eq he]
      exact hj
  exact hj t x hx

/-- The global memory bound. In every run of a service with an accepted configuration the two tiers
together keep the configured limits, and so does every report, though it looks at one tier after the
other. What fits the probationary tier fits the protected one, and the promotion of a candidate that
has not expired succeeds unless the cache is closed. -/
theorem memory_bound (hv : svc.cfg.validate = []) (h : svc.Reachable direct content g) :
    (let p := g.state.tiers .cache
     let q := g.state.tiers .probationary
     p.bytes + q.bytes ≤ svc.cfg.cache.maxBytes ∧ (0 < svc.cfg.cache.maxEntries →
       (p.items.keys.length : Int) + q.items.keys.length ≤ svc.cfg.cache.maxEntries)) ∧
    (∀ t m status, (g.state.trace t).call = some .status →
      (g.state.trace t).done = some (m, .status status) →
        status.cacheBytes ≤ svc.cfg.cache.maxBytes ∧ (0 < svc.cfg.cache.maxEntries →
          (status.cacheEntries : Int) ≤ svc.cfg.cache.maxEntries)) ∧
    (∀ t m info, (g.state.trace t).call = some .cacheInfo →
      (g.state.trace t).done = some (m, .cacheInfo info) →
        info.bytes ≤ svc.cfg.cache.maxBytes ∧ (0 < svc.cfg.cache.maxEntries →
          (info.entries : Int) ≤ svc.cfg.cache.maxEntries) ∧
        info.maxBytes = svc.cfg.cache.maxBytes) ∧
    (∀ k v, estimateSize k v ≤ (g.state.tiers .probationary).maxBytes →
      estimateSize k v ≤ (g.state.tiers .cache).maxBytes) ∧
    ∀ t tier k v expiresAt p, g.pool[t]? = some (.act (.cache tier (.putUntil k v expiresAt)) p) →
      (g.state.tiers .cache).closed = false → g.state.clock < expiresAt →
        ∀ c stored s, World.exec t (.cache tier (.putUntil k v expiresAt)) c g.state =
          some (stored, s) → stored = true := by
  have hi := h.base
  have hfits : (svc.newTier .probationary).maxBytes ≤ (svc.newTier .cache).maxBytes :=
    splitCacheTierLimits_fits _ _
  have hlimit : ∀ tier, (g.state.tiers tier).maxBytes = (svc.newTier tier).maxBytes :=
    fun tier => (Prod.mk.inj (hi.limits tier)).1
  have hreply := h.replied (R := svc.Reports) fun _ _ _ _ hr => hr.reports hv
  refine ⟨⟨(hi.within hv).bytes, (hi.within hv).entries⟩, ?_, ?_, ?_, ?_⟩
  · intro t m status hcall hd
    have hw : svc.Within status.cacheBytes status.cacheEntries := hreply t m _ _ hd hcall
    exact ⟨hw.bytes, hw.entries⟩
  · intro t m info hcall hd
    obtain ⟨hw, hmax⟩ : svc.Within info.bytes info.entries ∧ _ := hreply t m _ _ hd hcall
    exact ⟨hw.bytes, hw.entries, hmax⟩
  · intro k v hsize
    rw [hlimit] at hsize ⊢
    exact hsize.trans hfits
  · intro t tier k v expiresAt p hp hopen hclock c stored s he
    obtain ⟨-, ⟨l, hl⟩, rfl, -⟩ : svc.Pre t (.cache tier (.putUntil k v expiresAt)) g.state :=
      h.verified.pre h hp
    have hsize := (h.carried_fits t _ hl).trans hfits
    rw [← hlimit .cache] at hsize
    have hk : k ≠ [] := (h.resident.carried t _ hl).key.1
    obtain ⟨rfl, -⟩ := World.exec_cache he
    exact (Cache.putUntil_room (hi.wf .cache) hopen hk hclock hsize).1

theorem memory_bound_sample :
    (samplePromoted.state.tiers .cache).bytes + (samplePromoted.state.tiers .probationary).bytes ≤
      sample.cfg.cache.maxBytes ∧ 0 < (samplePromoted.state.tiers .cache).bytes := by
  have hv : sample.cfg.validate = [] := by decide +kernel
  exact ⟨(memory_bound hv samplePromoted_reachable).1.1, by decide +kernel⟩

end Service
end Slizen
