import Slizen.CacheInvariant
import Slizen.Config

namespace Slizen
set_option autoImplicit true

/-- `cacheTierLimits`. -/
structure CacheTierLimits where
  protectedBytes : Int
  protectedEntries : Int
  probationaryBytes : Int
  probationaryEntries : Int
  probationaryEnabled : Bool

def probationaryCacheShare : Int := 8

/-- The probationary part of a limit; Go divides towards zero. -/
def probationaryPart (limit : Int) : Int :=
  if limit.tdiv probationaryCacheShare < 1 then 1 else limit.tdiv probationaryCacheShare

def splitCacheTierLimits (maxBytes maxEntries : Int) : CacheTierLimits :=
  if maxBytes < 2 ∨ maxEntries = 1 then ⟨maxBytes, maxEntries, 0, 0, false⟩
  else if maxBytes - probationaryPart maxBytes < 1 then ⟨maxBytes, maxEntries, 0, 0, false⟩
  else
    { protectedBytes := maxBytes - probationaryPart maxBytes
      protectedEntries :=
        if maxEntries > 1 then maxEntries - probationaryPart maxEntries else maxEntries
      probationaryBytes := probationaryPart maxBytes
      probationaryEntries := if maxEntries > 1 then probationaryPart maxEntries else 0
      probationaryEnabled := true }

theorem probationaryPart_bounds (h : 2 ≤ limit) :
    1 ≤ probationaryPart limit ∧ probationaryPart limit ≤ limit - probationaryPart limit := by
  have hd : limit.tdiv 8 = limit / 8 := Int.tdiv_eq_ediv_of_nonneg (by omega)
  unfold probationaryPart probationaryCacheShare
  rw [hd]
  split <;> omega

/-- The two tiers share out exactly the configured limits; a limit of zero entries means no
limit in both. -/
structure CacheTierLimits.Shares (l : CacheTierLimits) (maxBytes maxEntries : Int) : Prop where
  bytes : l.protectedBytes + l.probationaryBytes = maxBytes
  entries : l.protectedEntries + l.probationaryEntries = maxEntries
  probationary_le : l.probationaryBytes ≤ l.protectedBytes
  nonneg : 0 ≤ l.probationaryBytes
  enabled : l.probationaryEnabled = true → 0 < l.probationaryBytes
  limited : 0 < maxEntries → 0 < l.protectedEntries ∧
    (l.probationaryEnabled = true → 0 < l.probationaryEntries)
  unlimited : maxEntries ≤ 0 → l.protectedEntries ≤ 0 ∧ l.probationaryEntries = 0

theorem splitCacheTierLimits_shares (hb : 0 ≤ maxBytes) (maxEntries : Int) :
    (splitCacheTierLimits maxBytes maxEntries).Shares maxBytes maxEntries := by
  -- Without a probationary tier everything stays with the protected one.
  have hwhole : CacheTierLimits.Shares ⟨maxBytes, maxEntries, 0, 0, false⟩ maxBytes maxEntries :=
    ⟨by simp, by simp, hb, le_refl 0, nofun, fun h => ⟨h, nofun⟩, fun h => ⟨h, rfl⟩⟩
  unfold splitCacheTierLimits
  split
  · exact hwhole
  · rename_i hc
    rw [not_or, Int.not_lt] at hc
    obtain ⟨hpos, hle⟩ := probationaryPart_bounds hc.1
    split
    · exact hwhole
    · by_cases he : maxEntries > 1
      · have hentries : 1 ≤ probationaryPart maxEntries ∧
            probationaryPart maxEntries ≤ maxEntries - probationaryPart maxEntries :=
          probationaryPart_bounds (by omega)
        simp only [if_pos he]
        constructor <;> dsimp only <;> omega
      · simp only [if_neg he]
        constructor <;> dsimp only <;> omega

theorem splitCacheTierLimits_whole
    (h : (splitCacheTierLimits maxBytes maxEntries).probationaryEnabled = false) :
    splitCacheTierLimits maxBytes maxEntries = ⟨maxBytes, maxEntries, 0, 0, false⟩ := by
  unfold splitCacheTierLimits at h ⊢
  split
  · rfl
  · rename_i hc
    rw [if_neg hc] at h
    split
    · rfl
    · rename_i hc'
      rw [if_neg hc'] at h
      cases h

theorem splitCacheTierLimits_disabled
    (h : (splitCacheTierLimits maxBytes maxEntries).probationaryEnabled = false) :
    (splitCacheTierLimits maxBytes maxEntries).probationaryBytes = 0 := by
  rw [splitCacheTierLimits_whole h]

theorem splitCacheTierLimits_fits (maxBytes maxEntries : Int) :
    let l := splitCacheTierLimits maxBytes maxEntries
    (Cache.new l.probationaryBytes l.probationaryEntries).maxBytes ≤
      (Cache.new l.protectedBytes l.protectedEntries).maxBytes := by
  intro l
  by_cases hb : 0 ≤ maxBytes
  · have hs := splitCacheTierLimits_shares hb maxEntries
    rw [Cache.new, Cache.new, if_neg (not_lt.2 hs.nonneg),
      if_neg (not_lt.2 (hs.nonneg.trans hs.probationary_le))]
    exact hs.probationary_le
  · have hl : l = ⟨maxBytes, maxEntries, 0, 0, false⟩ := if_pos (.inl (by omega))
    rw [hl]
    exact (Cache.wf_new _ _).maxBytes_nonneg

/-- `combinedCacheStats`; `none` stands for a service without a probationary tier. -/
def combinedCacheStats (protectedStats : CacheStats) : Option CacheStats → CacheStats
  | none => protectedStats
  | some candidate =>
    { entries := protectedStats.entries + candidate.entries
      bytes := protectedStats.bytes + candidate.bytes
      maxBytes := protectedStats.maxBytes + candidate.maxBytes
      evictions := protectedStats.evictions + candidate.evictions }

/-- A report that stays within a byte limit and an entry limit, and names the byte limit. -/
structure CacheStats.Bounded (st : CacheStats) (maxBytes maxEntries : Int) : Prop where
  bytes : st.bytes ≤ maxBytes
  entries : 0 < maxEntries → st.entries ≤ maxEntries
  maxBytes : st.maxBytes = maxBytes

theorem Cache.stats_bounded {c : Cache} (h : c.WF) : c.stats.Bounded c.maxBytes c.maxEntries :=
  ⟨h.bytes_le, h.entries_le, rfl⟩

end Slizen
