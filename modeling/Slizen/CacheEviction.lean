import Slizen.CacheRuns
import Slizen.Selection

namespace Slizen.Cache
set_option autoImplicit true

def sizeOf (c : Cache) (k : Key) : Int := (c.find k).elim 0 Entry.estimatedSize

/-- The keys of a list have room in a cache if their entries have these sizes. -/
def HasRoom (c : Cache) (size : Key → Int) (keys : List Key) : Prop :=
  (keys.map size).sum ≤ c.maxBytes ∧ (0 < c.maxEntries → keys.length ≤ c.maxEntries)

theorem hasRoom_congr {c c' : Cache} (hl : c'.limits = c.limits)
    (hs : ∀ k ∈ keys, size' k = size k) : c'.HasRoom size' keys ↔ c.HasRoom size keys := by
  obtain ⟨hb, he⟩ := Prod.mk.inj hl
  rw [HasRoom, HasRoom, hb, he, List.map_congr_left hs]

theorem sum_sizeOf (c : Cache) : (c.items.keys.map c.sizeOf).sum = total c.items := by
  have hmap : c.items.keys.map c.sizeOf = c.items.entries.map fun s => s.2.estimatedSize := by
    show (c.items.entries.map Sigma.fst).map c.sizeOf = _
    rw [List.map_map]
    apply List.map_congr_left
    intro s hs
    have hf : c.find s.1 = some s.2 := AList.mem_lookup_iff.2 hs
    simp only [Function.comp_apply, sizeOf, hf, Option.elim_some]
  rw [hmap, total]

theorem Rep.sum_lru {c : Cache} (h : c.Rep) : (c.lru.map c.sizeOf).sum = c.bytes := by
  rw [(h.perm.map c.sizeOf).sum_eq, sum_sizeOf, h.bytes]

theorem Rep.lru_nodup {c : Cache} (h : c.Rep) : c.lru.Nodup :=
  h.perm.nodup_iff.2 c.items.keys_nodup

theorem Rep.mem_lru {c : Cache} (h : c.Rep) : k ∈ c.lru ↔ ∃ e, c.find k = some e := by
  rw [h.perm.mem_iff, ← Option.isSome_iff_exists]
  exact AList.lookup_isSome.symm

theorem Rep.overLimits_iff {c : Cache} (h : c.Rep) :
    c.overLimits = false ↔ c.HasRoom c.sizeOf c.lru := by
  rw [overLimits_eq_false, HasRoom, h.sum_lru, h.perm.length_eq]

theorem lru_removeElementLocked {c : Cache} (h : c.Rep) (key : Key) :
    (c.removeElementLocked key).lru = c.lru.erase key := by
  rw [removeElementLocked]
  cases hf : c.find key with
  | some ent => rfl
  | none =>
    have hnot : key ∉ c.lru := by
      rw [h.mem_lru, hf]
      rintro ⟨e, he⟩
      cases he
    exact (List.erase_of_not_mem hnot).symm

theorem lru_evict {c : Cache} (h : c.Rep) (hl : c.lru = keys ++ [oldest]) :
    (c.evict oldest).lru = keys := by
  have hnodup : oldest ∉ keys := by
    have := h.lru_nodup
    rw [hl, List.nodup_append] at this
    intro hm
    exact this.2.2 oldest hm oldest (by simp) rfl
  show (c.removeElementLocked oldest).lru = keys
  rw [lru_removeElementLocked h, hl, List.erase_append_right _ hnodup]
  simp

theorem sizeOf_evict {c : Cache} (h : k ≠ oldest) : (c.evict oldest).sizeOf k = c.sizeOf k := by
  rw [sizeOf, find_evict, find_removeElementLocked, if_neg h, sizeOf]

/-- What the eviction loop has made of a cache: it keeps the longest part of the recency list that
has room, leaves the entries kept as they are and counts the others. -/
structure Trimmed (c c' : Cache) : Prop where
  keeps : LongestPrefix (c.HasRoom c.sizeOf) c.lru c'.lru
  counts : c'.evictions + c'.lru.length = c.evictions + c.lru.length
  same : ∀ k ∈ c'.lru, c'.find k = c.find k

theorem Trimmed.evict {c : Cache} (h : c.Rep) (hl : c.lru = keys ++ [oldest])
    (hover : ¬ c.HasRoom c.sizeOf c.lru) (ht : Trimmed (c.evict oldest) c') : Trimmed c c' := by
  have hkeys := lru_evict h hl
  have hnot : oldest ∉ keys := by
    have hm : oldest ∉ (c.removeElementLocked oldest).lru := by
      rw [(h.removeElementLocked oldest).mem_lru, find_removeElementLocked, if_pos rfl]
      rintro ⟨e, he⟩
      cases he
    rwa [show (c.removeElementLocked oldest).lru = keys from hkeys] at hm
  constructor
  · rw [hl]
    apply LongestPrefix.concat (hl ▸ hover)
    have hk := ht.keeps
    rw [hkeys] at hk
    refine hk.congr fun q hq => hasRoom_congr (limits_evict c oldest) fun k hm => sizeOf_evict ?_
    rintro rfl
    exact hnot (hq.subset hm)
  · have hc := ht.counts
    have he : (c.evict oldest).evictions = c.evictions + 1 := rfl
    rw [hkeys, he] at hc
    rw [hl, List.length_append, List.length_singleton]
    omega
  · intro k hk
    rw [ht.same k hk, find_evict, find_removeElementLocked, if_neg]
    rintro rfl
    exact hnot (hkeys ▸ ht.keeps.initial.subset hk)

theorem trimmed_enforceLimitsLoop {c : Cache} (h : c.Rep) (h₀ : 0 ≤ c.maxBytes)
    (l : List Key) (hl : c.lru = l.reverse) : Trimmed c (c.enforceLimitsLoop l) := by
  have hstop : c.HasRoom c.sizeOf c.lru → Trimmed c c :=
    fun hroom => ⟨.self hroom, rfl, fun _ _ => rfl⟩
  induction l generalizing c with
  | nil =>
    apply hstop
    rw [hl]
    refine ⟨h₀, fun hp => ?_⟩
    exact hp.le
  | cons oldest rest ih =>
    rw [enforceLimitsLoop]
    split
    · rename_i ho
      have hl' : c.lru = rest.reverse ++ [oldest] := by rw [hl, List.reverse_cons]
      have hover : ¬ c.HasRoom c.sizeOf c.lru := by
        rw [← h.overLimits_iff, ho]
        simp
      apply Trimmed.evict h hl' hover
      apply ih (h.evict oldest)
      · exact h₀.trans_eq (congrArg Prod.fst (limits_evict c oldest)).symm
      · exact lru_evict h hl'
      · exact fun hroom => ⟨.self hroom, rfl, fun _ _ => rfl⟩
    · rename_i ho
      exact hstop (h.overLimits_iff.1 (Bool.not_eq_true _ ▸ ho))

theorem trimmed_enforceLimitsLocked {c : Cache} (h : c.Rep) (h₀ : 0 ≤ c.maxBytes) :
    Trimmed c c.enforceLimitsLocked :=
  trimmed_enforceLimitsLoop h h₀ _ (List.reverse_reverse _).symm

theorem lru_store {c : Cache} (h : c.Rep) (key : Key) (ent : Entry) :
    (c.store key ent).lru = key :: c.lru.erase key := by
  rw [store]
  cases hf : c.find key with
  | some old => rfl
  | none =>
    have hnot : key ∉ c.lru := by
      rw [h.mem_lru, hf]
      rintro ⟨e, he⟩
      cases he
    show key :: c.lru = _
    rw [List.erase_of_not_mem hnot]

def sizesWith (c : Cache) (key : Key) (value : Blob) (k : Key) : Int :=
  if k = key then estimateSize key value else c.sizeOf k

theorem sizeOf_store (c : Cache) (key k : Key) (ent : Entry)
    (hs : ent.estimatedSize = estimateSize key value) :
    (c.store key ent).sizeOf k = c.sizesWith key value k := by
  rw [sizeOf, find_store, sizesWith]
  split
  · exact hs
  · rfl

/-- A value that is stored is the most recent, and the least recent ones make room for it. -/
structure Stored (c c' : Cache) (key : Key) (value : Blob) (now expiresAt : Time) : Prop where
  keeps : LongestPrefix (c.HasRoom (c.sizesWith key value)) (key :: c.lru.erase key) c'.lru
  survives : key ∈ c'.lru
  found : c'.find key = some ⟨value, now, expiresAt, now, estimateSize key value⟩
  others : ∀ k ∈ c'.lru, k ≠ key → c'.find k = c.find k
  dropped : ∀ k, k ∉ c'.lru → c'.find k = none
  counts : c'.evictions = c.evictions + ((key :: c.lru.erase key).length - c'.lru.length)

theorem WF.stored {c : Cache} (h : c.WF) (hfit : estimateSize key value ≤ c.maxBytes) :
    Stored c (c.store key ⟨value, now, expiresAt, now, estimateSize key value⟩).enforceLimitsLocked
      key value now expiresAt := by
  have hrep : (c.store key ⟨value, now, expiresAt, now, estimateSize key value⟩).Rep :=
    h.toRep.store _ rfl
  have hlru := lru_store h.toRep key ⟨value, now, expiresAt, now, estimateSize key value⟩
  have hlim := limits_store c key ⟨value, now, expiresAt, now, estimateSize key value⟩
  have hev := evictions_store c key ⟨value, now, expiresAt, now, estimateSize key value⟩
  have hsize := fun k => sizeOf_store c key k
    ⟨value, now, expiresAt, now, estimateSize key value⟩ rfl
  have hfind := fun k => find_store c key k ⟨value, now, expiresAt, now, estimateSize key value⟩
  generalize c.store key ⟨value, now, expiresAt, now, estimateSize key value⟩ = s at *
  have hmax : s.maxBytes = c.maxBytes := congrArg Prod.fst hlim
  have ht := trimmed_enforceLimitsLocked hrep (hmax ▸ h.maxBytes_nonneg)
  have hkeeps : LongestPrefix (c.HasRoom (c.sizesWith key value)) (key :: c.lru.erase key)
      s.enforceLimitsLocked.lru := by
    rw [← hlru]
    exact ht.keeps.congr fun q _ => hasRoom_congr hlim fun k _ => hsize k
  have hmem : key ∈ s.enforceLimitsLocked.lru := by
    apply hkeeps.head_mem
    refine ⟨by simpa [sizesWith] using hfit, fun hp => ?_⟩
    exact hp
  refine ⟨hkeeps, hmem, ?_, ?_, ?_, ?_⟩
  · rw [ht.same key hmem, hfind, if_pos rfl]
  · intro k hk hne
    rw [ht.same k hk, hfind, if_neg hne]
  · intro k hk
    cases hf : s.enforceLimitsLocked.find k with
    | none => rfl
    | some e => exact absurd ((hrep.enforceLimitsLoop _).mem_lru.2 ⟨e, hf⟩) hk
  · have hc := ht.counts
    have hle := ht.keeps.initial.length_le
    rw [hlru] at hc hle
    rw [hev] at hc
    omega

theorem Stored.get {c c' : Cache} (h : Stored c c' key value now expiresAt) (ht : t < expiresAt) :
    ∃ item, (c'.get key t).1 = some item ∧ item.value = value := by
  have hlim : ¬ ¬ t < Entry.expiryLimit
      ⟨value, now, expiresAt, now, estimateSize key value⟩ 0 false :=
    not_not.2 (by simpa [Entry.expiryLimit] using ht)
  rw [Cache.get, getLocked, h.found]
  dsimp only
  rw [if_neg hlim]
  exact ⟨_, rfl, rfl⟩

/-- `put` on any cache that calls can lead to: a stored value comes first in the recency order, of
which the longest part that has room is kept, and a value that is refused only takes its own key
away. -/
theorem put_eviction (maxBytes maxEntries : Int) (ops : List (CacheOp × Time)) (key : Key)
    (value : Blob) (now expiresAt : Time) :
    let c := (new maxBytes maxEntries).serveAll ops
    let c' := (c.putLocked key value now expiresAt).2
    ((c.putLocked key value now expiresAt).1 = true →
      LongestPrefix (c.HasRoom (c.sizesWith key value)) (key :: c.lru.erase key) c'.lru ∧
      (key ∈ c'.lru ∧ ∀ t < expiresAt, ∃ item, (c'.get key t).1 = some item ∧ item.value = value) ∧
      (∀ k ∈ c'.lru, k ≠ key → c'.find k = c.find k) ∧
      (∀ k, k ∉ c'.lru → c'.find k = none) ∧
      c'.evictions = c.evictions + ((key :: c.lru.erase key).length - c'.lru.length)) ∧
    ((c.putLocked key value now expiresAt).1 = false →
      c'.find key = none ∧ (∀ k ≠ key, c'.find k = c.find k) ∧ c'.lru = c.lru.erase key ∧
      c'.evictions = c.evictions) := by
  intro c c'
  have h : c.WF := (wf_new maxBytes maxEntries).serveAll ops
  by_cases hc : c.closed ∨ c.maxBytes ≤ 0 ∨ estimateSize key value > c.maxBytes
  · have hp : c.putLocked key value now expiresAt = (false, c.removeElementLocked key) := by
      rw [putLocked, if_pos hc, removeLocked_snd]
    have hc' : c' = c.removeElementLocked key := congrArg Prod.snd hp
    refine ⟨fun ht => ?_, fun _ => ?_⟩
    · rw [hp] at ht
      cases ht
    · rw [hc']
      refine ⟨?_, ?_, lru_removeElementLocked h.toRep key, evictions_removeElementLocked c key⟩
      · rw [find_removeElementLocked, if_pos rfl]
      · intro k hk
        rw [find_removeElementLocked, if_neg hk]
  · have hp : c.putLocked key value now expiresAt = (true, (c.store key
        ⟨value, now, expiresAt, now, estimateSize key value⟩).enforceLimitsLocked) := by
      rw [putLocked, if_neg hc]
    have hs : Stored c c' key value now expiresAt := by
      rw [show c' = _ from congrArg Prod.snd hp]
      apply h.stored
      push Not at hc
      exact hc.2.2
    refine ⟨fun _ =>
      ⟨hs.keeps, ⟨hs.survives, fun t ht => hs.get ht⟩, hs.others, hs.dropped, hs.counts⟩,
      fun hf => ?_⟩
    rw [hp] at hf
    cases hf

def samplePuts : List (CacheOp × Time) :=
  [(.put [1] ⟨[7], .write 0 0⟩ 5, 0), (.put [2] ⟨[8], .write 0 0⟩ 5, 1)]

/-- With room for two entries, the older of the two makes room for a third. -/
theorem put_eviction_sample :
    (((new 260 0).serveAll samplePuts).putLocked [3] ⟨[9], .write 0 0⟩ 2 9).1 = true ∧
    (((new 260 0).serveAll samplePuts).putLocked [3] ⟨[9], .write 0 0⟩ 2 9).2.lru = [[3], [2]] ∧
    (((new 260 0).serveAll samplePuts).putLocked [3] ⟨[9], .write 0 0⟩ 2 9).2.evictions = 1 := by
  refine ⟨by decide +kernel, by decide +kernel, ?_⟩
  have h := put_eviction 260 0 samplePuts [3] ⟨[9], .write 0 0⟩ 2 9
  rw [(h.1 (by decide +kernel)).2.2.2.2]
  decide +kernel

end Slizen.Cache
