import Slizen.CacheRuns
import Mathlib.Data.Option.Defs

namespace Slizen
set_option autoImplicit true

def SameLength (b b' : Bytes) : Prop := b.length = b'.length

def Blob.Alike (v v' : Blob) : Prop := SameLength v.bytes v'.bytes

def Entry.Alike (e e' : Entry) : Prop := ∃ v, e.value.Alike v ∧ e' = { e with value := v }

def EntrySnapshot.Alike (item item' : EntrySnapshot) : Prop :=
  ∃ v, item.value.Alike v ∧ item' = { item with value := v }

theorem estimateSize_alike {v v' : Blob} (h : v.Alike v') (key : Key) :
    estimateSize key v = estimateSize key v' := by
  have h : v.bytes.length = v'.bytes.length := h
  rw [estimateSize, estimateSize, h]

namespace Cache

/-- Two caches that only differ in the bytes of the values they hold. -/
structure Alike (c c' : Cache) : Prop where
  maxBytes : c.maxBytes = c'.maxBytes
  maxEntries : c.maxEntries = c'.maxEntries
  lru : c.lru = c'.lru
  bytes : c.bytes = c'.bytes
  evictions : c.evictions = c'.evictions
  closed : c.closed = c'.closed
  keys : c.items.keys = c'.items.keys
  find : ∀ k, Option.Rel Entry.Alike (c.find k) (c'.find k)

variable {c c' : Cache}

theorem alike_new (b n : Int) : (new b n).Alike (new b n) :=
  ⟨rfl, rfl, rfl, rfl, rfl, rfl, rfl, fun _ => .none⟩

theorem Alike.purge (h : c.Alike c') : c.purge.Alike c'.purge :=
  ⟨h.maxBytes, h.maxEntries, rfl, rfl, h.evictions, h.closed, rfl, fun _ => .none⟩

theorem Alike.close (h : c.Alike c') : c.close.Alike c'.close :=
  ⟨h.maxBytes, h.maxEntries, rfl, rfl, h.evictions, rfl, rfl, fun _ => .none⟩

theorem Alike.find_cases (h : c.Alike c') (key : Key) :
    c.find key = none ∧ c'.find key = none ∨
      ∃ e v, c.find key = some e ∧ e.value.Alike v ∧ c'.find key = some { e with value := v } := by
  have hfind := h.find key
  generalize c.find key = x, c'.find key = x' at hfind ⊢
  cases hfind with
  | none => exact .inl ⟨rfl, rfl⟩
  | some he =>
    obtain ⟨v, hv, rfl⟩ := he
    exact .inr ⟨_, v, rfl, hv, rfl⟩

theorem Alike.removeElementLocked (h : c.Alike c') (key : Key) :
    (c.removeElementLocked key).Alike (c'.removeElementLocked key) := by
  have hfind : ∀ k, Option.Rel Entry.Alike ((c.removeElementLocked key).find k)
      ((c'.removeElementLocked key).find k) := by
    intro k
    rw [find_removeElementLocked, find_removeElementLocked]
    split
    · exact .none
    · exact h.find k
  rw [Cache.removeElementLocked, Cache.removeElementLocked] at hfind ⊢
  rcases h.find_cases key with ⟨hf, hf'⟩ | ⟨e, v, hf, -, hf'⟩
  · simpa only [hf, hf'] using h
  · simp only [hf, hf'] at hfind ⊢
    exact ⟨h.maxBytes, h.maxEntries, congrArg (List.erase · key) h.lru,
      congrArg (· - e.estimatedSize) h.bytes, h.evictions, h.closed,
      by simp only [AList.keys_erase, h.keys], hfind⟩

theorem Alike.removeLocked (h : c.Alike c') (key : Key) :
    (c.removeLocked key).1 = (c'.removeLocked key).1 ∧
      (c.removeLocked key).2.Alike (c'.removeLocked key).2 := by
  constructor
  · rw [Cache.removeLocked, Cache.removeLocked]
    rcases h.find_cases key with ⟨hf, hf'⟩ | ⟨e, v, hf, -, hf'⟩ <;> rw [hf, hf']
  · rw [removeLocked_snd, removeLocked_snd]
    exact h.removeElementLocked key

theorem Alike.overLimits (h : c.Alike c') : c.overLimits = c'.overLimits := by
  rw [Cache.overLimits, Cache.overLimits, h.bytes, h.maxBytes, h.maxEntries, h.keys]

theorem Alike.evict (h : c.Alike c') (oldest : Key) : (c.evict oldest).Alike (c'.evict oldest) :=
  { h.removeElementLocked oldest with evictions := congrArg (· + 1) h.evictions }

theorem Alike.enforceLimitsLoop (h : c.Alike c') (l : List Key) :
    (c.enforceLimitsLoop l).Alike (c'.enforceLimitsLoop l) := by
  induction l generalizing c c' with
  | nil => exact h
  | cons oldest rest ih =>
    rw [Cache.enforceLimitsLoop, Cache.enforceLimitsLoop, h.overLimits]
    split
    · exact ih (h.evict oldest)
    · exact h

theorem Alike.store (h : c.Alike c') (he : e.Alike e') (key : Key) :
    (c.store key e).Alike (c'.store key e') := by
  have hfind : ∀ k, Option.Rel Entry.Alike ((c.store key e).find k) ((c'.store key e').find k) := by
    intro k
    rw [find_store, find_store]
    split
    · exact .some he
    · exact h.find k
  obtain ⟨w, -, rfl⟩ := he
  rw [Cache.store, Cache.store] at hfind ⊢
  rcases h.find_cases key with ⟨hf, hf'⟩ | ⟨old, v, hf, -, hf'⟩
  · simp only [hf, hf'] at hfind ⊢
    exact ⟨h.maxBytes, h.maxEntries, congrArg (key :: ·) h.lru,
      congrArg (· + e.estimatedSize) h.bytes, h.evictions, h.closed,
      by simp only [AList.keys_insert, h.keys], hfind⟩
  · simp only [hf, hf'] at hfind ⊢
    exact ⟨h.maxBytes, h.maxEntries, congrArg (fun l => key :: List.erase l key) h.lru,
      congrArg (· - old.estimatedSize + e.estimatedSize) h.bytes, h.evictions, h.closed,
      by simp only [AList.keys_insert, h.keys], hfind⟩

theorem Alike.touch (h : c.Alike c') (he : e.Alike e') (key : Key) (now : Time) :
    (c.touch key e now).Alike (c'.touch key e' now) := by
  refine ⟨h.maxBytes, h.maxEntries, congrArg (fun l => key :: List.erase l key) h.lru, h.bytes,
    h.evictions, h.closed, by simp only [Cache.touch, AList.keys_insert, h.keys], ?_⟩
  intro k
  rw [find_touch, find_touch]
  split
  · obtain ⟨v, hv, rfl⟩ := he
    exact .some ⟨v, hv, rfl⟩
  · exact h.find k

theorem Alike.putLocked (h : c.Alike c') (hv : v.Alike v') (key : Key) (now expiresAt : Time) :
    (c.putLocked key v now expiresAt).1 = (c'.putLocked key v' now expiresAt).1 ∧
      (c.putLocked key v now expiresAt).2.Alike (c'.putLocked key v' now expiresAt).2 := by
  rw [Cache.putLocked, Cache.putLocked, h.closed, h.maxBytes, estimateSize_alike hv]
  split
  · exact ⟨rfl, (h.removeLocked key).2⟩
  · have hstore := h.store (e := ⟨v, now, expiresAt, now, estimateSize key v'⟩) ⟨v', hv, rfl⟩ key
    refine ⟨rfl, ?_⟩
    dsimp only
    rw [enforceLimitsLocked, enforceLimitsLocked, hstore.lru]
    exact hstore.enforceLimitsLoop _

theorem Alike.getLocked (h : c.Alike c') (key : Key) (grace : Time) (allowStale : Bool)
    (now : Time) :
    Option.Rel EntrySnapshot.Alike (c.getLocked key grace allowStale now).1
        (c'.getLocked key grace allowStale now).1 ∧
      (c.getLocked key grace allowStale now).2.Alike (c'.getLocked key grace allowStale now).2 := by
  rw [Cache.getLocked, Cache.getLocked]
  rcases h.find_cases key with ⟨hf, hf'⟩ | ⟨e, v, hf, hv, hf'⟩
  · rw [hf, hf']
    exact ⟨.none, h⟩
  · have hlimit : ({ e with value := v } : Entry).expiryLimit grace allowStale =
        e.expiryLimit grace allowStale := rfl
    simp only [hf, hf', hlimit]
    split
    · split
      · exact ⟨.none, h.removeElementLocked key⟩
      · exact ⟨.none, h⟩
    · exact ⟨.some ⟨v, hv, rfl⟩, h.touch ⟨v, hv, rfl⟩ key now⟩

theorem Alike.inspect (h : c.Alike c') (key : Key) (now : Time) :
    Option.Rel EntrySnapshot.Alike (c.inspect key now) (c'.inspect key now) := by
  rw [Cache.inspect, Cache.inspect]
  rcases h.find_cases key with ⟨hf, hf'⟩ | ⟨e, v, hf, hv, hf'⟩
  · rw [hf, hf']
    exact .none
  · simp only [hf, hf']
    split
    · exact .none
    · exact .some ⟨v, hv, rfl⟩

theorem Alike.stats (h : c.Alike c') : c.stats = c'.stats := by
  rw [Cache.stats, Cache.stats, h.keys, h.bytes, h.maxBytes, h.evictions]

end Cache

/-- Two cache calls that only differ in the bytes of a value, and what their answers then have in
common. -/
inductive CacheOp.Alike : (op op' : CacheOp) → (op.Resp → op'.Resp → Prop) → Prop
  | get (key : Key) : Alike (.get key) (.get key) (Option.Rel EntrySnapshot.Alike)
  | getStale (key : Key) (grace : Time) :
      Alike (.getStale key grace) (.getStale key grace) (Option.Rel EntrySnapshot.Alike)
  | inspect (key : Key) : Alike (.inspect key) (.inspect key) (Option.Rel EntrySnapshot.Alike)
  | put (key : Key) (ttl : Time) {v v' : Blob} (h : v.Alike v') :
      Alike (.put key v ttl) (.put key v' ttl) Eq
  | putUntil (key : Key) (expiresAt : Time) {v v' : Blob} (h : v.Alike v') :
      Alike (.putUntil key v expiresAt) (.putUntil key v' expiresAt) Eq
  | delete (key : Key) : Alike (.delete key) (.delete key) Eq
  | stats : Alike .stats .stats Eq
  | purge : Alike .purge .purge Eq
  | close : Alike .close .close Eq

theorem CacheOp.Alike.run {op op' : CacheOp} {ρ : op.Resp → op'.Resp → Prop} {c c' : Cache}
    (ho : CacheOp.Alike op op' ρ) (h : c.Alike c') (hnow : now = now') :
    ρ (op.run c now).1 (op'.run c' now').1 ∧ (op.run c now).2.Alike (op'.run c' now').2 := by
  subst hnow
  cases ho with
  | get key => exact h.getLocked key 0 false now
  | getStale key grace => exact h.getLocked key grace true now
  | inspect key => exact ⟨h.inspect key now, h⟩
  | put key ttl hv =>
    rw [CacheOp.run, CacheOp.run, Cache.put, Cache.put]
    split
    · exact ⟨rfl, h⟩
    · exact h.putLocked hv key now (now + ttl)
  | putUntil key expiresAt hv =>
    rw [CacheOp.run, CacheOp.run, Cache.putUntil, Cache.putUntil]
    split
    · exact ⟨rfl, h⟩
    · split
      · exact ⟨rfl, (h.removeLocked key).2⟩
      · exact h.putLocked hv key now expiresAt
  | delete key => exact h.removeLocked key
  | stats => exact ⟨h.stats, h⟩
  | purge => exact ⟨rfl, h.purge⟩
  | close => exact ⟨rfl, h.close⟩

end Slizen
