import Mathlib.Data.List.AList
import Slizen.Basic

namespace Slizen
set_option autoImplicit true

/-- `cache.entry`; the key under which it is stored names its list element. -/
structure Entry where
  value : Blob
  insertedAt : Time
  expiresAt : Time
  lastAccess : Time
  estimatedSize : Int

structure EntrySnapshot where
  key : Key
  value : Blob
  insertedAt : Time
  expiresAt : Time
  lastAccess : Time
  estimatedSize : Int
  age : Time
  ttl : Time

structure CacheStats where
  entries : Nat
  bytes : Int
  maxBytes : Int
  evictions : Nat

/-- `cache.Cache`: the map, and the recency list with the most recent key first. -/
structure Cache where
  maxBytes : Int
  maxEntries : Int
  items : AList fun _ : Key => Entry
  lru : List Key
  bytes : Int
  evictions : Nat
  closed : Bool

def entryOverheadBytes : Int := 128

def estimateSize (key : Key) (value : Blob) : Int :=
  (key.length + value.bytes.length : Nat) + entryOverheadBytes

theorem estimateSize_pos (key : Key) (value : Blob) : 0 < estimateSize key value := by
  rw [estimateSize, entryOverheadBytes]
  omega

def Entry.snapshot (e : Entry) (key : Key) (now : Time) : EntrySnapshot where
  key := key
  value := e.value
  insertedAt := e.insertedAt
  expiresAt := e.expiresAt
  lastAccess := e.lastAccess
  estimatedSize := e.estimatedSize
  age := now - e.insertedAt
  ttl := if e.expiresAt - now < 0 then 0 else e.expiresAt - now

/-- The instant from which a lookup treats the entry as expired. -/
def Entry.expiryLimit (e : Entry) (grace : Time) (allowStale : Bool) : Time :=
  if allowStale ∧ grace > 0 then e.expiresAt + grace else e.expiresAt

namespace Cache

/-- `cache.New`. -/
def new (maxBytes maxEntries : Int) : Cache where
  maxBytes := if maxBytes < 0 then 0 else maxBytes
  maxEntries := maxEntries
  items := ∅
  lru := []
  bytes := 0
  evictions := 0
  closed := false

def find (c : Cache) (key : Key) : Option Entry := c.items.lookup key

def removeElementLocked (c : Cache) (key : Key) : Cache :=
  match c.find key with
  | some ent =>
    { c with
      items := c.items.erase key
      bytes := c.bytes - ent.estimatedSize
      lru := c.lru.erase key }
  | none => c

def removeLocked (c : Cache) (key : Key) : Bool × Cache :=
  match c.find key with
  | some _ => (true, c.removeElementLocked key)
  | none => (false, c)

def overLimits (c : Cache) : Bool :=
  decide (c.bytes > c.maxBytes) ||
    (decide (c.maxEntries > 0) && decide (c.items.keys.length > c.maxEntries))

def evict (c : Cache) (oldest : Key) : Cache :=
  { c.removeElementLocked oldest with evictions := c.evictions + 1 }

/-- The eviction loop; its list holds the keys still in the recency list, the oldest first. -/
def enforceLimitsLoop (c : Cache) : List Key → Cache
  | [] => c
  | oldest :: rest =>
    if c.overLimits then enforceLimitsLoop (c.evict oldest) rest else c

def enforceLimitsLocked (c : Cache) : Cache := c.enforceLimitsLoop c.lru.reverse

/-- Replace the entry in place or push a new one, before the limits are enforced. -/
def store (c : Cache) (key : Key) (ent : Entry) : Cache :=
  match c.find key with
  | some old =>
    { c with
      items := c.items.insert key ent
      lru := key :: c.lru.erase key
      bytes := c.bytes - old.estimatedSize + ent.estimatedSize }
  | none =>
    { c with
      items := c.items.insert key ent
      lru := key :: c.lru
      bytes := c.bytes + ent.estimatedSize }

/-- The locked part of `Put` and `PutUntil`. -/
def putLocked (c : Cache) (key : Key) (value : Blob) (now expiresAt : Time) : Bool × Cache :=
  if c.closed ∨ c.maxBytes ≤ 0 ∨ estimateSize key value > c.maxBytes then
    (false, (c.removeLocked key).2)
  else
    (true, (c.store key ⟨value, now, expiresAt, now, estimateSize key value⟩).enforceLimitsLocked)

def put (c : Cache) (key : Key) (value : Blob) (ttl now : Time) : Bool × Cache :=
  if ttl ≤ 0 ∨ key = [] then (false, c) else c.putLocked key value now (now + ttl)

def putUntil (c : Cache) (key : Key) (value : Blob) (expiresAt now : Time) : Bool × Cache :=
  if key = [] then (false, c)
  else if ¬ now < expiresAt then (false, (c.removeLocked key).2)
  else c.putLocked key value now expiresAt

def touch (c : Cache) (key : Key) (ent : Entry) (now : Time) : Cache :=
  { c with
    items := c.items.insert key { ent with lastAccess := now }
    lru := key :: c.lru.erase key }

/-- The locked part of `Get` (`grace = 0`, `allowStale = false`) and `GetStale`. -/
def getLocked (c : Cache) (key : Key) (grace : Time) (allowStale : Bool) (now : Time) :
    Option EntrySnapshot × Cache :=
  match c.find key with
  | none => (none, c)
  | some ent =>
    if ¬ now < ent.expiryLimit grace allowStale then
      if !allowStale ∨ grace ≠ 0 then (none, c.removeElementLocked key) else (none, c)
    else (some ({ ent with lastAccess := now }.snapshot key now), c.touch key ent now)

def get (c : Cache) (key : Key) (now : Time) : Option EntrySnapshot × Cache :=
  c.getLocked key 0 false now

def getStale (c : Cache) (key : Key) (grace now : Time) : Option EntrySnapshot × Cache :=
  c.getLocked key grace true now

def delete (c : Cache) (key : Key) : Bool × Cache := c.removeLocked key

def purge (c : Cache) : Cache := { c with items := ∅, lru := [], bytes := 0 }

def close (c : Cache) : Cache := { c with closed := true, items := ∅, lru := [], bytes := 0 }

def stats (c : Cache) : CacheStats where
  entries := c.items.keys.length
  bytes := c.bytes
  maxBytes := c.maxBytes
  evictions := c.evictions

def inspect (c : Cache) (key : Key) (now : Time) : Option EntrySnapshot :=
  match c.find key with
  | none => none
  | some ent => if ¬ now < ent.expiresAt then none else some (ent.snapshot key now)

@[simp] theorem find_purge (c : Cache) (k : Key) : c.purge.find k = none := rfl

theorem lookup_insert_eq (l : AList fun _ : Key => Entry) (key k : Key) (ent : Entry) :
    (l.insert key ent).lookup k = if k = key then some ent else l.lookup k := by
  split
  · rename_i h
    rw [h, AList.lookup_insert]
  · rename_i h
    exact AList.lookup_insert_ne h

@[simp] theorem find_removeElementLocked (c : Cache) (key k : Key) :
    (c.removeElementLocked key).find k = if k = key then none else c.find k := by
  by_cases hk : k = key
  · subst hk
    rw [if_pos rfl, removeElementLocked]
    cases hf : c.find k with
    | none => exact hf
    | some ent => exact AList.lookup_erase k c.items
  · rw [if_neg hk, removeElementLocked]
    cases c.find key with
    | none => rfl
    | some ent => exact AList.lookup_erase_ne hk

@[simp] theorem removeLocked_snd (c : Cache) (key : Key) :
    (c.removeLocked key).2 = c.removeElementLocked key := by
  rw [removeLocked, removeElementLocked]
  cases c.find key <;> rfl

theorem find_removeLocked (c : Cache) (key k : Key) :
    (c.removeLocked key).2.find k = if k = key then none else c.find k := by
  rw [removeLocked_snd, find_removeElementLocked]

@[simp] theorem find_delete (c : Cache) (key k : Key) :
    (c.delete key).2.find k = if k = key then none else c.find k := find_removeLocked c key k

@[simp] theorem find_store (c : Cache) (key k : Key) (ent : Entry) :
    (c.store key ent).find k = if k = key then some ent else c.find k := by
  rw [store]
  cases c.find key with
  | none => exact lookup_insert_eq c.items key k ent
  | some old => exact lookup_insert_eq c.items key k ent

theorem find_of_removeElementLocked {c : Cache}
    (h : (c.removeElementLocked key).find k = some e) : c.find k = some e := by
  rw [find_removeElementLocked] at h
  split at h
  · cases h
  · exact h

@[simp] theorem find_evict (c : Cache) (key k : Key) :
    (c.evict key).find k = (c.removeElementLocked key).find k := rfl

theorem find_of_enforceLimitsLoop {l : List Key} {c : Cache}
    (h : (c.enforceLimitsLoop l).find k = some e) : c.find k = some e := by
  induction l generalizing c with
  | nil => exact h
  | cons oldest rest ih =>
    rw [enforceLimitsLoop] at h
    split at h
    · have he := ih h
      exact find_of_removeElementLocked he
    · exact h

@[simp] theorem find_touch (c : Cache) (key k : Key) (ent : Entry) (now : Time) :
    (c.touch key ent now).find k =
      if k = key then some { ent with lastAccess := now } else c.find k :=
  lookup_insert_eq c.items key k _

end Cache

structure Entry.Same (e e₀ : Entry) : Prop where
  value : e.value = e₀.value
  insertedAt : e.insertedAt = e₀.insertedAt
  expiresAt : e.expiresAt = e₀.expiresAt
  estimatedSize : e.estimatedSize = e₀.estimatedSize

theorem Entry.Same.refl (e : Entry) : e.Same e := ⟨rfl, rfl, rfl, rfl⟩

theorem Entry.Same.trans {e₁ e₂ e₃ : Entry} (h : e₁.Same e₂) (h' : e₂.Same e₃) : e₁.Same e₃ :=
  ⟨h.1.trans h'.1, h.2.trans h'.2, h.3.trans h'.3, h.4.trans h'.4⟩

namespace Cache

def Within (c c₀ : Cache) : Prop :=
  ∀ k e, c.find k = some e → ∃ e₀, c₀.find k = some e₀ ∧ e.Same e₀

theorem Within.refl (c : Cache) : c.Within c := fun _ e h => ⟨e, h, .refl e⟩

theorem Within.of_find {c c₀ : Cache} (h : ∀ k e, c.find k = some e → c₀.find k = some e) :
    c.Within c₀ := fun k e he => ⟨e, h k e he, .refl e⟩

theorem within_removeLocked (c : Cache) (key : Key) : (c.removeLocked key).2.Within c := by
  apply Within.of_find
  intro k e h
  rw [find_removeLocked] at h
  split at h
  · cases h
  · exact h

theorem within_delete (c : Cache) (key : Key) : (c.delete key).2.Within c :=
  within_removeLocked c key

theorem within_touch {c : Cache} (hf : c.find key = some ent) (now : Time) :
    (c.touch key ent now).Within c := by
  intro k e he
  rw [find_touch] at he
  split at he
  · rename_i hk
    cases he
    exact ⟨ent, hk ▸ hf, rfl, rfl, rfl, rfl⟩
  · exact ⟨e, he, .refl e⟩

theorem within_getLocked (c : Cache) (key : Key) (grace : Time) (allowStale : Bool) (now : Time) :
    (c.getLocked key grace allowStale now).2.Within c := by
  rw [getLocked]
  cases hf : c.find key with
  | none => exact .refl c
  | some ent =>
    dsimp only
    by_cases hx : now < ent.expiryLimit grace allowStale
    · rw [if_neg (not_not.2 hx)]
      exact within_touch hf now
    · rw [if_pos hx]
      split
      · exact .of_find fun _ _ => find_of_removeElementLocked
      · exact .refl c

theorem getLocked_hit {c : Cache} (h : (c.getLocked key grace allowStale now).1 = some item) :
    ∃ ent, c.find key = some ent ∧ item = { ent with lastAccess := now }.snapshot key now ∧
      now < ent.expiryLimit grace allowStale := by
  rw [getLocked] at h
  cases hf : c.find key with
  | none =>
    rw [hf] at h
    cases h
  | some ent =>
    rw [hf] at h
    dsimp only at h
    by_cases hx : now < ent.expiryLimit grace allowStale
    · rw [if_neg (not_not.2 hx)] at h
      cases h
      exact ⟨ent, rfl, rfl, hx⟩
    · rw [if_pos hx] at h
      split at h <;> cases h

theorem find_putLocked {c : Cache}
    (h : (c.putLocked key value now expiresAt).2.find k = some e) :
    (k = key ∧ (c.putLocked key value now expiresAt).1 = true ∧
      e = ⟨value, now, expiresAt, now, estimateSize key value⟩) ∨
    (k ≠ key ∧ c.find k = some e) := by
  rw [putLocked] at h ⊢
  split at h
  · rename_i hc
    rw [find_removeLocked] at h
    split at h
    · cases h
    · rename_i hk
      exact .inr ⟨hk, h⟩
  · rename_i hc
    rw [if_neg hc]
    have hs := find_of_enforceLimitsLoop h
    rw [find_store] at hs
    split at hs
    · rename_i hk
      exact .inl ⟨hk, rfl, (Option.some.inj hs).symm⟩
    · rename_i hk
      exact .inr ⟨hk, hs⟩

theorem find_put {c : Cache} (h : (c.put key value ttl now).2.find k = some e) :
    (k = key ∧ key ≠ [] ∧ 0 < ttl ∧ (c.put key value ttl now).1 = true ∧
      e = ⟨value, now, now + ttl, now, estimateSize key value⟩) ∨
    ((k ≠ key ∨ ttl ≤ 0 ∨ key = []) ∧ c.find k = some e) := by
  rw [put] at h ⊢
  split at h
  · rename_i hc
    exact .inr ⟨.inr hc, h⟩
  · rename_i hc
    rw [if_neg hc]
    rw [not_or, Int.not_le] at hc
    rcases find_putLocked h with ⟨hk, hp, he⟩ | ⟨hk, he⟩
    · exact .inl ⟨hk, hc.2, hc.1, hp, he⟩
    · exact .inr ⟨.inl hk, he⟩

theorem find_putUntil {c : Cache} (h : (c.putUntil key value expiresAt now).2.find k = some e) :
    (k = key ∧ key ≠ [] ∧ now < expiresAt ∧ (c.putUntil key value expiresAt now).1 = true ∧
      e = ⟨value, now, expiresAt, now, estimateSize key value⟩) ∨
    ((k ≠ key ∨ key = []) ∧ c.find k = some e) := by
  rw [putUntil] at h ⊢
  split at h
  · rename_i hc
    exact .inr ⟨.inr hc, h⟩
  · rename_i hc
    rw [if_neg hc]
    split at h
    · rw [find_removeLocked] at h
      split at h
      · cases h
      · rename_i hk
        exact .inr ⟨.inl hk, h⟩
    · rename_i hlt
      rw [if_neg hlt]
      rcases find_putLocked h with ⟨hk, hp, he⟩ | ⟨hk, he⟩
      · exact .inl ⟨hk, hc, not_not.1 hlt, hp, he⟩
      · exact .inr ⟨.inl hk, he⟩

end Cache
end Slizen
