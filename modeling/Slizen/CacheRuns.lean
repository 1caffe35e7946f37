import Slizen.CacheInvariant

namespace Slizen.Cache
set_option autoImplicit true

@[simp] theorem evictions_removeElementLocked (c : Cache) (key : Key) :
    (c.removeElementLocked key).evictions = c.evictions := by
  rw [removeElementLocked]
  cases c.find key <;> rfl

theorem evictions_removeLocked (c : Cache) (key : Key) :
    (c.removeLocked key).2.evictions = c.evictions := by
  rw [removeLocked_snd, evictions_removeElementLocked]

theorem evictions_enforceLimitsLoop (c : Cache) (l : List Key) :
    c.evictions ≤ (c.enforceLimitsLoop l).evictions := by
  induction l generalizing c with
  | nil => exact le_rfl
  | cons oldest rest ih =>
    rw [enforceLimitsLoop]
    split
    · exact (Nat.le_succ _).trans (ih (c.evict oldest))
    · exact le_rfl

theorem evictions_store (c : Cache) (key : Key) (ent : Entry) :
    (c.store key ent).evictions = c.evictions := by
  rw [store]
  cases c.find key <;> rfl

theorem evictions_putLocked (c : Cache) (key : Key) (value : Blob) (now expiresAt : Time) :
    c.evictions ≤ (c.putLocked key value now expiresAt).2.evictions := by
  rw [putLocked]
  split
  · exact (c.evictions_removeLocked key).ge
  · exact (c.evictions_store key _).ge.trans (evictions_enforceLimitsLoop _ _)

theorem evictions_getLocked (c : Cache) (key : Key) (grace : Time) (allowStale : Bool)
    (now : Time) : (c.getLocked key grace allowStale now).2.evictions = c.evictions := by
  rw [getLocked]
  cases c.find key with
  | none => rfl
  | some ent =>
    dsimp only
    split
    · split
      · exact c.evictions_removeElementLocked key
      · rfl
    · rfl

theorem closed_removeElementLocked (c : Cache) (key : Key) :
    (c.removeElementLocked key).closed = c.closed := by
  rw [removeElementLocked]
  cases c.find key <;> rfl

theorem closed_enforceLimitsLoop (c : Cache) (l : List Key) :
    (c.enforceLimitsLoop l).closed = c.closed := by
  induction l generalizing c with
  | nil => rfl
  | cons oldest rest ih =>
    rw [enforceLimitsLoop]
    split
    · rw [ih]
      exact closed_removeElementLocked c oldest
    · rfl

theorem closed_putLocked (c : Cache) (key : Key) (value : Blob) (now expiresAt : Time) :
    (c.putLocked key value now expiresAt).2.closed = c.closed := by
  rw [putLocked]
  split
  · rw [removeLocked_snd, closed_removeElementLocked]
  · rw [enforceLimitsLocked, closed_enforceLimitsLoop, store]
    cases c.find key <;> rfl

theorem closed_getLocked (c : Cache) (key : Key) (grace : Time) (allowStale : Bool) (now : Time) :
    (c.getLocked key grace allowStale now).2.closed = c.closed := by
  rw [getLocked]
  cases c.find key with
  | none => rfl
  | some ent =>
    dsimp only
    split
    · split
      · exact c.closed_removeElementLocked key
      · rfl
    · rfl

/-- A cache that has been closed and holds nothing. -/
structure Shut (c : Cache) : Prop where
  closed : c.closed = true
  items : c.items = ∅

theorem shut_close (c : Cache) : c.close.Shut := ⟨rfl, rfl⟩

theorem Shut.find {c : Cache} (h : c.Shut) (k : Key) : c.find k = none := by
  rw [Cache.find, h.items]
  rfl

theorem Shut.removeLocked {c : Cache} (h : c.Shut) (key : Key) : (c.removeLocked key).2 = c := by
  rw [Cache.removeLocked, h.find key]

theorem Shut.putLocked {c : Cache} (h : c.Shut) (key : Key) (value : Blob) (now expiresAt : Time) :
    (c.putLocked key value now expiresAt).2 = c := by
  rw [Cache.putLocked, if_pos (.inl h.closed), h.removeLocked]

theorem Shut.getLocked {c : Cache} (h : c.Shut) (key : Key) (grace : Time) (allowStale : Bool)
    (now : Time) : (c.getLocked key grace allowStale now).2 = c := by
  rw [Cache.getLocked, h.find key]

end Cache

inductive CacheOp where
  | get (key : Key)
  | getStale (key : Key) (grace : Time)
  | put (key : Key) (value : Blob) (ttl : Time)
  | putUntil (key : Key) (value : Blob) (expiresAt : Time)
  | delete (key : Key)
  | inspect (key : Key)
  | stats
  | purge
  | close

namespace CacheOp

abbrev Resp : CacheOp → Type
  | get _ => Option EntrySnapshot
  | getStale _ _ => Option EntrySnapshot
  | put _ _ _ => Bool
  | putUntil _ _ _ => Bool
  | delete _ => Bool
  | inspect _ => Option EntrySnapshot
  | stats => CacheStats
  | purge => Unit
  | close => Unit

def run (c : Cache) (now : Time) : (op : CacheOp) → op.Resp × Cache
  | .get key => c.get key now
  | .getStale key grace => c.getStale key grace now
  | .put key value ttl => c.put key value ttl now
  | .putUntil key value expiresAt => c.putUntil key value expiresAt now
  | .delete key => c.delete key
  | .inspect key => (c.inspect key now, c)
  | .stats => (c.stats, c)
  | .purge => ((), c.purge)
  | .close => ((), c.close)

theorem run_wf {c : Cache} (h : c.WF) (now : Time) (op : CacheOp) : (op.run c now).2.WF := by
  cases op with
  | get key => exact h.getLocked key 0 false now
  | getStale key grace => exact h.getLocked key grace true now
  | put key value ttl => exact h.put key value ttl now
  | putUntil key value expiresAt => exact h.putUntil key value expiresAt now
  | delete key => exact h.removeLocked key
  | inspect key => exact h
  | stats => exact h
  | purge => exact h.purge
  | close => exact h.close

theorem run_limits (c : Cache) (now : Time) (op : CacheOp) :
    (op.run c now).2.limits = c.limits := by
  cases op <;> first | rfl | simp [run, Cache.get, Cache.getStale, Cache.delete]

theorem run_closed (c : Cache) (now : Time) {op : CacheOp} (h : op ≠ .close) :
    (op.run c now).2.closed = c.closed := by
  cases op with
  | get key => exact c.closed_getLocked key 0 false now
  | getStale key grace => exact c.closed_getLocked key grace true now
  | put key value ttl =>
    show (c.put key value ttl now).2.closed = _
    rw [Cache.put]
    split
    · rfl
    · exact c.closed_putLocked key value now _
  | putUntil key value expiresAt =>
    show (c.putUntil key value expiresAt now).2.closed = _
    rw [Cache.putUntil]
    split
    · rfl
    · split
      · rw [Cache.removeLocked_snd, Cache.closed_removeElementLocked]
      · exact c.closed_putLocked key value now expiresAt
  | delete key =>
    show (c.delete key).2.closed = _
    rw [Cache.delete, Cache.removeLocked_snd, Cache.closed_removeElementLocked]
  | inspect key => rfl
  | stats => rfl
  | purge => rfl
  | close => exact absurd rfl h

theorem run_find {c : Cache} {op : CacheOp} (h : (op.run c now).2.find k = some e) :
    (∃ e₀, c.find k = some e₀ ∧ e.Same e₀) ∨
    (∃ value ttl, op = .put k value ttl ∧ k ≠ [] ∧
      e = ⟨value, now, now + ttl, now, estimateSize k value⟩) ∨
    ∃ value expiresAt, op = .putUntil k value expiresAt ∧ k ≠ [] ∧
      e = ⟨value, now, expiresAt, now, estimateSize k value⟩ := by
  cases op with
  | get key => exact .inl (c.within_getLocked key 0 false now k e h)
  | getStale key grace => exact .inl (c.within_getLocked key grace true now k e h)
  | put key value ttl =>
    rcases Cache.find_put h with ⟨rfl, hk, -, -, he⟩ | ⟨-, he⟩
    · exact .inr (.inl ⟨value, ttl, rfl, hk, he⟩)
    · exact .inl ⟨e, he, .refl e⟩
  | putUntil key value expiresAt =>
    rcases Cache.find_putUntil h with ⟨rfl, hk, -, -, he⟩ | ⟨-, he⟩
    · exact .inr (.inr ⟨value, expiresAt, rfl, hk, he⟩)
    · exact .inl ⟨e, he, .refl e⟩
  | delete key => exact .inl (c.within_delete key k e h)
  | inspect key => exact .inl ⟨e, h, .refl e⟩
  | stats => exact .inl ⟨e, h, .refl e⟩
  | purge => cases h
  | close => cases h

theorem run_evictions (c : Cache) (now : Time) (op : CacheOp) :
    c.evictions ≤ (op.run c now).2.evictions := by
  cases op with
  | get key => exact (c.evictions_getLocked key 0 false now).ge
  | getStale key grace => exact (c.evictions_getLocked key grace true now).ge
  | put key value ttl =>
    show _ ≤ (c.put key value ttl now).2.evictions
    rw [Cache.put]
    split
    · exact le_rfl
    · exact c.evictions_putLocked key value now _
  | putUntil key value expiresAt =>
    show _ ≤ (c.putUntil key value expiresAt now).2.evictions
    rw [Cache.putUntil]
    split
    · exact le_rfl
    · split
      · exact (c.evictions_removeLocked key).ge
      · exact c.evictions_putLocked key value now expiresAt
  | delete key => exact (c.evictions_removeLocked key).ge
  | _ => exact le_rfl

theorem run_shut {c : Cache} (h : c.Shut) (now : Time) (op : CacheOp) : (op.run c now).2.Shut := by
  cases op with
  | get key => exact (h.getLocked key 0 false now).symm ▸ h
  | getStale key grace => exact (h.getLocked key grace true now).symm ▸ h
  | put key value ttl =>
    show (c.put key value ttl now).2.Shut
    rw [Cache.put]
    split
    · exact h
    · exact (h.putLocked key value now _).symm ▸ h
  | putUntil key value expiresAt =>
    show (c.putUntil key value expiresAt now).2.Shut
    rw [Cache.putUntil]
    split
    · exact h
    · split
      · exact (h.removeLocked key).symm ▸ h
      · exact (h.putLocked key value now expiresAt).symm ▸ h
  | delete key => exact (h.removeLocked key).symm ▸ h
  | inspect key => exact h
  | stats => exact h
  | purge => exact ⟨h.closed, rfl⟩
  | close => exact c.shut_close

end CacheOp

namespace Cache

def serveAll (c : Cache) : List (CacheOp × Time) → Cache
  | [] => c
  | (op, now) :: rest => (op.run c now).2.serveAll rest

theorem WF.serveAll {c : Cache} (h : c.WF) (ops : List (CacheOp × Time)) : (c.serveAll ops).WF := by
  induction ops generalizing c with
  | nil => exact h
  | cons op rest ih => exact ih (op.1.run_wf h op.2)

theorem limits_serveAll (c : Cache) (ops : List (CacheOp × Time)) :
    (c.serveAll ops).limits = c.limits := by
  induction ops generalizing c with
  | nil => rfl
  | cons op rest ih => exact (ih _).trans (op.1.run_limits c op.2)

theorem evictions_serveAll (c : Cache) (ops : List (CacheOp × Time)) :
    c.evictions ≤ (c.serveAll ops).evictions := by
  induction ops generalizing c with
  | nil => exact le_rfl
  | cons op rest ih => exact (op.1.run_evictions c op.2).trans (ih _)

theorem Shut.serveAll {c : Cache} (h : c.Shut) (ops : List (CacheOp × Time)) :
    (c.serveAll ops).Shut := by
  induction ops generalizing c with
  | nil => exact h
  | cons op rest ih => exact ih (op.1.run_shut h op.2)

theorem shut_of_close_mem (c : Cache) (ops : List (CacheOp × Time)) (h : (.close, now) ∈ ops) :
    (c.serveAll ops).Shut := by
  induction ops generalizing c with
  | nil => cases h
  | cons op rest ih =>
    rcases List.mem_cons.1 h with rfl | h
    · exact c.shut_close.serveAll rest
    · exact ih _ h

/-- Whatever is asked of a cache, its map and its recency list hold the same keys, each once, its
byte count adds up the documented sizes and stays within the limits, its evictions only grow, and
nothing is left in it from its closing on. -/
theorem calls_representation (maxBytes maxEntries : Int) (ops : List (CacheOp × Time)) :
    let c := (new maxBytes maxEntries).serveAll ops
    (c.lru.Nodup ∧ c.items.keys.Nodup ∧ (∀ k, k ∈ c.lru ↔ (c.find k).isSome)) ∧
      (∀ k e, c.find k = some e → e.estimatedSize = k.length + e.value.bytes.length + 128) ∧
      c.bytes = (c.items.entries.map fun s => s.2.estimatedSize).sum ∧
      (c.maxBytes = max maxBytes 0 ∧ c.bytes ≤ c.maxBytes) ∧
      (0 < maxEntries → c.items.keys.length ≤ maxEntries) ∧
      (∀ more, c.evictions ≤ (c.serveAll more).evictions) ∧
      ((∃ now, (.close, now) ∈ ops) → c.items = ∅ ∧ c.lru = [] ∧ c.bytes = 0) := by
  intro c
  have h : c.WF := (wf_new maxBytes maxEntries).serveAll ops
  obtain ⟨hb, he⟩ := Prod.mk.inj (limits_serveAll (new maxBytes maxEntries) ops)
  refine ⟨⟨?_, c.items.keys_nodup, ?_⟩, ?_, h.bytes, ⟨?_, h.bytes_le⟩, ?_, c.evictions_serveAll, ?_⟩
  · exact h.perm.nodup_iff.2 c.items.keys_nodup
  · intro k
    rw [h.perm.mem_iff]
    exact AList.lookup_isSome.symm
  · intro k e hf
    rw [h.size k e hf, estimateSize, entryOverheadBytes, Int.natCast_add]
  · refine hb.trans ?_
    show (if maxBytes < 0 then 0 else maxBytes) = max maxBytes 0
    split <;> omega
  · intro hp
    exact (h.entries_le (he ▸ hp)).trans_eq he
  · rintro ⟨now, hm⟩
    have hs : c.Shut := shut_of_close_mem _ ops hm
    refine ⟨hs.items, ?_, ?_⟩
    · have hp := h.perm
      rw [hs.items] at hp
      exact List.perm_nil.1 hp
    · rw [h.bytes, hs.items, total_empty]

end Slizen.Cache
