import Mathlib.Algebra.BigOperators.Group.List.Basic
import Mathlib.Algebra.Order.BigOperators.Group.List
import Mathlib.Algebra.Order.Group.Int
import Mathlib.Algebra.Ring.Int.Defs
import Slizen.Cache

namespace Slizen.Cache
set_option autoImplicit true

variable {c : Cache}

def total (items : AList fun _ : Key => Entry) : Int :=
  (items.entries.map fun s => s.2.estimatedSize).sum

@[simp] theorem total_empty : total ∅ = 0 := rfl

theorem total_erase {items : AList fun _ : Key => Entry} (h : items.lookup key = some ent) :
    total (items.erase key) = total items - ent.estimatedSize := by
  have hk : key ∈ items.entries.keys := AList.lookup_isSome.1 (Option.isSome_iff_exists.2 ⟨ent, h⟩)
  obtain ⟨b, l₁, l₂, -, hl, he⟩ := List.exists_of_kerase hk
  have hb : b = ent := by
    have hm : (⟨key, b⟩ : Sigma fun _ : Key => Entry) ∈ items.entries := by
      rw [hl]
      simp
    have := (AList.mem_lookup_iff (s := items)).2 hm
    rw [h] at this
    exact (Option.some.inj this).symm
  subst hb
  have he' : (items.erase key).entries = l₁ ++ l₂ := he
  simp only [total, he', hl, List.map_append, List.map_cons, List.sum_append, List.sum_cons]
  omega

theorem total_insert_of_none {items : AList fun _ : Key => Entry} (h : items.lookup key = none)
    (ent : Entry) : total (items.insert key ent) = total items + ent.estimatedSize := by
  rw [total, AList.entries_insert_of_notMem (AList.lookup_eq_none.1 h), List.map_cons,
    List.sum_cons, Int.add_comm, total]

theorem total_insert_of_some {items : AList fun _ : Key => Entry}
    (h : items.lookup key = some old) (ent : Entry) :
    total (items.insert key ent) = total items - old.estimatedSize + ent.estimatedSize := by
  rw [← total_erase h, total, AList.entries_insert, List.map_cons, List.sum_cons, Int.add_comm]
  rfl

/-- The representation of a cache: the list orders the keys of the map, and the byte count adds
up the recorded sizes, each of which is the documented estimate. -/
structure Rep (c : Cache) : Prop where
  perm : c.lru.Perm c.items.keys
  bytes : c.bytes = total c.items
  size : ∀ k e, c.find k = some e → e.estimatedSize = estimateSize k e.value

theorem rep_new (maxBytes maxEntries : Int) : (new maxBytes maxEntries).Rep :=
  ⟨.refl _, rfl, fun _ _ h => by cases h⟩

theorem rep_purge (c : Cache) : c.purge.Rep := ⟨.refl _, rfl, fun _ _ h => by cases h⟩

theorem rep_close (c : Cache) : c.close.Rep := ⟨.refl _, rfl, fun _ _ h => by cases h⟩

theorem keys_erase (items : AList fun _ : Key => Entry) (key : Key) :
    (items.erase key).keys = items.keys.erase key := by
  rw [AList.keys_erase]
  congr 1
  exact lawful_beq_subsingleton _ _

theorem keys_insert (items : AList fun _ : Key => Entry) (key : Key) (ent : Entry) :
    (items.insert key ent).keys = key :: items.keys.erase key := by
  rw [AList.keys_insert]
  congr 2
  exact lawful_beq_subsingleton _ _

theorem lookup_of_erase {items : AList fun _ : Key => Entry}
    (h : (items.erase key).lookup k = some e) : items.lookup k = some e := by
  by_cases hk : k = key
  · rw [hk, AList.lookup_erase] at h
    cases h
  · rwa [AList.lookup_erase_ne hk] at h

theorem Rep.removeElementLocked (h : c.Rep) (key : Key) : (c.removeElementLocked key).Rep := by
  rw [Cache.removeElementLocked]
  cases hf : c.find key with
  | none => exact h
  | some ent =>
    refine ⟨?_, ?_, fun k e he => h.size k e (lookup_of_erase he)⟩
    · exact (keys_erase c.items key) ▸ h.perm.erase key
    · exact (congrArg (· - ent.estimatedSize) h.bytes).trans (total_erase hf).symm

theorem Rep.evict (h : c.Rep) (key : Key) : (c.evict key).Rep :=
  ⟨(h.removeElementLocked key).perm, (h.removeElementLocked key).bytes,
    (h.removeElementLocked key).size⟩

theorem Rep.enforceLimitsLoop (h : c.Rep) (l : List Key) : (c.enforceLimitsLoop l).Rep := by
  induction l generalizing c with
  | nil => exact h
  | cons oldest rest ih =>
    rw [Cache.enforceLimitsLoop]
    split
    · exact ih (h.evict oldest)
    · exact h

theorem Rep.touch (h : c.Rep) (hf : c.find key = some ent) (now : Time) :
    (c.touch key ent now).Rep := by
  refine ⟨?_, ?_, fun k e he => ?_⟩
  · exact (keys_insert c.items key _) ▸ (h.perm.erase key).cons key
  · exact h.bytes.trans ((total_insert_of_some hf _).trans (Int.sub_add_cancel _ _)).symm
  · rw [find_touch] at he
    split at he
    · rename_i hk
      cases he
      subst hk
      exact h.size k ent hf
    · exact h.size k e he

theorem Rep.store (h : c.Rep) (ent : Entry)
    (hs : ent.estimatedSize = estimateSize key ent.value) : (c.store key ent).Rep := by
  have hsize : ∀ k e, (c.store key ent).find k = some e →
      e.estimatedSize = estimateSize k e.value := by
    intro k e he
    rw [find_store] at he
    split at he
    · rename_i hk
      cases he
      exact hk ▸ hs
    · exact h.size k e he
  refine ⟨?_, ?_, hsize⟩
  · rw [Cache.store]
    cases hf : c.find key with
    | none =>
      have hk : key ∉ c.items.keys := AList.lookup_eq_none.1 hf
      have hp : (key :: c.lru).Perm (key :: c.items.keys.erase key) := by
        rw [List.erase_of_not_mem hk]
        exact h.perm.cons key
      exact (keys_insert c.items key ent) ▸ hp
    | some old => exact (keys_insert c.items key ent) ▸ (h.perm.erase key).cons key
  · rw [Cache.store]
    cases hf : c.find key with
    | none =>
      exact (congrArg (· + ent.estimatedSize) h.bytes).trans (total_insert_of_none hf ent).symm
    | some old =>
      exact (congrArg (· - old.estimatedSize + ent.estimatedSize) h.bytes).trans
        (total_insert_of_some hf ent).symm

def limits (c : Cache) : Int × Int := (c.maxBytes, c.maxEntries)

structure WF (c : Cache) : Prop extends Rep c where
  maxBytes_nonneg : 0 ≤ c.maxBytes
  bytes_le : c.bytes ≤ c.maxBytes
  entries_le : 0 < c.maxEntries → c.items.keys.length ≤ c.maxEntries

theorem overLimits_eq_false : c.overLimits = false ↔
    c.bytes ≤ c.maxBytes ∧ (0 < c.maxEntries → c.items.keys.length ≤ c.maxEntries) := by
  simp [overLimits, imp_iff_not_or]

theorem size_pos (h : c.Rep) (hf : c.find k = some e) : 0 < e.estimatedSize := by
  rw [h.size k e hf]
  exact estimateSize_pos k e.value

theorem WF.of_items_empty (hr : c.Rep) (h₀ : 0 ≤ c.maxBytes) (hi : c.items = ∅) : c.WF := by
  refine ⟨hr, h₀, ?_, fun hp => ?_⟩
  · rw [hr.bytes, hi]
    exact h₀
  · rw [hi]
    exact hp.le

theorem wf_new (maxBytes maxEntries : Int) : (new maxBytes maxEntries).WF := by
  refine .of_items_empty (rep_new maxBytes maxEntries) ?_ rfl
  show 0 ≤ if maxBytes < 0 then 0 else maxBytes
  split <;> omega

theorem WF.purge (h : c.WF) : c.purge.WF :=
  .of_items_empty (rep_purge c) h.maxBytes_nonneg rfl

theorem WF.close (h : c.WF) : c.close.WF :=
  .of_items_empty (rep_close c) h.maxBytes_nonneg rfl

@[simp] theorem limits_removeElementLocked (c : Cache) (key : Key) :
    (c.removeElementLocked key).limits = c.limits := by
  rw [removeElementLocked]
  cases c.find key <;> rfl

theorem keys_removeElementLocked (c : Cache) (key : Key) :
    (c.removeElementLocked key).items.keys = c.items.keys.erase key := by
  rw [removeElementLocked]
  cases hf : c.find key with
  | none => exact (List.erase_of_not_mem (AList.lookup_eq_none.1 hf)).symm
  | some ent => exact keys_erase c.items key

theorem removeElementLocked_bytes_le (h : c.Rep) (key : Key) :
    (c.removeElementLocked key).bytes ≤ c.bytes := by
  rw [removeElementLocked]
  cases hf : c.find key with
  | none => exact le_rfl
  | some ent =>
    have := size_pos h hf
    show c.bytes - ent.estimatedSize ≤ c.bytes
    omega

theorem WF.removeElementLocked (h : c.WF) (key : Key) : (c.removeElementLocked key).WF := by
  obtain ⟨hb, he⟩ := Prod.mk.inj (limits_removeElementLocked c key)
  refine ⟨h.toRep.removeElementLocked key, hb ▸ h.maxBytes_nonneg, ?_, ?_⟩
  · rw [hb]
    exact (removeElementLocked_bytes_le h.toRep key).trans h.bytes_le
  · rw [he, keys_removeElementLocked]
    intro hp
    have hl := h.entries_le hp
    have := List.length_erase_le (a := key) (l := c.items.keys)
    omega

theorem Rep.bytes_nonneg (h : c.Rep) : 0 ≤ c.bytes := by
  rw [h.bytes]
  refine List.sum_nonneg fun x hx => ?_
  obtain ⟨s, hs, rfl⟩ := List.mem_map.1 hx
  exact (size_pos h (AList.mem_lookup_iff.2 hs)).le

theorem WF.size_le (h : c.WF) (hf : c.find k = some e) : e.estimatedSize ≤ c.maxBytes := by
  have hrest := (h.toRep.removeElementLocked k).bytes_nonneg
  rw [Cache.removeElementLocked, hf] at hrest
  have hle := h.bytes_le
  dsimp only at hrest
  omega

theorem WF.find_eq_none (h : c.WF) (h₀ : c.maxBytes ≤ 0) (k : Key) : c.find k = none := by
  cases hf : c.find k with
  | none => rfl
  | some e => exact absurd ((size_pos h.toRep hf).trans_le (h.size_le hf)) (not_lt.2 h₀)

theorem WF.removeLocked (h : c.WF) (key : Key) : (c.removeLocked key).2.WF := by
  rw [removeLocked_snd]
  exact h.removeElementLocked key

@[simp] theorem limits_evict (c : Cache) (key : Key) : (c.evict key).limits = c.limits :=
  limits_removeElementLocked c key

@[simp] theorem limits_enforceLimitsLoop (c : Cache) (l : List Key) :
    (c.enforceLimitsLoop l).limits = c.limits := by
  induction l generalizing c with
  | nil => rfl
  | cons oldest rest ih =>
    rw [enforceLimitsLoop]
    split
    · rw [ih, limits_evict]
    · rfl

@[simp] theorem limits_store (c : Cache) (key : Key) (ent : Entry) :
    (c.store key ent).limits = c.limits := by
  rw [store]
  cases c.find key <;> rfl

@[simp] theorem limits_removeLocked (c : Cache) (key : Key) :
    (c.removeLocked key).2.limits = c.limits := by
  rw [removeLocked_snd, limits_removeElementLocked]

@[simp] theorem limits_putLocked (c : Cache) (key : Key) (value : Blob) (now expiresAt : Time) :
    (c.putLocked key value now expiresAt).2.limits = c.limits := by
  rw [putLocked]
  split
  · exact limits_removeLocked c key
  · exact (limits_enforceLimitsLoop _ _).trans (limits_store c key _)

@[simp] theorem limits_put (c : Cache) (key : Key) (value : Blob) (ttl now : Time) :
    (c.put key value ttl now).2.limits = c.limits := by
  rw [put]
  split
  · rfl
  · exact limits_putLocked c key value now _

@[simp] theorem limits_putUntil (c : Cache) (key : Key) (value : Blob) (expiresAt now : Time) :
    (c.putUntil key value expiresAt now).2.limits = c.limits := by
  rw [putUntil]
  split
  · rfl
  · split
    · exact limits_removeLocked c key
    · exact limits_putLocked c key value now _

@[simp] theorem limits_getLocked (c : Cache) (key : Key) (grace : Time) (allowStale : Bool)
    (now : Time) : (c.getLocked key grace allowStale now).2.limits = c.limits := by
  rw [getLocked]
  cases c.find key with
  | none => rfl
  | some ent =>
    dsimp only
    split
    · split
      · exact limits_removeElementLocked c key
      · rfl
    · rfl

/-- The loop stops within the limits: once every element is gone nothing is left to count. -/
theorem enforceLimitsLoop_within_limits (h : c.Rep) (h₀ : 0 ≤ c.maxBytes) {l : List Key}
    (hl : l.Perm c.items.keys) : (c.enforceLimitsLoop l).overLimits = false := by
  induction l generalizing c with
  | nil =>
    have hi : c.items = ∅ := AList.ext (List.map_eq_nil_iff.1 hl.nil_eq.symm)
    have hw := WF.of_items_empty h h₀ hi
    exact overLimits_eq_false.2 ⟨hw.bytes_le, hw.entries_le⟩
  | cons oldest rest ih =>
    rw [enforceLimitsLoop]
    split
    · apply ih (h.evict oldest)
      · exact h₀.trans_eq (congrArg Prod.fst (limits_evict c oldest)).symm
      · have hk : (c.evict oldest).items.keys = c.items.keys.erase oldest :=
          keys_removeElementLocked c oldest
        rw [hk]
        have := hl.erase oldest
        rwa [List.erase_cons_head] at this
    · rename_i ho
      exact Bool.not_eq_true _ ▸ ho

theorem wf_enforceLimitsLocked (h : c.Rep) (h₀ : 0 ≤ c.maxBytes) : c.enforceLimitsLocked.WF := by
  have ho := enforceLimitsLoop_within_limits h h₀ ((List.reverse_perm c.lru).trans h.perm)
  obtain ⟨hb, he⟩ := overLimits_eq_false.1 ho
  have hm := congrArg Prod.fst (limits_enforceLimitsLoop c c.lru.reverse)
  exact ⟨h.enforceLimitsLoop _, h₀.trans_eq hm.symm, hb, he⟩

theorem WF.putLocked (h : c.WF) (key : Key) (value : Blob) (now expiresAt : Time) :
    (c.putLocked key value now expiresAt).2.WF := by
  rw [Cache.putLocked]
  split
  · exact h.removeLocked key
  · have hm := congrArg Prod.fst (limits_store c key
      ⟨value, now, expiresAt, now, estimateSize key value⟩)
    exact wf_enforceLimitsLocked (h.toRep.store _ rfl) (h.maxBytes_nonneg.trans_eq hm.symm)

theorem WF.put (h : c.WF) (key : Key) (value : Blob) (ttl now : Time) :
    (c.put key value ttl now).2.WF := by
  rw [Cache.put]
  split
  · exact h
  · exact h.putLocked key value now (now + ttl)

theorem WF.putUntil (h : c.WF) (key : Key) (value : Blob) (expiresAt now : Time) :
    (c.putUntil key value expiresAt now).2.WF := by
  rw [Cache.putUntil]
  split
  · exact h
  · split
    · exact h.removeLocked key
    · exact h.putLocked key value now expiresAt

theorem length_keys_touch (hf : c.find key = some ent) (now : Time) :
    (c.touch key ent now).items.keys.length = c.items.keys.length := by
  have hk : key ∈ c.items.keys := AList.lookup_isSome.1 (Option.isSome_iff_exists.2 ⟨ent, hf⟩)
  have hl : (c.touch key ent now).items.keys = key :: c.items.keys.erase key :=
    keys_insert c.items key _
  have := List.length_erase_of_mem hk
  have := List.length_pos_of_mem hk
  rw [hl, List.length_cons]
  omega

theorem WF.getLocked (h : c.WF) (key : Key) (grace : Time) (allowStale : Bool)
    (now : Time) : (c.getLocked key grace allowStale now).2.WF := by
  rw [Cache.getLocked]
  cases hf : c.find key with
  | none => exact h
  | some ent =>
    dsimp only
    by_cases hx : now < ent.expiryLimit grace allowStale
    · rw [if_neg (not_not.2 hx)]
      exact ⟨h.toRep.touch hf now, h.maxBytes_nonneg, h.bytes_le, fun hp =>
        (congrArg Nat.cast (length_keys_touch hf now)).trans_le (h.entries_le hp)⟩
    · rw [if_pos hx]
      split
      · exact h.removeElementLocked key
      · exact h

end Slizen.Cache
