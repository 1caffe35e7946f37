import Slizen.Scorer
import Slizen.TrackerEntries

namespace Slizen.Hotness
set_option autoImplicit true

theorem length_heapPush (s : Snapshot) (l : List Snapshot) :
    (heapPush s l).length = l.length + 1 := by
  induction l with
  | nil => rfl
  | cons worst rest ih =>
    rw [heapPush]
    split
    · rfl
    · rw [List.length_cons, ih, List.length_cons]

theorem length_selectTop (h : l.length ≤ n) (s : Snapshot) : (selectTop n l s).length ≤ n := by
  unfold selectTop
  split
  · rw [length_heapPush]
    assumption
  · cases l with
    | nil => exact h
    | cons worst rest =>
      dsimp only
      split
      · rwa [length_heapPush]
      · exact h

theorem length_foldl_selectTop (snapshots : List Snapshot) (h : l.length ≤ n) :
    (snapshots.foldl (selectTop n) l).length ≤ n := by
  induction snapshots generalizing l with
  | nil => exact h
  | cons s rest ih => exact ih (length_selectTop h s)

theorem sortSnapshots_perm (l : List Snapshot) : (sortSnapshots l).Perm l :=
  List.perm_insertionSort _ l

theorem topSnapshots_perm {entries : List Entry}
    (h : entries.length ≤ (topSnapshots entries now limit).length) :
    (topSnapshots entries now limit).Perm (entries.map fun e => e.snapshot now) := by
  rw [topSnapshots] at h ⊢
  split
  · exact sortSnapshots_perm _
  · rename_i hlimit
    rw [if_neg hlimit, (sortSnapshots_perm _).length_eq] at h
    have hle := length_foldl_selectTop (entries.map fun e => e.snapshot now)
      (show ([] : List Snapshot).length ≤ limit.toNat from Nat.zero_le _)
    rw [List.length_map] at hlimit
    omega

namespace Tracker

variable {t t' : Tracker}

/-- What the tracker has lost: the slots it has reused and the observations it has dropped. -/
def losses (t : Tracker) : Nat := t.evictions + t.capacityDrops + t.oversizedObservationsDropped

structure Retains (t t' : Tracker) : Prop where
  losses : t.losses ≤ t'.losses
  tracked : ∀ k, t.isTracked k = true → t'.isTracked k = true ∨ t.losses < t'.losses

theorem Retains.trans (h : Retains t t₁) (h' : Retains t₁ t') : Retains t t' where
  losses := h.losses.trans h'.losses
  tracked := by
    intro k hk
    rcases h.tracked k hk with hk | hlt
    · exact (h'.tracked k hk).imp_right h.losses.trans_lt
    · exact .inr (hlt.trans_le h'.losses)

structure Steady (t t' : Tracker) : Prop where
  items : t'.items = t.items
  losses : t'.losses = t.losses

theorem Steady.refl (t : Tracker) : Steady t t := ⟨rfl, rfl⟩

theorem Steady.trans (h : Steady t t₁) (h' : Steady t₁ t') : Steady t t' :=
  ⟨h'.items.trans h.items, h'.losses.trans h.losses⟩

theorem Steady.retains (h : Steady t t') : Retains t t' where
  losses := h.losses.ge
  tracked := by
    intro k hk
    rw [isTracked, h.items]
    exact .inl hk

theorem steady_advanceSlot (t : Tracker) (n : Nat) (boundary : Time) (key : Key) :
    Steady t (t.advanceSlot n boundary key).2 := by
  rw [advanceSlot]
  split
  · exact .refl t
  · split
    · exact .refl t
    · exact ⟨rfl, rfl⟩

theorem steady_advanceSlots (t : Tracker) (n : Nat) (boundary : Time) (order : List Key) :
    Steady t (t.advanceSlots n boundary order).2 := by
  induction order generalizing t with
  | nil => exact .refl t
  | cons key order ih => exact (steady_advanceSlot t n boundary key).trans (ih _)

theorem steady_advanceLocked (t : Tracker) (order : List Key) (now : Time) :
    Steady t (t.advanceLocked order now).2 := by
  rw [advanceLocked]
  split
  · exact .refl t
  · have h := steady_advanceSlots t (t.elapsedWindows now) (t.window + t.cfg.window) order
    exact ⟨h.items, h.losses⟩

theorem steady_admitLocked (t : Tracker) (key : Key) : Steady t (t.admitLocked key).2 := by
  rw [admitLocked]
  split
  · exact .refl t
  · split
    · exact .refl t
    · exact ⟨rfl, rfl⟩

theorem Rep.skipped (h : t.Rep) (hmax : 0 < t.cfg.maxTrackedKeys) (key : Key) (now : Time)
    (hskip : (t.observeLocked key now).1.oversizedObservationDropped = true ∨
      (t.observeLocked key now).1.capacityObservationDropped = true) :
    0 < (t.observeLocked key now).2.losses := by
  rw [Tracker.observeLocked] at hskip ⊢
  split
  · exact Nat.succ_pos _
  · rename_i hlong
    rw [if_neg hlong] at hskip
    split
    · rename_i hempty
      rw [if_pos hempty] at hskip
      rcases hskip with hskip | hskip <;> cases hskip
    · rename_i hempty
      rw [if_neg hempty] at hskip
      cases h.slotted hmax key now with
      | found slot e hf hs hg =>
        simp only [hg, hs] at hskip
        rcases hskip with hskip | hskip <;> cases hskip
      | created slot eviction t' hf hg hs =>
        simp only [hg, hs] at hskip
        rcases hskip with hskip | hskip <;> cases hskip
      | dropped t' hf hg hsame hev hdrops hover =>
        simp only [hg, losses]
        omega

structure Notices (t : Tracker) (key : Key) (t' : Tracker) : Prop where
  retains : Retains t t'
  tracked : key ≠ [] → t'.isTracked key = true ∨ 0 < t'.losses

theorem Rep.notices_trackable (h : t.Rep) (hmax : 0 < t.cfg.maxTrackedKeys) (hk : Trackable key)
    (now : Time) : Notices t key (t.observeLocked key now).2 := by
  have hw' := h.toWF.observeLocked key now
  have hobserved : Observed commitGuaranteedPromotionLocked t key now (t.observeLocked key now).1
    (t.observeLocked key now).2 := h.observed _ hmax hk now
  generalize (t.observeLocked key now).2 = t' at hw' hobserved ⊢
  cases hobserved with
  | found e hf ho hf' hother hev hdrops hover =>
    have hlosses : t'.losses = t.losses := by rw [losses, hev, hdrops, hover, losses]
    refine ⟨⟨hlosses.ge, fun k htracked => ?_⟩, fun _ => .inl ((isTracked_iff hw').2 ⟨_, hf'⟩)⟩
    rw [isTracked_iff hw']
    by_cases hkk : k = key
    · exact .inl ⟨_, hkk ▸ hf'⟩
    · rw [hother k hkk]
      exact .inl ((isTracked_iff h.toWF).1 htracked)
  | created hf ho hf' hother hev hdrops hover =>
    have hlosses : t.losses ≤ t'.losses := by
      unfold losses
      omega
    refine ⟨⟨hlosses, fun k htracked => ?_⟩, fun _ => .inl ((isTracked_iff hw').2 ⟨_, hf'⟩)⟩
    rw [isTracked_iff hw']
    by_cases hkk : k = key
    · exact .inl ⟨_, hkk ▸ hf'⟩
    · rcases hother k hkk with hsame | ⟨-, hlt, -⟩
      · rw [hsame]
        exact .inl ((isTracked_iff h.toWF).1 htracked)
      · right
        unfold losses
        omega
  | dropped hf ho hsame hev hdrops hover =>
    have hlosses : t.losses < t'.losses := by
      unfold losses
      omega
    exact ⟨⟨hlosses.le, fun _ _ => .inr hlosses⟩, fun _ => .inr (Nat.zero_lt_of_lt hlosses)⟩

theorem Rep.notices (h : t.Rep) (hmax : 0 < t.cfg.maxTrackedKeys) (key : Key) (now : Time) :
    Notices t key (t.observeLocked key now).2 := by
  by_cases hk : Trackable key
  · exact h.notices_trackable hmax hk now
  · rw [Tracker.observeLocked]
    split
    · have hlt : t.losses < t.losses + 1 := Nat.lt_succ_self _
      exact ⟨⟨hlt.le, fun _ htracked => .inl htracked⟩, fun _ => .inr (Nat.succ_pos _)⟩
    · rename_i hlong
      split
      · rename_i hempty
        exact ⟨(Steady.refl t).retains, fun hne => absurd hempty hne⟩
      · rename_i hempty
        exact absurd ⟨hempty, not_lt.1 hlong⟩ hk

theorem WF.filterMap_find {order : List Key} (h : t.WF) (hall : ∀ k ∈ order, k ∈ t.items.keys) :
    (order.filterMap t.find).map Entry.key = order := by
  induction order with
  | nil => rfl
  | cons k order ih =>
    obtain ⟨hk, hall⟩ := List.forall_mem_cons.1 hall
    obtain ⟨e, he⟩ := Option.isSome_iff_exists.1 (h.mem_keys.1 hk)
    rw [List.filterMap_cons_some he, List.map_cons, h.find_key he, ih hall]

theorem WF.snapshots_complete (h : t.WF) (ho : order.Perm t.items.keys)
    (hall : t.items.keys.length ≤ (t.snapshots order limit now).length) :
    ((t.snapshots order limit now).map Snapshot.key).Perm t.items.keys ∧
      ∀ s ∈ t.snapshots order limit now, ∃ e, t.find s.key = some e ∧ s = e.snapshot now := by
  have hkeys := h.filterMap_find fun k hk => ho.subset hk
  have hperm : (t.snapshots order limit now).Perm
      ((order.filterMap t.find).map fun e => e.snapshot now) := by
    apply topSnapshots_perm
    rwa [← List.length_map Entry.key, hkeys, ho.length_eq]
  constructor
  · refine (hperm.map Snapshot.key).trans ?_
    rw [List.map_map]
    show ((order.filterMap t.find).map Entry.key).Perm t.items.keys
    rw [hkeys]
    exact ho
  · intro s hs
    obtain ⟨e, he, rfl⟩ := List.mem_map.1 (hperm.subset hs)
    obtain ⟨k, -, hk⟩ := List.mem_filterMap.1 he
    refine ⟨e, ?_, rfl⟩
    show t.find e.key = some e
    rw [h.find_key hk, hk]

end Tracker
end Slizen.Hotness
