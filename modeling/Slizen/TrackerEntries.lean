import Slizen.TrackerPolls
import Slizen.TrackerRequests

namespace Slizen.Hotness.Tracker
set_option autoImplicit true

variable {t : Tracker} {commit : Config → Entry → List Transition × Entry}

theorem isTracked_iff (h : t.WF) : t.isTracked k = true ↔ ∃ e, t.find k = some e := by
  rw [isTracked, AList.lookup_isSome, ← Option.isSome_iff_exists]
  exact h.mem_keys

/-- The entry of one key after another was observed: it is as before, or its slot went to the
other key, which happens to no HOT entry. -/
def Passed (t t' : Tracker) (k : Key) : Prop :=
  t'.find k = t.find k ∨
    t'.find k = none ∧ t.evictions < t'.evictions ∧ ∃ e, t.find k = some e ∧ e.state ≠ .hot

/-- How `getOrCreateLocked` answers for a key that can be tracked. -/
inductive Slotted (t : Tracker) (key : Key) (now : Time) : Prop where
  | found (slot : Nat) (e : Entry) (hf : t.find key = some e) (hs : t.admissionRing[slot]? = some e)
      (hg : t.getOrCreateLocked key now = (some (slot, none), t))
  | created (slot : Nat) (eviction : Option Transition) (t' : Tracker) (hf : t.find key = none)
      (hg : t.getOrCreateLocked key now = (some (slot, eviction), t'))
      (hs : t'.admissionRing[slot]? = some (freshEntry key now))
      (hcold : ∀ τ ∈ eviction.toList, τ.after = .cold)
      (hother : ∀ k, k ≠ key → Passed t t' k) (hev : t.evictions ≤ t'.evictions)
      (hdrops : t'.capacityDrops = t.capacityDrops)
      (hover : t'.oversizedObservationsDropped = t.oversizedObservationsDropped)
  | dropped (t' : Tracker) (hf : t.find key = none)
      (hg : t.getOrCreateLocked key now = (none, t')) (hsame : ∀ k, t'.find k = t.find k)
      (hev : t'.evictions = t.evictions) (hdrops : t.capacityDrops < t'.capacityDrops)
      (hover : t'.oversizedObservationsDropped = t.oversizedObservationsDropped)

theorem Rep.slotted (h : t.Rep) (hmax : 0 < t.cfg.maxTrackedKeys) (key : Key) (now : Time) :
    Slotted t key now := by
  cases hl : t.items.lookup key with
  | some slot =>
    obtain ⟨e, hs, hk⟩ := (h.slots key slot).1 hl
    have hf : t.find key = some e := by rw [find, hl, Option.bind_some, hs]
    exact .found slot e hf hs (by rw [Tracker.getOrCreateLocked, hl])
  | none =>
    have hf := h.find_eq_none.2 hl
    by_cases hroom : (t.admissionRing.length : Int) < t.cfg.maxTrackedKeys
    · have hg : t.getOrCreateLocked key now = (some (t.admissionRing.length, none),
          { t with
            admissionRing := t.admissionRing ++ [freshEntry key now]
            items := t.items.insert key t.admissionRing.length }) := by
        rw [Tracker.getOrCreateLocked, hl]
        exact if_pos hroom
      refine .created _ none _ hf hg ?_ (by simp) ?_ le_rfl rfl rfl
      · exact List.getElem?_concat_length
      · intro k hk
        exact .inl ((find_append h.toWF hl now k).trans (if_neg hk))
    · have hvictim : t.nextVictim < t.admissionRing.length := by
        rcases h.victim with hv | hv
        · omega
        · exact hv
      obtain ⟨victim, hs⟩ : ∃ victim, t.admissionRing[t.nextVictim]? = some victim :=
        ⟨_, List.getElem?_eq_getElem hvictim⟩
      have hvf : t.find victim.key = some victim := h.find_of_mem (List.mem_of_getElem? hs)
      let next := if t.nextVictim + 1 = t.admissionRing.length then 0 else t.nextVictim + 1
      by_cases hhot : victim.state = .hot
      · have hg : t.getOrCreateLocked key now = (none,
            { t with nextVictim := next, capacityDrops := t.capacityDrops + 1 }) := by
          rw [Tracker.getOrCreateLocked, hl]
          simp only [if_neg hroom, hs, if_pos hhot]
          rfl
        exact .dropped _ hf hg (fun k => rfl) rfl (Nat.lt_succ_self _) rfl
      · have hg : t.getOrCreateLocked key now = (some (t.nextVictim, evicted victim),
            { t with
              nextVictim := next
              items := (t.items.erase victim.key).insert key t.nextVictim
              hot := t.hot + hotDelta victim.state .cold
              evictions := t.evictions + 1
              admissionRing := t.admissionRing.set t.nextVictim (freshEntry key now) }) := by
          rw [Tracker.getOrCreateLocked, hl]
          simp only [if_neg hroom, hs, if_neg hhot]
          rfl
        refine .created _ _ _ hf hg ?_ ?_ ?_ (Nat.le_succ _) rfl rfl
        · exact List.getElem?_set_self hvictim
        · intro τ hτ
          unfold evicted at hτ
          split at hτ
          · cases hτ
          · rw [List.mem_singleton.1 hτ]
        · intro k hk
          have hfind := find_reuse h.toWF hs key now k
          rw [if_neg hk] at hfind
          by_cases hkv : k = victim.key
          · rw [if_pos hkv] at hfind
            exact .inr ⟨hfind, Nat.lt_succ_self _, victim, hkv ▸ hvf, hhot⟩
          · rw [if_neg hkv] at hfind
            exact .inl hfind

def counted (e : Entry) (now : Time) : Entry := { e with count := e.count + 1, lastSeen := now }

/-- What an observation of a key that can be tracked does to the entries and the counters. -/
inductive Observed (commit : Config → Entry → List Transition × Entry) (t : Tracker) (key : Key)
    (now : Time) (o : Observation) (t' : Tracker) : Prop where
  | found (e : Entry) (hf : t.find key = some e)
      (ho : o.transitions = (commit t.cfg (counted e now)).1)
      (hf' : t'.find key = some (commit t.cfg (counted e now)).2)
      (hother : ∀ k, k ≠ key → t'.find k = t.find k) (hev : t'.evictions = t.evictions)
      (hdrops : t'.capacityDrops = t.capacityDrops)
      (hover : t'.oversizedObservationsDropped = t.oversizedObservationsDropped)
  | created (hf : t.find key = none)
      (ho : ∀ τ ∈ o.transitions, τ.after = .cold ∨
        τ ∈ (commit t.cfg (counted (freshEntry key now) now)).1)
      (hf' : t'.find key = some (commit t.cfg (counted (freshEntry key now) now)).2)
      (hother : ∀ k, k ≠ key → Passed t t' k) (hev : t.evictions ≤ t'.evictions)
      (hdrops : t'.capacityDrops = t.capacityDrops)
      (hover : t'.oversizedObservationsDropped = t.oversizedObservationsDropped)
  | dropped (hf : t.find key = none) (ho : o.transitions = [])
      (hsame : ∀ k, t'.find k = t.find k)
      (hev : t'.evictions = t.evictions) (hdrops : t.capacityDrops < t'.capacityDrops)
      (hover : t'.oversizedObservationsDropped = t.oversizedObservationsDropped)

theorem getOrCreateLocked_cfg {t' : Tracker} (hg : t.getOrCreateLocked key now = (a, t')) :
    t'.cfg = t.cfg := by
  have := (getOrCreateLocked_frame t key now).1
  rwa [hg] at this

variable (commit) in
theorem Rep.observed (h : t.Rep) (hmax : 0 < t.cfg.maxTrackedKeys) (hk : Trackable key)
    (now : Time) :
    Observed commit t key now (t.observeWith commit key now).1
      (t.observeWith commit key now).2 := by
  have hskip : ∀ {α : Sort _} (a b c : α), (if key.length > maxTrackedKeyBytes then a
      else if key = [] then b else c) = c := by
    intro α a b c
    rw [if_neg (not_lt.2 hk.2), if_neg hk.1]
  rw [Tracker.observeWith, hskip]
  cases h.slotted hmax key now with
  | found slot e hf hs hg =>
    rw [hg]
    simp only [hs]
    have hkey : e.key = key := h.find_key hf
    refine .found e hf rfl ?_ ?_ rfl rfl rfl
    · rw [find_replace h.toWF hs, if_pos hkey.symm]
      rfl
    · intro k hne
      rw [find_replace h.toWF hs, if_neg (hkey ▸ hne)]
  | created slot eviction t' hf hg hs hcold hother hev hdrops hover =>
    have hw : t'.WF := by
      have := h.toWF.getOrCreateLocked key now
      rwa [hg] at this
    rw [hg]
    simp only [hs]
    have hcfg := getOrCreateLocked_cfg hg
    refine .created hf ?_ ?_ ?_ hev hdrops hover
    · intro τ hτ
      rcases List.mem_append.1 hτ with hτ | hτ
      · exact .inl (hcold τ hτ)
      · rw [hcfg] at hτ
        exact .inr hτ
    · rw [find_replace hw hs, if_pos (show key = (freshEntry key now).key from rfl), hcfg]
      rfl
    · intro k hne
      have hfind := find_replace hw hs (commit t'.cfg (counted (freshEntry key now) now)).2 k
      rw [if_neg (show k ≠ (freshEntry key now).key from hne)] at hfind
      rcases hother k hne with hsame | ⟨hnone, hrest⟩
      · exact .inl (hfind.trans hsame)
      · exact .inr ⟨hfind.trans hnone, hrest⟩
  | dropped t' hf hg hsame hev hdrops hover =>
    rw [hg]
    exact .dropped hf rfl hsame hev hdrops hover

theorem observeWith_untracked (hk : ¬ Trackable key) :
    (t.observeWith commit key now).1.transitions = [] ∧
      ∀ k, (t.observeWith commit key now).2.find k = t.find k := by
  rw [observeWith]
  split
  · exact ⟨rfl, fun _ => rfl⟩
  · rename_i hlong
    split
    · exact ⟨rfl, fun _ => rfl⟩
    · rename_i hempty
      exact absurd ⟨hempty, not_lt.1 hlong⟩ hk

theorem find_admitLocked (h : t.WF) (key k : Key) : (t.admitLocked key).2.find k =
    if k = key then (t.find key).map admitEntry else t.find k := by
  rw [admitLocked]
  cases hl : t.items.lookup key with
  | none =>
    have hf := h.find_eq_none.2 hl
    show t.find k = _
    split
    · rename_i hk
      rw [hk, hf]
      rfl
    · rfl
  | some slot =>
    obtain ⟨e, hs, hk⟩ := (h.slots key slot).1 hl
    have hf : t.find key = some e := by rw [find, hl, Option.bind_some, hs]
    simp only [hs]
    rw [find_replace h hs, hk, hf]
    rfl

/-- What a call for a tracked key does to it inside the open window: at most it raises the key to
HOT, and then it reports that. -/
structure Raised (t : Tracker) (k : Key) (o : Observation) (t' : Tracker) : Prop where
  window : t'.window = t.window
  cfg : t'.cfg = t.cfg
  tracked : t'.isTracked k = true
  state : o.state = some .hot ↔ t'.isHot k = true
  transitions : o.transitions = [] ∧ t'.isHot k = t.isHot k ∨
    ∃ before, before ≠ .hot ∧ o.transitions = [⟨k, before, .hot⟩] ∧ t.isHot k = false ∧
      t'.isHot k = true

theorem WF.raised {o : Observation} (h : t.WF) (hl : t.items.lookup k = some slot)
    (hs : t.admissionRing[slot]? = some e) (ho : o.state = some e'.state)
    (hl' : o.transitions = [] ∧ e'.state = e.state ∨
      e.state ≠ .hot ∧ o.transitions = [⟨k, e.state, .hot⟩] ∧ e'.state = .hot) :
    Raised t k o (t.replace slot e e') := by
  obtain ⟨e₀, hs₀, rfl⟩ := (h.slots k slot).1 hl
  cases hs.symm.trans hs₀
  have hbefore : t.isHot e.key = decide (e.state = .hot) := by
    rw [isHot, h.find_eq_some.2 ⟨slot, hs, rfl⟩]
  have hafter : (t.replace slot e e').isHot e.key = decide (e'.state = .hot) := by
    rw [isHot, find_replace h hs, if_pos rfl]
  constructor
  · rfl
  · rfl
  · exact Option.isSome_iff_exists.2 ⟨slot, hl⟩
  · rw [ho, hafter, Option.some.injEq, decide_eq_true_iff]
  · rw [hbefore, hafter]
    rcases hl' with ⟨hnil, hstate⟩ | ⟨hne, hone, hstate⟩
    · exact .inl ⟨hnil, by rw [hstate]⟩
    · exact .inr ⟨e.state, hne, hone, by simpa using hne, by simpa using hstate⟩

theorem Rep.raised_observe (h : t.Rep) (hk : t.isTracked k = true)
    (hin : now < t.window + t.cfg.window) (order : List Key) :
    Raised t k (t.observeWithState order k now).1 (t.observeWithState order k now).2 := by
  obtain ⟨slot, hl⟩ := Option.isSome_iff_exists.1 hk
  obtain ⟨e, hs, hkey⟩ := (h.slots k slot).1 hl
  obtain ⟨hne, hlen⟩ := h.trackable_of_isTracked hk
  have hadv : t.advanceLocked order now = ([], t) := by rw [Tracker.advanceLocked, if_pos hin]
  have hslot : t.getOrCreateLocked k now = (some (slot, none), t) := by
    rw [Tracker.getOrCreateLocked, hl]
  rw [Tracker.observeWithState, hadv]
  dsimp only
  rw [Tracker.observeLocked, if_neg (not_lt.2 hlen), if_neg hne, hslot]
  dsimp only
  rw [hs]
  dsimp only
  apply h.toWF.raised hl hs rfl
  rw [commitGuaranteedPromotionLocked]
  split
  · rename_i hg
    have hwarm : e.state = .warm := by
      simp only [guaranteedPromotion, decide_eq_true_eq] at hg
      exact hg.1
    refine .inr ⟨by rw [hwarm]; simp, ?_, rfl⟩
    rw [hwarm, ← hkey]
    rfl
  · exact .inl ⟨rfl, rfl⟩

theorem Rep.raised_admit (h : t.Rep) (hk : t.isTracked k = true)
    (hin : now < t.window + t.cfg.window) (order : List Key) :
    Raised t k (t.admitKey order k now).1 (t.admitKey order k now).2 ∧
      (t.admitKey order k now).1.state = some .hot := by
  obtain ⟨slot, hl⟩ := Option.isSome_iff_exists.1 hk
  obtain ⟨e, hs, hkey⟩ := (h.slots k slot).1 hl
  have hadv : t.advanceLocked order now = ([], t) := by rw [Tracker.advanceLocked, if_pos hin]
  have hhot := admitEntry_state e
  rw [Tracker.admitKey, hadv]
  dsimp only
  rw [Tracker.admitLocked, hl]
  dsimp only
  rw [hs]
  dsimp only
  refine ⟨?_, congrArg some hhot⟩
  apply h.toWF.raised hl hs rfl
  by_cases hstate : e.state = .hot
  · refine .inl ⟨?_, hhot.trans hstate.symm⟩
    show [] ++ (admitEntry e).changedFrom e.state = []
    rw [Entry.changedFrom, if_pos (hstate.trans hhot.symm), List.nil_append]
  · refine .inr ⟨hstate, ?_, hhot⟩
    show [] ++ (admitEntry e).changedFrom e.state = _
    have hkey' : (admitEntry e).key = k := by
      rw [admitEntry]
      split <;> exact hkey
    rw [Entry.changedFrom, if_neg (hhot ▸ hstate), hkey', hhot, List.nil_append]

end Slizen.Hotness.Tracker
