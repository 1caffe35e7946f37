import Mathlib.Tactic.Abel
import Slizen.CatchUp

namespace Slizen.Hotness
set_option autoImplicit true

variable {t : Tracker}

namespace Entry

theorem stepWindow_key (e : Entry) (rate : ℚ) (boundary : Time) :
    (e.stepWindow cfg rate boundary).2.key = e.key := by
  simp only [stepWindow, applyStateLocked, applyState, applyHigh, applyMid, applyLow,
    apply_ite Entry.key, ite_self]

theorem stepWindow_about (e : Entry) (rate : ℚ) (boundary : Time) :
    ∀ τ ∈ (e.stepWindow cfg rate boundary).1, τ.key = e.key := by
  intro τ hτ
  simp only [stepWindow, applyStateLocked, changedFrom] at hτ
  split at hτ
  · cases hτ
  · cases List.mem_singleton.1 hτ
    exact stepWindow_key e rate boundary

theorem stepWindows_key (e : Entry) (rate : ℚ) (n : Nat) (boundary : Time) :
    (e.stepWindows cfg rate n boundary).2.key = e.key := by
  induction n generalizing e rate boundary with
  | zero => rfl
  | succ n ih => exact (ih _ 0 _).trans (stepWindow_key e rate boundary)

theorem stepWindows_about (e : Entry) (rate : ℚ) (n : Nat) (boundary : Time) :
    ∀ τ ∈ (e.stepWindows cfg rate n boundary).1, τ.key = e.key := by
  induction n generalizing e rate boundary with
  | zero =>
    intro τ hτ
    cases hτ
  | succ n ih =>
    intro τ hτ
    rcases List.mem_append.1 hτ with hτ | hτ
    · exact stepWindow_about e rate boundary τ hτ
    · exact (ih _ 0 _ τ hτ).trans (stepWindow_key e rate boundary)

def withCount (e : Entry) (count : Nat) : Entry := { e with count := count }

@[simp] theorem withCount_count (e : Entry) (count : Nat) : (e.withCount count).count = count :=
  rfl

theorem SameOutcome.withCount (h : SameOutcome cfg p q) (count : Nat) :
    SameOutcome cfg (p.1, p.2.withCount count) (q.1, q.2.withCount count) :=
  ⟨h.1, congrArg (Entry.withCount · count) h.2⟩

theorem applyState_withCount (e : Entry) (count : Nat) (now : Time) :
    (e.withCount count).applyState cfg now = (e.applyState cfg now).withCount count := by
  cases e
  dsimp only [applyState, applyHigh, applyMid, applyLow, withCount]
  split_ifs <;> rfl

theorem stepWindow_withCount (e : Entry) (count : Nat) (rate : ℚ) (boundary : Time) :
    (e.withCount count).stepWindow cfg rate boundary =
      ((e.stepWindow cfg rate boundary).1,
        (e.stepWindow cfg rate boundary).2.withCount count) := by
  have h : (e.withCount count).stepWindow cfg rate boundary =
      ({ e with
        score := cfg.ewmaAlpha * rate + (1 - cfg.ewmaAlpha) * e.score
        lastRate := rate }.withCount count).applyStateLocked cfg boundary := rfl
  rw [h, applyStateLocked, applyState_withCount]
  rfl

theorem stepWindows_withCount (e : Entry) (count : Nat) (rate : ℚ) (n : Nat) (boundary : Time) :
    (e.withCount count).stepWindows cfg rate n boundary =
      ((e.stepWindows cfg rate n boundary).1,
        (e.stepWindows cfg rate n boundary).2.withCount count) := by
  induction n generalizing e rate boundary with
  | zero => rfl
  | succ n ih => simp only [stepWindows, stepWindow_withCount, ih]

/-- The windows that an entry completes in one call of `advanceLocked`. -/
def completeWindows (cfg : Config) (n : Nat) (boundary : Time) (e : Entry) :
    List Transition × Entry :=
  let (transitions, e') := e.advanceEntryLocked cfg (e.count / cfg.seconds) n boundary
  (transitions, e'.withCount 0)

section

variable {cfg : Config} (hv : cfg.Valid)

include hv

theorem completeWindows_steps (e : Entry) (hn : 0 < n) (boundary : Time) :
    SameOutcome cfg (e.completeWindows cfg n boundary)
      ((e.stepWindows cfg (e.count / cfg.seconds) n boundary).1,
        (e.stepWindows cfg (e.count / cfg.seconds) n boundary).2.withCount 0) :=
  (advanceEntryLocked_stepWindows hv e (e.count / cfg.seconds) n hn boundary).withCount 0

theorem completeWindows_key (e : Entry) (hn : 0 < n) (boundary : Time) :
    (e.completeWindows cfg n boundary).2.key = e.key :=
  (congrArg Entry.key (completeWindows_steps hv e hn boundary).2).trans
    (stepWindows_key e _ n boundary)

theorem completeWindows_about (e : Entry) (hn : 0 < n) (boundary : Time) :
    ∀ τ ∈ (e.completeWindows cfg n boundary).1, τ.key = e.key := by
  rw [(completeWindows_steps hv e hn boundary).1]
  exact stepWindows_about e _ n boundary

theorem completeWindows_cap {e e' : Entry} (h : e.cap cfg = e'.cap cfg) (hn : 0 < n)
    (boundary : Time) :
    SameOutcome cfg (e.completeWindows cfg n boundary) (e'.completeWindows cfg n boundary) := by
  have hcount : (e.cap cfg).count = (e'.cap cfg).count := congrArg Entry.count h
  have hsteps := completeWindows_steps hv e' hn boundary
  rw [← show e.count = e'.count from hcount] at hsteps
  have hcap := stepWindows_cap hv h (e.count / cfg.seconds) n boundary
  exact (completeWindows_steps hv e hn boundary).trans ((hcap.withCount 0).trans hsteps.symm)

theorem completeWindows_add (e : Entry) (hm : 0 < m) (hn : 0 < n) (boundary : Time) :
    SameOutcome cfg
      ((e.completeWindows cfg m boundary).1 ++ ((e.completeWindows cfg m boundary).2.completeWindows
          cfg n (boundary + m * cfg.window)).1,
        ((e.completeWindows cfg m boundary).2.completeWindows
          cfg n (boundary + m * cfg.window)).2)
      (e.completeWindows cfg (m + n) boundary) := by
  obtain ⟨ht, hc⟩ := completeWindows_steps hv e hm boundary
  obtain ⟨ht', hc'⟩ := (completeWindows_cap hv hc hn (boundary + m * cfg.window)).trans
    (completeWindows_steps hv _ hn _)
  have hrate : ((0 : Nat) : ℚ) / cfg.seconds = 0 := by
    rw [Nat.cast_zero, zero_div]
  simp only [withCount_count, hrate, stepWindows_withCount] at ht' hc'
  refine .trans ?_ (completeWindows_steps hv e (Nat.add_pos_left hm n) boundary).symm
  rw [stepWindows_add e _ m n boundary (.inl hm)]
  exact ⟨congrArg₂ (· ++ ·) ht ht', hc'⟩

end

end Entry

namespace Tracker

/-- The map and the ring name the same entries: a key leads to the slot that holds its entry. -/
structure WF (t : Tracker) : Prop where
  slots : ∀ k slot, t.items.lookup k = some slot ↔
    ∃ e, t.admissionRing[slot]? = some e ∧ e.key = k

def hotCount (ring : List Entry) : Int := ring.countP fun e => e.state = .hot

/-- Replace the entries of the ring and keep the count of hot entries in step. -/
def withRing (t : Tracker) (ring : List Entry) : Tracker :=
  { t with admissionRing := ring, hot := t.hot + (hotCount ring - hotCount t.admissionRing) }

theorem withRing_withRing (t : Tracker) (r r' : List Entry) :
    (t.withRing r).withRing r' = t.withRing r' := by
  simp only [withRing, mk.injEq, true_and, and_true]
  omega

theorem withRing_self (t : Tracker) : t.withRing t.admissionRing = t := by
  simp [withRing]

theorem WF.withRing (h : t.WF) {f : Entry → Entry} (hf : ∀ e, (f e).key = e.key) :
    (t.withRing (t.admissionRing.map f)).WF := by
  refine ⟨fun k slot => (h.slots k slot).trans ?_⟩
  simp [Tracker.withRing, hf]

theorem WF.set_eq_map (h : t.WF) (hk : t.items.lookup k = some slot)
    (hs : t.admissionRing[slot]? = some e) (f : Entry → Entry) :
    t.admissionRing.set slot (f e) =
      t.admissionRing.map fun x => if x.key = k then f x else x := by
  apply List.ext_getElem?
  intro i
  have hl := (List.getElem?_eq_some_iff.1 hs).1
  rw [List.getElem?_set, List.getElem?_map]
  by_cases hi : slot = i
  · subst hi
    obtain ⟨e₀, he₀, hk₀⟩ := (h.slots k slot).1 hk
    cases hs.symm.trans he₀
    rw [if_pos rfl, if_pos hl, hs, Option.map_some, if_pos hk₀]
  · rw [if_neg hi]
    cases hx : t.admissionRing[i]? with
    | none => rfl
    | some x =>
      have hne : x.key ≠ k := by
        intro hxk
        have := (h.slots k i).2 ⟨x, hx, hxk⟩
        rw [hk] at this
        exact hi (Option.some.inj this)
      rw [Option.map_some, if_neg hne]

theorem hotCount_set {ring : List Entry} (hs : ring[slot]? = some e) (e' : Entry) :
    hotCount (ring.set slot e') = hotCount ring + hotDelta e.state e'.state := by
  induction ring generalizing slot with
  | nil => simp at hs
  | cons x ring ih =>
    cases slot with
    | zero =>
      simp only [List.getElem?_cons_zero, Option.some.injEq] at hs
      subst hs
      simp only [hotCount, List.set_cons_zero, List.countP_cons, hotDelta, decide_eq_true_eq]
      split_ifs <;> push_cast <;> ring
    | succ slot =>
      have := ih hs
      simp only [hotCount, List.set_cons_succ, List.countP_cons] at this ⊢
      push_cast
      rw [this]
      ring

def about (k : Key) (l : List Transition) : List Transition := l.filter fun τ => τ.key = k

theorem about_append (k : Key) (l l' : List Transition) :
    about k (l ++ l') = about k l ++ about k l' :=
  List.filter_append l l'

theorem about_self {l : List Transition} (h : ∀ τ ∈ l, τ.key = k) : about k l = l :=
  List.filter_eq_self.2 fun τ hτ => by simpa using h τ hτ

theorem about_other {l : List Transition} (h : ∀ τ ∈ l, τ.key = k') (hk : k' ≠ k) :
    about k l = [] :=
  List.filter_eq_nil_iff.2 fun τ hτ => by simpa [h τ hτ] using hk

/-- The transitions of the windows that the entry of a key completes. -/
def keyTransitions (t : Tracker) (n : Nat) (boundary : Time) (k : Key) : List Transition :=
  match t.find k with
  | some e => (e.completeWindows t.cfg n boundary).1
  | none => []

theorem WF.find_key (h : t.WF) (hf : t.find k = some e) : e.key = k := by
  obtain ⟨slot, hl, hs⟩ := Option.bind_eq_some_iff.1 hf
  obtain ⟨e', hs', hk⟩ := (h.slots k slot).1 hl
  cases hs.symm.trans hs'
  exact hk

theorem WF.find_of_mem (h : t.WF) (he : e ∈ t.admissionRing) : t.find e.key = some e := by
  obtain ⟨slot, hs⟩ := List.getElem?_of_mem he
  rw [find, (h.slots e.key slot).2 ⟨e, hs, rfl⟩]
  exact hs

theorem WF.find_eq_none (h : t.WF) : t.find k = none ↔ t.items.lookup k = none := by
  constructor
  · intro hf
    cases hl : t.items.lookup k with
    | none => rfl
    | some slot =>
      obtain ⟨e, hs, -⟩ := (h.slots k slot).1 hl
      rw [find, hl, Option.bind_some, hs] at hf
      cases hf
  · intro hl
    rw [find, hl]
    rfl

theorem WF.mem_keys (h : t.WF) : k ∈ t.items.keys ↔ (t.find k).isSome := by
  rw [← AList.mem_keys, ← AList.lookup_isSome, ← not_iff_not, Option.not_isSome_iff_eq_none,
    Option.not_isSome_iff_eq_none, h.find_eq_none]

theorem advanceSlot_eq (h : t.WF) (n : Nat) (boundary : Time) (key : Key) :
    t.advanceSlot n boundary key = (t.keyTransitions n boundary key,
      t.withRing (t.admissionRing.map fun x =>
        if x.key = key then (x.completeWindows t.cfg n boundary).2 else x)) := by
  cases hl : t.items.lookup key with
  | none =>
    have hid : (t.admissionRing.map fun x =>
        if x.key = key then (x.completeWindows t.cfg n boundary).2 else x) = t.admissionRing := by
      refine (List.map_congr_left fun x hx => if_neg ?_).trans (List.map_id _)
      rintro rfl
      have hf := h.find_of_mem hx
      rw [h.find_eq_none.2 hl] at hf
      cases hf
    rw [hid, withRing_self, advanceSlot, hl, keyTransitions, h.find_eq_none.2 hl]
  | some slot =>
    obtain ⟨e, hs, hk⟩ := (h.slots key slot).1 hl
    have hf : t.find key = some e := by
      rw [find, hl, Option.bind_some, hs]
    rw [← h.set_eq_map hl hs fun x => (x.completeWindows t.cfg n boundary).2,
      advanceSlot, hl, keyTransitions, hf]
    dsimp only
    rw [hs, withRing, hotCount_set hs, add_sub_cancel_left]
    rfl

theorem find_withRing_map (t : Tracker) (f : Entry → Entry) (k : Key) :
    (t.withRing (t.admissionRing.map f)).find k = (t.find k).map f := by
  simp only [find, withRing]
  cases t.items.lookup k with
  | none => rfl
  | some slot => exact List.getElem?_map ..

theorem about_keyTransitions (hv : t.cfg.Valid) (h : t.WF) (hn : 0 < n) (boundary : Time)
    (key k : Key) : about k (t.keyTransitions n boundary key) =
      if k = key then t.keyTransitions n boundary key else [] := by
  have hall : ∀ τ ∈ t.keyTransitions n boundary key, τ.key = key := by
    rw [keyTransitions]
    cases hf : t.find key with
    | none => exact fun τ hτ => by cases hτ
    | some e =>
      rw [← h.find_key hf]
      exact e.completeWindows_about hv hn boundary
  split
  · rename_i hk
    rw [hk, about_self hall]
  · rename_i hk
    exact about_other hall (Ne.symm hk)

theorem advanceSlots_eq (hv : t.cfg.Valid) (h : t.WF) (hn : 0 < n) (boundary : Time)
    {order : List Key} (ho : order.Nodup) :
    (t.advanceSlots n boundary order).2 = t.withRing (t.admissionRing.map fun x =>
        if x.key ∈ order then (x.completeWindows t.cfg n boundary).2 else x) ∧
    ∀ k, about k (t.advanceSlots n boundary order).1 =
      if k ∈ order then t.keyTransitions n boundary k else [] := by
  induction order generalizing t with
  | nil =>
    refine ⟨?_, fun k => by simp [advanceSlots, about]⟩
    simp [advanceSlots, withRing_self]
  | cons key keys ih =>
    obtain ⟨hkey, hkeys⟩ := List.nodup_cons.1 ho
    let g (x : Entry) : Entry := if x.key = key then (x.completeWindows t.cfg n boundary).2 else x
    have hg : ∀ x, (g x).key = x.key := by
      intro x
      dsimp only [g]
      split
      · exact x.completeWindows_key hv hn boundary
      · rfl
    obtain ⟨hring, hlater⟩ := ih (t := t.withRing (t.admissionRing.map g)) hv (h.withRing hg) hkeys
    have hstep : t.advanceSlots n boundary (key :: keys) =
        (t.keyTransitions n boundary key ++
          ((t.withRing (t.admissionRing.map g)).advanceSlots n boundary keys).1,
        ((t.withRing (t.admissionRing.map g)).advanceSlots n boundary keys).2) := by
      rw [advanceSlots, advanceSlot_eq h]
    rw [hstep]
    refine ⟨hring.trans ?_, fun k => ?_⟩
    · rw [withRing_withRing]
      congr 1
      refine (List.map_map ..).trans (List.map_congr_left fun x _ => ?_)
      simp only [Function.comp_apply, hg, List.mem_cons]
      by_cases hx : x.key = key
      · simp [g, hx, hkey]
      · simp [g, hx]
        rfl
    · rw [about_append, about_keyTransitions hv h hn, hlater]
      by_cases hk : k = key
      · subst hk
        simp [hkey]
      · have hfind : (t.withRing (t.admissionRing.map g)).keyTransitions n boundary k =
            t.keyTransitions n boundary k := by
          rw [keyTransitions, keyTransitions, find_withRing_map]
          cases hf : t.find k with
          | none => rfl
          | some e =>
            have : e.key ≠ key := by
              rw [h.find_key hf]
              exact hk
            simp [g, this]
            rfl
        simp [hk, hfind]

def completed (t : Tracker) (n : Nat) : Tracker :=
  { t.withRing (t.admissionRing.map fun x =>
      (x.completeWindows t.cfg n (t.window + t.cfg.window)).2) with
    window := t.window + n * t.cfg.window }

theorem elapsedWindows_pos (t : Tracker) (now : Time) : 0 < t.elapsedWindows now :=
  Nat.lt_of_lt_of_le Nat.zero_lt_one (Nat.le_max_right _ _)

theorem elapsedWindows_spec (hw : 0 < t.cfg.window) (h : t.window + t.cfg.window ≤ now) :
    t.elapsedWindows now * t.cfg.window ≤ now - t.window ∧
      now - t.window < (t.elapsedWindows now + 1) * t.cfg.window := by
  have hx : t.cfg.window ≤ now - t.window := by linarith
  have hdiv : (t.elapsedWindows now : Int) = (now - t.window) / t.cfg.window := by
    have h₁ : 1 ≤ (now - t.window) / t.cfg.window := Int.le_ediv_of_mul_le hw (by rwa [one_mul])
    have hmax : ∀ q : Int, 1 ≤ q → ((max q.toNat 1 : Nat) : Int) = q := by omega
    rw [elapsedWindows, Int.tdiv_eq_ediv_of_nonneg (hw.le.trans hx)]
    exact hmax _ h₁
  rw [hdiv]
  exact ⟨Int.ediv_mul_le _ hw.ne', Int.lt_ediv_add_one_mul_self _ hw⟩

theorem advanceLocked_early (h : now < t.window + t.cfg.window) (order : List Key) :
    t.advanceLocked order now = ([], t) := if_pos h

theorem advanceLocked_late (hv : t.cfg.Valid) (hw : t.WF) (h : t.window + t.cfg.window ≤ now)
    (ho : order.Perm t.items.keys) :
    (t.advanceLocked order now).2 = t.completed (t.elapsedWindows now) ∧
    ∀ k, about k (t.advanceLocked order now).1 =
      t.keyTransitions (t.elapsedWindows now) (t.window + t.cfg.window) k := by
  obtain ⟨hring, htrans⟩ := advanceSlots_eq hv hw (t.elapsedWindows_pos now)
    (t.window + t.cfg.window) (ho.nodup_iff.2 t.items.keys_nodup)
  rw [advanceLocked, if_neg (not_lt.2 h)]
  refine ⟨?_, fun k => (htrans k).trans ?_⟩
  · have hall : ∀ x ∈ t.admissionRing, x.key ∈ order := by
      intro x hx
      exact (ho.mem_iff.trans hw.mem_keys).2 (Option.isSome_of_mem (hw.find_of_mem hx))
    have hmap : (t.admissionRing.map fun x => if x.key ∈ order then
          (x.completeWindows t.cfg (t.elapsedWindows now) (t.window + t.cfg.window)).2 else x) =
        t.admissionRing.map fun x =>
          (x.completeWindows t.cfg (t.elapsedWindows now) (t.window + t.cfg.window)).2 :=
      List.map_congr_left fun x hx => if_pos (hall x hx)
    rw [hmap] at hring
    dsimp only
    rw [hring]
    rfl
  · split
    · rfl
    · rename_i hk
      rw [ho.mem_iff, hw.mem_keys, Option.not_isSome_iff_eq_none] at hk
      rw [keyTransitions, hk]

end Tracker
end Slizen.Hotness
