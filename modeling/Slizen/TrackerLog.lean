import Slizen.Scorer
import Slizen.TrackerInvariant

namespace Slizen.Hotness
set_option autoImplicit true

variable {t : Tracker}

/-- The transitions lead from one state to another, each from where the one before it ends. -/
inductive Path : State → List Transition → State → Prop where
  | nil (s : State) : Path s [] s
  | cons (τ : Transition) (h : Path τ.after l s) : Path τ.before (τ :: l) s

namespace Transition

/-- What `applyTransitions` counts as a promotion. -/
def IsPromotion (τ : Transition) : Prop := τ.after = .hot ∧ τ.before ≠ .hot

/-- What `applyTransitions` counts as a demotion. -/
def IsDemotion (τ : Transition) : Prop := τ.before = .hot ∧ τ.after ≠ .hot

instance : DecidablePred IsPromotion := fun _ => inferInstanceAs (Decidable (_ ∧ _))

instance : DecidablePred IsDemotion := fun _ => inferInstanceAs (Decidable (_ ∧ _))

end Transition

def promotions (l : List Transition) : Nat := l.countP fun τ => τ.IsPromotion

def demotions (l : List Transition) : Nat := l.countP fun τ => τ.IsDemotion

theorem promotions_append (l l' : List Transition) :
    promotions (l ++ l') = promotions l + promotions l' := List.countP_append

theorem demotions_append (l l' : List Transition) :
    demotions (l ++ l') = demotions l + demotions l' := List.countP_append

namespace Path

theorem append (h : Path s l s') (h' : Path s' l' s'') : Path s (l ++ l') s'' := by
  induction h with
  | nil => exact h'
  | cons τ _ ih => exact .cons τ (ih h')

theorem exists_demotion (h : Path s l s') (hs : s = .hot) (hs' : s' ≠ .hot) :
    ∃ τ ∈ l, τ.IsDemotion := by
  induction h with
  | nil => exact absurd hs hs'
  | cons τ _ ih =>
    by_cases ha : τ.after = .hot
    · obtain ⟨τ', hm, hd⟩ := ih ha hs'
      exact ⟨τ', List.mem_cons_of_mem _ hm, hd⟩
    · exact ⟨τ, List.mem_cons_self, hs, ha⟩

/-- Along a path the promotions outnumber the demotions by what happened to the HOT state. -/
theorem balance (h : Path s l s') : (promotions l : Int) - demotions l = hotDelta s s' := by
  induction h with
  | nil s => simp [promotions, demotions, hotDelta]
  | @cons l s' τ _ ih =>
    simp only [promotions, demotions, List.countP_cons, Transition.IsPromotion,
      Transition.IsDemotion] at ih ⊢
    simp only [hotDelta] at ih ⊢
    split_ifs at ih ⊢ <;> simp_all <;> omega

end Path

namespace Entry

variable {cfg : Config}

/-- What happens to an entry and what is reported about it. -/
structure Moves (e : Entry) (p : List Transition × Entry) : Prop where
  key : p.2.key = e.key
  about : ∀ τ ∈ p.1, τ.key = e.key
  path : Path e.state p.1 p.2.state

theorem Moves.still {e e' : Entry} (hk : e'.key = e.key) (hs : e'.state = e.state) :
    e.Moves ([], e') :=
  ⟨hk, nofun, hs ▸ .nil _⟩

theorem Moves.trans {e : Entry} (h : e.Moves p) (h' : p.2.Moves q) : e.Moves (p.1 ++ q.1, q.2) where
  key := h'.key.trans h.key
  about := by
    intro τ hτ
    rcases List.mem_append.1 hτ with hτ | hτ
    · exact h.about τ hτ
    · exact (h'.about τ hτ).trans h.key
  path := h.path.append h'.path

theorem Moves.single {e e' : Entry} (hk : e'.key = e.key) :
    e.Moves ([⟨e.key, e.state, e'.state⟩], e') :=
  ⟨hk, fun τ hτ => by rw [List.mem_singleton.1 hτ], .cons ⟨e.key, e.state, e'.state⟩ (.nil _)⟩

theorem moves_changedFrom {e e' : Entry} (hk : e'.key = e.key) :
    e.Moves (e'.changedFrom e.state, e') := by
  unfold changedFrom
  split
  · rename_i hs
    exact .still hk hs.symm
  · rw [hk]
    exact .single hk

theorem Moves.of_same {e : Entry} (e₀ : Entry) (hk : e₀.key = e.key) (hs : e₀.state = e.state)
    (h : e₀.Moves p) : e.Moves p :=
  ⟨h.key.trans hk, fun τ hτ => (h.about τ hτ).trans hk, hs ▸ h.path⟩

theorem Moves.congr {e : Entry} (h : e.Moves (l, e₁)) (hk : e₂.key = e₁.key)
    (hs : e₂.state = e₁.state) : e.Moves (l, e₂) :=
  ⟨hk.trans h.key, h.about, hs ▸ h.path⟩

theorem applyState_key (e : Entry) (now : Time) : (e.applyState cfg now).key = e.key := by
  simp only [applyState, applyHigh, applyMid, applyLow, apply_ite Entry.key, ite_self]

theorem moves_catchUpHigh (cfg : Config) (e : Entry) (n : Nat) : e.Moves (e.catchUpHigh cfg n) := by
  unfold catchUpHigh
  split
  · refine moves_changedFrom ?_
    simp only [apply_ite Entry.key, ite_self]
  · exact .still rfl rfl

theorem moves_catchUpMid (e : Entry) (n : Nat) : e.Moves (e.catchUpMid n) := by
  unfold catchUpMid
  split
  · refine moves_changedFrom ?_
    simp only [applyMid, apply_ite Entry.key, ite_self]
  · exact .still rfl rfl

theorem Moves.to {e : Entry} (e' : Entry) (hk : e'.key = e.key) (hs : e.state = s)
    (hs' : e'.state = s') : e.Moves ([⟨e.key, s, s'⟩], e') := by
  subst hs hs'
  exact .single hk

theorem Moves.ended {e e₁ : Entry} (h : e.Moves (l, e₁)) (final : ℚ) (finish : Time) : e.Moves
    (if e₁.state = .cooling ∧ finish - e₁.coolingAt ≥ cfg.cooldown then
      (l ++ [⟨e₁.key, .cooling, .cold⟩], { e₁ with state := .cold, coolingAt := 0 })
    else if e₁.state = .warm ∧ final = 0 then
      (l ++ [⟨e₁.key, .warm, .cold⟩], { e₁ with state := .cold })
    else (l, e₁)) := by
  split
  · rename_i hs
    exact h.trans (Moves.to { e₁ with state := .cold, coolingAt := 0 } rfl hs.1 rfl)
  · split
    · rename_i hs
      exact h.trans (Moves.to { e₁ with state := .cold } rfl hs.1 rfl)
    · exact h

theorem moves_catchUpLow (cfg : Config) (e : Entry) (n : Nat) (final : ℚ) (start finish : Time) :
    e.Moves (e.catchUpLow cfg n final start finish) := by
  unfold catchUpLow
  split
  · refine .of_same { e with hotWindows := 0 } rfl rfl ?_
    dsimp only
    split
    · rename_i hs
      refine .ended ?_ final finish
      exact .to _ rfl hs rfl
    · exact .ended (.still rfl rfl) final finish
  · exact .still rfl rfl

theorem moves_catchUp (e : Entry) (high atLeast remaining : Nat) (final : ℚ) (boundary : Time) :
    e.Moves (e.catchUp cfg high atLeast remaining final boundary) := by
  have h := ((moves_catchUpHigh cfg e high).trans
    (moves_catchUpMid _ (atLeast - high))).trans
    (moves_catchUpLow cfg _ (remaining - atLeast) final
      (boundary + (atLeast + 1 : Nat) * cfg.window) (boundary + remaining * cfg.window))
  exact h.congr rfl rfl

theorem moves_advanceEntryLocked (e : Entry) (rate : ℚ) (n : Nat) (boundary : Time) :
    e.Moves (e.advanceEntryLocked cfg rate n boundary) := by
  let first : Entry :=
    { e with score := cfg.ewmaAlpha * rate + (1 - cfg.ewmaAlpha) * e.score, lastRate := rate }
  have hfirst : e.Moves (first.applyStateLocked cfg boundary) :=
    .of_same first rfl rfl (moves_changedFrom (applyState_key _ _))
  simp only [advanceEntryLocked]
  split
  · exact hfirst
  · exact hfirst.trans (.of_same { (first.applyStateLocked cfg boundary).2 with lastRate := 0 }
      rfl rfl (moves_catchUp _ _ _ _ _ _))

end Entry

namespace Tracker

/-- The representation of a tracker: the ring and the map name the same entries, within the
capacity, every key can be tracked, the cursor of a full ring stays inside it, and the cached
count is that of the HOT entries. -/
structure Rep (t : Tracker) : Prop extends WF t where
  capacity : t.admissionRing.length ≤ t.cfg.maxTrackedKeys
  keys : ∀ e ∈ t.admissionRing, e.key ≠ [] ∧ e.key.length ≤ maxTrackedKeyBytes
  victim : t.nextVictim = 0 ∨ t.nextVictim < t.admissionRing.length
  hot : t.hot = hotCount t.admissionRing

def stateOf (t : Tracker) (k : Key) : State := ((t.find k).map Entry.state).getD .cold

theorem stateOf_some (h : t.find k = some e) : t.stateOf k = e.state := by
  rw [stateOf, h]
  rfl

theorem stateOf_none (h : t.find k = none) : t.stateOf k = .cold := by
  rw [stateOf, h]
  rfl

/-- What a part of a call may do: it keeps the representation, and what it reports leads from the
old state of each key to the new one. -/
structure Reports (t : Tracker) (l : List Transition) (t' : Tracker) : Prop where
  rep : t'.Rep
  cfg : t'.cfg = t.cfg
  path : ∀ k, Path (t.stateOf k) (about k l) (t'.stateOf k)
  balance : (promotions l : Int) - demotions l = t'.hot - t.hot

theorem Reports.trans (h : t.Reports l t₁) (h' : t₁.Reports l' t₂) : t.Reports (l ++ l') t₂ where
  rep := h'.rep
  cfg := h'.cfg.trans h.cfg
  path := fun k => by
    rw [about_append]
    exact (h.path k).append (h'.path k)
  balance := by
    rw [promotions_append, demotions_append]
    push_cast
    linarith [h.balance, h'.balance]

theorem Reports.silent {t t' : Tracker} (hr : t'.Rep) (hc : t'.cfg = t.cfg) (hh : t'.hot = t.hot)
    (hs : ∀ k, t'.stateOf k = t.stateOf k) : t.Reports [] t' :=
  ⟨hr, hc, fun k => by rw [hs k]; exact .nil _, by simp [promotions, demotions, hh]⟩

theorem Rep.reports_self (h : t.Rep) : t.Reports [] t :=
  .silent h rfl rfl fun _ => rfl

theorem rep_new (cfg : Config) (now : Time) : (new cfg now).Rep where
  slots := fun k slot => by simp [new]
  capacity := by
    show ((0 : Nat) : Int) ≤ if cfg.maxTrackedKeys ≤ 0 then 1 else cfg.maxTrackedKeys
    split <;> omega
  keys := nofun
  victim := .inl rfl
  hot := rfl

theorem WF.find_eq_some (h : t.WF) :
    t.find k = some e ↔ ∃ slot : Nat, t.admissionRing[slot]? = some e ∧ e.key = k := by
  constructor
  · intro hf
    obtain ⟨slot, -, hs⟩ := Option.bind_eq_some_iff.1 hf
    exact ⟨slot, hs, h.find_key hf⟩
  · rintro ⟨slot, hs, rfl⟩
    exact h.find_of_mem (List.mem_of_getElem? hs)

theorem find_replace (h : t.WF) (hs : t.admissionRing[slot]? = some e) (e' : Entry) (k : Key) :
    (t.replace slot e e').find k = if k = e.key then some e' else t.find k := by
  have hl : t.items.lookup e.key = some slot := (h.slots _ _).2 ⟨e, hs, rfl⟩
  have hlt := (List.getElem?_eq_some_iff.1 hs).1
  split
  · rename_i hke
    subst hke
    simp [find, replace, hl, hlt]
  · rename_i hke
    simp only [find, replace]
    cases hlk : t.items.lookup k with
    | none => rfl
    | some i =>
      have hi : slot ≠ i := by
        rintro rfl
        obtain ⟨x, hx, hxk⟩ := (h.slots k slot).1 hlk
        cases hs.symm.trans hx
        exact hke hxk.symm
      exact List.getElem?_set_ne hi

theorem Rep.replace (h : t.Rep) (hs : t.admissionRing[slot]? = some e)
    (hm : e.Moves (l, e')) : t.Reports l (t.replace slot e e') := by
  have hk : e'.key = e.key := hm.key
  refine ⟨⟨h.toWF.replace hs hk, ?_, ?_, ?_, ?_⟩, rfl, fun k => ?_, ?_⟩
  · simpa [Tracker.replace] using h.capacity
  · intro x hx
    rcases List.mem_or_eq_of_mem_set hx with hx | rfl
    · exact h.keys x hx
    · rw [hk]
      exact h.keys e (List.mem_of_getElem? hs)
  · simpa [Tracker.replace] using h.victim
  · show t.hot + hotDelta e.state e'.state = hotCount (t.admissionRing.set slot e')
    rw [hotCount_set hs, h.hot]
  · by_cases hke : k = e.key
    · subst hke
      have hf := find_replace h.toWF hs e' e.key
      rw [if_pos rfl] at hf
      rw [stateOf_some hf, stateOf_some (h.find_of_mem (List.mem_of_getElem? hs)),
        about_self hm.about]
      exact hm.path
    · have hf := find_replace h.toWF hs e' k
      rw [if_neg hke] at hf
      rw [about_other hm.about (Ne.symm hke), stateOf, stateOf, hf]
      exact .nil _
  · rw [hm.path.balance]
    exact (add_sub_cancel_left _ _).symm

theorem Rep.advanceSlot (h : t.Rep) (n : Nat) (boundary : Time) (key : Key) :
    t.Reports (t.advanceSlot n boundary key).1 (t.advanceSlot n boundary key).2 := by
  rw [Tracker.advanceSlot]
  cases t.items.lookup key with
  | none => exact h.reports_self
  | some slot =>
    dsimp only
    cases hs : t.admissionRing[slot]? with
    | none => exact h.reports_self
    | some e => exact h.replace hs ((e.moves_advanceEntryLocked _ n boundary).congr rfl rfl)

theorem Rep.advanceSlots (h : t.Rep) (n : Nat) (boundary : Time) (order : List Key) :
    t.Reports (t.advanceSlots n boundary order).1 (t.advanceSlots n boundary order).2 := by
  induction order generalizing t with
  | nil => exact h.reports_self
  | cons key keys ih =>
    have hstep := h.advanceSlot n boundary key
    exact hstep.trans (ih hstep.rep)

theorem Rep.advanceLocked (h : t.Rep) (order : List Key) (now : Time) :
    t.Reports (t.advanceLocked order now).1 (t.advanceLocked order now).2 := by
  rw [Tracker.advanceLocked]
  split
  · exact h.reports_self
  · have hs := h.advanceSlots (t.elapsedWindows now) (t.window + t.cfg.window) order
    exact ⟨⟨⟨hs.rep.slots⟩, hs.rep.capacity, hs.rep.keys, hs.rep.victim, hs.rep.hot⟩, hs.cfg,
      hs.path, hs.balance⟩

def Trackable (key : Key) : Prop := key ≠ [] ∧ key.length ≤ maxTrackedKeyBytes

theorem find_append (h : t.WF) (hf : t.items.lookup key = none) (now : Time) (k : Key) :
    find { t with
      admissionRing := t.admissionRing ++ [freshEntry key now]
      items := t.items.insert key t.admissionRing.length } k =
      if k = key then some (freshEntry key now) else t.find k := by
  have hw := h.append hf now
  split
  · rename_i hkk
    subst hkk
    exact hw.find_eq_some.2 ⟨t.admissionRing.length, by simp, rfl⟩
  · rename_i hkk
    simp only [find]
    rw [AList.lookup_insert_ne hkk]
    cases hlk : t.items.lookup k with
    | none => rfl
    | some i =>
      obtain ⟨x, hx, -⟩ := (h.slots k i).1 hlk
      simp [List.getElem?_append_left (List.getElem?_eq_some_iff.1 hx).1]

theorem Rep.append (h : t.Rep) (hf : t.items.lookup key = none)
    (hl : t.admissionRing.length < t.cfg.maxTrackedKeys) (hk : Trackable key) (now : Time) :
    t.Reports []
      { t with
        admissionRing := t.admissionRing ++ [freshEntry key now]
        items := t.items.insert key t.admissionRing.length } := by
  have hw := h.toWF.append hf now
  refine .silent ⟨hw, ?_, ?_, ?_, ?_⟩ rfl rfl fun k => ?_
  · simp only [List.length_append, List.length_singleton]
    omega
  · intro e he
    rcases List.mem_append.1 he with he | he
    · exact h.keys e he
    · rw [List.mem_singleton.1 he]
      exact hk
  · refine h.victim.imp_right fun hv => ?_
    simp only [List.length_append]
    omega
  · simpa [hotCount, freshEntry] using h.hot
  · rw [stateOf, find_append h.toWF hf now k]
    split
    · rename_i hkk
      rw [hkk, stateOf_none (h.toWF.find_eq_none.2 hf)]
      rfl
    · rfl

theorem find_reuse {victim : Entry} (h : t.WF) (hs : t.admissionRing[slot]? = some victim)
    (key : Key) (now : Time) (k : Key) :
    find { t with
      admissionRing := t.admissionRing.set slot (freshEntry key now)
      items := (t.items.erase victim.key).insert key slot } k =
      if k = key then some (freshEntry key now)
      else if k = victim.key then none else t.find k := by
  have hlt := (List.getElem?_eq_some_iff.1 hs).1
  simp only [find]
  by_cases hkk : k = key
  · rw [if_pos hkk, hkk, AList.lookup_insert]
    exact List.getElem?_set_self hlt
  · rw [if_neg hkk, AList.lookup_insert_ne hkk]
    by_cases hkv : k = victim.key
    · rw [if_pos hkv, hkv, AList.lookup_erase]
      rfl
    · rw [if_neg hkv, AList.lookup_erase_ne hkv]
      cases hlk : t.items.lookup k with
      | none => rfl
      | some i =>
        have hi : slot ≠ i := by
          rintro rfl
          obtain ⟨x, hx, hxk⟩ := (h.slots k slot).1 hlk
          cases hs.symm.trans hx
          exact hkv hxk.symm
        exact List.getElem?_set_ne hi

theorem stateOf_reuse {victim : Entry} (h : t.WF) (hf : t.items.lookup key = none)
    (hs : t.admissionRing[slot]? = some victim) (now : Time) (k : Key) :
    stateOf { t with
      admissionRing := t.admissionRing.set slot (freshEntry key now)
      items := (t.items.erase victim.key).insert key slot } k =
      if k = victim.key then .cold else t.stateOf k := by
  have hv : t.items.lookup victim.key = some slot := (h.slots _ _).2 ⟨victim, hs, rfl⟩
  rw [stateOf, find_reuse h hs key now k]
  by_cases hkk : k = key
  · have hne : k ≠ victim.key := by
      rintro rfl
      rw [hkk, hf] at hv
      cases hv
    rw [if_pos hkk, if_neg hne, hkk, stateOf_none (h.find_eq_none.2 hf)]
    rfl
  · rw [if_neg hkk]
    split
    · rfl
    · rfl

def evicted (victim : Entry) : Option Transition :=
  if victim.state = .cold then none else some ⟨victim.key, victim.state, .cold⟩

theorem Rep.reuse {victim : Entry} (h : t.Rep) (hf : t.items.lookup key = none)
    (hs : t.admissionRing[slot]? = some victim) (hk : Trackable key) (now : Time) (next n : Nat)
    (hnext : next = 0 ∨ next < t.admissionRing.length) :
    t.Reports (evicted victim).toList
      { t with
        nextVictim := next
        items := (t.items.erase victim.key).insert key slot
        hot := t.hot + hotDelta victim.state .cold
        evictions := n
        admissionRing := t.admissionRing.set slot (freshEntry key now) } := by
  have habout : ∀ τ ∈ (evicted victim).toList, τ.key = victim.key := by
    intro τ hτ
    unfold evicted at hτ
    split at hτ
    · cases hτ
    · rw [List.mem_singleton.1 hτ]
  have hpath : Path victim.state (evicted victim).toList .cold := by
    unfold evicted
    split
    · rename_i hc
      rw [hc]
      exact .nil _
    · exact .cons ⟨victim.key, victim.state, .cold⟩ (.nil _)
  refine ⟨⟨⟨(h.toWF.reuse hf hs now).slots⟩, ?_, ?_, ?_, ?_⟩, rfl, fun k => ?_, ?_⟩
  · simpa using h.capacity
  · intro e he
    rcases List.mem_or_eq_of_mem_set he with he | rfl
    · exact h.keys e he
    · exact hk
  · simpa using hnext
  · show t.hot + hotDelta victim.state .cold =
      hotCount (t.admissionRing.set slot (freshEntry key now))
    rw [hotCount_set hs, h.hot]
    rfl
  · refine (stateOf_reuse h.toWF hf hs now k) ▸ ?_
    split
    · rename_i hkv
      rw [hkv, stateOf_some (h.find_of_mem (List.mem_of_getElem? hs)), about_self habout]
      exact hpath
    · rename_i hkv
      rw [about_other habout (Ne.symm hkv)]
      exact .nil _
  · rw [hpath.balance]
    exact (add_sub_cancel_left _ _).symm

theorem Rep.getOrCreateLocked (h : t.Rep) (hk : Trackable key) (now : Time) :
    (∃ t', t.getOrCreateLocked key now = (none, t') ∧ t.Reports [] t') ∨
      ∃ slot eviction t' e, t.getOrCreateLocked key now = (some (slot, eviction), t') ∧
        t.Reports eviction.toList t' ∧ t'.admissionRing[slot]? = some e := by
  rw [Tracker.getOrCreateLocked]
  cases hf : t.items.lookup key with
  | some slot =>
    obtain ⟨e, hs, -⟩ := (h.slots key slot).1 hf
    exact .inr ⟨slot, none, t, e, rfl, h.reports_self, hs⟩
  | none =>
    dsimp only
    by_cases hl : (t.admissionRing.length : Int) < t.cfg.maxTrackedKeys
    · rw [if_pos hl]
      exact .inr ⟨_, none, _, freshEntry key now, rfl, h.append hf hl hk now,
        List.getElem?_concat_length⟩
    · rw [if_neg hl]
      cases hs : t.admissionRing[t.nextVictim]? with
      | none => exact .inl ⟨t, rfl, h.reports_self⟩
      | some victim =>
        have hlt := (List.getElem?_eq_some_iff.1 hs).1
        have hnext :
          (if t.nextVictim + 1 = t.admissionRing.length then 0 else t.nextVictim + 1) = 0 ∨
            (if t.nextVictim + 1 = t.admissionRing.length then 0 else t.nextVictim + 1) <
              t.admissionRing.length := by
          split <;> omega
        dsimp only
        split
        · exact .inl ⟨_, rfl, .silent ⟨⟨h.slots⟩, h.capacity, h.keys, hnext, h.hot⟩ rfl rfl
            fun _ => rfl⟩
        · exact .inr ⟨_, evicted victim, _, freshEntry key now, rfl,
            h.reuse hf hs hk now _ (t.evictions + 1) hnext, List.getElem?_set_self hlt⟩

theorem moves_commitGuaranteedPromotionLocked (cfg : Config) (e : Entry) :
    e.Moves (commitGuaranteedPromotionLocked cfg e) := by
  rw [commitGuaranteedPromotionLocked]
  split
  · rename_i hg
    have hw : e.state = .warm := by
      simp only [guaranteedPromotion, decide_eq_true_eq] at hg
      exact hg.1
    exact Entry.Moves.to { e with state := .hot, hotWindows := e.hotWindows + 1 } rfl hw rfl
  · exact .still rfl rfl

/-- `observeLocked` with any step in the place of the guaranteed promotion. -/
def observeWith (commit : Config → Entry → List Transition × Entry) (t : Tracker) (key : Key)
    (now : Time) : Observation × Tracker :=
  if key.length > maxTrackedKeyBytes then
    let t := { t with oversizedObservationsDropped := t.oversizedObservationsDropped + 1 }
    ({ t.observation [] none with oversizedObservationDropped := true }, t)
  else if key = [] then (t.observation [] none, t)
  else
    match t.getOrCreateLocked key now with
    | (none, t) => ({ t.observation [] none with capacityObservationDropped := true }, t)
    | (some (slot, eviction), t) =>
      match t.admissionRing[slot]? with
      | none => (t.observation [] none, t)
      | some ent =>
        let (promotion, ent') := commit t.cfg { ent with count := ent.count + 1, lastSeen := now }
        let t := t.replace slot ent ent'
        (t.observation (eviction.toList ++ promotion) (some ent'.state), t)

theorem Rep.observeWith (h : t.Rep) {commit : Config → Entry → List Transition × Entry}
    (hc : ∀ cfg (e : Entry), e.Moves (commit cfg e)) (key : Key) (now : Time) :
    t.Reports (t.observeWith commit key now).1.transitions (t.observeWith commit key now).2 := by
  rw [Tracker.observeWith]
  split
  · exact .silent ⟨⟨h.slots⟩, h.capacity, h.keys, h.victim, h.hot⟩ rfl rfl fun _ => rfl
  · rename_i hlong
    split
    · exact h.reports_self
    · rename_i hempty
      rcases h.getOrCreateLocked ⟨hempty, not_lt.1 hlong⟩ now with
        ⟨t₁, hg, hr⟩ | ⟨slot, eviction, t₁, e, hg, hr, hs⟩
      · rw [hg]
        exact hr
      · have hm : e.Moves _ := .of_same { e with count := e.count + 1, lastSeen := now } rfl rfl
          (hc t₁.cfg _)
        simp only [hg, hs]
        exact hr.trans (hr.rep.replace hs hm)

theorem Rep.observeLocked (h : t.Rep) (key : Key) (now : Time) :
    t.Reports (t.observeLocked key now).1.transitions (t.observeLocked key now).2 :=
  h.observeWith moves_commitGuaranteedPromotionLocked key now

theorem admitEntry_state (e : Entry) : (admitEntry e).state = .hot := by
  rw [admitEntry]
  split
  · assumption
  · rfl

theorem moves_admitEntry (e : Entry) :
    e.Moves ((admitEntry e).changedFrom e.state, admitEntry e) := by
  refine Entry.moves_changedFrom ?_
  rw [admitEntry]
  split <;> rfl

theorem Rep.admitLocked (h : t.Rep) (key : Key) :
    t.Reports (t.admitLocked key).1.transitions (t.admitLocked key).2 := by
  rw [Tracker.admitLocked]
  cases t.items.lookup key with
  | none => exact h.reports_self
  | some slot =>
    dsimp only
    cases hs : t.admissionRing[slot]? with
    | none => exact h.reports_self
    | some e => exact h.replace hs (moves_admitEntry e)

theorem Rep.observeWithState (h : t.Rep) (order : List Key) (key : Key) (now : Time) :
    t.Reports (t.observeWithState order key now).1.transitions
      (t.observeWithState order key now).2 := by
  have hadv := h.advanceLocked order now
  exact hadv.trans (hadv.rep.observeLocked key now)

theorem Rep.admitKey (h : t.Rep) (order : List Key) (key : Key) (now : Time) :
    t.Reports (t.admitKey order key now).1.transitions (t.admitKey order key now).2 := by
  have hadv := h.advanceLocked order now
  exact hadv.trans (hadv.rep.admitLocked key)

theorem isHot_iff : t.isHot k = true ↔ t.stateOf k = .hot := by
  rw [isHot, stateOf]
  cases t.find k with
  | none => simp
  | some e => simp

theorem Rep.trackable (h : t.Rep) (hf : t.find k = some e) : Trackable k := by
  obtain ⟨slot, hs, rfl⟩ := h.find_eq_some.1 hf
  exact h.keys e (List.mem_of_getElem? hs)

theorem Rep.trackable_of_isHot (h : t.Rep) (hk : t.isHot k = true) : Trackable k := by
  rw [isHot] at hk
  split at hk
  · exact h.trackable ‹_›
  · cases hk

theorem Rep.trackable_of_isTracked (h : t.Rep) (hk : t.isTracked k = true) : Trackable k := by
  obtain ⟨e, he⟩ := Option.isSome_iff_exists.1 (h.mem_keys.1 (AList.lookup_isSome.1 hk))
  exact h.trackable he

theorem Rep.isHot_admitKey (h : t.Rep) (hs : (t.admitKey order key now).1.state = some .hot) :
    (t.admitKey order key now).2.isHot key = true := by
  have hr := (h.advanceLocked order now).rep
  generalize ht : (t.advanceLocked order now).2 = t₁ at hr
  have hadm : t.admitKey order key now =
      ({ (t₁.admitLocked key).1 with
        transitions := (t.advanceLocked order now).1 ++ (t₁.admitLocked key).1.transitions },
        (t₁.admitLocked key).2) := by
    rw [Tracker.admitKey, ← ht]
  rw [hadm] at hs ⊢
  dsimp only at hs ⊢
  rw [Tracker.admitLocked] at hs ⊢
  cases hl : t₁.items.lookup key with
  | none => simp [hl, observation] at hs
  | some slot =>
    simp only [hl] at hs ⊢
    cases he : t₁.admissionRing[slot]? with
    | none => simp [he, observation] at hs
    | some e =>
      simp only [he, observation, Option.some.injEq] at hs ⊢
      obtain ⟨e', he', hk⟩ := (hr.slots key slot).1 hl
      rw [he] at he'
      cases he'
      rw [isHot, find_replace hr.toWF he, if_pos hk.symm]
      simpa using hs

theorem Reports.demoted (h : t.Reports l t') (hk : t.isHot k = true)
    (hk' : t'.isHot k ≠ true) : ∃ τ ∈ l, τ.IsDemotion ∧ τ.key = k := by
  rw [isHot_iff] at hk
  rw [Ne, isHot_iff] at hk'
  obtain ⟨τ, hm, hd⟩ := (h.path k).exists_demotion hk hk'
  obtain ⟨hl, hkey⟩ := List.mem_filter.1 hm
  exact ⟨τ, hl, hd, by simpa using hkey⟩

end Tracker
end Slizen.Hotness
