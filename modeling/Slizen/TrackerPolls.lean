import Slizen.TrackerInvariant

namespace Slizen.Hotness.Tracker
set_option autoImplicit true

theorem capped_find (t : Tracker) (k : Key) :
    t.capped.find k = (t.find k).map (Entry.cap t.cfg) := by
  simp only [find, capped]
  cases t.items.lookup k with
  | none => rfl
  | some slot => exact List.getElem?_map ..

theorem WF.of_capped {t t' : Tracker} (hw : t.WF) (h : t.capped = t'.capped) : t'.WF := by
  have hc : t.capped.WF := by
    refine ⟨fun k slot => (hw.slots k slot).trans ?_⟩
    simp [capped, Entry.cap]
  rw [h] at hc
  refine ⟨fun k slot => (hc.slots k slot).trans ?_⟩
  simp [capped, Entry.cap]

theorem keyTransitions_capped {t t' : Tracker} (hv : t.cfg.Valid) (h : t.capped = t'.capped)
    (hn : 0 < n) (boundary : Time) (k : Key) :
    t.keyTransitions n boundary k = t'.keyTransitions n boundary k := by
  have hc := (capped_eq_iff.1 h).1
  have hf := capped_find t k
  rw [h, capped_find, ← hc] at hf
  rw [keyTransitions, keyTransitions, ← hc]
  cases ht : t.find k with
  | none =>
    rw [ht, Option.map_none, Option.map_eq_none_iff] at hf
    rw [hf]
  | some e =>
    rw [ht, Option.map_some] at hf
    obtain ⟨e', he', hcap⟩ := Option.map_eq_some_iff.1 hf
    rw [he']
    exact (Entry.completeWindows_cap hv hcap.symm hn boundary).1

theorem advanceLocked_capped {t t' : Tracker} (hv : t.cfg.Valid) (hw : t.WF)
    (h : t.capped = t'.capped) (ho : o.Perm t.items.keys) (ho' : o'.Perm t'.items.keys)
    (now : Time) :
    (t.advanceLocked o now).2.capped = (t'.advanceLocked o' now).2.capped ∧
    ∀ k, about k (t.advanceLocked o now).1 = about k (t'.advanceLocked o' now).1 := by
  obtain ⟨hc, hwin, -⟩ := capped_eq_iff.1 h
  by_cases hlt : now < t.window + t.cfg.window
  · have hlt' : now < t'.window + t'.cfg.window := by
      rwa [← hc, ← hwin]
    rw [advanceLocked_early hlt, advanceLocked_early hlt']
    exact ⟨h, fun _ => rfl⟩
  · rw [not_lt] at hlt
    have hlt' : t'.window + t'.cfg.window ≤ now := by
      rwa [← hc, ← hwin]
    obtain ⟨hs, ht⟩ := advanceLocked_late hv hw hlt ho
    obtain ⟨hs', ht'⟩ := advanceLocked_late (hc ▸ hv) (hw.of_capped h) hlt' ho'
    have hn : t.elapsedWindows now = t'.elapsedWindows now := by
      rw [elapsedWindows, elapsedWindows, hc, hwin]
    rw [hs, hs', ← hn]
    refine ⟨completed_capped hv h (t.elapsedWindows_pos now), fun k => ?_⟩
    rw [ht, ht', ← hn, ← hc, ← hwin]
    exact keyTransitions_capped hv h (t.elapsedWindows_pos now) _ k

theorem cap_freshEntry (cfg : Config) (key : Key) (now : Time) :
    (freshEntry key now).cap cfg = freshEntry key now := by
  simp [Entry.cap, freshEntry]

theorem getOrCreateLocked_capped (t : Tracker) (key : Key) (now : Time) :
    t.capped.getOrCreateLocked key now =
      ((t.getOrCreateLocked key now).1, (t.getOrCreateLocked key now).2.capped) := by
  simp only [getOrCreateLocked, capped]
  cases t.items.lookup key with
  | some slot => rfl
  | none =>
    simp only [List.length_map, List.getElem?_map]
    by_cases hl : (t.admissionRing.length : Int) < t.cfg.maxTrackedKeys
    · simp only [if_pos hl, List.map_append, List.map_singleton, cap_freshEntry]
    · simp only [if_neg hl]
      cases t.admissionRing[t.nextVictim]? with
      | none => rfl
      | some victim =>
        have hstate : (victim.cap t.cfg).state = victim.state := rfl
        simp only [Option.map_some, hstate]
        split
        · rfl
        · simp only [List.map_set, cap_freshEntry]
          rfl

theorem commitGuaranteedPromotionLocked_capped {cfg : Config} (hv : cfg.Valid) (e : Entry) :
    Entry.SameOutcome cfg (commitGuaranteedPromotionLocked cfg (e.cap cfg))
      (commitGuaranteedPromotionLocked cfg e) := by
  have hp := hv.windows_pos
  have hg : guaranteedPromotion cfg (e.cap cfg) = guaranteedPromotion cfg e := by
    have hpos : 0 < min e.hotWindows cfg.minimumHotWindows.toNat ↔ 0 < e.hotWindows := by omega
    have hmin : ((min e.hotWindows cfg.minimumHotWindows.toNat : Nat) : Int) + 1 <
        cfg.minimumHotWindows ↔ (e.hotWindows : Int) + 1 < cfg.minimumHotWindows := by omega
    simp only [guaranteedPromotion, Entry.cap, hpos, hmin]
  rw [commitGuaranteedPromotionLocked, commitGuaranteedPromotionLocked, hg]
  split
  · refine ⟨rfl, ?_⟩
    have : min (min e.hotWindows cfg.minimumHotWindows.toNat + 1) cfg.minimumHotWindows.toNat =
        min (e.hotWindows + 1) cfg.minimumHotWindows.toNat := by omega
    simp only [Entry.cap, this]
  · refine ⟨rfl, ?_⟩
    simp only [Entry.cap, min_assoc, min_self]

theorem cap_cap (cfg : Config) (e : Entry) : (e.cap cfg).cap cfg = e.cap cfg := by
  simp only [Entry.cap, min_assoc, min_self]

theorem capped_capped (t : Tracker) : t.capped.capped = t.capped := by
  simp only [capped, List.map_map, Function.comp_def, cap_cap]

theorem replace_capped (t : Tracker) (slot : Nat) (e : Entry) {e₁ e₂ : Entry}
    (h : e₁.cap t.cfg = e₂.cap t.cfg) :
    (t.capped.replace slot (e.cap t.cfg) e₁).capped = (t.replace slot e e₂).capped := by
  have hs : e₁.state = e₂.state := (congrArg Entry.state h : (e₁.cap t.cfg).state = _)
  refine capped_eq_iff.2 ⟨rfl, rfl, rfl, ?_, rfl, ?_, rfl, rfl, rfl⟩
  · simp only [replace, capped, List.map_set, h, List.map_map, Function.comp_def, cap_cap]
  · show t.hot + hotDelta e.state e₁.state = t.hot + hotDelta e.state e₂.state
    rw [hs]

theorem observation_congr {t t' : Tracker} (h : t.capped = t'.capped) (hl : l = l')
    (hs : s = s') : t.observation l s = t'.observation l' s' := by
  subst hl hs
  exact (congrArg (observation · l s) h : t.capped.observation l s = t'.capped.observation l s)

theorem getOrCreateLocked_frame (t : Tracker) (key : Key) (now : Time) :
    (t.getOrCreateLocked key now).2.cfg = t.cfg ∧
      (t.getOrCreateLocked key now).2.window = t.window := by
  rw [getOrCreateLocked]
  cases t.items.lookup key with
  | some slot => exact ⟨rfl, rfl⟩
  | none =>
    dsimp only
    split
    · exact ⟨rfl, rfl⟩
    · cases t.admissionRing[t.nextVictim]? with
      | none => exact ⟨rfl, rfl⟩
      | some victim =>
        dsimp only
        split <;> exact ⟨rfl, rfl⟩

theorem observeLocked_frame (t : Tracker) (key : Key) (now : Time) :
    (t.observeLocked key now).2.cfg = t.cfg ∧ (t.observeLocked key now).2.window = t.window := by
  rw [observeLocked]
  split
  · exact ⟨rfl, rfl⟩
  · split
    · exact ⟨rfl, rfl⟩
    · have hf := getOrCreateLocked_frame t key now
      obtain ⟨⟨created, t₁⟩, hg⟩ : ∃ p, t.getOrCreateLocked key now = p := ⟨_, rfl⟩
      rw [hg] at hf ⊢
      cases created with
      | none => exact hf
      | some p =>
        dsimp only
        cases t₁.admissionRing[p.1]? <;> exact hf

theorem admitLocked_frame (t : Tracker) (key : Key) :
    (t.admitLocked key).2.cfg = t.cfg ∧ (t.admitLocked key).2.window = t.window := by
  rw [admitLocked]
  cases t.items.lookup key with
  | none => exact ⟨rfl, rfl⟩
  | some slot =>
    dsimp only
    cases t.admissionRing[slot]? <;> exact ⟨rfl, rfl⟩

theorem observeLocked_capped {t : Tracker} (hv : t.cfg.Valid) (key : Key) (now : Time) :
    (t.capped.observeLocked key now).1 = (t.observeLocked key now).1 ∧
    (t.capped.observeLocked key now).2.capped = (t.observeLocked key now).2.capped := by
  rw [observeLocked, observeLocked]
  split
  · exact ⟨rfl, capped_capped
      { t with oversizedObservationsDropped := t.oversizedObservationsDropped + 1 }⟩
  · split
    · exact ⟨rfl, capped_capped t⟩
    · have hcfg := (getOrCreateLocked_frame t key now).1
      rw [getOrCreateLocked_capped]
      obtain ⟨⟨created, t₁⟩, hg⟩ : ∃ p, t.getOrCreateLocked key now = p := ⟨_, rfl⟩
      rw [hg] at hcfg ⊢
      cases created with
      | none => exact ⟨rfl, capped_capped t₁⟩
      | some p =>
        obtain ⟨slot, eviction⟩ := p
        have hv₁ : t₁.cfg.Valid := hcfg.symm ▸ hv
        have hslot : t₁.capped.admissionRing[slot]? =
            (t₁.admissionRing[slot]?).map (Entry.cap t₁.cfg) := List.getElem?_map ..
        dsimp only
        rw [hslot]
        cases t₁.admissionRing[slot]? with
        | none => exact ⟨rfl, capped_capped t₁⟩
        | some ent =>
          obtain ⟨ht, hc⟩ := commitGuaranteedPromotionLocked_capped hv₁
            { ent with count := ent.count + 1, lastSeen := now }
          have hr := replace_capped t₁ slot ent hc
          exact ⟨observation_congr hr (congrArg (_ ++ ·) ht) (congrArg (some ·.state) hc), hr⟩

theorem admitLocked_capped (t : Tracker) (key : Key) :
    (t.capped.admitLocked key).1 = (t.admitLocked key).1 ∧
    (t.capped.admitLocked key).2.capped = (t.admitLocked key).2.capped := by
  rw [admitLocked, admitLocked]
  have hi : t.capped.items = t.items := rfl
  rw [hi]
  cases t.items.lookup key with
  | none => exact ⟨rfl, capped_capped t⟩
  | some slot =>
    have hslot : t.capped.admissionRing[slot]? =
        (t.admissionRing[slot]?).map (Entry.cap t.cfg) := List.getElem?_map ..
    dsimp only
    rw [hslot]
    cases t.admissionRing[slot]? with
    | none => exact ⟨rfl, capped_capped t⟩
    | some ent =>
      have hc : (admitEntry (ent.cap t.cfg)).cap t.cfg = (admitEntry ent).cap t.cfg := by
        have hs : (ent.cap t.cfg).state = ent.state := rfl
        rw [admitEntry, admitEntry, hs]
        split
        · exact cap_cap t.cfg ent
        · rfl
      have hr := replace_capped t slot ent hc
      have ht : (admitEntry (ent.cap t.cfg)).changedFrom ent.state =
          (admitEntry ent).changedFrom ent.state :=
        (congrArg (Entry.changedFrom · ent.state) hc :
          ((admitEntry (ent.cap t.cfg)).cap t.cfg).changedFrom ent.state = _)
      exact ⟨observation_congr hr ht (congrArg (some ·.state) hc), hr⟩

end Tracker

/-- What a caller asks of the tracker. `Status`, `HotKeys` and `Audit` only poll it. -/
inductive Op where
  | observe (key : Key)
  | admitKey (key : Key)
  | poll
  deriving DecidableEq

/-- A call at an instant, and the order in which the map yields its keys during the call. -/
structure Call where
  op : Op
  now : Time
  shuffle : List Key → List Key
  perm : ∀ l, (shuffle l).Perm l

namespace Tracker

/-- The call after the window has been advanced: its answer, its own transitions, the tracker. -/
def answer (t : Tracker) (now : Time) : Op → List (Option State) × List Transition × Tracker
  | .observe key =>
    let (o, t) := t.observeLocked key now
    ([o.state], o.transitions, t)
  | .admitKey key =>
    let (o, t) := t.admitLocked key
    ([o.state], o.transitions, t)
  | .poll => ([], [], t)

def call (t : Tracker) (c : Call) : List (Option State) × List Transition × Tracker :=
  match c.op with
  | .observe key =>
    let (o, t) := t.observeWithState (c.shuffle t.items.keys) key c.now
    ([o.state], o.transitions, t)
  | .admitKey key =>
    let (o, t) := t.admitKey (c.shuffle t.items.keys) key c.now
    ([o.state], o.transitions, t)
  | .poll =>
    let (transitions, t) := t.advance (c.shuffle t.items.keys) c.now
    ([], transitions, t)

def calls (t : Tracker) : List Call → List (Option State) × List Transition × Tracker
  | [] => ([], [], t)
  | c :: cs =>
    let (a, l, t) := t.call c
    let (a', l', t) := t.calls cs
    (a ++ a', l ++ l', t)

theorem call_eq (t : Tracker) (c : Call) :
    t.call c =
      let (l, t₁) := t.advanceLocked (c.shuffle t.items.keys) c.now
      let (a, l', t₂) := t₁.answer c.now c.op
      (a, l ++ l', t₂) := by
  rw [call]
  cases c.op with
  | observe key => rfl
  | admitKey key => rfl
  | poll =>
    refine Prod.ext rfl (Prod.ext ?_ rfl)
    exact (List.append_nil _).symm

theorem answer_capped {t t' : Tracker} (hv : t.cfg.Valid) (h : t.capped = t'.capped) (now : Time)
    (op : Op) :
    (t.answer now op).1 = (t'.answer now op).1 ∧
    (t.answer now op).2.1 = (t'.answer now op).2.1 ∧
    (t.answer now op).2.2.capped = (t'.answer now op).2.2.capped := by
  have hv' : t'.cfg.Valid := (capped_eq_iff.1 h).1 ▸ hv
  cases op with
  | observe key =>
    obtain ⟨ho, ht⟩ := observeLocked_capped hv key now
    obtain ⟨ho', ht'⟩ := observeLocked_capped hv' key now
    rw [h] at ho ht
    have heq := ho.symm.trans ho'
    exact ⟨congrArg (fun o : Observation => [o.state]) heq,
      congrArg Observation.transitions heq, ht.symm.trans ht'⟩
  | admitKey key =>
    obtain ⟨ho, ht⟩ := admitLocked_capped t key
    obtain ⟨ho', ht'⟩ := admitLocked_capped t' key
    rw [h] at ho ht
    have heq := ho.symm.trans ho'
    exact ⟨congrArg (fun o : Observation => [o.state]) heq,
      congrArg Observation.transitions heq, ht.symm.trans ht'⟩
  | poll => exact ⟨rfl, rfl, h⟩

theorem WF.answer {t : Tracker} (h : t.WF) (now : Time) (op : Op) :
    (t.answer now op).2.2.WF := by
  cases op with
  | observe key => exact h.observeLocked key now
  | admitKey key => exact h.admitLocked key
  | poll => exact h

theorem answer_frame (t : Tracker) (now : Time) (op : Op) :
    (t.answer now op).2.2.cfg = t.cfg ∧ (t.answer now op).2.2.window = t.window := by
  cases op with
  | observe key => exact observeLocked_frame t key now
  | admitKey key => exact admitLocked_frame t key
  | poll => exact ⟨rfl, rfl⟩

theorem advanceLocked_frame {t : Tracker} (hv : t.cfg.Valid) (hw : t.WF)
    (ho : o.Perm t.items.keys) (now : Time) : (t.advanceLocked o now).2.cfg = t.cfg ∧
      (t.advanceLocked o now).2.items = t.items ∧
      now < (t.advanceLocked o now).2.window + t.cfg.window := by
  by_cases hlt : now < t.window + t.cfg.window
  · rw [advanceLocked_early hlt]
    exact ⟨rfl, rfl, hlt⟩
  · rw [(advanceLocked_late hv hw (not_lt.1 hlt) ho).1]
    refine ⟨rfl, rfl, ?_⟩
    show now < t.window + t.elapsedWindows now * t.cfg.window + t.cfg.window
    linarith [(elapsedWindows_spec hv.window_pos (not_lt.1 hlt)).2]

/-- A tracker that was polled at `τ` and one that was not meet again when both advance. -/
theorem advanceLocked_polled {t t' : Tracker} (hv : t'.cfg.Valid) (hw : t'.WF)
    (ho : o.Perm t'.items.keys) (h : t.capped = (t'.advanceLocked o τ).2.capped) (hτ : τ ≤ now)
    (ho₁ : o₁.Perm t.items.keys) (ho₂ : o₂.Perm t'.items.keys) :
    (t.advanceLocked o₁ now).2.capped = (t'.advanceLocked o₂ now).2.capped ∧
    ∀ k, about k ((t'.advanceLocked o τ).1 ++ (t.advanceLocked o₁ now).1) =
      about k (t'.advanceLocked o₂ now).1 := by
  obtain ⟨hcfg, hitems, -⟩ := advanceLocked_frame hv hw ho τ
  obtain ⟨hc, -, hi, -⟩ := capped_eq_iff.1 h
  have hwa := hw.advanceLocked hv ho τ
  have hv₁ : t.cfg.Valid := by
    rw [hc, hcfg]
    exact hv
  have hkeys : t'.items.keys.Perm (t'.advanceLocked o τ).2.items.keys := by
    rw [hitems]
  obtain ⟨hs₁, ht₁⟩ := advanceLocked_capped hv₁ (hwa.of_capped h.symm) h ho₁ hkeys now
  obtain ⟨hs₂, ht₂⟩ := advanceLocked_advanceLocked hv hw hτ ho (.refl _) ho₂
  refine ⟨hs₁.trans hs₂, fun k => ?_⟩
  rw [about_append, ht₁, ← about_append]
  exact ht₂ k

theorem calls_cons (t : Tracker) (c : Call) (cs : List Call)
    (hp : t.advanceLocked (c.shuffle t.items.keys) c.now = p)
    (hq : p.2.answer c.now c.op = q) :
    t.calls (c :: cs) = (q.1 ++ (q.2.2.calls cs).1, p.1 ++ q.2.1 ++ (q.2.2.calls cs).2.1,
      (q.2.2.calls cs).2.2) := by
  subst hp hq
  rw [calls, call_eq]

/-- Leaving the polls out of a run changes no answer, no transition and, once both runs have
advanced to the same instant, no entry. -/
theorem calls_without_polls {t t' : Tracker} (hv : t'.cfg.Valid) (hw : t'.WF)
    (ho : o.Perm t'.items.keys) (h : t.capped = (t'.advanceLocked o τ).2.capped)
    (cs : List Call) (hs : cs.Pairwise fun c c' => c.now ≤ c'.now) (hτ : ∀ c ∈ cs, τ ≤ c.now)
    (hT : ∀ c ∈ cs, c.now ≤ T) (hle : τ ≤ T) :
    (t.calls cs).1 = (t'.calls (cs.filter fun c => c.op ≠ .poll)).1 ∧
    ∀ o₁ o₂ : List Key, o₁.Perm (t.calls cs).2.2.items.keys →
      o₂.Perm (t'.calls (cs.filter fun c => c.op ≠ .poll)).2.2.items.keys →
      ((t.calls cs).2.2.advanceLocked o₁ T).2.capped =
        ((t'.calls (cs.filter fun c => c.op ≠ .poll)).2.2.advanceLocked o₂ T).2.capped ∧
      ∀ k, about k ((t'.advanceLocked o τ).1 ++ ((t.calls cs).2.1 ++
          ((t.calls cs).2.2.advanceLocked o₁ T).1)) =
        about k ((t'.calls (cs.filter fun c => c.op ≠ .poll)).2.1 ++
          ((t'.calls (cs.filter fun c => c.op ≠ .poll)).2.2.advanceLocked o₂ T).1) := by
  induction cs generalizing t t' τ o with
  | nil =>
    refine ⟨rfl, fun o₁ o₂ ho₁ ho₂ => ?_⟩
    exact advanceLocked_polled hv hw ho h hle ho₁ ho₂
  | cons c cs ih =>
    obtain ⟨hc, hs⟩ := List.pairwise_cons.1 hs
    have hτc := hτ c List.mem_cons_self
    have hcT := hT c List.mem_cons_self
    have hT' : ∀ c' ∈ cs, c'.now ≤ T := fun c' hc' => hT c' (List.mem_cons_of_mem c hc')
    obtain ⟨hcap, habout⟩ := advanceLocked_polled hv hw ho h hτc
      (c.perm t.items.keys) (c.perm t'.items.keys)
    obtain ⟨hcfg, -, hlate⟩ := advanceLocked_frame hv hw (c.perm t'.items.keys) c.now
    have hw₁ := hw.advanceLocked hv (c.perm t'.items.keys) c.now
    obtain ⟨p, hp⟩ : ∃ p, t.advanceLocked (c.shuffle t.items.keys) c.now = p := ⟨_, rfl⟩
    obtain ⟨p', hp'⟩ : ∃ p, t'.advanceLocked (c.shuffle t'.items.keys) c.now = p := ⟨_, rfl⟩
    rw [hp] at hcap habout
    rw [hp'] at hcap habout hcfg hlate hw₁
    by_cases hpoll : c.op = .poll
    · rw [List.filter_cons_of_neg (by simpa using hpoll)]
      obtain ⟨hans, hrest⟩ := ih hv hw (c.perm t'.items.keys) (hp' ▸ hcap) hs hc hT' hcT
      have hq : p.2.answer c.now c.op = ([], [], p.2) := by
        rw [hpoll]
        rfl
      rw [calls_cons t c cs hp hq]
      refine ⟨hans, fun o₁ o₂ ho₁ ho₂ => ?_⟩
      obtain ⟨hfinal, hk⟩ := hrest o₁ o₂ ho₁ ho₂
      refine ⟨hfinal, fun k => ?_⟩
      rw [← hk k, hp']
      simp only [about_append] at habout ⊢
      rw [← habout k]
      simp [about, List.append_assoc]
    · rw [List.filter_cons_of_pos (by simpa using hpoll)]
      have hv₁ : p.2.cfg.Valid := by
        rw [(capped_eq_iff.1 hcap).1, hcfg]
        exact hv
      obtain ⟨ha, hl, hcap₂⟩ := answer_capped hv₁ hcap c.now c.op
      obtain ⟨hcfg₂, hwin₂⟩ := answer_frame p'.2 c.now c.op
      have hw₂ := hw₁.answer c.now c.op
      rw [calls_cons t c cs hp rfl, calls_cons t' c _ hp' rfl]
      generalize p.2.answer c.now c.op = q at ha hl hcap₂ ⊢
      generalize p'.2.answer c.now c.op = q' at ha hl hcap₂ hcfg₂ hwin₂ hw₂ ⊢
      have hearly : c.now < q'.2.2.window + q'.2.2.cfg.window := by
        rw [hwin₂, hcfg₂, hcfg]
        exact hlate
      have hstill := advanceLocked_early hearly q'.2.2.items.keys
      have hnext : q.2.2.capped =
          (q'.2.2.advanceLocked q'.2.2.items.keys c.now).2.capped := by
        rw [hstill]
        exact hcap₂
      have hv₂ : q'.2.2.cfg.Valid := by
        rw [hcfg₂, hcfg]
        exact hv
      obtain ⟨hans, hrest⟩ := ih hv₂ hw₂ (.refl _) hnext hs hc hT' hcT
      refine ⟨congrArg₂ (· ++ ·) ha hans, fun o₁ o₂ ho₁ ho₂ => ?_⟩
      obtain ⟨hfinal, hk⟩ := hrest o₁ o₂ ho₁ ho₂
      refine ⟨hfinal, fun k => ?_⟩
      have hk := hk k
      have habout := habout k
      rw [hstill] at hk
      simp only [about_append, hl] at habout hk ⊢
      rw [show about k [] = [] from rfl, List.nil_append] at hk
      rw [← habout]
      simp only [List.append_assoc, hk]

end Slizen.Hotness.Tracker
