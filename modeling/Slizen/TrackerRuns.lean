import Slizen.TrackerAdvance

namespace Slizen.Hotness.Tracker
set_option autoImplicit true

def capped (t : Tracker) : Tracker :=
  { t with admissionRing := t.admissionRing.map (Entry.cap t.cfg) }

theorem hotCount_map_cap (cfg : Config) (ring : List Entry) :
    hotCount (ring.map (Entry.cap cfg)) = hotCount ring := by
  rw [hotCount, List.countP_map]
  rfl

theorem capped_eq_iff {t t' : Tracker} : t.capped = t'.capped ↔
    t.cfg = t'.cfg ∧ t.window = t'.window ∧ t.items = t'.items ∧
      t.admissionRing.map (Entry.cap t.cfg) = t'.admissionRing.map (Entry.cap t'.cfg) ∧
      t.nextVictim = t'.nextVictim ∧ t.hot = t'.hot ∧ t.evictions = t'.evictions ∧
      t.capacityDrops = t'.capacityDrops ∧
      t.oversizedObservationsDropped = t'.oversizedObservationsDropped := by
  simp only [capped, mk.injEq]

theorem completed_hot (t : Tracker) (n : Nat) : (t.completed n).hot =
    t.hot + (hotCount (t.completed n).admissionRing - hotCount t.admissionRing) := rfl

theorem hotCount_congr {cfg : Config} {r r' : List Entry}
    (h : r.map (Entry.cap cfg) = r'.map (Entry.cap cfg)) : hotCount r = hotCount r' := by
  rw [← hotCount_map_cap cfg, h, hotCount_map_cap]

theorem map_completeWindows_cap {cfg : Config} (hv : cfg.Valid) {r r' : List Entry}
    (h : r.map (Entry.cap cfg) = r'.map (Entry.cap cfg)) (hn : 0 < n) (boundary : Time) :
    (r.map fun x => (x.completeWindows cfg n boundary).2).map (Entry.cap cfg) =
      (r'.map fun x => (x.completeWindows cfg n boundary).2).map (Entry.cap cfg) := by
  induction r generalizing r' with
  | nil => rw [List.map_eq_nil_iff.1 h.symm]
  | cons x r ih =>
    cases r' with
    | nil => cases h
    | cons x' r' =>
      obtain ⟨hx, hr⟩ := List.cons.inj h
      exact congrArg₂ List.cons (Entry.completeWindows_cap hv hx hn boundary).2 (ih hr)

theorem completed_capped {t t' : Tracker} (hv : t.cfg.Valid) (h : t.capped = t'.capped)
    (hn : 0 < n) : (t.completed n).capped = (t'.completed n).capped := by
  obtain ⟨hc, hw, hi, hr, hx, hh, he, hd, ho⟩ := capped_eq_iff.1 h
  rw [← hc] at hr
  have hring : (t.completed n).admissionRing.map (Entry.cap t.cfg) =
      (t'.completed n).admissionRing.map (Entry.cap t.cfg) := by
    simp only [completed, withRing, ← hc, ← hw]
    exact map_completeWindows_cap hv hr hn _
  refine capped_eq_iff.2 ⟨hc, ?_, hi, hc ▸ hring, hx, ?_, he, hd, ho⟩
  · show t.window + n * t.cfg.window = t'.window + n * t'.cfg.window
    rw [hw, hc]
  · rw [completed_hot, completed_hot, hh, hotCount_congr hring, hotCount_congr hr]

theorem completed_completed {t : Tracker} (hv : t.cfg.Valid) (hm : 0 < m) (hn : 0 < n) :
    ((t.completed m).completed n).capped = (t.completed (m + n)).capped := by
  have hring : ((t.completed m).completed n).admissionRing.map (Entry.cap t.cfg) =
      (t.completed (m + n)).admissionRing.map (Entry.cap t.cfg) := by
    have hb : t.window + m * t.cfg.window + t.cfg.window =
        t.window + t.cfg.window + m * t.cfg.window := by
      ring
    simp only [completed, withRing, List.map_map, hb]
    exact List.map_congr_left fun x _ => (x.completeWindows_add hv hm hn _).2
  refine capped_eq_iff.2 ⟨rfl, ?_, rfl, hring, rfl, ?_, rfl, rfl, rfl⟩
  · show t.window + m * t.cfg.window + n * t.cfg.window = t.window + (m + n : Nat) * t.cfg.window
    push_cast
    ring
  · rw [completed_hot, completed_hot, completed_hot, hotCount_congr hring]
    ring

theorem find_completed (t : Tracker) (n : Nat) (k : Key) : (t.completed n).find k =
    (t.find k).map fun x => (x.completeWindows t.cfg n (t.window + t.cfg.window)).2 :=
  find_withRing_map t _ k

theorem keyTransitions_completed {t : Tracker} (hv : t.cfg.Valid) (hm : 0 < m) (hn : 0 < n)
    (k : Key) :
    t.keyTransitions m (t.window + t.cfg.window) k ++
      (t.completed m).keyTransitions n ((t.completed m).window + t.cfg.window) k =
    t.keyTransitions (m + n) (t.window + t.cfg.window) k := by
  have hb : t.window + m * t.cfg.window + t.cfg.window =
      t.window + t.cfg.window + m * t.cfg.window := by
    ring
  simp only [keyTransitions, find_completed]
  cases t.find k with
  | none => rfl
  | some e =>
    simp only [Option.map_some, completed, withRing, hb]
    exact (e.completeWindows_add hv hm hn _).1

theorem WF.completed {t : Tracker} (hv : t.cfg.Valid) (h : t.WF) (hn : 0 < n) :
    (t.completed n).WF :=
  ⟨(h.withRing fun e => e.completeWindows_key hv hn _).slots⟩

theorem elapsedWindows_unique {t : Tracker} {n : Nat} (hw : 0 < t.cfg.window)
    (h : t.window + t.cfg.window ≤ now) (hn : n * t.cfg.window ≤ now - t.window)
    (hn' : now - t.window < (n + 1) * t.cfg.window) : t.elapsedWindows now = n := by
  obtain ⟨he, he'⟩ := elapsedWindows_spec hw h
  have h₁ := lt_of_mul_lt_mul_right (he.trans_lt hn') hw.le
  have h₂ := lt_of_mul_lt_mul_right (hn.trans_lt he') hw.le
  have h₃ : ∀ a b : Int, a < b + 1 → b < a + 1 → a = b := by omega
  exact Int.natCast_inj.1 (h₃ _ _ h₁ h₂)

theorem advanceLocked_advanceLocked {t : Tracker} (hv : t.cfg.Valid) (hw : t.WF) (h : t₁ ≤ t₂)
    (ho₁ : o₁.Perm t.items.keys) (ho₂ : o₂.Perm t.items.keys) (ho : o.Perm t.items.keys) :
    ((t.advanceLocked o₁ t₁).2.advanceLocked o₂ t₂).2.capped = (t.advanceLocked o t₂).2.capped ∧
    ∀ k, about k ((t.advanceLocked o₁ t₁).1 ++ ((t.advanceLocked o₁ t₁).2.advanceLocked o₂ t₂).1) =
      about k (t.advanceLocked o t₂).1 := by
  by_cases h₁ : t₁ < t.window + t.cfg.window
  · rw [advanceLocked_early h₁]
    by_cases h₂ : t₂ < t.window + t.cfg.window
    · rw [advanceLocked_early h₂, advanceLocked_early h₂]
      exact ⟨rfl, fun _ => rfl⟩
    · obtain ⟨hs₂, ht₂⟩ := advanceLocked_late hv hw (not_lt.1 h₂) ho₂
      obtain ⟨hs, ht⟩ := advanceLocked_late hv hw (not_lt.1 h₂) ho
      exact ⟨congrArg capped (hs₂.trans hs.symm), fun k => (ht₂ k).trans (ht k).symm⟩
  · rw [not_lt] at h₁
    have hlate : t.window + t.cfg.window ≤ t₂ := h₁.trans h
    obtain ⟨hs₁, ht₁⟩ := advanceLocked_late hv hw h₁ ho₁
    obtain ⟨hs, ht⟩ := advanceLocked_late hv hw hlate ho
    have hm := t.elapsedWindows_pos t₁
    obtain ⟨hlow, hhigh⟩ := elapsedWindows_spec hv.window_pos h₁
    simp only [about_append, ht₁, ht]
    rw [hs₁, hs]
    by_cases h₂ : t₂ < (t.completed (t.elapsedWindows t₁)).window + t.cfg.window
    · have hsame : t.elapsedWindows t₂ = t.elapsedWindows t₁ := by
        apply elapsedWindows_unique hv.window_pos hlate (hlow.trans (by linarith))
        have : t₂ < t.window + t.elapsedWindows t₁ * t.cfg.window + t.cfg.window := h₂
        linarith
      rw [advanceLocked_early h₂, hsame]
      exact ⟨rfl, fun k => List.append_nil _⟩
    · rw [not_lt] at h₂
      obtain ⟨hs₂, ht₂⟩ := advanceLocked_late (t := t.completed (t.elapsedWindows t₁)) hv
        (hw.completed hv hm) h₂ ho₂
      have hn := (t.completed (t.elapsedWindows t₁)).elapsedWindows_pos t₂
      obtain ⟨hlow', hhigh'⟩ := elapsedWindows_spec (t := t.completed (t.elapsedWindows t₁))
        hv.window_pos h₂
      have hsum : t.elapsedWindows t₂ =
          t.elapsedWindows t₁ + (t.completed (t.elapsedWindows t₁)).elapsedWindows t₂ := by
        have hwin : (t.completed (t.elapsedWindows t₁)).window =
            t.window + t.elapsedWindows t₁ * t.cfg.window := rfl
        have hcfg : (t.completed (t.elapsedWindows t₁)).cfg = t.cfg := rfl
        rw [hwin, hcfg] at hlow' hhigh'
        apply elapsedWindows_unique hv.window_pos hlate
        · push_cast
          linarith
        · push_cast
          linarith
      rw [hs₂, hsum]
      refine ⟨completed_completed hv hm hn, fun k => ?_⟩
      rw [ht₂]
      exact keyTransitions_completed hv hm hn k

end Slizen.Hotness.Tracker
