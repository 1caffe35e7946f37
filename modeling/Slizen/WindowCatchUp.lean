import Slizen.Config
import Slizen.TrackerPolls

namespace Slizen.Hotness.Tracker
set_option autoImplicit true

theorem wf_new (cfg : Config) (now : Time) : (new cfg now).WF :=
  ⟨fun k slot => by simp [new]⟩

theorem new_cfg {cfg : Slizen.Config} (h : Slizen.Config.validate cfg = [])
    (floorLog : ℚ → ℚ → Int) (now : Time) :
    (new (cfg.tracker floorLog) now).cfg = cfg.tracker floorLog := by
  have hv := (Slizen.Config.accepted h).hotness floorLog
  have hk : ¬ (cfg.tracker floorLog).maxTrackedKeys ≤ 0 :=
    not_le.2 (Slizen.Config.accepted h).maxTrackedKeys
  simp only [new, Config.normalize]
  rw [if_neg (not_le.2 hv.window_pos),
    if_neg (not_or.2 ⟨not_le.2 hv.alpha_pos, not_lt.2 hv.alpha_le⟩),
    if_neg (not_le.2 hv.windows_pos), if_neg hk]

/-- Window catch-up equals stepping. Under an accepted configuration, advancing to `t₁` and then
to `t₂` is advancing to `t₂` at once; the closed form of an entry is its windows taken one by
one; and a run with polls answers and ends like the run without them. -/
theorem advance_eq_stepping (cfg : Slizen.Config) (hcfg : Slizen.Config.validate cfg = [])
    (floorLog : ℚ → ℚ → Int) (t : Tracker) (ht : t.cfg = cfg.tracker floorLog) (hw : t.WF) :
    (∀ t₁ t₂ o₁ o₂ o, t.window ≤ t₁ → t₁ ≤ t₂ → o₁.Perm t.items.keys → o₂.Perm t.items.keys →
      o.Perm t.items.keys →
      ((t.advanceLocked o₁ t₁).2.advanceLocked o₂ t₂).2.capped = (t.advanceLocked o t₂).2.capped ∧
      ∀ k, about k ((t.advanceLocked o₁ t₁).1 ++
          ((t.advanceLocked o₁ t₁).2.advanceLocked o₂ t₂).1) =
        about k (t.advanceLocked o t₂).1) ∧
    (∀ (e : Entry) (rate : ℚ) (n : Nat) (boundary : Time), 0 < n →
      Entry.SameOutcome t.cfg (e.advanceEntryLocked t.cfg rate n boundary)
        (e.stepWindows t.cfg rate n boundary)) ∧
    (∀ (cs : List Call) (finish : Time) (o₁ o₂ : List Key),
      cs.Pairwise (fun c c' => c.now ≤ c'.now) → (∀ c ∈ cs, t.window ≤ c.now) →
      (∀ c ∈ cs, c.now ≤ finish) → t.window ≤ finish →
      o₁.Perm (t.calls cs).2.2.items.keys →
      o₂.Perm (t.calls (cs.filter fun c => c.op ≠ .poll)).2.2.items.keys →
      (t.calls cs).1 = (t.calls (cs.filter fun c => c.op ≠ .poll)).1 ∧
      ((t.calls cs).2.2.advanceLocked o₁ finish).2.capped =
        ((t.calls (cs.filter fun c => c.op ≠ .poll)).2.2.advanceLocked o₂ finish).2.capped ∧
      ∀ k, about k ((t.calls cs).2.1 ++ ((t.calls cs).2.2.advanceLocked o₁ finish).1) =
        about k ((t.calls (cs.filter fun c => c.op ≠ .poll)).2.1 ++
          ((t.calls (cs.filter fun c => c.op ≠ .poll)).2.2.advanceLocked o₂ finish).1)) := by
  have hv : t.cfg.Valid := ht ▸ (Slizen.Config.accepted hcfg).hotness floorLog
  refine ⟨?_, ?_, ?_⟩
  · intro t₁ t₂ o₁ o₂ o _ h₁₂ ho₁ ho₂ ho
    exact advanceLocked_advanceLocked hv hw h₁₂ ho₁ ho₂ ho
  · intro e rate n boundary hn
    exact e.advanceEntryLocked_stepWindows hv rate n hn boundary
  · intro cs finish o₁ o₂ hs hge hle hfinish ho₁ ho₂
    have hearly : t.window < t.window + t.cfg.window := lt_add_of_pos_right _ hv.window_pos
    have hstart := advanceLocked_early hearly t.items.keys
    have hcap : t.capped = (t.advanceLocked t.items.keys t.window).2.capped := by
      rw [hstart]
    obtain ⟨hans, hrest⟩ := calls_without_polls hv hw (.refl _) hcap cs hs hge hle hfinish
    obtain ⟨hfinal, habout⟩ := hrest o₁ o₂ ho₁ ho₂
    rw [hstart] at habout
    exact ⟨hans, hfinal, habout⟩

theorem advance_eq_stepping_default :
    let cfg := (Slizen.Config.default "x").tracker fun _ _ => 0
    let t := ((new cfg 0).observeLocked [107] 0).2
    ((t.advanceLocked [[107]] 3000000000).2.advanceLocked [[107]] 7000000000).2.capped =
      (t.advanceLocked [[107]] 7000000000).2.capped :=
  ((advance_eq_stepping (Slizen.Config.default "x") (by decide +kernel) (fun _ _ => 0)
    ((new ((Slizen.Config.default "x").tracker fun _ _ => 0) 0).observeLocked [107] 0).2
    ((observeLocked_frame _ _ _).1.trans (new_cfg (by decide +kernel) _ 0))
    ((wf_new _ 0).observeLocked [107] 0)).1 3000000000 7000000000 [[107]] [[107]]
    [[107]] (by decide +kernel) (by decide +kernel) (by decide +kernel) (by decide +kernel)
    (by decide +kernel)).1

end Slizen.Hotness.Tracker
