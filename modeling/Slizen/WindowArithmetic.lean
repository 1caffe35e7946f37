import Slizen.TrackerAdvance
import Slizen.TrackerInt64
import Slizen.WindowCatchUp

namespace Slizen.Hotness
set_option autoImplicit true

open FixedWidth Traced

/-- The estimate is the one of exact logarithms. -/
def ExactLog (cfg : Config) : Prop :=
  ∀ x y : ℚ, cfg.floorLog x y = ⌊Real.log x / Real.log y⌋

/-- A boundary of a window after `start` that `now` has reached. -/
def Boundary (window start now time : Int) : Prop :=
  (∃ n : Int, time = start + n * window) ∧ start < time ∧ time ≤ now

/-- What may stand in the log of an advance from `start` to `now` where an `int` has `w` bits. -/
def Mark.Safe (w : Nat) (cfg : Config) (start now : Int) : Mark → Prop
  | toInt64 x => Fits 64 x
  | toInt x => Fits w x
  | toDuration x => Fits 64 x
  | estimate x => Fits 64 x
  | product n window => 0 ≤ n * window ∧ n * window ≤ now - start
  | coolingAt time => Boundary cfg.window start now time

/-- What does stand in the log: the estimate depends on the logarithms of the machine. -/
def Mark.Sound (w : Nat) (cfg : Config) (start now : Int) : Mark → Prop
  | estimate x => ExactLog cfg → Fits 64 x
  | m => m.Safe w cfg start now

theorem Mark.Sound.safe {m : Mark} (h : m.Sound w cfg start now) (hm : ∀ x, m ≠ estimate x) :
    m.Safe w cfg start now := by
  cases m with
  | estimate x => exact absurd rfl (hm x)
  | _ => exact h

theorem Mark.Sound.safe_of_exact {m : Mark} (h : m.Sound w cfg start now) (he : ExactLog cfg) :
    m.Safe w cfg start now := by
  cases m with
  | estimate x => exact h he
  | _ => exact h

/-- With exact logarithms the estimate is one of the windows: the first one reaches the threshold
and the last one does not. -/
theorem floor_log_bounds {initial decay threshold : ℚ} {n : Nat} (hi : 0 < initial)
    (hd : 0 < decay) (hd₁ : decay < 1) (ht : 0 < threshold) (hfirst : threshold ≤ initial * decay)
    (hlast : initial * decay ^ n < threshold) :
    1 ≤ ⌊Real.log (threshold / initial : ℚ) / Real.log decay⌋ ∧
      ⌊Real.log (threshold / initial : ℚ) / Real.log decay⌋ < n := by
  have hd' : (0 : ℝ) < decay := by exact_mod_cast hd
  have hlog : Real.log decay < 0 := Real.log_neg hd' (by exact_mod_cast hd₁)
  have hquot : (0 : ℝ) < (threshold / initial : ℚ) := by exact_mod_cast div_pos ht hi
  constructor
  · rw [Int.le_floor, Int.cast_one, le_div_iff_of_neg hlog, one_mul]
    apply Real.log_le_log hquot
    exact_mod_cast (div_le_iff₀' hi).2 hfirst
  · rw [Int.floor_lt, Int.cast_natCast, div_lt_iff_of_neg hlog, ← Real.log_pow]
    apply Real.log_lt_log (pow_pos hd' n)
    exact_mod_cast (lt_div_iff₀' hi).2 hlast

/-- An advance over at least one whole window. -/
structure Span (cfg : Config) (start now elapsed : Int) : Prop where
  window : (1 : Int) ≤ cfg.window
  one : 1 ≤ elapsed
  covers : elapsed * cfg.window ≤ now - start
  within : now - start < 2 ^ 63

section

variable {w : Nat} {cfg : Config} {start now elapsed n x : Int}

theorem yields_toInt64 (hx : Fits 64 x) :
    Yields (Mark.Sound w cfg start now) (· = x) (toInt64 x) := by
  apply (Yields.emit (q := Mark.Sound w cfg start now) (.toInt64 x) hx).bind
  intro _ _
  exact Yields.pure (hx.wrap_eq (by decide))

theorem yields_toInt (hw : 0 < w) (hx : Fits w x) :
    Yields (Mark.Sound w cfg start now) (· = x) (toInt w x) := by
  apply (Yields.emit (q := Mark.Sound w cfg start now) (.toInt x) hx).bind
  intro _ _
  exact Yields.pure (hx.wrap_eq hw)

section

variable (h : Span cfg start now elapsed)
include h

theorem Span.product (h₀ : 0 ≤ n) (hn : n ≤ elapsed) :
    0 ≤ n * cfg.window ∧ n * cfg.window ≤ now - start := by
  have hw : (0 : Int) ≤ cfg.window := le_trans (by decide) h.window
  exact ⟨mul_nonneg h₀ hw, (mul_le_mul_of_nonneg_right hn hw).trans h.covers⟩

theorem Span.fits (h₀ : 0 ≤ x) (hx : x ≤ now - start) : Fits 64 x := by
  have := h.within
  exact ⟨by omega, by omega⟩

theorem Span.count_le (h₀ : 0 ≤ n) (hn : n ≤ elapsed) : n ≤ now - start :=
  (le_mul_of_one_le_right h₀ h.window).trans (h.product h₀ hn).2

theorem Span.elapsed_fits : Fits 64 elapsed := by
  have hone := h.one
  exact h.fits (by omega) (h.count_le (by omega) le_rfl)

theorem Span.boundary (h₁ : 1 ≤ n) (hn : n ≤ elapsed) :
    Boundary cfg.window start now (start + n * cfg.window) := by
  have hlt : 0 < n * cfg.window := mul_pos (by omega) (by have := h.window; omega)
  have hle := (h.product (by omega) hn).2
  exact ⟨⟨n, rfl⟩, by omega, by omega⟩

theorem Span.first : Boundary cfg.window start now (start + cfg.window) := by
  simpa using h.boundary le_rfl h.one

theorem Span.remaining : int64 (elapsed - 1) = elapsed - 1 := by
  have hone := h.one
  exact (h.fits (by omega) (h.count_le (by omega) (by omega))).wrap_eq (by decide)

theorem Span.duration (h₀ : 0 ≤ n) (hn : n ≤ elapsed) :
    Yields (Mark.Sound w cfg start now) (· = n * cfg.window) (duration n cfg.window) := by
  have hfits : Fits 64 n := h.fits h₀ (h.count_le h₀ hn)
  have hsame : int64 n = n := hfits.wrap_eq (by decide)
  obtain ⟨hp₀, hp⟩ := h.product h₀ hn
  apply (Yields.emit (q := Mark.Sound w cfg start now) (.toDuration n) hfits).bind
  intro _ _
  rw [hsame]
  apply (Yields.emit (q := Mark.Sound w cfg start now) (.product n cfg.window) ⟨hp₀, hp⟩).bind
  intro _ _
  exact Yields.pure ((h.fits hp₀ hp).wrap_eq (by decide))

theorem Span.decayWindowsAtLeast64 (h₀ : 0 ≤ n) (hn : n ≤ elapsed) (initial decay threshold : ℚ) :
    Yields (Mark.Sound w cfg start now) (fun m => 0 ≤ m ∧ m ≤ n)
      (decayWindowsAtLeast64 cfg.floorLog initial decay threshold n) := by
  refine ⟨decayWindowsAtLeast64_range cfg.floorLog initial decay threshold h₀, ?_⟩
  intro m hm
  unfold Hotness.decayWindowsAtLeast64 at hm
  split at hm
  · cases hm
  · rename_i hguard
    split at hm
    · cases hm
    · rename_i hlast
      cases List.mem_singleton.1 hm
      intro hexact
      simp only [not_or, not_le, not_lt] at hguard hlast
      obtain ⟨hpos, hi, ht, hd, hfirst⟩ := hguard
      obtain ⟨hlow, hhigh⟩ := floor_log_bounds hi hd hlast.1 ht hfirst hlast.2
      rw [hexact]
      apply h.fits (le_trans (by decide) hlow)
      have := h.count_le h₀ hn
      rw [Int.toNat_of_nonneg h₀] at hhigh
      omega

theorem Span.segments (h₀ : 0 ≤ n) (hn : n ≤ elapsed)
    (firstScore : ℚ) : Yields (Mark.Sound w cfg start now)
      (fun s => 0 ≤ s.1 ∧ s.1 ≤ n ∧ 0 ≤ s.1 + s.2.1 ∧ s.1 + s.2.1 + s.2.2 = n)
      (segments cfg firstScore n) := by
  constructor
  · obtain ⟨high, atLeast, hvalue, -, -, h₁, h₂, h₃, h₄⟩ :=
      segments_value cfg firstScore h₀ (h.fits h₀ (h.count_le h₀ hn))
    rw [hvalue]
    exact ⟨h₁, h₂, by dsimp only; omega, by dsimp only; omega⟩
  · have hyields : Yields (Mark.Sound w cfg start now) (fun _ => True)
        (Hotness.segments cfg firstScore n) := by
      apply (h.decayWindowsAtLeast64 h₀ hn ..).bind
      intro _ _
      apply (h.decayWindowsAtLeast64 h₀ hn ..).bind
      intro _ _
      exact Yields.pure trivial
    exact hyields.log

end

namespace Entry

/-- Where the instant in an entry comes from: it is the old one, it is cleared, or it is a
boundary. -/
def Cooled (cfg : Config) (start now : Int) (ent ent' : Entry) : Prop :=
  ent'.coolingAt = 0 ∨ ent'.coolingAt = ent.coolingAt ∨
    Boundary cfg.window start now ent'.coolingAt

theorem Cooled.trans (h : Cooled cfg start now e e₁) (h' : Cooled cfg start now e₁ e₂) :
    Cooled cfg start now e e₂ := by
  rcases h' with h' | h' | h'
  · exact .inl h'
  · rw [Cooled, h']
    exact h
  · exact .inr (.inr h')

theorem applyState_coolingAt (cfg : Config) (ent : Entry) (now : Time) :
    (ent.applyState cfg now).coolingAt = 0 ∨
      (ent.applyState cfg now).coolingAt = ent.coolingAt ∨
      (ent.applyState cfg now).coolingAt = now := by
  unfold applyState applyHigh applyMid applyLow
  dsimp only
  split_ifs <;> simp

theorem yields_applyStateLocked64 (ent : Entry) (hb : Boundary cfg.window start now boundary) :
    Yields (Mark.Sound w cfg start now) (fun r => Cooled cfg start now ent r.2)
      (ent.applyStateLocked64 cfg boundary) := by
  have hcooled : Cooled cfg start now ent (ent.applyStateLocked cfg boundary).2 := by
    rcases ent.applyState_coolingAt cfg boundary with hc | hc | hc
    · exact .inl hc
    · exact .inr (.inl hc)
    · refine .inr (.inr ?_)
      rw [applyStateLocked, hc]
      exact hb
  apply (Yields.emitIf (q := Mark.Sound w cfg start now) (.coolingAt boundary) fun _ => hb).bind
  intro _ _
  exact Yields.pure hcooled

theorem fits_int (hw : 0 < w) (hw' : w ≤ 64) (x : Int) : Fits 64 (wrap w x) :=
  (fits_wrap hw x).mono hw'

theorem yields_reachesMinimum (hw : 0 < w) (hw' : w ≤ 64) (hotWindows : Nat) (high : Int) :
    Yields (Mark.Sound w cfg start now)
      (fun reached => reached = false → high < wrap w cfg.minimumHotWindows)
      (reachesMinimum w cfg hotWindows high) := by
  apply (yields_toInt64 (fits_int hw hw' _)).bind
  rintro _ rfl
  apply Yields.ite
  · intro _
    exact Yields.pure nofun
  · intro hlt
    apply (yields_toInt64 (fits_int hw hw' _)).bind
    intro _ _
    apply (yields_toInt64 (fits_int hw hw' _)).bind
    intro _ _
    exact Yields.pure fun _ => not_le.1 hlt

theorem yields_catchUpHigh64 (hw : 0 < w) (hw' : w ≤ 64) (ent : Entry) (high : Int) :
    Yields (Mark.Sound w cfg start now) (fun r => Cooled cfg start now ent r.2)
      (ent.catchUpHigh64 w cfg high) := by
  apply Yields.ite
  · intro hpos
    apply (yields_toInt64 (fits_int hw hw' _)).bind
    intro needed _
    apply (yields_reachesMinimum hw hw' _ _).bind
    intro reached hreached
    have hcooled : ∀ {e : Entry}, e.coolingAt = 0 ∨ e.coolingAt = ent.coolingAt →
        Cooled cfg start now ent e := fun hc => hc.imp_right .inl
    cases reached with
    | true =>
      apply Yields.pure
      apply hcooled
      dsimp only
      split_ifs <;> simp
    | false =>
      -- The conversion to `int` is reached below the minimum only, which is an `int`.
      have hfits : Fits w high := (fits_wrap hw _).of_le (le_of_lt hpos) (hreached rfl).le
      apply (yields_toInt hw hfits).bind
      intro _ _
      apply Yields.pure
      apply hcooled
      dsimp only
      split_ifs <;> simp
  · intro _
    exact Yields.pure (.inr (.inl rfl))

theorem catchUpMid_coolingAt (ent : Entry) (mid : Nat) :
    (ent.catchUpMid mid).2.coolingAt = ent.coolingAt := by
  unfold catchUpMid applyMid
  dsimp only
  split_ifs <;> rfl

theorem catchUpLow_coolingAt (cfg : Config) (ent : Entry) (low : Nat) (score : ℚ)
    (lowStart finalBoundary : Time) :
    (ent.catchUpLow cfg low score lowStart finalBoundary).2.coolingAt = 0 ∨
    (ent.catchUpLow cfg low score lowStart finalBoundary).2.coolingAt = ent.coolingAt ∨
    (ent.catchUpLow cfg low score lowStart finalBoundary).2.coolingAt = lowStart := by
  unfold catchUpLow
  dsimp only
  split_ifs <;> simp

theorem yields_catchUpLow64 (h : Span cfg start now elapsed) (ent : Entry) (high mid low : Int)
    (h₀ : 0 ≤ high + mid) (hsum : high + mid + low = elapsed - 1) (score : ℚ) :
    Yields (Mark.Sound w cfg start now) (fun r => Cooled cfg start now ent r.2)
      (ent.catchUpLow64 cfg high mid low (elapsed - 1) score (start + cfg.window)) := by
  have hone := h.one
  apply Yields.ite
  · intro hpos
    -- The low segment is not empty, so it begins before the last of the elapsed windows.
    have hle : high + mid + 1 ≤ elapsed - 1 := by omega
    have hsame : int64 (int64 (high + mid) + 1) = high + mid + 1 := by
      have hfits : Fits 64 (high + mid + 1) :=
        h.fits (by omega) (h.count_le (by omega) (by omega))
      have hfits' : Fits 64 (high + mid) := hfits.of_le h₀ (by omega)
      rw [int64, int64, hfits'.wrap_eq (by decide), hfits.wrap_eq (by decide)]
    rw [hsame]
    have hboundary : Boundary cfg.window start now
        (start + cfg.window + (high + mid + 1) * cfg.window) := by
      have := h.boundary (n := high + mid + 2) (by omega) (by omega)
      rwa [show start + cfg.window + (high + mid + 1) * cfg.window =
        start + (high + mid + 2) * cfg.window by ring]
    apply (h.duration (by omega) (by omega)).bind
    rintro _ rfl
    apply (Yields.emitIf (q := Mark.Sound w cfg start now) (.coolingAt _) fun _ => hboundary).bind
    intro _ _
    apply (h.duration (by omega) (by omega)).bind
    rintro _ rfl
    apply Yields.pure
    rcases ent.catchUpLow_coolingAt cfg low.toNat score
      (start + cfg.window + (high + mid + 1) * cfg.window)
      (start + cfg.window + (elapsed - 1) * cfg.window) with hc | hc | hc
    · exact .inl hc
    · exact .inr (.inl hc)
    · refine .inr (.inr ?_)
      rw [hc]
      exact hboundary
  · intro _
    exact Yields.pure (.inr (.inl rfl))

theorem yields_catchUp64 (hw : 0 < w) (hw' : w ≤ 64) (h : Span cfg start now elapsed)
    (ent : Entry) (firstScore : ℚ) :
    Yields (Mark.Sound w cfg start now) (fun r => Cooled cfg start now ent r.2)
      (ent.catchUp64 w cfg firstScore (elapsed - 1) (start + cfg.window)) := by
  have hone := h.one
  apply (h.segments (by omega) (by omega) _).bind
  rintro ⟨high, mid, low⟩ ⟨-, -, hmid, hsum⟩
  apply (yields_catchUpHigh64 hw hw' _ _).bind
  rintro ⟨later, ent₁⟩ h₁
  apply (yields_catchUpLow64 h _ _ _ _ hmid hsum _).bind
  rintro ⟨last, ent₂⟩ h₂
  apply Yields.pure
  have hmid' : Cooled cfg start now ent₁ (ent₁.catchUpMid mid.toNat).2 :=
    .inr (.inl (catchUpMid_coolingAt ..))
  exact h₁.trans (hmid'.trans h₂)

theorem yields_advanceEntryLocked64 (hw : 0 < w) (hw' : w ≤ 64) (h : Span cfg start now elapsed)
    (ent : Entry) (rate : ℚ) :
    Yields (Mark.Sound w cfg start now) (fun r => Cooled cfg start now ent r.2)
      (ent.advanceEntryLocked64 w cfg rate elapsed (start + cfg.window)) := by
  apply (yields_applyStateLocked64 _ h.first).bind
  rintro ⟨first, ent₁⟩ h₁
  apply Yields.ite
  · intro _
    exact Yields.pure h₁
  · intro hne
    rw [h.remaining]
    apply (yields_catchUp64 hw hw' h _ _).bind
    rintro ⟨later, ent₂⟩ h₂
    exact Yields.pure (h₁.trans h₂)

end Entry

namespace Tracker

/-- What the loop of `advanceLocked` may do to a tracker. -/
structure Advanced (cfg : Config) (start now : Int) (t t' : Tracker) : Prop where
  config : t'.cfg = t.cfg
  window : t'.window = t.window
  entries : ∀ (slot : Nat) (ent' : Entry), t'.admissionRing[slot]? = some ent' →
    ∃ ent, t.admissionRing[slot]? = some ent ∧ Entry.Cooled cfg start now ent ent'

theorem Advanced.refl (t : Tracker) : Advanced cfg start now t t :=
  ⟨rfl, rfl, fun _ ent he => ⟨ent, he, .inr (.inl rfl)⟩⟩

theorem Advanced.trans {t t₁ t₂ : Tracker} (h : Advanced cfg start now t t₁)
    (h' : Advanced cfg start now t₁ t₂) : Advanced cfg start now t t₂ := by
  refine ⟨h'.config.trans h.config, h'.window.trans h.window, fun slot ent₂ h₂ => ?_⟩
  obtain ⟨ent₁, h₁, hc'⟩ := h'.entries slot ent₂ h₂
  obtain ⟨ent, h₀, hc⟩ := h.entries slot ent₁ h₁
  exact ⟨ent, h₀, hc.trans hc'⟩

theorem Advanced.replace {t : Tracker} (hs : t.admissionRing[slot]? = some ent)
    (hc : Entry.Cooled cfg start now ent ent') :
    Advanced cfg start now t (t.replace slot ent ent') := by
  refine ⟨rfl, rfl, fun i e he => ?_⟩
  replace he : (t.admissionRing.set slot ent')[i]? = some e := he
  rw [List.getElem?_set] at he
  split at he
  · rename_i hi
    subst hi
    rw [if_pos (List.getElem?_eq_some_iff.1 hs).1] at he
    cases he
    exact ⟨ent, hs, hc⟩
  · exact ⟨e, he, .inr (.inl rfl)⟩

theorem yields_advanceSlot64 (hw : 0 < w) (hw' : w ≤ 64) (t : Tracker)
    (h : Span t.cfg start now elapsed) (key : Key) :
    Yields (Mark.Sound w t.cfg start now) (fun r => Advanced t.cfg start now t r.2)
      (t.advanceSlot64 w elapsed (start + t.cfg.window) key) := by
  unfold advanceSlot64
  split
  · exact Yields.pure (.refl t)
  · split
    · exact Yields.pure (.refl t)
    · rename_i ent hs
      apply (Entry.yields_advanceEntryLocked64 hw hw' h ent _).bind
      rintro ⟨transitions, ent'⟩ hc
      exact Yields.pure (.replace hs hc)

theorem yields_advanceSlots64 (hw : 0 < w) (hw' : w ≤ 64) (t : Tracker)
    (h : Span t.cfg start now elapsed) (order : List Key) :
    Yields (Mark.Sound w t.cfg start now) (fun r => Advanced t.cfg start now t r.2)
      (t.advanceSlots64 w elapsed (start + t.cfg.window) order) := by
  induction order generalizing t with
  | nil => exact Yields.pure (.refl t)
  | cons key keys ih =>
    apply (yields_advanceSlot64 hw hw' t h key).bind
    rintro ⟨transitions, t₁⟩ h₁
    have hcfg : t₁.cfg = t.cfg := h₁.config
    have hrest := ih t₁ (hcfg ▸ h)
    rw [hcfg] at hrest
    apply hrest.bind
    rintro ⟨later, t₂⟩ h₂
    exact Yields.pure (h₁.trans h₂)

theorem elapsedWindows64 {t : Tracker} (hwindow : 1 ≤ t.cfg.window)
    (hwithin : now - t.window < 2 ^ 63) (hlate : t.window + t.cfg.window ≤ now) :
    (saturate 64 (now - t.window)).tdiv t.cfg.window = t.elapsedWindows now ∧
      Span t.cfg t.window now (t.elapsedWindows now) := by
  have hpos : (1 : Int) ≤ t.cfg.window := hwindow
  have hle : t.cfg.window ≤ now - t.window := le_sub_iff_add_le'.2 hlate
  have hge : (1 : Int) ≤ now - t.window := hwindow.trans hle
  have hsame : saturate 64 (now - t.window) = now - t.window :=
    Fits.saturate_eq ⟨by omega, by omega⟩
  rw [hsame]
  have hone : 1 ≤ (now - t.window).tdiv t.cfg.window := by
    rw [Int.tdiv_eq_ediv_of_nonneg (by omega), Int.le_ediv_iff_mul_le (by omega), one_mul]
    exact hle
  refine ⟨?_, hwindow, ?_, (elapsedWindows_spec hpos hlate).1, hwithin⟩
  · unfold elapsedWindows
    omega
  · exact_mod_cast t.elapsedWindows_pos now

/-- Window arithmetic. Whatever the width of an `int`, an advance by less than `2 ^ 63`
nanoseconds forms no product outside the time that has passed, and every conversion of an integer
fits; so does that of the estimated logarithm in `decayWindowsAtLeast`, provided that the logarithms
are exact. The advance ends in the window of the present instant, and an entry begins to cool at a
boundary of one of the windows that have passed. -/
theorem window_arithmetic (w : Nat) (hw : 0 < w) (hw' : w ≤ 64) (t : Tracker) (order : List Key)
    (now : Time) (hwindow : 1 ≤ t.cfg.window) (h₀ : 0 ≤ now - t.window)
    (hwithin : now - t.window < 2 ^ 63) :
    (∀ m ∈ (t.advanceLocked64 w order now).log, (∀ x, m ≠ .estimate x) →
      m.Safe w t.cfg t.window now) ∧
    (ExactLog t.cfg →
      ∀ m ∈ (t.advanceLocked64 w order now).log, m.Safe w t.cfg t.window now) ∧
    now - t.cfg.window < (t.advanceLocked64 w order now).value.2.window ∧
    (t.advanceLocked64 w order now).value.2.window ≤ now ∧
    ∀ (slot : Nat) (ent' : Entry),
      (t.advanceLocked64 w order now).value.2.admissionRing[slot]? = some ent' →
      ∃ ent, t.admissionRing[slot]? = some ent ∧ ent.Cooled t.cfg t.window now ent' := by
  have hyields : Yields (Mark.Sound w t.cfg t.window now) (fun r =>
      now - t.cfg.window < r.2.window ∧ r.2.window ≤ now ∧
      ∀ (slot : Nat) (ent' : Entry), r.2.admissionRing[slot]? = some ent' →
        ∃ ent, t.admissionRing[slot]? = some ent ∧ ent.Cooled t.cfg t.window now ent')
      (t.advanceLocked64 w order now) := by
    apply Yields.ite
    · intro hearly
      apply Yields.pure
      exact ⟨sub_lt_iff_lt_add.2 hearly, sub_nonneg.1 h₀, (Advanced.refl t).entries⟩
    · intro hlate
      obtain ⟨helapsed, hspan⟩ := elapsedWindows64 hwindow hwithin (not_lt.1 hlate)
      have hnext := (elapsedWindows_spec (Int.lt_of_add_one_le hwindow) (not_lt.1 hlate)).2
      rw [helapsed]
      apply (yields_toInt64 hspan.elapsed_fits).bind
      rintro _ rfl
      rw [if_neg (not_lt.2 hspan.one)]
      apply (yields_advanceSlots64 hw hw' t hspan order).bind
      rintro ⟨transitions, t'⟩ ht'
      have hcfg : t'.cfg = t.cfg := ht'.config
      have hsame : t'.window = t.window := ht'.window
      simp only [hcfg, hsame]
      apply (hspan.duration (Int.natCast_nonneg _) le_rfl).bind
      rintro _ rfl
      apply Yields.pure
      have hcovers := hspan.covers
      refine ⟨?_, ?_, ht'.entries⟩
      · rw [add_mul, one_mul] at hnext
        dsimp only
        linarith
      · dsimp only
        linarith
  exact ⟨fun m hm => (hyields.log m hm).safe, fun he m hm => (hyields.log m hm).safe_of_exact he,
    hyields.value⟩

def observed (floorLog : ℚ → ℚ → Int) : Tracker :=
  (List.replicate 16 [107]).foldl (fun t key => (t.observeLocked key 0).2)
    (new ⟨1000000000, 1 / 2, 4, 1, 2, 60000000000, 1, floorLog⟩ 0)

/-- After ten seconds it has become hot and begun to cool, at the end of the fifth one. -/
theorem window_arithmetic_sample :
    let t := observed fun _ _ => 0
    let r := (t.advanceLocked64 32 [[107]] 10000000000).value.2
    10000000000 - t.cfg.window < r.window ∧ r.window ≤ 10000000000 ∧
      (∃ ent', r.admissionRing[0]? = some ent' ∧ ent'.coolingAt = 5000000000 ∧
        Boundary t.cfg.window t.window 10000000000 ent'.coolingAt) ∧
      let t' := observed fun x y => ⌊Real.log x / Real.log y⌋
      ∀ m ∈ (t'.advanceLocked64 32 [[107]] 10000000000).log,
        m.Safe 32 t'.cfg t'.window 10000000000 := by
  intro t r
  obtain ⟨-, -, hafter, hbefore, hcooled⟩ := window_arithmetic 32 (by decide) (by decide) t [[107]]
    10000000000 (by decide +kernel) (by decide +kernel) (by decide +kernel)
  have hrun : (r.admissionRing[0]?.map fun ent' => ent'.coolingAt) = some 5000000000 ∧
      (t.admissionRing[0]?.map fun ent => ent.coolingAt) = some 0 := by decide +kernel
  obtain ⟨ent', hent', hcooling⟩ := Option.map_eq_some_iff.1 hrun.1
  refine ⟨hafter, hbefore, ⟨ent', hent', hcooling, ?_⟩, ?_⟩
  · obtain ⟨ent, hent, h⟩ := hcooled 0 ent' hent'
    rw [hent] at hrun
    have hold : ent.coolingAt = 0 := Option.some.inj hrun.2
    rcases h with h | h | h
    · rw [hcooling] at h
      cases h
    · rw [hcooling, hold] at h
      cases h
    · exact h
  · intro t'
    exact (window_arithmetic 32 (by decide) (by decide) t' [[107]] 10000000000 (by decide +kernel)
      (by decide +kernel) (by decide +kernel)).2.1 fun x y => rfl

end Tracker

namespace Entry

/-- A count that the machine holds in an `int` and adds to the elapsed windows in an `int64`. -/
structure Small (w : Nat) (elapsed : Int) (hotWindows : Nat) : Prop where
  int : Fits w hotWindows
  sum : hotWindows + elapsed < 2 ^ 63

/-- What the settings of a tracker are on a machine. -/
structure Machine (w : Nat) (cfg : Config) : Prop where
  bits : 0 < w
  wide : w ≤ 64
  minimum : Fits w cfg.minimumHotWindows
  positive : 0 < cfg.minimumHotWindows

theorem Machine.toInt64 (hm : Machine w cfg) (h : Fits w x) :
    Yields (Mark.Sound w cfg start now) (· = x) (toInt64 (wrap w x)) := by
  rw [h.wrap_eq hm.bits]
  exact yields_toInt64 (h.mono hm.wide)

theorem Machine.reachesMinimum (hm : Machine w cfg) {high : Nat} (hs : Small w high hot) :
    Yields (Mark.Sound w cfg start now)
      (· = decide (high ≥ cfg.minimumHotWindows ∨ hot + high ≥ cfg.minimumHotWindows))
      (reachesMinimum w cfg hot high) := by
  apply (hm.toInt64 hm.minimum).bind
  rintro _ rfl
  apply Yields.ite
  · intro hge
    exact Yields.pure (decide_eq_true (.inl hge)).symm
  · intro hlt
    apply (hm.toInt64 hs.int).bind
    rintro _ rfl
    apply (hm.toInt64 hm.minimum).bind
    rintro _ rfl
    apply Yields.pure
    have hsum : int64 (hot + high) = hot + high := by
      have := hs.sum
      exact Fits.wrap_eq (by decide) ⟨by omega, by omega⟩
    rw [hsum]
    simp only [hlt, false_or]

theorem Machine.reached64 (hm : Machine w cfg) (before : State) {e : Entry} {high : Nat}
    (hs : Small w high e.hotWindows) :
    Yields (Mark.Sound w cfg start now)
      (· = (let e' :=
          if (high : Int) ≥ cfg.minimumHotWindows ∨
            e.hotWindows + high ≥ cfg.minimumHotWindows then
            { e with hotWindows := cfg.minimumHotWindows.toNat }
          else { e with hotWindows := e.hotWindows + high }
        (e'.changedFrom before, e')))
      (do
        let reached ← Entry.reachesMinimum w cfg e.hotWindows high
        if reached then
          let e' := { e with hotWindows := cfg.minimumHotWindows.toNat }
          pure (e'.changedFrom before, e')
        else
          let more ← toInt w high
          let e' := { e with hotWindows := e.hotWindows + more.toNat }
          pure (e'.changedFrom before, e')) := by
  apply (hm.reachesMinimum hs).bind
  rintro _ rfl
  by_cases hreach : (high : Int) ≥ cfg.minimumHotWindows ∨
      e.hotWindows + high ≥ cfg.minimumHotWindows
  · rw [if_pos (decide_eq_true hreach), if_pos hreach]
    exact Yields.pure rfl
  · rw [if_neg hreach, if_neg (by simpa using hreach)]
    have hlt := not_le.1 (not_or.1 hreach).1
    have hhigh : Fits w high := hm.minimum.of_le (Int.natCast_nonneg high) hlt.le
    apply (yields_toInt hm.bits hhigh).bind
    rintro _ rfl
    exact Yields.pure rfl

theorem Machine.catchUpHigh64 (hm : Machine w cfg) (ent : Entry) {high : Nat}
    (hs : Small w high ent.hotWindows) :
    Yields (Mark.Sound w cfg start now) (· = ent.catchUpHigh cfg high)
      (ent.catchUpHigh64 w cfg high) := by
  have hfits : Fits w (cfg.minimumHotWindows - ent.hotWindows) := by
    obtain ⟨hlow, hhigh⟩ := hm.minimum
    obtain ⟨hlow', hhigh'⟩ := hs.int
    have := hm.positive
    exact ⟨by omega, by omega⟩
  have hsame : wrap w cfg.minimumHotWindows - wrap w ent.hotWindows =
      cfg.minimumHotWindows - ent.hotWindows := by
    rw [hm.minimum.wrap_eq hm.bits, hs.int.wrap_eq hm.bits]
  have hmax : ∀ x : Int, (if x < 0 then 0 else x) = max x 0 := by
    intro x
    split <;> omega
  apply Yields.ite
  · intro hpos
    have hpos : high > 0 := by omega
    unfold Entry.catchUpHigh
    rw [if_pos hpos]
    by_cases hcool : ent.state = .cooling
    · simp only [if_pos hcool]
      rw [hsame]
      apply (hm.toInt64 hfits).bind
      rintro _ rfl
      rw [hmax]
      exact hm.reached64 _ (by split_ifs <;> exact hs)
    · simp only [if_neg hcool]
      rw [hsame]
      apply (hm.toInt64 hfits).bind
      rintro _ rfl
      rw [hmax]
      exact hm.reached64 _ (by split_ifs <;> exact hs)
  · intro hneg
    have hneg : ¬ high > 0 := by omega
    rw [Entry.catchUpHigh, if_neg hneg]
    exact Yields.pure rfl

theorem applyState_hotWindows_le (cfg : Config) (ent : Entry) (now : Time) :
    (ent.applyState cfg now).hotWindows ≤ ent.hotWindows + 1 := by
  unfold applyState applyHigh applyMid applyLow
  dsimp only
  split_ifs <;> simp

/-- The machine divides the later windows as the model does: both counts are determined by what
they count. -/
theorem segments_natCast (hv : cfg.Valid) (firstScore : ℚ) {n : Nat} (hn : Fits 64 n) :
    ∃ high atLeast : Nat, high ≤ atLeast ∧ atLeast ≤ n ∧
      (segments cfg firstScore n).value =
        ((high : Int), ((atLeast - high : Nat) : Int), ((n - atLeast : Nat) : Int)) ∧
      high = decayWindowsAtLeast cfg.floorLog firstScore (1 - cfg.ewmaAlpha)
        cfg.promotionThreshold n ∧
      atLeast = decayWindowsAtLeast cfg.floorLog firstScore (1 - cfg.ewmaAlpha)
        cfg.demotionThreshold n := by
  have hd : 0 ≤ 1 - cfg.ewmaAlpha := sub_nonneg.2 hv.alpha_le
  have hd₁ : 1 - cfg.ewmaAlpha < 1 := sub_lt_self 1 hv.alpha_pos
  have hunique : ∀ {threshold : ℚ}, 0 < threshold →
      (decayWindowsAtLeast64 cfg.floorLog firstScore (1 - cfg.ewmaAlpha) threshold n).value =
        decayWindowsAtLeast cfg.floorLog firstScore (1 - cfg.ewmaAlpha) threshold n := by
    intro threshold ht
    have h₁ := decayWindowsAtLeast_spec (fun x y => int64 (cfg.floorLog x y)) firstScore hd hd₁ ht n
    have h₂ := decayWindowsAtLeast_spec cfg.floorLog firstScore hd hd₁ ht n
    rw [decayWindowsAtLeast64_natCast]
    exact_mod_cast le_antisymm (h₁.mono h₂ le_rfl) (h₂.mono h₁ le_rfl)
  obtain ⟨high, atLeast, hvalue, hhigh, hatLeast, -⟩ :=
    segments_value cfg firstScore (Int.natCast_nonneg n) hn
  rw [hunique (hv.demotion_pos.trans hv.demotion_lt)] at hhigh
  rw [hunique hv.demotion_pos] at hatLeast
  have hD := decayWindowsAtLeast_spec cfg.floorLog firstScore hd hd₁ hv.demotion_pos n
  have hP := decayWindowsAtLeast_spec cfg.floorLog firstScore hd hd₁
    (hv.demotion_pos.trans hv.demotion_lt) n
  have hle := hP.mono hD hv.demotion_lt.le
  have hle' := hD.le
  refine ⟨_, _, hle, hle', ?_, rfl, rfl⟩
  rw [hvalue, hhigh, hatLeast]
  congr 2
  · omega
  · omega

theorem applyStateLocked64_exact (ent : Entry) (hb : Boundary cfg.window start now boundary) :
    Yields (Mark.Sound w cfg start now) (· = ent.applyStateLocked cfg boundary)
      (ent.applyStateLocked64 cfg boundary) :=
  ⟨rfl, (yields_applyStateLocked64 ent hb).log⟩

theorem catchUpLow64_exact (h : Span cfg start now elapsed) (ent : Entry) {atLeast high n : Nat}
    (hhigh : high ≤ atLeast) (hle : atLeast ≤ n) (hn : elapsed - 1 = n) (score : ℚ) :
    Yields (Mark.Sound w cfg start now)
      (· = ent.catchUpLow cfg (n - atLeast) score
        (start + cfg.window + (atLeast + 1 : Nat) * cfg.window)
        (start + cfg.window + n * cfg.window))
      (ent.catchUpLow64 cfg high (atLeast - high : Nat) (n - atLeast : Nat) n score
        (start + cfg.window)) := by
  have hlog := yields_catchUpLow64 (w := w) h ent high (atLeast - high : Nat) (n - atLeast : Nat)
    (by omega) (by omega) score
  rw [hn] at hlog
  refine ⟨?_, hlog.log⟩
  have hone := h.one
  unfold catchUpLow64
  split
  · rename_i hpos
    have hoffset : int64 (int64 (high + (atLeast - high : Nat)) + 1) = (atLeast + 1 : Nat) := by
      have hfits : Fits 64 (atLeast + 1 : Nat) :=
        h.fits (by omega) (h.count_le (by omega) (by omega))
      have hsum : (high : Int) + (atLeast - high : Nat) = atLeast := by omega
      have hfits' : Fits 64 atLeast := hfits.of_le (by omega) (by omega)
      rw [hsum, int64, int64, hfits'.wrap_eq (by decide)]
      exact hfits.wrap_eq (by decide)
    have hspan : (duration (atLeast + 1 : Nat) cfg.window).value =
        (atLeast + 1 : Nat) * cfg.window :=
      (h.duration (w := w) (by omega) (by omega)).value
    have hspan' : (duration n cfg.window).value = n * cfg.window :=
      (h.duration (w := w) (by omega) (by omega)).value
    show ent.catchUpLow cfg _ score (start + cfg.window + (duration _ cfg.window).value)
      (start + cfg.window + (duration _ cfg.window).value) = _
    rw [hoffset, hspan, hspan', Int.toNat_natCast]
  · rename_i hneg
    have hzero : n - atLeast = 0 := by omega
    rw [hzero]
    rfl

theorem catchUp64_exact (hm : Machine w cfg) (hv : cfg.Valid) (h : Span cfg start now elapsed)
    (ent : Entry) (hs : Small w elapsed ent.hotWindows) (firstScore : ℚ) {n : Nat}
    (hn : elapsed - 1 = n) :
    Yields (Mark.Sound w cfg start now)
      (· = ent.catchUp cfg
        (decayWindowsAtLeast cfg.floorLog firstScore (1 - cfg.ewmaAlpha) cfg.promotionThreshold n)
        (decayWindowsAtLeast cfg.floorLog firstScore (1 - cfg.ewmaAlpha) cfg.demotionThreshold n)
        n (firstScore * (1 - cfg.ewmaAlpha) ^ n) (start + cfg.window))
      (ent.catchUp64 w cfg firstScore n (start + cfg.window)) := by
  have hone := h.one
  have hfits : Fits 64 n := h.fits (by omega) (h.count_le (by omega) (by omega))
  obtain ⟨high, atLeast, hle, hle', hvalue, hhigh, hatLeast⟩ := segments_natCast hv firstScore hfits
  rw [← hhigh, ← hatLeast]
  have hsegments : Yields (Mark.Sound w cfg start now)
      (· = ((high : Int), ((atLeast - high : Nat) : Int), ((n - atLeast : Nat) : Int)))
      (segments cfg firstScore n) :=
    ⟨hvalue, (h.segments (by omega) (by omega) firstScore).log⟩
  apply hsegments.bind
  rintro _ rfl
  have hsmall : Small w high ent.hotWindows := ⟨hs.int, by have := hs.sum; omega⟩
  apply (hm.catchUpHigh64 ent hsmall).bind
  rintro ⟨first, ent₁⟩ hr₁
  rcases hmid : ent₁.catchUpMid (atLeast - high) with ⟨mid, ent₂⟩
  simp only [Int.toNat_natCast, hmid]
  apply (catchUpLow64_exact h _ hle hle' hn _).bind
  rintro ⟨last, ent₃⟩ hr₃
  apply Yields.pure
  simp only [catchUp, ← hr₁, hmid, ← hr₃]

theorem advanceEntryLocked64_exact (hm : Machine w cfg) (hv : cfg.Valid)
    (h : Span cfg start now elapsed) (ent : Entry) (hs : Small w elapsed (ent.hotWindows + 1))
    (rate : ℚ) :
    Yields (Mark.Sound w cfg start now)
      (· = ent.advanceEntryLocked cfg rate elapsed.toNat (start + cfg.window))
      (ent.advanceEntryLocked64 w cfg rate elapsed (start + cfg.window)) := by
  have hone := h.one
  obtain ⟨n, hn⟩ := Int.eq_ofNat_of_zero_le (a := elapsed - 1) (by omega)
  apply (applyStateLocked64_exact _ h.first).bind
  rintro ⟨first, ent₁⟩ hr
  apply Yields.ite
  · intro heq
    subst heq
    exact Yields.pure hr
  · intro hne
    rw [h.remaining, hn]
    have hent : ent₁.hotWindows ≤ ent.hotWindows + 1 := by
      rw [show ent₁ = _ from congrArg Prod.snd hr]
      exact applyState_hotWindows_le ..
    have hsmall : Small w elapsed ent₁.hotWindows := by
      have := hs.sum
      exact ⟨hs.int.of_le (by omega) (by exact_mod_cast hent), by omega⟩
    apply (catchUp64_exact hm hv h { ent₁ with lastRate := 0 } hsmall _ hn).bind
    rintro ⟨later, ent₂⟩ hr₂
    apply Yields.pure
    have hne' : elapsed.toNat ≠ 1 := by omega
    have hpred : elapsed.toNat - 1 = n := by omega
    simp only [advanceEntryLocked, ← hr, if_neg hne', hpred, ← hr₂]

end Entry

namespace Tracker

open Slizen.Hotness.Entry (Machine Small)

theorem advanceSlot64_exact {t : Tracker} (hm : Machine w t.cfg) (hv : t.cfg.Valid)
    (h : Span t.cfg start now elapsed) {key : Key}
    (hs : ∀ ent, t.find key = some ent → Small w elapsed (ent.hotWindows + 1)) :
    Yields (Mark.Sound w t.cfg start now)
      (· = t.advanceSlot elapsed.toNat (start + t.cfg.window) key)
      (t.advanceSlot64 w elapsed (start + t.cfg.window) key) := by
  unfold advanceSlot64 advanceSlot
  cases hl : t.items.lookup key with
  | none => exact Yields.pure rfl
  | some slot =>
    cases he : t.admissionRing[slot]? with
    | none =>
      simp only [he]
      exact Yields.pure rfl
    | some ent =>
      have hsmall := hs ent (by rw [find, hl, Option.bind_some, he])
      simp only [he]
      apply (Entry.advanceEntryLocked64_exact hm hv h ent hsmall _).bind
      rintro ⟨transitions, ent'⟩ hr
      apply Yields.pure
      simp only [← hr]

theorem advanceSlots64_exact {t : Tracker} (hm : Machine w t.cfg) (hv : t.cfg.Valid) (hwf : t.WF)
    (h : Span t.cfg start now elapsed) {order : List Key} (ho : order.Nodup)
    (hs : ∀ ent ∈ t.admissionRing, ent.key ∈ order → Small w elapsed (ent.hotWindows + 1)) :
    Yields (Mark.Sound w t.cfg start now)
      (· = t.advanceSlots elapsed.toNat (start + t.cfg.window) order)
      (t.advanceSlots64 w elapsed (start + t.cfg.window) order) := by
  induction order generalizing t with
  | nil => exact Yields.pure rfl
  | cons key keys ih =>
    obtain ⟨hkey, hkeys⟩ := List.nodup_cons.1 ho
    have hfound : ∀ ent, t.find key = some ent → Small w elapsed (ent.hotWindows + 1) := by
      intro ent hf
      obtain ⟨slot, -, hslot⟩ := Option.bind_eq_some_iff.1 hf
      apply hs ent (List.mem_of_getElem? hslot)
      rw [hwf.find_key hf]
      exact List.mem_cons_self
    apply (advanceSlot64_exact hm hv h hfound).bind
    rintro ⟨transitions, t₁⟩ hr
    have hpos : 0 < elapsed.toNat := by have := h.one; omega
    have ht₁ : t₁ = t.withRing (t.admissionRing.map fun x => if x.key = key then
        (x.completeWindows t.cfg elapsed.toNat (start + t.cfg.window)).2 else x) := by
      rw [advanceSlot_eq hwf] at hr
      exact congrArg Prod.snd hr
    have hgkey : ∀ x : Entry, (if x.key = key then
        (x.completeWindows t.cfg elapsed.toNat (start + t.cfg.window)).2 else x).key = x.key := by
      intro x
      split
      · exact x.completeWindows_key hv hpos _
      · rfl
    have hcfg : t₁.cfg = t.cfg := by rw [ht₁]; rfl
    -- The entries of the keys that are still to come are those of the start.
    have hrest : ∀ ent ∈ t₁.admissionRing, ent.key ∈ keys →
        Small w elapsed (ent.hotWindows + 1) := by
      intro ent he hk
      rw [ht₁] at he
      obtain ⟨x, hx, rfl⟩ := List.mem_map.1 he
      rw [hgkey] at hk
      have hne : x.key ≠ key := by
        rintro rfl
        exact hkey hk
      rw [if_neg hne]
      exact hs x hx (List.mem_cons_of_mem _ hk)
    have hwf₁ : t₁.WF := by
      rw [ht₁]
      exact hwf.withRing hgkey
    have hlater := ih (t := t₁) (hcfg ▸ hm) (hcfg ▸ hv) hwf₁ (hcfg ▸ h) hkeys hrest
    rw [hcfg] at hlater
    apply hlater.bind
    rintro ⟨later, t₂⟩ hr₂
    apply Yields.pure
    simp only [advanceSlots, ← hr, ← hr₂]

/-- On a machine whose integers hold the settings and the counts, `advanceLocked` computes what
the model of it computes. -/
theorem advanceLocked64_exact {t : Tracker} (hm : Machine w t.cfg) (hv : t.cfg.Valid) (hwf : t.WF)
    {order : List Key} (ho : order.Nodup) (hwithin : now - t.window < 2 ^ 63)
    (hs : ∀ ent ∈ t.admissionRing, Small w (t.elapsedWindows now) (ent.hotWindows + 1)) :
    (t.advanceLocked64 w order now).value = t.advanceLocked order now := by
  unfold advanceLocked64 advanceLocked
  split
  · rfl
  · rename_i hlate
    obtain ⟨helapsed, hspan⟩ :=
      elapsedWindows64 (Int.add_one_le_of_lt hv.window_pos) hwithin (not_lt.1 hlate)
    have hslots := advanceSlots64_exact hm hv hwf hspan ho fun ent he _ => hs ent he
    rw [Int.toNat_natCast] at hslots
    have hadvanced := (yields_advanceSlots64 hm.bits hm.wide t hspan order).value
    rw [hslots.value] at hadvanced
    rcases hr : t.advanceSlots (t.elapsedWindows now) (t.window + t.cfg.window) order with
      ⟨transitions, t'⟩
    rw [hr] at hslots hadvanced
    simp only [hr]
    have hcfg : t'.cfg = t.cfg := hadvanced.config
    apply Yields.value (Q := (· = _)) (q := Mark.Sound w t.cfg t.window now)
    rw [helapsed]
    apply (yields_toInt64 hspan.elapsed_fits).bind
    rintro _ rfl
    rw [if_neg (not_lt.2 hspan.one)]
    apply hslots.bind
    rintro _ rfl
    dsimp only
    rw [hcfg]
    apply (hspan.duration (Int.natCast_nonneg _) le_rfl).bind
    rintro _ rfl
    exact Yields.pure rfl

theorem advanceLocked64_exact_sample :
    let t := ((new ⟨1, 1 / 2, 4, 1, 2, 1, 1, fun _ _ => 0⟩ 0).observeLocked [107] 0).2
    (t.advanceLocked64 32 [[107]] 5).value = t.advanceLocked [[107]] 5 := by
  intro t
  have hnew : ∀ ent ∈ t.admissionRing, ent.hotWindows = 0 := by decide +kernel
  refine advanceLocked64_exact ⟨by decide, by decide, by decide +kernel, by decide +kernel⟩
    ⟨?_, ?_, ?_, ?_, ?_, ?_, ?_⟩ ((wf_new _ 0).observeLocked [107] 0) (by decide)
    (by decide +kernel) fun ent he => ?_
  case refine_8 =>
    rw [hnew ent he]
    exact ⟨by decide, by decide +kernel⟩
  all_goals decide +kernel

end Tracker

end

end Slizen.Hotness
