import Mathlib.Analysis.SpecialFunctions.Log.Basic
import Slizen.Decay
import Slizen.FixedWidth

namespace Slizen.Hotness
set_option autoImplicit true

open FixedWidth Traced

/-- What the arithmetic of `advanceLocked` leaves in the log: an integer that is converted to
`int64`, to `int` or to `time.Duration`, the estimate of the logarithm that is converted to `int64`,
the factors of a duration, and an instant that is written to `coolingAt`. -/
inductive Mark where
  | toInt64 (x : Int)
  | toInt (x : Int)
  | toDuration (x : Int)
  | estimate (x : Int)
  | product (count window : Int)
  | coolingAt (time : Time)

def int64 (x : Int) : Int := wrap 64 x

def toInt64 (x : Int) : Traced Mark Int := do
  emit (.toInt64 x)
  pure (int64 x)

/-- A conversion to an `int` of `w` bits. -/
def toInt (w : Nat) (x : Int) : Traced Mark Int := do
  emit (.toInt x)
  pure (wrap w x)

/-- `time.Duration(count) * window`. -/
def duration (count window : Int) : Traced Mark Int := do
  emit (.toDuration count)
  emit (.product (int64 count) window)
  pure (int64 (int64 count * window))

/-- The downward loop over an `int64` estimate. -/
def lowerLoop (initial decay threshold : ℚ) (estimate : Int) : Int :=
  if 0 < estimate ∧ initial * decay ^ estimate.toNat < threshold then
    lowerLoop initial decay threshold (estimate - 1)
  else estimate
termination_by estimate.toNat

/-- The upward loop. -/
def raiseLoop (initial decay threshold : ℚ) (maxWindows estimate : Int) : Int :=
  if estimate < maxWindows ∧ initial * decay ^ (estimate + 1).toNat ≥ threshold then
    raiseLoop initial decay threshold maxWindows (estimate + 1)
  else estimate
termination_by (maxWindows - estimate).toNat

/-- `decayWindowsAtLeast` on machine integers. -/
def decayWindowsAtLeast64 (floorLog : ℚ → ℚ → Int) (initial decay threshold : ℚ)
    (maxWindows : Int) : Traced Mark Int :=
  if maxWindows ≤ 0 ∨ initial ≤ 0 ∨ threshold ≤ 0 ∨ decay ≤ 0 ∨ initial * decay < threshold then
    pure 0
  else if decay ≥ 1 ∨ initial * decay ^ maxWindows.toNat ≥ threshold then pure maxWindows
  else do
    emit (.estimate (floorLog (threshold / initial) decay))
    let estimate := int64 (floorLog (threshold / initial) decay)
    let estimate := if estimate < 0 then 0 else estimate
    let estimate := if estimate > maxWindows then maxWindows else estimate
    let estimate := lowerLoop initial decay threshold estimate
    pure (raiseLoop initial decay threshold maxWindows estimate)

/-- How many of the later windows of `advanceEntryLocked` have a score that reaches the promotion
threshold, one between the thresholds, and one below the demotion threshold. -/
def segments (cfg : Config) (firstScore : ℚ) (remaining : Int) : Traced Mark (Int × Int × Int) := do
  let beta := 1 - cfg.ewmaAlpha
  let highWindows ←
    decayWindowsAtLeast64 cfg.floorLog firstScore beta cfg.promotionThreshold remaining
  let atLeastDemotion ←
    decayWindowsAtLeast64 cfg.floorLog firstScore beta cfg.demotionThreshold remaining
  pure (highWindows, int64 (atLeastDemotion - highWindows), int64 (remaining - atLeastDemotion))

namespace Entry

/-- `applyStateLocked`, with the instant that it writes. -/
def applyStateLocked64 (cfg : Config) (ent : Entry) (now : Time) :
    Traced Mark (List Transition × Entry) := do
  emitIf (ent.score < cfg.promotionThreshold ∧ ent.score < cfg.demotionThreshold ∧
    ent.state = .hot) (.coolingAt now)
  pure (ent.applyStateLocked cfg now)

/-- Whether `hotWindows` is set to the minimum at the end of the high segment. -/
def reachesMinimum (w : Nat) (cfg : Config) (hotWindows : Nat) (highWindows : Int) :
    Traced Mark Bool := do
  let minimum ← toInt64 (wrap w cfg.minimumHotWindows)
  if highWindows ≥ minimum then pure true
  else
    let hotWindows ← toInt64 (wrap w hotWindows)
    let minimum ← toInt64 (wrap w cfg.minimumHotWindows)
    pure (int64 (hotWindows + highWindows) ≥ minimum)

/-- The high segment. The count `hotWindows` is a natural number, and an `int` where it is
computed with. -/
def catchUpHigh64 (w : Nat) (cfg : Config) (ent : Entry) (highWindows : Int) :
    Traced Mark (List Transition × Entry) :=
  if highWindows > 0 then do
    let before := ent.state
    let ent := if ent.state = .cooling then { ent with state := .hot, coolingAt := 0 } else ent
    let needed ← toInt64 (wrap w (wrap w cfg.minimumHotWindows - wrap w ent.hotWindows))
    let needed := if needed < 0 then 0 else needed
    let ent := if ent.state ≠ .hot ∧ highWindows ≥ needed then { ent with state := .hot } else ent
    let reached ← reachesMinimum w cfg ent.hotWindows highWindows
    if reached then
      let ent := { ent with hotWindows := cfg.minimumHotWindows.toNat }
      pure (ent.changedFrom before, ent)
    else
      let more ← toInt w highWindows
      let ent := { ent with hotWindows := ent.hotWindows + more.toNat }
      pure (ent.changedFrom before, ent)
  else pure ([], ent)

/-- The low segment. -/
def catchUpLow64 (cfg : Config) (ent : Entry) (highWindows midWindows lowWindows remaining : Int)
    (finalScore : ℚ) (firstBoundary : Time) : Traced Mark (List Transition × Entry) :=
  if lowWindows > 0 then do
    let lowStartOffset := int64 (int64 (highWindows + midWindows) + 1)
    let span ← duration lowStartOffset cfg.window
    let lowStart := firstBoundary + span
    emitIf (ent.state = .hot) (.coolingAt lowStart)
    let span ← duration remaining cfg.window
    let finalBoundary := firstBoundary + span
    pure (ent.catchUpLow cfg lowWindows.toNat finalScore lowStart finalBoundary)
  else pure ([], ent)

/-- The later windows of `advanceEntryLocked`. -/
def catchUp64 (w : Nat) (cfg : Config) (ent : Entry) (firstScore : ℚ) (remaining : Int)
    (firstBoundary : Time) : Traced Mark (List Transition × Entry) := do
  let (highWindows, midWindows, lowWindows) ← segments cfg firstScore remaining
  let (high, ent) ← ent.catchUpHigh64 w cfg highWindows
  let (mid, ent) := ent.catchUpMid midWindows.toNat
  let finalScore := firstScore * (1 - cfg.ewmaAlpha) ^ remaining.toNat
  let (low, ent) ←
    ent.catchUpLow64 cfg highWindows midWindows lowWindows remaining finalScore firstBoundary
  pure (high ++ mid ++ low, { ent with score := finalScore })

def advanceEntryLocked64 (w : Nat) (cfg : Config) (ent : Entry) (rate : ℚ) (elapsedWindows : Int)
    (firstBoundary : Time) : Traced Mark (List Transition × Entry) := do
  let firstScore := cfg.ewmaAlpha * rate + (1 - cfg.ewmaAlpha) * ent.score
  let (first, ent) ←
    { ent with score := firstScore, lastRate := rate }.applyStateLocked64 cfg firstBoundary
  if elapsedWindows = 1 then pure (first, ent)
  else
    let (later, ent) ← { ent with lastRate := 0 }.catchUp64 w cfg firstScore
      (int64 (elapsedWindows - 1)) firstBoundary
    pure (first ++ later, ent)

end Entry

namespace Tracker

def advanceSlot64 (w : Nat) (t : Tracker) (elapsedWindows : Int) (firstBoundary : Time)
    (key : Key) : Traced Mark (List Transition × Tracker) :=
  match t.items.lookup key with
  | none => pure ([], t)
  | some slot =>
    match t.admissionRing[slot]? with
    | none => pure ([], t)
    | some ent => do
      let rate := ent.count / t.cfg.seconds
      let (transitions, ent') ← ent.advanceEntryLocked64 w t.cfg rate elapsedWindows firstBoundary
      pure (transitions, t.replace slot ent { ent' with count := 0 })

def advanceSlots64 (w : Nat) (t : Tracker) (elapsedWindows : Int) (firstBoundary : Time) :
    List Key → Traced Mark (List Transition × Tracker)
  | [] => pure ([], t)
  | key :: keys => do
    let (transitions, t) ← t.advanceSlot64 w elapsedWindows firstBoundary key
    let (later, t) ← t.advanceSlots64 w elapsedWindows firstBoundary keys
    pure (transitions ++ later, t)

/-- `advanceLocked` on machine integers; `now.Sub` saturates. -/
def advanceLocked64 (w : Nat) (t : Tracker) (order : List Key) (now : Time) :
    Traced Mark (List Transition × Tracker) :=
  if now < t.window + t.cfg.window then pure ([], t)
  else do
    let elapsedWindows ← toInt64 ((saturate 64 (now - t.window)).tdiv t.cfg.window)
    let elapsedWindows := if elapsedWindows < 1 then 1 else elapsedWindows
    let (transitions, t) ← t.advanceSlots64 w elapsedWindows (t.window + t.cfg.window) order
    let span ← duration elapsedWindows t.cfg.window
    pure (transitions, { t with window := t.window + span })

end Tracker

section

variable {initial decay threshold : ℚ}

theorem lowerLoop_natCast (e : Nat) :
    lowerLoop initial decay threshold e = lowerEstimate initial decay threshold e := by
  induction e with
  | zero =>
    rw [lowerLoop, if_neg (fun h => absurd h.1 (by decide))]
    rfl
  | succ e ih =>
    rw [lowerLoop, lowerEstimate]
    by_cases hlt : initial * decay ^ (e + 1) < threshold
    · have hpred : ((e + 1 : Nat) : Int) - 1 = e := by omega
      rw [if_pos ⟨by omega, hlt⟩, if_pos hlt, hpred, ih]
    · rw [if_neg (fun h => hlt h.2), if_neg hlt]

theorem raiseLoop_natCast (left e : Nat) :
    raiseLoop initial decay threshold (e + left : Nat) e =
      raiseEstimate initial decay threshold left e := by
  induction left generalizing e with
  | zero =>
    rw [raiseLoop, if_neg (fun h => absurd h.1 (by simp))]
    rfl
  | succ left ih =>
    rw [raiseLoop, raiseEstimate]
    by_cases hge : initial * decay ^ (e + 1) ≥ threshold
    · have hnext : ((e + (left + 1) : Nat) : Int) = (e + 1 + left : Nat) := by omega
      have hcast : ((e : Nat) : Int) + 1 = (e + 1 : Nat) := by omega
      rw [if_pos ⟨by omega, hge⟩, if_pos hge, hnext, hcast, ih]
    · rw [if_neg (fun h => hge h.2), if_neg hge]

theorem decayWindowsAtLeast64_natCast (floorLog : ℚ → ℚ → Int) (initial decay threshold : ℚ)
    (n : Nat) : (decayWindowsAtLeast64 floorLog initial decay threshold n).value =
      decayWindowsAtLeast (fun x y => int64 (floorLog x y)) initial decay threshold n := by
  have hzero : (n : Int) ≤ 0 ↔ n = 0 := by omega
  rw [decayWindowsAtLeast64, decayWindowsAtLeast]
  simp only [hzero, Int.toNat_natCast]
  split
  · rfl
  · split
    · rfl
    · generalize int64 (floorLog (threshold / initial) decay) = e
      have hclamp : (if (if e < 0 then 0 else e) > (n : Int) then (n : Int)
          else if e < 0 then 0 else e) = (min e.toNat n : Nat) := by
        split_ifs <;> omega
      have hle : lowerEstimate initial decay threshold (min e.toNat n) ≤ n :=
        (lowerEstimate_le ..).trans (min_le_right ..)
      have hsum : (n : Int) = (lowerEstimate initial decay threshold (min e.toNat n) +
          (n - lowerEstimate initial decay threshold (min e.toNat n)) : Nat) := by omega
      show raiseLoop _ _ _ _ (lowerLoop _ _ _ (if _ then _ else _)) = _
      rw [hclamp, lowerLoop_natCast]
      conv_lhs => rw [hsum]
      exact raiseLoop_natCast ..

theorem decayWindowsAtLeast64_of_neg (floorLog : ℚ → ℚ → Int) (h : n ≤ 0) :
    (decayWindowsAtLeast64 floorLog initial decay threshold n).value = 0 := by
  rw [decayWindowsAtLeast64, if_pos (.inl h)]
  rfl

theorem decayWindowsAtLeast_le (floorLog : ℚ → ℚ → Int) (initial decay threshold : ℚ) (n : Nat) :
    decayWindowsAtLeast floorLog initial decay threshold n ≤ n := by
  rw [decayWindowsAtLeast]
  split
  · exact Nat.zero_le n
  · split
    · exact le_rfl
    · generalize hm : min (floorLog (threshold / initial) decay).toNat n = m
      have hle := (lowerEstimate_le initial decay threshold m).trans (hm ▸ min_le_right _ n)
      have hn := (raiseEstimate_spec (n - lowerEstimate initial decay threshold m)
        (lowerEstimate initial decay threshold m) (lowerEstimate_reaches m)).1
      rw [Nat.add_sub_cancel' hle] at hn
      exact hn

theorem decayWindowsAtLeast64_range (floorLog : ℚ → ℚ → Int) (initial decay threshold : ℚ)
    (h : 0 ≤ n) : 0 ≤ (decayWindowsAtLeast64 floorLog initial decay threshold n).value ∧
      (decayWindowsAtLeast64 floorLog initial decay threshold n).value ≤ n := by
  obtain ⟨m, rfl⟩ := Int.eq_ofNat_of_zero_le h
  rw [decayWindowsAtLeast64_natCast]
  have := decayWindowsAtLeast_le (fun x y => int64 (floorLog x y)) initial decay threshold m
  omega

end

theorem DecayCount.card (h : DecayCount initial decay threshold n m) :
    ((Finset.Icc (1 : Int) n).filter fun j => threshold ≤ initial * decay ^ j.toNat).card = m := by
  have heq : ((Finset.Icc (1 : Int) n).filter fun j => threshold ≤ initial * decay ^ j.toNat) =
      Finset.Icc (1 : Int) m := by
    ext j
    have hle := h.le
    simp only [Finset.mem_filter, Finset.mem_Icc]
    constructor
    · rintro ⟨⟨h₁, hn⟩, hreach⟩
      refine ⟨h₁, ?_⟩
      by_contra hlt
      exact absurd hreach (not_le.2 (h.low j.toNat (by omega) (by omega)))
    · rintro ⟨h₁, hm⟩
      exact ⟨⟨h₁, by omega⟩, h.high j.toNat (by omega) (by omega)⟩
  rw [heq, Int.card_Icc]
  omega

theorem segments_value (cfg : Config) (firstScore : ℚ) (h : 0 ≤ remaining)
    (hfits : Fits 64 remaining) :
    ∃ high atLeast : Int, (segments cfg firstScore remaining).value =
        (high, atLeast - high, remaining - atLeast) ∧
      high = (decayWindowsAtLeast64 cfg.floorLog firstScore (1 - cfg.ewmaAlpha)
        cfg.promotionThreshold remaining).value ∧
      atLeast = (decayWindowsAtLeast64 cfg.floorLog firstScore (1 - cfg.ewmaAlpha)
        cfg.demotionThreshold remaining).value ∧
      0 ≤ high ∧ high ≤ remaining ∧ 0 ≤ atLeast ∧ atLeast ≤ remaining := by
  obtain ⟨h₁, h₂⟩ := decayWindowsAtLeast64_range cfg.floorLog firstScore (1 - cfg.ewmaAlpha)
    cfg.promotionThreshold h
  obtain ⟨h₃, h₄⟩ := decayWindowsAtLeast64_range cfg.floorLog firstScore (1 - cfg.ewmaAlpha)
    cfg.demotionThreshold h
  refine ⟨_, _, ?_, rfl, rfl, h₁, h₂, h₃, h₄⟩
  obtain ⟨hlow, hhigh⟩ := hfits
  have hmid : Fits 64 ((decayWindowsAtLeast64 cfg.floorLog firstScore (1 - cfg.ewmaAlpha)
      cfg.demotionThreshold remaining).value - (decayWindowsAtLeast64 cfg.floorLog firstScore
        (1 - cfg.ewmaAlpha) cfg.promotionThreshold remaining).value) := ⟨by omega, by omega⟩
  have hrest : Fits 64 (remaining - (decayWindowsAtLeast64 cfg.floorLog firstScore
      (1 - cfg.ewmaAlpha) cfg.demotionThreshold remaining).value) := ⟨by omega, by omega⟩
  exact congrArg₂ (fun x y => (_, x, y)) (hmid.wrap_eq (by decide)) (hrest.wrap_eq (by decide))

theorem decayWindowsAtLeast64_mono (floorLog : ℚ → ℚ → Int) (initial : ℚ) (hd : 0 ≤ decay)
    (hd₁ : decay < 1) (ht : 0 < threshold') (hlt : threshold' ≤ threshold) (h : 0 ≤ n) :
    (decayWindowsAtLeast64 floorLog initial decay threshold n).value ≤
      (decayWindowsAtLeast64 floorLog initial decay threshold' n).value := by
  obtain ⟨m, rfl⟩ := Int.eq_ofNat_of_zero_le h
  rw [decayWindowsAtLeast64_natCast, decayWindowsAtLeast64_natCast]
  exact_mod_cast (decayWindowsAtLeast_spec _ initial hd hd₁ (ht.trans_le hlt) m).mono
    (decayWindowsAtLeast_spec _ initial hd hd₁ ht m) hlt

/-- Decay counting. The function returns the number of windows whose score reaches the threshold,
whatever the conversion of the logarithm yields, and the segments that are made of two such counts
divide the later windows. -/
theorem decay_counting :
    (∀ (floorLog : ℚ → ℚ → Int) (initial decay threshold : ℚ) (maxWindows : Int),
      0 ≤ decay → decay < 1 → 0 < threshold →
      (decayWindowsAtLeast64 floorLog initial decay threshold maxWindows).value =
        ((Finset.Icc 1 maxWindows).filter
          fun j => initial * decay ^ j.toNat ≥ threshold).card) ∧
    ∀ (cfg : Config) (firstScore : ℚ) (remaining : Int), 0 < cfg.ewmaAlpha → cfg.ewmaAlpha ≤ 1 →
      cfg.promotionThreshold > cfg.demotionThreshold → cfg.demotionThreshold > 0 →
      0 ≤ remaining → Fits 64 remaining →
      ∃ high mid low, (segments cfg firstScore remaining).value = (high, mid, low) ∧
        0 ≤ high ∧ 0 ≤ mid ∧ 0 ≤ low ∧ high + mid + low = remaining := by
  constructor
  · intro floorLog initial decay threshold maxWindows hd hd₁ ht
    rcases le_or_gt 0 maxWindows with h | h
    · obtain ⟨n, rfl⟩ := Int.eq_ofNat_of_zero_le h
      rw [decayWindowsAtLeast64_natCast]
      exact_mod_cast (decayWindowsAtLeast_spec _ initial hd hd₁ ht n).card.symm
    · rw [decayWindowsAtLeast64_of_neg floorLog h.le, Finset.Icc_eq_empty (by omega)]
      rfl
  · intro cfg firstScore remaining hα hα₁ hlt hpos h hfits
    obtain ⟨high, atLeast, hvalue, hhigh, hatLeast, h₁, -, -, h₄⟩ :=
      segments_value cfg firstScore h hfits
    have hmono := decayWindowsAtLeast64_mono cfg.floorLog firstScore (sub_nonneg.2 hα₁)
      (sub_lt_self 1 hα) hpos hlt.le h
    rw [← hhigh, ← hatLeast] at hmono
    exact ⟨high, atLeast - high, remaining - atLeast, hvalue, h₁, by omega, by omega, by omega⟩

theorem decay_counting_sample :
    (decayWindowsAtLeast64 (fun _ _ => 7) 8 (1 / 2) 1 10).value = 3 ∧
    ∃ high mid low, (segments ⟨1, 1 / 2, 4, 1, 2, 0, 1, fun _ _ => 0⟩ 8 9).value =
      (high, mid, low) ∧ 0 ≤ high ∧ 0 ≤ mid ∧ 0 ≤ low ∧ high + mid + low = 9 :=
  ⟨(decay_counting.1 (fun _ _ => 7) 8 (1 / 2) 1 10 (by norm_num) (by norm_num)
      (by norm_num)).trans (by decide +kernel),
    decay_counting.2 ⟨1, 1 / 2, 4, 1, 2, 0, 1, fun _ _ => 0⟩ 8 9 (by norm_num) (by norm_num)
      (by norm_num) (by norm_num) (by norm_num) (by decide)⟩

end Slizen.Hotness
