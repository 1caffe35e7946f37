import Mathlib.Tactic.Ring
import Mathlib.Tactic.Linarith
import Slizen.Decay

namespace Slizen.Hotness
set_option autoImplicit true

/-- What configuration validation guarantees about the hotness settings. -/
structure Config.Valid (cfg : Config) : Prop where
  window_pos : 0 < cfg.window
  alpha_pos : 0 < cfg.ewmaAlpha
  alpha_le : cfg.ewmaAlpha ≤ 1
  demotion_pos : 0 < cfg.demotionThreshold
  demotion_lt : cfg.demotionThreshold < cfg.promotionThreshold
  windows_pos : 0 < cfg.minimumHotWindows
  cooldown_pos : 0 < cfg.cooldown

namespace Entry

def stepWindow (cfg : Config) (ent : Entry) (rate : ℚ) (boundary : Time) :
    List Transition × Entry :=
  { ent with
    score := cfg.ewmaAlpha * rate + (1 - cfg.ewmaAlpha) * ent.score
    lastRate := rate }.applyStateLocked cfg boundary

/-- `n` windows complete one after the other, all but the first of them empty. -/
def stepWindows (cfg : Config) (ent : Entry) (rate : ℚ) : Nat → Time → List Transition × Entry
  | 0, _ => ([], ent)
  | n + 1, boundary =>
    let (first, ent) := ent.stepWindow cfg rate boundary
    let (later, ent) := ent.stepWindows cfg 0 n (boundary + cfg.window)
    (first ++ later, ent)

/-- An entry up to hot windows beyond the required number. -/
def cap (cfg : Config) (ent : Entry) : Entry :=
  { ent with hotWindows := min ent.hotWindows cfg.minimumHotWindows.toNat }

def SameOutcome (cfg : Config) (p q : List Transition × Entry) : Prop :=
  p.1 = q.1 ∧ p.2.cap cfg = q.2.cap cfg

theorem SameOutcome.refl (p : List Transition × Entry) : SameOutcome cfg p p := ⟨rfl, rfl⟩

theorem SameOutcome.symm (h : SameOutcome cfg p q) : SameOutcome cfg q p := ⟨h.1.symm, h.2.symm⟩

theorem SameOutcome.trans (h : SameOutcome cfg p q) (h' : SameOutcome cfg q r) :
    SameOutcome cfg p r := ⟨h.1.trans h'.1, h.2.trans h'.2⟩

theorem cap_eq_iff {e e' : Entry} : e.cap cfg = e'.cap cfg ↔
    { e with hotWindows := 0 } = { e' with hotWindows := 0 } ∧
      min e.hotWindows cfg.minimumHotWindows.toNat =
        min e'.hotWindows cfg.minimumHotWindows.toNat := by
  cases e
  cases e'
  simp only [cap, mk.injEq]
  tauto

theorem applyState_cap (hv : cfg.Valid) {e e' : Entry} (h : e.cap cfg = e'.cap cfg) (now : Time) :
    SameOutcome cfg (e.applyStateLocked cfg now) (e'.applyStateLocked cfg now) := by
  obtain ⟨he, hw⟩ := cap_eq_iff.1 h
  cases e with | mk key state score count lastRate lastSeen createdAt hw₁ coolingAt => ?_
  cases e' with | mk _ _ _ _ _ _ _ hw₂ _ => ?_
  simp only [mk.injEq] at he
  obtain ⟨rfl, rfl, rfl, rfl, rfl, rfl, rfl, -, rfl⟩ := he
  have hp := hv.windows_pos
  dsimp only at hw
  have hge : (hw₁ + 1 : Nat) ≥ cfg.minimumHotWindows ↔ (hw₂ + 1 : Nat) ≥ cfg.minimumHotWindows := by
    omega
  have hmin : min (hw₁ + 1) cfg.minimumHotWindows.toNat =
      min (hw₂ + 1) cfg.minimumHotWindows.toNat := by
    omega
  simp only [SameOutcome, applyStateLocked, applyState]
  split
  · simp only [applyHigh, hge]
    split
    · simp [cap, changedFrom, hmin]
    · split
      · simp [cap, changedFrom, hmin]
      · split <;> simp [cap, changedFrom, hmin]
  · split
    · exact ⟨rfl, rfl⟩
    · exact ⟨rfl, rfl⟩

theorem stepWindow_cap (hv : cfg.Valid) {e e' : Entry} (h : e.cap cfg = e'.cap cfg) (rate : ℚ)
    (boundary : Time) :
    SameOutcome cfg (e.stepWindow cfg rate boundary) (e'.stepWindow cfg rate boundary) := by
  apply applyState_cap hv
  obtain ⟨he, hw⟩ := cap_eq_iff.1 h
  refine cap_eq_iff.2 ⟨?_, hw⟩
  cases e
  cases e'
  simp only [mk.injEq] at he ⊢
  obtain ⟨rfl, rfl, rfl, rfl, rfl, rfl, rfl, -, rfl⟩ := he
  simp

theorem stepWindows_cap (hv : cfg.Valid) {e e' : Entry} (h : e.cap cfg = e'.cap cfg) (rate : ℚ)
    (n : Nat) (boundary : Time) :
    SameOutcome cfg (e.stepWindows cfg rate n boundary) (e'.stepWindows cfg rate n boundary) := by
  induction n generalizing e e' rate boundary with
  | zero => exact ⟨rfl, h⟩
  | succ n ih =>
    obtain ⟨ht, he⟩ := stepWindow_cap hv h rate boundary
    obtain ⟨ht', he'⟩ := ih he 0 (boundary + cfg.window)
    exact ⟨congrArg₂ (· ++ ·) ht ht', he'⟩

theorem stepWindows_add (ent : Entry) (rate : ℚ) (m n : Nat) (boundary : Time)
    (hm : 0 < m ∨ rate = 0) :
    ent.stepWindows cfg rate (m + n) boundary =
      ((ent.stepWindows cfg rate m boundary).1 ++
        ((ent.stepWindows cfg rate m boundary).2.stepWindows cfg 0 n
          (boundary + m * cfg.window)).1,
        ((ent.stepWindows cfg rate m boundary).2.stepWindows cfg 0 n
          (boundary + m * cfg.window)).2) := by
  induction m generalizing ent rate boundary with
  | zero =>
    obtain rfl : rate = 0 := hm.resolve_left (lt_irrefl 0)
    simp [stepWindows]
  | succ m ih =>
    rw [Nat.add_right_comm]
    simp only [stepWindows]
    have hb : boundary + cfg.window + m * cfg.window = boundary + (m + 1 : Nat) * cfg.window := by
      push_cast
      ring
    rw [ih _ 0 (boundary + cfg.window) (.inr rfl), hb, List.append_assoc]

def withScore (ent : Entry) (score : ℚ) : Entry := { ent with score := score }

theorem stepWindow_empty {ent : Entry} (h : ent.lastRate = 0) (boundary : Time) :
    ent.stepWindow cfg 0 boundary =
      (ent.withScore (ent.score * (1 - cfg.ewmaAlpha))).applyStateLocked cfg boundary := by
  rw [stepWindow, withScore, mul_zero, zero_add, mul_comm, ← h]

section Segments

variable {e : Entry}

@[simp] theorem withScore_score (score : ℚ) : (e.withScore score).score = score := rfl

theorem applyHigh_withScore (score : ℚ) :
    (e.withScore score).applyHigh cfg = (e.applyHigh cfg).withScore score := by
  cases e
  dsimp only [applyHigh, withScore]
  split_ifs <;> rfl

theorem applyMid_withScore (score : ℚ) :
    (e.withScore score).applyMid = e.applyMid.withScore score := by
  cases e
  dsimp only [applyMid, withScore]
  split_ifs <;> rfl

theorem applyHigh_lastRate : (e.applyHigh cfg).lastRate = e.lastRate := by
  simp only [applyHigh, apply_ite Entry.lastRate, ite_self]

theorem applyMid_lastRate : e.applyMid.lastRate = e.lastRate := by
  simp only [applyMid, apply_ite Entry.lastRate, ite_self]

theorem applyLow_lastRate : (e.applyLow cfg now).lastRate = e.lastRate := by
  simp only [applyLow, apply_ite Entry.lastRate, ite_self]

theorem applyLow_score : (e.applyLow cfg now).score = e.score := by
  simp only [applyLow, apply_ite Entry.score, ite_self]

theorem catchUpHigh_withScore (score : ℚ) (n : Nat) :
    (e.withScore score).catchUpHigh cfg n =
      ((e.catchUpHigh cfg n).1, (e.catchUpHigh cfg n).2.withScore score) := by
  cases e
  dsimp only [catchUpHigh, withScore]
  split_ifs <;> rfl

theorem catchUpMid_withScore (score : ℚ) (n : Nat) :
    (e.withScore score).catchUpMid n =
      ((e.catchUpMid n).1, (e.catchUpMid n).2.withScore score) := by
  cases e
  dsimp only [catchUpMid, applyMid, withScore]
  split_ifs <;> rfl

theorem catchUpLow_withScore (score : ℚ) (n : Nat) (final : ℚ) (start finish : Time) :
    (e.withScore score).catchUpLow cfg n final start finish =
      ((e.catchUpLow cfg n final start finish).1,
        (e.catchUpLow cfg n final start finish).2.withScore score) := by
  cases e
  dsimp only [catchUpLow, withScore]
  split_ifs <;> rfl

theorem applyHigh_not_cold : (e.applyHigh cfg).state ≠ .cold := by
  simp only [applyHigh]
  split_ifs <;> first | exact State.noConfusion | assumption

theorem catchUpHigh_succ (hv : cfg.Valid) (hc : e.state ≠ .cold) (n : Nat) :
    SameOutcome cfg
      ((e.applyHigh cfg).changedFrom e.state ++ ((e.applyHigh cfg).catchUpHigh cfg n).1,
        ((e.applyHigh cfg).catchUpHigh cfg n).2)
      (e.catchUpHigh cfg (n + 1)) := by
  have hp := hv.windows_pos
  obtain ⟨key, state, score, count, lastRate, lastSeen, createdAt, hotWindows, coolingAt⟩ := e
  simp only [SameOutcome, applyHigh, catchUpHigh, changedFrom, cap]
  cases state with
  | cold => exact absurd rfl hc
  | warm =>
    simp
    grind
  | hot =>
    simp
    grind
  | cooling =>
    simp
    grind

theorem catchUpMid_succ (n : Nat) :
      (e.applyMid.changedFrom e.state ++ (e.applyMid.catchUpMid n).1,
        (e.applyMid.catchUpMid n).2) =
      e.catchUpMid (n + 1) := by
  obtain ⟨key, state, score, count, lastRate, lastSeen, createdAt, hotWindows, coolingAt⟩ := e
  cases state <;> cases n <;> rfl

theorem catchUpLow_succ (hv : cfg.Valid) (n : Nat) (boundary : Time) (finalScore : ℚ)
    (hs : e.score = 0 ↔ finalScore = 0) :
      ((e.applyLow cfg boundary).changedFrom e.state ++
        ((e.applyLow cfg boundary).catchUpLow cfg n finalScore (boundary + cfg.window)
          (boundary + n * cfg.window)).1,
        ((e.applyLow cfg boundary).catchUpLow cfg n finalScore (boundary + cfg.window)
          (boundary + n * cfg.window)).2) =
      e.catchUpLow cfg (n + 1) finalScore boundary (boundary + n * cfg.window) := by
  have hc := hv.cooldown_pos
  have hw : 0 ≤ (n : Int) * cfg.window := mul_nonneg (Int.natCast_nonneg n) hv.window_pos.le
  have hn : n = 0 → (n : Int) * cfg.window = 0 := by rintro rfl; simp
  obtain ⟨key, state, score, count, lastRate, lastSeen, createdAt, hotWindows, coolingAt⟩ := e
  dsimp only at hs
  cases state with
  | cold => simp [applyLow, catchUpLow, changedFrom]
  | warm =>
    by_cases hf : finalScore = 0
    · simp [applyLow, catchUpLow, changedFrom, hf, hs.2 hf]
    · simp [applyLow, catchUpLow, changedFrom, hf, mt hs.1 hf]
  | hot =>
    by_cases hf : cfg.cooldown ≤ n * cfg.window
    · have : n ≠ 0 := fun h0 => by linarith [hn h0]
      simp [applyLow, catchUpLow, changedFrom, hf, Nat.pos_of_ne_zero this]
    · simp [applyLow, catchUpLow, changedFrom, hf]
  | cooling =>
    by_cases h0 : cfg.cooldown ≤ boundary - coolingAt
    · have h1 : cfg.cooldown ≤ boundary + n * cfg.window - coolingAt := by linarith
      simp [applyLow, catchUpLow, changedFrom, h0, h1]
    · by_cases h1 : cfg.cooldown ≤ boundary + n * cfg.window - coolingAt
      · have : n ≠ 0 := fun h0 => by linarith [hn h0]
        simp [applyLow, catchUpLow, changedFrom, h0, h1, Nat.pos_of_ne_zero this]
      · simp [applyLow, catchUpLow, changedFrom, h0, h1]

theorem stepWindows_high (hv : cfg.Valid) (hc : 0 < n → e.state ≠ .cold) (hr : e.lastRate = 0)
    (h : ∀ j, 1 ≤ j → j ≤ n →
      cfg.promotionThreshold ≤ e.score * (1 - cfg.ewmaAlpha) ^ j) (boundary : Time) :
    SameOutcome cfg (e.stepWindows cfg 0 n boundary)
      ((e.catchUpHigh cfg n).1,
        (e.catchUpHigh cfg n).2.withScore (e.score * (1 - cfg.ewmaAlpha) ^ n)) := by
  induction n generalizing e boundary with
  | zero =>
    rw [pow_zero, mul_one]
    exact .refl _
  | succ n ih =>
    have hs : cfg.promotionThreshold ≤ e.score * (1 - cfg.ewmaAlpha) := by
      simpa using h 1 le_rfl (by omega)
    have hstep : e.stepWindow cfg 0 boundary =
        ((e.applyHigh cfg).changedFrom e.state,
          (e.applyHigh cfg).withScore (e.score * (1 - cfg.ewmaAlpha))) := by
      rw [stepWindow_empty hr, applyStateLocked, applyState, withScore_score, if_pos hs,
        applyHigh_withScore]
      rfl
    have hlater := ih (e := (e.applyHigh cfg).withScore (e.score * (1 - cfg.ewmaAlpha)))
      (fun _ => applyHigh_not_cold) (applyHigh_lastRate.trans hr)
      (fun j h₁ hj => by
        have := h (j + 1) (by omega) (by omega)
        rwa [pow_succ', ← mul_assoc] at this)
      (boundary + cfg.window)
    rw [catchUpHigh_withScore, withScore_score, mul_assoc, ← pow_succ'] at hlater
    have hsucc := catchUpHigh_succ hv (hc (Nat.succ_pos n)) n
    simp only [stepWindows, hstep]
    exact ⟨(congrArg (_ ++ ·) hlater.1).trans hsucc.1,
      hlater.2.trans (congrArg (withScore · _) hsucc.2)⟩

theorem stepWindows_mid (hr : e.lastRate = 0)
    (h : ∀ j, 1 ≤ j → j ≤ n → cfg.demotionThreshold ≤ e.score * (1 - cfg.ewmaAlpha) ^ j ∧
      e.score * (1 - cfg.ewmaAlpha) ^ j < cfg.promotionThreshold) (boundary : Time) :
    e.stepWindows cfg 0 n boundary =
      ((e.catchUpMid n).1,
        (e.catchUpMid n).2.withScore (e.score * (1 - cfg.ewmaAlpha) ^ n)) := by
  induction n generalizing e boundary with
  | zero =>
    rw [pow_zero, mul_one]
    rfl
  | succ n ih =>
    obtain ⟨hd, hp⟩ := h 1 le_rfl (by omega)
    rw [pow_one] at hd hp
    have hstep : e.stepWindow cfg 0 boundary =
        (e.applyMid.changedFrom e.state,
          e.applyMid.withScore (e.score * (1 - cfg.ewmaAlpha))) := by
      rw [stepWindow_empty hr, applyStateLocked, applyState, withScore_score,
        if_neg (not_le.2 hp), if_pos hd, applyMid_withScore]
      rfl
    have hlater := ih (e := e.applyMid.withScore (e.score * (1 - cfg.ewmaAlpha)))
      (applyMid_lastRate.trans hr)
      (fun j h₁ hj => by
        have := h (j + 1) (by omega) (by omega)
        rwa [pow_succ', ← mul_assoc] at this)
      (boundary + cfg.window)
    rw [catchUpMid_withScore, withScore_score, mul_assoc, ← pow_succ'] at hlater
    simp only [stepWindows, hstep, hlater, ← catchUpMid_succ]
    rfl

theorem stepWindows_low (hv : cfg.Valid) (hr : e.lastRate = 0)
    (h : ∀ j, 1 ≤ j → j ≤ n → e.score * (1 - cfg.ewmaAlpha) ^ j < cfg.demotionThreshold)
    (boundary finish : Time) (hf : ∀ m : Nat, n = m + 1 → finish = boundary + m * cfg.window) :
    e.stepWindows cfg 0 n boundary =
      ((e.catchUpLow cfg n (e.score * (1 - cfg.ewmaAlpha) ^ n) boundary finish).1,
        (e.catchUpLow cfg n (e.score * (1 - cfg.ewmaAlpha) ^ n) boundary finish).2.withScore
          (e.score * (1 - cfg.ewmaAlpha) ^ n)) := by
  induction n generalizing e boundary with
  | zero =>
    rw [pow_zero, mul_one]
    rfl
  | succ n ih =>
    have hd : e.score * (1 - cfg.ewmaAlpha) < cfg.demotionThreshold := by
      simpa using h 1 le_rfl (by omega)
    have hp := hd.trans hv.demotion_lt
    have hstep : e.stepWindow cfg 0 boundary =
        (((e.withScore (e.score * (1 - cfg.ewmaAlpha))).applyLow cfg boundary).changedFrom
          e.state, (e.withScore (e.score * (1 - cfg.ewmaAlpha))).applyLow cfg boundary) := by
      rw [stepWindow_empty hr, applyStateLocked, applyState, withScore_score,
        if_neg (not_le.2 hp), if_neg (not_le.2 hd)]
      rfl
    obtain rfl := hf n rfl
    have hlater := ih
      (e := (e.withScore (e.score * (1 - cfg.ewmaAlpha))).applyLow cfg boundary)
      (applyLow_lastRate.trans hr)
      (fun j h₁ hj => by
        have := h (j + 1) (by omega) (by omega)
        rw [applyLow_score]
        rwa [pow_succ', ← mul_assoc] at this)
      (boundary + cfg.window) (fun m hm => by
        rw [hm]
        push_cast
        ring)
    rw [applyLow_score, withScore_score, mul_assoc, ← pow_succ'] at hlater
    have hz : (e.withScore (e.score * (1 - cfg.ewmaAlpha))).score = 0 ↔
        e.score * (1 - cfg.ewmaAlpha) ^ (n + 1) = 0 := by
      simp
    simp only [stepWindows, hstep, hlater]
    have hsucc := catchUpLow_succ (e := e.withScore (e.score * (1 - cfg.ewmaAlpha))) hv n
      boundary _ hz
    rw [catchUpLow_withScore] at hsucc
    obtain ⟨h₁, h₂⟩ := Prod.mk.inj hsucc
    exact Prod.ext h₁ (congrArg (fun x => withScore x _) h₂ : withScore _ _ = withScore _ _)

end Segments

theorem applyState_not_cold {e : Entry} (h : cfg.promotionThreshold ≤ e.score) :
    (e.applyState cfg now).state ≠ .cold := by
  rw [applyState, if_pos h]
  exact applyHigh_not_cold

theorem applyState_score (e : Entry) (now : Time) : (e.applyState cfg now).score = e.score := by
  simp only [applyState, applyHigh, applyMid, applyLow, apply_ite Entry.score, ite_self]

theorem catchUpHigh_lastRate (e : Entry) (n : Nat) :
    (e.catchUpHigh cfg n).2.lastRate = e.lastRate := by
  cases e
  dsimp only [catchUpHigh]
  split_ifs <;> rfl

theorem catchUpMid_lastRate (e : Entry) (n : Nat) :
    (e.catchUpMid n).2.lastRate = e.lastRate := by
  rw [catchUpMid]
  split_ifs
  · exact applyMid_lastRate
  · rfl

section

variable {cfg : Config} {e : Entry} (hv : cfg.Valid) (hr : e.lastRate = 0)

include hv hr

theorem stepWindows_mid_low (m l : Nat)
    (hm : ∀ j, 1 ≤ j → j ≤ m → cfg.demotionThreshold ≤ e.score * (1 - cfg.ewmaAlpha) ^ j ∧
      e.score * (1 - cfg.ewmaAlpha) ^ j < cfg.promotionThreshold)
    (hl : ∀ j, m < j → j ≤ m + l →
      e.score * (1 - cfg.ewmaAlpha) ^ j < cfg.demotionThreshold)
    (boundary finish : Time)
    (hf : ∀ i : Nat, l = i + 1 → finish = boundary + (m + i : Nat) * cfg.window) :
    e.stepWindows cfg 0 (m + l) boundary =
      ((e.catchUpMid m).1 ++ ((e.catchUpMid m).2.catchUpLow cfg l
          (e.score * (1 - cfg.ewmaAlpha) ^ (m + l)) (boundary + m * cfg.window) finish).1,
        ((e.catchUpMid m).2.catchUpLow cfg l
          (e.score * (1 - cfg.ewmaAlpha) ^ (m + l)) (boundary + m * cfg.window) finish).2.withScore
            (e.score * (1 - cfg.ewmaAlpha) ^ (m + l))) := by
  have hlow := stepWindows_low
    (e := (e.catchUpMid m).2.withScore (e.score * (1 - cfg.ewmaAlpha) ^ m)) (n := l)
    hv ((catchUpMid_lastRate e m).trans hr)
    (fun j h₁ hj => by
      have := hl (m + j) (by omega) (by omega)
      rwa [pow_add, ← mul_assoc] at this)
    (boundary + m * cfg.window) finish
    (fun i hi => by
      rw [hf i hi]
      push_cast
      ring)
  rw [withScore_score, mul_assoc, ← pow_add, catchUpLow_withScore] at hlow
  rw [stepWindows_add e 0 m l boundary (.inr rfl), stepWindows_mid hr hm boundary, hlow]
  rfl

theorem stepWindows_catchUp (h m l : Nat) (hc : 0 < h → e.state ≠ .cold)
    (hh : ∀ j, 1 ≤ j → j ≤ h → cfg.promotionThreshold ≤ e.score * (1 - cfg.ewmaAlpha) ^ j)
    (hm : ∀ j, h < j → j ≤ h + m → cfg.demotionThreshold ≤ e.score * (1 - cfg.ewmaAlpha) ^ j ∧
      e.score * (1 - cfg.ewmaAlpha) ^ j < cfg.promotionThreshold)
    (hl : ∀ j, h + m < j → j ≤ h + m + l →
      e.score * (1 - cfg.ewmaAlpha) ^ j < cfg.demotionThreshold) (boundary : Time) :
    SameOutcome cfg (e.stepWindows cfg 0 (h + m + l) (boundary + cfg.window))
      (e.catchUp cfg h (h + m) (h + m + l) (e.score * (1 - cfg.ewmaAlpha) ^ (h + m + l))
        boundary) := by
  obtain ⟨ht, he⟩ := stepWindows_high hv hc hr hh (boundary + cfg.window)
  have hrest := stepWindows_mid_low
    (e := (e.catchUpHigh cfg h).2.withScore (e.score * (1 - cfg.ewmaAlpha) ^ h))
    hv ((catchUpHigh_lastRate e h).trans hr) m l
    (fun j h₁ hj => by
      have := hm (h + j) (by omega) (by omega)
      rwa [pow_add, ← mul_assoc] at this)
    (fun j h₁ hj => by
      have := hl (h + j) (by omega) (by omega)
      rwa [pow_add, ← mul_assoc] at this)
    (boundary + cfg.window + h * cfg.window) (boundary + (h + m + l : Nat) * cfg.window)
    (fun i hi => by
      rw [hi]
      push_cast
      ring)
  obtain ⟨ht', he'⟩ := stepWindows_cap hv he 0 (m + l) (boundary + cfg.window + h * cfg.window)
  have hstart : boundary + cfg.window + h * cfg.window + m * cfg.window =
      boundary + (h + m + 1 : Nat) * cfg.window := by
    push_cast
    ring
  rw [catchUpMid_withScore, catchUpLow_withScore, withScore_score, mul_assoc, ← pow_add, hstart,
    ← Nat.add_assoc] at hrest
  rw [hrest] at ht' he'
  have hsplit : e.stepWindows cfg 0 (h + (m + l)) (boundary + cfg.window) = _ :=
    stepWindows_add e 0 h (m + l) _ (.inr rfl)
  rw [← Nat.add_assoc] at hsplit
  rw [hsplit]
  simp only [catchUp, Nat.add_sub_cancel_left]
  exact ⟨(congrArg₂ (· ++ ·) ht ht').trans (List.append_assoc _ _ _).symm, he'⟩

end

theorem stepWindow_score (e : Entry) (rate : ℚ) (boundary : Time) :
    (e.stepWindow cfg rate boundary).2.score =
      cfg.ewmaAlpha * rate + (1 - cfg.ewmaAlpha) * e.score :=
  applyState_score _ boundary

theorem stepWindow_not_cold (e : Entry) (rate : ℚ) (boundary : Time)
    (h : cfg.promotionThreshold ≤ (e.stepWindow cfg rate boundary).2.score) :
    (e.stepWindow cfg rate boundary).2.state ≠ .cold := by
  rw [stepWindow_score] at h
  exact applyState_not_cold h

theorem advanceEntryLocked_succ (e : Entry) (rate : ℚ) (hr : 0 < r) (boundary : Time)
    (he : (e.stepWindow cfg rate boundary).2 = e₁) (hs : e₁.score = s)
    (hh : decayWindowsAtLeast cfg.floorLog s (1 - cfg.ewmaAlpha) cfg.promotionThreshold r = h)
    (hd : decayWindowsAtLeast cfg.floorLog s (1 - cfg.ewmaAlpha) cfg.demotionThreshold r = d) :
    e.advanceEntryLocked cfg rate (r + 1) boundary =
      ((e.stepWindow cfg rate boundary).1 ++ ({ e₁ with lastRate := 0 }.catchUp cfg h d r
          (s * (1 - cfg.ewmaAlpha) ^ r) boundary).1,
        ({ e₁ with lastRate := 0 }.catchUp cfg h d r
          (s * (1 - cfg.ewmaAlpha) ^ r) boundary).2) := by
  subst he
  rw [stepWindow_score] at hs
  subst hs hh hd
  have hr₁ : ¬ (r + 1 = 1) := by omega
  simp only [advanceEntryLocked, if_neg hr₁]
  rfl

theorem advanceEntryLocked_stepWindows (hv : cfg.Valid) (e : Entry) (rate : ℚ) (n : Nat)
    (hn : 0 < n) (boundary : Time) :
    SameOutcome cfg (e.advanceEntryLocked cfg rate n boundary)
      (e.stepWindows cfg rate n boundary) := by
  obtain ⟨r, rfl⟩ : ∃ r, n = r + 1 := ⟨n - 1, by omega⟩
  rcases Nat.eq_zero_or_pos r with rfl | hr
  · exact ⟨(List.append_nil _).symm, rfl⟩
  · obtain ⟨e₁, he⟩ : ∃ e₁, (e.stepWindow cfg rate boundary).2 = e₁ := ⟨_, rfl⟩
    have hβ : 0 ≤ 1 - cfg.ewmaAlpha := sub_nonneg.2 hv.alpha_le
    have hβ₁ : 1 - cfg.ewmaAlpha < 1 := sub_lt_self 1 hv.alpha_pos
    have hp := hv.demotion_pos.trans hv.demotion_lt
    have hh := decayWindowsAtLeast_spec cfg.floorLog e₁.score hβ hβ₁ hp r
    have hd := decayWindowsAtLeast_spec cfg.floorLog e₁.score hβ hβ₁ hv.demotion_pos r
    have hle := hh.mono hd hv.demotion_lt.le
    rw [advanceEntryLocked_succ e rate hr boundary he rfl rfl rfl]
    generalize decayWindowsAtLeast cfg.floorLog e₁.score (1 - cfg.ewmaAlpha)
      cfg.promotionThreshold r = h at hh hle ⊢
    generalize decayWindowsAtLeast cfg.floorLog e₁.score (1 - cfg.ewmaAlpha)
      cfg.demotionThreshold r = d at hd hle ⊢
    have hcold : 0 < h → e₁.state ≠ .cold := by
      intro h₀
      have h₁ := hh.high 1 le_rfl h₀
      rw [pow_one] at h₁
      have hpos : 0 < e₁.score := by
        by_contra hneg
        exact absurd (hp.trans_le h₁)
          (not_lt.2 (mul_nonpos_of_nonpos_of_nonneg (not_lt.1 hneg) hβ))
      have hs := h₁.trans (mul_le_of_le_one_right hpos.le hβ₁.le)
      rw [← he] at hs ⊢
      exact stepWindow_not_cold e rate boundary hs
    have hmid : h + (d - h) = d := by omega
    have hsum : d + (r - d) = r := Nat.add_sub_cancel' hd.le
    have hsegments := stepWindows_catchUp (e := { e₁ with lastRate := 0 }) hv rfl h (d - h) (r - d)
      hcold hh.high (fun j h₁ hj => ⟨hd.high j (by omega) (by omega), hh.low j h₁ (by omega)⟩)
      (fun j h₁ hj => hd.low j (by omega) (by omega)) boundary
    rw [hmid, hsum] at hsegments
    obtain ⟨ht, hc⟩ := hsegments
    have hstep : { e₁ with lastRate := 0 }.stepWindows cfg 0 r (boundary + cfg.window) =
        e₁.stepWindows cfg 0 r (boundary + cfg.window) := by
      obtain ⟨m, rfl⟩ : ∃ m, r = m + 1 := ⟨r - 1, by omega⟩
      rfl
    rw [hstep] at ht hc
    subst he
    exact ⟨congrArg (_ ++ ·) ht.symm, hc.symm⟩

end Entry
end Slizen.Hotness
