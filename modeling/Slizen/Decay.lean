import Mathlib.Tactic.Positivity
import Mathlib.Algebra.Order.Ring.Pow
import Slizen.Tracker

namespace Slizen.Hotness
set_option autoImplicit true

/-- `h` counts the scores `initial * decay ^ j`, for `j` from `1` to `n`, that reach the
threshold; they come first. -/
structure DecayCount (initial decay threshold : ℚ) (n h : Nat) : Prop where
  le : h ≤ n
  high : ∀ j, 1 ≤ j → j ≤ h → threshold ≤ initial * decay ^ j
  low : ∀ j, h < j → j ≤ n → initial * decay ^ j < threshold

section

variable {initial decay threshold : ℚ}

theorem decay_antitone (hi : 0 ≤ initial) (hd : 0 ≤ decay) (hd₁ : decay ≤ 1) (h : i ≤ j) :
    initial * decay ^ j ≤ initial * decay ^ i :=
  mul_le_mul_of_nonneg_left (pow_le_pow_of_le_one hd hd₁ h) hi

theorem lowerEstimate_le (initial decay threshold : ℚ) (e : Nat) :
    lowerEstimate initial decay threshold e ≤ e := by
  induction e with
  | zero => exact le_rfl
  | succ e ih =>
    rw [lowerEstimate]
    split
    · exact ih.trans (Nat.le_succ e)
    · exact le_rfl

theorem lowerEstimate_reaches (e : Nat) (h : 0 < lowerEstimate initial decay threshold e) :
    threshold ≤ initial * decay ^ lowerEstimate initial decay threshold e := by
  induction e with
  | zero => exact absurd h (lt_irrefl 0)
  | succ e ih =>
    rw [lowerEstimate] at h ⊢
    split at h
    · rename_i hlt
      rw [if_pos hlt]
      exact ih h
    · rename_i hlt
      rw [if_neg hlt]
      exact not_lt.1 hlt

theorem raiseEstimate_spec (left e : Nat) (h : 0 < e → threshold ≤ initial * decay ^ e) :
    raiseEstimate initial decay threshold left e ≤ e + left ∧
    (0 < raiseEstimate initial decay threshold left e →
      threshold ≤ initial * decay ^ raiseEstimate initial decay threshold left e) ∧
    (raiseEstimate initial decay threshold left e < e + left →
      initial * decay ^ (raiseEstimate initial decay threshold left e + 1) < threshold) := by
  induction left generalizing e with
  | zero => exact ⟨le_rfl, h, fun hlt => absurd hlt (lt_irrefl _)⟩
  | succ left ih =>
    rw [raiseEstimate]
    split
    · rename_i hge
      have := ih (e + 1) fun _ => hge
      rwa [Nat.add_right_comm, Nat.add_assoc] at this
    · rename_i hge
      exact ⟨Nat.le_add_right e _, h, fun _ => not_le.1 hge⟩

theorem DecayCount.none (hi : initial ≤ 0 ∨ decay = 0 ∨ initial * decay < threshold)
    (hd : 0 ≤ decay) (hd₁ : decay ≤ 1) (ht : 0 < threshold) (n : Nat) :
    DecayCount initial decay threshold n 0 := by
  refine ⟨Nat.zero_le n, fun j h₁ h₀ => absurd h₁ (by omega), fun j h₀ _ => ?_⟩
  rcases hi with hi | hi | hi
  · exact (mul_nonpos_of_nonpos_of_nonneg hi (pow_nonneg hd j)).trans_lt ht
  · rw [hi, zero_pow (by omega), mul_zero]
    exact ht
  · rcases le_total initial 0 with hn | hn
    · exact (mul_nonpos_of_nonpos_of_nonneg hn (pow_nonneg hd j)).trans_lt ht
    · have := decay_antitone hn hd hd₁ (i := 1) (j := j) h₀
      rw [pow_one] at this
      exact this.trans_lt hi

theorem DecayCount.all (hi : 0 ≤ initial) (hd : 0 ≤ decay) (hd₁ : decay ≤ 1)
    (h : threshold ≤ initial * decay ^ n) : DecayCount initial decay threshold n n :=
  ⟨le_rfl, fun _ _ hj => h.trans (decay_antitone hi hd hd₁ hj),
    fun _ hlt hle => absurd hlt (not_lt.2 hle)⟩

theorem decayWindowsAtLeast_spec (floorLog : ℚ → ℚ → Int) (initial : ℚ) (hd : 0 ≤ decay)
    (hd₁ : decay < 1) (ht : 0 < threshold) (n : Nat) :
    DecayCount initial decay threshold n
      (decayWindowsAtLeast floorLog initial decay threshold n) := by
  rw [decayWindowsAtLeast]
  split
  · rename_i hc
    rcases hc with hc | hc | hc | hc | hc
    · subst hc
      exact ⟨le_rfl, fun j h₁ h₀ => absurd h₁ (by omega), fun j h₀ hn => absurd h₀ (by omega)⟩
    · exact .none (.inl hc) hd hd₁.le ht n
    · exact absurd ht (not_lt.2 hc)
    · exact .none (.inr (.inl (le_antisymm hc hd))) hd hd₁.le ht n
    · exact .none (.inr (.inr hc)) hd hd₁.le ht n
  · rename_i hc
    simp only [not_or, not_le] at hc
    obtain ⟨-, hi, -, -, -⟩ := hc
    split
    · rename_i hall
      rcases hall with hall | hall
      · exact absurd hall (not_le.2 hd₁)
      · exact .all hi.le hd hd₁.le hall
    · generalize hm : min (floorLog (threshold / initial) decay).toNat n = m
      have hle := (lowerEstimate_le initial decay threshold m).trans (hm ▸ min_le_right _ n)
      obtain ⟨hn, hr, hs⟩ := raiseEstimate_spec (n - lowerEstimate initial decay threshold m)
        (lowerEstimate initial decay threshold m) (lowerEstimate_reaches m)
      rw [Nat.add_sub_cancel' hle] at hn hs
      dsimp only
      refine ⟨hn, fun j h₁ hj => ?_, fun j hj hjn => ?_⟩
      · exact (hr (by omega)).trans (decay_antitone hi.le hd hd₁.le hj)
      · exact (decay_antitone hi.le hd hd₁.le (Nat.succ_le_of_lt hj)).trans_lt (hs (by omega))

end

theorem DecayCount.mono (h : DecayCount initial decay threshold n a)
    (h' : DecayCount initial decay threshold' n b) (hl : threshold' ≤ threshold) : a ≤ b := by
  by_contra hab
  have hlow := h'.low (b + 1) (Nat.lt_succ_self b) (by have := h.le; omega)
  have hhigh := h.high (b + 1) (by omega) (by omega)
  exact absurd (hl.trans hhigh) (not_le.2 hlow)

end Slizen.Hotness
