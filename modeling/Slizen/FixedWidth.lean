import Mathlib.Data.Int.Order.Lemmas
import Mathlib.Order.Interval.Finset.Defs

set_option autoImplicit true

/-- Signed integers of `w` bits, as the integers that they stand for. -/
def FixedWidth.Fits (w : Nat) (x : Int) : Prop := -2 ^ (w - 1) ≤ x ∧ x < 2 ^ (w - 1)

namespace FixedWidth

instance : Decidable (Fits w x) := inferInstanceAs (Decidable (_ ∧ _))

/-- What is left of an integer in `w` bits. -/
def wrap (w : Nat) (x : Int) : Int := x.bmod (2 ^ w)

/-- The nearest integer of `w` bits. -/
def saturate (w : Nat) (x : Int) : Int := max (-2 ^ (w - 1)) (min x (2 ^ (w - 1) - 1))

theorem two_pow_pred (hw : 0 < w) : (2 ^ w : Nat) = 2 * 2 ^ (w - 1) := by
  rw [← Nat.pow_succ', Nat.succ_eq_add_one, Nat.sub_add_cancel hw]

theorem Fits.wrap_eq (hw : 0 < w) (h : Fits w x) : wrap w x = x := by
  obtain ⟨hlow, hhigh⟩ := h
  have hpow : ((2 ^ w : Nat) : Int) = 2 * 2 ^ (w - 1) := by
    rw [two_pow_pred hw]
    push_cast
    rfl
  apply Int.bmod_eq_of_le_mul_two
  · rw [hpow]
    omega
  · rw [hpow]
    omega

theorem Fits.saturate_eq (h : Fits w x) : saturate w x = x := by
  obtain ⟨hlow, hhigh⟩ := h
  unfold saturate
  omega

theorem fits_wrap (hw : 0 < w) (x : Int) : Fits w (wrap w x) := by
  have hpos : 0 < 2 ^ w := Nat.two_pow_pos w
  have hlow := Int.le_bmod (x := x) hpos
  have hhigh := Int.bmod_lt (x := x) hpos
  have hpow : ((2 ^ w : Nat) : Int) = 2 * 2 ^ (w - 1) := by
    rw [two_pow_pred hw]
    push_cast
    rfl
  rw [hpow] at hlow hhigh
  constructor
  · unfold wrap
    omega
  · unfold wrap
    omega

theorem Fits.mono (h : Fits w x) (hw : w ≤ w') : Fits w' x := by
  have hpow : (2 : Int) ^ (w - 1) ≤ 2 ^ (w' - 1) :=
    pow_le_pow_right₀ (by decide) (Nat.sub_le_sub_right hw 1)
  obtain ⟨hlow, hhigh⟩ := h
  exact ⟨by omega, by omega⟩

theorem Fits.of_le (hy : Fits w y) (h₀ : 0 ≤ x) (h : x ≤ y) : Fits w x := by
  have hpos : (0 : Int) < 2 ^ (w - 1) := pow_pos (by decide) _
  obtain ⟨-, hhigh⟩ := hy
  exact ⟨by omega, by omega⟩

end FixedWidth

/-- A computation with the log that it leaves. -/
structure Traced (ε α : Type) where
  value : α
  log : List ε

namespace Traced

variable {ε α β : Type} {q : ε → Prop} {Q : α → Prop} {R : β → Prop}

instance : Monad (Traced ε) where
  pure x := ⟨x, []⟩
  bind p f := ⟨(f p.value).value, p.log ++ (f p.value).log⟩

def emit (e : ε) : Traced ε Unit := ⟨(), [e]⟩

def emitIf (c : Prop) [Decidable c] (e : ε) : Traced ε Unit := if c then emit e else pure ()

/-- The computation logs nothing but what satisfies `q`, and its value satisfies `Q`. -/
structure Yields (q : ε → Prop) (Q : α → Prop) (p : Traced ε α) : Prop where
  value : Q p.value
  log : ∀ e ∈ p.log, q e

theorem Yields.pure {x : α} (h : Q x) : Yields q Q (Pure.pure x : Traced ε α) :=
  ⟨h, fun _ he => by cases he⟩

theorem Yields.bind {p : Traced ε α} {f : α → Traced ε β} (hp : Yields q Q p)
    (hf : ∀ x, Q x → Yields q R (f x)) : Yields q R (p >>= f) := by
  have hr := hf p.value hp.value
  refine ⟨hr.value, fun e he => ?_⟩
  rcases List.mem_append.1 he with he | he
  · exact hp.log e he
  · exact hr.log e he

theorem Yields.emit (e : ε) (he : q e) : Yields q (fun _ => True) (emit e) :=
  ⟨trivial, fun _ he' => List.mem_singleton.1 he' ▸ he⟩

theorem Yields.ite {c : Prop} [Decidable c] {p p' : Traced ε α} (hp : c → Yields q Q p)
    (hp' : ¬ c → Yields q Q p') : Yields q Q (if c then p else p') := by
  split
  · rename_i hc
    exact hp hc
  · rename_i hc
    exact hp' hc

theorem Yields.emitIf {c : Prop} [Decidable c] (e : ε) (he : c → q e) :
    Yields q (fun _ => True) (emitIf c e) :=
  Yields.ite (fun hc => Yields.emit e (he hc)) fun _ => Yields.pure trivial

end Traced
