import Slizen.Interleaving.Machine

namespace Interleaving.Machine
set_option autoImplicit true

variable {M : Machine} {t : Nat}

/-- A thread that runs alone goes through the whole program. -/
inductive Runs (M : Machine) (t : Nat) : Prog M.Action M.Resp α → M.State → α → M.State → Prop
  | ret {x : α} {s : M.State} : Runs M t (.ret x) s x s
  | act {a : M.Action} {k : M.Resp a → Prog M.Action M.Resp α} {c : M.Choice} {b : M.Resp a}
      {s s₁ s' : M.State} {x : α} :
      M.exec t a c s = some (b, s₁) → Runs M t (k b) s₁ x s' → Runs M t (.act a k) s x s'

/-- Total correctness of a program that a thread runs alone: it is never stuck, and however its
choices are made, it ends in `Q`. -/
def Ensures (M : Machine) (t : Nat) (p : Prog M.Action M.Resp α) (Q : α → M.State → Prop)
    (s : M.State) : Prop :=
  match p with
  | .ret x => Q x s
  | .act a k => (∃ c b s₁, M.exec t a c s = some (b, s₁)) ∧
      ∀ c b s₁, M.exec t a c s = some (b, s₁) → Ensures M t (k b) Q s₁

variable {p : Prog M.Action M.Resp α} {Q : α → M.State → Prop} {s : M.State}

theorem Ensures.mono {Q' : α → M.State → Prop} (h : M.Ensures t p Q s)
    (hQ : ∀ x s', Q x s' → Q' x s') : M.Ensures t p Q' s := by
  induction p generalizing s with
  | ret x => exact hQ x s h
  | act a k ih =>
    refine ⟨h.1, ?_⟩
    intro c b s₁ he
    exact ih b (h.2 c b s₁ he)

theorem Ensures.seq {f : α → Prog M.Action M.Resp β} {R : β → M.State → Prop}
    (h : M.Ensures t p Q s) (hf : ∀ x s', Q x s' → M.Ensures t (f x) R s') :
    M.Ensures t (p >>= f) R s := by
  induction p generalizing s with
  | ret x => exact hf x s h
  | act a k ih =>
    refine ⟨h.1, ?_⟩
    intro c b s₁ he
    exact ih b (h.2 c b s₁ he)

theorem Ensures.perform {a : M.Action} {b : M.Resp a} {s₁ : M.State}
    {Q : M.Resp a → M.State → Prop} (c₀ : M.Choice)
    (he : ∀ c, M.exec t a c s = some (b, s₁)) (hQ : Q b s₁) :
    M.Ensures t (Prog.perform a) Q s := by
  refine ⟨⟨c₀, b, s₁, he c₀⟩, ?_⟩
  intro c b' s₁' he'
  cases (he c).symm.trans he'
  exact hQ

theorem Ensures.runs (h : M.Ensures t p Q s) :
    (∃ x s', M.Runs t p s x s') ∧ ∀ x s', M.Runs t p s x s' → Q x s' := by
  induction p generalizing s with
  | ret x =>
    refine ⟨⟨x, s, .ret⟩, ?_⟩
    intro x' s' hr
    cases hr
    exact h
  | act a k ih =>
    obtain ⟨⟨c, b, s₁, he⟩, hall⟩ := h
    constructor
    · obtain ⟨x, s', hr⟩ := (ih b (hall c b s₁ he)).1
      exact ⟨x, s', .act he hr⟩
    · intro x s' hr
      cases hr with
      | act he hr => exact (ih _ (hall _ _ _ he)).2 x s' hr

end Interleaving.Machine
