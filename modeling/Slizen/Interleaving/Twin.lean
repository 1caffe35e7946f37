import Mathlib.Data.List.Forall2
import Mathlib.Data.Option.Defs
import Slizen.Interleaving.Trail

namespace Interleaving
set_option autoImplicit true

theorem forall₂_getElem? {r : α → β → Prop} (h : List.Forall₂ r l l') (i : Nat) :
    Option.Rel r l[i]? l'[i]? := by
  induction h generalizing i with
  | nil => exact .none
  | cons hx _ ih =>
    cases i with
    | zero => exact .some hx
    | succ i => exact ih i

theorem forall₂_set {r : α → β → Prop} (h : List.Forall₂ r l l') (hx : r x y) (i : Nat) :
    List.Forall₂ r (l.set i x) (l'.set i y) := by
  induction h generalizing i with
  | nil => exact .nil
  | cons hy hrest ih =>
    cases i with
    | zero => exact .cons hx hrest
    | succ i => exact .cons hy (ih i)

theorem forall₂_modify {r : α → β → Prop} (h : List.Forall₂ r l l')
    (hf : ∀ x y, r x y → r (f x) (f' y)) (i : Nat) :
    List.Forall₂ r (l.modify i f) (l'.modify i f') := by
  induction h generalizing i with
  | nil => simp
  | cons hx hrest ih =>
    cases i with
    | zero => exact .cons (hf _ _ hx) hrest
    | succ i => exact .cons hx (ih i)

theorem rel_map {r : β → γ → Prop} {f : α → β} {f' : α → γ} (h : ∀ x, r (f x) (f' x))
    (x : Option α) : Option.Rel r (x.map f) (x.map f') := by
  cases x with
  | none => exact .none
  | some x => exact .some (h x)

namespace Prog

variable {A : Type} {R : A → Type} {α β γ δ : Type}

/-- Two programs perform matching actions as long as they get matching answers, and return
matching results. `μ a a' ρ` says that two actions match, and that `ρ` says which of their answers
do. -/
inductive Twin (μ : (a a' : A) → (R a → R a' → Prop) → Prop) (Q : α → β → Prop) :
    Prog A R α → Prog A R β → Prop
  | ret {x : α} {y : β} (h : Q x y) : Twin μ Q (.ret x) (.ret y)
  | act {a a' : A} {ρ : R a → R a' → Prop} {k : R a → Prog A R α} {k' : R a' → Prog A R β}
      (h : μ a a' ρ) (hk : ∀ b b', ρ b b' → Twin μ Q (k b) (k' b')) :
      Twin μ Q (.act a k) (.act a' k')

namespace Twin

variable {μ : (a a' : A) → (R a → R a' → Prop) → Prop} {Q : α → β → Prop} {Q' : γ → δ → Prop}

theorem bind {p : Prog A R α} {p' : Prog A R β} {f : α → Prog A R γ} {f' : β → Prog A R δ}
    (h : Twin μ Q p p') (hf : ∀ x y, Q x y → Twin μ Q' (f x) (f' y)) :
    Twin μ Q' (p >>= f) (p' >>= f') := by
  induction h with
  | ret hx => exact hf _ _ hx
  | act ha _ ih => exact .act ha ih

theorem refl {p : Prog A R α} (h : p.Uses fun a => μ a a Eq) : Twin μ Eq p p := by
  induction p with
  | ret x => exact .ret rfl
  | act a k ih =>
    apply Twin.act h.1
    rintro b _ rfl
    exact ih b (h.2 b)

theorem seq {p p' : Prog A R α} {f : α → Prog A R γ} {f' : α → Prog A R δ}
    (h : Twin μ Eq p p') (hf : ∀ x, Twin μ Q' (f x) (f' x)) : Twin μ Q' (p >>= f) (p' >>= f') := by
  apply h.bind
  rintro x _ rfl
  exact hf x

theorem ite {c : Prop} [Decidable c] {p q : Prog A R α} {p' q' : Prog A R β}
    (hp : Twin μ Q p p') (hq : Twin μ Q q q') :
    Twin μ Q (if c then p else q) (if c then p' else q') := by
  split
  · exact hp
  · exact hq

end Twin
end Prog

namespace Machine

variable {M : Machine}

/-- Which actions, states, choices and environment moves of two runs match, so that matching
configurations stay so. The choices match relative to the two actions that they resolve. -/
structure Coupling (M : Machine) where
  acts : (a a' : M.Action) → (M.Resp a → M.Resp a' → Prop) → Prop
  states : M.State → M.State → Prop
  choices : M.Action → M.Action → M.Choice → M.Choice → Prop
  envs : M.Env → M.Env → Prop
  exec : ∀ {t a a' ρ c c' s s'}, acts a a' ρ → choices a a' c c' → states s s' →
    Option.Rel (fun x x' => ρ x.1 x'.1 ∧ states x.2 x'.2) (M.exec t a c s) (M.exec t a' c' s')
  fork : ∀ {a a' ρ b b'}, acts a a' ρ → ρ b b' →
    Option.Rel (Prog.Twin acts Eq) (M.fork a b) (M.fork a' b')
  env : ∀ {e e' s s'}, envs e e' → states s s' → Option.Rel states (M.env e s) (M.env e' s')

namespace Coupling

variable (K : Coupling M)

structure Configs (g g' : M.Config) : Prop where
  state : K.states g.state g'.state
  pool : List.Forall₂ (Prog.Twin K.acts Eq) g.pool g'.pool

/-- The two runs resolve the nondeterminism of matching actions in matching ways. -/
def Picks (pick pick' : M.State → M.Action → M.Choice) : Prop :=
  ∀ {s s' a a' ρ}, K.states s s' → K.acts a a' ρ → K.choices a a' (pick s a) (pick' s' a')

inductive Turns : Turn M → Turn M → Prop
  | run (t n : Nat) : Turns (.run t n) (.run t n)
  | spawn {p p' : M.Program} (h : Prog.Twin K.acts Eq p p') : Turns (.spawn p) (.spawn p')
  | env {e e' : M.Env} (h : K.envs e e') : Turns (.env e) (.env e')

variable {K} {g g' : M.Config}

theorem Configs.next (h : K.Configs g g') (hp : g.pool[t]? = some (.act a k))
    (hp' : g'.pool[t]? = some (.act a' k')) (hc : K.choices a a' c c')
    (htwin : Prog.Twin K.acts Eq (.act a k) (.act a' k')) :
    Option.Rel K.Configs (g.next (.run t c)) (g'.next (.run t c')) := by
  cases htwin with
  | act ha hk =>
    have hexec := K.exec (t := t) ha hc h.state
    simp only [Config.next, hp, hp']
    generalize M.exec t a c g.state = x, M.exec t a' c' g'.state = x' at hexec ⊢
    cases hexec with
    | none => exact .none
    | some hb =>
      obtain ⟨hb, hs⟩ := hb
      apply Option.Rel.some
      refine ⟨hs, List.rel_append (forall₂_set h.pool (hk _ _ hb) t) ?_⟩
      have hfork := K.fork ha hb
      generalize M.fork a _ = f, M.fork a' _ = f' at hfork ⊢
      cases hfork with
      | none => exact .nil
      | some hf => exact .cons hf .nil

theorem Configs.drive {pick pick' : M.State → M.Action → M.Choice} (hpick : K.Picks pick pick')
    (h : K.Configs g g') (t n : Nat) : K.Configs (g.drive pick t n) (g'.drive pick' t n) := by
  induction n generalizing g g' with
  | zero => exact h
  | succ n ih =>
    have hpool := forall₂_getElem? h.pool t
    rw [Config.drive, Config.drive]
    generalize hp : g.pool[t]? = x, hp' : g'.pool[t]? = x' at hpool ⊢
    cases hpool with
    | none => exact h
    | some htwin =>
      cases htwin with
      | ret _ => exact h
      | @act a a' _ k k' ha hk =>
        have hnext := h.next hp hp' (hpick h.state ha) (.act ha hk)
        dsimp only
        generalize g.next _ = y, g'.next _ = y' at hnext ⊢
        cases hnext with
        | none => exact h
        | some hg => exact ih hg

theorem Configs.turn {pick pick' : M.State → M.Action → M.Choice} (hpick : K.Picks pick pick')
    (h : K.Configs g g') (hx : K.Turns x x') :
    K.Configs (g.turn pick x).1 (g'.turn pick' x').1 := by
  cases hx with
  | run t n => exact h.drive hpick t n
  | spawn hp => exact ⟨h.state, List.rel_append h.pool (.cons hp .nil)⟩
  | @env e e' he =>
    have henv := K.env he h.state
    simp only [Config.turn]
    generalize M.env e g.state = y, M.env e' g'.state = y' at henv ⊢
    cases henv with
    | none => exact h
    | some hs => exact ⟨hs, h.pool⟩

theorem Configs.play {pick pick' : M.State → M.Action → M.Choice} (hpick : K.Picks pick pick')
    (h : K.Configs g g') (hxs : List.Forall₂ K.Turns xs xs') :
    K.Configs (g.play pick xs).1 (g'.play pick' xs').1 := by
  induction hxs generalizing g g' with
  | nil => exact h
  | cons hx _ ih => exact ih (h.turn hpick hx)

end Coupling
end Machine
end Interleaving
