import Mathlib.Data.List.Basic

namespace Interleaving
set_option autoImplicit true

/-- A sequential program over atomic actions. The environment answers an action `a` with a
value of `R a`, and the program goes on from that answer. -/
inductive Prog (A : Type) (R : A → Type) (α : Type) where
  | ret (x : α) : Prog A R α
  | act (a : A) (k : R a → Prog A R α) : Prog A R α

namespace Prog

variable {A : Type} {R : A → Type} {α β γ : Type}

def bind (p : Prog A R α) (f : α → Prog A R β) : Prog A R β :=
  match p with
  | .ret x => f x
  | .act a k => .act a fun b => (k b).bind f

instance : Monad (Prog A R) where
  pure := .ret
  bind := Prog.bind

def perform (a : A) : Prog A R (R a) := .act a .ret

@[simp] theorem pure_eq (x : α) : (pure x : Prog A R α) = .ret x := rfl

@[simp] theorem ret_bind (x : α) (f : α → Prog A R β) : (Prog.ret x : Prog A R α) >>= f = f x := rfl

@[simp] theorem act_bind (a : A) (k : R a → Prog A R α) (f : α → Prog A R β) :
    Prog.act a k >>= f = .act a fun b => k b >>= f := rfl

@[simp] theorem bind_assoc (p : Prog A R α) (f : α → Prog A R β) (g : β → Prog A R γ) :
    (p >>= f) >>= g = p >>= fun x => f x >>= g := by
  induction p with
  | ret x => rfl
  | act a k ih =>
    simp only [act_bind]
    congr 1
    funext b
    exact ih b

def returned : Prog A R α → Bool
  | .ret _ => true
  | .act _ _ => false

/-- Every action that the program can ever perform satisfies `q`. -/
def Uses (q : A → Prop) : Prog A R α → Prop
  | .ret _ => True
  | .act a k => q a ∧ ∀ b, (k b).Uses q

theorem Uses.bind {q : A → Prop} {p : Prog A R α} {f : α → Prog A R β}
    (hp : p.Uses q) (hf : ∀ x, (f x).Uses q) : (p >>= f).Uses q := by
  induction p with
  | ret x => exact hf x
  | act a k ih => exact ⟨hp.1, fun b => ih b (hp.2 b)⟩

theorem Uses.of_bind {q : A → Prop} {p : Prog A R α} {f : α → Prog A R β}
    (h : (p >>= f).Uses q) : p.Uses q := by
  induction p with
  | ret x => trivial
  | act a k ih => exact ⟨h.1, fun b => ih b (h.2 b)⟩

theorem Uses.mono {q q' : A → Prop} {p : Prog A R α} (hp : p.Uses q) (h : ∀ a, q a → q' a) :
    p.Uses q' := by
  induction p with
  | ret x => trivial
  | act a k ih => exact ⟨h a hp.1, fun b => ih b (hp.2 b)⟩

/-- Up to the first action that satisfies `stop`, every action satisfies `q`. -/
def Until (stop q : A → Prop) : Prog A R α → Prop
  | .ret _ => True
  | .act a k => stop a ∨ q a ∧ ∀ b, (k b).Until stop q

theorem Until.bind {stop q : A → Prop} {p : Prog A R α} {f : α → Prog A R β}
    (hp : p.Until stop q) (hf : ∀ x, (f x).Until stop q) : (p >>= f).Until stop q := by
  induction p with
  | ret x => exact hf x
  | act a k ih => exact hp.imp_right fun h => ⟨h.1, fun b => ih b (h.2 b)⟩

theorem Uses.until {stop q : A → Prop} {p : Prog A R α} (hp : p.Uses q) : p.Until stop q := by
  induction p with
  | ret x => trivial
  | act a k ih => exact .inr ⟨hp.1, fun b => ih b (hp.2 b)⟩

/-- The program has performed these actions, was given these answers, and `q` is left of it. -/
inductive After : Prog A R α → List (Σ a, R a) → Prog A R α → Prop
  | nil (p : Prog A R α) : After p [] p
  | cons {a : A} {k : R a → Prog A R α} (b : R a) {tr : List (Σ a, R a)} {q : Prog A R α} :
      After (k b) tr q → After (.act a k) (⟨a, b⟩ :: tr) q

theorem After.snoc {p : Prog A R α} {k : R a → Prog A R α} (h : After p tr (.act a k)) (b : R a) :
    After p (tr ++ [⟨a, b⟩]) (k b) := by
  generalize hq : Prog.act a k = q' at h
  induction h with
  | nil p =>
    subst hq
    exact .cons b (.nil _)
  | cons b' _ ih => exact .cons b' (ih hq)

theorem After.ret {x : α} (h : After (.ret x) tr q) : tr = [] ∧ q = .ret x := by
  cases h with
  | nil => exact ⟨rfl, rfl⟩

theorem After.act {k : R a → Prog A R α} (h : After (.act a k) tr q) :
    tr = [] ∧ q = .act a k ∨ ∃ b tr', tr = ⟨a, b⟩ :: tr' ∧ After (k b) tr' q := by
  cases h with
  | nil => exact .inl ⟨rfl, rfl⟩
  | cons b h => exact .inr ⟨b, _, rfl, h⟩

theorem After.perform {a : A} {b : R a} (h : After (perform a) tr (.ret b)) : tr = [⟨a, b⟩] := by
  cases h with
  | cons b' h =>
    obtain ⟨rfl, hb⟩ := h.ret
    cases hb
    rfl

theorem After.bind_cases {p : Prog A R α} {f : α → Prog A R β} (h : After (p >>= f) tr q) :
    (∃ p', After p tr p' ∧ p'.returned = false ∧ q = p' >>= f) ∨
      ∃ tr₁ x tr₂, tr = tr₁ ++ tr₂ ∧ After p tr₁ (.ret x) ∧ After (f x) tr₂ q := by
  induction p generalizing tr with
  | ret x => exact .inr ⟨[], x, tr, rfl, .nil _, h⟩
  | act a k ih =>
    cases h with
    | nil => exact .inl ⟨.act a k, .nil _, rfl, rfl⟩
    | cons b h =>
      rcases ih b h with ⟨p', h', hp', rfl⟩ | ⟨tr₁, x, tr₂, rfl, h₁, h₂⟩
      · exact .inl ⟨p', .cons b h', hp', rfl⟩
      · exact .inr ⟨⟨a, b⟩ :: tr₁, x, tr₂, rfl, .cons b h₁, h₂⟩

theorem returned_bind {p : Prog A R α} {f : α → Prog A R β} (h : p.returned = false) :
    (p >>= f).returned = false := by
  cases p with
  | ret x => cases h
  | act a k => rfl

theorem After.bind_ret {p : Prog A R α} {f : α → Prog A R β} (h : After (p >>= f) tr (.ret y)) :
    ∃ tr₁ x tr₂, tr = tr₁ ++ tr₂ ∧ After p tr₁ (.ret x) ∧ After (f x) tr₂ (.ret y) := by
  refine h.bind_cases.resolve_left ?_
  rintro ⟨p', -, hp', hq⟩
  have := returned_bind (f := f) hp'
  rw [← hq] at this
  cases this

theorem After.uses {q : A → Prop} {p p' : Prog A R α} (h : After p tr p') (hp : p.Uses q) :
    ∀ e ∈ tr, q e.1 := by
  induction h with
  | nil => exact nofun
  | cons b _ ih =>
    intro e he
    rcases List.mem_cons.1 he with rfl | he
    · exact hp.1
    · exact ih (hp.2 b) e he

end Prog
end Interleaving
