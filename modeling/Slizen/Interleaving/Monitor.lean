import Slizen.Interleaving.Trail

namespace Interleaving
set_option autoImplicit true

/-- What an observer keeps in mind of one thread: how every answer changes it, which actions it
expects, and when nothing is left open. -/
structure Monitor (A : Type) (R : A → Type) where
  Mem : Type
  fresh : Mem
  Ok : Mem → A → Prop
  next : Mem → (a : A) → R a → Mem
  Idle : Mem → Prop

namespace Monitor

variable {A : Type} {R : A → Type} {α β : Type} {K : Monitor A R} {μ : K.Mem}

/-- Whatever the answers are, the program performs expected actions only, and `Q` holds of its
result and the memory at the end. -/
def Obeys (K : Monitor A R) : Prog A R α → (α → K.Mem → Prop) → K.Mem → Prop
  | .ret x, Q, μ => Q x μ
  | .act a k, Q, μ => K.Ok μ a ∧ ∀ b, K.Obeys (k b) Q (K.next μ a b)

theorem Obeys.bind {p : Prog A R α} {f : α → Prog A R β} {Q : α → K.Mem → Prop}
    {Q' : β → K.Mem → Prop} (hp : K.Obeys p Q μ) (hf : ∀ x μ', Q x μ' → K.Obeys (f x) Q' μ') :
    K.Obeys (p >>= f) Q' μ := by
  induction p generalizing μ with
  | ret x => exact hf x μ hp
  | act a k ih => exact ⟨hp.1, fun b => ih b (hp.2 b)⟩

theorem Obeys.mono {p : Prog A R α} {Q Q' : α → K.Mem → Prop} (hp : K.Obeys p Q μ)
    (hQ : ∀ x μ', Q x μ' → Q' x μ') : K.Obeys p Q' μ := by
  induction p generalizing μ with
  | ret x => exact hQ x μ hp
  | act a k ih => exact ⟨hp.1, fun b => ih b (hp.2 b)⟩

theorem Obeys.of_uses {q : A → Prop} {p : Prog A R α} (hp : p.Uses q)
    (hq : ∀ a, q a → K.Ok μ a ∧ ∀ b, K.next μ a b = μ) : K.Obeys p (fun _ μ' => μ' = μ) μ := by
  induction p with
  | ret x => rfl
  | act a k ih =>
    obtain ⟨hok, hnext⟩ := hq a hp.1
    apply And.intro hok
    intro b
    rw [hnext b]
    exact ih b (hp.2 b)

theorem Obeys.steady {q : A → Prop} {S : K.Mem → Prop} {p : Prog A R α} (hp : p.Uses q)
    (hq : ∀ a μ, q a → S μ → K.Ok μ a ∧ ∀ b, S (K.next μ a b)) (h : S μ) :
    K.Obeys p (fun _ => S) μ := by
  induction p generalizing μ with
  | ret x => exact h
  | act a k ih =>
    obtain ⟨hok, hnext⟩ := hq a μ hp.1 h
    exact ⟨hok, fun b => ih b (hp.2 b) (hnext b)⟩

def after (K : Monitor A R) (μ : K.Mem) (l : List (Σ a, R a)) : K.Mem :=
  l.foldl (fun μ e => K.next μ e.1 e.2) μ

@[simp] theorem after_snoc (l : List (Σ a, R a)) (a : A) (b : R a) :
    K.after μ (l ++ [⟨a, b⟩]) = K.next (K.after μ l) a b := by simp [after]

theorem Obeys.after {p q : Prog A R α} {Q : α → K.Mem → Prop} (h : K.Obeys p Q μ)
    (hpq : p.After l q) : K.Obeys q Q (K.after μ l) := by
  induction hpq generalizing μ with
  | nil p => exact h
  | cons b _ ih => exact ih (h.2 b)

def Keeps (K : Monitor A R) (p : Prog A R α) : Prop :=
  ∀ μ, K.Idle μ → K.Obeys p (fun _ => K.Idle) μ

theorem Keeps.ret (x : α) : K.Keeps (.ret x : Prog A R α) := fun _ h => h

theorem Keeps.bind {p : Prog A R α} {f : α → Prog A R β} (hp : K.Keeps p)
    (hf : ∀ x, K.Keeps (f x)) : K.Keeps (p >>= f) :=
  fun μ h => (hp μ h).bind fun x μ' h' => hf x μ' h'

theorem Keeps.perform {a : A} (ha : ∀ μ, K.Idle μ → K.Ok μ a ∧ ∀ b, K.Idle (K.next μ a b)) :
    K.Keeps (Prog.perform a : Prog A R (R a)) := ha

end Monitor

namespace Machine

variable {M : Machine} {P : M.Rules} {K : Monitor M.Action M.Resp} {tr : List M.Event}
  {g : M.Config} {s₀ : M.State}

def mem (K : Monitor M.Action M.Resp) (tr : List M.Event) (t : Nat) : K.Mem :=
  K.after K.fresh (acts tr t)

theorem mem_congr {tr' : List M.Event} (h : acts tr' t = acts tr t) : mem K tr' t = mem K tr t := by
  rw [mem, h, mem]

@[simp] theorem mem_self (tr : List M.Event) (t : Nat) (s : M.State) (a : M.Action)
    (b : M.Resp a) : mem K (tr ++ [⟨t, s, a, b⟩]) t = K.next (mem K tr t) a b := by
  rw [mem, acts_self, Monitor.after_snoc, mem]

theorem mem_other (tr : List M.Event) (s : M.State) (a : M.Action) (b : M.Resp a) (h : u ≠ t) :
    mem K (tr ++ [⟨t, s, a, b⟩]) u = mem K tr u := by rw [mem, acts_other _ _ _ _ h, mem]

theorem Trail.obeys {Q : Unit → K.Mem → Prop} {q : M.Program} (h : Trail P ⟨s₀, []⟩ tr g)
    (hentry : ∀ p, P.entry p → K.Obeys p Q K.fresh)
    (hfork : ∀ a b p, M.fork a b = some p → K.Obeys p Q K.fresh) (hq : g.pool[t]? = some q) :
    K.Obeys q Q (mem K tr t) := by
  obtain ⟨begun, hb⟩ := h.threads
  obtain ⟨⟨forked, p⟩, hx, hafter⟩ := hb.after t q hq
  have hp : K.Obeys p Q K.fresh := by
    cases forked with
    | false => exact hentry p (hb.entry p (List.mem_of_getElem? hx))
    | true =>
      obtain ⟨e, -, he⟩ := hb.fork (List.mem_of_getElem? hx)
      exact hfork e.action e.answer p he
  exact hp.after hafter

structure Watched (K : Monitor M.Action M.Resp) (P : M.Rules) : Prop where
  idle : K.Idle K.fresh
  entry : ∀ p, P.entry p → K.Keeps p
  fork : ∀ a b p, M.fork a b = some p → K.Keeps p

theorem Watched.obeys {q : M.Program} (hK : Watched K P) (h : Trail P ⟨s₀, []⟩ tr g)
    (hq : g.pool[t]? = some q) : K.Obeys q (fun _ => K.Idle) (mem K tr t) :=
  h.obeys (fun p hp => hK.entry p hp _ hK.idle) (fun a b p hp => hK.fork a b p hp _ hK.idle) hq

theorem Watched.idle_mem (hK : Watched K P) (h : Trail P ⟨s₀, []⟩ tr g) (hg : g.Quiescent)
    (t : Nat) : K.Idle (mem K tr t) := by
  cases hq : g.pool[t]? with
  | none =>
    obtain ⟨begun, hb⟩ := h.threads
    rw [mem, hb.acts_eq_nil (List.getElem?_eq_none_iff.1 hq)]
    exact hK.idle
  | some q =>
    have hobeys := hK.obeys h hq
    cases q with
    | ret x => exact hobeys
    | act a k => cases hg _ (List.mem_of_getElem? hq)

/-- The rule for properties of a run with what the observer has in mind of its threads. -/
theorem Watched.invariant {J : List M.Event → M.State → Prop} (hK : Watched K P)
    (h : Trail P ⟨s₀, []⟩ tr g) (h₀ : J [] s₀)
    (hact : ∀ {tr g t a c b s}, Trail P ⟨s₀, []⟩ tr g → J tr g.state → K.Ok (mem K tr t) a →
      M.exec t a c g.state = some (b, s) → J (tr ++ [⟨t, g.state, a, b⟩]) s)
    (henv : ∀ {tr e s s'}, J tr s → M.env e s = some s' → J tr s') : J tr g.state := by
  induction h with
  | nil => exact h₀
  | run hg hp _ he ih => exact hact hg ih (hK.obeys hg hp).1 he
  | spawn _ _ ih => exact ih
  | env _ _ he ih => exact henv ih he

end Machine
end Interleaving
