import Slizen.Interleaving.Machine

namespace Interleaving
set_option autoImplicit true

open Machine

/-- A proof outline for the threads of a machine. `Inv` holds of every shared state, `Rely t`
bounds what the other threads do between two actions of `t`, and `Pre t a` is what `t` has to
know when it performs `a`. A thread that has not acted is `Fresh`, a forked program is `Ready`
in the state it is forked in, and a thread that has returned is `Done`. -/
structure Outline (M : Machine) (P : M.Rules) where
  Inv : M.State → Prop
  Rely : Nat → M.State → M.State → Prop
  Pre : Nat → M.Action → M.State → Prop
  Fresh : Nat → M.State → Prop
  Ready : M.Program → M.State → Prop
  Done : Nat → M.State → Prop
  rely_refl : ∀ t s, Rely t s s
  rely_trans : ∀ {t s₁ s₂ s₃}, Rely t s₁ s₂ → Rely t s₂ s₃ → Rely t s₁ s₃
  fresh : ∀ {u s s'}, Rely u s s' → Fresh u s → Fresh u s'
  done : ∀ {u s s'}, Rely u s s' → Done u s → Done u s'
  act : ∀ {t a c b s s'}, Inv s → P.allow t a s → Pre t a s → M.exec t a c s = some (b, s') →
    Inv s' ∧ ∀ u, u ≠ t → Rely u s s'
  env : ∀ {e s s'}, Inv s → P.external e s → M.env e s = some s' → Inv s' ∧ ∀ u, Rely u s s'

namespace Outline

variable {M : Machine} {P : M.Rules} (O : Outline M P)

/-- Weakest precondition of a thread's program under interference: the other threads may act
before each action of `t`. -/
def wp (t : Nat) (p : Prog M.Action M.Resp α) (Q : α → M.State → Prop) (s : M.State) : Prop :=
  match p with
  | .ret x => Q x s
  | .act a k => ∀ s₁, O.Rely t s s₁ → O.Inv s₁ → O.Pre t a s₁ ∧
      ∀ c b s₂, P.allow t a s₁ → M.exec t a c s₁ = some (b, s₂) → O.Inv s₂ →
        (∀ p, M.fork a b = some p → O.Ready p s₂) ∧ wp t (k b) Q s₂

variable {O} {t : Nat} {p : Prog M.Action M.Resp α}

theorem wp.mono {Q Q' : α → M.State → Prop} (h : O.wp t p Q s) (hQ : ∀ x s', Q x s' → Q' x s') :
    O.wp t p Q' s := by
  induction p generalizing s with
  | ret x => exact hQ x s h
  | act a k ih =>
    intro s₁ hr hi
    obtain ⟨hp, hk⟩ := h s₁ hr hi
    refine ⟨hp, fun c b s₂ ha he hi₂ => ?_⟩
    obtain ⟨hf, hw⟩ := hk c b s₂ ha he hi₂
    exact ⟨hf, ih b hw⟩

theorem wp.bind {f : α → Prog M.Action M.Resp β} {Q : β → M.State → Prop}
    (h : O.wp t p (fun x s' => O.wp t (f x) Q s') s) : O.wp t (p >>= f) Q s := by
  induction p generalizing s with
  | ret x => exact h
  | act a k ih =>
    intro s₁ hr hi
    obtain ⟨hp, hk⟩ := h s₁ hr hi
    refine ⟨hp, fun c b s₂ ha he hi₂ => ?_⟩
    obtain ⟨hf, hw⟩ := hk c b s₂ ha he hi₂
    exact ⟨hf, ih b hw⟩

theorem wp.rely {Q : α → M.State → Prop} (h : O.wp t p Q s) (hr : O.Rely t s s')
    (hQ : ∀ x, Q x s → Q x s') : O.wp t p Q s' := by
  cases p with
  | ret x => exact hQ x h
  | act a k => exact fun s₁ hr₁ hi => h s₁ (O.rely_trans hr hr₁) hi

theorem wp.inv {Q : α → M.State → Prop} (h : O.wp t p Q s) (hi : O.Inv s) :
    O.wp t p (fun x s' => O.Inv s' ∧ Q x s') s := by
  induction p generalizing s with
  | ret x => exact ⟨hi, h⟩
  | act a k ih =>
    intro s₁ hr hi₁
    obtain ⟨hp, hk⟩ := h s₁ hr hi₁
    refine ⟨hp, fun c b s₂ ha he hi₂ => ?_⟩
    obtain ⟨hf, hw⟩ := hk c b s₂ ha he hi₂
    exact ⟨hf, ih b hw hi₂⟩

theorem wp.seq {f : α → Prog M.Action M.Resp β} {R : α → M.State → Prop}
    {Q : β → M.State → Prop} (h : O.wp t p R s) (hi : O.Inv s)
    (hf : ∀ x s', O.Inv s' → R x s' → O.wp t (f x) Q s') : O.wp t (p >>= f) Q s :=
  ((h.inv hi).mono fun x s' hx => hf x s' hx.1 hx.2).bind

theorem wp.perform {a : M.Action} {Q : M.Resp a → M.State → Prop} (hf : ∀ b, M.fork a b = none)
    (h : ∀ s₁, O.Rely t s s₁ → O.Inv s₁ → O.Pre t a s₁ ∧
      ∀ c b s₂, M.exec t a c s₁ = some (b, s₂) → Q b s₂) : O.wp t (Prog.perform a) Q s := by
  intro s₁ hr hi
  obtain ⟨hp, hq⟩ := h s₁ hr hi
  refine ⟨hp, fun c b s₂ _ he _ => ⟨fun p hp => ?_, hq c b s₂ he⟩⟩
  rw [hf b] at hp
  cases hp

/-- A program all of whose actions satisfy `q` only moves the state along a preorder that
contains the interference and the `q` actions of the thread itself. -/
theorem wp.uses {q : M.Action → Prop} {C : M.State → M.State → Prop} {Q : α → M.State → Prop}
    (htrans : ∀ {s₁ s₂ s₃}, C s₁ s₂ → C s₂ s₃ → C s₁ s₃)
    (hrely : ∀ {s s'}, O.Rely t s s' → C s s')
    (hown : ∀ {a c b s s'}, q a → O.Inv s → M.exec t a c s = some (b, s') → C s s')
    (hpre : ∀ {a s}, q a → O.Inv s → O.Pre t a s)
    (hfork : ∀ {a b p s}, q a → M.fork a b = some p → O.Ready p s)
    (hp : p.Uses q) (hi : O.Inv s) (hQ : ∀ x s', C s s' → O.Inv s' → Q x s') :
    O.wp t p Q s := by
  induction p generalizing s with
  | ret x => exact hQ x s (hrely (O.rely_refl t s)) hi
  | act a k ih =>
    intro s₁ hr hi₁
    refine ⟨hpre hp.1 hi₁, fun c b s₂ _ he hi₂ => ⟨fun p hf => hfork hp.1 hf, ?_⟩⟩
    apply ih b (hp.2 b) hi₂
    intro x s' hc hi'
    exact hQ x s' (htrans (htrans (hrely hr) (hown hp.1 hi₁ he)) hc) hi'

structure Covers (O : Outline M P) : Prop where
  entry : ∀ p, P.entry p → ∀ u s, O.Inv s → O.Fresh u s → O.wp u p (fun _ => O.Done u) s
  ready : ∀ p u s, O.Inv s → O.Fresh u s → O.Ready p s → O.wp u p (fun _ => O.Done u) s

structure Verified (O : Outline M P) (s₀ : M.State) : Prop extends Covers O where
  init : O.Inv s₀
  fresh : ∀ u, O.Fresh u s₀

/-- What the outline says of a configuration: the shared state satisfies the invariant and
each thread can finish from where it stands. -/
structure Holds (O : Outline M P) (g : M.Config) : Prop where
  inv : O.Inv g.state
  threads : ∀ t p, g.pool[t]? = some p → O.wp t p (fun _ => O.Done t) g.state
  fresh : ∀ u, g.pool.length ≤ u → O.Fresh u g.state

theorem Holds.spawn {g : M.Config} {p : M.Program} (h : O.Holds g) (v : O.Covers)
    (hp : P.entry p) : O.Holds (g.spawn p) where
  inv := h.inv
  threads := by
    intro t p' ht
    rcases pool_spawn ht with ht | ⟨rfl, rfl⟩
    · exact h.threads t p' ht
    · exact v.entry p' hp _ g.state h.inv (h.fresh _ (Nat.le_refl _))
  fresh := by
    intro u hu
    simp only [Config.spawn, List.length_append, List.length_singleton] at hu
    exact h.fresh u (by omega)

theorem Holds.run {g : M.Config} (h : O.Holds g) (v : O.Covers)
    (hp : g.pool[t]? = some (.act a k)) (ha : P.allow t a g.state)
    (he : M.exec t a c g.state = some (b, s)) :
    O.Holds ⟨s, g.pool.set t (k b) ++ (M.fork a b).toList⟩ := by
  obtain ⟨hpre, hk⟩ := h.threads t _ hp g.state (O.rely_refl t _) h.inv
  obtain ⟨hi, hr⟩ := O.act h.inv ha hpre he
  obtain ⟨hf, hw⟩ := hk c b s ha he hi
  have ht : t < g.pool.length := (List.getElem?_eq_some_iff.1 hp).1
  refine ⟨hi, ?_, ?_⟩
  · intro u p' hu
    rcases pool_cases ht hu with ⟨rfl, rfl⟩ | ⟨hut, hu⟩ | ⟨rfl, hfk⟩
    · exact hw
    · exact (h.threads u p' hu).rely (hr u hut) fun _ => O.done (hr u hut)
    · exact v.ready _ _ s hi (O.fresh (hr _ (by omega)) (h.fresh _ (Nat.le_refl _))) (hf _ hfk)
  · intro u hu
    simp only [List.length_append, List.length_set] at hu
    exact O.fresh (hr u (by omega)) (h.fresh u (by omega))

theorem Holds.reach {g₀ g : M.Config} (h₀ : O.Holds g₀) (v : O.Covers) (h : Reach P g₀ g) :
    O.Holds g := by
  induction h with
  | refl => exact h₀
  | @step g g' m hg ha hn ih =>
    cases m with
    | run t c =>
      obtain ⟨a, k, b, s, hp, he, rfl⟩ := Config.next_run hn
      exact ih.run v hp (ha a k hp) he
    | spawn p =>
      cases hn
      exact ih.spawn v ha
    | env e =>
      obtain ⟨s, he, rfl⟩ := Config.next_env hn
      obtain ⟨hi, hr⟩ := O.env ih.inv ha he
      exact ⟨hi, fun t p hp => (ih.threads t p hp).rely (hr t) fun _ => O.done (hr t),
        fun u hu => O.fresh (hr u) (ih.fresh u hu)⟩

theorem Holds.pre {g : M.Config} (h : O.Holds g) (hp : g.pool[t]? = some (.act a k)) :
    O.Pre t a g.state :=
  (h.threads t _ hp g.state (O.rely_refl t _) h.inv).1

theorem Verified.holds (v : O.Verified s₀) (h : Reach P ⟨s₀, []⟩ g) : O.Holds g := by
  apply Holds.reach _ v.toCovers h
  exact ⟨v.init, fun t p hp => by simp at hp, fun u _ => v.fresh u⟩

theorem Verified.pre (v : O.Verified s₀) (h : Reach P ⟨s₀, []⟩ g)
    (hp : g.pool[t]? = some (.act a k)) : O.Pre t a g.state := (v.holds h).pre hp

theorem Verified.done (v : O.Verified s₀) (h : Reach P ⟨s₀, []⟩ g)
    (hp : g.pool[t]? = some (.ret x)) : O.Done t g.state :=
  (v.holds h).threads t _ hp

theorem Verified.unborn (v : O.Verified s₀) (h : Reach P ⟨s₀, []⟩ g) (hp : g.pool[t]? = none) :
    O.Fresh t g.state :=
  (v.holds h).fresh t (List.getElem?_eq_none_iff.1 hp)

/-- A property of the shared state that disciplined actions preserve stays true in every run. -/
theorem Verified.onward (v : O.Verified s₀) {J : M.State → Prop} {g₁ : M.Config}
    (hg₁ : Reach P ⟨s₀, []⟩ g₁) (h₁ : J g₁.state)
    (hact : ∀ {t a c b s s'}, O.Inv s → J s → P.allow t a s → O.Pre t a s →
      M.exec t a c s = some (b, s') → J s')
    (henv : ∀ {e s s'}, O.Inv s → J s → P.external e s → M.env e s = some s' → J s')
    (h : Reach P g₁ g) : J g.state := by
  induction h with
  | refl => exact h₁
  | @step g g' m hg ha hn ih =>
    have hreach := hg₁.trans hg
    cases m with
    | run t c =>
      obtain ⟨a, k, b, s, hp, he, rfl⟩ := Config.next_run hn
      exact hact (v.holds hreach).inv ih (ha a k hp) (v.pre hreach hp) he
    | spawn p =>
      cases hn
      exact ih
    | env e =>
      obtain ⟨s, he, rfl⟩ := Config.next_env hn
      exact henv (v.holds hreach).inv ih ha he

theorem Verified.invariant (v : O.Verified s₀) {J : M.State → Prop} (h₀ : J s₀)
    (hact : ∀ {t a c b s s'}, O.Inv s → J s → P.allow t a s → O.Pre t a s →
      M.exec t a c s = some (b, s') → J s')
    (henv : ∀ {e s s'}, O.Inv s → J s → P.external e s → M.env e s = some s' → J s')
    (h : Reach P ⟨s₀, []⟩ g) : J g.state :=
  v.onward .refl h₀ hact henv h

/-- A thread in a phase `E` that only a stopping action ends has performed none, and what it has
still to do begins with actions that satisfy `q`. -/
theorem Verified.early (v : O.Verified s₀) {E : Nat → M.State → Prop} {stop q : M.Action → Prop}
    (hentry : ∀ p, P.entry p → p.Until stop q)
    (hfork : ∀ a b p, M.fork a b = some p → p.Until stop q)
    (hown : ∀ {t a c b s s'}, O.Pre t a s → M.exec t a c s = some (b, s') → E t s' →
      E t s ∧ ¬ stop a)
    (hrely : ∀ {u s s'}, O.Rely u s s' → E u s' → E u s)
    {p : M.Program} (h : Reach P ⟨s₀, []⟩ g) (hp : g.pool[t]? = some p) (ht : E t g.state) :
    p.Until stop q := by
  induction h generalizing t p with
  | refl => simp at hp
  | @step g g' m hg ha hn ih =>
    cases m with
    | run u c =>
      obtain ⟨a, k, b, s, hu, he, rfl⟩ := Config.next_run hn
      have hpre := v.pre hg hu
      have hr := (O.act (v.holds hg).inv (ha a k hu) hpre he).2
      rcases pool_cases (List.getElem?_eq_some_iff.1 hu).1 hp with ⟨rfl, rfl⟩ | ⟨htu, hp⟩ | ⟨-, hf⟩
      · obtain ⟨ht', hstop⟩ := hown hpre he ht
        exact ((ih hu ht').resolve_left hstop).2 b
      · exact ih hp (hrely (hr t htu) ht)
      · exact hfork a b p hf
    | spawn p' =>
      cases hn
      rcases pool_spawn hp with hp | ⟨-, rfl⟩
      · exact ih hp ht
      · exact hentry p ha
    | env e =>
      obtain ⟨s, he, rfl⟩ := Config.next_env hn
      exact ih hp (hrely ((O.env (v.holds hg).inv ha he).2 t) ht)

end Outline
end Interleaving
