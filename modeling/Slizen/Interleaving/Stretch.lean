import Slizen.Interleaving.Outline
import Slizen.Interleaving.Trail

namespace Interleaving
set_option autoImplicit true

theorem Prog.After.eq_of_nil {A : Type} {R : A → Type} {p q : Prog A R α} (h : p.After [] q) :
    q = p := by
  generalize hl : ([] : List (Σ a, R a)) = l at h
  cases h with
  | nil => rfl
  | cons => cases hl

theorem Prog.After.unsnoc {A : Type} {R : A → Type} {p q : Prog A R α} {l : List (Σ a, R a)}
    {a : A} {b : R a} (h : p.After (l ++ [⟨a, b⟩]) q) :
    ∃ k, p.After l (.act a k) ∧ q = k b := by
  induction l generalizing p with
  | nil =>
    cases h with
    | cons _ h => exact ⟨_, .nil _, h.eq_of_nil⟩
  | cons x l ih =>
    cases h with
    | cons b' h =>
      obtain ⟨k, hk, rfl⟩ := ih h
      exact ⟨k, .cons b' hk, rfl⟩

/-- Once it has performed this action with this answer, the program is at its end. -/
def Prog.StopsAt {A : Type} {R : A → Type} (x : Σ a, R a) : Prog A R α → Prop
  | .ret _ => True
  | .act a k => ∀ b, (⟨a, b⟩ = x → (k b).returned = true) ∧ (k b).StopsAt x

section

variable {A : Type} {R : A → Type} {x : Σ a, R a} {p : Prog A R α}

theorem Prog.eq_ret (h : p.returned = true) : ∃ y, p = .ret y := by
  cases p with
  | ret y => exact ⟨y, rfl⟩
  | act a k => cases h

theorem Prog.StopsAt.bind {f : α → Prog A R β} (hp : p.Uses (· ≠ x.1))
    (hf : ∀ y, (f y).StopsAt x) : (p >>= f).StopsAt x := by
  induction p with
  | ret y => exact hf y
  | act a k ih => exact fun b => ⟨fun hx => absurd (congrArg Sigma.fst hx) hp.1, ih b (hp.2 b)⟩

theorem Prog.Uses.stopsAt (hp : p.Uses (· ≠ x.1)) : p.StopsAt x := by
  induction p with
  | ret y => trivial
  | act a k ih => exact fun b => ⟨fun hx => absurd (congrArg Sigma.fst hx) hp.1, ih b (hp.2 b)⟩

theorem Prog.StopsAt.map {f : α → β} (hp : p.StopsAt x) :
    (p >>= fun y => .ret (f y)).StopsAt x := by
  induction p with
  | ret y => trivial
  | act a k ih =>
    intro b
    refine ⟨fun hx => ?_, ih b (hp b).2⟩
    obtain ⟨y, hk⟩ := Prog.eq_ret ((hp b).1 hx)
    show (k b >>= fun y => Prog.ret (f y)).returned = true
    rw [hk]
    rfl

theorem Prog.After.stopped {l l' : List (Σ a, R a)} {q : Prog A R α} (h : p.After (l ++ x :: l') q)
    (hp : p.StopsAt x) : l' = [] := by
  induction l generalizing p with
  | nil =>
    cases h with
    | @cons a k b _ _ h =>
      obtain ⟨y, hk⟩ := Prog.eq_ret ((hp b).1 rfl)
      rw [hk] at h
      exact h.ret.1
  | cons y l ih =>
    cases h with
    | cons b h => exact ih h (hp b).2

end

namespace Outline

open Machine

variable {M : Machine} {P : M.Rules} (O : Outline M P) {C : M.Action → M.State → Prop}

/-- What holds at the end of a stretch of the program of `t`, given what the outline says at each
of its actions and that each of them meets `C`. -/
def post (C : M.Action → M.State → Prop) (t : Nat) (p : Prog M.Action M.Resp α)
    (Q : α → M.State → Prop) (s : M.State) : Prop :=
  match p with
  | .ret x => Q x s
  | .act a k => ∀ s₁, O.Rely t s s₁ → O.Inv s₁ → O.Pre t a s₁ → C a s₁ → P.allow t a s₁ →
      ∀ c b s₂, M.exec t a c s₁ = some (b, s₂) → O.Inv s₂ → post C t (k b) Q s₂

variable {O} {t : Nat} {p : Prog M.Action M.Resp α} {Q : α → M.State → Prop} {s : M.State}

theorem post.mono {Q' : α → M.State → Prop} (h : O.post C t p Q s)
    (hQ : ∀ x s', Q x s' → Q' x s') : O.post C t p Q' s := by
  induction p generalizing s with
  | ret x => exact hQ x s h
  | act a k ih =>
    intro s₁ hr hi hp hc ha c b s₂ he hi₂
    exact ih b (h s₁ hr hi hp hc ha c b s₂ he hi₂)

theorem post.bind {f : α → Prog M.Action M.Resp β} {Q : β → M.State → Prop}
    (h : O.post C t p (fun x s' => O.post C t (f x) Q s') s) : O.post C t (p >>= f) Q s := by
  induction p generalizing s with
  | ret x => exact h
  | act a k ih =>
    intro s₁ hr hi hp hc ha c b s₂ he hi₂
    exact ih b (h s₁ hr hi hp hc ha c b s₂ he hi₂)

theorem post.inv (h : O.post C t p Q s) (hi : O.Inv s) :
    O.post C t p (fun x s' => O.Inv s' ∧ Q x s') s := by
  induction p generalizing s with
  | ret x => exact ⟨hi, h⟩
  | act a k ih =>
    intro s₁ hr hi₁ hp hc ha c b s₂ he hi₂
    exact ih b (h s₁ hr hi₁ hp hc ha c b s₂ he hi₂) hi₂

theorem post.seq {f : α → Prog M.Action M.Resp β} {Q' : β → M.State → Prop}
    (h : O.post C t p Q s) (hi : O.Inv s)
    (hf : ∀ x s', O.Inv s' → Q x s' → O.post C t (f x) Q' s') : O.post C t (p >>= f) Q' s :=
  ((h.inv hi).mono fun x s' hx => hf x s' hx.1 hx.2).bind

theorem post.rely (h : O.post C t p Q s) (hr : O.Rely t s s') (hQ : ∀ x, Q x s → Q x s') :
    O.post C t p Q s' := by
  cases p with
  | ret x => exact hQ x h
  | act a k => exact fun s₁ hr₁ => h s₁ (O.rely_trans hr hr₁)

theorem wp.post (h : O.wp t p Q s) : O.post C t p Q s := by
  induction p generalizing s with
  | ret x => exact h
  | act a k ih =>
    intro s₁ hr hi _ _ ha c b s₂ he hi₂
    exact ih b (((h s₁ hr hi).2 c b s₂ ha he hi₂).2)

/-- A thread at the beginning of a stretch goes through it, whatever the others do meanwhile. -/
theorem Verified.stretch (v : O.Verified s₀) {g₀ g : M.Config} {tr : List M.Event}
    {f : α → M.Program} {q : Prog M.Action M.Resp α} (h : Trail P g₀ tr g)
    (hreach : Reach P ⟨s₀, []⟩ g₀) (hp : g₀.pool[t]? = some (p >>= f))
    (hC : ∀ e ∈ tr, e.thread = t → C e.action e.before)
    (hQ : ∀ x s s', O.Rely t s s' → Q x s → Q x s') (hpost : O.post C t p Q g₀.state)
    (hafter : p.After (acts tr t) q) : g.pool[t]? = some (q >>= f) ∧ O.post C t q Q g.state := by
  induction h generalizing q with
  | nil =>
    cases hafter
    exact ⟨hp, hpost⟩
  | @run tr g u a k c b s hg hu ha he ih =>
    have hC' : ∀ e ∈ tr, e.thread = t → C e.action e.before :=
      fun e hmem => hC e (List.mem_append_left _ hmem)
    have hr := hreach.trans hg.reach
    have hlt : u < g.pool.length := (List.getElem?_eq_some_iff.1 hu).1
    have hpre := v.pre hr hu
    obtain ⟨hi, hrely⟩ := O.act (v.holds hr).inv ha hpre he
    by_cases htu : t = u
    · subst htu
      rw [acts_self] at hafter
      obtain ⟨k', hbefore, rfl⟩ := hafter.unsnoc
      obtain ⟨hpool, hpost'⟩ := ih hC' hbefore
      rw [Prog.act_bind] at hpool
      cases hu.symm.trans hpool
      constructor
      · rw [List.getElem?_append_left (by rwa [List.length_set]), List.getElem?_set_self hlt]
      · apply hpost' g.state (O.rely_refl t _) (v.holds hr).inv hpre _ ha c b s he hi
        exact hC ⟨t, g.state, a, b⟩ (List.mem_append_right _ (List.mem_singleton.2 rfl)) rfl
    · rw [acts_other _ _ _ _ htu] at hafter
      obtain ⟨hpool, hpost'⟩ := ih hC' hafter
      constructor
      · have hlt' := (List.getElem?_eq_some_iff.1 hpool).1
        rw [List.getElem?_append_left (by rwa [List.length_set]),
          List.getElem?_set_ne (Ne.symm htu), hpool]
      · exact hpost'.rely (hrely t htu) fun x => hQ x _ _ (hrely t htu)
  | @spawn tr g p' hg _ ih =>
    obtain ⟨hpool, hpost'⟩ := ih hC hafter
    refine ⟨?_, hpost'⟩
    rw [Config.spawn, List.getElem?_append_left (List.getElem?_eq_some_iff.1 hpool).1, hpool]
  | @env tr g e s hg hx he ih =>
    obtain ⟨hpool, hpost'⟩ := ih hC hafter
    have hrely := (O.env (v.holds (hreach.trans hg.reach)).inv hx he).2 t
    exact ⟨hpool, hpost'.rely hrely fun x => hQ x _ _ hrely⟩

end Outline
end Interleaving
