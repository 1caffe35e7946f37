import Mathlib.Logic.Hydra
import Slizen.Interleaving.Machine

namespace Interleaving
set_option autoImplicit true

inductive Prog.Rest {A : Type} {R : A → Type} {α : Type} : Prog A R α → Prog A R α → Prop
  | mk {a : A} (k : R a → Prog A R α) (b : R a) : Rest (k b) (.act a k)

theorem Prog.wf_rest {A : Type} {R : A → Type} {α : Type} :
    WellFounded (Prog.Rest (A := A) (R := R) (α := α)) := by
  constructor
  intro p
  induction p with
  | ret x =>
    apply Acc.intro
    intro q hq
    cases hq
  | act a k ih =>
    apply Acc.intro
    intro q hq
    cases hq with
    | mk k b => exact ih b

namespace Machine

variable {M : Machine} {P : M.Rules}

theorem cutExpand_set {pool : List M.Program} {a : M.Action} {k : M.Resp a → M.Program}
    (hp : pool[t]? = some (.act a k)) (b : M.Resp a) :
    Relation.CutExpand Prog.Rest (pool.set t (k b) : Multiset M.Program) pool := by
  obtain ⟨ht, hp⟩ := List.getElem?_eq_some_iff.1 hp
  have hpool : pool = pool.take t ++ .act a k :: pool.drop (t + 1) := by
    rw [← hp, List.cons_getElem_drop_succ, List.take_append_drop]
  have hsplit : ∀ q : M.Program, ((pool.take t ++ q :: pool.drop (t + 1) : List M.Program) :
      Multiset M.Program) = (pool.take t ++ pool.drop (t + 1) : List M.Program) + {q} := by
    intro q
    rw [Multiset.add_comm, Multiset.singleton_add, Multiset.cons_coe]
    exact Multiset.coe_eq_coe.2 List.perm_middle
  refine ⟨{k b}, .act a k, ?_, ?_⟩
  · intro q hq
    cases Multiset.mem_singleton.1 hq
    exact .mk k b
  · conv_rhs => rw [hpool]
    rw [List.set_eq_take_append_cons_drop, if_pos ht, hsplit, hsplit, add_right_comm]

/-- Threads that can always go on, one of them at a time, come to their end. -/
theorem Reach.complete {J : M.Config → Prop}
    (hstep : ∀ g, J g → ¬ g.Quiescent → ∃ t a k c b s, g.pool[t]? = some (.act a k) ∧
      P.allow t a g.state ∧ M.exec t a c g.state = some (b, s) ∧ M.fork a b = none ∧
      J ⟨s, g.pool.set t (k b)⟩) {g : M.Config} (h : J g) :
    ∃ g', Reach P g g' ∧ g'.Quiescent ∧ g'.pool.length = g.pool.length := by
  obtain ⟨s, pool⟩ := g
  induction hpool : (pool : Multiset M.Program)
    using (Prog.wf_rest.cutExpand).induction generalizing s pool with
  | h _ ih =>
  subst hpool
  by_cases hq : (⟨s, pool⟩ : M.Config).Quiescent
  · exact ⟨_, .refl, hq, rfl⟩
  · obtain ⟨t, a, k, c, b, s', hp, ha, he, hf, hj⟩ := hstep _ h hq
    obtain ⟨g', hreach, hquiet, hlen⟩ := ih _ (cutExpand_set hp b) s' (pool.set t (k b)) hj rfl
    refine ⟨g', Reach.trans (.step (.run t c) .refl ?_ ?_) hreach, hquiet, ?_⟩
    · intro a' k' hp'
      cases hp.symm.trans hp'
      exact ha
    · simp only [Config.next, hp, he, hf, Option.toList_none, List.append_nil]
    · rw [hlen, List.length_set]

end Machine
end Interleaving
