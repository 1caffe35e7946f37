import Mathlib.Algebra.BigOperators.Group.Finset.Piecewise
import Mathlib.Algebra.GroupWithZero.Nat
import Slizen.Interleaving.Machine

namespace Interleaving.Machine
set_option autoImplicit true

/-- One action of a run: the thread that performed it, the state it found, and its answer. -/
structure Event (M : Machine) where
  thread : Nat
  before : M.State
  action : M.Action
  answer : M.Resp action

variable {M : Machine} {P : M.Rules} {g₀ g : M.Config} {tr : List M.Event}

def Event.act (e : M.Event) : Σ a, M.Resp a := ⟨e.action, e.answer⟩

/-- A run with the list of its actions, the first one first. -/
inductive Trail (P : M.Rules) (g₀ : M.Config) : List M.Event → M.Config → Prop
  | nil : Trail P g₀ [] g₀
  | run {tr : List M.Event} {g : M.Config} {t : Nat} {a : M.Action} {k : M.Resp a → M.Program}
      {c : M.Choice} {b : M.Resp a} {s : M.State} :
      Trail P g₀ tr g → g.pool[t]? = some (.act a k) → P.allow t a g.state →
      M.exec t a c g.state = some (b, s) →
      Trail P g₀ (tr ++ [⟨t, g.state, a, b⟩]) ⟨s, g.pool.set t (k b) ++ (M.fork a b).toList⟩
  | spawn {tr : List M.Event} {g : M.Config} {p : M.Program} :
      Trail P g₀ tr g → P.entry p → Trail P g₀ tr (g.spawn p)
  | env {tr : List M.Event} {g : M.Config} {e : M.Env} {s : M.State} :
      Trail P g₀ tr g → P.external e g.state → M.env e g.state = some s →
      Trail P g₀ tr ⟨s, g.pool⟩

theorem Reach.trail (h : Reach P g₀ g) : ∃ tr, Trail P g₀ tr g := by
  induction h with
  | refl => exact ⟨[], .nil⟩
  | @step g g' m hg ha hn ih =>
    obtain ⟨tr, ih⟩ := ih
    cases m with
    | run t c =>
      obtain ⟨a, k, b, s, hp, he, rfl⟩ := Config.next_run hn
      exact ⟨_, .run ih hp (ha a k hp) he⟩
    | spawn p =>
      cases hn
      exact ⟨tr, .spawn ih ha⟩
    | env e =>
      obtain ⟨s, he, rfl⟩ := Config.next_env hn
      exact ⟨tr, .env ih ha he⟩

theorem next_of_exec {t : Nat} {a : M.Action} {k : M.Resp a → M.Program} {b : M.Resp a}
    (hp : g.pool[t]? = some (.act a k)) (he : M.exec t a c g.state = some (b, s)) :
    g.next (.run t c) = some ⟨s, g.pool.set t (k b) ++ (M.fork a b).toList⟩ := by
  simp only [Config.next, hp, he]

theorem Trail.reach (h : Trail P g₀ tr g) : Reach P g₀ g := by
  induction h with
  | nil => exact .refl
  | @run tr g t a k c b s _ hp ha he ih =>
    apply Reach.step (.run t c) ih _ (next_of_exec hp he)
    intro a' k' hp'
    cases hp.symm.trans hp'
    exact ha
  | @spawn tr g p _ hp ih => exact .step (.spawn p) ih hp rfl
  | @env tr g e s _ hx he ih => exact .step (.env e) ih hx (congrArg (Option.map _) he)

theorem Trail.split (h : Trail P g₀ tr g) (htr : tr = tr₁ ++ e :: tr₂) :
    ∃ g₁ g₂ c k, Trail P g₀ tr₁ g₁ ∧ g₁.state = e.before ∧
      g₁.pool[e.thread]? = some (.act e.action k) ∧ P.allow e.thread e.action e.before ∧
      M.exec e.thread e.action c e.before = some (e.answer, g₂.state) ∧ Trail P g₂ tr₂ g := by
  induction h generalizing tr₂ with
  | nil => simp at htr
  | @run tr g t a k c b s hg hp ha he ih =>
    rcases List.eq_nil_or_concat tr₂ with rfl | ⟨tr₂, x, rfl⟩
    · obtain ⟨rfl, hlast⟩ := List.append_inj' htr rfl
      cases hlast
      exact ⟨g, _, c, k, hg, rfl, hp, ha, he, .nil⟩
    · rw [List.concat_eq_append, ← List.cons_append, ← List.append_assoc] at htr
      obtain ⟨hinit, hlast⟩ := List.append_inj' htr rfl
      cases hlast
      obtain ⟨g₁, g₂, c', k', h₁, hs, hp', ha', he', h₂⟩ := ih hinit
      rw [List.concat_eq_append]
      exact ⟨g₁, g₂, c', k', h₁, hs, hp', ha', he', .run h₂ hp ha he⟩
  | spawn _ hp ih =>
    obtain ⟨g₁, g₂, c, k, h₁, hs, hp', ha, he, h₂⟩ := ih htr
    exact ⟨g₁, g₂, c, k, h₁, hs, hp', ha, he, .spawn h₂ hp⟩
  | env _ hx he ih =>
    obtain ⟨g₁, g₂, c, k, h₁, hs, hp', ha, he', h₂⟩ := ih htr
    exact ⟨g₁, g₂, c, k, h₁, hs, hp', ha, he', .env h₂ hx he⟩

theorem Trail.exec (h : Trail P g₀ tr g) (he : e ∈ tr) :
    ∃ c s, M.exec e.thread e.action c e.before = some (e.answer, s) := by
  obtain ⟨tr₁, tr₂, rfl⟩ := List.append_of_mem he
  obtain ⟨g₁, g₂, c, k, -, -, -, -, hexec, -⟩ := h.split rfl
  exact ⟨c, g₂.state, hexec⟩

theorem Trail.append (h : Trail P g₀ tr g₁) (h' : Trail P g₁ tr' g) :
    Trail P g₀ (tr ++ tr') g := by
  induction h' with
  | nil => rwa [List.append_nil]
  | run _ hp ha he ih =>
    rw [← List.append_assoc]
    exact .run ih hp ha he
  | spawn _ hp ih => exact .spawn ih hp
  | env _ hx he ih => exact .env ih hx he

theorem Trail.restrict {A : Nat → M.Action → M.State → Prop} (h : Trail P g₀ tr g)
    (hA : ∀ e ∈ tr, A e.thread e.action e.before) :
    Trail { P with allow := A } g₀ tr g := by
  induction h with
  | nil => exact .nil
  | run _ hp _ he ih =>
    obtain ⟨htr, hlast⟩ := List.forall_mem_append.1 hA
    exact .run (ih htr) hp (hlast _ (List.mem_singleton_self _)) he
  | spawn _ hp ih => exact .spawn (ih hA) hp
  | env _ hx he ih => exact .env (ih hA) hx he

theorem Trail.found (h : Trail P g₀ tr g) (he : e ∈ tr) :
    ∃ g₁, Reach P g₀ g₁ ∧ g₁.state = e.before ∧ g₁.pool.length ≤ g.pool.length := by
  induction h with
  | nil => cases he
  | @run tr g t a k c b s hg hp ha hexec ih =>
    rw [List.length_append, List.length_set]
    rcases List.mem_append.1 he with he | he
    · obtain ⟨g₁, hr, hs, hle⟩ := ih he
      exact ⟨g₁, hr, hs, Nat.le_add_right_of_le hle⟩
    · cases List.mem_singleton.1 he
      exact ⟨g, hg.reach, rfl, Nat.le_add_right _ _⟩
  | spawn _ _ ih =>
    obtain ⟨g₁, hr, hs, hle⟩ := ih he
    rw [Config.spawn, List.length_append]
    exact ⟨g₁, hr, hs, Nat.le_add_right_of_le hle⟩
  | env _ _ _ ih => exact ih he

/-- What every action and the environment preserve, given the actions so far. -/
theorem Trail.invariant {J : List M.Event → M.State → Prop} (h : Trail P g₀ tr g)
    (h₀ : J [] g₀.state)
    (hact : ∀ {tr g t a k c b s}, Reach P g₀ g → g.pool[t]? = some (.act a k) → J tr g.state →
      M.exec t a c g.state = some (b, s) → J (tr ++ [⟨t, g.state, a, b⟩]) s)
    (henv : ∀ {tr e s s'}, J tr s → M.env e s = some s' → J tr s') : J tr g.state := by
  induction h with
  | nil => exact h₀
  | run hg hp _ he ih => exact hact hg.reach hp ih he
  | spawn _ _ ih => exact ih
  | env _ _ he ih => exact henv ih he

def Config.events (pick : M.State → M.Action → M.Choice) (t : Nat) : Nat → M.Config → List M.Event
  | 0, _ => []
  | n + 1, g =>
    match g.pool[t]? with
    | some (.act a k) =>
      match M.exec t a (pick g.state a) g.state with
      | some (b, s) =>
        ⟨t, g.state, a, b⟩ :: events pick t n ⟨s, g.pool.set t (k b) ++ (M.fork a b).toList⟩
      | none => []
    | _ => []

theorem Trail.drive (h : Trail P g₀ tr g) (hallow : ∀ t a s, P.allow t a s)
    (pick : M.State → M.Action → M.Choice) (t n : Nat) :
    Trail P g₀ (tr ++ g.events pick t n) (g.drive pick t n) := by
  induction n generalizing tr g with
  | zero => simpa [Config.events, Config.drive] using h
  | succ n ih =>
    rw [Config.drive, Config.events]
    cases hp : g.pool[t]? with
    | none => simpa using h
    | some p =>
      cases p with
      | ret x => simpa using h
      | act a k =>
        cases he : M.exec t a (pick g.state a) g.state with
        | none =>
          have hn : g.next (.run t (pick g.state a)) = none := by simp only [Config.next, hp, he]
          simpa [hn, he] using h
        | some r =>
          have hn := next_of_exec hp he
          simpa [hn, he] using ih (.run h hp (hallow t a g.state) he)

/-- A part of a schedule: a thread performs up to `n` actions, a thread begins, or something happens
outside. -/
inductive Turn (M : Machine) where
  | run (t n : Nat)
  | spawn (p : M.Program)
  | env (e : M.Env)

def Turn.Allowed (P : M.Rules) : Turn M → Prop
  | run _ _ => True
  | spawn p => P.entry p
  | env e => ∀ s, P.external e s

def Config.turn (pick : M.State → M.Action → M.Choice) (g : M.Config) :
    Turn M → M.Config × List M.Event
  | .run t n => (g.drive pick t n, g.events pick t n)
  | .spawn p => (g.spawn p, [])
  | .env e =>
    match M.env e g.state with
    | some s => (⟨s, g.pool⟩, [])
    | none => (g, [])

/-- Play a schedule, the first turn first. -/
def Config.play (pick : M.State → M.Action → M.Choice) (g : M.Config) :
    List (Turn M) → M.Config × List M.Event
  | [] => (g, [])
  | x :: xs =>
    let r := g.turn pick x
    let r' := r.1.play pick xs
    (r'.1, r.2 ++ r'.2)

theorem Trail.turn (h : Trail P g₀ tr g) (hallow : ∀ t a s, P.allow t a s)
    (pick : M.State → M.Action → M.Choice) {x : Turn M} (hx : x.Allowed P) :
    Trail P g₀ (tr ++ (g.turn pick x).2) (g.turn pick x).1 := by
  cases x with
  | run t n => exact h.drive hallow pick t n
  | spawn p => simpa [Config.turn] using Trail.spawn h hx
  | env e =>
    cases he : M.env e g.state with
    | none => simpa [Config.turn, he] using h
    | some s => simpa [Config.turn, he] using Trail.env h (hx g.state) he

theorem Trail.play (h : Trail P g₀ tr g) (hallow : ∀ t a s, P.allow t a s)
    (pick : M.State → M.Action → M.Choice) {xs : List (Turn M)} (hxs : ∀ x ∈ xs, x.Allowed P) :
    Trail P g₀ (tr ++ (g.play pick xs).2) (g.play pick xs).1 := by
  induction xs generalizing tr g with
  | nil => simpa [Config.play] using h
  | cons x xs ih =>
    obtain ⟨hx, hxs⟩ := List.forall_mem_cons.1 hxs
    simpa [Config.play] using ih (h.turn hallow pick hx) hxs

def acts (tr : List M.Event) (t : Nat) : List (Σ a, M.Resp a) :=
  (tr.filter fun e => e.thread = t).map Event.act

@[simp] theorem acts_nil (t : Nat) : acts ([] : List M.Event) t = [] := rfl

theorem acts_eq_nil {tr : List M.Event} (h : ∀ e ∈ tr, e.thread ≠ t) : acts tr t = [] := by
  rw [acts, List.map_eq_nil_iff, List.filter_eq_nil_iff]
  intro e he
  simpa using h e he

theorem acts_append (tr tr' : List M.Event) (t : Nat) :
    acts (tr ++ tr') t = acts tr t ++ acts tr' t := by
  rw [acts, List.filter_append, List.map_append, acts, acts]

theorem acts_cons_self (e : M.Event) (tr : List M.Event) :
    acts (e :: tr) e.thread = e.act :: acts tr e.thread := by
  rw [acts, List.filter_cons, if_pos (decide_eq_true rfl), List.map_cons, acts]

theorem acts_self (tr : List M.Event) (t : Nat) (s : M.State) (a : M.Action) (b : M.Resp a) :
    acts (tr ++ [⟨t, s, a, b⟩]) t = acts tr t ++ [⟨a, b⟩] := by
  rw [acts_append]
  simp [acts, Event.act]

theorem acts_other (tr : List M.Event) (s : M.State) (a : M.Action) (b : M.Resp a) (h : u ≠ t) :
    acts (tr ++ [⟨t, s, a, b⟩]) u = acts tr u := by
  rw [acts_append]
  simp [acts, h.symm]

theorem mem_acts {x : Σ a, M.Resp a} : x ∈ acts tr t ↔ ∃ e ∈ tr, e.thread = t ∧ e.act = x := by
  simp [acts, and_assoc]

theorem Trail.after {p : M.Program} (h : Trail P g₀ tr g) (hp : g₀.pool[t]? = some p) :
    ∃ q, g.pool[t]? = some q ∧ p.After (acts tr t) q := by
  induction h with
  | nil => exact ⟨p, hp, .nil p⟩
  | @run tr g u a k c b s _ hu _ _ ih =>
    obtain ⟨q, hq, hafter⟩ := ih
    have ht : t < g.pool.length := (List.getElem?_eq_some_iff.1 hq).1
    rw [List.getElem?_append_left (by rwa [List.length_set])]
    by_cases htu : t = u
    · subst htu
      cases hu.symm.trans hq
      refine ⟨k b, List.getElem?_set_self ht, ?_⟩
      rw [acts_self]
      exact hafter.snoc b
    · refine ⟨q, (List.getElem?_set_ne (Ne.symm htu)).trans hq, ?_⟩
      rwa [acts_other _ _ _ _ htu]
  | @spawn tr g p' _ _ ih =>
    obtain ⟨q, hq, hafter⟩ := ih
    refine ⟨q, ?_, hafter⟩
    rw [Config.spawn, List.getElem?_append_left (List.getElem?_eq_some_iff.1 hq).1, hq]
  | env _ _ _ ih => exact ih

theorem sum_acts (w : (Σ a, M.Resp a) → Nat) (h : ∀ e ∈ tr, e.thread < n) :
    (tr.map fun e => w e.act).sum = ∑ t ∈ Finset.range n, ((acts tr t).map w).sum := by
  induction tr with
  | nil => simp
  | cons e tr ih =>
    obtain ⟨he, htr⟩ := List.forall_mem_cons.1 h
    have hcons : ∀ t, ((acts (e :: tr) t).map w).sum =
        (if e.thread = t then w e.act else 0) + ((acts tr t).map w).sum := by
      intro t
      by_cases ht : e.thread = t
      · simp [acts, ht]
      · simp [acts, ht]
    rw [List.map_cons, List.sum_cons, ih htr, Finset.sum_congr rfl fun t _ => hcons t,
      Finset.sum_add_distrib, Finset.sum_ite_eq, if_pos (Finset.mem_range.2 he)]

/-- How the threads of a run began, in the order of the pool: the program of each, and whether an
action has forked it. -/
structure Threads (P : M.Rules) (tr : List M.Event) (begun : List (Bool × M.Program))
    (g : M.Config) : Prop where
  length : begun.length = g.pool.length
  entry : ∀ p, (false, p) ∈ begun → P.entry p
  forked : (begun.filter Prod.fst).map Prod.snd = tr.filterMap fun e => M.fork e.action e.answer
  after : ∀ t q, g.pool[t]? = some q → ∃ x : Bool × M.Program,
    begun[t]? = some x ∧ x.2.After (acts tr t) q
  thread : ∀ e ∈ tr, e.thread < g.pool.length

theorem Threads.acts_eq_nil (h : Threads P tr begun g) (ht : g.pool.length ≤ t) :
    acts tr t = [] := by
  rw [acts, List.map_eq_nil_iff, List.filter_eq_nil_iff]
  intro e he
  have := h.thread e he
  simp only [decide_eq_true_eq]
  omega

theorem Threads.fork {p : M.Program} (h : Threads P tr begun g) (hp : (true, p) ∈ begun) :
    ∃ e ∈ tr, M.fork e.action e.answer = some p := by
  have hforked : p ∈ (begun.filter Prod.fst).map Prod.snd :=
    List.mem_map.2 ⟨(true, p), List.mem_filter.2 ⟨hp, rfl⟩, rfl⟩
  rw [h.forked] at hforked
  exact List.mem_filterMap.1 hforked

theorem Threads.sum_forked (h : Threads P tr begun g) :
    (∑ t ∈ Finset.range g.pool.length, if (begun[t]?.map Prod.fst).getD false then 1 else 0) =
      (tr.filterMap fun e => M.fork e.action e.answer).length := by
  rw [← h.forked, List.length_map, ← h.length]
  clear h
  induction begun with
  | nil => rfl
  | cons x begun ih =>
    rw [List.length_cons, Finset.sum_range_succ']
    simp only [List.getElem?_cons_succ, ih, List.getElem?_cons_zero, Option.map_some,
      Option.getD_some, List.filter_cons]
    split
    · rw [List.length_cons]
    · rfl

theorem Threads.spawn {p : M.Program} (h : Threads P tr begun g) (hp : P.entry p) :
    Threads P tr (begun ++ [(false, p)]) (g.spawn p) where
  length := by simp [Config.spawn, h.length]
  entry := by
    intro q hq
    rcases List.mem_append.1 hq with hq | hq
    · exact h.entry q hq
    · cases List.mem_singleton.1 hq
      exact hp
  forked := by
    rw [List.filter_append, List.map_append, h.forked]
    simp
  after := by
    intro t q hq
    rcases pool_spawn hq with hq | ⟨rfl, rfl⟩
    · obtain ⟨x, hx, hafter⟩ := h.after t q hq
      exact ⟨x, by rw [List.getElem?_append_left (List.getElem?_eq_some_iff.1 hx).1, hx], hafter⟩
    · refine ⟨(false, q), by rw [← h.length]; simp, ?_⟩
      rw [h.acts_eq_nil (Nat.le_refl _)]
      exact .nil q
  thread := by
    intro e he
    have := h.thread e he
    simp only [Config.spawn, List.length_append, List.length_singleton]
    omega

theorem Threads.run {t : Nat} {a : M.Action} {k : M.Resp a → M.Program} {b : M.Resp a}
    (h : Threads P tr begun g) (hp : g.pool[t]? = some (.act a k)) (s : M.State) :
    Threads P (tr ++ [⟨t, g.state, a, b⟩]) (begun ++ (M.fork a b).toList.map (Prod.mk true))
      ⟨s, g.pool.set t (k b) ++ (M.fork a b).toList⟩ where
  length := by simp [h.length]
  entry := by
    intro q hq
    rcases List.mem_append.1 hq with hq | hq
    · exact h.entry q hq
    · obtain ⟨p, -, hp⟩ := List.mem_map.1 hq
      cases hp
  forked := by
    rw [List.filter_append, List.map_append, h.forked, List.filterMap_append]
    cases hf : M.fork a b with
    | none => simp [hf]
    | some p => simp [hf]
  after := by
    have ht : t < g.pool.length := (List.getElem?_eq_some_iff.1 hp).1
    have hold : ∀ {u : Nat} {x}, begun[u]? = some x →
        (begun ++ (M.fork a b).toList.map (Prod.mk true))[u]? = some x := by
      intro u x hx
      rw [List.getElem?_append_left (List.getElem?_eq_some_iff.1 hx).1, hx]
    intro u q hq
    rcases pool_cases ht hq with ⟨rfl, rfl⟩ | ⟨hut, hq⟩ | ⟨rfl, hf⟩
    · obtain ⟨x, hx, hafter⟩ := h.after u _ hp
      refine ⟨x, hold hx, ?_⟩
      rw [acts_self]
      exact hafter.snoc b
    · obtain ⟨x, hx, hafter⟩ := h.after u q hq
      refine ⟨x, hold hx, ?_⟩
      rwa [acts_other _ _ _ _ hut]
    · refine ⟨(true, q), by rw [hf, ← h.length]; simp, ?_⟩
      rw [acts_other _ _ _ _ (by omega), h.acts_eq_nil (Nat.le_refl _)]
      exact .nil q
  thread := by
    intro e he
    simp only [List.length_append, List.length_set]
    rcases List.mem_append.1 he with he | he
    · have := h.thread e he
      omega
    · cases List.mem_singleton.1 he
      have := (List.getElem?_eq_some_iff.1 hp).1
      show t < _
      omega

theorem Trail.threads {s₀ : M.State} (h : Trail P ⟨s₀, []⟩ tr g) :
    ∃ begun, Threads P tr begun g := by
  induction h with
  | nil => exact ⟨[], rfl, nofun, rfl, fun t q hq => by simp at hq, nofun⟩
  | run _ hp _ _ ih =>
    obtain ⟨begun, ih⟩ := ih
    exact ⟨_, ih.run hp _⟩
  | spawn _ hp ih =>
    obtain ⟨begun, ih⟩ := ih
    exact ⟨_, ih.spawn hp⟩
  | env _ _ _ ih =>
    obtain ⟨begun, ih⟩ := ih
    exact ⟨begun, ih.length, ih.entry, ih.forked, ih.after, ih.thread⟩

end Interleaving.Machine
