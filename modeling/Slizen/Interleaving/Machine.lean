import Slizen.Interleaving.Program

namespace Interleaving
set_option autoImplicit true

/-- A shared-memory machine: what one atomic action of a thread does to the shared state, which
action starts a new thread, and what the environment can do by itself. A `Choice` resolves the
nondeterminism of an action; `none` means that the action cannot happen with that choice. -/
structure Machine where
  Action : Type
  Resp : Action → Type
  State : Type
  Choice : Type
  Env : Type
  exec : Nat → (a : Action) → Choice → State → Option (Resp a × State)
  fork : (a : Action) → Resp a → Option (Prog Action Resp Unit)
  env : Env → State → Option State

namespace Machine

abbrev Program (M : Machine) : Type := Prog M.Action M.Resp Unit

/-- The shared state and the threads; a thread's number is its place in the pool. -/
structure Config (M : Machine) where
  state : M.State
  pool : List M.Program

inductive Move (M : Machine) where
  | run (t : Nat) (c : M.Choice)
  | spawn (p : M.Program)
  | env (e : M.Env)

/-- Which calls, actions and environment moves a family of runs admits. -/
structure Rules (M : Machine) where
  entry : M.Program → Prop
  allow : Nat → M.Action → M.State → Prop
  external : M.Env → M.State → Prop

variable {M : Machine}

def Config.spawn (g : M.Config) (p : M.Program) : M.Config := ⟨g.state, g.pool ++ [p]⟩

def Config.next (g : M.Config) : M.Move → Option M.Config
  | .run t c =>
    match g.pool[t]? with
    | some (.act a k) =>
      match M.exec t a c g.state with
      | some (b, s) => some ⟨s, g.pool.set t (k b) ++ (M.fork a b).toList⟩
      | none => none
    | _ => none
  | .spawn p => some (g.spawn p)
  | .env e => (M.env e g.state).map fun s => ⟨s, g.pool⟩

def Rules.Admits (P : M.Rules) (g : M.Config) : M.Move → Prop
  | .run t _ => ∀ a k, g.pool[t]? = some (.act a k) → P.allow t a g.state
  | .spawn p => P.entry p
  | .env e => P.external e g.state

/-- The configurations of every run from `g₀` whose moves respect the rules. -/
inductive Reach (P : M.Rules) (g₀ : M.Config) : M.Config → Prop
  | refl : Reach P g₀ g₀
  | step {g g' : M.Config} (m : M.Move) : Reach P g₀ g → P.Admits g m → g.next m = some g' →
      Reach P g₀ g'

theorem Reach.trans {P : M.Rules} {g₀ g g' : M.Config} (h : Reach P g₀ g) (h' : Reach P g g') :
    Reach P g₀ g' := by
  induction h' with
  | refl => exact h
  | step m _ ha hn ih => exact .step m ih ha hn

def Config.Quiescent (g : M.Config) : Prop := ∀ p ∈ g.pool, p.returned = true

theorem Config.Quiescent.ret {g : M.Config} (h : g.Quiescent) (ht : t < g.pool.length) :
    ∃ y, g.pool[t]? = some (.ret y) := by
  have hret := h _ (List.getElem_mem ht)
  cases hp : g.pool[t] with
  | ret y => exact ⟨y, List.getElem?_eq_some_iff.2 ⟨ht, hp⟩⟩
  | act a p =>
    rw [hp] at hret
    cases hret

instance (g : M.Config) : Decidable g.Quiescent := inferInstanceAs (Decidable (∀ p ∈ g.pool, _))

def Config.drive (pick : M.State → M.Action → M.Choice) (t : Nat) : Nat → M.Config → M.Config
  | 0, g => g
  | n + 1, g =>
    match g.pool[t]? with
    | some (.act a _) =>
      match g.next (.run t (pick g.state a)) with
      | some g' => drive pick t n g'
      | none => g
    | _ => g

theorem Reach.drive {P : M.Rules} {g₀ g : M.Config} (h : Reach P g₀ g)
    (hallow : ∀ t a s, P.allow t a s) (pick : M.State → M.Action → M.Choice) (t n : Nat) :
    Reach P g₀ (g.drive pick t n) := by
  induction n generalizing g with
  | zero => exact h
  | succ n ih =>
    rw [Config.drive]
    split
    · split
      · rename_i a _ _ _ g' hn
        exact ih (.step (.run t (pick g.state a)) h (fun a' _ _ => hallow t a' g.state) hn)
      · exact h
    · exact h

theorem Config.next_run {g g' : M.Config} (h : g.next (.run t c) = some g') :
    ∃ a k b s, g.pool[t]? = some (.act a k) ∧ M.exec t a c g.state = some (b, s) ∧
      g' = ⟨s, g.pool.set t (k b) ++ (M.fork a b).toList⟩ := by
  simp only [Config.next] at h
  split at h
  · rename_i a k hp
    split at h
    · rename_i b s he
      cases h
      exact ⟨a, k, b, s, hp, he, rfl⟩
    · cases h
  · cases h

theorem pool_cases {pool : List M.Program} {p : M.Program} {f : Option M.Program}
    (ht : t < pool.length)
    (h : (pool.set t p ++ f.toList)[u]? = some p') :
    u = t ∧ p' = p ∨ u ≠ t ∧ pool[u]? = some p' ∨ u = pool.length ∧ f = some p' := by
  by_cases hl : u < (pool.set t p).length
  · rw [List.getElem?_append_left hl] at h
    by_cases hut : t = u
    · subst hut
      rw [List.getElem?_set_self ht] at h
      exact .inl ⟨rfl, (Option.some.inj h).symm⟩
    · rw [List.getElem?_set_ne hut] at h
      exact .inr (.inl ⟨Ne.symm hut, h⟩)
  · rw [Nat.not_lt] at hl
    rw [List.getElem?_append_right hl] at h
    rw [List.length_set] at hl h
    cases f with
    | none => simp at h
    | some p₁ =>
      simp only [Option.toList_some, List.getElem?_singleton] at h
      split at h
      · exact .inr (.inr ⟨by omega, h⟩)
      · cases h

theorem pool_spawn {pool : List M.Program} {p : M.Program} (h : (pool ++ [p])[u]? = some p') :
    pool[u]? = some p' ∨ u = pool.length ∧ p' = p := by
  by_cases hl : u < pool.length
  · rw [List.getElem?_append_left hl] at h
    exact .inl h
  · rw [Nat.not_lt] at hl
    rw [List.getElem?_append_right hl, List.getElem?_singleton] at h
    split at h
    · exact .inr ⟨by omega, (Option.some.inj h).symm⟩
    · cases h

theorem Config.next_env {g g' : M.Config} (h : g.next (.env e) = some g') :
    ∃ s, M.env e g.state = some s ∧ g' = ⟨s, g.pool⟩ := by
  obtain ⟨s, hs, rfl⟩ := Option.map_eq_some_iff.1 h
  exact ⟨s, hs, rfl⟩

/-- While the shared state is in a phase `E` that only a stopping action ends, what every thread
has still to do begins with actions that satisfy `q`. -/
theorem Reach.early {P : M.Rules} {s₀ : M.State} {E : M.State → Prop} {stop q : M.Action → Prop}
    (hentry : ∀ p, P.entry p → p.Until stop q)
    (hfork : ∀ a b p, M.fork a b = some p → p.Until stop q)
    (hact : ∀ {t a c b s s'}, M.exec t a c s = some (b, s') → E s' → E s ∧ ¬ stop a)
    (henv : ∀ {e s s'}, M.env e s = some s' → E s' → E s) {g : M.Config} {t : Nat} {p : M.Program}
    (h : Reach P ⟨s₀, []⟩ g) (hE : E g.state) (hp : g.pool[t]? = some p) : p.Until stop q := by
  induction h generalizing t p with
  | refl => simp at hp
  | @step g g' m _ ha hn ih =>
    cases m with
    | run u c =>
      obtain ⟨a, k, b, s, hu, he, rfl⟩ := Config.next_run hn
      obtain ⟨hE₀, hstop⟩ := hact he hE
      rcases pool_cases (List.getElem?_eq_some_iff.1 hu).1 hp with ⟨rfl, rfl⟩ | ⟨-, hp⟩ | ⟨-, hf⟩
      · exact ((ih hE₀ hu).resolve_left hstop).2 b
      · exact ih hE₀ hp
      · exact hfork a b p hf
    | spawn p' =>
      cases hn
      rcases pool_spawn hp with hp | ⟨-, rfl⟩
      · exact ih hE hp
      · exact hentry p ha
    | env e =>
      obtain ⟨s, he, rfl⟩ := Config.next_env hn
      exact ih (henv he hE) hp

/-- In a machine whose state records what each thread has done, the record of a thread leads from
the program it was started with to the one it stands at. -/
theorem Reach.after {P : M.Rules} {s₀ : M.State} (acts : M.State → Nat → List (Σ a, M.Resp a))
    (h₀ : ∀ t, acts s₀ t = [])
    (hown : ∀ {t a c b s s'}, M.exec t a c s = some (b, s') → acts s' t = acts s t ++ [⟨a, b⟩])
    (hother : ∀ {t a c b s s' u}, M.exec t a c s = some (b, s') → u ≠ t → acts s' u = acts s u)
    (henv : ∀ {e s s'}, M.env e s = some s' → acts s' = acts s) {g : M.Config}
    (h : Reach P ⟨s₀, []⟩ g) :
    (∀ u, g.pool.length ≤ u → acts g.state u = []) ∧ ∀ t q, g.pool[t]? = some q →
      ∃ p, (P.entry p ∨ ∃ a b, M.fork a b = some p) ∧ p.After (acts g.state t) q := by
  induction h with
  | refl => exact ⟨fun u _ => h₀ u, fun t q hq => by simp at hq⟩
  | @step g g' m hg ha hn ih =>
    obtain ⟨hfresh, hpool⟩ := ih
    cases m with
    | run t c =>
      obtain ⟨a, k, b, s, hp, he, rfl⟩ := Config.next_run hn
      have ht : t < g.pool.length := (List.getElem?_eq_some_iff.1 hp).1
      have hlen : ∀ u, g.pool.length ≤ u → acts s u = [] := by
        intro u hu
        rw [hother he (by omega)]
        exact hfresh u hu
      refine ⟨fun u hu => hlen u ?_, fun u q hq => ?_⟩
      · simp only [List.length_append, List.length_set] at hu
        omega
      · rcases pool_cases ht hq with ⟨rfl, rfl⟩ | ⟨hut, hq⟩ | ⟨rfl, hf⟩
        · obtain ⟨p, hp₀, hafter⟩ := hpool u _ hp
          refine ⟨p, hp₀, ?_⟩
          rw [hown he]
          exact hafter.snoc b
        · obtain ⟨p, hp₀, hafter⟩ := hpool u q hq
          refine ⟨p, hp₀, ?_⟩
          rwa [hother he hut]
        · refine ⟨q, .inr ⟨a, b, hf⟩, ?_⟩
          rw [hlen _ (Nat.le_refl _)]
          exact .nil q
    | spawn p =>
      cases hn
      refine ⟨fun u hu => hfresh u ?_, fun u q hq => ?_⟩
      · simp only [Config.spawn, List.length_append, List.length_singleton] at hu
        omega
      · rcases pool_spawn hq with hq | ⟨rfl, rfl⟩
        · exact hpool u q hq
        · refine ⟨q, .inl ha, ?_⟩
          rw [show acts (g.spawn q).state _ = _ from hfresh _ (Nat.le_refl _)]
          exact .nil q
    | env e =>
      obtain ⟨s, he, rfl⟩ := Config.next_env hn
      refine ⟨fun u hu => ?_, fun u q hq => ?_⟩
      · rw [henv he]
        exact hfresh u hu
      · obtain ⟨p, hp₀, hafter⟩ := hpool u q hq
        refine ⟨p, hp₀, ?_⟩
        rwa [henv he]

end Machine
end Interleaving
