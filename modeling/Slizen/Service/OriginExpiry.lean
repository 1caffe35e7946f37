import Slizen.Service.Residency

namespace Slizen.Service
set_option autoImplicit true

open Interleaving Machine

variable {svc : Service} {direct : Bool} {content : Key → Option Bytes} {s s' : World} {t : Nat}
  {a : Action} {b : a.Resp} {c : Choice} {g : svc.machine.Config} {tr : List svc.machine.Event}

/-- The goroutine has found a candidate under the key, the last one it has found, after the first
part of the run. -/
def HeldSince (tr tr₁ : List svc.machine.Event) (u : Nat) (k : Key) (v : Blob) (exp : Time) :
    Prop :=
  ∃ f tr₂ item, tr = tr₁ ++ f :: tr₂ ∧ f.thread = u ∧
    f.act = ⟨.cache .probationary (.get k), some item⟩ ∧ item.value = v ∧ item.expiresAt = exp ∧
    ∀ x ∈ tr₂, x.thread = u → ¬ FindsCandidate x.act

theorem HeldSince.snoc {tr₁ : List svc.machine.Event} {x : svc.machine.Event}
    (h : HeldSince tr tr₁ u k v exp) (hx : x.thread = u → ¬ FindsCandidate x.act) :
    HeldSince (tr ++ [x]) tr₁ u k v exp := by
  obtain ⟨f, tr₂, item, rfl, hthread, hact, hvalue, hexp, hlast⟩ := h
  refine ⟨f, tr₂ ++ [x], item, by simp, hthread, hact, hvalue, hexp, ?_⟩
  rw [List.forall_mem_append]
  exact ⟨hlast, by simpa using hx⟩

/-- What is in a tier under a key after a run goes back to the installation `e₀`: it was put there,
or a candidate that goes back to `e₀` was promoted, and nothing has been stored in its place. -/
inductive GoesBack : List svc.machine.Event → Tier → Key → svc.machine.Event → Prop
  | put {tr : List svc.machine.Event} {e : svc.machine.Event} {tier : Tier} {k : Key} {v : Blob}
      {ttl : Time} : e.act = ⟨.cache tier (.put k v ttl), true⟩ → GoesBack (tr ++ [e]) tier k e
  | promote {tr tr₁ : List svc.machine.Event} {e e₀ : svc.machine.Event} {k : Key} {v : Blob}
      {exp : Time} : e.act = ⟨.cache .cache (.putUntil k v exp), true⟩ →
      HeldSince tr tr₁ e.thread k v exp → GoesBack tr₁ .probationary k e₀ →
      GoesBack (tr ++ [e]) .cache k e₀
  | keep {tr : List svc.machine.Event} {e e₀ : svc.machine.Event} {tier : Tier} {k : Key} :
      ¬ Stores tier k e.act → GoesBack tr tier k e₀ → GoesBack (tr ++ [e]) tier k e₀

theorem GoesBack.mem {tr : List svc.machine.Event} {e₀ : svc.machine.Event}
    (h : GoesBack tr tier k e₀) : e₀ ∈ tr := by
  induction h with
  | put => exact List.mem_append_right _ (List.mem_singleton_self _)
  | promote _ hfound _ ih =>
    obtain ⟨f, tr₂, item, rfl, -⟩ := hfound
    exact List.mem_append_left _ (List.mem_append_left _ ih)
  | keep _ _ ih => exact List.mem_append_left _ ih

structure PutAt (e : svc.machine.Event) (k : Key) (v : Blob) (time : Time) : Prop where
  clock : e.before.clock = time
  put : ∃ tier ttl, e.act = ⟨.cache tier (.put k v ttl), true⟩

/-- Every entry, and every candidate that is carried over, goes back to an installation at the time
that the history says. -/
structure Documented (tr : List svc.machine.Event) (s : World) : Prop where
  entry : ∀ tier k e, s.find tier k = some e →
    ∃ e₀, GoesBack tr tier k e₀ ∧ PutAt e₀ k e.value (s.past.lodged tier k).time
  carried : ∀ u x, (s.trace u).carried = some x →
    ∃ tr₁ e₀, HeldSince tr tr₁ u x.key x.value x.expiresAt ∧ GoesBack tr₁ .probationary x.key e₀ ∧
      PutAt e₀ x.key x.value x.lodging.time

theorem Documented.act (h : Documented tr s) (hp : svc.Pre t a s)
    (he : World.exec t a c s = some (b, s')) : Documented (tr ++ [⟨t, s, a, b⟩]) s' where
  entry := by
    intro tier k e hf
    rcases lodged_cases hp he hf with ⟨hno, e₀, hf₀, hs, hl⟩ | ⟨ttl, hact, -, hl⟩ | ⟨rfl, hact, hc⟩
    · rw [hs.value, hl]
      obtain ⟨x, hback, hput⟩ := h.entry tier k e₀ hf₀
      exact ⟨x, .keep hno hback, hput⟩
    · refine ⟨⟨t, s, a, b⟩, .put hact, ?_, tier, ttl, hact⟩
      rw [hl]
    · obtain ⟨tr₁, x, hfound, hback, hput⟩ := h.carried t _ hc
      exact ⟨x, .promote hact hfound hback, hput⟩
  carried := by
    intro u x hc
    rcases carried_source he hc with ⟨hc₀, hno⟩ | ⟨rfl, e, item, hf, hx, hact, hvalue, hexp⟩
    · obtain ⟨tr₁, e₀, hfound, hrest⟩ := h.carried u x hc₀
      exact ⟨tr₁, e₀, hfound.snoc fun hu => hno hu.symm, hrest⟩
    · obtain ⟨e₀, hback, hput⟩ := h.entry .probationary x.key e hf
      refine ⟨tr, e₀, ⟨_, [], item, rfl, rfl, hact, hvalue, hexp, by simp⟩, hback, ?_⟩
      rw [hx]
      exact hput

theorem documented (h : Trail (svc.calls direct) ⟨svc.init content, []⟩ tr g) :
    Documented tr g.state := by
  apply h.invariant (J := fun tr (s : World) => Documented tr s)
  · refine ⟨fun tier k e hf => ?_, nofun⟩
    cases tier <;> cases hf
  · intro tr g t a k c b s hreach hp hd he
    exact hd.act (Reachable.verified hreach |>.pre hreach hp) he
  · intro tr e s s' hd he
    rw [World.env_eq he]
    exact ⟨hd.entry, hd.carried⟩

def FindsFresh (e : svc.machine.Event) (tier : Tier) (k : Key) (item : EntrySnapshot) : Prop :=
  e.act = ⟨.cache tier (.get k), some item⟩ ∨
    tier = .cache ∧ e.act = ⟨.cache .cache (.getStale k 0), some item⟩

/-- A fresh local hit does not outlive the PTTL of its upstream reply, counted from the local
installation of the reply to which what is in the tier goes back: a promotion between the tiers
does not repeat the installation. -/
theorem fresh_hit_expiry (h : Trail (svc.calls direct) ⟨svc.init content, []⟩ tr g)
    (htr : tr = tr₁ ++ e :: tr₂) (hfind : FindsFresh e tier k item)
    (hp : 0 < item.value.source.pttl) :
    ∃ e₀ ∈ tr₁, GoesBack tr₁ tier k e₀ ∧
      (∃ tier₀ ttl, e₀.act = ⟨.cache tier₀ (.put k item.value ttl), true⟩) ∧
      e.before.clock < e₀.before.clock + item.value.source.pttl := by
  obtain ⟨t, before, a, b⟩ := e
  obtain ⟨g₁, g₂, c, k', htr₁, rfl, -, -, hexec, -⟩ := h.split htr
  have hexec : World.exec t a c g₁.state = some (b, g₂.state) := hexec
  obtain ⟨ent, hf, rfl, hlt⟩ : ∃ ent, g₁.state.find tier k = some ent ∧
      item = { ent with lastAccess := g₁.state.clock }.snapshot k g₁.state.clock ∧
      g₁.state.clock < ent.expiresAt := by
    rcases hfind with hact | ⟨rfl, hact⟩
    · cases hact
      exact Cache.getLocked_hit (World.exec_cache hexec).1.symm
    · cases hact
      exact Cache.getLocked_hit (World.exec_cache hexec).1.symm
  obtain ⟨e₀, hback, htime, hput⟩ := (documented htr₁).entry tier k ent hf
  refine ⟨e₀, hback.mem, hback, hput, ?_⟩
  rw [htime]
  exact hlt.trans_le (((Reachable.resident htr₁.reach).entry tier k ent hf).pttl hp)

def pickExpiring (s : World) : Action → Choice
  | .upstream (.answer _ keys) => .values (keys.map fun _ => (s.origin.version, 5))
  | a => pick s a

/-- The reply of a flight is installed three nanoseconds after the origin has answered it, and read
again three nanoseconds later. -/
def delayedInstall : List Cue :=
  [.call (.get [7]), .go 0 100, .go 1 3, .env (.tick 3), .go 1 100, .go 0 100, .env (.tick 3),
    .call (.get [7]), .go 2 100]

def replyAt (e : svc.machine.Event) : Option (Key × Value × Time) :=
  match (e.act : Σ a, Action.Resp a) with
  | ⟨.upstream (.answer _ [k]), .ok [v]⟩ => some (k, v, e.before.clock)
  | _ => none

def hitAt (tier : Tier) (e : svc.machine.Event) : Option (Key × EntrySnapshot × Time) :=
  match (e.act : Σ a, Action.Resp a) with
  | ⟨.cache tier' (.get k), some item⟩ =>
    if tier' = tier then some (k, item, e.before.clock) else none
  | _ => none

theorem replyAt_eq {e : svc.machine.Event} (h : replyAt e = some (k, v, time)) :
    (∃ i, e.act = ⟨.upstream (.answer i [k]), .ok [v]⟩) ∧ e.before.clock = time := by
  unfold replyAt at h
  split at h
  · rename_i hact
    cases h
    exact ⟨⟨_, hact⟩, rfl⟩
  · cases h

theorem hitAt_eq {e : svc.machine.Event} (h : hitAt tier e = some (k, item, time)) :
    FindsFresh e tier k item ∧ e.before.clock = time := by
  unfold hitAt at h
  split at h
  · rename_i hact
    split at h
    · rename_i htier
      subst htier
      cases h
      exact ⟨.inl hact, rfl⟩
    · cases h
  · cases h

/-- The first upstream reply, and the last hit, which is later than the reply's PTTL allows. -/
def outlived (tr : List svc.machine.Event) : Bool :=
  match tr.findSome? replyAt, tr.reverse.findSome? (hitAt .probationary) with
  | some (k, v, time), some (k', item, time') =>
    k = k' && v.data = item.value && 0 < v.pttl && time + v.pttl ≤ time'
  | _, _ => false

/-- The local TTL is counted from the installation, so a delay before it lets a hit outlive the
key at the origin. -/
theorem origin_outlived : ∃ (tr : List sample.machine.Event) (g : sample.machine.Config),
    Trail (sample.calls false) sampleStart tr g ∧
      ∃ e ∈ tr, ∃ e' ∈ tr, ∃ i tier k v item, e.act = ⟨.upstream (.answer i [k]), .ok [v]⟩ ∧
        0 < v.pttl ∧ FindsFresh e' tier k item ∧ item.value = v.data ∧
          e.before.clock + v.pttl ≤ e'.before.clock := by
  refine ⟨_, _, schedule_trail pickExpiring (l := delayedInstall) (by decide), ?_⟩
  have hlate : outlived
      (sample.schedule (fun _ => some [0]) pickExpiring delayedInstall).2 = true :=
    by decide +kernel
  unfold outlived at hlate
  split at hlate
  · rename_i k v time k' item time' hreply hhit
    obtain ⟨e, he, hreply⟩ := List.exists_of_findSome?_eq_some hreply
    obtain ⟨e', he', hhit⟩ := List.exists_of_findSome?_eq_some hhit
    obtain ⟨⟨i, hact⟩, rfl⟩ := replyAt_eq hreply
    obtain ⟨hfresh, rfl⟩ := hitAt_eq hhit
    simp only [Bool.and_eq_true, decide_eq_true_eq] at hlate
    obtain ⟨⟨⟨rfl, hdata⟩, hpos⟩, hle⟩ := hlate
    exact ⟨e, he, e', List.mem_reverse.1 he', i, _, k, v, item, hact, hpos, hfresh, hdata.symm, hle⟩
  · cases hlate

/-- The second read promotes the value, and a third one finds it in the protected tier. -/
def promotedInstall : List Cue := delayedInstall ++ [.call (.get [7]), .go 3 100]

def putsProtected (e : svc.machine.Event) : Bool :=
  match (e.act : Σ a, Action.Resp a) with
  | ⟨.cache .cache (.put _ _ _), _⟩ => true
  | _ => false

theorem fresh_hit_expiry_sample : ∃ (tr₁ tr₂ : List sample.machine.Event)
    (e e₀ : sample.machine.Event) (item : EntrySnapshot),
    (sample.schedule (fun _ => some [0]) pickExpiring promotedInstall).2 = tr₁ ++ e :: tr₂ ∧
    FindsFresh e .cache [7] item ∧ item.value.source.pttl = 5 ∧ GoesBack tr₁ .cache [7] e₀ ∧
    (∃ ttl, e₀.act = ⟨.cache .probationary (.put [7] item.value ttl), true⟩) ∧
    e.before.clock < e₀.before.clock + 5 := by
  have htr : Trail (sample.calls false) sampleStart _ _ :=
    schedule_trail pickExpiring (l := promotedInstall) (by decide)
  generalize hrun : (sample.schedule (fun _ => some [0]) pickExpiring promotedInstall).2 = tr at htr
  have hlast : (tr.reverse.findSome? (hitAt .cache)).map (fun x => (x.1, x.2.1.value.source.pttl)) =
      some ([7], 5) ∧ tr.any putsProtected = false := by
    rw [← hrun]
    decide +kernel
  obtain ⟨hlast, hnone⟩ := hlast
  obtain ⟨⟨k, item, time⟩, hhit, hitem⟩ := Option.map_eq_some_iff.1 hlast
  obtain ⟨rfl, hpttl⟩ : k = [7] ∧ item.value.source.pttl = 5 := by simpa using hitem
  obtain ⟨e, he, hfind⟩ := List.exists_of_findSome?_eq_some hhit
  obtain ⟨tr₁, tr₂, rfl⟩ := List.append_of_mem (List.mem_reverse.1 he)
  obtain ⟨hfresh, -⟩ := hitAt_eq hfind
  obtain ⟨e₀, he₀, hback, ⟨tier₀, ttl, hput⟩, hlt⟩ :=
    fresh_hit_expiry htr rfl hfresh (by rw [hpttl]; decide)
  refine ⟨tr₁, tr₂, e, e₀, item, rfl, hfresh, hpttl, hback, ?_, hpttl ▸ hlt⟩
  cases tier₀ with
  | probationary => exact ⟨ttl, hput⟩
  | cache =>
    have hno := List.any_eq_false.1 hnone e₀ (List.mem_append_left _ he₀)
    have hact : (e₀.act : Σ a, Action.Resp a) = _ := hput
    rw [putsProtected, hact] at hno
    exact absurd rfl hno

end Slizen.Service
