import Slizen.Service.Barriers

namespace Slizen
set_option autoImplicit true

open Interleaving Machine

/-- A goroutine does not mind that a payload of this version is installed for the key: it is not a
write of the key that has invalidated it and is still to be sent, or that was sent after the version
and has not cleared the key since. -/
def Trace.Admits (tr : Trace) (k : Key) (version : Nat) : Prop :=
  k ∈ tr.writeKeys → match tr.dispatched with
    | none => k ∉ tr.cleared
    | some d => k ∈ tr.cleared ∨ d.version ≤ version

instance (tr : Trace) (k : Key) (version : Nat) : Decidable (tr.Admits k version) :=
  have : Decidable (match tr.dispatched with
      | none => k ∉ tr.cleared
      | some d => k ∈ tr.cleared ∨ d.version ≤ version) :=
    match tr.dispatched with
    | none => inferInstanceAs (Decidable (k ∉ tr.cleared))
    | some d => inferInstanceAs (Decidable (k ∈ tr.cleared ∨ d.version ≤ version))
  inferInstanceAs (Decidable (_ → _))

def Action.Spares (a : Action) (tr : Trace) : Prop :=
  match a with
  | .cache _ (.put k v _) => tr.Admits k v.source.version
  | _ => True

instance (a : Action) (tr : Trace) : Decidable (a.Spares tr) :=
  match a with
  | .cache _ (.put k v _) => inferInstanceAs (Decidable (tr.Admits k v.source.version))
  | .cache _ (.get _) | .cache _ (.getStale _ _) | .cache _ (.inspect _) | .cache _ (.delete _)
  | .cache _ (.putUntil _ _ _) | .cache _ .purge | .cache _ .stats | .cache _ .close
  | .tracker _ | .stripe _ _ | .gate _ _ | .group _ | .upstream _ | .record _ | .counters | .now
  | .ctxErr | .closeSwap | .note _ => isTrue trivial

def Action.spares (a : Action) (tr : Trace) : Bool := decide (a.Spares tr)

theorem Action.spares_iff {a : Action} {tr : Trace} : a.spares tr = true ↔ a.Spares tr :=
  decide_eq_true_iff

theorem Action.spares_empty (a : Action) : a.Spares {} := by
  unfold Spares
  split
  · exact fun hk => absurd hk List.not_mem_nil
  · trivial

def Action.Timely (a : Action) (s : World) : Prop := ∀ w, a.Spares (s.trace w)

namespace Service

/-- The runs in which nothing is installed for a key while a write of the key minds it. -/
def timely (svc : Service) (direct : Bool) : svc.machine.Rules where
  entry := svc.IsCall
  allow := fun _ a s => a.Timely s
  external := (svc.calls direct).external

variable {svc : Service} {direct : Bool} {content : Key → Option Bytes} {g g₁ : svc.machine.Config}
  {s s' : World} {t u v f : Nat} {k : Key} {a : Action} {b : a.Resp} {c : Choice} {d m : Moment}
  {x : Seen}

def Ahead (s : World) (k : Key) (payload : Blob) : Prop := ∀ t d,
  (s.trace t).dispatched = some d → k ∈ (s.trace t).sent → d.version ≤ payload.source.version

structure Poised (s : World) (t : Nat) (k : Key) : Prop where
  key : k ∈ (s.trace t).writeKeys
  unsent : (s.trace t).dispatched = none
  cleared : k ∈ (s.trace t).cleared

/-- What timely actions keep: no entry is older than a write of its key, and while a write is to be
sent there are no entries of its keys. -/
structure Timed (s : World) : Prop extends Shared s where
  active : ∀ t j, (s.trace t).call = some j → (s.trace t).job = some j ∨ (s.trace t).done ≠ none
  entries : ∀ tier k e, s.find tier k = some e → Ahead s k e.value
  hands : ∀ u x, (s.trace u).carried = some x → s.Owns u (cacheEpochStripe x.key) →
    Ahead s x.key x.value
  empty : ∀ t k tier, Poised s t k → s.find tier k = none
  free : ∀ t k u x, Poised s t k → (s.trace u).carried = some x →
    s.Owns u (cacheEpochStripe x.key) → x.key ≠ k

namespace Timed

theorem active_act (h : Timed s) (hp : svc.Pre v a s) (he : World.exec v a c s = some (b, s'))
    (hcall : (s'.trace t).call = some j) :
    (s'.trace t).job = some j ∨ (s'.trace t).done ≠ none := by
  rcases trace_cases hp he t with hsame | ⟨rfl, hc⟩
  · rw [hsame] at hcall ⊢
    exact h.active t j hcall
  · rcases hc.job_cases with ⟨hjob, hdone⟩ | ⟨-, -, job, ha, hjob⟩ | ⟨reply, -, -, -, hdone⟩
    · rw [hjob, hdone]
      rcases hc.call_cases with ⟨hsame, -⟩ | ⟨-, job, -, htr⟩
      · exact h.active t j (hsame.symm.trans hcall)
      · rw [htr] at hjob hcall
        exact .inl (hjob.symm.trans hcall)
    · left
      rcases hc.call_cases with ⟨hsame, -⟩ | ⟨-, job', ha', htr⟩
      · subst ha
        rw [World.exec_trace he] at hcall ⊢
        exact hcall
      · rw [htr] at hcall ⊢
        exact hcall
    · right
      rw [hdone]
      exact nofun

theorem writing (h : Timed s) (hd : (s.trace t).dispatched = some d) (hk : k ∈ (s.trace t).sent)
    (hcleared : k ∉ (s.trace t).cleared) : k ∈ (s.trace t).writeKeys := by
  obtain ⟨command, args, hcall⟩ := h.write t d hd
  rcases h.active t _ hcall with hjob | hdone
  · rw [Trace.writeKeys, hjob]
    exact hk
  · have hconcluded := h.concluded t hdone
    rw [Trace.Concluded, hcall] at hconcluded
    apply absurd _ hcleared
    apply h.forgotten t k
    apply hconcluded _ k hk
    rw [hd]
    simp

theorem installs {payload : Blob} (h : Timed s) (hv : svc.Installs s u k payload)
    (ha : ∀ w, (s.trace w).Admits k payload.source.version) : Ahead s k payload := by
  intro t d hd hk
  by_cases hcleared : k ∈ (s.trace t).cleared
  · exact (h.toCoherent.installs hv).writes t d hd hcleared
  · have hadmits := ha t (h.writing hd hk hcleared)
    rw [hd] at hadmits
    exact hadmits.resolve_left hcleared

theorem poised_dispatch {command : Bytes} {args keys : List Bytes}
    (hp : svc.Pre t (.upstream (.dispatch command args keys)) s) (hk : k ∈ keys) :
    Poised s t k where
  key := by
    rw [Trace.writeKeys, hp.1]
    exact hk
  unsent := hp.2.2.1
  cleared := hp.2.2.2 k hk

theorem poised_before (hp : svc.Pre v a s) (he : World.exec v a c s = some (b, s'))
    (h : Poised s' t k) : Poised s t k ∨ t = v ∧ a = .note (.cleared k) ∧
      (s.trace t).dispatched = none := by
  have hunsent : (s.trace t).dispatched = none := by
    rw [Option.eq_none_iff_forall_ne_some]
    intro d hd
    cases (dispatched_kept hp he hd).1.symm.trans h.unsent
  rcases trace_cases hp he t with hsame | ⟨rfl, hc⟩
  · obtain ⟨hk, -, hcleared⟩ := h
    rw [hsame] at hk hcleared
    exact .inl ⟨hk, hunsent, hcleared⟩
  · rcases hc.cleared_cases h.cleared with ⟨hcleared, -⟩ | ⟨ha, -⟩
    · left
      refine ⟨?_, hunsent, hcleared⟩
      rcases hc.job_cases with ⟨hjob, -⟩ | ⟨hnew, -⟩ | ⟨reply, -, -, hnone, -⟩
      · have hk := h.key
        rw [Trace.writeKeys, hjob] at hk
        exact hk
      · rw [hnew] at hcleared
        cases hcleared
      · have hk := h.key
        rw [Trace.writeKeys, hnone] at hk
        cases hk
    · exact .inr ⟨rfl, ha, hunsent⟩

theorem ahead_act {payload : Blob} (ha : Ahead s k payload) (hp : svc.Pre v a s)
    (he : World.exec v a c s = some (b, s')) (hunsent : ¬ Poised s v k) : Ahead s' k payload := by
  intro t d hd hk
  rcases dispatched_before hp he hd with ⟨hd₀, hsent, -⟩ | ⟨rfl, -, -, command, args, hact⟩
  · rw [hsent] at hk
    exact ha t d hd₀ hk
  · generalize (s'.trace t).sent = keys at hact hk
    subst hact
    exact absurd (poised_dispatch hp hk) hunsent

section

variable (hp : svc.Pre v a s) (he : World.exec v a c s = some (b, s')) (h : Timed s)
include hp he h

theorem entries_act (ht : a.Timely s) (hf : s'.find tier k = some e) : Ahead s' k e.value := by
  have hcache : ∀ {tier' op payload}, a = .cache tier' op → Ahead s k payload →
      Ahead s' k payload := by
    rintro tier' op payload rfl hahead t d hd hk
    rcases dispatched_before hp he hd with ⟨hd₀, hsent, -⟩ | ⟨-, -, -, command, args, hact⟩
    · rw [hsent] at hk
      exact hahead t d hd₀ hk
    · cases hact
  rcases find_cases hp he hf with ⟨e₀, hf₀, hsame⟩ | ⟨howns, ⟨ttl, ha, hv⟩ | ⟨ha, l, hl⟩⟩
  · rw [hsame.value]
    apply ahead_act (h.entries tier k e₀ hf₀) hp he
    intro hpoised
    rw [h.empty v k tier hpoised] at hf₀
    cases hf₀
  · apply hcache ha
    subst ha
    exact h.installs hv ht
  · exact hcache ha (h.hands v _ hl howns)

theorem hands_act (hi : svc.Base s) {y : Candidate} (hx : (s'.trace u).carried = some y)
    (ho : s'.Owns u (cacheEpochStripe y.key)) : Ahead s' y.key y.value := by
  rcases carried_cases hi hp he hx ho with ⟨e, hf, hv⟩ | ⟨hx₀, ho₀, -⟩
  · rw [← hv]
    apply ahead_act (h.entries .probationary y.key e hf) hp he
    intro hpoised
    rw [h.empty v y.key .probationary hpoised] at hf
    cases hf
  · apply ahead_act (h.hands u y hx₀ ho₀) hp he
    intro hpoised
    exact h.free v y.key u y hpoised hx₀ ho₀ rfl

theorem empty_act (ht : a.Timely s) (hpoised : Poised s' t k) (tier : Tier) :
    s'.find tier k = none := by
  rw [Option.eq_none_iff_forall_ne_some]
  intro e hf
  rcases poised_before hp he hpoised with hold | ⟨rfl, rfl, hunsent⟩
  · rcases find_cases hp he hf with ⟨e₀, hf₀, -⟩ | ⟨howns, ⟨ttl, rfl, -⟩ | ⟨rfl, l, hl⟩⟩
    · rw [h.empty t k tier hold] at hf₀
      cases hf₀
    · have hadmits := ht t hold.key
      rw [hold.unsent] at hadmits
      exact hadmits hold.cleared
    · exact h.free t k v _ hold hl howns rfl
  · rcases find_cases hp he hf with ⟨e₀, hf₀, -⟩ | ⟨-, ⟨ttl, ha, -⟩ | ⟨ha, -⟩⟩
    · obtain ⟨d, hd, -⟩ := hp.entries tier e₀ hf₀
      cases hunsent.symm.trans hd
    · cases ha
    · cases ha

theorem free_act (hi : svc.Base s) (hpoised : Poised s' t k) {y : Candidate}
    (hx : (s'.trace u).carried = some y) (ho : s'.Owns u (cacheEpochStripe y.key)) : y.key ≠ k := by
  rintro rfl
  rcases poised_before hp he hpoised with hold | ⟨-, ha, -⟩
  · rcases carried_cases hi hp he hx ho with ⟨e, hf, -⟩ | ⟨hx₀, ho₀, -⟩
    · rw [h.empty t y.key .probationary hold] at hf
      cases hf
    · exact h.free t y.key u y hold hx₀ ho₀ rfl
  · exact (carried_uncleared hp he hx ho).1 ha

end

theorem act (h : Timed s) (hi : svc.Base s) (ht : a.Timely s) (hp : svc.Pre v a s)
    (he : World.exec v a c s = some (b, s')) : Timed s' where
  toShared := h.toShared.act hi hp he
  active := fun _ _ hcall => h.active_act hp he hcall
  entries := fun _ _ _ hf => h.entries_act hp he ht hf
  hands := fun _ _ hx ho => h.hands_act hp he hi hx ho
  empty := fun _ _ tier hpoised => h.empty_act hp he ht hpoised tier
  free := fun _ _ _ _ hpoised hx ho => h.free_act hp he hi hpoised hx ho

theorem env (h : Timed s) (he : s.env e = some s') : Timed s' := by
  have hshared := h.toShared.env he
  obtain ⟨clock, contexts, origin, -, rfl⟩ := World.env_later he
  exact
    { toShared := hshared
      active := h.active
      entries := h.entries
      hands := h.hands
      empty := fun t k tier hp => h.empty t k tier ⟨hp.key, hp.unsent, hp.cleared⟩
      free := fun t k u x hp => h.free t k u x ⟨hp.key, hp.unsent, hp.cleared⟩ }

theorem init (svc : Service) (content : Key → Option Bytes) : Timed (svc.init content) where
  toShared := shared_init svc content
  active := nofun
  entries := by
    intro tier k e hf
    cases tier <;> cases hf
  hands := nofun
  empty := by
    rintro t k tier ⟨hk, -⟩
    cases hk
  free := by
    rintro t k u x ⟨hk, -⟩
    cases hk

end Timed

/-- The origin has held this payload of the key at the version `n` or later. -/
structure Upto (s : World) (n : Nat) (k : Key) (payload : Blob) : Prop where
  since : n ≤ payload.source.version
  version : payload.source.version ≤ s.origin.version
  content : s.origin.content payload.source.version k = some payload.bytes

theorem Upto.later {payload : Blob} {o : World} (h : Upto s n k payload)
    (hl : s.origin.Later o.origin) : Upto o n k payload :=
  ⟨h.since, h.version.trans hl.version, (hl.content _ _ h.version).trans h.content⟩

/-- The state after the write `t` of the key was sent, as far as it matters to a goroutine `u` that
starts later. -/
structure Sent (t u : Nat) (k : Key) (d : Moment) (s : World) : Prop extends Timed s where
  dispatch : (s.trace t).dispatched = some d
  names : k ∈ (s.trace t).sent
  looks : ∀ x ∈ (s.trace u).seen, x.key = k → x.via = .tier → Upto s d.version k x.value.data
  hits : ∀ m reply job a, (s.trace u).done = some (m, reply) → (s.trace u).call = some job →
    (k, a) ∈ job.answers reply → a.via = .tier → Upto s d.version k a.value.data

namespace Sent

theorem looks_act (h : Sent t u k d s) (hp : svc.Pre v a s)
    (he : World.exec v a c s = some (b, s')) (hx : x ∈ (s'.trace u).seen) (hk : x.key = k)
    (hvia : x.via = .tier) : Upto s' d.version k x.value.data := by
  have hlater := origin_later he
  rcases seen_cases hp he hx with hx₀ | ⟨rfl, hsees⟩
  · exact (h.looks x hx₀ hk hvia).later hlater
  · cases hsees with
    | tier hf ttl =>
      subst hk
      have hfresh := h.entry _ _ _ hf
      have hahead := h.entries _ _ _ hf t d h.dispatch h.names
      exact (Upto.mk hahead hfresh.version hfresh.held).later hlater
    | _ => cases hvia

theorem hits_act {answer : Answer} {reply : Reply} {job : Job} (h : Sent t u k d s)
    (hp : svc.Pre v a s) (he : World.exec v a c s = some (b, s'))
    (hd : (s'.trace u).done = some (m, reply)) (hcall : (s'.trace u).call = some job)
    (ha : (k, answer) ∈ job.answers reply) (hvia : answer.via = .tier) :
    Upto s' d.version k answer.value.data := by
  have hlater := origin_later he
  by_cases hd₀ : (s.trace u).done = none
  · obtain ⟨hret, -⟩ := returned_now h.toOrderly hp he hd₀ hd hcall
    exact (h.looks _ (answers_seen hret ha) rfl hvia).later hlater
  · have hfrozen := frozen h.toOrderly hp he hd₀
    rw [hfrozen.done] at hd
    rw [hfrozen.call] at hcall
    exact (h.hits m reply job answer hd hcall ha hvia).later hlater

theorem act (h : Sent t u k d s) (hi : svc.Base s) (ht : a.Timely s) (hp : svc.Pre v a s)
    (he : World.exec v a c s = some (b, s')) : Sent t u k d s' where
  toTimed := h.toTimed.act hi ht hp he
  dispatch := (dispatched_kept hp he h.dispatch).1
  names := by
    rcases dispatched_before hp he (dispatched_kept hp he h.dispatch).1 with
      ⟨-, hsent, -⟩ | ⟨rfl, -, -, command, args, ha⟩
    · rw [hsent]
      exact h.names
    · generalize (s'.trace t).sent = keys at ha
      subst ha
      cases h.dispatch.symm.trans hp.2.2.1
  looks := fun _ hx hk hvia => h.looks_act hp he hx hk hvia
  hits := fun _ _ _ _ hd hcall ha hvia => h.hits_act hp he hd hcall ha hvia

theorem env (h : Sent t u k d s) (he : s.env e = some s') : Sent t u k d s' := by
  have htimed := h.toTimed.env he
  obtain ⟨clock, contexts, origin, hl, rfl⟩ := World.env_later he
  exact
    { toTimed := htimed
      dispatch := h.dispatch
      names := h.names
      looks := fun x hx hk hvia => (h.looks x hx hk hvia).later hl
      hits := fun m reply job a hd hcall ha hvia =>
        (h.hits m reply job a hd hcall ha hvia).later hl }

end Sent

/-- No stale hit during a write. In every run in which no payload is installed for a key that is
older than a write of the key which has invalidated it and not yet cleared it again, whoever starts
after such a write has taken effect and is answered from a tier gets a value that the origin has
held since the effect. -/
theorem no_stale_hit (h₁ : Reach (svc.timely direct) ⟨svc.init content, []⟩ g₁) {command : Bytes}
    {args keys : List Bytes}
    (hw : (g₁.state.trace t).call = some (.executeWrite command args keys)) (hk : k ∈ keys)
    (hd : (g₁.state.trace t).dispatched = some d) (hu : g₁.state.trace u = {})
    (h : Reach (svc.timely direct) g₁ g) {job : Job} {m : Moment} {reply : Reply}
    {answer : Answer} (hcall : (g.state.trace u).call = some job)
    (hdone : (g.state.trace u).done = some (m, reply)) (ha : (k, answer) ∈ job.answers reply)
    (hvia : answer.via = .tier) :
    ∃ version, d.version ≤ version ∧ version ≤ g.state.origin.version ∧
      g.state.origin.content version k = some answer.value.data.bytes := by
  have hv := Service.verified (svc.timely direct) (fun _ hp => hp) content
  have htimed : Timed g₁.state :=
    hv.invariant (J := Timed) (Timed.init svc content)
      (fun hi hj ha hp he => hj.act hi ha hp he) (fun _ hj _ he => hj.env he) h₁
  have hsent : Sent t u k d g.state := by
    apply hv.onward (J := Sent t u k d) h₁ _ (fun hi hj ha hp he => hj.act hi ha hp he)
      (fun _ hj _ he => hj.env he) h
    exact
      { toTimed := htimed
        dispatch := hd
        names := by
          obtain ⟨_, _, hcall⟩ := htimed.write t d hd
          cases hcall.symm.trans hw
          exact hk
        looks := by
          intro x hx
          rw [hu] at hx
          cases hx
        hits := by
          intro m reply job a hd
          rw [hu] at hd
          cases hd }
  have hupto := hsent.hits m reply job answer hdone hcall ha hvia
  exact ⟨_, hupto.since, hupto.version, hupto.content⟩

theorem timely_trail {tr : List svc.machine.Event} (h₁ : svc.Reachable direct content g₁)
    (h : Trail (svc.calls direct) g₁ tr g)
    (hall : tr.all (fun e => (List.range g.pool.length).all fun w =>
      Action.spares e.action (World.trace e.before w)) = true) :
    Trail (svc.timely direct) g₁ tr g := by
  apply h.restrict
  intro e he w
  obtain ⟨g₂, hr, hs, hle⟩ := h.found he
  have hreach : svc.Reachable direct content g₂ := h₁.trans hr
  rw [← hs]
  apply hreach.traces (Action.spares_empty e.action)
  intro w hw
  rw [hs]
  have hw' := List.mem_range.2 (Nat.lt_of_lt_of_le hw hle)
  exact Action.spares_iff.1 (List.all_eq_true.1 (List.all_eq_true.1 hall e he) w hw')

def applied : sample.machine.Config × List sample.machine.Event :=
  sample.schedule (fun _ => some [0]) acknowledge
    [.call (.get [7]), .go 0 100, .go 1 100, .go 0 100, .call (.get [7]), .go 2 100,
      .call (.executeWrite wordSET [[7], [5]] [[7]]), .go 3 11]

def appliedRead : sample.machine.Config × List sample.machine.Event :=
  applied.1.play acknowledge ([Cue.go 3 10, .call (.get [7]), .go 4 100].map (Cue.turn sample))

theorem no_stale_hit_sample : ∃ d, (applied.1.state.trace 3).dispatched = some d ∧
    (appliedRead.1.state.trace 3).done.isNone = true ∧
    ∃ m reply answer, (appliedRead.1.state.trace 4).done = some (m, reply) ∧
      ([7], answer) ∈ (Job.get [7]).answers reply ∧ answer.via = .tier ∧
      ∃ version, d.version ≤ version ∧
        appliedRead.1.state.origin.content version [7] = some answer.value.data.bytes := by
  have htrail : Trail (sample.calls false)
      ⟨sample.init fun _ => some [0], []⟩ applied.2 applied.1 :=
    schedule_trail acknowledge (by decide)
  have hlater : Trail (sample.calls false) applied.1 appliedRead.2 appliedRead.1 :=
    play_trail acknowledge applied.1 (l := [.go 3 10, .call (.get [7]), .go 4 100]) (by decide)
  have h₁ := timely_trail .refl htrail (by decide +kernel)
  have h := timely_trail htrail.reach hlater (by decide +kernel)
  have hd : (applied.1.state.trace 3).dispatched.isSome = true := by decide +kernel
  obtain ⟨d, hd⟩ := Option.isSome_iff_exists.1 hd
  have hw : (applied.1.state.trace 3).call = some (.executeWrite wordSET [[7], [5]] [[7]]) := by
    decide +kernel
  have hcall : (appliedRead.1.state.trace 4).call = some (.get [7]) := by decide +kernel
  have hdone : (appliedRead.1.state.trace 4).done.map (fun x => (Job.get [7]).answers x.2) =
      some [([7], ⟨⟨⟨[5], .write 1 1⟩, true, 30000000000⟩, .tier⟩)] := by decide +kernel
  obtain ⟨m, reply, hdone, hmem⟩ := answers_done hdone
  obtain ⟨version, hle, -, hcontent⟩ :=
    no_stale_hit h₁.reach hw (by decide) hd rfl h.reach hcall hdone hmem rfl
  exact ⟨d, hd, by decide +kernel, m, reply, _, hdone, hmem, rfl, version, hle, hcontent⟩

/-- A SET has invalidated its key, a read makes the old value a candidate, and the SET is applied.
-/
def refilled : sample.machine.Config :=
  (sample.schedule (fun _ => some [0]) pick
    [.call (.executeWrite wordSET [[7], [1]] [[7]]), .go 0 10,
      .call (.get [7]), .go 1 100, .go 2 100, .go 1 100, .go 0 1]).1

def refilledRead : sample.machine.Config := follow refilled pick [.call (.get [7]), .go 3 100]

/-- The candidate answers a read that starts after the effect of the SET and before its return. -/
theorem stale_hit : ∃ (g₁ g : sample.machine.Config) (t u : Nat) (k : Key) (command : Bytes)
    (args keys : List Bytes) (d m : Moment) (reply : Reply) (job : Job) (answer : Answer),
    sample.Reachable false (fun _ => some [0]) g₁ ∧ Reach (sample.calls false) g₁ g ∧
    (g₁.state.trace t).call = some (.executeWrite command args keys) ∧ k ∈ keys ∧
    (g₁.state.trace t).dispatched = some d ∧ (g.state.trace t).done = none ∧
    g₁.state.trace u = {} ∧ (g.state.trace u).call = some job ∧
    (g.state.trace u).done = some (m, reply) ∧ (k, answer) ∈ job.answers reply ∧
    answer.via = .tier ∧ ∀ version, d.version ≤ version → version ≤ g.state.origin.version →
      g.state.origin.content version k ≠ some answer.value.data.bytes := by
  have hd : (refilled.state.trace 0).dispatched.map Moment.version = some 1 := by decide +kernel
  obtain ⟨d, hd, hversion⟩ := Option.map_eq_some_iff.1 hd
  have hreturned : (refilledRead.state.trace 0).done.isNone = true := by decide +kernel
  have hanswer : (refilledRead.state.trace 3).done.map (fun x => (Job.get [7]).answers x.2) =
      some [([7], ⟨⟨⟨[0], .read 0 0 (-1)⟩, true, 1000000000⟩, .tier⟩)] := by decide +kernel
  obtain ⟨m, reply, hdone, hmem⟩ := answers_done hanswer
  refine ⟨refilled, refilledRead, 0, 3, [7], wordSET, [[7], [1]], [[7]], d, m, reply, .get [7], _,
    (schedule_trail pick (by decide)).reach, follow_reach pick refilled (by decide),
    by decide +kernel, by decide, hd, Option.isNone_iff_eq_none.1 hreturned, rfl,
    by decide +kernel, hdone, hmem, rfl, ?_⟩
  intro version hle hge
  have hlast : refilledRead.state.origin.version = 1 := by decide +kernel
  have hone : version = 1 := by omega
  subst hone
  have hcontent : refilledRead.state.origin.content 1 [7] = some [1] := by decide +kernel
  rw [hcontent]
  decide

end Service
end Slizen
