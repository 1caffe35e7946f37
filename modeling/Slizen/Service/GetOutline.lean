import Slizen.Service.ReadOutline

namespace Slizen.Service
set_option autoImplicit true

open Interleaving Outline

variable {svc : Service} {P : svc.machine.Rules} {s : World} {t : Nat}

structure Started (t : Nat) (s : World) : Prop where
  job : (s.trace t).job ≠ none
  version : (s.trace t).started.version ≤ s.origin.version
  reqs : (s.trace t).started.reqs ≤ s.reqs

theorem Started.grows (h : Started t s) (hg : Grows t s s')
    (hj : (s'.trace t).job = (s.trace t).job) (hs : (s'.trace t).started = (s.trace t).started) :
    Started t s' :=
  ⟨hj ▸ h.job, hs ▸ h.version.trans hg.version, hs ▸ h.reqs.trans hg.reqs⟩

theorem Started.progress (h : Started t s) (hp : Progress t s s') : Started t s' :=
  h.grows hp.toGrows hp.trace.job hp.trace.started

theorem Started.of_start {m : Moment} {j : Job}
    (hm : Marked t (fun _ => { call := some j, job := some j, started := m }) s s')
    (hv : m.version ≤ s'.origin.version) (hq : m.reqs ≤ s'.reqs) : Started t s' := by
  refine ⟨?_, ?_, ?_⟩ <;> rw [hm.trace]
  · exact nofun
  · exact hv
  · exact hq

structure Fetched (t : Nat) (keys : List Key) (r : Except Error (List Value)) (i : Issue)
    (s s' : World) : Prop extends Grows t s s' where
  owner : ∀ σ, s.Owns t σ ↔ s'.Owns t σ
  gates : ∀ σ, s.gates σ = some t ↔ s'.gates σ = some t
  trace : s'.trace t = (s.trace t).fetched keys r
  current : ∀ σ e, e ≤ (s.stripes σ).epoch → Current i σ e s'
  replied : ∀ values, r = .ok values → Replied i keys values

theorem Fetched.rest (h : Fetched t keys r i s s') (hr : AtRest t s) : AtRest t s' where
  stripes := fun σ ho => hr.stripes σ ((h.owner σ).2 ho)
  debt := by
    rw [h.trace]
    exact hr.debt
  gates := fun σ hg => hr.gates σ ((h.gates σ).2 hg)

theorem wp_fetchUpstream (hi : svc.Base s) (hs : Started t s) (isGet : Bool) (keys : List Key) :
    svc.wp P t (fetchUpstream isGet keys) (fun r s' => ∃ i, Fetched t keys r i s s') s := by
  unfold fetchUpstream
  refine wp.seq (wp_issue keys) hi fun i s₁ hi₁ ⟨hr₁, hv, hq, hcur⟩ => ?_
  have hj₁ : (s₁.trace t).job ≠ none := by
    rw [hr₁.same]
    exact hs.job
  have hv₁ : (s₁.trace t).started.version ≤ i.version := by
    rw [hr₁.same]
    exact hs.version.trans hv
  have hq₁ : (s₁.trace t).started.reqs ≤ i.ticket := by
    rw [hr₁.same]
    exact hs.reqs.trans hq
  refine wp.seq (wp_answer hj₁ hv₁ hq₁) hi₁ fun r s₂ hi₂ ⟨hm₂, hrep⟩ => ?_
  refine wp.seq (wp_record _) hi₂ fun _ s₃ _ hr₃ => ⟨i, ?_⟩
  exact {
    toGrows := hr₁.toGrows.trans (hm₂.toGrows.trans hr₃.toGrows)
    owner := fun σ => (hr₁.owner σ).trans ((hm₂.owner σ).trans (hr₃.owner σ))
    gates := fun σ => (hr₁.gates σ).trans ((hm₂.gates σ).trans (hr₃.gates σ))
    trace := by rw [hr₃.same, hm₂.trace, hr₁.same]
    current := fun σ e he => (hcur σ e he).grows (hm₂.toGrows.trans hr₃.toGrows)
    replied := hrep }

theorem wp_fetchUpstreamGet (hi : svc.Base s) (hs : Started t s) (key : Key) :
    svc.wp P t (fetchUpstreamGet key) (fun r s' => ∃ raw i, Fetched t [key] raw i s s' ∧
      r = single raw) s := by
  unfold fetchUpstreamGet
  exact wp.seq (wp_fetchUpstream hi hs true [key]) hi fun raw s₁ _ ⟨i, h⟩ => ⟨raw, i, h, rfl⟩

theorem single_ok {r : Except Error (List Value)}
    (h : ∀ values, r = .ok values → Replied i [key] values)
    (hs : single r = .ok v) : r = .ok [v] := by
  cases r with
  | error e => cases hs
  | ok values =>
    have hl := (h values rfl).length
    match values, hl, hs with
    | [_], _, hs =>
      cases hs
      rfl

theorem single_error {r : Except Error (List Value)}
    (h : ∀ values, r = .ok values → Replied i [key] values) (hs : single r = .error e) :
    r = .error e := by
  cases r with
  | error e' =>
    cases hs
    rfl
  | ok values =>
    have hl := (h values rfl).length
    match values, hl, hs with
    | [_], _, hs => cases hs

theorem Fetched.refill (h : Fetched t [key] (.ok [v]) i s s')
    (he : epoch ≤ (s.stripes (cacheEpochStripe key)).epoch) : Refill t key v epoch i s' where
  seen := by
    rw [h.trace]
    simp [Trace.fetched]
  source := (h.replied _ rfl).source v (List.mem_singleton_self v)
  current := h.current _ _ he

theorem wp_flightRead (hi : svc.Base s) (hrest : AtRest t s) (hs : Started t s)
    (hm : (svc.policy key).mode = .cache) (he : epoch ≤ (s.stripes (cacheEpochStripe key)).epoch) :
    svc.wp P t (svc.flightRead key epoch (svc.policy key)) (fun r s' => AtRest t s' ∧
      (s'.trace t).job = (s.trace t).job ∧
      ∀ v, r = .ok v → ⟨.upstream, key, v⟩ ∈ (s'.trace t).seen) s := by
  unfold flightRead
  refine wp.seq (wp_fetchUpstreamGet hi hs key) hi fun r s₁ hi₁ ⟨raw, i, h₁, hr⟩ => ?_
  have hrest₁ := h₁.rest hrest
  have hjob₁ : (s₁.trace t).job = (s.trace t).job := by
    rw [h₁.trace]
    rfl
  cases r with
  | error e => exact ⟨hrest₁, hjob₁, nofun⟩
  | ok v =>
    have hraw := single_ok h₁.replied hr.symm
    subst hraw
    have href := h₁.refill he
    refine wp.seq (wp_reconcileLocalIfCurrent hi₁ hrest₁.toIdle hm href) hi₁ fun _ s₂ _ h₂ => ?_
    refine ⟨h₂.rest hrest₁, h₂.1.trace.job.trans hjob₁, ?_⟩
    intro v' hv'
    cases hv'
    exact h₂.1.trace.seen _ href.seen

theorem Unstarted.rest {j : Job} {m : Moment} (hu : Unstarted t s)
    (h : Marked t (fun _ => { call := some j, job := some j, started := m }) s s') :
    AtRest t s' where
  stripes := fun σ ho => hu.stripes σ ((h.owner σ).2 ho)
  debt := by rw [h.trace]
  gates := fun σ hg => hu.gates σ ((h.gates σ).2 hg)

theorem wp_flight (hi : svc.Base s) (hu : Unstarted t s) (h : svc.Ready p s) :
    svc.wp P t p (fun _ s' => AtRest t s') s := by
  obtain ⟨key, epoch, f, rfl, hm, he, hof⟩ := h
  have hf : ∀ f' k, Job.flight f key = .flight f' k → s.FlightOf f' k := by
    rintro _ _ ⟨⟩
    exact hof
  unfold flight
  refine wp.seq (wp_start hu.trace hf) hi fun _ s₁ hi₁ ⟨m, h₁, hv, hq⟩ => ?_
  have hrest₁ := hu.rest h₁
  have hs₁ := Started.of_start h₁ hv hq
  have hjob₁ : (s₁.trace t).job = some (.flight f key) := by rw [h₁.trace]
  refine wp.seq (wp_flightRead hi₁ hrest₁ hs₁ hm (he.trans (h₁.epoch _))) hi₁
    fun r s₂ hi₂ ⟨hrest₂, hjob₂, hseen₂⟩ => ?_
  have hcomplete : svc.wp P t (Run.do (.group (.complete f r))) (fun _ s' => Quiet t s₂ s') s₂ := by
    refine wp_calm trivial fun s₃ hr => ⟨key, ?_, fun v hv => ?_⟩
    · rw [hr.same]
      exact hjob₂.trans hjob₁
    · rw [hr.same]
      exact hseen₂ v hv
  refine wp.seq hcomplete hi₂ fun _ s₃ _ hq₃ => ?_
  exact wp_finish (hq₃.trace.job.trans (hjob₂.trans hjob₁)) (fun _ _ => trivial)
    (hrest₂.of_quiet hq₃)

theorem wp_doChan {policy : Decision} (hj : (s.trace t).job = some (.get key))
    (hp : policy = svc.policy key) (hm : policy.mode = .cache)
    (he : epoch ≤ (s.stripes (cacheEpochStripe key)).epoch) :
    svc.wp P t (Run.do (.group (.doChan key epoch policy))) (fun j s' =>
      Marked t (fun tr => { tr with joined := some j.flight }) s s' ∧
        s'.FlightOf j.flight key) s := by
  intro s₁ hr hi
  have he₁ := he.trans (hr.epoch _)
  refine ⟨⟨by rw [hr.same]; exact hj, hp, hm, he₁⟩, fun c j s₂ _ hexec _ => ?_⟩
  have hb := World.exec_bump hexec nofun
  have htr : s₂.trace t = { s₁.trace t with joined := some j.flight } := World.exec_trace hexec
  obtain ⟨s₃, hs, rfl⟩ := World.exec_group hexec
  have hfl := World.stepGroup_flights hs
  have hof : s₃.FlightOf j.flight key := by
    rcases World.stepGroup_doChan hs with ⟨hg, -, -⟩ | ⟨-, rfl, rfl⟩
    · exact hfl _ _ (hi.group key _ hg)
    · exact ⟨_, List.getElem?_concat_length, rfl⟩
  have hf := World.stepGroup_frame hs
  refine ⟨fun p hfork => ?_, .of_rely hr ?_, hof⟩
  · replace hfork : svc.fork (.group (.doChan key epoch policy)) j = some p := hfork
    simp only [fork] at hfork
    split at hfork <;> cases hfork
    refine ⟨key, epoch, j.flight, by rw [hp], hp ▸ hm, ?_, hof⟩
    rw [hf]
    exact he₁
  · rw [hf] at hb hfl htr ⊢
    exact .of_frame le_rfl le_rfl rfl rfl rfl hfl hb rfl htr

theorem wp_wait (hj : (s.trace t).joined = some f) (hf : s.FlightOf f key) (deadline : Time) :
    svc.wp P t (Run.do (.group (.wait f deadline))) (fun w s' => Quiet t s s' ∧
      ∀ v shared, w = .result (.ok v) shared → ⟨.flight, key, v⟩ ∈ (s'.trace t).seen) s := by
  refine wp_do (fun _ => rfl) fun s₁ hr _ => ⟨by rw [Pre, hr.same]; exact hj, fun c w s₂ he => ?_⟩
  refine ⟨hr.toQuiet.trans (World.quiet_of_exec (a := .group (.wait f deadline)) trivial he), ?_⟩
  rintro v shared rfl
  obtain ⟨s₃, hs, rfl⟩ := World.exec_group he
  obtain ⟨rfl, -⟩ := World.stepGroup_wait hs
  obtain ⟨fl, hfl, rfl⟩ := hr.flights f key hf
  simp [World.trace, Trace.record, Trace.recordGroup, hfl, Trace.see]

structure Reading (t : Nat) (job : Job) (s : World) : Prop where
  rest : AtRest t s
  job : (s.trace t).job = some job
  started : Started t s
  fetches : (s.trace t).fetches = []

theorem Reading.idle {j : Job} (h : Reading t j s) : Idle t s := h.rest.toIdle

theorem Reading.off {j : Job} (h : Reading t j s) (ho : Off t s s') : Reading t j s' where
  rest := ho.rest h.rest
  job := ho.1.trace.job.trans h.job
  started := h.started.progress ho.1
  fetches := ho.1.trace.fetches.trans h.fetches

theorem Reading.quiet {j : Job} (h : Reading t j s) (hq : Quiet t s s') : Reading t j s' :=
  h.off (.of_quiet h.idle hq)

theorem wp_observeRead (hi : svc.Base s) (h : Reading t job s) (key : Key) :
    svc.wp P t (svc.observeRead key (svc.policy key))
      (fun _ s' => Reading t job s' ∧ Off t s s') s := by
  unfold observeRead
  split
  · rename_i hm
    refine wp.seq (wp_tracker fun _ _ => hm) hi fun observation s₁ hi₁ hm₁ => ?_
    have hidle₁ := Idle.marked (f := fun d => d.take observation.transitions) h.idle hm₁
    refine wp.seq (wp_handleObservation hi₁ hidle₁) hi₁ fun _ s₂ _ ⟨hp₂, hidle₂⟩ => ?_
    have ho := Off.of_passes h.idle.debt ((hm₁.passes (Trace.extends_debt _ _)).trans hp₂) hidle₂
    exact ⟨h.off ho, ho⟩
  · exact ⟨h, .refl t s, h.idle⟩

theorem wp_getCached (hi : svc.Base s) (h : Reading t job s) (key : Key)
    (state : Option Hotness.State) :
    svc.wp P t (svc.getCached key (svc.policy key) state)
      (fun r s' => Reading t job s' ∧ Off t s s' ∧
      Found t key r s' ∧ (r ≠ none → (svc.policy key).mode = .cache)) s := by
  unfold getCached
  split
  · rename_i hm
    exact (wp_getFreshCachedInState hi h.idle key state).mono fun _ _ hx =>
      ⟨h.off hx.1, hx.1, hx.2, fun _ => hm⟩
  · exact ⟨h, ⟨.refl t s, h.idle⟩, .none, fun hne => absurd rfl hne⟩

structure Answered (svc : Service) (t : Nat) (j : Job) (reply : Reply) (s : World) : Prop where
  job : (s.trace t).job = some j
  rest : AtRest t s
  returns : svc.Returns s t j reply

theorem wp_getFallback (hi : svc.Base s) (h : Reading t (.get key) s)
    (hm : (svc.policy key).mode = .cache) (e : Error) :
    svc.wp P t (svc.getFallback key e)
      (fun r s' => svc.Answered t (.get key) (.get r) s') s := by
  have herr : ∀ s' : World, Reading t (.get key) s' →
      svc.Answered t (.get key) (.get (.error e)) s' :=
        fun s' h' => ⟨h'.job, h'.rest, fun hne => absurd hm hne⟩
  unfold getFallback
  split
  · refine wp.seq (wp_getStale .cache key _) hi fun item s₁ _ ⟨hq, hf⟩ => ?_
    have h₁ := h.quiet hq
    cases item with
    | some item => exact ⟨h₁.job, h₁.rest, hf item rfl, fun hne => absurd hm hne⟩
    | none => exact herr s₁ h₁
  · exact herr s h

theorem wp_getAwait (hi : svc.Base s) (h : Reading t (.get key) s)
    (hm : (svc.policy key).mode = .cache) (hj : (s.trace t).joined = some f) (hf : s.FlightOf f key)
    (deadline : Time) :
    svc.wp P t (svc.getAwait key f deadline)
      (fun r s' => svc.Answered t (.get key) (.get r) s') s := by
  unfold getAwait
  refine wp.seq (wp_wait hj hf deadline) hi fun w s₁ hi₁ ⟨hq, hseen⟩ => ?_
  have h₁ := h.quiet hq
  cases w with
  | done e => exact ⟨h₁.job, h₁.rest, fun hne => absurd hm hne⟩
  | result r shared =>
    have hwhen : svc.wp P t (Run.when (shared = true) (record .coalesced))
        (fun _ s' => Rely t s₁ s') s₁ :=
      wp_when (fun _ => wp_record _) fun _ => .refl t s₁
    refine wp.seq hwhen hi₁ fun _ s₂ hi₂ hr₂ => ?_
    have h₂ := h₁.quiet hr₂.toQuiet
    cases r with
    | error e => exact wp_getFallback hi₂ h₂ hm e
    | ok value =>
      refine wp.seq (wp_observeCache hi₂) hi₂ fun _ s₃ _ hr₃ => ?_
      have h₃ := h₂.quiet hr₃.toQuiet
      refine ⟨h₃.job, h₃.rest, ?_, fun hne => absurd hm hne⟩
      exact (hr₂.trans hr₃).trace.seen _ (hseen value shared rfl)

theorem wp_getMissed (hi : svc.Base s) (h : Reading t (.get key) s) :
    svc.wp P t (svc.getMissed key (svc.policy key))
      (fun r s' => svc.Answered t (.get key) (.get r) s') s := by
  unfold getMissed
  refine wp.seq (wp_still trivial fun _ _ => trivial) hi
    fun now s₁ hi₁ hr₁ => ?_
  have h₁ := h.quiet hr₁.toQuiet
  split
  · rename_i hm
    refine wp.seq (wp_epochLoad _) hi₁ fun epoch s₂ hi₂ ⟨hr₂, hep⟩ => ?_
    have h₂ := h₁.quiet hr₂.toQuiet
    refine wp.seq (wp_doChan h₂.job rfl hm hep.le) hi₂ fun j s₃ hi₃ ⟨hm₃, hof⟩ => ?_
    have htr := hm₃.trace
    refine wp_getAwait hi₃ ⟨⟨⟨fun σ ho => h₂.idle.stripes σ ((hm₃.owner σ).2 ho), ?_⟩,
      fun σ hg => h₂.rest.gates σ ((hm₃.gates σ).2 hg)⟩, ?_, ?_, ?_⟩ hm ?_ hof _
    · rw [htr]
      exact h₂.idle.debt
    · rw [htr]
      exact h₂.job
    · exact h₂.started.grows hm₃.toGrows (by rw [htr]) (by rw [htr])
    · rw [htr]
      exact h₂.fetches
    · rw [htr]
  · rename_i hm
    refine wp.seq (wp_fetchUpstreamGet hi₁ h₁.started key) hi₁ fun r s₂ hi₂ ⟨raw, i, h₂, hr⟩ => ?_
    have hfetch : (s₂.trace t).fetches = [([key], raw)] := by
      rw [h₂.trace]
      simp [Trace.fetched, h₁.fetches]
    have hjob : (s₂.trace t).job = some (.get key) := by
      rw [h₂.trace]
      exact h₁.job
    refine wp.seq (wp_observeCache hi₂) hi₂ fun _ s₃ _ hr₃ => ?_
    have hrest₃ := (h₂.rest h₁.rest).of_quiet hr₃.toQuiet
    have hfetch₃ := (congrArg Trace.fetches hr₃.same).trans hfetch
    have hjob₃ := (congrArg Trace.job hr₃.same).trans hjob
    cases r with
    | ok v =>
      have hraw := single_ok h₂.replied hr.symm
      subst hraw
      refine ⟨hjob₃, hrest₃, ?_, fun _ => ⟨rfl, hfetch₃⟩⟩
      rw [hr₃.same, h₂.trace]
      simp [Trace.fetched]
    | error e =>
      have hraw := single_error h₂.replied hr.symm
      subst hraw
      exact ⟨hjob₃, hrest₃, fun _ => .inl hfetch₃⟩

theorem wp_ctxErr : svc.wp P t (Run.do .ctxErr)
    (fun r s' => Rely t s s' ∧ ∀ e, r = some e → s'.contexts t = some e) s := by
  refine wp_do (fun _ => rfl) fun s₁ hr _ => ⟨trivial, fun c r s₂ he => ?_⟩
  have hr' := World.rely_of_exec (a := .ctxErr) trivial he
  obtain ⟨rfl, rfl⟩ := World.exec_ctxErr he
  exact ⟨hr.trans hr', fun e he => he⟩

theorem wp_getCall (hi : svc.Base s) (h : Reading t (.get key) s) :
    svc.wp P t (svc.get key) (fun r s' => svc.Answered t (.get key) (.get r) s') s := by
  unfold get
  split
  · rename_i hk
    exact ⟨h.job, h.rest, fun _ => .inr ⟨h.fetches, .inl ⟨hk, rfl⟩⟩⟩
  · rename_i hk
    refine wp.seq wp_ctxErr hi fun err s₁ hi₁ ⟨hr₁, herr⟩ => ?_
    have h₁ := h.quiet hr₁.toQuiet
    cases err with
    | some e => exact ⟨h₁.job, h₁.rest, fun _ => .inr ⟨h₁.fetches, .inr ⟨hk, herr e rfl⟩⟩⟩
    | none =>
      dsimp only
      refine wp.seq (wp_observeRead hi₁ h₁ key) hi₁ fun state s₂ hi₂ ⟨h₂, _⟩ => ?_
      refine wp.seq (wp_getCached hi₂ h₂ key state) hi₂ fun item s₃ hi₃ ⟨h₃, _, hf₃, hmode⟩ => ?_
      cases item with
      | some item =>
        refine wp.seq (wp_record _) hi₃ fun _ s₄ _ hr₄ => ?_
        have h₄ := h₃.quiet hr₄.toQuiet
        refine ⟨h₄.job, h₄.rest, hr₄.trace.seen _ (hf₃ item rfl), fun hne => ?_⟩
        exact absurd (hmode (by simp)) hne
      | none =>
        refine wp.seq (wp_record _) hi₃ fun _ s₄ hi₄ hr₄ => ?_
        exact wp_getMissed hi₄ (h₃.quiet hr₄.toQuiet)

end Slizen.Service
