import Slizen.Service.Footprint
import Slizen.Service.MemoryBound
import Slizen.TrackerTelemetry

namespace Slizen
set_option autoImplicit true

open Interleaving Machine

namespace Hotness.Tracker

theorem isTracked_getOrCreateLocked {t t' : Tracker} (hg : t.getOrCreateLocked key now = (r, t'))
    (hk : k ≠ key) (h : t'.isTracked k = true) : t.isTracked k = true := by
  rw [getOrCreateLocked] at hg
  split at hg
  · cases hg
    exact h
  · split at hg
    · cases hg
      rwa [isTracked, AList.lookup_insert_ne hk] at h
    · dsimp only at hg
      split at hg
      · cases hg
        exact h
      · split at hg
        · cases hg
          exact h
        · cases hg
          rw [isTracked, AList.lookup_insert_ne hk, AList.lookup_isSome, AList.mem_erase] at h
          exact AList.lookup_isSome.2 h.2

theorem isTracked_observeLocked {t : Tracker} (hk : k ≠ key)
    (h : (t.observeLocked key now).2.isTracked k = true) : t.isTracked k = true := by
  rw [observeLocked] at h
  split at h
  · exact h
  · split at h
    · exact h
    · cases hg : t.getOrCreateLocked key now with
      | mk r t' =>
        rw [hg] at h
        apply isTracked_getOrCreateLocked hg hk
        cases r with
        | none => exact h
        | some slot =>
          dsimp only at h
          split at h
          · exact h
          · exact h

end Hotness.Tracker

theorem TrackerOp.run_untracked {tr tr' : Hotness.Tracker} {op : TrackerOp} {b : op.Resp}
    (h : op.run tr c now = some (b, tr')) (hop : op ≠ .observeWithState k)
    (hk : tr'.isTracked k = true) : tr.isTracked k = true := by
  have hadvance : ∀ order, (tr.advanceLocked order now).2.isTracked k = true →
      tr.isTracked k = true := by
    intro order hk
    rwa [Hotness.Tracker.isTracked,
      (Hotness.Tracker.steady_advanceLocked tr order now).items] at hk
  cases op with
  | observeWithState key =>
    obtain ⟨-, heq⟩ := Option.ite_none_right_eq_some.1 h
    cases heq
    apply hadvance c.order
    exact Hotness.Tracker.isTracked_observeLocked (fun hkey => hop (by rw [hkey])) hk
  | admitKey key =>
    obtain ⟨-, heq⟩ := Option.ite_none_right_eq_some.1 h
    have htr : (tr.admitKey c.order key now).2 = tr' := congrArg Prod.snd (Option.some.inj heq)
    have hitems : (tr.admitKey c.order key now).2.items = (tr.advanceLocked c.order now).2.items :=
      (Hotness.Tracker.steady_admitLocked _ key).items
    apply hadvance c.order
    rwa [← htr, Hotness.Tracker.isTracked, hitems] at hk
  | advance =>
    obtain ⟨-, heq⟩ := Option.ite_none_right_eq_some.1 h
    have htr : (tr.advanceLocked c.order now).2 = tr' := congrArg Prod.snd (Option.some.inj heq)
    rw [← htr] at hk
    exact hadvance c.order hk
  | advanceAndSnapshot limit =>
    obtain ⟨-, heq⟩ := Option.ite_none_right_eq_some.1 h
    cases heq
    exact hadvance c.order hk
  | _ =>
    cases h
    exact hk

namespace Service

variable {svc : Service} {direct : Bool} {content : Key → Option Bytes} {g : svc.machine.Config}
  {s s' : World} {t u : Nat} {k : Key} {a : Action} {b : a.Resp} {c : Choice}

theorem Reachable.untracked (h : svc.Reachable direct content g)
    (hk : (svc.policy k).mode = .deny) : g.state.tracker.isTracked k = false := by
  apply h.invariant (J := fun s => s.tracker.isTracked k = false)
  · rfl
  · intro t a c b s s' _ hj hp he
    rw [← Bool.not_eq_true] at hj ⊢
    intro hk'
    cases a with
    | tracker op =>
      obtain ⟨tr, hrun, rfl⟩ := World.exec_tracker he
      apply hj
      apply TrackerOp.run_untracked hrun _ hk'
      rintro rfl
      exact hp hk
    | _ =>
      obtain ⟨s₁, hs, rfl⟩ := World.exec_eq_some.1 he
      rw [← (World.step_frame hs).tracker nofun] at hj
      exact hj hk'
  · intro e s s' _ hj _ he
    rw [World.env_eq he]
    exact hj

/-- Whatever the action does to the tracker it does for one of these keys, and not for a denied
one. -/
def TracksOnly (svc : Service) (keys : List Key) : Action → Prop
  | .tracker (.observeWithState k) => k ∈ keys ∧ (svc.policy k).mode ≠ .deny
  | .tracker (.admitKey k) => k ∈ keys ∧ (svc.policy k).mode ≠ .deny
  | .tracker .advance => False
  | .tracker (.advanceAndSnapshot _) => False
  | _ => True

theorem TracksOnly.tracker {keys : List Key} (h : svc.TracksOnly keys a)
    (he : World.exec t a c s = some (b, s')) : s'.tracker = s.tracker ∨
      ∃ k ∈ keys, (svc.policy k).mode ≠ .deny ∧
        (a = .tracker (.observeWithState k) ∨ a = .tracker (.admitKey k)) := by
  cases a with
  | tracker op =>
    obtain ⟨tr, hrun, rfl⟩ := World.exec_tracker he
    cases op with
    | observeWithState k => exact .inr ⟨k, h.1, h.2, .inl rfl⟩
    | admitKey k => exact .inr ⟨k, h.1, h.2, .inr rfl⟩
    | advance => exact h.elim
    | advanceAndSnapshot limit => exact h.elim
    | _ =>
      cases hrun
      exact .inl rfl
  | _ =>
    obtain ⟨s₁, hs, rfl⟩ := World.exec_eq_some.1 he
    exact .inl ((World.step_frame hs).tracker nofun)

theorem tracksOnly_plain {keys : List Key} (h : a.Plain) : svc.TracksOnly keys a := by
  cases a with
  | tracker op => cases op <;> trivial
  | _ => trivial

theorem tracksOnly_keeping {keys : List Key} (h : a.Keeping) : svc.TracksOnly keys a := by
  cases a with
  | tracker op => cases op <;> trivial
  | _ => trivial

section

variable {keys : List Key}

theorem tracks_handleObservation (o : Hotness.Observation) :
    (svc.handleObservation o).Uses (svc.TracksOnly keys) :=
  (svc.keeping_handleObservation o).mono fun _ => tracksOnly_keeping

theorem tracks_observeCache : svc.observeCache.Uses (svc.TracksOnly keys) :=
  svc.bare_observeCache.mono fun _ ha => tracksOnly_keeping ha.keeping

theorem tracks_observeRead (hk : k ∈ keys) :
    (svc.observeRead k (svc.policy k)).Uses (svc.TracksOnly keys) := by
  rw [observeRead]
  split
  · rename_i hdeny
    refine ⟨⟨hk, hdeny⟩, fun o => ?_⟩
    apply (tracks_handleObservation o).bind
    intro _
    trivial
  · trivial

theorem tracks_promoteCandidate (hk : k ∈ keys) (hm : (svc.policy k).mode ≠ .deny) :
    (svc.promoteCandidate k).Uses (svc.TracksOnly keys) := by
  refine ⟨trivial, fun candidate => ?_⟩
  cases candidate with
  | none => exact ⟨trivial, fun _ => trivial⟩
  | some candidate =>
    refine ⟨⟨hk, hm⟩, fun o => ?_⟩
    have htransfer := steady_transferCandidate k candidate (o.state = some .hot)
    apply (htransfer.mono fun _ ha => tracksOnly_plain ha.plain).bind
    intro stored
    refine ⟨trivial, fun _ => ?_⟩
    apply (tracks_handleObservation o).bind
    intro _
    apply tracks_observeCache.bind
    intro _
    trivial

theorem tracks_getFreshProtected (k : Key) :
    (svc.getFreshProtected k).Uses (svc.TracksOnly keys) :=
  (svc.steady_getFreshProtected k).mono fun _ ha => tracksOnly_plain ha.plain

theorem tracks_promote (hk : k ∈ keys) (hm : (svc.policy k).mode ≠ .deny) :
    (svc.promote k).Uses (svc.TracksOnly keys) := by
  refine ⟨trivial, fun _ => ⟨trivial, fun hot => ?_⟩⟩
  apply uses_ite
  · apply (tracks_getFreshProtected k).bind
    intro item
    cases item with
    | some item => exact ⟨trivial, fun _ => trivial⟩
    | none => exact tracks_promoteCandidate hk hm
  · exact tracks_promoteCandidate hk hm

theorem tracks_getProbationary (hk : k ∈ keys) (hm : (svc.policy k).mode ≠ .deny) :
    (svc.getProbationary k).Uses (svc.TracksOnly keys) := by
  apply uses_ite
  · refine ⟨trivial, fun candidate => ?_⟩
    cases candidate with
    | none => exact (svc.steady_getPromoted k).mono fun _ ha => tracksOnly_plain ha.plain
    | some candidate => exact tracks_promote hk hm
  · trivial

theorem tracks_getCached (hk : k ∈ keys) (state : Option Hotness.State) :
    (svc.getCached k (svc.policy k) state).Uses (svc.TracksOnly keys) := by
  rw [getCached]
  split
  · rename_i hmode
    have hm : (svc.policy k).mode ≠ .deny := by
      rw [hmode]
      exact nofun
    apply uses_ite
    · apply (tracks_getFreshProtected k).bind
      intro item
      cases item with
      | some item => trivial
      | none => exact tracks_getProbationary hk hm
    · exact tracks_getProbationary hk hm
  · trivial

theorem tracks_fetchUpstream (isGet : Bool) (l : List Key) :
    (fetchUpstream isGet l).Uses (svc.TracksOnly keys) :=
  ⟨trivial, fun _ => ⟨trivial, fun _ => ⟨trivial, fun _ => trivial⟩⟩⟩

theorem tracks_getAwait (f : Nat) (deadline : Time) :
    (svc.getAwait k f deadline).Uses (svc.TracksOnly keys) := by
  refine ⟨trivial, fun waited => ?_⟩
  cases waited with
  | done e => trivial
  | result r shared =>
    have hcoalesced : (Run.when (shared = true) (record .coalesced)).Uses (svc.TracksOnly keys) :=
      uses_when ⟨trivial, fun _ => trivial⟩
    apply hcoalesced.bind
    intro _
    cases r with
    | error e => exact (svc.steady_getFallback k e).mono fun _ ha => tracksOnly_plain ha.plain
    | ok value =>
      apply tracks_observeCache.bind
      intro _
      trivial

theorem tracks_getMissed (policy : Decision) :
    (svc.getMissed k policy).Uses (svc.TracksOnly keys) := by
  refine ⟨trivial, fun now => ?_⟩
  apply uses_ite
  · exact ⟨trivial, fun epoch => ⟨trivial, fun j => tracks_getAwait j.flight _⟩⟩
  · have hfetch : (fetchUpstreamGet k).Uses (svc.TracksOnly keys) :=
      (tracks_fetchUpstream true [k]).bind fun _ => trivial
    apply hfetch.bind
    intro r
    apply tracks_observeCache.bind
    intro _
    cases r <;> trivial

theorem tracks_get (key : Key) : (svc.get key).Uses (svc.TracksOnly [key]) := by
  have hk : key ∈ [key] := List.mem_singleton_self key
  apply uses_ite
  · trivial
  · refine ⟨trivial, fun err => ?_⟩
    cases err with
    | some e => trivial
    | none =>
      apply (tracks_observeRead hk).bind
      intro state
      apply (tracks_getCached hk state).bind
      intro item
      cases item with
      | some item => exact ⟨trivial, fun _ => trivial⟩
      | none => exact ⟨trivial, fun _ => tracks_getMissed _⟩

theorem tracks_mgetLocal (out : List Answer) (missing : List MissingRead) (position : Nat)
    (l : List Key) (hl : ∀ k ∈ l, k ∈ keys) :
    (svc.mgetLocal out missing position l).Uses (svc.TracksOnly keys) := by
  induction l generalizing out missing position with
  | nil => trivial
  | cons key rest ih =>
    have hrest : ∀ k ∈ rest, k ∈ keys := fun k hk => hl k (List.mem_cons_of_mem _ hk)
    have hkey := hl key List.mem_cons_self
    apply (tracks_observeRead hkey).bind
    intro state
    apply (tracks_getCached hkey state).bind
    intro item
    cases item with
    | some item => exact ⟨trivial, fun _ => ih _ _ _ hrest⟩
    | none =>
      refine ⟨trivial, fun _ => ?_⟩
      apply uses_ite
      · exact ⟨trivial, fun _ => ih _ _ _ hrest⟩
      · exact ih _ _ _ hrest

theorem tracks_mgetMissing (out : List Answer) (missing : List MissingRead) :
    (svc.mgetMissing out missing).Uses (svc.TracksOnly keys) := by
  apply (tracks_fetchUpstream false _).bind
  intro r
  cases r with
  | error e =>
    apply uses_ite
    · apply ((svc.steady_mgetStale out 0 missing).mono fun _ ha => tracksOnly_plain ha.plain).bind
      intro _
      trivial
    · trivial
  | ok values =>
    apply ((svc.plain_mgetStore out _).mono fun _ => tracksOnly_plain).bind
    intro _
    apply tracks_observeCache.bind
    intro _
    trivial

theorem tracks_mget (keys : List Key) : (svc.mget keys).Uses (svc.TracksOnly keys) := by
  apply (tracks_mgetLocal _ _ _ keys fun _ hk => hk).bind
  intro found
  apply uses_ite
  · trivial
  · exact tracks_mgetMissing _ _

end

/-- A goroutine that runs this call uses only actions that satisfy `q`; one that has not begun
will first write down which call it runs. -/
structure Follows (q : Action → Prop) (job : Job) (tr : Trace) (p : Run Unit) : Prop where
  call : tr.call = some job → p.Uses q
  start : tr.call = none → ∃ job' k, p = .act (.note (.start job')) k ∧
    (job' = job → ∀ b, (k b).Uses q)

theorem Follows.unborn {q : Action → Prop} {job job' : Job} {k : Unit → Run Unit}
    (h : job' = job → ∀ b, (k b).Uses q) : Follows q job {} (.act (.note (.start job')) k) :=
  ⟨nofun, fun _ => ⟨job', k, rfl, h⟩⟩

theorem Follows.act {q : Action → Prop} {job : Job} {k : a.Resp → Run Unit}
    (h : Follows q job (s.trace t) (.act a k)) (hp : svc.Pre t a s)
    (he : World.exec t a c s = some (b, s')) : Follows q job (s'.trace t) (k b) := by
  cases hcall : (s.trace t).call with
  | none =>
    obtain ⟨job', k', hact, hk⟩ := h.start hcall
    cases hact
    have hcall' : (s'.trace t).call = some job' := by
      rw [World.exec_trace he]
      rfl
    constructor
    · intro hj
      rw [hcall'] at hj
      exact hk (Option.some.inj hj) b
    · intro hnone
      rw [hcall'] at hnone
      cases hnone
  | some job' =>
    rcases (change hp he).call_cases with ⟨hsame, -⟩ | ⟨hempty, -⟩
    · constructor
      · intro hj
        exact (h.call (hsame.symm.trans hj)).2 b
      · intro hnone
        rw [hsame, hcall] at hnone
        cases hnone
    · rw [hempty] at hcall
      cases hcall

theorem follows_call {q : Action → Prop} {job : Job} (hq : (svc.perform job).Uses q)
    (hfinish : ∀ reply, q (.note (.finish reply))) (job' : Job) :
    Follows q job {} (svc.call job') := by
  apply Follows.unborn
  rintro rfl _
  exact hq.bind fun reply => ⟨hfinish reply, fun _ => trivial⟩

theorem Reachable.follows {q : Action → Prop} {job : Job} (h : svc.Reachable direct content g)
    (hjob : ∀ f key, job ≠ .flight f key) (hq : (svc.perform job).Uses q)
    (hfinish : ∀ reply, q (.note (.finish reply))) (t : Nat) (p : Run Unit)
    (hp : g.pool[t]? = some p) : Follows q job (g.state.trace t) p := by
  induction h generalizing t p with
  | refl => cases hp
  | @step g g' m hg hm hn ih =>
    cases m with
    | run u c =>
      obtain ⟨a, k, b, s, hu, he, rfl⟩ := Config.next_run hn
      have hpre : svc.Pre u a g.state := (Reachable.verified hg).pre hg hu
      have hlt := (List.getElem?_eq_some_iff.1 hu).1
      rcases pool_cases hlt hp with ⟨rfl, rfl⟩ | ⟨hne, hp₀⟩ | ⟨rfl, hfork⟩
      · exact (ih t _ hu).act hpre he
      · show Follows q job (World.trace s t) p
        rw [World.exec_trace_of_ne he hne]
        exact ih t p hp₀
      · have hunborn : Unstarted g.pool.length g.state :=
          (Reachable.verified hg).unborn hg (List.getElem?_eq_none le_rfl)
        show Follows q job (World.trace s g.pool.length) p
        rw [World.exec_trace_of_ne he hlt.ne', hunborn.trace]
        obtain ⟨key, epoch, policy, f, rfl⟩ := fork_flight hfork
        exact Follows.unborn fun hflight => absurd hflight.symm (hjob f key)
    | spawn p₀ =>
      cases hn
      rcases pool_spawn hp with hp₀ | ⟨rfl, rfl⟩
      · exact ih t p hp₀
      · have hunborn : Unstarted g.pool.length g.state :=
          (Reachable.verified hg).unborn hg (List.getElem?_eq_none le_rfl)
        obtain ⟨job', -, rfl⟩ := hm
        show Follows q job (g.state.trace g.pool.length) _
        rw [hunborn.trace]
        exact follows_call hq hfinish job'
    | env e =>
      obtain ⟨s, he, rfl⟩ := Config.next_env hn
      show Follows q job (World.trace s t) p
      rw [World.env_eq he]
      exact ih t p hp

theorem Trace.record_fetches (tr : Trace) (s : World) {a : Action} (b : a.Resp)
    (hanswer : ∀ i keys, a ≠ .upstream (.answer i keys)) (hstart : ∀ job, a ≠ .note (.start job)) :
    (tr.record s a b).fetches = tr.fetches := by
  cases a with
  | cache tier op =>
    exact (tr.recordCache_extends _ tier op b).fetches
  | stripe σ op => cases op <;> rfl
  | group op =>
    cases op with
    | wait f deadline =>
      cases b with
      | done e => rfl
      | result r shared =>
        cases r with
        | error e => rfl
        | ok value =>
          simp only [Trace.record, Trace.recordGroup]
          split <;> rfl
    | _ => rfl
  | upstream op =>
    cases op with
    | answer i keys => exact absurd rfl (hanswer i keys)
    | _ => rfl
  | note n =>
    cases n with
    | start job => exact absurd rfl (hstart job)
    | _ => rfl
  | _ => rfl

theorem fetches_done (h : Orderly s) (hp : svc.Pre t a s) (he : World.exec t a c s = some (b, s'))
    (hd : (s'.trace u).done ≠ none) : (s'.trace u).fetches = (s.trace u).fetches := by
  by_cases hu : u = t
  · subst hu
    rw [World.exec_trace he] at hd ⊢
    apply Trace.record_fetches
    · rintro i keys rfl
      obtain ⟨hjob, -⟩ := hp
      obtain ⟨job, hjob⟩ := Option.ne_none_iff_exists'.1 hjob
      exact hd (h.underway u job hjob).2
    · rintro job rfl
      exact hd rfl
  · rw [World.exec_trace_of_ne he hu]

/-- The outcome of a `Get` is that of its one upstream read. -/
def OwnRead (tr : Trace) (k : Key) : Except Error Answer → Prop
  | .ok a => a.via = .upstream ∧ tr.fetches = [([k], .ok [a.value])]
  | .error e => tr.fetches = [([k], .error e)]

/-- A `Get` that was turned away for its argument or its context. -/
def Refused (tr : Trace) (context : Option Error) (k : Key) (r : Except Error Answer) : Prop :=
  tr.fetches = [] ∧ (k = [] ∧ r = .error .keyRequired ∨
    k ≠ [] ∧ ∃ e, context = some e ∧ r = .error e)

/-- What a call that has returned knows of the keys that must not be cached. -/
def Isolates (svc : Service) (tr : Trace) (context : Option Error) : Job → Reply → Prop
  | .get k, .get r => (svc.policy k).mode ≠ .cache → OwnRead tr k r ∨ Refused tr context k r
  | .mget keys, .mget (.ok l) => l.length = keys.length ∧ ∀ (i : Nat) k a, keys[i]? = some k →
      l[i]? = some a → (svc.policy k).mode ≠ .cache → OwnReply tr k a
  | _, _ => True

theorem Returns.isolates {job : Job} {reply : Reply} (h : svc.Returns s t job reply) :
    svc.Isolates (s.trace t) (s.contexts t) job reply := by
  unfold Isolates
  split
  · rename_i k r
    intro hmode
    cases r with
    | ok a => exact .inl (h.2 hmode)
    | error e =>
      rcases h hmode with hfetch | ⟨hfetch, ⟨rfl, rfl⟩ | ⟨hk, he⟩⟩
      · exact .inl hfetch
      · exact .inr ⟨hfetch, .inl ⟨rfl, rfl⟩⟩
      · exact .inr ⟨hfetch, .inr ⟨hk, e, he, rfl⟩⟩
  · exact ⟨h.1, fun i k a hk ha => (h.2 i k a hk ha).2⟩
  · trivial

theorem Isolates.later {tr tr' : Trace} {context context' : Option Error} {job : Job}
    {reply : Reply} (h : svc.Isolates tr context job reply) (hf : tr'.fetches = tr.fetches)
    (hc : ∀ e, context = some e → context' = some e) :
    svc.Isolates tr' context' job reply := by
  unfold Isolates at h ⊢
  split
  · rename_i k r
    intro hmode
    rcases h hmode with hown | ⟨hnone, hrefused⟩
    · left
      cases r with
      | ok a => exact ⟨hown.1, hf.trans hown.2⟩
      | error e => exact hf.trans hown
    · right
      refine ⟨hf.trans hnone, hrefused.imp_right ?_⟩
      rintro ⟨hk, e, he, hr⟩
      exact ⟨hk, e, hc e he, hr⟩
  · refine ⟨h.1, ?_⟩
    intro i k a hk ha hmode
    obtain ⟨hvia, keys, values, j, hfetch, hrest⟩ := h.2 i k a hk ha hmode
    exact ⟨hvia, keys, values, j, hf.trans hfetch, hrest⟩
  · trivial

theorem Reachable.isolates (h : svc.Reachable direct content g) (t : Nat) (m : Moment)
    (reply : Reply) (job : Job) (hd : (g.state.trace t).done = some (m, reply))
    (hcall : (g.state.trace t).call = some job) :
    svc.Isolates (g.state.trace t) (g.state.contexts t) job reply := by
  have hj : Orderly g.state ∧ ∀ t m reply job, (g.state.trace t).done = some (m, reply) →
      (g.state.trace t).call = some job →
        svc.Isolates (g.state.trace t) (g.state.contexts t) job reply := by
    apply h.invariant (J := fun s => Orderly s ∧ ∀ t m reply job,
      (s.trace t).done = some (m, reply) → (s.trace t).call = some job →
        svc.Isolates (s.trace t) (s.contexts t) job reply)
    · refine ⟨Reachable.orderly (g := ⟨_, []⟩) (.refl : svc.Reachable direct content _), ?_⟩
      intro t m reply job hd
      cases hd
    · intro v a c b s s' hi hj hp he
      refine ⟨hj.1.act hi hp he, ?_⟩
      intro t m reply job hd hcall
      have hfetches := fetches_done hj.1 hp he (u := t) (by rw [hd]; exact nofun)
      have hcontexts := (grows hi hp he t).contexts
      apply Isolates.later _ hfetches hcontexts
      by_cases hd₀ : (s.trace t).done = none
      · exact (returned_now hj.1 hp he hd₀ hd hcall).1.isolates
      · have hfrozen := Service.frozen hj.1 hp he hd₀
        exact hj.2 t m reply job (hfrozen.done.symm.trans hd) (hfrozen.call.symm.trans hcall)
    · intro e s s' _ hj _ he
      have henv := World.env_eq he
      refine ⟨?_, ?_⟩
      · rw [henv]
        exact ⟨hj.1.gates, hj.1.gated, hj.1.underway, hj.1.refused⟩
      · intro t m reply job hd hcall
        rw [henv] at hd hcall
        apply (hj.2 t m reply job hd hcall).later _ fun _ => World.env_contexts he
        rw [henv]
  exact hj.2 t m reply job hd hcall

theorem policy_observe (hv : svc.cfg.validate = []) (h : svc.cfg.mode = "observe") (k : Key) :
    (svc.policy k).mode ≠ .cache := by
  rcases Config.matchKey_policy hv k with ⟨policy, -, -, -, mode, -, heq⟩ | ⟨-, heq⟩
  · rw [Service.policy, heq]
    cases mode <;> simp [Config.granted, h]
  · rw [Service.policy, heq]
    simp [Config.globalDecision, h]

theorem Reachable.tracks {job : Job} {keys : List Key} {p : a.Resp → Run Unit}
    (h : svc.Reachable direct content g) (hjob : ∀ f key, job ≠ .flight f key)
    (hq : (svc.perform job).Uses (svc.TracksOnly keys)) (hp : g.pool[t]? = some (.act a p))
    (hcall : (g.state.trace t).call = some job) (he : World.exec t a c g.state = some (b, s)) :
    s.tracker = g.state.tracker ∨ ∃ k ∈ keys, (svc.policy k).mode ≠ .deny ∧
      (a = .tracker (.observeWithState k) ∨ a = .tracker (.admitKey k)) :=
  TracksOnly.tracker ((h.follows hjob hq (fun _ => trivial) t _ hp).call hcall).1 he

/-- Policy isolation. In every run of a service with an accepted configuration a key whose policy
does not let it be cached is in no tier; a `Get` of it that is not turned away for its argument or
its context makes one upstream read and returns what that read returned; and at each of its
positions an `MGet` has the reply to its own upstream read. A denied key is never tracked, and reads
change the tracker only on account of keys that are not denied. -/
theorem policy_isolation (hv : svc.cfg.validate = []) (h : svc.Reachable direct content g) :
    (svc.cfg.mode = "observe" → ∀ k, (svc.policy k).mode ≠ .cache) ∧
    ∀ k, (svc.policy k).mode ≠ .cache →
      (∀ tier, g.state.find tier k = none) ∧
      (∀ t m r, (g.state.trace t).call = some (.get k) →
        (g.state.trace t).done = some (m, .get r) →
          OwnRead (g.state.trace t) k r ∨ Refused (g.state.trace t) (g.state.contexts t) k r) ∧
      (∀ t m keys l, (g.state.trace t).call = some (.mget keys) →
        (g.state.trace t).done = some (m, .mget (.ok l)) → l.length = keys.length ∧
          ∀ (i : Nat) answer, keys[i]? = some k → l[i]? = some answer →
            OwnReply (g.state.trace t) k answer) ∧
      ((svc.policy k).mode = .deny → g.state.tracker.isTracked k = false ∧
        ∀ t a p c b s, g.pool[t]? = some (.act a p) → World.exec t a c g.state = some (b, s) →
          ((g.state.trace t).call = some (.get k) → s.tracker = g.state.tracker) ∧
          ∀ keys, (g.state.trace t).call = some (.mget keys) → s.tracker = g.state.tracker ∨
            ∃ k' ∈ keys, (svc.policy k').mode ≠ .deny ∧
              (a = .tracker (.observeWithState k') ∨ a = .tracker (.admitKey k'))) := by
  refine ⟨policy_observe hv, ?_⟩
  intro k hmode
  refine ⟨?_, ?_, ?_, ?_⟩
  · intro tier
    rw [Option.eq_none_iff_forall_ne_some]
    intro e hf
    exact hmode (h.resident.entry tier k e hf).mode
  · intro t m r hcall hd
    exact h.isolates t m _ _ hd hcall hmode
  · intro t m keys l hcall hd
    obtain ⟨hlength, hall⟩ := h.isolates t m _ _ hd hcall
    exact ⟨hlength, fun i answer hk ha => hall i k answer hk ha hmode⟩
  · intro hdeny
    refine ⟨h.untracked hdeny, ?_⟩
    intro t a p c b s hp he
    constructor
    · intro hcall
      have hget : (svc.perform (.get k)).Uses (svc.TracksOnly [k]) :=
        (tracks_get k).bind fun _ => trivial
      have hjob : ∀ f key, Job.get k ≠ .flight f key := nofun
      rcases h.tracks hjob hget hp hcall he with hsame | ⟨k', hk', hne, -⟩
      · exact hsame
      · rw [List.mem_singleton.1 hk'] at hne
        exact absurd hdeny hne
    · intro keys hcall
      have hmget : (svc.perform (.mget keys)).Uses (svc.TracksOnly keys) :=
        (tracks_mget keys).bind fun _ => trivial
      have hjob : ∀ f key, Job.mget keys ≠ .flight f key := nofun
      exact h.tracks hjob hmget hp hcall he

/-- The default settings with a rule that denies some keys, in observe mode. -/
def guarded : Service :=
  let base := Config.default "secret"
  { sample with
    cfg := { base with
      mode := "observe", cache := { base.cache with policies := [⟨[1], "deny", 0, 0⟩] } } }

def guardedReads : guarded.machine.Config :=
  (guarded.schedule (fun _ => some [0]) pick
    [.call (.get [1]), .go 0 100, .call (.mget [[1, 2], [7]]), .go 1 100, .call (.get []),
      .go 2 100, .call (.get [7]), .env (.cancel 3 false), .go 3 100]).1

theorem guardedReads_reachable : guarded.Reachable false (fun _ => some [0]) guardedReads :=
  (schedule_trail pick (by decide)).reach

def got (tr : Trace) : Option (Except Error Answer) :=
  match tr.done with
  | some (_, .get r) => some r
  | _ => none

theorem got_eq_some {tr : Trace} {r : Except Error Answer} (h : got tr = some r) :
    ∃ m, tr.done = some (m, .get r) := by
  rw [got] at h
  split at h
  · rename_i m r' hd
    cases h
    exact ⟨m, hd⟩
  · cases h

theorem policy_isolation_sample : ∃ m r, (guardedReads.state.trace 0).done = some (m, .get r) ∧
    OwnRead (guardedReads.state.trace 0) [1] r ∧
      guardedReads.state.tracker.isTracked [1] = false ∧
        guardedReads.state.tracker.isTracked [7] = true := by
  have hv : guarded.cfg.validate = [] := by decide +kernel
  have hmode : (guarded.policy [1]).mode = .deny := by decide +kernel
  have hcall : (guardedReads.state.trace 0).call = some (.get [1]) := by decide +kernel
  have hfetches : (guardedReads.state.trace 0).fetches ≠ [] := by decide +kernel
  have hgot : got (guardedReads.state.trace 0) =
      some (.ok ⟨⟨⟨[0], .read 0 0 (-1)⟩, true, -1⟩, .upstream⟩) := by decide +kernel
  obtain ⟨m, hd⟩ := got_eq_some hgot
  obtain ⟨-, hread, -, hdeny⟩ :=
    (policy_isolation hv guardedReads_reachable).2 [1] (by rw [hmode]; exact nofun)
  refine ⟨m, _, hd, (hread 0 m _ hcall hd).resolve_right ?_, (hdeny hmode).1, by decide +kernel⟩
  exact fun hrefused => hfetches hrefused.1

/-- A `Get` of the empty key and one whose context is done make no upstream read, whatever the
policy. -/
theorem get_without_read : ∃ (svc : Service) (content : Key → Option Bytes)
    (g : svc.machine.Config), svc.cfg.validate = [] ∧ svc.Reachable false content g ∧
      (∃ t m r, (svc.policy []).mode ≠ .cache ∧ (g.state.trace t).call = some (.get []) ∧
        (g.state.trace t).done = some (m, .get r) ∧ ¬ OwnRead (g.state.trace t) [] r) ∧
      ∃ k t m r, k ≠ [] ∧ (svc.policy k).mode ≠ .cache ∧ (g.state.trace t).call = some (.get k) ∧
        (g.state.trace t).done = some (m, .get r) ∧ ¬ OwnRead (g.state.trace t) k r := by
  have hv : guarded.cfg.validate = [] := by decide +kernel
  have hempty : (guarded.policy []).mode ≠ .cache := by decide +kernel
  have hkey : (guarded.policy [7]).mode ≠ .cache := by decide +kernel
  have hrun : (guardedReads.state.trace 2).call = some (.get []) ∧
      got (guardedReads.state.trace 2) = some (.error .keyRequired) ∧
      (guardedReads.state.trace 2).fetches = [] ∧
      (guardedReads.state.trace 3).call = some (.get [7]) ∧
      got (guardedReads.state.trace 3) = some (.error .canceled) ∧
      (guardedReads.state.trace 3).fetches = [] := by decide +kernel
  obtain ⟨hcall, hgot, hfetches, hcall', hgot', hfetches'⟩ := hrun
  obtain ⟨m, hd⟩ := got_eq_some hgot
  obtain ⟨m', hd'⟩ := got_eq_some hgot'
  refine ⟨guarded, _, guardedReads, hv, guardedReads_reachable,
    ⟨2, m, _, hempty, hcall, hd, ?_⟩, [7], 3, m', _, nofun, hkey, hcall', hd', ?_⟩
  · intro hown
    rw [OwnRead, hfetches] at hown
    cases hown
  · intro hown
    rw [OwnRead, hfetches'] at hown
    cases hown

end Service
end Slizen
