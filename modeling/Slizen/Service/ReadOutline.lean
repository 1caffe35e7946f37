import Slizen.Service.Rules

namespace Slizen.Service
set_option autoImplicit true

open Interleaving Outline

variable {svc : Service} {P : svc.machine.Rules} {s : World} {t : Nat}

def Off (t : Nat) (s s' : World) : Prop := Progress t s s' ∧ Idle t s'

theorem Off.quiet (h : Off t s s₁) (hq : Quiet t s₁ s₂) : Off t s s₂ :=
  ⟨h.1.trans hq.toProgress, h.2.of_quiet hq⟩

theorem Off.trans (h : Off t s s₁) (h' : Off t s₁ s₂) : Off t s s₂ := ⟨h.1.trans h'.1, h'.2⟩

theorem Off.of_quiet (h : Idle t s) (hq : Quiet t s s') : Off t s s' :=
  ⟨hq.toProgress, h.of_quiet hq⟩

theorem Off.rest (ho : Off t s s') (h : AtRest t s) : AtRest t s' :=
  ⟨ho.2, fun σ hg => h.gates σ ((ho.1.gates σ).2 hg)⟩

theorem Off.of_passes (h : (s.trace t).debt = {}) (hp : Passes t s s') (hidle : Idle t s') :
    Off t s s' :=
  ⟨⟨hp, hidle.debt.trans h.symm⟩, hidle⟩

theorem wp_stats (tier : Tier) :
    svc.wp P t (Run.do (.cache tier .stats)) (fun st s' => Rely t s s' ∧
      st.Bounded (svc.newTier tier).maxBytes (svc.newTier tier).maxEntries) s := by
  refine wp_do (fun _ => rfl) fun s₁ hr hi => ⟨trivial, fun c b s₂ he => ?_⟩
  refine ⟨hr.trans (World.rely_of_exec (a := .cache tier .stats) trivial he), ?_⟩
  obtain ⟨rfl, rfl⟩ := World.exec_cache he
  have hl := Prod.mk.inj (hi.limits tier)
  rw [← hl.1, ← hl.2]
  exact Cache.stats_bounded (hi.wf tier)

theorem wp_combinedStats (hi : svc.Base s) :
    svc.wp P t svc.combinedStats (fun st s' => Rely t s s' ∧ svc.Reported st) s := by
  unfold combinedStats
  refine wp.seq (wp_stats .cache) hi fun a s₁ hi₁ ⟨hr, ha⟩ => ?_
  split
  · rename_i hp
    refine wp.seq (wp_stats .probationary) hi₁
      fun b s₂ _ ⟨hr', hb⟩ => ⟨hr.trans hr', a, b, ha, hb, ?_⟩
    rw [if_pos hp]
  · rename_i hp
    have hnew : ((svc.newTier .probationary).stats).Bounded (svc.newTier .probationary).maxBytes
        (svc.newTier .probationary).maxEntries := Cache.stats_bounded (Cache.wf_new _ _)
    exact ⟨hr, a, _, ha, hnew, by rw [if_neg hp]⟩

theorem wp_observeCache (hi : svc.Base s) :
    svc.wp P t svc.observeCache (fun _ s' => Rely t s s') s := by
  unfold observeCache
  refine wp.seq (wp_combinedStats hi) hi fun st s₁ hi₁ h => ?_
  exact (wp_record _).mono fun _ _ hr => h.1.trans hr

theorem wp_deleteProbationary {key : Key} (hi : svc.Base s) (ho : s.Owns t (cacheEpochStripe key)) :
    svc.wp P t (svc.deleteProbationary key)
      (fun _ s' => Rely t s s' ∧ s'.find .probationary key = none) s := by
  unfold deleteProbationary
  split
  · exact wp_delete ho
  · rename_i hp
    exact ⟨.refl t s, hi.absent (by simpa using hp) key⟩

theorem wp_dropDemoted {d : Debt} (hi : svc.Base s) (hidle : Idle t s d) (key : Key) :
    svc.wp P t (svc.dropDemoted key)
      (fun _ s' => Passes t s s' ∧ Idle t s' (d.applied key)) s := by
  -- Both branches end by noting that the demotion is applied, and then release the stripe.
  have hend : ∀ s₂ : World, svc.Base s₂ → Progress t s s₂ → Holds t (cacheEpochStripe key) s₂ d →
      (s₂.find .cache key = none ∨ s₂.HotBut t key) → ∀ b : Bool,
      svc.wp P t (do note (.applied key); unlock (cacheEpochStripe key); pure b)
        (fun _ s' => Passes t s s' ∧ Idle t s' (d.applied key)) s₂ := by
    intro s₂ hi₂ hp₂ hh₂ hgone b
    refine wp.seq (wp_applied hh₂.owns hgone) hi₂ fun _ s₃ hi₃ hm₃ => ?_
    have hh₃ := Holds.marked (f := fun d => d.applied key) hh₂ hm₃
    refine wp.seq (wp_unlock_holds hh₃) hi₃ fun _ s₄ _ ⟨hp₄, hidle₄⟩ => ⟨?_, hidle₄⟩
    exact (hp₂.toPasses.trans (hm₃.passes (Trace.extends_debt _ _))).trans hp₄.toPasses
  unfold dropDemoted
  refine wp.seq (wp_lock_idle _ hidle) hi fun _ s₁ hi₁ ⟨hp₁, hh₁⟩ => ?_
  refine wp.seq (wp_isHot key) hi₁ fun hot s₂ hi₂ ⟨hr₂, hhot⟩ => ?_
  have hh₂ := hh₁.of_quiet hr₂.toQuiet
  have hp₂ := hp₁.trans hr₂.toProgress
  split
  · rename_i hyes
    exact hend s₂ hi₂ hp₂ hh₂ (.inr (hhot hyes).1) false
  · refine wp.seq (wp_delete hh₂.owns) hi₂ fun deleted s₃ hi₃ ⟨hr₃, hnone⟩ => ?_
    have hh₃ := hh₂.of_quiet hr₃.toQuiet
    refine wp.seq (wp_deleteProbationary hi₃ hh₃.owns) hi₃ fun deleted' s₄ hi₄ ⟨hr₄, _⟩ => ?_
    have hp₄ := hp₂.trans (hr₃.trans hr₄).toProgress
    exact hend s₄ hi₄ hp₄ (hh₃.of_quiet hr₄.toQuiet)
      (.inl (find_eq_none_of_rely hr₄ hh₃.owns hnone)) (deleted || deleted')

theorem wp_applyTransition {rest : List Hotness.Transition} (hi : svc.Base s)
    (transition : Hotness.Transition) (hidle : Idle t s (.of (transition :: rest))) :
    svc.wp P t (svc.applyTransition transition)
      (fun _ s' => Passes t s s' ∧ Idle t s' (.of rest)) s := by
  unfold applyTransition
  by_cases hdem : transition.IsDemotion
  · have hno : ¬ (transition.after = .hot ∧ transition.before ≠ .hot) := fun hp => hdem.2 hp.1
    obtain ⟨hpos, hcount⟩ := Debt.of_demotion hdem rest
    rw [Run.when, if_neg hno, if_pos (show _ ∧ _ from hdem), Prog.pure_eq, Prog.ret_bind]
    refine wp.seq (wp_dropDemoted hi hidle _) hi fun changed s₂ hi₂ ⟨hp₂, hidle₂⟩ => ?_
    have hrec : svc.wp P t (record .demotion) (fun _ s' => Marked t
        (fun tr => { tr with debt := tr.debt.counted .demotion }) s₂ s') s₂ := by
      refine wp_count fun s₃ hr => ?_
      simp only [Pre, hr.same, hidle₂.debt]
      exact hpos
    refine wp.seq hrec hi₂ fun _ s₃ _ hm₃ => ⟨hp₂.trans (hm₃.passes (Trace.extends_debt _ _)), ?_⟩
    rw [← hcount]
    exact Idle.marked (f := fun d => d.counted .demotion) hidle₂ hm₃
  · have hwhen : svc.wp P t (Run.when (transition.after = .hot ∧ transition.before ≠ .hot)
        (record .promotion)) (fun _ s' => Passes t s s' ∧ Idle t s' (.of rest)) s := by
      refine wp_when (fun hp => ?_) fun hp => ?_
      · obtain ⟨hpos, hcount⟩ := Debt.of_promotion hp rest
        have hrec : svc.wp P t (record .promotion) (fun _ s' => Marked t
            (fun tr => { tr with debt := tr.debt.counted .promotion }) s s') s := by
          refine wp_count fun s₁ hr => ?_
          simp only [Pre, hr.same, hidle.debt]
          exact hpos
        refine hrec.mono fun _ s₁ hm₁ => ⟨hm₁.passes (Trace.extends_debt _ _), ?_⟩
        rw [← hcount]
        exact Idle.marked (f := fun d => d.counted .promotion) hidle hm₁
      · rw [Debt.of_other hp hdem] at hidle
        exact ⟨.refl t s, hidle⟩
    rw [if_neg (show ¬ (_ ∧ _) from hdem)]
    exact wp.seq hwhen hi fun _ s₁ _ h₁ => h₁

theorem wp_applyTransitionsLoop (transitions : List Hotness.Transition) (changed : Bool)
    (hi : svc.Base s) (hidle : Idle t s (.of transitions)) :
    svc.wp P t (svc.applyTransitionsLoop changed transitions)
      (fun _ s' => Passes t s s' ∧ Idle t s') s := by
  induction transitions generalizing changed s with
  | nil => exact ⟨.refl t s, hidle⟩
  | cons transition rest ih =>
    refine wp.seq (wp_applyTransition hi transition hidle) hi fun _ s₁ hi₁ ⟨hp₁, hidle₁⟩ => ?_
    exact (ih _ hi₁ hidle₁).mono fun _ _ h => ⟨hp₁.trans h.1, h.2⟩

theorem wp_applyTransitions {transitions : List Hotness.Transition} (hi : svc.Base s)
    (hidle : Idle t s (.of transitions)) :
    svc.wp P t (svc.applyTransitions transitions) (fun _ s' => Passes t s s' ∧ Idle t s') s := by
  unfold applyTransitions
  refine wp.seq (wp_applyTransitionsLoop transitions false hi hidle) hi fun changed s₁ hi₁ h₁ => ?_
  refine wp_when (fun _ => (wp_observeCache hi₁).mono fun _ _ hr => ?_) fun _ => h₁
  exact ⟨h₁.1.trans hr.toPasses, h₁.2.of_quiet hr.toQuiet⟩

theorem wp_publishHotKeys (hi : svc.Base s) :
    svc.wp P t publishHotKeys (fun _ s' => Rely t s s') s := by
  unfold publishHotKeys
  have hstats : svc.wp P t (Run.do (.tracker .stats)) (fun _ s' => Rely t s s') s :=
    wp_still trivial fun _ _ => trivial
  exact wp.seq hstats hi fun _ s₁ _ hr => (wp_record _).mono fun _ _ hr' => hr.trans hr'

theorem wp_handleObservation {observation : Hotness.Observation} (hi : svc.Base s)
    (hidle : Idle t s (.of observation.transitions)) :
    svc.wp P t (svc.handleObservation observation) (fun _ s' => Passes t s s' ∧ Idle t s') s := by
  unfold handleObservation
  refine wp.seq (wp_applyTransitions hi hidle) hi fun _ s₁ hi₁ ⟨hp₁, hidle₁⟩ => ?_
  have hpub : svc.wp P t (Run.when (observation.transitions ≠ []) publishHotKeys)
      (fun _ s' => Rely t s₁ s') s₁ := wp_when (fun _ => wp_publishHotKeys hi₁) fun _ => .refl t s₁
  refine wp.seq hpub hi₁ fun _ s₂ hi₂ hr₂ => ?_
  have hrec : ∀ (c : Bool) (m : Metric) (s : World), (Action.record m).Still →
      svc.wp P t (Run.when (c = true) (record m)) (fun _ s' => Rely t s s') s :=
    fun c m s hm => wp_when (fun _ => wp_record _ hm) fun _ => .refl t s
  refine wp.seq (hrec _ _ s₂ trivial) hi₂ fun _ s₃ _ hr₃ => ?_
  have hdrops := hrec observation.capacityObservationDropped
    (.observeHotnessCapacityDrops observation.capacityDrops) s₃ trivial
  refine hdrops.mono fun _ s₄ hr₄ => ?_
  have hr := (hr₂.trans hr₃).trans hr₄
  exact ⟨hp₁.trans hr.toPasses, hidle₁.of_quiet hr.toQuiet⟩

theorem wp_handleTransitions {transitions : List Hotness.Transition} (hi : svc.Base s)
    (hidle : Idle t s (.of transitions)) :
    svc.wp P t (svc.handleTransitions transitions) (fun _ s' => Passes t s s' ∧ Idle t s') s := by
  unfold handleTransitions
  refine wp.seq (wp_applyTransitions hi hidle) hi fun _ s₁ hi₁ ⟨hp₁, hidle₁⟩ => ?_
  refine wp.seq (wp_publishHotKeys hi₁) hi₁ fun _ s₂ hi₂ hr₂ => ?_
  refine wp.seq (wp_still trivial fun _ _ => trivial) hi₂
    fun _ s₃ hi₃ hr₃ => ?_
  refine wp.seq (wp_record _) hi₃ fun _ s₄ hi₄ hr₄ => ?_
  refine wp.seq (wp_still trivial fun _ _ => trivial) hi₄
    fun _ s₅ _ hr₅ => ?_
  refine (wp_record _).mono fun _ s₆ hr₆ => ?_
  have hr := (hr₂.trans (hr₃.trans hr₄)).trans (hr₅.trans hr₆)
  exact ⟨hp₁.trans hr.toPasses, hidle₁.of_quiet hr.toQuiet⟩

def Found (t : Nat) (key : Key) (r : Option EntrySnapshot) (s : World) : Prop :=
  ∀ item, r = some item → ⟨.tier, key, item.toValue⟩ ∈ (s.trace t).seen

theorem Found.none : Found t key none s := nofun

theorem Found.passes (h : Found t key r s) (hp : Passes t s s') : Found t key r s' :=
  fun item hr => hp.trace.seen _ (h item hr)

theorem wp_getFreshProtected (key : Key) :
    svc.wp P t (svc.getFreshProtected key) (fun r s' => Quiet t s s' ∧ Found t key r s') s := by
  unfold getFreshProtected
  split
  · exact wp_getStale .cache key 0
  · exact (wp_get .cache key).mono fun _ _ h => ⟨h.1, fun item hr => (h.2 item hr).1⟩

theorem wp_getPromoted (hi : svc.Base s) (hidle : Idle t s) (key : Key) :
    svc.wp P t (svc.getPromoted key) (fun r s' => Off t s s' ∧ Found t key r s') s := by
  unfold getPromoted
  refine wp.seq (wp_isHot key) hi fun hot s₁ hi₁ ⟨hr₁, _⟩ => ?_
  have h₁ := Off.of_quiet hidle hr₁.toQuiet
  split
  · refine wp.seq (wp_still trivial fun _ _ => trivial) hi₁
      fun promoting s₂ hi₂ hr₂ => ?_
    have h₂ := h₁.quiet hr₂.toQuiet
    split
    · refine wp.seq (wp_lock_idle _ h₂.2) hi₂ fun _ s₃ hi₃ ⟨hp₃, hh₃⟩ => ?_
      refine wp.seq (wp_getFreshProtected key) hi₃ fun item s₄ hi₄ ⟨hq₄, hf₄⟩ => ?_
      refine wp.seq (wp_unlock_holds (hh₃.of_quiet hq₄)) hi₄ fun _ s₅ _ ⟨hp₅, hidle₅⟩ => ?_
      exact ⟨⟨(h₂.1.trans hp₃).trans (hq₄.toProgress.trans hp₅), hidle₅⟩, hf₄.passes hp₅.toPasses⟩
    · exact (wp_getFreshProtected key).mono fun _ _ h => ⟨h₂.quiet h.1, h.2⟩
  · exact ⟨h₁, .none⟩

theorem wp_transferCandidate {d : Debt} (hi : svc.Base s) (hh : Holds t (cacheEpochStripe key) s d)
    (candidate : EntrySnapshot)
    (hc : ∃ l, (s.trace t).carried = some ⟨key, candidate.value, candidate.expiresAt, l⟩)
    (promoting : Bool) (hhot : promoting = true → s.HotBut t key) :
    svc.wp P t (transferCandidate key candidate promoting)
      (fun _ s' => Progress t s s' ∧ Holds t (cacheEpochStripe key) s' d) s := by
  have hstore : ∀ (b : Bool) (s : World), Holds t (cacheEpochStripe key) s d →
      svc.wp P t (Run.do (.stripe (cacheEpochStripe key) (.promotionStore b)))
        (fun _ s' => Rely t s s') s := fun b s hh =>
    wp_still trivial fun _ hr => (hr.owner _).1 hh.owns
  unfold transferCandidate
  split
  · rename_i hyes
    refine wp.seq (hstore true s hh) hi fun _ s₁ hi₁ hr₁ => ?_
    have hh₁ := hh.of_quiet hr₁.toQuiet
    refine wp.seq (wp_delete hh₁.owns) hi₁ fun _ s₂ hi₂ ⟨hr₂, hnone⟩ => ?_
    have hh₂ := hh₁.of_quiet hr₂.toQuiet
    have hr := hr₁.trans hr₂
    -- Nothing since the second look has touched what the goroutine carries.
    have hc₂ : ∃ l, (s₂.trace t).carried = some ⟨key, candidate.value, candidate.expiresAt, l⟩ := by
      rw [hr.same]
      exact hc
    refine wp.seq (wp_putUntil hh₂.owns hc₂ hnone (hr.hot key hh.owns (hhot hyes))) hi₂
      fun stored s₃ hi₃ ⟨hp₃, hown₃⟩ => ?_
    have hh₃ := hh₂.progress hp₃ hown₃
    refine wp.seq (hstore false s₃ hh₃) hi₃ fun _ s₄ _ hr₄ => ?_
    exact ⟨((hr₁.trans hr₂).toProgress.trans hp₃).trans hr₄.toProgress,
      hh₃.of_quiet hr₄.toQuiet⟩
  · exact wp.seq (wp_delete hh.owns) hi fun _ s₁ _ ⟨hr₁, _⟩ =>
      ⟨hr₁.toProgress, hh.of_quiet hr₁.toQuiet⟩

theorem wp_promoteCandidate (hi : svc.Base s) (hh : Holds t (cacheEpochStripe key) s) :
    svc.wp P t (svc.promoteCandidate key) (fun r s' => Off t s s' ∧ Found t key r s') s := by
  unfold promoteCandidate
  refine wp.seq (wp_get .probationary key) hi fun candidate s₁ hi₁ ⟨hq₁, hf₁⟩ => ?_
  have hh₁ := hh.of_quiet hq₁
  cases candidate with
  | none =>
    refine wp.seq (wp_unlock_holds hh₁) hi₁ fun _ s₂ _ ⟨hp₂, hidle₂⟩ => ?_
    exact ⟨⟨hq₁.toProgress.trans hp₂, hidle₂⟩, .none⟩
  | some candidate =>
    obtain ⟨hseen, hcarried⟩ := hf₁ candidate rfl
    refine wp.seq (wp_admitKey key) hi₁ fun observation s₂ hi₂ ⟨hm₂, hhot⟩ => ?_
    have hh₂ := Holds.marked (f := fun d => d.take observation.transitions) hh₁ hm₂
    have hc₂ : ∃ l, (s₂.trace t).carried = some ⟨key, candidate.value, candidate.expiresAt, l⟩ := by
      rw [hm₂.trace]
      exact hcarried rfl
    refine wp.seq
      (wp_transferCandidate hi₂ hh₂ candidate hc₂ _ fun h => hhot (of_decide_eq_true h)) hi₂
      fun stored s₃ hi₃ ⟨hp₃, hh₃⟩ => ?_
    refine wp.seq (wp_unlock_holds hh₃) hi₃ fun _ s₄ hi₄ ⟨hp₄, hidle₄⟩ => ?_
    refine wp.seq (wp_handleObservation hi₄ hidle₄) hi₄ fun _ s₅ hi₅ ⟨hp₅, hidle₅⟩ => ?_
    refine wp.seq (wp_observeCache hi₅) hi₅ fun _ s₆ _ hr₆ => ?_
    have hp : Passes t s₁ s₆ := (((hm₂.passes (Trace.extends_debt _ _)).trans
      (hp₃.trans hp₄).toPasses).trans hp₅).trans hr₆.toPasses
    have hidle₆ := hidle₅.of_quiet hr₆.toQuiet
    refine ⟨.of_passes hh.debt (hq₁.toPasses.trans hp) hidle₆, fun item hr => ?_⟩
    split at hr
    · cases hr
      exact hp.trace.seen _ hseen
    · cases hr

theorem wp_promote (hi : svc.Base s) (hidle : Idle t s) (key : Key) :
    svc.wp P t (svc.promote key) (fun r s' => Off t s s' ∧ Found t key r s') s := by
  unfold promote
  refine wp.seq (wp_lock_idle _ hidle) hi fun _ s₁ hi₁ ⟨hp₁, hh₁⟩ => ?_
  refine wp.seq (wp_isHot key) hi₁ fun hot s₂ hi₂ ⟨hr₂, _⟩ => ?_
  have hh₂ := hh₁.of_quiet hr₂.toQuiet
  have hp₂ := hp₁.trans hr₂.toProgress
  split
  · refine wp.seq (wp_getFreshProtected key) hi₂ fun item s₃ hi₃ ⟨hq₃, hf₃⟩ => ?_
    have hh₃ := hh₂.of_quiet hq₃
    cases item with
    | some item =>
      refine wp.seq (wp_unlock_holds hh₃) hi₃ fun _ s₄ _ ⟨hp₄, hidle₄⟩ => ?_
      exact ⟨⟨(hp₂.trans hq₃.toProgress).trans hp₄, hidle₄⟩, hf₃.passes hp₄.toPasses⟩
    | none =>
      refine (wp_promoteCandidate hi₃ hh₃).mono fun _ _ h => ⟨⟨?_, h.1.2⟩, h.2⟩
      exact (hp₂.trans hq₃.toProgress).trans h.1.1
  · exact (wp_promoteCandidate hi₂ hh₂).mono fun _ _ h => ⟨⟨hp₂.trans h.1.1, h.1.2⟩, h.2⟩

theorem wp_getProbationary (hi : svc.Base s) (hidle : Idle t s) (key : Key) :
    svc.wp P t (svc.getProbationary key) (fun r s' => Off t s s' ∧ Found t key r s') s := by
  unfold getProbationary
  split
  · refine wp.seq (wp_get .probationary key) hi fun candidate s₁ hi₁ ⟨hq₁, _⟩ => ?_
    have h₁ := Off.of_quiet hidle hq₁
    cases candidate with
    | none => exact (wp_getPromoted hi₁ h₁.2 key).mono fun _ _ h => ⟨h₁.trans h.1, h.2⟩
    | some candidate => exact (wp_promote hi₁ h₁.2 key).mono fun _ _ h => ⟨h₁.trans h.1, h.2⟩
  · exact ⟨⟨.refl t s, hidle⟩, .none⟩

theorem wp_getFreshCachedInState (hi : svc.Base s) (hidle : Idle t s) (key : Key)
    (state : Option Hotness.State) :
    svc.wp P t (svc.getFreshCachedInState key state)
      (fun r s' => Off t s s' ∧ Found t key r s') s := by
  unfold getFreshCachedInState
  split
  · refine wp.seq (wp_getFreshProtected key) hi fun item s₁ hi₁ ⟨hq₁, hf₁⟩ => ?_
    have h₁ := Off.of_quiet hidle hq₁
    cases item with
    | some item => exact ⟨h₁, hf₁⟩
    | none => exact (wp_getProbationary hi₁ h₁.2 key).mono fun _ _ h => ⟨h₁.trans h.1, h.2⟩
  · exact wp_getProbationary hi hidle key

theorem localTTL_bounds {upstreamTTL policyMaxTTL : Time}
    (h : ¬ svc.localTTL upstreamTTL policyMaxTTL ≤ 0) :
    svc.localTTL upstreamTTL policyMaxTTL ≤ svc.cfg.cache.maxLocalTTL ∧
      svc.localTTL upstreamTTL policyMaxTTL ≤ policyMaxTTL ∧
      (0 < upstreamTTL → svc.localTTL upstreamTTL policyMaxTTL ≤ upstreamTTL) ∧
        upstreamTTL ≠ 0 := by
  unfold localTTL at h ⊢
  split_ifs at h ⊢ <;> grind

theorem fits_of_stored {tier : Tier} {key : Key} {value : Value} {ttl : Time}
    (hk : Hotness.Tracker.Trackable key) (hp : value.data.source.pttl = value.pttl)
    (hc : ¬ ((svc.policy key).maxItemBytes ≤ 0 ∨
      estimateSize key value.data > (svc.policy key).maxItemBytes ∨ ttl ≤ 0))
    (hle : ttl ≤ svc.localTTL value.pttl (svc.policy key).maxLocalTTL)
    (hw : tier = .probationary → 0 < svc.cfg.hotness.window → ttl ≤ svc.cfg.hotness.window) :
    svc.Fits tier key value.data ttl := by
  rw [not_or, not_or] at hc
  obtain ⟨-, hsize, httl⟩ := hc
  obtain ⟨hlocal, hpolicy, hpttl, hne⟩ := localTTL_bounds fun h => httl (hle.trans h)
  exact ⟨hk, not_lt.1 hsize, hle.trans hlocal, hle.trans hpolicy,
    hp ▸ fun hpos => hle.trans (hpttl hpos), hp ▸ hne, hw⟩

theorem wp_storeIn {tier : Tier} {key : Key} {value : Value} {ttl : Time} {d : Debt}
    (hi : svc.Base s) (hh : Holds t (cacheEpochStripe key) s d)
    (hv : ∀ s₁, Rely t s s₁ → svc.Installs s₁ t key value.data)
    (hk : Hotness.Tracker.Trackable key) (hp : value.data.source.pttl = value.pttl)
    (hle : ttl ≤ svc.localTTL value.pttl (svc.policy key).maxLocalTTL)
    (hw : tier = .probationary → 0 < svc.cfg.hotness.window → ttl ≤ svc.cfg.hotness.window)
    (hother : s.find tier.other key = none) (hhot : tier = .cache → s.HotBut t key) :
    svc.wp P t (storeIn tier key value (svc.policy key) ttl)
      (fun _ s' => Stored t tier key value.data s s') s := by
  unfold storeIn
  split
  · refine wp.seq (wp_delete hh.owns) hi fun _ s₁ _ ⟨hr, hnone⟩ => ?_
    refine ⟨hr.toProgress, hr.owner, fun e' hf => ?_, fun tier' e' _ hf => ?_⟩
    · rw [hnone] at hf
      cases hf
    · exact hr.within tier' key e' hh.owns hf
  · rename_i hc
    exact wp_put (fun h => hc (.inr (.inr h))) hh.owns hv
      (fits_of_stored hk hp hc hle hw) hother hhot

theorem probationaryTTL_le (svc : Service) (value : Value) (policy : Decision) :
    svc.probationaryTTL value policy ≤ svc.localTTL value.pttl policy.maxLocalTTL ∧
      (0 < svc.cfg.hotness.window → svc.probationaryTTL value policy ≤ svc.cfg.hotness.window) := by
  unfold probationaryTTL
  dsimp only
  split_ifs <;> grind

/-- What a goroutine knows about a value that it may install for a key: it has read it itself,
and the read is current with respect to the epoch it started from. -/
structure Refill (t : Nat) (key : Key) (value : Value) (epoch : Nat) (i : Issue) (s : World) :
    Prop where
  seen : ⟨.upstream, key, value⟩ ∈ (s.trace t).seen
  source : ∃ version, i.version ≤ version ∧ value.data.source = .read i.ticket version value.pttl
  current : Current i (cacheEpochStripe key) epoch s

theorem Refill.progress (h : Refill t key value epoch i s) (hp : Progress t s s') :
    Refill t key value epoch i s' :=
  ⟨hp.trace.seen _ h.seen, h.source, h.current.grows hp.toGrows⟩

theorem Refill.installs (h : Refill t key value epoch i s) (hm : (svc.policy key).mode = .cache)
    (he : (s.stripes (cacheEpochStripe key)).epoch = epoch) (hx : value.exists? = true) :
    svc.Installs s t key value.data := by
  obtain ⟨version, hle, hsource⟩ := h.source
  obtain ⟨hv, hq⟩ := h.current.2 he
  refine ⟨hm, .inl ⟨i.ticket, version, value.pttl, hsource, ?_, hv.trans hle, hq⟩⟩
  rw [← hx]
  exact h.seen

theorem wp_reconcile (hi : svc.Base s) (hh : Holds t (cacheEpochStripe key) s)
    (hm : (svc.policy key).mode = .cache) (h : Refill t key value epoch i s)
    (he : (s.stripes (cacheEpochStripe key)).epoch = epoch) :
    svc.wp P t (svc.reconcile key value (svc.policy key))
      (fun _ s' => Progress t s s' ∧ Holds t (cacheEpochStripe key) s') s := by
  have hpttl : value.data.source.pttl = value.pttl := by
    obtain ⟨version, -, hs⟩ := h.source
    rw [hs]
    rfl
  -- As long as the stripe is held the read stays current.
  have hinstalls : ∀ s₁, Quiet t s s₁ → value.exists? = true →
      ∀ s₂, Rely t s₁ s₂ → svc.Installs s₂ t key value.data := by
    intro s₁ hq hx s₂ hr
    have hq := hq.trans hr.toQuiet
    exact (h.progress hq.toProgress).installs hm ((hq.held _ hh.owns).trans he) hx
  unfold reconcile
  split
  · rename_i hx
    refine wp.seq (wp_isHot key) hi fun hot s₁ hi₁ ⟨hr₁, hhot⟩ => ?_
    have hh₁ := hh.of_quiet hr₁.toQuiet
    split
    · rename_i hyes
      obtain ⟨hhot, hk⟩ := hhot hyes
      refine wp.seq (wp_deleteProbationary hi₁ hh₁.owns) hi₁ fun _ s₂ hi₂ ⟨hr₂, hnone⟩ => ?_
      have hh₂ := hh₁.of_quiet hr₂.toQuiet
      refine wp.seq
        (wp_storeIn hi₂ hh₂ (hinstalls s₂ (hr₁.trans hr₂).toQuiet hx) hk hpttl le_rfl nofun
        hnone fun _ => hr₂.hot key hh₁.owns hhot) hi₂ fun _ s₃ _ h₃ => ?_
      exact ⟨(hr₁.trans hr₂).toProgress.trans h₃.toProgress, hh₂.progress h₃.toProgress h₃.owner⟩
    · refine wp.seq (wp_delete hh₁.owns) hi₁ fun _ s₂ hi₂ ⟨hr₂, hnone⟩ => ?_
      have hh₂ := hh₁.of_quiet hr₂.toQuiet
      have hp₂ := (hr₁.trans hr₂).toProgress
      unfold storeProbationary
      split
      · refine wp.bind (wp.seq (wp_isTracked key) hi₂ fun tracked s₃ hi₃ ⟨hr₃, hk⟩ => ?_)
        have hh₃ := hh₂.of_quiet hr₃.toQuiet
        split
        · rename_i hyes
          obtain ⟨hle, hw⟩ := probationaryTTL_le svc value (svc.policy key)
          have hnone₃ : s₃.find (Tier.other .probationary) key = none :=
            find_eq_none_of_rely hr₃ hh₂.owns hnone
          refine (wp_storeIn hi₃ hh₃ (hinstalls s₃ ((hr₁.trans hr₂).trans hr₃).toQuiet hx)
            (hk hyes) hpttl
            hle (fun _ => hw) hnone₃ nofun).mono fun _ s₄ h₄ => ?_
          exact ⟨(hp₂.trans hr₃.toProgress).trans h₄.toProgress,
            hh₃.progress h₄.toProgress h₄.owner⟩
        · exact ⟨hp₂.trans hr₃.toProgress, hh₃⟩
      · exact ⟨hp₂, hh₂⟩
  · refine wp.seq (wp_delete hh.owns) hi fun _ s₁ hi₁ ⟨hr₁, _⟩ => ?_
    have hh₁ := hh.of_quiet hr₁.toQuiet
    refine wp.seq (wp_deleteProbationary hi₁ hh₁.owns) hi₁ fun _ s₂ _ ⟨hr₂, _⟩ => ?_
    exact ⟨(hr₁.trans hr₂).toProgress, hh₁.of_quiet hr₂.toQuiet⟩

theorem wp_reconcileLocalIfCurrent (hi : svc.Base s) (hidle : Idle t s)
    (hm : (svc.policy key).mode = .cache) (h : Refill t key value epoch i s) :
    svc.wp P t (svc.reconcileLocalIfCurrent key value epoch (svc.policy key))
      (fun _ s' => Off t s s') s := by
  unfold reconcileLocalIfCurrent
  refine wp.seq (wp_lock_idle _ hidle) hi fun _ s₁ hi₁ ⟨hp₁, hh₁⟩ => ?_
  refine wp.seq (wp_epochLoad _) hi₁ fun current s₂ hi₂ ⟨hr₂, hcur⟩ => ?_
  have hh₂ := hh₁.of_quiet hr₂.toQuiet
  have hp₂ := hp₁.trans hr₂.toProgress
  have hwhen : svc.wp P t (Run.when (current = epoch) (svc.reconcile key value (svc.policy key)))
      (fun _ s' => Progress t s₂ s' ∧ Holds t (cacheEpochStripe key) s') s₂ :=
    wp_when (fun he => wp_reconcile hi₂ hh₂ hm (h.progress hp₂) (hcur.symm.trans he))
      fun _ => ⟨.refl t s₂, hh₂⟩
  refine wp.seq hwhen hi₂ fun _ s₃ hi₃ ⟨hp₃, hh₃⟩ => ?_
  exact (wp_unlock_holds hh₃).mono fun _ _ h => ⟨hp₂.trans (hp₃.trans h.1), h.2⟩

end Slizen.Service
