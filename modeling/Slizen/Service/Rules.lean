import Slizen.Service.Discipline

namespace Slizen
set_option autoImplicit true

open Interleaving

/-- Actions by which a goroutine only looks at the service or takes something away from it, and
which have nothing to do with transitions. -/
def Action.Calm : Action → Prop
  | .tracker (.observeWithState _) => False
  | .tracker (.admitKey _) => False
  | .tracker .advance => False
  | .tracker (.advanceAndSnapshot _) => False
  | .cache _ (.put _ _ _) => False
  | .cache _ (.putUntil _ _ _) => False
  | .stripe _ .lock => False
  | .stripe _ .unlock => False
  | .stripe _ .epochAdd => False
  | .gate _ _ => False
  | .group (.doChan _ _ _) => False
  | .group (.forget _) => False
  | .upstream (.answer _ _) => False
  | .upstream (.dispatch _ _ _) => False
  | .record .promotion => False
  | .record .demotion => False
  | .note _ => False
  | _ => True

theorem Trace.extends_see (tr : Trace) (via : Via) (key : Key) (value : Value) :
    tr.Extends (tr.see via key value) :=
  ⟨rfl, rfl, rfl, rfl, rfl, rfl, rfl, rfl, rfl, rfl, rfl, fun _ h => List.mem_cons_of_mem _ h⟩

theorem Trace.extends_debt (tr : Trace) (d : Debt) : tr.Extends { tr with debt := d } :=
  ⟨rfl, rfl, rfl, rfl, rfl, rfl, rfl, rfl, rfl, rfl, rfl, fun _ h => h⟩

theorem Trace.recordCache_extends (tr : Trace) (lodged : Tier → Key → Lodging) (tier : Tier)
    (op : CacheOp) (b : op.Resp) : tr.Extends (tr.recordCache lodged tier op b) := by
  cases op with
  | get key =>
    cases b with
    | none => exact .refl _
    | some item =>
      simp only [recordCache]
      split
      · exact (tr.extends_see .tier key item.toValue).trans
          ⟨rfl, rfl, rfl, rfl, rfl, rfl, rfl, rfl, rfl, rfl, rfl, fun _ h => h⟩
      · exact tr.extends_see .tier key item.toValue
  | getStale key grace =>
    cases b with
    | none => exact .refl _
    | some item => exact tr.extends_see .tier key item.toValue
  | _ => exact .refl _

theorem Trace.recordCache_debt (tr : Trace) (lodged : Tier → Key → Lodging) (tier : Tier)
    (op : CacheOp) (b : op.Resp) : (tr.recordCache lodged tier op b).debt = tr.debt := by
  cases op with
  | get key =>
    cases b with
    | none => rfl
    | some item =>
      simp only [recordCache]
      split <;> rfl
  | getStale key grace => cases b <;> rfl
  | _ => rfl

def Action.Still : Action → Prop
  | .cache _ (.get _) => False
  | .cache _ (.getStale _ _) => False
  | .group (.wait _ _) => False
  | a => a.Calm

theorem Action.Still.calm {a : Action} (h : a.Still) : a.Calm := by
  cases a with
  | cache tier op => cases op <;> first | exact h | exact h.elim
  | group op => cases op <;> first | exact h | exact h.elim
  | _ => exact h

@[simp] theorem Debt.take_nil (d : Debt) : d.take [] = d := by
  simp [take, demotedKeys, Hotness.promotions, Hotness.demotions]

theorem Trace.record_still {a : Action} (h : a.Still) (tr : Trace) (s : World) (b : a.Resp) :
    tr.record s a b = tr := by
  cases a with
  | tracker op =>
    simp only [record, recordTracker]
    cases op <;> first | exact h.elim | simp only [TrackerOp.transitions, Debt.take_nil]
  | cache tier op => cases op <;> first | rfl | exact h.elim
  | stripe σ op => cases op <;> first | rfl | exact h.elim
  | group op => cases op <;> first | rfl | exact h.elim
  | upstream op => cases op <;> first | rfl | exact h.elim
  | record m => cases m <;> first | rfl | exact h.elim
  | note n => exact h.elim
  | _ => rfl

theorem TrackerOp.run_still {op : TrackerOp} {b : op.Resp} (h : (Action.tracker op).Still)
    (hr : op.run tr c now = some (b, tr')) : tr' = tr := by
  cases op <;> first | exact h.elim | (cases hr; rfl)

theorem Service.fork_calm {svc : Service} {a : Action} (h : a.Calm) (b : a.Resp) :
    svc.fork a b = none := by
  cases a with
  | group op => cases op <;> first | rfl | exact h.elim
  | _ => rfl

theorem Service.fork_flight {svc : Service} {a : Action} {b : a.Resp} (h : svc.fork a b = some p) :
    ∃ key epoch policy f, p = svc.flight key epoch policy f := by
  unfold Service.fork at h
  split at h
  · split at h
    · cases h
      exact ⟨_, _, _, _, rfl⟩
    · cases h
  · cases h

theorem Quiet.of_frame {s s' : World} (ho : s.origin.version ≤ s'.origin.version)
    (hq : s.reqs ≤ s'.reqs)
    (hs : ∀ σ, (s'.stripes σ).owner = (s.stripes σ).owner ∧
      (s'.stripes σ).epoch = (s.stripes σ).epoch)
    (hg : s'.gates = s.gates) (hc : s'.contexts = s.contexts)
    (hf : ∀ f key, s.FlightOf f key → s'.FlightOf f key) (hb : s'.past.bump = s.past.bump)
    (ht : (s.trace t).Extends (s'.trace t)) (hd : (s'.trace t).debt = (s.trace t).debt)
    (hw : ∀ tier, (s'.tiers tier).Within (s.tiers tier)) : Quiet t s s' where
  version := ho
  reqs := hq
  epoch := fun σ => (hs σ).2.ge
  bump_version := fun σ => by rw [hb]
  bump_reqs := fun σ => by rw [hb]
  bump := fun σ _ => by rw [hb]
  gates := fun σ => by rw [hg]
  contexts := fun e h => by
    rw [hc]
    exact h
  flights := hf
  trace := ht
  debt := hd
  owner := fun σ => by rw [World.Owns, World.Owns, (hs σ).1]
  held := fun σ _ => (hs σ).2
  within := fun tier k e' _ h => hw tier k e' h

namespace World

variable {s s' : World} {t : Nat} {c : Choice}

theorem quiet_of_exec {a : Action} {b : a.Resp} (ha : a.Calm) (h : exec t a c s = some (b, s')) :
    Quiet t s s' := by
  have hsame : ∀ σ : Stripe, (s.stripes σ).owner = (s.stripes σ).owner ∧
      (s.stripes σ).epoch = (s.stripes σ).epoch := fun _ => ⟨rfl, rfl⟩
  have hfl : ∀ f key, s.FlightOf f key → s.FlightOf f key := fun _ _ h => h
  have hkeep : ∀ {a : Action} {b : a.Resp}, a.Still →
      (Past.record s t a b).trace t = s.trace t := by
    intro a b ha
    rw [Past.record_trace_self, Trace.record_still ha]
  have hstill : ∀ {a : Action} {b : a.Resp}, a.Still →
      (s.trace t).Extends ((Past.record s t a b).trace t) := by
    intro a b ha
    rw [hkeep ha]
    exact .refl _
  have hdebt : ∀ {a : Action} {b : a.Resp}, a.Still →
      ((Past.record s t a b).trace t).debt = (s.trace t).debt := by
    intro a b ha
    rw [hkeep ha]
  cases a with
  | tracker op =>
    obtain ⟨tr, -, rfl⟩ := exec_tracker h
    exact .of_frame le_rfl le_rfl hsame rfl rfl hfl rfl (hstill ha) (hdebt ha) fun _ => .refl _
  | cache tier op =>
    have hb := exec_bump h (by simp)
    obtain ⟨rfl, rfl⟩ := exec_cache h
    refine .of_frame le_rfl le_rfl hsame rfl rfl hfl hb ?_ ?_ ?_
    · rw [World.trace, World.trace, Past.record_trace_self]
      exact Trace.recordCache_extends _ _ tier op _
    · rw [World.trace, World.trace, Past.record_trace_self]
      exact Trace.recordCache_debt _ _ tier op _
    intro tier' k e' hf
    by_cases ht : tier' = tier
    · subst ht
      simp only [Function.update_self] at hf
      rcases CacheOp.run_find hf with he | ⟨v, ttl, rfl, -, -⟩ | ⟨v, exp, rfl, -, -⟩
      · exact he
      · exact ha.elim
      · exact ha.elim
    · simp only [Function.update_of_ne ht] at hf
      exact ⟨e', hf, .refl e'⟩
  | stripe σ op =>
    have hb : ∀ τ, Action.stripe σ op ≠ .stripe τ .epochAdd := by
      rintro τ heq
      cases heq
      exact ha
    have hb := exec_bump h hb
    obtain ⟨st, hst, rfl⟩ := exec_stripe h
    have hstripe : st.owner = (s.stripes σ).owner ∧ st.epoch = (s.stripes σ).epoch := by
      cases op with
      | epochLoad | promotionLoad | promotionStore v =>
        cases hst
        exact ⟨rfl, rfl⟩
      | lock | unlock | epochAdd => exact ha.elim
    refine .of_frame le_rfl le_rfl (fun τ => ?_) rfl rfl hfl hb (hstill ha) (hdebt ha)
      fun _ => .refl _
    by_cases hτ : τ = σ
    · subst hτ
      simpa using hstripe
    · simp [hτ]
  | group op =>
    have hb := exec_bump h (by simp)
    obtain ⟨s₁, hs, rfl⟩ := exec_group h
    have hf := stepGroup_frame hs
    have htr : (s.trace t).Extends ((Past.record s₁ t (.group op) b).trace t) ∧
        ((Past.record s₁ t (.group op) b).trace t).debt = (s.trace t).debt := by
      rw [Past.record_trace_self, World.trace, World.trace, show s₁.past = s.past by rw [hf]]
      cases op with
      | doChan key epoch policy => exact ha.elim
      | forget key => exact ha.elim
      | complete f r => exact ⟨.refl _, rfl⟩
      | wait f deadline =>
        cases b with
        | done e => exact ⟨.refl _, rfl⟩
        | result r shared =>
          cases r with
          | error e => exact ⟨.refl _, rfl⟩
          | ok value =>
            simp only [Trace.record, Trace.recordGroup]
            cases s₁.flights[f]? with
            | none => exact ⟨.refl _, rfl⟩
            | some fl => exact ⟨Trace.extends_see _ _ _ _, rfl⟩
    have hfl := stepGroup_flights hs
    rw [hf] at hb htr ⊢
    exact .of_frame le_rfl le_rfl hsame rfl rfl hfl hb htr.1 htr.2 fun _ => .refl _
  | upstream op =>
    have hb := exec_bump h (by simp)
    obtain ⟨s₁, hs, rfl⟩ := exec_upstream h
    obtain ⟨hf, hv, hq⟩ := stepUpstream_frame hs
    have htr : (Past.record s₁ t (.upstream op) b).trace t = s.trace t := by
      have hst : (Action.upstream op).Still := ha
      rw [Past.record_trace_self, Trace.record_still hst, World.trace, World.trace,
        show s₁.past = s.past by rw [hf]]
    rw [hf] at hb htr ⊢
    exact .of_frame hv hq hsame rfl rfl hfl hb (htr.symm ▸ .refl _) (congrArg Trace.debt htr)
      fun _ => .refl _
  | gate σ op => exact ha.elim
  | note n => exact ha.elim
  | record m =>
    cases exec_record h
    exact .of_frame le_rfl le_rfl hsame rfl rfl hfl rfl (hstill ha) (hdebt ha) fun _ => .refl _
  | counters =>
    obtain ⟨-, rfl⟩ := exec_counters h
    exact .of_frame le_rfl le_rfl hsame rfl rfl hfl rfl (hstill trivial) (hdebt trivial)
      fun _ => .refl _
  | now =>
    obtain ⟨-, rfl⟩ := exec_now h
    exact .of_frame le_rfl le_rfl hsame rfl rfl hfl rfl (hstill trivial) (hdebt trivial)
      fun _ => .refl _
  | ctxErr =>
    obtain ⟨-, rfl⟩ := exec_ctxErr h
    exact .of_frame le_rfl le_rfl hsame rfl rfl hfl rfl (hstill trivial) (hdebt trivial)
      fun _ => .refl _
  | closeSwap =>
    cases exec_closeSwap h
    exact .of_frame le_rfl le_rfl hsame rfl rfl hfl rfl (hstill trivial) (hdebt trivial)
      fun _ => .refl _

theorem rely_of_exec {a : Action} {b : a.Resp} (ha : a.Still) (h : exec t a c s = some (b, s')) :
    Rely t s s' := by
  have htracker : s'.tracker = s.tracker := by
    cases a with
    | tracker op =>
      obtain ⟨tr, hrun, rfl⟩ := exec_tracker h
      exact TrackerOp.run_still ha hrun
    | _ =>
      obtain ⟨s₁, hs, rfl⟩ := exec_eq_some.1 h
      exact (step_frame hs).tracker nofun
  refine ⟨quiet_of_exec ha.calm h, ?_,
    fun k _ hk => hk.congr htracker fun u hu => exec_trace_of_ne h hu⟩
  obtain ⟨s₁, hs, rfl⟩ := exec_eq_some.1 h
  rw [World.trace, Past.record_trace_self, Trace.record_still ha, World.trace, (step_frame hs).past]

end World

namespace Service

variable {svc : Service} {P : svc.machine.Rules} {s : World} {t : Nat}

abbrev wp (svc : Service) (P : svc.machine.Rules) (t : Nat) (p : Run α) (Q : α → World → Prop)
    (s : World) : Prop := (svc.outline P).wp t p Q s

theorem wp_do {a : Action} {Q : a.Resp → World → Prop} (hf : ∀ b, svc.fork a b = none)
    (h : ∀ s₁, Rely t s s₁ → svc.Base s₁ → svc.Pre t a s₁ ∧
      ∀ c b s₂, World.exec t a c s₁ = some (b, s₂) → Q b s₂) : svc.wp P t (Run.do a) Q s := by
  exact Outline.wp.perform hf h

theorem wp_when {c : Prop} [Decidable c] {p : Run Unit} {Q : Unit → World → Prop}
    (h : c → svc.wp P t p Q s) (h' : ¬ c → Q () s) : svc.wp P t (Run.when c p) Q s := by
  unfold Run.when
  split
  · exact h ‹_›
  · exact h' ‹_›

theorem wp_calm {a : Action} (ha : a.Calm) (hp : ∀ s₁, Rely t s s₁ → svc.Pre t a s₁) :
    svc.wp P t (Run.do a) (fun _ s' => Quiet t s s') s :=
  wp_do (fork_calm ha)
    fun s₁ hr _ => ⟨hp s₁ hr, fun _ _ _ he => hr.toQuiet.trans (World.quiet_of_exec ha he)⟩

theorem wp_still {a : Action} (ha : a.Still) (hp : ∀ s₁, Rely t s s₁ → svc.Pre t a s₁) :
    svc.wp P t (Run.do a) (fun _ s' => Rely t s s') s :=
  wp_do (fork_calm ha.calm) fun s₁ hr _ =>
    ⟨hp s₁ hr, fun _ _ _ he => hr.trans (World.rely_of_exec ha he)⟩

theorem wp_record (m : Metric) (hm : (Action.record m).Still := by exact trivial) :
    svc.wp P t (record m) (fun _ s' => Rely t s s') s :=
  wp_still hm fun _ _ => by cases m <;> trivial

theorem wp_isHot (key : Key) : svc.wp P t (isHot key) (fun hot s' => Rely t s s' ∧
    (hot = true → s'.HotBut t key ∧ Hotness.Tracker.Trackable key)) s := by
  refine wp_do (fun _ => rfl) fun s₁ hr hi => ⟨trivial, fun c b s₂ he => ?_⟩
  refine ⟨hr.trans (World.rely_of_exec (a := .tracker (.isHot key)) trivial he), ?_⟩
  obtain ⟨tr, hrun, rfl⟩ := World.exec_tracker he
  cases hrun
  exact fun hot => ⟨.inl hot, hi.tracker.trackable_of_isHot hot⟩

theorem wp_isTracked (key : Key) : svc.wp P t (Run.do (.tracker (.isTracked key)))
    (fun tracked s' => Rely t s s' ∧ (tracked = true → Hotness.Tracker.Trackable key)) s := by
  refine wp_do (fun _ => rfl) fun s₁ hr hi => ⟨trivial, fun c b s₂ he => ?_⟩
  refine ⟨hr.trans (World.rely_of_exec (a := .tracker (.isTracked key)) trivial he), ?_⟩
  obtain ⟨tr, hrun, -⟩ := World.exec_tracker he
  cases hrun
  exact hi.tracker.trackable_of_isTracked

theorem wp_delete {tier : Tier} {key : Key} (ho : s.Owns t (cacheEpochStripe key)) :
    svc.wp P t (delete tier key) (fun _ s' => Rely t s s' ∧ s'.find tier key = none) s := by
  refine wp_do (fun _ => rfl) fun s₁ hr _ => ⟨(hr.owner _).1 ho, fun c b s₂ he => ?_⟩
  refine ⟨hr.trans (World.rely_of_exec (a := .cache tier (.delete key)) trivial he), ?_⟩
  obtain ⟨rfl, rfl⟩ := World.exec_cache he
  simp [World.find, CacheOp.run]

end Service

structure Holds (t : Nat) (σ : Stripe) (s : World) (d : Debt := {}) : Prop where
  owner : ∀ τ, s.Owns t τ ↔ τ = σ
  debt : (s.trace t).debt = d

theorem Holds.owns (h : Holds t σ s d) : s.Owns t σ := (h.owner σ).2 rfl

theorem Holds.progress (h : Holds t σ s d) (hp : Progress t s s')
    (ho : ∀ τ, s.Owns t τ ↔ s'.Owns t τ) :
    Holds t σ s' d :=
  ⟨fun τ => (ho τ).symm.trans (h.owner τ), hp.debt.trans h.debt⟩

theorem Holds.of_quiet (h : Holds t σ s d) (hq : Quiet t s s') : Holds t σ s' d :=
  h.progress hq.toProgress hq.owner

theorem find_eq_none_of_rely (hr : Rely t s s') (ho : s.Owns t (cacheEpochStripe key))
    (h : s.find tier key = none) : s'.find tier key = none := by
  rw [Option.eq_none_iff_forall_ne_some]
  intro e he
  obtain ⟨e₀, he₀, -⟩ := hr.within tier key e ho he
  rw [h] at he₀
  cases he₀

theorem Progress.of_stripe {s : World} {σ : Stripe} {st : StripeState} {p : Past}
    (he : st.epoch = (s.stripes σ).epoch) (hb : p.bump = s.past.bump)
    (ht : (s.trace t).Extends (p.trace t)) (hd : (p.trace t).debt = (s.trace t).debt) :
    Progress t s { s with stripes := Function.update s.stripes σ st, past := p } where
  version := le_rfl
  reqs := le_rfl
  epoch := by
    intro τ
    by_cases hτ : τ = σ
    · subst hτ
      simp [he]
    · simp [hτ]
  bump_version := fun τ => by simp only [hb, le_refl]
  bump_reqs := fun τ => by simp only [hb, le_refl]
  bump := fun τ _ => by simp only [hb]
  gates := fun _ => .rfl
  contexts := fun _ h => h
  flights := fun _ _ h => h
  trace := ht
  debt := hd

theorem Debt.of_promotion {τ : Hotness.Transition} (h : τ.IsPromotion)
    (l : List Hotness.Transition) :
    0 < (Debt.of (τ :: l)).rises ∧ (Debt.of (τ :: l)).counted .promotion = .of l := by
  have hd : ¬ τ.IsDemotion := fun hd => hd.2 h.1
  simp [of, take, counted, demotedKeys, Hotness.promotions, Hotness.demotions, h, hd]

theorem Debt.of_demotion {τ : Hotness.Transition} (h : τ.IsDemotion) (l : List Hotness.Transition) :
    0 < ((Debt.of (τ :: l)).applied τ.key).falls ∧
      ((Debt.of (τ :: l)).applied τ.key).counted .demotion = .of l := by
  have hp : ¬ τ.IsPromotion := fun hp => h.2 hp.1
  simp [of, take, applied, counted, demotedKeys, Hotness.promotions, Hotness.demotions, h, hp]

theorem Debt.of_other {τ : Hotness.Transition} (hp : ¬ τ.IsPromotion) (hd : ¬ τ.IsDemotion)
    (l : List Hotness.Transition) : Debt.of (τ :: l) = .of l := by
  simp [of, take, demotedKeys, Hotness.promotions, Hotness.demotions, hp, hd]

namespace Service

variable {svc : Service} {P : svc.machine.Rules} {s : World} {t : Nat}

theorem wp_lock (σ : Stripe) (hasc : ∀ τ, s.Owns t τ → τ < σ) :
    svc.wp P t (lock σ)
      (fun _ s' => Progress t s s' ∧ ∀ τ, s'.Owns t τ ↔ s.Owns t τ ∨ τ = σ) s := by
  refine wp_do (fun _ => rfl)
    fun s₁ hr _ => ⟨fun τ ho => hasc τ ((hr.owner τ).2 ho), fun c b s₂ he => ?_⟩
  obtain ⟨st, hst, rfl⟩ := World.exec_stripe he
  obtain ⟨-, heq⟩ := Option.ite_none_right_eq_some.1 hst
  cases heq
  refine ⟨hr.toProgress.trans (.of_stripe rfl rfl ?_ ?_), fun τ => ?_⟩
  · rw [Past.record_trace_self]
    exact ⟨rfl, rfl, rfl, rfl, rfl, rfl, rfl, rfl, rfl, rfl, rfl, fun _ h => h⟩
  · rw [Past.record_trace_self]
    rfl
  · rw [hr.owner τ]
    by_cases hτ : τ = σ
    · subst hτ
      simp [World.Owns]
    · simp [World.Owns, hτ]

theorem wp_lock_idle (σ : Stripe) (hidle : Idle t s d) :
    svc.wp P t (lock σ) (fun _ s' => Progress t s s' ∧ Holds t σ s' d) s :=
  (wp_lock σ fun τ ho => absurd ho (hidle.stripes τ)).mono fun _ _ h =>
    ⟨h.1, fun τ => (h.2 τ).trans (by simp [hidle.stripes τ]), h.1.debt.trans hidle.debt⟩

theorem wp_unlock {σ : Stripe} (ho : s.Owns t σ) :
    svc.wp P t (unlock σ)
      (fun _ s' => Progress t s s' ∧ ∀ τ, s'.Owns t τ ↔ s.Owns t τ ∧ τ ≠ σ) s := by
  refine wp_do (fun _ => rfl) fun s₁ hr _ => ⟨(hr.owner σ).1 ho, fun c b s₂ he => ?_⟩
  obtain ⟨st, hst, rfl⟩ := World.exec_stripe he
  obtain ⟨-, heq⟩ := Option.ite_none_right_eq_some.1 hst
  cases heq
  refine ⟨hr.toProgress.trans (.of_stripe rfl rfl ?_ ?_), fun τ => ?_⟩
  · rw [Past.record_trace_self]
    exact .refl _
  · rw [Past.record_trace_self]
    rfl
  rw [hr.owner τ]
  by_cases hτ : τ = σ
  · subst hτ
    simp [World.Owns]
  · simp [World.Owns, hτ]

theorem wp_unlock_holds {σ : Stripe} (hh : Holds t σ s d) :
    svc.wp P t (unlock σ) (fun _ s' => Progress t s s' ∧ Idle t s' d) s :=
  (wp_unlock hh.owns).mono fun _ _ h =>
    ⟨h.1, fun τ ho => ((h.2 τ).1 ho).2 ((hh.owner τ).1 ((h.2 τ).1 ho).1), h.1.debt.trans hh.debt⟩

theorem wp_epochLoad (σ : Stripe) :
    svc.wp P t (Run.do (.stripe σ .epochLoad))
      (fun e s' => Rely t s s' ∧ e = (s'.stripes σ).epoch) s := by
  refine wp_do (fun _ => rfl) fun s₁ hr _ => ⟨trivial, fun c b s₂ he => ?_⟩
  have hr' := World.rely_of_exec (a := .stripe σ .epochLoad) trivial he
  obtain ⟨st, hst, rfl⟩ := World.exec_stripe he
  cases hst
  exact ⟨hr.trans hr', by simp⟩

structure Advanced (t : Nat) (σ : Stripe) (s s' : World) : Prop extends Progress t s s' where
  owner : ∀ τ, s.Owns t τ ↔ s'.Owns t τ
  within : ∀ tier k e', s.Owns t (cacheEpochStripe k) → s'.find tier k = some e' →
    ∃ e, s.find tier k = some e ∧ e'.Same e
  version_le : s.origin.version ≤ (s'.past.bump σ).version
  reqs_le : s.reqs ≤ (s'.past.bump σ).reqs

theorem wp_epochAdd {σ : Stripe} (ho : s.Owns t σ) :
    svc.wp P t (Run.do (.stripe σ .epochAdd)) (fun _ s' => Advanced t σ s s') s := by
  refine wp_do (fun _ => rfl) fun s₁ hr hi => ⟨(hr.owner σ).1 ho, fun c b s₂ he => ?_⟩
  obtain ⟨st, hst, rfl⟩ := World.exec_stripe he
  cases hst
  have hown : ∀ τ, s₁.Owns t τ ↔ ({ s₁ with
      stripes := Function.update s₁.stripes σ
        { s₁.stripes σ with epoch := (s₁.stripes σ).epoch + 1 }
      past := Past.record s₁ t (.stripe σ .epochAdd) () } : World).Owns t τ := by
    intro τ
    by_cases hτ : τ = σ
    · subst hτ
      simp [World.Owns]
    · simp [World.Owns, hτ]
  refine { hr.toProgress.trans ?_ with
    owner := fun τ => (hr.owner τ).trans (hown τ)
    within := hr.within
    version_le := by simpa [Past.record_epochAdd, World.moment] using hr.version
    reqs_le := by simpa [Past.record_epochAdd, World.moment] using hr.reqs }
  refine ⟨⟨⟨le_rfl, le_rfl, fun τ => ?_, fun τ => ?_, fun τ => ?_, fun τ heq => ?_, fun _ h => h,
    fun _ _ h => h⟩, fun _ => .rfl, ?_⟩, ?_⟩
  · by_cases hτ : τ = σ
    · subst hτ
      simp
    · simp [hτ]
  · by_cases hτ : τ = σ
    · subst hτ
      simpa [Past.record_epochAdd, World.moment] using hi.bump_version τ
    · simp [Past.record_epochAdd, hτ]
  · by_cases hτ : τ = σ
    · subst hτ
      simpa [Past.record_epochAdd, World.moment] using hi.bump_reqs τ
    · simp [Past.record_epochAdd, hτ]
  · have hτ : τ ≠ σ := by
      rintro rfl
      simp at heq
    simp [Past.record_epochAdd, hτ]
  · rw [World.trace, World.trace, Past.record_trace_self]
    exact .refl _
  · rw [World.trace, World.trace, Past.record_trace_self]
    rfl

theorem wp_get (tier : Tier) (key : Key) :
    svc.wp P t (Run.do (.cache tier (.get key))) (fun b s' => Quiet t s s' ∧ ∀ item, b = some item →
      ⟨.tier, key, item.toValue⟩ ∈ (s'.trace t).seen ∧
        (tier = .probationary →
          ∃ l, (s'.trace t).carried = some ⟨key, item.value, item.expiresAt, l⟩)) s := by
  refine wp_do (fun _ => rfl) fun s₁ hr _ => ⟨trivial, fun c b s₂ he => ?_⟩
  refine ⟨hr.toQuiet.trans (World.quiet_of_exec (a := .cache tier (.get key)) trivial he), ?_⟩
  rintro item rfl
  obtain ⟨-, rfl⟩ := World.exec_cache he
  cases tier <;> simp [World.trace, Trace.record, Trace.recordCache, Trace.see]

theorem wp_getStale (tier : Tier) (key : Key) (grace : Time) :
    svc.wp P t (Run.do (.cache tier (.getStale key grace))) (fun b s' => Quiet t s s' ∧
      ∀ item, b = some item → ⟨.tier, key, item.toValue⟩ ∈ (s'.trace t).seen) s := by
  refine wp_do (fun _ => rfl) fun s₁ hr _ => ⟨trivial, fun c b s₂ he => ?_⟩
  refine ⟨hr.toQuiet.trans
    (World.quiet_of_exec (a := .cache tier (.getStale key grace)) trivial he), ?_⟩
  rintro item rfl
  obtain ⟨-, rfl⟩ := World.exec_cache he
  simp [World.trace, Trace.record, Trace.recordCache, Trace.see]

theorem progress_of_cache {op : CacheOp} {b : op.Resp} {s₁ s₂ : World}
    (he : World.exec t (.cache tier op) c s₁ = some (b, s₂)) :
    Progress t s₁ s₂ ∧ ∀ τ, s₁.Owns t τ ↔ s₂.Owns t τ := by
  have hb := World.exec_bump he nofun
  obtain ⟨-, rfl⟩ := World.exec_cache he
  refine ⟨⟨⟨⟨le_rfl, le_rfl, fun _ => le_rfl, fun σ => ?_, fun σ => ?_, fun σ _ => ?_, fun _ h => h,
    fun _ _ h => h⟩, fun _ => .rfl, ?_⟩, ?_⟩, fun _ => .rfl⟩
  · rw [hb]
  · rw [hb]
  · rw [hb]
  · rw [World.trace, World.trace, Past.record_trace_self]
    exact Trace.recordCache_extends (s₁.trace t) _ tier op b
  · rw [World.trace, World.trace, Past.record_trace_self]
    exact Trace.recordCache_debt (s₁.trace t) _ tier op b

structure Stored (t : Nat) (tier : Tier) (key : Key) (v : Blob) (s s' : World) : Prop
    extends Progress t s s' where
  owner : ∀ τ, s.Owns t τ ↔ s'.Owns t τ
  found : ∀ e', s'.find tier key = some e' → e'.value = v
  other : ∀ tier' e', tier' ≠ tier → s'.find tier' key = some e' →
    ∃ e, s.find tier' key = some e ∧ e'.Same e

theorem wp_put {tier : Tier} {key : Key} {v : Blob} {ttl : Time} (httl : ¬ ttl ≤ 0)
    (ho : s.Owns t (cacheEpochStripe key)) (hv : ∀ s₁, Rely t s s₁ → svc.Installs s₁ t key v)
    (hfit : svc.Fits tier key v ttl) (hother : s.find tier.other key = none)
    (hhot : tier = .cache → s.HotBut t key) :
    svc.wp P t (Run.do (.cache tier (.put key v ttl)))
      (fun _ s' => Stored t tier key v s s') s := by
  refine wp_do (fun _ => rfl) fun s₁ hr hi => ⟨⟨(hr.owner _).1 ho, hv s₁ hr, hfit,
    find_eq_none_of_rely hr ho hother, fun ht => hr.hot key ho (hhot ht)⟩, fun c b s₂ he => ?_⟩
  obtain ⟨hp, hown⟩ := progress_of_cache he
  have hempty := (hi.of_exec he).nonempty tier
  refine ⟨hr.toProgress.trans hp, fun τ => (hr.owner τ).trans (hown τ), ?_, ?_⟩
  · intro e' hf
    obtain ⟨-, rfl⟩ := World.exec_cache he
    simp only [World.find, Function.update_self] at hf hempty
    rcases Cache.find_put hf with ⟨-, -, -, -, rfl⟩ | ⟨hno, -⟩
    · rfl
    · -- Only the empty key is refused, and no entry has it.
      have hk : key = [] := by simpa [httl] using hno
      subst hk
      rw [hempty] at hf
      cases hf
  · intro tier' e' ht hf
    obtain ⟨-, rfl⟩ := World.exec_cache he
    simp only [World.find, Function.update_of_ne ht] at hf
    exact hr.within tier' key e' ho hf

theorem wp_putUntil {key : Key} {v : Blob} {exp : Time}
    (ho : s.Owns t (cacheEpochStripe key)) (hv : ∃ l, (s.trace t).carried = some ⟨key, v, exp, l⟩)
    (hother : s.find .probationary key = none) (hhot : s.HotBut t key) :
    svc.wp P t (Run.do (.cache .cache (.putUntil key v exp)))
      (fun _ s' => Progress t s s' ∧ ∀ τ, s.Owns t τ ↔ s'.Owns t τ) s := by
  refine wp_do (fun _ => rfl) fun s₁ hr _ => ⟨⟨(hr.owner _).1 ho, by rw [hr.same]; exact hv, rfl,
    find_eq_none_of_rely hr ho hother, hr.hot key ho hhot⟩, fun _ _ _ he => ?_⟩
  obtain ⟨hp, hown⟩ := progress_of_cache he
  exact ⟨hr.toProgress.trans hp, fun τ => (hr.owner τ).trans (hown τ)⟩

theorem wp_purge {tier : Tier} (ho : ∀ σ, s.Owns t σ) :
    svc.wp P t (Run.do (.cache tier .purge))
      (fun _ s' => Rely t s s' ∧ ∀ k, s'.find tier k = none) s := by
  refine wp_do (fun _ => rfl) fun s₁ hr _ => ⟨fun σ => (hr.owner σ).1 (ho σ), fun c b s₂ he => ?_⟩
  refine ⟨hr.trans (World.rely_of_exec (a := .cache tier .purge) trivial he), fun k => ?_⟩
  obtain ⟨rfl, rfl⟩ := World.exec_cache he
  simp [World.find, CacheOp.run]

structure Marked (t : Nat) (f : Trace → Trace) (s s' : World) : Prop extends Grows t s s' where
  gates : ∀ σ, s.gates σ = some t ↔ s'.gates σ = some t
  owner : ∀ σ, s.Owns t σ ↔ s'.Owns t σ
  held : ∀ σ, s.Owns t σ → (s'.stripes σ).epoch = (s.stripes σ).epoch
  within : ∀ tier k e', s.Owns t (cacheEpochStripe k) → s'.find tier k = some e' →
    ∃ e, s.find tier k = some e ∧ e'.Same e
  trace : s'.trace t = f (s.trace t)

theorem Marked.of_rely {f : Trace → Trace} (hr : Rely t s s₁) (h : Marked t f s₁ s₂) :
    Marked t f s s₂ where
  toGrows := hr.toGrows.trans h.toGrows
  gates := fun σ => (hr.gates σ).trans (h.gates σ)
  owner := fun σ => (hr.owner σ).trans (h.owner σ)
  held := fun σ ho => (h.held σ ((hr.owner σ).1 ho)).trans (hr.held σ ho)
  within := by
    intro tier k e ho he
    obtain ⟨e₁, he₁, hs⟩ := h.within tier k e ((hr.owner _).1 ho) he
    obtain ⟨e₀, he₀, hs'⟩ := hr.within tier k e₁ ho he₁
    exact ⟨e₀, he₀, hs.trans hs'⟩
  trace := by rw [h.trace, hr.same]

theorem Marked.of_frame {f : Trace → Trace} {s s' : World}
    (ho : s.origin.version ≤ s'.origin.version) (hq : s.reqs ≤ s'.reqs)
    (hs : s'.stripes = s.stripes) (hg : s'.gates = s.gates) (hc : s'.contexts = s.contexts)
    (hf : ∀ f key, s.FlightOf f key → s'.FlightOf f key) (hb : s'.past.bump = s.past.bump)
    (hw : s'.tiers = s.tiers) (ht : s'.trace t = f (s.trace t)) : Marked t f s s' where
  version := ho
  reqs := hq
  epoch := fun σ => by rw [hs]
  bump_version := fun σ => by rw [hb]
  bump_reqs := fun σ => by rw [hb]
  bump := fun σ _ => by rw [hb]
  contexts := fun e h => by
    rw [hc]
    exact h
  flights := hf
  gates := fun σ => by rw [hg]
  owner := fun σ => by rw [World.Owns, World.Owns, hs]
  held := fun σ _ => by rw [hs]
  within := fun tier k e' _ h => ⟨e', by rw [← h, World.find, World.find, hw], .refl e'⟩
  trace := ht

theorem wp_note {n : Note} {f : Trace → Trace} (hp : ∀ s₁, Rely t s s₁ → svc.Pre t (.note n) s₁)
    (hf : ∀ (tr : Trace) (m : Moment), tr.recordNote m n = f tr) :
    svc.wp P t (note n) (fun _ s' => Marked t f s s') s := by
  refine wp_do (fun _ => rfl) fun s₁ hr _ => ⟨hp s₁ hr, fun c b s₂ he => .of_rely hr ?_⟩
  have hb := World.exec_bump he nofun
  cases World.exec_note he
  refine .of_frame le_rfl le_rfl rfl rfl rfl (fun _ _ h => h) hb rfl ?_
  rw [World.trace, Past.record_trace_self]
  exact hf _ _

theorem Marked.passes {f : Trace → Trace} (h : Marked t f s s')
    (he : (s.trace t).Extends (f (s.trace t))) : Passes t s s' :=
  ⟨h.toGrows, h.gates, h.trace ▸ he⟩

theorem Idle.marked {f : Debt → Debt} (h : Idle t s d)
    (hm : Marked t (fun tr => { tr with debt := f tr.debt }) s s') : Idle t s' (f d) :=
  ⟨fun σ ho => h.stripes σ ((hm.owner σ).2 ho), by rw [hm.trace, h.debt]⟩

theorem Holds.marked {f : Debt → Debt} (h : Holds t σ s d)
    (hm : Marked t (fun tr => { tr with debt := f tr.debt }) s s') : Holds t σ s' (f d) :=
  ⟨fun τ => (hm.owner τ).symm.trans (h.owner τ), by rw [hm.trace, h.debt]⟩

theorem wp_tracker {op : TrackerOp} (hp : ∀ s₁, Rely t s s₁ → svc.Pre t (.tracker op) s₁) :
    svc.wp P t (Run.do (.tracker op)) (fun b s' => Marked t
      (fun tr => { tr with debt := tr.debt.take (op.transitions b) }) s s') s := by
  refine wp_do (fun _ => rfl) fun s₁ hr _ => ⟨hp s₁ hr, fun c b s₂ he => .of_rely hr ?_⟩
  obtain ⟨tr, -, rfl⟩ := World.exec_tracker he
  refine .of_frame le_rfl le_rfl rfl rfl rfl (fun _ _ h => h) rfl rfl ?_
  rw [World.trace, Past.record_trace_self]
  rfl

theorem wp_admitKey (key : Key) :
    svc.wp P t (Run.do (.tracker (.admitKey key))) (fun b s' => Marked t
      (fun tr => { tr with debt := tr.debt.take b.transitions }) s s' ∧
        (b.state = some .hot → s'.HotBut t key)) s := by
  refine wp_do (fun _ => rfl) fun s₁ hr hi => ⟨trivial, fun c b s₂ he => ?_⟩
  obtain ⟨tr, hrun, rfl⟩ := World.exec_tracker he
  refine ⟨.of_rely hr (.of_frame le_rfl le_rfl rfl rfl rfl (fun _ _ h => h) rfl rfl ?_),
    fun hs => .inl ?_⟩
  · rw [World.trace, Past.record_trace_self]
    rfl
  · obtain ⟨-, heq⟩ := Option.ite_none_right_eq_some.1 hrun
    obtain ⟨rfl, rfl⟩ := Prod.mk.inj (Option.some.inj heq)
    exact hi.tracker.isHot_admitKey hs

theorem wp_count {m : Metric} (hp : ∀ s₁, Rely t s s₁ → svc.Pre t (.record m) s₁) :
    svc.wp P t (record m) (fun _ s' => Marked t
      (fun tr => { tr with debt := tr.debt.counted m }) s s') s := by
  refine wp_do (fun _ => rfl) fun s₁ hr _ => ⟨hp s₁ hr, fun c b s₂ he => .of_rely hr ?_⟩
  cases World.exec_record he
  refine .of_frame le_rfl le_rfl rfl rfl rfl (fun _ _ h => h) rfl rfl ?_
  rw [World.trace, Past.record_trace_self]
  rfl

theorem wp_applied {key : Key} (ho : s.Owns t (cacheEpochStripe key))
    (h : s.find .cache key = none ∨ s.HotBut t key) :
    svc.wp P t (note (.applied key)) (fun _ s' => Marked t
      (fun tr => { tr with debt := tr.debt.applied key }) s s') s := by
  refine wp_note (fun s₁ hr => ⟨(hr.owner _).1 ho, ?_⟩) fun _ _ => rfl
  exact h.imp (find_eq_none_of_rely hr ho) (hr.hot key ho)

theorem wp_openWindow (keys : List Key) (hd : (s.trace t).dispatched = none)
    (hj : (s.trace t).job ≠ none) (hg : ∀ k ∈ keys, s.gates (cacheEpochStripe k) = some t) :
    svc.wp P t (note (.openWindow keys)) (fun _ s' => Marked t
      (fun tr => { tr with window := some keys, gated := some keys, opened := true }) s s') s := by
  refine wp_note (fun s₁ hr => ?_) fun _ _ => rfl
  simp only [Pre, hr.same]
  exact ⟨hd, hj, fun k hk => (hr.gates _).1 (hg k hk)⟩

theorem wp_closeWindow {keys : List Key} (hw : (s.trace t).window = some keys)
    (hc : ∀ k ∈ keys, k ∈ (s.trace t).cleared) :
    svc.wp P t (note .closeWindow)
      (fun _ s' => Marked t (fun tr => { tr with window := none }) s s') s := by
  refine wp_note (fun s₁ hr => ?_) fun _ _ => rfl
  simp only [Pre, hr.same, hw]
  rintro _ ⟨⟩
  exact hc

theorem wp_cleared {key : Key} (h : ∀ s₁, Rely t s s₁ → Clears s₁ t key) :
    svc.wp P t (note (.cleared key))
      (fun _ s' => Marked t
        (fun tr => { tr with cleared := key :: tr.cleared, carried := none }) s s') s :=
  wp_note h fun _ _ => rfl

theorem wp_forget {key : Key} (hk : key ∈ (s.trace t).cleared)
    (hj : key ∈ (s.trace t).writeKeys ∧ (s.trace t).dispatched ≠ none ∨
      (s.trace t).job = some (.purgeCache key)) :
    svc.wp P t (Run.do (.group (.forget key)))
      (fun _ s' => Marked t (fun tr => { tr with forgotten := key :: tr.forgotten }) s s') s := by
  refine wp_do (fun _ => rfl) fun s₁ hr _ => ⟨by simp only [Pre, hr.same]; exact ⟨hk, hj⟩,
    fun c b s₂ he => .of_rely hr ?_⟩
  have hb := World.exec_bump he nofun
  obtain ⟨s₃, hs, rfl⟩ := World.exec_group he
  cases World.stepGroup_forget hs
  exact .of_frame le_rfl le_rfl rfl rfl rfl (fun _ _ h => h) hb rfl (by
    simp [World.trace, Trace.record, Trace.recordGroup])

theorem wp_start {job : Job} (h : s.trace t = {}) (hf : ∀ f k, job = .flight f k → s.FlightOf f k) :
    svc.wp P t (note (.start job)) (fun _ s' => ∃ m,
      Marked t (fun _ => { call := some job, job := some job, started := m }) s s' ∧
        m.version ≤ s'.origin.version ∧ m.reqs ≤ s'.reqs) s := by
  refine wp_do (fun _ => rfl) fun s₁ hr _ =>
    ⟨⟨hr.same.trans h, fun f k hj => hr.flights f k (hf f k hj)⟩, fun c b s₂ he => ?_⟩
  have hb := World.exec_bump he nofun
  cases World.exec_note he
  refine ⟨s₁.moment, .of_rely hr ?_, le_rfl, le_rfl⟩
  exact .of_frame le_rfl le_rfl rfl rfl rfl (fun _ _ h => h) hb rfl (by
    simp [World.trace, Trace.record, Trace.recordNote])

theorem wp_finish {j : Job} {reply : Reply} (hj : (s.trace t).job = some j)
    (hret : ∀ s₁, Rely t s s₁ → svc.Returns s₁ t j reply) (hrest : AtRest t s) :
    svc.wp P t (note (.finish reply)) (fun _ s' => AtRest t s') s := by
  refine wp_do (fun _ => rfl) fun s₁ hr _ => ?_
  have hrest₁ := hrest.of_quiet hr.toQuiet
  refine ⟨⟨⟨j, by rw [hr.same]; exact hj, hret s₁ hr⟩, hrest₁⟩, fun c b s₂ he => ?_⟩
  have htr := World.exec_trace he
  cases World.exec_note he
  exact ⟨⟨hrest₁.stripes, by rw [htr]; exact hrest₁.debt⟩, hrest₁.gates⟩

/-- A read that was sent when the epoch of the stripe was `e` or later is current as long as the
epoch is still `e`. -/
def Current (i : Issue) (σ : Stripe) (e : Nat) (s : World) : Prop :=
  e ≤ (s.stripes σ).epoch ∧ ((s.stripes σ).epoch = e →
    (s.past.bump σ).version ≤ i.version ∧ (s.past.bump σ).reqs ≤ i.ticket)

theorem Current.grows {i : Issue} (h : Current i σ e s) (hg : Grows t s s') : Current i σ e s' := by
  refine ⟨h.1.trans (hg.epoch σ), fun he => ?_⟩
  have hold : (s.stripes σ).epoch = e := le_antisymm ((hg.epoch σ).trans he.le) h.1
  rw [hg.bump σ (he.trans hold.symm)]
  exact h.2 hold

theorem wp_issue (keys : List Key) :
    svc.wp P t (Run.do (.upstream (.issue keys))) (fun i s' => Rely t s s' ∧
      s.origin.version ≤ i.version ∧ s.reqs ≤ i.ticket ∧
      ∀ σ e, e ≤ (s.stripes σ).epoch → Current i σ e s') s := by
  refine wp_do (fun _ => rfl) fun s₁ hr hi => ⟨trivial, fun c i s₂ he => ?_⟩
  have hr' := World.rely_of_exec (a := .upstream (.issue keys)) trivial he
  obtain ⟨s₃, hs, rfl⟩ := World.exec_upstream he
  obtain ⟨rfl, rfl⟩ := World.stepUpstream_issue hs
  refine ⟨hr.trans hr', hr.version, hr.reqs, fun σ e hle => ?_⟩
  exact ⟨hle.trans (hr.epoch σ), fun _ => ⟨hi.bump_version σ, hi.bump_reqs σ⟩⟩

structure Replied (i : Issue) (keys : List Key) (values : List Value) : Prop where
  length : values.length = keys.length
  source : ∀ v ∈ values, ∃ version, i.version ≤ version ∧
    v.data.source = .read i.ticket version v.pttl

theorem wp_answer {i : Issue} {keys : List Key} (hj : (s.trace t).job ≠ none)
    (hv : (s.trace t).started.version ≤ i.version) (hq : (s.trace t).started.reqs ≤ i.ticket) :
    svc.wp P t (Run.do (.upstream (.answer i keys))) (fun r s' =>
      Marked t (fun tr => tr.fetched keys r) s s' ∧
        ∀ values, r = .ok values → Replied i keys values) s := by
  refine wp_do (fun _ => rfl) fun s₁ hr _ => ⟨by simp only [Pre, hr.same]; exact ⟨hj, hv, hq⟩,
    fun c r s₂ he => ?_⟩
  have hb := World.exec_bump he nofun
  obtain ⟨s₃, hs, rfl⟩ := World.exec_upstream he
  obtain ⟨rfl, hc⟩ := World.stepUpstream_answer hs
  refine ⟨.of_rely hr (.of_frame le_rfl le_rfl rfl rfl rfl (fun _ _ h => h) hb rfl (by
    simp [World.trace, Trace.record, Trace.recordUpstream])), ?_⟩
  rintro values rfl
  obtain ⟨e, he⟩ | ⟨l, hl, hbounds, heq⟩ := hc
  · cases he
  · cases heq
    refine ⟨by rw [List.length_zipWith, hl, Nat.min_self], fun v hv => ?_⟩
    obtain ⟨n, hn, rfl⟩ := List.mem_iff_getElem.1 hv
    rw [List.getElem_zipWith]
    have hn' : n < l.length :=
      lt_of_lt_of_le hn (by rw [List.length_zipWith]; exact min_le_right _ _)
    exact ⟨l[n].1, (hbounds _ (List.getElem_mem hn')).1, Origin.read_source ..⟩

theorem wp_dispatch {command : Bytes} {args keys : List Bytes}
    (hj : (s.trace t).job = some (.executeWrite command args keys))
    (hw : (s.trace t).window = some keys) (hd : (s.trace t).dispatched = none)
    (hk : ∀ k ∈ keys, k ∈ (s.trace t).cleared) :
    svc.wp P t (Run.do (.upstream (.dispatch command args keys))) (fun b s' => ∃ m : Moment,
      Marked t (fun tr => { tr with
        dispatched := some m
        sent := keys
        wrote := acknowledgedSet command args keys b.1
        cleared := []
        forgotten := [] }) s s' ∧
      b.2 = .write m.reqs m.version ∧ m.version ≤ s'.origin.version ∧ m.reqs ≤ s'.reqs) s := by
  refine wp_do (fun _ => rfl) fun s₁ hr _ => ⟨?_, fun c b s₂ he => ?_⟩
  · simp only [Pre, hr.same]
    exact ⟨hj, hw, hd, hk⟩
  · have hb := World.exec_bump he nofun
    obtain ⟨s₃, hs, rfl⟩ := World.exec_upstream he
    obtain ⟨hf, hv, hq⟩ := World.stepUpstream_frame hs
    obtain ⟨updates, -, -, -, hsource⟩ := World.stepUpstream_dispatch hs
    refine ⟨s₃.moment, .of_rely hr ?_, hsource, le_rfl, le_rfl⟩
    rw [hf] at hb ⊢
    exact .of_frame hv hq rfl rfl rfl (fun _ _ h => h) hb rfl (by
      simp [World.trace, Trace.record, Trace.recordUpstream])

end Service
end Slizen
