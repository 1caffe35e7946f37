import Slizen.Service.Footprint
import Slizen.Service.Promotion

namespace Slizen.Service.Reader
set_option autoImplicit true

open Interleaving Outline

open Handover (Held Carries)

variable {svc : Service} {k : Key} {x : Blob × Time} {limit : Time} {s s' : World} {t first : Nat}
  {hp : svc.Promotable k x limit}

abbrev wp (hp : svc.Promotable k x limit) (first t : Nat) (p : Run α) (Q : α → World → Prop)
    (s : World) : Prop := (svc.promotion hp first).wp t p Q s

theorem wp_do {a : Action} {Q : a.Resp → World → Prop} (hf : ∀ b, svc.fork a b = none)
    (h : ∀ s₁, Bystands k t s s₁ → svc.Promoting k x limit s₁ → ReadPre k x t a s₁ ∧
      ∀ c b s₂, World.exec t a c s₁ = some (b, s₂) → Q b s₂) : wp hp first t (Run.do a) Q s := by
  exact Outline.wp.perform hf h

abbrev Later (k : Key) (t : Nat) (s s' : World) : Prop :=
  Handover.Rely t (s.handover k) (s'.handover k)

theorem wp_look {a : Action} {R : a.Resp → Handover (Blob × Time) → Prop} (ha : Looks k a)
    (hR : ∀ {c b s₁ s₂}, svc.Promoting k x limit s₁ → World.exec t a c s₁ = some (b, s₂) →
      R b (s₁.handover k)) :
    wp hp first t (Run.do a) (fun b s' => Later k t s s' ∧ R b (s'.handover k)) s := by
  apply wp_do ha.fork
  intro s₁ hr hi
  refine ⟨ha.pre, ?_⟩
  intro c b s₂ he
  rw [Later, ha.handover hp hi he]
  exact ⟨hr.handover, hR hi he⟩

theorem wp_looks {p : Run α} (hu : p.Uses (Looks k)) (hi : svc.Promoting k x limit s) :
    wp hp first t p (fun _ s' => Later k t s s') s := by
  have hown : ∀ {a : Action} {c : Choice} {b : a.Resp} {s s' : World}, Looks k a →
      svc.Promoting k x limit s → World.exec t a c s = some (b, s') → Later k t s s' := by
    intro a c b s s' ha hi he
    rw [Later, ha.handover hp hi he]
    exact .refl t _
  refine wp.uses (C := Later k t) .trans (fun hr => hr.handover) hown (fun ha _ => ha.pre) ?_ hu hi
    fun _ _ hc _ => hc
  intro a b p s ha hf
  cases (ha.fork b).symm.trans hf

theorem wp_isHot : wp hp first t (isHot k)
    (fun hot s' => Later k t s s' ∧ hot = (s'.handover k).admitted) s := by
  refine wp_look (a := .tracker (.isHot k)) (R := fun hot h => hot = h.admitted) trivial ?_
  intro c b s₁ s₂ _ he
  obtain ⟨tr, hrun, -⟩ := World.exec_tracker he
  cases hrun
  rfl

theorem wp_promotionLoad : wp hp first t (Run.do (.stripe (cacheEpochStripe k) .promotionLoad))
    (fun promoting s' => Later k t s s' ∧ promoting = (s'.handover k).moving) s := by
  refine wp_look (a := .stripe (cacheEpochStripe k) .promotionLoad)
    (R := fun promoting h => promoting = h.moving) trivial ?_
  intro c b s₁ s₂ _ he
  obtain ⟨st, hrun, -⟩ := World.exec_stripe he
  cases hrun
  rfl

theorem wp_candidate : wp hp first t (Run.do (.cache .probationary (.get k)))
    (fun item s' => Later k t s s' ∧ item.map EntrySnapshot.item = (s'.handover k).source) s := by
  refine wp_look (a := .cache .probationary (.get k))
    (R := fun item h => item.map EntrySnapshot.item = h.source) rfl ?_
  intro c b s₁ s₂ hi he
  obtain ⟨rfl, -⟩ := World.exec_cache he
  exact (Cache.getLocked_fresh (hi.fresh hp .probationary) false).1

theorem wp_getFreshProtected : wp hp first t (svc.getFreshProtected k)
    (fun item s' => Later k t s s' ∧ item.map EntrySnapshot.item = (s'.handover k).target) s := by
  unfold getFreshProtected
  split
  · refine wp_look (a := .cache .cache (.getStale k 0))
      (R := fun item h => item.map EntrySnapshot.item = h.target) ⟨rfl, rfl⟩ ?_
    intro c b s₁ s₂ hi he
    obtain ⟨rfl, -⟩ := World.exec_cache he
    exact (Cache.getLocked_fresh (hi.fresh hp .cache) true).1
  · refine wp_look (a := .cache .cache (.get k))
      (R := fun item h => item.map EntrySnapshot.item = h.target) rfl ?_
    intro c b s₁ s₂ hi he
    obtain ⟨rfl, -⟩ := World.exec_cache he
    exact (Cache.getLocked_fresh (hi.fresh hp .cache) false).1

theorem wp_lock (ho : (s.handover k).owner ≠ some t) :
    wp hp first t (lock (cacheEpochStripe k)) (fun _ s' => Held t (s'.handover k) ∧
      ((s.handover k).source = none → (s'.handover k).source = none)) s := by
  apply wp_do fun _ => rfl
  intro s₁ hr hi
  refine ⟨⟨rfl, mt hr.handover.owner.2 ho⟩, ?_⟩
  intro c b s₂ he
  obtain ⟨st, hst, hd⟩ := exec_handover_stripe he
  obtain ⟨hfree, hst⟩ := Option.ite_none_right_eq_some.1 hst
  cases hst
  rw [hd]
  exact ⟨⟨rfl, hi.stage.settled_of_free hfree⟩, hr.handover.source⟩

theorem wp_unlock (h : Held t (s.handover k)) : wp hp first t (unlock (cacheEpochStripe k))
    (fun _ s' => (s'.handover k).owner ≠ some t ∧
      (s'.handover k).target = (s.handover k).target) s := by
  apply wp_do fun _ => rfl
  intro s₁ hr _
  have h₁ := h.rely hr.handover
  refine ⟨⟨rfl, h₁.owner, h₁.settled⟩, ?_⟩
  intro c b s₂ he
  obtain ⟨st, hst, hd⟩ := exec_handover_stripe he
  obtain ⟨-, hst⟩ := Option.ite_none_right_eq_some.1 hst
  cases hst
  rw [hd]
  exact ⟨nofun, (hr.handover.held h.owner).2.1⟩

structure Got (k : Key) (x : Blob × Time) (t : Nat) (r : Option EntrySnapshot) (s : World) :
    Prop where
  stripe : (s.handover k).owner ≠ some t
  arrived : (s.handover k).target = some x
  item : r.map EntrySnapshot.item = some x

theorem wp_getPromoted (hi : svc.Promoting k x limit s) (ho : (s.handover k).owner ≠ some t)
    (hs : (s.handover k).source = none) :
    wp hp first t (svc.getPromoted k) (Got k x t) s := by
  unfold getPromoted
  refine wp.seq wp_isHot hi fun hot s₁ hi₁ ⟨hl₁, hhot⟩ => ?_
  have hs₁ := hl₁.source hs
  have ho₁ := mt hl₁.owner.2 ho
  rw [if_pos (hhot.trans (hi₁.stage.admitted hs₁))]
  refine wp.seq wp_promotionLoad hi₁ fun promoting s₂ hi₂ ⟨hl₂, hmoving⟩ => ?_
  have hs₂ := hl₂.source hs₁
  have ho₂ := mt hl₂.owner.2 ho₁
  cases promoting with
  | true =>
    refine wp.seq (wp_lock ho₂) hi₂ fun _ s₃ hi₃ ⟨hh₃, hs₃⟩ => ?_
    have ht₃ := hi₃.stage.arrived hh₃.settled (hs₃ hs₂)
    refine wp.seq wp_getFreshProtected hi₃ fun item s₄ hi₄ ⟨hl₄, hitem⟩ => ?_
    have ht₄ := hl₄.target x ht₃
    refine wp.seq (wp_unlock (hh₃.rely hl₄)) hi₄ fun _ s₅ _ ⟨ho₅, ht₅⟩ => ?_
    exact ⟨ho₅, ht₅.trans ht₄, hitem.trans ht₄⟩
  | false =>
    have ht₂ := hi₂.stage.arrived (hi₂.stage.settled_of_still hmoving.symm) hs₂
    refine wp_getFreshProtected.mono fun item s₃ ⟨hl₃, hitem⟩ => ?_
    have ht₃ := hl₃.target x ht₂
    exact ⟨mt hl₃.owner.2 ho₂, ht₃, hitem.trans ht₃⟩

/-- What the tracker reports of the key: nothing, or that it has become HOT. -/
def Rises (k : Key) (o : Hotness.Observation) : Prop :=
  o.transitions = [] ∨ ∃ before, before ≠ .hot ∧ o.transitions = [⟨k, before, .hot⟩]

theorem later_raised {tr : Hotness.Tracker} {o : Hotness.Observation}
    (hr : s.tracker.Raised k o tr) (past : Past) :
    Rises k o ∧ Later k t s { s with tracker := tr, past := past } := by
  constructor
  · rcases hr.transitions with ⟨hnil, -⟩ | ⟨before, hne, hone, -⟩
    · exact .inl hnil
    · exact .inr ⟨before, hne, hone⟩
  · rcases handover_raised hr past with hsame | hraise
    · rw [Later, hsame]
      exact .refl t _
    · rw [Later, hraise]
      exact ⟨.rfl, fun _ => rfl, fun h => h, fun _ h => h, fun _ => ⟨rfl, rfl, rfl⟩⟩

theorem wp_observe : wp hp first t (Run.do (.tracker (.observeWithState k)))
    (fun o s' => Rises k o ∧ Later k t s s') s := by
  apply wp_do fun _ => rfl
  intro s₁ hr hi
  refine ⟨rfl, ?_⟩
  intro c b s₂ he
  obtain ⟨tr, hrun, rfl⟩ := World.exec_tracker he
  obtain ⟨-, hrun⟩ := Option.ite_none_right_eq_some.1 hrun
  obtain ⟨rfl, rfl⟩ := Prod.mk.inj (Option.some.inj hrun)
  have hraised := hi.base.tracker.raised_observe hi.tracked (hi.clock.trans_le hi.window) c.order
  obtain ⟨hrises, hl⟩ := later_raised (t := t) hraised _
  exact ⟨hrises, hr.handover.trans hl⟩

theorem wp_admitKey : wp hp first t (Run.do (.tracker (.admitKey k)))
    (fun o s' => Rises k o ∧ Later k t s s' ∧ o.state = some .hot ∧
      (s'.handover k).admitted = true) s := by
  apply wp_do fun _ => rfl
  intro s₁ hr hi
  refine ⟨rfl, ?_⟩
  intro c b s₂ he
  obtain ⟨tr, hrun, rfl⟩ := World.exec_tracker he
  obtain ⟨-, hrun⟩ := Option.ite_none_right_eq_some.1 hrun
  obtain ⟨rfl, rfl⟩ := Prod.mk.inj (Option.some.inj hrun)
  obtain ⟨hraised, hhot⟩ :=
    hi.base.tracker.raised_admit hi.tracked (hi.clock.trans_le hi.window) c.order
  obtain ⟨hrises, hl⟩ := later_raised (t := t) hraised _
  exact ⟨hrises, hr.handover.trans hl, hhot, hraised.state.1 hhot⟩

theorem uses_combinedStats : svc.combinedStats.Uses (Looks k) := by
  refine ⟨trivial, fun _ => ?_⟩
  split
  · exact ⟨trivial, fun _ => trivial⟩
  · trivial

theorem uses_observeCache : svc.observeCache.Uses (Looks k) :=
  uses_combinedStats.bind fun _ => ⟨trivial, fun _ => trivial⟩

theorem uses_handleObservation {o : Hotness.Observation} (h : Rises k o) :
    (svc.handleObservation o).Uses (Looks k) := by
  have hloop : (svc.applyTransitionsLoop false o.transitions).Uses (Looks k) := by
    rcases h with hnil | ⟨before, hne, hone⟩
    · rw [hnil]
      trivial
    · have hno : ¬ (before = .hot ∧ Hotness.State.hot ≠ .hot) := fun hc => hc.2 rfl
      rw [hone]
      refine Prog.Uses.bind (Prog.Uses.bind (uses_when ⟨trivial, fun _ => trivial⟩) fun _ => ?_)
        fun _ => trivial
      rw [if_neg hno]
      trivial
  refine Prog.Uses.bind (Prog.Uses.bind hloop fun _ => uses_when uses_observeCache) fun _ => ?_
  refine Prog.Uses.bind (uses_when ⟨trivial, fun _ => ⟨trivial, fun _ => trivial⟩⟩) fun _ => ?_
  refine Prog.Uses.bind (uses_when ⟨trivial, fun _ => trivial⟩) fun _ => ?_
  exact uses_when ⟨trivial, fun _ => trivial⟩

theorem wp_mark (h : Held t (s.handover k)) (hs : (s.handover k).source = some x)
    (ha : (s.handover k).admitted = true) :
    wp hp first t (Run.do (.stripe (cacheEpochStripe k) (.promotionStore true)))
      (fun _ s' => Carries t (some x) none (s'.handover k)) s := by
  apply wp_do fun _ => rfl
  intro s₁ hr hi
  have h₁ := h.rely hr.handover
  have hs₁ := (hr.handover.held h.owner).1.trans hs
  refine ⟨⟨rfl, h₁.owner, nofun⟩, ?_⟩
  intro c b s₂ he
  obtain ⟨st, hst, hd⟩ := exec_handover_stripe he
  cases hst
  have ht₁ : (s₁.handover k).target = none := by
    rcases hi.stage.place_of_settled h₁.settled with ⟨-, ht⟩ | ⟨hnone, -⟩
    · exact ht
    · exact absurd (hnone.symm.trans hs₁) nofun
  rw [hd]
  exact ⟨h₁.owner, rfl, hr.handover.admitted ha, hs₁, ht₁⟩

theorem wp_carry (h : Carries t (some x) none (s.handover k)) :
    wp hp first t (delete .probationary k)
      (fun _ s' => Carries t none none (s'.handover k)) s := by
  apply wp_do fun _ => rfl
  intro s₁ hr hi
  have h₁ := h.rely hr.handover
  refine ⟨⟨rfl, rfl, h₁.owner, h₁.moving, h₁.admitted⟩, ?_⟩
  intro c b s₂ he
  have hgone : ((s₁.tiers .probationary).delete k).2.find k = none := by
    rw [Cache.find_delete, if_pos rfl]
  obtain ⟨-, hd⟩ := exec_handover_cache he
  rw [hd]
  exact ⟨h₁.owner, h₁.moving, h₁.admitted, congrArg (Option.map Entry.item) hgone, h₁.target⟩

theorem wp_place (h : Carries t none none (s.handover k)) :
    wp hp first t (Run.do (.cache .cache (.putUntil k x.1 x.2)))
      (fun stored s' => stored = true ∧ Carries t none (some x) (s'.handover k)) s := by
  apply wp_do fun _ => rfl
  intro s₁ hr hi
  have h₁ := h.rely hr.handover
  refine ⟨⟨rfl, rfl, rfl, h₁.owner, h₁.source, h₁.target⟩, ?_⟩
  intro c b s₂ he
  obtain ⟨hstored, hfind⟩ := hi.putUntil hp
  obtain ⟨rfl, hd⟩ := exec_handover_cache he
  rw [hd]
  exact ⟨hstored, h₁.owner, h₁.moving, h₁.admitted, h₁.source,
    congrArg (Option.map Entry.item) hfind⟩

theorem wp_clear (h : Carries t none (some x) (s.handover k)) :
    wp hp first t (Run.do (.stripe (cacheEpochStripe k) (.promotionStore false)))
      (fun _ s' => Held t (s'.handover k) ∧ (s'.handover k).target = some x) s := by
  apply wp_do fun _ => rfl
  intro s₁ hr hi
  have h₁ := h.rely hr.handover
  have hset : (s₁.handover k).Settled := .inr (by rw [h₁.target]; nofun)
  refine ⟨⟨rfl, h₁.owner, fun _ => hset⟩, ?_⟩
  intro c b s₂ he
  obtain ⟨st, hst, hd⟩ := exec_handover_stripe he
  cases hst
  rw [hd]
  exact ⟨⟨h₁.owner, hset⟩, h₁.target⟩

theorem wp_transferCandidate {candidate : EntrySnapshot} (hi : svc.Promoting k x limit s)
    (h : Held t (s.handover k)) (hs : (s.handover k).source = some x)
    (ha : (s.handover k).admitted = true) (hc : candidate.item = x) :
    wp hp first t (transferCandidate k candidate true) (fun stored s' =>
      stored = true ∧ Held t (s'.handover k) ∧ (s'.handover k).target = some x) s := by
  subst hc
  unfold transferCandidate
  rw [if_pos rfl]
  refine wp.seq (wp_mark h hs ha) hi fun _ s₁ hi₁ h₁ => ?_
  refine wp.seq (wp_carry h₁) hi₁ fun _ s₂ hi₂ h₂ => ?_
  refine wp.seq (wp_place h₂) hi₂ fun stored s₃ hi₃ ⟨hstored, h₃⟩ => ?_
  exact wp.seq (wp_clear h₃) hi₃ fun _ s₄ _ h₄ => ⟨hstored, h₄⟩

theorem wp_promoteCandidate (hi : svc.Promoting k x limit s) (h : Held t (s.handover k))
    (hs : (s.handover k).source = some x) :
    wp hp first t (svc.promoteCandidate k) (Got k x t) s := by
  unfold promoteCandidate
  refine wp.seq wp_candidate hi fun candidate s₁ hi₁ ⟨hl₁, hc⟩ => ?_
  have h₁ := h.rely hl₁
  have hs₁ := (hl₁.held h.owner).1.trans hs
  rw [hs₁] at hc
  obtain ⟨candidate, rfl, hitem⟩ := Option.map_eq_some_iff.1 hc
  refine wp.seq wp_admitKey hi₁ fun o s₂ hi₂ ⟨hrises, hl₂, hhot, ha₂⟩ => ?_
  have hs₂ := (hl₂.held h₁.owner).1.trans hs₁
  rw [decide_eq_true hhot]
  refine wp.seq (wp_transferCandidate hi₂ (h₁.rely hl₂) hs₂ ha₂ hitem) hi₂
    fun stored s₃ hi₃ ⟨hstored, h₃, ht₃⟩ => ?_
  refine wp.seq (wp_unlock h₃) hi₃ fun _ s₄ hi₄ ⟨ho₄, ht₄⟩ => ?_
  refine wp.seq (wp_looks (uses_handleObservation hrises) hi₄) hi₄ fun _ s₅ hi₅ hl₅ => ?_
  refine wp.seq (wp_looks uses_observeCache hi₅) hi₅ fun _ s₆ _ hl₆ => ?_
  have hl := hl₅.trans hl₆
  refine ⟨mt hl.owner.2 ho₄, hl.target x (ht₄.trans ht₃), ?_⟩
  rw [if_pos hstored]
  exact congrArg some hitem

theorem wp_promote (hi : svc.Promoting k x limit s) (ho : (s.handover k).owner ≠ some t) :
    wp hp first t (svc.promote k) (Got k x t) s := by
  unfold promote
  refine wp.seq (wp_lock ho) hi fun _ s₁ hi₁ ⟨h₁, _⟩ => ?_
  refine wp.seq wp_isHot hi₁ fun hot s₂ hi₂ ⟨hl₂, hhot⟩ => ?_
  have h₂ := h₁.rely hl₂
  cases hot with
  | true =>
    refine wp.seq wp_getFreshProtected hi₂ fun item s₃ hi₃ ⟨hl₃, hitem⟩ => ?_
    have h₃ := h₂.rely hl₃
    rcases hi₃.stage.place_of_settled h₃.settled with ⟨hs, ht⟩ | ⟨-, ht⟩
    · rw [ht] at hitem
      cases Option.map_eq_none_iff.1 hitem
      exact wp_promoteCandidate hi₃ h₃ hs
    · rw [ht] at hitem
      obtain ⟨item, rfl, hx⟩ := Option.map_eq_some_iff.1 hitem
      refine wp.seq (wp_unlock h₃) hi₃ fun _ s₄ _ ⟨ho₄, ht₄⟩ => ?_
      exact ⟨ho₄, ht₄.trans ht, congrArg some hx⟩
  | false =>
    apply wp_promoteCandidate hi₂ h₂
    rcases hi₂.stage.place_of_settled h₂.settled with ⟨hs, -⟩ | ⟨hs, -⟩
    · exact hs
    · exact absurd (hhot.trans (hi₂.stage.admitted hs)) nofun

theorem wp_getProbationary (hi : svc.Promoting k x limit s) (ho : (s.handover k).owner ≠ some t) :
    wp hp first t (svc.getProbationary k) (Got k x t) s := by
  unfold getProbationary
  rw [if_pos hp.probationary]
  refine wp.seq wp_candidate hi fun candidate s₁ hi₁ ⟨hl₁, hc⟩ => ?_
  have ho₁ := mt hl₁.owner.2 ho
  cases candidate with
  | none => exact wp_getPromoted hi₁ ho₁ hc.symm
  | some candidate => exact wp_promote hi₁ ho₁

theorem wp_getFreshCachedInState (hi : svc.Promoting k x limit s)
    (ho : (s.handover k).owner ≠ some t) (state : Option Hotness.State) :
    wp hp first t (svc.getFreshCachedInState k state) (Got k x t) s := by
  unfold getFreshCachedInState
  split
  · refine wp.seq wp_getFreshProtected hi fun item s₁ hi₁ ⟨hl₁, hitem⟩ => ?_
    have ho₁ := mt hl₁.owner.2 ho
    cases item with
    | none => exact wp_getProbationary hi₁ ho₁
    | some item =>
      have hx : item.item = x := hi₁.stage.target_eq hitem.symm
      exact ⟨ho₁, hitem.symm.trans (congrArg some hx), congrArg some hx⟩
  · exact wp_getProbationary hi ho

theorem wp_observeRead (hi : svc.Promoting k x limit s) :
    wp hp first t (svc.observeRead k (svc.policy k)) (fun _ s' => Later k t s s') s := by
  have hmode : (svc.policy k).mode ≠ .deny := by
    rw [hp.mode]
    exact nofun
  unfold observeRead
  rw [if_pos hmode]
  refine wp.seq wp_observe hi fun o s₁ hi₁ ⟨hrises, hl₁⟩ => ?_
  exact wp.seq (wp_looks (uses_handleObservation hrises) hi₁) hi₁ fun _ s₂ _ hl₂ => hl₁.trans hl₂

theorem wp_getCached (hi : svc.Promoting k x limit s) (ho : (s.handover k).owner ≠ some t)
    (state : Option Hotness.State) :
    wp hp first t (svc.getCached k (svc.policy k) state) (Got k x t) s := by
  unfold getCached
  rw [if_pos hp.mode]
  exact wp_getFreshCachedInState hi ho state

/-- The reader is about to return this reply. -/
structure Answers (k : Key) (x : Blob × Time) (t : Nat) (reply : Reply) (s : World) : Prop where
  stripe : (s.handover k).owner ≠ some t
  arrived : (s.handover k).target = some x
  reads : ReadsAs x.1 reply

theorem wp_ctxErr (h : Arriving k t s) : wp hp first t (Run.do .ctxErr)
    (fun e s' => e = none ∧ (s'.handover k).owner ≠ some t) s := by
  apply wp_do fun _ => rfl
  intro s₁ hr hi
  refine ⟨trivial, ?_⟩
  intro c b s₂ he
  obtain ⟨rfl, rfl⟩ := World.exec_ctxErr he
  exact ⟨hr.contexts.trans h.context, mt hr.handover.owner.2 h.stripe⟩

theorem Got.answer {item : EntrySnapshot} (h : Got k x t (some item) s) :
    item.toValue.exists? = true ∧ item.toValue.data = x.1 := by
  have hx : item.item = x := Option.some.inj h.item
  rw [← hx]
  exact ⟨rfl, rfl⟩

theorem wp_get (hi : svc.Promoting k x limit s) (h : Arriving k t s) :
    wp hp first t (svc.get k) (fun r => Answers k x t (.get r)) s := by
  unfold get
  rw [if_neg hp.key]
  refine wp.seq (wp_ctxErr h) hi fun e s₁ hi₁ ⟨he, ho₁⟩ => ?_
  subst he
  refine wp.seq (wp_observeRead hi₁) hi₁ fun state s₂ hi₂ hl₂ => ?_
  refine wp.seq (wp_getCached hi₂ (mt hl₂.owner.2 ho₁) state) hi₂ fun item s₃ hi₃ h₃ => ?_
  obtain ⟨item, rfl, hx⟩ := Option.map_eq_some_iff.1 h₃.item
  have hrec : (record .cacheHit).Uses (Looks k) := ⟨trivial, fun _ => trivial⟩
  refine wp.seq (wp_looks hrec hi₃) hi₃ fun _ s₄ _ hl₄ => ?_
  exact ⟨mt hl₄.owner.2 h₃.stripe, hl₄.target x h₃.arrived, h₃.answer.1, h₃.answer.2, rfl⟩

theorem wp_mget (hi : svc.Promoting k x limit s) (h : Arriving k t s) :
    wp hp first t (svc.mget [k]) (fun r => Answers k x t (.mget r)) s := by
  have hlocal : wp hp first t (svc.mgetLocal [zeroAnswer] [] 0 [k]) (fun found s' =>
      found.2 = [] ∧ Answers k x t (.mget (.ok found.1)) s') s := by
    unfold mgetLocal
    refine wp.seq (wp_observeRead hi) hi fun state s₂ hi₂ hl₂ => ?_
    refine wp.seq (wp_getCached hi₂ (mt hl₂.owner.2 h.stripe) state) hi₂ fun item s₃ hi₃ h₃ => ?_
    obtain ⟨item, rfl, hx⟩ := Option.map_eq_some_iff.1 h₃.item
    have hrec : (record .cacheHit).Uses (Looks k) := ⟨trivial, fun _ => trivial⟩
    refine wp.seq (wp_looks hrec hi₃) hi₃ fun _ s₄ _ hl₄ => ⟨rfl, ?_⟩
    exact ⟨mt hl₄.owner.2 h₃.stripe, hl₄.target x h₃.arrived, h₃.answer.1, h₃.answer.2, rfl⟩
  unfold mget
  refine wp.seq hlocal hi fun found s₁ _ hx => ?_
  rw [hx.1]
  exact hx.2

theorem wp_start (job : Job) (h : Arriving k t s) :
    wp hp first t (note (.start job)) (fun _ s' => Arriving k t s') s := by
  apply wp_do fun _ => rfl
  intro s₁ hr hi
  refine ⟨trivial, ?_⟩
  intro c b s₂ he
  cases World.exec_note he
  exact ⟨hr.contexts.trans h.context, mt hr.handover.owner.2 h.stripe⟩

theorem wp_finish {reply : Reply} (h : Answers k x t reply s) :
    wp hp first t (note (.finish reply)) (fun _ s' => Served k x first t s') s := by
  apply wp_do fun _ => rfl
  intro s₁ hr hi
  refine ⟨h.reads, ?_⟩
  intro c b s₂ he
  have htrace := World.exec_trace he
  cases World.exec_note he
  refine ⟨mt hr.handover.owner.2 h.stripe, fun _ => hr.handover.target x h.arrived, fun _ => ?_⟩
  rw [htrace]
  exact ⟨_, reply, rfl, h.reads⟩

theorem covers (hp : svc.Promotable k x limit) (first : Nat) :
    (svc.promotion hp first).Covers where
  entry := by
    rintro p (rfl | rfl) t s hi h
    · refine wp.seq (wp_start _ h) hi fun _ s₁ hi₁ h₁ => ?_
      refine wp.seq ?_ hi₁ fun reply s₂ _ h₂ => wp_finish h₂
      exact wp.seq (wp_get hi₁ h₁) hi₁ fun r s₂ _ h₂ => h₂
    · refine wp.seq (wp_start _ h) hi fun _ s₁ hi₁ h₁ => ?_
      refine wp.seq ?_ hi₁ fun reply s₂ _ h₂ => wp_finish h₂
      exact wp.seq (wp_mget hi₁ h₁) hi₁ fun r s₂ _ h₂ => h₂
  ready := fun _ _ _ _ _ hready => hready.elim

end Slizen.Service.Reader
