import Slizen.Service.Footprint
import Slizen.Service.Runs
import Slizen.TrackerTelemetry

namespace Slizen
set_option autoImplicit true

open Interleaving Machine

def Action.Inner : Action → Prop
  | .note (.start _) => False
  | .note (.finish _) => False
  | _ => True

theorem Action.Ordinary.inner {a : Action} (h : a.Ordinary) : a.Inner := by
  cases a with
  | note n => cases n <;> trivial
  | _ => trivial

open Hotness.Tracker in
theorem TrackerOp.run_retains {op : TrackerOp} {b : op.Resp} (h : tr.Rep)
    (hmax : 0 < tr.cfg.maxTrackedKeys) (hrun : op.run tr c now = some (b, tr')) :
    tr.Retains tr' := by
  cases op with
  | observeWithState key =>
    simp only [run] at hrun
    split at hrun <;> cases hrun
    have hadvance := steady_advanceLocked tr c.order now
    have hr := h.advanceLocked c.order now
    exact hadvance.retains.trans (hr.rep.notices (hr.cfg ▸ hmax) key now).retains
  | admitKey key =>
    simp only [run] at hrun
    split at hrun <;> cases hrun
    exact ((steady_advanceLocked tr c.order now).trans (steady_admitLocked _ key)).retains
  | advance =>
    simp only [run] at hrun
    split at hrun
    · have hadvance := (steady_advanceLocked tr c.order now).retains
      rwa [show tr' = (tr.advanceLocked c.order now).2 from
        (congrArg Prod.snd (Option.some.inj hrun)).symm]
    · cases hrun
  | advanceAndSnapshot limit =>
    simp only [run] at hrun
    split at hrun <;> cases hrun
    exact (steady_advanceLocked tr c.order now).retains
  | _ =>
    cases hrun
    exact (Steady.refl tr).retains

open Hotness.Tracker in
theorem TrackerOp.run_observes {o : Hotness.Observation} (h : tr.Rep)
    (hmax : 0 < tr.cfg.maxTrackedKeys)
    (hrun : (TrackerOp.observeWithState key).run tr c now = some (o, tr')) :
    (key ≠ [] → tr'.isTracked key = true ∨ 0 < tr'.losses) ∧
      (o.oversizedObservationDropped = true ∨ o.capacityObservationDropped = true →
        0 < tr'.losses) := by
  simp only [run] at hrun
  split at hrun <;> cases hrun
  have hr := h.advanceLocked c.order now
  exact ⟨(hr.rep.notices (hr.cfg ▸ hmax) key now).tracked,
    hr.rep.skipped (hr.cfg ▸ hmax) key now⟩

open Hotness Tracker in
theorem TrackerOp.run_snapshot {view : View} (h : tr.Rep)
    (hrun : (TrackerOp.advanceAndSnapshot limit).run tr c now = some (view, tr')) :
    tr.Steady tr' ∧
      view.evictions + view.capacityDrops + view.oversizedObservationsDropped = tr'.losses ∧
      (view.tracked ≤ view.snapshots.length →
        (view.snapshots.map Snapshot.key).Perm tr'.items.keys ∧
          ∀ s ∈ view.snapshots, ∃ e, tr'.find s.key = some e ∧ s = e.snapshot now) := by
  simp only [run] at hrun
  split at hrun <;> cases hrun
  rename_i hperm
  have hsteady := steady_advanceLocked tr c.order now
  have hr := h.advanceLocked c.order now
  refine ⟨hsteady, rfl, fun hall => ?_⟩
  apply hr.rep.toWF.snapshots_complete _ hall
  rw [hsteady.items]
  exact hperm.2

namespace Service

variable {svc : Service} {l : List (Σ a, Action.Resp a)}

theorem inner_of_ordinary {p : Run α} (h : p.Uses Action.Ordinary) : p.Uses Action.Inner :=
  h.mono fun _ => Action.Ordinary.inner

/-- The goroutine was started for this call, which has returned this reply. -/
structure Finished (tr : List svc.machine.Event) (t : Nat) (job : Job) (reply : Reply) : Prop where
  started : (threadActs tr t).head? = some ⟨.note (.start job), ()⟩
  finished : ⟨.note (.finish reply), ()⟩ ∈ threadActs tr t

theorem performed_call (h : (svc.call job).After l q) (hu : (svc.perform job).Uses Action.Inner)
    (hf : ⟨.note (.finish reply), ()⟩ ∈ l) :
    ∃ l₁, (svc.perform job).After l₁ (.ret reply) ∧
      l = ⟨.note (.start job), ()⟩ :: (l₁ ++ [⟨.note (.finish reply), ()⟩]) := by
  rcases h.act with ⟨rfl, -⟩ | ⟨b, l, rfl, hrest⟩
  · cases hf
  · have hf : ⟨.note (.finish reply), ()⟩ ∈ l := (List.mem_cons.1 hf).resolve_left nofun
    have hrest : (svc.perform job >>= fun reply => note (.finish reply)).After l q := hrest
    rcases hrest.bind_cases with ⟨p', hp, -, -⟩ | ⟨l₁, r, l₂, rfl, h₁, h₂⟩
    · exact False.elim (hp.uses (q := Action.Inner) hu _ hf)
    · rcases List.mem_append.1 hf with hf | hf
      · exact False.elim (h₁.uses (q := Action.Inner) hu _ hf)
      · rcases h₂.act with ⟨rfl, -⟩ | ⟨b, l₂, rfl, hend⟩
        · cases hf
        · obtain ⟨rfl, -⟩ := hend.ret
          cases List.mem_singleton.1 hf
          exact ⟨l₁, h₁, rfl⟩

theorem Finished.performed {tr : List svc.machine.Event}
    (h : Trail (svc.calls direct) ⟨svc.init content, []⟩ tr g) (hf : Finished tr t job reply)
    (hjob : ∀ f key, job ≠ .flight f key) (hu : (svc.perform job).Uses Action.Inner) :
    ∃ l, (svc.perform job).After l (.ret reply) ∧
      threadActs tr t = ⟨.note (.start job), ()⟩ :: (l ++ [⟨.note (.finish reply), ()⟩]) := by
  obtain ⟨begun, hthreads⟩ := h.threads
  have ht : t < g.pool.length := by
    obtain ⟨e, he, rfl, -⟩ := mem_acts.1 hf.finished
    exact hthreads.thread e he
  obtain ⟨⟨forked, p⟩, hp, hacts⟩ := hthreads.after t _ (List.getElem?_eq_getElem ht)
  have hmem := List.mem_of_getElem? hp
  obtain ⟨hstarted, hfinished⟩ := hf
  have hafter : Prog.After p (threadActs tr t) _ := hacts
  generalize threadActs tr t = l at hstarted hfinished hafter
  clear hacts
  cases forked with
  | false =>
    obtain ⟨job', -, rfl⟩ := hthreads.entry p hmem
    have hjob' : job' = job := by
      rcases hafter.act with ⟨rfl, -⟩ | ⟨b, l, rfl, -⟩
      · cases hstarted
      · cases hstarted
        rfl
    subst hjob'
    exact performed_call hafter hu hfinished
  | true =>
    obtain ⟨e, -, he⟩ := hthreads.fork hmem
    obtain ⟨key, epoch, policy, f, rfl⟩ := fork_flight he
    rcases hafter.act with ⟨rfl, -⟩ | ⟨b, l, rfl, -⟩
    · cases hstarted
    · cases hstarted
      exact absurd rfl (hjob f key)

theorem mem_inside {a b x : α} {l l₁ l₂ : List α} (h : l₁ ++ x :: l₂ = a :: (l ++ [b])) (ha : x ≠ a)
    (hb : x ≠ b) : ∃ l₁' l₂', l = l₁' ++ x :: l₂' ∧ l₂ = l₂' ++ [b] := by
  cases l₁ with
  | nil => exact absurd (List.cons.inj h).1 ha
  | cons y l₁ =>
    have h : l₁ ++ x :: l₂ = l ++ [b] := (List.cons.inj h).2
    rcases List.eq_nil_or_concat l₂ with rfl | ⟨l₂, z, rfl⟩
    · exact absurd (List.cons.inj (List.append_inj' h rfl).2).1 hb
    · rw [List.concat_eq_append, ← List.cons_append, ← List.append_assoc] at h
      obtain ⟨rfl, hz⟩ := List.append_inj' h rfl
      exact ⟨l₁, l₂, rfl, by rw [List.concat_eq_append, hz]⟩

theorem Finished.around {past later : List svc.machine.Event} {x : svc.machine.Event}
    {y : Σ a, Action.Resp a}
    (h : Trail (svc.calls direct) ⟨svc.init content, []⟩ (past ++ x :: later) g)
    (hf : Finished (past ++ x :: later) x.thread job reply) (hjob : ∀ f key, job ≠ .flight f key)
    (hu : (svc.perform job).Uses Action.Inner) (hx : x.act = y)
    (hy : ∀ n b, y ≠ ⟨.note n, b⟩) :
    ∃ l₁ l₂, (svc.perform job).After (l₁ ++ y :: l₂) (.ret reply) ∧
      threadActs later x.thread = l₂ ++ [⟨.note (.finish reply), ()⟩] := by
  obtain ⟨l, hl, hacts⟩ := hf.performed h hjob hu
  rw [threadActs, acts_append, acts_cons_self, hx] at hacts
  obtain ⟨l₁, l₂, rfl, hlater⟩ := mem_inside hacts (hy _ _) (hy _ _)
  exact ⟨l₁, l₂, hl, hlater⟩

theorem observes_observeRead {policy : Decision}
    (h : (svc.observeRead key policy).After l (.ret state)) (hp : policy.mode ≠ .deny) :
    ∃ o, ⟨.tracker (.observeWithState key), o⟩ ∈ l := by
  rw [observeRead, if_pos hp] at h
  obtain ⟨l₁, o, l₂, rfl, h₁, -⟩ := h.bind_ret
  rw [h₁.perform]
  exact ⟨o, List.mem_append_left _ (List.mem_singleton_self _)⟩

theorem observes_get (h : (svc.get key).After l (.ret r)) (hne : key ≠ [])
    (hp : (svc.policy key).mode ≠ .deny) (hctx : ⟨.ctxErr, none⟩ ∈ l) :
    ∃ o, ⟨.tracker (.observeWithState key), o⟩ ∈ l := by
  rw [get, if_neg hne] at h
  obtain ⟨l₁, err, l₂, rfl, h₁, h⟩ := h.bind_ret
  cases err with
  | some e =>
    rw [h₁.perform, h.ret.1] at hctx
    cases List.mem_singleton.1 hctx
  | none =>
    obtain ⟨l₂, state, l₃, rfl, h₂, -⟩ := h.bind_ret
    obtain ⟨o, ho⟩ := observes_observeRead h₂ hp
    exact ⟨o, List.mem_append_right _ (List.mem_append_left _ ho)⟩

theorem observes_mgetLocal {out out' : List Answer} {missing missing' : List MissingRead}
    (h : (svc.mgetLocal out missing position keys).After l (.ret (out', missing')))
    (hk : key ∈ keys) (hp : (svc.policy key).mode ≠ .deny) :
    ∃ o, ⟨.tracker (.observeWithState key), o⟩ ∈ l := by
  induction keys generalizing out missing position l with
  | nil => cases hk
  | cons key' keys ih =>
    obtain ⟨l₁, state, l₂, rfl, h₁, h⟩ := h.bind_ret
    by_cases hkey : key = key'
    · subst hkey
      obtain ⟨o, ho⟩ := observes_observeRead h₁ hp
      exact ⟨o, List.mem_append_left _ ho⟩
    · have hk : key ∈ keys := (List.mem_cons.1 hk).resolve_left hkey
      obtain ⟨l₂, item, l₃, rfl, -, h⟩ := h.bind_ret
      obtain ⟨o, ho⟩ : ∃ o, ⟨.tracker (.observeWithState key), o⟩ ∈ l₃ := by
        cases item with
        | some item =>
          obtain ⟨l₃, _, l₄, rfl, -, h⟩ := h.bind_ret
          obtain ⟨o, ho⟩ := ih h hk
          exact ⟨o, List.mem_append_right _ ho⟩
        | none =>
          obtain ⟨l₃, _, l₄, rfl, -, h⟩ := h.bind_ret
          split at h
          · obtain ⟨l₄, epoch, l₅, rfl, -, h⟩ := h.bind_ret
            obtain ⟨o, ho⟩ := ih h hk
            exact ⟨o, List.mem_append_right _ (List.mem_append_right _ ho)⟩
          · obtain ⟨o, ho⟩ := ih h hk
            exact ⟨o, List.mem_append_right _ ho⟩
      exact ⟨o, List.mem_append_right _ (List.mem_append_right _ ho)⟩

/-- A read of a key was executed: a Get that was past its checks, or an MGet with the key among
its own. -/
inductive Executed (tr : List svc.machine.Event) (key : Key) : Prop
  | get (t : Nat) (reply : Reply) (h : Finished tr t (.get key) reply)
      (hctx : ⟨.ctxErr, none⟩ ∈ threadActs tr t)
  | mget (t : Nat) (keys : List Key) (reply : Reply) (h : Finished tr t (.mget keys) reply)
      (hk : key ∈ keys)

def Observes (e : svc.machine.Event) (key : Key) (o : Hotness.Observation) : Prop :=
  e.act = ⟨.tracker (.observeWithState key), o⟩

theorem Executed.observed {tr : List svc.machine.Event}
    (h : Trail (svc.calls direct) ⟨svc.init content, []⟩ tr g) (he : Executed tr key)
    (hne : key ≠ []) (hp : (svc.policy key).mode ≠ .deny) : ∃ e ∈ tr, ∃ o, Observes e key o := by
  have hevent : ∀ {t o}, ⟨.tracker (.observeWithState key), o⟩ ∈ threadActs tr t →
      ∃ e ∈ tr, ∃ o, Observes e key o := by
    intro t o ho
    obtain ⟨e, he, -, hact⟩ := mem_acts.1 ho
    exact ⟨e, he, o, hact⟩
  cases he with
  | get t reply hf hctx =>
    obtain ⟨l, hl, hacts⟩ := hf.performed h nofun (inner_of_ordinary (ordinary_perform nofun))
    rw [hacts] at hctx
    have hctx : ⟨.ctxErr, none⟩ ∈ l := by
      rcases List.mem_cons.1 hctx with hctx | hctx
      · cases hctx
      · exact (List.mem_append.1 hctx).resolve_right nofun
    obtain ⟨l₁, r, l₂, rfl, h₁, h₂⟩ := hl.bind_ret
    rw [h₂.ret.1, List.append_nil] at hctx hacts
    obtain ⟨o, ho⟩ := observes_get h₁ hne hp hctx
    apply hevent
    rw [hacts]
    exact List.mem_cons_of_mem _ (List.mem_append_left _ ho)
  | mget t keys reply hf hk =>
    obtain ⟨l, hl, hacts⟩ := hf.performed h nofun (inner_of_ordinary (ordinary_perform nofun))
    obtain ⟨l₁, r, l₂, rfl, h₁, -⟩ := hl.bind_ret
    obtain ⟨l₁, ⟨out, missing⟩, l₃, rfl, h₁, -⟩ := h₁.bind_ret
    obtain ⟨o, ho⟩ := observes_mgetLocal h₁ hk hp
    apply hevent
    rw [hacts]
    exact List.mem_cons_of_mem _ (List.mem_append_left _
      (List.mem_append_left _ (List.mem_append_left _ ho)))

/-- An observation that the tracker has skipped, for a key that is too long or for want of a
slot. -/
def Skipped (e : svc.machine.Event) : Prop :=
  ∃ key o, Observes e key o ∧
    (o.oversizedObservationDropped = true ∨ o.capacityObservationDropped = true)

/-- A key that was tracked before the first event has lost its slot before the second one. -/
def SlotReused (e e' : svc.machine.Event) : Prop :=
  ∃ key, e.before.tracker.isTracked key = true ∧ e'.before.tracker.isTracked key = false

/-- What the tracker knows of the events so far. -/
structure Watched (tr : List svc.machine.Event) (tracker : Hotness.Tracker) : Prop where
  capacity : 0 < tracker.cfg.maxTrackedKeys
  observed : ∀ e ∈ tr, ∀ key o, Observes e key o → key ≠ [] →
    tracker.isTracked key = true ∨ 0 < tracker.losses
  skipped : ∀ e ∈ tr, Skipped e → 0 < tracker.losses
  retains : ∀ e ∈ tr, e.before.tracker.Retains tracker
  reused : ∀ e e', [e, e'].Sublist tr → SlotReused e e' → 0 < tracker.losses

theorem Watched.concat {tr : List svc.machine.Event} {tracker : Hotness.Tracker}
    (h : Watched tr e.before.tracker) (hr : e.before.tracker.Retains tracker)
    (hcfg : tracker.cfg = e.before.tracker.cfg)
    (hobserved : ∀ key o, Observes e key o → key ≠ [] →
      tracker.isTracked key = true ∨ 0 < tracker.losses)
    (hskipped : Skipped e → 0 < tracker.losses) : Watched (tr ++ [e]) tracker where
  capacity := hcfg ▸ h.capacity
  observed := by
    intro e' he' key o ho hne
    rcases List.mem_append.1 he' with he' | he'
    · rcases h.observed e' he' key o ho hne with htracked | hpos
      · exact (hr.tracked key htracked).imp_right Nat.zero_lt_of_lt
      · exact .inr (hpos.trans_le hr.losses)
    · cases List.mem_singleton.1 he'
      exact hobserved key o ho hne
  skipped := by
    intro e' he' hs
    rcases List.mem_append.1 he' with he' | he'
    · exact (h.skipped e' he' hs).trans_le hr.losses
    · cases List.mem_singleton.1 he'
      exact hskipped hs
  retains := by
    intro e' he'
    rcases List.mem_append.1 he' with he' | he'
    · exact (h.retains e' he').trans hr
    · cases List.mem_singleton.1 he'
      exact hr
  reused := by
    intro e₁ e₂ hsub hreused
    obtain ⟨l₁, l₂, hl, h₁, h₂⟩ := List.sublist_append_iff.1 hsub
    rcases List.sublist_singleton.1 h₂ with rfl | rfl
    · rw [List.append_nil] at hl
      exact (h.reused e₁ e₂ (hl ▸ h₁) hreused).trans_le hr.losses
    · obtain ⟨rfl, he⟩ := List.append_inj' (show [e₁] ++ [e₂] = l₁ ++ [e] from hl) rfl
      cases he
      obtain ⟨key, htracked, hlost⟩ := hreused
      rcases (h.retains e₁ (h₁.subset (List.mem_singleton_self _))).tracked key htracked with
        hkept | hlt
      · rw [hlost] at hkept
        cases hkept
      · exact (Nat.zero_lt_of_lt hlt).trans_le hr.losses

theorem Watched.act {tr : List svc.machine.Event} {s s' : World} (h : Watched tr s.tracker)
    (hrep : s.tracker.Rep) (he : World.exec t a c s = some (b, s')) :
    Watched (tr ++ [⟨t, s, a, b⟩]) s'.tracker := by
  by_cases ha : ∃ op, a = .tracker op
  · obtain ⟨op, rfl⟩ := ha
    obtain ⟨tracker, hrun, rfl⟩ := World.exec_tracker he
    refine h.concat (TrackerOp.run_retains hrep h.capacity hrun)
      (TrackerOp.run_reports hrep hrun).cfg ?_ ?_
    · rintro key o ho
      cases ho
      exact (TrackerOp.run_observes hrep h.capacity hrun).1
    · rintro ⟨key, o, ho, hskip⟩
      cases ho
      exact (TrackerOp.run_observes hrep h.capacity hrun).2 hskip
  · have hsame : s'.tracker = s.tracker := by
      obtain ⟨s₁, hs, rfl⟩ := World.exec_eq_some.1 he
      exact (World.step_frame hs).tracker fun op hop => ha ⟨op, hop⟩
    have hother : ∀ key o, ¬ Observes (⟨t, s, a, b⟩ : svc.machine.Event) key o := by
      intro key o ho
      exact ha ⟨_, congrArg Sigma.fst ho⟩
    rw [hsame]
    refine h.concat (Hotness.Tracker.Steady.refl _).retains rfl ?_ ?_
    · intro key o ho
      exact absurd ho (hother key o)
    · rintro ⟨key, o, ho, -⟩
      exact absurd ho (hother key o)

theorem watched {tr : List svc.machine.Event}
    (h : Trail (svc.calls direct) ⟨svc.init content, []⟩ tr g) : Watched tr g.state.tracker := by
  apply h.invariant (J := fun tr (s : World) => Watched tr s.tracker)
  · have hnone : ∀ {e : svc.machine.Event}, e ∉ [] := List.not_mem_nil
    refine ⟨?_, fun _ he => absurd he hnone, fun _ he => absurd he hnone,
      fun _ he => absurd he hnone, fun e e' hsub => absurd (hsub.subset (.head _)) hnone⟩
    show 0 < (Hotness.Config.normalize _).maxTrackedKeys
    simp only [Hotness.Config.normalize]
    split <;> omega
  · intro tr g t a k c b s hreach _ hw he
    exact hw.act (Reachable.base hreach).tracker he
  · intro tr e s s' hw he
    rw [World.env_eq he]
    exact hw

theorem audit_view (h : (svc.audit limit).After l (.ret report)) :
    ∃ view : Hotness.View,
      ⟨.tracker (.advanceAndSnapshot (normalizeAuditLimit limit)), view⟩ ∈ l ∧
      report.entries = view.snapshots.map svc.auditEntry ∧
      (report.telemetryComplete = true ↔ view.tracked ≤ view.snapshots.length ∧
        view.evictions = 0 ∧ view.capacityDrops = 0 ∧ view.oversizedObservationsDropped = 0) := by
  obtain ⟨l₁, view, l₂, rfl, h₁, h⟩ := h.bind_ret
  obtain ⟨l₂, _, l₃, rfl, h₂, h⟩ := h.bind_ret
  obtain ⟨l₃, now, l₄, rfl, h₃, h⟩ := h.bind_ret
  obtain ⟨rfl, hr⟩ := h.ret
  cases hr
  refine ⟨view, ?_, rfl, ?_⟩
  · rw [h₁.perform]
    exact List.mem_append_left _ (List.mem_singleton_self _)
  · simp

/-- An entry of an audit report speaks of this key, as the tracker and the policies have it. -/
structure Describes (svc : Service) (tracker : Hotness.Tracker) (key : Key) (entry : AuditEntry) :
    Prop where
  id : entry.id = svc.keyIdentifier key
  hotnessState : ∃ ent, tracker.find key = some ent ∧ entry.hotnessState = ent.state
  policyMode : entry.effectivePolicyMode = (svc.policy key).mode

/-- Complete telemetry means complete. The instant of a report is the one call of the tracker that
takes its view; a report that calls itself complete has one entry for every key that was read
until then, as the tracker has it at that instant, and no report is complete once an observation
was skipped or a slot reused. -/
theorem telemetry_complete {tr : List svc.machine.Event}
    (h : Trail (svc.calls direct) ⟨svc.init content, []⟩ tr g)
    (hf : Finished tr t (.audit limit) (.audit report)) :
    ∃ (tr₁ tr₂ : List svc.machine.Event) (e : svc.machine.Event) (c : Choice) (s : World)
        (view : Hotness.View),
      tr = tr₁ ++ e :: tr₂ ∧ e.thread = t ∧
      e.act = ⟨.tracker (.advanceAndSnapshot (normalizeAuditLimit limit)), view⟩ ∧
      World.exec t (.tracker (.advanceAndSnapshot (normalizeAuditLimit limit))) c e.before =
        some (view, s) ∧
      (report.telemetryComplete = true → ∃ keys : List Key, keys.Nodup ∧
        List.Forall₂ (svc.Describes s.tracker) keys report.entries ∧
        ∀ key, Executed tr₁ key → key ≠ [] → (svc.policy key).mode ≠ .deny → key ∈ keys) ∧
      ((∃ e' ∈ tr₁, Skipped e') ∨ (∃ e₁ e₂, [e₁, e₂].Sublist (tr₁ ++ [e]) ∧ SlotReused e₁ e₂) →
        report.telemetryComplete = false) := by
  obtain ⟨l, hl, hacts⟩ := hf.performed h nofun (inner_of_ordinary (ordinary_perform nofun))
  obtain ⟨l₁, r, l₂, rfl, h₁, h₂⟩ := hl.bind_ret
  cases h₂.ret.2
  obtain ⟨view, hview, hentries, hcomplete⟩ := audit_view h₁
  have hmem : ⟨.tracker (.advanceAndSnapshot (normalizeAuditLimit limit)), view⟩ ∈
      threadActs tr t := by
    rw [hacts]
    exact List.mem_cons_of_mem _ (List.mem_append_left _ (List.mem_append_left _ hview))
  obtain ⟨⟨_, before, a, view⟩, he, rfl, hact⟩ := mem_acts.1 hmem
  cases hact
  obtain ⟨tr₁, tr₂, rfl⟩ := List.append_of_mem he
  obtain ⟨g₁, g₂, c, k, htr₁, rfl, -, -, hexec, -⟩ := h.split rfl
  have hw := watched htr₁
  obtain ⟨tracker, hrun, hs⟩ := World.exec_tracker hexec
  have htracker : g₂.state.tracker = tracker := by rw [hs]
  obtain ⟨hsteady, hlosses, hall⟩ :=
    TrackerOp.run_snapshot (Reachable.base htr₁.reach).tracker hrun
  refine ⟨tr₁, tr₂, _, c, g₂.state, view, rfl, rfl, rfl, hexec, ?_, ?_⟩
  · intro hc
    obtain ⟨htracked, h₁, h₂, h₃⟩ := hcomplete.1 hc
    obtain ⟨hperm, hsnapshots⟩ := hall htracked
    refine ⟨view.snapshots.map Hotness.Snapshot.key, ?_, ?_, ?_⟩
    · exact hperm.nodup_iff.2 tracker.items.keys_nodup
    · rw [hentries, List.forall₂_map_left_iff, List.forall₂_map_right_iff, List.forall₂_same]
      intro snapshot hmem
      obtain ⟨ent, hfind, hsnapshot⟩ := hsnapshots snapshot hmem
      refine ⟨rfl, ⟨ent, htracker ▸ hfind, ?_⟩, rfl⟩
      rw [hsnapshot]
      rfl
    · intro key hexecuted hne hmode
      obtain ⟨e, he, o, ho⟩ := hexecuted.observed htr₁ hne hmode
      rcases hw.observed e he key o ho hne with htracked | hpos
      · rw [hperm.mem_iff, hsteady.items]
        exact AList.lookup_isSome.1 htracked
      · rw [← hsteady.losses] at hpos
        omega
  · intro hlost
    have hpos : 0 < tracker.losses := by
      rw [hsteady.losses]
      rcases hlost with ⟨e, he, hskipped⟩ | ⟨e₁, e₂, hsub, hreused⟩
      · exact hw.skipped e he hskipped
      · have hnow := hw.act (Reachable.base htr₁.reach).tracker hexec
        rw [← hsteady.losses, ← htracker]
        exact hnow.reused e₁ e₂ hsub hreused
    rw [Bool.eq_false_iff]
    intro hc
    obtain ⟨-, h₁, h₂, h₃⟩ := hcomplete.1 hc
    omega

/-- The call and the reply of a goroutine that has returned. -/
def callOf : List (Σ a, Action.Resp a) → Option (Job × Reply)
  | ⟨.note (.start job), _⟩ :: l =>
    match l.getLast? with
    | some ⟨.note (.finish reply), _⟩ => some (job, reply)
    | _ => none
  | _ => none

theorem finished_of_callOf {tr : List svc.machine.Event}
    (h : callOf (threadActs tr t) = some (job, reply)) : Finished tr t job reply := by
  generalize hl : threadActs tr t = l at h
  unfold callOf at h
  split at h
  · split at h
    · rename_i hlast
      cases h
      constructor
      · rw [hl]
        rfl
      · rw [hl]
        exact List.mem_cons_of_mem _ (List.mem_of_getLast? hlast)
    · cases h
  · cases h

def sampleAudit : sample.machine.Config := samplePromoted.spawn (sample.call (.audit 10))

def auditSize : Job × Reply → Option (Job × Bool × Nat)
  | (job, .audit report) => some (job, report.telemetryComplete, report.entries.length)
  | _ => none

theorem telemetry_complete_sample : ∃ (tr : List sample.machine.Event) (report : AuditReport),
    Finished tr 3 (.audit 10) (.audit report) ∧ report.telemetryComplete = true ∧
      ∃ tracker keys, keys.Nodup ∧ keys.length = 1 ∧
        List.Forall₂ (sample.Describes tracker) keys report.entries := by
  obtain ⟨tr, htr⟩ := samplePromoted_reachable.trail
  have hnew : threadActs tr 3 = [] := by
    obtain ⟨begun, hthreads⟩ := htr.threads
    exact hthreads.acts_eq_nil (by decide +kernel)
  have htr := (htr.spawn ⟨.audit 10, nofun, rfl⟩).drive (fun _ _ _ => trivial) pick 3 100
  have hsize : (callOf (threadActs (sampleAudit.events pick 3 100) 3)).bind auditSize =
      some (.audit 10, true, 1) := by decide +kernel
  obtain ⟨⟨job, reply⟩, hcall, hsize⟩ := Option.bind_eq_some_iff.1 hsize
  cases reply with
  | audit report =>
    obtain ⟨rfl, hcomplete, hlength⟩ :
        job = .audit 10 ∧ report.telemetryComplete = true ∧ report.entries.length = 1 := by
      simpa [auditSize] using hsize
    have hf : Finished (tr ++ sampleAudit.events pick 3 100) 3 (.audit 10) (.audit report) := by
      apply finished_of_callOf
      rw [threadActs, acts_append]
      rw [threadActs] at hnew
      rw [hnew]
      exact hcall
    obtain ⟨_, _, _, _, s, _, -, -, -, -, hkeys, -⟩ := telemetry_complete htr hf
    obtain ⟨keys, hnodup, hkeys, -⟩ := hkeys hcomplete
    exact ⟨_, report, hf, hcomplete, s.tracker, keys, hnodup, hkeys.length_eq.trans hlength, hkeys⟩
  | _ => cases hsize

end Service
end Slizen
