import Slizen.HighWater
import Slizen.Service.Watching

namespace Slizen
set_option autoImplicit true

open Interleaving Machine

/-- The two kinds of observations that the tracker drops and the metrics export. -/
inductive Drop where
  | capacity
  | oversized
  deriving DecidableEq

namespace Drop

open Service (Ignores obeys_when obeys_applyTransitions)

def total : Drop → Hotness.Tracker → Nat
  | capacity => Hotness.Tracker.capacityDrops
  | oversized => Hotness.Tracker.oversizedObservationsDropped

def seen : Drop → Recorder → Nat
  | capacity => Recorder.hotnessCapacityDropSeen
  | oversized => Recorder.hotnessOversizedDropSeen

def exported : Drop → Recorder → Nat
  | capacity => Recorder.hotnessCapacityDrops
  | oversized => Recorder.hotnessOversizedDrops

/-- The total that an observation brings, and whether it has been dropped itself. -/
def count : Drop → Hotness.Observation → Nat
  | capacity => Hotness.Observation.capacityDrops
  | oversized => Hotness.Observation.oversizedObservationsDropped

def dropped : Drop → Hotness.Observation → Bool
  | capacity => Hotness.Observation.capacityObservationDropped
  | oversized => Hotness.Observation.oversizedObservationDropped

/-- The total that a call of the recorder passes to `advanceHighWater`. -/
def passed : Drop → Metric → Option Nat
  | capacity, .observeHotnessCapacityDrops n => some n
  | oversized, .observeHotnessOversizedDrops n => some n
  | _, _ => none

def told : Drop → (op : TrackerOp) → op.Resp → Option Nat
  | d, .observeWithState _, o => some (d.count o)
  | d, .admitKey _, o => some (d.count o)
  | capacity, .capacityDrops, n => some n
  | oversized, .oversizedObservationsDropped, n => some n
  | _, _, _ => none

def owed : Drop → (op : TrackerOp) → op.Resp → Nat
  | d, .observeWithState _, o => if d.dropped o then d.count o else 0
  | d, .admitKey _, o => if d.dropped o then d.count o else 0
  | _, _, _ => 0

theorem record_passed {d : Drop} (r : Recorder) (h : d.passed m = some n) :
    d.seen (r.record m) = max (d.seen r) n ∧
      d.exported (r.record m) = d.exported r + (n - d.seen r) := by
  cases d <;> cases m <;> cases h <;> exact ⟨rfl, rfl⟩

theorem record_other {d : Drop} (r : Recorder) (h : d.passed m = none) :
    d.seen (r.record m) = d.seen r ∧ d.exported (r.record m) = d.exported r := by
  cases d <;> cases m <;> first | exact ⟨rfl, rfl⟩ | cases h

open HighWater in
/-- A call of the recorder that nothing interrupts does what the model of the recorder does in one
step. -/
theorem record_run {d : Drop} (r : Recorder) (h : d.passed m = some n) :
    let s := (start (d.seen r) (d.exported r) [n]).run [0, 0, 0]
    s.mark = d.seen (r.record m) ∧ s.exported = d.exported (r.record m) ∧
      ∀ x ∈ s.calls, x.Returned := by
  obtain ⟨hseen, hexp⟩ := record_passed r h
  rw [hseen, hexp]
  by_cases hle : n ≤ d.seen r
  · simp [start, State.run, State.step, Call.step, hle, Call.Returned]
  · simp [start, State.run, State.step, Call.step, hle, Call.Returned, (Nat.lt_of_not_le hle).le]

section Tracker

variable (d : Drop) (tr : Hotness.Tracker)

theorem total_advanceSlot (n : Nat) (boundary : Time) (key : Key) :
    d.total (tr.advanceSlot n boundary key).2 = d.total tr := by
  rw [Hotness.Tracker.advanceSlot]
  split
  · rfl
  · split
    · rfl
    · cases d <;> rfl

theorem total_advanceSlots (n : Nat) (boundary : Time) (order : List Key) :
    d.total (tr.advanceSlots n boundary order).2 = d.total tr := by
  induction order generalizing tr with
  | nil => rfl
  | cons key order ih => exact (ih _).trans (d.total_advanceSlot tr n boundary key)

theorem total_advanceLocked (order : List Key) (now : Time) :
    d.total (tr.advanceLocked order now).2 = d.total tr := by
  rw [Hotness.Tracker.advanceLocked]
  split
  · rfl
  · rw [← d.total_advanceSlots tr (tr.elapsedWindows now) (tr.window + tr.cfg.window) order]
    cases d <;> rfl

theorem total_getOrCreateLocked (key : Key) (now : Time) :
    d.total tr ≤ d.total (tr.getOrCreateLocked key now).2 ∧
      (d = oversized ∨ (tr.getOrCreateLocked key now).1 ≠ none →
        d.total (tr.getOrCreateLocked key now).2 = d.total tr) := by
  rw [Hotness.Tracker.getOrCreateLocked]
  split
  · exact ⟨le_rfl, fun _ => rfl⟩
  · split
    · cases d <;> exact ⟨le_rfl, fun _ => rfl⟩
    · dsimp only
      split
      · exact ⟨le_rfl, fun _ => rfl⟩
      · split
        · cases d with
          | capacity => exact ⟨Nat.le_succ _, fun h => by simp at h⟩
          | oversized => exact ⟨le_rfl, fun _ => rfl⟩
        · cases d <;> exact ⟨le_rfl, fun _ => rfl⟩

theorem total_observeLocked (key : Key) (now : Time) :
    d.count (tr.observeLocked key now).1 = d.total (tr.observeLocked key now).2 ∧
      d.total tr ≤ d.total (tr.observeLocked key now).2 ∧
      (d.dropped (tr.observeLocked key now).1 = false →
        d.total (tr.observeLocked key now).2 = d.total tr) := by
  rw [Hotness.Tracker.observeLocked]
  split
  · cases d with
    | capacity => exact ⟨rfl, le_rfl, fun _ => rfl⟩
    | oversized => exact ⟨rfl, Nat.le_succ _, (by rintro ⟨⟩)⟩
  · split
    · cases d <;> exact ⟨rfl, le_rfl, fun _ => rfl⟩
    · have hslot := d.total_getOrCreateLocked tr key now
      generalize tr.getOrCreateLocked key now = r at hslot ⊢
      obtain ⟨found, tr'⟩ := r
      obtain ⟨hle, hsame⟩ := hslot
      cases found with
      | none =>
        cases d with
        | capacity => exact ⟨rfl, hle, (by rintro ⟨⟩)⟩
        | oversized => exact ⟨rfl, hle, fun _ => hsame (.inl rfl)⟩
      | some found =>
        have heq : d.total tr' = d.total tr := hsame (.inr (by rintro ⟨⟩))
        dsimp only
        split
        · cases d <;> exact ⟨rfl, hle, fun _ => heq⟩
        · cases d <;> exact ⟨rfl, hle, fun _ => heq⟩

theorem total_admitLocked (key : Key) :
    d.count (tr.admitLocked key).1 = d.total (tr.admitLocked key).2 ∧
      d.total (tr.admitLocked key).2 = d.total tr := by
  rw [Hotness.Tracker.admitLocked]
  split
  · cases d <;> exact ⟨rfl, rfl⟩
  · split
    · cases d <;> exact ⟨rfl, rfl⟩
    · cases d <;> exact ⟨rfl, rfl⟩

theorem total_observeWithState (order : List Key) (key : Key) (now : Time) :
    d.count (tr.observeWithState order key now).1 = d.total (tr.observeWithState order key now).2 ∧
      d.total tr ≤ d.total (tr.observeWithState order key now).2 ∧
      (d.dropped (tr.observeWithState order key now).1 = false →
        d.total (tr.observeWithState order key now).2 = d.total tr) := by
  have hadv := d.total_advanceLocked tr order now
  obtain ⟨hcount, hle, hsame⟩ := d.total_observeLocked (tr.advanceLocked order now).2 key now
  rw [hadv] at hle hsame
  cases d <;> exact ⟨hcount, hle, hsame⟩

theorem total_admitKey (order : List Key) (key : Key) (now : Time) :
    d.count (tr.admitKey order key now).1 = d.total (tr.admitKey order key now).2 ∧
      d.total (tr.admitKey order key now).2 = d.total tr := by
  have hadv := d.total_advanceLocked tr order now
  obtain ⟨hcount, hsame⟩ := d.total_admitLocked (tr.advanceLocked order now).2 key
  rw [hadv] at hsame
  cases d <;> exact ⟨hcount, hsame⟩

end Tracker

/-- A tracker call never lowers a total, returns the present one if it returns one, and leaves its
caller with the new total if it has changed. -/
structure Counts (d : Drop) (tr : Hotness.Tracker) (op : TrackerOp) (b : op.Resp)
    (tr' : Hotness.Tracker) : Prop where
  le : d.total tr ≤ d.total tr'
  told : ∀ n, d.told op b = some n → n = d.total tr'
  owed : d.owed op b ≤ d.total tr'
  grown : d.total tr' = d.total tr ∨ d.owed op b = d.total tr'

theorem owed_le {d : Drop} {o : Hotness.Observation} (h : d.count o = n) :
    (if d.dropped o then d.count o else 0) ≤ n := by
  split
  · exact h.le
  · exact Nat.zero_le _

theorem run_counts (d : Drop) {op : TrackerOp} {b : op.Resp}
    (h : op.run tr c now = some (b, tr')) : d.Counts tr op b tr' := by
  cases op with
  | observeWithState key =>
    simp only [TrackerOp.run] at h
    split at h
    · obtain ⟨hcount, hle, hsame⟩ := d.total_observeWithState tr c.order key now
      rw [Option.some.inj h] at hcount hle hsame
      refine ⟨hle, fun n hn => (Option.some.inj hn).symm.trans hcount, owed_le hcount, ?_⟩
      cases hd : d.dropped b with
      | false => exact .inl (hsame hd)
      | true => exact .inr ((if_pos hd).trans hcount)
    · cases h
  | admitKey key =>
    simp only [TrackerOp.run] at h
    split at h
    · obtain ⟨hcount, hsame⟩ := d.total_admitKey tr c.order key now
      rw [Option.some.inj h] at hcount hsame
      exact ⟨hsame.ge, fun n hn => (Option.some.inj hn).symm.trans hcount, owed_le hcount,
        .inl hsame⟩
    · cases h
  | advance =>
    simp only [TrackerOp.run] at h
    split at h
    · have hadv := d.total_advanceLocked tr c.order now
      rw [show (tr.advanceLocked c.order now).2 = tr' from congrArg Prod.snd (Option.some.inj h)]
        at hadv
      exact ⟨hadv.ge, by cases d <;> exact nofun, Nat.zero_le _, .inl hadv⟩
    · cases h
  | advanceAndSnapshot limit =>
    simp only [TrackerOp.run] at h
    split at h <;> cases h
    have hadv := d.total_advanceLocked tr c.order now
    exact ⟨hadv.ge, by cases d <;> exact nofun, Nat.zero_le _, .inl hadv⟩
  | capacityDrops =>
    cases h
    refine ⟨le_rfl, ?_, Nat.zero_le _, .inl rfl⟩
    cases d with
    | capacity => exact fun n hn => (Option.some.inj hn).symm
    | oversized => exact nofun
  | oversizedObservationsDropped =>
    cases h
    refine ⟨le_rfl, ?_, Nat.zero_le _, .inl rfl⟩
    cases d with
    | capacity => exact nofun
    | oversized => exact fun n hn => (Option.some.inj hn).symm
  | _ =>
    cases h
    exact ⟨le_rfl, by cases d <;> exact nofun, Nat.zero_le _, .inl rfl⟩

/-- What is kept in mind of a goroutine: the greatest total it has been told, and the greatest one
that it still has to pass on. -/
structure Tally where
  known : Nat
  owed : Nat

def monitor (d : Drop) : Monitor Action Action.Resp where
  Mem := Tally
  fresh := ⟨0, 0⟩
  Ok := fun μ a =>
    match a with
    | .record m => ∀ n, d.passed m = some n → n ≤ μ.known
    | _ => True
  next := fun μ a =>
    match a with
    | .tracker op => fun b => ⟨max μ.known ((d.told op b).getD 0), max μ.owed (d.owed op b)⟩
    | .record m => fun _ =>
      match d.passed m with
      | some n => ⟨μ.known, if μ.owed ≤ n then 0 else μ.owed⟩
      | none => μ
    | _ => fun _ => μ
  Idle := fun μ => μ.owed = 0

variable {d : Drop} {μ : Tally} {svc : Service}

theorem next_tracker {op : TrackerOp} {b : op.Resp} (htold : d.told op b = none)
    (howed : d.owed op b = 0) : d.monitor.next μ (.tracker op) b = μ := by
  show Tally.mk _ _ = μ
  rw [htold, howed]
  simp

theorem next_record_other (h : d.passed m = none) (b : Unit) :
    d.monitor.next μ (.record m) b = μ := by
  show (match d.passed m with | some n => _ | none => μ) = μ
  rw [h]

theorem next_record_passed (h : d.passed m = some n) (b : Unit) :
    d.monitor.next μ (.record m) b = ⟨μ.known, if μ.owed ≤ n then 0 else μ.owed⟩ := by
  show (match d.passed m with | some n => _ | none => μ) = _
  rw [h]

theorem ok_record_other (h : d.passed m = none) : d.monitor.Ok μ (.record m) := by
  intro n hn
  cases h.symm.trans hn

theorem passed_setHotKeys (d : Drop) (n : Int) : d.passed (.setHotKeys n) = none := by
  cases d <;> rfl

theorem ignores_quiet (d : Drop) (a : Action) (ha : a.Quiet) : Ignores d.monitor a := by
  intro μ
  cases a with
  | tracker op =>
    cases op with
    | isHot key => exact ⟨trivial, fun _ => next_tracker (by cases d <;> rfl) (by cases d <;> rfl)⟩
    | isTracked key =>
      exact ⟨trivial, fun _ => next_tracker (by cases d <;> rfl) (by cases d <;> rfl)⟩
    | _ => exact ha.elim
  | record m =>
    have hm : d.passed m = none := by cases d <;> cases m <;> first | rfl | exact ha.elim
    exact ⟨ok_record_other hm, next_record_other hm⟩
  | _ => exact ⟨trivial, fun _ => rfl⟩

theorem obeys_publishHotKeys : d.monitor.Obeys Service.publishHotKeys (fun _ μ' => μ' = μ) μ := by
  apply And.intro trivial
  intro b
  have hstats : d.monitor.next μ (.tracker .stats) b = μ :=
    next_tracker (by cases d <;> rfl) (by cases d <;> rfl)
  rw [hstats]
  exact ⟨ok_record_other (d.passed_setHotKeys _), next_record_other (d.passed_setHotKeys _)⟩

theorem obeys_when_other {c : Prop} [Decidable c] (h : d.passed m = none) :
    d.monitor.Obeys (Run.when c (Service.record m)) (fun _ μ' => μ' = μ) μ :=
  obeys_when (fun _ => ⟨ok_record_other h, next_record_other h⟩) fun _ => rfl

theorem obeys_when_passed {c : Prop} [Decidable c] (h : d.passed m = some n) (hn : n ≤ μ.known)
    (howed : μ.owed ≤ if c then n else 0) :
    d.monitor.Obeys (Run.when c (Service.record m)) (fun _ μ' => μ'.owed = 0) μ := by
  apply obeys_when
  · intro hc
    rw [if_pos hc] at howed
    refine ⟨fun n' hn' => ?_, fun b => ?_⟩
    · cases h.symm.trans hn'
      exact hn
    · show (d.monitor.next μ (.record m) b).owed = 0
      rw [next_record_passed h, if_pos howed]
  · intro hc
    rw [if_neg hc] at howed
    exact Nat.le_zero.1 howed

theorem obeys_handleObservation {o : Hotness.Observation} (hknown : d.count o ≤ μ.known)
    (howed : μ.owed ≤ if d.dropped o then d.count o else 0) :
    d.monitor.Obeys (svc.handleObservation o) (fun _ => d.monitor.Idle) μ := by
  apply (obeys_applyTransitions d.ignores_quiet _ μ).bind
  rintro _ _ rfl
  apply (obeys_when (fun _ => obeys_publishHotKeys) fun _ => rfl).bind
  rintro _ _ rfl
  cases d with
  | capacity =>
    apply (obeys_when_other rfl).bind
    rintro _ _ rfl
    exact obeys_when_passed rfl hknown howed
  | oversized =>
    apply (obeys_when_passed rfl hknown howed).bind
    intro _ μ' hμ'
    have hother := obeys_when_other (d := .oversized) (μ := μ')
      (c := o.capacityObservationDropped = true) (m := .observeHotnessCapacityDrops o.capacityDrops)
      rfl
    apply hother.mono
    rintro _ _ rfl
    exact hμ'

theorem obeys_forwarded {op : TrackerOp} {m : op.Resp → Metric} (howed : ∀ b, d.owed op b = 0)
    (htold : ∀ b, d.told op b = d.passed (m b)) (hμ : μ.owed = 0) :
    d.monitor.Obeys (Run.do (.tracker op) >>= fun b => Service.record (m b))
      (fun _ => d.monitor.Idle) μ := by
  apply And.intro trivial
  intro b
  have hμ' : (d.monitor.next μ (.tracker op) b).owed = 0 := by
    show max μ.owed (d.owed op b) = 0
    rw [hμ, howed b]
    rfl
  cases hm : d.passed (m b) with
  | none =>
    exact ⟨ok_record_other hm, fun x => (congrArg Tally.owed (next_record_other hm x)).trans hμ'⟩
  | some n =>
    refine ⟨fun n' hn' => ?_, fun x => ?_⟩
    · show n' ≤ max μ.known ((d.told op b).getD 0)
      rw [htold b, hn']
      exact le_max_right _ _
    · apply (congrArg Tally.owed (next_record_passed hm x)).trans
      exact if_pos (hμ'.trans_le (Nat.zero_le n))

theorem obeys_handleTransitions {l : List Hotness.Transition} (h : μ.owed = 0) :
    d.monitor.Obeys (svc.handleTransitions l) (fun _ => d.monitor.Idle) μ := by
  apply (obeys_applyTransitions d.ignores_quiet _ μ).bind
  rintro _ _ rfl
  apply obeys_publishHotKeys.bind
  rintro _ μ' rfl
  have hcapacity : d.monitor.Obeys (Run.do (.tracker .capacityDrops) >>= fun b =>
      Service.record (.observeHotnessCapacityDrops b)) (fun _ => d.monitor.Idle) μ' :=
    obeys_forwarded (fun _ => by cases d <;> rfl) (fun _ => by cases d <;> rfl) h
  apply hcapacity.bind (f := fun _ => Run.do (.tracker .oversizedObservationsDropped) >>= fun b =>
    Service.record (.observeHotnessOversizedDrops b))
  intro _ μ'' hμ''
  exact obeys_forwarded (fun _ => by cases d <;> rfl)
    (fun _ => by cases d <;> rfl) hμ''

theorem minds (d : Drop) (svc : Service) : svc.Minds d.monitor where
  idle := rfl
  quiet := d.ignores_quiet
  tracker := fun _ _ _ => trivial
  observed := by
    intro key o μ hμ
    apply obeys_handleObservation
    · exact le_max_right _ _
    · show max μ.owed _ ≤ _
      rw [show μ.owed = 0 from hμ]
      exact (Nat.zero_max _).le
  admitted := by
    intro key o μ hμ
    apply obeys_handleObservation
    · exact le_max_right _ _
    · show max μ.owed _ ≤ _
      rw [show μ.owed = 0 from hμ]
      exact (Nat.zero_max _).le
  advanced := by
    intro l μ hμ
    apply obeys_handleTransitions
    exact (congrArg Tally.owed (next_tracker (by cases d <;> rfl) (by cases d <;> rfl))).trans hμ
  viewed := by
    intro limit v μ hμ
    apply obeys_handleTransitions
    exact (congrArg Tally.owed (next_tracker (by cases d <;> rfl) (by cases d <;> rfl))).trans hμ
  published := by
    intro x μ hμ
    refine ⟨ok_record_other (d.passed_setHotKeys _), fun b => ?_⟩
    apply (congrArg Tally.owed (next_record_other (d.passed_setHotKeys _) b)).trans
    exact (congrArg Tally.owed (next_tracker (by cases d <;> rfl) (by cases d <;> rfl))).trans hμ

def passedBy (d : Drop) : Action → Option Nat
  | .record m => d.passed m
  | _ => none

def passedIn (d : Drop) (tr : List svc.machine.Event) : List Nat :=
  tr.filterMap fun e => d.passedBy e.action

def tally (d : Drop) (tr : List svc.machine.Event) (t : Nat) : Tally := mem d.monitor tr t

theorem tally_self (tr : List svc.machine.Event) (t : Nat) (s : World) (a : Action) (b : a.Resp) :
    d.tally (tr ++ [(⟨t, s, a, b⟩ : svc.machine.Event)]) t = d.monitor.next (d.tally tr t) a b :=
  mem_self (M := svc.machine) tr t s a b

theorem tally_other (tr : List svc.machine.Event) (s : World) (a : Action) (b : a.Resp)
    (h : u ≠ t) : d.tally (tr ++ [(⟨t, s, a, b⟩ : svc.machine.Event)]) u = d.tally tr u :=
  mem_other (M := svc.machine) tr s a b h

/-- The exported counter is the mark, which is the greatest total passed so far; the goroutines
know of no greater total than the present one, and if the mark is behind it then one of them has
still to pass it. -/
structure Exports (d : Drop) (tr : List svc.machine.Event) (s : World) : Prop where
  exported : d.exported s.recorder = d.seen s.recorder
  greatest : IsGreatest {n | n = 0 ∨ n ∈ d.passedIn tr} (d.seen s.recorder)
  le : d.seen s.recorder ≤ d.total s.tracker
  known : ∀ t, (d.tally tr t).known ≤ d.total s.tracker
  pending : d.total s.tracker ≤ d.seen s.recorder ∨
    ∃ t, d.total s.tracker ≤ (d.tally tr t).owed

variable {tr : List svc.machine.Event} {s s' : World} {t : Nat}

theorem passedIn_snoc (tr : List svc.machine.Event) (a : Action) (b : a.Resp) :
    d.passedIn (tr ++ [(⟨t, s, a, b⟩ : svc.machine.Event)]) =
      d.passedIn tr ++ (d.passedBy a).toList := by
  rw [passedIn, List.filterMap_append, passedIn]
  cases hp : d.passedBy a with
  | none => simp [hp]
  | some n => simp [hp]

theorem isGreatest_snoc {l : List Nat} (h : IsGreatest {x | x = 0 ∨ x ∈ l} m) (n : Nat) :
    IsGreatest {x | x = 0 ∨ x ∈ l ++ [n]} (max m n) := by
  rw [max_comm]
  have hset : {x | x = 0 ∨ x ∈ l ++ [n]} = insert n {x | x = 0 ∨ x ∈ l} := by
    apply Set.ext
    intro x
    simp only [Set.mem_ofPred_eq, List.mem_append, List.mem_singleton, Set.mem_insert_iff]
    tauto
  rw [hset]
  exact h.insert n

theorem Exports.tracker {op : TrackerOp} {b : op.Resp} (h : d.Exports tr s)
    (he : World.exec t (.tracker op) c s = some (b, s')) :
    d.Exports (tr ++ [(⟨t, s, .tracker op, b⟩ : svc.machine.Event)]) s' := by
  obtain ⟨tr', hrun, rfl⟩ := World.exec_tracker he
  have hc := d.run_counts hrun
  have hself := d.tally_self tr t s (.tracker op) b
  have hother := fun u (hu : u ≠ t) => d.tally_other tr s (.tracker op) b hu
  constructor
  · exact h.exported
  · rw [passedIn_snoc, show d.passedBy (.tracker op) = none from rfl, Option.toList_none,
      List.append_nil]
    exact h.greatest
  · exact h.le.trans hc.le
  · intro u
    by_cases hu : u = t
    · subst hu
      rw [hself]
      apply max_le ((h.known u).trans hc.le)
      cases htold : d.told op b with
      | none => exact Nat.zero_le _
      | some n => exact (hc.told n htold).le
    · rw [hother u hu]
      exact (h.known u).trans hc.le
  · rcases hc.grown with hsame | howed
    · show d.total tr' ≤ _ ∨ ∃ u, d.total tr' ≤ _
      rw [hsame]
      apply h.pending.imp_right
      rintro ⟨u, hle⟩
      refine ⟨u, ?_⟩
      by_cases hu : u = t
      · subst hu
        rw [hself]
        exact hle.trans (le_max_left _ _)
      · rwa [hother u hu]
    · refine .inr ⟨t, ?_⟩
      rw [hself]
      exact howed.ge.trans (le_max_right _ _)

/-- An action that passes nothing and leaves the counters alone. -/
theorem Exports.same {a : Action} {b : a.Resp} (h : d.Exports tr s) (hpassed : d.passedBy a = none)
    (hnext : d.monitor.next (d.tally tr t) a b = d.tally tr t)
    (htotal : d.total s'.tracker = d.total s.tracker)
    (hseen : d.seen s'.recorder = d.seen s.recorder)
    (hexp : d.exported s'.recorder = d.exported s.recorder) :
    d.Exports (tr ++ [(⟨t, s, a, b⟩ : svc.machine.Event)]) s' := by
  have htally : ∀ u, d.tally (tr ++ [(⟨t, s, a, b⟩ : svc.machine.Event)]) u = d.tally tr u := by
    intro u
    by_cases hu : u = t
    · subst hu
      exact (tally_self tr u s a b).trans hnext
    · exact tally_other tr s a b hu
  have hin := passedIn_snoc (d := d) (t := t) (s := s) tr a b
  rw [hpassed, Option.toList_none, List.append_nil] at hin
  constructor <;> simp only [htotal, hseen, hexp, htally, hin]
  · exact h.exported
  · exact h.greatest
  · exact h.le
  · exact h.known
  · exact h.pending

theorem Exports.record {m : Metric} {b : Unit} (h : d.Exports tr s)
    (hok : ∀ n, d.passed m = some n → n ≤ (d.tally tr t).known)
    (he : World.exec t (.record m) c s = some (b, s')) :
    d.Exports (tr ++ [(⟨t, s, .record m, b⟩ : svc.machine.Event)]) s' := by
  cases World.exec_record he
  cases hm : d.passed m with
  | none =>
    obtain ⟨hseen, hexp⟩ := record_other s.recorder hm
    exact h.same hm (next_record_other hm b) rfl hseen hexp
  | some n =>
    obtain ⟨hseen, hexp⟩ := record_passed s.recorder hm
    have hother := fun u (hu : u ≠ t) => d.tally_other tr s (.record m) b hu
    have hpassed := passedIn_snoc (d := d) (t := t) (s := s) tr (.record m) b
    rw [show d.passedBy (.record m) = some n from hm, Option.toList_some] at hpassed
    have hn : n ≤ d.total s.tracker := (hok n hm).trans (h.known t)
    have hself := (d.tally_self tr t s (.record m) b).trans (next_record_passed hm b)
    constructor
    · apply hexp.trans
      rw [h.exported]
      have hmax : d.seen s.recorder + (n - d.seen s.recorder) = max (d.seen s.recorder) n := by
        omega
      exact hmax.trans hseen.symm
    · rw [hpassed]
      show IsGreatest _ (d.seen (s.recorder.record m))
      rw [hseen]
      exact isGreatest_snoc h.greatest n
    · exact hseen.trans_le (max_le h.le hn)
    · intro u
      by_cases hu : u = t
      · subst hu
        rw [hself]
        exact h.known u
      · rw [hother u hu]
        exact h.known u
    · show d.total s.tracker ≤ d.seen (s.recorder.record m) ∨ _
      rw [hseen]
      rcases h.pending with hle | ⟨u, hle⟩
      · exact .inl (hle.trans (le_max_left _ _))
      · by_cases hu : u = t
        · subst hu
          by_cases howed : (d.tally tr u).owed ≤ n
          · exact .inl ((hle.trans howed).trans (le_max_right _ _))
          · refine .inr ⟨u, ?_⟩
            rw [hself]
            exact hle.trans (if_neg howed).ge
        · refine .inr ⟨u, ?_⟩
          rwa [hother u hu]

theorem Exports.act {a : Action} {b : a.Resp} (h : d.Exports tr s)
    (hok : d.monitor.Ok (d.tally tr t) a) (he : World.exec t a c s = some (b, s')) :
    d.Exports (tr ++ [(⟨t, s, a, b⟩ : svc.machine.Event)]) s' := by
  have hother : (∀ op, a ≠ .tracker op) → (∀ m, a ≠ .record m) → d.passedBy a = none →
      d.monitor.next (d.tally tr t) a b = d.tally tr t →
      d.Exports (tr ++ [(⟨t, s, a, b⟩ : svc.machine.Event)]) s' := by
    intro htracker hrecord hpassed hnext
    obtain ⟨s₁, hs, rfl⟩ := World.exec_eq_some.1 he
    have hf := World.step_frame hs
    have hrecorder := hf.recorder hrecord
    exact h.same hpassed hnext (congrArg d.total (hf.tracker htracker))
      (congrArg d.seen hrecorder) (congrArg d.exported hrecorder)
  cases a with
  | tracker op => exact h.tracker he
  | record m => exact h.record hok he
  | _ => exact hother nofun nofun rfl rfl

theorem exports_of_trail (d : Drop) {g : svc.machine.Config}
    (h : Trail (svc.calls direct) ⟨svc.init content, []⟩ tr g) : d.Exports tr g.state := by
  apply (d.minds svc).watched direct |>.invariant h
  · cases d <;> exact ⟨rfl, ⟨.inl rfl, by rintro n (rfl | hn); exacts [le_rfl, absurd hn nofun]⟩,
      le_rfl, fun _ => le_rfl, .inl le_rfl⟩
  · exact fun _ hj hok he => hj.act hok he
  · intro tr e s s' hj he
    rw [World.env_eq he]
    exact ⟨hj.exported, hj.greatest, hj.le, hj.known, hj.pending⟩

theorem seen_of_trail (d : Drop) {g : svc.machine.Config}
    (h : Trail (svc.calls direct) ⟨svc.init content, []⟩ tr g) (hq : g.Quiescent) :
    d.seen g.state.recorder = d.total g.state.tracker := by
  have he := d.exports_of_trail h
  apply le_antisymm he.le
  rcases he.pending with hle | ⟨t, hle⟩
  · exact hle
  · have hidle : (d.tally tr t).owed = 0 := ((d.minds svc).watched direct).idle_mem h hq t
    rw [hidle] at hle
    exact hle.trans (Nat.zero_le _)

end Drop

namespace Service

open HighWater Drop in
/-- In every interleaving of calls of `advanceHighWater` the mark is the greatest of its first value
and the totals of the calls that have returned or swapped, and their deltas add up to its growth. A
call of the recorder is such a call that nothing interrupts. When the operations of a service have
finished, its exported counters are those of its tracker, in whatever order the steps of the
recorder calls have been taken. -/
theorem high_water_export :
    (∀ (mark exported : Nat) (totals schedule : List Nat),
      let s := (start mark exported totals).run schedule
      s.calls.map Call.total = totals ∧
        IsGreatest {n | n = mark ∨ ∃ x ∈ s.calls, x.Settled ∧ x.total = n} s.mark ∧
        mark + (s.calls.map Call.delta).sum = s.mark) ∧
    (∀ (d : Drop) (r : Recorder) (m : Metric) (n : Nat), d.passed m = some n →
      let s := (start (d.seen r) (d.exported r) [n]).run [0, 0, 0]
      s.mark = d.seen (r.record m) ∧ s.exported = d.exported (r.record m) ∧
        ∀ x ∈ s.calls, x.Returned) ∧
    ∀ (svc : Service) (direct : Bool) (content : Key → Option Bytes)
      (tr : List svc.machine.Event) (g : svc.machine.Config),
      Trail (svc.calls direct) ⟨svc.init content, []⟩ tr g → g.Quiescent → ∀ d : Drop,
        d.exported g.state.recorder = d.total g.state.tracker ∧
        ∀ schedule : List Nat,
          (∀ x ∈ ((start 0 0 (d.passedIn tr)).run schedule).calls, x.Returned) →
            ((start 0 0 (d.passedIn tr)).run schedule).exported = d.total g.state.tracker := by
  refine ⟨?_, fun d r m n h => record_run r h, ?_⟩
  · intro mark exported totals schedule
    have h := (inv_start mark exported totals).run schedule
    exact ⟨h.totals, h.greatest, h.deltas⟩
  · intro svc direct content tr g h hq d
    have he := d.exports_of_trail h
    have hseen := d.seen_of_trail h hq
    refine ⟨he.exported.trans hseen, fun schedule hr => ?_⟩
    obtain ⟨hexp, hmark⟩ := ((inv_start 0 0 (d.passedIn tr)).run schedule).returned hr
    rw [hexp, hmark.unique he.greatest, hseen, Nat.zero_add, Nat.sub_zero]

def oversizedRead : List Cue :=
  [.call (.get (List.replicate 1025 7)), .go 0 100, .go 1 100, .go 0 100]

theorem high_water_export_oversized :
    (sample.schedule (fun _ => some [0]) pick oversizedRead).1.state.recorder.hotnessOversizedDrops
      = 1 :=
  (high_water_export.2.2 sample false (fun _ => some [0]) _ _
    (schedule_trail pick (l := oversizedRead) (by decide)) (by decide +kernel) .oversized).1.trans
      (by decide +kernel)

end Service
end Slizen
