import Slizen.Service.Machine

namespace Slizen
set_option autoImplicit true

open Hotness in
theorem TrackerOp.run_reports {tr tr' : Tracker} {op : TrackerOp} {b : op.Resp} (hr : tr.Rep)
    (h : op.run tr c now = some (b, tr')) : tr.Reports (op.transitions b) tr' := by
  cases op with
  | observeWithState key =>
    obtain ⟨-, he⟩ := Option.ite_none_right_eq_some.1 h
    obtain ⟨rfl, rfl⟩ := Prod.mk.inj (Option.some.inj he)
    exact hr.observeWithState c.order key now
  | admitKey key =>
    obtain ⟨-, he⟩ := Option.ite_none_right_eq_some.1 h
    obtain ⟨rfl, rfl⟩ := Prod.mk.inj (Option.some.inj he)
    exact hr.admitKey c.order key now
  | advance =>
    obtain ⟨-, he⟩ := Option.ite_none_right_eq_some.1 h
    obtain ⟨rfl, rfl⟩ := Prod.mk.inj (Option.some.inj he)
    exact hr.advanceLocked c.order now
  | advanceAndSnapshot limit =>
    obtain ⟨-, he⟩ := Option.ite_none_right_eq_some.1 h
    obtain ⟨rfl, rfl⟩ := Prod.mk.inj (Option.some.inj he)
    exact hr.advanceLocked c.order now
  | _ =>
    cases h
    exact hr.reports_self

theorem mem_demotedKeys {l : List Hotness.Transition} :
    k ∈ demotedKeys l ↔ ∃ τ ∈ l, τ.IsDemotion ∧ τ.key = k := by
  simp only [demotedKeys, List.mem_map, List.mem_filter, decide_eq_true_eq, and_assoc]

namespace World

variable {s s' : World} {t : Nat} {c : Choice}

theorem exec_eq_some {a : Action} {b : a.Resp} : exec t a c s = some (b, s') ↔
    ∃ s₁, s.step t c a = some (b, s₁) ∧ s' = { s₁ with past := Past.record s₁ t a b } := by
  rw [exec, Option.map_eq_some_iff]
  constructor
  · rintro ⟨⟨b₁, s₁⟩, h, he⟩
    cases he
    exact ⟨s₁, h, rfl⟩
  · rintro ⟨s₁, h, rfl⟩
    exact ⟨(b, s₁), h, rfl⟩

theorem exec_tracker {op : TrackerOp} {b : op.Resp} (h : exec t (.tracker op) c s = some (b, s')) :
    ∃ tr, op.run s.tracker c s.clock = some (b, tr) ∧
      s' = { s with tracker := tr, past := Past.record s t (.tracker op) b } := by
  obtain ⟨s₁, hs, rfl⟩ := exec_eq_some.1 h
  obtain ⟨⟨b, tr⟩, hr, he⟩ := Option.map_eq_some_iff.1 hs
  cases he
  exact ⟨tr, hr, rfl⟩

theorem exec_cache {tier : Tier} {op : CacheOp} {b : op.Resp}
    (h : exec t (.cache tier op) c s = some (b, s')) :
    b = (op.run (s.tiers tier) s.clock).1 ∧
      s' = { s with
        tiers := Function.update s.tiers tier (op.run (s.tiers tier) s.clock).2
        past := Past.record s t (.cache tier op) b } := by
  obtain ⟨s₁, hs, rfl⟩ := exec_eq_some.1 h
  cases hs
  exact ⟨rfl, rfl⟩

theorem exec_stripe {σ : Stripe} {op : StripeOp} {b : op.Resp}
    (h : exec t (.stripe σ op) c s = some (b, s')) :
    ∃ st, op.run (s.stripes σ) t = some (b, st) ∧
      s' = { s with
        stripes := Function.update s.stripes σ st
        past := Past.record s t (.stripe σ op) b } := by
  obtain ⟨s₁, hs, rfl⟩ := exec_eq_some.1 h
  obtain ⟨⟨b, st⟩, hr, he⟩ := Option.map_eq_some_iff.1 hs
  cases he
  exact ⟨st, hr, rfl⟩

theorem exec_gate {σ : Stripe} {op : GateOp} {b : op.Resp}
    (h : exec t (.gate σ op) c s = some (b, s')) :
    ∃ g, op.run (s.gates σ) t c (s.contexts t) = some (b, g) ∧
      s' = { s with
        gates := Function.update s.gates σ g
        past := Past.record s t (.gate σ op) b } := by
  obtain ⟨s₁, hs, rfl⟩ := exec_eq_some.1 h
  obtain ⟨⟨b, g⟩, hr, he⟩ := Option.map_eq_some_iff.1 hs
  cases he
  exact ⟨g, hr, rfl⟩

theorem exec_note {n : Note} {b : Unit} (h : exec t (.note n) c s = some (b, s')) :
    s' = { s with past := Past.record s t (.note n) b } := by
  obtain ⟨s₁, hs, rfl⟩ := exec_eq_some.1 h
  cases hs
  rfl

theorem exec_record {m : Metric} {b : Unit} (h : exec t (.record m) c s = some (b, s')) :
    s' = { s with recorder := s.recorder.record m, past := Past.record s t (.record m) b } := by
  obtain ⟨s₁, hs, rfl⟩ := exec_eq_some.1 h
  cases hs
  rfl

theorem exec_counters {b : Recorder} (h : exec t .counters c s = some (b, s')) :
    b = s.recorder ∧ s' = { s with past := Past.record s t .counters b } := by
  obtain ⟨s₁, hs, rfl⟩ := exec_eq_some.1 h
  cases hs
  exact ⟨rfl, rfl⟩

theorem exec_now {b : Time} (h : exec t .now c s = some (b, s')) :
    b = s.clock ∧ s' = { s with past := Past.record s t .now b } := by
  obtain ⟨s₁, hs, rfl⟩ := exec_eq_some.1 h
  cases hs
  exact ⟨rfl, rfl⟩

theorem exec_ctxErr {b : Option Error} (h : exec t .ctxErr c s = some (b, s')) :
    b = s.contexts t ∧ s' = { s with past := Past.record s t .ctxErr b } := by
  obtain ⟨s₁, hs, rfl⟩ := exec_eq_some.1 h
  cases hs
  exact ⟨rfl, rfl⟩

theorem exec_closeSwap {b : Bool} (h : exec t .closeSwap c s = some (b, s')) :
    s' = { s with closed := true, past := Past.record s t .closeSwap b } := by
  obtain ⟨s₁, hs, rfl⟩ := exec_eq_some.1 h
  cases hs
  rfl

theorem exec_group {op : GroupOp} {b : op.Resp} (h : exec t (.group op) c s = some (b, s')) :
    ∃ s₁, s.stepGroup t c op = some (b, s₁) ∧
      s' = { s₁ with past := Past.record s₁ t (.group op) b } :=
  exec_eq_some.1 h

theorem exec_upstream {op : UpstreamOp} {b : op.Resp}
    (h : exec t (.upstream op) c s = some (b, s')) :
    ∃ s₁, s.stepUpstream c op = some (b, s₁) ∧
      s' = { s₁ with past := Past.record s₁ t (.upstream op) b } :=
  exec_eq_some.1 h

theorem stepGroup_doChan {j : Joined}
    (h : s.stepGroup t c (.doChan key epoch policy) = some (j, s')) :
    (s.group key = some j.flight ∧ j.leader = false ∧
      s' = { s with
        flights := s.flights.modify j.flight fun fl => { fl with dups := fl.dups + 1 } }) ∨
    (s.group key = none ∧ j = ⟨s.flights.length, true⟩ ∧
      s' = { s with
        group := Function.update s.group key (some s.flights.length)
        flights := s.flights ++ [⟨key, 0, none⟩] }) := by
  simp only [stepGroup] at h
  split at h <;> cases h
  · exact .inl ⟨‹_›, rfl, rfl⟩
  · exact .inr ⟨‹_›, rfl, rfl⟩

theorem stepGroup_wait {w : Waited} (h : s.stepGroup t c (.wait f deadline) = some (w, s')) :
    s' = s ∧ ((∃ e, w = .done e ∧ s.doneErr t deadline = some e) ∨
      ∃ key dups r, s.flights[f]? = some ⟨key, dups, some r⟩ ∧
        w = .result r (decide (dups > 0))) := by
  simp only [stepGroup] at h
  split at h
  · obtain ⟨e, hd, he⟩ := Option.map_eq_some_iff.1 h
    cases he
    exact ⟨rfl, .inl ⟨e, rfl, hd⟩⟩
  · split at h <;> cases h
    exact ⟨rfl, .inr ⟨_, _, _, ‹_›, rfl⟩⟩

theorem stepGroup_complete {b : Unit} (h : s.stepGroup t c (.complete f r) = some (b, s')) :
    ∃ fl, s.flights[f]? = some fl ∧
      s' = { s with
        flights := s.flights.set f { fl with result := some r }
        group := if s.group fl.key = some f then Function.update s.group fl.key none
          else s.group } := by
  simp only [stepGroup] at h
  split at h <;> cases h
  exact ⟨_, ‹_›, rfl⟩

theorem stepGroup_forget {b : Unit} (h : s.stepGroup t c (.forget key) = some (b, s')) :
    s' = { s with group := Function.update s.group key none } := by
  cases h
  rfl

theorem stepGroup_frame {op : GroupOp} {b : op.Resp} (h : s.stepGroup t c op = some (b, s')) :
    s' = { s with group := s'.group, flights := s'.flights } := by
  cases op with
  | doChan key epoch policy => rcases stepGroup_doChan h with ⟨-, -, rfl⟩ | ⟨-, -, rfl⟩ <;> rfl
  | wait f deadline =>
    cases (stepGroup_wait h).1
    rfl
  | complete f r =>
    obtain ⟨fl, -, rfl⟩ := stepGroup_complete h
    rfl
  | forget key =>
    cases stepGroup_forget h
    rfl

theorem stepUpstream_issue {i : Issue} (h : s.stepUpstream c (.issue keys) = some (i, s')) :
    i = ⟨s.reqs, s.origin.version⟩ ∧ s' = { s with reqs := s.reqs + 1 } := by
  cases h
  exact ⟨rfl, rfl⟩

theorem stepUpstream_answer {r : Except Error (List Value)}
    (h : s.stepUpstream c (.answer i keys) = some (r, s')) :
    s' = s ∧ ((∃ e, r = .error e) ∨ ∃ l : List (Nat × Time), l.length = keys.length ∧
      (∀ x ∈ l, i.version ≤ x.1 ∧ x.1 ≤ s.origin.version) ∧
      r = .ok (List.zipWith (fun k x => s.origin.read i.ticket x.1 x.2 k) keys l)) := by
  simp only [stepUpstream] at h
  split at h
  · cases h
    exact ⟨rfl, .inl ⟨_, rfl⟩⟩
  · split at h <;> cases h
    rename_i l hl
    exact ⟨rfl, .inr ⟨l, hl.1, hl.2, rfl⟩⟩
  · cases h

theorem stepUpstream_dispatch {b : Except Error RedisReply × Source}
    (h : s.stepUpstream c (.dispatch command args keys) = some (b, s')) :
    ∃ updates : Option (List (Key × Option Bytes)), (∀ u ∈ updates.getD [], u.1 ∈ keys) ∧
      (∀ kv ∈ acknowledgedSet command args keys b.1, updates = some [(kv.1, some kv.2)]) ∧
      s' = { s with origin := (updates.map s.origin.apply).getD s.origin } ∧
      b.2 = .write s'.reqs s'.origin.version := by
  simp only [stepUpstream] at h
  split at h
  · split at h <;> cases h
    rename_i updates result hc
    exact ⟨updates, hc.1, hc.2, rfl, rfl⟩
  · cases h

theorem stepUpstream_frame {op : UpstreamOp} {b : op.Resp}
    (h : s.stepUpstream c op = some (b, s')) :
    s' = { s with origin := s'.origin, reqs := s'.reqs } ∧
      s.origin.version ≤ s'.origin.version ∧ s.reqs ≤ s'.reqs := by
  cases op with
  | issue keys =>
    obtain ⟨-, rfl⟩ := stepUpstream_issue h
    exact ⟨rfl, le_rfl, Nat.le_succ _⟩
  | answer i keys =>
    obtain ⟨rfl, -⟩ := stepUpstream_answer h
    exact ⟨rfl, le_rfl, le_rfl⟩
  | dispatch command args keys =>
    obtain ⟨updates, -, -, rfl, -⟩ := stepUpstream_dispatch h
    cases updates with
    | none => exact ⟨rfl, le_rfl, le_rfl⟩
    | some u => exact ⟨rfl, Nat.le_succ _, le_rfl⟩
  | passThrough command args =>
    simp only [stepUpstream] at h
    split at h <;> cases h
    exact ⟨rfl, le_rfl, le_rfl⟩
  | ping =>
    simp only [stepUpstream] at h
    split at h <;> cases h <;> exact ⟨rfl, le_rfl, le_rfl⟩
  | close =>
    cases h
    exact ⟨rfl, le_rfl, le_rfl⟩

/-- What an action leaves alone, and what only grows. -/
structure Frame (a : Action) (s s' : World) : Prop where
  past : s'.past = s.past
  contexts : s'.contexts = s.contexts
  clock : s'.clock = s.clock
  version : s.origin.version ≤ s'.origin.version
  reqs : s.reqs ≤ s'.reqs
  tiers : (∀ tier op, a ≠ .cache tier op) → s'.tiers = s.tiers
  stripes : (∀ σ op, a ≠ .stripe σ op) → s'.stripes = s.stripes
  gates : (∀ σ op, a ≠ .gate σ op) → s'.gates = s.gates
  group : (∀ op, a ≠ .group op) → s'.group = s.group ∧ s'.flights = s.flights
  origin : (∀ op, a ≠ .upstream op) → s'.origin = s.origin
  tracker : (∀ op, a ≠ .tracker op) → s'.tracker = s.tracker
  recorder : (∀ m, a ≠ .record m) → s'.recorder = s.recorder

theorem step_frame {a : Action} {b : a.Resp} (h : s.step t c a = some (b, s')) : Frame a s s' := by
  cases a with
  | tracker op =>
    obtain ⟨r, -, he⟩ := Option.map_eq_some_iff.1 h
    cases he
    exact ⟨rfl, rfl, rfl, le_rfl, le_rfl, fun _ => rfl, fun _ => rfl, fun _ => rfl,
      fun _ => ⟨rfl, rfl⟩, fun _ => rfl, fun hn => absurd rfl (hn op), fun _ => rfl⟩
  | cache tier op =>
    cases h
    exact ⟨rfl, rfl, rfl, le_rfl, le_rfl, fun hn => absurd rfl (hn tier op), fun _ => rfl,
      fun _ => rfl, fun _ => ⟨rfl, rfl⟩, fun _ => rfl, fun _ => rfl, fun _ => rfl⟩
  | stripe σ op =>
    obtain ⟨r, -, he⟩ := Option.map_eq_some_iff.1 h
    cases he
    exact ⟨rfl, rfl, rfl, le_rfl, le_rfl, fun _ => rfl, fun hn => absurd rfl (hn σ op),
      fun _ => rfl, fun _ => ⟨rfl, rfl⟩, fun _ => rfl, fun _ => rfl, fun _ => rfl⟩
  | gate σ op =>
    obtain ⟨r, -, he⟩ := Option.map_eq_some_iff.1 h
    cases he
    exact ⟨rfl, rfl, rfl, le_rfl, le_rfl, fun _ => rfl, fun _ => rfl,
      fun hn => absurd rfl (hn σ op), fun _ => ⟨rfl, rfl⟩, fun _ => rfl, fun _ => rfl, fun _ => rfl⟩
  | group op =>
    rw [stepGroup_frame h]
    exact ⟨rfl, rfl, rfl, le_rfl, le_rfl, fun _ => rfl, fun _ => rfl, fun _ => rfl,
      fun hn => absurd rfl (hn op), fun _ => rfl, fun _ => rfl, fun _ => rfl⟩
  | upstream op =>
    obtain ⟨he, hv, hq⟩ := stepUpstream_frame h
    rw [he]
    exact ⟨rfl, rfl, rfl, hv, hq, fun _ => rfl, fun _ => rfl, fun _ => rfl, fun _ => ⟨rfl, rfl⟩,
      fun hn => absurd rfl (hn op), fun _ => rfl, fun _ => rfl⟩
  | record m =>
    cases h
    exact ⟨rfl, rfl, rfl, le_rfl, le_rfl, fun _ => rfl, fun _ => rfl, fun _ => rfl,
      fun _ => ⟨rfl, rfl⟩, fun _ => rfl, fun _ => rfl, fun hn => absurd rfl (hn m)⟩
  | _ =>
    cases h
    exact ⟨rfl, rfl, rfl, le_rfl, le_rfl, fun _ => rfl, fun _ => rfl, fun _ => rfl,
      fun _ => ⟨rfl, rfl⟩, fun _ => rfl, fun _ => rfl, fun _ => rfl⟩

end World

namespace Past

variable {s : World} {a : Action} (b : a.Resp)

@[simp] theorem record_time : (record s t a b).time = s.past.time + 1 := rfl

@[simp] theorem record_trace_self : (record s t a b).trace t = (s.trace t).record s a b :=
  Function.update_self ..

theorem record_trace_of_ne (h : u ≠ t) : (record s t a b).trace u = s.trace u :=
  Function.update_of_ne h ..

theorem record_epochAdd (b : Unit) : (record s t (.stripe σ .epochAdd) b).bump =
    Function.update s.past.bump σ s.moment := rfl

theorem record_bump (h : ∀ σ, a ≠ .stripe σ .epochAdd) : (record s t a b).bump = s.past.bump := by
  cases a with
  | stripe σ op =>
    cases op with
    | epochAdd => exact absurd rfl (h σ)
    | _ => rfl
  | _ => rfl

end Past

namespace World

theorem exec_trace {a : Action} {b : a.Resp} {s s' : World} (h : exec t a c s = some (b, s')) :
    s'.trace t = (s.trace t).record { s' with past := s.past } a b := by
  obtain ⟨s₁, hs, rfl⟩ := exec_eq_some.1 h
  have hp := (step_frame hs).past
  rw [World.trace, Past.record_trace_self, World.trace, World.trace]
  cases s₁
  cases hp
  rfl

theorem exec_trace_of_ne {a : Action} {b : a.Resp} {s s' : World} (h : exec t a c s = some (b, s'))
    (hu : u ≠ t) : s'.trace u = s.trace u := by
  obtain ⟨s₁, hs, rfl⟩ := exec_eq_some.1 h
  exact (Past.record_trace_of_ne b hu).trans (by rw [World.trace, (step_frame hs).past])

theorem exec_find_of_ne {op : CacheOp} {b : op.Resp} {s s' : World}
    (h : exec t (.cache tier op) c s = some (b, s')) (ht : tier' ≠ tier) (k : Key) :
    s'.find tier' k = s.find tier' k := by
  obtain ⟨-, rfl⟩ := exec_cache h
  simp only [find, Function.update_of_ne ht]

theorem exec_lodged {a : Action} {b : a.Resp} {s s' : World} (h : exec t a c s = some (b, s'))
    (hput : ∀ v ttl, a ≠ .cache tier (.put k v ttl))
    (huntil : ∀ v exp, a ≠ .cache tier (.putUntil k v exp)) :
    s'.past.lodged tier k = s.past.lodged tier k := by
  obtain ⟨s₁, hs, rfl⟩ := exec_eq_some.1 h
  rw [← (step_frame hs).past]
  cases a with
  | cache tier' op =>
    cases op with
    | put key v ttl =>
      have hne : ¬ (tier = tier' ∧ k = key) := fun ⟨ht, hk⟩ => hput v ttl (by rw [ht, hk])
      simp only [Past.record, Past.recordLodged]
      split
      · exact if_neg hne
      · rfl
    | putUntil key v exp =>
      have hne : ¬ (tier = tier' ∧ k = key) := fun ⟨ht, hk⟩ => huntil v exp (by rw [ht, hk])
      simp only [Past.record, Past.recordLodged]
      cases (s₁.past.trace t).carried with
      | none => rfl
      | some x =>
        dsimp only
        split
        · exact if_neg hne
        · rfl
    | _ => rfl
  | _ => rfl

theorem exec_bump {a : Action} {b : a.Resp} {s s' : World} (h : exec t a c s = some (b, s'))
    (ha : ∀ σ, a ≠ .stripe σ .epochAdd) : s'.past.bump = s.past.bump := by
  obtain ⟨s₁, hs, rfl⟩ := exec_eq_some.1 h
  exact (Past.record_bump b ha).trans (by rw [(step_frame hs).past])

end World

/-- What a goroutine owes changes where the tracker answers it and where it applies or counts
something. -/
theorem Trace.record_debt (tr : Trace) (s : World) {a : Action} (b : a.Resp)
    (htracker : ∀ op, a ≠ .tracker op) (hrecord : ∀ m, a ≠ .record m)
    (hstart : ∀ job, a ≠ .note (.start job)) (happlied : ∀ key, a ≠ .note (.applied key)) :
    (tr.record s a b).debt = tr.debt := by
  cases a with
  | tracker op => exact absurd rfl (htracker op)
  | record m => exact absurd rfl (hrecord m)
  | cache tier op =>
    cases op with
    | get key =>
      cases b with
      | none => rfl
      | some item =>
        simp only [record, recordCache]
        split <;> rfl
    | getStale key grace => cases b <;> rfl
    | _ => rfl
  | stripe σ op => cases op <;> rfl
  | group op =>
    cases op with
    | wait f deadline =>
      cases b with
      | done e => rfl
      | result r shared =>
        cases r with
        | error e => rfl
        | ok value =>
          simp only [record, recordGroup]
          split <;> rfl
    | _ => rfl
  | upstream op => cases op <;> rfl
  | note n =>
    cases n with
    | start job => exact absurd rfl (hstart job)
    | applied key => exact absurd rfl (happlied key)
    | _ => rfl
  | _ => rfl

end Slizen
