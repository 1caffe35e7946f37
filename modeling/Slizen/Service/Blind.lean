import Slizen.CacheBlind
import Slizen.Interleaving.Twin
import Slizen.Service.Runs

namespace Slizen
set_option autoImplicit true

open Interleaving

inductive ExceptRel (r : α → β → Prop) : Except Error α → Except Error β → Prop
  | ok (h : r x y) : ExceptRel r (.ok x) (.ok y)
  | error (e : Error) : ExceptRel r (.error e) (.error e)

def Value.Alike (v v' : Value) : Prop := ∃ data, v.data.Alike data ∧ v' = { v with data := data }

def Answer.Alike (a a' : Answer) : Prop :=
  ∃ value, a.value.Alike value ∧ a' = { a with value := value }

theorem EntrySnapshot.Alike.toValue {item item' : EntrySnapshot} (h : item.Alike item') :
    item.toValue.Alike item'.toValue := by
  obtain ⟨v, hv, rfl⟩ := h
  exact ⟨v, hv, rfl⟩

/-- Argument lists that may differ in the bytes of every argument but the first, which is a key or
at least no value. -/
structure ArgsAlike (args args' : List Bytes) : Prop where
  head : args.head? = args'.head?
  lengths : List.Forall₂ SameLength args args'

/-- Two calls that only differ in the bytes of values that they carry. -/
inductive Job.Alike : Job → Job → Prop
  | same (job : Job) : Alike job job
  | executeWrite (command : Bytes) (keys : List Bytes) (h : ArgsAlike args args') :
      Alike (.executeWrite command args keys) (.executeWrite command args' keys)
  | passThrough (command : Bytes) (h : ArgsAlike args args') :
      Alike (.passThrough command args) (.passThrough command args')

inductive Reply.Alike : Reply → Reply → Prop
  | same (reply : Reply) : Alike reply reply
  | get (h : ExceptRel Answer.Alike r r') : Alike (.get r) (.get r')
  | mget (h : ExceptRel (List.Forall₂ Answer.Alike) r r') : Alike (.mget r) (.mget r')

/-- The results of `Status`, `HotKeys`, `Audit` and `CacheInfo`. -/
def Reply.Admin : Reply → Prop
  | .status _ => True
  | .hotKeys _ => True
  | .audit _ => True
  | .cacheInfo _ => True
  | _ => False

structure Flight.Alike (fl fl' : Flight) : Prop where
  key : fl.key = fl'.key
  dups : fl.dups = fl'.dups
  result : Option.Rel (ExceptRel Value.Alike) fl.result fl'.result

inductive Waited.Alike : Waited → Waited → Prop
  | done (e : Error) : Alike (.done e) (.done e)
  | result (shared : Bool) (h : ExceptRel Value.Alike r r') :
      Alike (.result r shared) (.result r' shared)

/-- Changes of the origin to the same keys, by values of the same lengths. -/
abbrev UpdatesAlike (l l' : List (Key × Option Bytes)) : Prop :=
  List.Forall₂ (fun u u' => u.1 = u'.1 ∧ Option.Rel SameLength u.2 u'.2) l l'

/-- The same choice, but for the bytes of what a write does at the origin. -/
inductive Choice.Alike : Choice → Choice → Prop
  | same (c : Choice) : Alike c c
  | effect (result : Except Error RedisReply) (h : Option.Rel UpdatesAlike updates updates') :
      Alike (.effect updates result) (.effect updates' result)

/-- A server that acknowledges a plain SET has set the key to the value. -/
def Choice.Honest : Action → Choice → Prop
  | .upstream (.dispatch command args keys), .effect updates result =>
    ∀ kv ∈ acknowledgedSet command args keys result, updates = some [(kv.1, some kv.2)]
  | _, _ => True

structure Origin.Alike (o o' : Origin) : Prop where
  version : o.version = o'.version
  content : ∀ v k, Option.Rel SameLength (o.content v k) (o'.content v k)

/-- Two states of the service and its surroundings that only differ in the bytes of values, and in
what the history says beyond the replies. -/
structure World.Alike (s s' : World) : Prop where
  tiers : ∀ tier, (s.tiers tier).Alike (s'.tiers tier)
  tracker : s.tracker = s'.tracker
  recorder : s.recorder = s'.recorder
  closed : s.closed = s'.closed
  stripes : s.stripes = s'.stripes
  gates : s.gates = s'.gates
  group : s.group = s'.group
  flights : List.Forall₂ Flight.Alike s.flights s'.flights
  clock : s.clock = s'.clock
  contexts : s.contexts = s'.contexts
  origin : s.origin.Alike s'.origin
  reqs : s.reqs = s'.reqs
  time : s.past.time = s'.past.time
  done : ∀ t, Option.Rel (fun x x' => x.1 = x'.1 ∧ x.2.Alike x'.2) (s.trace t).done
    (s'.trace t).done

/-- Two actions that only differ in the bytes of values, and what their answers then have in
common. -/
inductive Action.Alike : (a a' : Action) → (a.Resp → a'.Resp → Prop) → Prop
  | tracker (op : TrackerOp) : Alike (.tracker op) (.tracker op) Eq
  | cache (tier : Tier) {op op' : CacheOp} {ρ : op.Resp → op'.Resp → Prop}
      (h : CacheOp.Alike op op' ρ) : Alike (.cache tier op) (.cache tier op') ρ
  | stripe (σ : Stripe) (op : StripeOp) : Alike (.stripe σ op) (.stripe σ op) Eq
  | gate (σ : Stripe) (op : GateOp) : Alike (.gate σ op) (.gate σ op) Eq
  | doChan (key : Key) (epoch : Nat) (policy : Decision) :
      Alike (.group (.doChan key epoch policy)) (.group (.doChan key epoch policy)) Eq
  | wait (f : Nat) (deadline : Time) :
      Alike (.group (.wait f deadline)) (.group (.wait f deadline)) Waited.Alike
  | complete (f : Nat) {r r' : Except Error Value} (h : ExceptRel Value.Alike r r') :
      Alike (.group (.complete f r)) (.group (.complete f r')) Eq
  | forget (key : Key) : Alike (.group (.forget key)) (.group (.forget key)) Eq
  | issue (keys : List Key) : Alike (.upstream (.issue keys)) (.upstream (.issue keys)) Eq
  | answer (i : Issue) (keys : List Key) :
      Alike (.upstream (.answer i keys)) (.upstream (.answer i keys))
        (ExceptRel (List.Forall₂ Value.Alike))
  | dispatch (command : Bytes) (keys : List Bytes) {args args' : List Bytes}
      (h : ArgsAlike args args') :
      Alike (.upstream (.dispatch command args keys)) (.upstream (.dispatch command args' keys)) Eq
  | passThrough (command : Bytes) {args args' : List Bytes} (h : ArgsAlike args args') :
      Alike (.upstream (.passThrough command args)) (.upstream (.passThrough command args')) Eq
  | ping : Alike (.upstream .ping) (.upstream .ping) Eq
  | close : Alike (.upstream .close) (.upstream .close) Eq
  | record (m : Metric) : Alike (.record m) (.record m) Eq
  | counters : Alike .counters .counters Eq
  | now : Alike .now .now Eq
  | ctxErr : Alike .ctxErr .ctxErr Eq
  | closeSwap : Alike .closeSwap .closeSwap Eq
  | start {job job' : Job} (h : job.Alike job') :
      Alike (.note (.start job)) (.note (.start job')) Eq
  | finish {reply reply' : Reply} (h : reply.Alike reply') :
      Alike (.note (.finish reply)) (.note (.finish reply')) Eq
  | note (n : Note) : Alike (.note n) (.note n) Eq

inductive Env.Alike : Env → Env → Prop
  | same (e : Env) : Alike e e
  | originWrite (key : Key) (h : Option.Rel SameLength value value') :
      Alike (.originWrite key value) (.originWrite key value')

theorem optionRel_refl {r : α → α → Prop} (h : ∀ x, r x x) (x : Option α) : Option.Rel r x x := by
  cases x with
  | none => exact .none
  | some x => exact .some (h x)

theorem sameLength_refl (x : Option Bytes) : Option.Rel SameLength x x :=
  optionRel_refl (r := SameLength) (fun _ => rfl) x

theorem updatesAlike_refl (l : List (Key × Option Bytes)) : UpdatesAlike l l :=
  List.forall₂_same.2 fun u _ => ⟨rfl, sameLength_refl u.2⟩

theorem UpdatesAlike.lookup (h : UpdatesAlike l l') (k : Key) :
    Option.Rel (Option.Rel SameLength) (l.lookup k) (l'.lookup k) := by
  induction h with
  | nil => exact .none
  | @cons u u' _ _ hu _ ih =>
    obtain ⟨k₁, x⟩ := u
    obtain ⟨k₂, x'⟩ := u'
    obtain ⟨rfl, hx⟩ := hu
    simp only [List.lookup_cons]
    split
    · exact .some hx
    · exact ih

theorem UpdatesAlike.keys (h : UpdatesAlike l l') (keys : List Key) :
    (∀ u ∈ l, u.1 ∈ keys) ↔ ∀ u ∈ l', u.1 ∈ keys := by
  induction h with
  | nil => simp
  | cons hu _ ih => simp only [List.forall_mem_cons, hu.1, ih]

theorem Origin.Alike.apply {o o' : Origin} (h : o.Alike o') (hu : UpdatesAlike l l') :
    (o.apply l).Alike (o'.apply l') := by
  refine ⟨congrArg (· + 1) h.version, fun v k => ?_⟩
  simp only [Origin.apply, h.version]
  split
  · exact h.content v k
  · have hlookup := hu.lookup k
    generalize l.lookup k = x, l'.lookup k = x' at hlookup ⊢
    cases hlookup with
    | none => exact h.content _ k
    | some hx => exact hx

theorem Origin.Alike.read {o o' : Origin} (h : o.Alike o') (ticket v : Nat) (pttl : Time)
    (k : Key) :
    (o.read ticket v pttl k).Alike (o'.read ticket v pttl k) := by
  have hc := h.content v k
  rw [Origin.read, Origin.read]
  generalize o.content v k = x, o'.content v k = x' at hc ⊢
  cases hc with
  | none => exact ⟨_, rfl, rfl⟩
  | some hb => exact ⟨⟨_, _⟩, hb, rfl⟩

theorem acknowledgedSet_alike (h : ArgsAlike args args') (command : Bytes) (keys : List Bytes)
    (r : Except Error RedisReply) :
    Option.Rel (fun kv kv' => kv.1 = kv'.1 ∧ SameLength kv.2 kv'.2)
      (acknowledgedSet command args keys r) (acknowledgedSet command args' keys r) := by
  obtain ⟨hhead, hlengths⟩ := h
  rcases r with e | reply
  · exact .none
  · cases reply with
    | text status =>
      cases hlengths with
      | nil => exact .none
      | cons _ hrest =>
        cases hhead
        cases hrest with
        | nil => exact .none
        | cons hv hrest =>
          cases hrest with
          | cons _ _ => exact .none
          | nil =>
            rcases keys with _ | ⟨key, _ | _⟩
            · exact .none
            · simp only [acknowledgedSet]
              split
              · exact .some ⟨rfl, hv⟩
              · exact .none
            · exact .none
    | _ => exact .none

namespace Choice

theorem Alike.tracker_run {c c' : Choice} (h : c.Alike c') (tr : Hotness.Tracker) (now : Time)
    (op : TrackerOp) : op.run tr c now = op.run tr c' now := by
  cases h with
  | same c => rfl
  | effect result hu => cases op <;> rfl

theorem Alike.gate_run {c c' : Choice} (h : c.Alike c') (gate : Option Nat) (t : Nat)
    (done : Option Error) (op : GateOp) : op.run gate t c done = op.run gate t c' done := by
  cases h with
  | same c => rfl
  | effect result hu => cases op <;> rfl

theorem Alike.of_effect {c : Choice} (h : Alike (.effect updates result) c) :
    ∃ updates', c = .effect updates' result ∧ Option.Rel UpdatesAlike updates updates' := by
  cases h with
  | same c => exact ⟨updates, rfl, optionRel_refl updatesAlike_refl updates⟩
  | effect result hu => exact ⟨_, rfl, hu⟩

end Choice

namespace World

variable {s s' : World}

abbrev Paired (a a' : Action) (ρ : a.Resp → a'.Resp → Prop) :
    Option (a.Resp × World) → Option (a'.Resp × World) → Prop :=
  Option.Rel fun x x' => ρ x.1 x'.1 ∧ x.2.Alike x'.2

theorem Alike.doneErr (h : s.Alike s') (t : Nat) (deadline : Time) :
    s.doneErr t deadline = s'.doneErr t deadline := by
  rw [World.doneErr, World.doneErr, h.contexts, h.clock]

theorem Alike.moment (h : s.Alike s') : s.moment = s'.moment := by
  rw [World.moment, World.moment, h.time, h.origin.version, h.reqs]

theorem Alike.doChan (h : s.Alike s') (t : Nat) (c c' : Choice) (key : Key) (epoch : Nat)
    (policy : Decision) :
    Paired (.group (.doChan key epoch policy)) (.group (.doChan key epoch policy)) Eq
      (s.stepGroup t c (.doChan key epoch policy))
      (s'.stepGroup t c' (.doChan key epoch policy)) := by
  have hgroup : s'.group key = s.group key := congrFun h.group.symm key
  simp only [stepGroup, hgroup]
  cases s.group key with
  | some f =>
    refine .some ⟨rfl, { h with flights := ?_ }⟩
    apply forall₂_modify h.flights
    intro fl fl' hfl
    exact ⟨hfl.key, congrArg (· + 1) hfl.dups, hfl.result⟩
  | none =>
    have hlength := h.flights.length_eq
    refine .some ⟨by rw [hlength], { h with group := by rw [h.group, hlength], flights := ?_ }⟩
    exact List.rel_append h.flights (.cons ⟨rfl, rfl, .none⟩ .nil)

theorem Alike.wait (h : s.Alike s') (t : Nat) {c c' : Choice} (hc : c.Alike c') (f : Nat)
    (deadline : Time) :
    Paired (.group (.wait f deadline)) (.group (.wait f deadline)) Waited.Alike
      (s.stepGroup t c (.wait f deadline)) (s'.stepGroup t c' (.wait f deadline)) := by
  have hresult : Paired (.group (.wait f deadline)) (.group (.wait f deadline)) Waited.Alike
      (s.stepGroup t .any (.wait f deadline)) (s'.stepGroup t .any (.wait f deadline)) := by
    have hfl := forall₂_getElem? h.flights f
    simp only [stepGroup]
    generalize s.flights[f]? = x, s'.flights[f]? = x' at hfl ⊢
    cases hfl with
    | none => exact .none
    | @some fl fl' hfl =>
      obtain ⟨key, dups, r⟩ := fl
      obtain ⟨key', dups', r'⟩ := fl'
      obtain ⟨rfl, rfl, hr⟩ := hfl
      cases hr with
      | none => exact .none
      | some hr => exact .some ⟨.result _ hr, h⟩
  cases hc with
  | effect result hu => exact hresult
  | same c =>
    cases c with
    | done =>
      simp only [stepGroup, h.doneErr]
      exact rel_map (fun e => ⟨.done e, h⟩) _
    | _ => exact hresult

theorem Alike.complete (h : s.Alike s') (t : Nat) (c c' : Choice) (f : Nat)
    (hr : ExceptRel Value.Alike r r') :
    Paired (.group (.complete f r)) (.group (.complete f r')) Eq
      (s.stepGroup t c (.complete f r)) (s'.stepGroup t c' (.complete f r')) := by
  have hfl := forall₂_getElem? h.flights f
  simp only [stepGroup]
  generalize s.flights[f]? = x, s'.flights[f]? = x' at hfl ⊢
  cases hfl with
  | none => exact .none
  | @some fl fl' hfl =>
    have hset : ({ fl with result := some r } : Flight).Alike { fl' with result := some r' } :=
      ⟨hfl.key, hfl.dups, .some hr⟩
    refine .some ⟨rfl, { h with flights := forall₂_set h.flights hset f, group := ?_ }⟩
    rw [h.group, hfl.key]

theorem Alike.answer (h : s.Alike s') {c c' : Choice} (hc : c.Alike c') (i : Issue)
    (keys : List Key) :
    Paired (.upstream (.answer i keys)) (.upstream (.answer i keys))
      (ExceptRel (List.Forall₂ Value.Alike))
      (s.stepUpstream c (.answer i keys)) (s'.stepUpstream c' (.answer i keys)) := by
  cases hc with
  | effect result hu => exact .none
  | same c =>
    cases c with
    | fail e => exact .some ⟨.error e, h⟩
    | values l =>
      simp only [stepUpstream, ← h.origin.version]
      split
      · refine .some ⟨.ok ?_, h⟩
        clear * - h
        induction keys generalizing l with
        | nil => exact .nil
        | cons k keys ih =>
          cases l with
          | nil => exact .nil
          | cons x l => exact .cons (h.origin.read i.ticket x.1 x.2 k) (ih l)
      · exact .none
    | _ => exact .none

theorem Alike.dispatch (h : s.Alike s') {c c' : Choice} (hc : c.Alike c') (command : Bytes)
    (args args' keys : List Bytes)
    (hh : c.Honest (.upstream (.dispatch command args keys)))
    (hh' : c'.Honest (.upstream (.dispatch command args' keys))) :
    Paired (.upstream (.dispatch command args keys)) (.upstream (.dispatch command args' keys)) Eq
      (s.stepUpstream c (.dispatch command args keys))
      (s'.stepUpstream c' (.dispatch command args' keys)) := by
  cases c with
  | effect updates result =>
    obtain ⟨updates', rfl, hu⟩ := hc.of_effect
    have hkeys : (∀ u ∈ updates.getD [], u.1 ∈ keys) ↔ ∀ u ∈ updates'.getD [], u.1 ∈ keys := by
      cases hu with
      | none => rfl
      | some hu => exact hu.keys keys
    have horigin : ((updates.map s.origin.apply).getD s.origin).Alike
        ((updates'.map s'.origin.apply).getD s'.origin) := by
      cases hu with
      | none => exact h.origin
      | some hu => exact h.origin.apply hu
    have hh : ∀ kv ∈ acknowledgedSet command args keys result,
      updates = some [(kv.1, some kv.2)] := hh
    have hh' : ∀ kv ∈ acknowledgedSet command args' keys result,
        updates' = some [(kv.1, some kv.2)] := hh'
    by_cases hk : ∀ u ∈ updates.getD [], u.1 ∈ keys
    · simp only [stepUpstream]
      rw [if_pos ⟨hk, hh⟩, if_pos ⟨hkeys.1 hk, hh'⟩]
      refine .some ⟨?_, { h with origin := horigin }⟩
      rw [h.reqs, horigin.version]
    · simp only [stepUpstream]
      rw [if_neg fun hg => hk hg.1, if_neg fun hg => hk (hkeys.2 hg.1)]
      exact .none
  | _ =>
    cases hc
    exact .none

theorem Alike.step {a a' : Action} {ρ : a.Resp → a'.Resp → Prop} (h : s.Alike s') (t : Nat)
    (ha : Action.Alike a a' ρ) {c c' : Choice} (hc : c.Alike c') (hh : c.Honest a)
    (hh' : c'.Honest a') : Paired a a' ρ (s.step t c a) (s'.step t c' a') := by
  cases ha with
  | tracker op =>
    have hrun : op.run s.tracker c s.clock = op.run s'.tracker c' s'.clock := by
      rw [h.tracker, h.clock, hc.tracker_run]
    simp only [World.step, hrun]
    exact rel_map (fun r => ⟨rfl, { h with tracker := rfl }⟩) _
  | @cache tier op op' _ ho =>
    have hrun := ho.run (h.tiers tier) h.clock
    refine .some ⟨hrun.1, { h with tiers := ?_ }⟩
    intro tier'
    by_cases ht : tier' = tier
    · subst ht
      simpa only [Function.update_self] using hrun.2
    · simpa only [Function.update_of_ne ht] using h.tiers tier'
  | stripe σ op =>
    simp only [World.step, h.stripes]
    exact rel_map (fun r => ⟨rfl, { h with stripes := rfl }⟩) _
  | gate σ op =>
    have hrun : op.run (s.gates σ) t c (s.contexts t) =
        op.run (s'.gates σ) t c' (s'.contexts t) := by
      rw [h.gates, h.contexts, hc.gate_run]
    simp only [World.step, hrun]
    exact rel_map (fun r => ⟨rfl, { h with gates := by rw [h.gates] }⟩) _
  | doChan key epoch policy => exact h.doChan t c c' key epoch policy
  | wait f deadline => exact h.wait t hc f deadline
  | complete f hr => exact h.complete t c c' f hr
  | forget key => exact .some ⟨rfl, { h with group := by rw [h.group] }⟩
  | issue keys =>
    refine .some ⟨?_, { h with reqs := congrArg (· + 1) h.reqs }⟩
    rw [h.reqs, h.origin.version]
  | answer i keys => exact h.answer hc i keys
  | dispatch command keys _ => exact h.dispatch hc command _ _ keys hh hh'
  | passThrough command _ =>
    cases hc with
    | same c =>
      cases c with
      | effect updates result =>
        cases updates with
        | none => exact .some ⟨rfl, h⟩
        | some updates => exact .none
      | _ => exact .none
    | effect result hu =>
      cases hu with
      | none => exact .some ⟨rfl, h⟩
      | some _ => exact .none
  | ping =>
    cases hc with
    | same c => cases c <;> exact .some ⟨rfl, h⟩
    | effect result hu => exact .some ⟨rfl, h⟩
  | close => exact .some ⟨rfl, h⟩
  | record m => exact .some ⟨rfl, { h with recorder := by rw [h.recorder] }⟩
  | counters => exact .some ⟨h.recorder, h⟩
  | now => exact .some ⟨h.clock, h⟩
  | ctxErr => exact .some ⟨congrFun h.contexts t, h⟩
  | closeSwap => exact .some ⟨congrArg (!·) h.closed, { h with closed := rfl }⟩
  | start _ => exact .some ⟨rfl, h⟩
  | finish _ => exact .some ⟨rfl, h⟩
  | note n => exact .some ⟨rfl, h⟩

end World

theorem Trace.record_done (tr : Trace) (s : World) {a : Action} (b : a.Resp)
    (ha : ∀ n, a ≠ .note n) : (tr.record s a b).done = tr.done := by
  cases a with
  | note n => exact absurd rfl (ha n)
  | cache tier op =>
    cases op with
    | get key =>
      cases b with
      | none => rfl
      | some item =>
        simp only [Trace.record, Trace.recordCache]
        split <;> rfl
    | getStale key grace => cases b <;> rfl
    | _ => rfl
  | stripe σ op => cases op <;> rfl
  | group op =>
    cases op with
    | wait f deadline =>
      cases b with
      | done e => rfl
      | result r shared =>
        cases r with
        | error e => rfl
        | ok value =>
          simp only [Trace.record, Trace.recordGroup]
          split <;> rfl
    | _ => rfl
  | upstream op => cases op <;> rfl
  | _ => rfl

theorem World.Alike.recorded {s s' : World} {a a' : Action} {ρ : a.Resp → a'.Resp → Prop}
    {b : a.Resp} {b' : a'.Resp} (h : s.Alike s') (t : Nat) (ha : Action.Alike a a' ρ) :
    Option.Rel (fun x x' => x.1 = x'.1 ∧ x.2.Alike x'.2) ((s.trace t).record s a b).done
      ((s'.trace t).record s' a' b').done := by
  cases ha with
  | start _ => exact .none
  | finish hr => exact .some ⟨h.moment, hr⟩
  | note n =>
    cases n with
    | start job => exact .none
    | finish reply => exact .some ⟨h.moment, .same reply⟩
    | _ => exact h.done t
  | _ =>
    have hb := Trace.record_done (s.trace t) s b (by intro n hn; cases hn)
    have hb' := Trace.record_done (s'.trace t) s' b' (by intro n hn; cases hn)
    rw [hb, hb']
    exact h.done t

theorem World.Alike.exec {s s' : World} {a a' : Action} {ρ : a.Resp → a'.Resp → Prop}
    (h : s.Alike s') (t : Nat) (ha : Action.Alike a a' ρ) {c c' : Choice} (hc : c.Alike c')
    (hh : c.Honest a) (hh' : c'.Honest a') :
    World.Paired a a' ρ (World.exec t a c s) (World.exec t a' c' s') := by
  have hstep := h.step t ha hc hh hh'
  rw [World.exec, World.exec]
  generalize s.step t c a = x, s'.step t c' a' = x' at hstep ⊢
  cases hstep with
  | none => exact .none
  | @some x x' hx =>
    obtain ⟨hb, hs⟩ := hx
    refine .some ⟨hb, { hs with time := congrArg (· + 1) hs.time, done := fun u => ?_ }⟩
    by_cases hu : u = t
    · subst hu
      have := @World.Alike.recorded _ _ _ _ _ x.1 x'.1 hs u ha
      simpa only [World.trace, Past.record, Function.update_self] using this
    · simpa only [World.trace, Past.record, Function.update_of_ne hu] using hs.done u

theorem World.Alike.admin {s s' : World} (h : s.Alike s') {reply : Reply} (hr : reply.Admin)
    (t : Nat) (m : Moment) :
    (s.trace t).done = some (m, reply) ↔ (s'.trace t).done = some (m, reply) := by
  have hdone := h.done t
  generalize (s.trace t).done = x, (s'.trace t).done = x' at hdone ⊢
  cases hdone with
  | none => rfl
  | @some x x' hx =>
    obtain ⟨m₁, reply₁⟩ := x
    obtain ⟨_, reply₂⟩ := x'
    obtain ⟨rfl, hx⟩ := hx
    cases hx with
    | same reply₁ => rfl
    | get _ =>
      constructor
      · rintro ⟨⟩
        exact hr.elim
      · rintro ⟨⟩
        exact hr.elim
    | mget _ =>
      constructor
      · rintro ⟨⟩
        exact hr.elim
      · rintro ⟨⟩
        exact hr.elim

theorem World.Alike.env {s s' : World} (h : s.Alike s') (he : Env.Alike e e') :
    Option.Rel World.Alike (s.env e) (s'.env e') := by
  cases he with
  | originWrite key hv =>
    exact .some { h with origin := h.origin.apply (.cons ⟨rfl, hv⟩ .nil) }
  | same e =>
    cases e with
    | tick d => exact .some { h with clock := congrArg (· + (d : Int)) h.clock }
    | cancel t expired =>
      simp only [World.env, ← h.contexts]
      cases s.contexts t with
      | none => exact .some { h with contexts := rfl }
      | some _ => exact .none
    | originWrite key value =>
      exact .some { h with origin := h.origin.apply (updatesAlike_refl _) }

end Slizen
