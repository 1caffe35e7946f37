import Slizen.Interleaving.Publication
import Slizen.Service.Watching

namespace Slizen
set_option autoImplicit true

open Interleaving Machine

namespace Gauge

open Service (Ignores obeys_when obeys_applyTransitions)

/-- What is kept in mind of a goroutine: whether the tracker has given it transitions since it last
read the number of HOT keys, and the number that it has read and not yet written. -/
structure Reader where
  owes : Bool
  read : Option Int

def monitor : Monitor Action Action.Resp where
  Mem := Reader
  fresh := ⟨false, none⟩
  Ok := fun μ a =>
    match a with
    | .tracker .stats => μ.read = none
    | .record (.setHotKeys n) => μ.read = some n
    | _ => True
  next := fun μ a =>
    match a with
    | .tracker .stats => fun b => ⟨false, some b.2⟩
    | .tracker op => fun b => ⟨μ.owes || !(op.transitions b).isEmpty, μ.read⟩
    | .record (.setHotKeys _) => fun _ => ⟨μ.owes, none⟩
    | _ => fun _ => μ
  Idle := fun μ => μ = ⟨false, none⟩

variable {svc : Service} {μ : Reader}

theorem next_tracker {op : TrackerOp} {b : op.Resp} (h : op.transitions b = [])
    (hop : op ≠ .stats) : monitor.next μ (.tracker op) b = μ := by
  rcases μ with ⟨owes, read⟩
  cases op with
  | stats => exact absurd rfl hop
  | _ =>
    show Reader.mk _ _ = _
    rw [h]
    simp

theorem ignores_quiet (a : Action) (ha : a.Quiet) : Ignores monitor a := by
  intro μ
  cases a with
  | tracker op =>
    cases op with
    | isHot key => exact ⟨trivial, fun _ => next_tracker rfl nofun⟩
    | isTracked key => exact ⟨trivial, fun _ => next_tracker rfl nofun⟩
    | _ => exact ha.elim
  | record m => cases m <;> first | exact ⟨trivial, fun _ => rfl⟩ | exact ha.elim
  | _ => exact ⟨trivial, fun _ => rfl⟩

theorem obeys_publishHotKeys (h : μ.read = none) :
    monitor.Obeys Service.publishHotKeys (fun _ => monitor.Idle) μ :=
  ⟨h, fun _ => ⟨rfl, fun _ => rfl⟩⟩

theorem obeys_handleObservation {o : Hotness.Observation}
    (h : μ = ⟨!o.transitions.isEmpty, none⟩) :
    monitor.Obeys (svc.handleObservation o) (fun _ => monitor.Idle) μ := by
  apply (obeys_applyTransitions ignores_quiet _ μ).bind
  rintro _ μ rfl
  have hpublish : monitor.Obeys (Run.when (o.transitions ≠ []) Service.publishHotKeys)
      (fun _ => monitor.Idle) μ := by
    apply obeys_when
    · exact fun _ => obeys_publishHotKeys (by rw [h])
    · intro hc
      rw [not_not.1 hc] at h
      exact h
  have hoversized : monitor.Keeps (Run.when (o.oversizedObservationDropped = true)
      (Service.record (.observeHotnessOversizedDrops o.oversizedObservationsDropped))) :=
    fun _ hμ => obeys_when (fun _ => ⟨trivial, fun _ => hμ⟩) fun _ => hμ
  have hcapacity : monitor.Keeps (Run.when (o.capacityObservationDropped = true)
      (Service.record (.observeHotnessCapacityDrops o.capacityDrops))) :=
    fun _ hμ => obeys_when (fun _ => ⟨trivial, fun _ => hμ⟩) fun _ => hμ
  exact hpublish.bind fun _ => hoversized.bind fun _ => hcapacity

theorem obeys_handleTransitions {l : List Hotness.Transition} (h : μ.read = none) :
    monitor.Obeys (svc.handleTransitions l) (fun _ => monitor.Idle) μ := by
  apply (obeys_applyTransitions ignores_quiet _ μ).bind
  rintro _ μ rfl
  apply (obeys_publishHotKeys h).bind
  rintro _ _ rfl
  exact ⟨trivial, fun _ => ⟨trivial, fun _ => ⟨trivial, fun _ => ⟨trivial, fun _ => rfl⟩⟩⟩⟩

theorem minds (svc : Service) : svc.Minds monitor where
  idle := rfl
  quiet := ignores_quiet
  tracker := by
    rintro op _ rfl
    cases op <;> trivial
  observed := by
    rintro key o _ rfl
    exact obeys_handleObservation rfl
  admitted := by
    rintro key o _ rfl
    exact obeys_handleObservation rfl
  advanced := by
    rintro l _ rfl
    exact obeys_handleTransitions rfl
  viewed := by
    rintro limit v _ rfl
    exact obeys_handleTransitions rfl
  published := by
    rintro x _ rfl
    exact ⟨rfl, fun _ => rfl⟩

/-- The reads of the number of HOT keys for the gauge, and the writes of the gauge. -/
def post (e : svc.machine.Event) : Option (Post Int) :=
  match e with
  | ⟨t, _, .tracker .stats, b⟩ => some (.read t b.2)
  | ⟨t, _, .record (.setHotKeys n), _⟩ => some (.write t n)
  | _ => none

def posts (tr : List svc.machine.Event) : List (Post Int) := tr.filterMap post

def board (tr : List svc.machine.Event) : Board Int := .of (posts tr)

def reader (tr : List svc.machine.Event) (t : Nat) : Reader := mem monitor tr t

variable {tr : List svc.machine.Event} {s s' : World} {t : Nat}

theorem reader_self (tr : List svc.machine.Event) (t : Nat) (s : World) (a : Action) (b : a.Resp) :
    reader (tr ++ [(⟨t, s, a, b⟩ : svc.machine.Event)]) t = monitor.next (reader tr t) a b :=
  mem_self (M := svc.machine) tr t s a b

theorem reader_other (tr : List svc.machine.Event) (s : World) (a : Action) (b : a.Resp)
    (h : u ≠ t) : reader (tr ++ [(⟨t, s, a, b⟩ : svc.machine.Event)]) u = reader tr u :=
  mem_other (M := svc.machine) tr s a b h

theorem posts_snoc (tr : List svc.machine.Event) (e : svc.machine.Event) :
    posts (tr ++ [e]) = posts tr ++ (post e).toList := by
  rw [posts, List.filterMap_append, posts]
  cases he : post e with
  | none => simp [he]
  | some p => simp [he]

/-- What is pending on the board is what the goroutines have in hand, and if the writes so far were
timely the gauge is settling to the number of HOT keys. -/
structure Tracks (tr : List svc.machine.Event) (s : World) : Prop where
  read : ∀ t, (reader tr t).read = ((board tr).pending t).map Prod.snd
  sound : Board.Along Board.Sound (posts tr)
  settling : Board.Along Board.Timely (posts tr) → (board tr).Settling s.recorder.hotKeys
    s.tracker.hot fun t => (reader tr t).owes = true

theorem Tracks.unposted {a : Action} {b : a.Resp} (h : Tracks tr s)
    (hpost : post (⟨t, s, a, b⟩ : svc.machine.Event) = none)
    (hread : (monitor.next (reader tr t) a b).read = (reader tr t).read)
    (howes : (reader tr t).owes = true → (monitor.next (reader tr t) a b).owes = true)
    (hgauge : s'.recorder.hotKeys = s.recorder.hotKeys)
    (hhot : s'.tracker.hot = s.tracker.hot ∨ (monitor.next (reader tr t) a b).owes = true) :
    Tracks (tr ++ [(⟨t, s, a, b⟩ : svc.machine.Event)]) s' := by
  have hposts : posts (tr ++ [(⟨t, s, a, b⟩ : svc.machine.Event)]) = posts tr := by
    rw [posts_snoc, hpost, Option.toList_none, List.append_nil]
  have hboard : board (tr ++ [(⟨t, s, a, b⟩ : svc.machine.Event)]) = board tr :=
    congrArg Board.of hposts
  constructor
  · intro u
    rw [hboard, ← h.read u]
    by_cases hu : u = t
    · subst hu
      rw [reader_self, hread]
    · rw [reader_other tr s a b hu]
  · rw [hposts]
    exact h.sound
  · rw [hposts, hboard, hgauge]
    intro htimely
    rcases hhot with hhot | hhot
    · rw [hhot]
      apply (h.settling htimely).mono
      intro u hu
      by_cases hut : u = t
      · subst hut
        rw [reader_self]
        exact howes hu
      · rwa [reader_other tr s a b hut]
    · exact .inr (.inl ⟨t, (congrArg Reader.owes (reader_self tr t s a b)).trans hhot⟩)

theorem Tracks.stats {b : Nat × Int} (h : Tracks tr s) (hok : (reader tr t).read = none)
    (he : World.exec t (.tracker .stats) c s = some (b, s')) :
    Tracks (tr ++ [(⟨t, s, .tracker .stats, b⟩ : svc.machine.Event)]) s' := by
  obtain ⟨tr', hrun, rfl⟩ := World.exec_tracker he
  obtain ⟨hb, rfl⟩ : s.tracker.stats = b ∧ s.tracker = tr' := Prod.mk.inj (Option.some.inj hrun)
  have hposts : posts (tr ++ [(⟨t, s, .tracker .stats, b⟩ : svc.machine.Event)]) =
      posts tr ++ [.read t s.tracker.hot] := by
    rw [posts_snoc, ← hb]
    rfl
  have hboard : board (tr ++ [(⟨t, s, .tracker .stats, b⟩ : svc.machine.Event)]) =
      (board tr).step (.read t s.tracker.hot) := by rw [board, hposts, Board.of_snoc, board]
  constructor
  · intro u
    rw [hboard]
    by_cases hu : u = t
    · subst hu
      rw [reader_self, Board.pending_read_self, ← hb]
      rfl
    · rw [reader_other tr s _ _ hu, Board.pending_read_ne _ _ hu]
      exact h.read u
  · rw [hposts, Board.along_snoc]
    refine ⟨h.sound, ?_⟩
    have hread := h.read t
    rw [hok] at hread
    exact Option.map_eq_none_iff.1 hread.symm
  · rw [hposts, hboard, Board.along_snoc]
    rintro ⟨htimely, -⟩
    apply (h.settling htimely).read (Board.early_of _)
    intro u hu howes
    rwa [reader_other tr s _ _ hu]

theorem Tracks.setHotKeys {b : Unit} (h : Tracks tr s) (hok : (reader tr t).read = some n)
    (he : World.exec t (.record (.setHotKeys n)) c s = some (b, s')) :
    Tracks (tr ++ [(⟨t, s, .record (.setHotKeys n), b⟩ : svc.machine.Event)]) s' := by
  cases World.exec_record he
  have hposts : posts (tr ++ [(⟨t, s, .record (.setHotKeys n), b⟩ : svc.machine.Event)]) =
      posts tr ++ [.write t n] := posts_snoc tr _
  have hboard : board (tr ++ [(⟨t, s, .record (.setHotKeys n), b⟩ : svc.machine.Event)]) =
      (board tr).step (.write t n) := by rw [board, hposts, Board.of_snoc, board]
  have hsound : (board tr).Sound (.write t n) := by
    have hread := h.read t
    rw [hok] at hread
    obtain ⟨⟨j, n'⟩, hj, rfl⟩ := Option.map_eq_some_iff.1 hread.symm
    exact ⟨j, hj⟩
  constructor
  · intro u
    rw [hboard]
    by_cases hu : u = t
    · subst hu
      rw [reader_self, Board.pending_write_self]
      rfl
    · rw [reader_other tr s _ _ hu, Board.pending_write_ne _ _ hu]
      exact h.read u
  · rw [hposts, Board.along_snoc]
    exact ⟨h.sound, hsound⟩
  · rw [hposts, hboard, Board.along_snoc]
    rintro ⟨htimely, hlast⟩
    apply ((h.settling htimely).write hsound hlast).mono
    intro u howes
    by_cases hu : u = t
    · subst hu
      rw [reader_self]
      exact howes
    · rwa [reader_other tr s _ _ hu]

theorem Tracks.act {a : Action} {b : a.Resp} (h : Tracks tr s) (hr : s.tracker.Rep)
    (hok : monitor.Ok (reader tr t) a) (he : World.exec t a c s = some (b, s')) :
    Tracks (tr ++ [(⟨t, s, a, b⟩ : svc.machine.Event)]) s' := by
  have hother : (∀ op, a ≠ .tracker op) → (∀ m, a ≠ .record m) →
      post (⟨t, s, a, b⟩ : svc.machine.Event) = none →
      monitor.next (reader tr t) a b = reader tr t →
      Tracks (tr ++ [(⟨t, s, a, b⟩ : svc.machine.Event)]) s' := by
    intro htracker hrecord hpost hnext
    obtain ⟨s₁, hs, rfl⟩ := World.exec_eq_some.1 he
    have hf := World.step_frame hs
    apply h.unposted hpost
    · rw [hnext]
    · rw [hnext]
      exact id
    · exact congrArg Recorder.hotKeys (hf.recorder hrecord)
    · exact .inl (congrArg Hotness.Tracker.hot (hf.tracker htracker))
  cases a with
  | tracker op =>
    by_cases hop : op = .stats
    · subst hop
      exact h.stats hok he
    · obtain ⟨tr', hrun, rfl⟩ := World.exec_tracker he
      have hbalance := (TrackerOp.run_reports hr hrun).balance
      have hnext : monitor.next (reader tr t) (.tracker op) b =
          ⟨(reader tr t).owes || !(op.transitions b).isEmpty, (reader tr t).read⟩ := by
        cases op with
        | stats => exact absurd rfl hop
        | _ => rfl
      apply h.unposted
      · cases op with
        | stats => exact absurd rfl hop
        | _ => rfl
      · rw [hnext]
      · rw [hnext]
        intro howes
        rw [howes]
        rfl
      · rfl
      · rw [hnext]
        cases hl : op.transitions b with
        | nil =>
          rw [hl] at hbalance
          exact .inl (sub_eq_zero.1 hbalance.symm)
        | cons τ l => exact .inr (Bool.or_true _)
  | record m =>
    cases m with
    | setHotKeys n => exact h.setHotKeys hok he
    | _ =>
      cases World.exec_record he
      exact h.unposted rfl rfl id rfl (.inl rfl)
  | _ => exact hother nofun nofun rfl rfl

theorem tracks_of_trail {g : svc.machine.Config}
    (h : Trail (svc.calls direct) ⟨svc.init content, []⟩ tr g) : Tracks tr g.state := by
  apply ((minds svc).watched direct).invariant h
  · exact ⟨fun _ => rfl, Board.along_nil _, fun _ => .inl ⟨rfl, nofun⟩⟩
  · exact fun htr hj hok he => hj.act (Service.Reachable.base htr.reach).tracker hok he
  · intro tr e s s' hj he
    rw [World.env_eq he]
    exact ⟨hj.read, hj.sound, hj.settling⟩

end Gauge

namespace Service

open Gauge in
/-- When the operations of a run have finished, no older number of HOT keys has been written to the
gauge after a newer one, and the gauge is the number of HOT keys, exactly if at every write no other
goroutine had still to write a different number that it had read before the writer read its own. -/
theorem gauge_settles_iff {svc : Service} {direct : Bool} {content : Key → Option Bytes}
    {tr : List svc.machine.Event} {g : svc.machine.Config}
    (h : Trail (svc.calls direct) ⟨svc.init content, []⟩ tr g) (hq : g.Quiescent) :
    (g.state.recorder.hotKeys = g.state.tracker.admissionRing.countP (fun e => e.state = .hot) ∧
      (board tr).Ordered) ↔ Board.Along Board.Timely (posts tr) := by
  have ht := tracks_of_trail h
  have hidle : ∀ t, reader tr t = ⟨false, none⟩ := ((minds svc).watched direct).idle_mem h hq
  have hend : ∀ t, (board tr).pending t = none := by
    intro t
    have hread := ht.read t
    rw [hidle t] at hread
    exact Option.map_eq_none_iff.1 hread.symm
  rw [board, Board.ordered_iff ht.sound hend]
  refine ⟨And.right, fun htimely => ⟨?_, htimely⟩⟩
  rw [(ht.settling htimely).shown_eq (fun t howes => ?_) hend]
  · exact (Reachable.base h.reach).tracker.hot
  · rw [hidle t] at howes
    cases howes

/-- A key is read once; `HotKeys` reads the number of HOT keys and stops before it writes the gauge,
a second read of the key promotes it, and then `HotKeys` goes on. -/
def lateWrite : List Cue :=
  [.call (.get [7]), .go 0 100, .go 1 100, .go 0 100, .call (.hotKeys 10), .go 2 3,
    .call (.get [7]), .go 3 100, .go 2 100]

theorem gauge_unsettled : ∃ (tr : List sample.machine.Event) (g : sample.machine.Config),
    Trail (sample.calls false) ⟨sample.init fun _ => some [0], []⟩ tr g ∧ g.Quiescent ∧
      g.state.recorder.hotKeys = 0 ∧
      g.state.tracker.admissionRing.countP (fun e => e.state = .hot) = 1 :=
  ⟨_, _, schedule_trail pick (l := lateWrite) (by decide), by decide +kernel, by decide +kernel,
    by decide +kernel⟩

theorem gauge_settles_iff_late : ¬ Board.Along Board.Timely
    (Gauge.posts (sample.schedule (fun _ => some [0]) pick lateWrite).2) := by
  intro htimely
  have htrail : Trail (sample.calls false) ⟨sample.init fun _ => some [0], []⟩ _ _ :=
    schedule_trail pick (l := lateWrite) (by decide)
  have hgauge := ((gauge_settles_iff htrail (by decide +kernel)).2 htimely).1
  revert hgauge
  decide +kernel

end Service
end Slizen
