import Slizen.Interleaving.Totals
import Slizen.Service.Runs
import Slizen.TrackerRequests

namespace Slizen
set_option autoImplicit true

open Interleaving Machine

/-- The promotions and demotions that are still to be counted. -/
def Debt.net (d : Debt) : Int := d.rises - d.falls

/-- What the counters miss of the number of HOT keys. -/
def World.gap (s : World) : Int :=
  (s.recorder.promotions : Int) - s.recorder.demotions - s.tracker.hot

namespace Service

variable {svc : Service} {direct : Bool} {content : Key → Option Bytes} {g : svc.machine.Config}
  {s s' : World} {t : Nat} {a : Action} {b : a.Resp} {c : Choice}

theorem gap_act (hi : svc.Base s) (hp : svc.Pre t a s) (he : World.exec t a c s = some (b, s')) :
    s'.gap + (s'.trace t).debt.net = s.gap + (s.trace t).debt.net := by
  have hother : (∀ op, a ≠ .tracker op) → (∀ m, a ≠ .record m) →
      (s'.trace t).debt.net = (s.trace t).debt.net →
      s'.gap + (s'.trace t).debt.net = s.gap + (s.trace t).debt.net := by
    intro htracker hrecord hd
    obtain ⟨s₁, hs, rfl⟩ := World.exec_eq_some.1 he
    have hf := World.step_frame hs
    rw [hd]
    simp only [World.gap, hf.tracker htracker, hf.recorder hrecord]
  cases a with
  | tracker op =>
    rw [World.exec_trace he]
    obtain ⟨tr, hrun, rfl⟩ := World.exec_tracker he
    have hb := (TrackerOp.run_reports hi.tracker hrun).balance
    simp only [World.gap, Trace.record, Trace.recordTracker, Debt.net, Debt.take]
    push_cast
    linarith
  | record m =>
    rw [World.exec_trace he]
    cases World.exec_record he
    cases m with
    | promotion =>
      have hpos : 0 < (s.trace t).debt.rises := hp
      simp only [World.gap, Trace.record, Recorder.record, Debt.net, Debt.counted]
      omega
    | demotion =>
      have hpos : 0 < (s.trace t).debt.falls := hp
      simp only [World.gap, Trace.record, Recorder.record, Debt.net, Debt.counted]
      omega
    | _ => rfl
  | note n =>
    refine hother (by simp) (by simp) ?_
    rw [World.exec_trace he]
    cases n with
    | start job =>
      rw [show s.trace t = {} from hp.1]
      rfl
    | _ => rfl
  | _ =>
    refine hother (by simp) (by simp) ?_
    rw [World.exec_trace he, Trace.record_debt _ _ b (by simp) (by simp) (by simp) (by simp)]

/-- The goroutines have together still to count what the counters miss. -/
def Accounted (s : World) : Prop := Balance (fun u => (s.trace u).debt.net) (-s.gap)

theorem Accounted.act (h : Accounted s) (hi : svc.Base s) (hp : svc.Pre t a s)
    (he : World.exec t a c s = some (b, s')) : Accounted s' := by
  have hstep : Balance (fun u => (s'.trace u).debt.net)
      (-s.gap + ((s'.trace t).debt.net - (s.trace t).debt.net)) := by
    refine h.step fun u hu => ?_
    rw [World.exec_trace_of_ne he hu]
  have hgap : -s.gap + ((s'.trace t).debt.net - (s.trace t).debt.net) = -s'.gap := by
    linarith [gap_act hi hp he]
  rwa [hgap] at hstep

theorem Reachable.accounted (h : svc.Reachable direct content g) : Accounted g.state := by
  refine h.invariant (J := Accounted) (.zero fun _ => rfl) (fun hi hj hp he => hj.act hi hp he) ?_
  intro e s s' _ hj _ he
  rw [World.env_eq he]
  exact hj

open Hotness Tracker in
/-- What a tracker returns about a key, in the order in which it returns it, leads from COLD to
the state the key has now, each transition from where the one before it ends; and whenever no
operation is under way the counted promotions exceed the counted demotions by the number of HOT
keys. -/
theorem transition_log :
    (∀ (cfg : Hotness.Config) (start : Time) (cs : List Turn) (k : Key),
      let r := (new cfg start).serveAll cs
      Path .cold (r.1.filter fun τ => τ.key = k) (r.2.stateOf k)) ∧
    ∀ (svc : Service) (direct : Bool) (content : Key → Option Bytes) (g : svc.machine.Config),
      svc.Reachable direct content g → g.Quiescent →
        (g.state.recorder.promotions : Int) - g.state.recorder.demotions =
          g.state.tracker.admissionRing.countP fun e => e.state = .hot := by
  refine ⟨fun cfg start cs k => ?_, fun svc direct content g h hq => ?_⟩
  · exact ((rep_new cfg start).serveAll cs).path k
  · have hsum : -g.state.gap = 0 :=
      h.accounted.range fun u (_ : 0 ≤ u) => by rw [h.settled hq u]; rfl
    have hhot := h.base.tracker.hot
    unfold World.gap at hsum
    rw [hhot] at hsum
    exact sub_eq_zero.1 (neg_eq_zero.1 hsum)

theorem transition_log_sample : (samplePromoted.state.recorder.promotions : Int) -
    samplePromoted.state.recorder.demotions = 1 :=
  (transition_log.2 sample false _ samplePromoted samplePromoted_reachable
    (by decide +kernel)).trans (by decide +kernel)

end Service
end Slizen
