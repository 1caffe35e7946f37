import Slizen.Proxy.Accounting
import Slizen.Proxy.Composition

namespace Slizen.Proxy.Drain
set_option autoImplicit true

open Interleaving Machine

variable {srv : Server} {s s' s₁ : World} {t : Nat} {a : Action} {b : a.Resp} {c : Choice}

/-- Where a goroutine stands: its share of the accounting, whether it holds the mutex, and whether
it knows that the tracker drains. -/
structure At (t : Nat) (sh : Share) (holds : Bool) (drains : Prop) (s : World) : Prop where
  share : s.share t = sh
  mu : s.mutex .mu = some t ↔ holds = true
  draining : drains → s.drain.draining = true

theorem At.rely (h : At t sh holds drains s) (hr : Rely t s s') : At t sh holds drains s' where
  share := hr.share.trans h.share
  mu := hr.owns.trans h.mu
  draining := fun hd => hr.draining (h.draining hd)

theorem At.weaken (h : At t sh holds drains s) (hd : drains' → drains) : At t sh holds drains' s :=
  ⟨h.share, h.mu, fun h' => h.draining (hd h')⟩

abbrev Outside (t : Nat) (ph : Phase) (s : World) : Prop := At t ⟨ph, false, false⟩ false False s

def outline (srv : Server) : Outline Server.machine srv.jobs where
  Inv := Base
  Rely := Rely
  Pre := Pre
  Fresh := fun t => Outside t .idle
  Ready := fun p _ => p.Uses Action.Neutral
  Done := fun t => Outside t .idle
  rely_refl := Rely.refl
  rely_trans := Rely.trans
  fresh := fun hr h => h.rely hr
  done := fun hr h => h.rely hr
  act := fun hi _ hp he => hi.act hp he
  env := fun hi _ he => hi.env he

abbrev wp (srv : Server) (t : Nat) (p : Run α) (Q : α → World → Prop) (s : World) : Prop :=
  (outline srv).wp t p Q s

theorem wp_do {a : Action} {Q : a.Resp → World → Prop} (hf : ∀ b, Server.fork a b = none)
    (h : ∀ s₁, Rely t s s₁ → Base s₁ → Pre t a s₁ ∧
      ∀ c b s₂, World.exec t a c s₁ = some (b, s₂) → Q b s₂) : wp srv t (Run.do a) Q s := by
  exact Outline.wp.perform hf h

theorem Action.Remote.neutral {a : Action} (h : a.Remote) : a.Neutral := by
  cases a with
  | lock m => cases m <;> trivial
  | unlock m => cases m <;> trivial
  | closeChannel ch => cases ch <;> trivial
  | onceClose ch => cases ch <;> trivial
  | note n => exact h.elim
  | _ => trivial

theorem neutral_waiting {p : Run α} (hp : p.Uses Action.Waiting) : p.Uses Action.Neutral :=
  hp.mono fun _ h => Action.Remote.neutral h.remote

theorem fork_neutral {a : Action} {b : a.Resp} (h : Server.fork a b = some p) :
    p.Uses Action.Neutral :=
  (fork_remote h).mono fun _ => Action.Remote.neutral

theorem pre_of_neutral {a : Action} (ha : a.Neutral) : Pre t a s := by
  cases a with
  | closeChannel ch => cases ch <;> trivial
  | onceClose ch => cases ch <;> trivial
  | note n => cases n <;> trivial
  | drainingSwap => exact ha.elim
  | activeAdd _ => exact ha.elim
  | track _ => exact ha.elim
  | untrack _ => exact ha.elim
  | panic _ => exact ha.elim
  | _ => exact trivial

theorem wp_neutral {p : Run α} {Q : α → World → Prop} (hp : p.Uses Action.Neutral) (hi : Base s)
    (hQ : ∀ x s', Rely t s s' → Base s' → Q x s') : wp srv t p Q s :=
  Outline.wp.uses (C := Rely t) Rely.trans id (fun ha _ he => rely_of_neutral ha he t)
    (fun ha _ => pre_of_neutral ha) (fun _ hf => fork_neutral hf) hp hi fun x s' => hQ x s'

/-- A goroutine that stands outside the tracker comes out again as it went in. -/
def Tame (srv : Server) (p : Run α) : Prop :=
  ∀ t ph s, ph ≠ .reserved → Base s → Outside t ph s → wp srv t p (fun _ => Outside t ph) s

theorem tame_ret (x : α) : Tame srv (.ret x) := fun _ _ _ _ _ h => h

theorem tame_neutral {p : Run α} (hp : p.Uses Action.Neutral) : Tame srv p :=
  fun _ _ _ _ hi h => wp_neutral hp hi fun _ _ hr _ => h.rely hr

theorem tame_remote {p : Run α} (hp : p.Uses Action.Remote) : Tame srv p :=
  tame_neutral (hp.mono fun _ => Action.Remote.neutral)

theorem tame_do (a : Action) (ha : a.Neutral) : Tame srv (Run.do a) :=
  tame_neutral ⟨ha, fun _ => trivial⟩

theorem Tame.bind {p : Run α} {f : α → Run β} (hp : Tame srv p) (hf : ∀ x, Tame srv (f x)) :
    Tame srv (p >>= f) :=
  fun t ph s hph hi h => (hp t ph s hph hi h).seq hi fun x s' hi' h' => hf x t ph s' hph hi' h'

theorem At.acted (h : At t sh holds drains s) (he : World.exec t a c s = some (b, s'))
    (hmu : s'.mutex .mu = s.mutex .mu) (hd : s'.drain.draining = s.drain.draining) :
    At t ((s.trace t).record s a b).share holds drains s' where
  share := World.exec_share he
  mu := by
    rw [hmu]
    exact h.mu
  draining := fun hd' => hd.trans (h.draining hd')

theorem wp_enter (h : At t ⟨ph, d, false⟩ holds drains s) :
    wp srv t (note .enter) (fun _ => At t ⟨ph, d, true⟩ holds drains) s := by
  refine wp_do (fun _ => rfl) fun s₁ hr _ => ⟨trivial, fun c b s₂ he => ?_⟩
  have h₁ := h.rely hr
  have h₂ : At t { s₁.share t with calling := true } holds drains s₂ := by
    refine h₁.acted he ?_ ?_ <;> obtain ⟨_, hs, rfl⟩ := World.exec_eq he <;> cases hs <;> rfl
  rwa [h₁.share] at h₂

theorem wp_leave (h : At t ⟨ph, false, true⟩ holds drains s) :
    wp srv t (note .leave) (fun _ => At t ⟨ph, false, false⟩ holds drains) s := by
  refine wp_do (fun _ => rfl) fun s₁ hr _ => ?_
  have h₁ := h.rely hr
  refine ⟨congrArg Share.duty h₁.share, fun c b s₂ he => ?_⟩
  have h₂ : At t { s₁.share t with calling := false } holds drains s₂ := by
    refine h₁.acted he ?_ ?_ <;> obtain ⟨_, hs, rfl⟩ := World.exec_eq he <;> cases hs <;> rfl
  rwa [h₁.share] at h₂

theorem wp_during {p : Run α} {ph' : α → Phase} {drains' : α → Prop} (hi : Base s)
    (h : At t ⟨ph, false, false⟩ false drains s)
    (hp : ∀ s₁, Base s₁ → At t ⟨ph, false, true⟩ false drains s₁ →
      wp srv t p (fun x => At t ⟨ph' x, false, true⟩ false (drains' x)) s₁) :
    wp srv t (during p) (fun x => At t ⟨ph' x, false, false⟩ false (drains' x)) s := by
  refine (wp_enter h).seq hi fun _ s₁ hi₁ h₁ => ?_
  refine (hp s₁ hi₁ h₁).seq hi₁ fun x s₂ hi₂ h₂ => ?_
  exact (wp_leave h₂).bind.mono fun _ _ h₃ => h₃

theorem wp_lock (h : At t sh false drains s) :
    wp srv t (lock .mu) (fun _ => At t sh true drains) s := by
  refine wp_do (fun _ => rfl) fun s₁ hr _ => ⟨trivial, fun c b s₂ he => ?_⟩
  have h₁ := h.rely hr
  have hsh : s₂.share t = s₁.share t := World.exec_shares he rfl t
  obtain ⟨s', hs, rfl⟩ := World.exec_eq he
  simp only [World.step] at hs
  split at hs
  · cases hs
    exact ⟨hsh.trans h₁.share, by simp, h₁.draining⟩
  · cases hs

theorem wp_unlock (h : At t sh true drains s) :
    wp srv t (unlock .mu) (fun _ => At t sh false drains) s := by
  refine wp_do (fun _ => rfl) fun s₁ hr _ => ⟨trivial, fun c b s₂ he => ?_⟩
  have h₁ := h.rely hr
  have hsh : s₂.share t = s₁.share t := World.exec_shares he rfl t
  obtain ⟨s', hs, rfl⟩ := World.exec_eq he
  simp only [World.step] at hs
  split at hs
  · cases hs
    exact ⟨hsh.trans h₁.share, by simp, h₁.draining⟩
  · cases hs

def Share.loaded (sh : Share) (b : Bool) : Share :=
  if b then { sh with phase := if sh.phase = .reserved then .refused else sh.phase }
  else { sh with phase := if sh.phase = .reserved then .admitted else sh.phase, duty := false }

theorem Trace.share_recordLoad (tr : Trace) (b : Bool) :
    (tr.recordLoad b).share = Share.loaded tr.share b := by
  cases b with
  | true =>
    simp only [Trace.recordLoad, Share.loaded, Trace.share, if_pos]
    split <;> simp_all
  | false => rfl

theorem wp_drainingLoad (h : At t sh holds drains s) :
    wp srv t drainingLoad (fun b s' => At t (Share.loaded sh b) holds (drains ∨ b = true) s' ∧
      s'.drain.draining = b) s := by
  refine wp_do (fun _ => rfl) fun s₁ hr _ => ⟨trivial, fun c b s₂ he => ?_⟩
  have h₁ := h.rely hr
  have hsh := World.exec_share he
  obtain ⟨s', hs, rfl⟩ := World.exec_eq he
  cases hs
  refine ⟨⟨?_, h₁.mu, fun hd => hd.elim h₁.draining id⟩, rfl⟩
  rw [hsh, ← h₁.share]
  exact Trace.share_recordLoad ..

theorem At.undrained {b : Bool} (h : At t sh true drains s) (hd : s.drain.draining = b)
    (hr : Rely t s s') :
    s'.drain.draining = b :=
  (hr.guarded (h.mu.2 rfl)).1.trans hd

structure Settled (s : World) : Prop where
  draining : s.drain.draining = true
  none : NoneAdmitted s

theorem Settled.rely (h : Settled s) (hr : Rely t s s') : Settled s' :=
  ⟨hr.draining h.draining, hr.settled h.draining h.none⟩

theorem Base.none_of_active (h : Base s) (hz : s.drain.active = 0) : NoneAdmitted s := by
  intro u hu
  have hle := h.balance.le (fun u => Phase.weight_nonneg _) u
  rw [hz, hu] at hle
  exact absurd hle (by decide)

theorem wp_activeLoad (h : At t sh holds True s) :
    wp srv t (Run.do .activeLoad) (fun n s' => (n = 0 → At t sh holds True s' ∧ Settled s') ∧
      (n ≠ 0 → At t { sh with duty := false } holds True s')) s := by
  refine wp_do (fun _ => rfl) fun s₁ hr hi => ⟨trivial, fun c b s₂ he => ?_⟩
  have h₁ := h.rely hr
  have hsh := World.exec_share he
  have hne := fun u (hu : u ≠ t) => World.exec_share_of_ne he hu
  obtain ⟨s', hs, rfl⟩ := World.exec_eq he
  cases hs
  refine ⟨fun hz => ?_, fun hz => ?_⟩
  · have hsame : ((s₁.trace t).record s₁ .activeLoad s₁.drain.active).share = s₁.share t := by
      simp only [Trace.record, if_pos hz]
    rw [hsame] at hsh
    refine ⟨⟨hsh.trans h₁.share, h₁.mu, h₁.draining⟩, h₁.draining trivial, ?_⟩
    exact (hi.none_of_active hz).of_ne hne (by rw [hsh]; exact id)
  · refine ⟨?_, h₁.mu, h₁.draining⟩
    rw [hsh, ← h₁.share]
    simp only [Trace.record, if_neg hz]
    rfl

theorem wp_connectionsLen (h : At t sh true drains s) :
    wp srv t (Run.do .connectionsLen) (fun n s' =>
      (n = 0 → At t sh true drains s' ∧ s'.drain.connections.keys = [] ∧ (Settled s → Settled s')) ∧
      (n ≠ 0 → At t { sh with duty := false } true drains s') ∧
      s'.drain.draining = s.drain.draining) s := by
  refine wp_do (fun _ => rfl) fun s₁ hr hi => ⟨trivial, fun c b s₂ he => ?_⟩
  have h₁ := h.rely hr
  have hsh := World.exec_share he
  have hne := fun u (hu : u ≠ t) => World.exec_share_of_ne he hu
  obtain ⟨s', hs, rfl⟩ := World.exec_eq he
  cases hs
  refine ⟨fun hz => ?_, fun hz => ?_, (hr.guarded (h.mu.2 rfl)).1⟩
  · have hsame : ((s₁.trace t).record s₁ .connectionsLen s₁.drain.connections.keys.length).share =
        s₁.share t := by
      simp only [Trace.record, if_pos hz]
    rw [hsame] at hsh
    refine ⟨⟨hsh.trans h₁.share, h₁.mu, h₁.draining⟩, List.eq_nil_of_length_eq_zero hz,
      fun hst => ?_⟩
    exact ⟨(hst.rely hr).draining, (hst.rely hr).none.of_ne hne (by rw [hsh]; exact id)⟩
  · refine ⟨?_, h₁.mu, h₁.draining⟩
    rw [hsh, ← h₁.share]
    simp only [Trace.record, if_neg hz]
    rfl

theorem wp_closeDrained (h : At t ⟨ph, d, true⟩ true drains s) (hst : Settled s)
    (hk : s.drain.connections.keys = []) : wp srv t (Run.do (.onceClose .drained))
      (fun _ => At t ⟨ph, false, true⟩ true drains) s := by
  refine wp_do (fun _ => rfl) fun s₁ hr _ => ?_
  have h₁ := h.rely hr
  have hst₁ := hst.rely hr
  refine ⟨⟨hst₁.draining, hst₁.none, by rw [(hr.guarded (h.mu.2 rfl)).2.1]; exact hk⟩,
    fun c b s₂ he => ?_⟩
  have h₂ : At t { s₁.share t with duty := false } true drains s₂ := by
    refine h₁.acted he ?_ ?_ <;> obtain ⟨_, hs, rfl⟩ := World.exec_eq he <;> cases hs <;>
      dsimp only <;> split <;> rfl
  rwa [h₁.share] at h₂

theorem loaded_false (hph : ph ≠ .reserved) :
    Share.loaded ⟨ph, d, call⟩ false = ⟨ph, false, call⟩ := by
  simp [Share.loaded, hph]

theorem loaded_true (hph : ph ≠ .reserved) : Share.loaded ⟨ph, d, call⟩ true = ⟨ph, d, call⟩ := by
  simp [Share.loaded, hph]

theorem wp_signalDrainedLocked (hi : Base s) (h : At t ⟨ph, d, true⟩ true drains s)
    (hph : ph ≠ .reserved) :
    wp srv t signalDrainedLocked (fun _ => At t ⟨ph, false, true⟩ true drains) s := by
  refine (wp_drainingLoad h).seq hi fun b s₁ hi₁ hb => ?_
  cases b with
  | false =>
    rw [loaded_false hph] at hb
    exact hb.1.weaken .inl
  | true =>
    rw [loaded_true hph] at hb
    refine (wp_activeLoad (hb.1.weaken fun _ => .inr rfl)).seq hi₁ fun n s₂ hi₂ hn => ?_
    split
    · obtain ⟨h₂, hst⟩ := hn.1 ‹_›
      refine (wp_connectionsLen h₂).seq hi₂ fun m s₃ hi₃ hm => ?_
      split
      · obtain ⟨h₃, hk, hst₃⟩ := hm.1 ‹_›
        exact (wp_closeDrained h₃ (hst₃ hst) hk).mono fun _ _ h₄ => h₄.weaken fun _ => trivial
      · exact (hm.2.1 ‹_›).weaken fun _ => trivial
    · exact (hn.2 ‹_›).weaken fun _ => trivial

theorem wp_decrementActiveHandler (hi : Base s) (h : At t ⟨ph, d, true⟩ holds drains s)
    (hph : ph ≠ .idle) :
    wp srv t decrementActiveHandler
      (fun _ s' => At t ⟨.idle, s'.drain.draining, true⟩ holds drains s' ∧
        (holds = true → s'.drain.draining = s.drain.draining)) s := by
  have hadd : wp srv t (Run.do (.activeAdd (-1))) (fun n s' => 0 ≤ n ∧
      At t ⟨.idle, s'.drain.draining, true⟩ holds drains s' ∧
        (holds = true → s'.drain.draining = s.drain.draining)) s := by
    refine wp_do (fun _ => rfl) fun s₁ hr hi₁ => ?_
    have h₁ := h.rely hr
    have hbusy : (s₁.share t).phase ≠ .idle := by
      rw [h₁.share]
      exact hph
    refine ⟨.inr ⟨rfl, hbusy, congrArg Share.calling h₁.share⟩, fun c b s₂ he => ?_⟩
    have hsh : s₂.share t = ⟨.idle, s₁.drain.draining, (s₁.share t).calling⟩ := World.exec_share he
    obtain ⟨s', hs, rfl⟩ := World.exec_eq he
    cases hs
    refine ⟨?_, ⟨?_, h₁.mu, h₁.draining⟩, fun ho => (hr.guarded (h.mu.2 ho)).1⟩
    · have hle := hi₁.balance.le (fun u => Phase.weight_nonneg _) t
      rw [Phase.weight_pos hbusy] at hle
      exact Int.sub_nonneg_of_le hle
    · rw [hsh, h₁.share]
      rfl
  refine hadd.seq hi fun n s₁ _ hn => ?_
  rw [if_neg (not_lt.2 hn.1)]
  exact hn.2

theorem wp_stopAdmissionLocked (hi : Base s) (h : At t ⟨ph, d, true⟩ true drains s) :
    wp srv t stopAdmissionLocked (fun _ => At t ⟨ph, true, true⟩ true True) s := by
  have hswap : wp srv t (Run.do .drainingSwap) (fun old s' => At t ⟨ph, true, true⟩ true True s' ∧
      (old = false → s'.channels .started = 0)) s := by
    refine wp_do (fun _ => rfl) fun s₁ hr hi₁ => ?_
    have h₁ := h.rely hr
    refine ⟨⟨h₁.mu.2 rfl, congrArg Share.calling h₁.share⟩, fun c b s₂ he => ?_⟩
    have hsh : s₂.share t = { s₁.share t with duty := true } := World.exec_share he
    obtain ⟨s', hs, rfl⟩ := World.exec_eq he
    cases hs
    refine ⟨⟨?_, h₁.mu, fun _ => rfl⟩, hi₁.unstarted⟩
    rw [hsh, h₁.share]
  refine hswap.seq hi fun old s₁ hi₁ ⟨h₁, hz⟩ => ?_
  cases old with
  | true => exact h₁
  | false =>
    refine wp_do (fun _ => rfl) fun s₂ hr _ => ?_
    have h₂ := h₁.rely hr
    refine ⟨⟨h₂.mu.2 rfl, h₂.draining trivial, ?_⟩, fun c b s₃ he => ?_⟩
    · rw [(hr.guarded (h₁.mu.2 rfl)).2.2]
      exact hz rfl
    · have h₃ := h₂.acted he (by obtain ⟨_, hs, rfl⟩ := World.exec_eq he; cases hs; rfl)
        (by obtain ⟨_, hs, rfl⟩ := World.exec_eq he; cases hs; rfl)
      rw [← h₂.share]
      exact h₃

theorem wp_pass (a : Action) (ha : a.Neutral) (hi : Base s) (h : At t sh holds drains s) :
    wp srv t (Run.do a) (fun _ => At t sh holds drains) s :=
  wp_neutral (p := Run.do a) ⟨ha, fun _ => trivial⟩ hi fun _ _ hr _ => h.rely hr

theorem wp_pass_clear (a : Action) (ha : a.Neutral) (hi : Base s) (h : At t sh true drains s)
    (hd : s.drain.draining = false) : wp srv t (Run.do a)
      (fun _ s' => At t sh true drains s' ∧ s'.drain.draining = false) s :=
  wp_neutral (p := Run.do a) ⟨ha, fun _ => trivial⟩ hi
    fun _ _ hr _ => ⟨h.rely hr, h.undrained hd hr⟩

theorem wp_track (h : At t sh true drains s) (hd : s.drain.draining = false) :
    wp srv t (Run.do (.track conn)) (fun _ => At t sh true drains) s := by
  refine wp_do (fun _ => rfl) fun s₁ hr _ => ?_
  have h₁ := h.rely hr
  have hd₁ := h.undrained hd hr
  refine ⟨⟨h₁.mu.2 rfl, hd₁⟩, fun c b s₂ he => ?_⟩
  have hsh : s₂.share t = s₁.share t := World.exec_shares he rfl t
  obtain ⟨s', hs, rfl⟩ := World.exec_eq he
  cases hs
  exact ⟨hsh.trans h₁.share, h₁.mu,
    fun hd' => (s₁.drain.track_frame conn).1.trans (h₁.draining hd')⟩

theorem wp_acceptLocked (hph : ph ≠ .reserved) (hi : Base s)
    (h : At t ⟨ph, false, true⟩ true drains s) :
    wp srv t (acceptLocked conn readTimeout maxConnections)
      (fun _ => At t ⟨ph, false, true⟩ true drains) s := by
  refine (wp_drainingLoad h).seq hi fun b s₁ hi₁ hb => ?_
  cases b with
  | true =>
    rw [loaded_true hph] at hb
    exact hb.1.weaken .inl
  | false =>
    rw [loaded_false hph] at hb
    refine (wp_connectionsLen (hb.1.weaken (.inl : drains → _))).seq hi₁ fun n s₂ hi₂ hn => ?_
    have h₂ : At t ⟨ph, false, true⟩ true drains s₂ := by
      by_cases hz : n = 0
      · exact (hn.1 hz).1
      · exact hn.2.1 hz
    split
    · exact h₂
    refine (wp_pass_clear .now trivial hi₂ h₂ (hn.2.2.trans hb.2)).seq hi₂
      fun now s₃ hi₃ ⟨h₃, hd₃⟩ => ?_
    refine (wp_pass_clear (.setDeadline conn .read _) trivial hi₃ h₃ hd₃).seq hi₃
      fun err s₄ hi₄ ⟨h₄, hd₄⟩ => ?_
    cases err with
    | some e => exact h₄
    | none => exact (wp_track h₄ hd₄).bind

theorem wp_locked {p : Run α} {ph' : α → Phase} {drains' : α → Prop} (hi : Base s)
    (h : At t ⟨ph, d, true⟩ false drains s)
    (hp : ∀ s₁, Base s₁ → At t ⟨ph, d, true⟩ true drains s₁ →
      wp srv t p (fun x => At t ⟨ph' x, false, true⟩ true (drains' x)) s₁) :
    wp srv t (lock .mu >>= fun _ => p >>= fun x => unlock .mu >>= fun _ => pure x)
      (fun x => At t ⟨ph' x, false, true⟩ false (drains' x)) s := by
  refine (wp_lock h).seq hi fun _ s₁ hi₁ h₁ => ?_
  refine (hp s₁ hi₁ h₁).seq hi₁ fun x s₂ hi₂ h₂ => ?_
  exact (wp_unlock h₂).bind

theorem tame_accept : Tame srv (accept conn readTimeout maxConnections) := by
  intro t ph s hph hi h
  refine wp_during hi h fun s₁ hi₁ h₁ => ?_
  cases conn with
  | none => exact h₁
  | some conn => exact wp_locked hi₁ h₁ fun s₂ hi₂ h₂ => wp_acceptLocked hph hi₂ h₂

theorem wp_untrack (h : At t ⟨ph, d, true⟩ true drains s) :
    wp srv t (Run.do (.untrack conn)) (fun _ s' => ∃ d', At t ⟨ph, d', true⟩ true drains s') s := by
  refine wp_do (fun _ => rfl) fun s₁ hr _ => ?_
  have h₁ := h.rely hr
  refine ⟨⟨h₁.mu.2 rfl, congrArg Share.calling h₁.share⟩, fun c b s₂ he => ⟨s₁.drain.draining, ?_⟩⟩
  have hsh : s₂.share t = { s₁.share t with duty := s₁.drain.draining } := World.exec_share he
  obtain ⟨s', hs, rfl⟩ := World.exec_eq he
  cases hs
  refine ⟨?_, h₁.mu, fun hd => (s₁.drain.untrack_frame conn).1.trans (h₁.draining hd)⟩
  rw [hsh, h₁.share]

theorem tame_connectionClosed : Tame srv (connectionClosed conn) := by
  intro t ph s hph hi h
  refine wp_during hi h fun s₁ hi₁ h₁ => ?_
  cases conn with
  | none => exact h₁
  | some conn =>
    refine wp_locked (p := Run.do (.untrack conn) >>= fun _ => signalDrainedLocked) hi₁ h₁
      fun s₂ hi₂ h₂ => ?_
    exact (wp_untrack h₂).seq hi₂ fun _ s₃ hi₃ ⟨d, h₃⟩ => wp_signalDrainedLocked hi₃ h₃ hph

theorem wp_lockedSignal (hi : Base s) (h : At t ⟨ph, d, true⟩ false drains s)
    (hph : ph ≠ .reserved) :
    wp srv t (lock .mu >>= fun _ => signalDrainedLocked >>= fun _ => unlock .mu)
      (fun _ => At t ⟨ph, false, true⟩ false drains) s :=
  wp_locked hi h fun _ hi₁ h₁ => wp_signalDrainedLocked hi₁ h₁ hph

theorem wp_rollBack (hi : Base s) (h : At t ⟨.refused, d, true⟩ false drains s) :
    wp srv t rollBack (fun _ => At t ⟨.idle, false, true⟩ false drains) s := by
  refine (wp_decrementActiveHandler hi h nofun).seq hi fun _ s₁ hi₁ h₁ => ?_
  exact wp_lockedSignal hi₁ h₁.1 nofun

theorem wp_reserveHandler (hi : Base s) (h : At t ⟨.idle, false, true⟩ false drains s) :
    wp srv t reserveHandler (fun r =>
      At t ⟨if r then .admitted else .idle, false, true⟩ false False) s := by
  have hadd : wp srv t (Run.do (.activeAdd 1)) (fun n s' => 0 < n ∧
      At t ⟨.reserved, false, true⟩ false drains s') s := by
    refine wp_do (fun _ => rfl) fun s₁ hr hi₁ => ?_
    have h₁ := h.rely hr
    refine ⟨.inl ⟨rfl, congrArg Share.phase h₁.share⟩, fun c b s₂ he => ?_⟩
    have hsh : s₂.share t = { s₁.share t with phase := .reserved } := World.exec_share he
    obtain ⟨s', hs, rfl⟩ := World.exec_eq he
    cases hs
    refine ⟨?_, ?_, h₁.mu, h₁.draining⟩
    · have hle := hi₁.balance.le (fun u => Phase.weight_nonneg _) t
      exact Int.lt_add_one_of_le ((Phase.weight_nonneg _).trans hle)
    · rw [hsh, h₁.share]
  refine hadd.seq hi fun n s₁ hi₁ ⟨hn, h₁⟩ => ?_
  rw [if_neg (not_le.2 hn)]
  refine (wp_drainingLoad h₁).seq hi₁ fun b s₂ hi₂ hb => ?_
  cases b with
  | false => exact hb.1.weaken False.elim
  | true => exact (wp_rollBack hi₂ (hb.1.weaken False.elim)).bind

theorem wp_beginHandler (hi : Base s) (h : Outside t .idle s) :
    wp srv t beginHandler (fun r => Outside t (if r then .admitted else .idle)) s := by
  refine wp_during hi h fun s₁ hi₁ h₁ => ?_
  refine (wp_drainingLoad h₁).seq hi₁ fun b s₂ hi₂ hb => ?_
  cases b with
  | true => exact hb.1.weaken False.elim
  | false => exact wp_reserveHandler hi₂ hb.1

theorem wp_finishLocked (hi : Base s) (h : At t ⟨.admitted, false, true⟩ true drains s) :
    wp srv t finishLocked (fun r =>
      At t ⟨if r then .admitted else .idle, false, true⟩ true (r = true)) s := by
  refine (wp_drainingLoad h).seq hi fun b s₁ hi₁ hb => ?_
  cases b with
  | true => exact hb.1.weaken fun _ => .inr rfl
  | false =>
    -- The flag stays unset as long as the mutex is held, so nobody waits for this handler.
    have h₁ : At t ⟨.admitted, false, true⟩ true drains s₁ := hb.1.weaken .inl
    refine ((wp_decrementActiveHandler hi₁ h₁ nofun).mono fun _ s₂ h₂ => ?_).bind
    have hd : s₂.drain.draining = false := (h₂.2 rfl).trans hb.2
    have h₃ := h₂.1
    rw [hd] at h₃
    exact h₃.weaken nofun

theorem wp_prepareHandlerDone (hi : Base s) (h : Outside t .admitted s) :
    wp srv t (prepareHandlerDone conn readTimeout writeTimeout) (fun r =>
      At t ⟨if r.1 then .admitted else .idle, false, false⟩ false (r.1 = true)) s := by
  refine wp_during hi h fun s₁ hi₁ h₁ => ?_
  refine (wp_drainingLoad h₁).seq hi₁ fun b s₂ hi₂ hb => ?_
  cases b with
  | true => exact hb.1.weaken fun _ => .inr rfl
  | false =>
    have h₂ : At t ⟨.admitted, false, true⟩ false False s₂ := hb.1.weaken False.elim
    have hset : wp srv t (setDeadlines conn readTimeout writeTimeout)
        (fun _ => At t ⟨.admitted, false, true⟩ false False) s₂ :=
      wp_neutral (neutral_waiting setDeadlines_waiting) hi₂ fun _ _ hr _ => h₂.rely hr
    refine hset.seq hi₂ fun err s₃ hi₃ h₃ => ?_
    refine (wp_lock h₃).seq hi₃ fun _ s₄ hi₄ h₄ => ?_
    refine (wp_finishLocked hi₄ h₄).seq hi₄ fun r s₅ _ h₅ => ?_
    exact (wp_unlock h₅).bind

theorem wp_completeDrainingHandler (hi : Base s)
    (h : At t ⟨.admitted, false, false⟩ false True s) :
    wp srv t completeDrainingHandler (fun _ => Outside t .idle) s := by
  refine wp_during hi h fun s₁ hi₁ h₁ => ?_
  refine (wp_lock h₁).seq hi₁ fun _ s₂ hi₂ h₂ => ?_
  refine (wp_drainingLoad h₂).seq hi₂ fun b s₃ hi₃ hb => ?_
  cases b with
  | false => exact absurd (hb.1.draining (.inl trivial)) (by rw [hb.2]; exact nofun)
  | true =>
    refine (wp_decrementActiveHandler hi₃ hb.1 nofun).seq hi₃ fun _ s₄ hi₄ h₄ => ?_
    refine (wp_signalDrainedLocked hi₄ h₄.1 nofun).seq hi₄ fun _ s₅ _ h₅ => ?_
    exact (wp_unlock h₅).mono fun _ _ h₆ => h₆.weaken False.elim

theorem tame_stopAdmission : Tame srv stopAdmission := by
  intro t ph s hph hi h
  refine wp_during hi h fun s₁ hi₁ h₁ => ?_
  refine (wp_lock h₁).seq hi₁ fun _ s₂ hi₂ h₂ => ?_
  refine (wp_stopAdmissionLocked hi₂ h₂).seq hi₂ fun _ s₃ hi₃ h₃ => ?_
  refine (wp_signalDrainedLocked hi₃ h₃ hph).seq hi₃ fun _ s₄ _ h₄ => ?_
  exact (wp_unlock h₄).mono fun _ _ h₅ => h₅.weaken False.elim

theorem wp_report (a : Action) (hf : ∀ b, Server.fork a b = none) (hpre : ∀ s, Pre t a s)
    (hstep : ∀ s c b s₁, World.step s t c a = some (b, s₁) → s₁ = s)
    (hrec : ∀ (tr : Trace) s b, (tr.record s a b).share = tr.share ∨
      (tr.record s a b).share = { tr.share with duty := false })
    (h : At t ⟨ph, d, true⟩ holds drains s) : wp srv t (Run.do a)
      (fun _ s' => ∃ d', At t ⟨ph, d', true⟩ holds drains s' ∧ (d = false → d' = false)) s := by
  refine wp_do hf fun s₁ hr _ => ⟨hpre s₁, fun c b s₂ he => ?_⟩
  have h₁ := h.rely hr
  have h₂ : At t ((s₁.trace t).record s₁ a b).share holds drains s₂ := by
    refine h₁.acted he ?_ ?_ <;> obtain ⟨_, hs, rfl⟩ := World.exec_eq he <;> rw [hstep _ _ _ _ hs]
  rcases hrec (s₁.trace t) s₁ b with hsame | hclear
  · rw [hsame, show (s₁.trace t).share = _ from h₁.share] at h₂
    exact ⟨d, h₂, id⟩
  · rw [hclear, show (s₁.trace t).share = _ from h₁.share] at h₂
    exact ⟨false, h₂, fun _ => rfl⟩

theorem wp_reportActive (h : At t ⟨ph, d, true⟩ holds drains s) : wp srv t (Run.do .activeLoad)
    (fun _ s' => ∃ d', At t ⟨ph, d', true⟩ holds drains s' ∧ (d = false → d' = false)) s := by
  refine wp_report _ (fun _ => rfl) (fun _ => trivial) ?_ ?_ h
  · rintro s c b s₁ ⟨⟩
    rfl
  · intro tr s b
    simp only [Trace.record]
    split
    · exact .inl rfl
    · exact .inr rfl

theorem wp_reportConnections (h : At t ⟨ph, d, true⟩ holds drains s) :
    wp srv t (Run.do .connectionsLen)
      (fun _ s' => ∃ d', At t ⟨ph, d', true⟩ holds drains s' ∧ (d = false → d' = false)) s := by
  refine wp_report _ (fun _ => rfl) (fun _ => trivial) ?_ ?_ h
  · rintro s c b s₁ ⟨⟩
    rfl
  · intro tr s b
    simp only [Trace.record]
    split
    · exact .inl rfl
    · exact .inr rfl

theorem wp_nextBatch (hi : Base s) (h : At t sh false drains s) :
    wp srv t (nextBatch deadline) (fun _ => At t sh false drains) s := by
  refine (wp_pass .now trivial hi h).seq hi fun now s₁ hi₁ h₁ => ?_
  split
  · refine (wp_pass (.isClosed .drained) trivial hi₁ h₁).seq hi₁ fun b s₂ hi₂ h₂ => ?_
    cases b with
    | true => exact h₂
    | false =>
      refine (wp_lock h₂).seq hi₂ fun _ s₃ hi₃ h₃ => ?_
      refine (wp_pass .takeBatch trivial hi₃ h₃).seq hi₃ fun batch s₄ _ h₄ => ?_
      exact (wp_unlock h₄).bind
  · exact h₁

theorem wp_wakePending (hi : Base s) (h : At t sh false drains s) :
    wp srv t (wakePending wakeAt deadline rounds) (fun _ => At t sh false drains) s := by
  have hwake : ∀ batch s₁, Base s₁ → At t sh false drains s₁ →
      wp srv t (wakeBatch wakeAt deadline batch) (fun _ => At t sh false drains) s₁ :=
    fun batch s₁ hi₁ h₁ => wp_neutral (neutral_waiting wakeBatch_waiting) hi₁
      fun _ _ hr _ => h₁.rely hr
  induction rounds generalizing s with
  | zero => exact (wp_nextBatch hi h).seq hi fun batch s₁ hi₁ h₁ => hwake batch s₁ hi₁ h₁
  | succ rounds ih =>
    refine (wp_nextBatch hi h).seq hi fun batch s₁ hi₁ h₁ => ?_
    split
    · exact h₁
    · refine (hwake batch s₁ hi₁ h₁).seq hi₁ fun failures s₂ hi₂ h₂ => ?_
      exact (ih hi₂ h₂).bind

theorem tame_beginDrain : Tame srv (beginDrain deadline) := by
  intro t ph s hph hi h
  refine wp_during hi h fun s₁ hi₁ h₁ => ?_
  refine (wp_lock h₁).seq hi₁ fun _ s₂ hi₂ h₂ => ?_
  refine (wp_stopAdmissionLocked hi₂ h₂).seq hi₂ fun _ s₃ hi₃ h₃ => ?_
  refine (wp_reportActive h₃).seq hi₃ fun active s₄ hi₄ ⟨_, h₄, _⟩ => ?_
  refine (wp_reportConnections h₄).seq hi₄ fun connections s₅ hi₅ ⟨_, h₅, _⟩ => ?_
  refine (wp_signalDrainedLocked hi₅ h₅ hph).seq hi₅ fun _ s₆ hi₆ h₆ => ?_
  refine (wp_pass .pendingLen trivial hi₆ h₆).seq hi₆ fun rounds s₇ hi₇ h₇ => ?_
  refine (wp_unlock (h₇.weaken False.elim)).seq hi₇ fun _ s₈ hi₈ h₈ => ?_
  refine (wp_pass .now trivial hi₈ h₈).seq hi₈ fun wakeAt s₉ hi₉ h₉ => ?_
  exact (wp_wakePending hi₉ h₉).bind

theorem tame_snapshot : Tame srv snapshot := by
  intro t ph s _ hi h
  refine wp_during hi h fun s₁ hi₁ h₁ => ?_
  refine (wp_lock h₁).seq hi₁ fun _ s₂ hi₂ h₂ => ?_
  refine (wp_reportActive h₂).seq hi₂ fun active s₃ hi₃ ⟨d, h₃, hd⟩ => ?_
  cases hd rfl
  refine (wp_reportConnections h₃).seq hi₃ fun connections s₄ hi₄ ⟨d, h₄, hd⟩ => ?_
  cases hd rfl
  exact (wp_unlock h₄).bind

theorem tame_emits {p : Run α} {Q : α → Prop} (h : Emits n p Q) : Tame srv p :=
  tame_remote (h.handles.mono fun _ => Action.Handles.remote)

theorem wp_finishHandler (hi : Base s) (h : Outside t .admitted s) :
    wp srv t (srv.finishHandler conn state) (fun _ => Outside t .idle) s := by
  refine (wp_prepareHandlerDone hi h).seq hi fun r s₁ hi₁ h₁ => ?_
  obtain ⟨draining, err⟩ := r
  cases draining with
  | false => exact h₁.weaken False.elim
  | true =>
    have hstop : ∀ {α} {p : Run α} {n Q s₂}, Emits n p Q → Base s₂ →
        At t ⟨.admitted, false, false⟩ false True s₂ →
          wp srv t p (fun _ => At t ⟨.admitted, false, false⟩ false True) s₂ :=
      fun hp hi₂ h₂ => wp_neutral (hp.handles.mono fun _ h => Action.Remote.neutral h.remote) hi₂
        fun _ _ hr _ => h₂.rely hr
    refine (hstop (emits_stopDispatch state) hi₁ (h₁.weaken fun _ => rfl)).seq hi₁
      fun state s₂ hi₂ h₂ => ?_
    refine (hstop (emits_do .connClose trivial fun _ => rfl) hi₂ h₂).seq hi₂ fun _ s₃ hi₃ h₃ => ?_
    exact (wp_completeDrainingHandler hi₃ h₃).bind

theorem wp_dispatch (hi : Base s) (h : Outside t .idle s) :
    wp srv t (srv.dispatch conn cmd state) (fun _ => Outside t .idle) s := by
  unfold Server.dispatch
  split
  · exact h
  · refine (wp_beginHandler hi h).seq hi fun admitted s₁ hi₁ h₁ => ?_
    cases admitted with
    | true =>
      refine (tame_emits Server.emits_handle t .admitted s₁ nofun hi₁ h₁).seq hi₁
        fun state s₂ hi₂ h₂ => ?_
      exact wp_finishHandler hi₂ h₂
    | false =>
      exact tame_emits (Server.emits_last (.error _) rfl id state) t .idle s₁ nofun hi₁ h₁

theorem wp_dispatchAll (hi : Base s) (h : Outside t .idle s) :
    wp srv t (srv.dispatchAll conn cmds state) (fun _ => Outside t .idle) s := by
  induction cmds generalizing state s with
  | nil => exact h
  | cons cmd cmds ih =>
    exact (wp_dispatch hi h).seq hi fun state s₁ hi₁ h₁ => ih hi₁ h₁

theorem tame_drainUntil : Tame srv srv.drainUntil :=
  (tame_do .now trivial).bind fun _ => tame_beginDrain.bind fun _ => tame_ret _

theorem serverRules (srv : Server) : ServerRules srv fun _ p => Tame srv p where
  ret := tame_ret
  bind := fun hp hf => hp.bind hf
  remote := tame_remote
  accept := fun _ => tame_accept
  connectionClosed := fun _ => tame_connectionClosed
  stopAdmission := tame_stopAdmission
  drainUntil := tame_drainUntil
  snapshot := tame_snapshot

theorem wp_perform (job : Job) (hi : Base s) (h : Outside t .idle s) :
    wp srv t (srv.perform job) (fun _ => Outside t .idle) s := by
  have htame : ∀ {α} {p : Run α}, Tame srv p → Tame srv (p >>= fun _ => pure ()) :=
    fun hp => hp.bind fun _ => tame_ret _
  cases job with
  | acceptConnection conn =>
    exact htame ((serverRules srv).acceptConnection conn) t .idle s nofun hi h
  | connectionClosed conn counted =>
    exact (serverRules srv).connectionEnded conn counted t .idle s nofun hi h
  | serve conn commands => exact (wp_dispatchAll hi h).bind
  | stopAdmission => exact tame_stopAdmission t .idle s nofun hi h
  | beginDrain deadline => exact htame tame_beginDrain t .idle s nofun hi h
  | snapshot => exact htame tame_snapshot t .idle s nofun hi h
  | start => exact htame (serverRules srv).start t .idle s nofun hi h
  | close => exact htame (serverRules srv).close t .idle s nofun hi h

theorem wp_run (job : Job) (hi : Base s) (h : Outside t .idle s) :
    wp srv t (srv.run job) (fun _ => Outside t .idle) s :=
  (wp_pass (.note (.job job)) trivial hi h).seq hi fun _ _ hi₁ h₁ => wp_perform job hi₁ h₁

theorem base_init : Base Server.init where
  balance := .zero fun _ => rfl
  unstarted := fun _ => rfl
  started := Nat.zero_le 1
  drained := fun h => absurd h (lt_irrefl 0)
  once := Nat.zero_le 1
  duty := fun h => absurd h.draining nofun
  calling := nofun

theorem verified (srv : Server) : (outline srv).Verified Server.init where
  init := base_init
  fresh := fun _ => ⟨rfl, ⟨nofun, nofun⟩, False.elim⟩
  entry := by
    rintro p ⟨job, rfl⟩ u s hi h
    exact wp_run job hi h
  ready := fun p u s hi h hp => wp_neutral hp hi fun _ _ hr _ => h.rely hr

end Slizen.Proxy.Drain
