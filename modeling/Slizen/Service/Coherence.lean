import Slizen.Service.Gates

namespace Slizen
set_option autoImplicit true

open Interleaving Machine

theorem Moment.Le.trans {m₁ m₂ m₃ : Moment} (h : m₁.Le m₂) (h' : m₂.Le m₃) : m₁.Le m₃ :=
  ⟨h.time.trans h'.time, h.version.trans h'.version, h.reqs.trans h'.reqs⟩

theorem Origin.current_apply (o : Origin) {k : Key} {updates : List (Key × Option Bytes)}
    (h : ∀ x ∈ updates, x.1 ≠ k) : (o.apply updates).current k = o.current k := by
  have hnone : updates.lookup k = none := by
    rw [List.lookup_eq_none_iff]
    intro x hx
    simpa using (h x hx).symm
  simp [Origin.current, Origin.apply, hnone]

theorem World.env_later {s s' : World} (h : s.env e = some s') :
    ∃ clock contexts origin, s.origin.Later origin ∧
      s' = { s with clock := clock, contexts := contexts, origin := origin } := by
  refine ⟨s'.clock, s'.contexts, s'.origin, ?_, World.env_eq h⟩
  cases e with
  | tick d =>
    cases h
    exact .refl _
  | cancel t expired =>
    simp only [env] at h
    split at h <;> cases h
    exact .refl _
  | originWrite key value =>
    cases h
    exact s.origin.later_apply _

/-- The goroutine is a purge that has emptied the tiers of this key. -/
def World.Purged (s : World) (t : Nat) (k : Key) : Prop :=
  (s.trace t).call = some (.purgeCache []) ∧ (s.trace t).clearedAll = true ∨
    (s.trace t).call = some (.purgeCache k) ∧ k ∈ (s.trace t).cleared

/-- A payload is newer than the beginning of a purge of its key: it comes from a read that was sent
since then, or from an acknowledged write of the key that has not returned before. -/
def World.Since (s : World) (t : Nat) (k : Key) (v : Blob) : Prop :=
  match v.source with
  | .read ticket _ _ => (s.trace t).started.reqs ≤ ticket
  | .write ticket version => ∃ w d job, (s.trace w).dispatched = some d ∧ d.reqs = ticket ∧
      d.version = version ∧ (s.trace w).call = some job ∧ k ∈ job.writeKeys ∧
      (s.trace w).wrote = some (k, v.bytes) ∧
      ∀ m reply, (s.trace w).done = some (m, reply) → (s.trace t).started.time ≤ m.time

namespace Service

variable {svc : Service} {direct : Bool} {content : Key → Option Bytes} {g : svc.machine.Config}
  {s s' : World} {t u : Nat} {k : Key} {a : Action} {b : a.Resp} {c : Choice} {d d' : Moment}

theorem purged_call (h : s.Purged t k) : (s.trace t).call ≠ none := by
  rcases h with ⟨hcall, -⟩ | ⟨hcall, -⟩ <;> rw [hcall] <;> nofun

section

variable (hp : svc.Pre t a s) (he : World.exec t a c s = some (b, s'))
include hp he

theorem dispatched_kept (hd : (s.trace u).dispatched = some d) :
    (s'.trace u).dispatched = some d ∧ (s'.trace u).call = (s.trace u).call ∧
      (s'.trace u).wrote = (s.trace u).wrote ∧
      ∀ k ∈ (s.trace u).cleared, k ∈ (s'.trace u).cleared := by
  rcases trace_cases hp he u with hsame | ⟨rfl, hc⟩
  · rw [hsame]
    exact ⟨hd, rfl, rfl, fun _ hk => hk⟩
  · generalize s'.trace u = tr' at hc
    cases hc with
    | start job h =>
      rw [h] at hd
      cases hd
    | dispatch command args keys wrote =>
      have hnone := hp.2.2.1
      rw [hd] at hnone
      cases hnone
    | cleared key => exact ⟨hd, rfl, rfl, fun _ hk => List.mem_cons_of_mem _ hk⟩
    | _ => exact ⟨hd, rfl, rfl, fun _ hk => hk⟩

theorem cleared_before (hd : (s'.trace u).dispatched = some d) (hk : k ∈ (s'.trace u).cleared) :
    (s.trace u).dispatched = some d ∧
      (k ∈ (s.trace u).cleared ∨ u = t ∧ a = .note (.cleared k)) := by
  rcases trace_cases hp he u with hsame | ⟨rfl, hc⟩
  · rw [hsame] at hd hk
    exact ⟨hd, .inl hk⟩
  · rcases hc.cleared_cases hk with ⟨hk₀, heq⟩ | ⟨ha, heq⟩
    · exact ⟨heq.symm.trans hd, .inl hk₀⟩
    · exact ⟨heq.symm.trans hd, .inr ⟨rfl, ha⟩⟩

theorem dispatched_before (hd : (s'.trace u).dispatched = some d) :
    ((s.trace u).dispatched = some d ∧ (s'.trace u).sent = (s.trace u).sent ∧
      (s'.trace u).wrote = (s.trace u).wrote) ∨
      u = t ∧ d = now s s' ∧ (s'.trace u).cleared = [] ∧
        ∃ command args, a = .upstream (.dispatch command args (s'.trace u).sent) := by
  rcases trace_cases hp he u with hsame | ⟨rfl, hc⟩
  · rw [hsame] at hd ⊢
    exact .inl ⟨hd, rfl, rfl⟩
  · rcases hc.dispatched_cases hd with hold | ⟨hnow, hcleared, -, hact⟩
    · exact .inl hold
    · exact .inr ⟨rfl, hnow, hcleared, hact⟩

theorem started_kept (hcall : (s.trace u).call ≠ none) :
    (s'.trace u).started = (s.trace u).started ∧ (s'.trace u).call = (s.trace u).call := by
  rcases trace_cases hp he u with hsame | ⟨rfl, hc⟩
  · rw [hsame]
    exact ⟨rfl, rfl⟩
  · rcases hc.call_cases with ⟨hcall', hstarted⟩ | ⟨hnew, -⟩
    · exact ⟨hstarted, hcall'⟩
    · rw [hnew] at hcall
      exact absurd rfl hcall

theorem purged_before (h : s'.Purged u k) :
    s.Purged u k ∨ u = t ∧ (a = .note (.cleared k) ∨ a = .note .clearedAll) := by
  rcases trace_cases hp he u with hsame | ⟨rfl, hc⟩
  · unfold World.Purged at h
    rw [hsame] at h
    exact .inl h
  · have hcall : ∀ job, (s'.trace u).call = some job → ((s'.trace u).clearedAll = true ∨
        k ∈ (s'.trace u).cleared) → (s.trace u).call = some job := by
      intro job hj hk
      rcases hc.call_cases with ⟨hsame, -⟩ | ⟨-, job', -, hnew⟩
      · exact hsame.symm.trans hj
      · rw [hnew] at hk
        rcases hk with hk | hk <;> cases hk
    rcases h with ⟨hj, hall⟩ | ⟨hj, hk⟩
    · rcases hc.clearedAll_cases hall with hall₀ | ha
      · exact .inl (.inl ⟨hcall _ hj (.inl hall), hall₀⟩)
      · exact .inr ⟨rfl, .inr ha⟩
    · rcases hc.cleared_cases hk with ⟨hk₀, -⟩ | ⟨ha, -⟩
      · exact .inl (.inr ⟨hcall _ hj (.inr hk), hk₀⟩)
      · exact .inr ⟨rfl, .inl ha⟩

end

/-- The histories of the goroutines fit each other and the origin. A write that has cleared a key
since its dispatch is older than the epoch of the key, and than a later write that holds its gate;
as long as it has not, its window is open. -/
structure Chronicle (s : World) : Prop extends Orderly s where
  started : ∀ t, (s.trace t).started.Le s.moment
  dispatched : ∀ t d, (s.trace t).dispatched = some d → d.Le s.moment
  write : ∀ t d, (s.trace t).dispatched = some d →
    ∃ command args, (s.trace t).call = some (.executeWrite command args (s.trace t).sent)
  cleared : ∀ t d k, (s.trace t).dispatched = some d → k ∈ (s.trace t).cleared →
    d.version ≤ (s.past.bump (cacheEpochStripe k)).version
  purged : ∀ t k, s.Purged t k →
    (s.trace t).started.reqs ≤ (s.past.bump (cacheEpochStripe k)).reqs
  queued : ∀ t u d d' k, s.gates (cacheEpochStripe k) = some u → (s.trace u).dispatched = some d' →
    (s.trace t).dispatched = some d → k ∈ (s.trace t).cleared → d.version ≤ d'.version
  wrote : ∀ t d k bytes, (s.trace t).dispatched = some d → (s.trace t).wrote = some (k, bytes) →
    s.origin.content d.version k = some bytes
  window : ∀ t d k, (s.trace t).dispatched = some d → k ∈ (s.trace t).sent →
    k ∈ (s.trace t).cleared ∨ ∃ keys, (s.trace t).window = some keys ∧ k ∈ keys

namespace Chronicle

section

variable (hp : svc.Pre t a s) (he : World.exec t a c s = some (b, s')) (h : Chronicle s)
include hp he h

theorem started_act (hi : svc.Base s) (u : Nat) : (s'.trace u).started.Le s'.moment := by
  have hnow := now_moment he
  have hold : (s.trace u).started.Le s'.moment :=
    (now_le (grows hi hp he u) _ (h.started u)).trans hnow.1
  rcases trace_cases hp he u with hsame | ⟨rfl, hc⟩
  · rw [hsame]
    exact hold
  · rcases hc.call_cases with ⟨-, hsame⟩ | ⟨-, job, -, hnew⟩
    · rw [hsame]
      exact hold
    · rw [hnew]
      exact hnow.1

theorem dispatched_act (hi : svc.Base s) (hd : (s'.trace u).dispatched = some d) :
    d.Le s'.moment := by
  have hnow := now_moment he
  rcases dispatched_before hp he hd with ⟨hd₀, -⟩ | ⟨-, rfl, -⟩
  · exact (now_le (grows hi hp he u) _ (h.dispatched u d hd₀)).trans hnow.1
  · exact hnow.1

theorem write_act (hd : (s'.trace u).dispatched = some d) :
    ∃ command args, (s'.trace u).call = some (.executeWrite command args (s'.trace u).sent) := by
  rcases dispatched_before hp he hd with ⟨hd₀, hsent, -⟩ | ⟨rfl, -, -, command, args, ha⟩
  · rw [hsent, (dispatched_kept hp he hd₀).2.1]
    exact h.write u d hd₀
  · rcases (change hp he).call_cases with ⟨hcall, -⟩ | ⟨-, job, hstart, -⟩
    · rw [hcall]
      subst ha
      exact ⟨command, args, (h.underway u _ hp.1).1⟩
    · rw [ha] at hstart
      cases hstart

theorem cleared_act (hi : svc.Base s) (hd : (s'.trace u).dispatched = some d)
    (hk : k ∈ (s'.trace u).cleared) : d.version ≤ (s'.past.bump (cacheEpochStripe k)).version := by
  have hgrows := (grows hi hp he u).bump_version (cacheEpochStripe k)
  obtain ⟨hd₀, hk₀ | ⟨rfl, rfl⟩⟩ := cleared_before hp he hd hk
  · exact (h.cleared u d k hd₀ hk₀).trans hgrows
  · exact (hp.dispatched d hd₀).trans hgrows

theorem purged_act (hi : svc.Base s) (hk : s'.Purged u k) :
    (s'.trace u).started.reqs ≤ (s'.past.bump (cacheEpochStripe k)).reqs := by
  have hgrows := (grows hi hp he u).bump_reqs (cacheEpochStripe k)
  have hstarted : (s'.trace u).started = (s.trace u).started := by
    rcases purged_before hp he hk with hk₀ | ⟨rfl, rfl | rfl⟩
    · exact (started_kept hp he (purged_call hk₀)).1
    · rw [World.exec_trace he]
      rfl
    · rw [World.exec_trace he]
      rfl
  rw [hstarted]
  rcases purged_before hp he hk with hk₀ | ⟨rfl, rfl | rfl⟩
  · exact (h.purged u k hk₀).trans hgrows
  · exact hp.started.trans hgrows
  · exact (hp.2.2 _).2.trans hgrows

theorem queued_act {v : Nat} (hg : s'.gates (cacheEpochStripe k) = some v)
    (hd' : (s'.trace v).dispatched = some d') (hd : (s'.trace u).dispatched = some d)
    (hk : k ∈ (s'.trace u).cleared) : d.version ≤ d'.version := by
  obtain ⟨hd₀, hcleared⟩ := cleared_before hp he hd hk
  rcases dispatched_before hp he hd' with ⟨hd₀', -⟩ | ⟨rfl, rfl, -, command, args, ha⟩
  · rcases gates_cases he hg with hg₀ | ⟨rfl, rfl⟩
    · rcases hcleared with hk₀ | ⟨rfl, rfl⟩
      · exact h.queued u v d d' k hg₀ hd₀' hd₀ hk₀
      · rcases hp.job with ⟨-, hgate⟩ | hjob
        · cases hgate.symm.trans hg₀
          cases hd₀.symm.trans hd₀'
          exact le_rfl
        · obtain ⟨_, _, hcall⟩ := h.write u d hd₀
          cases hcall.symm.trans (h.underway u _ hjob).1
    · rw [hp.1] at hd₀'
      cases hd₀'
  · exact (h.dispatched u d hd₀).version.trans (origin_later he).version

theorem wrote_act (hd : (s'.trace u).dispatched = some d)
    (hw : (s'.trace u).wrote = some (k, bytes)) : s'.origin.content d.version k = some bytes := by
  rcases dispatched_before hp he hd with ⟨hd₀, -, hsame⟩ | ⟨rfl, rfl, -, command, args, ha⟩
  · rw [(origin_later he).content d.version k (h.dispatched u d hd₀).version]
    exact h.wrote u d k bytes hd₀ (hsame.symm.trans hw)
  · subst ha
    exact wrote_current he hw

theorem window_act (hd : (s'.trace u).dispatched = some d) (hk : k ∈ (s'.trace u).sent) :
    k ∈ (s'.trace u).cleared ∨ ∃ keys, (s'.trace u).window = some keys ∧ k ∈ keys := by
  rcases dispatched_before hp he hd with ⟨hd₀, hsent, -⟩ | ⟨rfl, -, -, command, args, ha⟩
  · rw [hsent] at hk
    rcases h.window u d k hd₀ hk with hcleared | ⟨keys, hw, hmem⟩
    · exact .inl ((dispatched_kept hp he hd₀).2.2.2 k hcleared)
    · rcases trace_cases hp he u with hsame | ⟨rfl, hc⟩
      · rw [hsame]
        exact .inr ⟨keys, hw, hmem⟩
      · rcases hc.window_cases hd₀ hw hmem with hw' | hcleared
        · exact .inr ⟨keys, hw', hmem⟩
        · exact .inl hcleared
  · generalize (s'.trace u).sent = keys at ha hk
    subst ha
    rw [World.exec_trace he]
    exact .inr ⟨keys, hp.2.1, hk⟩

end

theorem act (h : Chronicle s) (hi : svc.Base s) (hp : svc.Pre t a s)
    (he : World.exec t a c s = some (b, s')) : Chronicle s' where
  toOrderly := h.toOrderly.act hi hp he
  started := h.started_act hp he hi
  dispatched := fun _ _ hd => h.dispatched_act hp he hi hd
  write := fun _ _ hd => h.write_act hp he hd
  cleared := fun _ _ _ hd hk => h.cleared_act hp he hi hd hk
  purged := fun _ _ hk => h.purged_act hp he hi hk
  queued := fun _ _ _ _ _ hg hd' hd hk => h.queued_act hp he hg hd' hd hk
  wrote := fun _ _ _ _ hd hw => h.wrote_act hp he hd hw
  window := fun _ _ _ hd hk => h.window_act hp he hd hk

end Chronicle

/-- A payload that may be in a tier: the origin has held it, after every write that has cleared its
key since, and it is newer than every purge that has. -/
structure Fresh (s : World) (k : Key) (v : Blob) : Prop where
  held : s.origin.content v.source.version k = some v.bytes
  version : v.source.version ≤ s.origin.version
  writes : ∀ t d, (s.trace t).dispatched = some d → k ∈ (s.trace t).cleared →
    d.version ≤ v.source.version
  purges : ∀ t, s.Purged t k → s.Since t k v

/-- What is newer than a purge stays so: a write that was still under way returns later. -/
theorem since_act {v : Blob} (h : Chronicle s) (hp : svc.Pre t a s)
    (he : World.exec t a c s = some (b, s')) (hu : s.Purged u k) (hs : s.Since u k v) :
    s'.Since u k v := by
  have hstarted := (started_kept hp he (purged_call hu)).1
  obtain ⟨bytes, source⟩ := v
  cases source with
  | read ticket version pttl =>
    rw [World.Since, hstarted]
    exact hs
  | write ticket version =>
    obtain ⟨w, d, job, hd, hreqs, hversion, hcall, hk, hwrote, hdone⟩ := hs
    obtain ⟨hd', hcall', hwrote', -⟩ := dispatched_kept hp he hd
    refine ⟨w, d, job, hd', hreqs, hversion, hcall'.trans hcall, hk, hwrote'.trans hwrote, ?_⟩
    intro m reply hm
    rw [hstarted]
    rcases trace_cases hp he w with hsame | ⟨rfl, hc⟩
    · rw [hsame] at hm
      exact hdone m reply hm
    · rcases hc.job_cases with ⟨-, hsame⟩ | ⟨-, hnone, -⟩ | ⟨reply', -, -, -, hnew⟩
      · exact hdone m reply (hsame.symm.trans hm)
      · rw [hnone] at hm
        cases hm
      · cases hnew.symm.trans hm
        exact (h.started u).time

theorem Fresh.act {v : Blob} (hf : Fresh s k v) (h : Chronicle s) (hp : svc.Pre t a s)
    (he : World.exec t a c s = some (b, s')) (ha : a ≠ .note (.cleared k))
    (hall : a ≠ .note .clearedAll) : Fresh s' k v where
  held := ((origin_later he).content _ _ hf.version).trans hf.held
  version := hf.version.trans (origin_later he).version
  writes := by
    intro u d hd hk
    obtain ⟨hd₀, hk₀ | ⟨-, hcleared⟩⟩ := cleared_before hp he hd hk
    · exact hf.writes u d hd₀ hk₀
    · exact absurd hcleared ha
  purges := by
    intro u hu
    rcases purged_before hp he hu with hu₀ | ⟨-, hcleared | hcleared⟩
    · exact since_act h hp he hu₀ (hf.purges u hu₀)
    · exact absurd hcleared ha
    · exact absurd hcleared hall

/-- The origin has held this value of the key, or its absence. -/
structure Vouched (s : World) (k : Key) (v : Value) : Prop where
  version : v.data.source.version ≤ s.origin.version
  content : s.origin.content v.data.source.version k =
    if v.exists? then some v.data.bytes else none

theorem vouched_read (s : World) (k : Key) (hv : v ≤ s.origin.version) :
    Vouched s k (s.origin.read ticket v pttl k) := by
  constructor
  · rw [Origin.read_source]
    exact hv
  · rw [Origin.read_source]
    cases hc : s.origin.content v k with
    | none => simp [Source.version, Origin.read, hc]
    | some bytes => simp [Source.version, Origin.read, hc]

theorem Vouched.later {v : Value} {o : World} (h : Vouched s k v) (hl : s.origin.Later o.origin) :
    Vouched o k v :=
  ⟨h.version.trans hl.version, (hl.content _ _ h.version).trans h.content⟩

/-- What the tiers and the hands of the goroutines hold is fresh. -/
structure Coherent (s : World) : Prop extends Chronicle s where
  replies : ∀ u x, x ∈ (s.trace u).seen → x.via = .upstream → Vouched s x.key x.value
  entry : ∀ tier k e, s.find tier k = some e → Fresh s k e.value
  carried : ∀ u x, (s.trace u).carried = some x → s.Owns u (cacheEpochStripe x.key) →
    Fresh s x.key x.value

/-- A payload that may be installed is fresh: a reply is newer than the epoch of its stripe, and
the value of a write is newer than every write that has passed its gate. -/
theorem Coherent.installs {v : Blob} (h : Coherent s) (hv : svc.Installs s t k v) :
    Fresh s k v := by
  obtain ⟨-, ⟨ticket, version, pttl, hsource, hseen, hversion, hreqs⟩ |
    ⟨d, hd, hwrote, hsource, hgate, hk⟩⟩ := hv
  · have hheld := h.replies t _ hseen rfl
    refine ⟨hheld.content, hheld.version, ?_, ?_⟩
    · intro u d hd hk
      rw [hsource]
      exact (h.cleared u d k hd hk).trans hversion
    · intro u hu
      rw [World.Since, hsource]
      exact (h.purged u k hu).trans hreqs
  · refine ⟨?_, ?_, ?_, ?_⟩
    · rw [hsource]
      exact h.wrote t d k v.bytes hd hwrote
    · rw [hsource]
      exact (h.dispatched t d hd).version
    · intro u d' hd' hk'
      rw [hsource]
      exact h.queued u t d' d k hgate hd hd' hk'
    · intro u _
      rw [World.Since, hsource]
      unfold Trace.writeKeys at hk
      cases hj : (s.trace t).job with
      | none => simp [hj] at hk
      | some job =>
        obtain ⟨hcall, hdone⟩ := h.underway t job hj
        refine ⟨t, d, job, hd, rfl, rfl, hcall, by simpa [hj] using hk, hwrote, ?_⟩
        intro m reply hm
        rw [hdone] at hm
        cases hm

theorem Coherent.replies_act (h : Coherent s) (hp : svc.Pre t a s)
    (he : World.exec t a c s = some (b, s')) (hx : x ∈ (s'.trace u).seen)
    (hvia : x.via = .upstream) : Vouched s' x.key x.value := by
  have hlater := origin_later he
  rcases seen_cases hp he hx with hx₀ | ⟨-, hsees⟩
  · exact (h.replies u x hx₀ hvia).later hlater
  · cases hsees with
    | upstream ticket v pttl key hs hv hq => exact (vouched_read s key hv).later hlater
    | _ => cases hvia

theorem Coherent.cleared_entry {b : Unit} (h : Coherent s) (hp : svc.Pre t (.note (.cleared k)) s)
    (he : World.exec t (.note (.cleared k)) c s = some (b, s')) (hf : s.find tier k = some e) :
    Fresh s' k e.value := by
  obtain ⟨d, hd, hsource⟩ := hp.entries tier e hf
  have hfresh := h.entry tier k e hf
  have hwrite : ∀ u, u = t → ∀ key, (s'.trace u).call ≠ some (.purgeCache key) := by
    rintro u rfl key hcall
    obtain ⟨command, args, hwrite⟩ := h.write u d hd
    rw [(dispatched_kept hp he hd).2.1, hwrite] at hcall
    cases hcall
  have hlater := origin_later he
  refine ⟨(hlater.content _ _ hfresh.version).trans hfresh.held,
    hfresh.version.trans hlater.version, ?_, ?_⟩
  · intro u d' hd' hk
    obtain ⟨hd₀, hk₀ | ⟨rfl, -⟩⟩ := cleared_before hp he hd' hk
    · exact hfresh.writes u d' hd₀ hk₀
    · cases hd.symm.trans hd₀
      rw [hsource]
      exact le_rfl
  · intro u hu
    rcases purged_before hp he hu with hu₀ | ⟨rfl, -⟩
    · exact since_act h.toChronicle hp he hu₀ (hfresh.purges u hu₀)
    · rcases hu with ⟨hcall, -⟩ | ⟨hcall, -⟩ <;> exact absurd hcall (hwrite u rfl _)

theorem Coherent.entry_act (h : Coherent s) (hp : svc.Pre t a s)
    (he : World.exec t a c s = some (b, s')) (hf : s'.find tier k = some e) :
    Fresh s' k e.value := by
  have hc := h.toChronicle
  rcases find_cases hp he hf with ⟨e₀, hf₀, hsame⟩ | ⟨howns, ⟨ttl, rfl, hv⟩ | ⟨rfl, l, hl⟩⟩
  · rw [hsame.value]
    by_cases hcleared : a = .note (.cleared k)
    · subst hcleared
      exact h.cleared_entry hp he hf₀
    · by_cases hall : a = .note .clearedAll
      · subst hall
        rw [hp.2.1 tier k] at hf₀
        cases hf₀
      · exact (h.entry tier k e₀ hf₀).act hc hp he hcleared hall
  · exact (h.installs hv).act hc hp he nofun nofun
  · exact (h.carried t _ hl howns).act hc hp he nofun nofun

theorem carried_uncleared (hp : svc.Pre t a s) (he : World.exec t a c s = some (b, s'))
    (hc : (s'.trace u).carried = some x) (ho : s'.Owns u (cacheEpochStripe x.key)) :
    a ≠ .note (.cleared x.key) ∧ a ≠ .note .clearedAll := by
  have hown : ∀ n, a = .note n → s.Owns t (cacheEpochStripe x.key) → u = t := by
    rintro n rfl hot
    rcases owns_cases he ho with hou | ⟨-, hlock⟩
    · exact Option.some.inj (hou.symm.trans hot)
    · cases hlock
  constructor
  · rintro rfl
    cases hown _ rfl hp.owns
    rw [World.exec_trace he] at hc
    cases hc
  · rintro rfl
    cases hown _ rfl (hp.2.2 _).1
    rw [World.exec_trace he] at hc
    cases hc

theorem Coherent.act (h : Coherent s) (hi : svc.Base s) (hp : svc.Pre t a s)
    (he : World.exec t a c s = some (b, s')) : Coherent s' where
  toChronicle := h.toChronicle.act hi hp he
  replies := fun _ _ hx hvia => h.replies_act hp he hx hvia
  entry := fun _ _ _ hf => h.entry_act hp he hf
  carried := by
    intro u x hx ho
    obtain ⟨hcleared, hall⟩ := carried_uncleared hp he hx ho
    have hfresh : Fresh s x.key x.value := by
      rcases carried_cases hi hp he hx ho with ⟨e, hf, hv⟩ | ⟨hx₀, ho₀, -⟩
      · rw [← hv]
        exact h.entry .probationary x.key e hf
      · exact h.carried u x hx₀ ho₀
    exact hfresh.act h.toChronicle hp he hcleared hall

theorem Coherent.env (h : Coherent s) (he : s.env e = some s') : Coherent s' := by
  obtain ⟨clock, contexts, origin, hl, rfl⟩ := World.env_later he
  have hmoment : ∀ {m : Moment}, m.Le s.moment → m.Le ⟨s.past.time, origin.version, s.reqs⟩ :=
    fun hm => ⟨hm.time, hm.version.trans hl.version, hm.reqs⟩
  have hfresh : ∀ {k v}, Fresh s k v →
      Fresh { s with clock := clock, contexts := contexts, origin := origin } k v := fun hf =>
    ⟨(hl.content _ _ hf.version).trans hf.held, hf.version.trans hl.version, hf.writes, hf.purges⟩
  exact
    { gates := h.gates
      gated := h.gated
      underway := h.underway
      refused := h.refused
      started := fun t => hmoment (h.started t)
      dispatched := fun t d hd => hmoment (h.dispatched t d hd)
      write := h.write
      cleared := h.cleared
      purged := h.purged
      queued := h.queued
      wrote := fun t d k bytes hd hw =>
        (hl.content _ _ (h.dispatched t d hd).version).trans (h.wrote t d k bytes hd hw)
      window := h.window
      replies := fun u x hx hvia => (h.replies u x hx hvia).later hl
      entry := fun tier k e hf => hfresh (h.entry tier k e hf)
      carried := fun u x hx ho => hfresh (h.carried u x hx ho) }

theorem coherent_init (svc : Service) (content : Key → Option Bytes) :
    Coherent (svc.init content) where
  gates := nofun
  gated := nofun
  underway := nofun
  refused := nofun
  started := fun _ => ⟨le_rfl, le_rfl, le_rfl⟩
  dispatched := nofun
  write := nofun
  cleared := nofun
  purged := by
    rintro t k (⟨hcall, -⟩ | ⟨hcall, -⟩) <;> cases hcall
  queued := nofun
  wrote := nofun
  window := nofun
  replies := nofun
  entry := by
    intro tier k e hf
    cases tier <;> cases hf
  carried := nofun

theorem Reachable.coherent (h : svc.Reachable direct content g) : Coherent g.state :=
  h.invariant (J := Coherent) (coherent_init svc content) (fun hi hj hp he => hj.act hi hp he)
    (fun _ hj _ he => hj.env he)

/-- Without other clients the origin's value of a key is the one at any version that no write of
the key is later than. -/
def Attributed (s : World) : Prop := ∀ k v, v ≤ s.origin.version →
  (∀ t d, (s.trace t).dispatched = some d → k ∈ (s.trace t).sent → d.version ≤ v) →
    s.origin.content v k = s.origin.current k

theorem Attributed.act (h : Attributed s) (hp : svc.Pre t a s)
    (he : World.exec t a c s = some (b, s')) : Attributed s' := by
  intro k v hv hw
  have hold : ∀ u d, (s.trace u).dispatched = some d → k ∈ (s.trace u).sent → d.version ≤ v := by
    intro u d hd hk
    have hd' := (dispatched_kept hp he hd).1
    rcases dispatched_before hp he hd' with ⟨-, hsent, -⟩ | ⟨rfl, -, -, command, args, ha⟩
    · exact hw u d hd' (hsent ▸ hk)
    · generalize (s'.trace u).sent = keys at ha
      subst ha
      rw [hp.2.2.1] at hd
      cases hd
  rcases origin_cases he with hsame | ⟨command, args, keys, updates, ha, happly, hkeys⟩
  · rw [hsame] at hv ⊢
    exact h k v hv hold
  · -- The write itself is later than `v` if it names the key.
    rcases Nat.lt_or_ge s.origin.version v with hlt | hle
    · have hversion : v = s'.origin.version := by
        rw [happly] at hv ⊢
        exact Nat.le_antisymm hv hlt
      rw [hversion]
      rfl
    · have hk : k ∉ keys := by
        intro hk
        subst ha
        have htr := World.exec_trace he
        have hversion := hw t (now s s') (by rw [htr]; rfl) (by rw [htr]; exact hk)
        rw [now, happly] at hversion
        exact Nat.not_succ_le_self _ (hversion.trans hle)
      have hne : ∀ x ∈ updates, x.1 ≠ k := by
        rintro x hx rfl
        exact hk (hkeys x hx)
      rw [happly, Origin.current_apply _ hne, (s.origin.later_apply updates).content v k hle]
      exact h k v hle hold

theorem Reachable.attributed (h : svc.Reachable false content g) : Attributed g.state := by
  apply h.invariant (J := Attributed)
  · intro k v hv _
    cases Nat.le_zero.1 hv
    rfl
  · intro t a c b s s' _ hj hp he
    exact hj.act hp he
  · intro e s s' _ hj hdirect he
    cases e with
    | tick d =>
      cases he
      exact hj
    | cancel t expired =>
      simp only [World.env] at he
      split at he <;> cases he
      exact hj
    | originWrite key value => exact absurd rfl (hdirect.resolve_left (by simp) key value)

/-- Cache coherence: in every run in which only writes of the service change the origin, a key that
no write has in its window has the present value of the origin in the tiers, or none. -/
theorem cache_coherence (h : svc.Reachable false content g) (k : Key)
    (hk : ∀ t keys, (g.state.trace t).window = some keys → k ∉ keys) (tier : Tier) (e : Entry)
    (hf : g.state.find tier k = some e) : g.state.origin.current k = some e.value.bytes := by
  have hfresh := h.coherent.entry tier k e hf
  rw [← hfresh.held]
  symm
  apply h.attributed k _ hfresh.version
  intro t d hd hsent
  rcases h.coherent.window t d k hd hsent with hcleared | ⟨keys, hw, hmem⟩
  · exact hfresh.writes t d hd hcleared
  · exact absurd hmem (hk t keys hw)

def reread : sample.machine.Config :=
  (sample.schedule (fun _ => some [0]) pick
    [.call (.get [7]), .go 0 100, .go 1 100, .go 0 100,
      .call (.executeWrite wordSET [[7], [1]] [[7]]), .go 2 200,
      .call (.get [7]), .go 3 100, .go 4 100]).1

theorem cache_coherence_sample : ∃ e, reread.state.find .probationary [7] = some e ∧
    reread.state.origin.current [7] = some e.value.bytes ∧ e.value.bytes = [1] := by
  have hreach : sample.Reachable false (fun _ => some [0]) reread :=
    (schedule_trail pick (by decide)).reach
  have hf : (reread.state.find .probationary [7]).isSome = true := by decide +kernel
  have hcurrent : reread.state.origin.current [7] = some [1] := by decide +kernel
  obtain ⟨e, he⟩ := Option.isSome_iff_exists.1 hf
  have hw := hreach.traces (Q := fun tr => tr.window = none) rfl (by decide +kernel)
  have hsame := cache_coherence hreach [7] (fun t keys h => absurd ((hw t).symm.trans h) nofun)
    .probationary e he
  exact ⟨e, he, hsame, Option.some.inj (hsame.symm.trans hcurrent)⟩

end Service
end Slizen
