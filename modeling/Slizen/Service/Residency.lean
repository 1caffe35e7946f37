import Slizen.Service.Runs

namespace Slizen.Service
set_option autoImplicit true

open Interleaving Machine

variable {svc : Service} {direct : Bool} {content : Key → Option Bytes} {g : svc.machine.Config}
  {s s' : World} {t : Nat} {a : Action} {b : a.Resp} {c : Choice}

/-- Every key of the protected tier is HOT, or a goroutine has still to apply its demotion. -/
def Backed (s : World) : Prop := ∀ k e, s.find .cache k = some e →
  s.tracker.isHot k = true ∨ ∃ u, k ∈ (s.trace u).debt.owed

theorem Backed.act (hi : svc.Base s) (h : Backed s) (hp : svc.Pre t a s)
    (he : World.exec t a c s = some (b, s')) : Backed s' := by
  intro k e hf
  rcases find_cases hp he hf with ⟨e₀, hf₀, -⟩ | ⟨-, hput⟩
  · rcases h k e₀ hf₀ with hh | ⟨u, hk⟩
    · by_cases hh' : s'.tracker.isHot k = true
      · exact .inl hh'
      · cases a with
        | tracker op =>
          refine .inr ⟨t, ?_⟩
          rw [World.exec_trace he]
          obtain ⟨tr, hrun, rfl⟩ := World.exec_tracker he
          exact List.mem_append_right _
            (mem_demotedKeys.2 ((TrackerOp.run_reports hi.tracker hrun).demoted hh hh'))
        | _ =>
          obtain ⟨s₁, hs, rfl⟩ := World.exec_eq_some.1 he
          exact absurd (by rw [(World.step_frame hs).tracker nofun]; exact hh) hh'
    · by_cases hu : u = t
      · subst hu
        rcases (s.trace u).owed_record { s' with past := s.past } b hk with hr | rfl | ⟨job, rfl⟩
        · refine .inr ⟨u, ?_⟩
          rw [World.exec_trace he]
          exact hr
        · rcases hp.2 with hnone | hhot
          · rw [hnone] at hf₀
            cases hf₀
          · exact (hhot.of_exec he nofun).imp_right fun ⟨v, _, hv⟩ => ⟨v, hv⟩
        · rw [show s.trace u = {} from hp.1] at hk
          cases hk
      · refine .inr ⟨u, ?_⟩
        rw [World.exec_trace_of_ne he hu]
        exact hk
  · have hhot : s'.HotBut t k := by
      rcases hput with ⟨ttl, rfl, -⟩ | ⟨rfl, -⟩
      · exact (hp.2.2.2.2 rfl).of_exec he nofun
      · exact hp.2.2.2.2.of_exec he nofun
    exact hhot.imp_right fun ⟨v, _, hv⟩ => ⟨v, hv⟩

/-- Whatever calls run side by side, a key of the protected tier is HOT, or an operation that is
still under way has a demotion of it to apply. When no operation is under way the protected tier
holds HOT keys only. -/
theorem protected_hot (h : svc.Reachable direct content g) :
    (∀ k e, g.state.find .cache k = some e → g.state.tracker.isHot k = true ∨
      ∃ t a p, g.pool[t]? = some (.act a p) ∧ k ∈ (g.state.trace t).debt.owed) ∧
    (g.Quiescent → ∀ k e, g.state.find .cache k = some e → g.state.tracker.isHot k = true) := by
  have hj : Backed g.state := by
    refine h.invariant (J := Backed) ?_ (fun hi hj hp he => hj.act hi hp he) ?_
    · intro k e hf
      cases hf
    · intro e s s' _ hj _ he
      rw [World.env_eq he]
      exact hj
  refine ⟨fun k e hf => (hj k e hf).imp_right ?_, fun hq k e hf => (hj k e hf).resolve_right ?_⟩
  · rintro ⟨t, hk⟩
    have hd : (g.state.trace t).debt ≠ {} := fun hd => by simp [hd] at hk
    obtain ⟨a, p, hp⟩ := h.unfinished t hd
    exact ⟨t, a, p, hp, hk⟩
  · rintro ⟨t, hk⟩
    simp [h.settled hq t] at hk

theorem protected_hot_sample : samplePromoted.Quiescent ∧
    (samplePromoted.state.find .cache [7]).isSome = true ∧
      samplePromoted.state.tracker.isHot [7] = true := by
  have hq : samplePromoted.Quiescent := by decide +kernel
  have hf : (samplePromoted.state.find .cache [7]).isSome = true := by decide +kernel
  obtain ⟨e, he⟩ := Option.isSome_iff_exists.1 hf
  exact ⟨hq, hf, (protected_hot samplePromoted_reachable).2 hq [7] e he⟩

def Apart (s : World) : Prop := ∀ tier k e, s.find tier k = some e → s.find tier.other k = none

theorem Tier.other_ne (tier : Tier) : tier.other ≠ tier := by cases tier <;> nofun

theorem find_other_cases (hp : svc.Pre t a s) (he : World.exec t a c s = some (b, s'))
    (hf : s'.find tier k = some e) :
    (∃ e₀, s.find tier k = some e₀) ∨ s'.find tier.other k = none := by
  rcases find_cases hp he hf with ⟨e₀, hf₀, -⟩ | ⟨-, ⟨ttl, rfl, -⟩ | ⟨rfl, -⟩⟩
  · exact .inl ⟨e₀, hf₀⟩
  · exact .inr ((World.exec_find_of_ne he (Tier.other_ne tier) k).trans hp.2.2.2.1)
  · obtain ⟨-, -, rfl, hnone, -⟩ := hp
    exact .inr ((World.exec_find_of_ne he (Tier.other_ne .cache) k).trans hnone)

theorem Apart.act (h : Apart s) (hp : svc.Pre t a s) (he : World.exec t a c s = some (b, s')) :
    Apart s' := by
  intro tier k e hf
  rcases find_other_cases hp he hf with ⟨e₀, hf₀⟩ | hnone
  · rw [Option.eq_none_iff_forall_ne_some]
    intro e' hf'
    rcases find_other_cases hp he hf' with ⟨e₀', hf₀'⟩ | hnone
    · rw [h tier k e₀ hf₀] at hf₀'
      cases hf₀'
    · cases tier <;> exact absurd (hnone.symm.trans hf) nofun
  · exact hnone

/-- At no point of a run is a key in both tiers, whether its stripe is held or not. -/
theorem one_tier (h : svc.Reachable direct content g) (k : Key) :
    g.state.find .cache k = none ∨ g.state.find .probationary k = none := by
  have hj : Apart g.state := by
    refine h.invariant (J := Apart) ?_ (fun _ hj hp he => hj.act hp he) ?_
    · intro tier k e hf
      cases tier <;> cases hf
    · intro e s s' _ hj _ he
      rw [World.env_eq he]
      exact hj
  cases hf : g.state.find .cache k with
  | none => exact .inl rfl
  | some e => exact .inr (hj .cache k e hf)

theorem one_tier_sample : (sampleRead.state.find .probationary [7]).isSome = true ∧
    sampleRead.state.find .cache [7] = none := by
  have hf : (sampleRead.state.find .probationary [7]).isSome = true := by decide +kernel
  refine ⟨hf, (one_tier sampleRead_reachable [7]).resolve_right fun hnone => ?_⟩
  rw [hnone] at hf
  cases hf

/-- How the item of an entry was installed: within the limits of its key's policy, as long ago as
`l` says. -/
structure Lodged (svc : Service) (k : Key) (v : Blob) (expiresAt : Time) (l : Lodging) : Prop where
  key : Hotness.Tracker.Trackable k
  mode : (svc.policy k).mode = .cache
  size : estimateSize k v ≤ (svc.policy k).maxItemBytes
  maxLocalTTL : expiresAt ≤ l.time + svc.cfg.cache.maxLocalTTL
  policyTTL : expiresAt ≤ l.time + (svc.policy k).maxLocalTTL
  pttl : 0 < v.source.pttl → expiresAt ≤ l.time + v.source.pttl
  pttl_ne : v.source.pttl ≠ 0
  window : l.candidate = true → 0 < svc.cfg.hotness.window →
    expiresAt ≤ l.time + svc.cfg.hotness.window

theorem Fits.lodged {tier : Tier} (h : svc.Fits tier k v ttl) (hm : (svc.policy k).mode = .cache)
    (now : Time) : svc.Lodged k v (now + ttl) ⟨now, tier = .probationary⟩ where
  key := h.key
  mode := hm
  size := h.size
  maxLocalTTL := Int.add_le_add_left h.maxLocalTTL now
  policyTTL := Int.add_le_add_left h.policyTTL now
  pttl := fun hp => Int.add_le_add_left (h.pttl hp) now
  pttl_ne := h.pttl_ne
  window := fun hc hw => Int.add_le_add_left (h.window (of_decide_eq_true hc) hw) now

def Stores (tier : Tier) (k : Key) : (Σ a, Action.Resp a) → Prop
  | ⟨.cache tier' (.put key _ _), true⟩ => tier' = tier ∧ key = k
  | ⟨.cache tier' (.putUntil key _ _), true⟩ => tier' = tier ∧ key = k
  | _ => False

theorem Stores.action (h : Stores tier k ⟨a, b⟩) : (∃ v ttl, a = .cache tier (.put k v ttl)) ∨
    ∃ v exp, a = .cache tier (.putUntil k v exp) := by
  unfold Stores at h
  split at h
  · rename_i heq
    cases heq
    obtain ⟨rfl, rfl⟩ := h
    exact .inl ⟨_, _, rfl⟩
  · rename_i heq
    cases heq
    obtain ⟨rfl, rfl⟩ := h
    exact .inr ⟨_, _, rfl⟩
  · exact h.elim

def FindsCandidate : (Σ a, Action.Resp a) → Prop
  | ⟨.cache .probationary (.get _), some _⟩ => True
  | _ => False

theorem lodged_put {stored : Bool} (hp : svc.Pre t (.cache tier (.put k v ttl)) s)
    (he : World.exec t (.cache tier (.put k v ttl)) c s = some (stored, s'))
    (hf : s'.find tier k = some e) :
    stored = false ∧ s.find tier k = some e ∧ s'.past.lodged tier k = s.past.lodged tier k ∨
      stored = true ∧ e.value = v ∧ svc.Lodged k e.value e.expiresAt (s'.past.lodged tier k) ∧
        s'.past.lodged tier k = ⟨s.clock, tier = .probationary⟩ := by
  obtain ⟨rfl, rfl⟩ := World.exec_cache he
  simp only [World.find, Function.update_self, CacheOp.run] at hf
  rcases Cache.find_put hf with ⟨-, -, -, hstored, rfl⟩ | ⟨hno, hf₀⟩
  · have hl : (Past.record s t (.cache tier (.put k v ttl))
        ((s.tiers tier).put k v ttl s.clock).1).lodged tier k =
        ⟨s.clock, tier = .probationary⟩ := by
      simp [Past.record, Past.recordLodged, Past.lodge, hstored]
    exact .inr ⟨hstored, rfl, hl.symm ▸ Fits.lodged hp.2.2.1 hp.2.1.1 s.clock, hl⟩
  · have hrefused : ((s.tiers tier).put k v ttl s.clock).1 = false := by
      rw [Cache.put, if_pos (hno.resolve_left (absurd rfl))]
    refine .inl ⟨hrefused, hf₀, ?_⟩
    simp [Past.record, Past.recordLodged, CacheOp.run, hrefused]

theorem lodged_putUntil {stored : Bool} (hp : svc.Pre t (.cache tier (.putUntil k v exp)) s)
    (he : World.exec t (.cache tier (.putUntil k v exp)) c s = some (stored, s'))
    (hf : s'.find tier k = some e) :
    stored = false ∧ s.find tier k = some e ∧ s'.past.lodged tier k = s.past.lodged tier k ∨
      stored = true ∧ tier = .cache ∧ v = e.value ∧ exp = e.expiresAt ∧
        (s.trace t).carried = some ⟨k, e.value, e.expiresAt, s'.past.lodged tier k⟩ := by
  obtain ⟨-, ⟨l, hl⟩, rfl, -⟩ := hp
  obtain ⟨rfl, rfl⟩ := World.exec_cache he
  simp only [World.find, Function.update_self, CacheOp.run] at hf
  rcases Cache.find_putUntil hf with ⟨-, -, -, hstored, rfl⟩ | ⟨hno, hf₀⟩
  · refine .inr ⟨hstored, rfl, rfl, rfl, hl.trans ?_⟩
    simp [Past.record, Past.recordLodged, Past.lodge, CacheOp.run, hl, hstored]
  · have hrefused : ((s.tiers .cache).putUntil k v exp s.clock).1 = false := by
      rw [Cache.putUntil, if_pos (hno.resolve_left (absurd rfl))]
    refine .inl ⟨hrefused, hf₀, ?_⟩
    simp [Past.record, Past.recordLodged, CacheOp.run, hl, hrefused]

/-- Where the item of an entry comes from after one action: it was there, it has just been
installed, or it is a candidate that was carried over. -/
theorem lodged_cases (hp : svc.Pre t a s) (he : World.exec t a c s = some (b, s'))
    (hf : s'.find tier k = some e) :
    (¬ Stores tier k ⟨a, b⟩ ∧ ∃ e₀, s.find tier k = some e₀ ∧ e.Same e₀ ∧
      s'.past.lodged tier k = s.past.lodged tier k) ∨
    (∃ ttl, (⟨a, b⟩ : Σ a, Action.Resp a) = ⟨.cache tier (.put k e.value ttl), true⟩ ∧
      svc.Lodged k e.value e.expiresAt (s'.past.lodged tier k) ∧
      s'.past.lodged tier k = ⟨s.clock, tier = .probationary⟩) ∨
    tier = .cache ∧
      (⟨a, b⟩ : Σ a, Action.Resp a) = ⟨.cache .cache (.putUntil k e.value e.expiresAt), true⟩ ∧
      (s.trace t).carried = some ⟨k, e.value, e.expiresAt, s'.past.lodged tier k⟩ := by
  by_cases hput : ∃ v ttl, a = .cache tier (.put k v ttl)
  · obtain ⟨v, ttl, rfl⟩ := hput
    rcases lodged_put hp he hf with ⟨rfl, hf₀, hl⟩ | ⟨rfl, rfl, hl, hc⟩
    · exact .inl ⟨id, e, hf₀, .refl e, hl⟩
    · exact .inr (.inl ⟨ttl, rfl, hl, hc⟩)
  by_cases huntil : ∃ v exp, a = .cache tier (.putUntil k v exp)
  · obtain ⟨v, exp, rfl⟩ := huntil
    rcases lodged_putUntil hp he hf with ⟨rfl, hf₀, hl⟩ | ⟨rfl, rfl, rfl, rfl, hc⟩
    · exact .inl ⟨id, e, hf₀, .refl e, hl⟩
    · exact .inr (.inr ⟨rfl, rfl, hc⟩)
  · have hl := World.exec_lodged he (fun v ttl ha => hput ⟨v, ttl, ha⟩)
      fun v exp ha => huntil ⟨v, exp, ha⟩
    rcases find_cases hp he hf with ⟨e₀, hf₀, hs⟩ | ⟨-, ⟨ttl, ha, -⟩ | ⟨ha, -⟩⟩
    · exact .inl ⟨fun hstores => hstores.action.elim hput huntil, e₀, hf₀, hs, hl⟩
    · exact absurd ⟨_, ttl, ha⟩ hput
    · exact absurd ⟨_, _, ha⟩ huntil

/-- Every entry, and every candidate that a goroutine has in its hands, was installed within the
limits. -/
structure Resident (svc : Service) (s : World) : Prop where
  entry : ∀ tier k e, s.find tier k = some e →
    svc.Lodged k e.value e.expiresAt (s.past.lodged tier k)
  candidate : ∀ k e, s.find .probationary k = some e →
    (s.past.lodged .probationary k).candidate = true
  carried : ∀ u x, (s.trace u).carried = some x → svc.Lodged x.key x.value x.expiresAt x.lodging

theorem Resident.entry_act (h : svc.Resident s) (hp : svc.Pre t a s)
    (he : World.exec t a c s = some (b, s')) (hf : s'.find tier k = some e) :
    svc.Lodged k e.value e.expiresAt (s'.past.lodged tier k) ∧
      (tier = .probationary → (s'.past.lodged tier k).candidate = true) := by
  rcases lodged_cases hp he hf with ⟨-, e₀, hf₀, hs, hl⟩ | ⟨ttl, -, hl, hc⟩ | ⟨ht, -, hc⟩
  · rw [hs.value, hs.expiresAt, hl]
    refine ⟨h.entry tier k e₀ hf₀, ?_⟩
    rintro rfl
    exact h.candidate k e₀ hf₀
  · rw [hc] at hl ⊢
    exact ⟨hl, fun ht => decide_eq_true ht⟩
  · refine ⟨h.carried t _ hc, ?_⟩
    rw [ht]
    exact nofun

theorem carried_source (he : World.exec t a c s = some (b, s'))
    (hc : (s'.trace u).carried = some x) :
    (s.trace u).carried = some x ∧ (u = t → ¬ FindsCandidate ⟨a, b⟩) ∨
      u = t ∧ ∃ e item, s.find .probationary x.key = some e ∧
        x = ⟨x.key, e.value, e.expiresAt, s.past.lodged .probationary x.key⟩ ∧
        (⟨a, b⟩ : Σ a, Action.Resp a) = ⟨.cache .probationary (.get x.key), some item⟩ ∧
        item.value = x.value ∧ item.expiresAt = x.expiresAt := by
  by_cases hu : u = t
  · subst hu
    rw [World.exec_trace he] at hc
    cases a with
    | cache tier op =>
      have hb := (World.exec_cache he).1
      cases op with
      | get key =>
        cases b with
        | none => exact .inl ⟨hc, fun _ => by cases tier <;> exact id⟩
        | some item =>
          obtain ⟨e, hf, hitem, -⟩ := Cache.getLocked_hit hb.symm
          cases tier with
          | probationary =>
            subst hitem
            cases hc
            exact .inr ⟨rfl, e, _, hf, rfl, rfl, rfl, rfl⟩
          | cache => exact .inl ⟨hc, fun _ => id⟩
      | getStale key grace => cases b <;> exact .inl ⟨hc, fun _ => by cases tier <;> exact id⟩
      | _ => exact .inl ⟨hc, fun _ => by cases tier <;> exact id⟩
    | stripe σ op => cases op <;> first | exact .inl ⟨hc, fun _ => id⟩ | cases hc
    | group op =>
      refine .inl ⟨?_, fun _ => id⟩
      cases op with
      | wait f deadline =>
        simp only [Trace.record, Trace.recordGroup] at hc
        cases b with
        | done e => exact hc
        | result r shared =>
          cases r with
          | error e => exact hc
          | ok value =>
            dsimp only at hc
            split at hc <;> exact hc
      | _ => exact hc
    | upstream op => cases op <;> exact .inl ⟨hc, fun _ => id⟩
    | note n => cases n <;> first | exact .inl ⟨hc, fun _ => id⟩ | cases hc
    | _ => exact .inl ⟨hc, fun _ => id⟩
  · rw [World.exec_trace_of_ne he hu] at hc
    exact .inl ⟨hc, fun h => absurd h hu⟩

theorem Resident.act (h : svc.Resident s) (hp : svc.Pre t a s)
    (he : World.exec t a c s = some (b, s')) : svc.Resident s' where
  entry := fun tier k e hf => (h.entry_act hp he hf).1
  candidate := fun k e hf => (h.entry_act hp he hf).2 rfl
  carried := by
    intro u x hc
    rcases carried_source he hc with ⟨hc₀, -⟩ | ⟨-, e, -, hf, hx, -⟩
    · exact h.carried u x hc₀
    · rw [hx]
      exact h.entry .probationary x.key e hf

theorem Reachable.resident (h : svc.Reachable direct content g) : svc.Resident g.state := by
  refine h.invariant (J := svc.Resident) ?_ (fun _ hj hp he => hj.act hp he) ?_
  · refine ⟨fun tier k e hf => ?_, fun k e hf => ?_, nofun⟩
    · cases tier <;> cases hf
    · cases hf
  · intro e s s' _ hj _ he
    rw [World.env_eq he]
    exact ⟨hj.entry, hj.candidate, hj.carried⟩

/-- In every run of a service with an accepted configuration each entry keeps the limits of its
key's policy: its size, and the expiry counted from the installation of its value, which a
promotion does not repeat. -/
theorem residency_limits (hv : svc.cfg.validate = []) (h : svc.Reachable direct content g)
    (tier : Tier) (k : Key) (e : Entry) (hf : g.state.find tier k = some e) :
    let d := svc.policy k
    let l := g.state.past.lodged tier k
    let p := e.value.source.pttl
    (k ≠ [] ∧ k.length ≤ 1024) ∧ d.mode = .cache ∧
      ((k.length + e.value.bytes.length + 128 : Nat) : Int) ≤ d.maxItemBytes ∧
      e.expiresAt ≤ l.time + min svc.cfg.cache.maxLocalTTL d.maxLocalTTL ∧
      (0 < p → e.expiresAt ≤ l.time + p) ∧ p ≠ 0 ∧
      (l.candidate = true → e.expiresAt ≤ l.time + svc.cfg.hotness.window) ∧
      (tier = .probationary → l.candidate = true) := by
  intro d l p
  have hj := h.resident
  have hl := hj.entry tier k e hf
  refine ⟨hl.key, hl.mode, hl.size, ?_, hl.pttl, hl.pttl_ne, fun hc => hl.window hc ?_, ?_⟩
  · rcases min_choice svc.cfg.cache.maxLocalTTL d.maxLocalTTL with hm | hm
    · rw [hm]
      exact hl.maxLocalTTL
    · rw [hm]
      exact hl.policyTTL
  · exact ((Config.accepted hv).hotness svc.floorLog).window_pos
  · rintro rfl
    exact hj.candidate k e hf

/-- The promoted item still expires with the window in which it became a candidate. -/
theorem residency_limits_sample : ∃ e, samplePromoted.state.find .cache [7] = some e ∧
    e.expiresAt ≤ (samplePromoted.state.past.lodged .cache [7]).time +
      sample.cfg.hotness.window := by
  have hv : sample.cfg.validate = [] := by decide +kernel
  have hf : (samplePromoted.state.find .cache [7]).isSome = true := by decide +kernel
  have hc : (samplePromoted.state.past.lodged .cache [7]).candidate = true := by decide +kernel
  obtain ⟨e, he⟩ := Option.isSome_iff_exists.1 hf
  obtain ⟨-, -, -, -, -, -, hw, -⟩ := residency_limits hv samplePromoted_reachable .cache [7] e he
  exact ⟨e, he, hw hc⟩

end Slizen.Service
