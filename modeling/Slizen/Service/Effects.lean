import Slizen.Service.Rules

namespace Slizen
set_option autoImplicit true

/-- What an action can do to the history of its goroutine. -/
inductive Trace.Change (now : Moment) (tr : Trace) : Action → Trace → Prop where
  | look (a : Action) (seen : List Seen) (fetches : List (List Key × Except Error (List Value)))
      (carried : Option Candidate) (debt : Debt) : Change now tr a
        { tr with seen := seen, fetches := fetches, carried := carried, debt := debt }
  | join (key : Key) (epoch : Nat) (policy : Decision) (f : Nat) :
      Change now tr (.group (.doChan key epoch policy)) { tr with joined := some f }
  | forget (key : Key) :
      Change now tr (.group (.forget key)) { tr with forgotten := key :: tr.forgotten }
  | dispatch (command : Bytes) (args keys : List Bytes) (wrote : Option (Key × Bytes)) :
      Change now tr (.upstream (.dispatch command args keys))
        { tr with
          dispatched := some now, sent := keys, wrote := wrote, cleared := [], forgotten := [] }
  | start (job : Job) (h : tr = {}) : Change now tr (.note (.start job))
      { call := some job, job := some job, started := now }
  | finish (reply : Reply) (h : tr.job ≠ none) : Change now tr (.note (.finish reply))
      { tr with job := none, done := some (now, reply) }
  | openWindow (keys : List Key) (h : tr.dispatched = none) :
      Change now tr (.note (.openWindow keys))
        { tr with window := some keys, gated := some keys, opened := true }
  | closeWindow (h : ∀ keys, tr.window = some keys → ∀ k ∈ keys, k ∈ tr.cleared) :
      Change now tr (.note .closeWindow) { tr with window := none }
  | releaseGates : Change now tr (.note .releaseGates) { tr with gated := none }
  | cleared (key : Key) : Change now tr (.note (.cleared key))
      { tr with cleared := key :: tr.cleared, carried := none }
  | clearedAll : Change now tr (.note .clearedAll) { tr with clearedAll := true, carried := none }

/-- The conditions under which the notes are made. -/
structure Trace.Proper (tr : Trace) (a : Action) : Prop where
  start : ∀ job, a = .note (.start job) → tr = {}
  finish : ∀ reply, a = .note (.finish reply) → tr.job ≠ none
  openWindow : ∀ keys, a = .note (.openWindow keys) → tr.dispatched = none
  closeWindow : a = .note .closeWindow → ∀ keys, tr.window = some keys → ∀ k ∈ keys, k ∈ tr.cleared

theorem Trace.record_change (tr : Trace) (s : World) {a : Action} (b : a.Resp) (h : tr.Proper a) :
    tr.Change s.moment a (tr.record s a b) := by
  have hsame : tr.Change s.moment a tr := .look a tr.seen tr.fetches tr.carried tr.debt
  cases a with
  | tracker op => exact .look ..
  | record m => exact .look ..
  | cache tier op =>
    cases op with
    | get key =>
      cases b with
      | none => exact hsame
      | some item =>
        simp only [record, recordCache]
        split <;> exact .look ..
    | getStale key grace =>
      cases b with
      | none => exact hsame
      | some item => exact .look ..
    | _ => exact hsame
  | stripe σ op => cases op <;> exact .look ..
  | group op =>
    cases op with
    | doChan key epoch policy => exact .join key epoch policy _
    | forget key => exact .forget key
    | complete f r => exact hsame
    | wait f deadline =>
      cases b with
      | done e => exact hsame
      | result r shared =>
        cases r with
        | error e => exact hsame
        | ok value =>
          simp only [record, recordGroup]
          cases s.flights[f]? with
          | none => exact hsame
          | some fl => exact .look ..
  | upstream op =>
    cases op with
    | dispatch command args keys => exact .dispatch command args keys _
    | answer i keys => exact .look ..
    | _ => exact hsame
  | note n =>
    cases n with
    | start job => exact .start job (h.start job rfl)
    | finish reply => exact .finish reply (h.finish reply rfl)
    | openWindow keys => exact .openWindow keys (h.openWindow keys rfl)
    | closeWindow => exact .closeWindow (h.closeWindow rfl)
    | releaseGates => exact .releaseGates
    | applied key => exact .look ..
    | cleared key => exact .cleared key
    | clearedAll => exact .clearedAll
  | _ => exact hsame

namespace Service

variable {svc : Service} {s s' : World} {t : Nat} {a : Action} {b : a.Resp} {c : Choice}

def now (s s' : World) : Moment := ⟨s.past.time, s'.origin.version, s'.reqs⟩

theorem Pre.proper (hp : svc.Pre t a s) : (s.trace t).Proper a where
  start := by
    rintro job rfl
    exact hp.1
  finish := by
    rintro reply rfl
    obtain ⟨⟨j, hj, -⟩, -⟩ := hp
    rw [hj]
    exact nofun
  openWindow := by
    rintro keys rfl
    exact hp.1
  closeWindow := by
    rintro rfl
    exact hp

theorem change (hp : svc.Pre t a s) (h : World.exec t a c s = some (b, s')) :
    (s.trace t).Change (now s s') a (s'.trace t) := by
  rw [World.exec_trace h]
  exact Trace.record_change (s.trace t) { s' with past := s.past } b (Pre.proper hp)

theorem trace_cases (hp : svc.Pre t a s) (h : World.exec t a c s = some (b, s')) (u : Nat) :
    s'.trace u = s.trace u ∨ u = t ∧ (s.trace u).Change (now s s') a (s'.trace u) := by
  by_cases hu : u = t
  · subst hu
    exact .inr ⟨rfl, change hp h⟩
  · exact .inl (World.exec_trace_of_ne h hu)

end Service

namespace Trace.Change

variable {now : Moment} {tr tr' : Trace} {a : Action} (h : Change now tr a tr')
include h

theorem cleared_cases (hk : k ∈ tr'.cleared) :
    k ∈ tr.cleared ∧ tr'.dispatched = tr.dispatched ∨
      a = .note (.cleared k) ∧ tr'.dispatched = tr.dispatched := by
  cases h with
  | start job h => cases hk
  | dispatch command args keys wrote => cases hk
  | cleared key =>
    rcases List.mem_cons.1 hk with rfl | hk
    · exact .inr ⟨rfl, rfl⟩
    · exact .inl ⟨hk, rfl⟩
  | _ => exact .inl ⟨hk, rfl⟩

theorem clearedAll_cases (hk : tr'.clearedAll = true) :
    tr.clearedAll = true ∨ a = .note .clearedAll := by
  cases h with
  | start job h => cases hk
  | clearedAll => exact .inr rfl
  | _ => exact .inl hk

theorem forgotten_cases (hk : k ∈ tr'.forgotten) :
    k ∈ tr.forgotten ∧ tr'.dispatched = tr.dispatched ∨
      a = .group (.forget k) ∧ tr'.dispatched = tr.dispatched := by
  cases h with
  | start job h => cases hk
  | dispatch command args keys wrote => cases hk
  | forget key =>
    rcases List.mem_cons.1 hk with rfl | hk
    · exact .inr ⟨rfl, rfl⟩
    · exact .inl ⟨hk, rfl⟩
  | _ => exact .inl ⟨hk, rfl⟩

theorem dispatched_cases (hd : tr'.dispatched = some d) :
    tr.dispatched = some d ∧ tr'.sent = tr.sent ∧ tr'.wrote = tr.wrote ∨
      d = now ∧ tr'.cleared = [] ∧ tr'.forgotten = [] ∧
        ∃ command args, a = .upstream (.dispatch command args tr'.sent) := by
  cases h with
  | start job h => cases hd
  | dispatch command args keys wrote =>
    cases hd
    exact .inr ⟨rfl, rfl, rfl, command, args, rfl⟩
  | _ => exact .inl ⟨hd, rfl, rfl⟩

theorem window_cases (hd : tr.dispatched = some d)
    (hw : tr.window = some keys) (hk : k ∈ keys) : tr'.window = some keys ∨ k ∈ tr'.cleared := by
  cases h with
  | start job h =>
    rw [h] at hd
    cases hd
  | openWindow keys' h =>
    rw [h] at hd
    cases hd
  | closeWindow h => exact .inr (h keys hw k hk)
  | _ => exact .inl hw

theorem call_cases :
    tr'.call = tr.call ∧ tr'.started = tr.started ∨
      tr = {} ∧ ∃ job, a = .note (.start job) ∧
        tr' = { call := some job, job := some job, started := now } := by
  cases h with
  | start job h => exact .inr ⟨h, job, rfl, rfl⟩
  | _ => exact .inl ⟨rfl, rfl⟩

theorem job_cases :
    tr'.job = tr.job ∧ tr'.done = tr.done ∨
      (tr = {} ∧ tr'.done = none ∧ ∃ job, a = .note (.start job) ∧ tr'.job = some job) ∨
      ∃ reply, a = .note (.finish reply) ∧ tr.job ≠ none ∧ tr'.job = none ∧
        tr'.done = some (now, reply) := by
  cases h with
  | start job h => exact .inr (.inl ⟨h, rfl, job, rfl, rfl⟩)
  | finish reply h => exact .inr (.inr ⟨reply, rfl, h, rfl, rfl⟩)
  | _ => exact .inl ⟨rfl, rfl⟩

theorem joined_cases (hj : tr'.joined = some f) :
    tr.joined = some f ∨ ∃ key epoch policy, a = .group (.doChan key epoch policy) := by
  cases h with
  | start job h => cases hj
  | join key epoch policy f' => exact .inr ⟨key, epoch, policy, rfl⟩
  | _ => exact .inl hj

theorem gated_cases (hg : tr'.gated = some keys) :
    tr.gated = some keys ∨ a = .note (.openWindow keys) := by
  cases h with
  | start job h => cases hg
  | openWindow keys' h =>
    cases hg
    exact .inr rfl
  | releaseGates => cases hg
  | _ => exact .inl hg

theorem opened (ho : tr'.opened = false) : tr.opened = false := by
  cases h with
  | start job h => rw [h]
  | openWindow keys h => cases ho
  | _ => exact ho

theorem underway (hj : ∀ j, tr.job = some j → tr.call = some j ∧ tr.done = none) :
    ∀ j, tr'.job = some j → tr'.call = some j ∧ tr'.done = none := by
  cases h with
  | start job h => exact fun j hj => ⟨hj, rfl⟩
  | finish reply h => exact nofun
  | _ => exact hj

end Trace.Change

/-- A later state of the origin remembers every version of an earlier one. -/
structure Origin.Later (o o' : Origin) : Prop where
  version : o.version ≤ o'.version
  content : ∀ v k, v ≤ o.version → o'.content v k = o.content v k

theorem Origin.Later.refl (o : Origin) : o.Later o := ⟨le_rfl, fun _ _ _ => rfl⟩

theorem Origin.later_apply (o : Origin) (updates : List (Key × Option Bytes)) :
    o.Later (o.apply updates) :=
  ⟨Nat.le_succ _, fun _ _ hv => if_pos hv⟩

/-- What a goroutine can get hold of, and what is known of it at that moment. -/
inductive World.Sees (s : World) (t : Nat) : Seen → Prop where
  | tier (h : s.find tier key = some e) (ttl : Time) : Sees s t ⟨.tier, key, ⟨e.value, true, ttl⟩⟩
  | flight (hj : (s.trace t).joined = some f)
      (h : s.flights[f]? = some ⟨key, dups, some (.ok value)⟩) :
      Sees s t ⟨.flight, key, value⟩
  | upstream (ticket v : Nat) (pttl : Time) (key : Key) (hs : (s.trace t).started.version ≤ v)
      (hv : v ≤ s.origin.version) (hq : (s.trace t).started.reqs ≤ ticket) :
      Sees s t ⟨.upstream, key, s.origin.read ticket v pttl key⟩

namespace Service

variable {svc : Service} {s s' : World} {t : Nat} {a : Action} {b : a.Resp} {c : Choice} {u : Nat}
  {k : Key}

theorem grows (hi : svc.Base s) (hp : svc.Pre t a s) (h : World.exec t a c s = some (b, s'))
    (u : Nat) : Grows u s s' := by
  have hr := hi.rely_of_act hp h (Nat.succ_ne_self t)
  have hc : s'.contexts = s.contexts := by
    obtain ⟨s₁, hs, rfl⟩ := World.exec_eq_some.1 h
    exact (World.step_frame hs).contexts
  exact { hr.toGrows with contexts := fun e he => hc ▸ he }

theorem now_le (hg : Grows u s s') (m : Moment) (hm : m.Le s.moment) : m.Le (now s s') :=
  ⟨hm.time, hm.version.trans hg.version, hm.reqs.trans hg.reqs⟩

theorem now_moment (h : World.exec t a c s = some (b, s')) : (now s s').Le s'.moment ∧
    (now s s').time < s'.moment.time := by
  obtain ⟨s₁, hs, rfl⟩ := World.exec_eq_some.1 h
  have hp := (World.step_frame hs).past
  have ht : (Past.record s₁ t a b).time = s.past.time + 1 := by rw [Past.record_time, hp]
  exact ⟨⟨by rw [World.moment, ht]; exact Nat.le_succ _, le_rfl, le_rfl⟩,
    by rw [World.moment, ht]; exact Nat.lt_succ_self _⟩

theorem find_cases (hp : svc.Pre t a s) (h : World.exec t a c s = some (b, s'))
    (hf : s'.find tier k = some e) :
    (∃ e₀, s.find tier k = some e₀ ∧ e.Same e₀) ∨ s.Owns t (cacheEpochStripe k) ∧
      ((∃ ttl, a = .cache tier (.put k e.value ttl) ∧ svc.Installs s t k e.value) ∨
        a = .cache tier (.putUntil k e.value e.expiresAt) ∧
          ∃ l, (s.trace t).carried = some ⟨k, e.value, e.expiresAt, l⟩) := by
  cases a with
  | cache tier' op =>
    obtain ⟨rfl, rfl⟩ := World.exec_cache h
    by_cases ht : tier = tier'
    · subst ht
      simp only [World.find, Function.update_self] at hf
      rcases CacheOp.run_find hf with he | ⟨v, ttl, rfl, -, rfl⟩ | ⟨v, exp, rfl, -, rfl⟩
      · exact .inl he
      · exact .inr ⟨hp.1, .inl ⟨ttl, rfl, hp.2.1⟩⟩
      · exact .inr ⟨hp.1, .inr ⟨rfl, hp.2.1⟩⟩
    · simp only [World.find, Function.update_of_ne ht] at hf
      exact .inl ⟨e, hf, .refl e⟩
  | _ =>
    obtain ⟨s₁, hs, rfl⟩ := World.exec_eq_some.1 h
    simp only [World.find, (World.step_frame hs).tiers nofun] at hf
    exact .inl ⟨e, hf, .refl e⟩

theorem seen_cases (hp : svc.Pre t a s) (h : World.exec t a c s = some (b, s'))
    (hx : x ∈ (s'.trace u).seen) : x ∈ (s.trace u).seen ∨ u = t ∧ s.Sees u x := by
  by_cases hu : u = t
  · subst hu
    have htr := World.exec_trace h
    rw [htr] at hx
    cases a with
    | cache tier op =>
      have hb := (World.exec_cache h).1
      cases op with
      | get key =>
        cases b with
        | none => exact .inl hx
        | some item =>
          obtain ⟨e, he, hitem, -⟩ := Cache.getLocked_hit hb.symm
          have hx' : x ∈ ⟨.tier, key, item.toValue⟩ :: (s.trace u).seen := by
            simp only [Trace.record, Trace.recordCache] at hx
            split at hx <;> exact hx
          subst hitem
          rcases List.mem_cons.1 hx' with rfl | hx'
          · exact .inr ⟨rfl, .tier he _⟩
          · exact .inl hx'
      | getStale key grace =>
        cases b with
        | none => exact .inl hx
        | some item =>
          obtain ⟨e, he, rfl, -⟩ := Cache.getLocked_hit hb.symm
          rcases List.mem_cons.1 hx with rfl | hx
          · exact .inr ⟨rfl, .tier he _⟩
          · exact .inl hx
      | _ => exact .inl hx
    | stripe σ op => cases op <;> exact .inl hx
    | group op =>
      cases op with
      | wait f deadline =>
        obtain ⟨s₁, hs, rfl⟩ := World.exec_group h
        obtain ⟨rfl, hw⟩ := World.stepGroup_wait hs
        rcases hw with ⟨e, rfl, -⟩ | ⟨key, dups, r, hfl, rfl⟩
        · exact .inl hx
        · cases r with
          | error e => exact .inl hx
          | ok value =>
            simp only [Trace.record, Trace.recordGroup, hfl] at hx
            rcases List.mem_cons.1 hx with rfl | hx
            · exact .inr ⟨rfl, .flight hp hfl⟩
            · exact .inl hx
      | _ => exact .inl hx
    | upstream op =>
      cases op with
      | answer i keys =>
        obtain ⟨s₁, hs, rfl⟩ := World.exec_upstream h
        obtain ⟨rfl, ⟨e, rfl⟩ | ⟨l, hl, hbounds, rfl⟩⟩ := World.stepUpstream_answer hs
        · exact .inl hx
        · rcases List.mem_append.1 hx with hx | hx
          · obtain ⟨n, hn⟩ := List.mem_iff_getElem?.1 hx
            rw [List.getElem?_zipWith] at hn
            cases hk : keys[n]? with
            | none => simp [hk] at hn
            | some key =>
              rw [List.getElem?_zipWith, hk] at hn
              cases hv : l[n]? with
              | none => simp [hv] at hn
              | some r =>
                simp only [hv, Option.some.injEq] at hn
                subst hn
                have hr := hbounds r (List.mem_of_getElem? hv)
                exact .inr ⟨rfl, .upstream _ _ _ _ (hp.2.1.trans hr.1) hr.2 hp.2.2⟩
          · exact .inl hx
      | _ => exact .inl hx
    | note n =>
      cases n with
      | start job => cases hx
      | _ => exact .inl hx
    | _ => exact .inl hx
  · rw [World.exec_trace_of_ne h hu] at hx
    exact .inl hx

theorem owns_cases (h : World.exec t a c s = some (b, s')) (ho : s'.Owns u σ) :
    s.Owns u σ ∨ u = t ∧ a = .stripe σ .lock := by
  cases a with
  | stripe τ op =>
    obtain ⟨st, hst, rfl⟩ := World.exec_stripe h
    by_cases hτ : σ = τ
    · subst hτ
      simp only [World.Owns, Function.update_self] at ho
      cases op with
      | lock =>
        obtain ⟨-, heq⟩ := Option.ite_none_right_eq_some.1 hst
        cases heq
        exact .inr ⟨(Option.some.inj ho).symm, rfl⟩
      | unlock =>
        obtain ⟨-, heq⟩ := Option.ite_none_right_eq_some.1 hst
        cases heq
        cases ho
      | _ =>
        cases hst
        exact .inl ho
    · simp only [World.Owns, Function.update_of_ne hτ] at ho
      exact .inl ho
  | _ =>
    obtain ⟨s₁, hs, rfl⟩ := World.exec_eq_some.1 h
    simp only [World.Owns, (World.step_frame hs).stripes (by simp)] at ho
    exact .inl ho

theorem gates_cases (h : World.exec t a c s = some (b, s')) (hg : s'.gates σ = some u) :
    s.gates σ = some u ∨ u = t ∧ a = .gate σ .send := by
  cases a with
  | gate τ op =>
    obtain ⟨g, hrun, rfl⟩ := World.exec_gate h
    by_cases hτ : σ = τ
    · subst hτ
      simp only [Function.update_self] at hg
      cases op with
      | send =>
        simp only [GateOp.run] at hrun
        split at hrun
        · obtain ⟨e, -, he⟩ := Option.map_eq_some_iff.1 hrun
          cases he
          exact .inl hg
        · obtain ⟨-, heq⟩ := Option.ite_none_right_eq_some.1 hrun
          cases heq
          exact .inr ⟨(Option.some.inj hg).symm, rfl⟩
      | receive =>
        obtain ⟨-, heq⟩ := Option.ite_none_left_eq_some.1 hrun
        cases heq
        cases hg
    · simp only [Function.update_of_ne hτ] at hg
      exact .inl hg
  | _ =>
    obtain ⟨s₁, hs, rfl⟩ := World.exec_eq_some.1 h
    exact .inl (((World.step_frame hs).gates (by simp)) ▸ hg)

theorem gates_kept (hi : svc.Base s) (hp : svc.Pre t a s) (h : World.exec t a c s = some (b, s'))
    (hg : s.gates σ = some u) : s'.gates σ = some u ∨ u = t ∧ a = .gate σ .receive := by
  by_cases hu : u = t
  · subst hu
    cases a with
    | gate τ op =>
      by_cases hτ : σ = τ
      · subst hτ
        cases op with
        | send =>
          -- The gate is full, so only the end of the context lets the goroutine go on.
          obtain ⟨g, hrun, rfl⟩ := World.exec_gate h
          simp only [GateOp.run, hg] at hrun
          split at hrun
          · obtain ⟨e, -, he⟩ := Option.map_eq_some_iff.1 hrun
            cases he
            exact .inl (Function.update_self ..)
          · cases hrun
        | receive => exact .inr ⟨rfl, rfl⟩
      · obtain ⟨g, -, rfl⟩ := World.exec_gate h
        exact .inl ((Function.update_of_ne hτ ..).trans hg)
    | _ =>
      obtain ⟨s₁, hs, rfl⟩ := World.exec_eq_some.1 h
      exact .inl ((congrFun ((World.step_frame hs).gates (by simp)) σ).trans hg)
  · exact .inl (((hi.rely_of_act hp h hu).gates σ).1 hg)

theorem origin_cases (h : World.exec t a c s = some (b, s')) :
    s'.origin = s.origin ∨
      ∃ command args keys updates, a = .upstream (.dispatch command args keys) ∧
      s'.origin = s.origin.apply updates ∧ ∀ x ∈ updates, x.1 ∈ keys := by
  cases a with
  | upstream op =>
    cases op with
    | dispatch command args keys =>
      obtain ⟨s₁, hs, rfl⟩ := World.exec_upstream h
      obtain ⟨updates, hk, -, rfl, -⟩ := World.stepUpstream_dispatch hs
      cases updates with
      | none => exact .inl rfl
      | some l => exact .inr ⟨command, args, keys, l, rfl, rfl, hk⟩
    | answer i keys =>
      obtain ⟨s₁, hs, rfl⟩ := World.exec_upstream h
      exact .inl (by rw [(World.stepUpstream_answer hs).1])
    | issue keys =>
      obtain ⟨s₁, hs, rfl⟩ := World.exec_upstream h
      exact .inl (by rw [(World.stepUpstream_issue hs).2])
    | passThrough command args =>
      obtain ⟨s₁, hs, rfl⟩ := World.exec_upstream h
      simp only [World.stepUpstream] at hs
      split at hs <;> cases hs
      exact .inl rfl
    | ping =>
      obtain ⟨s₁, hs, rfl⟩ := World.exec_upstream h
      simp only [World.stepUpstream] at hs
      split at hs <;> cases hs <;> exact .inl rfl
    | close =>
      obtain ⟨s₁, hs, rfl⟩ := World.exec_upstream h
      cases hs
      exact .inl rfl
  | _ =>
    obtain ⟨s₁, hs, rfl⟩ := World.exec_eq_some.1 h
    exact .inl ((World.step_frame hs).origin (by simp))

theorem origin_later (h : World.exec t a c s = some (b, s')) : s.origin.Later s'.origin := by
  rcases origin_cases h with he | ⟨_, _, _, updates, -, he, -⟩
  · rw [he]
    exact .refl _
  · rw [he]
    exact s.origin.later_apply updates

theorem wrote_current {b : Except Error RedisReply × Source}
    (h : World.exec t (.upstream (.dispatch command args keys)) c s = some (b, s'))
    (hw : (s'.trace t).wrote = some (k, bytes)) : s'.origin.current k = some bytes := by
  rw [World.exec_trace h] at hw
  obtain ⟨s₁, hs, rfl⟩ := World.exec_upstream h
  obtain ⟨updates, -, hack, rfl, -⟩ := World.stepUpstream_dispatch hs
  rw [hack (k, bytes) hw]
  simp [Origin.current, Origin.apply]

theorem result_cases (hp : svc.Pre t a s) (h : World.exec t a c s = some (b, s'))
    (hf : s'.flights[f]? = some ⟨k, dups, some (.ok v)⟩) :
    (∃ dups', s.flights[f]? = some ⟨k, dups', some (.ok v)⟩) ∨
      ∃ k', (s.trace t).job = some (.flight f k') ∧ ⟨.upstream, k', v⟩ ∈ (s.trace t).seen := by
  cases a with
  | group op =>
    obtain ⟨s₁, hs, rfl⟩ := World.exec_group h
    cases op with
    | doChan key epoch policy =>
      rcases World.stepGroup_doChan hs with ⟨-, -, rfl⟩ | ⟨-, -, rfl⟩
      · simp only [List.getElem?_modify] at hf
        cases hfl : s.flights[f]? with
        | none => simp [hfl] at hf
        | some fl =>
          obtain ⟨key', dups', r'⟩ := fl
          simp only [hfl, Option.map_eq_map, Option.map_some, Option.some.injEq] at hf
          split at hf <;> cases hf <;> exact .inl ⟨_, rfl⟩
      · dsimp only at hf
        rw [List.getElem?_append] at hf
        split at hf
        · exact .inl ⟨_, hf⟩
        · rw [List.getElem?_singleton] at hf
          split at hf <;> cases hf
    | wait g deadline =>
      obtain ⟨rfl, -⟩ := World.stepGroup_wait hs
      exact .inl ⟨_, hf⟩
    | complete g r =>
      obtain ⟨fl, hfl, rfl⟩ := World.stepGroup_complete hs
      by_cases hg : g = f
      · subst hg
        have hlt := (List.getElem?_eq_some_iff.1 hfl).1
        simp only [List.getElem?_set_self hlt, Option.some.injEq, Flight.mk.injEq] at hf
        obtain ⟨k', hj, hseen⟩ := hp
        exact .inr ⟨k', hj, hseen v hf.2.2⟩
      · simp only [List.getElem?_set_ne hg] at hf
        exact .inl ⟨_, hf⟩
    | forget key =>
      cases World.stepGroup_forget hs
      exact .inl ⟨_, hf⟩
  | _ =>
    obtain ⟨s₁, hs, rfl⟩ := World.exec_eq_some.1 h
    have hsame := ((World.step_frame hs).group nofun).2
    exact .inl ⟨dups, by rw [← hsame]; exact hf⟩

theorem born_eq (h : World.exec t a c s = some (b, s')) (hf : s.FlightOf f key) :
    s'.past.born f = s.past.born f := by
  obtain ⟨fl, hfl, -⟩ := hf
  have hlt := (List.getElem?_eq_some_iff.1 hfl).1
  obtain ⟨s₁, hs, rfl⟩ := World.exec_eq_some.1 h
  have hp := (World.step_frame hs).past
  cases a with
  | group op =>
    cases op with
    | doChan key' epoch policy =>
      show s₁.past.recordBorn s₁.moment (.group (.doChan key' epoch policy)) b f = _
      rw [hp]
      simp only [Past.recordBorn]
      have hs' : s.stepGroup t c (.doChan key' epoch policy) = some (b, s₁) := hs
      rcases World.stepGroup_doChan hs' with ⟨-, hl, -⟩ | ⟨-, rfl, -⟩
      · rw [hl]
        rfl
      · have hne : f ≠ s.flights.length := by omega
        simp [hne]
    | _ => exact congrFun (congrArg Past.born hp) f
  | _ => exact congrFun (congrArg Past.born hp) f

theorem group_cases (h : World.exec t a c s = some (b, s')) (hg : s'.group k = some f) :
    s.group k = some f ∧ a ≠ .group (.forget k) ∨
      s'.past.born f = now s s' ∧ s'.FlightOf f k ∧
        ∃ epoch policy, a = .group (.doChan k epoch policy) := by
  cases a with
  | group op =>
    obtain ⟨s₁, hs, rfl⟩ := World.exec_group h
    rcases World.stepGroup_group hs hg with hold | ⟨hnone, rfl, hof, epoch, policy, rfl⟩
    · refine .inl ⟨hold, ?_⟩
      rintro heq
      cases heq
      rw [World.stepGroup_forget hs] at hg
      simp at hg
    · refine .inr ⟨?_, hof, epoch, policy, rfl⟩
      have hp : s₁.past = s.past := by rw [World.stepGroup_frame hs]
      rcases World.stepGroup_doChan hs with ⟨hsome, -, -⟩ | ⟨-, rfl, -⟩
      · rw [hnone] at hsome
        cases hsome
      · simp [Past.record, Past.recordBorn, now, World.moment, hp]
  | _ =>
    obtain ⟨s₁, hs, rfl⟩ := World.exec_eq_some.1 h
    exact .inl ⟨((World.step_frame hs).group (by simp)).1 ▸ hg, (by simp)⟩

theorem carried_cases (hi : svc.Base s) (hp : svc.Pre t a s)
    (h : World.exec t a c s = some (b, s')) (hc : (s'.trace u).carried = some x)
    (ho : s'.Owns u (cacheEpochStripe x.key)) :
    (∃ e, s.find .probationary x.key = some e ∧ e.value = x.value) ∨
      (s.trace u).carried = some x ∧ s.Owns u (cacheEpochStripe x.key) ∧
        a ≠ .note (.cleared x.key) ∧ a ≠ .note .clearedAll := by
  by_cases hu : u = t
  · subst hu
    have htr := World.exec_trace h
    rw [htr] at hc
    have hkeep (hc' : (s.trace u).carried = some x)
        (ha : a ≠ .stripe (cacheEpochStripe x.key) .lock ∧ a ≠ .note (.cleared x.key) ∧
          a ≠ .note .clearedAll) :
        (s.trace u).carried = some x ∧ s.Owns u (cacheEpochStripe x.key) ∧
          a ≠ .note (.cleared x.key) ∧ a ≠ .note .clearedAll :=
      ⟨hc', (owns_cases h ho).resolve_right fun hx => ha.1 hx.2, ha.2⟩
    cases a with
    | cache tier op =>
      have hb := (World.exec_cache h).1
      cases op with
      | get key =>
        cases b with
        | none => exact .inr (hkeep hc (by simp))
        | some item =>
          obtain ⟨e, he, hitem, -⟩ := Cache.getLocked_hit hb.symm
          simp only [Trace.record, Trace.recordCache] at hc
          split at hc
          · rename_i hprob
            subst hprob hitem
            cases hc
            exact .inl ⟨e, he, rfl⟩
          · exact .inr (hkeep hc (by simp))
      | getStale key grace => cases b <;> exact .inr (hkeep hc (by simp))
      | _ => exact .inr (hkeep hc (by simp))
    | stripe σ op =>
      cases op with
      | lock => cases hc
      | _ => exact .inr (hkeep hc (by simp))
    | group op =>
      cases op with
      | wait f deadline =>
        refine .inr (hkeep ?_ (by simp))
        simp only [Trace.record, Trace.recordGroup] at hc
        cases b with
        | done e => exact hc
        | result r shared =>
          cases r with
          | error e => exact hc
          | ok value =>
            dsimp only at hc
            split at hc <;> exact hc
      | _ => exact .inr (hkeep hc (by simp))
    | upstream op => cases op <;> exact .inr (hkeep hc (by simp))
    | note n =>
      cases n with
      | start job => cases hc
      | cleared key => cases hc
      | clearedAll => cases hc
      | _ => exact .inr (hkeep hc (by simp))
    | _ => exact .inr (hkeep hc (by simp))
  · rw [World.exec_trace_of_ne h hu] at hc
    have hown := ((hi.rely_of_act hp h hu).owner _).2 ho
    -- Whoever notes that the key is cleared would have to hold the same stripe.
    refine .inr ⟨hc, hown, ?_, ?_⟩
    · rintro rfl
      exact hu (Option.some.inj (hown.symm.trans hp.owns))
    · rintro rfl
      exact hu (Option.some.inj (hown.symm.trans (hp.2.2 _).1))

end Service
end Slizen
