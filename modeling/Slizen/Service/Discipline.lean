import Slizen.Interleaving.Outline
import Slizen.Service.Steps

namespace Slizen
set_option autoImplicit true

open Interleaving

def World.Owns (s : World) (t : Nat) (σ : Stripe) : Prop := (s.stripes σ).owner = some t

def World.FlightOf (s : World) (f : Nat) (key : Key) : Prop :=
  ∃ fl, s.flights[f]? = some fl ∧ fl.key = key

/-- The key is HOT, or a goroutine other than `t` has still to apply its demotion. -/
def World.HotBut (s : World) (t : Nat) (k : Key) : Prop :=
  s.tracker.isHot k = true ∨ ∃ u, u ≠ t ∧ k ∈ (s.trace u).debt.owed

/-- A goroutine's own history may only have grown by what it has looked at. -/
structure Trace.Extends (tr tr' : Trace) : Prop where
  job : tr'.job = tr.job
  started : tr'.started = tr.started
  fetches : tr'.fetches = tr.fetches
  opened : tr'.opened = tr.opened
  window : tr'.window = tr.window
  dispatched : tr'.dispatched = tr.dispatched
  wrote : tr'.wrote = tr.wrote
  cleared : tr'.cleared = tr.cleared
  clearedAll : tr'.clearedAll = tr.clearedAll
  forgotten : tr'.forgotten = tr.forgotten
  joined : tr'.joined = tr.joined
  seen : ∀ x ∈ tr.seen, x ∈ tr'.seen

theorem Trace.Extends.refl (tr : Trace) : tr.Extends tr :=
  ⟨rfl, rfl, rfl, rfl, rfl, rfl, rfl, rfl, rfl, rfl, rfl, fun _ h => h⟩

theorem Trace.Extends.trans {tr₁ tr₂ tr₃ : Trace} (h : tr₁.Extends tr₂) (h' : tr₂.Extends tr₃) :
    tr₁.Extends tr₃ where
  job := h'.job.trans h.job
  started := h'.started.trans h.started
  fetches := h'.fetches.trans h.fetches
  opened := h'.opened.trans h.opened
  window := h'.window.trans h.window
  dispatched := h'.dispatched.trans h.dispatched
  wrote := h'.wrote.trans h.wrote
  cleared := h'.cleared.trans h.cleared
  clearedAll := h'.clearedAll.trans h.clearedAll
  forgotten := h'.forgotten.trans h.forgotten
  joined := h'.joined.trans h.joined
  seen := fun x hx => h'.seen x (h.seen x hx)

theorem Trace.Extends.writeKeys {tr tr' : Trace} (h : tr.Extends tr') :
    tr'.writeKeys = tr.writeKeys := by rw [Trace.writeKeys, h.job, Trace.writeKeys]

/-- What a goroutine can count on whatever it and the others do, gates apart. -/
structure Grows (t : Nat) (s s' : World) : Prop where
  version : s.origin.version ≤ s'.origin.version
  reqs : s.reqs ≤ s'.reqs
  epoch : ∀ σ, (s.stripes σ).epoch ≤ (s'.stripes σ).epoch
  bump_version : ∀ σ, (s.past.bump σ).version ≤ (s'.past.bump σ).version
  bump_reqs : ∀ σ, (s.past.bump σ).reqs ≤ (s'.past.bump σ).reqs
  bump : ∀ σ, (s'.stripes σ).epoch = (s.stripes σ).epoch → s'.past.bump σ = s.past.bump σ
  contexts : ∀ e, s.contexts t = some e → s'.contexts t = some e
  flights : ∀ f key, s.FlightOf f key → s'.FlightOf f key

/-- In addition, what it can count on while it only looks at things and follows the tracker. -/
structure Passes (t : Nat) (s s' : World) : Prop extends Grows t s s' where
  gates : ∀ σ, s.gates σ = some t ↔ s'.gates σ = some t
  trace : (s.trace t).Extends (s'.trace t)

/-- In addition, it owes the tracker as much as before. -/
structure Progress (t : Nat) (s s' : World) : Prop extends Passes t s s' where
  debt : (s'.trace t).debt = (s.trace t).debt

/-- In addition, what it can count on for the stripes that it holds: their epochs stand still
and the tiers get no new entry for their keys. -/
structure Quiet (t : Nat) (s s' : World) : Prop extends Progress t s s' where
  owner : ∀ σ, s.Owns t σ ↔ s'.Owns t σ
  held : ∀ σ, s.Owns t σ → (s'.stripes σ).epoch = (s.stripes σ).epoch
  within : ∀ tier k e', s.Owns t (cacheEpochStripe k) → s'.find tier k = some e' →
    ∃ e, s.find tier k = some e ∧ e'.Same e

/-- What the other goroutines do: a key whose stripe is held does not get rid of its HOT state
without somebody who has still to remove it. -/
structure Rely (t : Nat) (s s' : World) : Prop extends Quiet t s s' where
  same : s'.trace t = s.trace t
  hot : ∀ k, s.Owns t (cacheEpochStripe k) → s.HotBut t k → s'.HotBut t k

theorem Grows.refl (t : Nat) (s : World) : Grows t s s :=
  ⟨le_rfl, le_rfl, fun _ => le_rfl, fun _ => le_rfl, fun _ => le_rfl, fun _ _ => rfl, fun _ h => h,
    fun _ _ h => h⟩

theorem Grows.trans (h : Grows t s₁ s₂) (h' : Grows t s₂ s₃) : Grows t s₁ s₃ where
  version := h.version.trans h'.version
  reqs := h.reqs.trans h'.reqs
  epoch := fun σ => (h.epoch σ).trans (h'.epoch σ)
  bump_version := fun σ => (h.bump_version σ).trans (h'.bump_version σ)
  bump_reqs := fun σ => (h.bump_reqs σ).trans (h'.bump_reqs σ)
  bump := by
    intro σ he
    have h₂ : (s₂.stripes σ).epoch = (s₁.stripes σ).epoch :=
      le_antisymm ((h'.epoch σ).trans he.le) (h.epoch σ)
    rw [h'.bump σ (he.trans h₂.symm), h.bump σ h₂]
  contexts := fun e he => h'.contexts e (h.contexts e he)
  flights := fun f key hf => h'.flights f key (h.flights f key hf)

theorem Passes.refl (t : Nat) (s : World) : Passes t s s :=
  ⟨.refl t s, fun _ => .rfl, .refl _⟩

theorem Passes.trans (h : Passes t s₁ s₂) (h' : Passes t s₂ s₃) : Passes t s₁ s₃ :=
  ⟨h.toGrows.trans h'.toGrows, fun σ => (h.gates σ).trans (h'.gates σ), h.trace.trans h'.trace⟩

theorem Progress.refl (t : Nat) (s : World) : Progress t s s := ⟨.refl t s, rfl⟩

theorem Progress.trans (h : Progress t s₁ s₂) (h' : Progress t s₂ s₃) : Progress t s₁ s₃ :=
  ⟨h.toPasses.trans h'.toPasses, h'.debt.trans h.debt⟩

theorem Quiet.refl (t : Nat) (s : World) : Quiet t s s :=
  ⟨.refl t s, fun _ => .rfl, fun _ _ => rfl, fun _ _ e _ h => ⟨e, h, .refl e⟩⟩

theorem Quiet.trans (h : Quiet t s₁ s₂) (h' : Quiet t s₂ s₃) : Quiet t s₁ s₃ where
  toProgress := h.toProgress.trans h'.toProgress
  owner := fun σ => (h.owner σ).trans (h'.owner σ)
  held := fun σ ho => (h'.held σ ((h.owner σ).1 ho)).trans (h.held σ ho)
  within := by
    intro tier k e ho he
    obtain ⟨e₂, he₂, hs⟩ := h'.within tier k e ((h.owner _).1 ho) he
    obtain ⟨e₁, he₁, hs'⟩ := h.within tier k e₂ ho he₂
    exact ⟨e₁, he₁, hs.trans hs'⟩

theorem Rely.refl (t : Nat) (s : World) : Rely t s s := ⟨.refl t s, rfl, fun _ _ h => h⟩

theorem Rely.trans (h : Rely t s₁ s₂) (h' : Rely t s₂ s₃) : Rely t s₁ s₃ where
  toQuiet := h.toQuiet.trans h'.toQuiet
  same := h'.same.trans h.same
  hot := fun k ho hk => h'.hot k ((h.owner _).1 ho) (h.hot k ho hk)

structure Idle (t : Nat) (s : World) (d : Debt := {}) : Prop where
  stripes : ∀ σ, ¬ s.Owns t σ
  debt : (s.trace t).debt = d

structure AtRest (t : Nat) (s : World) : Prop extends Idle t s where
  gates : ∀ σ, s.gates σ ≠ some t

theorem Idle.of_quiet (h : Idle t s d) (hq : Quiet t s s') : Idle t s' d :=
  ⟨fun σ ho => h.stripes σ ((hq.owner σ).2 ho), hq.debt.trans h.debt⟩

theorem AtRest.of_quiet (h : AtRest t s) (hq : Quiet t s s') : AtRest t s' :=
  ⟨h.toIdle.of_quiet hq, fun σ hg => h.gates σ ((hq.gates σ).2 hg)⟩

namespace World

variable {s s' : World}

theorem stepGroup_flights {op : GroupOp} {b : op.Resp} (h : s.stepGroup t c op = some (b, s')) :
    ∀ f key, s.FlightOf f key → s'.FlightOf f key := by
  rintro f key ⟨fl, hfl, hk⟩
  have hlt := (List.getElem?_eq_some_iff.1 hfl).1
  cases op with
  | doChan key' epoch policy =>
    rcases stepGroup_doChan h with ⟨-, -, rfl⟩ | ⟨-, -, rfl⟩
    · refine ⟨_, (List.getElem?_modify _ _ _ _).trans (by rw [hfl]; rfl), ?_⟩
      split <;> exact hk
    · exact ⟨fl, (List.getElem?_append_left hlt).trans hfl, hk⟩
  | wait g deadline =>
    rw [(stepGroup_wait h).1]
    exact ⟨fl, hfl, hk⟩
  | complete g r =>
    obtain ⟨fl', hfl', rfl⟩ := stepGroup_complete h
    by_cases hg : g = f
    · subst hg
      rw [hfl] at hfl'
      cases hfl'
      exact ⟨_, List.getElem?_set_self hlt, hk⟩
    · exact ⟨fl, (List.getElem?_set_ne hg).trans hfl, hk⟩
  | forget key' =>
    rw [stepGroup_forget h]
    exact ⟨fl, hfl, hk⟩

theorem stepGroup_group {op : GroupOp} {b : op.Resp} (h : s.stepGroup t c op = some (b, s'))
    (hk : s'.group key = some f) :
    s.group key = some f ∨ (s.group key = none ∧ f = s.flights.length ∧ s'.FlightOf f key ∧
      ∃ epoch policy, op = .doChan key epoch policy) := by
  cases op with
  | doChan key' epoch policy =>
    rcases stepGroup_doChan h with ⟨-, -, rfl⟩ | ⟨hnone, -, rfl⟩
    · exact .inl hk
    · by_cases hkk : key = key'
      · subst hkk
        simp only [Function.update_self, Option.some.injEq] at hk
        subst hk
        exact .inr ⟨hnone, rfl, ⟨_, List.getElem?_concat_length, rfl⟩, epoch, policy, rfl⟩
      · simp only [Function.update_of_ne hkk] at hk
        exact .inl hk
  | wait g deadline =>
    rw [(stepGroup_wait h).1] at hk
    exact .inl hk
  | complete g r =>
    obtain ⟨fl, -, rfl⟩ := stepGroup_complete h
    dsimp only at hk
    split at hk
    · by_cases hkk : key = fl.key
      · simp [hkk] at hk
      · rw [Function.update_of_ne hkk] at hk
        exact .inl hk
    · exact .inl hk
  | forget key' =>
    rw [stepGroup_forget h] at hk
    by_cases hkk : key = key'
    · simp [hkk] at hk
    · simp only [Function.update_of_ne hkk] at hk
      exact .inl hk

end World

namespace Service

variable (svc : Service)

def Reported (st : CacheStats) : Prop :=
  ∃ a b : CacheStats, a.Bounded (svc.newTier .cache).maxBytes (svc.newTier .cache).maxEntries ∧
    b.Bounded (svc.newTier .probationary).maxBytes (svc.newTier .probationary).maxEntries ∧
    st = combinedCacheStats a (if svc.hasProbationary then some b else none)

structure Base (s : World) : Prop where
  bump_version : ∀ σ, (s.past.bump σ).version ≤ s.origin.version
  bump_reqs : ∀ σ, (s.past.bump σ).reqs ≤ s.reqs
  wf : ∀ tier, (s.tiers tier).WF
  limits : ∀ tier, (s.tiers tier).limits = (svc.newTier tier).limits
  group : ∀ key f, s.group key = some f → s.FlightOf f key
  nonempty : ∀ tier, s.find tier [] = none
  tracker : s.tracker.Rep

/-- A payload that a goroutine may install for a key whose stripe it holds: the reply of its own
read, sent after the epoch was last advanced, or the value that its own acknowledged write has
set. -/
def Installs (s : World) (t : Nat) (k : Key) (v : Blob) : Prop :=
  (svc.policy k).mode = .cache ∧
    ((∃ ticket version pttl, v.source = .read ticket version pttl ∧
        ⟨.upstream, k, ⟨v, true, pttl⟩⟩ ∈ (s.trace t).seen ∧
        (s.past.bump (cacheEpochStripe k)).version ≤ version ∧
        (s.past.bump (cacheEpochStripe k)).reqs ≤ ticket) ∨
      ∃ d, (s.trace t).dispatched = some d ∧ (s.trace t).wrote = some (k, v.bytes) ∧
        v.source = .write d.reqs d.version ∧ s.gates (cacheEpochStripe k) = some t ∧
        k ∈ (s.trace t).writeKeys)

structure Fits (tier : Tier) (k : Key) (v : Blob) (ttl : Time) : Prop where
  key : Hotness.Tracker.Trackable k
  size : estimateSize k v ≤ (svc.policy k).maxItemBytes
  maxLocalTTL : ttl ≤ svc.cfg.cache.maxLocalTTL
  policyTTL : ttl ≤ (svc.policy k).maxLocalTTL
  pttl : 0 < v.source.pttl → ttl ≤ v.source.pttl
  pttl_ne : v.source.pttl ≠ 0
  window : tier = .probationary → 0 < svc.cfg.hotness.window → ttl ≤ svc.cfg.hotness.window

/-- The end of an invalidation of a key: its epoch has moved since the call, and for a write
since its dispatch, and only the write itself may have left an entry. -/
structure Clears (s : World) (t : Nat) (k : Key) : Prop where
  owns : s.Owns t (cacheEpochStripe k)
  started : (s.trace t).started.reqs ≤ (s.past.bump (cacheEpochStripe k)).reqs
  dispatched : ∀ d, (s.trace t).dispatched = some d →
    d.version ≤ (s.past.bump (cacheEpochStripe k)).version
  entries : ∀ tier e, s.find tier k = some e →
    ∃ d, (s.trace t).dispatched = some d ∧ e.value.source = .write d.reqs d.version
  job : (k ∈ (s.trace t).writeKeys ∧ s.gates (cacheEpochStripe k) = some t) ∨
    (s.trace t).job = some (.purgeCache k)

/-- A policy that does not cache makes the answer the call's own upstream reply. -/
def OwnReply (tr : Trace) (k : Key) (a : Answer) : Prop :=
  a.via = .upstream ∧ ∃ keys values, ∃ j : Nat, tr.fetches = [(keys, .ok values)] ∧
    keys[j]? = some k ∧ values[j]? = some a.value

def Returns (s : World) (t : Nat) : Job → Reply → Prop
  | .get k, .get (.ok a) =>
    ⟨a.via, k, a.value⟩ ∈ (s.trace t).seen ∧
      ((svc.policy k).mode ≠ .cache → a.via = .upstream ∧
        (s.trace t).fetches = [([k], .ok [a.value])])
  | .get k, .get (.error e) =>
    (svc.policy k).mode ≠ .cache → (s.trace t).fetches = [([k], .error e)] ∨
      (s.trace t).fetches = [] ∧ (k = [] ∧ e = .keyRequired ∨ k ≠ [] ∧ s.contexts t = some e)
  | .mget keys, .mget (.ok l) =>
    l.length = keys.length ∧ ∀ (i : Nat) k a, keys[i]? = some k → l[i]? = some a →
      ⟨a.via, k, a.value⟩ ∈ (s.trace t).seen ∧
        ((svc.policy k).mode ≠ .cache → OwnReply (s.trace t) k a)
  | .executeWrite _ _ keys, reply =>
    (∀ d, (s.trace t).dispatched = some d → ∀ k ∈ keys, k ∈ (s.trace t).forgotten) ∧
      ((s.trace t).opened = false → ∃ e, reply = .executeWrite (.error e))
  | .purgeCache key, _ =>
    if key = [] then (s.trace t).clearedAll = true else key ∈ (s.trace t).forgotten
  | .status, .status status =>
    ∃ st, svc.Reported st ∧ status.cacheBytes = st.bytes ∧ status.cacheEntries = st.entries
  | .cacheInfo, .cacheInfo info =>
    ∃ st, svc.Reported st ∧ info = ⟨st.entries, st.bytes, st.maxBytes, st.evictions⟩
  | _, _ => True

def Pre (t : Nat) : Action → World → Prop
  | .tracker (.observeWithState k), _ => (svc.policy k).mode ≠ .deny
  | .cache tier (.put k v ttl), s =>
    s.Owns t (cacheEpochStripe k) ∧ svc.Installs s t k v ∧ svc.Fits tier k v ttl ∧
      s.find tier.other k = none ∧ (tier = .cache → s.HotBut t k)
  | .cache tier (.putUntil k v exp), s =>
    s.Owns t (cacheEpochStripe k) ∧ (∃ l, (s.trace t).carried = some ⟨k, v, exp, l⟩) ∧
      tier = .cache ∧ s.find .probationary k = none ∧ s.HotBut t k
  | .cache _ (.delete k), s => s.Owns t (cacheEpochStripe k)
  | .cache _ .purge, s => ∀ σ, s.Owns t σ
  | .stripe σ .lock, s => ∀ τ, s.Owns t τ → τ < σ
  | .stripe σ .unlock, s => s.Owns t σ
  | .stripe σ .epochAdd, s => s.Owns t σ
  | .stripe σ (.promotionStore _), s => s.Owns t σ
  | .gate σ .send, s =>
    (s.trace t).dispatched = none ∧
      (∃ command args keys, (s.trace t).job = some (.executeWrite command args keys)) ∧
      (∀ τ, ¬ s.Owns t τ) ∧ ∀ τ, s.gates τ = some t → τ < σ
  | .gate σ .receive, s => s.gates σ = some t ∧ (s.trace t).gated = none
  | .group (.doChan k e policy), s =>
    (s.trace t).job = some (.get k) ∧ policy = svc.policy k ∧ policy.mode = .cache ∧
      e ≤ (s.stripes (cacheEpochStripe k)).epoch
  | .group (.wait f _), s => (s.trace t).joined = some f
  | .group (.complete f r), s =>
    ∃ k, (s.trace t).job = some (.flight f k) ∧ ∀ v, r = .ok v →
      ⟨.upstream, k, v⟩ ∈ (s.trace t).seen
  | .group (.forget k), s =>
    k ∈ (s.trace t).cleared ∧
      (k ∈ (s.trace t).writeKeys ∧ (s.trace t).dispatched ≠ none ∨
        (s.trace t).job = some (.purgeCache k))
  | .upstream (.answer i _), s =>
    (s.trace t).job ≠ none ∧ (s.trace t).started.version ≤ i.version ∧
      (s.trace t).started.reqs ≤ i.ticket
  | .upstream (.dispatch command args keys), s =>
    (s.trace t).job = some (.executeWrite command args keys) ∧ (s.trace t).window = some keys ∧
      (s.trace t).dispatched = none ∧ ∀ k ∈ keys, k ∈ (s.trace t).cleared
  | .note (.start job), s => s.trace t = {} ∧ ∀ f k, job = .flight f k → s.FlightOf f k
  | .record .promotion, s => 0 < (s.trace t).debt.rises
  | .record .demotion, s => 0 < (s.trace t).debt.falls
  | .note (.finish reply), s =>
    (∃ job, (s.trace t).job = some job ∧ svc.Returns s t job reply) ∧ AtRest t s
  | .note (.openWindow keys), s =>
    (s.trace t).dispatched = none ∧ (s.trace t).job ≠ none ∧
      ∀ k ∈ keys, s.gates (cacheEpochStripe k) = some t
  | .note .closeWindow, s => ∀ keys, (s.trace t).window = some keys →
      ∀ k ∈ keys, k ∈ (s.trace t).cleared
  | .note (.cleared k), s => Clears s t k
  | .note .clearedAll, s =>
    (s.trace t).job = some (.purgeCache []) ∧ (∀ tier k, s.find tier k = none) ∧ ∀ σ, s.Owns t σ ∧
      (s.trace t).started.reqs ≤ (s.past.bump σ).reqs
  | .note (.applied k), s =>
    s.Owns t (cacheEpochStripe k) ∧ (s.find .cache k = none ∨ s.HotBut t k)
  | _, _ => True

end Service

theorem Trace.owed_record (tr : Trace) (s : World) {a : Action} (b : a.Resp)
    (hk : k ∈ tr.debt.owed) :
    k ∈ (tr.record s a b).debt.owed ∨ a = .note (.applied k) ∨ ∃ job, a = .note (.start job) := by
  have hkeep : (tr.record s a b).debt = tr.debt → k ∈ (tr.record s a b).debt.owed := fun h => h ▸ hk
  cases a with
  | tracker op => exact .inl (List.mem_append_left _ hk)
  | record m => cases m <;> exact .inl hk
  | note n =>
    cases n with
    | start job => exact .inr (.inr ⟨job, rfl⟩)
    | applied key =>
      by_cases hkey : k = key
      · exact .inr (.inl (by rw [hkey]))
      · exact .inl ((List.mem_erase_of_ne hkey).2 hk)
    | _ => exact .inl hk
  | _ => exact .inl (hkeep (tr.record_debt s b nofun nofun nofun nofun))

namespace World.HotBut

variable {s s' : World}

theorem congr (h : s.HotBut t k) (ht : s'.tracker = s.tracker)
    (htr : ∀ u, u ≠ t → s'.trace u = s.trace u) : s'.HotBut t k := by
  rcases h with hh | ⟨u, hu, hk⟩
  · exact .inl (by rw [ht]; exact hh)
  · exact .inr ⟨u, hu, by rw [htr u hu]; exact hk⟩

theorem of_exec {a : Action} {b : a.Resp} (hk : s.HotBut t k)
    (h : World.exec t a c s = some (b, s'))
    (ha : ∀ op, a ≠ .tracker op) : s'.HotBut t k := by
  refine hk.congr ?_ fun u hu => World.exec_trace_of_ne h hu
  obtain ⟨s₁, hs, rfl⟩ := World.exec_eq_some.1 h
  exact (World.step_frame hs).tracker ha

/-- A key that another goroutine makes lose its HOT state is owed by that one, who cannot apply
the demotion as long as `t` holds the stripe. -/
theorem of_act {svc : Service} {a : Action} {b : a.Resp} (hi : svc.Base s) (hp : svc.Pre v a s)
    (h : World.exec v a c s = some (b, s')) (hv : t ≠ v) (ho : s.Owns t (cacheEpochStripe k))
    (hk : s.HotBut t k) : s'.HotBut t k := by
  rcases hk with hh | ⟨u, hu, hk⟩
  · by_cases hh' : s'.tracker.isHot k = true
    · exact .inl hh'
    · refine .inr ⟨v, hv.symm, ?_⟩
      cases a with
      | tracker op =>
        rw [World.exec_trace h]
        obtain ⟨tr, hrun, rfl⟩ := World.exec_tracker h
        have hd := (TrackerOp.run_reports hi.tracker hrun).demoted hh hh'
        exact List.mem_append_right _ (mem_demotedKeys.2 hd)
      | _ =>
        obtain ⟨s₁, hs, rfl⟩ := World.exec_eq_some.1 h
        exact absurd (by rw [(World.step_frame hs).tracker nofun]; exact hh) hh'
  · refine .inr ⟨u, hu, ?_⟩
    by_cases huv : u = v
    · subst huv
      rw [World.exec_trace h]
      rcases (s.trace u).owed_record { s' with past := s.past } b hk with hr | rfl | ⟨job, rfl⟩
      · exact hr
      · exact absurd (Option.some.inj (ho.symm.trans hp.1)) hv
      · rw [show s.trace u = {} from hp.1] at hk
        cases hk
    · rw [World.exec_trace_of_ne h huv]
      exact hk

end World.HotBut

theorem Rely.of_frame {s s' : World} (ho : s.origin.version ≤ s'.origin.version)
    (hq : s.reqs ≤ s'.reqs) (hs : s'.stripes = s.stripes) (hg : s'.gates = s.gates)
    (hc : ∀ e, s.contexts u = some e → s'.contexts u = some e)
    (hf : ∀ f key, s.FlightOf f key → s'.FlightOf f key) (hb : s'.past.bump = s.past.bump)
    (ht : s'.trace u = s.trace u)
    (hw : ∀ tier k e', s.Owns u (cacheEpochStripe k) → s'.find tier k = some e' →
      ∃ e, s.find tier k = some e ∧ e'.Same e)
    (hh : ∀ k, s.Owns u (cacheEpochStripe k) → s.HotBut u k → s'.HotBut u k) : Rely u s s' where
  version := ho
  reqs := hq
  epoch := fun σ => by rw [hs]
  bump_version := fun σ => by rw [hb]
  bump_reqs := fun σ => by rw [hb]
  bump := fun σ _ => by rw [hb]
  gates := fun σ => by rw [hg]
  contexts := hc
  flights := hf
  trace := by
    rw [ht]
    exact .refl _
  debt := by rw [ht]
  owner := fun σ => by rw [World.Owns, World.Owns, hs]
  held := fun σ _ => by rw [hs]
  within := hw
  same := ht
  hot := hh

theorem Rely.of_stripe {s : World} {σ : Stripe} {st : StripeState} {p : Past}
    (ho : (s.stripes σ).owner ≠ some u) (ho' : st.owner ≠ some u)
    (he : (s.stripes σ).epoch ≤ st.epoch)
    (hv : ∀ τ, (s.past.bump τ).version ≤ (p.bump τ).version)
    (hr : ∀ τ, (s.past.bump τ).reqs ≤ (p.bump τ).reqs)
    (hb : ∀ τ, (τ = σ → st.epoch = (s.stripes σ).epoch) → p.bump τ = s.past.bump τ)
    (ht : p.trace u = s.trace u)
    (hh : ∀ k, s.Owns u (cacheEpochStripe k) → s.HotBut u k →
      { s with stripes := Function.update s.stripes σ st, past := p }.HotBut u k) :
    Rely u s { s with stripes := Function.update s.stripes σ st, past := p } where
  version := le_rfl
  reqs := le_rfl
  epoch := by
    intro τ
    by_cases hτ : τ = σ
    · subst hτ
      simpa using he
    · simp [hτ]
  bump_version := hv
  bump_reqs := hr
  bump := by
    intro τ heq
    refine hb τ fun hτ => ?_
    subst hτ
    simpa using heq
  gates := fun _ => .rfl
  contexts := fun _ h => h
  flights := fun _ _ h => h
  trace := by
    show (s.trace u).Extends (p.trace u)
    rw [ht]
    exact .refl _
  debt := by
    show (p.trace u).debt = _
    rw [ht]
  owner := by
    intro τ
    by_cases hτ : τ = σ
    · subst hτ
      simp [World.Owns, ho, ho']
    · simp [World.Owns, hτ]
  held := by
    intro τ hown
    have hτ : τ ≠ σ := fun hτ => ho (hτ ▸ hown)
    simp [hτ]
  within := fun _ _ e' _ h => ⟨e', h, .refl e'⟩
  same := ht
  hot := hh

namespace Service

variable {svc : Service} {s s' : World}

theorem Base.rely_stripe (hi : svc.Base s) {σ : Stripe} {op : StripeOp} {b : op.Resp}
    (hp : svc.Pre t (.stripe σ op) s) (h : World.exec t (.stripe σ op) c s = some (b, s'))
    (hu : u ≠ t) : Rely u s s' := by
  have htr := World.exec_trace_of_ne h hu
  have hhot := fun k => World.HotBut.of_act (k := k) hi hp h hu
  have htu : some t ≠ some u := fun he => hu (Option.some.inj he).symm
  obtain ⟨st, hst, rfl⟩ := World.exec_stripe h
  cases op with
  | lock =>
    obtain ⟨hfree, heq⟩ := Option.ite_none_right_eq_some.1 hst
    cases heq
    exact .of_stripe (by rw [hfree]; nofun) htu le_rfl (fun _ => le_rfl) (fun _ => le_rfl)
      (fun _ _ => rfl) htr hhot
  | unlock =>
    obtain ⟨hmine, heq⟩ := Option.ite_none_right_eq_some.1 hst
    cases heq
    exact .of_stripe (by rw [hmine]; exact htu) nofun le_rfl (fun _ => le_rfl) (fun _ => le_rfl)
      (fun _ _ => rfl) htr hhot
  | epochLoad =>
    cases hst
    exact .of_frame le_rfl le_rfl (Function.update_eq_self _ _) rfl (fun _ h => h)
      (fun _ _ h => h) rfl htr
      (fun _ _ e' _ h => ⟨e', h, .refl e'⟩) hhot
  | epochAdd =>
    cases hst
    have hown : (s.stripes σ).owner ≠ some u := by
      rw [show (s.stripes σ).owner = some t from hp]
      exact htu
    refine .of_stripe hown hown (Nat.le_succ _) (fun τ => ?_) (fun τ => ?_)
      (fun τ hτ => ?_) htr hhot
    · by_cases hσ : τ = σ
      · subst hσ
        simpa [Past.record_epochAdd, World.moment] using hi.bump_version τ
      · simp [Past.record_epochAdd, hσ]
    · by_cases hσ : τ = σ
      · subst hσ
        simpa [Past.record_epochAdd, World.moment] using hi.bump_reqs τ
      · simp [Past.record_epochAdd, hσ]
    · have hσ : τ ≠ σ := fun hσ => absurd (hτ hσ) (Nat.succ_ne_self _)
      simp [Past.record_epochAdd, hσ]
  | promotionLoad =>
    cases hst
    exact .of_frame le_rfl le_rfl (Function.update_eq_self _ _) rfl (fun _ h => h)
      (fun _ _ h => h) rfl htr
      (fun _ _ e' _ h => ⟨e', h, .refl e'⟩) hhot
  | promotionStore v =>
    cases hst
    have hown : (s.stripes σ).owner ≠ some u := by
      rw [show (s.stripes σ).owner = some t from hp]
      exact htu
    exact .of_stripe hown hown le_rfl (fun _ => le_rfl) (fun _ => le_rfl) (fun _ _ => rfl) htr hhot

theorem Base.rely_gate (hi : svc.Base s) {σ : Stripe} {op : GateOp} {b : op.Resp}
    (hp : svc.Pre t (.gate σ op) s) (h : World.exec t (.gate σ op) c s = some (b, s'))
    (hu : u ≠ t) : Rely u s s' := by
  have htr := World.exec_trace_of_ne h hu
  have hhot := fun k => World.HotBut.of_act (k := k) hi hp h hu
  have hb := World.exec_bump h nofun
  obtain ⟨g, hg, rfl⟩ := World.exec_gate h
  -- Neither before nor after does the gate belong to `u`, unless nothing happens to it.
  have hgate : ∀ τ, s.gates τ = some u ↔ Function.update s.gates σ g τ = some u := by
    intro τ
    by_cases hτ : τ = σ
    · subst hτ
      rw [Function.update_self]
      cases op with
      | send =>
        simp only [GateOp.run] at hg
        split at hg
        · obtain ⟨e, -, he⟩ := Option.map_eq_some_iff.1 hg
          cases he
          exact .rfl
        · obtain ⟨hfree, heq⟩ := Option.ite_none_right_eq_some.1 hg
          cases heq
          rw [hfree]
          simp [hu.symm]
      | receive =>
        obtain ⟨-, heq⟩ := Option.ite_none_left_eq_some.1 hg
        cases heq
        rw [hp.1]
        simp [hu.symm]
    · rw [Function.update_of_ne hτ]
  have hr : Rely u s { s with past := Past.record s t (.gate σ op) b } :=
    .of_frame le_rfl le_rfl rfl rfl (fun _ h => h) (fun _ _ h => h) hb htr
      (fun _ _ e' _ h => ⟨e', h, .refl e'⟩) hhot
  exact { hr with gates := hgate }

theorem Base.rely_cache (hi : svc.Base s) {tier : Tier} {op : CacheOp} {b : op.Resp}
    (hp : svc.Pre t (.cache tier op) s) (h : World.exec t (.cache tier op) c s = some (b, s'))
    (hu : u ≠ t) : Rely u s s' := by
  have htr := World.exec_trace_of_ne h hu
  have hhot := fun k => World.HotBut.of_act (k := k) hi hp h hu
  have hb := World.exec_bump h nofun
  obtain ⟨rfl, rfl⟩ := World.exec_cache h
  refine .of_frame le_rfl le_rfl rfl rfl (fun _ h => h) (fun _ _ h => h) hb htr
    (fun tier' k e' ho hf => ?_) hhot
  by_cases ht : tier' = tier
  · subst ht
    simp only [World.find, Function.update_self] at hf
    have hne : ∀ {k'}, s.Owns t (cacheEpochStripe k') → k ≠ k' := by
      rintro k' hown rfl
      exact hu (Option.some.inj (ho.symm.trans hown))
    rcases CacheOp.run_find hf with he | ⟨v, ttl, rfl, -, -⟩ | ⟨v, exp, rfl, -, -⟩
    · exact he
    · exact absurd rfl (hne hp.1)
    · exact absurd rfl (hne hp.1)
  · simp only [World.find, Function.update_of_ne ht] at hf
    exact ⟨e', hf, .refl e'⟩

theorem Base.rely_of_act {a : Action} {b : a.Resp} (hi : svc.Base s) (hp : svc.Pre t a s)
    (h : World.exec t a c s = some (b, s')) (hu : u ≠ t) : Rely u s s' := by
  have htr := World.exec_trace_of_ne h hu
  have hhot := fun k => World.HotBut.of_act (k := k) hi hp h hu
  have hsame : ∀ (tier : Tier) (k : Key) (e' : Entry), s.Owns u (cacheEpochStripe k) →
      s.find tier k = some e' → ∃ e, s.find tier k = some e ∧ e'.Same e :=
    fun _ _ e' _ h => ⟨e', h, .refl e'⟩
  cases a with
  | tracker op =>
    obtain ⟨tr, -, rfl⟩ := World.exec_tracker h
    exact .of_frame le_rfl le_rfl rfl rfl (fun _ h => h) (fun _ _ h => h) rfl htr hsame hhot
  | cache tier op => exact hi.rely_cache hp h hu
  | stripe σ op => exact hi.rely_stripe hp h hu
  | gate σ op => exact hi.rely_gate hp h hu
  | group op =>
    have hb := World.exec_bump h nofun
    obtain ⟨s₁, hs, rfl⟩ := World.exec_group h
    have hfl := World.stepGroup_flights hs
    rw [World.stepGroup_frame hs] at htr hb hhot ⊢
    exact .of_frame le_rfl le_rfl rfl rfl (fun _ h => h) hfl hb htr hsame hhot
  | upstream op =>
    have hb := World.exec_bump h nofun
    obtain ⟨s₁, hs, rfl⟩ := World.exec_upstream h
    obtain ⟨he, hv, hq⟩ := World.stepUpstream_frame hs
    rw [he] at htr hb hhot ⊢
    exact .of_frame hv hq rfl rfl (fun _ h => h) (fun _ _ h => h) hb htr hsame hhot
  | record m =>
    cases World.exec_record h
    exact .of_frame le_rfl le_rfl rfl rfl (fun _ h => h) (fun _ _ h => h) rfl htr hsame hhot
  | counters =>
    obtain ⟨-, rfl⟩ := World.exec_counters h
    exact .of_frame le_rfl le_rfl rfl rfl (fun _ h => h) (fun _ _ h => h) rfl htr hsame hhot
  | now =>
    obtain ⟨-, rfl⟩ := World.exec_now h
    exact .of_frame le_rfl le_rfl rfl rfl (fun _ h => h) (fun _ _ h => h) rfl htr hsame hhot
  | ctxErr =>
    obtain ⟨-, rfl⟩ := World.exec_ctxErr h
    exact .of_frame le_rfl le_rfl rfl rfl (fun _ h => h) (fun _ _ h => h) rfl htr hsame hhot
  | closeSwap =>
    cases World.exec_closeSwap h
    exact .of_frame le_rfl le_rfl rfl rfl (fun _ h => h) (fun _ _ h => h) rfl htr hsame hhot
  | note n =>
    have hb := World.exec_bump h nofun
    cases World.exec_note h
    exact .of_frame le_rfl le_rfl rfl rfl (fun _ h => h) (fun _ _ h => h) hb htr hsame hhot

theorem Base.of_exec {a : Action} {b : a.Resp} (hi : svc.Base s)
    (h : World.exec t a c s = some (b, s')) : svc.Base s' := by
  have hrep : s'.tracker.Rep := by
    cases a with
    | tracker op =>
      obtain ⟨tr, hrun, rfl⟩ := World.exec_tracker h
      exact (TrackerOp.run_reports hi.tracker hrun).rep
    | _ =>
      obtain ⟨s₁, hs, rfl⟩ := World.exec_eq_some.1 h
      exact ((World.step_frame hs).tracker nofun).symm ▸ hi.tracker
  have hframe : s.origin.version ≤ s'.origin.version ∧ s.reqs ≤ s'.reqs := by
    obtain ⟨s₁, hs, rfl⟩ := World.exec_eq_some.1 h
    exact ⟨(World.step_frame hs).version, (World.step_frame hs).reqs⟩
  have htiers : ∀ tier, (s'.tiers tier).WF ∧
      (s'.tiers tier).limits = (svc.newTier tier).limits := by
    intro tier'
    cases a with
    | cache tier op =>
      obtain ⟨-, rfl⟩ := World.exec_cache h
      by_cases ht : tier' = tier
      · subst ht
        simp only [Function.update_self]
        exact ⟨CacheOp.run_wf (hi.wf _) _ _, (CacheOp.run_limits _ _ _).trans (hi.limits _)⟩
      · simp only [Function.update_of_ne ht]
        exact ⟨hi.wf _, hi.limits _⟩
    | _ =>
      obtain ⟨s₁, hs, rfl⟩ := World.exec_eq_some.1 h
      rw [show s₁.tiers = s.tiers from (World.step_frame hs).tiers nofun]
      exact ⟨hi.wf _, hi.limits _⟩
  have hempty : ∀ tier, s'.find tier [] = none := by
    intro tier'
    rw [Option.eq_none_iff_forall_ne_some]
    intro e hf
    have hno := fun e₀ => Option.eq_none_iff_forall_ne_some.1 (hi.nonempty tier') e₀
    cases a with
    | cache tier op =>
      obtain ⟨-, rfl⟩ := World.exec_cache h
      by_cases ht : tier' = tier
      · subst ht
        simp only [World.find, Function.update_self] at hf
        rcases CacheOp.run_find hf with ⟨e₀, he₀, -⟩ | ⟨v, ttl, -, hk, -⟩ | ⟨v, exp, -, hk, -⟩
        · exact hno e₀ he₀
        · exact hk rfl
        · exact hk rfl
      · simp only [World.find, Function.update_of_ne ht] at hf
        exact hno e hf
    | _ =>
      obtain ⟨s₁, hs, rfl⟩ := World.exec_eq_some.1 h
      simp only [World.find, (World.step_frame hs).tiers nofun] at hf
      exact hno e hf
  have hgroup : ∀ key f, s'.group key = some f → s'.FlightOf f key := by
    cases a with
    | group op =>
      obtain ⟨s₁, hs, rfl⟩ := World.exec_group h
      intro key f hkf
      rcases World.stepGroup_group hs hkf with hold | ⟨-, -, hnew, -⟩
      · exact World.stepGroup_flights hs f key (hi.group key f hold)
      · exact hnew
    | _ =>
      obtain ⟨s₁, hs, rfl⟩ := World.exec_eq_some.1 h
      obtain ⟨hg, hfl⟩ := (World.step_frame hs).group nofun
      intro key f hkf
      obtain ⟨fl, hfl', hk⟩ := hi.group key f (by rw [← hg]; exact hkf)
      exact ⟨fl, by rw [← hfl'] ; exact congrArg (·[f]?) hfl, hk⟩
  by_cases ha : ∃ σ, a = .stripe σ .epochAdd
  · obtain ⟨σ, rfl⟩ := ha
    obtain ⟨st, -, rfl⟩ := World.exec_stripe h
    refine ⟨fun τ => ?_, fun τ => ?_, fun tier => (htiers tier).1, fun tier => (htiers tier).2,
      hgroup, hempty, hrep⟩
    · by_cases hτ : τ = σ
      · simp [Past.record_epochAdd, World.moment, hτ]
      · simpa [Past.record_epochAdd, hτ] using hi.bump_version τ
    · by_cases hτ : τ = σ
      · simp [Past.record_epochAdd, World.moment, hτ]
      · simpa [Past.record_epochAdd, hτ] using hi.bump_reqs τ
  · have hb := World.exec_bump h fun σ hσ => ha ⟨σ, hσ⟩
    refine ⟨fun σ => ?_, fun σ => ?_, fun tier => (htiers tier).1, fun tier => (htiers tier).2,
      hgroup, hempty, hrep⟩
    · rw [hb]
      exact (hi.bump_version σ).trans hframe.1
    · rw [hb]
      exact (hi.bump_reqs σ).trans hframe.2

theorem Base.of_env {e : Env} (hi : svc.Base s) (h : s.env e = some s') :
    svc.Base s' ∧ ∀ u, Rely u s s' := by
  have hsame : ∀ (u : Nat) (tier : Tier) (k : Key) (e' : Entry), s.Owns u (cacheEpochStripe k) →
      s.find tier k = some e' → ∃ e, s.find tier k = some e ∧ e'.Same e :=
    fun _ _ _ e' _ h => ⟨e', h, .refl e'⟩
  cases e with
  | tick d =>
    cases h
    exact ⟨⟨hi.1, hi.2, hi.3, hi.4, hi.5, hi.6, hi.7⟩, fun u =>
      .of_frame le_rfl le_rfl rfl rfl (fun _ h => h) (fun _ _ h => h) rfl rfl (hsame u)
        fun _ _ h => h⟩
  | cancel t expired =>
    simp only [World.env] at h
    split at h <;> cases h
    rename_i hnone
    refine ⟨⟨hi.1, hi.2, hi.3, hi.4, hi.5, hi.6, hi.7⟩, fun u =>
      .of_frame le_rfl le_rfl rfl rfl (fun e he => ?_) (fun _ _ h => h) rfl rfl (hsame u)
        fun _ _ h => h⟩
    have hut : u ≠ t := by
      rintro rfl
      rw [hnone] at he
      cases he
    simpa [hut] using he
  | originWrite key value =>
    cases h
    exact ⟨⟨fun σ => (hi.1 σ).trans (Nat.le_succ _), hi.2, hi.3, hi.4, hi.5, hi.6, hi.7⟩, fun u =>
      .of_frame (Nat.le_succ _) le_rfl rfl rfl (fun _ h => h) (fun _ _ h => h) rfl rfl (hsame u)
        fun _ _ h => h⟩

theorem Base.absent (hi : svc.Base s) (h : svc.hasProbationary = false) (k : Key) :
    s.find .probationary k = none := by
  refine (hi.wf .probationary).find_eq_none ?_ k
  rw [(Prod.mk.inj (hi.limits .probationary)).1]
  show (if svc.limits.probationaryBytes < 0 then 0 else svc.limits.probationaryBytes) ≤ 0
  rw [show svc.limits.probationaryBytes = 0 from splitCacheTierLimits_disabled h]
  rfl

/-- A flight starts with an epoch that its stripe has reached, and with the policy of its key. -/
def Ready (svc : Service) (p : Run Unit) (s : World) : Prop :=
  ∃ key epoch f, p = svc.flight key epoch (svc.policy key) f ∧ (svc.policy key).mode = .cache ∧
    epoch ≤ (s.stripes (cacheEpochStripe key)).epoch ∧ s.FlightOf f key

structure Unstarted (t : Nat) (s : World) : Prop where
  trace : s.trace t = {}
  stripes : ∀ σ, ¬ s.Owns t σ
  gates : ∀ σ, s.gates σ ≠ some t

theorem Unstarted.rely (h : Unstarted u s) (hr : Rely u s s') : Unstarted u s' where
  trace := hr.same.trans h.trace
  stripes := fun σ ho => h.stripes σ ((hr.owner σ).2 ho)
  gates := fun σ hg => h.gates σ ((hr.gates σ).2 hg)

/-- The proof outline of the service, for any rules on which calls are made and on what other
clients do. -/
def outline (svc : Service) (P : svc.machine.Rules) : Outline svc.machine P where
  Inv := svc.Base
  Rely := Rely
  Pre := svc.Pre
  Fresh := Unstarted
  Ready := svc.Ready
  Done := AtRest
  rely_refl := Rely.refl
  rely_trans := Rely.trans
  fresh := fun hr h => h.rely hr
  done := fun hr h => h.of_quiet hr.toQuiet
  act := fun hi _ hp h => ⟨hi.of_exec h, fun _ hu => hi.rely_of_act hp h hu⟩
  env := fun hi _ h => hi.of_env h

end Service
end Slizen
