import Slizen.Interleaving.Completion
import Slizen.Service.PromotionOutline
import Slizen.Service.Residency

namespace Slizen.Service
set_option autoImplicit true

open Interleaving Machine

open Handover (Stage)

variable {svc : Service} {direct : Bool} {content : Key → Option Bytes}
  {g₀ g : svc.machine.Config} {tr : List svc.machine.Event} {k : Key} {x : Blob × Time} {e : Entry}
  {limit : Time} {s s' : World} {t : Nat} {a : Action} {b : a.Resp} {c : Choice}

def Closeless (a : Action) : Prop := ∀ tier, a ≠ .cache tier .close

theorem closeless_of_ordinary {p : Run α} (h : p.Uses Action.Ordinary) : p.Uses Closeless := by
  apply h.mono
  rintro a ha tier rfl
  exact ha

theorem until_closeSwap (job : Job) : (svc.call job).Until (· = .closeSwap) Closeless := by
  by_cases hjob : job = .close
  · subst hjob
    exact .inr ⟨nofun, fun _ => .inl rfl⟩
  · have hbody : (svc.perform job).Uses Closeless := closeless_of_ordinary (ordinary_perform hjob)
    exact .inr ⟨nofun, fun _ => hbody.until.bind fun _ => .inr ⟨nofun, fun _ => trivial⟩⟩

theorem flight_closeless (key : Key) (epoch : Nat) (policy : Decision) (f : Nat) :
    (svc.flight key epoch policy f).Uses Closeless := by
  have hread : (svc.flightRead key epoch policy).Uses Closeless :=
    closeless_of_ordinary (ordinary_flightRead key epoch policy)
  exact ⟨nofun, fun _ => hread.bind fun _ => ⟨nofun, fun _ => ⟨nofun, fun _ => trivial⟩⟩⟩

theorem exec_closed {a : Action} {b : a.Resp} (he : World.exec t a c s = some (b, s')) :
    s'.closed = s.closed ∨ a = .closeSwap ∧ s'.closed = true := by
  cases a with
  | closeSwap =>
    cases World.exec_closeSwap he
    exact .inr ⟨rfl, rfl⟩
  | tracker op =>
    obtain ⟨tr, -, rfl⟩ := World.exec_tracker he
    exact .inl rfl
  | cache tier op =>
    obtain ⟨-, rfl⟩ := World.exec_cache he
    exact .inl rfl
  | stripe σ op =>
    obtain ⟨st, -, rfl⟩ := World.exec_stripe he
    exact .inl rfl
  | gate σ op =>
    obtain ⟨gate, -, rfl⟩ := World.exec_gate he
    exact .inl rfl
  | group op =>
    obtain ⟨s₁, hs, rfl⟩ := World.exec_group he
    rw [World.stepGroup_frame hs]
    exact .inl rfl
  | upstream op =>
    obtain ⟨s₁, hs, rfl⟩ := World.exec_upstream he
    rw [(World.stepUpstream_frame hs).1]
    exact .inl rfl
  | _ =>
    obtain ⟨s₁, hs, rfl⟩ := World.exec_eq_some.1 he
    cases hs
    exact .inl rfl

theorem exec_tier_closed {a : Action} {b : a.Resp} (he : World.exec t a c s = some (b, s'))
    (ha : Closeless a) (tier : Tier) : (s'.tiers tier).closed = (s.tiers tier).closed := by
  cases a with
  | cache tier' op =>
    obtain ⟨-, rfl⟩ := World.exec_cache he
    have hop : op ≠ .close := by
      rintro rfl
      exact ha tier' rfl
    by_cases ht : tier = tier'
    · subst ht
      simp only [Function.update_self]
      exact CacheOp.run_closed _ _ hop
    · simp only [Function.update_of_ne ht]
  | _ =>
    obtain ⟨s₁, hs, rfl⟩ := World.exec_eq_some.1 he
    rw [show s₁.tiers = s.tiers from (World.step_frame hs).tiers nofun]

theorem Reachable.opened (h : svc.Reachable direct content g) (hc : g.state.closed = false)
    (tier : Tier) : (g.state.tiers tier).closed = false := by
  have hback : ∀ {t : Nat} {a : Action} {c : Choice} {b : a.Resp} {s s' : World},
      World.exec t a c s = some (b, s') → s'.closed = false →
      s.closed = false ∧ ¬ a = .closeSwap := by
    intro t a c b s s' he hc
    rcases exec_closed he with hsame | ⟨-, hclosed⟩
    · refine ⟨hsame.symm.trans hc, ?_⟩
      rintro rfl
      cases World.exec_closeSwap he
      cases hc
    · cases hclosed.symm.trans hc
  induction h with
  | refl => cases tier <;> rfl
  | @step g g' m hg ha hn ih =>
    cases m with
    | run t c =>
      obtain ⟨a, p, b, s, hp, he, rfl⟩ := Config.next_run hn
      obtain ⟨hc₀, hswap⟩ := hback he hc
      have huntil : (Prog.act a p).Until (· = .closeSwap) Closeless := by
        refine Reach.early (E := fun s : World => s.closed = false) ?_ ?_ hback ?_ hg hc₀ hp
        · rintro p ⟨job, -, rfl⟩
          exact until_closeSwap job
        · intro a b p hf
          obtain ⟨key, epoch, policy, f, rfl⟩ := fork_flight hf
          exact (flight_closeless key epoch policy f).until
        · intro e s s' he hc
          rw [World.env_eq he] at hc
          exact hc
      exact (exec_tier_closed he (huntil.resolve_left hswap).1 tier).trans (ih hc₀)
    | spawn p =>
      cases hn
      exact ih hc
    | env e =>
      obtain ⟨s, he, rfl⟩ := Config.next_env hn
      have hs := World.env_eq he
      rw [hs] at hc ⊢
      exact ih hc

/-- Where the reads begin: an open service with nothing under way, in which the key is tracked and
has a candidate but no protected entry; up to the limit the candidate has not expired and the
window of the tracker lasts. -/
structure Begins (svc : Service) (k : Key) (e : Entry) (limit : Time) (g₀ : svc.machine.Config) :
    Prop where
  quiet : g₀.Quiescent
  opened : g₀.state.closed = false
  tracked : g₀.state.tracker.isTracked k = true
  candidate : g₀.state.find .probationary k = some e
  absent : g₀.state.find .cache k = none
  clock : g₀.state.clock < limit
  expiry : limit ≤ e.expiresAt
  window : limit ≤ g₀.state.tracker.window + g₀.state.tracker.cfg.window
  contexts : ∀ u, g₀.pool.length ≤ u → g₀.state.contexts u = none

theorem Begins.promotable (hb : svc.Begins k e limit g₀) (h₀ : svc.Reachable direct content g₀) :
    svc.Promotable k e.item limit := by
  have hl := h₀.resident.entry .probationary k e hb.candidate
  have hwf := h₀.base.wf .probationary
  have hmax : (g₀.state.tiers .probationary).maxBytes = (svc.newTier .probationary).maxBytes :=
    congrArg Prod.fst (h₀.base.limits .probationary)
  constructor
  · exact hl.key.1
  · exact hl.mode
  · by_contra hno
    have hnone := h₀.base.absent (Bool.eq_false_iff.2 hno) k
    exact absurd (hnone.symm.trans hb.candidate) nofun
  · calc estimateSize k e.value = e.estimatedSize := (hwf.size k e hb.candidate).symm
      _ ≤ (g₀.state.tiers .probationary).maxBytes := hwf.size_le hb.candidate
      _ = (svc.newTier .probationary).maxBytes := hmax
      _ ≤ (svc.newTier .cache).maxBytes := splitCacheTierLimits_fits _ _
  · exact hb.expiry

theorem Begins.promoting (hb : svc.Begins k e limit g₀) (h₀ : svc.Reachable direct content g₀) :
    svc.Promoting k e.item limit g₀.state where
  base := h₀.base
  clock := hb.clock
  window := hb.window
  tracked := hb.tracked
  opened := h₀.opened hb.opened .cache
  stage := by
    have hs : g₀.state.handover k = ⟨some e.item, none, (g₀.state.handover k).moving,
        (g₀.state.handover k).owner, (g₀.state.handover k).admitted⟩ := by
      simp only [World.handover, hb.candidate, hb.absent, Option.map_some, Option.map_none]
    rw [hs]
    exact .waiting _ _ _

theorem Begins.holds (hb : svc.Begins k e limit g₀) (h₀ : svc.Reachable direct content g₀) :
    (svc.promotion (hb.promotable h₀) g₀.pool.length).Holds g₀ where
  inv := hb.promoting h₀
  threads := by
    intro t p hp
    cases p with
    | ret y =>
      have hrest : AtRest t g₀.state := h₀.verified.done h₀ hp
      have ht := (List.getElem?_eq_some_iff.1 hp).1
      exact ⟨hrest.stripes _, fun hle => absurd ht (not_lt.2 hle),
        fun hle => absurd ht (not_lt.2 hle)⟩
    | act a k => cases hb.quiet _ (List.mem_of_getElem? hp)
  fresh := by
    intro u hu
    have hun : Unstarted u g₀.state := h₀.verified.unborn h₀ (List.getElem?_eq_none_iff.2 hu)
    exact ⟨hb.contexts u hu, hun.stripes _⟩

theorem Begins.reach (hb : svc.Begins k e limit g₀) (h₀ : svc.Reachable direct content g₀)
    (h : Reach (svc.readsOf k limit) g₀ g) :
    (svc.promotion (hb.promotable h₀) g₀.pool.length).Holds g :=
  (hb.holds h₀).reach (Reader.covers _ _) h

/-- What an action stores in the protected tier: the key, the value and the absolute expiry. -/
def storeOf (now : Time) : Action → List (Key × Blob × Time)
  | .cache .cache (.put key value ttl) => [(key, value, now + ttl)]
  | .cache .cache (.putUntil key value expiresAt) => [(key, value, expiresAt)]
  | _ => []

def stores (tr : List svc.machine.Event) : List (Key × Blob × Time) :=
  tr.flatMap fun ev => storeOf (World.clock ev.before) ev.action

def transitionsOf : (a : Action) → a.Resp → List Hotness.Transition
  | .tracker op, b => op.transitions b
  | _, _ => []

def emitted (tr : List svc.machine.Event) : List Hotness.Transition :=
  tr.flatMap fun ev => transitionsOf ev.action ev.answer

theorem Promoting.target_act (hp : svc.Promotable k x limit) (h : svc.Promoting k x limit s)
    (hpre : ReadPre k x t a s) (he : World.exec t a c s = some (b, s')) :
    (s'.handover k).target.toList.map (Prod.mk k) =
      (s.handover k).target.toList.map (Prod.mk k) ++ storeOf s.clock a := by
  cases a with
  | cache tier op =>
    have hfresh := fun allowStale => (Cache.getLocked_fresh (h.fresh hp .cache) allowStale).2
    obtain ⟨-, hd⟩ := exec_handover_cache he
    rw [hd]
    cases tier with
    | probationary =>
      cases op <;> exact (List.append_nil _).symm
    | cache =>
      cases op with
      | get key =>
        obtain rfl : key = k := hpre
        refine Eq.trans ?_ (List.append_nil _).symm
        exact congrArg (fun item => item.toList.map (Prod.mk key)) (hfresh false)
      | getStale key grace =>
        obtain ⟨rfl, rfl⟩ : key = k ∧ grace = 0 := hpre
        refine Eq.trans ?_ (List.append_nil _).symm
        exact congrArg (fun item => item.toList.map (Prod.mk key)) (hfresh true)
      | inspect key => exact (List.append_nil _).symm
      | stats => exact (List.append_nil _).symm
      | delete key => cases hpre.1
      | put key v ttl => exact hpre.elim
      | purge => exact hpre.elim
      | close => exact hpre.elim
      | putUntil key v exp =>
        obtain ⟨-, rfl, rfl, -, -, ht⟩ := hpre
        rw [ht, withItem, CacheOp.run, (h.putUntil hp).2]
        rfl
  | _ =>
    obtain ⟨s₁, hstep, rfl⟩ := World.exec_eq_some.1 he
    have htiers : s₁.tiers = s.tiers := (World.step_frame hstep).tiers (by simp)
    simp only [World.handover, World.find, htiers, storeOf, List.append_nil]

theorem Promoting.emits (h : svc.Promoting k x limit s) (hpre : ReadPre k x t a s)
    (he : World.exec t a c s = some (b, s')) :
    (transitionsOf a b).length + (s.handover k).admitted.toNat =
      (s'.handover k).admitted.toNat := by
  cases a with
  | tracker op =>
    obtain ⟨tr, hrun, rfl⟩ := World.exec_tracker he
    show (op.transitions b).length + (s.tracker.isHot k).toNat = (tr.isHot k).toNat
    rcases h.tracker_cases hpre hrun with ⟨o, hr, htransitions⟩ | ⟨rfl, htransitions⟩
    · rw [htransitions]
      rcases hr.transitions with ⟨hnil, hsame⟩ | ⟨before, -, hone, hno, hyes⟩
      · rw [hnil, hsame]
        exact Nat.zero_add _
      · rw [hone, hno, hyes]
        rfl
    · rw [htransitions]
      exact Nat.zero_add _
  | _ =>
    obtain ⟨s₁, hstep, rfl⟩ := World.exec_eq_some.1 he
    have htracker : s₁.tracker = s.tracker := (World.step_frame hstep).tracker (by simp)
    simp only [World.handover, htracker, transitionsOf, List.length_nil, Nat.zero_add]

structure Booked (k : Key) (hot : Bool) (tr : List svc.machine.Event) (s : World) : Prop where
  stores : stores tr = (s.handover k).target.toList.map (Prod.mk k)
  emitted : (emitted tr).length + hot.toNat = (s.handover k).admitted.toNat
  local_ : ∀ ev ∈ tr, ∀ op, ev.action ≠ .upstream op

theorem Begins.booked (hb : svc.Begins k e limit g₀) (h₀ : svc.Reachable direct content g₀)
    (h : Trail (svc.readsOf k limit) g₀ tr g) :
    Booked k (g₀.state.handover k).admitted tr g.state := by
  refine h.invariant (J := fun tr s => Booked k (g₀.state.handover k).admitted tr s) ?_ ?_ ?_
  · refine ⟨?_, Nat.zero_add _, fun ev hev => absurd hev List.not_mem_nil⟩
    have htarget : (g₀.state.handover k).target = none :=
      congrArg (Option.map Entry.item) hb.absent
    rw [htarget]
    rfl
  · intro tr g t a p c b s hg hp hj he
    have hh := hb.reach h₀ hg
    have hpre : ReadPre k e.item t a g.state := hh.pre hp
    have hi : svc.Promoting k e.item limit g.state := hh.inv
    constructor
    · rw [stores, List.flatMap_append, List.flatMap_singleton]
      rw [hi.target_act (hb.promotable h₀) hpre he, ← hj.stores]
      rfl
    · have hlen := hi.emits hpre he
      have hj := hj.emitted
      have happend : (emitted (tr ++ [⟨t, g.state, a, b⟩])).length =
          (emitted tr).length + (transitionsOf a b).length := by
        rw [emitted, List.flatMap_append, List.flatMap_singleton, List.length_append]
        rfl
      rw [happend]
      omega
    · intro ev hev op
      rcases List.mem_append.1 hev with hev | hev
      · exact hj.local_ ev hev op
      · cases List.mem_singleton.1 hev
        rintro rfl
        exact hpre
  · intro tr e s s' hj he
    have hs := World.env_eq he
    rw [hs]
    exact ⟨hj.stores, hj.emitted, hj.local_⟩

theorem enabled (hpre : ReadPre k x t a s) :
    (∃ c b s', World.exec t a c s = some (b, s')) ∨
      a = .stripe (cacheEpochStripe k) .lock ∧ ∃ u, (s.handover k).owner = some u := by
  have hdo : ∀ {c : Choice} {b : a.Resp} {s' : World}, s.step t c a = some (b, s') →
      ∃ c b s', World.exec t a c s = some (b, s') :=
    fun hstep => ⟨_, _, _, World.exec_eq_some.2 ⟨_, hstep, rfl⟩⟩
  have horder : (Choice.orders s.tracker.items.keys []).order.Perm s.tracker.items.keys := .refl _
  cases a with
  | tracker op =>
    left
    cases op with
    | observeWithState key =>
      exact hdo (c := .orders s.tracker.items.keys [])
        (congrArg (Option.map _) (if_pos horder))
    | admitKey key =>
      exact hdo (c := .orders s.tracker.items.keys [])
        (congrArg (Option.map _) (if_pos horder))
    | advance => exact hpre.elim
    | advanceAndSnapshot limit => exact hpre.elim
    | _ => exact hdo (c := .any) rfl
  | cache tier op => exact .inl (hdo (c := .any) rfl)
  | stripe σ op =>
    cases op with
    | lock =>
      obtain ⟨rfl, -⟩ := hpre
      cases ho : (s.stripes (cacheEpochStripe k)).owner with
      | none => exact .inl (hdo (c := .any) (congrArg (Option.map _) (if_pos ho)))
      | some u => exact .inr ⟨rfl, u, ho⟩
    | unlock =>
      obtain ⟨rfl, ho, -⟩ := hpre
      exact .inl (hdo (c := .any) (congrArg (Option.map _) (if_pos ho)))
    | _ => exact .inl (hdo (c := .any) rfl)
  | gate σ op => exact hpre.elim
  | group op => exact hpre.elim
  | upstream op => exact hpre.elim
  | closeSwap => exact hpre.elim
  | _ => exact .inl (hdo (c := .any) rfl)

theorem fork_of_readPre (hpre : ReadPre k x t a s) (b : a.Resp) : svc.fork a b = none := by
  cases a with
  | group op => exact hpre.elim
  | _ => rfl

/-- Somebody can go on: a reader that waits for the stripe waits for one that does not. -/
theorem progress {hp : svc.Promotable k x limit} {first : Nat}
    (h : (svc.promotion hp first).Holds g) (hq : ¬ g.Quiescent) :
    ∃ t a p c b s, g.pool[t]? = some (.act a p) ∧ World.exec t a c g.state = some (b, s) := by
  have hact : ∃ (t : Nat) (a : Action) (p : a.Resp → Run Unit), g.pool[t]? = some (.act a p) := by
    simp only [Config.Quiescent, not_forall] at hq
    obtain ⟨p, hmem, hret⟩ := hq
    obtain ⟨t, ht⟩ := List.mem_iff_getElem?.1 hmem
    cases p with
    | ret y => exact absurd rfl hret
    | act a p => exact ⟨t, a, p, ht⟩
  obtain ⟨t, a, p, ht⟩ := hact
  have hpre : ReadPre k x t a g.state := h.pre ht
  rcases enabled hpre with ⟨c, b, s, he⟩ | ⟨-, u, ho⟩
  · exact ⟨t, a, p, c, b, s, ht, he⟩
  · cases hu : g.pool[u]? with
    | none =>
      have hfresh : Arriving k u g.state := h.fresh u (List.getElem?_eq_none_iff.1 hu)
      exact absurd ho hfresh.stripe
    | some q =>
      cases q with
      | ret y =>
        have hdone : Served k x first u g.state := h.threads u _ hu
        exact absurd ho hdone.stripe
      | act a' q =>
        have hpre' : ReadPre k x u a' g.state := h.pre hu
        rcases enabled hpre' with ⟨c, b, s, he⟩ | ⟨rfl, -⟩
        · exact ⟨u, a', q, c, b, s, hu, he⟩
        · exact absurd ho hpre'.2

theorem Begins.completes (hb : svc.Begins k e limit g₀) (h₀ : svc.Reachable direct content g₀)
    (h : Reach (svc.readsOf k limit) g₀ g) : ∃ g', Reach (svc.readsOf k limit) g g' ∧
      g'.Quiescent ∧ g'.pool.length = g.pool.length := by
  refine Reach.complete (J := (svc.promotion (hb.promotable h₀) g₀.pool.length).Holds) ?_
    (hb.reach h₀ h)
  intro g hh hq
  obtain ⟨t, a, p, c, b, s, ht, he⟩ := progress hh hq
  have hfork : svc.machine.fork a b = none := fork_of_readPre (hh.pre ht) b
  have hnext := hh.run (Reader.covers _ _) ht trivial he
  rw [hfork, Option.toList_none, List.append_nil] at hnext
  exact ⟨t, a, p, c, b, s, ht, trivial, he, hfork, hnext⟩

/-- Promotion of a candidate. Let any number of reads of one key begin, by `Get` or `MGet`, while
nothing else is under way, and interleave in any way before the candidate expires and the window
ends. No read is sent upstream; every reader that returns has the value of the candidate from a
tier; at most one transition to HOT is reported; nothing but the candidate is stored in the
protected tier, at most once and with the expiry it had, and it is there once they have all
returned. And the readers never wait for each other for good. -/
theorem one_promotion (h₀ : svc.Reachable direct content g₀) (hb : svc.Begins k e limit g₀)
    (h : Trail (svc.readsOf k limit) g₀ tr g) :
    (∀ ev ∈ tr, ∀ op, ev.action ≠ .upstream op) ∧
    (∀ t, g₀.pool.length ≤ t → ∀ y, g.pool[t]? = some (.ret y) →
      ∃ m reply, (World.trace g.state t).done = some (m, reply) ∧ ReadsAs e.value reply) ∧
    ((emitted tr).filter fun τ => τ.key = k ∧ τ.after = .hot).length ≤ 1 ∧
    (stores tr = [] ∨ stores tr = [(k, e.value, e.expiresAt)]) ∧
    (g.Quiescent → g₀.pool.length < g.pool.length →
      stores tr = [(k, e.value, e.expiresAt)] ∧ World.find g.state .probationary k = none ∧
        ∃ e', World.find g.state .cache k = some e' ∧ e'.value = e.value ∧
          e'.expiresAt = e.expiresAt) ∧
    ∃ g', Reach (svc.readsOf k limit) g g' ∧ g'.Quiescent ∧
      g'.pool.length = g.pool.length := by
  have hbooked := hb.booked h₀ h
  have hh := hb.reach h₀ h.reach
  have hi : svc.Promoting k e.item limit g.state := hh.inv
  have hserved : ∀ t y, g.pool[t]? = some (.ret y) →
      Served k e.item g₀.pool.length t g.state := fun t y ht => hh.threads t _ ht
  refine ⟨hbooked.local_, ?_, ?_, ?_, ?_, hb.completes h₀ h.reach⟩
  · intro t hle y ht
    exact (hserved t y ht).reply hle
  · have hle := List.length_filter_le (fun τ => decide (τ.key = k ∧ τ.after = .hot)) (emitted tr)
    have hone := hbooked.emitted
    have := Bool.toNat_le ((World.handover g.state k).admitted)
    omega
  · rw [hbooked.stores]
    cases ht : (World.handover g.state k).target with
    | none => exact .inl rfl
    | some y =>
      rw [hi.stage.target_eq ht]
      exact .inr rfl
  · intro hq hlt
    have htarget : (World.handover g.state k).target = some e.item := by
      obtain ⟨y, hy⟩ := hq.ret hlt
      exact (hserved _ y hy).arrived (Nat.le_refl _)
    have hsource : (World.handover g.state k).source = none := by
      rcases hi.stage.place_of_settled (.inr (by rw [htarget]; nofun)) with ⟨-, hnone⟩ | ⟨hs, -⟩
      · exact absurd (htarget.symm.trans hnone) nofun
      · exact hs
    obtain ⟨e', hfind, hitem⟩ := Option.map_eq_some_iff.1 htarget
    refine ⟨?_, Option.map_eq_none_iff.1 hsource, e', hfind, congrArg Prod.fst hitem,
      congrArg Prod.snd hitem⟩
    rw [hbooked.stores, htarget]
    rfl

/-- Three readers: one has found the candidate when another takes it away, and the third one comes
while it is on its way. -/
def raceTurns : List (Turn sample.machine) :=
  [.spawn (sample.call (.get [7])), .spawn (sample.call (.mget [[7]])),
    .spawn (sample.call (.get [7])), .run 3 3, .run 2 10, .run 4 100, .run 2 100, .run 3 100,
    .run 4 100]

def race : sample.machine.Config × List sample.machine.Event := sampleRead.play pick raceTurns

theorem race_trail (limit : Time) :
    Trail (sample.readsOf [7] limit) sampleRead race.2 race.1 := by
  have hnil : Trail (sample.readsOf [7] limit) sampleRead [] sampleRead := .nil
  have hturns : ∀ x ∈ raceTurns, x.Allowed (sample.readsOf [7] limit) := by
    simp only [raceTurns, List.forall_mem_cons, List.not_mem_nil, false_implies, implies_true,
      and_true, Turn.Allowed]
    exact ⟨.inl rfl, .inr rfl, .inl rfl⟩
  have h := hnil.play (fun _ _ _ => trivial) pick hturns
  rwa [List.nil_append] at h

theorem one_promotion_sample : ∃ e, sampleRead.state.find .probationary [7] = some e ∧
    stores race.2 = [([7], e.value, e.expiresAt)] ∧
    ((emitted race.2).filter fun τ => τ.key = [7] ∧ τ.after = .hot).length ≤ 1 ∧
    ∀ t, 2 ≤ t → t ≤ 4 →
      ∃ m reply, (race.1.state.trace t).done = some (m, reply) ∧ ReadsAs e.value reply := by
  have hf : (sampleRead.state.find .probationary [7]).isSome = true := by decide +kernel
  obtain ⟨e, he⟩ := Option.isSome_iff_exists.1 hf
  have hexp : ∀ e' ∈ sampleRead.state.find .probationary [7],
      sampleRead.state.clock + 1 ≤ e'.expiresAt := by decide +kernel
  have hb : sample.Begins [7] e (sampleRead.state.clock + 1) sampleRead := by
    refine ⟨?_, ?_, ?_, he, ?_, ?_, hexp e he, ?_, ?_⟩
    · decide +kernel
    · decide +kernel
    · decide +kernel
    · have hnone : (sampleRead.state.find .cache [7]).isNone = true := by decide +kernel
      exact Option.isNone_iff_eq_none.1 hnone
    · exact Int.lt_succ _
    · decide +kernel
    · intro u _
      rfl
  obtain ⟨-, hreply, hone, -, hdone, -⟩ := one_promotion sampleRead_reachable hb (race_trail _)
  have hquiet : race.1.Quiescent := by decide +kernel
  have hlength : race.1.pool.length = 5 := by decide +kernel
  refine ⟨e, he, (hdone hquiet (by decide +kernel)).1, hone, fun t hle hge => ?_⟩
  obtain ⟨y, hy⟩ := hquiet.ret (t := t) (by omega)
  exact hreply t hle y hy

end Slizen.Service
