import Slizen.CacheEviction
import Slizen.Interleaving.Handover
import Slizen.Service.Runs
import Slizen.TrackerEntries

namespace Slizen
set_option autoImplicit true

open Interleaving

def Entry.item (e : Entry) : Blob × Time := (e.value, e.expiresAt)

def EntrySnapshot.item (i : EntrySnapshot) : Blob × Time := (i.value, i.expiresAt)

namespace Cache

variable {c : Cache}

theorem getLocked_fresh (h : ∀ e, c.find key = some e → now < e.expiresAt) (allowStale : Bool) :
    (c.getLocked key 0 allowStale now).1.map EntrySnapshot.item = (c.find key).map Entry.item ∧
      ((c.getLocked key 0 allowStale now).2.find key).map Entry.item =
        (c.find key).map Entry.item := by
  rw [getLocked]
  cases hf : c.find key with
  | none => exact ⟨rfl, by rw [hf]⟩
  | some e =>
    have hlimit : e.expiryLimit 0 allowStale = e.expiresAt :=
      if_neg fun hc => absurd hc.2 (lt_irrefl 0)
    dsimp only
    rw [hlimit, if_neg (not_not.2 (h e hf))]
    refine ⟨rfl, ?_⟩
    rw [find_touch, if_pos rfl]
    rfl

theorem putUntil_room (hwf : c.WF) (hopen : c.closed = false) (hk : key ≠ [])
    (hnow : now < expiresAt) (hroom : estimateSize key value ≤ c.maxBytes) :
    (c.putUntil key value expiresAt now).1 = true ∧
      (c.putUntil key value expiresAt now).2.find key =
        some ⟨value, now, expiresAt, now, estimateSize key value⟩ := by
  have hfits : ¬ (c.closed ∨ c.maxBytes ≤ 0 ∨ estimateSize key value > c.maxBytes) := by
    rw [hopen]
    rintro (h | h | h)
    · cases h
    · exact absurd ((estimateSize_pos key value).trans_le hroom) (not_lt.2 h)
    · exact absurd hroom (not_le.2 h)
  rw [putUntil, if_neg hk, if_neg (not_not.2 hnow), putLocked, if_neg hfits]
  exact ⟨rfl, (hwf.stored hroom).found⟩

end Cache

/-- The two tiers and the stripe of a key as the places and the lock of a handover. -/
def World.handover (s : World) (k : Key) : Handover (Blob × Time) where
  source := (s.find .probationary k).map Entry.item
  target := (s.find .cache k).map Entry.item
  moving := (s.stripes (cacheEpochStripe k)).promotionInProgress
  owner := (s.stripes (cacheEpochStripe k)).owner
  admitted := s.tracker.isHot k

namespace Service

open Handover (Stage Step)

variable {svc : Service} {k : Key} {x : Blob × Time} {limit : Time} {s s' : World} {t : Nat}

def readsOf (svc : Service) (k : Key) (limit : Time) : svc.machine.Rules where
  entry := fun p => p = svc.call (.get k) ∨ p = svc.call (.mget [k])
  allow := fun _ _ _ => True
  external := fun e s =>
    match e with
    | .tick d => s.clock + d < limit
    | .cancel _ _ => False
    | .originWrite _ _ => True

/-- What does not change while the item `x` of the key is moved. -/
structure Promotable (svc : Service) (k : Key) (x : Blob × Time) (limit : Time) : Prop where
  key : k ≠ []
  mode : (svc.policy k).mode = .cache
  probationary : svc.hasProbationary = true
  room : estimateSize k x.1 ≤ (svc.newTier .cache).maxBytes
  expiry : limit ≤ x.2

/-- What holds of the shared state while the reads are going on. -/
structure Promoting (svc : Service) (k : Key) (x : Blob × Time) (limit : Time) (s : World) :
    Prop where
  base : svc.Base s
  clock : s.clock < limit
  window : limit ≤ s.tracker.window + s.tracker.cfg.window
  tracked : s.tracker.isTracked k = true
  opened : (s.tiers .cache).closed = false
  stage : Stage x (s.handover k)

def ReadsAs (v : Blob) : Reply → Prop
  | .get (.ok a) => a.value.exists? = true ∧ a.value.data = v ∧ a.via = .tier
  | .mget (.ok [a]) => a.value.exists? = true ∧ a.value.data = v ∧ a.via = .tier
  | _ => False

/-- What a reader has to know at each of its actions. -/
def ReadPre (k : Key) (x : Blob × Time) (t : Nat) : Action → World → Prop
  | .tracker (.observeWithState key), _ => key = k
  | .tracker (.admitKey key), _ => key = k
  | .tracker .advance, _ => False
  | .tracker (.advanceAndSnapshot _), _ => False
  | .cache _ (.get key), _ => key = k
  | .cache _ (.getStale key grace), _ => key = k ∧ grace = 0
  | .cache tier (.delete key), s => tier = .probationary ∧ key = k ∧
      (s.handover k).owner = some t ∧ (s.handover k).moving = true ∧ (s.handover k).admitted = true
  | .cache tier (.putUntil key v exp), s => tier = .cache ∧ key = k ∧ (v, exp) = x ∧
      (s.handover k).owner = some t ∧ (s.handover k).source = none ∧ (s.handover k).target = none
  | .cache _ (.put _ _ _), _ => False
  | .cache _ .purge, _ => False
  | .cache _ .close, _ => False
  | .stripe σ .lock, s => σ = cacheEpochStripe k ∧ (s.handover k).owner ≠ some t
  | .stripe σ .unlock, s => σ = cacheEpochStripe k ∧ (s.handover k).owner = some t ∧
      (s.handover k).Settled
  | .stripe σ (.promotionStore moving), s => σ = cacheEpochStripe k ∧
      (s.handover k).owner = some t ∧ (moving = false → (s.handover k).Settled)
  | .stripe _ .epochAdd, _ => False
  | .gate _ _, _ => False
  | .group _, _ => False
  | .upstream _, _ => False
  | .closeSwap, _ => False
  | .note (.finish reply), _ => ReadsAs x.1 reply
  | _, _ => True

theorem Promoting.fresh (h : svc.Promoting k x limit s) (hp : svc.Promotable k x limit)
    (tier : Tier) (e : Entry) (hf : s.find tier k = some e) : s.clock < e.expiresAt := by
  have hx : e.item = x := by
    cases tier with
    | cache => exact h.stage.target_eq (congrArg (Option.map Entry.item) hf)
    | probationary => exact h.stage.source_eq (congrArg (Option.map Entry.item) hf)
  have hexp : e.expiresAt = x.2 := congrArg Prod.snd hx
  rw [hexp]
  exact h.clock.trans_le hp.expiry

theorem Promoting.step (h : svc.Promoting k x limit s) (hb : svc.Base s')
    (hclock : s'.clock = s.clock)
    (htracker : s'.tracker.window = s.tracker.window ∧ s'.tracker.cfg = s.tracker.cfg ∧
      s'.tracker.isTracked k = true)
    (hclosed : (s'.tiers .cache).closed = (s.tiers .cache).closed)
    (hstep : Step x t (s.handover k) (s'.handover k)) : svc.Promoting k x limit s' where
  base := hb
  clock := hclock ▸ h.clock
  window := by
    rw [htracker.1, htracker.2.1]
    exact h.window
  tracked := htracker.2.2
  opened := hclosed.trans h.opened
  stage := hstep.stage h.stage

theorem handover_raised {tr : Hotness.Tracker} {o : Hotness.Observation}
    (hr : s.tracker.Raised k o tr) (past : Past) :
    World.handover { s with tracker := tr, past := past } k = s.handover k ∨
      World.handover { s with tracker := tr, past := past } k =
        { s.handover k with admitted := true } := by
  have hd : World.handover { s with tracker := tr, past := past } k =
      { s.handover k with admitted := tr.isHot k } := rfl
  rw [hd]
  rcases hr.transitions with ⟨-, hhot⟩ | ⟨-, -, -, -, hhot⟩
  · rw [hhot]
    exact .inl rfl
  · rw [hhot]
    exact .inr rfl

theorem step_same (ht : s'.tiers = s.tiers) (hs : s'.stripes = s.stripes)
    (htr : s'.tracker = s.tracker) : Step x t (s.handover k) (s'.handover k) := by
  have hd : s'.handover k = s.handover k := by simp only [World.handover, World.find, ht, hs, htr]
  rw [hd]
  exact .same

theorem Promoting.tracker_cases {op : TrackerOp} {b : op.Resp} (h : svc.Promoting k x limit s)
    (hpre : ReadPre k x t (.tracker op) s) (hrun : op.run s.tracker c s.clock = some (b, tr)) :
    (∃ o, s.tracker.Raised k o tr ∧ op.transitions b = o.transitions) ∨
      tr = s.tracker ∧ op.transitions b = [] := by
  have hin := h.clock.trans_le h.window
  cases op with
  | observeWithState key =>
    obtain rfl : key = k := hpre
    obtain ⟨-, hrun⟩ := Option.ite_none_right_eq_some.1 hrun
    obtain ⟨rfl, rfl⟩ := Prod.mk.inj (Option.some.inj hrun)
    exact .inl ⟨_, h.base.tracker.raised_observe h.tracked hin c.order, rfl⟩
  | admitKey key =>
    obtain rfl : key = k := hpre
    obtain ⟨-, hrun⟩ := Option.ite_none_right_eq_some.1 hrun
    obtain ⟨rfl, rfl⟩ := Prod.mk.inj (Option.some.inj hrun)
    exact .inl ⟨_, (h.base.tracker.raised_admit h.tracked hin c.order).1, rfl⟩
  | advance => exact hpre.elim
  | advanceAndSnapshot limit => exact hpre.elim
  | _ =>
    cases hrun
    exact .inr ⟨rfl, rfl⟩

theorem Promoting.act_tracker {op : TrackerOp} {b : op.Resp} (h : svc.Promoting k x limit s)
    (hpre : ReadPre k x t (.tracker op) s)
    (he : World.exec t (.tracker op) c s = some (b, s')) :
    svc.Promoting k x limit s' ∧ Step x t (s.handover k) (s'.handover k) := by
  have hb := h.base.of_exec he
  obtain ⟨tr, hrun, rfl⟩ := World.exec_tracker he
  have hraised : ∀ {o : Hotness.Observation}, s.tracker.Raised k o tr →
      svc.Promoting k x limit { s with tracker := tr, past := Past.record s t (.tracker op) b } ∧
        Step x t (s.handover k)
          (World.handover { s with tracker := tr, past := Past.record s t (.tracker op) b } k) := by
    intro o hr
    have hstep : Step x t (s.handover k)
        (World.handover { s with tracker := tr, past := Past.record s t (.tracker op) b } k) := by
      rcases handover_raised hr (Past.record s t (.tracker op) b) with hsame | hraise
      · rw [hsame]
        exact .same
      · rw [hraise]
        exact .raise
    exact ⟨h.step hb rfl ⟨hr.window, hr.cfg, hr.tracked⟩ rfl hstep, hstep⟩
  rcases h.tracker_cases hpre hrun with ⟨o, hr, -⟩ | ⟨rfl, -⟩
  · exact hraised hr
  · exact ⟨h.step hb rfl ⟨rfl, rfl, h.tracked⟩ rfl (t := t) .same, .same⟩

theorem Promoting.putUntil (h : svc.Promoting k x limit s) (hp : svc.Promotable k x limit) :
    ((s.tiers .cache).putUntil k x.1 x.2 s.clock).1 = true ∧
      ((s.tiers .cache).putUntil k x.1 x.2 s.clock).2.find k =
        some ⟨x.1, s.clock, x.2, s.clock, estimateSize k x.1⟩ := by
  have hmax : (s.tiers .cache).maxBytes = (svc.newTier .cache).maxBytes :=
    congrArg Prod.fst (h.base.limits .cache)
  exact Cache.putUntil_room (h.base.wf .cache) h.opened hp.key (h.clock.trans_le hp.expiry)
    (hmax ▸ hp.room)

def withItem (h : Handover (Blob × Time)) (item : Option (Blob × Time)) :
    Tier → Handover (Blob × Time)
  | .cache => { h with target := item }
  | .probationary => { h with source := item }

theorem handover_cache (tier : Tier) (c : Cache) (past : Past) :
    World.handover { s with tiers := Function.update s.tiers tier c, past := past } k =
      withItem (s.handover k) ((c.find k).map Entry.item) tier := by
  cases tier <;> simp [World.handover, World.find, withItem]

theorem Promoting.step_cache {op : CacheOp} {tier : Tier} (hp : svc.Promotable k x limit)
    (h : svc.Promoting k x limit s) (hpre : ReadPre k x t (.cache tier op) s) (past : Past) :
    Step x t (s.handover k) (World.handover { s with
      tiers := Function.update s.tiers tier (op.run (s.tiers tier) s.clock).2
      past := past } k) := by
  -- An operation that leaves the item in its place.
  have hkeep : ((op.run (s.tiers tier) s.clock).2.find k).map Entry.item =
      (s.find tier k).map Entry.item → Step x t (s.handover k) (World.handover { s with
        tiers := Function.update s.tiers tier (op.run (s.tiers tier) s.clock).2
        past := past } k) := by
    intro hitem
    rw [handover_cache, hitem]
    cases tier <;> exact .same
  cases op with
  | get key =>
    obtain rfl : key = k := hpre
    exact hkeep (Cache.getLocked_fresh (h.fresh hp tier) false).2
  | getStale key grace =>
    obtain ⟨rfl, rfl⟩ : key = k ∧ grace = 0 := hpre
    exact hkeep (Cache.getLocked_fresh (h.fresh hp tier) true).2
  | inspect key => exact hkeep rfl
  | stats => exact hkeep rfl
  | put key v ttl => exact hpre.elim
  | purge => exact hpre.elim
  | close => exact hpre.elim
  | delete key =>
    obtain ⟨rfl, rfl, ho, hm, ha⟩ := hpre
    rw [handover_cache]
    simp only [CacheOp.run, Cache.find_delete, if_pos, Option.map_none]
    exact .carry ho hm ha
  | putUntil key v exp =>
    obtain ⟨rfl, rfl, rfl, ho, hs, -⟩ := hpre
    rw [handover_cache]
    simp only [CacheOp.run, (h.putUntil hp).2, Option.map_some]
    exact .place ho hs

theorem Promoting.act_cache {op : CacheOp} {b : op.Resp} {tier : Tier}
    (hp : svc.Promotable k x limit) (h : svc.Promoting k x limit s)
    (hpre : ReadPre k x t (.cache tier op) s)
    (he : World.exec t (.cache tier op) c s = some (b, s')) :
    svc.Promoting k x limit s' ∧ Step x t (s.handover k) (s'.handover k) := by
  have hb := h.base.of_exec he
  obtain ⟨-, rfl⟩ := World.exec_cache he
  have hstep := h.step_cache hp hpre (Past.record s t (.cache tier op) b)
  refine ⟨h.step hb rfl ⟨rfl, rfl, h.tracked⟩ ?_ hstep, hstep⟩
  have hclose : op ≠ .close := by
    rintro rfl
    exact hpre.elim
  cases tier with
  | cache => exact CacheOp.run_closed _ _ hclose
  | probationary => rfl

theorem handover_stripe (st : StripeState) (past : Past) :
    World.handover
        { s with stripes := Function.update s.stripes (cacheEpochStripe k) st, past := past } k =
      { s.handover k with moving := st.promotionInProgress, owner := st.owner } := by
  simp [World.handover]

theorem Promoting.act_stripe {σ : Stripe} {op : StripeOp} {b : op.Resp}
    (h : svc.Promoting k x limit s) (hpre : ReadPre k x t (.stripe σ op) s)
    (he : World.exec t (.stripe σ op) c s = some (b, s')) :
    svc.Promoting k x limit s' ∧ Step x t (s.handover k) (s'.handover k) := by
  have hb := h.base.of_exec he
  obtain ⟨st, hst, rfl⟩ := World.exec_stripe he
  suffices hstep : Step x t (s.handover k) (World.handover { s with
      stripes := Function.update s.stripes σ st, past := Past.record s t (.stripe σ op) b } k) from
    ⟨h.step hb rfl ⟨rfl, rfl, h.tracked⟩ rfl hstep, hstep⟩
  cases op with
  | epochLoad | promotionLoad =>
    cases hst
    exact step_same rfl (Function.update_eq_self _ _) rfl
  | epochAdd => exact hpre.elim
  | lock =>
    obtain ⟨rfl, -⟩ := hpre
    obtain ⟨hfree, hst⟩ := Option.ite_none_right_eq_some.1 hst
    cases hst
    rw [handover_stripe]
    exact .lock hfree
  | unlock =>
    obtain ⟨rfl, ho, hset⟩ := hpre
    obtain ⟨-, hst⟩ := Option.ite_none_right_eq_some.1 hst
    cases hst
    rw [handover_stripe]
    exact .unlock ho hset
  | promotionStore moving =>
    obtain ⟨rfl, ho, hset⟩ := hpre
    cases hst
    rw [handover_stripe]
    cases moving with
    | true => exact .mark ho
    | false => exact .clear ho (hset rfl)

theorem Promoting.act {a : Action} {b : a.Resp} (hp : svc.Promotable k x limit)
    (h : svc.Promoting k x limit s) (hpre : ReadPre k x t a s)
    (he : World.exec t a c s = some (b, s')) :
    svc.Promoting k x limit s' ∧ Step x t (s.handover k) (s'.handover k) := by
  have hframe : s'.tiers = s.tiers ∧ s'.stripes = s.stripes ∧ s'.tracker = s.tracker →
      svc.Promoting k x limit s' ∧ Step x t (s.handover k) (s'.handover k) := by
    rintro ⟨ht, hs, htr⟩
    have hclock : s'.clock = s.clock := by
      obtain ⟨s₁, hstep, rfl⟩ := World.exec_eq_some.1 he
      exact (World.step_frame hstep).clock
    have hstep : Step x t (s.handover k) (s'.handover k) := step_same ht hs htr
    exact ⟨h.step (h.base.of_exec he) hclock
      ⟨by rw [htr], by rw [htr], by rw [htr]; exact h.tracked⟩
      (by rw [ht]) hstep, hstep⟩
  cases a with
  | tracker op => exact h.act_tracker hpre he
  | cache tier op => exact h.act_cache hp hpre he
  | stripe σ op => exact h.act_stripe hpre he
  | gate σ op => exact hpre.elim
  | group op => exact hpre.elim
  | upstream op => exact hpre.elim
  | closeSwap => exact hpre.elim
  | _ =>
    obtain ⟨s₁, hstep, rfl⟩ := World.exec_eq_some.1 he
    have hf := World.step_frame hstep
    exact hframe ⟨hf.tiers nofun, hf.stripes nofun, hf.tracker nofun⟩

theorem exec_handover_stripe {op : StripeOp} {b : op.Resp}
    (he : World.exec t (.stripe (cacheEpochStripe k) op) c s = some (b, s')) :
    ∃ st, op.run (s.stripes (cacheEpochStripe k)) t = some (b, st) ∧ s'.handover k =
      { s.handover k with moving := st.promotionInProgress, owner := st.owner } := by
  obtain ⟨st, hst, rfl⟩ := World.exec_stripe he
  exact ⟨st, hst, handover_stripe st _⟩

theorem exec_handover_cache {tier : Tier} {op : CacheOp} {b : op.Resp}
    (he : World.exec t (.cache tier op) c s = some (b, s')) :
    b = (op.run (s.tiers tier) s.clock).1 ∧ s'.handover k =
      withItem (s.handover k) (((op.run (s.tiers tier) s.clock).2.find k).map Entry.item) tier := by
  obtain ⟨hb, rfl⟩ := World.exec_cache he
  exact ⟨hb, handover_cache tier _ _⟩

structure Bystands (k : Key) (t : Nat) (s s' : World) : Prop where
  trace : s'.trace t = s.trace t
  contexts : s'.contexts t = s.contexts t
  handover : Handover.Rely t (s.handover k) (s'.handover k)

theorem Bystands.refl (k : Key) (t : Nat) (s : World) : Bystands k t s s := ⟨rfl, rfl, .refl t _⟩

theorem Bystands.trans (h : Bystands k t s₁ s₂) (h' : Bystands k t s₂ s₃) : Bystands k t s₁ s₃ :=
  ⟨h'.trace.trans h.trace, h'.contexts.trans h.contexts, h.handover.trans h'.handover⟩

theorem Promoting.bystands {a : Action} {b : a.Resp} (hp : svc.Promotable k x limit)
    (h : svc.Promoting k x limit s) (hpre : ReadPre k x t a s)
    (he : World.exec t a c s = some (b, s')) (hu : u ≠ t) : Bystands k u s s' := by
  refine ⟨World.exec_trace_of_ne he hu, ?_, (h.act hp hpre he).2.rely h.stage hu⟩
  obtain ⟨s₁, hstep, rfl⟩ := World.exec_eq_some.1 he
  exact congrFun (World.step_frame hstep).contexts u

theorem Promoting.env {e : Env} (h : svc.Promoting k x limit s)
    (hx : (svc.readsOf k limit).external e s) (he : s.env e = some s') :
    svc.Promoting k x limit s' ∧ ∀ u, Bystands k u s s' := by
  have hb := (h.base.of_env he).1
  cases e with
  | tick d =>
    cases he
    exact ⟨⟨hb, hx, h.window, h.tracked, h.opened, h.stage⟩, fun u => ⟨rfl, rfl, .refl u _⟩⟩
  | cancel u expired => exact hx.elim
  | originWrite key value =>
    cases he
    exact ⟨⟨hb, h.clock, h.window, h.tracked, h.opened, h.stage⟩, fun u => ⟨rfl, rfl, .refl u _⟩⟩

structure Arriving (k : Key) (u : Nat) (s : World) : Prop where
  context : s.contexts u = none
  stripe : (s.handover k).owner ≠ some u

/-- A goroutine that has returned; if it is one of the readers, then with the item, which has
arrived. -/
structure Served (k : Key) (x : Blob × Time) (first u : Nat) (s : World) : Prop where
  stripe : (s.handover k).owner ≠ some u
  arrived : first ≤ u → (s.handover k).target = some x
  reply : first ≤ u → ∃ m reply, (s.trace u).done = some (m, reply) ∧ ReadsAs x.1 reply

theorem Served.bystands (h : Served k x first u s) (hr : Bystands k u s s') :
    Served k x first u s' where
  stripe := fun ho => h.stripe (hr.handover.owner.2 ho)
  arrived := fun hu => hr.handover.target x (h.arrived hu)
  reply := fun hu => hr.trace ▸ h.reply hu

/-- The proof outline of the readers, the first of whom is goroutine `first`. -/
def promotion (svc : Service) (hp : svc.Promotable k x limit) (first : Nat) :
    Outline svc.machine (svc.readsOf k limit) where
  Inv := svc.Promoting k x limit
  Rely := Bystands k
  Pre := ReadPre k x
  Fresh := Arriving k
  Ready := fun _ _ => False
  Done := Served k x first
  rely_refl := Bystands.refl k
  rely_trans := Bystands.trans
  fresh := fun hr h => ⟨hr.contexts.trans h.context, fun ho => h.stripe (hr.handover.owner.2 ho)⟩
  done := fun hr h => h.bystands hr
  act := fun hi _ hpre he => ⟨(hi.act hp hpre he).1, fun _ hu => hi.bystands hp hpre he hu⟩
  env := fun hi hx he => hi.env hx he

def Looks (k : Key) : Action → Prop
  | .tracker (.isHot _) => True
  | .tracker .stats => True
  | .cache _ (.get key) => key = k
  | .cache _ (.getStale key grace) => key = k ∧ grace = 0
  | .cache _ .stats => True
  | .stripe _ .promotionLoad => True
  | .record _ => True
  | .ctxErr => True
  | .note (.start _) => True
  | _ => False

theorem Looks.pre {a : Action} (h : Looks k a) : ReadPre k x t a s := by
  cases a with
  | tracker op => cases op <;> trivial
  | cache tier op => cases op <;> first | exact h | exact h.elim
  | stripe σ op => cases op <;> trivial
  | record m => trivial
  | ctxErr => trivial
  | note n => cases n <;> trivial
  | _ => exact h.elim

theorem Looks.fork {a : Action} (h : Looks k a) (b : a.Resp) : svc.fork a b = none := by
  cases a with
  | group op => exact h.elim
  | _ => rfl

theorem Looks.handover {a : Action} {b : a.Resp} (ha : Looks k a) (hp : svc.Promotable k x limit)
    (h : svc.Promoting k x limit s) (he : World.exec t a c s = some (b, s')) :
    s'.handover k = s.handover k := by
  cases a with
  | tracker op =>
    obtain ⟨tr, hrun, rfl⟩ := World.exec_tracker he
    cases op <;> first | exact ha.elim | (cases hrun; rfl)
  | cache tier op =>
    have hfresh := fun allowStale => (Cache.getLocked_fresh (h.fresh hp tier) allowStale).2
    obtain ⟨-, rfl⟩ := World.exec_cache he
    rw [handover_cache]
    have hitem : ((op.run (s.tiers tier) s.clock).2.find k).map Entry.item =
        (s.find tier k).map Entry.item := by
      cases op with
      | get key =>
        obtain rfl : key = k := ha
        exact hfresh false
      | getStale key grace =>
        obtain ⟨rfl, rfl⟩ : key = k ∧ grace = 0 := ha
        exact hfresh true
      | stats => rfl
      | _ => exact ha.elim
    rw [hitem]
    cases tier <;> rfl
  | stripe σ op =>
    obtain ⟨st, hst, rfl⟩ := World.exec_stripe he
    cases op with
    | promotionLoad =>
      cases hst
      simp only [Function.update_eq_self]
      rfl
    | _ => exact ha.elim
  | record m =>
    cases World.exec_record he
    rfl
  | ctxErr =>
    obtain ⟨-, rfl⟩ := World.exec_ctxErr he
    rfl
  | note n =>
    cases World.exec_note he
    rfl
  | _ => exact ha.elim

end Service
end Slizen
