import Slizen.Interleaving.Stretch
import Slizen.Service.Composition
import Slizen.Service.Runs

namespace Slizen
set_option autoImplicit true

open Interleaving Machine Outline

theorem Tier.eq_other {tier tier' : Tier} (h : tier' ≠ tier) : tier' = tier.other := by
  cases tier <;> cases tier' <;> first | rfl | exact absurd rfl h

namespace Service

variable {svc : Service} {direct : Bool} {content : Key → Option Bytes} {P : svc.machine.Rules}
  {C : Action → World → Prop} {s s' : World} {t : Nat} {key : Key} {value : Value}
  {policy : Decision}

/-- The critical section of a refill; its answer says whether the epoch was current. -/
def refillSection (svc : Service) (key : Key) (value : Value) (epoch : Nat) (policy : Decision) :
    Run Bool := do
  lock (cacheEpochStripe key)
  let current ← Run.do (.stripe (cacheEpochStripe key) .epochLoad)
  Run.when (current = epoch) (svc.reconcile key value policy)
  pure (decide (current = epoch))

theorem reconcileLocalIfCurrent_eq (svc : Service) (key : Key) (value : Value) (epoch : Nat)
    (policy : Decision) : svc.reconcileLocalIfCurrent key value epoch policy =
      svc.refillSection key value epoch policy >>= fun _ => unlock (cacheEpochStripe key) := by
  unfold reconcileLocalIfCurrent refillSection
  simp only [Prog.bind_assoc, Prog.pure_eq, Prog.ret_bind]

structure Storable (svc : Service) (key : Key) (value : Value) (policy : Decision) : Prop where
  found : value.exists? = true
  size : estimateSize key value.data ≤ policy.maxItemBytes
  ttl : 0 < svc.localTTL value.pttl policy.maxLocalTTL

/-- Nothing older than the reply is left of the key: an entry has the bytes of the reply, and there
is none if the reply may not be kept. -/
def Superseded (svc : Service) (key : Key) (value : Value) (policy : Decision) (s : World) : Prop :=
  ∀ tier e, s.find tier key = some e →
    e.value.bytes = value.data.bytes ∧ svc.Storable key value policy

/-- The section looks for the key among the tracked ones in vain and leaves an older candidate where
it is. -/
structure PassesOver (svc : Service) (key : Key) (value : Value) (policy : Decision) (a : Action)
    (s : World) : Prop where
  action : a = .tracker (.isTracked key)
  untracked : s.tracker.isTracked key = false
  candidate : ∃ e, s.find .probationary key = some e ∧
    ¬ (e.value.bytes = value.data.bytes ∧ svc.Storable key value policy)

structure Settled (svc : Service) (t : Nat) (key : Key) (value : Value) (policy : Decision)
    (s : World) : Prop where
  owns : s.Owns t (cacheEpochStripe key)
  superseded : svc.Superseded key value policy s

theorem Settled.rely (h : svc.Settled t key value policy s) (hr : Rely t s s') :
    svc.Settled t key value policy s' := by
  constructor
  · exact (hr.owner _).1 h.owns
  · intro tier e he
    obtain ⟨e₀, he₀, hs⟩ := hr.within tier key e h.owns he
    rw [hs.value]
    exact h.superseded tier e₀ he₀

theorem settled_of_none (ho : s.Owns t (cacheEpochStripe key))
    (h : ∀ tier, s.find tier key = none) : svc.Settled t key value policy s := by
  refine ⟨ho, fun tier e he => ?_⟩
  rw [h tier] at he
  cases he

/-- What the other goroutines and the goroutine itself make of a stretch of its program, in the
outline of the service. -/
abbrev post (svc : Service) (P : svc.machine.Rules) (C : Action → World → Prop) (t : Nat)
    (p : Run α) (Q : α → World → Prop) (s : World) : Prop := (svc.outline P).post C t p Q s

theorem post_do {a : Action} {Q : a.Resp → World → Prop}
    (h : ∀ s₁, Rely t s s₁ → svc.Base s₁ → svc.Pre t a s₁ → C a s₁ →
      ∀ c b s₂, World.exec t a c s₁ = some (b, s₂) → svc.Base s₂ → Q b s₂) :
    svc.post P C t (Run.do a) Q s :=
  fun s₁ hr hi hp hc _ c b s₂ he hi₂ => h s₁ hr hi hp hc c b s₂ he hi₂

theorem post_lock (σ : Stripe) : svc.post P C t (lock σ) (fun _ s' => s'.Owns t σ) s := by
  apply post_do
  intro s₁ _ _ _ _ c b s₂ he _
  obtain ⟨st, hst, rfl⟩ := World.exec_stripe he
  obtain ⟨-, hst⟩ := Option.ite_none_right_eq_some.1 hst
  cases hst
  simp [World.Owns]

theorem post_put {tier : Tier} {ttl : Time}
    (httl : ¬ ttl ≤ 0) (hs : svc.Storable key value policy) :
    svc.post P C t (Run.do (.cache tier (.put key value.data ttl)))
      (fun _ s' => svc.Settled t key value policy s') s := by
  apply post_do
  intro s₁ _ _ hp _ c b s₂ he hi₂
  obtain ⟨ho, -, -, hother, -⟩ := hp
  have hown := (progress_of_cache he).2
  have hempty := hi₂.nonempty tier
  obtain ⟨-, rfl⟩ := World.exec_cache he
  refine ⟨(hown _).1 ho, fun tier' e hf => ⟨?_, hs⟩⟩
  by_cases htier : tier' = tier
  · subst htier
    simp only [World.find, Function.update_self] at hf hempty
    rcases Cache.find_put hf with ⟨-, -, -, -, rfl⟩ | ⟨hno, -⟩
    · rfl
    · have hk : key = [] := by simpa [httl] using hno
      subst hk
      rw [hempty] at hf
      cases hf
  · simp only [World.find, Function.update_of_ne htier] at hf
    rw [Tier.eq_other htier, show (s₁.tiers tier.other).find key = none from hother] at hf
    cases hf

theorem post_storeIn {tier : Tier} {ttl : Time}
    (hi : svc.Base s) (hx : value.exists? = true) (ho : s.Owns t (cacheEpochStripe key))
    (hother : s.find tier.other key = none)
    (hle : ttl ≤ svc.localTTL value.pttl policy.maxLocalTTL) :
    svc.post P C t (storeIn tier key value policy ttl)
      (fun _ s' => svc.Settled t key value policy s') s := by
  unfold storeIn
  split
  · apply post.seq (wp_delete ho).post hi
    intro _ s₁ _ h
    obtain ⟨hr, hnone⟩ := h
    apply settled_of_none ((hr.owner _).1 ho)
    intro tier'
    by_cases htier : tier' = tier
    · rw [htier, hnone]
    · rw [Tier.eq_other htier]
      exact find_eq_none_of_rely hr ho hother
  · rename_i hc
    rw [not_or, not_or, not_lt] at hc
    obtain ⟨-, hsize, httl⟩ := hc
    exact post_put httl ⟨hx, hsize, (not_le.1 httl).trans_le hle⟩

theorem post_storeProbationary (hi : svc.Base s) (hx : value.exists? = true)
    (ho : s.Owns t (cacheEpochStripe key))
    (hnone : s.find .cache key = none) :
    svc.post P (fun a s => ¬ svc.PassesOver key value policy a s) t
      (svc.storeProbationary key value policy)
      (fun _ s' => svc.Settled t key value policy s') s := by
  unfold storeProbationary
  split
  · -- The lookup leaves the tiers alone; when it fails, what it found there stays.
    have hlookup : svc.post P (fun a s => ¬ svc.PassesOver key value policy a s) t
        (Run.do (.tracker (.isTracked key))) (fun tracked s' => s'.Owns t (cacheEpochStripe key) ∧
          s'.find .cache key = none ∧
          (tracked = false → svc.Settled t key value policy s')) s := by
      apply post_do
      intro s₁ hr hi₁ _ hpass c b s₂ he hi₂
      obtain ⟨tr, hrun, rfl⟩ := World.exec_tracker he
      cases hrun
      have ho₁ := (hr.owner _).1 ho
      have hnone₁ : s₁.find .cache key = none := find_eq_none_of_rely hr ho hnone
      refine ⟨ho₁, hnone₁, fun huntracked => ⟨ho₁, fun tier e hf => ?_⟩⟩
      cases tier with
      | cache =>
        rw [show s₁.find .cache key = some e from hf] at hnone₁
        cases hnone₁
      | probationary =>
        by_contra hold
        exact hpass ⟨rfl, huntracked, e, hf, hold⟩
    apply post.seq hlookup hi
    intro tracked s₁ hi₁ h
    obtain ⟨ho₁, hnone₁, hold⟩ := h
    split
    · exact post_storeIn hi₁ hx ho₁ hnone₁ (probationaryTTL_le svc value policy).1
    · rename_i htracked
      exact hold (by simpa using htracked)
  · rename_i hp
    apply settled_of_none ho
    intro tier
    cases tier with
    | cache => exact hnone
    | probationary => exact hi.absent (by simpa using hp) key

theorem post_reconcile (hi : svc.Base s) (ho : s.Owns t (cacheEpochStripe key)) :
    svc.post P (fun a s => ¬ svc.PassesOver key value policy a s) t
      (svc.reconcile key value policy)
      (fun _ s' => svc.Settled t key value policy s') s := by
  unfold reconcile
  split
  · rename_i hx
    apply post.seq (wp_isHot key).post hi
    intro hot s₁ hi₁ h
    have ho₁ := (h.1.owner _).1 ho
    split
    · apply post.seq (wp_deleteProbationary hi₁ ho₁).post hi₁
      intro _ s₂ hi₂ h₂
      obtain ⟨hr₂, hnone⟩ := h₂
      exact post.seq (post_storeIn hi₂ hx ((hr₂.owner _).1 ho₁) hnone le_rfl) hi₂ fun _ _ _ h => h
    · apply post.seq (wp_delete ho₁).post hi₁
      intro _ s₂ hi₂ h₂
      obtain ⟨hr₂, hnone⟩ := h₂
      exact post.seq (post_storeProbationary hi₂ hx ((hr₂.owner _).1 ho₁) hnone) hi₂
        fun _ _ _ h => h
  · apply post.seq (wp_delete ho).post hi
    intro _ s₁ hi₁ h₁
    obtain ⟨hr₁, hnone⟩ := h₁
    have ho₁ := (hr₁.owner _).1 ho
    apply post.seq (wp_deleteProbationary hi₁ ho₁).post hi₁
    intro _ s₂ _ h₂
    obtain ⟨hr₂, hnone₂⟩ := h₂
    apply settled_of_none ((hr₂.owner _).1 ho₁)
    intro tier
    cases tier with
    | cache => exact find_eq_none_of_rely hr₂ ho₁ hnone
    | probationary => exact hnone₂

theorem post_refillSection (hi : svc.Base s) :
    svc.post P (fun a s => ¬ svc.PassesOver key value policy a s) t
      (svc.refillSection key value epoch policy)
      (fun current s' => current = true → svc.Settled t key value policy s') s := by
  unfold refillSection
  apply post.seq (post_lock _) hi
  intro _ s₁ hi₁ ho₁
  apply post.seq (wp_epochLoad _).post hi₁
  intro current s₂ hi₂ h₂
  have ho₂ := (h₂.1.owner _).1 ho₁
  by_cases hcurrent : current = epoch
  · rw [Run.when, if_pos hcurrent]
    exact post.seq (post_reconcile hi₂ ho₂) hi₂ fun _ _ _ h _ => h
  · rw [Run.when, if_neg hcurrent]
    intro htrue
    exact absurd (of_decide_eq_true htrue) hcurrent

theorem tiers_of_last {g₀ g : svc.machine.Config} {tr : List svc.machine.Event}
    {e : svc.machine.Event} (h : Trail P g₀ (tr ++ [e]) g)
    (he : (e.action : Action) = .tracker (.isTracked key)) : g.state.tiers = e.before.tiers := by
  obtain ⟨g₁, g₂, c, k, -, -, -, -, hexec, hlast⟩ := h.split rfl
  have hquiet : ∀ {tr' : List svc.machine.Event} {g' : svc.machine.Config},
      Trail P g₂ tr' g' → tr' = [] → g'.state.tiers = g₂.state.tiers := by
    intro tr' g' h'
    induction h' with
    | nil => exact fun _ => rfl
    | run => exact fun hnil => absurd hnil (by simp)
    | spawn _ _ ih => exact ih
    | env _ _ he ih =>
      intro hnil
      rw [World.env_eq he]
      exact ih hnil
  rw [hquiet hlast rfl]
  obtain ⟨thread, before, action, answer⟩ := e
  cases he
  have hexec : World.exec thread (.tracker (.isTracked key)) c before = some (answer, g₂.state) :=
    hexec
  obtain ⟨tr', -, hs⟩ := World.exec_tracker hexec
  have htiers := congrArg World.tiers hs
  exact htiers

theorem stopsAt_reconcile (svc : Service) (key : Key) (value : Value) (policy : Decision) :
    (svc.reconcile key value policy).StopsAt ⟨.tracker (.isTracked key), false⟩ := by
  have hdelete : ∀ tier, (delete tier key).Uses (· ≠ .tracker (.isTracked key)) :=
    fun tier => ⟨by simp, fun _ => trivial⟩
  have hprobationary : (svc.deleteProbationary key).Uses (· ≠ .tracker (.isTracked key)) :=
    uses_ite ⟨by simp, fun _ => trivial⟩ trivial
  have hstore : ∀ tier ttl, (storeIn tier key value policy ttl).Uses
      (· ≠ .tracker (.isTracked key)) :=
    fun tier ttl => uses_ite ⟨by simp, fun _ => trivial⟩ ⟨by simp, fun _ => trivial⟩
  unfold reconcile
  split
  · refine .bind ⟨by simp, fun _ => trivial⟩ fun hot => ?_
    split
    · exact .bind hprobationary fun _ => .map (hstore _ _).stopsAt
    · refine .bind (hdelete _) fun _ => .map ?_
      unfold storeProbationary
      split
      · intro tracked
        cases tracked with
        | true => exact ⟨by simp, (hstore _ _).stopsAt⟩
        | false => exact ⟨fun _ => rfl, trivial⟩
      · trivial
  · exact .bind (hdelete _) fun _ => .map hprobationary.stopsAt

theorem stopsAt_refillSection (svc : Service) (key : Key) (value : Value) (epoch : Nat)
    (policy : Decision) : (svc.refillSection key value epoch policy).StopsAt
      ⟨.tracker (.isTracked key), false⟩ := by
  refine .bind ⟨by simp, fun _ => trivial⟩ fun _ => ?_
  refine .bind ⟨by simp, fun _ => trivial⟩ fun current => .map ?_
  unfold Run.when
  split
  · exact svc.stopsAt_reconcile key value policy
  · trivial

theorem PassesOver.act {g₀ g : svc.machine.Config} {tr : List svc.machine.Event}
    {e : svc.machine.Event} (hpass : svc.PassesOver key value policy e.action e.before)
    (h : Trail P g₀ tr g) (he : e ∈ tr) : e.act = ⟨.tracker (.isTracked key), false⟩ := by
  obtain ⟨c, s, hexec⟩ := h.exec he
  obtain ⟨t, before, action, answer⟩ := e
  cases hpass.action
  have hexec : World.exec t (.tracker (.isTracked key)) c before = some (answer, s) := hexec
  obtain ⟨tracker, hrun, -⟩ := World.exec_tracker hexec
  cases hrun
  rw [← hpass.untracked]
  rfl

theorem PassesOver.not_superseded {g₀ g : svc.machine.Config} {tr : List svc.machine.Event}
    {e : svc.machine.Event} (hpass : svc.PassesOver key value policy e.action e.before)
    (h : Trail P g₀ (tr ++ [e]) g) : ¬ svc.Superseded key value policy g.state := by
  intro hsup
  obtain ⟨e', hfind, hold⟩ := hpass.candidate
  have htiers := tiers_of_last h hpass.action
  have hfind' := (congrArg (fun tiers => (tiers .probationary).find key) htiers).trans hfind
  exact hold (hsup .probationary e' hfind')

/-- Only at its last step can the section pass over a candidate. -/
theorem PassesOver.foreign {g₀ g : svc.machine.Config} {tr : List svc.machine.Event}
    {e e' : svc.machine.Event} {q : Run Bool}
    (hpass : svc.PassesOver key value policy e'.action e'.before)
    (h : Trail P g₀ (tr ++ [e]) g) (he' : e' ∈ tr)
    (hafter : (svc.refillSection key value epoch policy).After
      (threadActs (tr ++ [e]) e.thread) q) : e'.thread ≠ e.thread := by
  intro ht
  obtain ⟨tr₁, tr₂, rfl⟩ := List.append_of_mem he'
  have hact := hpass.act h (by simp)
  rw [List.append_assoc, List.cons_append, threadActs, acts_append, ← ht, acts_cons_self,
    hact] at hafter
  have hlast : e.act ∈ threadActs (tr₂ ++ [e]) e'.thread := mem_acts.2 ⟨e, by simp, ht.symm, rfl⟩
  rw [threadActs, hafter.stopped (svc.stopsAt_refillSection key value epoch policy)] at hlast
  cases hlast

/-- A refill whose epoch is current leaves nothing older behind, unless its last step passes over a
candidate of a key that the tracker has lost; and nothing older comes back before it unlocks. -/
theorem refill_supersedes {g₀ g₁ : svc.machine.Config} {tr : List svc.machine.Event}
    {e : svc.machine.Event} {epoch : Nat} {f : Unit → Run Unit}
    (hreach : svc.Reachable direct content g₀)
    (hp : g₀.pool[t]? = some (svc.reconcileLocalIfCurrent key value epoch policy >>= f))
    (htr : Trail (svc.calls direct) g₀ (tr ++ [e]) g₁) (he : e.thread = t)
    (hcurrent : (svc.refillSection key value epoch policy).After (threadActs (tr ++ [e]) t)
      (.ret true)) :
    (svc.Superseded key value policy g₁.state ↔
      ¬ svc.PassesOver key value policy e.action e.before) ∧
    ∀ tr' g, Trail (svc.calls direct) g₁ tr' g → (∀ e' ∈ tr', e'.thread ≠ t) →
      svc.Superseded key value policy g₁.state → svc.Superseded key value policy g.state := by
  have hkept : ¬ svc.PassesOver key value policy e.action e.before → ∀ tr' g,
      Trail (svc.calls direct) g₁ tr' g → (∀ e' ∈ tr', e'.thread ≠ t) →
      svc.Superseded key value policy g.state := by
    intro hlast tr' g htr' hother
    have hC : ∀ e' ∈ (tr ++ [e]) ++ tr', e'.thread = t →
        ¬ svc.PassesOver key value policy e'.action e'.before := by
      intro e' he' ht
      rcases List.mem_append.1 he' with he' | he'
      · rcases List.mem_append.1 he' with he' | he'
        · exact fun hpass => hpass.foreign htr he' (he ▸ hcurrent) (ht.trans he.symm)
        · rwa [List.mem_singleton.1 he']
      · exact absurd ht (hother e' he')
    rw [reconcileLocalIfCurrent_eq, Prog.bind_assoc] at hp
    have hstable : ∀ (x : Bool) (s s' : World), Rely t s s' →
        (x = true → svc.Settled t key value policy s) →
        x = true → svc.Settled t key value policy s' := fun _ _ _ hr h hx => (h hx).rely hr
    have hafter : (svc.refillSection key value epoch policy).After
        (threadActs ((tr ++ [e]) ++ tr') t) (.ret true) := by
      rwa [threadActs, acts_append, acts_eq_nil hother, List.append_nil]
    have hend := (Reachable.verified hreach).stretch (htr.append htr') hreach hp hC hstable
      (post_refillSection (Reachable.base hreach)) hafter
    exact (hend.2 rfl).superseded
  have hpassed : svc.Superseded key value policy g₁.state →
      ¬ svc.PassesOver key value policy e.action e.before :=
    fun hsup hpass => hpass.not_superseded htr hsup
  constructor
  · exact ⟨hpassed, fun hlast => hkept hlast [] g₁ .nil (by simp)⟩
  · exact fun tr' g htr' hother hsup => hkept (hpassed hsup) tr' g htr' hother

def firstReply : Value := ⟨⟨[0], .read 0 0 (-1)⟩, true, -1⟩

def refilling : sample.machine.Config :=
  (sample.schedule (fun _ => some [0]) pick [.call (.get [7]), .go 0 100, .go 1 4]).1

theorem refill_supersedes_sample :
    sample.Superseded [7] firstReply (sample.policy [7]) (refilling.drive pick 1 6).state ∧
      ((refilling.drive pick 1 6).state.find .probationary [7]).isSome := by
  have hreach : sample.Reachable true (fun _ => some [0]) refilling :=
    (schedule_trail pick (by decide)).reach
  have hp : refilling.pool[1]? =
      some ((sample.reconcileLocalIfCurrent [7] firstReply 0 (sample.policy [7]) >>=
        fun _ => pure (.ok firstReply)) >>= fun r => do
          Run.do (.group (.complete 0 r))
          note (.finish .flight)) := by rfl
  rw [Prog.bind_assoc] at hp
  have htr : Trail (sample.calls true) refilling (refilling.events pick 1 6) _ :=
    Trail.drive .nil (fun _ _ _ => trivial) pick 1 6
  have hafter : (sample.refillSection [7] firstReply 0 (sample.policy [7])).After
      (threadActs (refilling.events pick 1 6) 1) (.ret true) :=
    .cons _ (.cons _ (.cons _ (.cons _ (.cons _ (.cons _ (.nil _))))))
  have hevents : ∀ e ∈ refilling.events pick 1 6,
      e.thread = 1 ∧ e.before.tracker.isTracked [7] = true := by decide +kernel
  obtain ⟨tr, e, hlast⟩ := (List.eq_nil_or_concat (refilling.events pick 1 6)).resolve_left
    (fun hnil => absurd (congrArg List.length hnil) (by decide +kernel))
  rw [List.concat_eq_append] at hlast
  rw [hlast] at htr hafter hevents
  obtain ⟨hthread, htracked⟩ := hevents e (by simp)
  constructor
  · refine (refill_supersedes hreach hp htr hthread hafter).1.2 fun hpass => ?_
    have huntracked := hpass.untracked
    rw [htracked] at huntracked
    cases huntracked
  · decide +kernel

def narrow : Service :=
  { sample with
    cfg := { sample.cfg with hotness := { sample.cfg.hotness with maxTrackedKeys := 1 } } }

/-- While a flight of one key is under way another read makes it a candidate, a client of the origin
overwrites it, and the tracker gives its place to a second key. -/
def overtaken : narrow.machine.Config :=
  (narrow.schedule (fun _ => some [0]) pick
    [.call (.get [7]), .go 0 100, .call (.mget [[7]]), .go 2 100,
      .env (.originWrite [7] (some [1])), .call (.get [8]), .go 3 100, .go 1 4]).1

def newerReply : Value := ⟨⟨[1], .read 1 1 (-1)⟩, true, -1⟩

theorem candidate_outlives_refill : ∃ (g₀ g : narrow.machine.Config)
    (tr : List narrow.machine.Event) (t : Nat) (key : Key) (value : Value) (epoch : Nat)
    (policy : Decision) (f : Unit → Run Unit),
    narrow.Reachable true (fun _ => some [0]) g₀ ∧
    g₀.pool[t]? = some (narrow.reconcileLocalIfCurrent key value epoch policy >>= f) ∧
    Trail (narrow.calls true) g₀ tr g ∧
    (narrow.refillSection key value epoch policy).After (threadActs tr t) (.ret true) ∧
    ¬ narrow.Superseded key value policy g.state := by
  have hp : overtaken.pool[1]? =
      some ((narrow.reconcileLocalIfCurrent [7] newerReply 0 (narrow.policy [7]) >>=
        fun _ => pure (.ok newerReply)) >>= fun r => do
          Run.do (.group (.complete 0 r))
          note (.finish .flight)) := by rfl
  rw [Prog.bind_assoc] at hp
  refine ⟨overtaken, _, overtaken.events pick 1 5, 1, [7], newerReply, 0, _, _,
    (schedule_trail pick (by decide)).reach, hp,
    Trail.drive .nil (fun _ _ _ => trivial) pick 1 5,
    .cons _ (.cons _ (.cons _ (.cons _ (.cons _ (.nil _))))), ?_⟩
  intro hsup
  have hold : ((overtaken.drive pick 1 5).state.find .probationary [7]).map
      (fun e => e.value.bytes) = some [0] := by decide +kernel
  obtain ⟨e, he, hbytes⟩ := Option.map_eq_some_iff.1 hold
  have hnew := (hsup .probationary e he).1
  rw [hbytes] at hnew
  cases hnew

end Service
end Slizen
