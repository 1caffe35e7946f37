import Slizen.Service.Blind
import Slizen.Service.Footprint

namespace Slizen
set_option autoImplicit true

open Interleaving Machine

/-- The action neither carries a value nor is answered by one. -/
def Action.Blind (a : Action) : Prop := Action.Alike a a Eq

/-- Two programs that only differ in the bytes of values, with what their results have in
common. -/
abbrev Run.Twin (Q : α → β → Prop) (p : Run α) (p' : Run β) : Prop :=
  Prog.Twin Action.Alike Q p p'

namespace Service

theorem blind_do {a : Action} (h : a.Blind) : (Run.do a).Uses Action.Blind := ⟨h, fun _ => trivial⟩

theorem blind_record (m : Metric) : (record m).Uses Action.Blind := blind_do (.record m)

theorem blind_note (n : Note) : (note n).Uses Action.Blind := blind_do (.note n)

theorem blind_stripe (σ : Stripe) (op : StripeOp) :
    (Run.do (.stripe σ op)).Uses Action.Blind := blind_do (.stripe σ op)

theorem blind_tracker (op : TrackerOp) : (Run.do (.tracker op)).Uses Action.Blind :=
  blind_do (.tracker op)

theorem blind_delete (tier : Tier) (key : Key) : (delete tier key).Uses Action.Blind :=
  blind_do (.cache tier (.delete key))

theorem blind_each {f : α → Run Unit} (hf : ∀ x, (f x).Uses Action.Blind) (l : List α) :
    (Run.each f l).Uses Action.Blind := by
  induction l with
  | nil => trivial
  | cons x rest ih => exact (hf x).bind fun _ => ih

variable (svc : Service)

theorem blind_keeping {p : Run α} (h : p.Uses Action.Keeping) : p.Uses Action.Blind := by
  apply h.mono
  intro a ha
  cases a with
  | tracker op => exact .tracker op
  | cache tier op =>
    cases op with
    | delete key => exact .cache tier (.delete key)
    | stats => exact .cache tier .stats
    | _ => exact ha.elim
  | stripe σ op => exact .stripe σ op
  | record m => exact .record m
  | note n => exact .note n
  | _ => exact ha.elim

theorem blind_bare {p : Run α} (h : p.Uses Action.Bare) : p.Uses Action.Blind :=
  blind_keeping (h.mono fun _ => Action.Bare.keeping)

theorem blind_deleteProbationary (key : Key) : (svc.deleteProbationary key).Uses Action.Blind :=
  blind_bare (svc.bare_deleteProbationary key)

theorem blind_combinedStats : svc.combinedStats.Uses Action.Blind :=
  blind_bare svc.bare_combinedStats

theorem blind_observeCache : svc.observeCache.Uses Action.Blind := blind_bare svc.bare_observeCache

theorem blind_handleTransitions (l : List Hotness.Transition) :
    (svc.handleTransitions l).Uses Action.Blind := blind_keeping (svc.keeping_handleTransitions l)

theorem blind_handleObservation (observation : Hotness.Observation) :
    (svc.handleObservation observation).Uses Action.Blind :=
  blind_keeping (svc.keeping_handleObservation observation)

theorem blind_observeRead (key : Key) (policy : Decision) :
    (svc.observeRead key policy).Uses Action.Blind := by
  apply uses_ite
  · apply (blind_tracker (.observeWithState key)).bind
    intro observation
    exact (svc.blind_handleObservation observation).bind fun _ => trivial
  · trivial

theorem blind_releaseMutationStripes (stripes : List Stripe) :
    (releaseMutationStripes stripes).Uses Action.Blind :=
  blind_each (fun σ => blind_do (.gate σ .receive)) _

theorem blind_acquireMutationStripes (acquired stripes : List Stripe) :
    (acquireMutationStripes acquired stripes).Uses Action.Blind := by
  have hback : ∀ e : Error, (do
      releaseMutationStripes acquired
      pure (.error e) : Run (Except Error (List Stripe))).Uses Action.Blind :=
    fun e => (blind_releaseMutationStripes acquired).bind fun _ => trivial
  induction stripes generalizing acquired with
  | nil => trivial
  | cons σ rest ih =>
    apply (blind_do .ctxErr).bind
    intro err
    cases err with
    | some e => exact hback e
    | none =>
      apply (blind_do (.gate σ .send)).bind
      intro err
      cases err with
      | some e => exact hback e
      | none => exact ih _ fun e => (blind_releaseMutationStripes _).bind fun _ => trivial

theorem blind_invalidateCacheKey (key : Key) (advance : Bool) :
    (svc.invalidateCacheKey key advance).Uses Action.Blind := by
  apply (blind_stripe _ .lock).bind
  intro _
  apply (uses_when (blind_stripe _ .epochAdd)).bind
  intro _
  apply (blind_delete .cache key).bind
  intro _
  apply (svc.blind_deleteProbationary key).bind
  intro _
  apply (blind_note _).bind
  intro _
  exact (blind_stripe _ .unlock).bind fun _ => trivial

theorem blind_invalidateCacheKeys (advanced : List Stripe) (invalidated : Nat) (keys : List Key) :
    (svc.invalidateCacheKeys advanced invalidated keys).Uses Action.Blind := by
  induction keys generalizing advanced invalidated with
  | nil => trivial
  | cons key keys ih => exact (svc.blind_invalidateCacheKey key _).bind fun _ => ih _ _

theorem blind_purgeCache (key : Key) : (svc.purgeCache key).Uses Action.Blind := by
  apply uses_ite
  · have hall : svc.purgeAllCache.Uses Action.Blind := by
      apply (blind_each (fun σ => blind_stripe σ .lock) _).bind
      intro _
      apply (blind_do (.cache .cache .purge)).bind
      intro _
      apply (uses_when (blind_do (.cache .probationary .purge))).bind
      intro _
      apply (blind_each (fun σ => blind_stripe σ .epochAdd) _).bind
      intro _
      exact (blind_note _).bind fun _ => blind_each (fun σ => blind_stripe σ .unlock) _
    exact hall.bind fun _ => svc.blind_observeCache.bind fun _ => trivial
  · apply (svc.blind_invalidateCacheKeys [] 0 [key]).bind
    intro invalidated
    apply (blind_do (.forget key)).bind
    intro _
    apply (uses_when (blind_record _)).bind
    intro _
    exact svc.blind_observeCache.bind fun _ => trivial

theorem blind_status : svc.status.Uses Action.Blind := by
  apply (blind_tracker .advance).bind
  intro transitions
  apply (svc.blind_handleTransitions transitions).bind
  intro _
  apply svc.blind_combinedStats.bind
  intro stats
  apply (blind_record _).bind
  intro _
  apply (blind_tracker .stats).bind
  intro tracked
  apply (blind_record _).bind
  intro _
  apply (blind_do .counters).bind
  intro counters
  exact (blind_do .ping).bind fun _ => (blind_do .now).bind fun _ => trivial

theorem blind_audit (limit : Int) : (svc.audit limit).Uses Action.Blind := by
  apply (blind_tracker (.advanceAndSnapshot _)).bind
  intro view
  apply (svc.blind_handleTransitions _).bind
  intro _
  exact (blind_do .now).bind fun _ => trivial

theorem blind_cacheInfo : svc.cacheInfo.Uses Action.Blind :=
  svc.blind_combinedStats.bind fun _ => (blind_record _).bind fun _ => trivial

theorem blind_close : svc.close.Uses Action.Blind := by
  apply (blind_do .closeSwap).bind
  intro swapped
  apply uses_ite
  · apply (blind_do (.cache .cache .close)).bind
    intro _
    apply (uses_when (blind_do (.cache .probationary .close))).bind
    intro _
    exact blind_do .close
  · trivial

end Service

theorem Run.Twin.after {Q : β → γ → Prop} {p : Run α} {f : α → Run β} {f' : α → Run γ}
    (hp : p.Uses Action.Blind) (hf : ∀ x, Run.Twin Q (f x) (f' x)) :
    Run.Twin Q (p >>= f) (p >>= f') := (Prog.Twin.refl hp).seq hf

theorem Run.Twin.when {c : Prop} [Decidable c] {p p' : Run Unit} (h : Run.Twin Eq p p') :
    Run.Twin Eq (Run.when c p) (Run.when c p') := .ite h (.ret rfl)

namespace Service

variable (svc : Service)

open Run (Twin)

theorem twin_do {a a' : Action} {ρ : a.Resp → a'.Resp → Prop} (h : Action.Alike a a' ρ) :
    Twin ρ (Run.do a) (Run.do a') := .act h fun _ _ hb => .ret hb

theorem twin_cache (tier : Tier) {op op' : CacheOp} {ρ : op.Resp → op'.Resp → Prop}
    (h : CacheOp.Alike op op' ρ) :
    Twin ρ (Run.do (.cache tier op)) (Run.do (.cache tier op')) :=
  twin_do (.cache tier h)

theorem twin_put (tier : Tier) (key : Key) (h : v.Alike v') (ttl : Time) :
    Twin Eq (Run.do (.cache tier (.put key v ttl))) (Run.do (.cache tier (.put key v' ttl))) := by
  have hop := @CacheOp.Alike.put key ttl v v' h
  exact twin_do (.cache tier hop)

theorem twin_putUntil (tier : Tier) (key : Key) (h : v.Alike v') (expiresAt : Time) :
    Twin Eq (Run.do (.cache tier (.putUntil key v expiresAt)))
      (Run.do (.cache tier (.putUntil key v' expiresAt))) := by
  have hop := @CacheOp.Alike.putUntil key expiresAt v v' h
  exact twin_do (.cache tier hop)

theorem twin_getFreshProtected (key : Key) :
    Twin (Option.Rel EntrySnapshot.Alike) (svc.getFreshProtected key)
      (svc.getFreshProtected key) := by
  apply Prog.Twin.ite
  · exact twin_cache .cache (.getStale key 0)
  · exact twin_cache .cache (.get key)

theorem twin_getPromoted (key : Key) :
    Twin (Option.Rel EntrySnapshot.Alike) (svc.getPromoted key) (svc.getPromoted key) := by
  apply Run.Twin.after (blind_tracker (.isHot key))
  intro hot
  apply Prog.Twin.ite
  · apply Run.Twin.after (blind_stripe _ .promotionLoad)
    intro promoting
    apply Prog.Twin.ite
    · apply Run.Twin.after (blind_stripe _ .lock)
      intro _
      apply (svc.twin_getFreshProtected key).bind
      intro item item' hitem
      exact Run.Twin.after (blind_stripe _ .unlock) fun _ => .ret hitem
    · exact svc.twin_getFreshProtected key
  · exact .ret .none

theorem twin_transferCandidate (key : Key) (h : item.Alike item') (promoting : Bool) :
    Twin Eq (transferCandidate key item promoting) (transferCandidate key item' promoting) := by
  obtain ⟨v, hv, rfl⟩ := h
  apply Prog.Twin.ite
  · apply Run.Twin.after (blind_stripe _ (.promotionStore true))
    intro _
    apply Run.Twin.after (blind_delete .probationary key)
    intro _
    apply (twin_putUntil .cache key hv item.expiresAt).seq
    intro stored
    exact Run.Twin.after (blind_stripe _ (.promotionStore false)) fun _ => .ret rfl
  · exact Run.Twin.after (blind_delete .probationary key) fun _ => .ret rfl

theorem twin_promoteCandidate (key : Key) :
    Twin (Option.Rel EntrySnapshot.Alike) (svc.promoteCandidate key)
      (svc.promoteCandidate key) := by
  apply (twin_cache .probationary (.get key)).bind
  intro candidate candidate' h
  cases h with
  | none => exact Run.Twin.after (blind_stripe _ .unlock) fun _ => .ret .none
  | some h =>
    apply Run.Twin.after (blind_tracker (.admitKey key))
    intro observation
    apply (twin_transferCandidate key h _).seq
    intro stored
    apply Run.Twin.after (blind_stripe _ .unlock)
    intro _
    apply Run.Twin.after (svc.blind_handleObservation observation)
    intro _
    apply Run.Twin.after svc.blind_observeCache
    intro _
    cases stored with
    | true => exact .ret (.some h)
    | false => exact .ret .none

theorem twin_promote (key : Key) :
    Twin (Option.Rel EntrySnapshot.Alike) (svc.promote key) (svc.promote key) := by
  apply Run.Twin.after (blind_stripe _ .lock)
  intro _
  apply Run.Twin.after (blind_tracker (.isHot key))
  intro hot
  apply Prog.Twin.ite
  · apply (svc.twin_getFreshProtected key).bind
    intro item item' h
    cases h with
    | some h => exact Run.Twin.after (blind_stripe _ .unlock) fun _ => .ret (.some h)
    | none => exact svc.twin_promoteCandidate key
  · exact svc.twin_promoteCandidate key

theorem twin_getProbationary (key : Key) :
    Twin (Option.Rel EntrySnapshot.Alike) (svc.getProbationary key) (svc.getProbationary key) := by
  apply Prog.Twin.ite
  · apply (twin_cache .probationary (.get key)).bind
    intro candidate candidate' h
    cases h with
    | none => exact svc.twin_getPromoted key
    | some _ => exact svc.twin_promote key
  · exact .ret .none

theorem twin_getFreshCachedInState (key : Key) (state : Option Hotness.State) :
    Twin (Option.Rel EntrySnapshot.Alike) (svc.getFreshCachedInState key state)
      (svc.getFreshCachedInState key state) := by
  apply Prog.Twin.ite
  · apply (svc.twin_getFreshProtected key).bind
    intro item item' h
    cases h with
    | some h => exact .ret (.some h)
    | none => exact svc.twin_getProbationary key
  · exact svc.twin_getProbationary key

theorem twin_getCached (key : Key) (policy : Decision) (state : Option Hotness.State) :
    Twin (Option.Rel EntrySnapshot.Alike) (svc.getCached key policy state)
      (svc.getCached key policy state) :=
  .ite (svc.twin_getFreshCachedInState key state) (.ret .none)

theorem twin_storeIn (tier : Tier) (key : Key) (h : value.Alike value') (policy : Decision)
    (ttl : Time) :
    Twin Eq (storeIn tier key value policy ttl) (storeIn tier key value' policy ttl) := by
  obtain ⟨data, hdata, rfl⟩ := h
  rw [storeIn, storeIn, estimateSize_alike hdata]
  apply Prog.Twin.ite
  · exact Run.Twin.after (blind_delete tier key) fun _ => .ret rfl
  · exact twin_put tier key hdata ttl

theorem Value.Alike.pttl {value value' : Value} (h : value.Alike value') :
    value.pttl = value'.pttl := by
  obtain ⟨data, -, rfl⟩ := h
  rfl

theorem twin_storeLocal (key : Key) (h : value.Alike value') (policy : Decision) :
    Twin Eq (svc.storeLocal key value policy) (svc.storeLocal key value' policy) := by
  rw [storeLocal, storeLocal, Value.Alike.pttl h]
  exact twin_storeIn .cache key h policy _

theorem twin_storeProbationary (key : Key) (h : value.Alike value') (policy : Decision) :
    Twin Eq (svc.storeProbationary key value policy) (svc.storeProbationary key value' policy) := by
  apply Prog.Twin.ite
  · apply Run.Twin.after (blind_tracker (.isTracked key))
    intro tracked
    apply Prog.Twin.ite
    · rw [probationaryTTL, probationaryTTL, Value.Alike.pttl h]
      exact twin_storeIn .probationary key h policy _
    · exact .ret rfl
  · exact .ret rfl

theorem twin_reconcile (key : Key) (h : value.Alike value') (policy : Decision) :
    Twin Eq (svc.reconcile key value policy) (svc.reconcile key value' policy) := by
  have hexists : value.exists? = value'.exists? := by
    obtain ⟨data, -, rfl⟩ := h
    rfl
  rw [reconcile, reconcile, hexists]
  apply Prog.Twin.ite
  · apply Run.Twin.after (blind_tracker (.isHot key))
    intro hot
    apply Prog.Twin.ite
    · apply Run.Twin.after (svc.blind_deleteProbationary key)
      intro _
      exact (svc.twin_storeLocal key h policy).seq fun _ => .ret rfl
    · apply Run.Twin.after (blind_delete .cache key)
      intro _
      exact (svc.twin_storeProbationary key h policy).seq fun _ => .ret rfl
  · apply Run.Twin.after (blind_delete .cache key)
    intro _
    exact Run.Twin.after (svc.blind_deleteProbationary key) fun _ => .ret rfl

theorem twin_reconcileLocalIfCurrent (key : Key) (h : value.Alike value') (epoch : Nat)
    (policy : Decision) :
    Twin Eq (svc.reconcileLocalIfCurrent key value epoch policy)
      (svc.reconcileLocalIfCurrent key value' epoch policy) := by
  apply Run.Twin.after (blind_stripe _ .lock)
  intro _
  apply Run.Twin.after (blind_stripe _ .epochLoad)
  intro current
  apply (Run.Twin.when (svc.twin_reconcile key h policy)).seq
  intro _
  exact .refl (blind_stripe _ .unlock)

theorem ExceptRel.failed {r : α → β → Prop} (h : ExceptRel r x y) : failed x = failed y := by
  cases h <;> rfl

theorem twin_fetchUpstream (isGet : Bool) (keys : List Key) :
    Twin (ExceptRel (List.Forall₂ Value.Alike)) (fetchUpstream isGet keys)
      (fetchUpstream isGet keys) := by
  apply Run.Twin.after (blind_do (.issue keys))
  intro i
  apply (twin_do (.answer i keys)).bind
  intro r r' h
  rw [ExceptRel.failed h]
  exact Run.Twin.after (blind_record _) fun _ => .ret h

theorem twin_fetchUpstreamGet (key : Key) :
    Twin (ExceptRel Value.Alike) (fetchUpstreamGet key) (fetchUpstreamGet key) := by
  apply (twin_fetchUpstream true [key]).bind
  intro r r' h
  apply Prog.Twin.ret
  cases h with
  | error e => exact .error e
  | ok hl =>
    cases hl with
    | nil => exact .error _
    | cons hv _ => exact .ok hv

theorem twin_flightRead (key : Key) (epoch : Nat) (policy : Decision) :
    Twin (ExceptRel Value.Alike) (svc.flightRead key epoch policy)
      (svc.flightRead key epoch policy) := by
  apply (twin_fetchUpstreamGet key).bind
  intro r r' h
  cases h with
  | error e => exact .ret (.error e)
  | ok hv => exact (svc.twin_reconcileLocalIfCurrent key hv epoch policy).seq fun _ => .ret (.ok hv)

theorem twin_flight (key : Key) (epoch : Nat) (policy : Decision) (f : Nat) :
    Twin Eq (svc.flight key epoch policy f) (svc.flight key epoch policy f) := by
  apply Run.Twin.after (blind_note _)
  intro _
  apply (svc.twin_flightRead key epoch policy).bind
  intro r r' h
  have hact := @Action.Alike.complete f r r' h
  apply (twin_do hact).seq
  intro _
  exact .refl (blind_note _)

theorem twin_getFallback (key : Key) (e : Error) :
    Twin (ExceptRel Answer.Alike) (svc.getFallback key e) (svc.getFallback key e) := by
  apply Prog.Twin.ite
  · apply (twin_cache .cache (.getStale key svc.cfg.cache.staleGrace)).bind
    intro item item' h
    cases h with
    | some h => exact .ret (.ok ⟨_, h.toValue, rfl⟩)
    | none => exact .ret (.error e)
  · exact .ret (.error e)

theorem twin_getAwait (key : Key) (f : Nat) (deadline : Time) :
    Twin (ExceptRel Answer.Alike) (svc.getAwait key f deadline) (svc.getAwait key f deadline) := by
  apply (twin_do (.wait f deadline)).bind
  intro waited waited' h
  cases h with
  | done e => exact .ret (.error e)
  | result shared h =>
    apply Run.Twin.after (uses_when (blind_record _))
    intro _
    cases h with
    | error e => exact svc.twin_getFallback key e
    | ok hv => exact Run.Twin.after svc.blind_observeCache fun _ => .ret (.ok ⟨_, hv, rfl⟩)

theorem twin_getMissed (key : Key) (policy : Decision) :
    Twin (ExceptRel Answer.Alike) (svc.getMissed key policy) (svc.getMissed key policy) := by
  apply Run.Twin.after (blind_do .now)
  intro now
  apply Prog.Twin.ite
  · apply Run.Twin.after (blind_stripe _ .epochLoad)
    intro epoch
    apply Run.Twin.after (blind_do (.doChan key epoch policy))
    intro j
    exact svc.twin_getAwait key j.flight _
  · apply (twin_fetchUpstreamGet key).bind
    intro r r' h
    apply Run.Twin.after svc.blind_observeCache
    intro _
    cases h with
    | ok hv => exact .ret (.ok ⟨_, hv, rfl⟩)
    | error e => exact .ret (.error e)

theorem twin_get (key : Key) :
    Twin (ExceptRel Answer.Alike) (svc.get key) (svc.get key) := by
  apply Prog.Twin.ite
  · exact .ret (.error _)
  · apply Run.Twin.after (blind_do .ctxErr)
    intro err
    cases err with
    | some e => exact .ret (.error e)
    | none =>
      apply Run.Twin.after (svc.blind_observeRead key _)
      intro state
      apply (svc.twin_getCached key _ state).bind
      intro item item' h
      cases h with
      | some h => exact Run.Twin.after (blind_record _) fun _ => .ret (.ok ⟨_, h.toValue, rfl⟩)
      | none => exact Run.Twin.after (blind_record _) fun _ => svc.twin_getMissed key _

abbrev FoundAlike (x x' : List Answer × List MissingRead) : Prop :=
  List.Forall₂ Answer.Alike x.1 x'.1 ∧ x.2 = x'.2

theorem twin_mgetLocal (h : List.Forall₂ Answer.Alike out out') (missing : List MissingRead)
    (position : Nat) (keys : List Key) :
    Twin FoundAlike (svc.mgetLocal out missing position keys)
      (svc.mgetLocal out' missing position keys) := by
  induction keys generalizing out out' missing position with
  | nil => exact .ret ⟨h, rfl⟩
  | cons key keys ih =>
    apply Run.Twin.after (svc.blind_observeRead key _)
    intro state
    apply (svc.twin_getCached key _ state).bind
    intro item item' hitem
    cases hitem with
    | some hitem =>
      apply Run.Twin.after (blind_record _)
      intro _
      exact ih (forall₂_set h ⟨_, hitem.toValue, rfl⟩ position) missing _
    | none =>
      apply Run.Twin.after (blind_record _)
      intro _
      apply Prog.Twin.ite
      · apply Run.Twin.after (blind_stripe _ .epochLoad)
        intro epoch
        exact ih h _ _
      · exact ih h _ _

theorem twin_mgetStale (h : List.Forall₂ Answer.Alike out out') (n : Nat)
    (missing : List MissingRead) :
    Twin (fun x x' => List.Forall₂ Answer.Alike x.1 x'.1 ∧ x.2 = x'.2)
      (svc.mgetStale out n missing) (svc.mgetStale out' n missing) := by
  induction missing generalizing out out' n with
  | nil => exact .ret ⟨h, rfl⟩
  | cons read rest ih =>
    apply Prog.Twin.ite
    · apply (twin_cache .cache (.getStale read.key svc.cfg.cache.staleGrace)).bind
      intro item item' hitem
      cases hitem with
      | some hitem => exact ih (forall₂_set h ⟨_, hitem.toValue, rfl⟩ _) _
      | none => exact ih h n
    · exact ih h n

theorem twin_mgetStore (h : List.Forall₂ Answer.Alike out out') (missing : List MissingRead)
    (hv : List.Forall₂ Value.Alike values values') :
    Twin (List.Forall₂ Answer.Alike) (svc.mgetStore out (missing.zip values))
      (svc.mgetStore out' (missing.zip values')) := by
  induction missing generalizing out out' values values' with
  | nil => exact .ret h
  | cons read rest ih =>
    cases hv with
    | nil => exact .ret h
    | cons hx hrest =>
      apply (Run.Twin.when (svc.twin_reconcileLocalIfCurrent read.key hx read.epoch
        read.policy)).seq
      intro _
      exact ih (forall₂_set h ⟨_, hx, rfl⟩ _) hrest

theorem twin_mgetMissing (h : List.Forall₂ Answer.Alike out out') (missing : List MissingRead) :
    Twin (ExceptRel (List.Forall₂ Answer.Alike)) (svc.mgetMissing out missing)
      (svc.mgetMissing out' missing) := by
  apply (twin_fetchUpstream false _).bind
  intro r r' hr
  cases hr with
  | error e =>
    apply Prog.Twin.ite
    · apply (svc.twin_mgetStale h 0 missing).bind
      rintro ⟨out₁, n⟩ ⟨out₁', _⟩ ⟨hout, rfl⟩
      apply Prog.Twin.ret
      dsimp only
      split
      · exact .ok hout
      · exact .error e
    · exact .ret (.error e)
  | ok hv =>
    apply (svc.twin_mgetStore h missing hv).bind
    intro out₁ out₁' hout
    exact Run.Twin.after svc.blind_observeCache fun _ => .ret (.ok hout)

theorem answerAlike_refl (a : Answer) : a.Alike a := ⟨a.value, ⟨a.value.data, rfl, rfl⟩, rfl⟩

theorem twin_mget (keys : List Key) :
    Twin (ExceptRel (List.Forall₂ Answer.Alike)) (svc.mget keys) (svc.mget keys) := by
  apply (svc.twin_mgetLocal (List.forall₂_same.2 fun a _ => answerAlike_refl a) [] 0 keys).bind
  rintro ⟨out, missing⟩ ⟨out', _⟩ ⟨h, rfl⟩
  apply Prog.Twin.ite
  · exact .ret (.ok h)
  · exact svc.twin_mgetMissing h missing

theorem optionRel_isSome {r : α → β → Prop} (h : Option.Rel r x y) : x.isSome = y.isSome := by
  cases h <;> rfl

theorem twin_takeCandidate (key : Key) :
    Twin Eq (svc.takeCandidate key) (svc.takeCandidate key) := by
  apply Prog.Twin.ite
  · apply (twin_cache .probationary (.inspect key)).bind
    intro candidate candidate' h
    exact Run.Twin.after (blind_delete .probationary key) fun _ => .ret (optionRel_isSome h)
  · exact .ret rfl

theorem twin_writeThrough (key : Key) (h : v.Alike v') (present probationary : Bool) :
    Twin Eq (svc.writeThrough key v present probationary)
      (svc.writeThrough key v' present probationary) := by
  have hhot : (svc.cachedHot key).Uses Action.Blind := uses_ite (blind_tracker (.isHot key)) trivial
  apply Run.Twin.after hhot
  intro hot
  apply Prog.Twin.ite
  · exact (svc.twin_storeLocal key ⟨v', h, rfl⟩ _).seq fun _ => .ret rfl
  · exact Run.Twin.after (blind_delete .cache key) fun _ => .ret rfl

theorem twin_writeThroughSet (key : Key) (h : v.Alike v') :
    Twin Eq (svc.writeThroughSet key v) (svc.writeThroughSet key v') := by
  apply Run.Twin.after (blind_stripe _ .lock)
  intro _
  apply Run.Twin.after (blind_stripe _ .epochAdd)
  intro _
  apply (twin_cache .cache (.inspect key)).bind
  intro present present' hp
  rw [optionRel_isSome hp]
  apply (svc.twin_takeCandidate key).seq
  intro probationary
  apply (svc.twin_writeThrough key h _ probationary).seq
  intro invalidated
  apply Run.Twin.after (blind_note _)
  intro _
  exact Run.Twin.after (blind_stripe _ .unlock) fun _ => .ret rfl

theorem twin_finalizeWrite (command : Bytes) (h : ArgsAlike args args') (keys : List Bytes)
    (source : Source) (r : Except Error RedisReply) :
    Twin Eq (svc.finalizeWrite command args keys source r)
      (svc.finalizeWrite command args' keys source r) := by
  have hset := acknowledgedSet_alike h command keys r
  rw [finalizeWrite, finalizeWrite]
  generalize acknowledgedSet command args keys r = x, acknowledgedSet command args' keys r = x'
    at hset ⊢
  cases hset with
  | none => exact .refl (svc.blind_invalidateCacheKeys [] 0 keys)
  | @some kv kv' hkv =>
    obtain ⟨key, value⟩ := kv
    obtain ⟨_, value'⟩ := kv'
    obtain ⟨rfl, hv⟩ := hkv
    exact svc.twin_writeThroughSet key hv

theorem twin_executeGated (command : Bytes) (h : ArgsAlike args args') (keys : List Bytes) :
    Twin Eq (svc.executeGated command args keys) (svc.executeGated command args' keys) := by
  apply Run.Twin.after (blind_note _)
  intro _
  apply Run.Twin.after (svc.blind_invalidateCacheKeys [] 0 keys)
  intro before
  have hact := @Action.Alike.dispatch command keys args args' h
  apply (twin_do hact).seq
  intro done
  apply Run.Twin.after (blind_record _)
  intro _
  apply (svc.twin_finalizeWrite command h keys done.2 done.1).seq
  intro after
  apply Run.Twin.after (blind_note _)
  intro _
  apply Run.Twin.after (blind_each (fun key => blind_do (.forget key)) keys)
  intro _
  apply Run.Twin.after (blind_each blind_record _)
  intro _
  exact Run.Twin.after svc.blind_observeCache fun _ => .ret rfl

theorem twin_executeWrite (command : Bytes) (h : ArgsAlike args args') (keys : List Bytes) :
    Twin Eq (svc.executeWrite command args keys) (svc.executeWrite command args' keys) := by
  apply Run.Twin.after (blind_acquireMutationStripes [] _)
  intro acquired
  cases acquired with
  | error e => exact .ret rfl
  | ok stripes =>
    apply (svc.twin_executeGated command h keys).seq
    intro r
    apply Run.Twin.after (blind_note _)
    intro _
    exact Run.Twin.after (blind_releaseMutationStripes stripes) fun _ => .ret rfl

theorem twin_passThrough (command : Bytes) (h : ArgsAlike args args') :
    Twin Eq (passThrough command args) (passThrough command args') := by
  have hact := @Action.Alike.passThrough command args args' h
  apply (twin_do hact).seq
  intro r
  exact Run.Twin.after (blind_record _) fun _ => .ret rfl

theorem hotKey_alike (snapshot : Hotness.Snapshot) (h : Option.Rel EntrySnapshot.Alike x y) :
    svc.hotKey snapshot x = svc.hotKey snapshot y := by
  cases h with
  | none => rfl
  | some h =>
    obtain ⟨v, -, rfl⟩ := h
    rfl

theorem twin_hotKeysLoop (out : List HotKey) (l : List Hotness.Snapshot) :
    Twin Eq (svc.hotKeysLoop out l) (svc.hotKeysLoop out l) := by
  induction l generalizing out with
  | nil => exact .ret rfl
  | cons snapshot rest ih =>
    apply (twin_cache .cache (.inspect snapshot.key)).bind
    intro cached cached' h
    rw [svc.hotKey_alike snapshot h]
    exact ih _

theorem twin_hotKeys (limit : Int) : Twin Eq (svc.hotKeys limit) (svc.hotKeys limit) := by
  apply Run.Twin.after (blind_tracker (.advanceAndSnapshot limit))
  intro view
  apply Run.Twin.after (svc.blind_handleTransitions _)
  intro _
  exact svc.twin_hotKeysLoop [] _

theorem twin_reply {p p' : Run α} (h : Twin Eq p p') (f : α → Reply) :
    Twin Reply.Alike (p >>= fun x => pure (f x)) (p' >>= fun x => pure (f x)) :=
  h.seq fun x => .ret (.same (f x))

theorem twin_perform (h : job.Alike job') :
    Twin Reply.Alike (svc.perform job) (svc.perform job') := by
  cases h with
  | executeWrite command keys h =>
    exact twin_reply (svc.twin_executeWrite command h keys) Reply.executeWrite
  | passThrough command h => exact twin_reply (twin_passThrough command h) Reply.passThrough
  | same job =>
    have hargs : ∀ args, ArgsAlike args args := fun args =>
      ⟨rfl, List.forall₂_same.2 fun _ _ => rfl⟩
    cases job with
    | get key => exact (svc.twin_get key).bind fun _ _ h => .ret (.get h)
    | mget keys => exact (svc.twin_mget keys).bind fun _ _ h => .ret (.mget h)
    | executeWrite command args keys =>
      exact twin_reply (svc.twin_executeWrite command (hargs args) keys) Reply.executeWrite
    | passThrough command args =>
      exact twin_reply (twin_passThrough command (hargs args)) Reply.passThrough
    | status => exact twin_reply (.refl svc.blind_status) Reply.status
    | hotKeys limit => exact twin_reply (svc.twin_hotKeys limit) Reply.hotKeys
    | audit limit => exact twin_reply (.refl (svc.blind_audit limit)) Reply.audit
    | cacheInfo => exact twin_reply (.refl svc.blind_cacheInfo) Reply.cacheInfo
    | purgeCache key => exact twin_reply (.refl (svc.blind_purgeCache key)) Reply.purgeCache
    | close => exact twin_reply (.refl svc.blind_close) fun _ => Reply.close
    | flight f key => exact .ret (.same _)

theorem twin_call (h : job.Alike job') : Twin Eq (svc.call job) (svc.call job') := by
  have hstart := @Action.Alike.start job job' h
  apply (twin_do hstart).seq
  intro _
  apply (svc.twin_perform h).bind
  intro reply reply' hr
  have hfinish := @Action.Alike.finish reply reply' hr
  exact twin_do hfinish

/-- Two runs of the service whose clients and whose origin only differ in the bytes of values. -/
def coupling : svc.machine.Coupling where
  acts := Action.Alike
  states := World.Alike
  choices := fun a a' c c' => c.Alike c' ∧ c.Honest a ∧ c'.Honest a'
  envs := Env.Alike
  exec := fun ha hc hs => World.Alike.exec hs _ ha hc.1 hc.2.1 hc.2.2
  fork := by
    intro a a' ρ b b' ha hb
    cases ha with
    | doChan key epoch policy =>
      cases hb
      simp only [machine, fork]
      split
      · exact .some (svc.twin_flight key epoch policy _)
      · exact .none
    | _ => exact .none
  env := fun he hs => World.Alike.env hs he

theorem init_alike (h : ∀ k, Option.Rel SameLength (content k) (content' k)) :
    (svc.init content).Alike (svc.init content') where
  tiers := fun tier => by cases tier <;> exact Cache.alike_new _ _
  tracker := rfl
  recorder := rfl
  closed := rfl
  stripes := rfl
  gates := rfl
  group := rfl
  flights := .nil
  clock := rfl
  contexts := rfl
  origin := ⟨rfl, fun _ => h⟩
  reqs := rfl
  time := rfl
  done := fun _ => .none

/-- The same part of a schedule, but for the bytes of values. -/
inductive Cue.Alike : Cue → Cue → Prop
  | call {job job' : Job} (h : job.Alike job') : Alike (.call job) (.call job')
  | go (t n : Nat) : Alike (.go t n) (.go t n)
  | env {e e' : Env} (h : e.Alike e') : Alike (.env e) (.env e')

/-- Two runs whose clients, origins and servers only differ in the bytes of values. -/
structure SameButBytes (content content' : Key → Option Bytes)
    (pick pick' : World → Action → Choice) (l l' : List Cue) : Prop where
  origins : ∀ k, Option.Rel SameLength (content k) (content' k)
  cues : List.Forall₂ Cue.Alike l l'
  picks : ∀ {s s' : World} {a a' : Action} {ρ : a.Resp → a'.Resp → Prop}, s.Alike s' →
    Action.Alike a a' ρ → (pick s a).Alike (pick' s' a')
  honest : ∀ s a, (pick s a).Honest a
  honest' : ∀ s a, (pick' s a).Honest a

variable {content content' : Key → Option Bytes} {pick pick' : World → Action → Choice}
  {l l' : List Cue}

theorem SameButBytes.alike (h : SameButBytes content content' pick pick' l l') :
    (svc.schedule content pick l).1.state.Alike (svc.schedule content' pick' l').1.state := by
  have hpick : svc.coupling.Picks pick pick' :=
    fun hs ha => ⟨h.picks hs ha, h.honest _ _, h.honest' _ _⟩
  have hstart : svc.coupling.Configs ⟨svc.init content, []⟩ ⟨svc.init content', []⟩ :=
    ⟨svc.init_alike h.origins, .nil⟩
  have hturns : List.Forall₂ svc.coupling.Turns (l.map (Cue.turn svc)) (l'.map (Cue.turn svc)) := by
    rw [List.forall₂_map_left_iff, List.forall₂_map_right_iff]
    apply h.cues.imp
    intro x x' hx
    cases hx with
    | call hj => exact .spawn (svc.twin_call hj)
    | go t n => exact .run t n
    | env he => exact .env he
  exact (hstart.play hpick hturns).state

/-- Values do not show in what an administrator sees, however the calls interleave. -/
theorem admin_output_same_but_bytes (h : SameButBytes content content' pick pick' l l') (t : Nat)
    (m : Moment) (reply : Reply) (hr : reply.Admin) :
    ((svc.schedule content pick l).1.state.trace t).done = some (m, reply) ↔
      ((svc.schedule content' pick' l').1.state.trace t).done = some (m, reply) :=
  (SameButBytes.alike svc h).admin hr t m

def pickSet (s : World) : Action → Choice
  | .upstream (.dispatch command args keys) =>
    match acknowledgedSet command args keys (.ok (.text [0x4F, 0x4B])) with
    | some (key, value) => .effect (some [(key, some value)]) (.ok (.text [0x4F, 0x4B]))
    | none => .effect none (.ok .other)
  | a => Service.pick s a

theorem pickSet_honest (s : World) (a : Action) : (pickSet s a).Honest a := by
  cases a with
  | upstream op =>
    cases op with
    | dispatch command args keys =>
      simp only [pickSet]
      cases hset : acknowledgedSet command args keys (.ok (.text [0x4F, 0x4B])) with
      | none => exact nofun
      | some kv =>
        intro kv' hkv'
        rw [hset] at hkv'
        cases hkv'
        rfl
    | _ => trivial
  | _ => trivial

theorem pickSet_alike {s s' : World} {a a' : Action} {ρ : a.Resp → a'.Resp → Prop}
    (h : s.Alike s') (ha : Action.Alike a a' ρ) : (pickSet s a).Alike (pickSet s' a') := by
  cases ha with
  | tracker op =>
    simp only [pickSet, Service.pick, h.tracker]
    exact .same _
  | answer i keys =>
    simp only [pickSet, Service.pick, h.origin.version]
    exact .same _
  | @dispatch command keys args args' hargs =>
    have hset := acknowledgedSet_alike hargs command keys (.ok (.text [0x4F, 0x4B]))
    simp only [pickSet]
    generalize acknowledgedSet command args keys _ = x, acknowledgedSet command args' keys _ = x'
      at hset ⊢
    cases hset with
    | none => exact .same _
    | @some kv kv' hkv => exact .effect _ (.some (.cons ⟨hkv.1, .some hkv.2⟩ .nil))
  | _ => exact .same _

theorem cueAlike_refl (x : Cue) : Cue.Alike x x := by
  cases x with
  | call job => exact .call (.same job)
  | go t n => exact .go t n
  | env e => exact .env (.same e)

def sampleCues (value : Bytes) : List Cue :=
  [.call (.get [7]), .go 0 100, .go 1 100, .go 0 100, .call (.get [7]), .go 2 100] ++
    .call (.executeWrite wordSET [[7], value] [[7]]) ::
    [.go 3 100, .call .status, .go 4 100, .call (.hotKeys 10), .go 5 100, .call (.audit 10),
      .go 6 100, .call .cacheInfo, .go 7 100]

theorem sample_same_but_bytes :
    SameButBytes (fun _ => some [0]) (fun _ => some [9]) pickSet pickSet (sampleCues [1, 2])
      (sampleCues [3, 4]) where
  origins := fun _ => .some rfl
  cues := by
    have hargs : ArgsAlike [[7], [1, 2]] [[7], [3, 4]] := ⟨rfl, .cons rfl (.cons rfl .nil)⟩
    have hsame : ∀ l, List.Forall₂ Cue.Alike l l :=
      fun l => List.forall₂_same.2 fun x _ => cueAlike_refl x
    exact List.rel_append (hsame _) (.cons (.call (.executeWrite wordSET [[7]] hargs)) (hsame _))
  picks := pickSet_alike
  honest := pickSet_honest
  honest' := pickSet_honest

/-- In these runs the status counts the one item that the SET has left, of two bytes. -/
theorem admin_output_sample :
    (((sample.schedule (fun _ => some [0]) pickSet (sampleCues [1, 2])).1.state.trace 4).done.map
        fun x => match x.2 with
          | .status st => decide (st.cacheEntries = 1 ∧ st.cacheBytes = 131)
          | _ => false) = some true ∧
      ∀ t m reply, reply.Admin →
        (((sample.schedule (fun _ => some [0]) pickSet (sampleCues [1, 2])).1.state.trace t).done =
            some (m, reply) ↔
          ((sample.schedule (fun _ => some [9]) pickSet (sampleCues [3, 4])).1.state.trace t).done =
            some (m, reply)) :=
  ⟨by decide +kernel, admin_output_same_but_bytes sample sample_same_but_bytes⟩

end Service
end Slizen
