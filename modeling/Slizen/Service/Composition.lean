import Slizen.Service.Programs

namespace Slizen
set_option autoImplicit true

open Interleaving

/-- A metric that is not about the answer to one request. -/
def Metric.Aside : Metric → Prop
  | .cacheHit => False
  | .cacheMissWithReason _ => False
  | .observeUpstream _ _ => False
  | _ => True

/-- An action on the local state that neither answers a request nor leaves the process nor closes
a tier. -/
def Action.Local : Action → Prop
  | .tracker _ => True
  | .cache _ .close => False
  | .cache _ _ => True
  | .stripe _ _ => True
  | .record m => m.Aside
  | .note (.applied _) => True
  | _ => False

/-- An action of the body of a call other than `Close`. -/
def Action.Ordinary : Action → Prop
  | .cache _ .close => False
  | .closeSwap => False
  | .note (.start _) => False
  | .note (.finish _) => False
  | _ => True

/-- An action that neither changes the tracker nor has to do with the numbers of the tracker that
the metrics repeat. -/
def Action.Quiet : Action → Prop
  | .tracker (.isHot _) => True
  | .tracker (.isTracked _) => True
  | .tracker _ => False
  | .record (.setHotKeys _) => False
  | .record (.observeHotnessCapacityDrops _) => False
  | .record (.observeHotnessOversizedDrops _) => False
  | _ => True

/-- A local action of that kind. -/
def Action.Plain : Action → Prop
  | .tracker (.isHot _) => True
  | .tracker (.isTracked _) => True
  | .cache _ .close => False
  | .cache _ _ => True
  | .stripe _ _ => True
  | .record .promotion => True
  | .record .demotion => True
  | .record .invalidation => True
  | .record .coalesced => True
  | .record (.observeCache _ _ _) => True
  | .note (.applied _) => True
  | _ => False

/-- A plain action that stores no new value. -/
def Action.Steady : Action → Prop
  | .cache _ (.put _ _ _) => False
  | a => a.Plain

/-- What is done about the answers of the tracker: no value is looked at or moved. -/
def Action.Keeping : Action → Prop
  | .tracker .stats => True
  | .tracker .capacityDrops => True
  | .tracker .oversizedObservationsDropped => True
  | .record m => m.Aside
  | .cache _ (.delete _) => True
  | .cache _ .stats => True
  | .cache _ _ => False
  | a => a.Plain

/-- Of this, what is done about a transition. -/
def Action.Bare : Action → Prop
  | .cache _ (.delete _) => True
  | .cache _ .stats => True
  | .cache _ _ => False
  | a => a.Plain

theorem Action.Local.ordinary {a : Action} (h : a.Local) : a.Ordinary := by
  cases a with
  | cache tier op => cases op <;> trivial
  | closeSwap => exact h
  | note n => cases n <;> trivial
  | _ => trivial

theorem Action.Plain.isLocal {a : Action} (h : a.Plain) : a.Local := by
  cases a with
  | cache tier op => cases op <;> trivial
  | note n => cases n <;> trivial
  | record m => cases m <;> trivial
  | tracker op => trivial
  | stripe σ op => trivial
  | _ => exact h

theorem Action.Plain.quiet {a : Action} (h : a.Plain) : a.Quiet := by
  cases a with
  | tracker op => cases op <;> trivial
  | record m => cases m <;> trivial
  | _ => trivial

theorem Action.Steady.plain {a : Action} (h : a.Steady) : a.Plain := by
  cases a with
  | cache tier op => cases op <;> trivial
  | _ => exact h

theorem Action.Bare.steady {a : Action} (h : a.Bare) : a.Steady := by
  cases a with
  | cache tier op => cases op <;> trivial
  | _ => exact h

theorem Action.Bare.keeping {a : Action} (h : a.Bare) : a.Keeping := by
  cases a with
  | cache tier op => cases op <;> trivial
  | tracker op => cases op <;> trivial
  | record m => cases m <;> trivial
  | _ => exact h

theorem Action.Keeping.isLocal {a : Action} (h : a.Keeping) : a.Local := by
  cases a with
  | tracker op => trivial
  | cache tier op => cases op <;> trivial
  | record m => exact h
  | _ => exact Action.Plain.isLocal h

namespace Service

theorem uses_when {c : Prop} [Decidable c] {p : Run Unit} (hp : p.Uses q) :
    (Run.when c p).Uses q := by
  rw [Run.when]
  split
  · exact hp
  · trivial

theorem uses_ite {c : Prop} [Decidable c] {p p' : Run α} (hp : p.Uses q) (hp' : p'.Uses q) :
    (if c then p else p').Uses q := by
  split
  · exact hp
  · exact hp'

section

variable (svc : Service)

theorem bare_deleteProbationary (key : Key) : (svc.deleteProbationary key).Uses Action.Bare :=
  uses_ite ⟨trivial, fun _ => trivial⟩ trivial

theorem bare_combinedStats : svc.combinedStats.Uses Action.Bare :=
  ⟨trivial, fun _ => uses_ite ⟨trivial, fun _ => trivial⟩ trivial⟩

theorem bare_observeCache : svc.observeCache.Uses Action.Bare :=
  svc.bare_combinedStats.bind fun _ => ⟨trivial, fun _ => trivial⟩

theorem bare_dropDemoted (key : Key) : (svc.dropDemoted key).Uses Action.Bare := by
  refine ⟨trivial, fun _ => ⟨trivial, fun hot => uses_ite ?_ ?_⟩⟩
  · exact ⟨trivial, fun _ => ⟨trivial, fun _ => trivial⟩⟩
  · refine ⟨trivial, fun _ => (svc.bare_deleteProbationary key).bind fun _ => ?_⟩
    exact ⟨trivial, fun _ => ⟨trivial, fun _ => trivial⟩⟩

theorem bare_applyTransition (transition : Hotness.Transition) :
    (svc.applyTransition transition).Uses Action.Bare := by
  refine Prog.Uses.bind (uses_when ?_) fun _ => uses_ite ?_ trivial
  · exact ⟨trivial, fun _ => trivial⟩
  · exact (svc.bare_dropDemoted _).bind fun _ => ⟨trivial, fun _ => trivial⟩

theorem bare_applyTransitionsLoop (cacheChanged : Bool) (l : List Hotness.Transition) :
    (svc.applyTransitionsLoop cacheChanged l).Uses Action.Bare := by
  induction l generalizing cacheChanged with
  | nil => trivial
  | cons transition rest ih => exact (svc.bare_applyTransition transition).bind fun _ => ih _

theorem bare_applyTransitions (l : List Hotness.Transition) :
    (svc.applyTransitions l).Uses Action.Bare :=
  (svc.bare_applyTransitionsLoop false l).bind fun _ => uses_when svc.bare_observeCache

theorem keeping_publishHotKeys : publishHotKeys.Uses Action.Keeping :=
  ⟨trivial, fun _ => ⟨trivial, fun _ => trivial⟩⟩

theorem keeping_handleTransitions (l : List Hotness.Transition) :
    (svc.handleTransitions l).Uses Action.Keeping := by
  refine ((svc.bare_applyTransitions l).mono fun _ => Action.Bare.keeping).bind fun _ => ?_
  refine keeping_publishHotKeys.bind fun _ => ?_
  exact ⟨trivial, fun _ => ⟨trivial, fun _ => ⟨trivial, fun _ => ⟨trivial, fun _ => trivial⟩⟩⟩⟩

theorem keeping_handleObservation (observation : Hotness.Observation) :
    (svc.handleObservation observation).Uses Action.Keeping := by
  refine ((svc.bare_applyTransitions _).mono fun _ => Action.Bare.keeping).bind fun _ => ?_
  refine (uses_when keeping_publishHotKeys).bind fun _ => ?_
  refine Prog.Uses.bind (uses_when ?_) fun _ => uses_when ?_
  · exact ⟨trivial, fun _ => trivial⟩
  · exact ⟨trivial, fun _ => trivial⟩

theorem steady_getFreshProtected (key : Key) : (svc.getFreshProtected key).Uses Action.Steady :=
  uses_ite ⟨trivial, fun _ => trivial⟩ ⟨trivial, fun _ => trivial⟩

theorem steady_getPromoted (key : Key) : (svc.getPromoted key).Uses Action.Steady := by
  refine ⟨trivial, fun _ => uses_ite ⟨trivial, fun _ => uses_ite ?_ ?_⟩ trivial⟩
  · refine ⟨trivial, fun _ => (svc.steady_getFreshProtected key).bind fun _ => ?_⟩
    exact ⟨trivial, fun _ => trivial⟩
  · exact svc.steady_getFreshProtected key

theorem steady_transferCandidate (key : Key) (candidate : EntrySnapshot) (promoting : Bool) :
    (transferCandidate key candidate promoting).Uses Action.Steady := by
  apply uses_ite
  · exact ⟨trivial, fun _ => ⟨trivial, fun _ => ⟨trivial, fun _ => ⟨trivial, fun _ => trivial⟩⟩⟩⟩
  · exact ⟨trivial, fun _ => trivial⟩

theorem steady_getFallback (key : Key) (e : Error) :
    (svc.getFallback key e).Uses Action.Steady := by
  refine uses_ite ⟨trivial, fun item => ?_⟩ trivial
  cases item with
  | some item => trivial
  | none => trivial

theorem steady_mgetStale (out : List Answer) (n : Nat) (missing : List MissingRead) :
    (svc.mgetStale out n missing).Uses Action.Steady := by
  induction missing generalizing out n with
  | nil => trivial
  | cons read missing ih =>
    refine uses_ite ⟨trivial, fun item => ?_⟩ (ih out n)
    cases item with
    | none => exact ih _ _
    | some item => exact ih _ _

theorem plain_storeIn (tier : Tier) (key : Key) (value : Value) (policy : Decision) (ttl : Time) :
    (storeIn tier key value policy ttl).Uses Action.Plain :=
  uses_ite ⟨trivial, fun _ => trivial⟩ ⟨trivial, fun _ => trivial⟩

theorem plain_storeProbationary (key : Key) (value : Value) (policy : Decision) :
    (svc.storeProbationary key value policy).Uses Action.Plain :=
  uses_ite ⟨trivial, fun _ => uses_ite (plain_storeIn ..) trivial⟩ trivial

theorem plain_reconcile (key : Key) (value : Value) (policy : Decision) :
    (svc.reconcile key value policy).Uses Action.Plain := by
  have hdelete := (svc.bare_deleteProbationary key).mono fun _ h => h.steady.plain
  refine uses_ite ⟨trivial, fun hot => uses_ite ?_ ?_⟩ ?_
  · exact hdelete.bind fun _ => (plain_storeIn .cache ..).bind fun _ => trivial
  · exact ⟨trivial, fun _ => (svc.plain_storeProbationary ..).bind fun _ => trivial⟩
  · exact ⟨trivial, fun _ => hdelete.bind fun _ => trivial⟩

theorem plain_reconcileLocalIfCurrent (key : Key) (value : Value) (epoch : Nat)
    (policy : Decision) :
    (svc.reconcileLocalIfCurrent key value epoch policy).Uses Action.Plain :=
  ⟨trivial, fun _ => ⟨trivial, fun _ => (uses_when (svc.plain_reconcile key value policy)).bind
    fun _ => ⟨trivial, fun _ => trivial⟩⟩⟩

theorem plain_mgetStore (out : List Answer) (l : List (MissingRead × Value)) :
    (svc.mgetStore out l).Uses Action.Plain := by
  induction l generalizing out with
  | nil => trivial
  | cons x rest ih =>
    exact (uses_when (svc.plain_reconcileLocalIfCurrent ..)).bind fun _ => ih _

end

variable {svc : Service} {C : (α : Type) → Run α → Prop}

/-- A property of programs that sequences of steady actions have. The answers of the tracker to an
observation and to an admission are worked off before anything else happens, up to such actions. -/
structure LocalRules (svc : Service) (C : (α : Type) → Run α → Prop) : Prop where
  ret : ∀ {α : Type} (x : α), C α (.ret x)
  bind : ∀ {α β : Type} {p : Run α} {f : α → Run β}, C α p → (∀ x, C β (f x)) → C β (p >>= f)
  steady : ∀ a : Action, a.Steady → C a.Resp (Run.do a)
  observed : ∀ {α : Type} (key : Key) (k : Hotness.Observation → Run α), (∀ o, C α (k o)) →
    C α (Run.do (.tracker (.observeWithState key)) >>= fun o => do
      svc.handleObservation o
      k o)
  admitted : ∀ {α β : Type} (key : Key) (p : Hotness.Observation → Run α)
    (k : Hotness.Observation → α → Run β), (∀ o, (p o).Uses Action.Steady) →
      (∀ o x, C β (k o x)) → C β (Run.do (.tracker (.admitKey key)) >>= fun o => do
        let x ← p o
        svc.handleObservation o
        k o x)

/-- So are the transitions of an advance, and what is read of the tracker for the gauge is
written to it. -/
structure OrdinaryRules (svc : Service) (C : (α : Type) → Run α → Prop) : Prop
    extends LocalRules svc C where
  quiet : ∀ a : Action, a.Ordinary → a.Quiet → C a.Resp (Run.do a)
  advanced : ∀ {α : Type} (k : Run α), C α k →
    C α (Run.do (.tracker .advance) >>= fun transitions => do
      svc.handleTransitions transitions
      k)
  viewed : ∀ {α : Type} (limit : Int) (k : Hotness.View → Run α), (∀ v, C α (k v)) →
    C α (Run.do (.tracker (.advanceAndSnapshot limit)) >>= fun v => do
      svc.handleTransitions v.transitions
      k v)
  published : ∀ {α : Type} (k : Nat × Int → Run α), (∀ x, C α (k x)) →
    C α (Run.do (.tracker .stats) >>= fun x => do
      record (.setHotKeys x.2)
      k x)

structure CallRules (svc : Service) (C : (α : Type) → Run α → Prop) : Prop
    extends OrdinaryRules svc C where
  other : ∀ a : Action, a.Quiet → C a.Resp (Run.do a)

namespace LocalRules

theorem ite (_ : LocalRules svc C) {c : Prop} [Decidable c] {p p' : Run α} (hp : C α p)
    (hp' : C α p') : C α (if c then p else p') := by
  split
  · exact hp
  · exact hp'

variable (h : LocalRules svc C)
include h

theorem step {f : Action.Resp a → Run β} (ha : a.Steady) (hf : ∀ b, C β (f b)) :
    C β (Run.do a >>= f) := h.bind (h.steady a ha) hf

theorem act {k : Action.Resp a → Run α} (ha : a.Steady) (hk : ∀ b, C α (k b)) : C α (.act a k) :=
  h.bind (h.steady a ha) hk

theorem of_steady {p : Run α} (hp : p.Uses Action.Steady) : C α p := by
  induction p with
  | ret x => exact h.ret x
  | act a k ih => exact h.act hp.1 fun b => ih b (hp.2 b)

theorem of_bare {p : Run α} (hp : p.Uses Action.Bare) : C α p :=
  h.of_steady (hp.mono fun _ => Action.Bare.steady)

theorem when {c : Prop} [Decidable c] {p : Run Unit} (hp : C Unit p) : C Unit (Run.when c p) :=
  h.ite hp (h.ret ())

theorem each {f : α → Run Unit} (hf : ∀ x, C Unit (f x)) (l : List α) :
    C Unit (Run.each f l) := by
  induction l with
  | nil => exact h.ret ()
  | cons x rest ih => exact h.bind (hf x) fun _ => ih

theorem observeCache : C Unit svc.observeCache := h.of_bare svc.bare_observeCache

theorem observeRead (key : Key) (policy : Decision) : C _ (svc.observeRead key policy) :=
  h.ite (h.observed key _ fun _ => h.ret _) (h.ret _)

theorem promoteCandidate (key : Key) : C _ (svc.promoteCandidate key) := by
  refine h.step trivial fun candidate => ?_
  cases candidate with
  | none => exact h.step trivial fun _ => h.ret _
  | some candidate =>
    have hblock := h.admitted key
      (fun o => do
        let stored ← Service.transferCandidate key candidate (o.state = some .hot)
        unlock (cacheEpochStripe key)
        pure stored)
      (fun _ stored => do
        svc.observeCache
        pure (if stored then some candidate else none))
      (fun o => (steady_transferCandidate key candidate _).bind
        fun stored => ⟨trivial, fun _ => trivial⟩)
      (fun _ _ => h.bind h.observeCache fun _ => h.ret _)
    simpa only [Prog.bind_assoc, Prog.pure_eq, Prog.ret_bind] using hblock

theorem promote (key : Key) : C _ (svc.promote key) := by
  refine h.step trivial fun _ => ?_
  refine h.step trivial fun hot => ?_
  apply h.ite
  · apply h.bind (h.of_steady (svc.steady_getFreshProtected key))
    intro item
    cases item with
    | some item => exact h.step trivial fun _ => h.ret _
    | none => exact h.promoteCandidate key
  · exact h.promoteCandidate key

theorem getProbationary (key : Key) : C _ (svc.getProbationary key) := by
  apply h.ite
  · refine h.step trivial fun candidate => ?_
    cases candidate with
    | none => exact h.of_steady (svc.steady_getPromoted key)
    | some _ => exact h.promote key
  · exact h.ret _

theorem getFreshCachedInState (key : Key) (state : Option Hotness.State) :
    C _ (svc.getFreshCachedInState key state) := by
  apply h.ite
  · apply h.bind (h.of_steady (svc.steady_getFreshProtected key))
    intro item
    cases item with
    | some item => exact h.ret _
    | none => exact h.getProbationary key
  · exact h.getProbationary key

theorem getCached (key : Key) (policy : Decision) (state : Option Hotness.State) :
    C _ (svc.getCached key policy state) :=
  h.ite (h.getFreshCachedInState key state) (h.ret _)

end LocalRules

namespace OrdinaryRules

variable (h : OrdinaryRules svc C)
include h

theorem of_plain {p : Run α} (hp : p.Uses Action.Plain) : C α p := by
  induction p with
  | ret x => exact h.ret x
  | act a k ih =>
    exact h.bind (h.quiet a hp.1.isLocal.ordinary hp.1.quiet) fun b => ih b (hp.2 b)

theorem go {f : Action.Resp a → Run β} (ho : a.Ordinary) (hq : a.Quiet) (hf : ∀ b, C β (f b)) :
    C β (Run.do a >>= f) := h.bind (h.quiet a ho hq) hf

theorem fetchUpstream (isGet : Bool) (keys : List Key) : C _ (fetchUpstream isGet keys) :=
  h.go trivial trivial fun _ => h.go trivial trivial fun _ => h.go trivial trivial fun _ => h.ret _

theorem fetchUpstreamGet (key : Key) : C _ (fetchUpstreamGet key) :=
  h.bind (h.fetchUpstream true [key]) fun _ => h.ret _

theorem getAwait (key : Key) (f : Nat) (deadline : Time) : C _ (svc.getAwait key f deadline) := by
  refine h.go trivial trivial fun waited => ?_
  cases waited with
  | done e => exact h.ret _
  | result r shared =>
    refine h.bind (h.when (h.act trivial h.ret)) fun _ => ?_
    cases r with
    | error e => exact h.of_steady (svc.steady_getFallback key e)
    | ok value => exact h.bind h.observeCache fun _ => h.ret _

theorem getMissed (key : Key) (policy : Decision) : C _ (svc.getMissed key policy) := by
  refine h.go trivial trivial fun now => ?_
  apply h.ite
  · exact h.go trivial trivial fun _ => h.go trivial trivial fun _ => h.getAwait _ _ _
  · apply h.bind (h.fetchUpstreamGet key)
    intro r
    apply h.bind h.observeCache
    intro _
    cases r with
    | ok value => exact h.ret _
    | error e => exact h.ret _

theorem get (key : Key) : C _ (svc.get key) := by
  apply h.ite
  · exact h.ret _
  · refine h.go trivial trivial fun err => ?_
    cases err with
    | some e => exact h.ret _
    | none =>
      apply h.bind (h.observeRead _ _)
      intro state
      apply h.bind (h.getCached _ _ _)
      intro item
      cases item with
      | some item => exact h.go trivial trivial fun _ => h.ret _
      | none => exact h.go trivial trivial fun _ => h.getMissed _ _

theorem mgetLocal (out : List Answer) (missing : List MissingRead) (position : Nat)
    (keys : List Key) : C _ (svc.mgetLocal out missing position keys) := by
  induction keys generalizing out missing position with
  | nil => exact h.ret _
  | cons key keys ih =>
    apply h.bind (h.observeRead _ _)
    intro state
    apply h.bind (h.getCached _ _ _)
    intro item
    cases item with
    | some item => exact h.go trivial trivial fun _ => ih _ _ _
    | none =>
      refine h.go trivial trivial fun _ => ?_
      apply h.ite
      · refine h.go trivial trivial fun epoch => ?_
        exact ih _ _ _
      · exact ih _ _ _

theorem mgetMissing (out : List Answer) (missing : List MissingRead) :
    C _ (svc.mgetMissing out missing) := by
  apply h.bind (h.fetchUpstream _ _)
  intro r
  cases r with
  | error e =>
    apply h.ite
    · exact h.bind (h.of_steady (svc.steady_mgetStale out 0 missing)) fun _ => h.ret _
    · exact h.ret _
  | ok values =>
    apply h.bind (h.of_plain (svc.plain_mgetStore out (missing.zip values)))
    intro out'
    exact h.bind h.observeCache fun _ => h.ret _

theorem mget (keys : List Key) : C _ (svc.mget keys) := by
  apply h.bind (h.mgetLocal (keys.map fun _ => zeroAnswer) [] 0 keys)
  intro found
  apply h.ite
  · exact h.ret _
  · exact h.mgetMissing found.1 found.2

theorem flightRead (key : Key) (epoch : Nat) (policy : Decision) :
    C _ (svc.flightRead key epoch policy) := by
  apply h.bind (h.fetchUpstreamGet key)
  intro r
  cases r with
  | error e => exact h.ret _
  | ok value => exact h.bind (h.of_plain (svc.plain_reconcileLocalIfCurrent ..)) fun _ => h.ret _

theorem releaseMutationStripes (stripes : List Stripe) : C _ (releaseMutationStripes stripes) :=
  h.each (fun σ => h.quiet (.gate σ .receive) trivial trivial) stripes.reverse

theorem acquireMutationStripes (acquired stripes : List Stripe) :
    C _ (acquireMutationStripes acquired stripes) := by
  induction stripes generalizing acquired with
  | nil => exact h.ret _
  | cons σ rest ih =>
    have hfail : ∀ e, C (Except Error (List Stripe)) (do
        Service.releaseMutationStripes acquired
        pure (.error e)) := fun e => h.bind (h.releaseMutationStripes acquired) fun _ => h.ret _
    refine h.go trivial trivial fun err => ?_
    cases err with
    | some e => exact hfail e
    | none =>
      refine h.go trivial trivial fun err => ?_
      cases err with
      | some e => exact hfail e
      | none => exact ih _

theorem invalidateCacheKey (key : Key) (advance : Bool) :
    C _ (svc.invalidateCacheKey key advance) := by
  refine h.step trivial fun _ => ?_
  refine h.bind (h.when (h.act trivial h.ret)) fun _ => ?_
  refine h.step trivial fun deleted => ?_
  apply h.bind (h.of_bare (svc.bare_deleteProbationary key))
  intro deleted'
  exact h.go trivial trivial fun _ => h.step trivial fun _ => h.ret _

theorem invalidateCacheKeys (advanced : List Stripe) (invalidated : Nat) (keys : List Key) :
    C _ (svc.invalidateCacheKeys advanced invalidated keys) := by
  induction keys generalizing advanced invalidated with
  | nil => exact h.ret _
  | cons key keys ih => exact h.bind (h.invalidateCacheKey key _) fun _ => ih _ _

theorem takeCandidate (key : Key) : C _ (svc.takeCandidate key) :=
  h.ite (h.step trivial fun _ => h.step trivial fun _ => h.ret _) (h.ret _)

theorem writeThrough (key : Key) (value : Blob) (present probationary : Bool) :
    C _ (svc.writeThrough key value present probationary) := by
  refine h.bind (h.ite (h.act trivial h.ret) (h.ret _)) fun hot => ?_
  apply h.ite
  · exact h.bind (h.of_plain (plain_storeIn ..)) fun _ => h.ret _
  · exact h.step trivial fun _ => h.ret _

theorem writeThroughSet (key : Key) (value : Blob) : C _ (svc.writeThroughSet key value) := by
  refine h.step trivial fun _ => ?_
  refine h.step trivial fun _ => ?_
  refine h.step trivial fun present => ?_
  apply h.bind (h.takeCandidate key)
  intro probationary
  apply h.bind (h.writeThrough key value _ _)
  intro invalidated
  exact h.go trivial trivial fun _ => h.step trivial fun _ => h.ret _

theorem finalizeWrite (command : Bytes) (args keys : List Bytes) (source : Source)
    (r : Except Error RedisReply) : C _ (svc.finalizeWrite command args keys source r) := by
  unfold Service.finalizeWrite
  split
  · exact h.writeThroughSet _ _
  · exact h.invalidateCacheKeys _ _ _

theorem invalidations (n : Nat) : C _ (Run.each record (List.replicate n .invalidation)) := by
  induction n with
  | zero => exact h.ret ()
  | succ n ih => exact h.step trivial fun _ => ih

theorem executeGated (command : Bytes) (args keys : List Bytes) :
    C _ (svc.executeGated command args keys) := by
  refine h.go trivial trivial fun _ => ?_
  apply h.bind (h.invalidateCacheKeys [] 0 keys)
  intro before
  refine h.go trivial trivial fun done => ?_
  refine h.go trivial trivial fun _ => ?_
  apply h.bind (h.finalizeWrite command args keys done.2 done.1)
  intro after
  refine h.go trivial trivial fun _ => ?_
  apply h.bind (h.each (fun key => h.quiet (.group (.forget key)) trivial trivial) keys)
  intro _
  apply h.bind (h.invalidations (before + after))
  intro _
  exact h.bind h.observeCache fun _ => h.ret _

theorem executeWrite (command : Bytes) (args keys : List Bytes) :
    C _ (svc.executeWrite command args keys) := by
  apply h.bind (h.acquireMutationStripes [] (neededStripes keys))
  intro acquired
  cases acquired with
  | error e => exact h.ret _
  | ok stripes =>
    apply h.bind (h.executeGated command args keys)
    intro r
    refine h.go trivial trivial fun _ => ?_
    exact h.bind (h.releaseMutationStripes stripes) fun _ => h.ret _

theorem purgeAllCache : C _ svc.purgeAllCache := by
  apply h.bind (h.each (fun σ => h.quiet (.stripe σ .lock) trivial trivial) _)
  intro _
  refine h.step trivial fun _ => ?_
  refine h.bind (h.when (h.act trivial h.ret)) fun _ => ?_
  apply h.bind (h.each (fun σ => h.quiet (.stripe σ .epochAdd) trivial trivial) _)
  intro _
  refine h.go trivial trivial fun _ => ?_
  exact h.each (fun σ => h.quiet (.stripe σ .unlock) trivial trivial) _

theorem purgeCache (key : Key) : C _ (svc.purgeCache key) := by
  apply h.ite
  · exact h.bind h.purgeAllCache fun _ => h.bind h.observeCache fun _ => h.ret _
  · apply h.bind (h.invalidateCacheKeys [] 0 [key])
    intro invalidated
    refine h.go trivial trivial fun _ => ?_
    refine h.bind (h.when (h.act trivial h.ret)) fun _ => ?_
    exact h.bind h.observeCache fun _ => h.ret _

theorem status : C _ svc.status := by
  apply h.advanced
  apply h.bind (h.of_bare svc.bare_combinedStats)
  intro stats
  refine h.step trivial fun _ => ?_
  apply h.published
  intro tracked
  exact h.go trivial trivial fun _ => h.go trivial trivial fun _ => h.go trivial trivial
    fun _ => h.ret _

theorem hotKeysLoop (out : List HotKey) (l : List Hotness.Snapshot) :
    C _ (svc.hotKeysLoop out l) := by
  induction l generalizing out with
  | nil => exact h.ret _
  | cons snapshot rest ih => exact h.step trivial fun _ => ih _

theorem hotKeys (limit : Int) : C _ (svc.hotKeys limit) :=
  h.viewed limit _ fun view => h.hotKeysLoop [] view.snapshots

theorem audit (limit : Int) : C _ (svc.audit limit) :=
  h.viewed _ _ fun _ => h.go trivial trivial fun _ => h.ret _

theorem cacheInfo : C _ svc.cacheInfo :=
  h.bind (h.of_bare svc.bare_combinedStats) fun _ => h.step trivial fun _ => h.ret _

theorem perform {job : Job} (hjob : job ≠ .close) : C _ (svc.perform job) := by
  cases job with
  | get key => exact h.bind (h.get key) fun _ => h.ret _
  | mget keys => exact h.bind (h.mget keys) fun _ => h.ret _
  | executeWrite command args keys =>
    exact h.bind (h.executeWrite command args keys) fun _ => h.ret _
  | passThrough command args =>
    apply h.bind
    · exact h.go trivial trivial fun _ => h.go trivial trivial fun _ => h.ret _
    · exact fun _ => h.ret _
  | status => exact h.bind h.status fun _ => h.ret _
  | hotKeys limit => exact h.bind (h.hotKeys limit) fun _ => h.ret _
  | audit limit => exact h.bind (h.audit limit) fun _ => h.ret _
  | cacheInfo => exact h.bind h.cacheInfo fun _ => h.ret _
  | purgeCache key => exact h.bind (h.purgeCache key) fun _ => h.ret _
  | close => exact absurd rfl hjob
  | flight f key => exact h.ret _

end OrdinaryRules

namespace CallRules

variable (h : CallRules svc C)
include h

theorem close : C _ svc.close := by
  apply h.bind (h.other .closeSwap trivial)
  intro swapped
  apply h.ite
  · apply h.bind (h.other (.cache .cache .close) trivial)
    intro _
    apply h.bind (h.when (h.other (.cache .probationary .close) trivial))
    intro _
    exact h.other (.upstream .close) trivial
  · exact h.ret ()

theorem call (job : Job) : C _ (svc.call job) := by
  apply h.bind (h.other (.note (.start job)) trivial)
  intro _
  apply h.bind
  · by_cases hjob : job = .close
    · subst hjob
      exact h.bind h.close fun _ => h.ret _
    · exact h.perform hjob
  · intro reply
    exact h.other (.note (.finish reply)) trivial

theorem flight (key : Key) (epoch : Nat) (policy : Decision) (f : Nat) :
    C _ (svc.flight key epoch policy f) := by
  apply h.bind (h.other (.note (.start (.flight f key))) trivial)
  intro _
  apply h.bind (h.flightRead key epoch policy)
  intro r
  apply h.bind (h.other (.group (.complete f r)) trivial)
  intro _
  exact h.other (.note (.finish .flight)) trivial

end CallRules

end Service
end Slizen
