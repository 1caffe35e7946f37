import Mathlib.Logic.Function.Basic
import Slizen.Service.Actions

namespace Slizen
set_option autoImplicit true

/-- `cacheEpochStripeState`, with the goroutine that holds the mutex. The 64-bit epoch does not
wrap around in the model. -/
structure StripeState where
  owner : Option Nat := none
  epoch : Nat := 0
  promotionInProgress : Bool := false

structure Flight where
  key : Key
  dups : Nat
  result : Option (Except Error Value)

/-- The origin: its content after each change so far. -/
structure Origin where
  version : Nat
  content : Nat → Key → Option Bytes

namespace Origin

def current (o : Origin) (k : Key) : Option Bytes := o.content o.version k

def apply (o : Origin) (updates : List (Key × Option Bytes)) : Origin where
  version := o.version + 1
  content := fun v k =>
    if v ≤ o.version then o.content v k else (updates.lookup k).getD (o.content o.version k)

def read (o : Origin) (ticket v : Nat) (pttl : Time) (k : Key) : Value :=
  match o.content v k with
  | some bytes => ⟨⟨bytes, .read ticket v pttl⟩, true, pttl⟩
  | none => ⟨⟨[], .read ticket v 0⟩, false, 0⟩

theorem read_source (o : Origin) (ticket v : Nat) (pttl : Time) (k : Key) :
    (o.read ticket v pttl k).data.source = .read ticket v (o.read ticket v pttl k).pttl := by
  unfold read
  split <;> rfl

end Origin

/-- A point of a run: the actions, origin changes and upstream reads before it. -/
structure Moment where
  time : Nat
  version : Nat
  reqs : Nat

structure Moment.Le (m m' : Moment) : Prop where
  time : m.time ≤ m'.time
  version : m.version ≤ m'.version
  reqs : m.reqs ≤ m'.reqs

structure Seen where
  via : Via
  key : Key
  value : Value

/-- How a value came into the tiers: when it was installed, and whether as a candidate. -/
structure Lodging where
  time : Time
  candidate : Bool

structure Candidate where
  key : Key
  value : Blob
  expiresAt : Time
  lodging : Lodging

/-- What a goroutine still has to do about the transitions that the tracker has returned to it:
the keys of demotions that it has not applied, and the promotions and demotions that it has not
counted. -/
structure Debt where
  owed : List Key := []
  rises : Nat := 0
  falls : Nat := 0

def demotedKeys (l : List Hotness.Transition) : List Key :=
  (l.filter fun τ => τ.IsDemotion).map Hotness.Transition.key

namespace Debt

def take (d : Debt) (l : List Hotness.Transition) : Debt where
  owed := d.owed ++ demotedKeys l
  rises := d.rises + Hotness.promotions l
  falls := d.falls + Hotness.demotions l

/-- What has to be done about these transitions, and nothing else. -/
def of (l : List Hotness.Transition) : Debt := ({} : Debt).take l

def applied (d : Debt) (key : Key) : Debt := { d with owed := d.owed.erase key }

def counted (d : Debt) : Metric → Debt
  | .promotion => { d with rises := d.rises - 1 }
  | .demotion => { d with falls := d.falls - 1 }
  | _ => d

end Debt

/-- The history of one goroutine. `job` is its call while it is under way, `call` the same call
for good; `sent` and `wrote` belong to the write that was `dispatched`, and `cleared` and
`forgotten` begin anew with it. `gated` holds the keys of a write from the acquisition of its
gates until their release, and `opened` remembers that they have been acquired. -/
structure Trace where
  call : Option Job := none
  job : Option Job := none
  started : Moment := ⟨0, 0, 0⟩
  done : Option (Moment × Reply) := none
  seen : List Seen := []
  fetches : List (List Key × Except Error (List Value)) := []
  carried : Option Candidate := none
  gated : Option (List Key) := none
  opened : Bool := false
  window : Option (List Key) := none
  dispatched : Option Moment := none
  sent : List Key := []
  wrote : Option (Key × Bytes) := none
  cleared : List Key := []
  clearedAll : Bool := false
  forgotten : List Key := []
  joined : Option Nat := none
  debt : Debt := {}

/-- The history of a run: when each epoch was last advanced, when each flight was started, how the
last item of each key came into each tier. No function of the program looks at it. -/
structure Past where
  time : Nat
  trace : Nat → Trace
  bump : Stripe → Moment
  born : Nat → Moment
  lodged : Tier → Key → Lodging

/-- The mutable part of the service and what surrounds it: the clock, the contexts of the
callers that are done, the origin and the number of upstream reads sent so far. -/
structure World where
  tiers : Tier → Cache
  tracker : Hotness.Tracker
  recorder : Recorder
  closed : Bool
  stripes : Stripe → StripeState
  gates : Stripe → Option Nat
  group : Key → Option Nat
  flights : List Flight
  clock : Time
  contexts : Nat → Option Error
  origin : Origin
  reqs : Nat
  past : Past

/-- How the nondeterminism of an action is resolved: the orders in which a map yields its keys,
the version and PTTL that a read finds for each key, a failure, the arm of a `select`, or the
effect of a write at the origin with its reply. -/
inductive Choice where
  | any
  | orders (order order' : List Key)
  | values (l : List (Nat × Time))
  | fail (e : Error)
  | done
  | effect (updates : Option (List (Key × Option Bytes))) (result : Except Error RedisReply)

namespace Choice

def order : Choice → List Key
  | orders l _ => l
  | _ => []

def order' : Choice → List Key
  | orders _ l => l
  | _ => []

end Choice

/-- The condition under which `finalizeWrite` takes a reply for an acknowledged plain SET, with
the key and the value it set. -/
def acknowledgedSet (command : Bytes) (args keys : List Bytes) :
    Except Error RedisReply → Option (Key × Bytes)
  | .ok (.text status) =>
    match args, keys with
    | [key, value], [key'] =>
      if equalFold status wordOK ∧ equalFold command wordSET ∧ key' = key then some (key, value)
      else none
    | _, _ => none
  | _ => none

/-- A tracker call; the loops over its map take the keys in the chosen orders. -/
def TrackerOp.run (tr : Hotness.Tracker) (c : Choice) (now : Time) :
    (op : TrackerOp) → Option (op.Resp × Hotness.Tracker)
  | .observeWithState key =>
    if c.order.Perm tr.items.keys then some (tr.observeWithState c.order key now) else none
  | .admitKey key => if c.order.Perm tr.items.keys then some (tr.admitKey c.order key now) else none
  | .advance => if c.order.Perm tr.items.keys then some (tr.advance c.order now) else none
  | .advanceAndSnapshot limit =>
    if c.order.Perm tr.items.keys ∧ c.order'.Perm tr.items.keys then
      some (tr.advanceAndSnapshot c.order c.order' limit now)
    else none
  | .isHot key => some (tr.isHot key, tr)
  | .isTracked key => some (tr.isTracked key, tr)
  | .stats => some (tr.stats, tr)
  | .capacityDrops => some (tr.capacityDrops, tr)
  | .oversizedObservationsDropped => some (tr.oversizedObservationsDropped, tr)

/-- The mutex is not reentrant: whoever holds it, `lock` has to wait. -/
def StripeOp.run (st : StripeState) (t : Nat) : (op : StripeOp) → Option (op.Resp × StripeState)
  | .lock => if st.owner = none then some ((), { st with owner := some t }) else none
  | .unlock => if st.owner = some t then some ((), { st with owner := none }) else none
  | .epochLoad => some (st.epoch, st)
  | .epochAdd => some ((), { st with epoch := st.epoch + 1 })
  | .promotionLoad => some (st.promotionInProgress, st)
  | .promotionStore b => some ((), { st with promotionInProgress := b })

/-- A gate is a channel of capacity one, full while a goroutine holds it. -/
def GateOp.run (gate : Option Nat) (t : Nat) (c : Choice) (done : Option Error) :
    (op : GateOp) → Option (op.Resp × Option Nat)
  | .send =>
    match c with
    | .done => done.map fun e => (some e, gate)
    | _ => if gate = none then some (none, some t) else none
  | .receive => if gate = none then none else some ((), none)

namespace World

abbrev find (s : World) (tier : Tier) (k : Key) : Option Entry := (s.tiers tier).find k

abbrev trace (s : World) (t : Nat) : Trace := s.past.trace t

def moment (s : World) : Moment := ⟨s.past.time, s.origin.version, s.reqs⟩

/-- A read context that `context.WithTimeout` derives ends with the caller's context or at its
own deadline. -/
def doneErr (s : World) (t : Nat) (deadline : Time) : Option Error :=
  match s.contexts t with
  | some e => some e
  | none => if deadline ≤ s.clock then some .deadlineExceeded else none

/-- `singleflight.Group` is not part of the repository. This is its documented behaviour, which is
assumed here: `DoChan` joins the call of its key that is in flight or begins one; all who wait are
given its one result, which is `Shared` if another caller has joined; a call that completes leaves
the group, and after `Forget` the next caller does not join it. -/
def stepGroup (s : World) (t : Nat) (c : Choice) : (op : GroupOp) → Option (op.Resp × World)
  | .doChan key _ _ =>
    match s.group key with
    | some f =>
      some (⟨f, false⟩,
        { s with flights := s.flights.modify f fun fl => { fl with dups := fl.dups + 1 } })
    | none =>
      some (⟨s.flights.length, true⟩,
        { s with
          group := Function.update s.group key (some s.flights.length)
          flights := s.flights ++ [⟨key, 0, none⟩] })
  | .wait f deadline =>
    match c with
    | .done => (s.doneErr t deadline).map fun e => (.done e, s)
    | _ =>
      match s.flights[f]? with
      | some ⟨_, dups, some r⟩ => some (.result r (decide (dups > 0)), s)
      | _ => none
  | .complete f result =>
    match s.flights[f]? with
    | some fl =>
      some ((),
        { s with
          flights := s.flights.set f { fl with result := some result }
          group :=
            if s.group fl.key = some f then Function.update s.group fl.key none else s.group })
    | none => none
  | .forget key => some ((), { s with group := Function.update s.group key none })

/-- The upstream is a Redis-compatible server that only `dispatch` changes. A read returns, for
each key, what the origin held at some version since the read was sent; a write changes at most
the keys it names, once, whatever it replies; an acknowledged plain SET has set its key. -/
def stepUpstream (s : World) (c : Choice) : (op : UpstreamOp) → Option (op.Resp × World)
  | .issue _ => some (⟨s.reqs, s.origin.version⟩, { s with reqs := s.reqs + 1 })
  | .answer i keys =>
    match c with
    | .fail e => some (.error e, s)
    | .values l =>
      if l.length = keys.length ∧ ∀ r ∈ l, i.version ≤ r.1 ∧ r.1 ≤ s.origin.version then
        some (.ok (List.zipWith (fun k r => s.origin.read i.ticket r.1 r.2 k) keys l), s)
      else none
    | _ => none
  | .dispatch command args keys =>
    match c with
    | .effect updates result =>
      if (∀ u ∈ updates.getD [], u.1 ∈ keys) ∧
          (∀ kv ∈ acknowledgedSet command args keys result, updates = some [(kv.1, some kv.2)]) then
        let origin := (updates.map s.origin.apply).getD s.origin
        some ((result, .write s.reqs origin.version), { s with origin := origin })
      else none
    | _ => none
  | .passThrough _ _ =>
    match c with
    | .effect none result => some (result, s)
    | _ => none
  | .ping =>
    match c with
    | .fail e => some (some e, s)
    | _ => some (none, s)
  | .close => some ((), s)

def step (s : World) (t : Nat) (c : Choice) : (a : Action) → Option (a.Resp × World)
  | .tracker op =>
    (op.run s.tracker c s.clock).map fun r => (r.1, { s with tracker := r.2 })
  | .cache tier op =>
    let r := op.run (s.tiers tier) s.clock
    some (r.1, { s with tiers := Function.update s.tiers tier r.2 })
  | .stripe σ op =>
    (op.run (s.stripes σ) t).map fun r =>
      (r.1, { s with stripes := Function.update s.stripes σ r.2 })
  | .gate σ op =>
    (op.run (s.gates σ) t c (s.contexts t)).map fun r =>
      (r.1, { s with gates := Function.update s.gates σ r.2 })
  | .group op => s.stepGroup t c op
  | .upstream op => s.stepUpstream c op
  | .record m => some ((), { s with recorder := s.recorder.record m })
  | .counters => some (s.recorder, s)
  | .now => some (s.clock, s)
  | .ctxErr => some (s.contexts t, s)
  | .closeSwap => some (!s.closed, { s with closed := true })
  | .note _ => some ((), s)

end World

/-- What happens outside the service: time passes, the context of a caller ends, and another
client writes to the origin. -/
inductive Env where
  | tick (d : Nat)
  | cancel (t : Nat) (expired : Bool)
  | originWrite (key : Key) (value : Option Bytes)

def World.env (s : World) : Env → Option World
  | .tick d => some { s with clock := s.clock + d }
  | .cancel t expired =>
    match s.contexts t with
    | some _ => none
    | none =>
      some { s with
        contexts := Function.update s.contexts t
          (some (if expired then .deadlineExceeded else .canceled)) }
  | .originWrite key value => some { s with origin := s.origin.apply [(key, value)] }

end Slizen
