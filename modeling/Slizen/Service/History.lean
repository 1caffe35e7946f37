import Slizen.Service.World

namespace Slizen
set_option autoImplicit true

def EntrySnapshot.toValue (item : EntrySnapshot) : Value := ⟨item.value, true, item.ttl⟩

namespace Trace

def writeKeys (tr : Trace) : List Key := (tr.job.map Job.writeKeys).getD []

def see (tr : Trace) (via : Via) (key : Key) (value : Value) : Trace :=
  { tr with seen := ⟨via, key, value⟩ :: tr.seen }

def fetched (tr : Trace) (keys : List Key) (r : Except Error (List Value)) : Trace :=
  { tr with
    fetches := (keys, r) :: tr.fetches
    seen := match r with
      | .ok values => List.zipWith (fun k v => ⟨.upstream, k, v⟩) keys values ++ tr.seen
      | .error _ => tr.seen }

def recordTracker (tr : Trace) (op : TrackerOp) (b : op.Resp) : Trace :=
  { tr with debt := tr.debt.take (op.transitions b) }

/-- A candidate is carried from the probationary tier to the protected one under its stripe. -/
def recordCache (tr : Trace) (lodged : Tier → Key → Lodging) (tier : Tier) :
    (op : CacheOp) → op.Resp → Trace
  | .get key, some item =>
    let tr := tr.see .tier key item.toValue
    if tier = .probationary then
      { tr with carried := some ⟨key, item.value, item.expiresAt, lodged .probationary key⟩ }
    else tr
  | .getStale key _, some item => tr.see .tier key item.toValue
  | _, _ => tr

def recordStripe (tr : Trace) : StripeOp → Trace
  | .lock => { tr with carried := none }
  | _ => tr

def recordGroup (tr : Trace) (flights : List Flight) : (op : GroupOp) → op.Resp → Trace
  | .doChan _ _ _, j => { tr with joined := some j.flight }
  | .wait f _, .result (.ok value) _ =>
    match flights[f]? with
    | some fl => tr.see .flight fl.key value
    | none => tr
  | .forget key, _ => { tr with forgotten := key :: tr.forgotten }
  | _, _ => tr

def recordUpstream (tr : Trace) (at_ : Moment) : (op : UpstreamOp) → op.Resp → Trace
  | .answer _ keys, r => tr.fetched keys r
  | .dispatch command args keys, r =>
    { tr with
      dispatched := some at_
      sent := keys
      wrote := acknowledgedSet command args keys r.1
      cleared := []
      forgotten := [] }
  | _, _ => tr

def recordNote (tr : Trace) (at_ : Moment) : Note → Trace
  | .start job => { call := some job, job := some job, started := at_ }
  | .finish reply => { tr with job := none, done := some (at_, reply) }
  | .openWindow keys => { tr with window := some keys, gated := some keys, opened := true }
  | .closeWindow => { tr with window := none }
  | .releaseGates => { tr with gated := none }
  | .cleared key => { tr with cleared := key :: tr.cleared, carried := none }
  | .clearedAll => { tr with clearedAll := true, carried := none }
  | .applied key => { tr with debt := tr.debt.applied key }

/-- The history of a goroutine after its action was answered by `b` and has left the world `s`. -/
def record (tr : Trace) (s : World) : (a : Action) → a.Resp → Trace
  | .tracker op, b => tr.recordTracker op b
  | .cache tier op, b => tr.recordCache s.past.lodged tier op b
  | .stripe _ op, _ => tr.recordStripe op
  | .group op, b => tr.recordGroup s.flights op b
  | .upstream op, b => tr.recordUpstream s.moment op b
  | .record m, _ => { tr with debt := tr.debt.counted m }
  | .note n, _ => tr.recordNote s.moment n
  | _, _ => tr

end Trace

namespace Past

def recordBump (p : Past) (at_ : Moment) : Action → Stripe → Moment
  | .stripe σ .epochAdd => Function.update p.bump σ at_
  | _ => p.bump

def recordBorn (p : Past) (at_ : Moment) : (a : Action) → a.Resp → Nat → Moment
  | .group (.doChan _ _ _), j => if j.leader then Function.update p.born j.flight at_ else p.born
  | _, _ => p.born

def lodge (p : Past) (tier : Tier) (key : Key) (l : Lodging) : Tier → Key → Lodging :=
  fun tier' key' => if tier' = tier ∧ key' = key then l else p.lodged tier' key'

/-- A promoted candidate keeps the record of its first installation. -/
def recordLodged (p : Past) (clock : Time) (t : Nat) : (a : Action) → a.Resp → Tier → Key → Lodging
  | .cache tier (.put key _ _), stored =>
    if stored then p.lodge tier key ⟨clock, tier = .probationary⟩ else p.lodged
  | .cache tier (.putUntil key _ _), stored =>
    match (p.trace t).carried with
    | some candidate => if stored then p.lodge tier key candidate.lodging else p.lodged
    | none => p.lodged
  | _, _ => p.lodged

def record (s : World) (t : Nat) (a : Action) (b : a.Resp) : Past where
  time := s.past.time + 1
  trace := Function.update s.past.trace t ((s.past.trace t).record s a b)
  bump := s.past.recordBump s.moment a
  born := s.past.recordBorn s.moment a b
  lodged := s.past.recordLodged s.clock t a b

end Past

/-- One atomic action of goroutine `t`, with its record. -/
def World.exec (t : Nat) (a : Action) (c : Choice) (s : World) : Option (a.Resp × World) :=
  (s.step t c a).map fun r => (r.1, { r.2 with past := Past.record r.2 t a r.1 })

end Slizen
