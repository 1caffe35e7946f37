import Mathlib.Data.List.Sort
import Mathlib.Data.Rat.Floor
import Slizen.Tracker

namespace Slizen.Hotness
set_option autoImplicit true

structure Snapshot where
  key : Key
  state : State
  score : ℚ
  requestRate : ℚ
  lastSeen : Time
  age : Time

structure View where
  transitions : List Transition
  snapshots : List Snapshot
  tracked : Nat
  hot : Int
  evictions : Nat
  capacityDrops : Nat
  oversizedObservationsDropped : Nat

/-- `math.Round`: halves go away from zero. -/
def roundHalfAway (x : ℚ) : Int := if 0 ≤ x then ⌊x + 1 / 2⌋ else -⌊-x + 1 / 2⌋

def roundCents (x : ℚ) : ℚ := roundHalfAway (x * 100) / 100

def Entry.snapshot (e : Entry) (now : Time) : Snapshot where
  key := e.key
  state := e.state
  score := roundCents e.score
  requestRate := roundCents e.lastRate
  lastSeen := e.lastSeen
  age := now - e.createdAt

/-- Go compares strings byte by byte. -/
def bytesLess : Bytes → Bytes → Bool
  | [], [] => false
  | [], _ :: _ => true
  | _ :: _, [] => false
  | a :: as, b :: bs => if a < b then true else if b < a then false else bytesLess as bs

def snapshotBetter (left right : Snapshot) : Bool :=
  if left.state = .hot ∧ right.state ≠ .hot then true
  else if left.state ≠ .hot ∧ right.state = .hot then false
  else if left.score = right.score then bytesLess left.key right.key
  else left.score > right.score

/-- `sort.Slice` with `snapshotBetter`. -/
def sortSnapshots (snapshots : List Snapshot) : List Snapshot :=
  snapshots.insertionSort fun left right => !snapshotBetter right left

/-- Insert into a heap whose root is the worst snapshot. The heap is kept as a list that is
sorted with the worst first, which is one of the arrangements that `container/heap` allows. -/
def heapPush (snapshot : Snapshot) : List Snapshot → List Snapshot
  | [] => [snapshot]
  | worst :: rest =>
    if snapshotBetter worst snapshot then snapshot :: worst :: rest
    else worst :: heapPush snapshot rest

def selectTop (limit : Nat) (selected : List Snapshot) (snapshot : Snapshot) : List Snapshot :=
  if selected.length < limit then heapPush snapshot selected
  else
    match selected with
    | [] => []
    | worst :: rest => if snapshotBetter snapshot worst then heapPush snapshot rest else selected

/-- `topSnapshots`, over the entries in the order in which the map yields them. -/
def topSnapshots (entries : List Entry) (now : Time) (limit : Int) : List Snapshot :=
  let snapshots := entries.map fun e => e.snapshot now
  if limit ≤ 0 ∨ limit ≥ snapshots.length then sortSnapshots snapshots
  else sortSnapshots (snapshots.foldl (selectTop limit.toNat) [])

/-- `AdvanceAndSnapshot`. The two loops over the map may yield its keys in different orders. -/
def Tracker.advanceAndSnapshot (t : Tracker) (order order' : List Key) (limit : Int) (now : Time) :
    View × Tracker :=
  let (transitions, t) := t.advanceLocked order now
  ({ transitions := transitions
     snapshots := topSnapshots (order'.filterMap t.find) now limit
     tracked := t.items.keys.length
     hot := t.hot
     evictions := t.evictions
     capacityDrops := t.capacityDrops
     oversizedObservationsDropped := t.oversizedObservationsDropped }, t)

def Tracker.snapshots (t : Tracker) (order : List Key) (limit : Int) (now : Time) : List Snapshot :=
  topSnapshots (order.filterMap t.find) now limit

end Slizen.Hotness
