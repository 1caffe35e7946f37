import Mathlib.Order.Bounds.Basic
import Slizen.Interleaving.Totals
import Slizen.Metrics

namespace Slizen.HighWater
set_option autoImplicit true

/-- Where a call of a recorder method that uses `advanceHighWater` stands: before the load of the
mark, before the compare-and-swap, before the addition to the counter, or at its end. The last two
have the delta that `advanceHighWater` returns. -/
inductive Point where
  | load
  | swap (previous : Nat)
  | add (delta : Nat)
  | done (delta : Nat)
  deriving DecidableEq

structure Call where
  total : Nat
  point : Point
  deriving DecidableEq

structure State where
  mark : Nat
  exported : Nat
  calls : List Call

/-- The call has returned, or its compare-and-swap has succeeded. -/
def Call.Settled (x : Call) : Prop :=
  match x.point with
  | .load => False
  | .swap _ => False
  | .add _ => True
  | .done _ => True

instance (x : Call) : Decidable x.Settled := by
  unfold Call.Settled
  split <;> infer_instance

def Call.delta (x : Call) : Nat :=
  match x.point with
  | .load => 0
  | .swap _ => 0
  | .add delta => delta
  | .done delta => delta

def Call.added (x : Call) : Nat :=
  match x.point with
  | .done delta => delta
  | _ => 0

def Call.Returned (x : Call) : Prop := ∃ delta, x.point = .done delta

/-- One atomic step of a call; a comparison with a loaded value goes with the load. -/
def Call.step (mark exported : Nat) (x : Call) : Nat × Nat × Call :=
  match x.point with
  | .load =>
    if x.total ≤ mark then (mark, exported, { x with point := .done 0 })
    else (mark, exported, { x with point := .swap mark })
  | .swap previous =>
    if mark = previous then (x.total, exported, { x with point := .add (x.total - previous) })
    else (mark, exported, { x with point := .load })
  | .add delta => (mark, exported + delta, { x with point := .done delta })
  | .done _ => (mark, exported, x)

def State.step (s : State) (t : Nat) : State :=
  match s.calls[t]? with
  | none => s
  | some x =>
    let r := x.step s.mark s.exported
    ⟨r.1, r.2.1, s.calls.set t r.2.2⟩

def State.run (s : State) (schedule : List Nat) : State := schedule.foldl State.step s

def start (mark exported : Nat) (totals : List Nat) : State :=
  ⟨mark, exported, totals.map fun total => ⟨total, .load⟩⟩

structure Inv (mark₀ exported₀ : Nat) (totals : List Nat) (s : State) : Prop where
  totals : s.calls.map Call.total = totals
  greatest : IsGreatest {n | n = mark₀ ∨ ∃ x ∈ s.calls, x.Settled ∧ x.total = n} s.mark
  loaded : ∀ x ∈ s.calls, ∀ previous, x.point = .swap previous → previous < x.total
  deltas : mark₀ + (s.calls.map Call.delta).sum = s.mark
  added : exported₀ + (s.calls.map Call.added).sum = s.exported

theorem inv_start (mark exported : Nat) (totals : List Nat) :
    Inv mark exported totals (start mark exported totals) := by
  have hload : ∀ x ∈ (start mark exported totals).calls, x.point = .load := by
    intro x hx
    obtain ⟨n, -, rfl⟩ := List.mem_map.1 hx
    rfl
  have hsum : ∀ f : Call → Nat, (∀ x, x.point = .load → f x = 0) →
      ((start mark exported totals).calls.map f).sum = 0 := by
    intro f hf
    apply List.sum_eq_zero
    intro n hn
    obtain ⟨x, hx, rfl⟩ := List.mem_map.1 hn
    exact hf x (hload x hx)
  constructor
  · simp [start, Function.comp_def]
  · constructor
    · exact .inl rfl
    · rintro n (rfl | ⟨x, hx, hs, -⟩)
      · exact Nat.le_refl _
      · rw [Call.Settled, hload x hx] at hs
        exact hs.elim
  · intro x hx previous hp
    rw [hload x hx] at hp
    cases hp
  · rw [hsum Call.delta fun x hx => by rw [Call.delta, hx]]
    rfl
  · rw [hsum Call.added fun x hx => by rw [Call.added, hx]]
    rfl

theorem map_total_set {l : List Call} (h : l[t]? = some x) (hy : y.total = x.total) :
    (l.set t y).map Call.total = l.map Call.total := by
  obtain ⟨ht, rfl⟩ := List.getElem?_eq_some_iff.1 h
  have hget : (l.map Call.total)[t]? = some y.total := by
    rw [List.getElem?_map, List.getElem?_eq_getElem ht, Option.map_some, hy]
  obtain ⟨ht', hget⟩ := List.getElem?_eq_some_iff.1 hget
  rw [List.map_set, ← hget, List.set_getElem_self]

theorem mem_set_of_mem {l : List Call} {z : Call} (h : l[t]? = some x) (hz : z ∈ l) :
    z ∈ l.set t y ∨ z = x ∧ y ∈ l.set t y := by
  obtain ⟨u, hu⟩ := List.mem_iff_getElem?.1 hz
  by_cases hut : t = u
  · subst hut
    have ht := (List.getElem?_eq_some_iff.1 h).1
    exact .inr ⟨Option.some.inj (hu.symm.trans h), List.mem_set ht y⟩
  · exact .inl (List.mem_iff_getElem?.2 ⟨u, by rw [List.getElem?_set_ne hut, hu]⟩)

section

variable {s : State} {mark₀ exported₀ : Nat} {totals : List Nat}

theorem Inv.greatest_set (h : Inv mark₀ exported₀ totals s) (hx : s.calls[t]? = some x)
    (htotal : y.total = x.total) (hstay : x.Settled → y.Settled) (hle : s.mark ≤ m)
    (hm : m = s.mark ∨ y.Settled ∧ y.total = m) (hy : y.Settled → y.total ≤ m) :
    IsGreatest {n | n = mark₀ ∨ ∃ z ∈ s.calls.set t y, z.Settled ∧ z.total = n} m := by
  have ht := (List.getElem?_eq_some_iff.1 hx).1
  constructor
  · rcases hm with rfl | ⟨hs, hm⟩
    · rcases h.greatest.1 with hmark | ⟨z, hz, hs, hmark⟩
      · exact .inl hmark
      · rcases mem_set_of_mem (y := y) hx hz with hz | ⟨rfl, hz⟩
        · exact .inr ⟨z, hz, hs, hmark⟩
        · exact .inr ⟨y, hz, hstay hs, htotal.trans hmark⟩
    · exact .inr ⟨y, List.mem_set ht y, hs, hm⟩
  · rintro n (rfl | ⟨z, hz, hs, rfl⟩)
    · exact (h.greatest.2 (.inl rfl)).trans hle
    · rcases List.mem_or_eq_of_mem_set hz with hz | rfl
      · exact (h.greatest.2 (.inr ⟨z, hz, hs, rfl⟩)).trans hle
      · exact hy hs

structure Moved (s : State) (x : Call) (m e : Nat) (y : Call) : Prop where
  total : y.total = x.total
  stay : x.Settled → y.Settled
  le : s.mark ≤ m
  mark : m = s.mark ∨ y.Settled ∧ y.total = m
  settled : y.Settled → y.total ≤ m
  loaded : ∀ previous, y.point = .swap previous → previous < y.total
  delta : y.delta + s.mark = x.delta + m
  added : y.added + s.exported = x.added + e

theorem Inv.moved (h : Inv mark₀ exported₀ totals s) (hx : x ∈ s.calls) :
    Moved s x (x.step s.mark s.exported).1 (x.step s.mark s.exported).2.1
      (x.step s.mark s.exported).2.2 := by
  have hsettled : x.Settled → x.total ≤ s.mark := fun hs => h.greatest.2 (.inr ⟨x, hx, hs, rfl⟩)
  rcases x with ⟨total, point⟩
  cases point with
  | load =>
    by_cases hle : total ≤ s.mark
    · simp only [Call.step, if_pos hle]
      exact ⟨rfl, fun _ => trivial, le_rfl, .inl rfl, fun _ => hle, nofun, rfl, rfl⟩
    · simp only [Call.step, if_neg hle]
      refine ⟨rfl, id, le_rfl, .inl rfl, nofun, ?_, rfl, rfl⟩
      rintro previous hp
      cases hp
      exact Nat.lt_of_not_le hle
  | swap previous =>
    have hlt := h.loaded _ hx previous rfl
    by_cases heq : s.mark = previous
    · simp only [Call.step, if_pos heq]
      refine ⟨rfl, nofun, ?_, .inr ⟨trivial, rfl⟩, fun _ => le_rfl, nofun, ?_, rfl⟩
      · rw [heq]
        exact hlt.le
      · show total - previous + s.mark = 0 + total
        have : previous < total := hlt
        omega
    · simp only [Call.step, if_neg heq]
      exact ⟨rfl, id, le_rfl, .inl rfl, nofun, nofun, rfl, rfl⟩
  | add delta =>
    exact ⟨rfl, fun _ => trivial, le_rfl, .inl rfl, fun _ => hsettled trivial, nofun, rfl,
      by simp only [Call.added, Call.step]; omega⟩
  | done delta => exact ⟨rfl, id, le_rfl, .inl rfl, hsettled, nofun, rfl, rfl⟩

theorem Inv.set (h : Inv mark₀ exported₀ totals s) (hx : s.calls[t]? = some x)
    (hm : Moved s x m e y) : Inv mark₀ exported₀ totals ⟨m, e, s.calls.set t y⟩ := by
  constructor
  · exact (map_total_set hx hm.total).trans h.totals
  · exact h.greatest_set hx hm.total hm.stay hm.le hm.mark hm.settled
  · intro z hz previous hp
    rcases List.mem_or_eq_of_mem_set hz with hz | rfl
    · exact h.loaded z hz previous hp
    · exact hm.loaded previous hp
  · have hsum := Interleaving.Pool.sum_map_set hx y Call.delta
    have := h.deltas
    have := hm.delta
    show mark₀ + ((s.calls.set t y).map Call.delta).sum = m
    omega
  · have hsum := Interleaving.Pool.sum_map_set hx y Call.added
    have := h.added
    have := hm.added
    show exported₀ + ((s.calls.set t y).map Call.added).sum = e
    omega

theorem Inv.step (h : Inv mark₀ exported₀ totals s) (t : Nat) :
    Inv mark₀ exported₀ totals (s.step t) := by
  rw [State.step]
  cases hx : s.calls[t]? with
  | none => exact h
  | some x => exact h.set hx (h.moved (List.mem_of_getElem? hx))

theorem Inv.run (h : Inv mark₀ exported₀ totals s) (schedule : List Nat) :
    Inv mark₀ exported₀ totals (s.run schedule) := by
  induction schedule generalizing s with
  | nil => exact h
  | cons t schedule ih => exact ih (h.step t)

theorem Inv.returned (h : Inv mark₀ exported₀ totals s) (hr : ∀ x ∈ s.calls, x.Returned) :
    s.exported = exported₀ + (s.mark - mark₀) ∧
      IsGreatest {n | n = mark₀ ∨ n ∈ totals} s.mark := by
  have hsum : s.calls.map Call.added = s.calls.map Call.delta := by
    apply List.map_congr_left
    intro x hx
    obtain ⟨delta, hd⟩ := hr x hx
    rw [Call.added, Call.delta, hd]
  have hset : ∀ n, (∃ x ∈ s.calls, x.Settled ∧ x.total = n) ↔ n ∈ totals := by
    intro n
    rw [← h.totals, List.mem_map]
    constructor
    · rintro ⟨x, hx, -, rfl⟩
      exact ⟨x, hx, rfl⟩
    · rintro ⟨x, hx, rfl⟩
      obtain ⟨delta, hd⟩ := hr x hx
      exact ⟨x, hx, by rw [Call.Settled, hd]; trivial, rfl⟩
  constructor
  · rw [← h.added, hsum, ← h.deltas]
    omega
  · simpa only [hset] using h.greatest

end

end Slizen.HighWater
