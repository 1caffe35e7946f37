import Mathlib.Algebra.BigOperators.Group.Finset.Piecewise
import Mathlib.Algebra.Order.BigOperators.Group.Finset
import Mathlib.Algebra.Order.BigOperators.Group.List
import Mathlib.Algebra.Order.Ring.Nat

namespace Interleaving
set_option autoImplicit true

namespace Pool

theorem sum_map_set {l : List α} {t : Nat} {x : α} (h : l[t]? = some x) (y : α) (f : α → Nat) :
    ((l.set t y).map f).sum + f x = (l.map f).sum + f y := by
  induction l generalizing t with
  | nil => cases h
  | cons z l ih =>
    cases t with
    | zero =>
      cases h
      simp only [List.set_cons_zero, List.map_cons, List.sum_cons]
      omega
    | succ t =>
      have := ih h
      simp only [List.set_cons_succ, List.map_cons, List.sum_cons]
      omega

theorem le_sum_map {l : List α} {t : Nat} {x : α} (h : l[t]? = some x) (f : α → Nat) :
    f x ≤ (l.map f).sum :=
  List.single_le_sum (fun _ _ => Nat.zero_le _) _ (List.mem_map_of_mem (List.mem_of_getElem? h))

theorem pair_le_sum_map {l : List α} {t u : Nat} {x y : α} (hx : l[t]? = some x)
    (hy : l[u]? = some y) (hne : u ≠ t) (f : α → Nat) : f x + f y ≤ (l.map f).sum := by
  induction l generalizing t u with
  | nil => cases hx
  | cons z l ih =>
    cases t with
    | zero =>
      cases u with
      | zero => exact absurd rfl hne
      | succ u =>
        cases hx
        have := le_sum_map (show l[u]? = some y from hy) f
        simp only [List.map_cons, List.sum_cons]
        omega
    | succ t =>
      cases u with
      | zero =>
        cases hy
        have := le_sum_map (show l[t]? = some x from hx) f
        simp only [List.map_cons, List.sum_cons]
        omega
      | succ u =>
        have := ih hx hy (fun e => hne (congrArg Nat.succ e))
        simp only [List.map_cons, List.sum_cons]
        omega

theorem sum_map_diff {l : List α} {t : Nat} {x : α} (h : l[t]? = some x) {f g : α → Nat}
    (hle : ∀ z, f z ≤ g z) : (l.map f).sum + g x ≤ (l.map g).sum + f x := by
  have hsub : ∀ z, f z + (g z - f z) = g z := fun z => Nat.add_sub_cancel' (hle z)
  have hsum : (l.map f).sum + (l.map fun z => g z - f z).sum = (l.map g).sum := by
    rw [← List.sum_map_add]
    simp only [hsub]
  have := le_sum_map h fun z => g z - f z
  have := hle x
  omega

end Pool

open Finset

/-- A total is the sum of what each thread has, and all but finitely many threads have nothing. -/
def Balance (w : Nat → Int) (total : Int) : Prop :=
  ∃ n, (∀ u, n ≤ u → w u = 0) ∧ total = ∑ u ∈ range n, w u

namespace Balance

variable {w w' : Nat → Int} {total : Int}

theorem zero (h : ∀ u, w u = 0) : Balance w 0 := ⟨0, fun u _ => h u, rfl⟩

theorem range (h : Balance w total) (hz : ∀ u, n ≤ u → w u = 0) : total = ∑ u ∈ range n, w u := by
  obtain ⟨m, hm, rfl⟩ := h
  have hsub : ∀ {i j}, i ≤ j → (∀ u, i ≤ u → w u = 0) →
      ∑ u ∈ Finset.range i, w u = ∑ u ∈ Finset.range j, w u := by
    intro i j hij hi
    refine sum_subset (range_subset_range.2 hij) fun u _ hu => hi u ?_
    simpa using hu
  rcases Nat.le_total m n with hmn | hnm
  · exact hsub hmn hm
  · exact (hsub hnm hz).symm

theorem step (h : Balance w total) (hne : ∀ u, u ≠ t → w' u = w u) :
    Balance w' (total + (w' t - w t)) := by
  obtain ⟨n, hz, rfl⟩ := h
  have hw : ∀ u, w' u = w u + if u = t then w' t - w t else 0 := by
    intro u
    by_cases hu : u = t
    · simp [hu]
    · simp [hu, hne u hu]
  have hz' : ∀ u, max n (t + 1) ≤ u → w u = 0 := fun u hu => hz u (by omega)
  have ht : t ∈ Finset.range (max n (t + 1)) := mem_range.2 (by omega)
  refine ⟨max n (t + 1), fun u hu => ?_, ?_⟩
  · rw [hne u (by omega), hz' u hu]
  · rw [sum_congr rfl fun u _ => hw u, sum_add_distrib, sum_ite_eq' _ t, if_pos ht,
      ← range ⟨n, hz, rfl⟩ hz']

theorem congr (h : Balance w total) (hw : ∀ u, w' u = w u) : Balance w' total := by
  rwa [show w' = w from funext hw]

theorem le (h : Balance w total) (hpos : ∀ u, 0 ≤ w u) (t : Nat) : w t ≤ total := by
  obtain ⟨n, hz, rfl⟩ := h
  by_cases ht : t < n
  · exact single_le_sum (fun u _ => hpos u) (mem_range.2 ht)
  · rw [hz t (by omega)]
    exact sum_nonneg fun u _ => hpos u

end Balance
end Interleaving
