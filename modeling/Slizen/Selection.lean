import Mathlib.Data.List.Sort
import Mathlib.Data.Prod.Lex
import Mathlib.Data.List.Lex

namespace Slizen
set_option autoImplicit true

/-- `p` is the longest initial part of `l` that fits. -/
structure LongestPrefix (fits : List α → Prop) (l p : List α) : Prop where
  initial : p <+: l
  holds : fits p
  longest : ∀ q, q <+: l → fits q → q.length ≤ p.length

namespace LongestPrefix

variable {fits : List α → Prop}

theorem self (h : fits l) : LongestPrefix fits l l :=
  ⟨List.prefix_refl l, h, fun _ hq _ => hq.length_le⟩

theorem concat (hn : ¬ fits (l ++ [a])) (h : LongestPrefix fits l p) :
    LongestPrefix fits (l ++ [a]) p := by
  refine ⟨h.initial.trans (List.prefix_append l [a]), h.holds, ?_⟩
  intro q hq hf
  rcases List.prefix_concat_iff.1 hq with rfl | hq
  · exact absurd hf hn
  · exact h.longest q hq hf

theorem congr {fits' : List α → Prop} (hf : ∀ q, q <+: l → (fits q ↔ fits' q))
    (h : LongestPrefix fits l p) : LongestPrefix fits' l p :=
  ⟨h.initial, (hf p h.initial).1 h.holds, fun q hq hq' => h.longest q hq ((hf q hq).2 hq')⟩

theorem head_mem (h : LongestPrefix fits (a :: l) p) (ha : fits [a]) : a ∈ p := by
  have hlen : 1 ≤ p.length := h.longest [a] (by simp) ha
  cases p with
  | nil => cases hlen
  | cons b p =>
    rw [(List.cons_prefix_cons.1 h.initial).1]
    exact List.mem_cons_self

end LongestPrefix
namespace Selection

/-- A binary heap in a list: no child is less than its parent. -/
def IsHeap (less : α → α → Bool) (h : List α) : Prop :=
  ∀ i j a b, (j = 2 * i + 1 ∨ j = 2 * i + 2) → h[i]? = some a → h[j]? = some b → less b a = false

/-- What a heap implementation promises. `Arranged` holds of the lists that it maintains: all heaps,
or some of them. Both operations keep the elements and give such a list again, `fix` after the
element at the root was replaced. -/
structure Heap (less : α → α → Bool) where
  Arranged : List α → Prop
  isHeap : ∀ {h : List α}, Arranged h → IsHeap less h
  nil : Arranged []
  push : List α → α → List α
  push_perm : ∀ {h : List α} {x : α}, Arranged h → (push h x).Perm (x :: h)
  push_arranged : ∀ {h : List α} {x : α}, Arranged h → Arranged (push h x)
  fix : List α → List α
  fix_perm : ∀ {rest : List α} {w x : α},
    Arranged (w :: rest) → (fix (x :: rest)).Perm (x :: rest)
  fix_arranged : ∀ {rest : List α} {w x : α}, Arranged (w :: rest) → Arranged (fix (x :: rest))

/-- What a sort promises: the same elements, none before one that is less. -/
structure Sorter (less : α → α → Bool) where
  sort : List α → List α
  perm : ∀ l, (sort l).Perm l
  sorted : ∀ l, (sort l).Pairwise fun a b => less b a = false

/-- One round of a bounded selection. The heap is ordered the other way round, so that its root is
the worst element kept. -/
def keep (better : α → α → Bool) (heap : Heap fun a b => better b a) (limit : Nat)
    (selected : List α) (x : α) : List α :=
  if selected.length < limit then heap.push selected x
  else
    match selected with
    | [] => []
    | worst :: rest => if better x worst then heap.fix (x :: rest) else worst :: rest

section

variable {β : Type} [LinearOrder β] {better : α → α → Bool} {rank : α → β}
variable (hbetter : ∀ a b, better a b = true ↔ rank a < rank b)

include hbetter

theorem better_false : better a b = false ↔ rank b ≤ rank a := by
  rw [← Bool.not_eq_true, hbetter, not_lt]

theorem root_worst (h : IsHeap (fun a b => better b a) (w :: rest)) (i : Nat) (a : α)
    (ha : (w :: rest)[i]? = some a) : rank a ≤ rank w := by
  induction i using Nat.strongRecOn generalizing a with
  | ind i ih =>
    cases i with
    | zero =>
      cases ha
      exact le_rfl
    | succ i =>
      have hlt : i / 2 < (w :: rest).length := by
        have := (List.getElem?_eq_some_iff.1 ha).1
        omega
      have hparent := List.getElem?_eq_getElem hlt
      have hchild := h (i / 2) (i + 1) _ a (by omega) hparent ha
      exact ((better_false hbetter).1 hchild).trans (ih (i / 2) (by omega) _ hparent)

/-- The elements seen so far are the selected ones and others that are no better than those. -/
structure Best {better : α → α → Bool} (rank : α → β) (heap : Heap fun a b => better b a)
    (limit : Nat) (seen selected : List α) : Prop where
  arranged : heap.Arranged selected
  length : selected.length = min limit seen.length
  split : ∃ dropped, (selected ++ dropped).Perm seen ∧
    ∀ a ∈ selected, ∀ b ∈ dropped, rank a ≤ rank b

theorem root_worst_of_mem (h : IsHeap (fun a b => better b a) (w :: rest)) (ha : a ∈ w :: rest) :
    rank a ≤ rank w := by
  obtain ⟨i, hi⟩ := List.mem_iff_getElem?.1 ha
  exact root_worst hbetter h i a hi

theorem Best.keep {heap : Heap fun a b => better b a} (h : Best rank heap limit seen selected)
    (x : α) : Best rank heap limit (x :: seen) (keep better heap limit selected x) := by
  obtain ⟨hheap, hlength, dropped, hsplit, hbest⟩ := h
  rw [Selection.keep.eq_def]
  split
  · next hroom =>
    -- nothing was dropped while there is room
    have hdropped : dropped = [] := by
      have := hsplit.length_eq
      rw [List.length_append] at this
      apply List.length_eq_zero_iff.1
      omega
    subst hdropped
    rw [List.append_nil] at hsplit
    have hperm := heap.push_perm (x := x) hheap
    refine ⟨heap.push_arranged hheap, ?_, [], ?_, fun _ _ _ hb => absurd hb List.not_mem_nil⟩
    · rw [hperm.length_eq, List.length_cons, List.length_cons]
      omega
    · rw [List.append_nil]
      exact hperm.trans (hsplit.cons x)
  · next hfull =>
    cases selected with
    | nil =>
      refine ⟨hheap, ?_, x :: dropped, hsplit.cons x, fun _ ha => absurd ha List.not_mem_nil⟩
      rw [List.length_nil] at hfull ⊢
      omega
    | cons worst rest =>
      have hworst : ∀ a ∈ worst :: rest, rank a ≤ rank worst :=
        fun a ha => root_worst_of_mem hbetter (heap.isHeap hheap) ha
      have hsize : (worst :: rest).length = min limit (x :: seen).length := by
        rw [List.length_cons (a := x)]
        omega
      by_cases hx : better x worst = true
      · have hlt := (hbetter x worst).1 hx
        have hperm := heap.fix_perm (x := x) hheap
        simp only [hx, if_true]
        refine ⟨heap.fix_arranged hheap, hperm.length_eq.trans hsize, worst :: dropped, ?_, ?_⟩
        · apply (hperm.append_right _).trans
          apply List.Perm.cons
          exact List.perm_middle.trans hsplit
        · intro a ha b hb
          have hle : rank a ≤ rank worst := by
            rcases List.mem_cons.1 (hperm.mem_iff.1 ha) with rfl | ha
            · exact hlt.le
            · exact hworst a (List.mem_cons_of_mem _ ha)
          rcases List.mem_cons.1 hb with rfl | hb
          · exact hle
          · exact hle.trans (hbest worst List.mem_cons_self b hb)
      · have hle := (better_false hbetter).1 (Bool.eq_false_iff.2 hx)
        simp only [hx]
        refine ⟨hheap, hsize, x :: dropped, ?_, ?_⟩
        · exact List.perm_middle.trans (hsplit.cons x)
        · intro a ha b hb
          rcases List.mem_cons.1 hb with rfl | hb
          · exact (hworst a ha).trans hle
          · exact hbest a ha b hb

theorem Best.foldl {heap : Heap fun a b => better b a} (l : List α)
    (h : Best rank heap limit seen selected) :
    Best rank heap limit (l.reverse ++ seen)
      (l.foldl (Selection.keep better heap limit) selected) := by
  induction l generalizing seen selected with
  | nil => exact h
  | cons x l ih =>
    rw [List.reverse_cons, List.append_assoc]
    exact ih (h.keep hbetter x)

omit hbetter in
theorem best_nil (heap : Heap fun a b => better b a) : Best rank heap limit [] [] := by
  refine ⟨heap.nil, (Nat.min_zero limit).symm, [], List.Perm.refl _, ?_⟩
  intro a ha
  cases ha

theorem sorted_unique {l₁ l₂ : List α} (hinj : ∀ a ∈ l₁, ∀ b ∈ l₁, rank a = rank b → a = b)
    (h₁ : l₁.Pairwise fun a b => better b a = false)
    (h₂ : l₂.Pairwise fun a b => better b a = false) (hperm : l₁.Perm l₂) : l₁ = l₂ := by
  apply List.Perm.eq_of_pairwise _ h₁ h₂ hperm
  intro a b ha hb hab hba
  apply hinj a ha b (hperm.mem_iff.2 hb)
  exact le_antisymm ((better_false hbetter).1 hab) ((better_false hbetter).1 hba)

theorem sort_selected (heap : Heap fun a b => better b a) (sorter sorter' : Sorter better)
    (limit : Nat) (l : List α) (hinj : ∀ a ∈ l, ∀ b ∈ l, rank a = rank b → a = b) :
    sorter.sort (l.foldl (keep better heap limit) []) = (sorter'.sort l).take limit := by
  have hbest : Best rank heap limit (l.reverse ++ []) _ := (best_nil heap).foldl hbetter l
  obtain ⟨_, hlength, dropped, hsplit, hrank⟩ := hbest
  generalize l.foldl (keep better heap limit) [] = selected at *
  rw [List.append_nil] at hsplit hlength
  rw [List.length_reverse] at hlength
  have hperm : (sorter.sort selected ++ sorter'.sort dropped).Perm (sorter'.sort l) :=
    ((sorter.perm selected).append (sorter'.perm dropped)).trans
      (hsplit.trans (l.reverse_perm.trans (sorter'.perm l).symm))
  have hmem : ∀ a, a ∈ sorter.sort selected ++ sorter'.sort dropped ↔ a ∈ l :=
    fun a => (hperm.trans (sorter'.perm l)).mem_iff
  have hsorted : (sorter.sort selected ++ sorter'.sort dropped).Pairwise
      fun a b => better b a = false := by
    apply List.pairwise_append.2
    refine ⟨sorter.sorted selected, sorter'.sorted dropped, ?_⟩
    intro a ha b hb
    apply (better_false hbetter).2
    exact hrank a ((sorter.perm selected).mem_iff.1 ha) b ((sorter'.perm dropped).mem_iff.1 hb)
  have heq := sorted_unique hbetter (fun a ha b hb => hinj a ((hmem a).1 ha) b ((hmem b).1 hb))
    hsorted (sorter'.sorted l) hperm
  have htake : limit = (sorter.sort selected).length ∨ l.length ≤ limit ∧
      (sorter.sort selected).length = l.length := by
    rw [(sorter.perm selected).length_eq]
    omega
  rw [← heq]
  rcases htake with rfl | ⟨hle, hall⟩
  · exact (List.take_left).symm
  · have hdropped : sorter'.sort dropped = [] := by
      have := (hperm.trans (sorter'.perm l)).length_eq
      rw [List.length_append] at this
      apply List.length_eq_zero_iff.1
      omega
    rw [hdropped, List.append_nil, List.take_of_length_le (hall.le.trans hle)]

end

end Selection
end Slizen
