import Mathlib.Data.List.Nodup
import Mathlib.Logic.Function.Basic
import Mathlib.Logic.Relation

namespace DoublyLinked
set_option autoImplicit true

variable {ν : Type}

/-- The pointers of an intrusive doubly linked list. -/
@[ext]
structure Links (ν : Type) where
  head : Option ν
  prev : ν → Option ν
  next : ν → Option ν

namespace Links

variable {s s' : Links ν} {l l₁ l₂ : List ν} {m n : ν}

/-- The nodes are linked in this order, with the given pointers at the two ends. -/
def Segment (s : Links ν) (before : Option ν) : List ν → Option ν → Prop
  | [], _ => True
  | n :: l, after => s.prev n = before ∧ s.next n = l.head?.or after ∧ s.Segment (some n) l after

theorem segment_append {before after : Option ν} : s.Segment before (l₁ ++ l₂) after ↔
    s.Segment before l₁ (l₂.head?.or after) ∧ s.Segment (l₁.getLast?.or before) l₂ after := by
  induction l₁ generalizing before with
  | nil => simp [Segment]
  | cons n l₁ ih =>
    have hhead : (l₁ ++ l₂).head?.or after = l₁.head?.or (l₂.head?.or after) := by
      rw [List.head?_append, Option.or_assoc]
    have hlast : (n :: l₁).getLast?.or before = l₁.getLast?.or (some n) := by
      cases l₁ with
      | nil => rfl
      | cons m l => simp [List.getLast?_cons]
    simp only [List.cons_append, Segment, ih, hhead, hlast, and_assoc]

theorem Segment.congr {before after : Option ν} (h : s.Segment before l after)
    (hp : ∀ n ∈ l, s'.prev n = s.prev n) (hn : ∀ n ∈ l, s'.next n = s.next n) :
    s'.Segment before l after := by
  induction l generalizing before with
  | nil => trivial
  | cons n l ih =>
    rw [List.forall_mem_cons] at hp hn
    exact ⟨hp.1.trans h.1, hn.1.trans h.2.1, ih h.2.2 hp.2 hn.2⟩

/-- The pointers spell out a list of different nodes from the head on, and no other node has a
pointer set. -/
structure Spells (s : Links ν) (l : List ν) : Prop where
  nodup : l.Nodup
  head : s.head = l.head?
  linked : s.Segment none l none
  off : ∀ n, n ∉ l → s.prev n = none ∧ s.next n = none

theorem Spells.at (h : s.Spells (l₁ ++ n :: l₂)) :
    s.prev n = l₁.getLast? ∧ s.next n = l₂.head? := by
  obtain ⟨hprev, hnext, -⟩ := (segment_append.1 h.linked).2
  rw [Option.or_none] at hprev hnext
  exact ⟨hprev, hnext⟩

theorem Spells.next_eq (h : s.Spells l) (hn : s.next m = some n) :
    ∃ l₁ l₂, l = l₁ ++ m :: n :: l₂ := by
  by_cases hm : m ∈ l
  · obtain ⟨l₁, l₂, rfl⟩ := List.append_of_mem hm
    rw [h.at.2] at hn
    cases l₂ with
    | nil => cases hn
    | cons n' l₂ =>
      cases hn
      exact ⟨l₁, l₂, rfl⟩
  · rw [(h.off m hm).2] at hn
    cases hn

theorem Spells.prev_eq (h : s.Spells l) (hn : s.prev n = some m) :
    ∃ l₁ l₂, l = l₁ ++ m :: n :: l₂ := by
  by_cases hm : n ∈ l
  · obtain ⟨l₁, l₂, rfl⟩ := List.append_of_mem hm
    rw [h.at.1] at hn
    obtain ⟨l₀, rfl⟩ := List.getLast?_eq_some_iff.1 hn
    exact ⟨l₀, l₂, by simp⟩
  · rw [(h.off n hm).1] at hn
    cases hn

theorem Spells.next_iff_prev (h : s.Spells l) : s.next m = some n ↔ s.prev n = some m := by
  constructor
  · intro hn
    obtain ⟨l₁, l₂, rfl⟩ := h.next_eq hn
    have hsplit : l₁ ++ m :: n :: l₂ = (l₁ ++ [m]) ++ n :: l₂ := by simp
    rw [hsplit] at h
    rw [h.at.1, List.getLast?_concat]
  · intro hp
    obtain ⟨l₁, l₂, rfl⟩ := h.prev_eq hp
    exact h.at.2

/-- One node leads to another in one or more steps. -/
def Leads (s : Links ν) : ν → ν → Prop := Relation.TransGen fun m n => s.next m = some n

theorem Spells.leads (h : s.Spells l) (hl : s.Leads m n) : ∃ l₁ l₂, l = l₁ ++ m :: l₂ ∧ n ∈ l₂ := by
  induction hl with
  | single hn =>
    obtain ⟨l₁, l₂, rfl⟩ := h.next_eq hn
    exact ⟨l₁, _, rfl, List.mem_cons_self⟩
  | @tail k _ _ hn ih =>
    obtain ⟨l₁, l₂, rfl, hk⟩ := ih
    refine ⟨l₁, l₂, rfl, ?_⟩
    obtain ⟨l₃, l₄, rfl⟩ := List.append_of_mem hk
    have hsplit : l₁ ++ m :: (l₃ ++ k :: l₄) = (l₁ ++ m :: l₃) ++ k :: l₄ := by simp
    rw [hsplit] at h
    rw [h.at.2] at hn
    exact List.mem_append_right _ (List.mem_cons_of_mem _ (List.mem_of_mem_head? hn))

theorem Spells.acyclic (h : s.Spells l) (n : ν) : ¬ s.Leads n n := by
  intro hl
  obtain ⟨l₁, l₂, rfl, hn⟩ := h.leads hl
  have hnodup := (List.nodup_append.1 h.nodup).2.1
  exact (List.nodup_cons.1 hnodup).1 hn

/-- The nodes that a walk from the head passes. -/
def Member (s : Links ν) (n : ν) : Prop :=
  ∃ h, s.head = some h ∧ Relation.ReflTransGen (fun m n => s.next m = some n) h n

theorem Segment.reaches {before after : Option ν} (h : s.Segment before (m :: l) after)
    (hn : n ∈ m :: l) : Relation.ReflTransGen (fun m n => s.next m = some n) m n := by
  induction l generalizing before m with
  | nil =>
    cases List.mem_singleton.1 hn
    exact .refl
  | cons k l ih =>
    rcases List.mem_cons.1 hn with rfl | hn
    · exact .refl
    · exact .head h.2.1 (ih h.2.2 hn)

theorem Spells.member_iff (h : s.Spells l) : s.Member n ↔ n ∈ l := by
  constructor
  · rintro ⟨first, hfirst, hwalk⟩
    have hmem : first ∈ l := List.mem_of_mem_head? (h.head ▸ hfirst)
    induction hwalk with
    | refl => exact hmem
    | tail _ hn _ =>
      obtain ⟨l₁, l₂, rfl⟩ := h.next_eq hn
      simp
  · intro hn
    cases l with
    | nil => cases hn
    | cons m l => exact ⟨m, h.head, h.linked.reaches hn⟩

theorem Spells.head_prev (h : s.Spells l) (hn : s.head = some n) : s.prev n = none := by
  rw [h.head] at hn
  cases l with
  | nil => cases hn
  | cons m l =>
    cases hn
    exact h.linked.1

variable [DecidableEq ν]

def assign (f : ν → Option ν) (target : Option ν) (v : Option ν) : ν → Option ν :=
  match target with
  | some m => Function.update f m v
  | none => f

theorem assign_self (f : ν → Option ν) (m : ν) (v : Option ν) : assign f (some m) v m = v :=
  Function.update_self ..

theorem assign_other {f : ν → Option ν} {v : Option ν} (h : target ≠ some m) :
    assign f target v m = f m := by
  cases target with
  | none => rfl
  | some k => exact Function.update_of_ne (by rintro rfl; exact h rfl) ..

def push (s : Links ν) (n : ν) : Links ν where
  head := some n
  prev := Function.update (assign s.prev s.head (some n)) n none
  next := Function.update s.next n s.head

theorem Spells.push (h : s.Spells l) (hn : n ∉ l) : (s.push n).Spells (n :: l) where
  nodup := List.nodup_cons.2 ⟨hn, h.nodup⟩
  head := rfl
  linked := by
    have hnext : ∀ k ∈ l, (s.push n).next k = s.next k := by
      intro k hk
      exact Function.update_of_ne (by rintro rfl; exact hn hk) ..
    refine ⟨?_, ?_, ?_⟩
    · exact Function.update_self ..
    · rw [Option.or_none, ← h.head]
      exact Function.update_self ..
    · cases l with
      | nil => trivial
      | cons m l =>
        obtain ⟨hm, hl⟩ := List.forall_mem_cons.1 hnext
        obtain ⟨hne, hnl⟩ := List.ne_and_not_mem_of_not_mem_cons hn
        have hml := (List.nodup_cons.1 h.nodup).1
        have hhead : s.head = some m := h.head
        refine ⟨?_, hm.trans h.linked.2.1, h.linked.2.2.congr ?_ hl⟩
        · simp only [Links.push, hhead]
          rw [Function.update_of_ne hne.symm, assign_self]
        · intro k hk
          simp only [Links.push, hhead]
          rw [Function.update_of_ne (by rintro rfl; exact hnl hk),
            assign_other (by rintro ⟨⟩; exact hml hk)]
  off := by
    intro k hk
    obtain ⟨hkn, hkl⟩ := List.ne_and_not_mem_of_not_mem_cons hk
    obtain ⟨hprev, hnext⟩ := h.off k hkl
    refine ⟨?_, (Function.update_of_ne hkn ..).trans hnext⟩
    have hkh : s.head ≠ some k := fun hk => hkl (List.mem_of_mem_head? (h.head ▸ hk))
    simp only [Links.push]
    rw [Function.update_of_ne hkn, assign_other hkh, hprev]

def unlink (s : Links ν) (n : ν) : Links ν where
  head := match s.prev n with
    | none => s.next n
    | some _ => s.head
  prev := Function.update (assign s.prev (s.next n) (s.prev n)) n none
  next := Function.update (assign s.next (s.prev n) (s.next n)) n none

theorem unlink_prev (hk : m ≠ n) (hm : s.next n ≠ some m) : (s.unlink n).prev m = s.prev m :=
  (Function.update_of_ne hk ..).trans (assign_other hm)

theorem unlink_next (hk : m ≠ n) (hm : s.prev n ≠ some m) : (s.unlink n).next m = s.next m :=
  (Function.update_of_ne hk ..).trans (assign_other hm)

theorem unlink_prev_next (hk : m ≠ n) (hm : s.next n = some m) :
    (s.unlink n).prev m = s.prev n := by
  simp only [unlink, hm]
  rw [Function.update_of_ne hk, assign_self]

theorem unlink_next_prev (hk : m ≠ n) (hm : s.prev n = some m) :
    (s.unlink n).next m = s.next n := by
  simp only [unlink, hm]
  rw [Function.update_of_ne hk, assign_self]

theorem Spells.unlink_front (h : s.Spells (l₁ ++ n :: l₂)) :
    (s.unlink n).Segment none l₁ l₂.head? := by
  obtain ⟨hprev, hnext⟩ := h.at
  have hnodup := h.nodup
  have hseg := (segment_append.1 h.linked).1
  have hdisj := List.disjoint_of_nodup_append hnodup
  have hnl : n ∉ l₁ := fun hn => hdisj hn List.mem_cons_self
  have hback : ∀ k ∈ l₁, (s.unlink n).prev k = s.prev k := by
    intro k hk
    apply unlink_prev
    · rintro rfl
      exact hnl hk
    · intro hkn
      rw [hnext] at hkn
      exact hdisj hk (List.mem_cons_of_mem _ (List.mem_of_mem_head? hkn))
  rcases List.eq_nil_or_concat l₁ with rfl | ⟨l₀, p, rfl⟩
  · trivial
  · rw [List.concat_eq_append] at *
    rw [List.getLast?_concat] at hprev
    have hp : p ∉ l₀ := by
      have := (List.nodup_append.1 hnodup).1
      exact fun hp => List.disjoint_of_nodup_append this hp List.mem_cons_self
    rw [segment_append] at hseg ⊢
    refine ⟨hseg.1.congr (fun k hk => hback k (by simp [hk])) fun k hk => ?_, ?_⟩
    · apply unlink_next
      · rintro rfl
        exact hnl (by simp [hk])
      · rw [hprev]
        rintro ⟨⟩
        exact hp hk
    · refine ⟨(hback p (by simp)).trans hseg.2.1, ?_, trivial⟩
      rw [unlink_next_prev (by rintro rfl; exact hnl (by simp)) hprev, hnext]
      rfl

theorem Spells.unlink_back (h : s.Spells (l₁ ++ n :: l₂)) :
    (s.unlink n).Segment l₁.getLast? l₂ none := by
  obtain ⟨hprev, hnext⟩ := h.at
  have hnodup := h.nodup
  have hseg := (segment_append.1 h.linked).2.2.2
  have hdisj := List.disjoint_of_nodup_append hnodup
  have hnl : n ∉ l₂ := (List.nodup_cons.1 (List.nodup_append.1 hnodup).2.1).1
  have hforth : ∀ k ∈ l₂, (s.unlink n).next k = s.next k := by
    intro k hk
    apply unlink_next
    · rintro rfl
      exact hnl hk
    · intro hkn
      rw [hprev] at hkn
      exact hdisj (List.mem_of_mem_getLast? hkn) (List.mem_cons_of_mem _ hk)
  cases l₂ with
  | nil => trivial
  | cons m l₂ =>
    have hm : m ∉ l₂ :=
      (List.nodup_cons.1 (List.nodup_cons.1 (List.nodup_append.1 hnodup).2.1).2).1
    obtain ⟨hforthm, hforth⟩ := List.forall_mem_cons.1 hforth
    refine ⟨?_, hforthm.trans hseg.2.1, hseg.2.2.congr (fun k hk => ?_) hforth⟩
    · rw [unlink_prev_next (by rintro rfl; exact hnl List.mem_cons_self) hnext, hprev]
    · apply unlink_prev
      · rintro rfl
        exact hnl (List.mem_cons_of_mem _ hk)
      · rw [hnext]
        rintro ⟨⟩
        exact hm hk

theorem Spells.unlink (h : s.Spells (l₁ ++ n :: l₂)) : (s.unlink n).Spells (l₁ ++ l₂) where
  nodup := h.nodup.sublist (List.Sublist.append_left (List.sublist_cons_self ..) l₁)
  head := by
    obtain ⟨hprev, hnext⟩ := h.at
    simp only [Links.unlink, hprev, hnext, h.head]
    cases l₁ with
    | nil => rfl
    | cons m l => simp [List.getLast?_cons]
  linked := by
    rw [segment_append, Option.or_none, Option.or_none]
    exact ⟨h.unlink_front, h.unlink_back⟩
  off := by
    intro k hk
    by_cases hkn : k = n
    · subst hkn
      exact ⟨Function.update_self .., Function.update_self ..⟩
    · have hkl : k ∉ l₁ ++ n :: l₂ := by simpa [hkn] using hk
      obtain ⟨hprev, hnext⟩ := h.off k hkl
      rw [unlink_prev hkn, unlink_next hkn]
      · exact ⟨hprev, hnext⟩
      · intro hp
        obtain ⟨l₃, l₄, he⟩ := h.prev_eq hp
        exact hkl (by rw [he]; simp)
      · intro hn
        obtain ⟨l₃, l₄, he⟩ := h.next_eq hn
        exact hkl (by rw [he]; simp)

end Links
end DoublyLinked
