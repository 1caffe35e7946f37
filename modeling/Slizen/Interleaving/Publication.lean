import Mathlib.Data.List.Induction
import Mathlib.Logic.Function.Basic

namespace Interleaving
set_option autoImplicit true

/-- Threads publish a value of the shared state: one reads it, and later writes what it has read. -/
inductive Post (V : Type) where
  | read (t : Nat) (v : V)
  | write (t : Nat) (v : V)

/-- The number of posts so far, what each thread has read and not yet written, and what has been
written, in this order; every value comes with the number of its read. -/
structure Board (V : Type) where
  time : Nat
  pending : Nat → Option (Nat × V)
  written : List (Nat × V)

namespace Board

variable {V : Type} {B : Board V} {p : Post V} {ps : List (Post V)} {x y : Nat × V}

def step (B : Board V) : Post V → Board V
  | .read t v => ⟨B.time + 1, Function.update B.pending t (some (B.time, v)), B.written⟩
  | .write t v =>
    ⟨B.time + 1, Function.update B.pending t none,
      B.written ++ (B.pending t).toList.map fun x => (x.1, v)⟩

@[simp] theorem pending_read_self (B : Board V) (t : Nat) (v : V) :
    (B.step (.read t v)).pending t = some (B.time, v) := Function.update_self _ _ _

theorem pending_read_ne (B : Board V) (v : V) (h : u ≠ t) :
    (B.step (.read t v)).pending u = B.pending u := Function.update_of_ne h _ _

@[simp] theorem pending_write_self (B : Board V) (t : Nat) (v : V) :
    (B.step (.write t v)).pending t = none := Function.update_self _ _ _

theorem pending_write_ne (B : Board V) (v : V) (h : u ≠ t) :
    (B.step (.write t v)).pending u = B.pending u := Function.update_of_ne h _ _

theorem pending_of_write (h : (B.step (.write t v)).pending u = some x) :
    u ≠ t ∧ B.pending u = some x := by
  have hu : u ≠ t := by
    rintro rfl
    cases (pending_write_self B u v).symm.trans h
  exact ⟨hu, (pending_write_ne B v hu).symm.trans h⟩

theorem pending_of_read (h : (B.step (.read t v)).pending u = some x) :
    u = t ∧ x = (B.time, v) ∨ u ≠ t ∧ B.pending u = some x := by
  by_cases hu : u = t
  · subst hu
    exact .inl ⟨rfl, (Option.some.inj ((pending_read_self B u v).symm.trans h)).symm⟩
  · exact .inr ⟨hu, (pending_read_ne B v hu).symm.trans h⟩

def of (ps : List (Post V)) : Board V := ps.foldl step ⟨0, fun _ => none, []⟩

theorem of_snoc (ps : List (Post V)) (p : Post V) : of (ps ++ [p]) = (of ps).step p := by
  rw [of, List.foldl_append, of]
  rfl

/-- A thread reads when it has written what it has read before, and writes what it has read. -/
def Sound (B : Board V) : Post V → Prop
  | .read t _ => B.pending t = none
  | .write t v => ∃ j, B.pending t = some (j, v)

/-- When a value is written, no thread that has read another one earlier has still to write it. -/
def Timely (B : Board V) : Post V → Prop
  | .read _ _ => True
  | .write t v => ∀ u j j' w, B.pending u = some (j, w) → B.pending t = some (j', v) →
      j < j' → w = v

/-- No value is written after another one that was read later. -/
def Ordered (B : Board V) : Prop := B.written.Pairwise fun x y => y.1 < x.1 → y.2 = x.2

/-- Neither has that happened nor will it with what is pending. -/
def Orderly (B : Board V) : Prop :=
  B.Ordered ∧ ∀ x ∈ B.written, ∀ t y, B.pending t = some y → y.1 < x.1 → y.2 = x.2

def Along (R : Board V → Post V → Prop) (ps : List (Post V)) : Prop :=
  ∀ ps₁ p ps₂, ps = ps₁ ++ p :: ps₂ → R (of ps₁) p

theorem along_nil (R : Board V → Post V → Prop) : Along R [] := by
  intro ps₁ p ps₂ h
  simp at h

theorem along_snoc {R : Board V → Post V → Prop} :
    Along R (ps ++ [p]) ↔ Along R ps ∧ R (of ps) p := by
  constructor
  · intro h
    refine ⟨?_, h ps p [] rfl⟩
    rintro ps₁ p₁ ps₂ rfl
    exact h ps₁ p₁ (ps₂ ++ [p]) (by simp)
  · rintro ⟨h, hp⟩ ps₁ p₁ ps₂ heq
    rcases List.eq_nil_or_concat ps₂ with rfl | ⟨ps₂, q, rfl⟩
    · obtain ⟨rfl, hlast⟩ := List.append_inj' heq rfl
      cases hlast
      exact hp
    · rw [List.concat_eq_append, ← List.cons_append, ← List.append_assoc] at heq
      obtain ⟨hinit, -⟩ := List.append_inj' heq rfl
      exact h ps₁ p₁ ps₂ hinit

structure Early (B : Board V) : Prop where
  pending : ∀ t x, B.pending t = some x → x.1 < B.time
  written : ∀ x ∈ B.written, x.1 < B.time

theorem Early.step (h : B.Early) (p : Post V) : (B.step p).Early := by
  cases p with
  | read t v =>
    constructor
    · intro u x hx
      rcases pending_of_read hx with ⟨-, rfl⟩ | ⟨-, hx⟩
      · exact Nat.lt_succ_self _
      · exact Nat.lt_succ_of_lt (h.pending u x hx)
    · exact fun x hx => Nat.lt_succ_of_lt (h.written x hx)
  | write t v =>
    constructor
    · intro u x hx
      exact Nat.lt_succ_of_lt (h.pending u x (pending_of_write hx).2)
    · intro x hx
      rcases List.mem_append.1 hx with hx | hx
      · exact Nat.lt_succ_of_lt (h.written x hx)
      · obtain ⟨y, hy, rfl⟩ := List.mem_map.1 hx
        exact Nat.lt_succ_of_lt (h.pending t y (Option.mem_toList.1 hy))

theorem early_of (ps : List (Post V)) : (of ps).Early := by
  induction ps using List.reverseRecOn with
  | nil => exact ⟨nofun, nofun⟩
  | append_singleton ps p ih =>
    rw [of_snoc]
    exact ih.step p

theorem orderly_read (h : B.Early) (hs : B.Sound (.read t v)) :
    (B.step (.read t v)).Orderly ↔ B.Orderly := by
  constructor
  · rintro ⟨ho, hp⟩
    refine ⟨ho, fun x hx u y hy => hp x hx u y ?_⟩
    have hu : u ≠ t := by
      rintro rfl
      cases (show B.pending u = none from hs).symm.trans hy
    rwa [pending_read_ne B v hu]
  · rintro ⟨ho, hp⟩
    refine ⟨ho, fun x hx u y hy hlt => ?_⟩
    rcases pending_of_read hy with ⟨-, rfl⟩ | ⟨-, hy⟩
    · exact absurd (h.written x hx) (Nat.lt_asymm hlt)
    · exact hp x hx u y hy hlt

/-- A write leaves the board orderly exactly if it was so before and the write is timely. -/
theorem orderly_write (hs : B.pending t = some (j, v)) :
    (B.step (.write t v)).Orderly ↔ B.Orderly ∧ B.Timely (.write t v) := by
  have hwritten : (B.step (.write t v)).written = B.written ++ [(j, v)] := by simp [Board.step, hs]
  constructor
  · rintro ⟨ho, hp⟩
    rw [Ordered, hwritten, List.pairwise_append] at ho
    rw [hwritten] at hp
    refine ⟨⟨ho.1, fun x hx u y hy hlt => ?_⟩, fun u j₁ j₂ w hu ht hlt => ?_⟩
    · by_cases hu : u = t
      · subst hu
        cases hs.symm.trans hy
        exact ho.2.2 x hx (j, v) (List.mem_singleton_self _) hlt
      · exact hp x (List.mem_append_left _ hx) u y ((pending_write_ne B v hu).trans hy) hlt
    · cases hs.symm.trans ht
      have hne : u ≠ t := by
        rintro rfl
        cases hs.symm.trans hu
        exact Nat.lt_irrefl _ hlt
      exact hp (j, v) (List.mem_append_right _ (List.mem_singleton_self _)) u (j₁, w)
        ((pending_write_ne B v hne).trans hu) hlt
  · rintro ⟨⟨ho, hp⟩, htimely⟩
    constructor
    · rw [Ordered, hwritten, List.pairwise_append]
      refine ⟨ho, List.pairwise_singleton _ _, fun x hx y hy hlt => ?_⟩
      cases List.mem_singleton.1 hy
      exact hp x hx t (j, v) hs hlt
    · rw [hwritten]
      intro x hx u y hy hlt
      obtain ⟨-, hy⟩ := pending_of_write hy
      rcases List.mem_append.1 hx with hx | hx
      · exact hp x hx u y hy hlt
      · cases List.mem_singleton.1 hx
        exact htimely u y.1 j y.2 hy hs hlt

theorem orderly_step (h : B.Early) (hs : B.Sound p) :
    (B.step p).Orderly ↔ B.Orderly ∧ B.Timely p := by
  cases p with
  | read t v =>
    rw [orderly_read h hs]
    exact (and_iff_left trivial).symm
  | write t v =>
    obtain ⟨j, hj⟩ := hs
    exact orderly_write hj

theorem orderly_iff (hs : Along Sound ps) : (of ps).Orderly ↔ Along Timely ps := by
  induction ps using List.reverseRecOn with
  | nil =>
    refine ⟨fun _ => along_nil _, fun _ => ⟨List.Pairwise.nil, nofun⟩⟩
  | append_singleton ps p ih =>
    obtain ⟨hs, hp⟩ := along_snoc.1 hs
    rw [of_snoc, orderly_step (early_of ps) hp, ih hs, along_snoc]

/-- Once everything that was read has been written, the writes are in the order of the reads exactly
if each of them was timely. -/
theorem ordered_iff (hs : Along Sound ps) (hend : ∀ t, (of ps).pending t = none) :
    (of ps).Ordered ↔ Along Timely ps := by
  rw [← orderly_iff hs]
  refine ⟨fun ho => ⟨ho, fun x _ t y hy => ?_⟩, And.left⟩
  cases (hend t).symm.trans hy

/-- The value shown is the true one and so is all that is pending, or a thread is about to read, or
one has read the true value and nobody has read another one since. -/
def Settling (B : Board V) (shown truth : V) (owes : Nat → Prop) : Prop :=
  (shown = truth ∧ ∀ u x, B.pending u = some x → x.2 = truth) ∨ (∃ t, owes t) ∨
    ∃ t j, B.pending t = some (j, truth) ∧ ∀ u x, B.pending u = some x → j ≤ x.1 → x.2 = truth

variable {shown truth : V} {owes owes' : Nat → Prop}

theorem Settling.read (h : B.Settling shown truth owes) (he : B.Early)
    (ho : ∀ u ≠ t, owes u → owes' u) : (B.step (.read t truth)).Settling shown truth owes' := by
  -- Whatever the thread has read before, its new read is the last one.
  have hlast : (B.step (.read t truth)).Settling shown truth owes' := by
    refine .inr (.inr ⟨t, B.time, pending_read_self B t truth, fun u x hx hle => ?_⟩)
    rcases pending_of_read hx with ⟨-, rfl⟩ | ⟨-, hx⟩
    · rfl
    · exact absurd (he.pending u x hx) (Nat.not_lt.2 hle)
  rcases h with ⟨hshown, hall⟩ | ⟨u, hu⟩ | ⟨u, j, hu, hall⟩
  · refine .inl ⟨hshown, fun u x hx => ?_⟩
    rcases pending_of_read hx with ⟨-, rfl⟩ | ⟨-, hx⟩
    · rfl
    · exact hall u x hx
  · by_cases hut : u = t
    · exact hlast
    · exact .inr (.inl ⟨u, ho u hut hu⟩)
  · by_cases hut : u = t
    · exact hlast
    · refine .inr (.inr ⟨u, j, (pending_read_ne B truth hut).trans hu, fun u' x hx hle => ?_⟩)
      rcases pending_of_read hx with ⟨-, rfl⟩ | ⟨-, hx⟩
      · rfl
      · exact hall u' x hx hle

theorem Settling.write (h : B.Settling shown truth owes) (hs : B.Sound (.write t v))
    (ht : B.Timely (.write t v)) : (B.step (.write t v)).Settling v truth owes := by
  obtain ⟨j, hj⟩ := hs
  rcases h with ⟨-, hall⟩ | howes | ⟨u, i, hu, hall⟩
  · exact .inl ⟨hall t (j, v) hj, fun u x hx => hall u x (pending_of_write hx).2⟩
  · exact .inr (.inl howes)
  · by_cases hut : u = t
    · subst hut
      cases hu.symm.trans hj
      refine .inl ⟨rfl, fun u' x hx => ?_⟩
      rcases Nat.lt_or_ge x.1 j with hlt | hge
      · exact ht u' x.1 j x.2 (pending_of_write hx).2 hj hlt
      · exact hall u' x (pending_of_write hx).2 hge
    · refine .inr (.inr ⟨u, i, (pending_write_ne B v hut).trans hu, fun u' x hx => ?_⟩)
      exact hall u' x (pending_of_write hx).2

theorem Settling.mono (h : B.Settling shown truth owes) (ho : ∀ t, owes t → owes' t) :
    B.Settling shown truth owes' := by
  rcases h with h | ⟨t, ht⟩ | h
  · exact .inl h
  · exact .inr (.inl ⟨t, ho t ht⟩)
  · exact .inr (.inr h)

theorem Settling.shown_eq (h : B.Settling shown truth owes) (ho : ∀ t, ¬ owes t)
    (hend : ∀ t, B.pending t = none) : shown = truth := by
  rcases h with ⟨h, -⟩ | ⟨t, ht⟩ | ⟨t, j, ht, -⟩
  · exact h
  · exact absurd ht (ho t)
  · cases (hend t).symm.trans ht

end Board
end Interleaving
