import Mathlib.Data.Option.Basic

namespace Interleaving
set_option autoImplicit true

/-- An item on its way from one place to another. It is moved by whoever holds the lock, after it
has been admitted; while it is in neither place the flag `moving` is up, so that others can tell an
item on its way from one that is gone without taking the lock. -/
structure Handover (ι : Type) where
  source : Option ι
  target : Option ι
  moving : Bool
  owner : Option Nat
  admitted : Bool

namespace Handover

variable {ι : Type} {x : ι} {t u : Nat} {h h' h₁ h₂ h₃ : Handover ι}

def Settled (h : Handover ι) : Prop := h.source ≠ none ∨ h.target ≠ none

/-- How far the move of the item `x` has come. -/
inductive Stage (x : ι) : Handover ι → Prop
  | waiting (moving : Bool) (owner : Option Nat) (admitted : Bool) :
      Stage x ⟨some x, none, moving, owner, admitted⟩
  | carried (t : Nat) : Stage x ⟨none, none, true, some t, true⟩
  | moved (moving : Bool) (owner : Option Nat) : Stage x ⟨none, some x, moving, owner, true⟩

/-- What one thread may do. -/
inductive Step (x : ι) (t : Nat) (h : Handover ι) : Handover ι → Prop
  | same : Step x t h h
  | raise : Step x t h { h with admitted := true }
  | lock : h.owner = none → Step x t h { h with owner := some t }
  | unlock : h.owner = some t → h.Settled → Step x t h { h with owner := none }
  | mark : h.owner = some t → Step x t h { h with moving := true }
  | carry : h.owner = some t → h.moving = true → h.admitted = true →
      Step x t h { h with source := none }
  | place : h.owner = some t → h.source = none → Step x t h { h with target := some x }
  | clear : h.owner = some t → h.Settled → Step x t h { h with moving := false }

theorem not_settled_carried (m : Bool) (o : Option Nat) (a : Bool) :
    ¬ Settled (⟨none, none, m, o, a⟩ : Handover ι) := fun h => h.elim (· rfl) (· rfl)

theorem Step.stage (hs : Step x t h h') (hst : Stage x h) : Stage x h' := by
  cases hs with
  | same => exact hst
  | raise => cases hst <;> constructor
  | lock ho =>
    cases hst with
    | waiting | moved => constructor
    | carried => cases ho
  | unlock ho hset =>
    cases hst with
    | waiting | moved => constructor
    | carried => exact absurd hset (not_settled_carried _ _ _)
  | mark ho => cases hst <;> constructor
  | carry ho hm ha =>
    cases hst with
    | waiting =>
      cases ho
      cases hm
      cases ha
      exact .carried t
    | carried u => exact .carried u
    | moved => exact .moved _ _
  | place ho hx =>
    cases hst with
    | waiting => cases hx
    | carried u => exact .moved _ _
    | moved => exact .moved _ _
  | clear ho hset =>
    cases hst with
    | waiting | moved => constructor
    | carried => exact absurd hset (not_settled_carried _ _ _)

/-- What a thread can count on: nothing is taken back, and nothing moves while it holds the
lock. -/
structure Rely (t : Nat) (h h' : Handover ι) : Prop where
  owner : h.owner = some t ↔ h'.owner = some t
  admitted : h.admitted = true → h'.admitted = true
  source : h.source = none → h'.source = none
  target : ∀ y, h.target = some y → h'.target = some y
  held : h.owner = some t →
    h'.source = h.source ∧ h'.target = h.target ∧ h'.moving = h.moving

theorem Rely.refl (t : Nat) (h : Handover ι) : Rely t h h :=
  ⟨.rfl, fun h => h, fun h => h, fun _ h => h, fun _ => ⟨rfl, rfl, rfl⟩⟩

theorem Rely.trans (hr : Rely t h₁ h₂) (hr' : Rely t h₂ h₃) : Rely t h₁ h₃ where
  owner := hr.owner.trans hr'.owner
  admitted := fun h => hr'.admitted (hr.admitted h)
  source := fun h => hr'.source (hr.source h)
  target := fun y h => hr'.target y (hr.target y h)
  held := by
    intro ho
    obtain ⟨hs, ht, hm⟩ := hr.held ho
    obtain ⟨hs', ht', hm'⟩ := hr'.held (hr.owner.1 ho)
    exact ⟨hs'.trans hs, ht'.trans ht, hm'.trans hm⟩

theorem Stage.target_eq (hst : Stage x h) (ht : h.target = some y) : y = x := by
  cases hst with
  | moved =>
    cases ht
    rfl
  | waiting | carried => cases ht

theorem Step.rely (hs : Step x t h h') (hst : Stage x h) (hu : u ≠ t) : Rely u h h' := by
  have htu : some t ≠ some u := fun he => hu (Option.some.inj he).symm
  have hheld : ∀ {p : Prop}, h.owner = some t → h.owner = some u → p := by
    intro p ho ho'
    exact absurd (ho.symm.trans ho') htu
  cases hs with
  | same => exact .refl u h
  | raise => exact ⟨.rfl, fun _ => rfl, fun h => h, fun _ h => h, fun _ => ⟨rfl, rfl, rfl⟩⟩
  | lock ho =>
    refine ⟨?_, fun h => h, fun h => h, fun _ h => h, fun _ => ⟨rfl, rfl, rfl⟩⟩
    rw [ho]
    exact ⟨nofun, fun he => absurd he htu⟩
  | unlock ho =>
    refine ⟨?_, fun h => h, fun h => h, fun _ h => h, hheld ho⟩
    rw [ho]
    exact ⟨fun he => absurd he htu, nofun⟩
  | mark ho => exact ⟨.rfl, fun h => h, fun h => h, fun _ h => h, hheld ho⟩
  | carry ho => exact ⟨.rfl, fun h => h, fun _ => rfl, fun _ h => h, hheld ho⟩
  | place ho =>
    refine ⟨.rfl, fun h => h, fun h => h, ?_, hheld ho⟩
    intro y hy
    rw [hst.target_eq hy]
  | clear ho => exact ⟨.rfl, fun h => h, fun h => h, fun _ h => h, hheld ho⟩

theorem Stage.admitted (hst : Stage x h) (hs : h.source = none) : h.admitted = true := by
  cases hst with
  | waiting => cases hs
  | carried | moved => rfl

theorem Stage.settled_of_still (hst : Stage x h) (hm : h.moving = false) : h.Settled := by
  cases hst with
  | waiting => exact .inl nofun
  | carried => cases hm
  | moved => exact .inr nofun

theorem Stage.settled_of_free (hst : Stage x h) (ho : h.owner = none) : h.Settled := by
  cases hst with
  | waiting => exact .inl nofun
  | carried => cases ho
  | moved => exact .inr nofun

theorem Stage.source_eq (hst : Stage x h) (hs : h.source = some y) : y = x := by
  cases hst with
  | waiting =>
    cases hs
    rfl
  | carried | moved => cases hs

theorem Stage.place_of_settled (hst : Stage x h) (hset : h.Settled) :
    h.source = some x ∧ h.target = none ∨ h.source = none ∧ h.target = some x := by
  cases hst with
  | waiting => exact .inl ⟨rfl, rfl⟩
  | carried => exact absurd hset (not_settled_carried _ _ _)
  | moved => exact .inr ⟨rfl, rfl⟩

theorem Stage.arrived (hst : Stage x h) (hset : h.Settled) (hs : h.source = none) :
    h.target = some x := by
  rcases hst.place_of_settled hset with ⟨hs', -⟩ | ⟨-, ht⟩
  · exact absurd (hs.symm.trans hs') nofun
  · exact ht

/-- The thread holds the lock, and the item is in one of its places. -/
structure Held (t : Nat) (h : Handover ι) : Prop where
  owner : h.owner = some t
  settled : h.Settled

theorem Held.rely (hh : Held t h) (hr : Rely t h h') : Held t h' := by
  obtain ⟨hs, ht, -⟩ := hr.held hh.owner
  refine ⟨hr.owner.1 hh.owner, ?_⟩
  rw [Settled, hs, ht]
  exact hh.settled

/-- The thread is moving the item, and this is where it is. -/
structure Carries (t : Nat) (y z : Option ι) (h : Handover ι) : Prop where
  owner : h.owner = some t
  moving : h.moving = true
  admitted : h.admitted = true
  source : h.source = y
  target : h.target = z

theorem Carries.rely (hc : Carries t y z h) (hr : Rely t h h') : Carries t y z h' := by
  obtain ⟨hs, ht, hm⟩ := hr.held hc.owner
  exact ⟨hr.owner.1 hc.owner, hm.trans hc.moving, hr.admitted hc.admitted, hs.trans hc.source,
    ht.trans hc.target⟩

end Handover
end Interleaving
