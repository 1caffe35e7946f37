import Slizen.TrackerRuns

namespace Slizen.Hotness.Tracker
set_option autoImplicit true

variable {t : Tracker}

theorem WF.replace (h : t.WF) (hs : t.admissionRing[slot]? = some e)
    (hk : e'.key = e.key) : (t.replace slot e e').WF := by
  refine ⟨fun k i => (h.slots k i).trans ?_⟩
  show _ ↔ ∃ x, (t.admissionRing.set slot e')[i]? = some x ∧ x.key = k
  rw [List.getElem?_set]
  by_cases hi : slot = i
  · subst hi
    rw [hs, if_pos rfl, if_pos (List.getElem?_eq_some_iff.1 hs).1]
    simp [hk]
  · rw [if_neg hi]

theorem WF.not_in_ring (h : t.WF) (hf : t.items.lookup key = none) {i : Nat} {x : Entry}
    (hi : t.admissionRing[i]? = some x) : x.key ≠ key := by
  intro hk
  have := (h.slots key i).2 ⟨x, hi, hk⟩
  rw [hf] at this
  cases this

theorem WF.append (h : t.WF) (hf : t.items.lookup key = none) (now : Time) :
    { t with
      admissionRing := t.admissionRing ++ [freshEntry key now]
      items := t.items.insert key t.admissionRing.length }.WF := by
  refine ⟨fun k i => ?_⟩
  show (t.items.insert key _).lookup k = some i ↔
    ∃ x, (t.admissionRing ++ [freshEntry key now])[i]? = some x ∧ x.key = k
  by_cases hl : i < t.admissionRing.length
  · rw [List.getElem?_append_left hl]
    by_cases hk : k = key
    · subst hk
      rw [AList.lookup_insert, Option.some.injEq]
      refine ⟨fun hi => absurd hl (by omega), ?_⟩
      rintro ⟨x, hx, hxk⟩
      exact absurd hxk (h.not_in_ring hf hx)
    · rw [AList.lookup_insert_ne hk]
      exact h.slots k i
  · rw [List.getElem?_append_right (not_lt.1 hl), List.getElem?_singleton]
    by_cases hk : k = key
    · subst hk
      rw [AList.lookup_insert, Option.some.injEq]
      constructor
      · rintro rfl
        exact ⟨_, by rw [Nat.sub_self, if_pos rfl], rfl⟩
      · rintro ⟨x, hx, -⟩
        split at hx
        · omega
        · cases hx
    · rw [AList.lookup_insert_ne hk]
      constructor
      · intro hi
        obtain ⟨x, hx, -⟩ := (h.slots k i).1 hi
        exact absurd (List.getElem?_eq_some_iff.1 hx).1 hl
      · rintro ⟨x, hx, hxk⟩
        split at hx
        · cases hx
          exact absurd hxk.symm hk
        · cases hx

theorem WF.reuse {victim : Entry} (h : t.WF) (hf : t.items.lookup key = none)
    (hs : t.admissionRing[slot]? = some victim) (now : Time) :
    { t with
      admissionRing := t.admissionRing.set slot (freshEntry key now)
      items := (t.items.erase victim.key).insert key slot }.WF := by
  have hl := (List.getElem?_eq_some_iff.1 hs).1
  have hv : t.items.lookup victim.key = some slot := (h.slots _ _).2 ⟨victim, hs, rfl⟩
  refine ⟨fun k i => ?_⟩
  show ((t.items.erase victim.key).insert key slot).lookup k = some i ↔
    ∃ x, (t.admissionRing.set slot (freshEntry key now))[i]? = some x ∧ x.key = k
  rw [List.getElem?_set]
  by_cases hi : slot = i
  · subst hi
    rw [if_pos rfl, if_pos hl]
    by_cases hk : k = key
    · subst hk
      rw [AList.lookup_insert]
      exact ⟨fun _ => ⟨_, rfl, rfl⟩, fun _ => rfl⟩
    · rw [AList.lookup_insert_ne hk]
      constructor
      · intro hlook
        by_cases hkv : k = victim.key
        · rw [hkv, AList.lookup_erase] at hlook
          cases hlook
        · rw [AList.lookup_erase_ne hkv] at hlook
          obtain ⟨x, hx, hxk⟩ := (h.slots k slot).1 hlook
          cases hs.symm.trans hx
          exact absurd hxk.symm hkv
      · rintro ⟨x, hx, hxk⟩
        cases hx
        exact absurd hxk.symm hk
  · rw [if_neg hi]
    by_cases hk : k = key
    · subst hk
      rw [AList.lookup_insert, Option.some.injEq]
      refine ⟨fun h' => absurd h' hi, ?_⟩
      rintro ⟨x, hx, hxk⟩
      exact absurd hxk (h.not_in_ring hf hx)
    · rw [AList.lookup_insert_ne hk]
      by_cases hkv : k = victim.key
      · subst hkv
        rw [AList.lookup_erase]
        refine ⟨nofun, fun hx => ?_⟩
        have := (h.slots _ i).2 hx
        rw [hv] at this
        exact absurd (Option.some.inj this) hi
      · rw [AList.lookup_erase_ne hkv]
        exact h.slots k i

theorem WF.getOrCreateLocked (h : t.WF) (key : Key) (now : Time) :
    (t.getOrCreateLocked key now).2.WF := by
  rw [Tracker.getOrCreateLocked]
  cases hf : t.items.lookup key with
  | some slot => exact h
  | none =>
    dsimp only
    split
    · exact h.append hf now
    · cases hs : t.admissionRing[t.nextVictim]? with
      | none => exact h
      | some victim =>
        dsimp only
        split
        · exact ⟨h.slots⟩
        · exact ⟨(h.reuse hf hs now).slots⟩

theorem commitGuaranteedPromotionLocked_key (cfg : Config) (e : Entry) :
    (commitGuaranteedPromotionLocked cfg e).2.key = e.key := by
  rw [commitGuaranteedPromotionLocked]
  split <;> rfl

theorem WF.observeLocked (h : t.WF) (key : Key) (now : Time) : (t.observeLocked key now).2.WF := by
  rw [Tracker.observeLocked]
  split
  · exact ⟨h.slots⟩
  · split
    · exact h
    · have hw := h.getOrCreateLocked key now
      obtain ⟨⟨created, t₁⟩, hg⟩ : ∃ p, t.getOrCreateLocked key now = p := ⟨_, rfl⟩
      rw [hg] at hw ⊢
      cases created with
      | none => exact hw
      | some p =>
        dsimp only
        cases hs : t₁.admissionRing[p.1]? with
        | none => exact hw
        | some ent => exact hw.replace hs (commitGuaranteedPromotionLocked_key _ _)

theorem WF.admitLocked (h : t.WF) (key : Key) : (t.admitLocked key).2.WF := by
  rw [Tracker.admitLocked]
  cases t.items.lookup key with
  | none => exact h
  | some slot =>
    dsimp only
    cases hs : t.admissionRing[slot]? with
    | none => exact h
    | some ent =>
      refine h.replace hs ?_
      rw [admitEntry]
      split <;> rfl

theorem WF.advanceLocked (hv : t.cfg.Valid) (h : t.WF)
    (ho : o.Perm t.items.keys) (now : Time) : (t.advanceLocked o now).2.WF := by
  by_cases hlt : now < t.window + t.cfg.window
  · rw [advanceLocked_early hlt]
    exact h
  · rw [(advanceLocked_late hv h (not_lt.1 hlt) ho).1]
    exact h.completed hv (t.elapsedWindows_pos now)

end Slizen.Hotness.Tracker
