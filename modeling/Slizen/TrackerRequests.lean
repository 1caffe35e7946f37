import Slizen.TrackerLog

namespace Slizen.Hotness
set_option autoImplicit true

/-- The calls of a tracker that depend on the clock. -/
inductive Request where
  | observeWithState (key : Key)
  | admitKey (key : Key)
  | advance
  | advanceAndSnapshot (limit : Int)
  | snapshots (limit : Int)

/-- A request at an instant, with the orders in which the map yields its keys meanwhile. -/
structure Turn where
  request : Request
  now : Time
  shuffle : List Key → List Key
  shuffle' : List Key → List Key

namespace Tracker

/-- The transitions that a request returns, and the tracker after it. -/
def serve (t : Tracker) (c : Turn) : List Transition × Tracker :=
  let order := c.shuffle t.items.keys
  match c.request with
  | .observeWithState key =>
    let (observation, t) := t.observeWithState order key c.now
    (observation.transitions, t)
  | .admitKey key =>
    let (observation, t) := t.admitKey order key c.now
    (observation.transitions, t)
  | .advance => t.advance order c.now
  | .advanceAndSnapshot limit =>
    let (view, t) := t.advanceAndSnapshot order (c.shuffle' t.items.keys) limit c.now
    (view.transitions, t)
  | .snapshots _ => ([], t)

def serveAll (t : Tracker) : List Turn → List Transition × Tracker
  | [] => ([], t)
  | c :: cs =>
    let (l, t) := t.serve c
    let (l', t) := t.serveAll cs
    (l ++ l', t)

theorem Rep.serve {t : Tracker} (h : t.Rep) (c : Turn) : t.Reports (t.serve c).1 (t.serve c).2 := by
  unfold Tracker.serve
  cases c.request with
  | observeWithState key => exact h.observeWithState _ key c.now
  | admitKey key => exact h.admitKey _ key c.now
  | advance => exact h.advanceLocked _ c.now
  | advanceAndSnapshot limit => exact h.advanceLocked _ c.now
  | snapshots limit => exact h.reports_self

theorem Rep.serveAll {t : Tracker} (h : t.Rep) (cs : List Turn) :
    t.Reports (t.serveAll cs).1 (t.serveAll cs).2 := by
  induction cs generalizing t with
  | nil => exact h.reports_self
  | cons c cs ih =>
    have hstep := h.serve c
    exact hstep.trans (ih hstep.rep)

theorem WF.nodup_keys {t : Tracker} (h : t.WF) : (t.admissionRing.map Entry.key).Nodup := by
  rw [List.nodup_iff_getElem?_ne_getElem?]
  intro i j hij hj heq
  rw [List.length_map] at hj
  simp only [List.getElem?_map, List.getElem?_eq_getElem hj,
    List.getElem?_eq_getElem (hij.trans hj), Option.map_some, Option.some.injEq] at heq
  have hi := (h.slots _ i).2 ⟨_, List.getElem?_eq_getElem (hij.trans hj), rfl⟩
  have hj := (h.slots _ j).2 ⟨_, List.getElem?_eq_getElem hj, rfl⟩
  rw [heq, hj] at hi
  exact hij.ne (Option.some.inj hi).symm

theorem WF.keys_perm {t : Tracker} (h : t.WF) :
    t.items.keys.Perm (t.admissionRing.map Entry.key) := by
  rw [List.perm_ext_iff_of_nodup t.items.keys_nodup h.nodup_keys]
  intro k
  rw [h.mem_keys, Option.isSome_iff_exists]
  constructor
  · rintro ⟨e, he⟩
    obtain ⟨slot, hs, rfl⟩ := h.find_eq_some.1 he
    exact List.mem_map_of_mem (List.mem_of_getElem? hs)
  · intro hk
    obtain ⟨e, he, rfl⟩ := List.mem_map.1 hk
    exact ⟨e, h.find_of_mem he⟩

/-- Whatever is asked of a tracker, its ring and its map are in bijection and hold at most
`MaxTrackedKeys` keys that can be tracked, the cursor of a full ring is a valid index, and the
cached count is the number of HOT entries. -/
theorem requests_representation (cfg : Config) (start : Time) (cs : List Turn)
    (hmax : 1 ≤ cfg.maxTrackedKeys) (t : Tracker) (ht : t = ((new cfg start).serveAll cs).2) :
    (∀ k slot, t.items.lookup k = some slot ↔ ∃ e, t.admissionRing[slot]? = some e ∧ e.key = k) ∧
      t.items.keys.length = t.admissionRing.length ∧
      t.admissionRing.length ≤ cfg.maxTrackedKeys ∧
      (∀ k ∈ t.items.keys, k ≠ [] ∧ k.length ≤ 1024) ∧
      (t.admissionRing.length = cfg.maxTrackedKeys → t.nextVictim < t.admissionRing.length) ∧
      t.hot = t.admissionRing.countP (fun e => e.state = .hot) ∧ 0 ≤ t.hot := by
  have h := (rep_new cfg start).serveAll cs
  rw [← ht] at h
  have hcap : t.cfg.maxTrackedKeys = cfg.maxTrackedKeys := by
    rw [h.cfg]
    exact if_neg (by omega)
  have hkeys := h.rep.keys_perm
  refine ⟨h.rep.slots, ?_, hcap ▸ h.rep.capacity, ?_, ?_, h.rep.hot, ?_⟩
  · rw [hkeys.length_eq, List.length_map]
  · intro k hk
    obtain ⟨e, he, rfl⟩ := List.mem_map.1 (hkeys.mem_iff.1 hk)
    exact h.rep.keys e he
  · intro hfull
    rcases h.rep.victim with hv | hv <;> omega
  · rw [h.rep.hot]
    exact Int.natCast_nonneg _

/-- A tracker of two slots that a third key makes reuse one. -/
theorem requests_representation_full :
    let cfg : Config := ⟨secondInNanos, 1 / 2, 10, 5, 2, 0, 2, fun _ _ => 0⟩
    let observe := fun key => (⟨.observeWithState key, 0, id, id⟩ : Turn)
    let t := ((new cfg 0).serveAll [observe [1], observe [2], observe [3]]).2
    t.admissionRing.length = 2 ∧ t.nextVictim < 2 := by
  intro cfg observe t
  have h := requests_representation cfg 0 [observe [1], observe [2], observe [3]] (by decide) t rfl
  have hl : t.admissionRing.length = 2 := by decide +kernel
  exact ⟨hl, hl ▸ h.2.2.2.2.1 (by rw [hl]; rfl)⟩

end Tracker
end Slizen.Hotness
