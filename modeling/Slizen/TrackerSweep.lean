import Mathlib.Data.List.Rotate
import Slizen.TrackerEntries

namespace Slizen.Hotness
set_option autoImplicit true

/-- An observation of a key, with the order in which the map would yield its keys. -/
structure Arrival where
  order : List Key
  key : Key
  now : Time

/-- What one observation has done: the slot under the cursor before it, what it returned, and the
entries whose keys it has made the tracker forget. -/
structure Inspection where
  slot : Nat
  observation : Observation
  lost : List Entry

namespace Tracker

def lost (t t' : Tracker) : List Entry := t.admissionRing.filter fun e => !t'.isTracked e.key

def sweep (t : Tracker) : List Arrival → List Inspection × Tracker
  | [] => ([], t)
  | a :: arrivals =>
    let (observation, t') := t.observeWithState a.order a.key a.now
    let (inspections, t'') := t'.sweep arrivals
    (⟨t.nextVictim, observation, t.lost t'⟩ :: inspections, t'')

def Unseen (t : Tracker) : List Arrival → Prop
  | [] => True
  | a :: arrivals =>
    Trackable a.key ∧ t.isTracked a.key = false ∧ a.now < t.window + t.cfg.window ∧
      (t.observeWithState a.order a.key a.now).2.Unseen arrivals

/-- The ring from the cursor on, as the queue in which its slots are inspected. -/
def queue (t : Tracker) : List Entry := t.admissionRing.rotate t.nextVictim

structure Full (t : Tracker) : Prop extends t.Rep where
  full : t.cfg.maxTrackedKeys ≤ t.admissionRing.length
  cursor : t.nextVictim < t.admissionRing.length

def nextSlot (t : Tracker) : Nat :=
  if t.nextVictim + 1 = t.admissionRing.length then 0 else t.nextVictim + 1

theorem Full.nextSlot_eq {t : Tracker} (h : t.Full) :
    t.nextSlot = (t.nextVictim + 1) % t.admissionRing.length := by
  have := h.cursor
  rw [nextSlot]
  split
  · next heq => rw [heq, Nat.mod_self]
  · rw [Nat.mod_eq_of_lt (by omega)]

theorem Full.queue_eq {t : Tracker} (h : t.Full) : ∃ victim rest,
    t.admissionRing[t.nextVictim]? = some victim ∧ t.queue = victim :: rest := by
  have hc := h.cursor
  refine ⟨t.admissionRing[t.nextVictim], t.admissionRing.drop (t.nextVictim + 1) ++
    t.admissionRing.take t.nextVictim, List.getElem?_eq_getElem hc, ?_⟩
  rw [queue, List.rotate_eq_drop_append_take hc.le, List.drop_eq_getElem_cons hc, List.cons_append]

theorem rotate_set {l : List α} {c : Nat} (hc : c < l.length) (h : l.rotate c = v :: rest) (x : α) :
    (l.set c x).rotate (if c + 1 = l.length then 0 else c + 1) = rest ++ [x] := by
  rw [List.rotate_eq_drop_append_take hc.le, List.drop_eq_getElem_cons hc, List.cons_append] at h
  obtain ⟨-, rfl⟩ := List.cons.inj h
  have htake : (l.set c x).take (c + 1) = l.take c ++ [x] := by
    rw [List.take_set, List.take_add_one, List.getElem?_eq_getElem hc, Option.toList_some,
      List.set_append_right _ _ (List.length_take_le _ _), List.length_take, Nat.min_eq_left hc.le,
      Nat.sub_self]
    rfl
  have hdrop : (l.set c x).drop (c + 1) = l.drop (c + 1) := List.drop_set_of_lt (Nat.lt_succ_self c)
  split
  · next heq =>
    have hall : (l.set c x).take (c + 1) = l.set c x :=
      List.take_of_length_le (by rw [List.length_set, heq])
    rw [List.rotate_zero, heq, List.drop_length, List.nil_append, ← htake, hall]
  · rw [List.rotate_eq_drop_append_take (by rw [List.length_set]; omega), htake, hdrop,
      List.append_assoc]

section

variable {t : Tracker} {victim : Entry}

theorem commit_cold (cfg : Config) {e : Entry} (h : e.state = .cold) :
    commitGuaranteedPromotionLocked cfg e = ([], e) := by
  have hno : guaranteedPromotion cfg e = false := by
    rw [guaranteedPromotion, h]
    rfl
  rw [commitGuaranteedPromotionLocked, hno]
  rfl

theorem Full.observe_hot (h : t.Full) (hk : Trackable key) (hl : t.items.lookup key = none)
    (hw : now < t.window + t.cfg.window) (hs : t.admissionRing[t.nextVictim]? = some victim)
    (hhot : victim.state = .hot) (order : List Key) :
    t.observeWithState order key now =
      ({ t.observation [] none with
          capacityObservationDropped := true
          capacityDrops := t.capacityDrops + 1 },
        { t with nextVictim := t.nextSlot, capacityDrops := t.capacityDrops + 1 }) := by
  have hroom : ¬(t.admissionRing.length : Int) < t.cfg.maxTrackedKeys := not_lt.2 h.full
  rw [observeWithState, advanceLocked_early hw order]
  simp only
  rw [observeLocked, if_neg (not_lt.2 hk.2), if_neg hk.1, getOrCreateLocked, hl]
  simp only [if_neg hroom, hs, if_pos hhot]
  rfl

theorem Full.observe_reuse (h : t.Full) (hk : Trackable key) (hl : t.items.lookup key = none)
    (hw : now < t.window + t.cfg.window) (hs : t.admissionRing[t.nextVictim]? = some victim)
    (hhot : victim.state ≠ .hot) (order : List Key) :
    let t' : Tracker :=
      { t with
        nextVictim := t.nextSlot
        items := (t.items.erase victim.key).insert key t.nextVictim
        hot := t.hot + hotDelta victim.state .cold
        evictions := t.evictions + 1
        admissionRing := t.admissionRing.set t.nextVictim (freshEntry key now) }
    let r := t'.replace t.nextVictim (freshEntry key now) (counted (freshEntry key now) now)
    t.observeWithState order key now =
      (r.observation (evicted victim).toList (some .cold), r) := by
  have hroom : ¬(t.admissionRing.length : Int) < t.cfg.maxTrackedKeys := not_lt.2 h.full
  have hset : (t.admissionRing.set t.nextVictim (freshEntry key now))[t.nextVictim]? =
      some (freshEntry key now) := List.getElem?_set_self h.cursor
  rw [observeWithState, advanceLocked_early hw order]
  simp only
  rw [observeLocked, if_neg (not_lt.2 hk.2), if_neg hk.1, getOrCreateLocked, hl]
  simp only [if_neg hroom, hs, if_neg hhot, hset]
  have hcold : (counted (freshEntry key now) now).state = .cold := rfl
  have hcommit := commit_cold t.cfg hcold
  rw [counted] at hcommit
  rw [hcommit]
  simp only [List.append_nil]
  rfl

/-- What one observation of an unseen key does to a full tracker, with the queue of its slots. -/
structure Inspected (t : Tracker) (victim : Entry) (rest : List Entry) (o : Observation)
    (t' : Tracker) : Prop where
  full : t'.Full
  size : t'.admissionRing.length = t.admissionRing.length
  cursor : t'.nextVictim = (t.nextVictim + 1) % t.admissionRing.length
  queue : ∃ entry, (victim.state = .hot → entry = victim) ∧ t'.queue = rest ++ [entry]
  dropped : o.capacityObservationDropped = decide (victim.state = .hot)
  state : o.state = if victim.state = .hot then none else some .cold
  drops : t'.capacityDrops = t.capacityDrops + if victim.state = .hot then 1 else 0
  evictions : t'.evictions = t.evictions + if victim.state = .hot then 0 else 1
  lost : t.lost t' = if victim.state = .hot then [] else [victim]

theorem lost_self (h : t.WF) (hitems : t'.items = t.items) : t.lost t' = [] := by
  rw [lost, List.filter_eq_nil_iff]
  intro e he
  have htracked : t.isTracked e.key = true := (isTracked_iff h).2 ⟨e, h.find_of_mem he⟩
  rw [isTracked, hitems, ← isTracked, htracked]
  exact Bool.false_ne_true

theorem lost_victim (h : t.WF) (hl : t.items.lookup key = none)
    (hs : t.admissionRing[slot]? = some victim)
    (hitems : t'.items = (t.items.erase victim.key).insert key slot) : t.lost t' = [victim] := by
  have hmem := List.mem_of_getElem? hs
  have hlost : ∀ e ∈ t.admissionRing, (!t'.isTracked e.key) = (e == victim) := by
    intro e he
    obtain ⟨i, hi⟩ := List.mem_iff_getElem?.1 he
    have htracked : t.isTracked e.key = true := (isTracked_iff h).2 ⟨e, h.find_of_mem he⟩
    rw [isTracked] at htracked
    rw [isTracked, hitems, AList.lookup_insert_ne (h.not_in_ring hl hi)]
    by_cases hkey : e.key = victim.key
    · have heq : e = victim := by
        have he' := h.find_of_mem he
        rw [hkey, h.find_of_mem hmem] at he'
        exact (Option.some.inj he').symm
      rw [hkey, AList.lookup_erase, heq, beq_self_eq_true]
      rfl
    · have hne : e ≠ victim := fun heq => hkey (congrArg Entry.key heq)
      rw [AList.lookup_erase_ne hkey, htracked, beq_eq_false_iff_ne.2 hne]
      rfl
  have hnodup : t.admissionRing.Nodup := h.nodup_keys.of_map
  rw [lost, List.filter_congr hlost, List.filter_beq, List.count_eq_one_of_mem hnodup hmem]
  rfl

theorem Full.inspected (h : t.Full) (hk : Trackable key) (hl : t.items.lookup key = none)
    (hw : now < t.window + t.cfg.window) (order : List Key) (hq : t.queue = victim :: rest) :
    Inspected t victim rest (t.observeWithState order key now).1
      (t.observeWithState order key now).2 := by
  have hrep := h.toRep.observeWithState order key now
  obtain ⟨victim', rest', hs, hq'⟩ := h.queue_eq
  obtain ⟨rfl, rfl⟩ := List.cons.inj (hq'.symm.trans hq)
  have hmod := h.nextSlot_eq
  have hpos : t.nextSlot < t.admissionRing.length := by
    rw [hmod]
    exact Nat.mod_lt _ (Nat.zero_lt_of_lt h.cursor)
  have hrotate := fun entry => rotate_set h.cursor hq entry
  by_cases hhot : victim'.state = .hot
  · have heq := h.observe_hot hk hl hw hs hhot order
    rw [heq] at hrep ⊢
    have hself : t.admissionRing.set t.nextVictim victim' = t.admissionRing :=
      (congrArg _ (List.getElem?_eq_some_iff.1 hs).2.symm).trans (List.set_getElem_self h.cursor)
    have hqueue := hrotate victim'
    rw [hself] at hqueue
    refine ⟨⟨hrep.rep, h.full, hpos⟩, rfl, hmod, ⟨victim', fun _ => rfl, hqueue⟩, ?_, ?_,
      ?_, ?_, ?_⟩
    · exact (decide_eq_true hhot).symm
    · exact (if_pos hhot).symm
    · rw [if_pos hhot]
    · rw [if_pos hhot]
      rfl
    · exact (lost_self h.toWF rfl).trans (if_pos hhot).symm
  · have heq := h.observe_reuse hk hl hw hs hhot order
    rw [heq] at hrep ⊢
    have hset : ∀ e e' : Entry, ((t.admissionRing.set t.nextVictim e).set t.nextVictim e').length =
        t.admissionRing.length := by
      intro e e'
      rw [List.length_set, List.length_set]
    have hqueue := hrotate (counted (freshEntry key now) now)
    refine ⟨⟨hrep.rep, ?_, ?_⟩, hset _ _, hmod,
      ⟨counted (freshEntry key now) now, fun h => absurd h hhot, ?_⟩, ?_, ?_, ?_, ?_, ?_⟩
    · exact h.full.trans (congrArg Nat.cast (hset _ _)).ge
    · exact hpos.trans_le (hset _ _).ge
    · rw [← hqueue]
      exact congrArg (fun l : List Entry => l.rotate t.nextSlot) (List.set_set ..)
    · exact (decide_eq_false hhot).symm
    · exact (if_neg hhot).symm
    · rw [if_neg hhot]
      rfl
    · rw [if_neg hhot]
      rfl
    · exact (lost_victim h.toWF hl hs rfl).trans (if_neg hhot).symm

/-- What a run of such observations does: it goes through the entries at the head of the queue. -/
structure Swept (t : Tracker) (before rest : List Entry) (inspections : List Inspection)
    (t' : Tracker) : Prop where
  full : t'.Full
  size : t'.admissionRing.length = t.admissionRing.length
  cursor : t'.nextVictim = (t.nextVictim + before.length) % t.admissionRing.length
  slots : inspections.map Inspection.slot =
    (List.range before.length).map fun i => (t.nextVictim + i) % t.admissionRing.length
  queue : ∃ after, List.Forall₂ (fun e e' => e.state = .hot → e' = e) before after ∧
    t'.queue = rest ++ after
  dropped : inspections.map (fun i => i.observation.capacityObservationDropped) =
    before.map fun e => decide (e.state = .hot)
  state : inspections.map (fun i => i.observation.state) =
    before.map fun e => if e.state = .hot then none else some .cold
  drops : t'.capacityDrops = t.capacityDrops + before.countP fun e => e.state = .hot
  evictions : t'.evictions = t.evictions + before.countP fun e => e.state ≠ .hot
  lost : inspections.flatMap Inspection.lost = before.filter fun e => e.state ≠ .hot

theorem Full.sweep (h : t.Full) (hu : t.Unseen arrivals) (hq : t.queue = before ++ rest)
    (hlength : before.length = arrivals.length) :
    Swept t before rest (t.sweep arrivals).1 (t.sweep arrivals).2 := by
  induction arrivals generalizing t before rest with
  | nil =>
    obtain rfl := List.length_eq_zero_iff.1 hlength
    refine ⟨h, rfl, ?_, rfl, ⟨[], .nil, ?_⟩, rfl, rfl, rfl, rfl, rfl⟩
    · exact (Nat.mod_eq_of_lt h.cursor).symm
    · exact hq.trans (List.append_nil rest).symm
  | cons a arrivals ih =>
    cases before with
    | nil => cases hlength
    | cons victim before =>
      obtain ⟨hk, hn, hw, hu⟩ := hu
      have hl : t.items.lookup a.key = none := by
        rw [isTracked, ← Bool.not_eq_true, Option.not_isSome_iff_eq_none] at hn
        exact hn
      rw [List.cons_append] at hq
      have hstep := h.inspected hk hl hw a.order hq
      obtain ⟨entry, hentry, hqueue⟩ := hstep.queue
      rw [List.append_assoc] at hqueue
      have hrest := ih hstep.full hu hqueue (Nat.succ.inj hlength)
      obtain ⟨after, hafter, hqueue'⟩ := hrest.queue
      refine ⟨hrest.full, hrest.size.trans hstep.size, ?_, ?_,
        ⟨entry :: after, .cons hentry hafter, ?_⟩, ?_, ?_, ?_, ?_, ?_⟩
      · refine hrest.cursor.trans ?_
        rw [hstep.cursor, hstep.size, Nat.mod_add_mod, List.length_cons]
        exact congrArg (· % t.admissionRing.length) (by omega)
      · rw [List.length_cons, List.range_succ_eq_map, List.map_cons, List.map_map]
        refine congrArg₂ List.cons (Nat.mod_eq_of_lt h.cursor).symm (hrest.slots.trans ?_)
        apply List.map_congr_left
        intro i _
        rw [hstep.cursor, hstep.size, Nat.mod_add_mod]
        exact congrArg (· % t.admissionRing.length) (by omega)
      · exact hqueue'.trans (List.append_assoc ..)
      · exact congrArg₂ List.cons hstep.dropped hrest.dropped
      · exact congrArg₂ List.cons hstep.state hrest.state
      · rw [List.countP_cons]
        refine hrest.drops.trans ?_
        rw [hstep.drops]
        simp only [decide_eq_true_eq]
        omega
      · rw [List.countP_cons]
        refine hrest.evictions.trans ?_
        rw [hstep.evictions]
        by_cases hhot : victim.state = .hot
        · simp [hhot]
        · simp only [hhot, ne_eq, not_false_eq_true, decide_true, if_true, if_false]
          omega
      · rw [List.filter_cons]
        refine (congrArg₂ (· ++ ·) hstep.lost hrest.lost).trans ?_
        by_cases hhot : victim.state = .hot <;> simp [hhot]

theorem range_rotate (n c : Nat) :
    (List.range n).map (fun i => (c + i) % n) = (List.range n).rotate c := by
  apply List.ext_getElem?
  intro i
  by_cases hi : i < n
  · have hmod : (i + c) % n < n := Nat.mod_lt _ (Nat.zero_lt_of_lt hi)
    rw [List.getElem?_rotate (by rwa [List.length_range]), List.length_range, List.getElem?_map,
      List.getElem?_range hi, List.getElem?_range hmod, Option.map_some, Nat.add_comm]
  · rw [List.getElem?_eq_none_iff.2 (by rw [List.length_map, List.length_range]; omega),
      List.getElem?_eq_none_iff.2 (by rw [List.length_rotate, List.length_range]; omega)]

theorem slot_of_queue {R : Entry → Entry → Prop} {ring ring' : List Entry} {slot : Nat} {e : Entry}
    (c : Nat) (h : List.Forall₂ R (ring.rotate c) (ring'.rotate c))
    (hs : ring[slot]? = some e) : ∃ e', ring'[slot]? = some e' ∧ R e e' := by
  have hlength : ring.length = ring'.length := by
    have := h.length_eq
    rwa [List.length_rotate, List.length_rotate] at this
  have hslot := (List.getElem?_eq_some_iff.1 hs).1
  -- the place of the slot in the queue
  obtain ⟨i, hi, hback⟩ : ∃ i < ring.length, (i + c) % ring.length = slot := by
    have hc : c % ring.length < ring.length := Nat.mod_lt _ (Nat.zero_lt_of_lt hslot)
    refine ⟨(slot + (ring.length - c % ring.length)) % ring.length,
      Nat.mod_lt _ (Nat.zero_lt_of_lt hslot), ?_⟩
    rw [Nat.mod_add_mod, ← Nat.add_mod_mod]
    have hsum : slot + (ring.length - c % ring.length) + c % ring.length = slot + ring.length := by
      omega
    rw [hsum, Nat.add_mod_right, Nat.mod_eq_of_lt hslot]
  have hi' : i < (ring'.rotate c).length := by rw [List.length_rotate]; omega
  have hget := List.getElem?_rotate (l := ring) (n := c) hi
  have hget' := List.getElem?_rotate (l := ring') (n := c) (hlength ▸ hi)
  rw [hback, hs] at hget
  rw [← hlength, hback, List.getElem?_eq_getElem hi'] at hget'
  obtain ⟨hi'', heq⟩ := List.getElem?_eq_some_iff.1 hget
  refine ⟨_, hget'.symm, ?_⟩
  rw [← heq]
  exact h.get hi'' hi'

/-- A full ring in one window: as many observations of keys that are not tracked as there are slots
inspect each slot once, from the cursor on, drop one observation for each HOT entry, and give the
slots of all other entries to the new keys. -/
theorem second_chance_sweep (cfg : Config) (start : Time) (turns : List Turn)
    (arrivals : List Arrival) (t : Tracker) (ht : t = ((new cfg start).serveAll turns).2)
    (hfull : (t.admissionRing.length : Int) = t.cfg.maxTrackedKeys)
    (hlength : arrivals.length = t.admissionRing.length) (hu : t.Unseen arrivals) :
    let n := t.admissionRing.length
    let h := t.admissionRing.countP fun e => e.state = .hot
    let inspections := (t.sweep arrivals).1
    let t' := (t.sweep arrivals).2
    inspections.map Inspection.slot = (List.range n).rotate t.nextVictim ∧
      inspections.countP (fun i => i.observation.capacityObservationDropped) = h ∧
      inspections.countP (fun i => i.observation.state = some .cold) = n - h ∧
      t'.capacityDrops = t.capacityDrops + h ∧
      t'.evictions = t.evictions + (n - h) ∧
      (∀ (slot : Nat) (e : Entry), t.admissionRing[slot]? = some e → e.state = .hot →
        t'.admissionRing[slot]? = some e) ∧
      inspections.flatMap Inspection.lost =
        (t.admissionRing.rotate t.nextVictim).filter (fun e => e.state ≠ .hot) ∧
      t'.nextVictim = t.nextVictim := by
  intro n h inspections t'
  have hrep := (rep_new cfg start).serveAll turns
  rw [← ht] at hrep
  have hmax : 0 < t.cfg.maxTrackedKeys := by
    rw [hrep.cfg]
    change 0 < if cfg.maxTrackedKeys ≤ 0 then 1 else cfg.maxTrackedKeys
    split <;> omega
  have hcursor : t.nextVictim < n := by
    rcases hrep.rep.victim with hv | hv <;> omega
  have hswept := Full.sweep ⟨hrep.rep, hfull.ge, hcursor⟩ hu (List.append_nil t.queue).symm
    (by rw [queue, List.length_rotate, hlength])
  have hperm : t.queue.Perm t.admissionRing := List.rotate_perm _ _
  have hhot : t.queue.countP (fun e => e.state = .hot) = h := hperm.countP_eq _
  have hother : t.queue.countP (fun e => e.state ≠ .hot) = n - h := by
    have hsum :=
      List.length_eq_countP_add_countP (fun e : Entry => decide (e.state = .hot)) (l := t.queue)
    rw [hhot, hperm.length_eq] at hsum
    simp only [decide_eq_true_eq] at hsum
    change n = h + t.queue.countP (fun e => e.state ≠ .hot) at hsum
    omega
  have hcursor' : t'.nextVictim = t.nextVictim := by
    refine hswept.cursor.trans ?_
    rw [hperm.length_eq, Nat.add_mod_right, Nat.mod_eq_of_lt hcursor]
  refine ⟨?_, ?_, ?_, ?_, ?_, ?_, hswept.lost, hcursor'⟩
  · rw [← range_rotate]
    refine hswept.slots.trans ?_
    rw [hperm.length_eq]
  · have := congrArg (List.countP id) hswept.dropped
    rw [List.countP_map, List.countP_map] at this
    exact this.trans hhot
  · have := congrArg (List.countP fun s => s = some State.cold) hswept.state
    rw [List.countP_map, List.countP_map] at this
    refine this.trans (Eq.trans ?_ hother)
    apply List.countP_congr
    intro e _
    by_cases he : e.state = .hot <;> simp [he]
  · rw [← hhot]
    exact hswept.drops
  · rw [← hother]
    exact hswept.evictions
  · intro slot e hs he
    obtain ⟨after, hafter, hqueue⟩ := hswept.queue
    rw [List.nil_append] at hqueue
    rw [← hqueue, queue, queue, hcursor'] at hafter
    obtain ⟨e', hs', heq⟩ := slot_of_queue t.nextVictim hafter hs
    rw [hs', heq he]

/-- Two slots, the first of them HOT: the first observation is dropped and the second one takes the
other slot. -/
theorem second_chance_sweep_two :
    let cfg : Config := ⟨secondInNanos, 1 / 2, 10, 5, 2, 0, 2, fun _ _ => 0⟩
    let turn := fun request => (⟨request, 0, id, id⟩ : Turn)
    let turns := [turn (.observeWithState [1]), turn (.observeWithState [2]), turn (.admitKey [1])]
    let t := ((new cfg 0).serveAll turns).2
    let arrivals : List Arrival := [⟨[], [3], 1⟩, ⟨[], [4], 1⟩]
    t.Unseen arrivals ∧ (t.sweep arrivals).2.capacityDrops = t.capacityDrops + 1 ∧
      (t.sweep arrivals).1.map Inspection.slot = [0, 1] ∧
      (t.sweep arrivals).2.nextVictim = t.nextVictim := by
  intro cfg turn turns t arrivals
  have hu : t.Unseen arrivals :=
    ⟨⟨by decide, by decide⟩, by decide +kernel, by decide +kernel, ⟨by decide, by decide⟩,
      by decide +kernel, by decide +kernel, trivial⟩
  have hh : t.admissionRing.countP (fun e => e.state = .hot) = 1 := by decide +kernel
  have hs : (List.range t.admissionRing.length).rotate t.nextVictim = [0, 1] := by decide +kernel
  obtain ⟨hslots, -, -, hdrops, -, -, -, hcursor⟩ := second_chance_sweep cfg 0 turns arrivals t rfl
    (by decide +kernel) (by decide +kernel) hu
  exact ⟨hu, hdrops.trans (congrArg _ hh), hslots.trans hs, hcursor⟩

end

end Tracker
end Slizen.Hotness
