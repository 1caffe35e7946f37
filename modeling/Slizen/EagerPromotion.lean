import Slizen.TrackerEntries
import Slizen.WindowCatchUp

namespace Slizen.Hotness
set_option autoImplicit true

variable {cfg : Config}

namespace Entry

/-- The score of the open window if no further request comes. -/
def scoreFloor (cfg : Config) (e : Entry) : ℚ :=
  cfg.ewmaAlpha * (e.count / cfg.seconds) + (1 - cfg.ewmaAlpha) * e.score

theorem scoreFloor_mono (hv : cfg.Valid) {e e' : Entry} (hs : e'.score = e.score)
    (hc : e.count ≤ e'.count) : e.scoreFloor cfg ≤ e'.scoreFloor cfg := by
  have hsec : 0 ≤ cfg.seconds :=
    div_nonneg (by exact_mod_cast hv.window_pos.le) (by norm_num [secondInNanos])
  have hrate : (e.count : ℚ) / cfg.seconds ≤ e'.count / cfg.seconds :=
    div_le_div_of_nonneg_right (by exact_mod_cast hc) hsec
  rw [scoreFloor, scoreFloor, hs]
  linarith [mul_le_mul_of_nonneg_left hrate hv.alpha_pos.le]

/-- An entry that the end of the window finds above the promotion threshold, and that is HOT or
one window short of it, is HOT afterwards. -/
theorem completeWindows_promoted {e : Entry} (hf : cfg.promotionThreshold ≤ e.scoreFloor cfg)
    (hs : e.state = .hot ∨ cfg.minimumHotWindows ≤ e.hotWindows + 1 ∧ e.state = .warm)
    (boundary : Time) :
    (e.completeWindows cfg 1 boundary).2.state = .hot ∧
      (e.completeWindows cfg 1 boundary).2.score = e.scoreFloor cfg ∧
      (e.state = .hot → (e.completeWindows cfg 1 boundary).1 = []) := by
  let high : Entry := { e with score := e.scoreFloor cfg, lastRate := e.count / cfg.seconds }
  have hstep : e.completeWindows cfg 1 boundary =
      ((high.applyHigh cfg).changedFrom e.state, (high.applyHigh cfg).withCount 0) := by
    have happly : high.applyState cfg boundary = high.applyHigh cfg := if_pos hf
    simp only [completeWindows, advanceEntryLocked, applyStateLocked, if_true]
    rw [← happly]
    rfl
  have hhot : (high.applyHigh cfg).state = .hot := by
    simp only [applyHigh]
    rcases hs with hs | ⟨hmin, hs⟩
    · simp only [high, hs]
      split_ifs <;> simp_all
    · simp only [high, hs]
      rw [if_neg (by simp), if_pos (by push_cast; exact hmin)]
  have hscore : (high.applyHigh cfg).score = e.scoreFloor cfg := by
    simp only [applyHigh]
    split_ifs <;> rfl
  rw [hstep]
  refine ⟨hhot, hscore, fun he => ?_⟩
  simp only [changedFrom, he, hhot, if_true]

end Entry

namespace Tracker

variable {t : Tracker} {commit : Config → Entry → List Transition × Entry}

/-- Like the commit, but nothing is promoted before the window ends. -/
def noCommit (_ : Config) (e : Entry) : List Transition × Entry := ([], e)

def serveWith (commit : Config → Entry → List Transition × Entry) (t : Tracker) (c : Turn) :
    List Transition × Tracker :=
  match c.request with
  | .observeWithState key =>
    let (transitions, t) := t.advanceLocked (c.shuffle t.items.keys) c.now
    let (observation, t) := t.observeWith commit key c.now
    (transitions ++ observation.transitions, t)
  | _ => t.serve c

theorem serve_eq (t : Tracker) (c : Turn) :
    t.serve c = t.serveWith commitGuaranteedPromotionLocked c := by
  rw [serveWith]
  split
  · rename_i key hreq
    rw [serve, hreq]
    rfl
  · rfl

def afterAll (commit : Config → Entry → List Transition × Entry) (t : Tracker) :
    List Turn → Tracker
  | [] => t
  | c :: cs => (t.serveWith commit c).2.afterAll commit cs

theorem serveAll_eq (t : Tracker) (cs : List Turn) :
    (t.serveAll cs).2 = t.afterAll commitGuaranteedPromotionLocked cs := by
  induction cs generalizing t with
  | nil => rfl
  | cons c cs ih =>
    rw [afterAll, ← serve_eq, ← ih]
    rfl

theorem afterAll_append (t : Tracker) (cs cs' : List Turn) :
    t.afterAll commit (cs ++ cs') = (t.afterAll commit cs).afterAll commit cs' := by
  induction cs generalizing t with
  | nil => rfl
  | cons c cs ih => exact ih _

def Inside (t : Tracker) (c : Turn) : Prop := c.now < t.window + t.cfg.window

theorem serveWith_inside (h : t.Inside c) : t.serveWith commit c =
    match c.request with
    | .observeWithState key =>
      ((t.observeWith commit key c.now).1.transitions, (t.observeWith commit key c.now).2)
    | .admitKey key => ((t.admitLocked key).1.transitions, (t.admitLocked key).2)
    | _ => ([], t) := by
  have hearly : ∀ o, t.advanceLocked o c.now = ([], t) := advanceLocked_early h
  rw [serveWith]
  cases hreq : c.request with
  | observeWithState key => simp only [hearly, List.nil_append]
  | admitKey key => simp only [serve, hreq, Tracker.admitKey, hearly, List.nil_append]
  | advance => simp only [serve, hreq, advance, hearly]
  | advanceAndSnapshot limit => simp only [serve, hreq, advanceAndSnapshot, hearly]
  | snapshots limit => simp only [serve, hreq]

theorem observeWith_window (t : Tracker) (key : Key) (now : Time) :
    (t.observeWith commit key now).2.window = t.window := by
  rw [observeWith]
  split
  · rfl
  · split
    · rfl
    · have hf := (getOrCreateLocked_frame t key now).2
      obtain ⟨⟨created, t₁⟩, hg⟩ : ∃ p, t.getOrCreateLocked key now = p := ⟨_, rfl⟩
      rw [hg] at hf ⊢
      cases created with
      | none => exact hf
      | some p =>
        dsimp only
        cases t₁.admissionRing[p.1]? <;> exact hf

/-- A tracker within one window of a run that started from `s`. -/
structure Within (s t : Tracker) : Prop where
  rep : t.Rep
  cfg : t.cfg = s.cfg
  window : t.window = s.window

theorem Within.inside (h : Within s t) (hc : s.Inside c) : t.Inside c := by
  rw [Inside, h.window, h.cfg]
  exact hc

theorem Within.serveWith (h : Within s t) (hm : ∀ cfg (e : Entry), e.Moves (commit cfg e))
    (hc : s.Inside c) : Within s (t.serveWith commit c).2 := by
  rw [serveWith_inside (h.inside hc)]
  cases c.request with
  | observeWithState key =>
    have hr := h.rep.observeWith hm key c.now
    exact ⟨hr.rep, hr.cfg.trans h.cfg, (observeWith_window t key c.now).trans h.window⟩
  | admitKey key =>
    have hr := h.rep.admitLocked key
    exact ⟨hr.rep, hr.cfg.trans h.cfg, (admitLocked_frame t key).2.trans h.window⟩
  | advance => exact h
  | advanceAndSnapshot limit => exact h
  | snapshots limit => exact h

theorem Within.afterAll (h : Within s t) (hm : ∀ cfg (e : Entry), e.Moves (commit cfg e))
    (hcs : ∀ c ∈ cs, s.Inside c) : Within s (t.afterAll commit cs) := by
  induction cs generalizing t with
  | nil => exact h
  | cons c cs ih =>
    obtain ⟨hc, hcs⟩ := List.forall_mem_cons.1 hcs
    exact ih (h.serveWith hm hc) hcs

theorem moves_noCommit (cfg : Config) (e : Entry) : e.Moves (noCommit cfg e) := .still rfl rfl

def hits (k : Key) (c : Turn) : Nat :=
  match c.request with
  | .observeWithState key => if key = k then 1 else 0
  | _ => 0

/-- What a turn inside the window can make of the entry of a key. -/
inductive Change (commit : Config → Entry → List Transition × Entry) (cfg : Config) (k : Key)
    (c : Turn) (before after : Option Entry) : Prop where
  | same (hn : hits k c = 0) (heq : after = before)
  | counted (e : Entry) (hn : hits k c = 1) (hb : before = some e)
      (ha : after = some (commit cfg (counted e c.now)).2)
  | admitted (e : Entry) (hn : hits k c = 0) (hb : before = some e)
      (ha : after = some (admitEntry e))
  | lost (e : Entry) (hn : hits k c = 0) (hb : before = some e) (hs : e.state ≠ .hot)
      (ha : after = none)
  | created (hn : hits k c = 1) (hb : before = none)
      (ha : after = some (commit cfg (Tracker.counted (freshEntry k c.now) c.now)).2)
  | untracked (hb : before = none) (ha : after = none)

variable (commit) in
theorem Rep.change (h : t.Rep) (hmax : 0 < t.cfg.maxTrackedKeys) (hc : t.Inside c) (k : Key) :
    Change commit t.cfg k c (t.find k) ((t.serveWith commit c).2.find k) := by
  rw [serveWith_inside hc]
  cases hreq : c.request with
  | observeWithState key =>
    dsimp only
    by_cases hkey : key = k
    · subst hkey
      have hn : hits key c = 1 := by rw [hits, hreq]; exact if_pos rfl
      by_cases hk : Trackable key
      · cases h.observed commit hmax hk c.now with
        | found e hf _ hf' => exact .counted e hn hf hf'
        | created hf _ hf' => exact .created hn hf hf'
        | dropped hf _ hsame => exact .untracked hf ((hsame key).trans hf)
      · have hf : t.find key = none := by
          cases hf : t.find key with
          | none => rfl
          | some e => exact absurd (h.trackable hf) hk
        exact .untracked hf (((observeWith_untracked hk).2 key).trans hf)
    · have hn : hits k c = 0 := by rw [hits, hreq]; exact if_neg hkey
      by_cases hk : Trackable key
      · have hpassed : Passed t (t.observeWith commit key c.now).2 k := by
          cases h.observed commit hmax hk c.now with
          | found e _ _ _ hother => exact .inl (hother k (Ne.symm hkey))
          | created _ _ _ hother => exact hother k (Ne.symm hkey)
          | dropped _ _ hsame => exact .inl (hsame k)
        rcases hpassed with hsame | ⟨hnone, -, e, he, hs⟩
        · exact .same hn hsame
        · exact .lost e hn he hs hnone
      · exact .same hn ((observeWith_untracked hk).2 k)
  | admitKey key =>
    have hn : hits k c = 0 := by rw [hits, hreq]
    dsimp only
    rw [find_admitLocked h.toWF]
    split
    · rename_i hk
      subst hk
      cases hf : t.find k with
      | none => exact .untracked rfl rfl
      | some e => exact .admitted e hn rfl rfl
    · exact .same hn rfl
  | advance => exact .same (by rw [hits, hreq]) rfl
  | advanceAndSnapshot limit => exact .same (by rw [hits, hreq]) rfl
  | snapshots limit => exact .same (by rw [hits, hreq]) rfl

theorem commit_of_not_warm {e : Entry} (h : e.state ≠ .warm) :
    commitGuaranteedPromotionLocked cfg e = ([], e) := by
  have hg : ¬ guaranteedPromotion cfg e = true := by simp [guaranteedPromotion, h]
  rw [commitGuaranteedPromotionLocked, if_neg hg]

theorem commit_of_warm {e : Entry} (h : (commitGuaranteedPromotionLocked cfg e).2.state = .warm) :
    (commitGuaranteedPromotionLocked cfg e).2 = e := by
  rw [commitGuaranteedPromotionLocked] at h ⊢
  split at h
  · cases h
  · rename_i hg
    rw [if_neg hg]

/-- A WARM entry has been WARM since the window opened, with nothing but its count changed. -/
structure Since (e₀ : Entry) (n : Nat) (e : Entry) : Prop where
  state : e₀.state = .warm
  score : e.score = e₀.score
  hotWindows : e.hotWindows = e₀.hotWindows
  count : e.count = e₀.count + n

theorem Change.warm (h : Change commitGuaranteedPromotionLocked cfg k c before (some e))
    (hw : e.state = .warm) : ∃ e₀, before = some e₀ ∧ Since e₀ (hits k c) e := by
  cases h with
  | same hn heq => exact ⟨e, heq.symm, hw, rfl, rfl, by rw [hn, Nat.add_zero]⟩
  | counted e₀ hn hb ha =>
    obtain rfl := Option.some.inj ha
    have heq := commit_of_warm hw
    rw [heq] at hw
    exact ⟨e₀, hb, hw, by rw [heq]; rfl, by rw [heq]; rfl, by rw [heq, hn]; rfl⟩
  | admitted e₀ hn hb ha =>
    obtain rfl := Option.some.inj ha
    rw [admitEntry_state] at hw
    cases hw
  | lost _ _ _ _ ha => cases ha
  | created hn hb ha =>
    obtain rfl := Option.some.inj ha
    rw [commit_of_not_warm (by simp [Tracker.counted, freshEntry])] at hw
    cases hw
  | untracked _ ha => cases ha

theorem Within.warm (h : Within s t) (hmax : 0 < s.cfg.maxTrackedKeys)
    (hcs : ∀ c ∈ cs, s.Inside c)
    (hf : (t.afterAll commitGuaranteedPromotionLocked cs).find k = some e) (hw : e.state = .warm) :
    ∃ e₀, t.find k = some e₀ ∧ Since e₀ (cs.map (hits k)).sum e := by
  induction cs generalizing t with
  | nil => exact ⟨e, hf, hw, rfl, rfl, rfl⟩
  | cons c cs ih =>
    obtain ⟨hc, hcs⟩ := List.forall_mem_cons.1 hcs
    have hstep := h.serveWith moves_commitGuaranteedPromotionLocked hc
    obtain ⟨e₁, he₁, h₁⟩ := ih hstep hcs hf
    have hchange := h.rep.change commitGuaranteedPromotionLocked (h.cfg ▸ hmax)
      (h.inside hc) k
    rw [he₁] at hchange
    obtain ⟨e₀, he₀, h₀⟩ := hchange.warm h₁.state
    refine ⟨e₀, he₀, h₀.state, h₁.score.trans h₀.score, h₁.hotWindows.trans h₀.hotWindows, ?_⟩
    rw [h₁.count, h₀.count, List.map_cons, List.sum_cons, Nat.add_assoc]

/-- A key that no turn of the open window can demote. -/
def Settled (t : Tracker) (k : Key) : Prop :=
  ∃ e, t.find k = some e ∧ e.state = .hot ∧ t.cfg.promotionThreshold ≤ e.scoreFloor t.cfg

theorem Change.settled (hv : cfg.Valid) {e : Entry}
    (h : Change commitGuaranteedPromotionLocked cfg k c (some e) after) (hhot : e.state = .hot)
    (hf : cfg.promotionThreshold ≤ e.scoreFloor cfg) :
    ∃ e', after = some e' ∧ e'.state = .hot ∧ cfg.promotionThreshold ≤ e'.scoreFloor cfg := by
  cases h with
  | same hn heq => exact ⟨e, heq, hhot, hf⟩
  | counted e₀ hn hb ha =>
    obtain rfl := Option.some.inj hb
    have hne : (Tracker.counted e c.now).state ≠ .warm := by
      show e.state ≠ .warm
      rw [hhot]
      simp
    rw [commit_of_not_warm hne] at ha
    exact ⟨_, ha, hhot, hf.trans (Entry.scoreFloor_mono hv rfl (Nat.le_succ _))⟩
  | admitted e₀ hn hb ha =>
    obtain rfl := Option.some.inj hb
    rw [admitEntry, if_pos hhot] at ha
    exact ⟨e, ha, hhot, hf⟩
  | lost e₀ hn hb hs =>
    obtain rfl := Option.some.inj hb
    exact absurd hhot hs
  | created hn hb => cases hb
  | untracked hb => cases hb

theorem Within.settled (h : Within s t) (hv : s.cfg.Valid) (hmax : 0 < s.cfg.maxTrackedKeys)
    (hcs : ∀ c ∈ cs, s.Inside c) (hk : t.Settled k) :
    (t.afterAll commitGuaranteedPromotionLocked cs).Settled k := by
  induction cs generalizing t with
  | nil => exact hk
  | cons c cs ih =>
    obtain ⟨hc, hcs⟩ := List.forall_mem_cons.1 hcs
    have hstep := h.serveWith moves_commitGuaranteedPromotionLocked hc
    apply ih hstep hcs
    obtain ⟨e, he, hhot, hf⟩ := hk
    have hchange := h.rep.change commitGuaranteedPromotionLocked (h.cfg ▸ hmax)
      (h.inside hc) k
    rw [he] at hchange
    rw [Settled, hstep.cfg, ← h.cfg]
    exact hchange.settled (h.cfg ▸ hv) hhot hf

theorem Within.commits (h : Within s t) (hmax : 0 < s.cfg.maxTrackedKeys) (hc : s.Inside c)
    (hreq : c.request = .observeWithState k)
    (hτ : ⟨k, .warm, .hot⟩ ∈ (t.serveWith commitGuaranteedPromotionLocked c).1) :
    (t.serveWith commitGuaranteedPromotionLocked c).2.Settled k ∧
      ∃ e, t.find k = some e ∧ e.state = .warm ∧ s.cfg.minimumHotWindows ≤ e.hotWindows + 1 ∧
        s.cfg.promotionThreshold ≤ (counted e c.now).scoreFloor s.cfg := by
  have hwithin := h.serveWith moves_commitGuaranteedPromotionLocked hc
  rw [Settled, hwithin.cfg]
  rw [serveWith_inside (h.inside hc)] at hτ ⊢
  rw [hreq] at hτ ⊢
  dsimp only at hτ ⊢
  by_cases hk : Trackable k
  · cases h.rep.observed commitGuaranteedPromotionLocked (h.cfg ▸ hmax) hk c.now with
    | found e hf ho hf' =>
      rw [ho, h.cfg] at hτ
      rw [h.cfg] at hf'
      rw [commitGuaranteedPromotionLocked] at hτ hf'
      split at hτ
      · rename_i hg
        rw [if_pos hg] at hf'
        simp only [guaranteedPromotion, decide_eq_true_eq, not_lt] at hg
        obtain ⟨hwarm, -, hmin, hscore⟩ := hg
        exact ⟨⟨_, hf', rfl, hscore⟩, e, hf, hwarm, hmin, hscore⟩
      · cases hτ
    | created hf ho =>
      rcases ho _ hτ with hcold | hfresh
      · cases hcold
      · rw [commit_of_not_warm (by simp [counted, freshEntry])] at hfresh
        cases hfresh
    | dropped hf ho =>
      rw [ho] at hτ
      cases hτ
  · rw [(observeWith_untracked hk).1] at hτ
    cases hτ

/-- Without the commit, a key that keeps its slot stays WARM or is admitted. -/
structure Waiting (e₀ : Entry) (n : Nat) (e : Entry) : Prop where
  score : e.score = e₀.score
  count : e.count = e₀.count + n
  state : e.state = .hot ∨ e.state = .warm ∧ e.hotWindows = e₀.hotWindows

theorem Change.waiting (h : Change noCommit cfg k c (some e) (some e'))
    (hw : Waiting e₀ n e) : Waiting e₀ (n + hits k c) e' := by
  cases h with
  | same hn heq =>
    obtain rfl := Option.some.inj heq
    rw [hn]
    exact hw
  | counted e₁ hn hb ha =>
    obtain rfl := Option.some.inj hb
    obtain rfl := Option.some.inj ha
    refine ⟨hw.score, ?_, hw.state⟩
    rw [hn, ← Nat.add_assoc, ← hw.count]
    rfl
  | admitted e₁ hn hb ha =>
    obtain rfl := Option.some.inj hb
    obtain rfl := Option.some.inj ha
    rw [hn, admitEntry]
    split
    · exact hw
    · exact ⟨hw.score, hw.count, .inl rfl⟩
  | lost _ _ _ _ ha => cases ha
  | created hn hb => cases hb
  | untracked hb => cases hb

theorem Within.waiting (h : Within s t) (hmax : 0 < s.cfg.maxTrackedKeys)
    (hcs : ∀ c ∈ cs, s.Inside c) (hf : t.find k = some e) (hw : Waiting e₀ n e)
    (htracked : ∀ p, p <+: cs → (t.afterAll noCommit p).isTracked k = true) :
    ∃ e', (t.afterAll noCommit cs).find k = some e' ∧
      Waiting e₀ (n + (cs.map (hits k)).sum) e' := by
  induction cs generalizing t e n with
  | nil => exact ⟨e, hf, hw⟩
  | cons c cs ih =>
    obtain ⟨hc, hcs⟩ := List.forall_mem_cons.1 hcs
    have hstep := h.serveWith moves_noCommit hc
    obtain ⟨e₁, he₁⟩ := (isTracked_iff hstep.rep.toWF).1 (htracked [c] (by simp))
    have hchange := h.rep.change noCommit (h.cfg ▸ hmax) (h.inside hc) k
    rw [hf, he₁] at hchange
    obtain ⟨e', he', hw'⟩ := ih hstep hcs he₁ (hchange.waiting hw) fun p hp =>
      htracked (c :: p) (List.cons_prefix_cons.2 ⟨rfl, hp⟩)
    refine ⟨e', he', ?_⟩
    rw [List.map_cons, List.sum_cons, ← Nat.add_assoc]
    exact hw'

theorem find_advance (h : Within s t) (hv : s.cfg.Valid) (hfin : s.window + s.cfg.window ≤ fin)
    (hfin' : fin < s.window + 2 * s.cfg.window) (ho : order.Perm t.items.keys)
    (hf : t.find k = some e) :
    (t.advance order fin).2.find k =
        some (e.completeWindows s.cfg 1 (s.window + s.cfg.window)).2 ∧
      about k (t.advance order fin).1 =
        (e.completeWindows s.cfg 1 (s.window + s.cfg.window)).1 := by
  have hlate : t.window + t.cfg.window ≤ fin := by rwa [h.window, h.cfg]
  have hone : t.elapsedWindows fin = 1 := by
    have hpos : 0 < t.cfg.window := h.cfg ▸ hv.window_pos
    apply elapsedWindows_unique hpos hlate
    · push_cast
      linarith
    · rw [h.window, h.cfg]
      push_cast
      linarith
  obtain ⟨hcompleted, habout⟩ := advanceLocked_late (h.cfg ▸ hv) h.rep.toWF hlate ho
  rw [advance, hcompleted, habout k, hone, keyTransitions, find_completed, hf, ← h.cfg, ← h.window]
  exact ⟨rfl, rfl⟩

/-- A promotion that is committed inside an open window is what the end of the window would have
brought anyway. `s` is the tracker at some instant of the window, and a run without the commit
starts from it as well. -/
theorem eager_promotion (cfg : Slizen.Config) (hcfg : Slizen.Config.validate cfg = [])
    (floorLog : ℚ → ℚ → Int) (start : Time) (cs before after : List Turn) (c : Turn) (k : Key)
    (s : Tracker) (hs : s = ((new (cfg.tracker floorLog) start).serveAll cs).2)
    (hin : ∀ d ∈ before ++ c :: after, d.now < s.window + cfg.hotness.window)
    (hreq : c.request = .observeWithState k)
    (hcommit : ⟨k, .warm, .hot⟩ ∈ ((s.serveAll before).2.serve c).1) (fin : Time)
    (hfin : s.window + cfg.hotness.window ≤ fin) (hfin' : fin < s.window + 2 * cfg.hotness.window) :
    (let t := (s.serveAll (before ++ c :: after)).2
     t.isTracked k = true ∧ ∀ order, order.Perm t.items.keys →
       (∃ e, (t.advance order fin).2.find k = some e ∧
         cfg.hotness.promotionThreshold ≤ e.score ∧ e.state = .hot) ∧
       about k (t.advance order fin).1 = []) ∧
    (let t := s.afterAll noCommit (before ++ c :: after)
     (∀ p, p <+: before ++ c :: after → (s.afterAll noCommit p).isTracked k = true) →
       ∀ order, order.Perm t.items.keys → (t.advance order fin).2.isHot k = true) := by
  have hrun := (rep_new (cfg.tracker floorLog) start).serveAll cs
  rw [← hs] at hrun
  have hscfg : s.cfg = cfg.tracker floorLog := hrun.cfg.trans (new_cfg hcfg floorLog start)
  have hv : s.cfg.Valid := hscfg ▸ (Slizen.Config.accepted hcfg).hotness floorLog
  have hmax : 0 < s.cfg.maxTrackedKeys := hscfg ▸ (Slizen.Config.accepted hcfg).maxTrackedKeys
  have hwin : s.cfg.window = cfg.hotness.window := by rw [hscfg]; rfl
  have hthr : s.cfg.promotionThreshold = cfg.hotness.promotionThreshold := by rw [hscfg]; rfl
  rw [← hwin] at hin hfin hfin'
  have hbefore : ∀ d ∈ before, s.Inside d := fun d hd => hin d (List.mem_append_left _ hd)
  obtain ⟨hc, hafter⟩ := List.forall_mem_cons.1 (List.forall_mem_append.1 hin).2
  have hstart : Within s s := ⟨hrun.rep, rfl, rfl⟩
  rw [serveAll_eq, serve_eq] at hcommit
  have hmid := hstart.afterAll moves_commitGuaranteedPromotionLocked hbefore
  obtain ⟨hsettled, e, he, hwarm, hmin, hfloor⟩ := hmid.commits hmax hc hreq hcommit
  obtain ⟨e₀, he₀, hsince⟩ := hstart.warm hmax hbefore he hwarm
  have hnext := hmid.serveWith moves_commitGuaranteedPromotionLocked hc
  constructor
  · intro t
    have ht : t = ((s.afterAll commitGuaranteedPromotionLocked before).serveWith
        commitGuaranteedPromotionLocked c).2.afterAll commitGuaranteedPromotionLocked after :=
      (serveAll_eq s _).trans (afterAll_append s before (c :: after))
    have hwithin : Within s t := ht ▸ hnext.afterAll moves_commitGuaranteedPromotionLocked hafter
    obtain ⟨e', he', hhot, hscore⟩ : t.Settled k := ht ▸ hnext.settled hv hmax hafter hsettled
    rw [hwithin.cfg] at hscore
    refine ⟨(isTracked_iff hwithin.rep.toWF).2 ⟨e', he'⟩, fun order ho => ?_⟩
    obtain ⟨hfind, habout⟩ := find_advance hwithin hv hfin hfin' ho he'
    obtain ⟨hstate, hs', hquiet⟩ :=
      Entry.completeWindows_promoted hscore (.inl hhot) (s.window + s.cfg.window)
    exact ⟨⟨_, hfind, by rw [hs', ← hthr]; exact hscore, hstate⟩, habout.trans (hquiet hhot)⟩
  · intro t htracked order ho
    have hwait : Waiting e₀ 0 e₀ := ⟨rfl, rfl, .inr ⟨hsince.state, rfl⟩⟩
    obtain ⟨e', he', hw'⟩ := hstart.waiting hmax hin he₀ hwait htracked
    have hwithin : Within s t := hstart.afterAll moves_noCommit hin
    have hhits : hits k c = 1 := by rw [hits, hreq]; exact if_pos rfl
    have hscore : s.cfg.promotionThreshold ≤ e'.scoreFloor s.cfg := by
      apply hfloor.trans
      apply Entry.scoreFloor_mono hv
      · exact hw'.score.trans hsince.score.symm
      · rw [hw'.count, List.map_append, List.sum_append, List.map_cons, List.sum_cons, hhits]
        have := hsince.count
        show e.count + 1 ≤ _
        omega
    have hstate : e'.state = .hot ∨
        s.cfg.minimumHotWindows ≤ e'.hotWindows + 1 ∧ e'.state = .warm := by
      rcases hw'.state with hhot | ⟨hwarm', hhw⟩
      · exact .inl hhot
      · rw [hhw, ← hsince.hotWindows]
        exact .inr ⟨hmin, hwarm'⟩
    obtain ⟨hfind, -⟩ := find_advance hwithin hv hfin hfin' ho he'
    obtain ⟨hhot, -, -⟩ := Entry.completeWindows_promoted hscore hstate (s.window + s.cfg.window)
    rw [isHot, hfind]
    simpa using hhot

def sampleHotness : Slizen.Config :=
  let base := Slizen.Config.default "secret"
  { base with
    hotness := { base.hotness with
      promotionThreshold := 1
      demotionThreshold := 1 / 2
      maxTrackedKeys := 1 } }

def sampleWindow : List Turn :=
  [⟨.observeWithState [107], 0, id, id⟩, ⟨.observeWithState [107], 0, id, id⟩,
    ⟨.advance, 1000000000, id, id⟩]

def sampleTracker : Tracker :=
  ((new (sampleHotness.tracker fun _ _ => 0) 0).serveAll sampleWindow).2

/-- The promoted key keeps the only slot although another key asks for it. -/
theorem eager_promotion_sample :
    let c : Turn := ⟨.observeWithState [107], 1000000000, id, id⟩
    let d : Turn := ⟨.observeWithState [108], 1000000001, id, id⟩
    ⟨[107], .warm, .hot⟩ ∈ (sampleTracker.serve c).1 ∧
      (sampleTracker.serveAll [c, d]).2.isTracked [107] = true := by
  intro c d
  have hcommit : ⟨[107], .warm, .hot⟩ ∈ ((sampleTracker.serveAll []).2.serve c).1 := by
    decide +kernel
  have h := eager_promotion sampleHotness (by decide +kernel) (fun _ _ => 0) 0 sampleWindow [] [d]
    c [107] sampleTracker rfl (by decide +kernel) rfl hcommit 2000000000 (by decide +kernel)
    (by decide +kernel)
  exact ⟨hcommit, h.1.1⟩

end Tracker
end Slizen.Hotness
