import Slizen.EagerPromotion

namespace Slizen.Hotness
set_option autoImplicit true

/-- What can happen to a key: a window of it completes with a score, a request for it is counted,
it is admitted, or it gets a slot of the ring or loses it. -/
inductive Moment where
  | window (score : ℚ)
  | observed (e : Entry)
  | admitted
  | slot
  deriving DecidableEq

namespace Moment

/-- The scores of the windows since the key was last tracked anew or admitted, latest first. -/
def extend (scores : List ℚ) : Moment → List ℚ
  | .window score => score :: scores
  | .observed _ => scores
  | .admitted => []
  | .slot => []

end Moment

/-- What happened to a key, with the transitions that were emitted at each moment. -/
abbrev Chronicle := List (Moment × List Transition)

/-- The latest `n` windows all have a score that qualifies for a promotion. -/
def Streak (cfg : Config) (scores : List ℚ) (n : Nat) : Prop :=
  n ≤ scores.length ∧ ∀ score ∈ scores.take n, cfg.promotionThreshold ≤ score

theorem Streak.zero {cfg : Config} (scores : List ℚ) : Streak cfg scores 0 :=
  ⟨Nat.zero_le _, by simp⟩

theorem Streak.succ {cfg : Config} (h : Streak cfg scores n)
    (hs : cfg.promotionThreshold ≤ score) : Streak cfg (score :: scores) (n + 1) := by
  refine ⟨Nat.succ_le_succ h.1, ?_⟩
  rw [List.take_succ_cons, List.forall_mem_cons]
  exact ⟨hs, h.2⟩

/-- What a transition at a moment stands for, after windows with the given scores. Only a
completed window and a counted request promote without an admission: the window out of COOLING or
as the last of the required number, the request as the first of an open window that can no longer
miss the threshold. A completed window that leads to COLD does not qualify. -/
def Moment.Explains (cfg : Config) (scores : List ℚ) (τ : Transition) : Moment → Prop
  | .window score =>
    (τ.after = .hot → τ.before = .cooling ∧ cfg.promotionThreshold ≤ score ∨
      Streak cfg (score :: scores) cfg.minimumHotWindows.toNat) ∧
    (τ.after = .cold → score < cfg.promotionThreshold)
  | .observed e =>
    τ.after = .hot ∧ 1 ≤ cfg.minimumHotWindows.toNat - 1 ∧
      Streak cfg scores (cfg.minimumHotWindows.toNat - 1) ∧
      ∀ n : Nat, cfg.promotionThreshold ≤
        cfg.ewmaAlpha * ((e.count + n : Nat) / cfg.seconds) + (1 - cfg.ewmaAlpha) * e.score
  | .admitted => τ.after = .hot
  | .slot => τ.after = .cold

namespace Chronicle

def emitted (log : Chronicle) : List Transition := log.flatMap Prod.snd

def scoresFrom (scores : List ℚ) (log : Chronicle) : List ℚ :=
  log.foldl (fun scores m => m.1.extend scores) scores

def recent (log : Chronicle) : List ℚ := scoresFrom [] log

def Explained (cfg : Config) (scores : List ℚ) : Chronicle → Prop
  | [] => True
  | m :: log => (∀ τ ∈ m.2, m.1.Explains cfg scores τ) ∧ Explained cfg (m.1.extend scores) log

theorem emitted_append (log log' : Chronicle) :
    emitted (log ++ log') = emitted log ++ emitted log' := List.flatMap_append

theorem scoresFrom_append (scores : List ℚ) (log log' : Chronicle) :
    scoresFrom scores (log ++ log') = scoresFrom (scoresFrom scores log) log' :=
  List.foldl_append

theorem Explained.append {cfg : Config} {log log' : Chronicle} (h : Explained cfg scores log)
    (h' : Explained cfg (scoresFrom scores log) log') : Explained cfg scores (log ++ log') := by
  induction log generalizing scores with
  | nil => exact h'
  | cons m log ih => exact ⟨h.1, ih h.2 h'⟩

theorem Explained.at {cfg : Config} {past future : Chronicle}
    (h : Explained cfg scores (past ++ (m, l) :: future)) (hτ : τ ∈ l) :
    m.Explains cfg (scoresFrom scores past) τ := by
  induction past generalizing scores with
  | nil => exact h.1 τ hτ
  | cons p past ih => exact ih h.2

end Chronicle

namespace Entry

variable {cfg : Config}

/-- Outside HOT the counter of an entry is a streak that is still too short. -/
def Tallies (cfg : Config) (scores : List ℚ) (e : Entry) : Prop :=
  e.state ≠ .hot → e.hotWindows < cfg.minimumHotWindows.toNat ∧ Streak cfg scores e.hotWindows

theorem Tallies.of_cap {e e' : Entry} (h : e.Tallies cfg scores) (hc : e.cap cfg = e'.cap cfg) :
    e'.Tallies cfg scores := by
  have hstate : (e.cap cfg).state = (e'.cap cfg).state := by rw [hc]
  change e.state = e'.state at hstate
  have hmin := (cap_eq_iff.1 hc).2
  intro hs
  obtain ⟨hlt, hstreak⟩ := h (hstate ▸ hs)
  have heq : e'.hotWindows = e.hotWindows := by omega
  rw [heq]
  exact ⟨hlt, hstreak⟩

theorem tallies_zero (hv : cfg.Valid) {e : Entry} (h : e.hotWindows = 0) (scores : List ℚ) :
    e.Tallies cfg scores := by
  intro _
  have := hv.windows_pos
  rw [h]
  exact ⟨by omega, .zero _⟩

/-- The windows of an entry one by one, all but the first of them empty. -/
def windows (cfg : Config) (e : Entry) (rate : ℚ) : Nat → Time → Chronicle
  | 0, _ => []
  | n + 1, boundary =>
    let (first, e) := e.stepWindow cfg rate boundary
    (.window e.score, first) :: e.windows cfg 0 n (boundary + cfg.window)

theorem emitted_windows (e : Entry) (rate : ℚ) (n : Nat) (boundary : Time) :
    (e.windows cfg rate n boundary).emitted = (e.stepWindows cfg rate n boundary).1 := by
  induction n generalizing e rate boundary with
  | zero => rfl
  | succ n ih =>
    show (e.stepWindow cfg rate boundary).1 ++ Chronicle.emitted (windows cfg _ 0 n _) = _
    rw [ih]
    rfl

theorem changedFrom_mem {e : Entry} (h : τ ∈ e.changedFrom before) :
    τ = ⟨e.key, before, e.state⟩ ∧ before ≠ e.state := by
  unfold changedFrom at h
  split at h
  · cases h
  · rename_i hne
    exact ⟨List.mem_singleton.1 h, hne⟩

theorem applyHigh_score (e : Entry) : (e.applyHigh cfg).score = e.score := by
  simp only [applyHigh, apply_ite Entry.score, ite_self]

theorem applyMid_score (e : Entry) : e.applyMid.score = e.score := by
  simp only [applyMid, apply_ite Entry.score, ite_self]

theorem applyMid_hotWindows (e : Entry) : e.applyMid.hotWindows = 0 := by
  simp only [applyMid, apply_ite Entry.hotWindows, ite_self]

theorem applyLow_hotWindows (e : Entry) (now : Time) : (e.applyLow cfg now).hotWindows = 0 := by
  simp only [applyLow, apply_ite Entry.hotWindows, ite_self]

theorem applyHigh_cases {score : ℚ} (e : Entry) (h : e.Tallies cfg scores)
    (hs : cfg.promotionThreshold ≤ score) :
    (e.applyHigh cfg).state ≠ .cold ∧ (e.applyHigh cfg).Tallies cfg (score :: scores) ∧
      ((e.applyHigh cfg).state = .hot → e.state ≠ .hot →
        e.state = .cooling ∨ Streak cfg (score :: scores) cfg.minimumHotWindows.toNat) := by
  simp only [applyHigh]
  split
  · rename_i hcool
    exact ⟨(by simp), fun hne => absurd rfl hne, fun _ _ => .inl hcool⟩
  · split
    · rename_i hmin
      refine ⟨(by simp), fun hne => absurd rfl hne, fun _ hne => .inr ?_⟩
      obtain ⟨hlt, hstreak⟩ := h hne
      have heq : cfg.minimumHotWindows.toNat = e.hotWindows + 1 := by omega
      rw [heq]
      exact hstreak.succ hs
    · rename_i hmin
      have hnext : e.state ≠ .hot → e.hotWindows + 1 < cfg.minimumHotWindows.toNat ∧
          Streak cfg (score :: scores) (e.hotWindows + 1) := by
        intro hne
        exact ⟨by omega, (h hne).2.succ hs⟩
      split
      · rename_i hcold
        exact ⟨(by simp), fun _ => hnext (by simp [hcold]), (by simp)⟩
      · rename_i hcold
        exact ⟨hcold, hnext, fun hhot hne => absurd hhot hne⟩

theorem Tallies.stepWindow (hv : cfg.Valid) {e : Entry} (h : e.Tallies cfg scores) (rate : ℚ)
    (boundary : Time) :
    (∀ τ ∈ (e.stepWindow cfg rate boundary).1,
      (Moment.window (e.stepWindow cfg rate boundary).2.score).Explains cfg scores τ) ∧
    (e.stepWindow cfg rate boundary).2.Tallies cfg
      ((e.stepWindow cfg rate boundary).2.score :: scores) := by
  let e₁ : Entry :=
    { e with score := cfg.ewmaAlpha * rate + (1 - cfg.ewmaAlpha) * e.score, lastRate := rate }
  have hstep : e.stepWindow cfg rate boundary =
      ((e₁.applyState cfg boundary).changedFrom e.state, e₁.applyState cfg boundary) := rfl
  rw [hstep]
  dsimp only
  unfold applyState
  split
  · rename_i hhigh
    obtain ⟨hcold, htallies, hcause⟩ := applyHigh_cases e₁ (show e₁.Tallies cfg scores from h) hhigh
    rw [applyHigh_score]
    refine ⟨fun τ hτ => ?_, htallies⟩
    obtain ⟨rfl, hne⟩ := changedFrom_mem hτ
    refine ⟨fun hhot => ?_, fun hc => absurd hc hcold⟩
    rcases hcause hhot (by rw [← hhot]; exact hne) with hcool | hstreak
    · exact .inl ⟨hcool, hhigh⟩
    · exact .inr hstreak
  · rename_i hhigh
    split
    · refine ⟨fun τ hτ => ?_, tallies_zero hv (applyMid_hotWindows e₁) _⟩
      rw [applyMid_score]
      obtain ⟨rfl, hne⟩ := changedFrom_mem hτ
      refine ⟨fun hhot => ?_, fun _ => not_le.1 hhigh⟩
      -- between the thresholds nothing becomes HOT
      have hmid : e₁.applyMid.state = .hot → e.state = .hot := by
        simp only [applyMid]
        split
        · simp
        · exact id
      exact absurd ((hmid hhot).trans hhot.symm) hne
    · refine ⟨fun τ hτ => ?_, tallies_zero hv (applyLow_hotWindows e₁ boundary) _⟩
      rw [applyLow_score]
      obtain ⟨rfl, hne⟩ := changedFrom_mem hτ
      refine ⟨fun hhot => ?_, fun _ => not_le.1 hhigh⟩
      have hlow : (e₁.applyLow cfg boundary).state = .hot → False := by
        simp only [applyLow]
        split_ifs <;> simp_all
      exact (hlow hhot).elim

theorem Tallies.windows (hv : cfg.Valid) {e : Entry} (h : e.Tallies cfg scores) (rate : ℚ) (n : Nat)
    (boundary : Time) :
    Chronicle.Explained cfg scores (e.windows cfg rate n boundary) ∧
      (e.stepWindows cfg rate n boundary).2.Tallies cfg
        (Chronicle.scoresFrom scores (e.windows cfg rate n boundary)) := by
  induction n generalizing e rate boundary scores with
  | zero => exact ⟨trivial, h⟩
  | succ n ih =>
    obtain ⟨hfirst, hnext⟩ := h.stepWindow hv rate boundary
    obtain ⟨hlater, hlast⟩ := ih hnext 0 (boundary + cfg.window)
    exact ⟨⟨hfirst, hlater⟩, hlast⟩

end Entry

namespace Tracker

variable {t : Tracker}

/-- The windows that the tracker completes for a key once it has seen the clock. -/
def completions (t : Tracker) (k : Key) (now : Time) : Chronicle :=
  if now < t.window + t.cfg.window then []
  else
    match t.find k with
    | none => []
    | some e =>
      e.windows t.cfg (e.count / t.cfg.seconds) (t.elapsedWindows now) (t.window + t.cfg.window)

def deed (t : Tracker) (k : Key) (now : Time) : Request → Chronicle
  | .observeWithState key =>
    let (observation, t') := t.observeLocked key now
    match t.find k, t'.find k with
    | none, none => []
    | some _, some e => if key = k then [(.observed e, about k observation.transitions)] else []
    | _, _ => [(.slot, about k observation.transitions)]
  | .admitKey key =>
    if key = k then [(.admitted, about k (t.admitLocked key).1.transitions)] else []
  | _ => []

def chronicle (t : Tracker) (k : Key) (c : Turn) : Chronicle :=
  match c.request with
  | .snapshots _ => []
  | request =>
    t.completions k c.now ++
      (t.advanceLocked (c.shuffle t.items.keys) c.now).2.deed k c.now request

def chronicleAll (t : Tracker) (k : Key) : List Turn → Chronicle
  | [] => []
  | c :: cs => t.chronicle k c ++ (t.serve c).2.chronicleAll k cs

/-- The chronicle of a key tells what was emitted about it, explains it, and leaves the entry
with the streak it has. -/
structure Told (t : Tracker) (k : Key) (scores : List ℚ) (log : Chronicle) (l : List Transition)
    (t' : Tracker) : Prop where
  emitted : log.emitted = about k l
  explained : Chronicle.Explained t.cfg scores log
  tallies : ∀ e, t'.find k = some e → e.Tallies t.cfg (Chronicle.scoresFrom scores log)

theorem Told.trans {t₁ : Tracker} (h : Told t k scores log l t₁) (hcfg : t₁.cfg = t.cfg)
    (h' : Told t₁ k (Chronicle.scoresFrom scores log) log' l' t₂) :
    Told t k scores (log ++ log') (l ++ l') t₂ where
  emitted := by rw [Chronicle.emitted_append, about_append, h.emitted, h'.emitted]
  explained := h.explained.append (hcfg ▸ h'.explained)
  tallies := by
    intro e he
    rw [Chronicle.scoresFrom_append, ← hcfg]
    exact h'.tallies e he

theorem Told.nothing (hs : ∀ e, t.find k = some e → e.Tallies t.cfg scores)
    (hl : about k l = []) (hf : t'.find k = t.find k) : Told t k scores [] l t' where
  emitted := hl.symm
  explained := trivial
  tallies := by
    intro e he
    exact hs e (hf ▸ he)

/-- The windows that elapse are told one by one, although the code completes them at once. -/
theorem told_advanceLocked (hv : t.cfg.Valid) (hw : t.WF) (ho : order.Perm t.items.keys)
    (hs : ∀ e, t.find k = some e → e.Tallies t.cfg scores) (now : Time) :
    Told t k scores (t.completions k now) (t.advanceLocked order now).1
      (t.advanceLocked order now).2 := by
  rw [completions]
  split
  · rename_i hearly
    rw [advanceLocked_early hearly]
    exact .nothing hs rfl rfl
  · rename_i hlate
    obtain ⟨hcompleted, habout⟩ := advanceLocked_late hv hw (not_lt.1 hlate) ho
    have hfind := find_completed t (t.elapsedWindows now) k
    rw [← hcompleted] at hfind
    have hk := habout k
    rw [keyTransitions] at hk
    cases hf : t.find k with
    | none =>
      rw [hf] at hk hfind
      exact .nothing hs hk (hfind.trans hf.symm)
    | some e =>
      rw [hf] at hk hfind
      have hsteps := Entry.completeWindows_steps hv e (t.elapsedWindows_pos now)
        (t.window + t.cfg.window)
      obtain ⟨hexplained, htallies⟩ := (hs e hf).windows hv (e.count / t.cfg.seconds)
        (t.elapsedWindows now) (t.window + t.cfg.window)
      constructor
      · exact (Entry.emitted_windows ..).trans (hsteps.1.symm.trans hk.symm)
      · exact hexplained
      · intro e' he'
        obtain rfl := Option.some.inj (hfind.symm.trans he')
        exact Entry.Tallies.of_cap (show Entry.Tallies _ _ (Entry.withCount _ 0) from htallies)
          hsteps.2.symm

theorem getOrCreateLocked_evicts (h : t.WF)
    (hg : t.getOrCreateLocked key now = (some (slot, eviction), t')) (hτ : τ ∈ eviction.toList) :
    τ.after = .cold ∧ τ.key ≠ key ∧ (t.find τ.key).isSome ∧ t'.find τ.key = none := by
  rw [getOrCreateLocked] at hg
  cases hl : t.items.lookup key with
  | some slot =>
    rw [hl] at hg
    cases hg
    cases hτ
  | none =>
    rw [hl] at hg
    dsimp only at hg
    split at hg
    · cases hg
      cases hτ
    · split at hg
      · cases hg
      · rename_i victim hs
        split at hg
        · cases hg
        · cases hg
          have hvictim : t.find victim.key = some victim :=
            h.find_of_mem (List.mem_of_getElem? hs)
          have hne : victim.key ≠ key := by
            intro heq
            rw [heq, h.find_eq_none.2 hl] at hvictim
            cases hvictim
          split at hτ
          · cases hτ
          · obtain rfl := List.mem_singleton.1 hτ
            refine ⟨rfl, hne, Option.isSome_iff_exists.2 ⟨victim, hvictim⟩, ?_⟩
            refine (find_reuse h hs key now victim.key).trans ?_
            rw [if_neg hne, if_pos rfl]

theorem observeLocked_eq (t : Tracker) (key : Key) (now : Time) :
    t.observeLocked key now = t.observeWith commitGuaranteedPromotionLocked key now := rfl

theorem observeLocked_mem (h : t.Rep) (hmax : 0 < t.cfg.maxTrackedKeys)
    (hτ : τ ∈ (t.observeLocked key now).1.transitions) :
    (τ.after = .cold ∧ τ.key ≠ key ∧ (t.find τ.key).isSome ∧
      (t.observeLocked key now).2.find τ.key = none) ∨
    τ.key = key ∧ (t.find key).isSome ∧ ((t.observeLocked key now).2.find key).isSome := by
  by_cases hk : Trackable key
  · have hskip : ∀ {α : Sort _} (a b c : α), (if key.length > maxTrackedKeyBytes then a
        else if key = [] then b else c) = c := by
      intro α a b c
      rw [if_neg (not_lt.2 hk.2), if_neg hk.1]
    rw [observeLocked, hskip] at hτ ⊢
    cases h.slotted hmax key now with
    | found slot e hf hs hg =>
      rw [hg] at hτ ⊢
      simp only [hs] at hτ ⊢
      have hkey : τ.key = e.key :=
        (moves_commitGuaranteedPromotionLocked t.cfg (counted e now)).about τ hτ
      refine .inr ⟨hkey.trans (h.find_key hf), Option.isSome_of_mem hf, ?_⟩
      rw [find_replace h.toWF hs, if_pos (h.find_key hf).symm]
      rfl
    | created slot eviction t' hf hg hs hcold hother =>
      have hw : t'.WF := by
        have := h.toWF.getOrCreateLocked key now
        rwa [hg] at this
      rw [hg] at hτ ⊢
      simp only [hs] at hτ ⊢
      rw [commit_of_not_warm (by simp [freshEntry]), List.append_nil] at hτ
      obtain ⟨hafter, hne, hsome, hnone⟩ := getOrCreateLocked_evicts h.toWF hg hτ
      refine .inl ⟨hafter, hne, hsome, ?_⟩
      rw [find_replace hw hs]
      exact (if_neg hne).trans hnone
    | dropped t' hf hg =>
      rw [hg] at hτ
      cases hτ
  · rw [observeLocked_eq, (observeWith_untracked hk).1] at hτ
    cases hτ

/-- A counted request can only complete a streak early, when one window is missing and the open
one cannot miss the threshold any more. -/
theorem told_counted (hv : t.cfg.Valid) (hs : Entry.Tallies t.cfg scores e) (now : Time)
    (hl : about k l = (commitGuaranteedPromotionLocked t.cfg (counted e now)).1)
    (hf : t'.find k = some (commitGuaranteedPromotionLocked t.cfg (counted e now)).2) :
    Told t k scores
      [(.observed (commitGuaranteedPromotionLocked t.cfg (counted e now)).2, about k l)] l t' := by
  refine ⟨List.append_nil _, ⟨?_, trivial⟩, ?_⟩
  · intro τ hτ
    replace hτ : τ ∈ about k l := hτ
    rw [hl] at hτ
    rw [commitGuaranteedPromotionLocked] at hτ ⊢
    split at hτ
    · rename_i hg
      rw [if_pos hg]
      obtain rfl := List.mem_singleton.1 hτ
      simp only [guaranteedPromotion, decide_eq_true_eq, not_lt] at hg
      obtain ⟨hwarm, hpos, hmin, hscore⟩ := hg
      obtain ⟨hlt, hstreak⟩ := hs (by rw [show e.state = .warm from hwarm]; simp)
      change 0 < e.hotWindows at hpos
      change t.cfg.minimumHotWindows ≤ (e.hotWindows : Int) + 1 at hmin
      have heq : t.cfg.minimumHotWindows.toNat - 1 = e.hotWindows := by omega
      refine ⟨rfl, heq ▸ hpos, heq ▸ hstreak, fun n => ?_⟩
      have hmono : (counted e now).scoreFloor t.cfg ≤
          ((counted e now).withCount ((counted e now).count + n)).scoreFloor t.cfg :=
        Entry.scoreFloor_mono hv rfl (Nat.le_add_right _ n)
      exact hscore.trans hmono
    · cases hτ
  · intro e' he' hne
    obtain rfl := Option.some.inj (hf.symm.trans he')
    rw [commitGuaranteedPromotionLocked] at hne ⊢
    split at hne
    · exact absurd rfl hne
    · rename_i hg
      rw [if_neg hg]
      exact hs hne

theorem about_nil {l : List Transition} (h : ∀ τ ∈ l, τ.key ≠ k) : about k l = [] :=
  List.filter_eq_nil_iff.2 fun τ hτ => by simpa using h τ hτ

theorem about_mem {l : List Transition} (h : τ ∈ about k l) : τ ∈ l ∧ τ.key = k := by
  obtain ⟨hl, hk⟩ := List.mem_filter.1 h
  exact ⟨hl, by simpa using hk⟩

theorem told_slot (hcold : ∀ τ ∈ about k l, τ.after = .cold) (hv : t.cfg.Valid)
    (hzero : ∀ e, t'.find k = some e → e.hotWindows = 0) :
    Told t k scores [(.slot, about k l)] l t' where
  emitted := List.append_nil _
  explained := ⟨hcold, trivial⟩
  tallies := fun e he => Entry.tallies_zero hv (hzero e he) _

section Observed

variable (h : t.Rep) (hmax : 0 < t.cfg.maxTrackedKeys)
  (hs : ∀ e, t.find k = some e → e.Tallies t.cfg scores)

include h hmax hs

theorem told_passed (hne : key ≠ k ∨ t.find k = none)
    (hsame : (t.observeLocked key now).2.find k = t.find k) :
    Told t k scores (t.deed k now (.observeWithState key)) (t.observeLocked key now).1.transitions
      (t.observeLocked key now).2 := by
  have hnil : about k (t.observeLocked key now).1.transitions = [] := by
    apply about_nil
    intro τ hτ hk
    rcases observeLocked_mem h hmax hτ with ⟨-, -, hsome, hnone⟩ | ⟨hkey, hsome, -⟩
    · rw [hk] at hsome hnone
      rw [← hsame, hnone] at hsome
      cases hsome
    · rw [← hkey, hk] at hsome hne
      rcases hne with hne | hne
      · exact hne rfl
      · rw [hne] at hsome
        cases hsome
  have hdeed : t.deed k now (.observeWithState key) = [] := by
    dsimp only [deed]
    rw [hsame]
    cases hf : t.find k with
    | none => rfl
    | some e => exact if_neg (hne.resolve_right (by rw [hf]; nofun))
  rw [hdeed]
  exact .nothing hs hnil hsame

omit hs in
theorem told_reused (hv : t.cfg.Valid) (hone : (t.find k).isSome ≠
      ((t.observeLocked key now).2.find k).isSome)
    (hzero : ∀ e, (t.observeLocked key now).2.find k = some e → e.hotWindows = 0) :
    Told t k scores (t.deed k now (.observeWithState key)) (t.observeLocked key now).1.transitions
      (t.observeLocked key now).2 := by
  have hdeed : t.deed k now (.observeWithState key) =
      [(.slot, about k (t.observeLocked key now).1.transitions)] := by
    dsimp only [deed]
    cases hf : t.find k with
    | none =>
      cases hf' : (t.observeLocked key now).2.find k with
      | none => simp [hf, hf'] at hone
      | some e' => rfl
    | some e =>
      cases hf' : (t.observeLocked key now).2.find k with
      | none => rfl
      | some e' => simp [hf, hf'] at hone
  rw [hdeed]
  apply told_slot _ hv hzero
  intro τ hτ
  obtain ⟨hτ, hk⟩ := about_mem hτ
  rcases observeLocked_mem h hmax hτ with ⟨hafter, -⟩ | ⟨hkey, hsome, hsome'⟩
  · exact hafter
  · obtain rfl : key = k := hkey.symm.trans hk
    exact absurd (hsome.trans hsome'.symm) hone

theorem told_observeLocked (hv : t.cfg.Valid) (key : Key) (now : Time) :
    Told t k scores (t.deed k now (.observeWithState key)) (t.observeLocked key now).1.transitions
      (t.observeLocked key now).2 := by
  by_cases hk : Trackable key
  · cases h.observed commitGuaranteedPromotionLocked hmax hk now with
    | found e hf ho hf' hother =>
      rw [← observeLocked_eq] at ho hf' hother
      by_cases hkey : key = k
      · subst hkey
        have hdeed : t.deed key now (.observeWithState key) =
            [(.observed (commitGuaranteedPromotionLocked t.cfg (counted e now)).2,
              about key (t.observeLocked key now).1.transitions)] := by
          dsimp only [deed]
          rw [hf, hf']
          exact if_pos rfl
        rw [hdeed]
        apply told_counted hv (hs e hf) now _ hf'
        rw [ho]
        apply about_self
        rw [← h.find_key hf]
        exact (moves_commitGuaranteedPromotionLocked t.cfg (counted e now)).about
      · exact told_passed h hmax hs (.inl hkey) (hother k (Ne.symm hkey))
    | created hf ho hf' hother =>
      rw [← observeLocked_eq] at hf' hother
      by_cases hkey : key = k
      · subst hkey
        rw [commit_of_not_warm (by simp [counted, freshEntry])] at hf'
        apply told_reused h hmax hv
        · rw [hf, hf']
          simp
        · intro e he
          obtain rfl := Option.some.inj (hf'.symm.trans he)
          rfl
      · rcases hother k (Ne.symm hkey) with hsame | ⟨hnone, -, e, he, -⟩
        · exact told_passed h hmax hs (.inl hkey) hsame
        · apply told_reused h hmax hv
          · rw [he, hnone]
            simp
          · intro e he
            rw [hnone] at he
            cases he
    | dropped hf ho hsame =>
      by_cases hkey : key = k
      · exact told_passed h hmax hs (.inr (hkey ▸ hf)) (hsame k)
      · exact told_passed h hmax hs (.inl hkey) (hsame k)
  · have hsame : (t.observeWith commitGuaranteedPromotionLocked key now).2.find k = t.find k :=
      (observeWith_untracked hk).2 k
    rw [← observeLocked_eq] at hsame
    apply told_passed h hmax hs _ hsame
    by_cases hkey : key = k
    · right
      cases hf : t.find k with
      | none => rfl
      | some e => exact absurd (h.trackable hf) (hkey ▸ hk)
    · exact .inl hkey

end Observed

theorem admitLocked_mem (h : t.Rep) (hτ : τ ∈ (t.admitLocked key).1.transitions) :
    τ.key = key ∧ τ.after = .hot := by
  rw [admitLocked] at hτ
  cases hl : t.items.lookup key with
  | none =>
    rw [hl] at hτ
    cases hτ
  | some slot =>
    obtain ⟨e, hs, hk⟩ := (h.slots key slot).1 hl
    rw [hl] at hτ
    simp only [hs] at hτ
    obtain ⟨rfl, -⟩ := Entry.changedFrom_mem hτ
    exact ⟨(moves_admitEntry e).key.trans hk, admitEntry_state e⟩

theorem told_admitLocked (h : t.Rep)
    (hs : ∀ e, t.find k = some e → e.Tallies t.cfg scores) (key : Key) (now : Time) :
    Told t k scores (t.deed k now (.admitKey key)) (t.admitLocked key).1.transitions
      (t.admitLocked key).2 := by
  have hfind := find_admitLocked h.toWF key k
  dsimp only [deed]
  split
  · rename_i hkey
    subst hkey
    rw [if_pos rfl] at hfind
    refine ⟨List.append_nil _, ⟨fun τ hτ => ?_, trivial⟩, fun e he hne => ?_⟩
    · exact (admitLocked_mem h (about_mem hτ).1).2
    · rw [he] at hfind
      obtain ⟨e₀, -, rfl⟩ := Option.map_eq_some_iff.1 hfind.symm
      exact absurd (admitEntry_state e₀) hne
  · rename_i hkey
    rw [if_neg (Ne.symm hkey)] at hfind
    refine .nothing hs (about_nil fun τ hτ hk => ?_) hfind
    exact hkey ((admitLocked_mem h hτ).1.symm.trans hk)

theorem told_serve (h : t.Rep) (hv : t.cfg.Valid) (hmax : 0 < t.cfg.maxTrackedKeys)
    (hs : ∀ e, t.find k = some e → e.Tallies t.cfg scores)
    (ho : (c.shuffle t.items.keys).Perm t.items.keys) :
    Told t k scores (t.chronicle k c) (t.serve c).1 (t.serve c).2 := by
  have hadv := told_advanceLocked hv h.toWF ho hs c.now
  have hrep := h.advanceLocked (c.shuffle t.items.keys) c.now
  have hidle : ∀ e, (t.advanceLocked (c.shuffle t.items.keys) c.now).2.find k = some e →
      e.Tallies (t.advanceLocked (c.shuffle t.items.keys) c.now).2.cfg
        (Chronicle.scoresFrom scores (t.completions k c.now)) := by
    rw [hrep.cfg]
    exact hadv.tallies
  rw [chronicle, serve]
  cases c.request with
  | observeWithState key =>
    exact hadv.trans hrep.cfg
      (told_observeLocked hrep.rep (hrep.cfg ▸ hmax) hidle (hrep.cfg ▸ hv) key c.now)
  | admitKey key => exact hadv.trans hrep.cfg (told_admitLocked hrep.rep hidle key c.now)
  | advance =>
    dsimp only [deed]
    rw [List.append_nil]
    exact hadv
  | advanceAndSnapshot limit =>
    dsimp only [deed]
    rw [List.append_nil]
    exact hadv
  | snapshots limit => exact .nothing hs rfl rfl

theorem told_serveAll (h : t.Rep) (hv : t.cfg.Valid) (hmax : 0 < t.cfg.maxTrackedKeys)
    (hs : ∀ e, t.find k = some e → e.Tallies t.cfg scores)
    (ho : ∀ c ∈ cs, ∀ l, (c.shuffle l).Perm l) :
    Told t k scores (t.chronicleAll k cs) (t.serveAll cs).1 (t.serveAll cs).2 := by
  induction cs generalizing t scores with
  | nil => exact .nothing hs rfl rfl
  | cons c cs ih =>
    obtain ⟨hc, hcs⟩ := List.forall_mem_cons.1 ho
    have hstep := told_serve h hv hmax hs (hc t.items.keys)
    have hrep := h.serve c
    apply hstep.trans hrep.cfg
    apply ih hrep.rep (hrep.cfg ▸ hv) (hrep.cfg ▸ hmax) _ hcs
    rw [hrep.cfg]
    exact hstep.tallies

/-- Promotion is sustained. The chronicle of a key tells exactly what a tracker emitted about it,
and explains every transition: without an admission a key becomes HOT only out of COOLING in a
window that qualifies, or with the required number of consecutive windows that qualify since it
was last tracked anew or admitted, the last of which may be the open one. -/
theorem promotion_sustained (cfg : Slizen.Config) (hcfg : Slizen.Config.validate cfg = [])
    (floorLog : ℚ → ℚ → Int) (start : Time) (cs : List Turn)
    (hcs : ∀ c ∈ cs, ∀ l, (c.shuffle l).Perm l) (k : Key) :
    let t := new (cfg.tracker floorLog) start
    let log := t.chronicleAll k cs
    log.emitted = about k (t.serveAll cs).1 ∧
    ∀ (past : Chronicle) m l future, log = past ++ (m, l) :: future → ∀ τ ∈ l,
      m.Explains (cfg.tracker floorLog) past.recent τ := by
  intro t log
  have ht : t.cfg = cfg.tracker floorLog := new_cfg hcfg floorLog start
  have hv : t.cfg.Valid := ht ▸ (Slizen.Config.accepted hcfg).hotness floorLog
  have hmax : 0 < t.cfg.maxTrackedKeys := ht ▸ (Slizen.Config.accepted hcfg).maxTrackedKeys
  have htold : Told t k [] log (t.serveAll cs).1 (t.serveAll cs).2 :=
    told_serveAll (rep_new _ start) hv hmax nofun hcs
  refine ⟨htold.emitted, ?_⟩
  intro past m l future hlog τ hτ
  have hexplained := htold.explained
  rw [hlog, ht] at hexplained
  exact hexplained.at hτ

/-- A key that has one hot second behind it, and a request in the next one that completes it. -/
theorem promotion_sustained_sample :
    let t := new (sampleHotness.tracker fun _ _ => 0) 0
    let cs := sampleWindow ++ [⟨.observeWithState [107], 1000000000, id, id⟩]
    let past := t.chronicleAll [107] sampleWindow
    let e : Entry := ⟨[107], .hot, 1, 1, 2, 1000000000, 0, 2, 0⟩
    t.chronicleAll [107] cs = past ++ [(.observed e, [⟨[107], .warm, .hot⟩])] ∧
      Streak (sampleHotness.tracker fun _ _ => 0) past.recent 1 := by
  intro t cs past e
  have hlog : t.chronicleAll [107] cs = past ++ [(.observed e, [⟨[107], .warm, .hot⟩])] := by
    decide +kernel
  have hid : ∀ c ∈ cs, ∀ l, (c.shuffle l).Perm l := by
    have : ∀ c ∈ cs, c.shuffle = id := by simp [cs, sampleWindow]
    intro c hc l
    rw [this c hc]
    exact .refl _
  have h := (promotion_sustained sampleHotness (by decide +kernel) (fun _ _ => 0) 0 cs hid
    [107]).2 past _ _ [] hlog _ List.mem_cons_self
  exact ⟨hlog, h.2.2.1⟩

end Tracker

end Slizen.Hotness
