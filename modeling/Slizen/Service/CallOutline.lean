import Slizen.Service.WriteOutline

namespace Slizen.Service
set_option autoImplicit true

open Interleaving Outline

variable {svc : Service} {P : svc.machine.Rules} {s : World} {t : Nat} {j : Job}

theorem mem_neededStripes : σ ∈ neededStripes keys ↔ ∃ k ∈ keys, cacheEpochStripe k = σ := by
  simp [neededStripes]

theorem neededStripes_pairwise (keys : List Key) : (neededStripes keys).Pairwise (· < ·) :=
  (List.pairwise_lt_finRange 256).filter _

structure Writing (t : Nat) (command : Bytes) (args keys : List Bytes) (s : World) : Prop where
  idle : Idle t s
  started : Started t s
  job : (s.trace t).job = some (.executeWrite command args keys)
  gates : ∀ σ, s.gates σ = some t ↔ σ ∈ neededStripes keys

theorem Writing.gate (h : Writing t command args keys s) (hk : k ∈ keys) :
    s.gates (cacheEpochStripe k) = some t := (h.gates _).2 (mem_neededStripes.2 ⟨k, hk, rfl⟩)

theorem Writing.writeKeys (h : Writing t command args keys s) : (s.trace t).writeKeys = keys := by
  simp [Trace.writeKeys, h.job, Job.writeKeys]

theorem Writing.invalidates (h : Writing t command args keys s)
    (hd : ∀ d, (s.trace t).dispatched = some d → d.version ≤ s.origin.version) :
    Invalidates t keys s where
  idle := h.idle
  started := h.started
  dispatched := hd
  job := fun _ hk => .inl ⟨h.writeKeys.symm ▸ hk, h.gate hk⟩

theorem Writing.grows (h : Writing t command args keys s) (hg : Grows t s s') (hidle : Idle t s')
    (hj : (s'.trace t).job = (s.trace t).job) (hs : (s'.trace t).started = (s.trace t).started)
    (hgates : ∀ σ, s.gates σ = some t ↔ s'.gates σ = some t) : Writing t command args keys s' where
  idle := hidle
  started := h.started.grows hg hj hs
  job := hj.trans h.job
  gates := fun σ => (hgates σ).symm.trans (h.gates σ)

theorem Writing.marked {f : Trace → Trace} (h : Writing t command args keys s)
    (hm : Marked t f s s')
    (hj : (f (s.trace t)).job = (s.trace t).job)
    (hs : (f (s.trace t)).started = (s.trace t).started)
    (hd : (f (s.trace t)).debt = (s.trace t).debt) : Writing t command args keys s' :=
  h.grows hm.toGrows
    ⟨fun σ ho => h.idle.stripes σ ((hm.owner σ).2 ho), by rw [hm.trace, hd]; exact h.idle.debt⟩
    (by rw [hm.trace, hj]) (by rw [hm.trace, hs]) hm.gates

theorem Writing.clearing (h : Writing t command args keys s) (hc : Clearing t l s s') :
    Writing t command args keys s' :=
  h.grows hc.toGrows hc.idle hc.trace.job hc.trace.started hc.gates

theorem Writing.rely (h : Writing t command args keys s) (hr : Rely t s s') :
    Writing t command args keys s' :=
  h.grows hr.toGrows (h.idle.of_quiet hr.toQuiet) (by rw [hr.same]) (by rw [hr.same]) hr.gates

theorem acknowledgedSet_eq_some {command : Bytes} {args keys : List Bytes}
    {r : Except Error RedisReply} {key : Key} {value : Bytes} :
    acknowledgedSet command args keys r = some (key, value) ↔
      equalFold command wordSET = true ∧ args = [key, value] ∧ keys = [key] ∧
        ∃ status, r = .ok (.text status) ∧ equalFold status wordOK = true := by
  constructor
  · intro h
    unfold acknowledgedSet at h
    split at h
    · split at h
      · split at h
        · rename_i hc
          cases h
          exact ⟨hc.2.1, rfl, by rw [hc.2.2], _, rfl, hc.1⟩
        · cases h
      · cases h
    · cases h
  · rintro ⟨hcommand, rfl, rfl, status, rfl, hstatus⟩
    simp [acknowledgedSet, hcommand, hstatus]

theorem wp_finalizeWrite {r : Except Error RedisReply} {d : Moment} (hi : svc.Base s)
    (h : Writing t command args keys s) (hd : (s.trace t).dispatched = some d)
    (hv : d.version ≤ s.origin.version)
    (hw : (s.trace t).wrote = acknowledgedSet command args keys r) :
    svc.wp P t (svc.finalizeWrite command args keys (.write d.reqs d.version) r)
      (fun _ s' => Clearing t keys.reverse s s') s := by
  have hinv : Invalidates t keys s := by
    refine h.invalidates fun d' hd' => ?_
    rw [hd] at hd'
    cases hd'
    exact hv
  unfold finalizeWrite
  split
  · rename_i key value hack
    obtain ⟨-, -, rfl, -⟩ := acknowledgedSet_eq_some.1 hack
    refine wp_writeThroughSet hi hinv ⟨hd, hw.trans hack, rfl, h.gate ?_, ?_⟩
    · exact List.mem_singleton_self key
    · rw [h.writeKeys]
      exact List.mem_singleton_self key
  · exact wp_invalidateCacheKeys keys hi hinv nofun

structure Finalized (t : Nat) (command : Bytes) (args keys : List Bytes) (s : World) : Prop
    extends Writing t command args keys s where
  opened : (s.trace t).opened = true
  dispatched : (s.trace t).dispatched ≠ none
  cleared : ∀ k ∈ keys, k ∈ (s.trace t).cleared

theorem Finalized.rely (h : Finalized t command args keys s) (hr : Rely t s s') :
    Finalized t command args keys s' :=
  ⟨h.toWriting.rely hr, by rw [hr.same]; exact h.opened, by rw [hr.same]; exact h.dispatched,
    by rw [hr.same]; exact h.cleared⟩

theorem wp_forgetAll (hi : svc.Base s) (h : Finalized t command args keys s) :
    svc.wp P t (Run.each (fun key => Run.do (.group (.forget key))) keys)
      (fun _ s' => Finalized t command args keys s' ∧
        ∀ k ∈ keys, k ∈ (s'.trace t).forgotten) s := by
  refine (wp_each (I := fun rest s' => Finalized t command args keys s' ∧ (∀ k ∈ rest, k ∈ keys) ∧
    ∀ k ∈ keys, k ∈ rest ∨ k ∈ (s'.trace t).forgotten) ?_ keys hi
    ⟨h, fun _ hk => hk, fun _ => .inl⟩).mono
    fun _ s' hx => ⟨hx.1, fun k hk => (hx.2.2 k hk).resolve_left nofun⟩
  rintro key rest s₁ hi₁ ⟨h₁, hsub, hdone⟩
  have hkey := hsub key List.mem_cons_self
  refine (wp_forget (h₁.cleared key hkey) (.inl ⟨?_, h₁.dispatched⟩)).mono
    fun _ s₂ hm => ⟨?_, ?_, ?_⟩
  · rw [h₁.writeKeys]
    exact hkey
  · refine ⟨h₁.toWriting.marked hm rfl rfl rfl, ?_, ?_, ?_⟩ <;> rw [hm.trace]
    · exact h₁.opened
    · exact h₁.dispatched
    · exact h₁.cleared
  · exact fun k hk => hsub k (List.mem_cons_of_mem _ hk)
  · intro k hk
    rw [hm.trace]
    rcases hdone k hk with hr | hf
    · rcases List.mem_cons.1 hr with rfl | hr
      · exact .inr List.mem_cons_self
      · exact .inl hr
    · exact .inr (List.mem_cons_of_mem _ hf)

theorem wp_recordAll (m : Metric) (n : Nat) (hm : (Action.record m).Still) (hi : svc.Base s) :
    svc.wp P t (Run.each record (List.replicate n m)) (fun _ s' => Rely t s s') s := by
  refine (wp_each (I := fun rest s' => (∀ x ∈ rest, x = m) ∧ Rely t s s') ?_ _ hi
    ⟨fun x hx => List.eq_of_mem_replicate hx, .refl t s⟩).mono fun _ _ h => h.2
  rintro x rest s₁ _ ⟨hall, hr⟩
  rw [hall x List.mem_cons_self]
  exact (wp_record m hm).mono fun _ _ hr' =>
    ⟨fun y hy => hall y (List.mem_cons_of_mem _ hy), hr.trans hr'⟩

theorem wp_executeGated (hi : svc.Base s) (h : Writing t command args keys s)
    (hd : (s.trace t).dispatched = none) :
    svc.wp P t (svc.executeGated command args keys) (fun _ s' =>
      Finalized t command args keys s' ∧ ∀ k ∈ keys, k ∈ (s'.trace t).forgotten) s := by
  unfold executeGated
  have hj : (s.trace t).job ≠ none := by
    rw [h.job]
    exact nofun
  refine wp.seq (wp_openWindow keys hd hj fun k hk => h.gate hk) hi fun _ s₁ hi₁ hm₁ => ?_
  have h₁ := h.marked hm₁ rfl rfl rfl
  have hd₁ : (s₁.trace t).dispatched = none := by
    rw [hm₁.trace]
    exact hd
  have hinv : Invalidates t keys s₁ := h₁.invalidates (by rw [hd₁]; exact nofun)
  refine wp.seq (wp_invalidateCacheKeys keys hi₁ hinv nofun) hi₁ fun before s₂ hi₂ hc₂ => ?_
  have h₂ := h₁.clearing hc₂
  have ho₂ : (s₂.trace t).opened = true := by
    rw [hc₂.trace.opened]
    dsimp only
    rw [hm₁.trace]
  have hw₂ : (s₂.trace t).window = some keys := by
    rw [hc₂.trace.window]
    dsimp only
    rw [hm₁.trace]
  have hk₂ : ∀ k ∈ keys, k ∈ (s₂.trace t).cleared := by
    intro k hk
    rw [hc₂.trace.cleared]
    exact List.mem_append_left _ (List.mem_reverse.2 hk)
  refine wp.seq (wp_dispatch h₂.job hw₂ (hc₂.trace.dispatched.trans hd₁) hk₂) hi₂
    fun done s₃ hi₃ ⟨m, hm₃, hsource, hv₃, _⟩ => ?_
  refine wp.seq (wp_record _) hi₃ fun _ s₄ hi₄ hr₄ => ?_
  have h₄ := (h₂.marked hm₃ rfl rfl rfl).rely hr₄
  have htr₄ := hr₄.same.trans hm₃.trace
  rw [hsource]
  refine wp.seq (wp_finalizeWrite hi₄ h₄ (by rw [htr₄]) (hv₃.trans hr₄.version) (by rw [htr₄])) hi₄
    fun after s₅ hi₅ hc₅ => ?_
  have h₅ := h₄.clearing hc₅
  have ho₅ : (s₅.trace t).opened = true := by
    rw [hc₅.trace.opened]
    dsimp only
    rw [htr₄]
    exact ho₂
  have hd₅ : (s₅.trace t).dispatched ≠ none := by
    rw [hc₅.trace.dispatched]
    dsimp only
    rw [htr₄]
    exact nofun
  have hw₅ : (s₅.trace t).window = some keys := by
    rw [hc₅.trace.window]
    dsimp only
    rw [htr₄]
    exact hw₂
  have hk₅ : ∀ k ∈ keys, k ∈ (s₅.trace t).cleared := by
    intro k hk
    rw [hc₅.trace.cleared]
    exact List.mem_append_left _ (List.mem_reverse.2 hk)
  refine wp.seq (wp_closeWindow hw₅ hk₅) hi₅ fun _ s₆ hi₆ hm₆ => ?_
  have h₆ : Finalized t command args keys s₆ := by
    refine ⟨h₅.marked hm₆ rfl rfl rfl, ?_, ?_, ?_⟩ <;> rw [hm₆.trace]
    · exact ho₅
    · exact hd₅
    · exact hk₅
  refine wp.seq (wp_forgetAll hi₆ h₆) hi₆ fun _ s₇ hi₇ ⟨h₇, hf₇⟩ => ?_
  refine wp.seq (wp_recordAll .invalidation _ trivial hi₇) hi₇ fun _ s₈ hi₈ hr₈ => ?_
  refine wp.seq (wp_observeCache hi₈) hi₈ fun _ s₉ _ hr₉ => ?_
  have hr := hr₈.trans hr₉
  refine ⟨h₇.rely hr, ?_⟩
  rw [hr.same]
  exact hf₇

structure Begun (t : Nat) (job : Job) (s : World) : Prop where
  rest : AtRest t s
  started : Started t s
  trace : ∃ m, s.trace t = { call := some job, job := some job, started := m }

theorem Begun.idle (h : Begun t j s) : Idle t s := h.rest.toIdle

theorem Begun.job (h : Begun t j s) : (s.trace t).job = some j := by
  obtain ⟨m, htr⟩ := h.trace
  rw [htr]

theorem Begun.reading (h : Begun t j s) : Reading t j s := by
  refine ⟨h.rest, h.job, h.started, ?_⟩
  obtain ⟨m, htr⟩ := h.trace
  rw [htr]

theorem wp_executeWrite (hi : svc.Base s) (h : Begun t (.executeWrite command args keys) s) :
    svc.wp P t (svc.executeWrite command args keys) (fun r s' =>
      svc.Answered t (.executeWrite command args keys) (.executeWrite r) s') s := by
  obtain ⟨m, htr⟩ := h.trace
  have hd : (s.trace t).dispatched = none := by rw [htr]
  have hunsent : Unsent t s := ⟨hd, by rw [htr], ⟨command, args, keys, h.job⟩, h.idle.stripes⟩
  have hnone : Gated t [] s := ⟨List.nodup_nil, fun σ => by simp [h.rest.gates σ], hunsent.gated⟩
  unfold executeWrite
  refine wp.seq (wp_acquireMutationStripes (neededStripes keys) hi hunsent
    (neededStripes_pairwise keys) hnone) hi fun acquired s₁ hi₁ ⟨hk₁, hacq⟩ => ?_
  have hidle₁ : Idle t s₁ := ⟨(hunsent.kept hk₁).stripes, by rw [hk₁.same]; exact h.idle.debt⟩
  have hj₁ : (s₁.trace t).job = some (.executeWrite command args keys) := by
    rw [hk₁.same]
    exact h.job
  have hd₁ := (hunsent.kept hk₁).dispatched
  cases acquired with
  | error e =>
    refine ⟨hj₁, ⟨hidle₁, hacq.error e rfl⟩, fun d hd' => ?_, fun _ => ⟨e, rfl⟩⟩
    rw [hd₁] at hd'
    cases hd'
  | ok stripes =>
    obtain ⟨rfl, hg⟩ := hacq.ok stripes rfl
    have hs₁ := h.started.grows hk₁.toGrows (by rw [hk₁.same]) (by rw [hk₁.same])
    refine wp.seq (wp_executeGated hi₁ ⟨hidle₁, hs₁, hj₁, hg.gates⟩ hd₁) hi₁
      fun r s₂ hi₂ ⟨h₂, hf₂⟩ => ?_
    have hrel : svc.wp P t (note .releaseGates)
        (fun _ s' => Marked t (fun tr => { tr with gated := none }) s₂ s') s₂ :=
      wp_note (fun _ _ => trivial) fun _ _ => rfl
    refine wp.seq hrel hi₂ fun _ s₃ hi₃ hm₃ => ?_
    have h₃ := h₂.toWriting.marked hm₃ rfl rfl rfl
    refine wp.seq (wp_releaseMutationStripes hi₃ ⟨hg.nodup, h₃.gates, by rw [hm₃.trace]⟩) hi₃
      fun _ s₄ _ ⟨hk₄, hg₄⟩ => ?_
    refine ⟨by rw [hk₄.same]; exact h₃.job, ⟨⟨?_, ?_⟩, hg₄⟩, fun _ _ => ?_, fun hno => ?_⟩
    · exact fun σ ho => h₃.idle.stripes σ ((hk₄.owner σ).2 ho)
    · rw [hk₄.same]
      exact h₃.idle.debt
    · rw [hk₄.same, hm₃.trace]
      exact hf₂
    · rw [hk₄.same, hm₃.trace, h₂.opened] at hno
      cases hno

theorem wp_lockAll (hi : svc.Base s) (hidle : Idle t s) :
    svc.wp P t (Run.each lock (List.finRange 256))
      (fun _ s' => Progress t s s' ∧ ∀ σ, s'.Owns t σ) s := by
  -- The stripes that are left lie above those that are held.
  refine (wp_each (I := fun rest s' => (rest.Pairwise (· < ·) ∧ ∀ τ, τ ∉ rest → ∀ σ ∈ rest, τ < σ) ∧
    Progress t s s' ∧ ∀ σ, s'.Owns t σ ↔ σ ∉ rest) ?_ _ hi
    ⟨⟨List.pairwise_lt_finRange 256, fun τ hτ => absurd (List.mem_finRange τ) hτ⟩, .refl t s,
      fun σ => ?_⟩).mono fun _ s' h => ⟨h.2.1, fun σ => (h.2.2 σ).2 nofun⟩
  · rintro σ rest s₁ _ ⟨⟨hasc, hbelow⟩, hp, ho⟩
    obtain ⟨hσ, hasc⟩ := List.pairwise_cons.1 hasc
    have hnot : σ ∉ rest := fun hmem => lt_irrefl σ (hσ σ hmem)
    have hlt : ∀ τ, s₁.Owns t τ → τ < σ := fun τ hτ => hbelow τ ((ho τ).1 hτ) σ List.mem_cons_self
    refine (wp_lock σ hlt).mono
      fun _ s₂ ⟨hp₂, ho₂⟩ => ⟨⟨hasc, fun τ hτ ρ hρ => ?_⟩, hp.trans hp₂, fun τ => ?_⟩
    · by_cases heq : τ = σ
      · rw [heq]
        exact hσ ρ hρ
      · exact hbelow τ (by simp [heq, hτ]) ρ (List.mem_cons_of_mem _ hρ)
    · rw [ho₂ τ, ho τ, List.mem_cons, not_or]
      by_cases hτ : τ = σ
      · simp [hτ, hnot]
      · simp [hτ]
  · simp [hidle.stripes σ]

theorem wp_unlockAll (hi : svc.Base s) (ho : ∀ σ, s.Owns t σ) (hd : (s.trace t).debt = {}) :
    svc.wp P t (Run.each unlock (List.finRange 256).reverse) (fun _ s' => Off t s s') s := by
  refine (wp_each (I := fun rest s' => rest.Nodup ∧ Progress t s s' ∧ ∀ σ, s'.Owns t σ ↔ σ ∈ rest)
    ?_ _ hi ⟨List.nodup_reverse.2 (List.nodup_finRange 256), .refl t s, fun σ => ?_⟩).mono
    fun _ s' h => ⟨h.2.1, ⟨fun σ hσ => (nomatch (h.2.2 σ).1 hσ), h.2.1.debt.trans hd⟩⟩
  · rintro σ rest s₁ _ ⟨hnd, hp, ho⟩
    obtain ⟨hσ, hnd⟩ := List.nodup_cons.1 hnd
    refine (wp_unlock ((ho σ).2 List.mem_cons_self)).mono fun _ s₂ ⟨hp₂, ho₂⟩ =>
      ⟨hnd, hp.trans hp₂, fun τ => ?_⟩
    rw [ho₂ τ, ho τ, List.mem_cons]
    by_cases hτ : τ = σ
    · simp [hτ, hσ]
    · simp [hτ]
  · simp [ho σ]

/-- Between the purge of the tiers and the release of the stripes nothing comes back. -/
structure Emptied (t : Nat) (s : World) : Prop where
  owns : ∀ σ, s.Owns t σ
  empty : ∀ tier k, s.find tier k = none

theorem Emptied.rely (h : Emptied t s) (hr : Rely t s s') : Emptied t s' :=
  ⟨fun σ => (hr.owner σ).1 (h.owns σ),
    fun tier k => find_eq_none_of_rely hr (h.owns _) (h.empty tier k)⟩

theorem wp_advanceAll (hi : svc.Base s) (hs : Started t s) (h : Emptied t s) :
    svc.wp P t (Run.each (fun σ => Run.do (.stripe σ .epochAdd)) (List.finRange 256))
      (fun _ s' => Progress t s s' ∧ Emptied t s' ∧
        ∀ σ, (s'.trace t).started.reqs ≤ (s'.past.bump σ).reqs) s := by
  refine (wp_each (I := fun rest s' => Progress t s s' ∧ Emptied t s' ∧
    ∀ σ, σ ∉ rest → (s'.trace t).started.reqs ≤ (s'.past.bump σ).reqs) ?_ _ hi
    ⟨.refl t s, h, fun σ hσ => absurd (List.mem_finRange σ) hσ⟩).mono
    fun _ s' h => ⟨h.1, h.2.1, fun σ => h.2.2 σ nofun⟩
  rintro σ rest s₁ _ ⟨hp, he, hb⟩
  refine (wp_epochAdd (he.owns σ)).mono fun _ s₂ ha => ⟨hp.trans ha.toProgress, ⟨?_, ?_⟩, ?_⟩
  · exact fun τ => (ha.owner τ).1 (he.owns τ)
  · intro tier k
    rw [Option.eq_none_iff_forall_ne_some]
    intro e hf
    obtain ⟨e₀, he₀, -⟩ := ha.within tier k e (he.owns _) hf
    rw [he.empty tier k] at he₀
    cases he₀
  · intro τ hτ
    rw [ha.trace.started]
    by_cases hσ : τ = σ
    · subst hσ
      exact (hs.progress hp).reqs.trans ha.reqs_le
    · refine (hb τ fun hmem => ?_).trans (ha.bump_reqs τ)
      rcases List.mem_cons.1 hmem with rfl | hmem
      · exact hσ rfl
      · exact hτ hmem

theorem wp_purgeProbationary (hi : svc.Base s) (ho : ∀ σ, s.Owns t σ)
    (he : ∀ k, s.find .cache k = none) :
    svc.wp P t (Run.when (svc.hasProbationary = true) (Run.do (.cache .probationary .purge)))
      (fun _ s' => Rely t s s' ∧ Emptied t s') s := by
  refine wp_when (fun _ => (wp_purge ho).mono fun _ s₁ ⟨hr₁, he₁⟩ => ?_) fun hno => ?_
  · refine ⟨hr₁, fun σ => (hr₁.owner σ).1 (ho σ), fun tier k => ?_⟩
    cases tier with
    | cache => exact find_eq_none_of_rely hr₁ (ho _) (he k)
    | probationary => exact he₁ k
  · refine ⟨.refl t s, ho, fun tier k => ?_⟩
    cases tier with
    | cache => exact he k
    | probationary => exact hi.absent (by simpa using hno) k

theorem wp_clearedAll (hj : (s.trace t).job = some (.purgeCache [])) (h : Emptied t s)
    (hb : ∀ σ, (s.trace t).started.reqs ≤ (s.past.bump σ).reqs) :
    svc.wp P t (note .clearedAll)
      (fun _ s' => Marked t
        (fun tr => { tr with clearedAll := true, carried := none }) s s') s := by
  refine wp_note (fun s₁ hr => ?_) fun _ _ => rfl
  have h₁ := h.rely hr
  simp only [Pre, hr.same]
  exact ⟨hj, h₁.empty, fun σ => ⟨h₁.owns σ, (hb σ).trans (hr.bump_reqs σ)⟩⟩

theorem wp_purgeAllCache (hi : svc.Base s) (h : Begun t (.purgeCache []) s) :
    svc.wp P t svc.purgeAllCache (fun _ s' => (s'.trace t).job = some (.purgeCache []) ∧
      AtRest t s' ∧ (s'.trace t).clearedAll = true) s := by
  unfold purgeAllCache
  refine wp.seq (wp_lockAll hi h.idle) hi fun _ s₁ hi₁ ⟨hp₁, ho₁⟩ => ?_
  refine wp.seq (wp_purge ho₁) hi₁ fun _ s₂ hi₂ ⟨hr₂, he₂⟩ => ?_
  have ho₂ : ∀ σ, s₂.Owns t σ := fun σ => (hr₂.owner σ).1 (ho₁ σ)
  refine wp.seq (wp_purgeProbationary hi₂ ho₂ he₂) hi₂ fun _ s₃ hi₃ ⟨hr₃, he₃⟩ => ?_
  have hp₃ := hp₁.trans (hr₂.trans hr₃).toProgress
  refine wp.seq (wp_advanceAll hi₃ (h.started.progress hp₃) he₃) hi₃
    fun _ s₄ hi₄ ⟨hp₄, he₄, hb₄⟩ => ?_
  have hj₄ := (hp₃.trans hp₄).trace.job.trans h.job
  refine wp.seq (wp_clearedAll hj₄ he₄ hb₄) hi₄ fun _ s₅ hi₅ hm₅ => ?_
  have hd₅ : (s₅.trace t).debt = {} := by
    rw [hm₅.trace]
    exact (hp₃.trans hp₄).debt.trans h.idle.debt
  refine (wp_unlockAll hi₅ (fun σ => (hm₅.owner σ).1 (he₄.owns σ)) hd₅).mono
    fun _ s₆ ⟨hp₆, hidle₆⟩ => ?_
  refine ⟨?_, ⟨hidle₆, fun σ hg => h.rest.gates σ ?_⟩, ?_⟩
  · rw [hp₆.trace.job, hm₅.trace]
    exact hj₄
  · exact ((hp₃.trans hp₄).gates σ).2 ((hm₅.gates σ).2 ((hp₆.gates σ).2 hg))
  · rw [hp₆.trace.clearedAll, hm₅.trace]

theorem wp_purgeCall (hi : svc.Base s) (h : Begun t (.purgeCache key) s) :
    svc.wp P t (svc.purgeCache key) (fun r s' =>
      svc.Answered t (.purgeCache key) (.purgeCache r) s') s := by
  unfold purgeCache
  split
  · rename_i hk
    subst hk
    refine wp.seq (wp_purgeAllCache hi h) hi fun _ s₁ hi₁ h₁ => ?_
    obtain ⟨hj, hrest, hc⟩ := h₁
    refine wp.seq (wp_observeCache hi₁) hi₁ fun _ s₂ _ hr₂ => ?_
    refine ⟨by rw [hr₂.same]; exact hj, hrest.of_quiet hr₂.toQuiet, ?_⟩
    simp only [Returns, hr₂.same, if_pos]
    exact hc
  · rename_i hk
    have hinv : Invalidates t [key] s := by
      refine ⟨h.idle, h.started, ?_, fun k hk => .inr ?_⟩
      · obtain ⟨m, htr⟩ := h.trace
        rw [htr]
        simp
      · rw [List.mem_singleton.1 hk]
        exact h.job
    refine wp.seq (wp_invalidateCacheKeys [key] hi hinv (by simp)) hi fun n s₁ hi₁ hc₁ => ?_
    have hj₁ : (s₁.trace t).job = some (.purgeCache key) := hc₁.trace.job.trans h.job
    have hmem : key ∈ (s₁.trace t).cleared := by
      rw [hc₁.trace.cleared]
      exact List.mem_append_left _ (by simp)
    refine wp.seq (wp_forget hmem (.inr hj₁)) hi₁ fun _ s₂ hi₂ hm₂ => ?_
    have hwhen : svc.wp P t (Run.when (n > 0) (record .invalidation))
        (fun _ s' => Rely t s₂ s') s₂ :=
      wp_when (fun _ => wp_record _) fun _ => .refl t s₂
    refine wp.seq hwhen hi₂ fun _ s₃ hi₃ hr₃ => ?_
    refine wp.seq (wp_observeCache hi₃) hi₃ fun _ s₄ _ hr₄ => ?_
    have htr := (hr₃.trans hr₄).same.trans hm₂.trace
    have hrest₂ : AtRest t s₂ := by
      refine ⟨⟨fun σ ho => hc₁.idle.stripes σ ((hm₂.owner σ).2 ho), ?_⟩,
        fun σ hg => h.rest.gates σ ?_⟩
      · rw [hm₂.trace]
        exact hc₁.idle.debt
      · exact (hc₁.gates σ).2 ((hm₂.gates σ).2 hg)
    refine ⟨by rw [htr]; exact hj₁, hrest₂.of_quiet (hr₃.trans hr₄).toQuiet, ?_⟩
    simp only [Returns, htr, if_neg hk]
    exact List.mem_cons_self

theorem wp_followed {transitions : List Hotness.Transition} {s₁ : World} (hi : svc.Base s₁)
    (h : Begun t j s)
    (hm : Marked t (fun tr => { tr with debt := tr.debt.take transitions }) s s₁) :
    svc.wp P t (svc.handleTransitions transitions)
      (fun _ s' => (s'.trace t).job = some j ∧ AtRest t s') s₁ := by
  have hidle := Idle.marked (f := fun d => d.take transitions) h.idle hm
  refine (wp_handleTransitions hi hidle).mono fun _ s₂ ⟨hp₂, hidle₂⟩ => ?_
  have ho := Off.of_passes h.idle.debt ((hm.passes (Trace.extends_debt _ _)).trans hp₂) hidle₂
  exact ⟨ho.1.trace.job.trans h.job, ho.rest h.rest⟩

theorem wp_statusCall (hi : svc.Base s) (h : Begun t .status s) :
    svc.wp P t svc.status (fun r s' => svc.Answered t .status (.status r) s') s := by
  unfold status
  refine wp.seq (wp_tracker fun _ _ => trivial) hi fun transitions s₁ hi₁ hm₁ => ?_
  refine wp.seq (wp_followed hi₁ h hm₁) hi₁ fun _ s₂ hi₂ ⟨hj₂, hrest₂⟩ => ?_
  refine wp.seq (wp_combinedStats hi₂) hi₂ fun st s₃ hi₃ ⟨hr₃, hst⟩ => ?_
  refine wp.seq (wp_record _) hi₃ fun _ s₄ hi₄ hr₄ => ?_
  refine wp.seq (wp_still trivial fun _ _ => trivial) hi₄
    fun tracked s₅ hi₅ hr₅ => ?_
  refine wp.seq (wp_record _) hi₅ fun _ s₆ hi₆ hr₆ => ?_
  refine wp.seq (wp_still trivial fun _ _ => trivial) hi₆
    fun counters s₇ hi₇ hr₇ => ?_
  refine wp.seq (wp_still trivial fun _ _ => trivial) hi₇
    fun pingErr s₈ hi₈ hr₈ => ?_
  refine wp.seq (wp_still trivial fun _ _ => trivial) hi₈
    fun now s₉ _ hr₉ => ?_
  have hr := ((hr₃.trans hr₄).trans (hr₅.trans hr₆)).trans ((hr₇.trans hr₈).trans hr₉)
  exact ⟨by rw [hr.same]; exact hj₂, hrest₂.of_quiet hr.toQuiet, st, hst, rfl, rfl⟩

theorem wp_hotKeysLoop (l : List Hotness.Snapshot) (out : List HotKey) (hi : svc.Base s) :
    svc.wp P t (svc.hotKeysLoop out l) (fun _ s' => Rely t s s') s := by
  induction l generalizing s out with
  | nil => exact .refl t s
  | cons snapshot rest ih =>
    refine wp.seq (wp_still trivial fun _ _ => trivial) hi
      fun cached s₁ hi₁ hr₁ => ?_
    exact (ih _ hi₁).mono fun _ _ hr => hr₁.trans hr

theorem wp_hotKeysCall (hi : svc.Base s) (h : Begun t (.hotKeys limit) s) :
    svc.wp P t (svc.hotKeys limit) (fun r s' =>
      svc.Answered t (.hotKeys limit) (.hotKeys r) s') s := by
  unfold hotKeys
  refine wp.seq (wp_tracker fun _ _ => trivial) hi fun view s₁ hi₁ hm₁ => ?_
  refine wp.seq (wp_followed hi₁ h hm₁) hi₁ fun _ s₂ hi₂ ⟨hj₂, hrest₂⟩ => ?_
  refine (wp_hotKeysLoop _ [] hi₂).mono fun r s₃ hr₃ => ?_
  exact ⟨by rw [hr₃.same]; exact hj₂, hrest₂.of_quiet hr₃.toQuiet, trivial⟩

theorem wp_auditCall (hi : svc.Base s) (h : Begun t (.audit limit) s) :
    svc.wp P t (svc.audit limit) (fun r s' => svc.Answered t (.audit limit) (.audit r) s') s := by
  unfold audit
  refine wp.seq (wp_tracker fun _ _ => trivial) hi fun view s₁ hi₁ hm₁ => ?_
  refine wp.seq (wp_followed hi₁ h hm₁) hi₁ fun _ s₂ hi₂ ⟨hj₂, hrest₂⟩ => ?_
  refine wp.seq (wp_still trivial fun _ _ => trivial) hi₂ fun now s₃ _ hr₃ => ?_
  exact ⟨by rw [hr₃.same]; exact hj₂, hrest₂.of_quiet hr₃.toQuiet, trivial⟩

theorem wp_cacheInfoCall (hi : svc.Base s) (h : Begun t .cacheInfo s) :
    svc.wp P t svc.cacheInfo (fun r s' => svc.Answered t .cacheInfo (.cacheInfo r) s') s := by
  unfold cacheInfo
  refine wp.seq (wp_combinedStats hi) hi fun st s₁ hi₁ ⟨hr₁, hst⟩ => ?_
  refine wp.seq (wp_record _) hi₁ fun _ s₂ _ hr₂ => ?_
  have hr := hr₁.trans hr₂
  exact ⟨by rw [hr.same]; exact h.job, h.rest.of_quiet hr.toQuiet, st, hst, rfl⟩

theorem wp_passThroughCall (hi : svc.Base s) (h : Begun t (.passThrough command args) s) :
    svc.wp P t (passThrough command args) (fun r s' =>
      svc.Answered t (.passThrough command args) (.passThrough r) s') s := by
  unfold passThrough
  refine wp.seq (wp_still trivial fun _ _ => trivial) hi
    fun r s₁ hi₁ hr₁ => ?_
  refine wp.seq (wp_record _) hi₁ fun _ s₂ _ hr₂ => ?_
  have hr := hr₁.trans hr₂
  exact ⟨by rw [hr.same]; exact h.job, h.rest.of_quiet hr.toQuiet, trivial⟩

theorem wp_closeCall (hi : svc.Base s) (h : Begun t .close s) :
    svc.wp P t svc.close (fun _ s' => svc.Answered t .close .close s') s := by
  have hdone : ∀ s', Rely t s s' → svc.Answered t .close .close s' := by
    intro s' hr
    exact ⟨by rw [hr.same]; exact h.job, h.rest.of_quiet hr.toQuiet, trivial⟩
  have htier : ∀ (tier : Tier) (s : World), svc.wp P t (Run.do (.cache tier .close))
      (fun _ s' => Rely t s s') s := fun tier s =>
    wp_still trivial fun _ _ => trivial
  unfold close
  refine wp.seq (wp_still trivial fun _ _ => trivial) hi
    fun swapped s₁ hi₁ hr₁ => ?_
  split
  · refine wp.seq (htier .cache s₁) hi₁ fun _ s₂ hi₂ hr₂ => ?_
    have hwhen : svc.wp P t (Run.when (svc.hasProbationary = true)
        (Run.do (.cache .probationary .close))) (fun _ s' => Rely t s₂ s') s₂ :=
      wp_when (fun _ => htier .probationary s₂) fun _ => .refl t s₂
    refine wp.seq hwhen hi₂ fun _ s₃ _ hr₃ => ?_
    have hclose : svc.wp P t (Run.do (.upstream .close)) (fun _ s' => Rely t s₃ s') s₃ :=
      wp_still trivial fun _ _ => trivial
    exact hclose.mono fun _ s₄ hr₄ => hdone s₄ ((hr₁.trans hr₂).trans (hr₃.trans hr₄))
  · exact hdone s₁ hr₁

theorem wp_perform (hj : ∀ f key, j ≠ .flight f key) (hi : svc.Base s) (h : Begun t j s) :
    svc.wp P t (svc.perform j) (fun reply s' => svc.Answered t j reply s') s := by
  cases j with
  | get key => exact wp.seq (wp_getCall hi h.reading) hi fun _ _ _ hx => hx
  | mget keys => exact wp.seq (wp_mgetCall hi h.reading) hi fun _ _ _ hx => hx
  | executeWrite command args keys => exact wp.seq (wp_executeWrite hi h) hi fun _ _ _ hx => hx
  | passThrough command args => exact wp.seq (wp_passThroughCall hi h) hi fun _ _ _ hx => hx
  | status => exact wp.seq (wp_statusCall hi h) hi fun _ _ _ hx => hx
  | hotKeys limit => exact wp.seq (wp_hotKeysCall hi h) hi fun _ _ _ hx => hx
  | audit limit => exact wp.seq (wp_auditCall hi h) hi fun _ _ _ hx => hx
  | cacheInfo => exact wp.seq (wp_cacheInfoCall hi h) hi fun _ _ _ hx => hx
  | purgeCache key => exact wp.seq (wp_purgeCall hi h) hi fun _ _ _ hx => hx
  | close => exact wp.seq (wp_closeCall hi h) hi fun _ _ _ hx => hx
  | flight f key => exact absurd rfl (hj f key)

theorem Returns.rely (h : svc.Returns s t j reply) (hr : Rely t s s') :
    svc.Returns s' t j reply := by
  cases j with
  | get key =>
    cases reply with
    | get r =>
      cases r with
      | ok a =>
        simp only [Returns, hr.same]
        exact h
      | error e =>
        simp only [Returns, hr.same]
        intro hne
        refine (h hne).imp_right fun ⟨hf, hk⟩ => ⟨hf, hk.imp_right fun ⟨hk, hc⟩ => ⟨hk, ?_⟩⟩
        exact hr.contexts e hc
    | _ => trivial
  | mget keys =>
    cases reply with
    | mget r =>
      cases r with
      | ok l =>
        simp only [Returns, hr.same]
        exact h
      | error e => trivial
    | _ => trivial
  | executeWrite command args keys =>
    simp only [Returns, hr.same] at h ⊢
    exact h
  | purgeCache key =>
    simp only [Returns, hr.same] at h ⊢
    exact h
  | status | cacheInfo => cases reply <;> exact h
  | passThrough | hotKeys | audit | close | flight => trivial

theorem wp_call (hj : ∀ f key, j ≠ .flight f key) (hi : svc.Base s) (hu : Unstarted t s) :
    svc.wp P t (svc.call j) (fun _ s' => AtRest t s') s := by
  unfold call
  have hf : ∀ f k, j = .flight f k → s.FlightOf f k := fun f k h => absurd h (hj f k)
  refine wp.seq (wp_start hu.trace hf) hi fun _ s₁ hi₁ ⟨m, h₁, hv, hq⟩ => ?_
  have hb₁ : Begun t j s₁ := ⟨hu.rest h₁, .of_start h₁ hv hq, m, h₁.trace⟩
  refine wp.seq (wp_perform hj hi₁ hb₁) hi₁ fun reply s₂ _ hx => ?_
  exact wp_finish hx.job (fun s₃ hr => Returns.rely hx.returns hr) hx.rest

theorem base_init (content : Key → Option Bytes) : svc.Base (svc.init content) where
  bump_version := fun _ => le_rfl
  bump_reqs := fun _ => le_rfl
  wf := fun tier => by cases tier <;> exact Cache.wf_new _ _
  limits := fun _ => rfl
  group := nofun
  nonempty := fun tier => by cases tier <;> rfl
  tracker := Hotness.Tracker.rep_new _ _

theorem verified (P : svc.machine.Rules) (hP : ∀ p, P.entry p → svc.IsCall p)
    (content : Key → Option Bytes) : (svc.outline P).Verified (svc.init content) where
  init := base_init content
  fresh := fun _ => ⟨rfl, nofun, nofun⟩
  entry := by
    intro p hp u s hi hu
    obtain ⟨job, hj, rfl⟩ := hP p hp
    exact wp_call hj hi hu
  ready := fun _ _ _ hi hu h => wp_flight hi hu h

end Slizen.Service
