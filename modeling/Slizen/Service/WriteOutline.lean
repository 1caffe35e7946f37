import Slizen.Service.MGetOutline

namespace Slizen.Service
set_option autoImplicit true

open Interleaving Outline

variable {svc : Service} {P : svc.machine.Rules} {s : World} {t : Nat}

theorem wp_each {f : α → Run Unit} {I : List α → World → Prop}
    (hstep : ∀ x rest s, svc.Base s → I (x :: rest) s → svc.wp P t (f x) (fun _ s' => I rest s') s)
    (l : List α) (hi : svc.Base s) (h : I l s) :
    svc.wp P t (Run.each f l) (fun _ s' => I [] s') s := by
  induction l generalizing s with
  | nil => exact h
  | cons x rest ih => exact wp.seq (hstep x rest s hi h) hi fun _ s₁ hi₁ h₁ => ih hi₁ h₁

structure Kept (t : Nat) (s s' : World) : Prop extends Grows t s s' where
  owner : ∀ τ, s.Owns t τ ↔ s'.Owns t τ
  same : s'.trace t = s.trace t

theorem Kept.refl (t : Nat) (s : World) : Kept t s s := ⟨.refl t s, fun _ => .rfl, rfl⟩

theorem Kept.trans (h : Kept t s₁ s₂) (h' : Kept t s₂ s₃) : Kept t s₁ s₃ :=
  ⟨h.toGrows.trans h'.toGrows, fun τ => (h.owner τ).trans (h'.owner τ), h'.same.trans h.same⟩

theorem Kept.of_rely (h : Rely t s s') : Kept t s s' := ⟨h.toGrows, h.owner, h.same⟩

theorem kept_of_gate {op : GateOp} {b : op.Resp} {s₁ s₂ : World}
    (he : World.exec t (.gate σ op) c s₁ = some (b, s₂)) :
    Kept t s₁ s₂ ∧ ∀ τ, τ ≠ σ → s₂.gates τ = s₁.gates τ := by
  have hb := World.exec_bump he nofun
  obtain ⟨g, -, rfl⟩ := World.exec_gate he
  refine ⟨⟨⟨le_rfl, le_rfl, fun _ => le_rfl, fun τ => ?_, fun τ => ?_, fun τ _ => ?_, fun _ h => h,
    fun _ _ h => h⟩, fun _ => .rfl, ?_⟩, fun τ hτ => by simp [hτ]⟩
  · rw [hb]
  · rw [hb]
  · rw [hb]
  · rw [World.trace, Past.record_trace_self]
    rfl

structure Unsent (t : Nat) (s : World) : Prop where
  dispatched : (s.trace t).dispatched = none
  gated : (s.trace t).gated = none
  job : ∃ command args keys, (s.trace t).job = some (.executeWrite command args keys)
  stripes : ∀ σ, ¬ s.Owns t σ

theorem Unsent.kept (h : Unsent t s) (hk : Kept t s s') : Unsent t s' := by
  refine ⟨?_, ?_, ?_, fun σ ho => h.stripes σ ((hk.owner σ).2 ho)⟩ <;> rw [hk.same]
  · exact h.dispatched
  · exact h.gated
  · exact h.job

theorem wp_send (σ : Stripe) (h : Unsent t s) (hasc : ∀ τ, s.gates τ = some t → τ < σ) :
    svc.wp P t (Run.do (.gate σ .send)) (fun r s' => Kept t s s' ∧
      ∀ τ, s'.gates τ = some t ↔ s.gates τ = some t ∨ r = none ∧ τ = σ) s := by
  refine wp_do (fun _ => rfl) fun s₁ hr _ => ⟨?_, fun c b s₂ he => ?_⟩
  · have h₁ := h.kept (.of_rely hr)
    exact ⟨h₁.dispatched, h₁.job, h₁.stripes, fun τ hg => hasc τ ((hr.gates τ).2 hg)⟩
  obtain ⟨hk, hother⟩ := kept_of_gate he
  refine ⟨(Kept.of_rely hr).trans hk, fun τ => ?_⟩
  rw [hr.gates τ]
  by_cases hτ : τ = σ
  · subst hτ
    obtain ⟨g, hg, rfl⟩ := World.exec_gate he
    simp only [GateOp.run] at hg
    split at hg
    · obtain ⟨e, -, heq⟩ := Option.map_eq_some_iff.1 hg
      cases heq
      simp
    · obtain ⟨-, heq⟩ := Option.ite_none_right_eq_some.1 hg
      cases heq
      simp
  · simp [hother τ hτ, hτ]

theorem wp_receive {σ : Stripe} (hg : s.gates σ = some t) (hn : (s.trace t).gated = none) :
    svc.wp P t (Run.do (.gate σ .receive)) (fun _ s' => Kept t s s' ∧
      ∀ τ, s'.gates τ = some t ↔ s.gates τ = some t ∧ τ ≠ σ) s := by
  refine wp_do (fun _ => rfl)
    fun s₁ hr _ => ⟨⟨(hr.gates σ).1 hg, by rw [hr.same, hn]⟩, fun c b s₂ he => ?_⟩
  obtain ⟨hk, hother⟩ := kept_of_gate he
  refine ⟨(Kept.of_rely hr).trans hk, fun τ => ?_⟩
  rw [hr.gates τ]
  by_cases hτ : τ = σ
  · subst hτ
    obtain ⟨g, hg, rfl⟩ := World.exec_gate he
    obtain ⟨-, heq⟩ := Option.ite_none_left_eq_some.1 hg
    cases heq
    simp
  · simp [hother τ hτ, hτ]

/-- The goroutine holds these gates, each once, and no other, and may give them back. -/
structure Gated (t : Nat) (l : List Stripe) (s : World) : Prop where
  nodup : l.Nodup
  gates : ∀ σ, s.gates σ = some t ↔ σ ∈ l
  gated : (s.trace t).gated = none

theorem Gated.rely (h : Gated t l s) (hr : Rely t s s') : Gated t l s' :=
  ⟨h.nodup, fun σ => (hr.gates σ).symm.trans (h.gates σ), by rw [hr.same]; exact h.gated⟩

theorem wp_releaseMutationStripes {l : List Stripe} (hi : svc.Base s) (hl : Gated t l s) :
    svc.wp P t (releaseMutationStripes l)
      (fun _ s' => Kept t s s' ∧ ∀ σ, s'.gates σ ≠ some t) s := by
  have hrev : Gated t l.reverse s :=
    ⟨List.nodup_reverse.2 hl.nodup, fun σ => (hl.gates σ).trans List.mem_reverse.symm, hl.gated⟩
  refine (wp_each (I := fun rest s' => Kept t s s' ∧ Gated t rest s') ?_ l.reverse hi
    ⟨.refl t s, hrev⟩).mono fun _ _ h => ⟨h.1, fun σ hg => nomatch (h.2.gates σ).1 hg⟩
  rintro σ rest s₁ _ ⟨hk, hg⟩
  obtain ⟨hσ, hnd⟩ := List.nodup_cons.1 hg.nodup
  refine (wp_receive ((hg.gates σ).2 List.mem_cons_self) hg.gated).mono fun _ s₂ ⟨hk₂, hg₂⟩ => ?_
  refine ⟨hk.trans hk₂, hnd, fun τ => ?_, by rw [hk₂.same]; exact hg.gated⟩
  rw [hg₂ τ, hg.gates τ, List.mem_cons]
  by_cases hτ : τ = σ
  · simp [hτ, hσ]
  · simp [hτ]

/-- How the acquisition ends: with all gates, or with an error and none. -/
structure Acquired (t : Nat) (l : List Stripe) (r : Except Error (List Stripe)) (s : World) :
    Prop where
  ok : ∀ l', r = .ok l' → l' = l ∧ Gated t l s
  error : ∀ e, r = .error e → ∀ σ, s.gates σ ≠ some t

theorem wp_abandon {acquired : List Stripe} (hi : svc.Base s) (hl : Gated t acquired s) (e : Error)
    (l : List Stripe) :
    svc.wp P t (releaseMutationStripes acquired >>= fun _ =>
      pure (.error e : Except Error (List Stripe)))
        (fun r s' => Kept t s s' ∧ Acquired t l r s') s :=
  wp.seq (wp_releaseMutationStripes hi hl) hi fun _ _ _ ⟨hk, hg⟩ => ⟨hk, nofun, fun _ _ => hg⟩

theorem wp_acquireMutationStripes (rest : List Stripe) {acquired : List Stripe} (hi : svc.Base s)
    (h : Unsent t s) (hasc : (acquired ++ rest).Pairwise (· < ·)) (hg : Gated t acquired s) :
    svc.wp P t (acquireMutationStripes acquired rest)
      (fun r s' => Kept t s s' ∧ Acquired t (acquired ++ rest) r s') s := by
  induction rest generalizing s acquired with
  | nil =>
    refine ⟨.refl t s, fun l hl => ?_, nofun⟩
    cases hl
    rw [List.append_nil]
    exact ⟨rfl, hg⟩
  | cons σ rest ih =>
    unfold acquireMutationStripes
    refine wp.seq wp_ctxErr hi fun err s₁ hi₁ ⟨hr₁, _⟩ => ?_
    have hk₁ := Kept.of_rely hr₁
    have hg₁ := hg.rely hr₁
    cases err with
    | some e => exact (wp_abandon hi₁ hg₁ e _).mono fun r s' ⟨hk, ha⟩ => ⟨hk₁.trans hk, ha⟩
    | none =>
      have hbelow : ∀ τ, s₁.gates τ = some t → τ < σ := fun τ hτ =>
        (List.pairwise_append.1 hasc).2.2 τ ((hg₁.gates τ).1 hτ) σ List.mem_cons_self
      refine wp.seq (wp_send σ (h.kept hk₁) hbelow) hi₁ fun err s₂ hi₂ ⟨hk₂, hg₂⟩ => ?_
      have hk := hk₁.trans hk₂
      cases err with
      | some e =>
        have hsame : Gated t acquired s₂ :=
          ⟨hg.nodup, fun τ => (hg₂ τ).trans (by simp [hg₁.gates τ]), (h.kept hk).gated⟩
        exact (wp_abandon hi₂ hsame e _).mono fun r s' ⟨hk', ha⟩ => ⟨hk.trans hk', ha⟩
      | none =>
        have hassoc : acquired ++ [σ] ++ rest = acquired ++ σ :: rest := by simp
        rw [← hassoc] at hasc ⊢
        have hmore : Gated t (acquired ++ [σ]) s₂ :=
          ⟨(List.pairwise_append.1 hasc).1.imp ne_of_lt,
            fun τ => (hg₂ τ).trans (by simp [hg₁.gates τ]), (h.kept hk).gated⟩
        exact (ih hi₂ (h.kept hk) hasc hmore).mono fun r s' ⟨hk', ha⟩ => ⟨hk.trans hk', ha⟩

/-- The epoch of the stripe has moved since the call started, and since its write was sent. -/
def Fenced (t : Nat) (σ : Stripe) (s : World) : Prop :=
  (s.trace t).started.reqs ≤ (s.past.bump σ).reqs ∧
    ∀ d, (s.trace t).dispatched = some d → d.version ≤ (s.past.bump σ).version

theorem Fenced.grows (h : Fenced t σ s) (hg : Grows t s s')
    (hs : (s'.trace t).started = (s.trace t).started)
    (hd : (s'.trace t).dispatched = (s.trace t).dispatched) : Fenced t σ s' := by
  unfold Fenced
  rw [hs, hd]
  exact ⟨h.1.trans (hg.bump_reqs σ), fun d hd => (h.2 d hd).trans (hg.bump_version σ)⟩

theorem Fenced.progress (h : Fenced t σ s) (hp : Progress t s s') : Fenced t σ s' :=
  h.grows hp.toGrows hp.trace.started hp.trace.dispatched

structure Invalidates (t : Nat) (keys : List Key) (s : World) : Prop where
  idle : Idle t s
  started : Started t s
  dispatched : ∀ d, (s.trace t).dispatched = some d → d.version ≤ s.origin.version
  job : ∀ k ∈ keys, (k ∈ (s.trace t).writeKeys ∧ s.gates (cacheEpochStripe k) = some t) ∨
    (s.trace t).job = some (.purgeCache k)

theorem Invalidates.fenced (h : Invalidates t keys s) (hp : Progress t s s₁)
    (ha : Advanced t σ s₁ s₂) : Fenced t σ s₂ := by
  unfold Fenced
  rw [ha.trace.started, ha.trace.dispatched, hp.trace.started, hp.trace.dispatched]
  exact ⟨(h.started.reqs.trans hp.reqs).trans ha.reqs_le,
    fun d hd => ((h.dispatched d hd).trans hp.version).trans ha.version_le⟩

structure Clearing (t : Nat) (keys : List Key) (s s' : World) : Prop extends Grows t s s' where
  idle : Idle t s'
  gates : ∀ σ, s.gates σ = some t ↔ s'.gates σ = some t
  trace : ({ s.trace t with cleared := keys ++ (s.trace t).cleared } : Trace).Extends (s'.trace t)

theorem Clearing.refl (h : Idle t s) : Clearing t [] s s := ⟨.refl t s, h, fun _ => .rfl, .refl _⟩

theorem Trace.Extends.clear {tr tr' : Trace} (h : tr.Extends tr') (keys : List Key) :
    ({ tr with cleared := keys ++ tr.cleared } : Trace).Extends
      { tr' with cleared := keys ++ tr'.cleared } where
  job := h.job
  started := h.started
  fetches := h.fetches
  opened := h.opened
  window := h.window
  dispatched := h.dispatched
  wrote := h.wrote
  cleared := congrArg (keys ++ ·) h.cleared
  clearedAll := h.clearedAll
  forgotten := h.forgotten
  joined := h.joined
  seen := h.seen

theorem Clearing.trans (h : Clearing t l₁ s₁ s₂) (h' : Clearing t l₂ s₂ s₃) :
    Clearing t (l₂ ++ l₁) s₁ s₃ where
  toGrows := h.toGrows.trans h'.toGrows
  idle := h'.idle
  gates := fun σ => (h.gates σ).trans (h'.gates σ)
  trace := by
    rw [List.append_assoc]
    exact (Trace.Extends.clear h.trace l₂).trans h'.trace

theorem Clearing.of_note (hp : Progress t s s₁)
    (hm : Marked t (fun tr => { tr with cleared := key :: tr.cleared, carried := none }) s₁ s₂)
    (hp' : Progress t s₂ s₃) (hidle : Idle t s₃) : Clearing t [key] s s₃ where
  toGrows := hp.toGrows.trans (hm.toGrows.trans hp'.toGrows)
  idle := hidle
  gates := fun σ => (hp.gates σ).trans ((hm.gates σ).trans (hp'.gates σ))
  trace := by
    refine Trace.Extends.trans ?_ hp'.trace
    rw [hm.trace]
    have h := Trace.Extends.clear hp.trace [key]
    exact ⟨h.1, h.2, h.3, h.4, h.5, h.6, h.7, h.8, h.9, h.10, h.11, h.12⟩

theorem Invalidates.clearing {keys : List Key} (h : Invalidates t keys s) (hc : Clearing t l s s')
    (hsub : ∀ k ∈ keys', k ∈ keys) : Invalidates t keys' s' where
  idle := hc.idle
  started := h.started.grows hc.toGrows hc.trace.job hc.trace.started
  dispatched := by
    rw [hc.trace.dispatched]
    exact fun d hd => (h.dispatched d hd).trans hc.version
  job := by
    rw [hc.trace.writeKeys, hc.trace.job]
    exact fun k hk => (h.job k (hsub k hk)).imp_left fun hw => ⟨hw.1, (hc.gates _).1 hw.2⟩

theorem Invalidates.clears (h : Invalidates t [key] s) (hp : Progress t s s')
    (hh : Holds t (cacheEpochStripe key) s') (hf : Fenced t (cacheEpochStripe key) s')
    (he : ∀ tier e, s'.find tier key = some e →
      ∃ d, (s'.trace t).dispatched = some d ∧ e.value.source = .write d.reqs d.version) :
    ∀ s₁, Rely t s' s₁ → Clears s₁ t key := by
  intro s₁ hr
  have hf₁ := hf.progress hr.toProgress
  refine ⟨(hr.owner _).1 hh.owns, hf₁.1, hf₁.2, fun tier e hfind => ?_, ?_⟩
  · obtain ⟨e₀, he₀, hsame⟩ := hr.within tier key e hh.owns hfind
    rw [hr.same, hsame.value]
    exact he tier e₀ he₀
  · have hp₁ := hp.trans hr.toProgress
    rw [hp₁.trace.writeKeys, hp₁.trace.job]
    exact (h.job key (List.mem_singleton_self key)).imp_left fun hw => ⟨hw.1, (hp₁.gates _).1 hw.2⟩

theorem Holds.cleared (h : Holds t σ s)
    (hm : Marked t (fun tr => { tr with cleared := key :: tr.cleared, carried := none }) s s') :
    Holds t σ s' :=
  ⟨fun τ => (hm.owner τ).symm.trans (h.owner τ), by rw [hm.trace]; exact h.debt⟩

theorem wp_invalidateCacheKey (hi : svc.Base s) (h : Invalidates t [key] s) (advance : Bool)
    (hadv : advance = false → Fenced t (cacheEpochStripe key) s) :
    svc.wp P t (svc.invalidateCacheKey key advance)
      (fun _ s' => Clearing t [key] s s' ∧ Fenced t (cacheEpochStripe key) s') s := by
  unfold invalidateCacheKey
  refine wp.seq (wp_lock_idle _ h.idle) hi fun _ s₁ hi₁ ⟨hp₁, hh₁⟩ => ?_
  have hwhen : svc.wp P t
    (Run.when (advance = true) (Run.do (.stripe (cacheEpochStripe key) .epochAdd)))
      (fun _ s' => Progress t s₁ s' ∧ Holds t (cacheEpochStripe key) s' ∧
        Fenced t (cacheEpochStripe key) s') s₁ := by
    refine wp_when (fun _ => (wp_epochAdd hh₁.owns).mono fun _ s' ha => ?_) fun hn => ?_
    · exact ⟨ha.toProgress, hh₁.progress ha.toProgress ha.owner, h.fenced hp₁ ha⟩
    · exact ⟨.refl t s₁, hh₁, (hadv (Bool.eq_false_of_not_eq_true hn)).progress hp₁⟩
  refine wp.seq hwhen hi₁ fun _ s₂ hi₂ ⟨hp₂, hh₂, hf₂⟩ => ?_
  refine wp.seq (wp_delete hh₂.owns) hi₂ fun _ s₃ hi₃ ⟨hr₃, hnone₃⟩ => ?_
  have hh₃ := hh₂.of_quiet hr₃.toQuiet
  refine wp.seq (wp_deleteProbationary hi₃ hh₃.owns) hi₃ fun _ s₄ hi₄ ⟨hr₄, hnone₄⟩ => ?_
  have hh₄ := hh₃.of_quiet hr₄.toQuiet
  have hf₄ := hf₂.progress (hr₃.trans hr₄).toProgress
  have hp₄ := (hp₁.trans hp₂).trans (hr₃.trans hr₄).toProgress
  have hgone : ∀ tier e, s₄.find tier key = some e →
      ∃ d, (s₄.trace t).dispatched = some d ∧ e.value.source = .write d.reqs d.version := by
    intro tier e he
    cases tier with
    | cache =>
      rw [find_eq_none_of_rely hr₄ hh₃.owns hnone₃] at he
      cases he
    | probationary =>
      rw [hnone₄] at he
      cases he
  refine wp.seq (wp_cleared (h.clears hp₄ hh₄ hf₄ hgone)) hi₄ fun _ s₅ hi₅ hm₅ => ?_
  have hh₅ := Holds.cleared hh₄ hm₅
  have hf₅ := hf₄.grows hm₅.toGrows (by rw [hm₅.trace]) (by rw [hm₅.trace])
  refine wp.seq (wp_unlock_holds hh₅) hi₅ fun _ s₆ _ ⟨hp₆, hidle₆⟩ => ?_
  exact ⟨.of_note hp₄ hm₅ hp₆ hidle₆, hf₅.progress hp₆⟩

theorem wp_invalidateCacheKeys (keys : List Key) {advanced : List Stripe} {n : Nat}
    (hi : svc.Base s) (h : Invalidates t keys s) (hadv : ∀ σ ∈ advanced, Fenced t σ s) :
    svc.wp P t (svc.invalidateCacheKeys advanced n keys)
      (fun _ s' => Clearing t keys.reverse s s') s := by
  induction keys generalizing s advanced n with
  | nil => exact .refl h.idle
  | cons key keys ih =>
    unfold invalidateCacheKeys
    have hone : Invalidates t [key] s := by
      refine ⟨h.idle, h.started, h.dispatched, fun k hk => h.job k ?_⟩
      rw [List.mem_singleton.1 hk]
      exact List.mem_cons_self
    refine wp.seq (wp_invalidateCacheKey hi hone _ fun hf => hadv _ ?_) hi
      fun _ s₁ hi₁ ⟨hc, hf⟩ => ?_
    · simpa using hf
    · have hadv₁ : ∀ σ ∈ cacheEpochStripe key :: advanced, Fenced t σ s₁ := by
        intro σ hσ
        rcases List.mem_cons.1 hσ with rfl | hσ
        · exact hf
        · exact (hadv σ hσ).grows hc.toGrows hc.trace.started hc.trace.dispatched
      refine (ih hi₁ (h.clearing hc fun k hk => List.mem_cons_of_mem _ hk) hadv₁).mono
        fun _ s₂ hc₂ => ?_
      rw [List.reverse_cons]
      exact hc.trans hc₂

theorem wp_takeCandidate (hi : svc.Base s) (ho : s.Owns t (cacheEpochStripe key)) :
    svc.wp P t (svc.takeCandidate key)
      (fun _ s' => Rely t s s' ∧ s'.find .probationary key = none) s := by
  unfold takeCandidate
  split
  · refine wp.seq (wp_still trivial fun _ _ => trivial) hi
      fun _ s₁ hi₁ hr₁ => ?_
    exact wp.seq (wp_delete ((hr₁.owner _).1 ho)) hi₁ fun _ s₂ _ h => ⟨hr₁.trans h.1, h.2⟩
  · rename_i hp
    exact ⟨.refl t s, hi.absent (by simpa using hp) key⟩

structure Acknowledged (t : Nat) (key : Key) (value : Blob) (d : Moment) (s : World) : Prop where
  dispatched : (s.trace t).dispatched = some d
  wrote : (s.trace t).wrote = some (key, value.bytes)
  source : value.source = .write d.reqs d.version
  gate : s.gates (cacheEpochStripe key) = some t
  key : key ∈ (s.trace t).writeKeys

theorem Acknowledged.progress (h : Acknowledged t k value d s) (hp : Progress t s s') :
    Acknowledged t k value d s' where
  dispatched := hp.trace.dispatched.trans h.dispatched
  wrote := hp.trace.wrote.trans h.wrote
  source := h.source
  gate := (hp.gates _).1 h.gate
  key := by
    rw [hp.trace.writeKeys]
    exact h.key

theorem wp_cachedHot (key : Key) : svc.wp P t (svc.cachedHot key)
    (fun hot s' => Rely t s s' ∧ (hot = true → (svc.policy key).mode = .cache ∧
      s'.HotBut t key ∧ Hotness.Tracker.Trackable key)) s := by
  unfold cachedHot
  split
  · rename_i hm
    exact (wp_isHot key).mono fun _ _ h => ⟨h.1, fun hot => ⟨hm, h.2 hot⟩⟩
  · exact ⟨.refl t s, nofun⟩

theorem wp_writeThrough {k : Key} (hi : svc.Base s) (hh : Holds t (cacheEpochStripe k) s)
    (ha : Acknowledged t k value d s) (hnone : s.find .probationary k = none)
    (present probationary : Bool) :
    svc.wp P t (svc.writeThrough k value present probationary) (fun _ s' => Progress t s s' ∧
      Holds t (cacheEpochStripe k) s' ∧
      ∀ tier e, s'.find tier k = some e → e.value.source = .write d.reqs d.version) s := by
  unfold writeThrough
  refine wp.seq (wp_cachedHot k) hi fun hot s₁ hi₁ ⟨hr₁, hmode⟩ => ?_
  have hh₁ := hh.of_quiet hr₁.toQuiet
  have hnone₁ := find_eq_none_of_rely hr₁ hh.owns hnone
  split
  · rename_i hyes
    obtain ⟨hmode, hhot, hk⟩ := hmode hyes
    have hpttl : value.source.pttl = -1 := by
      rw [ha.source]
      rfl
    have hinst : ∀ s₂, Rely t s₁ s₂ → svc.Installs s₂ t k (⟨value, true, -1⟩ : Value).data := by
      intro s₂ hr₂
      have ha₂ := ha.progress (hr₁.trans hr₂).toProgress
      exact ⟨hmode, .inr ⟨d, ha₂.dispatched, ha₂.wrote, ha₂.source, ha₂.gate, ha₂.key⟩⟩
    refine wp.seq (wp_storeIn hi₁ hh₁ hinst hk hpttl le_rfl nofun hnone₁ fun _ => hhot) hi₁
      fun _ s₂ _ h₂ => ?_
    refine ⟨hr₁.toProgress.trans h₂.toProgress, hh₁.progress h₂.toProgress h₂.owner, ?_⟩
    intro tier e he
    cases tier with
    | cache =>
      rw [h₂.found e he]
      exact ha.source
    | probationary =>
      obtain ⟨e₀, he₀, -⟩ := h₂.other .probationary e nofun he
      rw [hnone₁] at he₀
      cases he₀
  · refine wp.seq (wp_delete hh₁.owns) hi₁ fun _ s₂ _ ⟨hr₂, hnone₂⟩ => ?_
    refine ⟨(hr₁.trans hr₂).toProgress, hh₁.of_quiet hr₂.toQuiet, ?_⟩
    intro tier e he
    cases tier with
    | cache =>
      rw [hnone₂] at he
      cases he
    | probationary =>
      rw [find_eq_none_of_rely hr₂ hh₁.owns hnone₁] at he
      cases he

theorem wp_writeThroughSet {k : Key} (hi : svc.Base s) (h : Invalidates t [k] s)
    (ha : Acknowledged t k value d s) :
    svc.wp P t (svc.writeThroughSet k value) (fun _ s' => Clearing t [k] s s') s := by
  unfold writeThroughSet
  refine wp.seq (wp_lock_idle _ h.idle) hi fun _ s₁ hi₁ ⟨hp₁, hh₁⟩ => ?_
  refine wp.seq (wp_epochAdd hh₁.owns) hi₁ fun _ s₂ hi₂ ha₂ => ?_
  have hh₂ := hh₁.progress ha₂.toProgress ha₂.owner
  have hf₂ := h.fenced hp₁ ha₂
  refine wp.seq (wp_still trivial fun _ _ => trivial) hi₂
    fun present s₃ hi₃ hr₃ => ?_
  have hh₃ := hh₂.of_quiet hr₃.toQuiet
  refine wp.seq (wp_takeCandidate hi₃ hh₃.owns) hi₃ fun probationary s₄ hi₄ ⟨hr₄, hnone₄⟩ => ?_
  have hp₄ := (hp₁.trans ha₂.toProgress).trans (hr₃.trans hr₄).toProgress
  refine wp.seq (wp_writeThrough hi₄ (hh₃.of_quiet hr₄.toQuiet) (ha.progress hp₄) hnone₄ _ _) hi₄
    fun _ s₅ hi₅ ⟨hp₅, hh₅, he₅⟩ => ?_
  have hp := hp₄.trans hp₅
  have hf₅ := hf₂.progress ((hr₃.trans hr₄).toProgress.trans hp₅)
  have hclears := h.clears hp hh₅ hf₅ fun tier e he =>
    ⟨d, hp.trace.dispatched.trans ha.dispatched, he₅ tier e he⟩
  refine wp.seq (wp_cleared hclears) hi₅ fun _ s₆ hi₆ hm₆ => ?_
  exact wp.seq (wp_unlock_holds (Holds.cleared hh₅ hm₆)) hi₆
    fun _ s₇ _ ⟨hp₇, hidle₇⟩ => .of_note hp hm₆ hp₇ hidle₇

end Slizen.Service
