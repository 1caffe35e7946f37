import Slizen.Service.GetOutline

namespace Slizen.Service
set_option autoImplicit true

open Interleaving Outline

variable {svc : Service} {P : svc.machine.Rules} {s : World} {t : Nat} {all : List Key}

def Hit (svc : Service) (t : Nat) (k : Key) (a : Answer) (s : World) : Prop :=
  ⟨a.via, k, a.value⟩ ∈ (s.trace t).seen ∧ (svc.policy k).mode = .cache

theorem Hit.progress (h : svc.Hit t k a s) (hp : Progress t s s') : svc.Hit t k a s' :=
  ⟨hp.trace.seen _ h.1, h.2⟩

/-- The reads that the first loop of `MGet` has put off. -/
def PutOff (svc : Service) (all : List Key) (missing : List MissingRead) (s : World) : Prop :=
  ∀ r ∈ missing, all[r.position]? = some r.key ∧ r.policy = svc.policy r.key ∧
    (r.policy.mode = .cache → r.epoch ≤ (s.stripes (cacheEpochStripe r.key)).epoch)

theorem PutOff.grows (h : svc.PutOff all missing s) (hg : Grows t s s') :
    svc.PutOff all missing s' :=
  fun r hr => ⟨(h r hr).1, (h r hr).2.1, fun hm => ((h r hr).2.2 hm).trans (hg.epoch _)⟩

/-- The first `n` positions are answered locally or their reads are put off. -/
def Covered (svc : Service) (t : Nat) (all : List Key) (n : Nat) (out : List Answer)
    (missing : List MissingRead) (s : World) : Prop :=
  ∀ (i : Nat) k a, i < n → all[i]? = some k → out[i]? = some a →
    svc.Hit t k a s ∨ ∃ r ∈ missing, r.position = i

theorem Covered.progress (h : svc.Covered t all n out missing s) (hp : Progress t s s') :
    svc.Covered t all n out missing s' :=
  fun i k a hi hk ha => (h i k a hi hk ha).imp_left fun hh => hh.progress hp

theorem Covered.miss (h : svc.Covered t all n out missing s) {r : MissingRead}
    (hr : r.position = n) :
    svc.Covered t all (n + 1) out (missing ++ [r]) s := by
  intro i k a hi hk ha
  by_cases hin : i = n
  · exact .inr ⟨r, by simp, hr.trans hin.symm⟩
  · obtain hh | ⟨r', hr', hp⟩ := h i k a (by omega) hk ha
    · exact .inl hh
    · exact .inr ⟨r', by simp [hr'], hp⟩

theorem Covered.hit (h : svc.Covered t all n out missing s) (hk : all[n]? = some key)
    (ha : svc.Hit t key a s) : svc.Covered t all (n + 1) (out.set n a) missing s := by
  intro i k a' hi hk' ha'
  by_cases hin : i = n
  · subst hin
    rw [hk] at hk'
    cases hk'
    rw [List.getElem?_set_self'] at ha'
    obtain ⟨_, -, rfl⟩ := Option.map_eq_some_iff.1 ha'
    exact .inl ha
  · rw [List.getElem?_set_ne (Ne.symm hin)] at ha'
    exact h i k a' (by omega) hk' ha'

theorem wp_mgetLocal (keys : List Key) {out : List Answer} {missing : List MissingRead} {n : Nat}
    {j : Job} (hi : svc.Base s) (h : Reading t j s) (hkeys : all.drop n = keys)
    (hoff : svc.PutOff all missing s) (hc : svc.Covered t all n out missing s) :
    svc.wp P t (svc.mgetLocal out missing n keys) (fun r s' => Reading t j s' ∧
      r.1.length = out.length ∧ svc.PutOff all r.2 s' ∧
        svc.Covered t all all.length r.1 r.2 s') s := by
  induction keys generalizing s out missing n with
  | nil =>
    refine ⟨h, rfl, hoff, fun i k a hlt hk ha => hc i k a ?_ hk ha⟩
    exact hlt.trans_le (List.drop_eq_nil_iff.1 hkeys)
  | cons key keys ih =>
    have hkey : all[n]? = some key := by
      have h0 := congrArg (·[0]?) hkeys
      simpa using h0
    have hrest : all.drop (n + 1) = keys := by
      rw [← List.drop_drop, hkeys, List.drop_one, List.tail_cons]
    unfold mgetLocal
    refine wp.seq (wp_observeRead hi h key) hi fun state s₁ hi₁ ⟨h₁, ho₁⟩ => ?_
    refine wp.seq (wp_getCached hi₁ h₁ key state) hi₁ fun item s₂ hi₂ ⟨h₂, ho₂, hf₂, hmode⟩ => ?_
    have hp₂ := ho₁.1.trans ho₂.1
    cases item with
    | some item =>
      refine wp.seq (wp_record _) hi₂ fun _ s₃ hi₃ hr₃ => ?_
      have hp₃ := hp₂.trans hr₃.toProgress
      have hhit : svc.Hit t key ⟨item.toValue, .tier⟩ s₃ :=
        ⟨hr₃.trace.seen _ (hf₂ item rfl), hmode (by simp)⟩
      refine (ih hi₃ (h₂.quiet hr₃.toQuiet) hrest (hoff.grows hp₃.toGrows)
        ((hc.progress hp₃).hit hkey hhit)).mono fun r s' hx => ⟨hx.1, ?_, hx.2.2⟩
      rw [hx.2.1, List.length_set]
    | none =>
      refine wp.seq (wp_record _) hi₂ fun _ s₃ hi₃ hr₃ => ?_
      have h₃ := h₂.quiet hr₃.toQuiet
      have hp₃ := hp₂.trans hr₃.toProgress
      -- In both modes the read is put off; only a caching one remembers its epoch.
      have hput : ∀ s₄ epoch, Progress t s s₄ →
          ((svc.policy key).mode = .cache → epoch ≤ (s₄.stripes (cacheEpochStripe key)).epoch) →
          svc.PutOff all (missing ++ [⟨n, key, epoch, svc.policy key⟩]) s₄ := by
        intro s₄ epoch hp₄ hep r hr
        rcases List.mem_append.1 hr with hr | hr
        · exact hoff.grows hp₄.toGrows r hr
        · rw [List.mem_singleton.1 hr]
          exact ⟨hkey, rfl, hep⟩
      split
      · refine wp.seq (wp_epochLoad _) hi₃ fun epoch s₄ hi₄ ⟨hr₄, hep⟩ => ?_
        have hp₄ := hp₃.trans hr₄.toProgress
        exact ih hi₄ (h₃.quiet hr₄.toQuiet) hrest (hput s₄ epoch hp₄ fun _ => hep.le)
          ((hc.progress hp₄).miss rfl)
      · rename_i hne
        exact ih hi₃ h₃ hrest (hput s₃ 0 hp₃ fun hm => absurd hm hne) ((hc.progress hp₃).miss rfl)

theorem wp_mgetStale (rest : List MissingRead) (out : List Answer) (n : Nat) (hi : svc.Base s)
    (hoff : svc.PutOff all rest s) :
    svc.wp P t (svc.mgetStale out n rest) (fun r s' => Quiet t s s' ∧ r.1.length = out.length ∧
      r.2 ≤ n + rest.length ∧ (r.2 = n + rest.length → svc.Covered t all all.length out rest s →
        svc.Covered t all all.length r.1 [] s')) s := by
  induction rest generalizing s out n with
  | nil => exact ⟨.refl t s, rfl, le_rfl, fun _ hc => hc⟩
  | cons r rest ih =>
    have htail : ∀ s₁, Quiet t s s₁ → svc.PutOff all rest s₁ := fun s₁ hq =>
      PutOff.grows (fun r' hr' => hoff r' (List.mem_cons_of_mem _ hr')) hq.toGrows
    -- A position that is passed over keeps the count below the number of reads.
    have hskip : ∀ s₁, svc.Base s₁ → Quiet t s s₁ → svc.wp P t (svc.mgetStale out n rest)
        (fun x s' => Quiet t s s' ∧ x.1.length = out.length ∧ x.2 ≤ n + (r :: rest).length ∧
          (x.2 = n + (r :: rest).length → svc.Covered t all all.length out (r :: rest) s →
            svc.Covered t all all.length x.1 [] s')) s₁ := by
      intro s₁ hi₁ hq
      refine (ih out n hi₁ (htail s₁ hq)).mono fun x s' ⟨hq', hl, hle, _⟩ => ?_
      rw [List.length_cons]
      exact ⟨hq.trans hq', hl, by omega, fun heq => by omega⟩
    obtain ⟨hkey, hpol, -⟩ := hoff r List.mem_cons_self
    unfold mgetStale
    split
    · rename_i hm
      refine wp.seq (wp_getStale .cache r.key _) hi fun item s₁ hi₁ ⟨hq, hf⟩ => ?_
      cases item with
      | none => exact hskip s₁ hi₁ hq
      | some item =>
        have hhit : svc.Hit t r.key ⟨item.toValue, .tier⟩ s₁ := ⟨hf item rfl, hpol ▸ hm⟩
        refine (ih (out.set r.position ⟨item.toValue, .tier⟩) (n + 1) hi₁ (htail s₁ hq)).mono
          fun x s' ⟨hq', hl, hle, hx⟩ => ?_
        rw [List.length_cons]
        rw [List.length_set] at hl
        refine ⟨hq.trans hq', hl, by omega, fun heq hc => hx (by omega) ?_⟩
        intro i k a hlt hk ha
        by_cases hir : i = r.position
        · subst hir
          rw [hkey] at hk
          cases hk
          rw [List.getElem?_set_self'] at ha
          obtain ⟨_, -, rfl⟩ := Option.map_eq_some_iff.1 ha
          exact .inl hhit
        · rw [List.getElem?_set_ne (Ne.symm hir)] at ha
          obtain hh | ⟨r', hr', hp⟩ := hc i k a hlt hk ha
          · exact .inl (hh.progress hq.toProgress)
          · rcases List.mem_cons.1 hr' with rfl | hr'
            · exact absurd hp.symm hir
            · exact .inr ⟨r', hr', hp⟩
    · exact hskip s hi (.refl t s)

def Good (svc : Service) (t : Nat) (k : Key) (a : Answer) (s : World) : Prop :=
  ⟨a.via, k, a.value⟩ ∈ (s.trace t).seen ∧ ((svc.policy k).mode ≠ .cache → OwnReply (s.trace t) k a)

theorem Good.progress (h : svc.Good t k a s) (hp : Progress t s s') : svc.Good t k a s' := by
  refine ⟨hp.trace.seen _ h.1, fun hm => ?_⟩
  unfold OwnReply
  rw [hp.trace.fetches]
  exact h.2 hm

/-- A value of the upstream reply that still has to be put into its position. -/
structure Pending (svc : Service) (t : Nat) (all : List Key) (i : Issue) (p : MissingRead × Value)
    (s : World) : Prop where
  key : all[p.1.position]? = some p.1.key
  policy : p.1.policy = svc.policy p.1.key
  good : svc.Good t p.1.key ⟨p.2, .upstream⟩ s
  refill : p.1.policy.mode = .cache → Refill t p.1.key p.2 p.1.epoch i s

theorem Pending.progress (h : svc.Pending t all i p s) (hp : Progress t s s') :
    svc.Pending t all i p s' :=
  ⟨h.key, h.policy, h.good.progress hp, fun hm => (h.refill hm).progress hp⟩

theorem wp_mgetStore (rest : List (MissingRead × Value)) (out : List Answer) (hi : svc.Base s)
    (hidle : Idle t s) (hpend : ∀ p ∈ rest, svc.Pending t all i p s)
    (hout : ∀ (j : Nat) k a, all[j]? = some k → out[j]? = some a →
      svc.Good t k a s ∨ ∃ p ∈ rest, p.1.position = j) :
    svc.wp P t (svc.mgetStore out rest) (fun out' s' => Off t s s' ∧ out'.length = out.length ∧
      ∀ (j : Nat) k a, all[j]? = some k → out'[j]? = some a → svc.Good t k a s') s := by
  induction rest generalizing s out with
  | nil =>
    refine ⟨⟨.refl t s, hidle⟩, rfl, fun j k a hk ha => ?_⟩
    obtain hg | ⟨p, hp, -⟩ := hout j k a hk ha
    · exact hg
    · cases hp
  | cons p rest ih =>
    obtain ⟨r, value⟩ := p
    have hp := hpend _ List.mem_cons_self
    unfold mgetStore
    have hwhen : svc.wp P t (Run.when (r.policy.mode = .cache)
        (svc.reconcileLocalIfCurrent r.key value r.epoch r.policy)) (fun _ s' => Off t s s') s := by
      refine wp_when (fun hm => ?_) fun _ => ⟨.refl t s, hidle⟩
      have hpol : r.policy = svc.policy r.key := hp.policy
      have href := hp.refill hm
      rw [hpol] at hm ⊢
      exact wp_reconcileLocalIfCurrent hi hidle hm href
    refine wp.seq hwhen hi fun _ s₁ hi₁ ho₁ => ?_
    have hpend₁ : ∀ p ∈ rest, svc.Pending t all i p s₁ :=
      fun p hp => (hpend p (List.mem_cons_of_mem _ hp)).progress ho₁.1
    refine (ih (out.set r.position ⟨value, .upstream⟩) hi₁ ho₁.2 hpend₁ ?_).mono
      fun out' s' ⟨ho, hl, hg⟩ => ⟨ho₁.trans ho, by rw [hl, List.length_set], hg⟩
    intro j k a hk ha
    by_cases hj : j = r.position
    · subst hj
      rw [hp.key] at hk
      cases hk
      rw [List.getElem?_set_self'] at ha
      obtain ⟨_, -, rfl⟩ := Option.map_eq_some_iff.1 ha
      exact .inl (hp.good.progress ho₁.1)
    · rw [List.getElem?_set_ne (Ne.symm hj)] at ha
      obtain hg | ⟨p, hp', hpos⟩ := hout j k a hk ha
      · exact .inl (hg.progress ho₁.1)
      · rcases List.mem_cons.1 hp' with rfl | hp'
        · exact absurd hpos.symm hj
        · exact .inr ⟨p, hp', hpos⟩

theorem Fetched.pending {missing : List MissingRead} {values : List Value}
    (hoff : svc.PutOff all missing s)
    (h : Fetched t (missing.map MissingRead.key) (.ok values) i s s')
    (hnone : (s.trace t).fetches = []) :
    ∀ p ∈ missing.zip values, svc.Pending t all i p s' := by
  have hrep := h.replied values rfl
  rintro ⟨r, value⟩ hp
  obtain ⟨n, hn⟩ := List.mem_iff_getElem?.1 hp
  obtain ⟨hr, hv⟩ := List.getElem?_zip_eq_some.1 hn
  obtain ⟨hkey, hpol, hep⟩ := hoff r (List.mem_of_getElem? hr)
  have hrk : (missing.map MissingRead.key)[n]? = some r.key := by rw [List.getElem?_map, hr]; rfl
  have hseen : ⟨.upstream, r.key, value⟩ ∈ (s'.trace t).seen := by
    rw [h.trace]
    refine List.mem_append_left _ (List.mem_iff_getElem?.2 ⟨n, ?_⟩)
    rw [List.getElem?_zipWith, hrk, hv]
  refine ⟨hkey, hpol, ⟨hseen, fun _ => ⟨rfl, _, values, n, ?_, hrk, hv⟩⟩, fun hm => ?_⟩
  · rw [h.trace]
    simp only [Trace.fetched, hnone]
  · exact ⟨hseen, hrep.source value (List.mem_of_getElem? hv), h.current _ _ (hep hm)⟩

theorem wp_mgetMissing {out : List Answer} {missing : List MissingRead} (hi : svc.Base s)
    (h : Reading t (.mget all) s) (hl : out.length = all.length) (hoff : svc.PutOff all missing s)
    (hc : svc.Covered t all all.length out missing s) :
    svc.wp P t (svc.mgetMissing out missing)
      (fun r s' => svc.Answered t (.mget all) (.mget r) s') s := by
  unfold mgetMissing
  refine wp.seq (wp_fetchUpstream hi h.started false _) hi fun r s₁ hi₁ ⟨i, h₁⟩ => ?_
  have hrest₁ := h₁.rest h.rest
  have hjob₁ : (s₁.trace t).job = some (.mget all) := by
    rw [h₁.trace]
    exact h.job
  have hlt : ∀ {j k}, all[j]? = some k → j < all.length :=
    fun hk => (List.getElem?_eq_some_iff.1 hk).1
  cases r with
  | error e =>
    have hc₁ : svc.Covered t all all.length out missing s₁ := by
      intro j k a hj hk ha
      refine (hc j k a hj hk ha).imp_left fun hh => ⟨?_, hh.2⟩
      rw [h₁.trace]
      exact hh.1
    dsimp only
    split
    · refine wp.seq (wp_mgetStale missing out 0 hi₁ (hoff.grows h₁.toGrows)) hi₁
        fun stale s₂ _ ⟨hq, hls, _, hx⟩ => ?_
      have hjob₂ := hq.trace.job.trans hjob₁
      have hrest₂ := hrest₁.of_quiet hq
      by_cases hcount : stale.2 = missing.length
      · rw [if_pos hcount]
        refine ⟨hjob₂, hrest₂, hls.trans hl, fun j k a hk ha => ?_⟩
        obtain hh | ⟨r, hr, -⟩ := hx (by omega) hc₁ j k a (hlt hk) hk ha
        · exact ⟨hh.1, fun hne => absurd hh.2 hne⟩
        · cases hr
      · rw [if_neg hcount]
        exact ⟨hjob₂, hrest₂, trivial⟩
    · exact ⟨hjob₁, hrest₁, trivial⟩
  | ok values =>
    have hpend := h₁.pending hoff h.fetches
    have hlen := (h₁.replied values rfl).length
    rw [List.length_map] at hlen
    have hout : ∀ (j : Nat) k a, all[j]? = some k → out[j]? = some a →
        svc.Good t k a s₁ ∨ ∃ p ∈ missing.zip values, p.1.position = j := by
      intro j k a hk ha
      obtain hh | ⟨r, hr, hpos⟩ := hc j k a (hlt hk) hk ha
      · refine .inl ⟨?_, fun hne => absurd hh.2 hne⟩
        rw [h₁.trace]
        exact List.mem_append_right _ hh.1
      · obtain ⟨n, hn⟩ := List.mem_iff_getElem?.1 hr
        have hnv : n < values.length := by
          rw [hlen]
          exact (List.getElem?_eq_some_iff.1 hn).1
        refine .inr ⟨(r, values[n]), List.mem_iff_getElem?.2 ⟨n, ?_⟩, hpos⟩
        exact List.getElem?_zip_eq_some.2 ⟨hn, List.getElem?_eq_getElem hnv⟩
    dsimp only
    refine wp.seq (wp_mgetStore _ out hi₁ hrest₁.toIdle hpend hout) hi₁
      fun out' s₂ hi₂ ⟨ho₂, hl₂, hg₂⟩ => ?_
    refine wp.seq (wp_observeCache hi₂) hi₂ fun _ s₃ _ hr₃ => ?_
    refine ⟨hr₃.trace.job.trans (ho₂.1.trace.job.trans hjob₁),
      (ho₂.rest hrest₁).of_quiet hr₃.toQuiet, hl₂.trans hl, fun j k a hk ha => ?_⟩
    exact (hg₂ j k a hk ha).progress hr₃.toProgress

theorem wp_mgetCall (hi : svc.Base s) (h : Reading t (.mget all) s) :
    svc.wp P t (svc.mget all) (fun r s' => svc.Answered t (.mget all) (.mget r) s') s := by
  unfold mget
  have hstart : svc.Covered t all 0 (all.map fun _ => zeroAnswer) [] s := nofun
  refine wp.seq (wp_mgetLocal all hi h rfl nofun hstart) hi fun r s₁ hi₁ ⟨h₁, hl, hoff, hc⟩ => ?_
  rw [List.length_map] at hl
  split
  · rename_i hnone
    refine ⟨h₁.job, h₁.rest, hl, fun j k a hk ha => ?_⟩
    obtain hh | ⟨r', hr', -⟩ := hc j k a (List.getElem?_eq_some_iff.1 hk).1 hk ha
    · exact ⟨hh.1, fun hne => absurd hh.2 hne⟩
    · rw [List.isEmpty_iff.1 hnone] at hr'
      cases hr'
  · exact wp_mgetMissing hi₁ h₁ hl hoff hc

end Slizen.Service
