import Slizen.Service.Coherence

namespace Slizen
set_option autoImplicit true

open Interleaving Machine

/-- A payload that comes from an upstream read which was sent at this point or later. -/
def Source.Issued (m : Moment) : Source → Prop
  | .read ticket version _ => m.version ≤ version ∧ m.reqs ≤ ticket
  | .write _ _ => False

theorem Source.Issued.mono {source : Source} {m m' : Moment} (h : source.Issued m')
    (hm : m.Le m') : source.Issued m := by
  cases source with
  | read ticket version pttl => exact ⟨hm.version.trans h.1, hm.reqs.trans h.2⟩
  | write ticket version => exact h

theorem Trace.seen_record (tr : Trace) (s : World) {a : Action} (b : a.Resp)
    (hx : x ∈ (tr.record s a b).seen) (hvia : x.via = .upstream) :
    x ∈ tr.seen ∨ ∃ i keys, a = .upstream (.answer i keys) := by
  have hsee : ∀ {via : Via} {key : Key} {value : Value}, x ∈ ⟨via, key, value⟩ :: tr.seen →
      via ≠ .upstream → x ∈ tr.seen := by
    intro via key value hx hne
    rcases List.mem_cons.1 hx with rfl | hx
    · exact absurd hvia hne
    · exact hx
  cases a with
  | cache tier op =>
    cases op with
    | get key =>
      cases b with
      | none => exact .inl hx
      | some item =>
        simp only [record, recordCache] at hx
        split at hx <;> exact .inl (hsee hx (by simp))
    | getStale key grace =>
      cases b with
      | none => exact .inl hx
      | some item => exact .inl (hsee hx (by simp))
    | _ => exact .inl hx
  | stripe σ op => cases op <;> exact .inl hx
  | group op =>
    cases op with
    | wait f deadline =>
      cases b with
      | done e => exact .inl hx
      | result r shared =>
        cases r with
        | error e => exact .inl hx
        | ok value =>
          simp only [record, recordGroup] at hx
          split at hx
          · exact .inl (hsee hx (by simp))
          · exact .inl hx
    | _ => exact .inl hx
  | upstream op =>
    cases op with
    | answer i keys => exact .inr ⟨i, keys, rfl⟩
    | _ => exact .inl hx
  | note n =>
    cases n with
    | start job => cases hx
    | _ => exact .inl hx
  | _ => exact .inl hx

theorem Trace.Change.forgotten_cleared {tr tr' : Trace} {now : Moment} {a : Action}
    (h : Change now tr a tr') (hold : ∀ k ∈ tr.forgotten, k ∈ tr.cleared)
    (hnew : ∀ key, a = .group (.forget key) → key ∈ tr.cleared) :
    ∀ k ∈ tr'.forgotten, k ∈ tr'.cleared := by
  intro k hk
  cases h with
  | start job h => cases hk
  | dispatch command args keys wrote => cases hk
  | forget key =>
    rcases List.mem_cons.1 hk with rfl | hk
    · exact hnew k rfl
    · exact hold k hk
  | cleared key => exact List.mem_cons_of_mem _ (hold k hk)
  | _ => exact hold k hk

/-- What does not change any more once a call has returned. -/
structure Trace.Frozen (tr tr' : Trace) : Prop where
  call : tr'.call = tr.call
  started : tr'.started = tr.started
  done : tr'.done = tr.done
  dispatched : tr'.dispatched = tr.dispatched
  cleared : tr'.cleared = tr.cleared
  clearedAll : tr'.clearedAll = tr.clearedAll
  forgotten : tr'.forgotten = tr.forgotten

theorem Trace.Frozen.refl (tr : Trace) : tr.Frozen tr := ⟨rfl, rfl, rfl, rfl, rfl, rfl, rfl⟩

theorem Trace.Frozen.trans {tr₁ tr₂ tr₃ : Trace} (h : tr₁.Frozen tr₂) (h' : tr₂.Frozen tr₃) :
    tr₁.Frozen tr₃ where
  call := h'.call.trans h.call
  started := h'.started.trans h.started
  done := h'.done.trans h.done
  dispatched := h'.dispatched.trans h.dispatched
  cleared := h'.cleared.trans h.cleared
  clearedAll := h'.clearedAll.trans h.clearedAll
  forgotten := h'.forgotten.trans h.forgotten

/-- What a call has done by the time it returns: a write that was sent has cleared its keys since
and forgotten their flights, a purge has emptied the tiers of its keys and forgotten the flights of
the one key that it names. -/
def Trace.Concluded (tr : Trace) : Prop :=
  match tr.call with
  | some (.executeWrite _ _ keys) => tr.dispatched ≠ none → ∀ k ∈ keys, k ∈ tr.forgotten
  | some (.purgeCache key) => if key = [] then tr.clearedAll = true else key ∈ tr.forgotten
  | _ => True

theorem Trace.Frozen.concluded {tr tr' : Trace} (h : tr.Frozen tr') (hc : tr.Concluded) :
    tr'.Concluded := by
  rw [Trace.Concluded, h.call, h.dispatched, h.clearedAll, h.forgotten]
  exact hc

namespace Service

variable {svc : Service} {direct : Bool} {content : Key → Option Bytes} {g : svc.machine.Config}
  {s s' : World} {t u f : Nat} {k : Key} {a : Action} {b : a.Resp} {c : Choice} {d m : Moment}

theorem frozen (h : Orderly s) (hp : svc.Pre t a s) (he : World.exec t a c s = some (b, s'))
    (hd : (s.trace u).done ≠ none) : (s.trace u).Frozen (s'.trace u) := by
  have hjob : (s.trace u).job = none := by
    rw [Option.eq_none_iff_forall_ne_some]
    intro j hj
    exact hd (h.underway u j hj).2
  rcases trace_cases hp he u with hsame | ⟨rfl, hc⟩
  · rw [hsame]
    exact .refl _
  · have hkeys : (s.trace u).writeKeys = [] := by rw [Trace.writeKeys, hjob]; rfl
    generalize s'.trace u = tr' at hc
    -- Each of the other notes and the dispatch belong to a call that is under way.
    cases hc with
    | start job h =>
      rw [h] at hd
      exact absurd rfl hd
    | finish reply h => exact absurd hjob h
    | dispatch command args keys wrote => exact absurd (hp.1.symm.trans hjob) (by simp)
    | forget key =>
      rcases hp.2 with ⟨hk, -⟩ | hj
      · rw [hkeys] at hk
        cases hk
      · exact absurd (hj.symm.trans hjob) (by simp)
    | cleared key =>
      rcases hp.job with ⟨hk, -⟩ | hj
      · rw [hkeys] at hk
        cases hk
      · exact absurd (hj.symm.trans hjob) (by simp)
    | clearedAll => exact absurd (hp.1.symm.trans hjob) (by simp)
    | _ => exact ⟨rfl, rfl, rfl, rfl, rfl, rfl, rfl⟩

theorem flight_before (he : World.exec t a c s = some (b, s')) (hf : s'.FlightOf f k) :
    s.FlightOf f k ∨ s'.past.born f = now s s' := by
  obtain ⟨fl, hfl, hk⟩ := hf
  cases a with
  | group op =>
    obtain ⟨s₁, hs, rfl⟩ := World.exec_group he
    have hpast : s₁.past = s.past := by rw [World.stepGroup_frame hs]
    cases op with
    | doChan key epoch policy =>
      rcases World.stepGroup_doChan hs with ⟨-, -, rfl⟩ | ⟨-, rfl, rfl⟩
      · simp only [List.getElem?_modify] at hfl
        cases hold : s.flights[f]? with
        | none => simp [hold] at hfl
        | some fl₀ =>
          simp only [hold, Option.map_eq_map, Option.map_some, Option.some.injEq] at hfl
          refine .inl ⟨fl₀, hold, ?_⟩
          rw [← hk, ← hfl]
          split <;> rfl
      · dsimp only at hfl
        rw [List.getElem?_append] at hfl
        split at hfl
        · exact .inl ⟨fl, hfl, hk⟩
        · rw [List.getElem?_singleton] at hfl
          split at hfl
          · have hlast : f = s.flights.length := by omega
            subst hlast
            right
            simp [Past.record, Past.recordBorn, now, World.moment]
          · cases hfl
    | wait g deadline =>
      obtain ⟨rfl, -⟩ := World.stepGroup_wait hs
      exact .inl ⟨fl, hfl, hk⟩
    | complete g r =>
      obtain ⟨fl₀, hfl₀, rfl⟩ := World.stepGroup_complete hs
      by_cases hg : g = f
      · subst hg
        have hlt := (List.getElem?_eq_some_iff.1 hfl₀).1
        simp only [List.getElem?_set_self hlt, Option.some.injEq] at hfl
        refine .inl ⟨fl₀, hfl₀, ?_⟩
        rw [← hk, ← hfl]
      · simp only [List.getElem?_set_ne hg] at hfl
        exact .inl ⟨fl, hfl, hk⟩
    | forget key =>
      cases World.stepGroup_forget hs
      exact .inl ⟨fl, hfl, hk⟩
  | _ =>
    obtain ⟨s₁, hs, rfl⟩ := World.exec_eq_some.1 he
    have hsame := ((World.step_frame hs).group (by simp)).2
    exact .inl ⟨fl, by rw [← hsame]; exact hfl, hk⟩

theorem flightOf_unique (h : s.FlightOf f key) (h' : s.FlightOf f key') : key' = key := by
  obtain ⟨fl, hfl, rfl⟩ := h
  obtain ⟨fl', hfl', rfl⟩ := h'
  cases hfl.symm.trans hfl'
  rfl

/-- What is known of the flights, of those who run them and of those who read. -/
structure Shared (s : World) : Prop extends Coherent s where
  born : ∀ f key, s.FlightOf f key → (s.past.born f).Le s.moment
  flight : ∀ t f key, (s.trace t).job = some (.flight f key) →
    s.FlightOf f key ∧ (s.past.born f).Le (s.trace t).started
  sent : ∀ u x, x ∈ (s.trace u).seen → x.via = .upstream →
    (s.trace u).call ≠ none ∧ x.value.data.source.Issued (s.trace u).started
  result : ∀ f key dups v, s.flights[f]? = some ⟨key, dups, some (.ok v)⟩ →
    Vouched s key v ∧ v.data.source.Issued (s.past.born f)
  forgotten : ∀ t, ∀ k ∈ (s.trace t).forgotten, k ∈ (s.trace t).cleared
  group : ∀ k f t d, s.group k = some f → (s.trace t).dispatched = some d →
    k ∈ (s.trace t).forgotten → d.Le (s.past.born f)
  purge : ∀ k f t, s.group k = some f → (s.trace t).call = some (.purgeCache k) →
    k ∈ (s.trace t).forgotten → (s.trace t).started.Le (s.past.born f)
  concluded : ∀ t, (s.trace t).done ≠ none → (s.trace t).Concluded

namespace Shared

section

variable (hp : svc.Pre t a s) (he : World.exec t a c s = some (b, s')) (h : Shared s)
include hp he h

theorem born_act (hi : svc.Base s) (hf : s'.FlightOf f k) : (s'.past.born f).Le s'.moment := by
  have hnow := (now_moment he).1
  rcases flight_before he hf with hf₀ | hborn
  · rw [born_eq he hf₀]
    exact (now_le (grows hi hp he t) _ (h.born f k hf₀)).trans hnow
  · rw [hborn]
    exact hnow

theorem flight_act (hi : svc.Base s) (hj : (s'.trace u).job = some (.flight f k)) :
    s'.FlightOf f k ∧ (s'.past.born f).Le (s'.trace u).started := by
  have hgrows := grows hi hp he t
  have hold : (s.trace u).job = some (.flight f k) →
      s'.FlightOf f k ∧ (s'.past.born f).Le (s'.trace u).started := by
    intro hj₀
    obtain ⟨hf, hborn⟩ := h.flight u f k hj₀
    have hcall : (s.trace u).call ≠ none := by
      rw [(h.underway u _ hj₀).1]
      exact nofun
    rw [born_eq he hf, (started_kept hp he hcall).1]
    exact ⟨hgrows.flights f k hf, hborn⟩
  rcases trace_cases hp he u with hsame | ⟨rfl, hc⟩
  · rw [hsame] at hj
    exact hold hj
  · rcases hc.job_cases with ⟨hsame, -⟩ | ⟨-, -, job, rfl, hjob⟩ | ⟨reply, -, -, hnone, -⟩
    · exact hold (hsame.symm.trans hj)
    · cases hjob.symm.trans hj
      have hf : s.FlightOf f k := hp.2 f k rfl
      have hstarted : (s'.trace u).started = now s s' := by
        rw [World.exec_trace he]
        rfl
      rw [born_eq he hf, hstarted]
      exact ⟨hgrows.flights f k hf, now_le hgrows _ (h.born f k hf)⟩
    · rw [hnone] at hj
      cases hj

theorem sent_act (hx : x ∈ (s'.trace u).seen) (hvia : x.via = .upstream) :
    (s'.trace u).call ≠ none ∧ x.value.data.source.Issued (s'.trace u).started := by
  have hkeep : (s.trace u).call ≠ none → x.value.data.source.Issued (s.trace u).started →
      (s'.trace u).call ≠ none ∧ x.value.data.source.Issued (s'.trace u).started := by
    intro hcall hissued
    obtain ⟨hstarted, hcall'⟩ := started_kept hp he hcall
    rw [hstarted, hcall']
    exact ⟨hcall, hissued⟩
  rcases seen_cases hp he hx with hx₀ | ⟨rfl, hsees⟩
  · obtain ⟨hcall, hissued⟩ := h.sent u x hx₀ hvia
    exact hkeep hcall hissued
  · rw [World.exec_trace he] at hx
    rcases Trace.seen_record _ _ b hx hvia with hx₀ | ⟨i, keys, rfl⟩
    · obtain ⟨hcall, hissued⟩ := h.sent u x hx₀ hvia
      exact hkeep hcall hissued
    · obtain ⟨job, hj⟩ := Option.ne_none_iff_exists'.1 hp.1
      apply hkeep
      · rw [(h.underway u job hj).1]
        exact nofun
      · cases hsees with
        | upstream ticket v pttl key hs hv hq =>
          rw [Origin.read_source]
          exact ⟨hs, hq⟩
        | _ => cases hvia

theorem result_act (hi : svc.Base s) (hf : s'.flights[f]? = some ⟨k, dups, some (.ok v)⟩) :
    Vouched s' k v ∧ v.data.source.Issued (s'.past.born f) := by
  have hlater := origin_later he
  rcases result_cases hp he hf with ⟨dups', hf₀⟩ | ⟨k', hj, hseen⟩
  · obtain ⟨hheld, hissued⟩ := h.result f k dups' v hf₀
    rw [born_eq he ⟨_, hf₀, rfl⟩]
    exact ⟨hheld.later hlater, hissued⟩
  · obtain ⟨hflight, hborn⟩ := h.flight t f k' hj
    have hk : k = k' :=
      flightOf_unique ((grows hi hp he t).flights f k' hflight) ⟨_, hf, rfl⟩
    subst hk
    rw [born_eq he hflight]
    exact ⟨(h.replies t _ hseen rfl).later hlater, (h.sent t _ hseen rfl).2.mono hborn⟩

theorem forgotten_act (u : Nat) : ∀ k ∈ (s'.trace u).forgotten, k ∈ (s'.trace u).cleared := by
  rcases trace_cases hp he u with hsame | ⟨rfl, hc⟩
  · rw [hsame]
    exact h.forgotten u
  · apply hc.forgotten_cleared (h.forgotten u)
    rintro key rfl
    exact hp.1

theorem group_act (hi : svc.Base s) (hg : s'.group k = some f)
    (hd : (s'.trace u).dispatched = some d) (hk : k ∈ (s'.trace u).forgotten) :
    d.Le (s'.past.born f) := by
  have hback : (s.trace u).dispatched = some d ∧
      (k ∈ (s.trace u).forgotten ∨ a = .group (.forget k)) := by
    rcases trace_cases hp he u with hsame | ⟨rfl, hc⟩
    · rw [hsame] at hd hk
      exact ⟨hd, .inl hk⟩
    · rcases hc.forgotten_cases hk with ⟨hk₀, hsame⟩ | ⟨ha, hsame⟩
      · exact ⟨hsame.symm.trans hd, .inl hk₀⟩
      · exact ⟨hsame.symm.trans hd, .inr ha⟩
  rcases group_cases he hg with ⟨hg₀, hne⟩ | ⟨hborn, -⟩
  · rw [born_eq he (hi.group k f hg₀)]
    exact h.group k f u d hg₀ hback.1 (hback.2.resolve_right hne)
  · rw [hborn]
    exact now_le (grows hi hp he t) d (h.dispatched u d hback.1)

theorem purge_act (hi : svc.Base s) (hg : s'.group k = some f)
    (hcall : (s'.trace u).call = some (.purgeCache k)) (hk : k ∈ (s'.trace u).forgotten) :
    (s'.trace u).started.Le (s'.past.born f) := by
  have hback : (s.trace u).call = some (.purgeCache k) ∧
      (k ∈ (s.trace u).forgotten ∨ a = .group (.forget k)) := by
    rcases trace_cases hp he u with hsame | ⟨rfl, hc⟩
    · rw [hsame] at hcall hk
      exact ⟨hcall, .inl hk⟩
    · rcases hc.call_cases with ⟨hsame, -⟩ | ⟨-, job, -, hnew⟩
      · rcases hc.forgotten_cases hk with ⟨hk₀, -⟩ | ⟨ha, -⟩
        · exact ⟨hsame.symm.trans hcall, .inl hk₀⟩
        · exact ⟨hsame.symm.trans hcall, .inr ha⟩
      · rw [hnew] at hk
        cases hk
  have hstarted : (s'.trace u).started = (s.trace u).started :=
    (started_kept hp he (by rw [hback.1]; exact nofun)).1
  rw [hstarted]
  rcases group_cases he hg with ⟨hg₀, hne⟩ | ⟨hborn, -⟩
  · rw [born_eq he (hi.group k f hg₀)]
    exact h.purge k f u hg₀ hback.1 (hback.2.resolve_right hne)
  · rw [hborn]
    exact now_le (grows hi hp he t) _ (h.started u)

theorem concluded_act (hd : (s'.trace u).done ≠ none) : (s'.trace u).Concluded := by
  by_cases hd₀ : (s.trace u).done = none
  · rcases trace_cases hp he u with hsame | ⟨rfl, hc⟩
    · rw [hsame, hd₀] at hd
      exact absurd rfl hd
    · rcases hc.job_cases with ⟨-, hsame⟩ | ⟨-, hnone, -⟩ | ⟨reply, rfl, -⟩
      · exact absurd (hsame.trans hd₀) hd
      · exact absurd hnone hd
      · -- The call returns just now, and knows what it has done.
        obtain ⟨⟨job, hj, hret⟩, -⟩ := hp
        have hcall := (h.underway u job hj).1
        rw [World.exec_trace he]
        show Trace.Concluded { s.trace u with job := none, done := some (_, reply) }
        simp only [Trace.Concluded, hcall]
        cases job with
        | executeWrite command args keys =>
          intro hne
          obtain ⟨d, hdisp⟩ := Option.ne_none_iff_exists'.1 hne
          exact hret.1 d hdisp
        | purgeCache key => exact hret
        | _ => trivial
  · exact (frozen h.toOrderly hp he hd₀).concluded (h.concluded u hd₀)

end

theorem act (h : Shared s) (hi : svc.Base s) (hp : svc.Pre t a s)
    (he : World.exec t a c s = some (b, s')) : Shared s' where
  toCoherent := h.toCoherent.act hi hp he
  born := fun _ _ hf => h.born_act hp he hi hf
  flight := fun _ _ _ hj => h.flight_act hp he hi hj
  sent := fun _ _ hx hvia => h.sent_act hp he hx hvia
  result := fun _ _ _ _ hf => h.result_act hp he hi hf
  forgotten := h.forgotten_act hp he
  group := fun _ _ _ _ hg hd hk => h.group_act hp he hi hg hd hk
  purge := fun _ _ _ hg hcall hk => h.purge_act hp he hi hg hcall hk
  concluded := fun _ hd => h.concluded_act hp he hd

theorem env (h : Shared s) (he : s.env e = some s') : Shared s' := by
  have hcoherent := h.toCoherent.env he
  obtain ⟨clock, contexts, origin, hl, rfl⟩ := World.env_later he
  exact
    { toCoherent := hcoherent
      born := fun f key hf =>
        have hm := h.born f key hf
        ⟨hm.time, hm.version.trans hl.version, hm.reqs⟩
      flight := h.flight
      sent := h.sent
      result := fun f key dups v hf => (h.result f key dups v hf).imp (fun hh => hh.later hl) id
      forgotten := h.forgotten
      group := h.group
      purge := h.purge
      concluded := h.concluded }

end Shared

theorem shared_init (svc : Service) (content : Key → Option Bytes) : Shared (svc.init content) where
  toCoherent := coherent_init svc content
  born := by
    rintro f key ⟨fl, hfl, -⟩
    cases hfl
  flight := nofun
  sent := nofun
  result := nofun
  forgotten := nofun
  group := nofun
  purge := nofun
  concluded := fun _ hd => absurd rfl hd

theorem Reachable.shared (h : svc.Reachable direct content g) : Shared g.state := by
  apply h.invariant (J := Shared) (shared_init svc content)
  · intro t a c b s s' hi hj hp he
    exact hj.act hi hp he
  · intro e s s' _ hj _ he
    exact hj.env he

theorem returned_now {reply : Reply} {job : Job} (h : Orderly s) (hp : svc.Pre t a s)
    (he : World.exec t a c s = some (b, s')) (hd₀ : (s.trace u).done = none)
    (hd : (s'.trace u).done = some (m, reply)) (hcall : (s'.trace u).call = some job) :
    svc.Returns s u job reply ∧ m = now s s' := by
  rcases trace_cases hp he u with hsame | ⟨rfl, hc⟩
  · rw [hsame, hd₀] at hd
    cases hd
  · rcases hc.job_cases with ⟨-, hsame⟩ | ⟨-, hnone, -⟩ | ⟨reply', rfl, -, -, hdone⟩
    · cases (hsame.trans hd₀).symm.trans hd
    · cases hnone.symm.trans hd
    · cases hdone.symm.trans hd
      obtain ⟨⟨job', hj, hret⟩, -⟩ := hp
      have hcall₀ : (s'.trace u).call = (s.trace u).call := by
        rw [World.exec_trace he]
        rfl
      rw [hcall₀, (h.underway u job' hj).1] at hcall
      cases hcall
      exact ⟨hret, rfl⟩

end Service
end Slizen
