import Slizen.Proxy.DrainRuns
import Slizen.Proxy.LifecycleOutline

namespace Slizen.Proxy.Server
set_option autoImplicit true

open Interleaving Machine

variable {srv : Server} {g g' : machine.Config} {t : Nat}

theorem Reachable.life (h : srv.Reachable g) : Life.Base g.state :=
  ((Life.verified srv).holds h).inv

theorem left_of_reach (hr : Reach srv.jobs g g') (hl : g.state.left = true) :
    g'.state.left = true := by
  induction hr with
  | refl => exact hl
  | step m _ _ hn ih =>
    cases m with
    | run t c =>
      obtain ⟨a, k, b, s, -, he, rfl⟩ := Config.next_run hn
      exact Life.left_mono he ih
    | spawn p =>
      cases hn
      exact ih
    | env e =>
      obtain ⟨s, he, rfl⟩ := Config.next_env hn
      have hs := Drain.env_eq he
      rw [hs]
      exact ih

theorem Reachable.done (h : srv.Reachable g)
    (hret : ∀ p, g.pool[t]? = some p → p.returned = true) : Life.Done t g.state := by
  cases hp : g.pool[t]? with
  | none =>
    have hfresh : Life.At t {} false g.state := (Life.verified srv).unborn h hp
    exact hfresh.done rfl rfl
  | some p =>
    cases p with
    | act a k => exact absurd (hret _ hp) nofun
    | ret x => exact (Life.verified srv).done h hp

/-- The lifecycle of the server. At most one `Start` proceeds. Once a `Close` has left its locked
section the proxy is never active again and lets no handler in. The redcon server is closed at
most once; and where a `Start` has seen its listener ready, and it and every `Close` have
returned, the redcon server was closed or had already gone by itself, whatever made `Start`
return. -/
theorem lifecycle (h : srv.Reachable g) :
    (∀ t u, (g.state.trace t).proceeded = true → (g.state.trace u).proceeded = true → t = u) ∧
    (g.state.left = true → ∀ g', Reach srv.jobs g g' → g'.state.proxyActive = false ∧
      g'.state.admissions = g.state.admissions) ∧
    g.state.closed.length ≤ 1 ∧
    ∀ t, (g.state.trace t).ready = true →
      (∀ u p, g.pool[u]? = some p → u = t ∨ (g.state.trace u).job = some .close →
        p.returned = true) →
      t ∈ g.state.closed ∨ (g.state.redcon t).exited = true := by
  have hb := h.life
  refine ⟨hb.single, fun hl g' hr => ⟨?_, ?_⟩, ?_, fun t hready hret => ?_⟩
  · exact ((Reachable.life (h.trans hr)).left (left_of_reach hr hl)).2.2
  · exact (h.stopped (hb.left hl).2.1 hr).2.1
  · cases hc : g.state.flags .listenerClosed with
    | false => simp [(hb.unclaimed hc).1]
    | true =>
      rcases hb.claimed hc with ⟨u, hu⟩ | ⟨v, -, hv⟩
      · simp [hb.pending u hu]
      · simp [hv]
  · have hdone := h.done fun p hp => hret t p hp (.inl rfl)
    obtain ⟨hserver, hgone | hgone⟩ := hdone.ready hready
    · rcases hb.claimed hgone with ⟨u, hu⟩ | ⟨v, hv, hclosed⟩
      · have hcloser : u = t ∨ (g.state.trace u).job = some .close :=
          (hb.closer u hu).imp_left fun hp => hb.single u t hp (hb.ready t hready)
        have hclosed := (h.done fun p hp => hret u p hp hcloser).closed
        exact absurd (hu.symm.trans hclosed) nofun
      · cases hserver.symm.trans hv
        exact .inl (by simp [hclosed])
    · exact .inr hgone

def sampleServing : machine.Config :=
  let g : machine.Config := ⟨init, []⟩
  ((((g.spawn (sample.run .start)).drive pick 0 100).drive pick 1 1).drive pick 0 100).spawn
    (sample.run .close) |>.drive pick 2 100

def force (_ : World) (_ : Action) : Choice := .forced

def sampleClosed : machine.Config := sampleServing.drive force 0 100

theorem lifecycle_sample : (sampleClosed.state.redcon 0).exited = false ∧
    0 ∈ sampleClosed.state.closed := by
  have hserving : sample.Reachable sampleServing :=
    (((((Reachable.call .refl .start).go 0 100).go 1 1).go 0 100).call .close).go 2 100
  have hr : sample.Reachable sampleClosed := hserving.drive (fun _ _ _ => trivial) force 0 100
  have hexited : (sampleClosed.state.redcon 0).exited = false := by decide +kernel
  have hready : (sampleClosed.state.trace 0).ready = true := by decide +kernel
  have hreturned : ∀ p ∈ sampleClosed.pool[0]?.toList ++ sampleClosed.pool[2]?.toList,
      p.returned = true := by decide +kernel
  have hlen : sampleClosed.pool.length = 4 := by decide +kernel
  have hforked : ∀ u ∈ [1, 3], (sampleClosed.state.trace u).job.isNone = true := by decide +kernel
  have hjob : ∀ u ∈ [1, 3], (sampleClosed.state.trace u).job ≠ some .close := by
    intro u hu hj
    have := hforked u hu
    rw [hj] at this
    cases this
  refine ⟨hexited, ((lifecycle hr).2.2.2 0 hready fun u p hp hu => ?_).resolve_right ?_⟩
  · match u, hp, hu with
    | 0, hp, _ => exact hreturned p (by simp [hp])
    | 1, _, hu => exact absurd (hu.resolve_left nofun) (hjob 1 (by simp))
    | 2, hp, _ => exact hreturned p (by simp [hp])
    | 3, _, hu => exact absurd (hu.resolve_left nofun) (hjob 3 (by simp))
    | u + 4, hp, _ =>
      rw [List.getElem?_eq_none (by omega)] at hp
      cases hp
  · rw [hexited]
    exact nofun

end Slizen.Proxy.Server
