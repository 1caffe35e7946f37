import Slizen.Proxy.Composition
import Slizen.Proxy.Ownership

namespace Slizen.Proxy.Life
set_option autoImplicit true

open Interleaving Machine

variable {srv : Server} {s s' s₁ : World} {t : Nat} {r r' : Role}

/-- A goroutine that has returned: a `Start` whose listener was ready knows that the listener is
claimed or gone, and a goroutine that has claimed it has closed it. -/
structure Done (t : Nat) (s : World) : Prop where
  free : s.mutex .lifecycleMu ≠ some t
  closed : (s.role t).mustClose = false
  ready : (s.role t).ready = true → s.server = some t ∧
    (s.flags .listenerClosed = true ∨ (s.redcon t).exited = true)

theorem Done.rely (h : Done t s) (hr : Rely t s s') : Done t s' where
  free := fun ho => h.free (hr.owns.1 ho)
  closed := by
    rw [hr.role]
    exact h.closed
  ready := by
    rw [hr.role]
    exact fun hready => ⟨hr.server t (h.ready hready).1,
      (h.ready hready).2.imp hr.listenerClosed (hr.exited t)⟩

structure At (t : Nat) (r : Role) (holds : Bool) (s : World) : Prop where
  role : s.role t = r
  owns : s.mutex .lifecycleMu = some t ↔ holds = true

theorem At.rely (h : At t r holds s) (hr : Rely t s s') : At t r holds s' :=
  ⟨hr.role.trans h.role, hr.owns.trans h.owns⟩

theorem At.done (h : At t r false s) (hclosed : r.mustClose = false) (hready : r.ready = false) :
    Done t s where
  free := by
    rw [Ne, h.owns]
    exact nofun
  closed := by
    rw [h.role]
    exact hclosed
  ready := by
    rw [h.role, hready]
    exact nofun

def outline (srv : Server) : Outline Server.machine srv.jobs where
  Inv := Base
  Rely := Rely
  Pre := Pre
  Fresh := fun t => At t {} false
  Ready := fun p _ => p.Uses Action.Plain ∨ ∃ server, p = Server.listenServeAndSignal server
  Done := Done
  rely_refl := Rely.refl
  rely_trans := Rely.trans
  fresh := fun hr h => h.rely hr
  done := fun hr h => h.rely hr
  act := fun hi _ hp he => hi.act hp he
  env := fun hi _ he => hi.env he

abbrev wp (srv : Server) (t : Nat) (p : Run α) (Q : α → World → Prop) (s : World) : Prop :=
  (outline srv).wp t p Q s

theorem wp_do {a : Action} {Q : a.Resp → World → Prop} (hf : ∀ b, Server.fork a b = none)
    (h : ∀ s₁, Rely t s s₁ → Base s₁ → Pre t a s₁ ∧
      ∀ c b s₂, World.exec t a c s₁ = some (b, s₂) → Q b s₂) : wp srv t (Run.do a) Q s :=
  Outline.wp.perform hf h

theorem fork_ready {a : Action} {b : a.Resp} (h : Server.fork a b = some p) :
    p.Uses Action.Plain ∨ ∃ server, p = Server.listenServeAndSignal server := by
  unfold Server.fork at h
  split at h
  · cases h
    exact .inr ⟨_, rfl⟩
  · cases h
    exact .inl ⟨trivial, fun _ => trivial⟩
  · cases h

theorem pre_of_plain {a : Action} (ha : a.Plain) : Pre t a s := by
  cases a with
  | unlock m => cases m <;> trivial
  | setProxyActive v => cases v <;> trivial
  | note n => cases n <;> trivial
  | store _ _ => exact ha.elim
  | setServer _ => exact ha.elim
  | sendDone _ _ => exact ha.elim
  | serverClose _ => exact ha.elim
  | _ => exact trivial

theorem wp_plain {p : Run α} {Q : α → World → Prop} (hp : p.Uses Action.Plain) (hi : Base s)
    (hQ : ∀ x s', Rely t s s' → Base s' → Q x s') : wp srv t p Q s :=
  Outline.wp.uses (C := Rely t) Rely.trans id (fun ha _ he => rely_of_plain ha he t)
    (fun ha _ => pre_of_plain ha) (fun _ hf => fork_ready hf) hp hi fun x s' => hQ x s'

theorem plain_do (a : Action) (ha : a.Plain) : (Run.do a).Uses Action.Plain :=
  ⟨ha, fun _ => trivial⟩

theorem plain_when {c : Prop} [Decidable c] {p : Run Unit} (hp : p.Uses Action.Plain) :
    (Run.when c p).Uses Action.Plain := by
  unfold Run.when
  split
  · exact hp
  · trivial

theorem plain_tracker {p : Run α} (hp : p.Uses Action.Tracker) : p.Uses Action.Plain := by
  apply hp.mono
  intro a ha
  cases a with
  | lock m => cases m <;> trivial
  | unlock m => cases m <;> trivial
  | note n => cases n <;> trivial
  | store _ _ => exact ha
  | setServer _ => exact ha
  | setProxyActive _ => exact ha.elim
  | sendDone _ _ => exact ha
  | serverClose _ => exact ha
  | _ => trivial

theorem plain_waiting {p : Run α} (hp : p.Uses Action.Waiting) : p.Uses Action.Plain :=
  plain_tracker (tracker_waiting hp)

theorem plain_emits {p : Run α} {Q : α → Prop} (h : Emits n p Q) : p.Uses Action.Plain :=
  h.handles.mono fun a ha => by cases a <;> trivial

theorem plain_finishHandler : (srv.finishHandler conn state).Uses Action.Plain := by
  refine (plain_tracker tracker_prepareHandlerDone).bind fun r => ?_
  split
  · refine (plain_emits (emits_stopDispatch state)).bind fun _ => ⟨trivial, fun _ => ?_⟩
    exact (plain_tracker tracker_completeDrainingHandler).bind fun _ => trivial
  · trivial

theorem plain_dispatch : (srv.dispatch conn cmd state).Uses Action.Plain := by
  unfold Server.dispatch
  split
  · trivial
  · refine (plain_tracker tracker_beginHandler).bind fun admitted => ?_
    cases admitted with
    | true => exact (plain_emits Server.emits_handle).bind fun _ => plain_finishHandler
    | false => exact plain_emits (Server.emits_last (.error _) rfl id state)

theorem plain_dispatchAll : (srv.dispatchAll conn cmds state).Uses Action.Plain := by
  induction cmds generalizing state with
  | nil => trivial
  | cons cmd cmds ih => exact plain_dispatch.bind fun _ => ih

theorem plain_drainUntil : srv.drainUntil.Uses Action.Plain :=
  ⟨trivial, fun _ => (plain_tracker tracker_beginDrain).bind fun _ => trivial⟩

theorem plain_logSnapshot : logSnapshot.Uses Action.Plain :=
  (plain_tracker tracker_snapshot).bind fun _ => trivial

structure Serving (t : Nat) (s : World) : Prop where
  server : s.server = some t
  listenerReady : s.flags .listenerReady = true
  finished : s.flags .finished = false

/-- What a goroutine has learnt of the lifecycle it may still believe later. -/
structure Grown (t : Nat) (s s' : World) : Prop where
  listenerClosed : s.flags .listenerClosed = true → s'.flags .listenerClosed = true
  server : ∀ v, s.server = some v → s'.server = some v
  exited : ∀ u, (s.redcon u).exited = true → (s'.redcon u).exited = true
  left : s.left = true → s'.left = true
  listenerReady : (s.role t).proceeded = true → s.flags .listenerReady = true →
    s'.flags .listenerReady = true
  finished : (s.role t).proceeded = true → s.flags .finished = false → s'.flags .finished = false
  proceeded : (s.role t).proceeded = true → (s'.role t).proceeded = true

theorem Grown.serving (h : Grown t s s') (hp : (s.role t).proceeded = true) (hs : Serving t s) :
    Serving t s' :=
  ⟨h.server t hs.server, h.listenerReady hp hs.listenerReady, h.finished hp hs.finished⟩

theorem Rely.grown (h : Rely t s s') : Grown t s s' where
  listenerClosed := h.listenerClosed
  server := h.server
  exited := h.exited
  left := h.left
  listenerReady := fun hp hl => (h.starter hp).1.trans hl
  finished := fun hp hf => (h.starter hp).2.trans hf
  proceeded := by
    rw [h.role]
    exact id

theorem Grown.trans (h₁ : Grown t s s₁) (h₂ : Grown t s₁ s') : Grown t s s' where
  listenerClosed := fun h => h₂.listenerClosed (h₁.listenerClosed h)
  server := fun v h => h₂.server v (h₁.server v h)
  exited := fun u h => h₂.exited u (h₁.exited u h)
  left := fun h => h₂.left (h₁.left h)
  listenerReady := fun hp h => h₂.listenerReady (h₁.proceeded hp) (h₁.listenerReady hp h)
  finished := fun hp h => h₂.finished (h₁.proceeded hp) (h₁.finished hp h)
  proceeded := fun h => h₂.proceeded (h₁.proceeded h)

theorem wp_lock (h : At t r false s) :
    wp srv t (lock .lifecycleMu) (fun _ s' => At t r true s' ∧ Grown t s s') s := by
  refine wp_do (fun _ => rfl) fun s₁ hr _ => ⟨trivial, fun c b s₂ he => ?_⟩
  have hrole := roles_kept he rfl t
  have hleft := left_mono he
  obtain ⟨s', hs, rfl⟩ := World.exec_eq he
  simp only [World.step] at hs
  split at hs
  · cases hs
    refine ⟨⟨hrole.trans (h.rely hr).role, by simp⟩, hr.grown.trans ?_⟩
    exact ⟨id, fun _ => id, fun _ => id, hleft, fun _ => id, fun _ => id,
      by rw [hrole]; exact id⟩
  · cases hs

theorem wp_unlock (h : At t r true s)
    (hclose : r.job = some .close → s.left = true ∨
      s.flags .closing = true ∧ s.drain.draining = true ∧ s.proxyActive = false) :
    wp srv t (unlock .lifecycleMu) (fun _ s' => At t r false s' ∧ Grown t s s' ∧
      (r.job = some .close → s'.left = true)) s := by
  refine wp_do (fun _ => rfl) fun s₁ hr hi => ?_
  have h₁ := h.rely hr
  refine ⟨fun hjob => ?_, fun c b s₂ he => ?_⟩
  · rcases hclose (h₁.role ▸ hjob) with hl | ⟨hc, hd, hp⟩
    · exact hi.left (hr.left hl)
    · obtain ⟨hf, -, ha⟩ := hr.owned (h.owns.2 rfl)
      exact ⟨by rw [hf]; exact hc, hr.draining hd, ha hp⟩
  · have hrole := roles_kept he rfl t
    have hleft := left_mono he
    have hleaves : r.job = some .close → s₂.left = true := by
      intro hjob
      have hjob' : (s₁.trace t).job = some .close := (congrArg Role.job h₁.role).trans hjob
      obtain ⟨s', -, rfl⟩ := World.exec_eq he
      simp [Action.leaves, hjob']
    obtain ⟨s', hs, rfl⟩ := World.exec_eq he
    simp only [World.step] at hs
    split at hs
    · cases hs
      refine ⟨⟨hrole.trans h₁.role, by simp⟩, hr.grown.trans ?_, hleaves⟩
      exact ⟨id, fun _ => id, fun _ => id, hleft, fun _ => id, fun _ => id,
        by rw [hrole]; exact id⟩
    · cases hs

theorem wp_load (h : At t r true s) :
    wp srv t (load f) (fun v s' => v = s.flags f ∧ At t r true s' ∧ Rely t s s') s := by
  refine wp_do (fun _ => rfl) fun s₁ hr _ => ⟨trivial, fun c b s₂ he => ?_⟩
  have hr₂ := hr.trans (rely_of_plain (a := .load f) trivial he t)
  refine ⟨?_, h.rely hr₂, hr₂⟩
  obtain ⟨s', hs, rfl⟩ := World.exec_eq he
  cases hs
  exact congrFun (hr.owned (h.owns.2 rfl)).1 f

theorem wp_getServer (h : At t r true s) : wp srv t (Run.do .getServer) (fun v s' =>
    v = s.server ∧ At t r true s' ∧ Rely t s s') s := by
  refine wp_do (fun _ => rfl) fun s₁ hr _ => ⟨trivial, fun c b s₂ he => ?_⟩
  have hr₂ := hr.trans (rely_of_plain (a := .getServer) trivial he t)
  refine ⟨?_, h.rely hr₂, hr₂⟩
  obtain ⟨s', hs, rfl⟩ := World.exec_eq he
  cases hs
  exact (hr.owned (h.owns.2 rfl)).2.1

theorem wp_store (hpre : ∀ s₁, Rely t s s₁ → Base s₁ → Pre t (.store f v) s₁) :
    wp srv t (store f v) (fun _ s' => ∃ s₁, Rely t s s₁ ∧ Stores t f v s₁ s') s :=
  wp_do (fun _ => rfl) fun s₁ hr hi => ⟨hpre s₁ hr hi, fun _ _ _ he => ⟨s₁, hr, stores he⟩⟩

theorem Stores.keeps_proceeded (hs : Stores t f v s s') (hp : (s.role t).proceeded = true) :
    (s'.role t).proceeded = true := by
  rw [hs.mine]
  cases f with
  | started => rfl
  | _ => exact hp

theorem Stores.grown (hs : Stores t f true s s') (hf : f ≠ .finished) : Grown t s s' where
  listenerClosed := by
    have := hs.flag
    have := hs.flags .listenerClosed
    grind
  server := by
    rw [hs.server]
    exact fun _ => id
  exited := by
    simp only [hs.redcon]
    exact fun _ => id
  left := by
    rw [hs.left]
    exact id
  listenerReady := by
    have := hs.flag
    have := hs.flags .listenerReady
    grind
  finished := fun _ h => (hs.flags .finished hf.symm).trans h
  proceeded := hs.keeps_proceeded

theorem At.stored (h : At t r true s) (hr : Rely t s s₁) (hs : Stores t f v s₁ s') :
    At t (r.store f v) true s' :=
  ⟨by rw [hs.mine, (h.rely hr).role], by rw [hs.mutex]; exact (h.rely hr).owns⟩

theorem wp_storeListenerClosed (h : At t r true s) (hopen : s.flags .listenerClosed = false)
    (hserver : s.server = some v) (hrole : r.proceeded = true ∨ r.job = some .close) :
    wp srv t (store .listenerClosed true) (fun _ s' => Grown t s s' ∧
      At t { r with mustClose := true } true s' ∧ s'.server = some v ∧
        s'.flags .listenerClosed = true) s := by
  have hpre : ∀ s₁, Rely t s s₁ → Base s₁ → Pre t (.store .listenerClosed true) s₁ := by
    intro s₁ hr _
    have h₁ := h.rely hr
    refine ⟨h₁.owns.2 rfl, rfl, ?_, by rw [h₁.role]; exact hrole⟩
    rw [(hr.owned (h.owns.2 rfl)).1]
    exact hopen
  refine (wp_store hpre).mono fun _ s' ⟨s₁, hr, hs⟩ => ?_
  exact ⟨hr.grown.trans (hs.grown nofun), h.stored hr hs, hs.server.trans (hr.server v hserver),
    hs.flag⟩

theorem wp_claimListener (hi : Base s) (h : At t r true s)
    (hrole : r.proceeded = true ∨ r.job = some .close) :
    wp srv t claimListener (fun x s' => Grown t s s' ∧
      match x with
      | none => At t r true s' ∧ (Serving t s → s'.flags .listenerClosed = true)
      | some v => At t { r with mustClose := true } true s' ∧ s'.server = some v ∧
          s'.flags .listenerClosed = true) s := by
  refine (wp_load h).seq hi fun closed s₁ hi₁ ⟨hv₁, h₁, hr₁⟩ => ?_
  cases closed with
  | true => exact ⟨hr₁.grown, h₁, fun _ => hr₁.listenerClosed hv₁.symm⟩
  | false =>
    refine (wp_load h₁).seq hi₁ fun ready s₂ hi₂ ⟨hv₂, h₂, hr₂⟩ => ?_
    have hf₁ := (hr₁.owned (h.owns.2 rfl)).1
    cases ready with
    | false =>
      refine ⟨(hr₁.trans hr₂).grown, h₂, fun hserving => ?_⟩
      rw [hf₁, hserving.listenerReady] at hv₂
      cases hv₂
    | true =>
      refine (wp_load h₂).seq hi₂ fun finished s₃ hi₃ ⟨hv₃, h₃, hr₃⟩ => ?_
      have hr₁₂ := hr₁.trans hr₂
      have hf₂ := (hr₁₂.owned (h.owns.2 rfl)).1
      cases finished with
      | true =>
        refine ⟨(hr₁₂.trans hr₃).grown, h₃, fun hserving => ?_⟩
        rw [hf₂, hserving.finished] at hv₃
        cases hv₃
      | false =>
        refine (wp_getServer h₃).seq hi₃ fun server s₄ hi₄ ⟨hv₄, h₄, hr₄⟩ => ?_
        have hr₁₃ := hr₁₂.trans hr₃
        have hs₃ := (hr₁₃.owned (h.owns.2 rfl)).2.1
        have hr₁₄ := hr₁₃.trans hr₄
        cases server with
        | none =>
          refine ⟨hr₁₄.grown, h₄, fun hserving => ?_⟩
          rw [hs₃, hserving.server] at hv₄
          cases hv₄
        | some v =>
          have hopen : s₄.flags .listenerClosed = false := by
            rw [(hr₁₄.owned (h.owns.2 rfl)).1]
            exact hv₁.symm
          have hserver := hr₄.server v hv₄.symm
          refine (wp_storeListenerClosed h₄ hopen hserver hrole).seq hi₄ fun _ s₅ _ ⟨hg, h₅⟩ => ?_
          exact ⟨hr₁₄.grown.trans hg, h₅⟩

theorem wp_serverClose (h : At t { r with mustClose := true } false s)
    (hserver : s.server = some v) :
    wp srv t (Run.do (.serverClose v)) (fun _ s' =>
      Grown t s s' ∧ At t { r with mustClose := false } false s') s := by
  refine wp_do (fun _ => rfl) fun s₁ hr _ => ?_
  have h₁ := h.rely hr
  refine ⟨⟨by rw [h₁.role], hr.server v hserver⟩, fun c b s₂ he => ?_⟩
  have hmine : s₂.role t = { s₁.role t with mustClose := false } := World.exec_role he
  have hleft := left_mono he
  obtain ⟨s', hs, rfl⟩ := World.exec_eq he
  cases hs
  refine ⟨hr.grown.trans ⟨id, fun _ => id, fun _ => id, hleft, fun _ => id, fun _ => id,
    by rw [hmine]; exact id⟩,
    hmine.trans (by rw [h₁.role]), h₁.owns⟩

theorem wp_closeListener (hi : Base s) (h : At t r false s) (hmust : r.mustClose = false)
    (hrole : r.proceeded = true ∨ r.job = some .close)
    (hleft : r.job = some .close → s.left = true) :
    wp srv t closeListener (fun _ s' => At t r false s' ∧ Grown t s s' ∧
      (r.proceeded = true → Serving t s → s'.flags .listenerClosed = true)) s := by
  refine (wp_lock h).seq hi fun _ s₁ hi₁ ⟨h₁, hg₁⟩ => ?_
  refine (wp_claimListener hi₁ h₁ hrole).seq hi₁ fun server s₂ hi₂ ⟨hg₂, h₂⟩ => ?_
  have hleft₂ : r.job = some .close → s₂.left = true := fun hj => hg₂.left (hg₁.left (hleft hj))
  cases server with
  | none =>
    refine (wp_unlock h₂.1 fun hj => .inl (hleft₂ hj)).seq hi₂ fun _ s₃ _ ⟨h₃, hg₃, _⟩ => ?_
    refine ⟨h₃, (hg₁.trans hg₂).trans hg₃, fun hp hserving => hg₃.listenerClosed (h₂.2 ?_)⟩
    exact hg₁.serving (by rw [h.role]; exact hp) hserving
  | some server =>
    obtain ⟨h₂, hserver, hclosed⟩ := h₂
    refine (wp_unlock h₂ fun hj => .inl (hleft₂ hj)).seq hi₂ fun _ s₃ hi₃ ⟨h₃, hg₃, _⟩ => ?_
    refine (wp_serverClose h₃ (hg₃.server _ hserver)).seq hi₃ fun err s₄ _ ⟨hg₄, h₄⟩ => ?_
    have hpost : At t r false s₄ ∧ Grown t s s₄ ∧
        (r.proceeded = true → Serving t s → s₄.flags .listenerClosed = true) := by
      refine ⟨?_, ((hg₁.trans hg₂).trans hg₃).trans hg₄, fun _ _ => ?_⟩
      · have hr : { r with mustClose := false } = r := by rw [← hmust]
        rwa [hr] at h₄
      · exact hg₄.listenerClosed (hg₃.listenerClosed hclosed)
    rcases err with _ | _ | _ <;> exact hpost

abbrev starting (ready : Bool) : Role := ⟨some .start, true, ready, false⟩

structure Ended (t : Nat) (s : World) : Prop extends Done t s where
  proceeded : (s.role t).proceeded = true

theorem Ended.rely (h : Ended t s) (hr : Rely t s s') : Ended t s' :=
  ⟨h.toDone.rely hr, by rw [hr.role]; exact h.proceeded⟩

theorem At.ended (h : At t (starting ready) false s) (hready : ready = true → s.server = some t ∧
    (s.flags .listenerClosed = true ∨ (s.redcon t).exited = true)) : Ended t s where
  free := by
    rw [Ne, h.owns]
    exact nofun
  closed := by rw [h.role]
  ready := by
    rw [h.role]
    exact hready
  proceeded := by rw [h.role]

theorem wp_closed (hi : Base s) (h : At t (starting true) false s) (hserving : Serving t s) :
    wp srv t closeListener (fun _ => Ended t) s := by
  refine (wp_closeListener hi h rfl (.inl rfl) nofun).mono fun _ s₁ ⟨h₁, hg, hc⟩ => ?_
  exact h₁.ended fun _ => ⟨hg.server t hserving.server, .inl (hc rfl hserving)⟩

theorem wp_closeAndPoll (hi : Base s) (h : At t (starting true) false s) (hserving : Serving t s) :
    wp srv t (closeAndPoll server) (fun _ => Ended t) s := by
  refine (wp_closed hi h hserving).seq hi fun closeErr s₁ hi₁ hended => ?_
  cases closeErr with
  | some e => exact hended
  | none =>
    exact wp_plain (plain_waiting pollServeResult_waiting) hi₁ fun _ _ hr _ => hended.rely hr

theorem wp_stay {p : Run α} (hp : p.Uses Action.Plain) (hi : Base s) (h : At t r holds s) :
    wp srv t p (fun _ s' => At t r holds s' ∧ Rely t s s') s :=
  wp_plain hp hi fun _ _ hr _ => ⟨h.rely hr, hr⟩

theorem Serving.rely (h : Serving t s) (hat : At t (starting ready) holds s) (hr : Rely t s s') :
    Serving t s' :=
  hr.grown.serving (by rw [hat.role]) h

theorem wp_await {p : Run α} (hp : p.Uses Action.Plain) (hi : Base s)
    (h : At t (starting true) false s) (hserving : Serving t s) :
    wp srv t p (fun _ s' => At t (starting true) false s' ∧ Serving t s') s :=
  wp_plain hp hi fun _ _ hr _ => ⟨h.rely hr, hserving.rely h hr⟩

theorem wp_drainAndClose (hi : Base s) (h : At t (starting true) false s) (hserving : Serving t s) :
    wp srv t (srv.drainAndClose server) (fun _ => Ended t) s := by
  refine (wp_await (plain_do (.setProxyActive false) trivial) hi h hserving).seq hi
    fun _ s₁ hi₁ h₁ => ?_
  refine (wp_await plain_drainUntil hi₁ h₁.1 h₁.2).seq hi₁ fun deadline s₂ hi₂ h₂ => ?_
  refine (wp_await (plain_waiting waitForDrain_waiting) hi₂ h₂.1 h₂.2).seq hi₂
    fun outcome s₃ hi₃ h₃ => ?_
  refine (wp_await (plain_when (plain_do .cancelRequests trivial)) hi₃ h₃.1 h₃.2).seq hi₃
    fun _ s₄ hi₄ h₄ => ?_
  refine (wp_await (plain_when plain_logSnapshot) hi₄ h₄.1 h₄.2).seq hi₄ fun _ s₅ hi₅ h₅ => ?_
  refine (wp_closed hi₅ h₅.1 h₅.2).seq hi₅ fun closeErr s₆ hi₆ hended => ?_
  cases closeErr with
  | some e => exact hended
  | none =>
    dsimp only
    split
    · exact wp_plain ⟨trivial, fun _ => trivial⟩ hi₆ fun _ _ hr _ => hended.rely hr
    · exact wp_plain (plain_waiting pollServeResult_waiting) hi₆ fun _ _ hr _ => hended.rely hr

theorem plain_waitAfterListenerExit : (srv.waitAfterListenerExit err).Uses Action.Plain :=
  ⟨trivial, fun _ =>
    ⟨trivial, fun _ => plain_drainUntil.bind fun _ => (plain_waiting waitForDrain_waiting).bind
    fun _ => (plain_when plain_logSnapshot).bind fun _ => trivial⟩⟩

theorem done_of_select (h : s.select t server c = some (.done err, s')) :
    (s.redcon server).done ≠ none := by
  unfold World.select at h
  split at h
  · split at h <;> cases h
  · split at h <;> cases h
  · obtain ⟨err, he, -⟩ := Option.map_eq_some_iff.1 h
    rw [he]
    exact nofun

theorem wp_select (h : At t (starting true) false s) (hserving : Serving t s) :
    wp srv t (Run.do (.select t)) (fun event s' => At t (starting true) false s' ∧ Serving t s' ∧
      ∀ err, event = .done err → (s'.redcon t).exited = true) s := by
  refine wp_do (fun _ => rfl) fun s₁ hr hi => ⟨trivial, fun c event s₂ he => ?_⟩
  have hr₂ := rely_of_plain (a := .select t) trivial he t
  refine ⟨(h.rely hr).rely hr₂, (hserving.rely h hr).rely (h.rely hr) hr₂, ?_⟩
  rintro err rfl
  obtain ⟨s', hs, -⟩ := World.exec_eq he
  exact hr₂.exited t (hi.done t (done_of_select hs))

theorem wp_awaitEnd (hi : Base s) (h : At t (starting true) false s) (hserving : Serving t s) :
    wp srv t (srv.awaitEnd t) (fun _ => Ended t) s := by
  refine (wp_select h hserving).seq hi fun event s₁ hi₁ ⟨h₁, hs₁, hexited⟩ => ?_
  cases event with
  | done err =>
    have hended : Ended t s₁ := h₁.ended fun _ => ⟨hs₁.server, .inr (hexited err rfl)⟩
    exact wp_plain plain_waitAfterListenerExit hi₁ fun _ _ hr _ => hended.rely hr
  | cancelled => exact wp_drainAndClose hi₁ h₁ hs₁
  | forced =>
    refine (wp_await (plain_do .cancelRequests trivial) hi₁ h₁ hs₁).seq hi₁ fun _ s₂ hi₂ h₂ => ?_
    refine (wp_await (plain_tracker tracker_stopAdmission) hi₂ h₂.1 h₂.2).seq hi₂
      fun _ s₃ hi₃ h₃ => ?_
    exact wp_closeAndPoll hi₃ h₃.1 h₃.2

theorem wp_activate (h : At t (starting true) true s) (hserving : Serving t s)
    (hopen : s.flags .closing = false) : wp srv t (setProxyActive true)
      (fun _ s' => At t (starting true) true s' ∧ Serving t s') s := by
  refine wp_do (fun _ => rfl) fun s₁ hr _ => ?_
  have h₁ := h.rely hr
  have hserving₁ := hserving.rely h hr
  refine ⟨⟨h₁.owns.2 rfl, ?_⟩, fun c b s₂ he => ?_⟩
  · rw [(hr.owned (h.owns.2 rfl)).1]
    exact hopen
  · have hrole := roles_kept he rfl t
    obtain ⟨s', hs, rfl⟩ := World.exec_eq he
    cases hs
    exact ⟨⟨hrole.trans h₁.role, h₁.owns⟩,
      ⟨hserving₁.server, hserving₁.listenerReady, hserving₁.finished⟩⟩

theorem wp_publishReady (hi : Base s) (h : At t (starting false) true s)
    (hserver : s.server = some t)
    (hfinished : s.flags .finished = false) :
    wp srv t Server.publishReady (fun _ s' => At t (starting true) true s' ∧ Serving t s') s := by
  have hpre : ∀ s₁, Rely t s s₁ → Base s₁ → Pre t (.store .listenerReady true) s₁ := by
    intro s₁ hr _
    exact ⟨(h.rely hr).owns.2 rfl, by rw [(h.rely hr).role]⟩
  refine (wp_store hpre).seq hi fun _ s₁ hi₁ ⟨s₀, hr, hs⟩ => ?_
  have h₁ : At t (starting true) true s₁ := h.stored hr hs
  have hserving : Serving t s₁ := by
    refine ⟨hs.server.trans (hr.server t hserver), hs.flag, (hs.flags .finished nofun).trans ?_⟩
    exact (congrFun (hr.owned (h.owns.2 rfl)).1 _).trans hfinished
  refine (wp_load h₁).seq hi₁ fun closing s₂ hi₂ ⟨hv, h₂, hr₂⟩ => ?_
  have hserving₂ := hserving.rely h₁ hr₂
  cases closing with
  | true => exact ⟨h₂, hserving₂⟩
  | false =>
    have hopen : s₂.flags .closing = false := by
      rw [(hr₂.owned (h₁.owns.2 rfl)).1]
      exact hv.symm
    exact (wp_activate h₂ hserving₂ hopen).bind

theorem wp_serveListener (hi : Base s) (h : At t (starting false) false s)
    (hserver : s.server = some t) (hfinished : s.flags .finished = false) :
    wp srv t (srv.serveListener t) (fun _ => Ended t) s := by
  refine (wp_plain (plain_do (.goServe t) trivial) hi fun _ _ hr _ => hr).seq hi
    fun _ s₁ hi₁ hr₁ => ?_
  refine (wp_plain (plain_do (.listenSignal t) trivial) hi₁ fun _ _ hr _ => hr₁.trans hr).seq hi₁
    fun signal s₂ hi₂ hr₂ => ?_
  have h₂ := h.rely hr₂
  cases signal with
  | some e => exact h₂.ended nofun
  | none =>
    refine (wp_lock h₂).seq hi₂ fun _ s₃ hi₃ ⟨h₃, hg₃⟩ => ?_
    have hg := hr₂.grown.trans hg₃
    have hproceeded : (s.role t).proceeded = true := by rw [h.role]
    refine (wp_publishReady hi₃ h₃ (hg.server t hserver) (hg.finished hproceeded hfinished)).seq hi₃
      fun closing s₄ hi₄ ⟨h₄, hserving₄⟩ => ?_
    refine (wp_unlock h₄ nofun).seq hi₄ fun _ s₅ hi₅ ⟨h₅, hg₅, _⟩ => ?_
    have hserving₅ := hg₅.serving (by rw [h₄.role]) hserving₄
    refine (wp_await (plain_do (.closeChannel .listening) trivial) hi₅ h₅ hserving₅).seq hi₅
      fun _ s₆ hi₆ ⟨h₆, hserving₆⟩ => ?_
    cases closing with
    | true => exact wp_closeAndPoll hi₆ h₆ hserving₆
    | false => exact wp_awaitEnd hi₆ h₆ hserving₆

theorem wp_storeStarted (h : At t { job := some .start } true s)
    (hfirst : s.flags .started = false) :
    wp srv t (store .started true) (fun _ s' => At t (starting false) true s' ∧ s'.server = none ∧
      s'.flags .finished = false) s := by
  have hfirst' : ∀ s₁, Rely t s s₁ → s₁.flags .started = false := by
    intro s₁ hr
    rw [(hr.owned (h.owns.2 rfl)).1]
    exact hfirst
  refine wp_do (fun _ => rfl) fun s₁ hr hi => ?_
  have h₁ := h.rely hr
  refine ⟨⟨h₁.owns.2 rfl, rfl, hfirst' s₁ hr, by rw [h₁.role]⟩, fun c b s₂ he => ?_⟩
  have hs := stores he
  obtain ⟨hnone, hf⟩ := hi.server (hfirst' s₁ hr)
  exact ⟨h.stored hr hs, hs.server.trans hnone, (hs.flags .finished nofun).trans hf⟩

theorem wp_setServer (h : At t (starting false) true s) (hnone : s.server = none)
    (hfinished : s.flags .finished = false) : wp srv t (Run.do (.setServer t)) (fun _ s' =>
      At t (starting false) true s' ∧ s'.server = some t ∧ s'.flags .finished = false) s := by
  refine wp_do (fun _ => rfl) fun s₁ hr _ => ?_
  have h₁ := h.rely hr
  obtain ⟨hflags, hserver, -⟩ := hr.owned (h.owns.2 rfl)
  refine ⟨⟨h₁.owns.2 rfl, by rw [h₁.role], hserver.trans hnone⟩, fun c b s₂ he => ?_⟩
  have hrole := roles_kept he rfl t
  obtain ⟨s', hs, rfl⟩ := World.exec_eq he
  cases hs
  exact ⟨⟨hrole.trans h₁.role, h₁.owns⟩, rfl, (congrFun hflags _).trans hfinished⟩

theorem wp_claimStart (hi : Base s) (h : At t { job := some .start } true s) :
    wp srv t (Server.claimStart t) (fun refused s' =>
      match refused with
      | some _ => At t { job := some .start } true s'
      | none => At t (starting false) true s' ∧ s'.server = some t ∧
          s'.flags .finished = false) s := by
  refine (wp_load h).seq hi fun started s₁ hi₁ ⟨hv₁, h₁, hr₁⟩ => ?_
  cases started with
  | true => exact h₁
  | false =>
    refine (wp_load h₁).seq hi₁ fun closing s₂ hi₂ ⟨_, h₂, hr₂⟩ => ?_
    cases closing with
    | true => exact h₂
    | false =>
      have hfirst : s₂.flags .started = false := by
        rw [((hr₁.trans hr₂).owned (h.owns.2 rfl)).1]
        exact hv₁.symm
      refine (wp_storeStarted h₂ hfirst).seq hi₂ fun _ s₃ hi₃ ⟨h₃, hnone, hf⟩ => ?_
      exact (wp_setServer h₃ hnone hf).seq hi₃ fun _ s₄ _ h₄ => h₄

theorem Ended.at (h : Ended t s) : At t (s.role t) false s :=
  ⟨rfl, fun ho => absurd ho h.free, nofun⟩

theorem wp_retract (hf : f = .listenerReady ∧ v = false ∨ f = .finished) (h : At t r true s)
    (hp : r.proceeded = true) (hready : r.ready = true → s.server = some t ∧
      (s.flags .listenerClosed = true ∨ (s.redcon t).exited = true)) :
    wp srv t (store f v) (fun _ s' => At t r true s' ∧ (r.ready = true → s'.server = some t ∧
      (s'.flags .listenerClosed = true ∨ (s'.redcon t).exited = true))) s := by
  have hpre : ∀ s₁, Rely t s s₁ → Base s₁ → Pre t (.store f v) s₁ := by
    intro s₁ hr _
    have h₁ := h.rely hr
    rcases hf with ⟨rfl, rfl⟩ | rfl <;>
    exact ⟨h₁.owns.2 rfl, by rw [h₁.role]; exact hp⟩
  have hrole : r.store f v = r := by
    rcases hf with ⟨rfl, rfl⟩ | rfl
    · simp [Role.store]
    · rfl
  have hne : Flag.listenerClosed ≠ f := by
    rcases hf with ⟨rfl, -⟩ | rfl <;> exact nofun
  refine (wp_store hpre).mono fun _ s' ⟨s₁, hr, hs⟩ => ⟨?_, fun hr' => ?_⟩
  · rw [← hrole]
    exact h.stored hr hs
  · rw [hs.server, hs.flags _ hne, hs.redcon]
    exact ⟨hr.server t (hready hr').1, (hready hr').2.imp hr.listenerClosed (hr.exited t)⟩

theorem wp_retire (hi : Base s) (h : Ended t s) : wp srv t Server.retire (fun _ => Done t) s := by
  refine (wp_plain (plain_do .cancelRequests trivial) hi fun _ _ hr _ => h.rely hr).seq hi
    fun _ s₁ hi₁ h₁ => ?_
  refine (wp_plain (plain_do (.setProxyActive false) trivial) hi₁
    fun _ _ hr _ => h₁.rely hr).seq hi₁
    fun _ s₂ hi₂ h₂ => ?_
  have hjob := hi₂.starter t h₂.proceeded
  refine (wp_lock h₂.at).seq hi₂ fun _ s₃ hi₃ ⟨h₃, hg₃⟩ => ?_
  have hready : (s₂.role t).ready = true → s₃.server = some t ∧
      (s₃.flags .listenerClosed = true ∨ (s₃.redcon t).exited = true) :=
    fun hr => ⟨hg₃.server t (h₂.ready hr).1,
      (h₂.ready hr).2.imp hg₃.listenerClosed (hg₃.exited t)⟩
  refine (wp_retract (.inl ⟨rfl, rfl⟩) h₃ h₂.proceeded hready).seq hi₃
    fun _ s₄ hi₄ ⟨h₄, hready₄⟩ => ?_
  refine (wp_retract (.inr rfl) h₄ h₂.proceeded hready₄).seq hi₄ fun _ s₅ hi₅ ⟨h₅, hready₅⟩ => ?_
  have hstart : (s₂.role t).job ≠ some .close := by
    rw [hjob]
    exact nofun
  refine (wp_unlock h₅ fun hj => absurd hj hstart).mono fun _ s₆ ⟨h₆, hg₆, _⟩ => ?_
  refine ⟨by rw [Ne, h₆.owns]; exact nofun, by rw [h₆.role]; exact h₂.closed, ?_⟩
  rw [h₆.role]
  exact fun hr => ⟨hg₆.server t (hready₅ hr).1,
    (hready₅ hr).2.imp hg₆.listenerClosed (hg₆.exited t)⟩

theorem wp_start (hi : Base s) (h : At t { job := some .start } false s) :
    wp srv t srv.start (fun _ => Done t) s := by
  have hnew : wp srv t (Run.do .newServer) (fun server s' => server = t ∧
      At t { job := some .start } false s') s := by
    refine wp_do (fun _ => rfl) fun s₁ hr _ => ⟨trivial, fun c b s₂ he => ⟨?_, ?_⟩⟩
    · obtain ⟨s', hs, rfl⟩ := World.exec_eq he
      cases hs
      rfl
    · exact (h.rely hr).rely (rely_of_plain (a := .newServer) trivial he t)
  refine hnew.seq hi fun server s₁ hi₁ ⟨hserver, h₁⟩ => ?_
  subst hserver
  refine (wp_lock h₁).seq hi₁ fun _ s₂ hi₂ ⟨h₂, _⟩ => ?_
  refine (wp_claimStart hi₂ h₂).seq hi₂ fun refused s₃ hi₃ h₃ => ?_
  cases refused with
  | some e =>
    exact (wp_unlock h₃ nofun).seq hi₃ fun _ s₄ _ ⟨h₄, _⟩ => h₄.done rfl rfl
  | none =>
    obtain ⟨h₃, hserver, hfinished⟩ := h₃
    refine (wp_unlock h₃ nofun).seq hi₃ fun _ s₄ hi₄ ⟨h₄, hg, _⟩ => ?_
    have hproceeded : (s₃.role server).proceeded = true := by rw [h₃.role]
    refine (wp_serveListener hi₄ h₄ (hg.server _ hserver)
      (hg.finished hproceeded hfinished)).seq hi₄
      fun r s₅ hi₅ hended => ?_
    exact (wp_retire hi₅ hended).bind.mono fun _ _ hdone => hdone

theorem wp_drainingSwap : wp srv t (Run.do .drainingSwap)
    (fun _ s' => Rely t s s' ∧ s'.drain.draining = true) s := by
  refine wp_do (fun _ => rfl) fun s₁ hr _ => ⟨trivial, fun c b s₂ he => ⟨?_, ?_⟩⟩
  · exact hr.trans (rely_of_plain (a := .drainingSwap) trivial he t)
  · obtain ⟨s', hs, rfl⟩ := World.exec_eq he
    cases hs
    rfl

theorem wp_stopped {p : Run α} (hp : p.Uses Action.Plain) (hi : Base s) (hr : Rely t s₁ s)
    (hd : s.drain.draining = true) :
    wp srv t p (fun _ s' => Rely t s₁ s' ∧ s'.drain.draining = true) s :=
  wp_plain hp hi fun _ _ hr' _ => ⟨hr.trans hr', hr'.draining hd⟩

theorem wp_stopAdmission (hi : Base s) :
    wp srv t stopAdmission (fun _ s' => Rely t s s' ∧ s'.drain.draining = true) s := by
  refine (wp_plain (plain_do (.note .enter) trivial) hi fun _ _ hr _ => hr).seq hi
    fun _ s₁ hi₁ hr₁ => ?_
  have hbody : wp srv t (lock .mu >>= fun _ => stopAdmissionLocked >>= fun _ =>
      signalDrainedLocked >>= fun _ => unlock .mu)
      (fun _ s' => Rely t s s' ∧ s'.drain.draining = true) s₁ := by
    refine (wp_plain (plain_do (.lock .mu) trivial) hi₁ fun _ _ hr _ => hr₁.trans hr).seq hi₁
      fun _ s₂ hi₂ hr₂ => ?_
    have hswap : wp srv t stopAdmissionLocked
        (fun _ s' => Rely t s s' ∧ s'.drain.draining = true) s₂ := by
      refine wp_drainingSwap.seq hi₂ fun draining s₃ hi₃ ⟨hr₃, hd₃⟩ => ?_
      cases draining with
      | true => exact ⟨hr₂.trans hr₃, hd₃⟩
      | false =>
        exact wp_stopped (plain_do (.closeChannel .started) trivial) hi₃ (hr₂.trans hr₃) hd₃
    refine hswap.seq hi₂ fun _ s₃ hi₃ ⟨hr₃, hd₃⟩ => ?_
    exact wp_stopped
      ((plain_tracker tracker_signalDrainedLocked).bind fun _ => plain_do (.unlock .mu) trivial) hi₃
      hr₃ hd₃
  refine hbody.seq hi₁ fun _ s₂ hi₂ ⟨hr₂, hd₂⟩ => ?_
  exact wp_stopped ⟨trivial, fun _ => trivial⟩ hi₂ hr₂ hd₂

theorem wp_stopAll (hi : Base s) (h : At t { job := some .close } true s) :
    wp srv t (store .closing true >>= fun _ => setProxyActive false >>= fun _ => stopAdmission)
      (fun _ s' => At t { job := some .close } true s' ∧ s'.flags .closing = true ∧
        s'.drain.draining = true ∧ s'.proxyActive = false) s := by
  have hpre : ∀ s₁, Rely t s s₁ → Base s₁ → Pre t (.store .closing true) s₁ :=
    fun s₁ hr _ => ⟨(h.rely hr).owns.2 rfl, rfl⟩
  refine (wp_store hpre).seq hi fun _ s₁ hi₁ ⟨s₀, hr₀, hs₁⟩ => ?_
  have h₁ : At t { job := some .close } true s₁ := h.stored hr₀ hs₁
  have hoff : wp srv t (setProxyActive false) (fun _ s' => Rely t s₁ s' ∧ s'.proxyActive = false)
      s₁ := by
    refine wp_do (fun _ => rfl) fun s₂ hr _ => ⟨trivial, fun c b s₃ he => ⟨?_, ?_⟩⟩
    · exact hr.trans (rely_of_plain (a := .setProxyActive false) trivial he t)
    · obtain ⟨s', hs, rfl⟩ := World.exec_eq he
      cases hs
      rfl
  refine hoff.seq hi₁ fun _ s₂ hi₂ ⟨hr₂, hoff₂⟩ => ?_
  refine (wp_stopAdmission hi₂).mono fun _ s₃ ⟨hr₃, hd₃⟩ => ?_
  have h₂ := h₁.rely hr₂
  obtain ⟨hflags₂, -, -⟩ := hr₂.owned (h₁.owns.2 rfl)
  obtain ⟨hflags₃, -, hactive₃⟩ := hr₃.owned (h₂.owns.2 rfl)
  refine ⟨h₂.rely hr₃, ?_, hd₃, hactive₃ hoff₂⟩
  rw [hflags₃, hflags₂]
  exact hs₁.flag

theorem wp_close (hi : Base s) (h : At t { job := some .close } false s) :
    wp srv t Server.close (fun _ => Done t) s := by
  refine (wp_lock h).seq hi fun _ s₁ hi₁ ⟨h₁, _⟩ => ?_
  have hrest : ∀ s₂, Base s₂ → At t { job := some .close } true s₂ ∧ s₂.flags .closing = true ∧
      s₂.drain.draining = true ∧ s₂.proxyActive = false →
        wp srv t (unlock .lifecycleMu >>= fun _ => Run.do .cancelRequests >>= fun _ =>
          Run.do (.onceClose .forceClose) >>= fun _ => closeListener) (fun _ => Done t) s₂ := by
    intro s₂ hi₂ ⟨h₂, hstopped⟩
    refine (wp_unlock h₂ fun _ => .inr hstopped).seq hi₂ fun _ s₃ hi₃ ⟨h₃, _, hleft⟩ => ?_
    refine (wp_stay (plain_do .cancelRequests trivial) hi₃ h₃).seq hi₃ fun _ s₄ hi₄ ⟨h₄, hr₄⟩ => ?_
    refine (wp_stay (plain_do (.onceClose .forceClose) trivial) hi₄ h₄).seq hi₄
      fun _ s₅ hi₅ ⟨h₅, hr₅⟩ => ?_
    have hleft₅ := (hr₄.trans hr₅).left (hleft rfl)
    refine (wp_closeListener hi₅ h₅ rfl (.inr rfl) fun _ => hleft₅).mono fun _ s₆ ⟨h₆, _⟩ => ?_
    exact h₆.done rfl rfl
  have hall := (wp_stopAll hi₁ h₁).seq hi₁ fun _ s₂ hi₂ h₂ => hrest s₂ hi₂ h₂
  exact hall

theorem wp_listenServeAndSignal (hi : Base s) (h : At t {} false s) :
    wp srv t (Server.listenServeAndSignal server) (fun _ => Done t) s := by
  have hlisten : wp srv t (Run.do (.listen server)) (fun err s' => At t {} false s' ∧
      (err ≠ none → (s'.redcon server).exited = true)) s := by
    refine wp_do (fun _ => rfl) fun s₁ hr _ => ⟨trivial, fun c err s₂ he => ⟨?_, ?_⟩⟩
    · exact (h.rely hr).rely (rely_of_plain (a := .listen server) trivial he t)
    · obtain ⟨s', hs, rfl⟩ := World.exec_eq he
      cases hs
      intro hne
      simp [World.setRedcon, Option.isSome_iff_ne_none.2 hne]
  have hserve : ∀ s₁, At t {} false s₁ → wp srv t (Run.do (.serve server)) (fun _ s' =>
      At t {} false s' ∧ (s'.redcon server).exited = true) s₁ := by
    intro s₁ h₁
    refine wp_do (fun _ => rfl) fun s₂ hr _ => ⟨trivial, fun c err s₃ he => ⟨?_, ?_⟩⟩
    · exact (h₁.rely hr).rely (rely_of_plain (a := .serve server) trivial he t)
    · obtain ⟨s', hs, rfl⟩ := World.exec_eq he
      cases hs
      simp [World.setRedcon]
  have hsend : ∀ err s₁, At t {} false s₁ → (s₁.redcon server).exited = true →
      wp srv t (Run.do (.sendDone server err)) (fun _ => Done t) s₁ := by
    intro err s₁ h₁ hexited
    refine wp_do (fun _ => rfl) fun s₂ hr _ => ⟨hr.exited server hexited, fun c b s₃ he => ?_⟩
    have hrole := (roles_kept he rfl t).trans (h₁.rely hr).role
    obtain ⟨s', hs, rfl⟩ := World.exec_eq he
    cases hs
    exact At.done ⟨hrole, (h₁.rely hr).owns⟩ rfl rfl
  refine hlisten.seq hi fun err s₁ hi₁ hx => ?_
  obtain ⟨h₁, hfailed⟩ := hx
  cases err with
  | some e => exact hsend _ s₁ h₁ (hfailed (by simp))
  | none => exact (hserve s₁ h₁).seq hi₁ fun err s₂ _ h₂ => hsend err s₂ h₂.1 h₂.2

theorem wp_perform (job : Job) (hi : Base s) (h : At t { job := some job } false s) :
    wp srv t (srv.perform job) (fun _ => Done t) s := by
  have hplain : ∀ {p : Run Unit}, p.Uses Action.Plain → wp srv t p (fun _ => Done t) s := by
    intro p hp
    exact wp_plain hp hi fun _ s' hr _ => (h.rely hr).done rfl rfl
  have hmap : ∀ {α} {p : Run α}, p.Uses Action.Plain →
      (p >>= fun _ => pure ()).Uses Action.Plain := fun hp => hp.bind fun _ => trivial
  cases job with
  | acceptConnection conn =>
    exact hplain (hmap ((plain_tracker tracker_accept).bind fun r =>
      (plain_when (plain_do .connectionOpened trivial)).bind fun _ => trivial))
  | connectionClosed conn counted =>
    exact hplain ((plain_when (plain_do .connectionClosed trivial)).bind fun _ =>
      plain_tracker tracker_connectionClosed)
  | serve conn commands => exact hplain (hmap plain_dispatchAll)
  | stopAdmission => exact hplain (plain_tracker tracker_stopAdmission)
  | beginDrain deadline => exact hplain (hmap (plain_tracker tracker_beginDrain))
  | snapshot => exact hplain (hmap (plain_tracker tracker_snapshot))
  | start => exact (wp_start hi h).bind
  | close => exact (wp_close hi h).bind

theorem wp_run (job : Job) (hi : Base s) (h : At t {} false s) :
    wp srv t (srv.run job) (fun _ => Done t) s := by
  have hnote : wp srv t (note (.job job)) (fun _ => At t { job := some job } false) s := by
    refine wp_do (fun _ => rfl) fun s₁ hr _ => ⟨(h.rely hr).role, fun c b s₂ he => ?_⟩
    have hmine : s₂.role t = { s₁.role t with job := some job } := World.exec_role he
    have hmutex : s₂.mutex = s₁.mutex := by
      obtain ⟨s', hs, rfl⟩ := World.exec_eq he
      cases hs
      rfl
    exact ⟨hmine.trans (by rw [(h.rely hr).role]), by rw [hmutex]; exact (h.rely hr).owns⟩
  exact hnote.seq hi fun _ _ hi₁ h₁ => wp_perform job hi₁ h₁

theorem base_init : Base Server.init := by
  constructor <;> simp [Server.init, World.role, Trace.role]

theorem verified (srv : Server) : (outline srv).Verified Server.init where
  init := base_init
  fresh := fun _ => ⟨rfl, nofun, nofun⟩
  entry := by
    rintro p ⟨job, rfl⟩ u s hi h
    exact wp_run job hi h
  ready := by
    rintro p u s hi h (hp | ⟨server, rfl⟩)
    · exact wp_plain hp hi fun _ s' hr _ => (h.rely hr).done rfl rfl
    · exact wp_listenServeAndSignal hi h

end Slizen.Proxy.Life
