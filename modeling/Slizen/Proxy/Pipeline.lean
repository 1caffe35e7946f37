import Slizen.Proxy.DrainRuns

namespace Slizen.Proxy
set_option autoImplicit true

open Interleaving Machine

def Action.Silent : Action → Prop
  | .write _ => False
  | _ => True

theorem writes_of_silent {tr : List Act} (h : ∀ e ∈ tr, e.1.Silent) : writes tr = [] := by
  induction tr with
  | nil => rfl
  | cons e tr ih =>
    have hrest := ih fun e he => h e (List.mem_cons_of_mem _ he)
    obtain ⟨a, b⟩ := e
    cases a with
    | write w => exact (h _ List.mem_cons_self).elim
    | _ => exact hrest

theorem silent_tracker {p : Run α} (hp : p.Uses Action.Tracker) : p.Uses Action.Silent :=
  hp.mono fun a ha => by cases a <;> trivial

namespace Server

/-- The connection stops at this command: it was refused because of a drain, it ends the
connection by itself, or its handler has completed while the tracker drains. -/
inductive Stops (srv : Server) (conn : Option Conn) (cmd : Command) : List Act → Prop
  | refused (h : beginHandler.After begun (.ret false)) : Stops srv conn cmd (begun ++ rest)
  | ended (h : beginHandler.After begun (.ret true)) (he : srv.Ends cmd) :
      Stops srv conn cmd (begun ++ rest)
  | drained (h : beginHandler.After begun (.ret true))
      (hh : (srv.handle cmd state).After handled (.ret state'))
      (hd : (prepareHandlerDone conn srv.cfg.readTimeout srv.cfg.writeTimeout).After prepared
        (.ret (true, errs))) : Stops srv conn cmd (begun ++ (handled ++ (prepared ++ rest)))

/-- The connection goes on after this command: it was admitted, does not end the connection, and
its handler has completed before any drain. -/
inductive Continues (srv : Server) (conn : Option Conn) (cmd : Command) : List Act → Prop
  | mk (h : beginHandler.After begun (.ret true)) (he : ¬ srv.Ends cmd)
      (hh : (srv.handle cmd state).After handled (.ret state'))
      (hd : (prepareHandlerDone conn srv.cfg.readTimeout srv.cfg.writeTimeout).After prepared
        (.ret (false, errs))) : Continues srv conn cmd (begun ++ (handled ++ prepared))

/-- What the goroutine of a connection does with a list of commands: each is answered by exactly
one complete RESP value, in order, and after one at which the connection stops nothing is done
any more. The flag says whether the goroutine is through with the list. -/
inductive Pipeline (srv : Server) (conn : Option Conn) : List Command → List Act → Bool → Prop
  | nil : Pipeline srv conn [] [] true
  | stop (hw : Replies 1 (writes tr)) (hs : Stops srv conn cmd tr) :
      Pipeline srv conn (cmd :: cmds) tr true
  | next (hw : Replies 1 (writes tr)) (hc : Continues srv conn cmd tr)
      (hp : Pipeline srv conn cmds rest through) :
      Pipeline srv conn (cmd :: cmds) (tr ++ rest) through
  | underWay (h : (srv.dispatch conn cmd state).After tr q) (hq : q.returned = false) :
      Pipeline srv conn (cmd :: cmds) tr false

variable {srv : Server} {conn : Option Conn} {cmd : Command} {cmds : List Command}
  {state state' : Option ConnectionState} {g : machine.Config}

theorem silent_stopDispatch : (stopDispatch state).Uses Action.Silent := by
  unfold stopDispatch
  split
  · trivial
  · exact ⟨trivial, fun _ => trivial⟩

theorem silent_finishHandler : (srv.finishHandler conn state).Uses Action.Silent := by
  refine (silent_tracker tracker_prepareHandlerDone).bind fun r => ?_
  split
  · refine silent_stopDispatch.bind fun state => ⟨trivial, fun _ => ?_⟩
    exact (silent_tracker tracker_completeDrainingHandler).bind fun _ => trivial
  · trivial

theorem finishHandler_after (h : (srv.finishHandler conn state).After tr (.ret state')) :
    ∃ prepared rest draining errs, tr = prepared ++ rest ∧
      (prepareHandlerDone conn srv.cfg.readTimeout srv.cfg.writeTimeout).After prepared
        (.ret (draining, errs)) ∧
      (draining = true ∧ dispatchStopped state' = true ∨
        draining = false ∧ rest = [] ∧ state' = state) := by
  obtain ⟨prepared, ⟨draining, errs⟩, rest, rfl, h₁, h₂⟩ := Prog.After.bind_ret h
  refine ⟨prepared, rest, draining, errs, rfl, h₁, ?_⟩
  cases draining with
  | false =>
    obtain ⟨rfl, hq⟩ := h₂.ret
    cases hq
    exact .inr ⟨rfl, rfl, rfl⟩
  | true =>
    obtain ⟨_, st, _, -, hst, h₃⟩ := Prog.After.bind_ret h₂
    obtain ⟨_, _, _, -, -, h₄⟩ := Prog.After.bind_ret h₃
    obtain ⟨_, _, _, -, -, h₅⟩ := Prog.After.bind_ret h₄
    obtain ⟨-, hq⟩ := h₅.ret
    cases hq
    exact .inl ⟨rfl, ((emits_stopDispatch state).ends _ _ hst).2⟩

theorem dispatch_after (hs : dispatchStopped state = false)
    (h : (srv.dispatch conn cmd state).After tr (.ret state')) : Replies 1 (writes tr) ∧
      (Stops srv conn cmd tr ∧ dispatchStopped state' = true ∨
        Continues srv conn cmd tr ∧ dispatchStopped state' = false) := by
  unfold dispatch at h
  rw [if_neg (by rw [hs]; exact nofun)] at h
  obtain ⟨begun, admitted, rest, rfl, hbegin, h⟩ := Prog.After.bind_ret h
  rw [writes_append, writes_of_silent (hbegin.uses (silent_tracker tracker_beginHandler)),
    List.nil_append]
  cases admitted with
  | false =>
    obtain ⟨hw, st, hst, hstopped⟩ := (emits_last (.error _) rfl id state).ends _ _ h
    cases hst
    exact ⟨hw, .inl ⟨.refused hbegin, hstopped⟩⟩
  | true =>
    obtain ⟨handled, st, rest, rfl, hhandle, hfinish⟩ := Prog.After.bind_ret h
    obtain ⟨hw, hout⟩ := emits_handle.ends _ _ hhandle
    rw [writes_append, writes_of_silent (hfinish.uses silent_finishHandler), List.append_nil]
    obtain ⟨prepared, rest, draining, errs, rfl, hprep, hcase⟩ := finishHandler_after hfinish
    refine ⟨hw, ?_⟩
    rcases hcase with ⟨rfl, hstopped⟩ | ⟨rfl, rfl, rfl⟩
    · exact .inl ⟨.drained hbegin hhandle hprep, hstopped⟩
    · rcases hout with ⟨hends, hstopped⟩ | ⟨hends, rfl⟩
      · exact .inl ⟨.ended hbegin hends, hstopped⟩
      · rw [List.append_nil]
        exact .inr ⟨.mk hbegin hends hhandle hprep, hs⟩

theorem dispatchAll_stopped (hs : dispatchStopped state = true) :
    srv.dispatchAll conn cmds state = .ret state := by
  induction cmds with
  | nil => rfl
  | cons cmd cmds ih =>
    rw [dispatchAll, dispatch, if_pos hs]
    exact ih

theorem dispatchAll_after (hs : dispatchStopped state = false)
    (h : (srv.dispatchAll conn cmds state).After tr q) : Pipeline srv conn cmds tr q.returned := by
  induction cmds generalizing state tr with
  | nil =>
    obtain ⟨rfl, rfl⟩ := h.ret
    exact .nil
  | cons cmd cmds ih =>
    rcases h.bind_cases with ⟨p', hp, hret, rfl⟩ | ⟨tr₁, st, tr₂, rfl, h₁, h₂⟩
    · rw [Prog.returned_bind hret]
      exact .underWay hp hret
    · obtain ⟨hw, ⟨hstops, hst⟩ | ⟨hgoes, hst⟩⟩ := dispatch_after hs h₁
      · rw [dispatchAll_stopped hst] at h₂
        obtain ⟨rfl, rfl⟩ := h₂.ret
        rw [List.append_nil]
        exact .stop hw hstops
      · exact .next hw hgoes (ih hst h₂)

theorem Reachable.after (h : srv.Reachable g) (hq : g.pool[t]? = some q) :
    ∃ p : Run Unit, ((∃ job, p = srv.run job) ∨ ∃ a b, fork a b = some p) ∧
      p.After (g.state.trace t).acts q := by
  have hacts := Reach.after (fun (s : World) t => (s.trace t).acts) (fun _ => rfl)
    (fun he => congrArg Trace.acts (World.exec_trace he))
    (fun he hu => by rw [World.exec_trace_of_ne he hu])
    (fun he => by rw [Drain.env_eq he]) h
  exact hacts.2 t q hq

theorem fork_listens {a : Action} {b : a.Resp} (hf : fork a b = some p) :
    ¬ p.After (⟨.note n, ()⟩ :: tr) q := by
  unfold fork at hf
  split at hf
  · cases hf
    exact nofun
  · cases hf
    exact nofun
  · cases hf

theorem run_after {q : Run Unit}
    (h : (srv.run job).After (⟨.note (.job (.serve conn cmds)), ()⟩ :: tr) q) :
    Pipeline srv conn cmds tr q.returned := by
  generalize hacts : (⟨.note (.job (.serve conn cmds)), ()⟩ :: tr : List Act) = acts at h
  cases h with
  | nil => cases hacts
  | cons b h =>
    cases hacts
    have hserve : (srv.perform (.serve conn cmds)).After tr q := h
    rcases hserve.bind_cases with ⟨p', hp', hret, rfl⟩ | ⟨tr₁, st, tr₂, rfl, h₁, h₂⟩
    · rw [Prog.returned_bind hret, ← hret]
      exact dispatchAll_after rfl hp'
    · obtain ⟨rfl, rfl⟩ := h₂.ret
      rw [List.append_nil]
      exact dispatchAll_after rfl h₁

/-- The goroutine that serves a connection answers every command of its list that it gets to by
exactly one reply, in order, and does nothing after the one at which the connection stops. It
never panics, so nothing but the scheduler keeps it from being through with the list. -/
theorem pipeline_replies (h : srv.Reachable g) (hq : g.pool[t]? = some q)
    (ht : (g.state.trace t).acts = ⟨.note (.job (.serve conn cmds)), ()⟩ :: tr) :
    Pipeline srv conn cmds tr q.returned ∧
      ∀ msg k, q ≠ (Prog.act (.panic msg) k : machine.Program) := by
  refine ⟨?_, ?_⟩
  · obtain ⟨p, ⟨job, rfl⟩ | ⟨a, b, hf⟩, hafter⟩ := h.after hq
    · rw [ht] at hafter
      exact run_after hafter
    · rw [ht] at hafter
      exact absurd hafter (fork_listens hf)
  · rintro msg k rfl
    exact (Drain.verified srv).pre h hq

def sampleCommands : List Command :=
  [⟨[], [ascii "PING"]⟩, ⟨[], [ascii "QUIT"]⟩, ⟨[], [ascii "PING"]⟩]

def samplePipeline : machine.Config :=
  let g : machine.Config := ⟨init, []⟩
  (g.spawn (sample.run (.serve none sampleCommands))).drive pick 0 100

theorem pipeline_replies_sample :
    Pipeline sample none sampleCommands (samplePipeline.state.trace 0).acts.tail true ∧
      (writes (samplePipeline.state.trace 0).acts).length = 2 := by
  have hr : sample.Reachable samplePipeline :=
    (Reachable.call .refl (.serve none sampleCommands)).go 0 100
  have hdone : (samplePipeline.pool[0]?.map Prog.returned) = some true := by decide +kernel
  obtain ⟨q, hq, hret⟩ := Option.map_eq_some_iff.1 hdone
  refine ⟨?_, by decide +kernel⟩
  rw [← hret]
  exact (pipeline_replies hr hq rfl).1

end Server
end Slizen.Proxy
