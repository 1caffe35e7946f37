import Slizen.Proxy.Handle

namespace Slizen.Proxy
set_option autoImplicit true

open Interleaving

/-- Something a goroutine has done, with the answer it was given. -/
abbrev Act := Σ a : Action, a.Resp

def writes : List Act → List Write
  | [] => []
  | ⟨.write w, _⟩ :: tr => w :: writes tr
  | _ :: tr => writes tr

theorem writes_append (tr tr' : List Act) : writes (tr ++ tr') = writes tr ++ writes tr' := by
  induction tr with
  | nil => rfl
  | cons e tr ih =>
    obtain ⟨a, b⟩ := e
    cases a with
    | write w => exact congrArg (w :: ·) ih
    | _ => exact ih

/-- Read `n` complete RESP values, and return what is left. The header of an array announces its
elements. -/
def readValues : Nat → List Write → Option (List Write)
  | 0, ws => some ws
  | _ + 1, [] => none
  | n + 1, .array count :: ws => readValues (count + n) ws
  | n + 1, _ :: ws => readValues n ws

def Replies (n : Nat) (ws : List Write) : Prop := readValues n ws = some []

theorem readValues_append (h : readValues n ws = some rest) (m : Nat) (ws' : List Write) :
    readValues (n + m) (ws ++ ws') = readValues m (rest ++ ws') := by
  induction ws generalizing n with
  | nil =>
    cases n with
    | zero =>
      cases h
      rw [Nat.zero_add]
    | succ n => cases h
  | cons w ws ih =>
    cases n with
    | zero =>
      cases h
      rw [Nat.zero_add]
    | succ n =>
      rw [Nat.add_right_comm]
      cases w with
      | array count =>
        have := ih (n := count + n) h
        rwa [Nat.add_assoc] at this
      | _ => exact ih h

theorem Replies.append (h : Replies n ws) (h' : Replies m ws') : Replies (n + m) (ws ++ ws') := by
  have := readValues_append h m ws'
  exact this.trans h'

theorem Replies.array (h : Replies n ws) : Replies 1 (.array n :: ws) := h

def Action.Handles : Action → Prop
  | .write _ => True
  | .connClose => True
  | .readPipeline => True
  | .call _ _ => True
  | .observeRequest _ _ _ => True
  | .now => True
  | _ => False

/-- A program that only serves the client: every way through it writes `n` complete values and
ends with `Q`. -/
structure Emits (n : Nat) (p : Run α) (Q : α → Prop) : Prop where
  handles : p.Uses Action.Handles
  ends : ∀ tr x, p.After tr (.ret x) → Replies n (writes tr) ∧ Q x

theorem emits_ret {Q : α → Prop} (h : Q x) : Emits 0 (.ret x) Q where
  handles := trivial
  ends := by
    intro tr y ht
    obtain ⟨rfl, hy⟩ := ht.ret
    cases hy
    exact ⟨rfl, h⟩

theorem Emits.bind {p : Run α} {f : α → Run β} {P : α → Prop} {Q : β → Prop} (hp : Emits n p P)
    (hf : ∀ x, Emits m (f x) fun y => P x → Q y) : Emits (n + m) (p >>= f) Q where
  handles := hp.handles.bind fun x => (hf x).handles
  ends := by
    intro tr y ht
    obtain ⟨tr₁, x, tr₂, rfl, h₁, h₂⟩ := ht.bind_ret
    obtain ⟨hw₁, hx⟩ := hp.ends tr₁ x h₁
    obtain ⟨hw₂, hy⟩ := (hf x).ends tr₂ y h₂
    rw [writes_append]
    exact ⟨hw₁.append hw₂, hy hx⟩

theorem Emits.mono {p : Run α} {P Q : α → Prop} (h : Emits n p P) (hQ : ∀ x, P x → Q x) :
    Emits n p Q :=
  ⟨h.handles, fun tr x ht => (h.ends tr x ht).imp_right (hQ x)⟩

theorem Emits.map {p : Run α} {f : α → β} {P : α → Prop} {Q : β → Prop} (h : Emits n p P)
    (hQ : ∀ x, P x → Q (f x)) : Emits n (p >>= fun x => pure (f x)) Q :=
  h.bind fun x => emits_ret fun hx => hQ x hx

theorem emits_do (a : Action) (ha : a.Handles) (hw : ∀ b, writes [⟨a, b⟩] = []) :
    Emits 0 (Run.do a) fun _ => True where
  handles := ⟨ha, fun _ => trivial⟩
  ends := by
    intro tr x ht
    cases ht with
    | cons b ht =>
      obtain ⟨rfl, -⟩ := ht.ret
      rw [hw]
      exact ⟨rfl, trivial⟩

theorem emits_write (w : Write) (hw : Replies 1 [w]) : Emits 1 (write w) fun _ => True where
  handles := ⟨trivial, fun _ => trivial⟩
  ends := by
    intro tr x ht
    cases ht with
    | cons b ht =>
      obtain ⟨rfl, -⟩ := ht.ret
      exact ⟨hw, trivial⟩

theorem emits_array {p : Run α} {Q : α → Prop} (hp : Emits n p Q) :
    Emits 1 (write (.array n) >>= fun _ => p) Q where
  handles := ⟨trivial, fun _ => hp.handles⟩
  ends := by
    intro tr x ht
    cases ht with
    | cons b ht => exact (hp.ends _ x ht).imp_left Replies.array

theorem emits_stopDispatch (state : Option ConnectionState) :
    Emits 0 (stopDispatch state) fun st => dispatchStopped st = true := by
  unfold stopDispatch
  split
  · exact emits_ret ‹_›
  · exact (emits_do .readPipeline trivial fun _ => rfl).map fun _ _ => rfl

mutual

theorem emits_writeAny : (v : Any) → Emits 1 (writeAny v) fun _ => True
  | .nil => emits_write _ rfl
  | .string _ => emits_write _ rfl
  | .bytes _ => emits_write _ rfl
  | .int _ => emits_write _ rfl
  | .int64 _ => emits_write _ rfl
  | .uint64 _ => emits_write _ rfl
  | .bool true => emits_write _ rfl
  | .bool false => emits_write _ rfl
  | .other _ => emits_write _ rfl
  | .array items => emits_array (emits_writeItems items)

theorem emits_writeItems : (items : List Any) → Emits items.length (writeItems items) fun _ => True
  | [] => emits_ret trivial
  | item :: items => by
    rw [List.length_cons, Nat.add_comm]
    exact (emits_writeAny item).bind fun _ => (emits_writeItems items).mono fun _ _ _ => trivial

end

theorem emits_writeValue (value : Value) : Emits 1 (writeValue value) fun _ => True := by
  unfold writeValue
  split
  · exact emits_write _ rfl
  · exact emits_write _ rfl

theorem emits_writeValues (values : List Value) :
    Emits values.length (writeValues values) fun _ => True := by
  induction values with
  | nil => exact emits_ret trivial
  | cons value values ih =>
    rw [List.length_cons, Nat.add_comm]
    exact (emits_writeValue value).bind fun _ => ih.mono fun _ _ _ => trivial

/-- A handler answers its command with one reply and leaves the connection as it is. -/
abbrev Answers (p : Run Handled) (state : Option ConnectionState) : Prop :=
  Emits 1 p fun r => r.state = state

theorem answers_refuse (command msg : Bytes) (state : Option ConnectionState) :
    Answers (refuse command msg state) state :=
  (emits_write (.error msg) rfl).map fun _ _ => rfl

theorem answers_respond {answer : α → Run Unit} (r : Except Error α)
    (ha : ∀ x, Emits 1 (answer x) fun _ => True) :
    Answers (respond command state r answer) state := by
  cases r with
  | error e =>
    exact (emits_write (.error (ascii "ERR upstream request failed")) rfl).map fun _ _ => rfl
  | ok x => exact (ha x).map fun _ _ => rfl

theorem answers_call {call : Call} {answer : call.Resp → Run Handled}
    (h : ∀ r, Answers (answer r) state) :
    Answers (Run.do (.call call timeout) >>= answer) state :=
  (emits_do (.call call timeout) trivial fun _ => rfl).bind fun r => (h r).mono fun _ h _ => h

namespace Server

variable {srv : Server} {command : Bytes} {args : List Bytes} {state : Option ConnectionState}

theorem answers_handleGet : Answers (srv.handleGet args state) state := by
  unfold handleGet
  split
  · exact answers_call fun r => answers_respond r emits_writeValue
  · exact answers_refuse ..

theorem answers_handlePing : Answers (srv.handlePing command args state) state := by
  unfold handlePing
  split
  · exact (emits_write (.string (ascii "PONG")) rfl).map fun _ _ => rfl
  · exact (emits_write (.bulkString _) rfl).map fun _ _ => rfl
  · exact answers_refuse ..

theorem answers_handleSelect : Answers (srv.handleSelect command args state) state := by
  unfold handleSelect
  split
  · split
    · exact (emits_write (.string (ascii "OK")) rfl).map fun _ _ => rfl
    · exact answers_refuse ..
  · exact answers_refuse ..

theorem answers_handleMGet : Answers (srv.handleMGet command args state) state := by
  unfold handleMGet
  split
  · exact answers_refuse ..
  · exact answers_call fun r => answers_respond r fun values => emits_array
      (emits_writeValues values)

theorem answers_forwardWrite : Answers (srv.forwardWrite command args keys state) state :=
  answers_call fun r => answers_respond r emits_writeAny

theorem answers_forwardRead : Answers (srv.forwardRead command args state) state :=
  answers_call fun r => answers_respond r emits_writeAny

theorem answers_handleSet : Answers (srv.handleSet command args state) state := by
  unfold handleSet
  split
  · split
    · exact answers_refuse ..
    · exact answers_forwardWrite
  · exact answers_refuse ..

theorem answers_handleKeyWrite : Answers (srv.handleKeyWrite count command args state) state := by
  unfold handleKeyWrite
  split
  · exact answers_forwardWrite
  · exact answers_refuse ..

theorem answers_handleKeysWrite : Answers (srv.handleKeysWrite command args state) state := by
  unfold handleKeysWrite
  split
  · exact answers_refuse ..
  · exact answers_forwardWrite

theorem answers_handleTTL : Answers (srv.handleTTL command args state) state := by
  unfold handleTTL
  split
  · exact answers_forwardRead
  · exact answers_refuse ..

theorem answers_handleExists : Answers (srv.handleExists command args state) state := by
  unfold handleExists
  split
  · exact answers_refuse ..
  · exact answers_forwardRead

theorem emits_last (w : Write) (hw : Replies 1 [w]) (f : Option ConnectionState → α)
    (state : Option ConnectionState) :
    Emits (0 + (1 + 0)) (stopDispatch state >>= fun state => write w >>= fun _ =>
      Run.do .connClose >>= fun _ => pure (f state)) fun x =>
        ∃ st, x = f st ∧ dispatchStopped st = true := by
  refine (emits_stopDispatch state).bind fun st => (emits_write w hw).bind fun _ => ?_
  exact (emits_do .connClose trivial fun _ => rfl).map fun _ _ _ h => ⟨st, rfl, h⟩

theorem emits_handleQuit : Emits 1 (handleQuit command state) fun r =>
    dispatchStopped r.state = true := by
  refine (emits_last (.string (ascii "OK")) rfl (Handled.mk command true) state).mono ?_
  rintro _ ⟨st, rfl, h⟩
  exact h

theorem answers_handleCommand (hc : command ≠ ascii "QUIT") :
    Answers (srv.handleCommand command args state) state := by
  unfold handleCommand
  rw [if_neg hc]
  split
  · exact answers_handlePing
  split
  · exact answers_handleSelect
  split
  · exact answers_handleMGet
  split
  · exact answers_handleSet
  split
  · exact answers_handleKeyWrite
  split
  · exact answers_handleKeysWrite
  split
  · exact answers_handleKeyWrite
  split
  · exact answers_handleKeyWrite
  split
  · exact answers_handleTTL
  split
  · exact answers_handleExists
  · exact answers_refuse ..

theorem handleCommand_quit : srv.handleCommand (ascii "QUIT") args state =
    handleQuit (ascii "QUIT") state := by
  unfold handleCommand
  rw [if_neg (by decide +kernel), if_pos rfl]

/-- The command is one that the connection ends with: it exceeds a limit, or it is QUIT. -/
def Ends (srv : Server) (cmd : Command) : Prop :=
  (commandLimitError cmd srv.cfg).isSome = true ∨
    namesGet cmd.args = false ∧ ∃ args, parseCommand srv.letters cmd = .ok ⟨ascii "QUIT", args⟩

def Outcome (srv : Server) (cmd : Command) (state state' : Option ConnectionState) : Prop :=
  srv.Ends cmd ∧ dispatchStopped state' = true ∨ ¬ srv.Ends cmd ∧ state' = state

theorem emits_handleParsed (hl : commandLimitError cmd srv.cfg = none)
    (hg : namesGet cmd.args = false) :
    Emits 1 (srv.handleParsed cmd state) fun r => srv.Outcome cmd state r.state := by
  unfold handleParsed
  split
  · rename_i e hp
    refine (answers_refuse ..).mono fun r hr => .inr ⟨?_, hr⟩
    rintro (hs | ⟨-, args, hq⟩)
    · rw [hl] at hs
      cases hs
    · rw [hp] at hq
      cases hq
  · rename_i parsed hp
    have hends : srv.Ends cmd ↔ parsed.name = ascii "QUIT" := by
      constructor
      · rintro (hs | ⟨-, args, hq⟩)
        · rw [hl] at hs
          cases hs
        · rw [hp] at hq
          cases hq
          rfl
      · intro hq
        exact .inr ⟨hg, parsed.args, by rw [hp, ← hq]⟩
    by_cases hq : parsed.name = ascii "QUIT"
    · have hclass : classifyNormalizedCommand (ascii "QUIT") = .localCommand := by decide +kernel
      simp only [hq, hclass, isUnsafeClass, isRejectedMutationClass, reduceCtorEq, or_self,
        decide_false, Bool.false_eq_true, if_false, handleCommand_quit]
      exact emits_handleQuit.mono fun r hr => .inl ⟨hends.2 hq, hr⟩
    · have hans : ∀ {p : Run Handled}, Answers p state →
          Emits 1 p fun r => srv.Outcome cmd state r.state := fun h =>
        h.mono fun r hr => .inr ⟨fun he => hq (hends.1 he), hr⟩
      dsimp only
      split
      · exact hans (answers_refuse ..)
      split
      · exact hans (answers_refuse ..)
      · exact hans (answers_handleCommand hq)

theorem emits_handleLimited :
    Emits 1 (srv.handleLimited cmd state) fun r => srv.Outcome cmd state r.state := by
  unfold handleLimited
  split
  · rename_i limitError hl
    refine (emits_last (.error limitError) rfl
      (Handled.mk (ascii "UNKNOWN") false) state).mono ?_
    rintro _ ⟨st, rfl, h⟩
    exact .inl ⟨.inl (by rw [hl]; rfl), h⟩
  · rename_i hl
    split
    · rename_i hg
      refine answers_handleGet.mono fun r hr => .inr ⟨?_, hr⟩
      rintro (hs | ⟨hg', -⟩)
      · rw [hl] at hs
        cases hs
      · rw [hg] at hg'
        cases hg'
    · rename_i hg
      exact emits_handleParsed hl (Bool.eq_false_of_not_eq_true hg)

theorem emits_handle : Emits 1 (srv.handle cmd state) (srv.Outcome cmd state) := by
  have h : Emits (0 + (1 + (0 + 0))) (srv.handle cmd state) (srv.Outcome cmd state) := by
    refine (emits_do .now trivial fun _ => rfl).bind fun start => ?_
    refine emits_handleLimited.bind fun handled => ?_
    refine (emits_do .now trivial fun _ => rfl).bind fun finish => ?_
    exact (emits_do (.observeRequest handled.command handled.ok (finish - start)) trivial
      fun _ => rfl).map fun _ _ _ ho _ => ho
  exact h

end Server
end Slizen.Proxy
