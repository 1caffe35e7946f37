import Slizen.Proxy.Spelling
import Slizen.Proxy.Handle

namespace Slizen.Proxy
set_option autoImplicit true

open Interleaving

def Action.NoCall : Action → Prop
  | .call _ _ => False
  | _ => True

def CallsService (p : Run α) : Prop := ¬p.Uses Action.NoCall

/-- The command carries operands with which `handle` passes it on. -/
def fits (letters : Letters) (command : Bytes) (operands : List Bytes) : Bool :=
  if command ∈ [ascii "MGET", ascii "DEL", ascii "UNLINK", ascii "EXISTS"] then 1 ≤ operands.length
  else if command = ascii "SET" then
    2 ≤ operands.length ∧ setUsesGetOption letters (operands.drop 2) = false
  else if command ∈ [ascii "SETEX", ascii "PSETEX"] then operands.length = 3
  else if command ∈ [ascii "EXPIRE", ascii "PEXPIRE"] then operands.length = 2
  else if command ∈ [ascii "PERSIST", ascii "TTL", ascii "PTTL"] then operands.length = 1
  else false

/-- The commands that `handle` passes on: those within the limits whose name, in the way it is
compared, is one of a read, write or pass-through command and whose operands fit it. -/
def Server.passesOn (srv : Server) (cmd : Command) : Bool :=
  match commandLimitError cmd srv.cfg, cmd.args with
  | none, arg :: operands =>
    if equalFold arg wordGET then operands.length = 1
    else fits srv.letters (srv.letters.toUpper arg) operands
  | _, _ => false

theorem not_calls_of_uses {p : Run α} (h : p.Uses Action.NoCall) : ¬CallsService p := fun hc => hc h

theorem calls_call (c : Call) (timeout : Option Time) (k : (Action.call c timeout).Resp → Run α) :
    CallsService (.act (.call c timeout) k) := fun h => h.1

theorem not_calls_refuse (command msg : Bytes) (state : Option ConnectionState) :
    ¬CallsService (refuse command msg state) :=
  not_calls_of_uses ⟨trivial, fun _ => trivial⟩

theorem stopDispatch_noCall (state : Option ConnectionState) :
    (stopDispatch state).Uses Action.NoCall := by
  rw [stopDispatch]
  split
  · trivial
  · exact ⟨trivial, fun _ => trivial⟩

namespace Server

variable (srv : Server)

theorem not_calls_handleOverLimit (msg : Bytes) (state : Option ConnectionState) :
    ¬CallsService (handleOverLimit msg state) :=
  not_calls_of_uses ((stopDispatch_noCall state).bind fun _ =>
    ⟨trivial, fun _ => ⟨trivial, fun _ => trivial⟩⟩)

theorem not_calls_handleQuit (command : Bytes) (state : Option ConnectionState) :
    ¬CallsService (handleQuit command state) :=
  not_calls_of_uses ((stopDispatch_noCall state).bind fun _ =>
    ⟨trivial, fun _ => ⟨trivial, fun _ => trivial⟩⟩)

theorem not_calls_handlePing (command : Bytes) (args : List Bytes)
    (state : Option ConnectionState) : ¬CallsService (srv.handlePing command args state) := by
  rw [handlePing.eq_def]
  split
  · exact not_calls_of_uses ⟨trivial, fun _ => trivial⟩
  · exact not_calls_of_uses ⟨trivial, fun _ => trivial⟩
  · exact not_calls_refuse _ _ _

theorem not_calls_handleSelect (command : Bytes) (args : List Bytes)
    (state : Option ConnectionState) : ¬CallsService (srv.handleSelect command args state) := by
  rw [handleSelect.eq_def]
  split
  · split
    · exact not_calls_of_uses ⟨trivial, fun _ => trivial⟩
    · exact not_calls_refuse _ _ _
  · exact not_calls_refuse _ _ _

theorem calls_ite {c : Prop} [Decidable c] {p q : Run α} (hp : ¬CallsService p)
    (hq : CallsService q) : CallsService (if c then p else q) ↔ ¬c := by
  by_cases h : c
  · rw [if_pos h]
    exact ⟨fun hc => absurd hc hp, fun hn => absurd h hn⟩
  · rw [if_neg h]
    exact ⟨fun _ => h, fun _ => hq⟩

theorem calls_handleGet (arg : Bytes) (operands : List Bytes) (state : Option ConnectionState) :
    CallsService (srv.handleGet (arg :: operands) state) ↔ operands.length = 1 := by
  match operands with
  | [] => exact ⟨fun h => absurd h (not_calls_refuse _ _ _), fun h => nomatch h⟩
  | [key] => exact ⟨fun _ => rfl, fun _ => calls_call _ _ _⟩
  | _ :: _ :: _ => exact ⟨fun h => absurd h (not_calls_refuse _ _ _), fun h => nomatch h⟩

theorem calls_handleSet (command arg : Bytes) (operands : List Bytes)
    (state : Option ConnectionState) :
    CallsService (srv.handleSet command (arg :: operands) state) ↔
      2 ≤ operands.length ∧ setUsesGetOption srv.letters (operands.drop 2) = false := by
  match operands with
  | [] => exact ⟨fun h => absurd h (not_calls_refuse _ _ _), fun h => absurd h.1 (by decide)⟩
  | [_] =>
    exact ⟨fun h => absurd h (not_calls_refuse _ _ _), fun h => absurd h.1 (Nat.not_succ_le_self 1)⟩
  | key :: value :: options =>
    refine (calls_ite (not_calls_refuse _ _ _) (calls_call _ _ _)).trans ?_
    rw [Bool.not_eq_true]
    exact ⟨fun h => ⟨Nat.le_add_left _ _, h⟩, fun h => h.2⟩

theorem calls_handleMGet (command arg : Bytes) (operands : List Bytes)
    (state : Option ConnectionState) :
    CallsService (srv.handleMGet command (arg :: operands) state) ↔ 1 ≤ operands.length := by
  refine (calls_ite (not_calls_refuse _ _ _) (calls_call _ _ _)).trans ?_
  rw [List.length_cons]
  omega

theorem calls_handleKeysWrite (command arg : Bytes) (operands : List Bytes)
    (state : Option ConnectionState) :
    CallsService (srv.handleKeysWrite command (arg :: operands) state) ↔ 1 ≤ operands.length := by
  refine (calls_ite (not_calls_refuse _ _ _) (calls_call _ _ _)).trans ?_
  rw [List.length_cons]
  omega

theorem calls_handleExists (command arg : Bytes) (operands : List Bytes)
    (state : Option ConnectionState) :
    CallsService (srv.handleExists command (arg :: operands) state) ↔ 1 ≤ operands.length := by
  refine (calls_ite (not_calls_refuse _ _ _) (calls_call _ _ _)).trans ?_
  rw [List.length_cons]
  omega

theorem calls_ite' {c : Prop} [Decidable c] {p q : Run α} (hp : CallsService p)
    (hq : ¬CallsService q) : CallsService (if c then p else q) ↔ c := by
  by_cases h : c
  · rw [if_pos h]
    exact ⟨fun _ => h, fun _ => hp⟩
  · rw [if_neg h]
    exact ⟨fun hc => absurd hc hq, fun hc => absurd hc h⟩

theorem calls_handleKeyWrite (count : Nat) (command arg : Bytes) (operands : List Bytes)
    (state : Option ConnectionState) :
    CallsService (srv.handleKeyWrite (count + 1) command (arg :: operands) state) ↔
      operands.length = count := by
  refine (calls_ite' (calls_call _ _ _) (not_calls_refuse _ _ _)).trans ?_
  rw [List.length_cons, Nat.add_right_cancel_iff]

theorem calls_handleTTL (command arg : Bytes) (operands : List Bytes)
    (state : Option ConnectionState) :
    CallsService (srv.handleTTL command (arg :: operands) state) ↔ operands.length = 1 := by
  refine (calls_ite' (calls_call _ _ _) (not_calls_refuse _ _ _)).trans ?_
  rw [List.length_cons, Nat.add_right_cancel_iff]

theorem calls_ite_iff {c P : Prop} [Decidable c] {p q : Run α} (hp : c → (CallsService p ↔ P))
    (hq : ¬c → (CallsService q ↔ P)) : CallsService (if c then p else q) ↔ P := by
  by_cases h : c
  · rw [if_pos h]
    exact hp h
  · rw [if_neg h]
    exact hq h

theorem calls_handleCommand (command arg : Bytes) (operands : List Bytes)
    (state : Option ConnectionState) :
    CallsService (srv.handleCommand command (arg :: operands) state) ↔
      fits srv.letters command operands = true := by
  rw [handleCommand]
  apply calls_ite_iff
  · rintro rfl
    exact ⟨fun h => absurd h (srv.not_calls_handlePing _ _ _), fun h => nomatch h⟩
  intro hping
  apply calls_ite_iff
  · rintro rfl
    exact ⟨fun h => absurd h (not_calls_handleQuit _ _), fun h => nomatch h⟩
  intro hquit
  apply calls_ite_iff
  · rintro rfl
    exact ⟨fun h => absurd h (srv.not_calls_handleSelect _ _ _), fun h => nomatch h⟩
  intro hselect
  apply calls_ite_iff
  · rintro rfl
    exact (srv.calls_handleMGet _ _ _ _).trans decide_eq_true_iff.symm
  intro hmget
  apply calls_ite_iff
  · rintro rfl
    exact (srv.calls_handleSet _ _ _ _).trans decide_eq_true_iff.symm
  intro hset
  apply calls_ite_iff
  · rintro (rfl | rfl) <;>
      exact (srv.calls_handleKeyWrite 3 _ _ _ _).trans decide_eq_true_iff.symm
  intro hsetex
  apply calls_ite_iff
  · rintro (rfl | rfl) <;>
      exact (srv.calls_handleKeysWrite _ _ _ _).trans decide_eq_true_iff.symm
  intro hdel
  apply calls_ite_iff
  · rintro (rfl | rfl) <;>
      exact (srv.calls_handleKeyWrite 2 _ _ _ _).trans decide_eq_true_iff.symm
  intro hexpire
  apply calls_ite_iff
  · rintro rfl
    exact (srv.calls_handleKeyWrite 1 _ _ _ _).trans decide_eq_true_iff.symm
  intro hpersist
  apply calls_ite_iff
  · rintro (rfl | rfl) <;>
      exact (srv.calls_handleTTL _ _ _ _).trans decide_eq_true_iff.symm
  intro httl
  apply calls_ite_iff
  · rintro rfl
    exact (srv.calls_handleExists _ _ _ _).trans decide_eq_true_iff.symm
  intro hexists
  refine ⟨fun h => absurd h (not_calls_refuse _ _ _), fun h => ?_⟩
  simp_all [fits]

/-- The commands of the `switch` that reach the service. -/
def forwarded : List Bytes :=
  [ascii "MGET", ascii "DEL", ascii "UNLINK", ascii "EXISTS", ascii "SET", ascii "SETEX",
    ascii "PSETEX", ascii "EXPIRE", ascii "PEXPIRE", ascii "PERSIST", ascii "TTL", ascii "PTTL"]

theorem mem_forwarded {table : Letters} (h : fits table command operands = true) :
    command ∈ forwarded := by
  by_contra hnot
  simp_all [forwarded, fits]

theorem forwarded_class : ∀ command ∈ forwarded,
    isUnsafeClass (classifyNormalizedCommand command) = false ∧
      isRejectedMutationClass (classifyNormalizedCommand command) = false := by
  decide +kernel

theorem forwarded_catalog : ∀ command ∈ ascii "GET" :: forwarded,
    ∃ entry ∈ commandCatalog, entry.1 = command ∧
      entry.2 ∈ [Class.read, .write, .passThrough] := by
  decide +kernel

theorem calls_handleParsed (raw arg : Bytes) (operands : List Bytes)
    (state : Option ConnectionState) :
    CallsService (srv.handleParsed ⟨raw, arg :: operands⟩ state) ↔
      fits srv.letters (srv.letters.toUpper arg) operands = true := by
  change CallsService (if _ then _ else if _ then _ else _) ↔ _
  split
  · next hunsafe =>
    refine ⟨fun h => absurd h (not_calls_refuse _ _ _), fun h => ?_⟩
    have hclass := (forwarded_class _ (mem_forwarded h)).1
    exact absurd (hclass.symm.trans hunsafe) Bool.false_ne_true
  split
  · next hrejected =>
    refine ⟨fun h => absurd h (not_calls_refuse _ _ _), fun h => ?_⟩
    have hclass := (forwarded_class _ (mem_forwarded h)).2
    exact absurd (hclass.symm.trans hrejected) Bool.false_ne_true
  · exact srv.calls_handleCommand _ arg operands state

theorem calls_handleLimited (cmd : Command) (state : Option ConnectionState) :
    CallsService (srv.handleLimited cmd state) ↔ srv.passesOn cmd = true := by
  obtain ⟨raw, args⟩ := cmd
  rw [handleLimited, passesOn]
  cases commandLimitError ⟨raw, args⟩ srv.cfg with
  | some msg => exact ⟨fun h => absurd h (not_calls_handleOverLimit _ _), fun h => nomatch h⟩
  | none =>
    cases args with
    | nil => exact ⟨fun h => absurd h (not_calls_refuse _ _ _), fun h => nomatch h⟩
    | cons arg operands =>
      by_cases hget : equalFold arg wordGET = true
      · simp only [namesGet, hget, if_true]
        exact (srv.calls_handleGet arg operands state).trans decide_eq_true_iff.symm
      · simp only [namesGet, hget, if_false, Bool.false_eq_true]
        exact srv.calls_handleParsed raw arg operands state

theorem calls_handle (cmd : Command) (state : Option ConnectionState) :
    CallsService (srv.handle cmd state) ↔ srv.passesOn cmd = true := by
  rw [← srv.calls_handleLimited cmd state]
  apply not_congr
  constructor
  · intro h
    exact Prog.Uses.of_bind (h.2 0)
  · intro h
    exact ⟨trivial, fun start => h.bind fun handled =>
      ⟨trivial, fun finish => ⟨trivial, fun _ => trivial⟩⟩⟩

end Server

/-- The name of the command is, up to ASCII case, that of a cataloged read, write or pass-through
command. -/
def NamesCataloged (cmd : Command) : Prop :=
  ∃ arg operands, cmd.args = arg :: operands ∧ ∃ entry ∈ commandCatalog,
    entry.2 ∈ [Class.read, .write, .passThrough] ∧ arg.map upperASCII = entry.1

def AsciiName (cmd : Command) : Prop := ∀ arg ∈ cmd.args.head?, ∀ b ∈ arg, b < 128

theorem catalog_ascii : ∀ entry ∈ commandCatalog, ∀ b ∈ entry.1, b < 128 := by
  have hall : ∀ entry ∈ commandCatalog, entry.1.all (· < 128) = true := by decide +kernel
  exact fun entry he => lt_of_all (hall entry he)

theorem NamesCataloged.asciiName (h : NamesCataloged cmd) : AsciiName cmd := by
  obtain ⟨arg, operands, hargs, entry, hmem, _, heq⟩ := h
  intro name hname b hb
  rw [hargs] at hname
  cases hname
  apply lt_of_upperASCII_lt
  apply catalog_ascii entry hmem
  rw [← heq]
  exact List.mem_map_of_mem hb

theorem Server.passesOn_name {table : CaseTable} {cfg : ProxyConfig}
    (h : (⟨cfg, table.letters⟩ : Server).passesOn cmd = true) : ∃ arg operands,
    cmd.args = arg :: operands ∧ table.letters.toUpper arg ∈ ascii "GET" :: forwarded := by
  obtain ⟨raw, args⟩ := cmd
  rw [passesOn.eq_def] at h
  split at h
  · next arg operands _ hargs =>
    refine ⟨arg, operands, hargs, ?_⟩
    by_cases hget : equalFold arg wordGET = true
    · rw [(table.equalFold_get arg).1 hget]
      exact List.mem_cons_self
    · rw [if_neg hget] at h
      exact List.mem_cons_of_mem _ (mem_forwarded h)
  · cases h

/-- A command that is passed on has a cataloged name up to the case mapping, which is one up to
ASCII case if and only if it consists of ASCII. -/
theorem Server.passesOn_cataloged {table : CaseTable} {cfg : ProxyConfig}
    (h : (⟨cfg, table.letters⟩ : Server).passesOn cmd = true) :
    NamesCataloged cmd ↔ AsciiName cmd := by
  refine ⟨NamesCataloged.asciiName, fun hname => ?_⟩
  obtain ⟨arg, operands, hargs, hforwarded⟩ := passesOn_name h
  obtain ⟨entry, hmem, hentry, hclass⟩ := forwarded_catalog _ hforwarded
  have hspells : Spells arg entry.1 :=
    (table.toUpper_iff arg entry.1 (catalog_ascii entry hmem)).1 hentry.symm
  refine ⟨arg, operands, hargs, entry, hmem, hclass, hspells.ascii_iff.2 ?_⟩
  intro b hb
  exact hname arg (by rw [hargs]; rfl) b hb

/-- `handle` calls the service only under a cataloged name up to ASCII case, exactly for the
commands that it does not pass on and those whose name is ASCII. A spelling of `GET` always takes
the short way and a spelling of `MGET` is always held to its limit. -/
theorem dispatch_name_iff (table : CaseTable) (cfg : ProxyConfig) (cmd : Command)
    (state : Option ConnectionState) :
    let srv : Server := ⟨cfg, table.letters⟩
    ((CallsService (srv.handle cmd state) → NamesCataloged cmd) ↔
        (srv.passesOn cmd = true → AsciiName cmd)) ∧
      ∀ arg operands, cmd.args = arg :: operands →
        (table.letters.toUpper arg = ascii "GET" → commandLimitError cmd cfg = none →
          srv.handleLimited cmd state = srv.handleGet cmd.args state) ∧
        (table.letters.toUpper arg = ascii "MGET" → cfg.maxMGetKeys < operands.length →
          ∃ msg, commandLimitError cmd cfg = some msg ∧
            srv.handleLimited cmd state = Server.handleOverLimit msg state) := by
  intro srv
  constructor
  · rw [srv.calls_handle]
    exact forall_congr' fun h => Server.passesOn_cataloged h
  · intro arg operands hargs
    constructor
    · intro hget hlimit
      have hnames : Server.namesGet cmd.args = true := by
        rw [hargs]
        exact (table.equalFold_get arg).2 hget
      rw [Server.handleLimited, hlimit]
      exact if_pos hnames
    · intro hmget hkeys
      have hnames : namesMGet cmd.args = true := by
        rw [hargs]
        exact (table.equalFold_mget arg).2 hmget
      have hsome : commandLimitError cmd cfg ≠ none := by
        rw [commandLimitError]
        split
        · exact Option.some_ne_none _
        split
        · exact Option.some_ne_none _
        · rw [if_pos ⟨hnames, by rw [hargs, List.length_cons]; omega⟩]
          exact Option.some_ne_none _
      obtain ⟨msg, hmsg⟩ := Option.ne_none_iff_exists'.1 hsome
      exact ⟨msg, hmsg, by rw [Server.handleLimited, hmsg]⟩

/-- `SET` with a long s for its first letter, under the default limits: it is passed on. -/
theorem dispatch_long_s :
    let srv : Server := ⟨(Config.default "").proxy, asciiCase.letters⟩
    let cmd : Command := ⟨[], [[0xC5, 0xBF, 0x45, 0x54], ascii "k", ascii "v"]⟩
    CallsService (srv.handle cmd none) ∧ ¬NamesCataloged cmd := by
  intro srv cmd
  constructor
  · rw [srv.calls_handle]
    decide +kernel
  · intro h
    exact absurd (h.asciiName _ rfl 0xC5 List.mem_cons_self) (by decide)

end Slizen.Proxy
