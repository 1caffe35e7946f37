import Slizen.Config

namespace Slizen
set_option autoImplicit true

def ascii (s : String) : Bytes := s.toList.map fun c => UInt8.ofNat c.toNat

/-- `compatibility.Class`. -/
inductive Class where
  | localCommand
  | read
  | write
  | passThrough
  | rejectedMutation
  | rejectedStateful
  | rejectedBlocking
  | unsupported
  deriving DecidableEq

/-- `commandCatalog`, a command and its class. The texts for the compatibility report are left
out. -/
def commandCatalog : List (Bytes × Class) :=
  [(ascii "BLMOVE", .rejectedBlocking),
    (ascii "BLPOP", .rejectedBlocking),
    (ascii "BRPOP", .rejectedBlocking),
    (ascii "BRPOPLPUSH", .rejectedBlocking),
    (ascii "BZPOPMAX", .rejectedBlocking),
    (ascii "BZPOPMIN", .rejectedBlocking),
    (ascii "DEL", .write),
    (ascii "EXEC", .rejectedStateful),
    (ascii "EXISTS", .passThrough),
    (ascii "EXPIRE", .write),
    (ascii "GET", .read),
    (ascii "HDEL", .rejectedMutation),
    (ascii "HSET", .rejectedMutation),
    (ascii "LPOP", .rejectedMutation),
    (ascii "LPUSH", .rejectedMutation),
    (ascii "MGET", .read),
    (ascii "MONITOR", .rejectedStateful),
    (ascii "MSET", .rejectedMutation),
    (ascii "MULTI", .rejectedStateful),
    (ascii "PERSIST", .write),
    (ascii "PEXPIRE", .write),
    (ascii "PING", .localCommand),
    (ascii "PSETEX", .write),
    (ascii "PSUBSCRIBE", .rejectedStateful),
    (ascii "PTTL", .passThrough),
    (ascii "QUIT", .localCommand),
    (ascii "RENAME", .rejectedMutation),
    (ascii "RPOP", .rejectedMutation),
    (ascii "RPUSH", .rejectedMutation),
    (ascii "SADD", .rejectedMutation),
    (ascii "SELECT", .localCommand),
    (ascii "SET", .write),
    (ascii "SETEX", .write),
    (ascii "SREM", .rejectedMutation),
    (ascii "SSUBSCRIBE", .rejectedStateful),
    (ascii "SUBSCRIBE", .rejectedStateful),
    (ascii "TTL", .passThrough),
    (ascii "UNLINK", .write),
    (ascii "UNWATCH", .rejectedStateful),
    (ascii "WATCH", .rejectedStateful),
    (ascii "XREAD", .rejectedBlocking),
    (ascii "XREADGROUP", .rejectedBlocking)]

/-- The class of `LookupNormalized`. `sort.Search` finds the first command that is not less. -/
def lookupNormalized (command : Bytes) : Class :=
  match commandCatalog.find? fun e => command ≤ e.1 with
  | some (name, cls) => if name = command then cls else .unsupported
  | none => .unsupported

namespace Proxy

/-- `redcon.Command`. -/
structure Command where
  raw : Bytes
  args : List Bytes

/-- `strings.ToUpper` and `strings.ToLower`, which follow the Unicode tables. -/
structure Letters where
  toUpper : Bytes → Bytes
  toLower : Bytes → Bytes

structure ParsedCommand where
  name : Bytes
  args : List Bytes

def wordGET : Bytes := ascii "get"

def wordMGET : Bytes := ascii "mget"

section

variable (letters : Letters)

def parseCommand (cmd : Command) : Except String ParsedCommand :=
  match cmd.args with
  | [] => .error "empty command"
  | arg :: args => .ok ⟨letters.toUpper arg, arg :: args⟩

def wrongArity (name : Bytes) : Bytes :=
  ascii "ERR wrong number of arguments for '" ++ letters.toLower name ++ ascii "' command"

def unsupported (name : Bytes) : Bytes :=
  ascii "ERR unsupported command '" ++ letters.toLower name ++ ascii "' in Slizen"

def rejectedUnsafe (name : Bytes) : Bytes :=
  ascii "ERR command '" ++ letters.toLower name ++
    ascii "' is stateful or unsafe and is not supported by Slizen"

def rejectedSetGet : Bytes := ascii "ERR SET GET option is not supported by Slizen"

def rejectedMutation (name : Bytes) : Bytes :=
  ascii "ERR mutating command '" ++ letters.toLower name ++ ascii "' is not supported by Slizen"

def takesOperand (option : Bytes) : Bool :=
  letters.toUpper option ∈ [ascii "EX", ascii "PX", ascii "EXAT", ascii "PXAT"]

def setUsesGetOption : List Bytes → Bool
  | [] => false
  | [option] => letters.toUpper option = ascii "GET"
  | option :: operand :: options =>
    if letters.toUpper option = ascii "GET" then true
    else if takesOperand letters option then setUsesGetOption options
    else setUsesGetOption (operand :: options)

end

def classifyNormalizedCommand (name : Bytes) : Class := lookupNormalized name

def isUnsafeClass (cls : Class) : Bool := cls = .rejectedStateful ∨ cls = .rejectedBlocking

def isRejectedMutationClass (cls : Class) : Bool := cls = .rejectedMutation

/-- The loop of `commandBytesExceed` over the arguments. -/
def argsExceed : List Bytes → Int → Bool
  | [], _ => false
  | arg :: args, remaining =>
    if arg.length > remaining then true else argsExceed args (remaining - arg.length)

def commandBytesExceed (cmd : Command) (maximum : Int) : Bool :=
  if cmd.raw.length > 0 then cmd.raw.length > maximum else argsExceed cmd.args maximum

def namesMGet : List Bytes → Bool
  | [] => false
  | arg :: _ => equalFold arg wordMGET

def commandLimitError (cmd : Command) (cfg : ProxyConfig) : Option Bytes :=
  if commandBytesExceed cmd cfg.maxCommandBytes then
    some (ascii "ERR command exceeds proxy.max_command_bytes")
  else if cmd.args.length > cfg.maxCommandArgs then
    some (ascii "ERR command exceeds proxy.max_command_args")
  else if namesMGet cmd.args ∧ (cmd.args.length : Int) - 1 > cfg.maxMGetKeys then
    some (ascii "ERR MGET exceeds proxy.max_mget_keys")
  else none

end Proxy
end Slizen
