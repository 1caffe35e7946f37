import Slizen.Proxy.Drain

namespace Slizen.Proxy
set_option autoImplicit true

open Interleaving

/-- `connectionState`, which `conn.Context()` holds. Only the goroutine of the connection uses it,
so it is passed along; `none` is a context of another type. -/
structure ConnectionState where
  dispatchStopped : Bool := false
  metricCounted : Bool := false

/-- What `handle` has done with a command: the label of the command, whether the result is "ok",
and the state of the connection. -/
structure Handled where
  command : Bytes
  ok : Bool
  state : Option ConnectionState

structure Server where
  cfg : ProxyConfig
  letters : Letters

def write (w : Write) : Run Unit := Run.do (.write w)

def dispatchStopped (state : Option ConnectionState) : Bool :=
  match state with
  | some state => state.dispatchStopped
  | none => false

def stopDispatch (state : Option ConnectionState) : Run (Option ConnectionState) :=
  if dispatchStopped state then pure state
  else do
    Run.do .readPipeline
    pure (some { state.getD {} with dispatchStopped := true })

def writeUpstreamError : Run Unit := write (.error (ascii "ERR upstream request failed"))

mutual

def writeAny : Any → Run Unit
  | .nil => write .null
  | .string s => write (.string s)
  | .bytes b => write (.bulk b)
  | .int n => write (.int n)
  | .int64 n => write (.int64 n)
  | .uint64 n => write (.uint64 n)
  | .bool b => if b then write (.int 1) else write (.int 0)
  | .array items => do
    write (.array items.length)
    writeItems items
  | .other text => write (.bulkString text)

def writeItems : List Any → Run Unit
  | [] => pure ()
  | item :: items => do
    writeAny item
    writeItems items

end

/-- A value that a read has found, or null. -/
def writeValue (value : Value) : Run Unit :=
  if value.exists? then write (.bulk value.data.bytes) else write .null

def writeValues : List Value → Run Unit
  | [] => pure ()
  | value :: values => do
    writeValue value
    writeValues values

def refuse (command msg : Bytes) (state : Option ConnectionState) : Run Handled := do
  write (.error msg)
  pure ⟨command, false, state⟩

def respond (command : Bytes) (state : Option ConnectionState) (r : Except Error α)
    (answer : α → Run Unit) : Run Handled :=
  match r with
  | .error _ => do
    writeUpstreamError
    pure ⟨command, false, state⟩
  | .ok value => do
    answer value
    pure ⟨command, true, state⟩

namespace Server

variable (srv : Server)

def handleGet (args : List Bytes) (state : Option ConnectionState) : Run Handled :=
  match args with
  | [_, key] => do
    let r ← Run.do (.call (.get key) none)
    respond (ascii "GET") state r writeValue
  | _ => refuse (ascii "GET") (wrongArity srv.letters (ascii "GET")) state

def handlePing (command : Bytes) (args : List Bytes) (state : Option ConnectionState) :
    Run Handled :=
  match args with
  | [_] => do
    write (.string (ascii "PONG"))
    pure ⟨command, true, state⟩
  | [_, payload] => do
    write (.bulkString payload)
    pure ⟨command, true, state⟩
  | _ => refuse command (wrongArity srv.letters command) state

def handleQuit (command : Bytes) (state : Option ConnectionState) : Run Handled := do
  let state ← stopDispatch state
  write (.string (ascii "OK"))
  let _ ← Run.do .connClose
  pure ⟨command, true, state⟩

def handleSelect (command : Bytes) (args : List Bytes) (state : Option ConnectionState) :
    Run Handled :=
  match args with
  | [_, database] =>
    if database = ascii "0" then do
      write (.string (ascii "OK"))
      pure ⟨command, true, state⟩
    else
      refuse command (ascii "ERR SELECT is supported only for database 0 in Slizen") state
  | _ => refuse command (wrongArity srv.letters command) state

def handleMGet (command : Bytes) (args : List Bytes) (state : Option ConnectionState) :
    Run Handled :=
  if args.length < 2 then refuse command (wrongArity srv.letters command) state
  else do
    let r ← Run.do (.call (.mget args.tail) (some srv.cfg.readTimeout))
    respond command state r fun values => do
      write (.array values.length)
      writeValues values

/-- Execute a write that names these keys. -/
def forwardWrite (command : Bytes) (args keys : List Bytes) (state : Option ConnectionState) :
    Run Handled := do
  let r ← Run.do (.call (.executeWrite command args keys) (some srv.cfg.readTimeout))
  respond command state r writeAny

def forwardRead (command : Bytes) (args : List Bytes) (state : Option ConnectionState) :
    Run Handled := do
  let r ← Run.do (.call (.passThrough command args) (some srv.cfg.readTimeout))
  respond command state r writeAny

def handleSet (command : Bytes) (args : List Bytes) (state : Option ConnectionState) :
    Run Handled :=
  match args with
  | _ :: key :: value :: options =>
    if setUsesGetOption srv.letters options then refuse command rejectedSetGet state
    else srv.forwardWrite command (key :: value :: options) [key] state
  | _ => refuse command (wrongArity srv.letters command) state

/-- A write of one key that takes a fixed number of arguments, the name of the command counted. -/
def handleKeyWrite (count : Nat) (command : Bytes) (args : List Bytes)
    (state : Option ConnectionState) : Run Handled :=
  if args.length = count then srv.forwardWrite command args.tail (args.tail.take 1) state
  else refuse command (wrongArity srv.letters command) state

/-- `DEL` and `UNLINK` name all of their arguments. -/
def handleKeysWrite (command : Bytes) (args : List Bytes) (state : Option ConnectionState) :
    Run Handled :=
  if args.length < 2 then refuse command (wrongArity srv.letters command) state
  else srv.forwardWrite command args.tail args.tail state

def handleTTL (command : Bytes) (args : List Bytes) (state : Option ConnectionState) :
    Run Handled :=
  if args.length = 2 then srv.forwardRead command args.tail state
  else refuse command (wrongArity srv.letters command) state

def handleExists (command : Bytes) (args : List Bytes) (state : Option ConnectionState) :
    Run Handled :=
  if args.length < 2 then refuse command (wrongArity srv.letters command) state
  else srv.forwardRead command args.tail state

/-- The `switch` of `handle`. -/
def handleCommand (command : Bytes) (args : List Bytes) (state : Option ConnectionState) :
    Run Handled :=
  if command = ascii "PING" then srv.handlePing command args state
  else if command = ascii "QUIT" then handleQuit command state
  else if command = ascii "SELECT" then srv.handleSelect command args state
  else if command = ascii "MGET" then srv.handleMGet command args state
  else if command = ascii "SET" then srv.handleSet command args state
  else if command = ascii "SETEX" ∨ command = ascii "PSETEX" then
    srv.handleKeyWrite 4 command args state
  else if command = ascii "DEL" ∨ command = ascii "UNLINK" then
    srv.handleKeysWrite command args state
  else if command = ascii "EXPIRE" ∨ command = ascii "PEXPIRE" then
    srv.handleKeyWrite 3 command args state
  else if command = ascii "PERSIST" then srv.handleKeyWrite 2 command args state
  else if command = ascii "TTL" ∨ command = ascii "PTTL" then srv.handleTTL command args state
  else if command = ascii "EXISTS" then srv.handleExists command args state
  else refuse command (unsupported srv.letters (srv.letters.toUpper command)) state

def handleParsed (cmd : Command) (state : Option ConnectionState) : Run Handled :=
  match parseCommand srv.letters cmd with
  | .error _ => refuse (ascii "UNKNOWN") (ascii "ERR empty command") state
  | .ok parsed =>
    let cls := classifyNormalizedCommand parsed.name
    if isUnsafeClass cls then
      refuse parsed.name (rejectedUnsafe srv.letters parsed.name) state
    else if isRejectedMutationClass cls then
      refuse parsed.name (rejectedMutation srv.letters parsed.name) state
    else srv.handleCommand parsed.name parsed.args state

def namesGet : List Bytes → Bool
  | [] => false
  | arg :: _ => equalFold arg wordGET

/-- A command over a limit ends the connection. -/
def handleOverLimit (limitError : Bytes) (state : Option ConnectionState) : Run Handled := do
  let state ← stopDispatch state
  write (.error limitError)
  let _ ← Run.do .connClose
  pure ⟨ascii "UNKNOWN", false, state⟩

/-- `handle` up to its deferred call. -/
def handleLimited (cmd : Command) (state : Option ConnectionState) : Run Handled :=
  match commandLimitError cmd srv.cfg with
  | some limitError => handleOverLimit limitError state
  | none =>
    if namesGet cmd.args then srv.handleGet cmd.args state else srv.handleParsed cmd state

def handle (cmd : Command) (state : Option ConnectionState) : Run (Option ConnectionState) := do
  let start ← Run.do .now
  let handled ← srv.handleLimited cmd state
  let finish ← Run.do .now
  Run.do (.observeRequest handled.command handled.ok (finish - start))
  pure handled.state

def finishHandler (conn : Option Conn) (state : Option ConnectionState) :
    Run (Option ConnectionState) := do
  let r ← prepareHandlerDone conn srv.cfg.readTimeout srv.cfg.writeTimeout
  if r.1 then
    let state ← stopDispatch state
    let _ ← Run.do .connClose
    completeDrainingHandler
    pure state
  else pure state

/-- The answer to a command that a drain has forestalled. -/
def refuseShutdown (state : Option ConnectionState) : Run (Option ConnectionState) := do
  let state ← stopDispatch state
  write (.error (ascii "TRYAGAIN Slizen is shutting down"))
  let _ ← Run.do .connClose
  pure state

def dispatch (conn : Option Conn) (cmd : Command) (state : Option ConnectionState) :
    Run (Option ConnectionState) :=
  if dispatchStopped state then pure state
  else do
    let admitted ← beginHandler
    if admitted then
      let state ← srv.handle cmd state
      srv.finishHandler conn state
    else refuseShutdown state

/-- The commands of one connection, in the order in which redcon has parsed them. -/
def dispatchAll (conn : Option Conn) :
    List Command → Option ConnectionState → Run (Option ConnectionState)
  | [], state => pure state
  | cmd :: cmds, state => do
    let state ← srv.dispatch conn cmd state
    dispatchAll conn cmds state

end Server
end Slizen.Proxy
