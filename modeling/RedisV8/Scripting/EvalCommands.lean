import RedisV8.Aof.Streams
import RedisV8.Replication.Master

/-!
# EVAL, EVALSHA and SCRIPT

A script is known by the SHA1 digest of its body.  Replicas and the log get
the body the first time an `EVALSHA` is propagated and the digest from then on;
the replication script cache says which digests all of them know.  What a
script does to the data set is a parameter: only whether it made the server
dirty, and the propagation it forced, matter here.
-/

namespace RedisV8.Scripting

open Util Networking Replication

/-- The digests, and the bodies that the interpreter can compile. -/
structure Lua where
  sha1hex : Bytes → Bytes
  sha1hex_length : ∀ body, (sha1hex body).length = 40
  sha1hex_ne_zero : ∀ body, ∀ b ∈ sha1hex body, b ≠ 0
  compiles : Bytes → Bool

/-- `luaScripts` holds the bodies of the functions that are defined.  The
script cache is a field of `repl`. -/
structure Server where
  luaScripts : List Bytes
  repl : Master
  aof : Aof.Server Unit

/-- What the procedure of a command leaves for `call`: whether the dirty
counter moved, and the `REDIS_FORCE_REPL` and `REDIS_FORCE_AOF` flags. -/
structure Effect where
  dirty : Bool
  forceRepl : Bool
  forceAof : Bool
  deriving DecidableEq, Repr

def Effect.nothing : Effect := ⟨false, false, false⟩

/-! ## The replication script cache -/

section Cache

/-- `repl_scriptcache_size`. -/
def scriptcacheSize : ℕ := 10000

/-- The fifo, the newest digest first, from which the oldest is evicted. -/
def replicationScriptCacheAdd (cache : List Bytes) (sha1 : Bytes) :
    List Bytes :=
  sha1 :: if cache.length = scriptcacheSize then cache.dropLast else cache

/-- The keys are compared without regard to case. -/
def replicationScriptCacheExists (cache : List Bytes) (sha1 : Bytes) : Bool :=
  cache.any (Master.sameText sha1)

end Cache

namespace Server

def scriptCache (s : Server) : List Bytes := s.repl.scriptCache

def setScriptCache (s : Server) (cache : List Bytes) : Server :=
  { s with repl := { s.repl with scriptCache := cache } }

def replicationScriptCacheFlush (s : Server) : Server :=
  s.setScriptCache []

/-! ## The commands -/

section Commands

variable (lua : Lua)

/-- The script that the function `f_<sha1>` was defined from. -/
def script (s : Server) (sha1 : Bytes) : Option Bytes :=
  s.luaScripts.find? fun body => lua.sha1hex body = sha1

def luaCreateFunction (s : Server) (body : Bytes) : Option Server :=
  if lua.compiles body then
    some { s with luaScripts := s.luaScripts ++ [body] }
  else none

/-- The check of `numkeys`. -/
def numkeysOk (argv : List Bytes) : Bool :=
  match getLongLongFromObject (argv.getD 2 []) with
  | some numkeys => numkeys ≤ (argv.length : ℤ) - 3
  | none => false

/-- A procedure's effect on the server, the vector that `call` propagates, and
the grounds for propagating it.  `run` is the effect of running the script. -/
def evalCommand (s : Server) (argv : List Bytes) (run : Effect) :
    Server × List Bytes × Effect :=
  let body := argv.getD 1 []
  if numkeysOk argv then
    match s.script lua (lua.sha1hex body) with
    | some _ => (s, argv, run)
    | none =>
      match s.luaCreateFunction lua body with
      | none => (s, argv, Effect.nothing)
      | some s => (s, argv, run)
  else (s, argv, Effect.nothing)

/-- A digest that is not in the cache goes into it, and the vector becomes
that of an `EVAL`. -/
def evalShaCommand (s : Server) (argv : List Bytes) (run : Effect) :
    Server × List Bytes × Effect :=
  let sha := argv.getD 1 []
  if sha.length = 40 ∧ numkeysOk argv then
    match s.script lua (sha.map tolower) with
    | none => (s, argv, Effect.nothing)
    | some body =>
      if replicationScriptCacheExists s.scriptCache sha then (s, argv, run)
      else
        (s.setScriptCache (replicationScriptCacheAdd s.scriptCache sha),
          ascii "EVAL" :: body :: argv.drop 2, run)
  else (s, argv, Effect.nothing)

/-- `SCRIPT LOAD`, after the number of arguments was checked. -/
def scriptLoad (s : Server) (argv : List Bytes) :
    Server × List Bytes × Effect :=
  let body := argv.getD 2 []
  let forced : Effect := ⟨false, true, true⟩
  match s.script lua (lua.sha1hex body) with
  | some _ => (s, argv, forced)
  | none =>
    match s.luaCreateFunction lua body with
    | none => (s, argv, Effect.nothing)
    | some s => (s, argv, forced)

/-- The other subcommands only reply. -/
def scriptCommand (s : Server) (argv : List Bytes) :
    Server × List Bytes × Effect :=
  if argv.length = 2 ∧ isText "flush" (argv.getD 1 []) then
    ({ s with luaScripts := [] }.replicationScriptCacheFlush, argv,
      ⟨true, false, false⟩)
  else if argv.length = 3 ∧ isText "load" (argv.getD 1 []) then
    s.scriptLoad lua argv
  else (s, argv, Effect.nothing)

/-- `processCommand` up to the call of the procedure; a vector that is too
short is refused.  `run` is the effect of a command of another name. -/
def proc (s : Server) (argv : List Bytes) (run : Effect) :
    Server × List Bytes × Effect :=
  let name := argv.getD 0 []
  if isText "eval" name then
    if 3 ≤ argv.length then s.evalCommand lua argv run
    else (s, argv, Effect.nothing)
  else if isText "evalsha" name then
    if 3 ≤ argv.length then s.evalShaCommand lua argv run
    else (s, argv, Effect.nothing)
  else if isText "script" name then s.scriptCommand lua argv
  else (s, argv, run)

def propagate (s : Server) (dictid : ℕ) (argv : List Bytes)
    (repl aof : Bool) : Server :=
  { s with
    aof := if aof then s.aof.propagate 0 .other dictid argv else s.aof
    repl := if repl then s.repl.replicationFeedSlaves dictid argv
      else s.repl }

def call (s : Server) (dictid : ℕ) (argv : List Bytes) (run : Effect) :
    Server :=
  let (s, argv, effect) := s.proc lua argv run
  s.propagate dictid argv (effect.forceRepl || effect.dirty)
    (effect.forceAof || effect.dirty)

end Commands

/-! ## Runs -/

/-- The fork of a rewrite, after which the log knows no scripts. -/
def rewriteAppendOnlyFileBackground (s : Server) (tmpfile : Bytes) :
    Option Server :=
  match s.aof.rewriteAppendOnlyFileBackground tmpfile with
  | none => none
  | some aof => some { s with aof := aof }.replicationScriptCacheFlush

def startAppendOnly (s : Server) (tmpfile : Bytes) : Server :=
  let started := { s with aof := s.aof.startAppendOnly tmpfile }
  if s.aof.child.isSome then started else started.replicationScriptCacheFlush

/-- The part of `replicationCron` that frees the cache. -/
def replicationCron (s : Server) : Server :=
  if s.repl.slaves.isEmpty ∧ s.aof.aofState = .off then
    s.replicationScriptCacheFlush
  else s

end Server

/-- `repl` covers synchronisations and the saves for them. -/
inductive Event where
  | command (dictid : ℕ) (argv : List Bytes) (run : Effect)
  | repl (event : Master.Event)
  | cron
  | flushAof
  | rewriteAof (tmpfile : Bytes)
  | rewriteAofDone (success opened renamed : Bool)
  | startAof (tmpfile : Bytes)
  | stopAof

def Server.step (lua : Lua) (s : Server) : Event → Server
  | .command dictid argv run => s.call lua dictid argv run
  | .repl event => { s with repl := s.repl.step event }
  | .cron => s.replicationCron
  | .flushAof => { s with aof := s.aof.flushAppendOnlyFile }
  | .rewriteAof tmpfile =>
    (s.rewriteAppendOnlyFileBackground tmpfile).getD s
  | .rewriteAofDone success opened renamed =>
    { s with
      aof := s.aof.backgroundRewriteDoneHandler success opened renamed }
  | .startAof tmpfile =>
    if s.aof.aofState = .off then s.startAppendOnly tmpfile else s
  | .stopAof =>
    if s.aof.aofState = .off then s
    else { s with aof := s.aof.stopAppendOnly }

/-! ## Receivers -/

section Receivers

variable (lua : Lua)

/-- One command at a receiver that knows the given digests: a body makes its
digest known, a flush forgets all of them, and a digest that is not known
cannot be resolved. -/
def receive (known : List Bytes) (argv : List Bytes) : Option (List Bytes) :=
  let name := argv.getD 0 []
  let arg := argv.getD 1 []
  if isText "eval" name then some (lua.sha1hex arg :: known)
  else if isText "evalsha" name then
    if known.contains (arg.map tolower) then some known else none
  else if isText "script" name then
    if argv.length = 2 ∧ isText "flush" arg then some []
    else if argv.length = 3 ∧ isText "load" arg then
      some (lua.sha1hex (argv.getD 2 []) :: known)
    else some known
  else some known

/-- The digests known to a replica that has read a stream from the time of its
snapshot, if every `EVALSHA` in it could be resolved. -/
def resolveReplica (stream : Bytes) : Option (List Bytes) :=
  Aof.runAll (receive lua) (commandsOf stream) []

/-- The same for a log. -/
def resolveLog (fp : Bytes) : Option (List Bytes) :=
  Aof.loadAll (receive lua) fp []

end Receivers

end RedisV8.Scripting
