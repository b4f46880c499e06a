import RedisV8.Commands.Strings

/-!
# The commands on keys of any type

`db.c`, and `RESTORE` and `MIGRATE` of `cluster.c`.
-/

namespace RedisV8.Commands

open Util Server Keyspace Effects

variable (int : Internals) (c : Client) (argv : List Bytes)

/-! ## Deleting and asking -/

/-- The loop of DEL, which does not look the keys up; the number of keys
deleted. -/
def delLoop (c : Client) : List Bytes → Cmd ℕ
  | [] => pure 0
  | key :: keys => do
      if ← dbDelete (c.db, key) then
        signalModifiedKey (c.db, key)
        notifyKeyspaceEvent .generic "del" (c.db, key)
        addDirty 1
        Nat.succ <$> delLoop c keys
      else delLoop c keys

def delCommand : Cmd Outcome := do
  let deleted ← delLoop c argv.tail
  addReply (.integer deleted)

/-- `expireIfNeeded` and `dbExists`. -/
def existsCommand : Cmd Outcome := do
  let _ ← lookupKeyRead (keyArg c argv 1)
  if ← dbExists (keyArg c argv 1) then addReply Reply.cone
  else addReply Reply.czero

def typeName : Value → Bytes
  | .string _ => ascii "string"
  | .list _ => ascii "list"
  | .set _ => ascii "set"
  | .hash _ => ascii "hash"
  | .zset _ => ascii "zset"

def typeCommand : Cmd Outcome :=
  readCommand (keyArg c argv 1) (.status (ascii "none"))
    fun value => .status (typeName value)

def selectCommand (_ : Client) (argv : List Bytes) : Cmd Outcome :=
  match getLongLongFromObject (arg argv 1) with
  | none => addReply (errorReply "invalid DB index")
  | some id =>
    if int.cluster ∧ id ≠ 0 then
      addReply (errorReply "SELECT is not allowed in cluster mode")
    else
      match selectDb int.dbnum id with
      | none => addReply (errorReply "invalid DB index")
      | some db => pure (.select db)

/-! ## Flushing -/

def flushdbCommand (c : Client) (_ : List Bytes) : Cmd Outcome := do
  Prog.perform (Op.signalFlushedDb (some c.db))
  let removed ← Prog.perform (Op.flush c.db)
  addDirty removed
  addReply Reply.ok

/-- `emptyDb`. -/
def emptyDb : ℕ → Cmd ℕ
  | 0 => pure 0
  | n + 1 => do
      let removed ← emptyDb n
      let more ← Prog.perform (Op.flush n)
      pure (removed + more)

def flushallCommand (_ : Client) (_ : List Bytes) : Cmd Outcome := do
  Prog.perform (Op.signalFlushedDb none)
  let removed ← emptyDb int.dbnum
  addDirty (removed + 1)
  addReply Reply.ok

/-! ## Renaming and moving -/

def sameobjecterr : Reply :=
  errorReply "source and destination objects are the same"

/-- The second half of RENAME; `expire` is the expire of the source. -/
def renameTo (src dst : Key) (value : Value) (expire : ℤ) (overwrite : Bool) :
    Cmd Unit := do
  if overwrite then
    let _ ← dbDelete dst
  dbAdd dst value
  if expire ≠ -1 then setExpire dst expire
  let _ ← dbDelete src
  signalModifiedKey src
  signalModifiedKey dst
  notifyKeyspaceEvent .generic "rename_from" src
  notifyKeyspaceEvent .generic "rename_to" dst
  addDirty 1

def renameGenericCommand (nx : Bool) :
    Cmd Outcome := do
  let src := keyArg c argv 1
  let dst := keyArg c argv 2
  if arg argv 1 = arg argv 2 then addReply sameobjecterr
  else
    match ← lookupKeyWrite src with
    | none => addReply Reply.nokeyerr
    | some value =>
      let expire ← getExpire src
      let target ← lookupKeyWrite dst
      if target.isSome && nx then addReply Reply.czero
      else
        renameTo src dst value expire target.isSome
        addReply (if nx then Reply.cone else Reply.ok)

def renameCommand : Cmd Outcome :=
  renameGenericCommand c argv false

def renamenxCommand : Cmd Outcome :=
  renameGenericCommand c argv true

/-- MOVE signals neither key, and the expire of the key stays behind. -/
def moveCommand : Cmd Outcome :=
  if int.cluster then
    addReply (errorReply "MOVE is not allowed in cluster mode")
  else
    match selectDb int.dbnum (strtoll (arg argv 2)).value with
    | none => addReply Reply.outofrangeerr
    | some id =>
      if id = c.db then addReply sameobjecterr
      else do
        let src := keyArg c argv 1
        let dst : Key := (id, arg argv 1)
        match ← lookupKeyWrite src with
        | none => addReply Reply.czero
        | some value =>
          if (← lookupKeyWrite dst).isSome then addReply Reply.czero
          else
            dbAdd dst value
            let _ ← dbDelete src
            addDirty 1
            addReply Reply.cone

/-! ## Expires -/

/-- What EXPIRE makes of a key that is there.  A time in the past deletes it,
but only on a server that expires keys on its own. -/
def expireKey (k : Key) (time : ℤ) : Cmd Outcome := do
  let now ← mstimeAgain
  let passive ← Prog.perform Op.passive
  if time ≤ now ∧ passive = false then
    let _ ← dbDelete k
    addDirty 1
    rewriteClientCommandVector [ascii "DEL", k.2]
    signalModifiedKey k
    notifyKeyspaceEvent .generic "del" k
  else
    setExpire k time
    signalModifiedKey k
    notifyKeyspaceEvent .generic "expire" k
    addDirty 1
  addReply Reply.cone

def expireGenericCommand (k : Key) (param : Bytes) (basetime : ℤ)
    (unit : TimeUnit) : Cmd Outcome :=
  withLong param fun n => do
    match ← lookupKeyRead k with
    | none => addReply Reply.czero
    | some _ => expireKey k (toLongLong (unit.scale n + basetime))

def expireCommand : Cmd Outcome := do
  let now ← mstime
  expireGenericCommand (keyArg c argv 1) (arg argv 2) now .seconds

def pexpireCommand : Cmd Outcome := do
  let now ← mstime
  expireGenericCommand (keyArg c argv 1) (arg argv 2) now .milliseconds

def expireatCommand : Cmd Outcome :=
  expireGenericCommand (keyArg c argv 1) (arg argv 2) 0 .seconds

def pexpireatCommand : Cmd Outcome :=
  expireGenericCommand (keyArg c argv 1) (arg argv 2) 0 .milliseconds

/-- The reply of TTL for a key with the given expire. -/
def ttlReply (expire now : ℤ) (milliseconds : Bool) : Reply :=
  if expire = -1 then .integer (-1)
  else
    let ttl := max (toLongLong (expire - now)) 0
    .integer (if milliseconds then ttl else (ttl + 500) / 1000)

def ttlGenericCommand (milliseconds : Bool) :
    Cmd Outcome := do
  match ← lookupKeyRead (keyArg c argv 1) with
  | none => addReply (.integer (-2))
  | some _ =>
    let expire ← getExpire (keyArg c argv 1)
    let now ← mstime
    addReply (ttlReply expire now milliseconds)

def ttlCommand : Cmd Outcome :=
  ttlGenericCommand c argv false

def pttlCommand : Cmd Outcome :=
  ttlGenericCommand c argv true

/-- PERSIST finds its key without looking it up. -/
def persistCommand : Cmd Outcome := do
  let k := keyArg c argv 1
  if ← dbExists k then
    if ← removeExpire k then
      addDirty 1
      addReply Reply.cone
    else addReply Reply.czero
  else addReply Reply.czero

/-! ## RESTORE and MIGRATE -/

/-- The options of RESTORE: whether REPLACE is given. -/
def restoreReplace (options : List Bytes) : Option Bool :=
  if options.all (isText "replace") then some (options ≠ []) else none

def restoreKey (k : Key) (value : Value) (ttl : ℤ) (replace : Bool) :
    Cmd Outcome := do
  if replace then
    let _ ← dbDelete k
  dbAdd k value
  if ttl ≠ 0 then
    let now ← mstime
    setExpire k (toLongLong (now + ttl))
  signalModifiedKey k
  addDirty 1
  addReply Reply.ok

def restoreCommand : Cmd Outcome :=
  match restoreReplace (argv.drop 4) with
  | none => addReply Reply.syntaxerr
  | some replace => do
      let k := keyArg c argv 1
      let busy ←
        if replace then pure false else Option.isSome <$> lookupKeyWrite k
      if busy then addReply (errorReply "Target key name is busy.")
      else
        withLong (arg argv 2) fun ttl =>
          if ttl < 0 then
            addReply (errorReply "Invalid TTL value, must be >= 0")
          else
            match int.load (arg argv 3) with
            | .error r => addReply r
            | .ok value => restoreKey k value ttl replace

/-- The options of MIGRATE: whether COPY is given. -/
def migrateCopy (options : List Bytes) : Option Bool :=
  if options.all fun o => isText "copy" o || isText "replace" o then
    some (options.any (isText "copy"))
  else none

/-- With COPY the key stays, but the command is propagated as a DEL all the
same. -/
def migrateDone (k : Key) (copy : Bool) : Cmd Outcome := do
  if copy then pure ()
  else
    let _ ← dbDelete k
    signalModifiedKey k
  addDirty 1
  rewriteClientCommandVector [ascii "DEL", k.2]
  addReply Reply.ok

def migrateCommand : Cmd Outcome :=
  match migrateCopy (argv.drop 6) with
  | none => addReply Reply.syntaxerr
  | some copy =>
    withLong (arg argv 5) fun _ => withLong (arg argv 4) fun _ => do
      let k := keyArg c argv 3
      match ← lookupKeyRead k with
      | none => addReply (.status (ascii "NOKEY"))
      | some _ =>
        match ← Prog.perform Op.transfer with
        | .accepted => migrateDone k copy
        | .refused error => addReply (.error
            (ascii "ERR Target instance replied with error: " ++ error))
        | .ioerror error => addReply (.error error)

end RedisV8.Commands
