import RedisV8.Lists.Commands
import RedisV8.Server.ObjectDict
import RedisV8.Sets.Intset

/-!
# The set commands

`t_set.c` over its two encodings, on a keyspace.  A hash table is a dictionary
of string objects without values.  Which member is drawn at random, and what
fresh memory holds, is left to the environment.  A failed assertion is `none`.
-/

namespace RedisV8.Sets

open Util Server Function Reply
open RedisV8.Lists (encodedArg)

/-- What a command takes from its environment: `set-max-intset-entries`, fresh
memory and the number `rand` gives. -/
structure Env where
  setMaxIntsetEntries : ℕ
  fresh : Fresh
  rand : ℕ

inductive SetObj where
  | intset (is : Intset)
  | ht (dict : ObjDict Unit)
  deriving DecidableEq, Repr

/-! ## The set API -/

def isObjectRepresentableAsLongLong : StringObj → Option ℤ
  | .int value => some value.toInt
  | .raw s => string2ll s

def setTypeCreate (value : StringObj) : SetObj :=
  match isObjectRepresentableAsLongLong value with
  | some _ => .intset intsetNew
  | none => .ht []

/-- The integers an iterator yields from the position `ii` on. -/
def intsetIterate (is : Intset) : ℕ → ℕ → Option (List ℤ)
  | 0, _ => none
  | fuel + 1, ii => do
      match ← intsetGet is ii with
      | none => some []
      | some value =>
        let rest ← intsetIterate is fuel (ii + 1)
        some (value :: rest)

/-- The members an iterator yields: integers are sent as such, objects as the
strings they hold. -/
def setTypeIterate : SetObj → Option (List StringObj)
  | .intset is => do
      let values ← intsetIterate is (is.length + 1) 0
      some (values.map createStringObjectFromLongLong)
  | .ht dict => some (dict.map Prod.fst)

/-- `setTypeConvert` of an integer set to a hash table. -/
def setTypeConvert (is : Intset) : Option SetObj := do
  let elements ← setTypeIterate (.intset is)
  let dict ← elements.foldlM
    (fun (dict : ObjDict Unit) element => dict.dictAdd element ()) []
  some (.ht dict)

/-- `setTypeAdd`, which tells whether the member was added. -/
def setTypeAdd (env : Env) (subject : SetObj) (value : StringObj) :
    Option (SetObj × Bool) :=
  match subject with
  | .ht dict =>
    match dict.dictAdd value () with
    | some dict => some (.ht dict, true)
    | none => some (.ht dict, false)
  | .intset is =>
    match isObjectRepresentableAsLongLong value with
    | some llval => do
        let (is, success) ← intsetAdd env.fresh is llval
        if success && decide (env.setMaxIntsetEntries < intsetLen is) then
          let o ← setTypeConvert is
          some (o, true)
        else some (.intset is, success)
    | none =>
      match setTypeConvert is with
      | some (.ht dict) => do
          let dict ← dict.dictAdd value ()
          some (.ht dict, true)
      | _ => none

/-- `setTypeRemove`, which tells whether the member was there. -/
def setTypeRemove (env : Env) (setobj : SetObj) (value : StringObj) :
    Option (SetObj × Bool) :=
  match setobj with
  | .ht dict =>
    match dict.dictDelete value with
    | some dict => some (.ht dict, true)
    | none => some (.ht dict, false)
  | .intset is =>
    match isObjectRepresentableAsLongLong value with
    | some llval => do
        let (is, success) ← intsetRemove env.fresh is llval
        some (.intset is, success)
    | none => some (.intset is, false)

def setTypeIsMember (subject : SetObj) (value : StringObj) : Option Bool :=
  match subject with
  | .ht dict => some (dict.dictFind value).isSome
  | .intset is =>
    match isObjectRepresentableAsLongLong value with
    | some llval => intsetFind is llval
    | none => some false

def setTypeSize : SetObj → ℕ
  | .ht dict => dict.length
  | .intset is => intsetLen is

/-- `setTypeRandomElement`, as the object SPOP makes of it. -/
def setTypeRandomElement (env : Env) : SetObj → Option StringObj
  | .ht dict => (dict[env.rand % dict.length]?).map Prod.fst
  | .intset is =>
    (intsetRandom is env.rand).map createStringObjectFromLongLong

/-! ## The commands -/

/-- What is stored at a key. -/
inductive Stored where
  | absent
  | set (o : SetObj)
  | otherType
  deriving DecidableEq, Repr

abbrev Db := Bytes → Stored

/-- The event classes of `notifyKeyspaceEvent` that sets use. -/
inductive EventClass where
  | set
  | generic
  deriving DecidableEq, Repr

/-- A command's effect: the keyspace, the reply, the change of `server.dirty`,
the keys `signalModifiedKey` was called for, and the events in order. -/
structure Effect where
  db : Db
  reply : Reply
  dirty : ℕ := 0
  modified : List Bytes := []
  events : List (EventClass × String × Bytes) := []

/-- The set at a key once emptied sets are deleted. -/
def kept (o : SetObj) : Stored :=
  if setTypeSize o = 0 then .absent else .set o

def delEvent (o : SetObj) (key : Bytes) : List (EventClass × String × Bytes) :=
  if setTypeSize o = 0 then [(.generic, "del", key)] else []

/-- `lookupKeyReadOrReply` or `lookupKeyWriteOrReply`, and `checkType`. -/
def lookupKeyOrReply (db : Db) (key : Bytes) (missing : Reply)
    (body : SetObj → Option Effect) : Option Effect :=
  match db key with
  | .absent => some { db, reply := missing }
  | .set o => body o
  | .otherType => some { db, reply := wrongtypeerr }

/-- The loop of SADD. -/
def saddLoop (env : Env) : SetObj → ℕ → List Bytes → Option (SetObj × ℕ)
  | set, added, [] => some (set, added)
  | set, added, member :: rest => do
      let (set, success) ← setTypeAdd env set (encodedArg member)
      saddLoop env set (if success then added + 1 else added) rest

/-- SADD of at least one member. -/
def saddCommand (env : Env) (key member : Bytes) (rest : List Bytes)
    (db : Db) : Option Effect :=
  let add := fun set => do
    let (set, added) ← saddLoop env set 0 (member :: rest)
    some
      { db := update db key (.set set)
        reply := .integer added
        dirty := added
        modified := if added = 0 then [] else [key]
        events := if added = 0 then [] else [(.set, "sadd", key)] }
  match db key with
  | .absent => add (setTypeCreate (.raw member))
  | .set o => add o
  | .otherType => some { db, reply := wrongtypeerr }

/-- The loop of SREM, which ends early when the set is empty. -/
def sremLoop (env : Env) : SetObj → ℕ → List Bytes → Option (SetObj × ℕ)
  | set, deleted, [] => some (set, deleted)
  | set, deleted, member :: rest => do
      let (set, success) ← setTypeRemove env set (.raw member)
      if success then
        if setTypeSize set = 0 then some (set, deleted + 1)
        else sremLoop env set (deleted + 1) rest
      else sremLoop env set deleted rest

def sremCommand (env : Env) (key : Bytes) (members : List Bytes) (db : Db) :
    Option Effect :=
  lookupKeyOrReply db key czero fun set => do
    let (set, deleted) ← sremLoop env set 0 members
    some
      { db := update db key (kept set)
        reply := .integer deleted
        dirty := deleted
        modified := if deleted = 0 then [] else [key]
        events :=
          if deleted = 0 then [] else (.set, "srem", key) :: delEvent set key }

/-- The set SMOVE adds to; it is created if it is not there. -/
def destination (ele : StringObj) : Stored → SetObj
  | .set o => o
  | .absent | .otherType => setTypeCreate ele

/-- The part of SMOVE after its checks. -/
def moveMember (env : Env) (src dst member : Bytes) (srcset : SetObj)
    (db : Db) : Option Effect := do
  let ele := encodedArg member
  let (srcset, removed) ← setTypeRemove env srcset ele
  if removed then
    let (dstset, added) ← setTypeAdd env (destination ele (db dst)) ele
    some
      { db := update (update db src (kept srcset)) dst
          (.set dstset)
        reply := cone
        dirty := if added then 2 else 1
        modified := [src, dst]
        events := (.set, "srem", src) :: delEvent srcset src ++
          if added then [(.set, "sadd", dst)] else [] }
  else some { db, reply := czero }

def smoveCommand (env : Env) (src dst member : Bytes) (db : Db) :
    Option Effect :=
  match db src, db dst with
  | .absent, _ => some { db, reply := czero }
  | .otherType, _ | .set _, .otherType => some { db, reply := wrongtypeerr }
  | .set srcset, _ =>
    -- the two objects are the same only under the same key
    if src = dst then some { db, reply := cone }
    else moveMember env src dst member srcset db

def sismemberCommand (key member : Bytes) (db : Db) : Option Effect :=
  lookupKeyOrReply db key czero fun set => do
    let found ← setTypeIsMember set (encodedArg member)
    some { db, reply := if found then cone else czero }

def scardCommand (key : Bytes) (db : Db) : Option Effect :=
  lookupKeyOrReply db key czero fun set =>
    some { db, reply := .integer (setTypeSize set) }

def spopCommand (env : Env) (key : Bytes) (db : Db) : Option Effect :=
  lookupKeyOrReply db key .nullBulk fun set => do
    let ele ← setTypeRandomElement env set
    let (set, _) ← setTypeRemove env set ele
    some
      { db := update db key (kept set)
        reply := .bulk (getDecodedObject ele)
        dirty := 1
        modified := [key]
        events := (.set, "spop", key) :: delEvent set key }

/-- SMEMBERS: `sinterGenericCommand` of one set, with no other to test the
members against. -/
def smembersCommand (key : Bytes) (db : Db) : Option Effect :=
  lookupKeyOrReply db key emptyMultiBulk fun set => do
    let members ← setTypeIterate set
    some
      { db
        reply := .multiBulk (members.map fun o => .bulk (getDecodedObject o)) }

/-- The commands with as many arguments as the command table asks for. -/
inductive Command where
  | sadd (key member : Bytes) (rest : List Bytes)
  | srem (key member : Bytes) (rest : List Bytes)
  | sismember (key member : Bytes)
  | scard (key : Bytes)
  | smembers (key : Bytes)
  | spop (key : Bytes)
  | smove (src dst member : Bytes)
  deriving DecidableEq, Repr

def Command.run (env : Env) : Command → Db → Option Effect
  | sadd key member rest => saddCommand env key member rest
  | srem key member rest => sremCommand env key (member :: rest)
  | sismember key member => sismemberCommand key member
  | scard key => scardCommand key
  | smembers key => smembersCommand key
  | spop key => spopCommand env key
  | smove src dst member => smoveCommand env src dst member

/-- Commands one after the other, with the keyspace they leave and their
replies. -/
def runCommands : Db → List (Env × Command) → Option (Db × List Reply)
  | db, [] => some (db, [])
  | db, (env, cmd) :: steps => do
      let effect ← cmd.run env db
      let (db, replies) ← runCommands effect.db steps
      some (db, effect.reply :: replies)

end RedisV8.Sets
