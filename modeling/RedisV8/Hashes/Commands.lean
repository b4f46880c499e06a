import RedisV8.Lists.Commands
import RedisV8.Server.ObjectDict

/-!
# The hash commands

`t_hash.c` over its two encodings.  A ziplist is taken at its meaning, the
list of strings it holds, with fields and values alternating; places in it are
those of the list commands.  A hash table is a dictionary from string objects
to string objects.  A failed `redisAssert` and an access outside of an array
are `none`.
-/

namespace RedisV8.Hashes

open Util Server Reply
open RedisV8.Lists (ziplistIndex nextPlace ziplistGet ziplistDeleteAt encodedArg)

/-- `hash-max-ziplist-entries` and `hash-max-ziplist-value`. -/
structure Config where
  hashMaxZiplistEntries : ℕ
  hashMaxZiplistValue : ℕ
  deriving DecidableEq, Repr

inductive HashObj where
  | ziplist (entries : List Bytes)
  | ht (dict : ObjDict StringObj)
  deriving DecidableEq, Repr

/-! ## The hash API -/

/-- The loop of `ziplistFind`: after a comparison `skip` entries are passed
over.  `p` is the place of the first entry of the list. -/
def findLoop (vstr : Bytes) (skip : ℕ) : ℕ → ℕ → List Bytes → Option ℕ
  | _, _, [] => none
  | p, 0, entry :: rest =>
    if entry = vstr then some p else findLoop vstr skip (p + 1) skip rest
  | p, skipcnt + 1, _ :: rest => findLoop vstr skip (p + 1) skipcnt rest

def ziplistFind (entries : List Bytes) (p : ℕ) (vstr : Bytes) (skip : ℕ) :
    Option ℕ :=
  findLoop vstr skip p 0 (entries.drop p)

/-- The place of a field: the search starts at the head, if there is one. -/
def fieldPlace (entries : List Bytes) (field : Bytes) : Option ℕ :=
  (ziplistIndex entries 0).bind fun fptr => ziplistFind entries fptr field 1

/-- `hashTypeGetFromZiplist`: the value, if the field is there. -/
def hashTypeGetFromZiplist (entries : List Bytes) (field : StringObj) :
    Option (Option StringObj) :=
  match fieldPlace entries (getDecodedObject field) with
  | none => some none
  | some fptr => do
      let vptr ← nextPlace entries.length fptr
      let value ← ziplistGet entries (some vptr)
      some (some value)

def hashTypeGetFromHashTable (dict : ObjDict StringObj) (field : StringObj) :
    Option StringObj :=
  dict.dictFind field

def hashTypeGetObject (o : HashObj) (field : StringObj) :
    Option (Option StringObj) :=
  match o with
  | .ziplist entries => hashTypeGetFromZiplist entries field
  | .ht dict => some (hashTypeGetFromHashTable dict field)

def hashTypeExists (o : HashObj) (field : StringObj) : Option Bool :=
  (hashTypeGetObject o field).map Option.isSome

def hashTypeLength : HashObj → ℕ
  | .ziplist entries => entries.length / 2
  | .ht dict => dict.length

/-- The field an iterator on a ziplist moves to. -/
def nextField (entries : List Bytes) : Option (ℕ × ℕ) → Option ℕ
  | none => ziplistIndex entries 0
  | some (_, vptr) => nextPlace entries.length vptr

/-- `hashTypeNext` on a ziplist: the places of the next field and of its
value, or the end. -/
def hashTypeNext (entries : List Bytes) (cursor : Option (ℕ × ℕ)) :
    Option (Option (ℕ × ℕ)) :=
  match nextField entries cursor with
  | none => some none
  | some fptr => do
      let vptr ← nextPlace entries.length fptr
      some (some (fptr, vptr))

/-- The fields and values an iterator on a ziplist yields. -/
def ziplistPairs (entries : List Bytes) :
    ℕ → Option (ℕ × ℕ) → Option (ObjDict StringObj)
  | 0, _ => none
  | fuel + 1, cursor => do
      match ← hashTypeNext entries cursor with
      | none => some []
      | some (fptr, vptr) =>
        let field ← ziplistGet entries (some fptr)
        let value ← ziplistGet entries (some vptr)
        let rest ← ziplistPairs entries fuel (some (fptr, vptr))
        some ((field, value) :: rest)

/-- The fields and values an iterator yields. -/
def hashTypeIterate : HashObj → Option (ObjDict StringObj)
  | .ziplist entries => ziplistPairs entries (entries.length + 1) none
  | .ht dict => some dict

/-- `hashTypeConvertZiplist` to a hash table. -/
def hashTypeConvertZiplist (entries : List Bytes) : Option HashObj := do
  let pairs ← hashTypeIterate (.ziplist entries)
  let dict ← pairs.foldlM
    (fun (dict : ObjDict StringObj) pair =>
      dict.dictAdd (tryObjectEncoding 1 pair.1) (tryObjectEncoding 1 pair.2)) []
  some (.ht dict)

/-- `hashTypeConvert` to a hash table; it panics on a hash table. -/
def hashTypeConvert : HashObj → Option HashObj
  | .ziplist entries => hashTypeConvertZiplist entries
  | .ht _ => none

/-- `hashTypeTryConversion` over the arguments from `start` to `end`. -/
def hashTypeTryConversion (cfg : Config) (o : HashObj)
    (argv : List StringObj) : Option HashObj :=
  match o with
  | .ht dict => some (.ht dict)
  | .ziplist entries =>
    if argv.any fun arg => arg.sdsEncoded &&
        cfg.hashMaxZiplistValue < (getDecodedObject arg).length then
      hashTypeConvert (.ziplist entries)
    else some (.ziplist entries)

/-- `hashTypeTryObjectEncoding` of one argument. -/
def hashTypeTryObjectEncoding (subject : HashObj) (arg : Bytes) : StringObj :=
  match subject with
  | .ziplist _ => .raw arg
  | .ht _ => encodedArg arg

/-- The ziplist once the value of a field is set, and whether the field was
there.  The old value is deleted, and the new one inserted in its place. -/
def ziplistSet (entries : List Bytes) (field value : Bytes) :
    Option (List Bytes × Bool) :=
  match fieldPlace entries field with
  | some fptr => do
      let vptr ← nextPlace entries.length fptr
      some ((ziplistDeleteAt entries vptr 1).insertIdx vptr value, true)
  | none => some (entries ++ [field] ++ [value], false)

/-- `hashTypeSet`, which tells whether it updated a field. -/
def hashTypeSet (cfg : Config) (o : HashObj) (field value : StringObj) :
    Option (HashObj × Bool) :=
  match o with
  | .ziplist entries => do
      let (entries, update) ← ziplistSet entries (getDecodedObject field)
        (getDecodedObject value)
      if cfg.hashMaxZiplistEntries < hashTypeLength (.ziplist entries) then
        let o ← hashTypeConvert (.ziplist entries)
        some (o, update)
      else some (.ziplist entries, update)
  | .ht dict =>
    let (dict, inserted) := dict.dictReplace field value
    some (.ht dict, !inserted)

/-- `hashTypeDelete`, which tells whether the field was there. -/
def hashTypeDelete (o : HashObj) (field : StringObj) : HashObj × Bool :=
  match o with
  | .ziplist entries =>
    match fieldPlace entries (getDecodedObject field) with
    | none => (.ziplist entries, false)
    | some fptr =>
      (.ziplist (ziplistDeleteAt (ziplistDeleteAt entries fptr 1) fptr 1), true)
  | .ht dict =>
    match dict.dictDelete field with
    | none => (.ht dict, false)
    | some dict => (.ht dict, true)

/-! ## The commands -/

/-- What is stored at the key of a command. -/
inductive Stored where
  | absent
  | hash (o : HashObj)
  | otherType
  deriving DecidableEq, Repr

/-- The event classes of `notifyKeyspaceEvent` that hashes use. -/
inductive EventClass where
  | hash
  | generic
  deriving DecidableEq, Repr

/-- A command's effect on its key, with the bytes of its reply, the change of
`server.dirty`, whether `signalModifiedKey` was called, and the events in
order. -/
structure Effect where
  stored : Stored
  reply : Bytes
  dirty : ℕ := 0
  modified : Bool := false
  events : List (EventClass × String) := []

/-- A command that changes nothing. -/
def answer (stored : Stored) (reply : Reply) : Effect :=
  { stored, reply := reply.encode }

/-- A command that changed the hash. -/
def changed (o : HashObj) (reply : Reply) (event : String) : Effect :=
  { stored := .hash o
    reply := reply.encode
    dirty := 1
    modified := true
    events := [(.hash, event)] }

/-- `createHashObject`. -/
def createHashObject : HashObj := .ziplist []

/-- `hashTypeLookupWriteOrCreate`, with what follows. -/
def hashTypeLookupWriteOrCreate (stored : Stored)
    (body : HashObj → Option Effect) : Option Effect :=
  match stored with
  | .absent => body createHashObject
  | .hash o => body o
  | .otherType => some (answer stored wrongtypeerr)

/-- `lookupKeyReadOrReply` or `lookupKeyWriteOrReply`, and `checkType`. -/
def lookupKeyOrReply (stored : Stored) (missing : Reply)
    (body : HashObj → Option Effect) : Option Effect :=
  match stored with
  | .absent => some (answer stored missing)
  | .hash o => body o
  | .otherType => some (answer stored wrongtypeerr)

def hsetCommand (cfg : Config) (field value : Bytes) (stored : Stored) :
    Option Effect :=
  hashTypeLookupWriteOrCreate stored fun o => do
    let o ← hashTypeTryConversion cfg o [.raw field, .raw value]
    let (o, update) ← hashTypeSet cfg o (hashTypeTryObjectEncoding o field)
      (hashTypeTryObjectEncoding o value)
    some (changed o (if update then czero else cone) "hset")

def hsetnxCommand (cfg : Config) (field value : Bytes) (stored : Stored) :
    Option Effect :=
  hashTypeLookupWriteOrCreate stored fun o => do
    let o ← hashTypeTryConversion cfg o [.raw field, .raw value]
    if ← hashTypeExists o (.raw field) then
      some (answer (.hash o) czero)
    else
      let (o, _) ← hashTypeSet cfg o (hashTypeTryObjectEncoding o field)
        (hashTypeTryObjectEncoding o value)
      some (changed o cone "hset")

/-- The loop of HMSET over its pairs of arguments. -/
def hmsetLoop (cfg : Config) : HashObj → List Bytes → Option HashObj
  | o, field :: value :: rest => do
      let (o, _) ← hashTypeSet cfg o (hashTypeTryObjectEncoding o field)
        (hashTypeTryObjectEncoding o value)
      hmsetLoop cfg o rest
  | o, _ => some o

/-- `args` are the arguments after the key. -/
def hmsetCommand (cfg : Config) (args : List Bytes) (stored : Stored) :
    Option Effect :=
  if (args.length + 2) % 2 = 1 then
    some (answer stored
      (.error (ascii "ERR wrong number of arguments for HMSET")))
  else
    hashTypeLookupWriteOrCreate stored fun o => do
      let o ← hashTypeTryConversion cfg o (args.map .raw)
      let o ← hmsetLoop cfg o args
      some (changed o ok "hset")

/-- `getLongLongFromObject`. -/
def longLongOfObject : StringObj → Option ℤ
  | .raw s => getLongLongFromObject s
  | .int value => some value.toInt

/-- The overflow check of HINCRBY. -/
def incrOverflows (oldvalue incr : ℤ) : Bool :=
  (incr < 0 && oldvalue < 0 && incr < llongMin - oldvalue) ||
    (0 < incr && 0 < oldvalue && llongMax - oldvalue < incr)

def hincrbyCommand (cfg : Config) (field incr : Bytes) (stored : Stored) :
    Option Effect :=
  match getLongLongFromObject incr with
  | none => some (answer stored notAnInteger)
  | some incr =>
    hashTypeLookupWriteOrCreate stored fun o => do
      let current ← hashTypeGetObject o (.raw field)
      match current.elim (some 0) longLongOfObject with
      | none => some (answer (.hash o)
          (.error (ascii "ERR hash value is not an integer")))
      | some oldvalue =>
        if incrOverflows oldvalue incr then
          some (answer (.hash o)
            (.error (ascii "ERR increment or decrement would overflow")))
        else
          let (o, _) ← hashTypeSet cfg o
            (hashTypeTryObjectEncoding o field)
            (createStringObjectFromLongLong (oldvalue + incr))
          some (changed o (.integer (oldvalue + incr)) "hincrby")

/-- `addHashFieldToReply`; there may be no hash at the key. -/
def addHashFieldToReply (o : Option HashObj) (field : Bytes) : Option Reply :=
  match o with
  | none => some .nullBulk
  | some o => do
      match ← hashTypeGetObject o (.raw field) with
      | none => some .nullBulk
      | some value => some (.bulk (getDecodedObject value))

def hgetCommand (field : Bytes) (stored : Stored) : Option Effect :=
  lookupKeyOrReply stored .nullBulk fun o => do
    let reply ← addHashFieldToReply (some o) field
    some (answer stored reply)

def hmgetCommand (fields : List Bytes) (stored : Stored) : Option Effect :=
  let items := fun o => do
    let items ← fields.mapM (addHashFieldToReply o)
    some (answer stored (.multiBulk items))
  match stored with
  | .otherType => some (answer stored wrongtypeerr)
  | .absent => items none
  | .hash o => items (some o)

/-- The loop of HDEL: the hash, how many fields were deleted, and whether the
key was. -/
def hdelLoop : HashObj → ℕ → List Bytes → HashObj × ℕ × Bool
  | o, deleted, [] => (o, deleted, false)
  | o, deleted, field :: rest =>
    match hashTypeDelete o (.raw field) with
    | (o, false) => hdelLoop o deleted rest
    | (o, true) =>
      if hashTypeLength o = 0 then (o, deleted + 1, true)
      else hdelLoop o (deleted + 1) rest

def hdelCommand (fields : List Bytes) (stored : Stored) : Option Effect :=
  lookupKeyOrReply stored czero fun o =>
    let (o, deleted, keyremoved) := hdelLoop o 0 fields
    some
      { stored := if keyremoved then .absent else .hash o
        reply := (integer deleted).encode
        dirty := deleted
        modified := deleted ≠ 0
        events :=
          if deleted = 0 then []
          else (.hash, "hdel") :: if keyremoved then [(.generic, "del")] else [] }

def hlenCommand (stored : Stored) : Option Effect :=
  lookupKeyOrReply stored czero fun o =>
    some (answer stored (.integer (hashTypeLength o)))

def hexistsCommand (field : Bytes) (stored : Stored) : Option Effect :=
  lookupKeyOrReply stored czero fun o => do
    let found ← hashTypeExists o (.raw field)
    some (answer stored (if found then cone else czero))

/-- `REDIS_HASH_KEY`, `REDIS_HASH_VALUE` and both. -/
inductive Flags where
  | key
  | value
  | both
  deriving DecidableEq, Repr

namespace Flags

def multiplier : Flags → ℕ
  | key => 1
  | value => 1
  | both => 2

/-- What is sent of a field and its value. -/
def select {α : Type*} : Flags → α × α → List α
  | key, pair => [pair.1]
  | value, pair => [pair.2]
  | both, pair => [pair.1, pair.2]

end Flags

/-- `addReplyMultiBulkLen`.  A negative length is looked up before the start
of `shared.mbulkhdr`. -/
def addReplyMultiBulkLen (length : ℤ) : Option Bytes :=
  if length < 0 then none else some (line '*' (llText length))

/-- `genericHgetallCommand`.  The length it announces and the count it keeps
are of type `int`. -/
def genericHgetallCommand (flags : Flags) (stored : Stored) : Option Effect :=
  lookupKeyOrReply stored emptyMultiBulk fun o => do
    let length := toInt (hashTypeLength o * flags.multiplier : ℕ)
    let header ← addReplyMultiBulkLen length
    let pairs ← hashTypeIterate o
    let items := (pairs.flatMap flags.select).map
      fun o => bulk (getDecodedObject o)
    if toInt items.length = length then
      some { stored, reply := header ++ encodeAll items }
    else none

def hkeysCommand : Stored → Option Effect := genericHgetallCommand .key
def hvalsCommand : Stored → Option Effect := genericHgetallCommand .value
def hgetallCommand : Stored → Option Effect := genericHgetallCommand .both

/-- The commands with their arguments after the key, at least as many as the
command table asks for. -/
inductive Command where
  | hset (field value : Bytes)
  | hsetnx (field value : Bytes)
  | hmset (field value : Bytes) (rest : List Bytes)
  | hincrby (field incr : Bytes)
  | hget (field : Bytes)
  | hmget (field : Bytes) (rest : List Bytes)
  | hdel (field : Bytes) (rest : List Bytes)
  | hlen
  | hexists (field : Bytes)
  | hkeys
  | hvals
  | hgetall
  deriving DecidableEq, Repr

def Command.run (cfg : Config) : Command → Stored → Option Effect
  | hset field value => hsetCommand cfg field value
  | hsetnx field value => hsetnxCommand cfg field value
  | hmset field value rest => hmsetCommand cfg (field :: value :: rest)
  | hincrby field incr => hincrbyCommand cfg field incr
  | hget field => hgetCommand field
  | hmget field rest => hmgetCommand (field :: rest)
  | hdel field rest => hdelCommand (field :: rest)
  | hlen => hlenCommand
  | hexists field => hexistsCommand field
  | hkeys => hkeysCommand
  | hvals => hvalsCommand
  | hgetall => hgetallCommand

/-- Commands one after the other on one key, each under the thresholds in
force when it runs, with the bytes of their replies. -/
def runCommands : Stored → List (Config × Command) →
    Option (Stored × List Bytes)
  | stored, [] => some (stored, [])
  | stored, (cfg, cmd) :: steps => do
      let effect ← cmd.run cfg stored
      let (stored, replies) ← runCommands effect.stored steps
      some (stored, effect.reply :: replies)

end RedisV8.Hashes
