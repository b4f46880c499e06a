import RedisV8.Commands.Strings
import RedisV8.Lists.Encodings

/-!
# The commands on lists, sets, hashes and sorted sets

Collections are taken at their elements.  A collection that is left empty goes
away with its key; most commands announce that with a `del` event, `lremCommand`
and `zremCommand` do not.
-/

namespace RedisV8.Commands

open Util Server Keyspace Effects Reply
open RedisV8.Lists (Side)

variable (int : Internals) (c : Client) (argv : List Bytes)

/-! ## Lists -/

section Lists

def listEvent : Lists.EventClass × String → EventClass × String
  | (.list, event) => (.list, event)
  | (.generic, event) => (.generic, event)

/-- The effect of a list command on the elements. -/
def listChange (o : Lists.Observed) : Change :=
  if o.modified then
    .put (o.elements.map .list) o.dirty (o.events.map listEvent) none o.reply
  else .answer o.reply

def onList (cmd : Lists.Command) : Value → Change
  | .list l => listChange (cmd.mean l int.index)
  | _ => .answer wrongtypeerr

def listCommand (k : Key) (missing : Reply) (cmd : Lists.Command) :
    Cmd Outcome :=
  updateCommand k (.answer missing) (onList int cmd)

/-- Only the push that creates the list is signalled to blocked clients. -/
def pushGenericCommand (k : Key) (side : Side) (values : List Bytes) :
    Cmd Outcome := do
  match ← lookupKeyWrite k with
  | none =>
    signalListAsReady k
    applyChange k (listChange (Lists.meanPush [] side values))
  | some (.list l) => applyChange k (listChange (Lists.meanPush l side values))
  | some _ => addReply wrongtypeerr

def lpushCommand : Cmd Outcome :=
  pushGenericCommand (keyArg c argv 1) .head (argv.drop 2)

def rpushCommand : Cmd Outcome :=
  pushGenericCommand (keyArg c argv 1) .tail (argv.drop 2)

def lpushxCommand : Cmd Outcome :=
  listCommand int (keyArg c argv 1) czero (.pushx .head (arg argv 2))

def rpushxCommand : Cmd Outcome :=
  listCommand int (keyArg c argv 1) czero (.pushx .tail (arg argv 2))

/-- The place is checked before the key is looked up. -/
def linsertCommand : Cmd Outcome :=
  if isText "after" (arg argv 2) ∨ isText "before" (arg argv 2) then
    listCommand int (keyArg c argv 1) czero
      (.linsert (arg argv 2) (arg argv 3) (arg argv 4))
  else addReply syntaxerr

def llenCommand : Cmd Outcome :=
  listCommand int (keyArg c argv 1) czero .llen

def lindexCommand : Cmd Outcome :=
  listCommand int (keyArg c argv 1) .nullBulk (.lindex (arg argv 2))

def lsetCommand : Cmd Outcome :=
  listCommand int (keyArg c argv 1) nokeyerr
    (.lset (arg argv 2) (arg argv 3))

def lpopCommand : Cmd Outcome :=
  listCommand int (keyArg c argv 1) .nullBulk (.pop .head)

def rpopCommand : Cmd Outcome :=
  listCommand int (keyArg c argv 1) .nullBulk (.pop .tail)

def lrangeCommand : Cmd Outcome :=
  withLong (arg argv 2) fun _ => withLong (arg argv 3) fun _ =>
    listCommand int (keyArg c argv 1) emptyMultiBulk
      (.lrange (arg argv 2) (arg argv 3))

def ltrimCommand : Cmd Outcome :=
  withLong (arg argv 2) fun _ => withLong (arg argv 3) fun _ =>
    listCommand int (keyArg c argv 1) ok
      (.ltrim (arg argv 2) (arg argv 3))

/-- A list without elements goes away even if nothing was removed from it. -/
def lremCommand : Cmd Outcome :=
  withLong (arg argv 2) fun _ => do
    match ← lookupKeyWrite (keyArg c argv 1) with
    | none => addReply czero
    | some (.list []) =>
      let _ ← dbDelete (keyArg c argv 1)
      addReply czero
    | some value =>
      applyChange (keyArg c argv 1)
        (onList int (.lrem (arg argv 2) (arg argv 3)) value)

end Lists

section Moves

/-- `rpoplpushHandlePush`; `dst` holds the elements of the destination. -/
def rpoplpushHandlePush (dstkey : Key) (dst : Option (List Bytes))
    (value : Bytes) : Cmd Unit := do
  match dst with
  | none =>
    dbAdd dstkey (.list [value])
    signalListAsReady dstkey
  | some l => dbOverwrite dstkey (.list (value :: l))
  signalModifiedKey dstkey
  notifyKeyspaceEvent .list "lpush" dstkey

/-- The source once its last element is gone. -/
def dropLastElement (k : Key) (rest : List Bytes) : Cmd Unit := do
  notifyKeyspaceEvent .list "rpop" k
  if rest = [] then
    let _ ← dbDelete k
    notifyKeyspaceEvent .generic "del" k
  else dbOverwrite k (.list rest)
  signalModifiedKey k

/-- A list that is its own destination is rotated in place. -/
def rpoplpush (src dst : Key) (l : List Bytes) (value : Bytes)
    (target : Option (List Bytes)) : Cmd Outcome := do
  if src = dst then
    rpoplpushHandlePush dst (some l.dropLast) value
    notifyKeyspaceEvent .list "rpop" src
    signalModifiedKey src
  else
    rpoplpushHandlePush dst target value
    dropLastElement src l.dropLast
  addDirty 1
  addReply (.bulk value)

def rpoplpushGeneric (src dst : Key) : Cmd Outcome := do
  match ← lookupKeyWrite src with
  | none => addReply .nullBulk
  | some (.list l) =>
    match l.getLast? with
    | none => addReply .nullBulk
    | some value =>
      match ← lookupKeyWrite dst with
      | none => rpoplpush src dst l value none
      | some (.list target) => rpoplpush src dst l value (some target)
      | some _ => addReply wrongtypeerr
  | some _ => addReply wrongtypeerr

def rpoplpushCommand : Cmd Outcome :=
  rpoplpushGeneric (keyArg c argv 1) (keyArg c argv 2)

/-- `getTimeoutFromObjectOrReply` up to the addition of the current time. -/
def withTimeout (text : Bytes) (f : ℤ → Cmd Outcome) : Cmd Outcome :=
  match getLongLongFromObject text with
  | none => addReply (errorReply "timeout is not an integer or out of range")
  | some n =>
    if n < 0 then addReply (errorReply "timeout is negative") else f n

/-- `blockForKeys`. -/
def blockForKeys (side : Side) (keys : List Bytes) (target : Option Bytes)
    (seconds : ℤ) : Cmd Outcome :=
  if seconds = 0 then pure (.block side keys target 0)
  else do
    let now ← mstime
    pure (.block side keys target
      (toLongLong (toLongLong (seconds * 1000) + now)))

/-- The element popped, and what is left. -/
def popped (l : List Bytes) : Side → Option (Bytes × List Bytes)
  | .head => l.head?.map (·, l.tail)
  | .tail => l.getLast?.map (·, l.dropLast)

/-- A pop that does not have to wait; it is propagated as LPOP or RPOP. -/
def servedPop (key : Bytes) (side : Side) (value : Bytes)
    (rest : List Bytes) : Change :=
  .put (if rest = [] then none else some (.list rest)) 1
    ((.list, Lists.popEvent side) ::
      if rest = [] then [(.generic, "del")] else [])
    (some [match side with
      | .head => ascii "LPOP"
      | .tail => ascii "RPOP", key])
    (.multiBulk [.bulk key, .bulk value])

def blockingPopLoop (c : Client) (side : Side) :
    List Bytes → Cmd (Option Outcome)
  | [] => pure none
  | key :: keys => do
      match ← lookupKeyWrite (c.db, key) with
      | none => blockingPopLoop c side keys
      | some (.list l) =>
        match popped l side with
        | none => blockingPopLoop c side keys
        | some (value, rest) =>
          some <$> applyChange (c.db, key) (servedPop key side value rest)
      | some _ => some <$> addReply wrongtypeerr

def blockingPopGenericCommand (side : Side) :
    Cmd Outcome :=
  withTimeout (arg argv (argv.length - 1)) fun seconds => do
    let keys := argv.tail.dropLast
    match ← blockingPopLoop c side keys with
    | some outcome => pure outcome
    | none =>
      if c.multi then addReply .nullMultiBulk
      else blockForKeys side keys none seconds

def blpopCommand : Cmd Outcome :=
  blockingPopGenericCommand c argv .head

def brpopCommand : Cmd Outcome :=
  blockingPopGenericCommand c argv .tail

def brpoplpushCommand : Cmd Outcome :=
  withTimeout (arg argv 3) fun seconds => do
    match ← lookupKeyWrite (keyArg c argv 1) with
    | none =>
      if c.multi then addReply .nullBulk
      else blockForKeys .tail [arg argv 1] (some (arg argv 2)) seconds
    | some (.list _) => rpoplpushCommand c argv
    | some _ => addReply wrongtypeerr

end Moves

/-! ## Sets -/

section Sets

/-- A collection that is left empty is not kept. -/
def keptSet (s : Finset Bytes) : Option Value :=
  if s = ∅ then none else some (.set s)

def delEvent (gone : Bool) : List (EventClass × String) :=
  if gone then [(.generic, "del")] else []

def setChange (f : Finset Bytes → Change) : Value → Change
  | .set s => f s
  | _ => .answer wrongtypeerr

def saddChange (members : List Bytes) (s : Finset Bytes) : Change :=
  let s' := s ∪ members.toFinset
  let added := s'.card - s.card
  if added = 0 then .answer czero
  else .put (some (.set s')) added [(.set, "sadd")] none (.integer added)

def saddCommand : Cmd Outcome :=
  createCommand (keyArg c argv 1) (.set ∅)
    (setChange (saddChange (argv.drop 2)))

def sremChange (members : List Bytes) (s : Finset Bytes) : Change :=
  let s' := s \ members.toFinset
  let deleted := s.card - s'.card
  if deleted = 0 then .answer czero
  else
    .put (keptSet s') deleted ((.set, "srem") :: delEvent (s' = ∅)) none
      (.integer deleted)

def sremCommand : Cmd Outcome :=
  updateCommand (keyArg c argv 1) (.answer czero)
    (setChange (sremChange (argv.drop 2)))

/-- The change of the source of SMOVE. -/
def takeMember (k : Key) (s : Finset Bytes) (ele : Bytes) : Cmd Unit := do
  let s' := s.erase ele
  notifyKeyspaceEvent .set "srem" k
  if s' = ∅ then
    let _ ← dbDelete k
    notifyKeyspaceEvent .generic "del" k
  else dbOverwrite k (.set s')
  signalModifiedKey k

/-- The change of the destination, which may have the element already. -/
def giveMember (k : Key) (s : Option (Finset Bytes)) (ele : Bytes) :
    Cmd Unit := do
  signalModifiedKey k
  addDirty 1
  let members := s.getD ∅
  dbOverwrite k (.set (insert ele members))
  if ele ∈ members then pure ()
  else
    addDirty 1
    notifyKeyspaceEvent .set "sadd" k

def smove (src dst : Key) (s : Finset Bytes) (t : Option (Finset Bytes))
    (ele : Bytes) : Cmd Outcome := do
  if src = dst then addReply cone
  else if ele ∈ s then
    takeMember src s ele
    giveMember dst t ele
    addReply cone
  else addReply czero

def smoveCommand : Cmd Outcome := do
  let src := keyArg c argv 1
  let dst := keyArg c argv 2
  let srcset ← lookupKeyWrite src
  let dstset ← lookupKeyWrite dst
  match srcset, dstset with
  | none, _ => addReply czero
  | some (.set s), none => smove src dst s none (arg argv 3)
  | some (.set s), some (.set t) => smove src dst s (some t) (arg argv 3)
  | some _, _ => addReply wrongtypeerr

/-- SPOP is propagated as the removal of the member it chose. -/
def spopChange (key : Bytes) (s : Finset Bytes) (ele : Bytes) : Change :=
  let s' := s.erase ele
  .put (keptSet s') 1 ((.set, "spop") :: delEvent (s' = ∅))
    (some [ascii "SREM", key, ele]) (.bulk ele)

def spopCommand : Cmd Outcome := do
  let k := keyArg c argv 1
  match ← lookupKeyWrite k with
  | none => addReply .nullBulk
  | some (.set s) =>
    let ele ← Prog.perform (Op.randomElement s)
    applyChange k (spopChange (arg argv 1) s ele)
  | some _ => addReply wrongtypeerr

def setReply (f : Finset Bytes → Reply) : Value → Reply
  | .set s => f s
  | _ => wrongtypeerr

def scardCommand : Cmd Outcome :=
  readCommand (keyArg c argv 1) czero
    (setReply fun s => .integer s.card)

def sismemberCommand : Cmd Outcome :=
  readCommand (keyArg c argv 1) czero
    (setReply fun s => if arg argv 2 ∈ s then cone else czero)

inductive SetOp where
  | union | diff | inter
  deriving DecidableEq, Repr

def SetOp.event : SetOp → String
  | .union => "sunionstore"
  | .diff => "sdiffstore"
  | .inter => "sinterstore"

def SetOp.apply : SetOp → List (Finset Bytes) → Finset Bytes
  | .union, sets => sets.foldl (· ∪ ·) ∅
  | .diff, sets => sets.tail.foldl (· \ ·) (sets.headD ∅)
  | .inter, sets => sets.tail.foldl (· ∩ ·) (sets.headD ∅)

/-- The outcome of looking up the sources. -/
inductive Sources where
  | sets (sets : List (Finset Bytes))
  | missing
  | wrongtype

def Sources.cons (s : Finset Bytes) : Sources → Sources
  | .sets rest => .sets (s :: rest)
  | other => other

/-- A missing source counts as empty, or ends the lookups for an
intersection. -/
def lookupSets (c : Client) (stop : Bool) : List Bytes → Cmd Sources
  | [] => pure (.sets [])
  | key :: keys => do
      match ← lookupKeyWrite (c.db, key) with
      | none =>
        if stop then pure .missing
        else Sources.cons ∅ <$> lookupSets c stop keys
      | some (.set s) => Sources.cons s <$> lookupSets c stop keys
      | some _ => pure .wrongtype

def storeSet (dst : Key) (op : SetOp) (s : Finset Bytes) : Cmd Outcome := do
  let deleted ← dbDelete dst
  if s = ∅ then notifyAll dst (delEvent deleted)
  else
    dbAdd dst (.set s)
    notifyKeyspaceEvent .set op.event dst
  signalModifiedKey dst
  addDirty 1
  addReply (.integer s.card)

/-- A missing source of an intersection removes the destination, without a
`del` event. -/
def setopStore (op : SetOp) (c : Client) (argv : List Bytes) :
    Cmd Outcome := do
  let dst := keyArg c argv 1
  match ← lookupSets c (op = .inter) (argv.drop 2) with
  | .sets sets => storeSet dst op (op.apply sets)
  | .missing =>
    if ← dbDelete dst then
      signalModifiedKey dst
      addDirty 1
    addReply czero
  | .wrongtype => addReply wrongtypeerr

def sinterstoreCommand : Client → List Bytes → Cmd Outcome := setopStore .inter
def sunionstoreCommand : Client → List Bytes → Cmd Outcome := setopStore .union
def sdiffstoreCommand : Client → List Bytes → Cmd Outcome := setopStore .diff

/-- SINTER, SUNION and SDIFF; SMEMBERS is SINTER of one key. -/
def setopReply (op : SetOp) (c : Client) (argv : List Bytes) :
    Cmd Outcome := do
  match ← lookupSets c (op = .inter) (argv.drop 1) with
  | .sets sets =>
    addReply (.multiBulk ((int.enumerate (op.apply sets)).map .bulk))
  | .missing => addReply emptyMultiBulk
  | .wrongtype => addReply wrongtypeerr

def sinterCommand : Client → List Bytes → Cmd Outcome := setopReply int .inter
def sunionCommand : Client → List Bytes → Cmd Outcome := setopReply int .union
def sdiffCommand : Client → List Bytes → Cmd Outcome := setopReply int .diff

end Sets

/-! ## Hashes -/

section Hashes

abbrev Fields := Finmap fun _ : Bytes => Bytes

def hashChange (f : Fields → Change) : Value → Change
  | .hash h => f h
  | _ => .answer wrongtypeerr

/-- `hashTypeLookupWriteOrCreate`, with what follows. -/
def hashUpdate (k : Key) (f : Fields → Change) : Cmd Outcome :=
  createCommand k (.hash ∅) (hashChange f)

def hsetChange (field value : Bytes) (h : Fields) : Change :=
  .put (some (.hash (h.insert field value))) 1 [(.hash, "hset")] none
    (if field ∈ h then czero else cone)

def hsetCommand : Cmd Outcome :=
  hashUpdate (keyArg c argv 1) (hsetChange (arg argv 2) (arg argv 3))

def hsetnxChange (field value : Bytes) (h : Fields) : Change :=
  if field ∈ h then .answer czero
  else
    .put (some (.hash (h.insert field value))) 1 [(.hash, "hset")] none
      cone

def hsetnxCommand : Cmd Outcome :=
  hashUpdate (keyArg c argv 1) (hsetnxChange (arg argv 2) (arg argv 3))

def hmsetCommand : Cmd Outcome :=
  if argv.length % 2 = 1 then
    addReply (errorReply "wrong number of arguments for HMSET")
  else
    hashUpdate (keyArg c argv 1) fun h =>
      .put (some (.hash ((pairs (argv.drop 2)).foldl
        (fun h (field, value) => h.insert field value) h))) 1
        [(.hash, "hset")] none ok

def hincrbyChange (field : Bytes) (incr : ℤ) (h : Fields) : Change :=
  match getLongLongFromObject ((h.lookup field).getD (ascii "0")) with
  | none => .answer (errorReply "hash value is not an integer")
  | some value =>
    match addLongLong value incr with
    | none => .answer overflowError
    | some sum =>
      .put (some (.hash (h.insert field (llText sum)))) 1
        [(.hash, "hincrby")] none (.integer sum)

def hincrbyCommand : Cmd Outcome :=
  withLong (arg argv 3) fun incr =>
    hashUpdate (keyArg c argv 1) (hincrbyChange (arg argv 2) incr)

/-- HINCRBYFLOAT is propagated as an HSET of the result. -/
def hincrbyfloatChange (argv : List Bytes) (h : Fields) : Change :=
  let field := arg argv 2
  if (h.lookup field).all int.isFloat then
    let sum := int.add ((h.lookup field).getD (ascii "0")) (arg argv 3)
    .put (some (.hash (h.insert field sum))) 1 [(.hash, "hincrbyfloat")]
      (some ((argv.set 0 (ascii "HSET")).set 3 sum)) (.bulk sum)
  else .answer (errorReply "hash value is not a valid float")

def hincrbyfloatCommand : Cmd Outcome :=
  if int.isFloat (arg argv 3) then
    hashUpdate (keyArg c argv 1) (hincrbyfloatChange int argv)
  else addReply notAFloat

def hdelChange (fields : List Bytes) (h : Fields) : Change :=
  let h' := fields.foldl (fun h field => h.erase field) h
  let deleted := h.keys.card - h'.keys.card
  if deleted = 0 then .answer czero
  else
    .put (if h'.keys = ∅ then none else some (.hash h')) deleted
      ((.hash, "hdel") :: delEvent (h'.keys = ∅)) none (.integer deleted)

def hdelCommand : Cmd Outcome :=
  updateCommand (keyArg c argv 1) (.answer czero)
    (hashChange (hdelChange (argv.drop 2)))

def hashReply (f : Fields → Reply) : Value → Reply
  | .hash h => f h
  | _ => wrongtypeerr

def bulkOrNull : Option Bytes → Reply
  | some value => .bulk value
  | none => .nullBulk

def hgetCommand : Cmd Outcome :=
  readCommand (keyArg c argv 1) .nullBulk
    (hashReply fun h => bulkOrNull (h.lookup (arg argv 2)))

def hmgetCommand : Cmd Outcome :=
  readCommand (keyArg c argv 1)
    (.multiBulk ((argv.drop 2).map fun _ => .nullBulk))
    (hashReply fun h =>
      .multiBulk ((argv.drop 2).map fun field => bulkOrNull (h.lookup field)))

def hlenCommand : Cmd Outcome :=
  readCommand (keyArg c argv 1) czero
    (hashReply fun h => .integer h.keys.card)

def hexistsCommand : Cmd Outcome :=
  readCommand (keyArg c argv 1) czero
    (hashReply fun h => if arg argv 2 ∈ h then cone else czero)

end Hashes

/-! ## Sorted sets -/

section SortedSets

/-- The members of a sorted set with their scores. -/
abbrev Scores := Finmap fun _ : Bytes => Bytes

def zsetChange (f : Scores → Change) : Value → Change
  | .zset z => f z
  | _ => .answer wrongtypeerr

/-- The scores and members of ZADD, or `none` when a score is not a number. -/
def parseScores : List (Bytes × Bytes) → Option (List (Bytes × Bytes))
  | [] => some []
  | (text, member) :: rest =>
    match int.score text, parseScores rest with
    | some score, some rest => some ((score, member) :: rest)
    | _, _ => none

/-- The loop of ZADD: the sorted set, and how many members were added and
updated. -/
def zaddLoop : List (Bytes × Bytes) → Scores → ℕ → ℕ → Scores × ℕ × ℕ
  | [], z, added, updated => (z, added, updated)
  | (score, member) :: rest, z, added, updated =>
    match z.lookup member with
    | none => zaddLoop rest (z.insert member score) (added + 1) updated
    | some cur =>
      if score = cur then zaddLoop rest z added updated
      else zaddLoop rest (z.insert member score) added (updated + 1)

def zaddChange (args : List (Bytes × Bytes)) (z : Scores) : Change :=
  let (z', added, updated) := zaddLoop args z 0 0
  if added + updated = 0 then .answer (.integer added)
  else
    .put (some (.zset z')) (added + updated) [(.zset, "zadd")] none
      (.integer added)

def zaddCommand : Cmd Outcome :=
  if argv.length % 2 = 1 then addReply syntaxerr
  else
    match parseScores int (pairs (argv.drop 2)) with
    | none => addReply notAFloat
    | some args =>
      createCommand (keyArg c argv 1) (.zset ∅)
        (zsetChange (zaddChange args))

def scoreReply (score : Bytes) : Reply := .bulk (int.scoreText score)

def zincrbyChange (incr member : Bytes) (z : Scores) : Change :=
  match z.lookup member with
  | none =>
    .put (some (.zset (z.insert member incr))) 1 [(.zset, "zincr")] none
      (scoreReply int incr)
  | some cur =>
    match int.addScore incr cur with
    | none =>
      .answer (errorReply "resulting score is not a number (NaN)")
    | some score =>
      if score = cur then .answer (scoreReply int score)
      else
        .put (some (.zset (z.insert member score))) 1 [(.zset, "zincr")]
          none (scoreReply int score)

def zincrbyCommand : Cmd Outcome :=
  match int.score (arg argv 2) with
  | none => addReply notAFloat
  | some incr =>
    createCommand (keyArg c argv 1) (.zset ∅)
      (zsetChange (zincrbyChange int incr (arg argv 3)))

/-- The removal of some members, with the events that go with it. -/
def zremoveChange (event : String) (announced : Bool) (members : List Bytes)
    (z : Scores) : Change :=
  let z' := members.foldl (fun z member => z.erase member) z
  let deleted := z.keys.card - z'.keys.card
  if deleted = 0 then .answer czero
  else
    .put (if z'.keys = ∅ then none else some (.zset z')) deleted
      ((.zset, event) :: delEvent (announced && z'.keys = ∅)) none
      (.integer deleted)

/-- The flag for the `del` event is never set. -/
def zremCommand : Cmd Outcome :=
  updateCommand (keyArg c argv 1) (.answer czero)
    (zsetChange (zremoveChange "zrem" false (argv.drop 2)))

def zremrangebyscoreCommand : Cmd Outcome :=
  match int.inRange (arg argv 2) (arg argv 3) with
  | none => addReply (errorReply "min or max is not a float")
  | some test =>
    updateCommand (keyArg c argv 1) (.answer czero)
      (zsetChange fun z => zremoveChange "zrembyscore" true
        ((int.ranked z).filter fun member =>
          test ((z.lookup member).getD [])) z)

def zremrangebyrankCommand : Cmd Outcome :=
  withLong (arg argv 2) fun start => withLong (arg argv 3) fun stop =>
    updateCommand (keyArg c argv 1) (.answer czero)
      (zsetChange fun z => zremoveChange "zrembyrank" true
        (Lists.slice (int.ranked z) start stop) z)

def zsetReply (f : Scores → Reply) : Value → Reply
  | .zset z => f z
  | _ => wrongtypeerr

def zcardCommand : Cmd Outcome :=
  readCommand (keyArg c argv 1) czero
    (zsetReply fun z => .integer z.keys.card)

def zscoreCommand : Cmd Outcome :=
  readCommand (keyArg c argv 1) .nullBulk
    (zsetReply fun z =>
      match z.lookup (arg argv 2) with
      | none => .nullBulk
      | some score => scoreReply int score)

/-- The sources of ZUNIONSTORE: sets and sorted sets. -/
def lookupZsets (c : Client) : List Bytes → Cmd (Option (List (Option Value)))
  | [] => pure (some [])
  | key :: keys => do
      match ← lookupKeyWrite (c.db, key) with
      | none => Option.map (none :: ·) <$> lookupZsets c keys
      | some (.set s) =>
        Option.map (some (.set s) :: ·) <$> lookupZsets c keys
      | some (.zset z) =>
        Option.map (some (.zset z) :: ·) <$> lookupZsets c keys
      | some _ => pure none

def storeZset (dst : Key) (event : String) (z : Scores) : Cmd Outcome := do
  let touched ← dbDelete dst
  if touched then
    signalModifiedKey dst
    addDirty 1
  if z.keys = ∅ then
    notifyAll dst (delEvent touched)
    addReply czero
  else
    dbAdd dst (.zset z)
    if touched then pure () else signalModifiedKey dst
    notifyKeyspaceEvent .zset event dst
    addDirty 1
    addReply (.integer z.keys.card)

def zunionInterGenericCommand (union : Bool) (c : Client)
    (argv : List Bytes) : Cmd Outcome :=
  withLong (arg argv 2) fun setnum =>
    if setnum < 1 then addReply (errorReply
      "at least 1 input key is needed for ZUNIONSTORE/ZINTERSTORE")
    else if (argv.length : ℤ) - 3 < setnum then addReply syntaxerr
    else do
      let setnum := setnum.toNat
      match ← lookupZsets c ((argv.drop 3).take setnum) with
      | none => addReply wrongtypeerr
      | some sources =>
        match int.combine union (argv.drop (3 + setnum)) sources with
        | .error r => addReply r
        | .ok z =>
          storeZset (keyArg c argv 1)
            (if union then "zunionstore" else "zinterstore") z

def zunionstoreCommand : Client → List Bytes → Cmd Outcome :=
  zunionInterGenericCommand int true

def zinterstoreCommand : Client → List Bytes → Cmd Outcome :=
  zunionInterGenericCommand int false

end SortedSets

end RedisV8.Commands
