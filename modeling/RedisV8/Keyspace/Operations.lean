import RedisV8.Keyspace.Database
import RedisV8.Lib.Effects
import RedisV8.Lists.Commands

/-!
# What commands do to the server

A command procedure is a program over the functions of `db.c` that it calls:
lookups, which may delete an expired key, changes of the two tables, and the
signals that watching and blocked clients, the log and the replicas depend on.
-/

namespace RedisV8.Keyspace

open Util Server Effects
open RedisV8.Lists (Side)

/-- The classes of keyspace events. -/
inductive EventClass where
  | generic | string | list | set | hash | zset | expired
  deriving DecidableEq, Repr

/-- What became of the key that MIGRATE sent to its target. -/
inductive Transfer where
  | accepted
  | refused (error : Bytes)
  | ioerror (error : Bytes)
  deriving DecidableEq, Repr

inductive Op where
  | lookup (k : Key)
  | find (k : Key)
  | keys (db : ℕ)
  | getExpire (k : Key)
  | store (k : Key) (value : Value)
  | delete (k : Key)
  | setExpire (k : Key) (time : ℤ)
  | removeExpire (k : Key)
  | flush (db : ℕ)
  | signalModifiedKey (k : Key)
  | signalFlushedDb (db : Option ℕ)
  | signalListAsReady (k : Key)
  | notify (cls : EventClass) (event : String) (k : Key)
  | dirty (n : ℕ)
  | rewrite (argv : List Bytes)
  | now (again : Bool)
  | passive
  | randomElement (s : Finset Bytes)
  | transfer

/-- The type of the answers. -/
@[reducible]
def Op.Answer : Op → Type
  | .lookup _ => Option Value
  | .find _ | .delete _ | .removeExpire _ | .passive => Bool
  | .getExpire _ | .now _ => ℤ
  | .flush _ => ℕ
  | .keys _ => List Bytes
  | .randomElement _ => Bytes
  | .transfer => Transfer
  | .store _ _ | .setExpire _ _ | .signalModifiedKey _ | .signalFlushedDb _
  | .signalListAsReady _ | .notify _ _ _ | .dirty _ | .rewrite _ => Unit

/-- Command procedures and their parts. -/
abbrev Cmd := Prog Op Op.Answer

/-! ## Running them -/

/-- What a server does not decide itself.  The clock shows `now` during a
command, and `later` when the command reads it once more.  `passive` says that it is loading a
log or that it is a replica: such a server leaves expired keys alone.
`keyOrder` is the order in which the keys of a database happen to be stored. -/
structure Env where
  now : ℤ
  later : ℤ
  passive : Bool
  randomElement : Finset Bytes → Bytes
  randomElement_mem : ∀ s : Finset Bytes, s.Nonempty → randomElement s ∈ s
  keyOrder : Finset Bytes → List Bytes
  keyOrder_toFinset : ∀ s : Finset Bytes, (keyOrder s).toFinset = s
  transfer : Transfer

/-- The data, and what has been signalled since a command was called:
`expired` holds the keys that `propagateExpire` was called for, `vector` the
argument vector if it was rewritten. -/
structure State where
  data : Dataset
  modified : Key → Bool
  ready : List Key
  events : List (EventClass × String × Key)
  dirty : ℕ
  expired : List Key
  vector : Option (List Bytes)

/-- A server at the call of a command. -/
def State.init (data : Dataset) : State where
  data := data
  modified _ := false
  ready := []
  events := []
  dirty := 0
  expired := []
  vector := none

namespace State

def put (s : State) (k : Key) (o : Option Entry) : State :=
  { s with data := s.data.set k o }

/-- The deletion made by `expireIfNeeded`. -/
def expire (s : State) (k : Key) : State :=
  { s with
    data := s.data.set k none
    expired := s.expired ++ [k]
    events := s.events ++ [(.expired, "expired", k)] }

/-- Whether `expireIfNeeded` deletes the key. -/
def expires (env : Env) (s : State) (k : Key) : Bool :=
  !env.passive && (s.data.find k).any (Entry.expired env.now)

/-- `dbAdd` and `dbOverwrite`, and a change of the object in place: the expire
of the key, if there is one, stays. -/
def store (s : State) (k : Key) (value : Value) : State :=
  s.put k (some ⟨value, (s.data.find k).bind Entry.expire⟩)

def setExpire (s : State) (k : Key) (time : ℤ) : State :=
  s.put k ((s.data.find k).map fun e => { e with expire := some time })

def removeExpire (s : State) (k : Key) : State :=
  s.put k ((s.data.find k).map fun e => { e with expire := none })

/-- `touchWatchedKeysOnFlush`: the keys that are there. -/
def signalFlushedDb (s : State) (db : Option ℕ) : State :=
  { s with
    modified := fun k => s.modified k ||
      (decide (db = none ∨ db = some k.1) && (s.data.find k).isSome) }

def signalModifiedKey (s : State) (k : Key) : State :=
  { s with modified := fun k' => s.modified k' || decide (k' = k) }

/-- A key is queued once. -/
def signalListAsReady (s : State) (k : Key) : State :=
  if k ∈ s.ready then s else { s with ready := s.ready ++ [k] }

end State

/-- `getExpire`, where `-1` stands for no expire. -/
def getExpireOf (d : Dataset) (k : Key) : ℤ :=
  ((d.find k).bind Entry.expire).getD (-1)

def handle (env : Env) : Handler Op Op.Answer State
  | .lookup k, s =>
    if s.expires env k then (none, s.expire k)
    else ((s.data.find k).map Entry.value, s)
  | .find k, s => ((s.data.find k).isSome, s)
  | .keys db, s => (env.keyOrder (s.data db).keys, s)
  | .getExpire k, s => (getExpireOf s.data k, s)
  | .store k value, s => ((), s.store k value)
  | .delete k, s => ((s.data.find k).isSome, s.put k none)
  | .setExpire k time, s => ((), s.setExpire k time)
  | .removeExpire k, s =>
    (((s.data.find k).bind Entry.expire).isSome, s.removeExpire k)
  | .flush db, s =>
    ((s.data db).keys.card, { s with data := s.data.flush db })
  | .signalModifiedKey k, s => ((), s.signalModifiedKey k)
  | .signalFlushedDb db, s => ((), s.signalFlushedDb db)
  | .signalListAsReady k, s => ((), s.signalListAsReady k)
  | .notify cls event k, s =>
    ((), { s with events := s.events ++ [(cls, event, k)] })
  | .dirty n, s => ((), { s with dirty := s.dirty + n })
  | .rewrite argv, s => ((), { s with vector := some argv })
  | .now again, s => (if again then env.later else env.now, s)
  | .passive, s => (env.passive, s)
  | .randomElement set, s => (env.randomElement set, s)
  | .transfer, s => (env.transfer, s)

/-! ## The functions of db.c -/

section Functions

def lookupKeyRead (k : Key) : Cmd (Option Value) := .perform (Op.lookup k)

def lookupKeyWrite (k : Key) : Cmd (Option Value) := .perform (Op.lookup k)

def dbExists (k : Key) : Cmd Bool := .perform (Op.find k)

def getExpire (k : Key) : Cmd ℤ := .perform (Op.getExpire k)

/-- The key is not there. -/
def dbAdd (k : Key) (value : Value) : Cmd Unit := .perform (Op.store k value)

/-- The key is there. -/
def dbOverwrite (k : Key) (value : Value) : Cmd Unit :=
  .perform (Op.store k value)

def dbDelete (k : Key) : Cmd Bool := .perform (Op.delete k)

def setExpire (k : Key) (time : ℤ) : Cmd Unit :=
  .perform (Op.setExpire k time)

def removeExpire (k : Key) : Cmd Bool := .perform (Op.removeExpire k)

def signalModifiedKey (k : Key) : Cmd Unit :=
  .perform (Op.signalModifiedKey k)

def signalListAsReady (k : Key) : Cmd Unit :=
  .perform (Op.signalListAsReady k)

def notifyKeyspaceEvent (cls : EventClass) (event : String) (k : Key) :
    Cmd Unit := .perform (Op.notify cls event k)

/-- `server.dirty += n`. -/
def addDirty (n : ℕ) : Cmd Unit := .perform (Op.dirty n)

def rewriteClientCommandVector (argv : List Bytes) : Cmd Unit :=
  .perform (Op.rewrite argv)

def mstime : Cmd ℤ := .perform (Op.now false)

/-- A second look at the clock in the same command. -/
def mstimeAgain : Cmd ℤ := .perform (Op.now true)

def setKey (k : Key) (value : Value) : Cmd Unit := do
  match ← lookupKeyWrite k with
  | none => dbAdd k value
  | some _ => dbOverwrite k value
  let _ ← removeExpire k
  signalModifiedKey k

end Functions

/-! ## Commands -/

/-- A command answers its client, which SELECT also moves to a database, or
blocks it until a time, where zero stands for ever. -/
inductive Outcome where
  | reply (r : Reply)
  | select (db : ℕ)
  | block (side : Side) (keys : List Bytes) (target : Option Bytes)
      (timeout : ℤ)

/-- The client of a command: its database, and whether the command is run by
`EXEC`. -/
structure Client where
  db : ℕ
  multi : Bool
  deriving DecidableEq, Repr

/-- A command that only answers. -/
def addReply (r : Reply) : Cmd Outcome := pure (.reply r)

def notifyAll (k : Key) : List (EventClass × String) → Cmd Unit
  | [] => pure ()
  | (cls, event) :: events => do
      notifyKeyspaceEvent cls event k
      notifyAll k events

/-- What most commands do with the value of their key: they only answer, or
they change it, where `none` stands for a collection that is left empty and
goes away with its key.  `vector` replaces the arguments to be propagated. -/
inductive Change where
  | answer (r : Reply)
  | put (value : Option Value) (dirty : ℕ)
      (events : List (EventClass × String)) (vector : Option (List Bytes))
      (r : Reply)

def dbReplace (k : Key) : Option Value → Cmd Unit
  | some value => dbOverwrite k value
  | none => do
      let _ ← dbDelete k
      pure ()

def rewriteIf : Option (List Bytes) → Cmd Unit
  | none => pure ()
  | some argv => rewriteClientCommandVector argv

def applyChange (k : Key) : Change → Cmd Outcome
  | .answer r => addReply r
  | .put value n events vector r => do
      dbReplace k value
      signalModifiedKey k
      notifyAll k events
      addDirty n
      rewriteIf vector
      addReply r

/-- A command on one key, from what it makes of a missing key and of a
value. -/
def updateCommand (k : Key) (missing : Change) (f : Value → Change) :
    Cmd Outcome := do
  match ← lookupKeyWrite k with
  | none => applyChange k missing
  | some value => applyChange k (f value)

/-- A command that adds a value without elements when the key is not there,
before it changes it. -/
def createCommand (k : Key) (empty : Value) (f : Value → Change) :
    Cmd Outcome := do
  match ← lookupKeyWrite k with
  | none =>
    dbAdd k empty
    applyChange k (f empty)
  | some value => applyChange k (f value)

/-- A command that only reads its key. -/
def readCommand (k : Key) (missing : Reply) (f : Value → Reply) :
    Cmd Outcome :=
  updateCommand k (.answer missing) fun value => .answer (f value)

end RedisV8.Keyspace
