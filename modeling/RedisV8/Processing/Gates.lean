import RedisV8.Cluster.Slots
import RedisV8.Commands.Table

/-!
# Which commands are accepted

`processCommand` refuses a command for one of many reasons before it queues or
calls it.  Most refusals also mark the transaction of the client, so that its
EXEC fails.
-/

namespace RedisV8.Processing

open Util Server Keyspace Commands
open Cluster (Slot)

/-! ## Clusters -/

/-- A node, given by its name. -/
abbrev Node := ℕ

/-- What routing reads of `server.cluster`. -/
structure ClusterState where
  ok : Bool
  myself : Node
  slots : Slot → Option Node
  migratingSlotsTo : Slot → Option Node
  importingSlotsFrom : Slot → Option Node
  ip : Node → Bytes
  port : Node → ℤ

/-- A node that all slots are bound to. -/
def ClusterState.alone : ClusterState where
  ok := true
  myself := 0
  slots _ := some 0
  migratingSlotsTo _ := none
  importingSlotsFrom _ := none
  ip _ := ascii "127.0.0.1"
  port _ := 6379

structure MultiCmd where
  cmd : RedisCommand
  argv : List Bytes

/-- `fault` stands for a failed assertion, which ends the server. -/
inductive Route where
  | fault
  | multipleKeys
  | node (n : Node) (hashslot : Slot) (ask : Bool)
  | myself

/-! ## Clients and settings -/

/-- The fields of `server` that the acceptance of a command depends on.
`outOfMemory` is the error of `freeMemoryIfNeeded`. -/
structure Settings where
  requirepass : Option Bytes
  clusterEnabled : Bool
  maxmemory : Bool
  outOfMemory : Bool
  stopWritesOnBgsaveErr : Bool
  saveparamslen : ℕ
  lastbgsaveFailed : Bool
  masterhost : Option Bytes
  replMinSlavesToWrite : ℕ
  replMinSlavesMaxLag : ℕ
  replGoodSlavesCount : ℕ
  replSlaveRo : Bool
  replConnected : Bool
  replServeStaleData : Bool
  loading : Bool
  luaTimedout : Bool
  deriving DecidableEq

/-- A master with the default configuration. -/
def Settings.default : Settings where
  requirepass := none
  clusterEnabled := false
  maxmemory := false
  outOfMemory := false
  stopWritesOnBgsaveErr := true
  saveparamslen := 3
  lastbgsaveFailed := false
  masterhost := none
  replMinSlavesToWrite := 0
  replMinSlavesMaxLag := 10
  replGoodSlavesCount := 0
  replSlaveRo := true
  replConnected := false
  replServeStaleData := true
  loading := false
  luaTimedout := false

structure RedisClient where
  db : ℕ
  master : Bool
  authenticated : Bool
  multi : Bool
  dirtyCas : Bool
  dirtyExec : Bool
  asking : Bool
  closeAfterReply : Bool
  subscriptions : ℕ
  mstate : List MultiCmd
  watched : List Key

/-- `createClient`. -/
def createClient : RedisClient :=
  ⟨0, false, false, false, false, false, false, false, 0, [], []⟩

namespace RedisClient

def flagTransaction (c : RedisClient) : RedisClient :=
  if c.multi then { c with dirtyExec := true } else c

def discardTransaction (c : RedisClient) : RedisClient :=
  { c with
    mstate := []
    multi := false
    dirtyCas := false
    dirtyExec := false
    watched := [] }

def queueMultiCommand (c : RedisClient) (cmd : RedisCommand)
    (argv : List Bytes) : RedisClient :=
  { c with mstate := c.mstate ++ [⟨cmd, argv⟩] }

def watchForKey (c : RedisClient) (key : Bytes) : RedisClient :=
  if c.watched.any fun wk => wk.1 = c.db ∧ wk.2 = key then c
  else { c with watched := c.watched ++ [(c.db, key)] }

/-- What is left of a client by the commands that are called inside MULTI; a
nested MULTI and a WATCH inside MULTI answer with an error. -/
def call (c : RedisClient) (argv : List Bytes) : Proc → RedisClient
  | .multi => if c.multi then c else { c with multi := true }
  | .watch => if c.multi then c else argv.tail.foldl watchForKey c
  | .exec | .discard => if c.multi then c.discardTransaction else c
  | _ => c

end RedisClient

/-! ## Refusals -/

inductive Refusal where
  | unknownCommand (name : Bytes)
  | arity (name : String)
  | noauth
  | clusterdown
  | multipleKeys
  | redirected (ask : Bool) (hashslot : Slot) (ip : Bytes) (port : ℤ)
  | oom
  | bgsave
  | noreplicas
  | roslave
  | pubsub
  | masterdown
  | loading
  | slowscript

namespace Refusal

/-- `addReplyErrorFormat` with a string argument, which ends at its first nul;
line breaks become spaces. -/
def formatted (before : String) (s : Bytes) (after : String) : Reply :=
  .error (ascii "ERR " ++ (ascii before ++ s.takeWhile (· ≠ 0) ++
    ascii after).map fun b => if b = 13 ∨ b = 10 then 32 else b)

def reply : Refusal → Reply
  | unknownCommand name => formatted "unknown command '" name "'"
  | arity name =>
    formatted "wrong number of arguments for '" (ascii name) "' command"
  | noauth => .error (ascii "NOAUTH Authentication required.")
  | clusterdown => .error (ascii ("CLUSTERDOWN The cluster is down. " ++
      "Use CLUSTER INFO for more information"))
  | multipleKeys => errorReply "Multi keys request invalid in cluster"
  | redirected ask hashslot ip port =>
    .error (ascii (if ask then "ASK" else "MOVED") ++ ascii " " ++
      natText hashslot ++ ascii " " ++ ip ++ ascii ":" ++ llText port)
  | oom => .error (ascii
      "OOM command not allowed when used memory > 'maxmemory'.")
  | bgsave => .error (ascii ("MISCONF Redis is configured to save RDB " ++
      "snapshots, but is currently not able to persist on disk. Commands " ++
      "that may modify the data set are disabled. Please check Redis logs " ++
      "for details about the error."))
  | noreplicas => .error (ascii "NOREPLICAS Not enough good slaves to write.")
  | roslave => .error (ascii
      "READONLY You can't write against a read only slave.")
  | pubsub => errorReply
      "only (P)SUBSCRIBE / (P)UNSUBSCRIBE / QUIT allowed in this context"
  | masterdown => .error (ascii ("MASTERDOWN Link with MASTER is down and " ++
      "slave-serve-stale-data is set to 'no'."))
  | loading => .error (ascii
      "LOADING Redis is loading the dataset in memory")
  | slowscript => .error (ascii ("BUSY Redis is busy running a script. " ++
      "You can only call SCRIPT KILL or SHUTDOWN NOSAVE."))

end Refusal

/-! ## The gates -/

section Gates

namespace Settings

/-- A failed save stops writes.  The test of `processCommand` is for a server
that has a master. -/
def bgsaveRefuses (s : Settings) : Bool :=
  s.stopWritesOnBgsaveErr && 0 < s.saveparamslen && s.lastbgsaveFailed &&
    s.masterhost.isSome

def lacksReplicas (s : Settings) : Bool :=
  0 < s.replMinSlavesToWrite && 0 < s.replMinSlavesMaxLag &&
    s.replGoodSlavesCount < s.replMinSlavesToWrite

def readOnlyReplica (s : Settings) : Bool :=
  s.masterhost.isSome && s.replSlaveRo

end Settings

def Proc.isAuth : Proc → Bool
  | .auth => true
  | _ => false

def Proc.isPing : Proc → Bool
  | .ping => true
  | _ => false

/-- The commands allowed to a client that has subscribed. -/
def Proc.subscribes : Proc → Bool
  | .subscribe | .unsubscribe | .psubscribe | .punsubscribe => true
  | _ => false

/-- The commands that are called inside MULTI. -/
def Proc.immediate : Proc → Bool
  | .exec | .discard | .multi | .watch => true
  | _ => false

/-- The commands accepted while a script runs for too long. -/
def Proc.allowedWhenBusy (argv : List Bytes) : Proc → Bool
  | .auth | .replconf => true
  | .shutdown => argv.length = 2 && tolower ((arg argv 1).headD 0) = 110
  | .script => argv.length = 2 && tolower ((arg argv 1).headD 0) = 107
  | _ => false

/-- `none` stands for a command that is served here. -/
def clusterRefusal (cluster : ClusterState) : Route → Option Refusal
  | .multipleKeys => some .multipleKeys
  | .node n hashslot ask =>
    if n = cluster.myself then none
    else some (.redirected ask hashslot (cluster.ip n) (cluster.port n))
  | .myself | .fault => none

/-- The commands that are routed. -/
def routed (s : Settings) (c : RedisClient) (cmd : RedisCommand) : Bool :=
  s.clusterEnabled && !c.master &&
    !(cmd.getkeysProc.isNone && cmd.firstkey = 0)

/-- What becomes of a command; `crash` stands for a failed assertion. -/
inductive Verdict where
  | quit
  | crash
  | refused (reason : Refusal)
  | queued
  | call (cmd : RedisCommand)

/-- The reply to a command that is not called. -/
def Verdict.reply : Verdict → Option Reply
  | .quit => some .ok
  | .refused reason => some reason.reply
  | .queued => some (.status (ascii "QUEUED"))
  | .crash | .call _ => none

/-- The gates after the one of the cluster, and the decision between queueing
the command and calling it. -/
def acceptCommand (s : Settings) (c : RedisClient) (cmd : RedisCommand)
    (argv : List Bytes) : Verdict × RedisClient :=
  if s.maxmemory ∧ cmd.denyoom ∧ s.outOfMemory then
    (.refused .oom, c.flagTransaction)
  else if s.bgsaveRefuses ∧ (cmd.write ∨ Proc.isPing cmd.proc) then
    (.refused .bgsave, c.flagTransaction)
  else if s.lacksReplicas ∧ cmd.write then
    (.refused .noreplicas, c.flagTransaction)
  else if s.readOnlyReplica ∧ !c.master ∧ cmd.write then
    (.refused .roslave, c)
  else if 0 < c.subscriptions ∧ !Proc.subscribes cmd.proc then
    (.refused .pubsub, c)
  else if s.masterhost.isSome ∧ !s.replConnected ∧ !s.replServeStaleData ∧
      !cmd.stale then
    (.refused .masterdown, c.flagTransaction)
  else if s.loading ∧ !cmd.loading then (.refused .loading, c)
  else if s.luaTimedout ∧ !Proc.allowedWhenBusy argv cmd.proc then
    (.refused .slowscript, c.flagTransaction)
  else if c.multi ∧ !Proc.immediate cmd.proc then
    (.queued, c.queueMultiCommand cmd argv)
  else (.call cmd, c)

variable (int : Internals) (views : Views)

/-- `processCommand` up to the call of the command.  `route` is the answer of
`getNodeByQuery`.  The test for enough replicas is made twice in the source,
with the same outcome. -/
def processCommand (s : Settings) (cluster : ClusterState)
    (route : RedisCommand → Route) (c : RedisClient) (argv : List Bytes) :
    Verdict × RedisClient :=
  if isText "quit" (arg argv 0) then
    (.quit, { c with closeAfterReply := true })
  else
    match lookupCommand int views (arg argv 0) with
    | none => (.refused (.unknownCommand (arg argv 0)), c.flagTransaction)
    | some cmd =>
      if !cmd.arityOk argv.length then
        (.refused (.arity cmd.name), c.flagTransaction)
      else if s.requirepass.isSome ∧ !c.authenticated ∧
          !Proc.isAuth cmd.proc then
        (.refused .noauth, c.flagTransaction)
      else if routed s c cmd then
        if !cluster.ok then (.refused .clusterdown, c)
        else
          match route cmd with
          | .fault => (.crash, c)
          | node =>
            match clusterRefusal cluster node with
            | some reason => (.refused reason, c)
            | none => acceptCommand s c cmd argv
      else acceptCommand s c cmd argv

end Gates

/-! ## EXEC -/

/-- What EXEC starts with: an error, an abort, or a run of the queue. -/
inductive ExecStart where
  | withoutMulti
  | aborted (r : Reply)
  | runs (commands : List MultiCmd)

def execaborterr : Reply :=
  .error (ascii "EXECABORT Transaction discarded because of previous errors.")

/-- The beginning of `execCommand`. -/
def execStart (c : RedisClient) : ExecStart :=
  if !c.multi then .withoutMulti
  else if c.dirtyCas ∨ c.dirtyExec then
    .aborted (if c.dirtyExec then execaborterr else .nullMultiBulk)
  else .runs c.mstate

end RedisV8.Processing
