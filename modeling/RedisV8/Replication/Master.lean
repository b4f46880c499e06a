import RedisV8.Networking.Vectors
import RedisV8.Replication.Backlog

/-!
# The master's side of replication

A replica that asks for a full synchronisation is sent an RDB file and then
what has been queued for it.  `replstate` says how far it is: waiting for a
save to start, waiting for the save to end, being sent the file, or online.
The save is a forked child, which may be running for another replica, or for
nobody.  Data sets are represented by the writes that led to them.
-/

namespace RedisV8.Replication

open Util Networking

/-- A write, with the database it is executed in. -/
abbrev Write := ℕ × List Bytes

/-- A data set: the writes executed up to some point. -/
abbrev Snapshot := List Write

inductive ReplState where
  | waitBgsaveStart | waitBgsaveEnd | sendBulk | online
  deriving DecidableEq, Repr

/-- A client with the `REDIS_SLAVE` flag.  `reply` is everything that was put
into its output buffer, of which nothing is sent before it is online;
`repldbfd` is the RDB file opened for it. -/
structure Slave where
  id : ℕ
  replstate : ReplState
  reply : Bytes
  repldbfd : Option Snapshot
  deriving DecidableEq, Repr

/-- The parts of `server` that replication uses.  `rdbChild` is the data set a
running child is saving, `rdbFile` that of the file at `rdb_filename`. -/
structure Master where
  runid : Bytes
  executed : List Write
  nextId : ℕ
  slaves : List Slave
  slaveseldb : Option ℕ
  backlogSize : ℕ
  backlogSize_pos : 0 < backlogSize
  backlog : Option Backlog
  masterReplOffset : ℤ
  rdbChild : Option Snapshot
  rdbFile : Option Snapshot
  scriptCache : List Bytes

namespace Master

/-! ## Feeding the replicas -/

def createReplicationBacklog (m : Master) : Master :=
  let masterReplOffset := m.masterReplOffset + 1
  { m with
    masterReplOffset := masterReplOffset
    backlog := some
      (Backlog.alloc m.backlogSize m.backlogSize_pos masterReplOffset) }

/-- `REDIS_REPL_BACKLOG_MIN_SIZE`. -/
def backlogMinSize : ℕ := 1024 * 16

/-- The old contents are not kept. -/
def resizeReplicationBacklog (m : Master) (newsize : ℕ) : Master :=
  let size := max newsize backlogMinSize
  have hsize : 0 < size := lt_of_lt_of_le (by decide) (le_max_right _ _)
  if m.backlogSize = size then m
  else
    { m with
      backlogSize := size
      backlogSize_pos := hsize
      backlog := m.backlog.map fun _ =>
        Backlog.alloc size hsize m.masterReplOffset }

def feedReplicationBacklog (m : Master) (data : Bytes) : Master :=
  match m.backlog with
  | none => m
  | some backlog =>
    let masterReplOffset := m.masterReplOffset + data.length
    { m with
      masterReplOffset := masterReplOffset
      backlog := some (backlog.feed masterReplOffset data) }

theorem rdbChild_feed (m : Master) (data : Bytes) :
    (m.feedReplicationBacklog data).rdbChild = m.rdbChild := by
  rw [feedReplicationBacklog.eq_def]
  split <;> rfl

theorem executed_feed (m : Master) (data : Bytes) :
    (m.feedReplicationBacklog data).executed = m.executed := by
  rw [feedReplicationBacklog.eq_def]
  split <;> rfl

/-- The `SELECT` that goes before a command for another database than the last
one. -/
def selectcmd (slaveseldb : Option ℕ) (dictid : ℕ) : List (List Bytes) :=
  if slaveseldb = some dictid then [] else [[ascii "SELECT", natText dictid]]

end Master

/-- A replica that waits for a save to start gets the `SELECT` only. -/
def Slave.feed (select command : Bytes) (slave : Slave) : Slave :=
  { slave with
    reply := slave.reply ++ select ++
      if slave.replstate = .waitBgsaveStart then [] else command }

namespace Master

/-- The source feeds the backlog argument by argument, which leaves the same
bytes in it. -/
def replicationFeedSlaves (m : Master) (dictid : ℕ) (argv : List Bytes) :
    Master :=
  if m.backlog.isNone && m.slaves.isEmpty then m
  else
    let select := (selectcmd m.slaveseldb dictid).flatMap vector
    let command := vector argv
    { m.feedReplicationBacklog (select ++ command) with
      slaveseldb := some dictid
      slaves := m.slaves.map (Slave.feed select command) }

/-- A write command, executed and propagated as it is. -/
def write (m : Master) (w : Write) : Master :=
  { m with executed := m.executed ++ [w] }.replicationFeedSlaves w.1 w.2

/-! ## Synchronisation requests -/

/-- `SYNC`, or `PSYNC <runid> <offset>`. -/
inductive Request where
  | sync
  | psync (runid : Bytes) (offset : ℤ)
  deriving DecidableEq, Repr

/-- What is written to the socket at once. -/
inductive Answer where
  | continues
  | fullresync (offset : ℤ)
  deriving DecidableEq, Repr

/-- `!strcasecmp(a,b)`. -/
def sameText (a b : Bytes) : Bool :=
  (a.takeWhile (· ≠ 0)).map tolower == (b.takeWhile (· ≠ 0)).map tolower

/-- `rdbSaveBackground`; `forked` tells whether `fork` succeeds. -/
def rdbSaveBackground (m : Master) (forked : Bool) : Option Master :=
  if m.rdbChild.isSome then none
  else if forked then some { m with rdbChild := some m.executed }
  else none

def addSlave (m : Master) (slave : Slave) : Master :=
  { m with slaves := m.slaves ++ [slave] }

/-- What is sent from the backlog for a partial resynchronisation, if it is
possible. -/
def partialReply (m : Master) (runid : Bytes) (offset : ℤ) :
    Option (Option Bytes) :=
  if sameText runid m.runid then
    match m.backlog with
    | none => none
    | some backlog =>
      if backlog.accepts offset then
        some (backlog.addReplyReplicationBacklog offset)
      else none
  else none

/-- The offset announced by `+FULLRESYNC`. -/
def fullresyncOffset (m : Master) : ℤ :=
  if m.backlog.isNone then m.masterReplOffset + 1 else m.masterReplOffset

/-- The backlog is there as long as there are replicas. -/
def createFirstBacklog (m : Master) : Master :=
  if m.slaves.length = 1 ∧ m.backlog.isNone then m.createReplicationBacklog
  else m

/-- The end of `syncCommand`. -/
def becomeSlave (m : Master) (c : ℕ) (replstate : ReplState) (reply : Bytes) :
    Master :=
  createFirstBacklog { m with
    slaveseldb := none
    slaves := m.slaves ++ [⟨c, replstate, reply, none⟩] }

/-- The full resynchronisation of `syncCommand`. -/
def fullResync (m : Master) (c : ℕ) (forked : Bool) : Master :=
  if m.rdbChild.isSome then
    match m.slaves.find? (·.replstate = .waitBgsaveEnd) with
    | some slave => m.becomeSlave c .waitBgsaveEnd slave.reply
    | none => m.becomeSlave c .waitBgsaveStart []
  else
    match m.rdbSaveBackground forked with
    | none => m
    | some m => { m with scriptCache := [] }.becomeSlave c .waitBgsaveEnd []

/-- `syncCommand` from a connection of its own, which gets the next id.  A
reply that has lost its length cannot be written, and the client is freed. -/
def syncCommand (m : Master) (request : Request) (forked : Bool) :
    Master × Option Answer :=
  let c := m.nextId
  let m := { m with nextId := c + 1 }
  match request with
  | .sync => (m.fullResync c forked, none)
  | .psync runid offset =>
    match m.partialReply runid offset with
    | some (some reply) =>
      (m.addSlave ⟨c, .online, reply, none⟩, some .continues)
    | some none => (m, some .continues)
    | none =>
      (m.fullResync c forked, some (.fullresync m.fullresyncOffset))

/-! ## Saves -/

/-- How a child ends. -/
inductive Exit where
  | success | failure | signal
  deriving DecidableEq, Repr

/-- One round of the loop of `updateSlavesWaitingBgsave`; a replica that is
freed is gone. -/
def updateSlave (ok : Bool) (file : Option Snapshot) (opened : ℕ → Bool)
    (slave : Slave) : Option Slave :=
  match slave.replstate with
  | .waitBgsaveStart => some { slave with replstate := .waitBgsaveEnd }
  | .waitBgsaveEnd =>
    if ok && file.isSome && opened slave.id then
      some { slave with replstate := .sendBulk, repldbfd := file }
    else none
  | .sendBulk | .online => some slave

/-- When the new save cannot be started, the replicas looked for are in a
state that the loop above has taken them out of. -/
def updateSlavesWaitingBgsave (m : Master) (ok : Bool) (opened : ℕ → Bool)
    (forked : Bool) : Master :=
  let startbgsave := m.slaves.any (·.replstate = .waitBgsaveStart)
  let m := { m with
    slaves := m.slaves.filterMap (updateSlave ok m.rdbFile opened) }
  if startbgsave then
    let m := { m with scriptCache := [] }
    match m.rdbSaveBackground forked with
    | some m => m
    | none => { m with
        slaves := m.slaves.filter (·.replstate ≠ .waitBgsaveStart) }
  else m

/-- The exit code of a child killed by a signal reads as zero, and only the
exit code is handed on. -/
def backgroundSaveDoneHandler (m : Master) (exit : Exit) (opened : ℕ → Bool)
    (forked : Bool) : Master :=
  match m.rdbChild with
  | none => m
  | some snapshot =>
    let m := { m with
      rdbChild := none
      rdbFile := if exit = Exit.success then some snapshot else m.rdbFile }
    m.updateSlavesWaitingBgsave (exit ≠ Exit.failure) opened forked

/-- `SAVE`. -/
def saveCommand (m : Master) : Master :=
  if m.rdbChild.isSome then m else { m with rdbFile := some m.executed }

/-- `BGSAVE`, or a save started by `serverCron`. -/
def bgsaveCommand (m : Master) (forked : Bool) : Master :=
  (m.rdbSaveBackground forked).getD m

/-- The end of `sendBulkToSlave`. -/
def sentBulk (m : Master) (id : ℕ) : Master :=
  { m with
    slaves := m.slaves.map fun slave =>
      if slave.id = id ∧ slave.replstate = .sendBulk then
        { slave with replstate := .online }
      else slave }

def freeClient (m : Master) (id : ℕ) : Master :=
  { m with slaves := m.slaves.filter (·.id ≠ id) }

/-- `replicationCron`, when there have been no replicas for long enough. -/
def freeReplicationBacklog (m : Master) : Master :=
  if m.slaves.isEmpty then { m with backlog := none } else m

/-! ## Runs -/

inductive Event where
  | write (w : Write)
  | sync (request : Request) (forked : Bool)
  | bgsave (forked : Bool)
  | save
  | saveDone (exit : Exit) (opened : ℕ → Bool) (forked : Bool)
  | sentBulk (id : ℕ)
  | freeClient (id : ℕ)
  | freeBacklog
  | resizeBacklog (newsize : ℕ)

def step (m : Master) : Event → Master
  | .write w => m.write w
  | .sync request forked => (m.syncCommand request forked).1
  | .bgsave forked => m.bgsaveCommand forked
  | .save => m.saveCommand
  | .saveDone exit opened forked =>
    m.backgroundSaveDoneHandler exit opened forked
  | .sentBulk id => m.sentBulk id
  | .freeClient id => m.freeClient id
  | .freeBacklog => m.freeReplicationBacklog
  | .resizeBacklog newsize => m.resizeReplicationBacklog newsize

/-- A server without replicas, after the given writes. -/
def init (runid : Bytes) (size : ℕ) (hsize : 0 < size)
    (executed : List Write) : Master where
  runid := runid
  executed := executed
  nextId := 0
  slaves := []
  slaveseldb := none
  backlogSize := size
  backlogSize_pos := hsize
  backlog := none
  masterReplOffset := 0
  rdbChild := none
  rdbFile := none
  scriptCache := []

end Master

/-! ## Applying a stream -/

section Apply

variable (dbnum : ℕ)

/-- One command read by a replica from its master: the database selected, and
the writes executed. -/
def applyCommand (state : ℕ × List Write) (argv : List Bytes) :
    ℕ × List Write :=
  if isText "select" (argv.getD 0 []) then
    (selectedDb dbnum state.1 (argv.getD 1 []), state.2)
  else (state.1, state.2 ++ [(state.1, argv)])

def applyCommands (state : ℕ × List Write) (commands : List (List Bytes)) :
    ℕ × List Write :=
  commands.foldl (applyCommand dbnum) state

/-- The data set of a replica that has loaded a file and then read a stream;
its client starts in database 0. -/
def replay (file : Snapshot) (stream : Bytes) : List Write :=
  (applyCommands dbnum (0, file) (commandsOf stream)).2

/-- Writes that can be propagated. -/
structure Propagable (w : Write) : Prop where
  dictid_lt : w.1 < dbnum
  sendable : Sendable w.2
  not_select : isText "select" (w.2.getD 0 []) = false

end Apply

end RedisV8.Replication
