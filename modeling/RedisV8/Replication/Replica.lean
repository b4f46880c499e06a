import RedisV8.Replication.Master

/-!
# The replica's side of replication

One replica and its master; every other replica is only seen through the
requests it makes.  The replica counts the bytes it reads from the offset that
`+FULLRESYNC` announced, keeps the count when the link breaks, and asks to go
on from there.
-/

namespace RedisV8.Replication

open Util Networking

/-- The connection to the master, by the id of the master's client for it.
`readBytes` is what was read from its output buffer, and `continued` is set if
it began with `+CONTINUE`. -/
inductive Link where
  | down
  | transfer (c : ℕ) (initialOffset : ℤ)
  | connected (c : ℕ) (readBytes : ℕ) (continued : Bool)
  deriving DecidableEq, Repr

/-- The data set is the file loaded last with everything received since then.
`reploff` is that of the client for the master, or of the cached one; the part
of a command that has been read stays in its query buffer. -/
structure Replica where
  file : Snapshot
  received : Bytes
  reploff : Option ℤ
  link : Link

structure System where
  master : Master
  replica : Replica

namespace System

/-- What `slaveTryPartialResynchronization` asks for.  The run id of a cached
master is that of this master. -/
def request (s : System) : Master.Request :=
  match s.replica.reploff with
  | some reploff => .psync s.master.runid (reploff + 1)
  | none => .psync (ascii "?") (-1)

/-- The connection once the answer has been read; before a full
resynchronisation the cached master is discarded. -/
def afterAnswer (replica : Replica) (c : ℕ) : Option Master.Answer → Replica
  | some .continues => { replica with link := .connected c 0 true }
  | some (.fullresync offset) =>
    { replica with reploff := none, link := .transfer c offset }
  | none => replica

def connect (s : System) (forked : Bool) : System :=
  if s.replica.link = .down then
    let (master, answer) := s.master.syncCommand s.request forked
    ⟨master, afterAnswer s.replica s.master.nextId answer⟩
  else s

/-- The same when the link breaks before the answer arrives. -/
def connectLost (s : System) (forked : Bool) : System :=
  if s.replica.link = .down then
    { s with master := (s.master.syncCommand s.request forked).1 }
  else s

/-- The end of `readSyncBulkPayload`: the whole file has arrived. -/
def load (s : System) : System :=
  match s.replica.link with
  | .transfer c initialOffset =>
    match s.master.slaves.find? (fun slave =>
        slave.id = c ∧ slave.replstate = .online) with
    | some ⟨_, _, _, some file⟩ =>
      { s with replica := ⟨file, [], some initialOffset,
          .connected c 0 false⟩ }
    | _ => s
  | _ => s

/-- `readQueryFromClient` for the master, with at most `nread` bytes. -/
def read (s : System) (nread : ℕ) : System :=
  match s.replica.link with
  | .connected c readBytes continued =>
    match s.master.slaves.find? (·.id = c) with
    | some slave =>
      let data := (slave.reply.drop readBytes).take nread
      { s with replica := { s.replica with
          received := s.replica.received ++ data
          reploff := s.replica.reploff.map (· + data.length)
          link := .connected c (readBytes + data.length) continued } }
    | none => s
  | _ => s

/-- The link breaks; the master may find out much later. -/
def disconnect (s : System) : System :=
  { s with replica := { s.replica with link := .down } }

inductive Event where
  | master (event : Master.Event)
  | connect (forked : Bool)
  | connectLost (forked : Bool)
  | load
  | read (nread : ℕ)
  | disconnect

def step (s : System) : Event → System
  | .master event => { s with master := s.master.step event }
  | .connect forked => s.connect forked
  | .connectLost forked => s.connectLost forked
  | .load => s.load
  | .read nread => s.read nread
  | .disconnect => s.disconnect

def runAll (s : System) (events : List Event) : System :=
  events.foldl step s

/-- A master without replicas, and a replica that has never been in touch with
it. -/
def init (runid : Bytes) (size : ℕ) (hsize : 0 < size)
    (executed : List Write) (file : Snapshot) : System where
  master := .init runid size hsize executed
  replica := ⟨file, [], none, .down⟩

end System

end RedisV8.Replication
