import Mathlib

/-!
# Replica elections

A replica of a failed master asks all masters for a vote and counts the answers
in `failover_auth_count`.  Modelled are the nodes of a cluster that agree on the
masters that serve slots, with packets that can be delayed, reordered and lost.
The history of votes and promotions is kept beside the nodes; no code reads it.
-/

namespace RedisV8.Cluster.Election

open Function

/-- The fields of `clusterState` that take part, and the flag and the
`voted_time` of `clusterNode`. -/
structure Node where
  slave : Bool
  currentEpoch : ℕ
  lastVoteEpoch : ℕ
  votedTime : ℕ → ℤ
  failoverAuthTime : ℤ
  failoverAuthCount : ℕ
  failoverAuthSent : Bool
  failoverAuthEpoch : ℕ

/-- Packets, with what their headers carry.  `other` stands for the types that
do not belong to elections. -/
inductive Packet where
  | authRequest (sender receiver currentEpoch configEpoch : ℕ)
      (myslots : List ℕ)
  | authAck (sender receiver currentEpoch : ℕ)
  | other (sender receiver currentEpoch : ℕ)
  deriving DecidableEq, Repr

namespace Packet

def receiver : Packet → ℕ
  | authRequest _ receiver _ _ _ | authAck _ receiver _
  | other _ receiver _ => receiver

def currentEpoch : Packet → ℕ
  | authRequest _ _ epoch _ _ | authAck _ _ epoch | other _ _ epoch => epoch

end Packet

/-- What a node knows of the sender of a request at that time: its flags, its
master and the link to it, and the `configEpoch` of the owner of each slot. -/
structure View where
  slave : Bool
  slaveof : Option ℕ
  masterFails : Bool
  linked : Bool
  slotEpoch : ℕ → Option ℕ
  mstime : ℤ

/-- What the failover of a replica depends on beside the election. -/
structure Situation where
  mstime : ℤ
  dataAge : ℤ
  masterFails : Bool
  masterServes : Bool
  random : ℕ

structure Vote where
  voter : ℕ
  candidate : ℕ
  epoch : ℕ
  deriving DecidableEq, Repr

structure Promotion where
  replica : ℕ
  epoch : ℕ
  deriving DecidableEq, Repr

structure World where
  nodes : ℕ → Node
  wire : List Packet
  votes : List Vote
  promotions : List Promotion

/-- `voters` are the masters that serve slots, in the view that all nodes
share. -/
structure Config where
  voters : Finset ℕ
  nodeTimeout : ℤ

/-! ## Packets -/

section Packets

/-- The update made for every packet of a known sender. -/
def Node.sees (n : Node) (currentEpoch : ℕ) : Node :=
  { n with currentEpoch := max n.currentEpoch currentEpoch }

/-- The tests of `clusterSendFailoverAuthIfNeeded`. -/
def grants (cfg : Config) (myself : ℕ) (n : Node) (view : View)
    (requestCurrentEpoch requestConfigEpoch : ℕ) (claimedSlots : List ℕ) :
    Bool :=
  decide (myself ∈ cfg.voters) && !(requestCurrentEpoch < n.currentEpoch) &&
    !(n.lastVoteEpoch == n.currentEpoch) && view.slave && view.masterFails &&
    (match view.slaveof with
      | none => false
      | some master =>
        !(view.mstime - n.votedTime master < cfg.nodeTimeout * 2)) &&
    claimedSlots.all fun j =>
      match view.slotEpoch j with
      | none => true
      | some configEpoch => configEpoch ≤ requestConfigEpoch

/-- The voter once it has voted for a replica of `master`. -/
def Node.voted (n : Node) (master : Option ℕ) (mstime : ℤ) : Node :=
  { n with
    lastVoteEpoch := n.currentEpoch
    votedTime := fun m => if some m = master then mstime else n.votedTime m }

/-- The vote is lost when there is no link to the replica. -/
def clusterSendFailoverAuthIfNeeded (cfg : Config) (w : World)
    (myself node : ℕ) (view : View)
    (requestCurrentEpoch requestConfigEpoch : ℕ) (claimedSlots : List ℕ) :
    World :=
  let n := w.nodes myself
  if grants cfg myself n view requestCurrentEpoch requestConfigEpoch
      claimedSlots then
    { w with
      nodes := update w.nodes myself
        (n.voted view.slaveof view.mstime)
      wire :=
        if view.linked then .authAck myself node n.currentEpoch :: w.wire
        else w.wire
      votes := ⟨myself, node, n.currentEpoch⟩ :: w.votes }
  else w

/-- An acknowledgement counts when it comes from a master that serves slots and
is not older than the election. -/
def Node.acknowledged (cfg : Config) (n : Node) (sender currentEpoch : ℕ) :
    Node :=
  if sender ∈ cfg.voters ∧ n.failoverAuthEpoch ≤ currentEpoch then
    { n with failoverAuthCount := n.failoverAuthCount + 1 }
  else n

/-- The parts of `clusterProcessPacket` that concern elections. -/
def clusterProcessPacket (cfg : Config) (w : World) (view : View)
    (p : Packet) : World :=
  let myself := p.receiver
  let n := (w.nodes myself).sees p.currentEpoch
  let w := { w with nodes := update w.nodes myself n }
  match p with
  | .authRequest sender _ currentEpoch configEpoch myslots =>
    clusterSendFailoverAuthIfNeeded cfg w myself sender view currentEpoch
      configEpoch myslots
  | .authAck sender _ currentEpoch =>
    { w with
      nodes := update w.nodes myself
        (n.acknowledged cfg sender currentEpoch) }
  | .other _ _ _ => w

end Packets

/-! ## Replicas -/

section Replicas

inductive Decision where
  | wait
  | schedule (time : ℤ)
  | request
  | promote
  deriving DecidableEq, Repr

/-- The tests of `clusterHandleSlaveFailover`, in their order. -/
def decision (cfg : Config) (n : Node) (i : Situation) : Decision :=
  let authAge := i.mstime - n.failoverAuthTime
  let neededQuorum := cfg.voters.card / 2 + 1
  if n.slave = false ∨ i.masterFails = false ∨ i.masterServes = false then
    .wait
  else
    let dataAge :=
      if cfg.nodeTimeout < i.dataAge then i.dataAge - cfg.nodeTimeout
      else i.dataAge
    if cfg.nodeTimeout * 10 < dataAge then .wait
    else if cfg.nodeTimeout * 4 < authAge then
      .schedule (i.mstime + 500 + dataAge.tdiv 10 + (i.random % 500 : ℕ))
    else if i.mstime < n.failoverAuthTime then .wait
    else if cfg.nodeTimeout < authAge then .wait
    else if n.failoverAuthSent = false then .request
    else if neededQuorum ≤ n.failoverAuthCount then .promote
    else .wait

/-- The start of an election is put off; the count is reset here. -/
def Node.scheduled (n : Node) (time : ℤ) : Node :=
  { n with
    failoverAuthTime := time
    failoverAuthCount := 0
    failoverAuthSent := false }

/-- The election starts, in a new epoch.  Epochs have 64 bits. -/
def Node.requested (n : Node) : Node :=
  let currentEpoch := (n.currentEpoch + 1) % 2 ^ 64
  { n with
    currentEpoch
    failoverAuthEpoch := currentEpoch
    failoverAuthSent := true }

/-- `peers` are the nodes with a link; the configuration in the request is the
one the replica has of its master. -/
def clusterHandleSlaveFailover (cfg : Config) (w : World) (myself : ℕ)
    (i : Situation) (peers : List ℕ) (configEpoch : ℕ) (myslots : List ℕ) :
    World :=
  let n := w.nodes myself
  match decision cfg n i with
  | .wait => w
  | .schedule time =>
    { w with nodes := update w.nodes myself (n.scheduled time) }
  | .request =>
    { w with
      nodes := update w.nodes myself n.requested
      wire := peers.map (fun peer => .authRequest myself peer
        n.requested.currentEpoch configEpoch myslots) ++ w.wire }
  | .promote =>
    { w with
      nodes := update w.nodes myself { n with slave := false }
      promotions := ⟨myself, n.failoverAuthEpoch⟩ :: w.promotions }

end Replicas

/-! ## Runs -/

/-- `ping` is any other packet that a node sends, `demote` makes a node a
replica again. -/
inductive Event where
  | failover (myself : ℕ) (i : Situation) (peers : List ℕ) (configEpoch : ℕ)
      (myslots : List ℕ)
  | deliver (p : Packet) (view : View)
  | lose (p : Packet)
  | ping (sender receiver : ℕ)
  | demote (myself : ℕ)

/-- A packet that is not on its way is neither delivered nor lost. -/
def World.step (cfg : Config) (w : World) : Event → World
  | .failover myself i peers configEpoch myslots =>
    clusterHandleSlaveFailover cfg w myself i peers configEpoch myslots
  | .deliver p view =>
    if p ∈ w.wire then
      clusterProcessPacket cfg { w with wire := w.wire.erase p } view p
    else w
  | .lose p => { w with wire := w.wire.erase p }
  | .ping sender receiver =>
    { w with wire :=
        .other sender receiver (w.nodes sender).currentEpoch :: w.wire }
  | .demote myself =>
    let n := w.nodes myself
    { w with
      nodes := update w.nodes myself { n with slave := true } }

def World.run (cfg : Config) (w : World) (events : List Event) : World :=
  events.foldl (World.step cfg) w

/-- Nodes that have just started, with any epoch and any role. -/
structure Initial (w : World) : Prop where
  wire : w.wire = []
  votes : w.votes = []
  promotions : w.promotions = []
  lastVoteEpoch : ∀ id, (w.nodes id).lastVoteEpoch = 0
  failoverAuthCount : ∀ id, (w.nodes id).failoverAuthCount = 0
  failoverAuthEpoch : ∀ id, (w.nodes id).failoverAuthEpoch = 0

end RedisV8.Cluster.Election
