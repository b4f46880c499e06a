import Mathlib.Data.Fintype.Card
import RedisV8.Server.Reply

/-!
# The slot table of a cluster node

A node keeps the owner of each of the 16384 slots in a table, and for each known
node the bitmap and the number of its slots.  Modelled are the functions of
`cluster.c` that change these, the CLUSTER subcommands on slots, and the
processing of PING, PONG, MEET and UPDATE packets.  Nodes are found through
their addresses; addresses of nodes that were freed lead nowhere.
-/

namespace RedisV8.Cluster

open Util Server Function Reply

/-- The indexes of the tables, below `REDIS_CLUSTER_SLOTS`. -/
abbrev Slot := Fin 16384

/-- The slots in the order in which loops visit them. -/
@[irreducible]
def allSlots : List Slot := List.finRange 16384

theorem mem_allSlots (slot : Slot) : slot ∈ allSlots := by
  unfold allSlots
  exact List.mem_finRange slot

/-- The address of a `clusterNode`. -/
abbrev Ref := ℕ

structure Flags where
  myself : Bool
  master : Bool
  slave : Bool
  pfail : Bool
  fail : Bool
  handshake : Bool
  noaddr : Bool
  deriving DecidableEq, Repr

structure Node where
  name : Bytes
  ip : Bytes
  port : ℕ
  flags : Flags
  configEpoch : ℕ
  slots : Finset Slot
  numslots : ℤ
  slaveof : Option Ref

/-- `heap` holds the nodes that were not freed, and `known` those in the
dictionary of nodes.  Addresses from `next` on were never given out. -/
structure State where
  heap : Ref → Option Node
  next : Ref
  known : List Ref
  myself : Ref
  currentEpoch : ℕ
  slots : Slot → Option Ref
  migratingSlotsTo : Slot → Option Ref
  importingSlotsFrom : Slot → Option Ref

/-- A failed assertion, or the use of a `NULL` address, stops the server.
After an access outside a table or through the address of a freed node anything
can happen. -/
inductive Fault where
  | stop
  | undefined
  deriving DecidableEq, Repr

abbrev Step (α : Type) := Except Fault α

namespace State

/-- The node at an address. -/
def deref (s : State) (r : Ref) : Step Node :=
  match s.heap r with
  | some n => .ok n
  | none => .error .undefined

/-- A node is read, if there is one. -/
def touch (s : State) : Option Ref → Step Unit
  | none => pure ()
  | some r => do
      let _ ← s.deref r
      pure ()

def store (s : State) (r : Ref) (n : Node) : State :=
  { s with heap := update s.heap r (some n) }

def bind (s : State) (slot : Slot) (o : Option Ref) : State :=
  { s with slots := update s.slots slot o }

/-- The names are compared at their first forty bytes. -/
def clusterLookupNode (s : State) (name : Bytes) : Option Ref :=
  s.known.find? fun r => (s.heap r).any fun n => n.name == name.take 40

end State

def redisAssert (p : Bool) : Step Unit :=
  if p then .ok () else .error .stop

/-! ## Slots -/

section Slots

def clusterNodeSetSlotBit (n : Node) (slot : Slot) : Node :=
  if slot ∈ n.slots then n
  else { n with slots := insert slot n.slots, numslots := n.numslots + 1 }

def clusterNodeClearSlotBit (n : Node) (slot : Slot) : Node :=
  if slot ∈ n.slots then
    { n with slots := n.slots.erase slot, numslots := n.numslots - 1 }
  else n

/-- The Boolean tells whether the slot was free. -/
def clusterAddSlot (s : State) (r : Ref) (slot : Slot) :
    Step (State × Bool) := do
  if (s.slots slot).isSome then pure (s, false)
  else
    let n ← s.deref r
    pure ((s.store r (clusterNodeSetSlotBit n slot)).bind slot (some r), true)

/-- The Boolean tells whether the slot was assigned. -/
def clusterDelSlot (s : State) (slot : Slot) : Step (State × Bool) :=
  match s.slots slot with
  | none => pure (s, false)
  | some r => do
      let n ← s.deref r
      redisAssert (slot ∈ n.slots)
      pure ((s.store r (clusterNodeClearSlotBit n slot)).bind slot none, true)

/-- The slot passes from its owner, if it has one, to a node. -/
def rebindSlot (s : State) (r : Ref) (slot : Slot) : Step State := do
  let (s, _) ← clusterDelSlot s slot
  let (s, _) ← clusterAddSlot s r slot
  pure s

def clusterDelNodeSlots (s : State) (r : Ref) : Step State :=
  allSlots.foldlM (fun s slot => do
    let n ← s.deref r
    if slot ∈ n.slots then
      let (s, _) ← clusterDelSlot s slot
      pure s
    else pure s) s

end Slots

/-! ## Nodes -/

section Nodes

def createClusterNode (name : Bytes) (handshake : Bool) : Node where
  name := name
  ip := []
  port := 0
  flags := ⟨false, false, false, false, false, handshake, false⟩
  configEpoch := 0
  slots := ∅
  numslots := 0
  slaveof := none

/-- Addresses of freed nodes stay where they were stored. -/
def freeClusterNode (s : State) (r : Ref) : Step State := do
  let n ← s.deref r
  s.touch n.slaveof
  pure
    { s with
      heap := update s.heap r none
      known := s.known.filter (· ≠ r) }

/-- The marks that name a node are removed from a slot. -/
def dropMarks (r : Ref) (s : State) (slot : Slot) : State :=
  { s with
    importingSlotsFrom :=
      if s.importingSlotsFrom slot = some r then
        update s.importingSlotsFrom slot none
      else s.importingSlotsFrom
    migratingSlotsTo :=
      if s.migratingSlotsTo slot = some r then
        update s.migratingSlotsTo slot none
      else s.migratingSlotsTo }

/-- One round of the loop of `clusterDelNode`. -/
def clusterDelNodeSlot (r : Ref) (s : State) (slot : Slot) : Step State := do
  let s := dropMarks r s slot
  if s.slots slot = some r then
    let (s, _) ← clusterDelSlot s slot
    pure s
  else pure s

def clusterDelNode (s : State) (r : Ref) : Step State := do
  let s ← allSlots.foldlM (clusterDelNodeSlot r) s
  freeClusterNode s r

def clusterSetNodeAsMaster (s : State) (r : Ref) : Step State := do
  let n ← s.deref r
  if n.flags.master then pure s
  else
    s.touch n.slaveof
    let flags := { n.flags with slave := false, master := true }
    pure (s.store r { n with flags := flags, slaveof := none })

def clusterSetMaster (s : State) (r : Ref) : Step State := do
  let myself ← s.deref s.myself
  redisAssert (r ≠ s.myself)
  redisAssert (myself.numslots = 0)
  s.touch (some r)
  let flags :=
    if myself.flags.master then
      { myself.flags with master := false, slave := true }
    else myself.flags
  pure (s.store s.myself { myself with flags := flags, slaveof := some r })

end Nodes

/-! ## Configuration packets -/

section Packets

/-- The test under which a claimed slot changes its owner. -/
def takesSlot (s : State) (sender : Ref) (configEpoch : ℕ) (slot : Slot) :
    Step Bool :=
  match s.slots slot with
  | none => pure true
  | some owner => do
      if owner = sender then pure false
      else
        let n ← s.deref owner
        pure (n.configEpoch < configEpoch)

/-- One round of the loop of `clusterUpdateSlotsConfigWith`; the Boolean is
set once a slot was taken from `curmaster`. -/
def updateSlot (sender : Ref) (configEpoch : ℕ) (claimed : Finset Slot)
    (curmaster : Option Ref) (acc : State × Bool) (slot : Slot) :
    Step (State × Bool) := do
  let (s, taken) := acc
  if slot ∈ claimed then
    if ← takesSlot s sender configEpoch slot then
      let taken := taken || decide (s.slots slot = curmaster)
      let s ← rebindSlot s sender slot
      pure (s, taken)
    else pure (s, taken)
  else pure (s, taken)

/-- A node that is left without slots becomes a replica of the new owner. -/
def followNewMaster (s : State) (sender : Ref) (curmaster : Option Ref) :
    Step State := do
  match curmaster with
  | none => .error .stop
  | some r =>
    let n ← s.deref r
    if n.numslots = 0 then clusterSetMaster s sender else pure s

def clusterUpdateSlotsConfigWith (s : State) (sender : Ref)
    (configEpoch : ℕ) (claimed : Finset Slot) : Step State := do
  let myself ← s.deref s.myself
  let curmaster :=
    if myself.flags.master then some s.myself else myself.slaveof
  let (s, taken) ← allSlots.foldlM
    (updateSlot sender configEpoch claimed curmaster) (s, false)
  if taken then followNewMaster s sender curmaster else pure s

inductive Kind where
  | ping | pong | meet
  deriving DecidableEq, Repr

/-- The header of a packet, where `slaveof` is the name of the master of a
replica. -/
structure Header where
  sender : Bytes
  currentEpoch : ℕ
  configEpoch : ℕ
  myslots : Finset Slot
  slaveof : Option Bytes
  master : Bool
  slave : Bool

/-- The epochs of a known sender. -/
def seeEpochs (s : State) (sender : Ref) (hdr : Header) : Step State := do
  let n ← s.deref sender
  if n.flags.handshake then pure s
  else
    let s := { s with currentEpoch := max s.currentEpoch hdr.currentEpoch }
    pure (s.store sender
      { n with configEpoch := max n.configEpoch hdr.configEpoch })

def seeSenderEpochs (s : State) (sender : Option Ref) (hdr : Header) :
    Step State :=
  match sender with
  | some r => seeEpochs s r hdr
  | none => pure s

/-- Nodes that a packet tells of are added under a random name, to be
contacted.  A name that is taken already leaves the node outside the
dictionary. -/
def startHandshake (s : State) (name : Bytes) : State :=
  { s.store s.next (createClusterNode name true) with
    next := s.next + 1
    known :=
      if (s.clusterLookupNode name).isSome then s.known
      else s.known ++ [s.next] }

/-- Whether the gossip section of a packet is listened to. -/
def contactNodes (s : State) (heard : Bool) (added : List Bytes) : State :=
  if heard then added.foldl startHandshake s else s

/-- What becomes of the node that the link of the packet belongs to.  The
packet is not looked at further when the Boolean is set. -/
def updateLinkNode (s : State) (link : Option Ref) (sender : Option Ref)
    (hdr : Header) : Step (State × Bool) :=
  match link with
  | none => pure (s, false)
  | some r => do
      let n ← s.deref r
      if n.flags.handshake then
        if sender.isSome then
          let s ← freeClusterNode s r
          pure (s, true)
        else
          let flags := { n.flags with
            handshake := false
            master := n.flags.master || hdr.master
            slave := n.flags.slave || hdr.slave }
          pure (s.store r { n with name := hdr.sender, flags := flags }, false)
      else if n.name = hdr.sender then pure (s, false)
      else
        let flags := { n.flags with noaddr := true }
        pure (s.store r { n with flags := flags, ip := [], port := 0 }, true)

/-- A master that turned into a replica loses its slots. -/
def turnIntoSlave (s : State) (sender : Ref) : Step State := do
  let n ← s.deref sender
  if n.flags.master then
    let s ← clusterDelNodeSlots s sender
    let n ← s.deref sender
    let flags := { n.flags with master := false, slave := true }
    pure (s.store sender { n with flags := flags })
  else pure s

/-- `clusterNodeAddSlave` writes through the address of the master, which is
`NULL` when that node is not known. -/
def changeMaster (s : State) (sender : Ref) (master : Option Ref) :
    Step State := do
  let n ← s.deref sender
  if n.slaveof = master then pure s
  else
    s.touch n.slaveof
    redisAssert master.isSome
    pure (s.store sender { n with slaveof := master })

def switchRole (s : State) (sender : Ref) (hdr : Header) : Step State :=
  match hdr.slaveof with
  | none => clusterSetNodeAsMaster s sender
  | some name => do
      let master := s.clusterLookupNode name
      let s ← turnIntoSlave s sender
      changeMaster s sender master

/-- Only a claim that differs from what is known of the sender is looked at.
The claim of a replica, which is the one of its master, changes nothing. -/
def claimSlots (s : State) (sender : Ref) (configEpoch : ℕ) (hdr : Header) :
    Step State := do
  let n ← s.deref sender
  s.touch (if n.flags.master then none else n.slaveof)
  if n.flags.master = true ∧ n.slots ≠ hdr.myslots then
    clusterUpdateSlotsConfigWith s sender configEpoch hdr.myslots
  else pure s

/-- The epoch of an unknown sender, or of one in handshake, is not read. -/
def senderConfigEpoch (s : State) (sender : Option Ref) (hdr : Header) : ℕ :=
  match sender.bind s.heap with
  | some n => if n.flags.handshake then 0 else hdr.configEpoch
  | none => 0

/-- The part of the processing that is about the sender. -/
def processSender (s : State) (sender : Ref) (configEpoch : ℕ)
    (hdr : Header) : Step State := do
  let s ← switchRole s sender hdr
  claimSlots s sender configEpoch hdr

/-- `added` are the names given to the nodes that the gossip section, or a
MEET, makes the server contact. -/
def processPing (s : State) (kind : Kind) (link : Option Ref) (hdr : Header)
    (added : List Bytes) : Step State := do
  let sender := s.clusterLookupNode hdr.sender
  let configEpoch := senderConfigEpoch s sender hdr
  let s ← seeSenderEpochs s sender hdr
  let s := contactNodes s
    (sender.isSome || link.isSome || decide (kind = .meet)) added
  let (s, stop) ← updateLinkNode s link sender hdr
  if stop then pure s
  else
    match sender with
    | some r => processSender s r configEpoch hdr
    | none => pure s

/-- The node an UPDATE packet is about, with its configuration. -/
structure Nodecfg where
  nodename : Bytes
  configEpoch : ℕ
  slots : Finset Slot

/-- A node that was taken for a replica is a master after all. -/
def promoteSlave (s : State) (r : Ref) (slave : Bool) : Step State :=
  if slave then clusterSetNodeAsMaster s r else pure s

/-- The epoch of the reported node is not stored. -/
def applyUpdate (s : State) (cfg : Nodecfg) : Step State :=
  match s.clusterLookupNode cfg.nodename with
  | none => pure s
  | some r => do
      let n ← s.deref r
      if cfg.configEpoch ≤ n.configEpoch then pure s
      else
        let s ← promoteSlave s r n.flags.slave
        clusterUpdateSlotsConfigWith s r cfg.configEpoch cfg.slots

def processUpdate (s : State) (hdr : Header) (cfg : Nodecfg) : Step State :=
  match s.clusterLookupNode hdr.sender with
  | none => pure s
  | some r => do
      let s ← seeEpochs s r hdr
      applyUpdate s cfg

end Packets

/-! ## The CLUSTER command -/

section Commands

/-- What the subcommands ask about the keys of the server. -/
structure Keys where
  dbEmpty : Bool
  countKeysInSlot : ℕ → ℕ

/-- `addReplyError` and `addReplyErrorFormat`; an id is the last argument of
its format. -/
def clusterError (text : Bytes) : Reply :=
  .error (ascii "ERR " ++ (text.takeWhile (· ≠ 0)).map fun b =>
    if b = 13 ∨ b = 10 then 32 else b)

def slotError (before : String) (slot : ℕ) (after : String) : Reply :=
  clusterError (ascii before ++ natText slot ++ ascii after)

/-- The bound itself is let through. -/
def getSlotOrReply (o : Bytes) : Option ℕ :=
  match getLongLongFromObject o with
  | none => none
  | some slot => if slot < 0 ∨ 16384 < slot then none else some slot.toNat

def invalidSlot : Reply := clusterError (ascii "Invalid or out of range slot")

/-- An entry of one of the tables. -/
def entry (slot : ℕ) : Step Slot :=
  if h : slot < 16384 then .ok ⟨slot, h⟩ else .error .undefined

/-- The first loop of ADDSLOTS and DELSLOTS: the slots that were given, or the
error. -/
def parseSlots (s : State) (del : Bool) :
    List Bytes → List Slot → Step (Except Reply (List Slot))
  | [], marked => pure (.ok marked)
  | o :: args, marked =>
    match getSlotOrReply o with
    | none => pure (.error invalidSlot)
    | some slot => do
        let j ← entry slot
        if del = true ∧ s.slots j = none then
          pure (.error (slotError "Slot " slot " is already unassigned"))
        else if del = false ∧ s.slots j ≠ none then
          pure (.error (slotError "Slot " slot " is already busy"))
        else if j ∈ marked then
          pure (.error (slotError "Slot " slot " specified multiple times"))
        else parseSlots s del args (j :: marked)

def changeSlot (del : Bool) (s : State) (slot : Slot) : Step (State × Bool) :=
  if del then clusterDelSlot s slot else clusterAddSlot s s.myself slot

/-- One round of the second loop. -/
def assignSlot (del : Bool) (marked : List Slot) (s : State) (slot : Slot) :
    Step State := do
  if slot ∈ marked then
    let s := { s with importingSlotsFrom :=
        Function.update s.importingSlotsFrom slot none }
    let (s, ok) ← changeSlot del s slot
    redisAssert ok
    pure s
  else pure s

def addDelSlots (s : State) (del : Bool) (args : List Bytes) :
    Step (State × Reply) := do
  match ← parseSlots s del args [] with
  | .error r => pure (s, r)
  | .ok marked =>
    let s ← allSlots.foldlM (assignSlot del marked) s
    pure (s, ok)

def setSlotMigrating (s : State) (slot : ℕ) (id : Bytes) :
    Step (State × Reply) := do
  let j ← entry slot
  if s.slots j ≠ some s.myself then
    pure (s, slotError "I'm not the owner of hash slot " slot "")
  else
    match s.clusterLookupNode id with
    | none => pure (s, clusterError (ascii "I don't know about node " ++ id))
    | some r =>
      pure ({ s with migratingSlotsTo :=
        Function.update s.migratingSlotsTo j (some r) }, ok)

/-- The error names the subcommand in the place of the node. -/
def setSlotImporting (s : State) (slot : ℕ) (action id : Bytes) :
    Step (State × Reply) := do
  let j ← entry slot
  if s.slots j = some s.myself then
    pure (s, slotError "I'm already the owner of hash slot " slot "")
  else
    match s.clusterLookupNode id with
    | none =>
      pure (s, clusterError (ascii "I don't know about node " ++ action))
    | some r =>
      pure ({ s with importingSlotsFrom :=
        Function.update s.importingSlotsFrom j (some r) }, ok)

def setSlotStable (s : State) (slot : ℕ) : Step (State × Reply) := do
  let j ← entry slot
  pure ({ s with
    importingSlotsFrom := update s.importingSlotsFrom j none
    migratingSlotsTo := update s.migratingSlotsTo j none }, ok)

/-- The marks that an assignment to a node settles. -/
def clearMarks (s : State) (j : Slot) (r : Ref) : State :=
  { s with
    migratingSlotsTo :=
      if s.slots j = some s.myself then
        update s.migratingSlotsTo j none
      else s.migratingSlotsTo
    importingSlotsFrom :=
      if r = s.myself then update s.importingSlotsFrom j none
      else s.importingSlotsFrom }

def setSlotNode (keys : Keys) (s : State) (slot : ℕ) (id : Bytes) :
    Step (State × Reply) :=
  match s.clusterLookupNode id with
  | none => pure (s, clusterError (ascii "Unknown node " ++ id))
  | some r => do
      let j ← entry slot
      if s.slots j = some s.myself ∧ r ≠ s.myself ∧
          keys.countKeysInSlot slot ≠ 0 then
        pure (s, slotError "Can't assign hashslot " slot
          " to a different node while I still hold keys for this hash slot.")
      else
        let s ← rebindSlot (clearMarks s j r) r j
        pure (s, ok)

def setSlot (keys : Keys) (s : State) (argv : List Bytes) :
    Step (State × Reply) :=
  match getSlotOrReply (argv.getD 2 []) with
  | none => pure (s, invalidSlot)
  | some slot =>
    let action := argv.getD 3 []
    let id := argv.getD 4 []
    if isText "migrating" action ∧ argv.length = 5 then
      setSlotMigrating s slot id
    else if isText "importing" action ∧ argv.length = 5 then
      setSlotImporting s slot action id
    else if isText "stable" action ∧ argv.length = 4 then
      setSlotStable s slot
    else if isText "node" action ∧ argv.length = 5 then
      setSlotNode keys s slot id
    else
      pure (s, clusterError (ascii
        "Invalid CLUSTER SETSLOT action or number of arguments"))

def flushSlots (keys : Keys) (s : State) : Step (State × Reply) :=
  if keys.dbEmpty then do
    let s ← clusterDelNodeSlots s s.myself
    pure (s, ok)
  else
    pure (s, clusterError (ascii
      "DB must be empty to perform CLUSTER FLUSHSLOTS."))

/-- The node itself is not spared. -/
def forget (s : State) (id : Bytes) : Step (State × Reply) :=
  match s.clusterLookupNode id with
  | none => pure (s, clusterError (ascii "Unknown node " ++ id))
  | some r => do
      let s ← clusterDelNode s r
      pure (s, ok)

/-- The subcommands that change slots or remove nodes; the others are not
modelled and end in the last branch. -/
def clusterCommand (keys : Keys) (s : State) (argv : List Bytes) :
    Step (State × Reply) :=
  let sub := argv.getD 1 []
  if isText "flushslots" sub ∧ argv.length = 2 then flushSlots keys s
  else if (isText "addslots" sub ∨ isText "delslots" sub) ∧
      3 ≤ argv.length then
    addDelSlots s (isText "delslots" sub) (argv.drop 2)
  else if isText "setslot" sub ∧ 4 ≤ argv.length then setSlot keys s argv
  else if isText "forget" sub ∧ argv.length = 3 then
    forget s (argv.getD 2 [])
  else
    pure (s, clusterError (ascii
      "Wrong CLUSTER subcommand or number of arguments"))

end Commands

/-! ## Runs -/

/-- `clusterInit` without a configuration file: the node knows itself only. -/
def clusterInit (name : Bytes) : State where
  heap r :=
    let n := createClusterNode name false
    let flags := { n.flags with myself := true, master := true }
    if r = 0 then some { n with flags := flags } else none
  next := 1
  known := [0]
  myself := 0
  currentEpoch := 0
  slots _ := none
  migratingSlotsTo _ := none
  importingSlotsFrom _ := none

inductive Event where
  | command (keys : Keys) (argv : List Bytes)
  | ping (kind : Kind) (link : Option Ref) (hdr : Header)
      (added : List Bytes)
  | update (hdr : Header) (cfg : Nodecfg)
  | handshakeTimeout (r : Ref)

/-- `clusterCron` removes a node that stayed in handshake for too long. -/
def handshakeTimeout (s : State) (r : Ref) : Step State := do
  if r ∈ s.known then
    let n ← s.deref r
    if n.flags.handshake then freeClusterNode s r else pure s
  else pure s

/-- The link of a packet belongs to a known node, if to any. -/
def State.step (s : State) : Event → Step State
  | .command keys argv => do
      let (s, _) ← clusterCommand keys s argv
      pure s
  | .ping kind link hdr added =>
    processPing s kind (link.filter (· ∈ s.known)) hdr added
  | .update hdr cfg => processUpdate s hdr cfg
  | .handshakeTimeout r => handshakeTimeout s r

def State.run (s : State) (events : List Event) : Step State :=
  events.foldlM State.step s

end RedisV8.Cluster
