import RedisV8.Aof.Protocol
import RedisV8.Cluster.Slots
import RedisV8.Util.Sds

/-!
# The cluster configuration file

`clusterGenNodesDescription` writes a line for each node that is not in
handshake, and `clusterLoadConfig` rebuilds the nodes and the tables from the
lines.  Names stand for the nodes here: the dictionary of nodes is a function
of the names, and what is a pointer to a node in the source is its name.
-/

namespace RedisV8.Cluster.NodesConf

open Util Aof Cluster Function

/-- A `clusterNode`, as far as the file tells of it.  Its slots are those of
the table that name it. -/
structure Entry where
  ip : Bytes
  port : ℤ
  flags : Flags
  slaveof : Option Bytes
  configEpoch : ℕ
  deriving DecidableEq

@[ext]
structure Config where
  node : Bytes → Option Entry
  myself : Option Bytes
  slots : Slot → Option Bytes
  migratingSlotsTo : Slot → Option Bytes
  importingSlotsFrom : Slot → Option Bytes

def charComma : UInt8 := 44
def charColon : UInt8 := 58
def charOpen : UInt8 := 91
def charClose : UInt8 := 93
def charLess : UInt8 := 60
def charGreater : UInt8 := 62

def noFlags : Flags := ⟨false, false, false, false, false, false, false⟩

/-! ## Writing -/

section Writing

/-- What a line tells beside the configuration. -/
structure Links where
  pingSent : Bytes → ℤ
  pongReceived : Bytes → ℤ
  linked : Bytes → Bool

def flagWords (f : Flags) : List String :=
  (if f = noFlags then ["noflags"] else []) ++
    (if f.myself then ["myself"] else []) ++
    (if f.master then ["master"] else []) ++
    (if f.slave then ["slave"] else []) ++
    (if f.pfail then ["fail?"] else []) ++
    (if f.fail then ["fail"] else []) ++
    (if f.handshake then ["handshake"] else []) ++
    (if f.noaddr then ["noaddr"] else [])

/-- The comma after the last flag becomes a space. -/
def flagsText (f : Flags) : Bytes :=
  let ci := (flagWords f).flatMap fun word => ascii word ++ [charComma]
  if ci.getLast? = some charComma then ci.dropLast ++ [charSpace] else ci

/-- One round of the loop over the slots: `start` and the ranges written so
far.  In the last round the range is closed one slot further, whatever the bit
of the last slot. -/
def rangeRound (slots : ℕ) (bit : ℕ → Bool)
    (acc : Option ℕ × List (ℕ × ℕ)) (j : ℕ) : Option ℕ × List (ℕ × ℕ) :=
  let start := if bit j then acc.1.or (some j) else acc.1
  match start with
  | none => (none, acc.2)
  | some first =>
    if bit j = false ∨ j = slots - 1 then
      let j := if j = slots - 1 then j + 1 else j
      (none, acc.2 ++ [(first, j - 1)])
    else (some first, acc.2)

/-- The first rounds of the loop. -/
def rangeLoop (slots : ℕ) (bit : ℕ → Bool) : ℕ → Option ℕ × List (ℕ × ℕ)
  | 0 => (none, [])
  | j + 1 => rangeRound slots bit (rangeLoop slots bit j) j

def rangeText (range : ℕ × ℕ) : Bytes :=
  if range.1 = range.2 then natText range.1
  else natText range.1 ++ [charMinus] ++ natText range.2

/-- `clusterNodeGetSlotBit`. -/
def ownsSlot (cfg : Config) (name : Bytes) (j : ℕ) : Bool :=
  if h : j < 16384 then decide (cfg.slots ⟨j, h⟩ = some name) else false

@[irreducible]
def slotRanges (cfg : Config) (name : Bytes) : List (ℕ × ℕ) :=
  (rangeLoop 16384 (ownsSlot cfg name) 16384).2

/-- A slot that is both migrating and importing is written as migrating. -/
def markText (cfg : Config) (j : Slot) : Option Bytes :=
  match cfg.migratingSlotsTo j, cfg.importingSlotsFrom j with
  | some target, _ =>
    some ([charOpen] ++ natText j ++ [charMinus, charGreater, charMinus] ++
      target.take 40 ++ [charClose])
  | none, some source =>
    some ([charOpen] ++ natText j ++ [charMinus, charLess, charMinus] ++
      source.take 40 ++ [charClose])
  | none, none => none

def masterText : Option Bytes → Bytes
  | some master => master.take 40 ++ [charSpace]
  | none => [charMinus, charSpace]

def nodeLine (cfg : Config) (links : Links) (name : Bytes) (n : Entry) :
    Bytes :=
  name.take 40 ++ [charSpace] ++ n.ip ++ [charColon] ++ llText n.port ++
    [charSpace] ++ flagsText n.flags ++
    masterText n.slaveof ++
    llText (links.pingSent name) ++ [charSpace] ++
    llText (links.pongReceived name) ++ [charSpace] ++
    natText n.configEpoch ++ [charSpace] ++
    (if links.linked name || n.flags.myself then ascii "connected"
      else ascii "disconnected") ++
    ((slotRanges cfg name).flatMap fun range => charSpace :: rangeText range) ++
    (if n.flags.myself then
      (allSlots.filterMap (markText cfg)).flatMap fun text => charSpace :: text
      else []) ++
    [charLf]

/-- `names` is the order in which the dictionary is walked. -/
def clusterGenNodesDescription (cfg : Config) (links : Links)
    (names : List Bytes) : Bytes :=
  names.flatMap fun name =>
    match cfg.node name with
    | some n =>
      if n.flags.handshake then [] else nodeLine cfg links name n
    | none => []

end Writing

/-! ## Loading -/

section Loading

def createNode : Entry := ⟨[], 0, noFlags, none, 0⟩

def Config.modify (cfg : Config) (name : Bytes) (f : Entry → Entry) : Config :=
  { cfg with node := update cfg.node name ((cfg.node name).map f) }

/-- The node with the name that a text starts with, which is created if it is
not there.  Nothing is known of what a shorter text leads to. -/
def findOrCreate (cfg : Config) (o : Bytes) : Step (Config × Bytes) :=
  if o.length < 40 then .error .undefined
  else
    let name := o.take 40
    match cfg.node name with
    | some _ => .ok (cfg, name)
    | none =>
      .ok ({ cfg with
        node := update cfg.node name (some createNode) }, name)

def argument (argv : List Bytes) (i : ℕ) : Step Bytes :=
  match argv[i]? with
  | some o => .ok o
  | none => .error .undefined

/-- The address is copied into `char ip[46]`. -/
def readAddress (cfg : Config) (name addr : Bytes) : Step Config :=
  match strchr charColon addr with
  | none => .error .stop
  | some i =>
    if 46 ≤ i then .error .undefined
    else
      let port := atoi (addr.drop (i + 1))
      pure (cfg.modify name fun n => { n with ip := addr.take i, port })

/-- The flags of the node and `myself`, after one more word; `none` for
words that are not known. -/
def readFlag (name : Bytes) (acc : Flags × Option Bytes) (word : Bytes) :
    Step (Flags × Option Bytes) := do
  let (f, myself) := acc
  if isText "myself" word then
    redisAssert myself.isNone
    pure ({ f with myself := true }, some name)
  else if isText "master" word then pure ({ f with master := true }, myself)
  else if isText "slave" word then pure ({ f with slave := true }, myself)
  else if isText "fail?" word then pure ({ f with pfail := true }, myself)
  else if isText "fail" word then pure ({ f with fail := true }, myself)
  else if isText "handshake" word then
    pure ({ f with handshake := true }, myself)
  else if isText "noaddr" word then pure ({ f with noaddr := true }, myself)
  else if isText "noflags" word then pure (f, myself)
  else .error .stop

def readFlags (cfg : Config) (name text : Bytes) : Step Config := do
  let f := ((cfg.node name).map Entry.flags).getD noFlags
  let words := (text.takeWhile (· ≠ 0)).splitOn charComma
  let (f, myself) ← words.foldlM (readFlag name) (f, cfg.myself)
  pure { cfg.modify name fun n => { n with flags := f } with myself := myself }

def readMaster (cfg : Config) (name text : Bytes) : Step Config := do
  if text.head? = some charMinus then pure cfg
  else
    let (cfg, master) ← findOrCreate cfg text
    pure (cfg.modify name fun n => { n with slaveof := some master })

def intEntry (slot : ℤ) : Step Slot :=
  if slot < 0 then .error .undefined else entry slot.toNat

/-- `clusterAddSlot` leaves a slot alone that has an owner. -/
def addSlot (name : Bytes) (cfg : Config) (slot : ℤ) : Step Config := do
  let j ← intEntry slot
  if (cfg.slots j).isSome then pure cfg
  else pure { cfg with slots := update cfg.slots j (some name) }

/-- Rounds of `while(start <= stop) clusterAddSlot(n, start++)`. -/
def addSlots (name : Bytes) : ℕ → ℤ → Config → Step Config
  | 0, _, cfg => pure cfg
  | rounds + 1, start, cfg => do
      let cfg ← addSlot name cfg start
      addSlots name rounds (start + 1) cfg

def addRange (cfg : Config) (name : Bytes) (start stop : ℤ) : Step Config :=
  addSlots name (stop + 1 - start).toNat start cfg

def readMark (cfg : Config) (text : Bytes) : Step Config :=
  match strchr charMinus text with
  | none => .error .stop
  | some i => do
      let direction := text.getD (i + 1) 0
      let slot := atoi ((text.take i).drop 1)
      let (cfg, other) ← findOrCreate cfg (text.drop (i + 3))
      let j ← intEntry slot
      if direction = charGreater then
        pure { cfg with migratingSlotsTo :=
          Function.update cfg.migratingSlotsTo j (some other) }
      else
        pure { cfg with importingSlotsFrom :=
          Function.update cfg.importingSlotsFrom j (some other) }

def readSlots (name : Bytes) (cfg : Config) (text : Bytes) : Step Config :=
  if text.head? = some charOpen then readMark cfg text
  else
    match strchr charMinus text with
    | some i =>
      addRange cfg name (atoi (text.take i)) (atoi (text.drop (i + 1)))
    | none => addRange cfg name (atoi text) (atoi text)

/-- The times of the last ping and pong are read as set or not set only. -/
def loadLine (cfg : Config) (argv : List Bytes) : Step Config := do
  let (cfg, name) ← findOrCreate cfg (← argument argv 0)
  let cfg ← readAddress cfg name (← argument argv 1)
  let cfg ← readFlags cfg name (← argument argv 2)
  let cfg ← readMaster cfg name (← argument argv 3)
  let _ ← argument argv 4
  let _ ← argument argv 5
  let epoch := strtoull (← argument argv 6)
  let cfg := cfg.modify name fun n => { n with configEpoch := epoch }
  (argv.drop 8).foldlM (readSlots name) cfg

/-- `maxline` leaves room for `1024 + 16384 * 128 - 1` bytes. -/
def loadLines : ℕ → Config → Bytes → Step Config
  | 0, cfg, _ => pure cfg
  | fuel + 1, cfg, fp =>
    let (line, rest) := fgets 2098175 fp
    if line = [] then pure cfg
    else
      match sdssplitargs line with
      | none => .error .stop
      | some argv => do
          let cfg ← loadLine cfg argv
          loadLines fuel cfg rest

def emptyConfig : Config :=
  ⟨fun _ => none, none, fun _ => none, fun _ => none, fun _ => none⟩

/-- Each line has one byte at least. -/
def clusterLoadConfig (fp : Bytes) : Step Config := do
  let cfg ← loadLines (fp.length + 1) emptyConfig fp
  redisAssert cfg.myself.isSome
  pure cfg

end Loading

end RedisV8.Cluster.NodesConf
