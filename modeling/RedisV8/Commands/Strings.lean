import RedisV8.Aof.Background
import RedisV8.Keyspace.Operations

/-!
# The string commands

`t_string.c` and `bitops.c` on strings taken at their bytes.
-/

namespace RedisV8.Commands

open Util Server Keyspace Effects Reply

variable (c : Client) (argv : List Bytes)

/-- What the commands take from parts of the program that are not looked at
here.  Floating point numbers are given by their texts: `inRange` is
`zslParseRange` followed by the test of a score, `ranked` the order of a sorted
set, and `combine` computes `ZUNIONSTORE` or `ZINTERSTORE` from the arguments
after the keys.  `index` is the conversion of a list index that the encoding of
the list calls for, `enumerate` the order in which a set happens to be stored,
and `load` reads the payload of a RESTORE.  `cluster` is
`server.cluster_enabled`. -/
structure Internals where
  dbnum : ℕ
  dbnum_lt : dbnum < 2 ^ 31
  cluster : Bool
  index : ℤ → ℤ
  isFloat : Bytes → Bool
  add : Bytes → Bytes → Bytes
  isFinite : Bytes → Bool
  score : Bytes → Option Bytes
  addScore : Bytes → Bytes → Option Bytes
  scoreText : Bytes → Bytes
  inRange : Bytes → Bytes → Option (Bytes → Bool)
  ranked : (Finmap fun _ : Bytes => Bytes) → List Bytes
  combine : Bool → List Bytes → List (Option Value) →
    Except Reply (Finmap fun _ : Bytes => Bytes)
  enumerate : Finset Bytes → List Bytes
  load : Bytes → Except Reply Value

section Arguments

def arg (argv : List Bytes) (j : ℕ) : Bytes := argv.getD j []

def keyArg (j : ℕ) : Key :=
  (c.db, arg argv j)

/-- `addReplyError`. -/
def errorReply (text : String) : Reply := .error (ascii ("ERR " ++ text))

def notAFloat : Reply := errorReply "value is not a valid float"

/-- `getLongLongFromObjectOrReply`, with what follows. -/
def withLong (s : Bytes) (f : ℤ → Cmd Outcome) : Cmd Outcome :=
  match getLongLongFromObject s with
  | none => addReply notAnInteger
  | some n => f n

end Arguments

/-! ## SET and its variants -/

inductive TimeUnit where
  | seconds | milliseconds
  deriving DecidableEq, Repr

def TimeUnit.scale : TimeUnit → ℤ → ℤ
  | .seconds, n => toLongLong (n * 1000)
  | .milliseconds, n => n

structure SetOptions where
  nx : Bool
  xx : Bool
  expire : Option (Bytes × TimeUnit)
  deriving DecidableEq, Repr

def SetOptions.none : SetOptions := ⟨false, false, .none⟩

def parseSetOptions : List Bytes → SetOptions → Option SetOptions
  | [], o => some o
  | [a], o =>
    if isText "nx" a then some { o with nx := true }
    else if isText "xx" a then some { o with xx := true }
    else Option.none
  | a :: next :: rest, o =>
    if isText "nx" a then parseSetOptions (next :: rest) { o with nx := true }
    else if isText "xx" a then
      parseSetOptions (next :: rest) { o with xx := true }
    else if isText "ex" a then
      parseSetOptions rest { o with expire := some (next, .seconds) }
    else if isText "px" a then
      parseSetOptions rest { o with expire := some (next, .milliseconds) }
    else Option.none

/-- The time to live in milliseconds, if one is given. -/
def expireMilliseconds : Option (Bytes × TimeUnit) → Except Reply (Option ℤ)
  | none => .ok none
  | some (text, unit) =>
    match getLongLongFromObject text with
    | none => .error notAnInteger
    | some n =>
      if n ≤ 0 then .error (errorReply "invalid expire time in SETEX")
      else .ok (some (unit.scale n))

/-- The condition of `NX` and `XX` under which nothing is set. -/
def setRefused (o : SetOptions) (k : Key) : Cmd Bool := do
  let busy ← if o.nx then Option.isSome <$> lookupKeyWrite k else pure false
  if busy then pure true
  else if o.xx then Option.isNone <$> lookupKeyWrite k
  else pure false

def setExpireIn (k : Key) : Option ℤ → Cmd Unit
  | none => pure ()
  | some milliseconds => do
      let now ← mstime
      setExpire k (toLongLong (now + milliseconds))

def setEvents (expire : Option ℤ) : List (EventClass × String) :=
  (.string, "set") :: if expire.isSome then [(.generic, "expire")] else []

def setGenericCommand (o : SetOptions) (k : Key) (val : Bytes)
    (okReply abortReply : Reply) : Cmd Outcome :=
  match expireMilliseconds o.expire with
  | .error r => addReply r
  | .ok milliseconds => do
      if ← setRefused o k then addReply abortReply
      else
        setKey k (.string val)
        addDirty 1
        setExpireIn k milliseconds
        notifyAll k (setEvents milliseconds)
        addReply okReply

def setCommand : Cmd Outcome :=
  match parseSetOptions (argv.drop 3) SetOptions.none with
  | none => addReply syntaxerr
  | some o =>
    setGenericCommand o (keyArg c argv 1) (arg argv 2) ok .nullBulk

def setnxCommand : Cmd Outcome :=
  setGenericCommand { SetOptions.none with nx := true } (keyArg c argv 1)
    (arg argv 2) cone czero

def setexCommand : Cmd Outcome :=
  setGenericCommand
    { SetOptions.none with expire := some (arg argv 2, .seconds) }
    (keyArg c argv 1) (arg argv 3) ok .nullBulk

def psetexCommand : Cmd Outcome :=
  setGenericCommand
    { SetOptions.none with expire := some (arg argv 2, .milliseconds) }
    (keyArg c argv 1) (arg argv 3) ok .nullBulk

/-! ## Reading and replacing -/

/-- The reply for a string, or for a value of another type. -/
def stringReply (f : Bytes → Reply) : Value → Reply
  | .string s => f s
  | _ => wrongtypeerr

def getCommand : Cmd Outcome :=
  readCommand (keyArg c argv 1) .nullBulk (stringReply .bulk)

def strlenCommand : Cmd Outcome :=
  readCommand (keyArg c argv 1) czero
    (stringReply fun s => .integer s.length)

/-- The new value is set once the old one was answered. -/
def replaceString (k : Key) (val : Bytes) (r : Reply) : Cmd Outcome := do
  setKey k (.string val)
  notifyKeyspaceEvent .string "set" k
  addDirty 1
  addReply r

def getsetCommand : Cmd Outcome := do
  let k := keyArg c argv 1
  match ← lookupKeyRead k with
  | none => replaceString k (arg argv 2) .nullBulk
  | some (.string s) => replaceString k (arg argv 2) (.bulk s)
  | some _ => addReply wrongtypeerr

/-- The end of a range; the comparison with the length is made on an
`unsigned int`. -/
def clampEnd (strlen : ℕ) (stop : ℤ) : ℤ :=
  if (strlen : ℤ) ≤ stop % 2 ^ 32 then (strlen : ℤ) - 1 else stop

def getrangeReply (start stop : ℤ) (s : Bytes) : Reply :=
  let start := if start < 0 then (s.length : ℤ) + start else start
  let stop := if stop < 0 then (s.length : ℤ) + stop else stop
  let start := if start < 0 then 0 else start
  let stop := if stop < 0 then 0 else stop
  let stop := clampEnd s.length stop
  if stop < start then .bulk []
  else .bulk ((s.drop start.toNat).take (stop - start + 1).toNat)

def getrangeCommand : Cmd Outcome :=
  withLong (arg argv 2) fun start => withLong (arg argv 3) fun stop =>
    readCommand (keyArg c argv 1) (.bulk [])
      (stringReply (getrangeReply start stop))

/-! ## Changes in place -/

/-- `checkStringLength`. -/
def tooLong (size : ℤ) : Bool := 512 * 1024 * 1024 < size

def stringTooLong : Reply :=
  errorReply "string exceeds maximum allowed size (512MB)"

/-- `sdsgrowzero` and `memcpy`. -/
def overlay (s : Bytes) (offset : ℕ) (value : Bytes) : Bytes :=
  let grown := s ++ List.replicate (offset + value.length - s.length) 0
  grown.take offset ++ value ++ grown.drop (offset + value.length)

/-- SETRANGE on the bytes of a value; a missing key has none. -/
def setrangeChange (offset : ℤ) (value s : Bytes) : Change :=
  if value = [] then .answer (.integer s.length)
  else if tooLong (toLongLong (offset + value.length)) then
    .answer stringTooLong
  else
    let s := overlay s offset.toNat value
    .put (some (.string s)) 1 [(.string, "setrange")] none (.integer s.length)

/-- A change of the bytes of a string. -/
def stringChange (f : Bytes → Change) : Value → Change
  | .string s => f s
  | _ => .answer wrongtypeerr

def setrangeCommand : Cmd Outcome :=
  withLong (arg argv 2) fun offset =>
    if offset < 0 then addReply (errorReply "offset is out of range")
    else
      let change := setrangeChange offset (arg argv 3)
      updateCommand (keyArg c argv 1) (change []) (stringChange change)

def appendChange (append s : Bytes) : Change :=
  if tooLong (s.length + append.length) then .answer stringTooLong
  else
    .put (some (.string (s ++ append))) 1 [(.string, "append")] none
      (.integer (s ++ append).length)

/-- The length is not checked for a new key. -/
def appendCommand : Cmd Outcome :=
  updateCommand (keyArg c argv 1)
    (.put (some (.string (arg argv 2))) 1 [(.string, "append")] none
      (.integer (arg argv 2).length))
    (stringChange (appendChange (arg argv 2)))

/-- The sum, or the error, of the increment commands. -/
def addLongLong (value incr : ℤ) : Option ℤ :=
  if (incr < 0 ∧ value < 0 ∧ incr < llongMin - value) ∨
      (0 < incr ∧ 0 < value ∧ llongMax - value < incr) then none
  else some (toLongLong (value + incr))

def overflowError : Reply :=
  errorReply "increment or decrement would overflow"

def incrChange (incr : ℤ) (s : Bytes) : Change :=
  match getLongLongFromObject s with
  | none => .answer notAnInteger
  | some value =>
    match addLongLong value incr with
    | none => .answer overflowError
    | some sum =>
      .put (some (.string (llText sum))) 1 [(.string, "incrby")] none
        (.integer sum)

/-- A missing key counts as zero. -/
def incrDecrCommand (k : Key) (incr : ℤ) : Cmd Outcome :=
  updateCommand k (incrChange incr (ascii "0")) (stringChange (incrChange incr))

def incrCommand : Cmd Outcome :=
  incrDecrCommand (keyArg c argv 1) 1

def decrCommand : Cmd Outcome :=
  incrDecrCommand (keyArg c argv 1) (-1)

def incrbyCommand : Cmd Outcome :=
  withLong (arg argv 2) fun incr => incrDecrCommand (keyArg c argv 1) incr

def decrbyCommand : Cmd Outcome :=
  withLong (arg argv 2) fun incr =>
    incrDecrCommand (keyArg c argv 1) (toLongLong (-incr))

/-- INCRBYFLOAT is propagated as a SET of the result; the other arguments
stay. -/
def incrbyfloatChange (int : Internals) (argv : List Bytes) (s : Bytes) :
    Change :=
  if int.isFloat s ∧ int.isFloat (arg argv 2) then
    let sum := int.add s (arg argv 2)
    if int.isFinite sum then
      .put (some (.string sum)) 1 [(.string, "incrbyfloat")]
        (some ((argv.set 0 (ascii "SET")).set 2 sum)) (.bulk sum)
    else .answer (errorReply "increment would produce NaN or Infinity")
  else .answer notAFloat

def incrbyfloatCommand (int : Internals) (c : Client) (argv : List Bytes) :
    Cmd Outcome :=
  let change := incrbyfloatChange int argv
  updateCommand (keyArg c argv 1) (change (ascii "0")) (stringChange change)

/-! ## Several keys -/

def mgetLoop (c : Client) : List Bytes → Cmd (List Reply)
  | [] => pure []
  | key :: keys => do
      let r ← match ← lookupKeyRead (c.db, key) with
        | some (.string s) => pure (bulk s)
        | _ => pure nullBulk
      let rest ← mgetLoop c keys
      pure (r :: rest)

def mgetCommand : Cmd Outcome := do
  let replies ← mgetLoop c (argv.drop 1)
  addReply (.multiBulk replies)

/-- The keys and values of MSET. -/
def pairs : List Bytes → List (Bytes × Bytes)
  | a :: b :: rest => (a, b) :: pairs rest
  | _ => []

def msetLoop (c : Client) : List (Bytes × Bytes) → Cmd Unit
  | [] => pure ()
  | (key, val) :: rest => do
      setKey (c.db, key) (.string val)
      notifyKeyspaceEvent .string "set" (c.db, key)
      msetLoop c rest

/-- How many of the keys of MSETNX are there. -/
def busyKeys (c : Client) : List (Bytes × Bytes) → Cmd ℕ
  | [] => pure 0
  | (key, _) :: rest => do
      match ← lookupKeyWrite (c.db, key) with
      | none => busyKeys c rest
      | some _ => Nat.succ <$> busyKeys c rest

def msetGenericCommand (nx : Bool) :
    Cmd Outcome :=
  if argv.length % 2 = 0 then
    addReply (errorReply "wrong number of arguments for MSET")
  else do
    let args := pairs (argv.drop 1)
    let busy ← if nx then busyKeys c args else pure 0
    if busy ≠ 0 then addReply czero
    else
      msetLoop c args
      addDirty ((argv.length - 1) / 2)
      addReply (if nx then cone else ok)

def msetCommand : Cmd Outcome :=
  msetGenericCommand c argv false

def msetnxCommand : Cmd Outcome :=
  msetGenericCommand c argv true

/-! ## Bits -/

/-- `getBitOffsetFromArgument`. -/
def bitOffset (text : Bytes) : Option ℕ :=
  match getLongLongFromObject text with
  | none => none
  | some n =>
    if n < 0 ∨ (512 * 1024 * 1024 : ℤ) ≤ n / 8 then none else some n.toNat

def bitOffsetError : Reply :=
  errorReply "bit offset is not an integer or out of range"

def bitError : Reply := errorReply "bit is not an integer or out of range"

def byteAt (s : Bytes) (bitoffset : ℕ) : UInt8 := s.getD (bitoffset / 8) 0

def bitMask (bitoffset : ℕ) : UInt8 :=
  1 <<< UInt8.ofNat (7 - bitoffset % 8)

def getBit (s : Bytes) (bitoffset : ℕ) : Bool :=
  byteAt s bitoffset &&& bitMask bitoffset ≠ 0

def setBit (s : Bytes) (bitoffset : ℕ) (on : Bool) : Bytes :=
  let cleared := byteAt s bitoffset &&& ~~~ bitMask bitoffset
  overlay s (bitoffset / 8)
    [if on then cleared ||| bitMask bitoffset else cleared]

def bitReply (bit : Bool) : Reply := if bit then cone else czero

def setbitChange (bitoffset : ℕ) (on : Bool) (s : Bytes) : Change :=
  .put (some (.string (setBit s bitoffset on))) 1 [(.string, "setbit")] none
    (bitReply (getBit s bitoffset))

def setbitCommand : Cmd Outcome :=
  match bitOffset (arg argv 2), getLongLongFromObject (arg argv 3) with
  | none, _ => addReply bitOffsetError
  | _, none => addReply bitError
  | some bitoffset, some on =>
    if on = 0 ∨ on = 1 then
      let change := setbitChange bitoffset (on = 1)
      updateCommand (keyArg c argv 1) (change []) (stringChange change)
    else addReply bitError

def getbitCommand : Cmd Outcome :=
  match bitOffset (arg argv 2) with
  | none => addReply bitOffsetError
  | some bitoffset =>
    readCommand (keyArg c argv 1) czero
      (stringReply fun s => bitReply (getBit s bitoffset))

inductive BitOp where
  | and | or | xor | not
  deriving DecidableEq, Repr

def parseBitOp (text : Bytes) : Option BitOp :=
  if isText "and" text then some .and
  else if isText "or" text then some .or
  else if isText "xor" text then some .xor
  else if isText "not" text then some .not
  else none

def BitOp.apply : BitOp → List UInt8 → UInt8
  | .and, bytes => bytes.foldl (· &&& ·) 255
  | .or, bytes => bytes.foldl (· ||| ·) 0
  | .xor, bytes => bytes.foldl (· ^^^ ·) 0
  | .not, bytes => ~~~ bytes.headD 0

/-- The result of BITOP byte by byte, missing bytes taken as zero. -/
def bitopResult (op : BitOp) (sources : List Bytes) : Bytes :=
  (List.range ((sources.map List.length).foldl max 0)).map fun j =>
    op.apply (sources.map fun s => s.getD j 0)

/-- The source strings; a value of another type ends the command. -/
def bitopSources (c : Client) : List Bytes → Cmd (Option (List Bytes))
  | [] => pure (some [])
  | key :: keys => do
      match ← lookupKeyRead (c.db, key) with
      | none => Option.map ([] :: ·) <$> bitopSources c keys
      | some (.string s) => Option.map (s :: ·) <$> bitopSources c keys
      | some _ => pure none

def bitopStore (k : Key) (res : Bytes) : Cmd Outcome := do
  if res = [] then
    if ← dbDelete k then
      signalModifiedKey k
      notifyKeyspaceEvent .generic "del" k
  else
    setKey k (.string res)
    notifyKeyspaceEvent .string "set" k
  addDirty 1
  addReply (.integer res.length)

def bitopCommand : Cmd Outcome :=
  match parseBitOp (arg argv 1) with
  | none => addReply syntaxerr
  | some op =>
    if op = .not ∧ argv.length ≠ 4 then
      addReply (errorReply
        "BITOP NOT must be called with a single source key.")
    else do
      match ← bitopSources c (argv.drop 3) with
      | none => addReply wrongtypeerr
      | some sources =>
        bitopStore (keyArg c argv 2) (bitopResult op sources)

end RedisV8.Commands
