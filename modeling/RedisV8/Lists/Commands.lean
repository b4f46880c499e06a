import RedisV8.Server.Object
import RedisV8.Server.Reply

/-!
# The list commands

`t_list.c` over its two encodings.  A ziplist is taken at its meaning, the
list of strings it holds, and a position in it is the index of an entry; the
index one past the last entry is the end marker, and `none` is `NULL`.  A
linked list holds string objects, and its nodes are named by their places.
-/

namespace RedisV8.Lists

open Util Server List Reply

/-- `list-max-ziplist-entries` and `list-max-ziplist-value`. -/
structure Config where
  listMaxZiplistEntries : ℕ
  listMaxZiplistValue : ℕ
  deriving DecidableEq, Repr

inductive ListObj where
  | ziplist (entries : List Bytes)
  | linkedlist (nodes : List StringObj)
  deriving DecidableEq, Repr

/-- `REDIS_HEAD` and `REDIS_TAIL`. -/
inductive Side where
  | head
  | tail
  deriving DecidableEq, Repr

/-! ## Ziplist and linked list primitives -/

/-- The place `index` steps from the head of a list of `len` elements, or from
its tail if negative. -/
def placeOf (len : ℕ) (index : ℤ) : Option ℕ :=
  if index < 0 then
    let back := (-index - 1).toNat
    if back < len then some (len - 1 - back) else none
  else if index.toNat < len then some index.toNat
  else none

/-- `ziplistIndex`; the index is an `int`. -/
def ziplistIndex (entries : List Bytes) (index : ℤ) : Option ℕ :=
  placeOf entries.length (toInt index)

/-- `listIndex`; the index is a `long`. -/
def listIndex (nodes : List StringObj) (index : ℤ) : Option ℕ :=
  placeOf nodes.length index

/-- `ziplistNext`, also from the end marker, and the `next` of a node. -/
def nextPlace (len p : ℕ) : Option ℕ :=
  if p + 1 < len then some (p + 1) else none

/-- `ziplistPrev`, also from the end marker, and the `prev` of a node. -/
def prevPlace (p : ℕ) : Option ℕ :=
  if p = 0 then none else some (p - 1)

/-- `ziplistGet`, followed by the creation of an object from what it found. -/
def ziplistGet (entries : List Bytes) (p : Option ℕ) : Option StringObj :=
  (p.bind (entries[·]?)).map createStringObject

/-- `ziplistCompare`. -/
def ziplistCompare (entries : List Bytes) (p : ℕ) (s : Bytes) : Bool :=
  entries[p]? == some s

/-- `__ziplistDelete` of `num` entries. -/
def ziplistDeleteAt (entries : List Bytes) (p num : ℕ) : List Bytes :=
  entries.take p ++ entries.drop (p + num)

theorem ziplistDeleteAt_split (left : List Bytes) (a : Bytes)
    (right : List Bytes) :
    ziplistDeleteAt (left ++ a :: right) left.length 1 = left ++ right := by
  rw [ziplistDeleteAt, take_left' rfl, ← drop_drop, drop_left' rfl]
  rfl

def ziplistDeleteFrom (entries : List Bytes) (num : ℕ) : Option ℕ → List Bytes
  | none => entries
  | some p => ziplistDeleteAt entries p num

/-- `ziplistDeleteRange`; both numbers are of type `unsigned int`. -/
def ziplistDeleteRange (entries : List Bytes) (index num : ℤ) : List Bytes :=
  ziplistDeleteFrom entries (toUnsigned num)
    (ziplistIndex entries (toUnsigned index))

/-- `listDelNode`. -/
def listDelNode (nodes : List StringObj) (p : ℕ) : List StringObj :=
  nodes.eraseIdx p

/-! ## The list API -/

/-- `listTypeConvert` to a linked list. -/
def listTypeConvert : ListObj → ListObj
  | .ziplist entries => .linkedlist (entries.map createStringObject)
  | .linkedlist nodes => .linkedlist nodes

def listTypeTryConversion (cfg : Config) (subject : ListObj)
    (value : StringObj) : ListObj :=
  match subject with
  | .linkedlist nodes => .linkedlist nodes
  | .ziplist entries =>
    if value.sdsEncoded ∧
        cfg.listMaxZiplistValue < (getDecodedObject value).length then
      listTypeConvert (.ziplist entries)
    else .ziplist entries

/-- `listTypeConvert` where the length calls for it. -/
def convertIf (full : ℕ → Bool) : ListObj → ListObj
  | .ziplist entries =>
    if full entries.length then listTypeConvert (.ziplist entries)
    else .ziplist entries
  | .linkedlist nodes => .linkedlist nodes

def pushAt {α : Type*} (l : List α) (a : α) : Side → List α
  | .head => a :: l
  | .tail => l ++ [a]

def listTypePush (cfg : Config) (subject : ListObj) (value : StringObj)
    (side : Side) : ListObj :=
  let subject := listTypeTryConversion cfg subject value
  match convertIf (cfg.listMaxZiplistEntries ≤ ·) subject with
  | .ziplist entries => .ziplist (pushAt entries (getDecodedObject value) side)
  | .linkedlist nodes => .linkedlist (pushAt nodes value side)

def listTypePop (subject : ListObj) (side : Side) :
    ListObj × Option StringObj :=
  match subject with
  | .ziplist entries =>
    let p := ziplistIndex entries (match side with | .head => 0 | .tail => -1)
    match p, ziplistGet entries p with
    | some p, some value =>
      (.ziplist (ziplistDeleteAt entries p 1), some value)
    | _, _ => (.ziplist entries, none)
  | .linkedlist nodes =>
    let ln := match side with
      | .head => placeOf nodes.length 0
      | .tail => placeOf nodes.length (-1)
    match ln with
    | some ln => (.linkedlist (listDelNode nodes ln), nodes[ln]?)
    | none => (.linkedlist nodes, none)

def listTypeLength : ListObj → ℕ
  | .ziplist entries => entries.length
  | .linkedlist nodes => nodes.length

/-- The place `listTypeInitIterator` starts from. -/
def listTypeInitIterator (subject : ListObj) (index : ℤ) : Option ℕ :=
  match subject with
  | .ziplist entries => ziplistIndex entries index
  | .linkedlist nodes => listIndex nodes index

/-- `listTypeNext`: the current entry and the advanced iterator.  After a
deletion at the tail the iterator of a ziplist stands on the end marker,
which passes for an entry here. -/
def listTypeNext (subject : ListObj) (direction : Side) :
    Option ℕ → Option (ℕ × Option ℕ)
  | none => none
  | some p =>
    match subject, direction with
    | .ziplist entries, .tail => some (p, nextPlace entries.length p)
    | .linkedlist nodes, .tail => some (p, nextPlace nodes.length p)
    | _, .head => some (p, prevPlace p)

/-- `listTypeEqual`; on a ziplist it asserts that the object is not integer
encoded. -/
def listTypeEqual (subject : ListObj) (entry : ℕ) (o : StringObj) :
    Option Bool :=
  match subject with
  | .ziplist entries =>
    match o with
    | .raw s => some (ziplistCompare entries entry s)
    | .int _ => none
  | .linkedlist nodes => (nodes[entry]?).map (equalStringObjects o)

def listTypeInsert (subject : ListObj) (entry : ℕ) (value : StringObj)
    (side : Side) : ListObj :=
  match subject, side with
  | .ziplist entries, .tail =>
    match nextPlace entries.length entry with
    | none => .ziplist (entries ++ [getDecodedObject value])
    | some next => .ziplist (entries.insertIdx next (getDecodedObject value))
  | .ziplist entries, .head =>
    .ziplist (entries.insertIdx entry (getDecodedObject value))
  | .linkedlist nodes, .tail => .linkedlist (nodes.insertIdx (entry + 1) value)
  | .linkedlist nodes, .head => .linkedlist (nodes.insertIdx entry value)

/-- `listTypeDelete`, with the iterator it leaves.  Unlinking a node moves the
nodes behind it one place forward. -/
def listTypeDelete (subject : ListObj) (direction : Side) (entry : ℕ) :
    ListObj × Option ℕ :=
  match subject, direction with
  | .ziplist entries, .tail =>
    (.ziplist (ziplistDeleteAt entries entry 1), some entry)
  | .ziplist entries, .head =>
    (.ziplist (ziplistDeleteAt entries entry 1), prevPlace entry)
  | .linkedlist nodes, .tail =>
    (.linkedlist (listDelNode nodes entry),
      (nextPlace nodes.length entry).map (· - 1))
  | .linkedlist nodes, .head =>
    (.linkedlist (listDelNode nodes entry), prevPlace entry)

/-! ## The commands -/

/-- What is stored at the key of a command. -/
inductive Stored where
  | absent
  | list (o : ListObj)
  | otherType
  deriving DecidableEq, Repr

/-- The event classes of `notifyKeyspaceEvent` that lists use. -/
inductive EventClass where
  | list
  | generic
  deriving DecidableEq, Repr

/-- A command's effect on its key, with its reply, the change of
`server.dirty`, whether `signalModifiedKey` and `signalListAsReady` were
called, and the events in order. -/
structure Effect where
  stored : Stored
  reply : Reply
  dirty : ℕ := 0
  modified : Bool := false
  ready : Bool := false
  events : List (EventClass × String) := []

/-- An argument after `tryObjectEncoding`; argument objects have one owner. -/
def encodedArg (s : Bytes) : StringObj := tryObjectEncoding 1 (.raw s)

@[simp]
theorem getDecodedObject_encodedArg (s : Bytes) :
    getDecodedObject (encodedArg s) = s :=
  getDecodedObject_tryObjectEncoding 1 (.raw s)

/-- The lookup most commands start with. -/
def withList (stored : Stored) (missing : Reply)
    (body : ListObj → Option Effect) : Option Effect :=
  match stored with
  | .absent => some { stored, reply := missing }
  | .otherType => some { stored, reply := wrongtypeerr }
  | .list o => body o

/-- A command that turns down an argument changes nothing. -/
def withLong (stored : Stored) (arg : Bytes)
    (body : ℤ → Option Effect) : Option Effect :=
  match getLongFromObjectOrReply arg with
  | .error reply => some { stored, reply }
  | .ok value => body value

/-- The stored value once an emptied list has been deleted. -/
def dropEmpty (o : ListObj) : Stored :=
  if listTypeLength o = 0 then .absent else .list o

def pushEvent : Side → String
  | .head => "lpush"
  | .tail => "rpush"

def popEvent : Side → String
  | .head => "lpop"
  | .tail => "rpop"

def pushGenericCommand (cfg : Config) (side : Side) (values : List Bytes)
    (stored : Stored) : Option Effect :=
  match stored with
  | .otherType => some { stored, reply := wrongtypeerr }
  | .absent | .list _ =>
    let start : ListObj := match stored with
      | .list o => o
      | _ => .ziplist []
    let o := values.foldl
      (fun o value => listTypePush cfg o (encodedArg value) side) start
    some
      { stored := if values = [] then stored else .list o
        reply := .integer (listTypeLength o)
        dirty := values.length
        modified := values ≠ []
        ready := stored = .absent
        events := if values = [] then [] else [(.list, pushEvent side)] }

/-- The search of LINSERT, from head to tail: the entry equal to `refval`. -/
def seekLoop (subject : ListObj) (refval : StringObj) :
    ℕ → Option ℕ → Option (Option ℕ)
  | 0, _ => none
  | fuel + 1, iter =>
    match listTypeNext subject .tail iter with
    | none => some none
    | some (entry, iter) => do
        if ← listTypeEqual subject entry refval then some (some entry)
        else seekLoop subject refval fuel iter

/-- `pushxGenericCommand` with a reference value. -/
def insertGenericCommand (cfg : Config) (refval : StringObj)
    (value : StringObj) (side : Side) (stored : Stored) : Option Effect :=
  withList stored czero fun o => do
    let o := listTypeTryConversion cfg o value
    match ← seekLoop o refval (listTypeLength o + 1)
        (listTypeInitIterator o 0) with
    | none => some { stored := .list o, reply := cnegone }
    | some entry =>
      let o := convertIf (cfg.listMaxZiplistEntries < ·)
        (listTypeInsert o entry value side)
      some
        { stored := .list o
          reply := .integer (listTypeLength o)
          dirty := 1
          modified := true
          events := [(.list, "linsert")] }

/-- `pushxGenericCommand` without a reference value. -/
def pushxCommand (cfg : Config) (side : Side) (arg : Bytes)
    (stored : Stored) : Option Effect :=
  withList stored czero fun o =>
    let o := listTypePush cfg o (encodedArg arg) side
    some
      { stored := .list o
        reply := .integer (listTypeLength o)
        dirty := 1
        modified := true
        events := [(.list, pushEvent side)] }

def linsertCommand (cfg : Config) (place refval arg : Bytes)
    (stored : Stored) : Option Effect :=
  let value := encodedArg arg
  if isText "after" place then
    insertGenericCommand cfg (.raw refval) value .tail stored
  else if isText "before" place then
    insertGenericCommand cfg (.raw refval) value .head stored
  else some { stored, reply := syntaxerr }

def llenCommand (stored : Stored) : Option Effect :=
  withList stored czero fun o =>
    some { stored, reply := .integer (listTypeLength o) }

/-- The element LINDEX finds. -/
def valueAt (o : ListObj) (index : ℤ) : Option StringObj :=
  match o with
  | .ziplist entries => ziplistGet entries (ziplistIndex entries index)
  | .linkedlist nodes => (listIndex nodes index).bind (nodes[·]?)

def lindexCommand (index : Bytes) (stored : Stored) : Option Effect :=
  withList stored .nullBulk fun o => withLong stored index fun index =>
    match valueAt o index with
    | some value => some { stored, reply := .bulk (getDecodedObject value) }
    | none => some { stored, reply := .nullBulk }

/-- The change LSET makes: the entry is deleted and the new one inserted in
its place, or the value of the node is replaced. -/
def setAt (o : ListObj) (index : ℤ) (value : StringObj) : Option ListObj :=
  match o with
  | .ziplist entries =>
    (ziplistIndex entries index).map fun p =>
      .ziplist ((ziplistDeleteAt entries p 1).insertIdx p
        (getDecodedObject value))
  | .linkedlist nodes =>
    (listIndex nodes index).map fun ln => .linkedlist (nodes.set ln value)

def lsetCommand (cfg : Config) (index arg : Bytes) (stored : Stored) :
    Option Effect :=
  withList stored nokeyerr fun o => withLong stored index fun index =>
    let value := encodedArg arg
    let o := listTypeTryConversion cfg o value
    match setAt o index value with
    | none => some { stored := .list o, reply := outofrangeerr }
    | some o => some
        { stored := .list o
          reply := ok
          dirty := 1
          modified := true
          events := [(.list, "lset")] }

def popGenericCommand (side : Side) (stored : Stored) : Option Effect :=
  withList stored .nullBulk fun o =>
    match listTypePop o side with
    | (o, none) => some { stored := .list o, reply := .nullBulk }
    | (o, some value) => some
        { stored := dropEmpty o
          reply := .bulk (getDecodedObject value)
          dirty := 1
          modified := true
          events := (.list, popEvent side) ::
            if listTypeLength o = 0 then [(.generic, "del")] else [] }

/-- The range arguments with negative ones counted from the end. -/
def convertIndexes (llen start stop : ℤ) : ℤ × ℤ :=
  let start := if start < 0 then llen + start else start
  let stop := if stop < 0 then llen + stop else stop
  (if start < 0 then 0 else start, stop)

/-- `rangelen` elements from an entry on, following the `next` pointers. -/
def ziplistWalk (entries : List Bytes) : ℕ → Option ℕ → Option (List Reply)
  | 0, _ => some []
  | rangelen + 1, p => do
      let value ← ziplistGet entries p
      let place ← p
      let rest ← ziplistWalk entries rangelen (nextPlace entries.length place)
      some (.bulk (getDecodedObject value) :: rest)

def listWalk (nodes : List StringObj) : ℕ → Option ℕ → Option (List Reply)
  | 0, _ => some []
  | rangelen + 1, ln => do
      let place ← ln
      let value ← nodes[place]?
      let rest ← listWalk nodes rangelen (nextPlace nodes.length place)
      some (.bulk (getDecodedObject value) :: rest)

/-- The elements LRANGE sends. -/
def rangeItems (o : ListObj) (start : ℤ) (rangelen : ℕ) :
    Option (List Reply) :=
  match o with
  | .ziplist entries =>
    ziplistWalk entries rangelen (ziplistIndex entries start)
  | .linkedlist nodes =>
    -- from the tail when that is nearer
    let llen : ℤ := nodes.length
    let start := if llen / 2 < start then start - llen else start
    listWalk nodes rangelen (listIndex nodes start)

def lrangeCommand (startArg stopArg : Bytes) (stored : Stored) :
    Option Effect :=
  withLong stored startArg fun start => withLong stored stopArg fun stop =>
    withList stored emptyMultiBulk fun o => do
      let llen : ℤ := listTypeLength o
      let (start, stop) := convertIndexes llen start stop
      if stop < start ∨ llen ≤ start then
        some { stored, reply := emptyMultiBulk }
      else
        let stop := if llen ≤ stop then llen - 1 else stop
        let rangelen := (stop - start + 1).toNat
        let items ← rangeItems o start rangelen
        some { stored, reply := .multiBulk items }

/-- The removal of LTRIM. -/
def trimmed (o : ListObj) (ltrim rtrim : ℤ) : ListObj :=
  match o with
  | .ziplist entries =>
    .ziplist (ziplistDeleteRange
      (ziplistDeleteRange entries 0 ltrim) (-rtrim) rtrim)
  | .linkedlist nodes =>
    .linkedlist (dropLast^[rtrim.toNat] (tail^[ltrim.toNat] nodes))

/-- How many elements LTRIM takes off at the left and at the right. -/
def trimCounts (llen start stop : ℤ) : ℤ × ℤ :=
  let (start, stop) := convertIndexes llen start stop
  if stop < start ∨ llen ≤ start then (llen, 0)
  else
    let stop := if llen ≤ stop then llen - 1 else stop
    (start, llen - stop - 1)

def ltrimCommand (startArg stopArg : Bytes) (stored : Stored) :
    Option Effect :=
  withLong stored startArg fun start => withLong stored stopArg fun stop =>
    withList stored ok fun o =>
      let (ltrim, rtrim) := trimCounts (listTypeLength o) start stop
      let o := trimmed o ltrim rtrim
      some
        { stored := dropEmpty o
          reply := ok
          dirty := 1
          modified := true
          events := (.list, "ltrim") ::
            if listTypeLength o = 0 then [(.generic, "del")] else [] }

/-- The loop of LREM, with the list it leaves and the number it removed. -/
def lremLoop (obj : StringObj) (toremove : ℤ) (direction : Side) :
    ℕ → ListObj → Option ℕ → ℕ → Option (ListObj × ℕ)
  | 0, _, _, _ => none
  | fuel + 1, subject, li, removed =>
    match listTypeNext subject direction li with
    | none => some (subject, removed)
    | some (entry, li) => do
        if ← listTypeEqual subject entry obj then
          let (subject, li) := listTypeDelete subject direction entry
          let removed := removed + 1
          if toremove ≠ 0 ∧ (removed : ℤ) = toremove then
            some (subject, removed)
          else lremLoop obj toremove direction fuel subject li removed
        else lremLoop obj toremove direction fuel subject li removed

/-- `-toremove` as a `long`. -/
def negateLong (n : ℤ) : ℤ := (-n).bmod (2 ^ 64)

/-- The object LREM compares with: decoded for a ziplist. -/
def remObject (arg : Bytes) : ListObj → StringObj
  | .ziplist _ => .raw (getDecodedObject (encodedArg arg))
  | .linkedlist _ => encodedArg arg

def lremCommand (countArg arg : Bytes) (stored : Stored) : Option Effect :=
  withLong stored countArg fun toremove =>
    withList stored czero fun subject => do
      let obj := remObject arg subject
      let fuel := listTypeLength subject + 2
      let (o, removed) ←
        if toremove < 0 then
          lremLoop obj (negateLong toremove) .head fuel subject
            (listTypeInitIterator subject (-1)) 0
        else
          lremLoop obj toremove .tail fuel subject
            (listTypeInitIterator subject 0) 0
      some
        { stored := dropEmpty o
          reply := .integer removed
          dirty := removed
          modified := removed ≠ 0 }

/-- A list command with its arguments after the key. -/
inductive Command where
  | push (side : Side) (values : List Bytes)
  | pushx (side : Side) (value : Bytes)
  | linsert (place refval value : Bytes)
  | llen
  | lindex (index : Bytes)
  | lset (index value : Bytes)
  | pop (side : Side)
  | lrange (start stop : Bytes)
  | ltrim (start stop : Bytes)
  | lrem (count value : Bytes)
  deriving DecidableEq, Repr

def Command.run (cfg : Config) (cmd : Command) (stored : Stored) :
    Option Effect :=
  match cmd with
  | .push side values => pushGenericCommand cfg side values stored
  | .pushx side value => pushxCommand cfg side value stored
  | .linsert place refval value => linsertCommand cfg place refval value stored
  | .llen => llenCommand stored
  | .lindex index => lindexCommand index stored
  | .lset index value => lsetCommand cfg index value stored
  | .pop side => popGenericCommand side stored
  | .lrange start stop => lrangeCommand start stop stored
  | .ltrim start stop => ltrimCommand start stop stored
  | .lrem count value => lremCommand count value stored

end RedisV8.Lists
