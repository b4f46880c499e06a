import RedisV8.Commands.Collections
import RedisV8.Commands.Generic
import RedisV8.Util.Sds

/-!
# The other commands on the keyspace

Commands whose replies are not looked at here: what they do to the keyspace is
modelled, what they answer is a parameter.  `sortCommand` looks up keys that
its patterns name, and may store its result.
-/

namespace RedisV8.Commands

open Util Server Keyspace Effects Reply

/-- Commands that look up their key and answer from its value. -/
inductive View where
  | srandmember | sscan | zrange | zrangebyscore | zrevrangebyscore | zcount
  | zrevrange | zrank | zrevrank | zscan | hkeys | hvals | hgetall | hscan
  | bitcount | dump
  deriving DecidableEq, Repr

/-- `check` is the error that a command finds in its arguments before it looks
the key up, `view` its reply for a value, `visited` are the keys that SCAN
comes across, `stringmatch` is `stringmatchlen`, `sorted` the vector that SORT
puts its elements in, each given with the value it is sorted by, and `debug`
what DEBUG does. -/
structure Views where
  check : View → List Bytes → Option Reply
  view : View → List Bytes → Value → Reply
  objectReply : List Bytes → Reply
  visited : List Bytes → List Bytes → List Bytes
  nextCursor : List Bytes → List Bytes → Bytes
  stringmatch : Bytes → Bytes → Bool
  sorted : List Bytes → (elements : List (Bytes × Option Bytes)) →
    Except Reply { vector : List Bytes // vector.Perm (elements.map Prod.fst) }
  debug : Client → List Bytes → Cmd Outcome

variable (int : Internals) (views : Views)

/-! ## One key -/

def viewCommand (v : View) (missing : Reply) (c : Client)
    (argv : List Bytes) : Cmd Outcome :=
  match views.check v argv with
  | some r => addReply r
  | none => readCommand (keyArg c argv 1) missing (views.view v argv)

def emptyScan : Reply := .multiBulk [.bulk (ascii "0"), .multiBulk []]

def srandmemberCommand (c : Client) (argv : List Bytes) : Cmd Outcome :=
  viewCommand views .srandmember
    (if argv.length = 3 then emptyMultiBulk else .nullBulk) c argv

def sscanCommand : Client → List Bytes → Cmd Outcome :=
  viewCommand views .sscan emptyScan

def zscanCommand : Client → List Bytes → Cmd Outcome :=
  viewCommand views .zscan emptyScan

def hscanCommand : Client → List Bytes → Cmd Outcome :=
  viewCommand views .hscan emptyScan

def zrangeCommand : Client → List Bytes → Cmd Outcome :=
  viewCommand views .zrange emptyMultiBulk

def zrevrangeCommand : Client → List Bytes → Cmd Outcome :=
  viewCommand views .zrevrange emptyMultiBulk

def zrangebyscoreCommand : Client → List Bytes → Cmd Outcome :=
  viewCommand views .zrangebyscore emptyMultiBulk

def zrevrangebyscoreCommand : Client → List Bytes → Cmd Outcome :=
  viewCommand views .zrevrangebyscore emptyMultiBulk

def zcountCommand : Client → List Bytes → Cmd Outcome :=
  viewCommand views .zcount czero

def zrankCommand : Client → List Bytes → Cmd Outcome :=
  viewCommand views .zrank .nullBulk

def zrevrankCommand : Client → List Bytes → Cmd Outcome :=
  viewCommand views .zrevrank .nullBulk

def hkeysCommand : Client → List Bytes → Cmd Outcome :=
  viewCommand views .hkeys emptyMultiBulk

def hvalsCommand : Client → List Bytes → Cmd Outcome :=
  viewCommand views .hvals emptyMultiBulk

def hgetallCommand : Client → List Bytes → Cmd Outcome :=
  viewCommand views .hgetall emptyMultiBulk

def bitcountCommand : Client → List Bytes → Cmd Outcome :=
  viewCommand views .bitcount czero

def dumpCommand : Client → List Bytes → Cmd Outcome :=
  viewCommand views .dump .nullBulk

/-- OBJECT finds its key without looking it up. -/
def objectCommand (c : Client) (argv : List Bytes) : Cmd Outcome := do
  if argv.length = 3 ∧ (isText "refcount" (arg argv 1) ∨
      isText "encoding" (arg argv 1) ∨ isText "idletime" (arg argv 1)) then
    if ← dbExists (keyArg c argv 2) then addReply (views.objectReply argv)
    else addReply .nullBulk
  else
    addReply (errorReply
      "Syntax error. Try OBJECT (refcount|encoding|idletime)")

/-! ## All keys of a database -/

def dbKeys (db : ℕ) : Cmd (List Bytes) := .perform (Op.keys db)

/-- `expireIfNeeded` for a key that is there. -/
def expireIfNeeded (k : Key) : Cmd Bool := do
  match ← lookupKeyRead k with
  | none => pure true
  | some _ =>
    let expire ← getExpire k
    let now ← mstime
    pure (0 ≤ expire && expire < now)

/-- The keys that have not expired. -/
def liveKeys (c : Client) : List Bytes → Cmd (List Bytes)
  | [] => pure []
  | key :: keys => do
      if ← expireIfNeeded (c.db, key) then liveKeys c keys
      else
        let rest ← liveKeys c keys
        pure (key :: rest)

def keysCommand (c : Client) (argv : List Bytes) : Cmd Outcome := do
  let keys ← dbKeys c.db
  let live ← liveKeys c (keys.filter (views.stringmatch (arg argv 1)))
  addReply (.multiBulk (live.map .bulk))

/-- The options are checked before the keys are visited. -/
def scanCommand (c : Client) (argv : List Bytes) : Cmd Outcome := do
  let keys ← dbKeys c.db
  let live ← liveKeys c (views.visited argv keys)
  addReply (.multiBulk
    [.bulk (views.nextCursor argv keys), .multiBulk (live.map .bulk)])

def dbsizeCommand (c : Client) (_ : List Bytes) : Cmd Outcome := do
  let keys ← dbKeys c.db
  addReply (.integer keys.length)

/-- `dbRandomKey` tries again when it comes across an expired key. -/
def randomkeyLoop (c : Client) : ℕ → Cmd Outcome
  | 0 => addReply .nullBulk
  | tries + 1 => do
      let keys ← dbKeys c.db
      if keys = [] then addReply .nullBulk
      else
        let key ← Prog.perform (Op.randomElement keys.toFinset)
        if ← expireIfNeeded (c.db, key) then randomkeyLoop c tries
        else addReply (.bulk key)

def randomkeyCommand (c : Client) (_ : List Bytes) : Cmd Outcome := do
  let keys ← dbKeys c.db
  randomkeyLoop c (keys.length + 1)

/-! ## SORT -/

structure SortOptions where
  desc : Bool
  alpha : Bool
  dontsort : Bool
  limitStart : ℤ
  limitCount : ℤ
  sortby : Option Bytes
  storekey : Option Bytes
  gets : List Bytes

def SortOptions.none : SortOptions :=
  ⟨false, false, false, 0, -1, .none, .none, []⟩

def charStar : UInt8 := 42

/-- One option and the number of arguments it takes. -/
def sortOption (o : SortOptions) (option : Bytes) (rest : List Bytes) :
    Except Reply (SortOptions × ℕ) :=
  if isText "asc" option then .ok ({ o with desc := false }, 0)
  else if isText "desc" option then .ok ({ o with desc := true }, 0)
  else if isText "alpha" option then .ok ({ o with alpha := true }, 0)
  else if isText "limit" option ∧ 2 ≤ rest.length then do
    let start ← getLongFromObjectOrReply (arg rest 0)
    let count ← getLongFromObjectOrReply (arg rest 1)
    .ok ({ o with limitStart := start, limitCount := count }, 2)
  else if isText "store" option ∧ 1 ≤ rest.length then
    .ok ({ o with storekey := some (arg rest 0) }, 1)
  else if isText "by" option ∧ 1 ≤ rest.length then
    .ok ({ o with
      sortby := some (arg rest 0)
      dontsort := o.dontsort || (strchr charStar (arg rest 0)).isNone }, 1)
  else if isText "get" option ∧ 1 ≤ rest.length then
    .ok ({ o with gets := o.gets ++ [arg rest 0] }, 1)
  else .error syntaxerr

def parseSortOptions :
    ℕ → List Bytes → SortOptions → Except Reply SortOptions
  | _, [], o => .ok o
  | 0, _, o => .ok o
  | fuel + 1, option :: rest, o => do
      let (o, taken) ← sortOption o option rest
      parseSortOptions fuel (rest.drop taken) o

/-- The offset of `->`. -/
def strstrArrow : Bytes → Option ℕ
  | [] => none
  | b :: s =>
    if b = charMinus ∧ s.head? = some 62 then some 0
    else if b = 0 then none
    else (strstrArrow s).map (· + 1)

/-- The key and the field that a pattern with a star names. -/
def substitute (pattern subst : Bytes) (star : ℕ) : Bytes × Option Bytes :=
  let after := pattern.drop (star + 1)
  match strstrArrow after with
  | none => (pattern.take star ++ subst ++ after, none)
  | some arrow =>
    let field := after.drop (arrow + 2)
    if field.headD 0 = 0 then (pattern.take star ++ subst ++ after, none)
    else (pattern.take star ++ subst ++ after.take arrow, some field)

def lookupKeyByPattern (c : Client) (pattern subst : Bytes) :
    Cmd (Option Bytes) :=
  if pattern.takeWhile (· ≠ 0) = ascii "#" then pure (some subst)
  else
    match strchr charStar pattern with
    | none => pure none
    | some star => do
        let (key, field) := substitute pattern subst star
        match ← lookupKeyRead (c.db, key), field with
        | some (.hash h), some field => pure (h.lookup field)
        | some (.string s), none => pure (some s)
        | _, _ => pure none

/-- The elements with the values they are sorted by. -/
def sortWeights (c : Client) (o : SortOptions) :
    List Bytes → Cmd (List (Bytes × Option Bytes))
  | [] => pure []
  | element :: rest => do
      let weight ← match o.sortby with
        | some pattern =>
          if o.dontsort then pure none
          else lookupKeyByPattern c pattern element
        | none => pure none
      let weights ← sortWeights c o rest
      pure ((element, weight) :: weights)

def sortGets (c : Client) (element : Bytes) :
    List Bytes → Cmd (List (Option Bytes))
  | [] => pure []
  | pattern :: patterns => do
      let value ← lookupKeyByPattern c pattern element
      let values ← sortGets c element patterns
      pure (value :: values)

/-- What is answered or stored. -/
def sortOutput (c : Client) (gets : List Bytes) :
    List Bytes → Cmd (List (Option Bytes))
  | [] => pure []
  | element :: rest => do
      let values ←
        if gets = [] then pure [some element] else sortGets c element gets
      let output ← sortOutput c gets rest
      pure (values ++ output)

/-- `start` and `end`, which is computed in 64 bits. -/
def sortBounds (o : SortOptions) (vectorlen : ℕ) : ℤ × ℤ :=
  let start := if o.limitStart < 0 then 0 else o.limitStart
  let stop :=
    if o.limitCount < 0 then (vectorlen : ℤ) - 1
    else toLongLong (start + o.limitCount - 1)
  if (vectorlen : ℤ) ≤ start then ((vectorlen : ℤ) - 1, (vectorlen : ℤ) - 2)
  else (start, if (vectorlen : ℤ) ≤ stop then (vectorlen : ℤ) - 1 else stop)

/-- The elements from `start` to `end`, none if they are in the wrong order. -/
def sortRange (o : SortOptions) (elements : List Bytes) : List Bytes :=
  let bounds := sortBounds o elements.length
  (elements.drop bounds.1.toNat).take (bounds.2 - bounds.1 + 1).toNat

/-- `outputlen`, an `unsigned int`. -/
def sortOutputlen (o : SortOptions) (vectorlen : ℕ) : ℕ :=
  let bounds := sortBounds o vectorlen
  let getop : ℤ := if o.gets = [] then 1 else o.gets.length
  (getop * (bounds.2 - bounds.1 + 1) % 2 ^ 32).toNat

/-- Whether there is anything to store is decided by `outputlen`. -/
def sortStore (k : Key) (output : List Bytes) (outputlen : ℕ) :
    Cmd Outcome := do
  if outputlen = 0 then
    if ← dbDelete k then
      signalModifiedKey k
      notifyKeyspaceEvent .generic "del" k
      addDirty 1
  else
    setKey k (.list output)
    notifyKeyspaceEvent .list "sortstore" k
    addDirty outputlen
  addReply (.integer outputlen)

/-- The elements of what SORT takes; a missing key counts as an empty list. -/
def sortElements : Option Value → Option (List Bytes)
  | none => some []
  | some (.list l) => some l
  | some (.set s) => some (int.enumerate s)
  | some (.zset z) => some (int.ranked z)
  | some _ => none

/-- The rest of the command, with the options and the elements known. -/
def sortVector (c : Client) (argv : List Bytes) (o : SortOptions)
    (elements : List Bytes) : Cmd Outcome := do
  let weights ← sortWeights c o elements
  match views.sorted argv weights with
  | .error r => addReply r
  | .ok vector =>
    let output ← sortOutput c o.gets (sortRange o vector.1)
    match o.storekey with
    | none => addReply (.multiBulk (output.map bulkOrNull))
    | some key =>
      sortStore (c.db, key) (output.map (Option.getD · []))
        (sortOutputlen o vector.1.length)

def sortCommand (c : Client) (argv : List Bytes) : Cmd Outcome := do
  match sortElements int (← lookupKeyRead (keyArg c argv 1)) with
  | none => addReply wrongtypeerr
  | some elements =>
    match parseSortOptions argv.length (argv.drop 2) SortOptions.none with
    | .error r => addReply r
    | .ok o => sortVector views c argv o elements

end RedisV8.Commands
