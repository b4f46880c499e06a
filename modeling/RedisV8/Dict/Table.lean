import Mathlib

/-!
# The chained hash table with incremental rehashing

`dict.c` keeps two tables.  Outside a rehash only `ht0` is in use; during one
the buckets of `ht0` below `rehashidx` have already been moved to `ht1`, one
bucket per step, while lookups, insertions and deletions go on in both.

Chains are lists, head first, and a `NULL` table is the empty list.  The hash
function is a parameter: nothing here depends on which one is installed.
-/

namespace RedisV8.HashTable

/-- `DICT_HT_INITIAL_SIZE`. -/
def initialSize : ℕ := 4

/-- `LONG_MAX` of the 64-bit platforms. -/
def longMax : ℕ := 2 ^ 63 - 1

/-- `dict_force_resize_ratio`. -/
def forceResizeRatio : ℕ := 5

variable {K V : Type*}

/-- One table: `size` and `sizemask` are functions of the bucket array. -/
structure Dictht (K V : Type*) where
  table : List (List (K × V))
  used : ℕ
  deriving DecidableEq, Repr

namespace Dictht

def size (ht : Dictht K V) : ℕ := ht.table.length

/-- `sizemask`, zero for the table left by `_dictReset`. -/
def sizemask (ht : Dictht K V) : ℕ := ht.size - 1

/-- The chain at an index. -/
def bucket (ht : Dictht K V) (index : ℕ) : List (K × V) :=
  ht.table.getD index []

/-- `_dictReset`. -/
def reset : Dictht K V := ⟨[], 0⟩

/-- A zero-filled bucket array, as `zcalloc` returns it. -/
def alloc (size : ℕ) : Dictht K V := ⟨List.replicate size [], 0⟩

/-- Link an entry at the head of a chain. -/
def pushFront (ht : Dictht K V) (index : ℕ) (entry : K × V) : Dictht K V :=
  ⟨ht.table.set index (entry :: ht.bucket index), ht.used + 1⟩

end Dictht

/-- `dict`; `rehashidx` is `none` where the source stores `-1`. -/
structure Dict (K V : Type*) where
  ht0 : Dictht K V
  ht1 : Dictht K V
  rehashidx : Option ℕ
  iterators : ℕ
  deriving DecidableEq, Repr

namespace Dict

/-- `dictCreate`. -/
def create : Dict K V := ⟨Dictht.reset, Dictht.reset, none, 0⟩

/-- `dictIsRehashing`. -/
def isRehashing (d : Dict K V) : Bool := d.rehashidx.isSome

/-- `dictSize`. -/
def size (d : Dict K V) : ℕ := d.ht0.used + d.ht1.used

end Dict

/-- `_dictNextPower`: double from the initial size until the request fits. -/
def nextPowerLoop (size : ℕ) : ℕ → ℕ → ℕ
  | 0, i => i
  | fuel + 1, i => if size ≤ i then i else nextPowerLoop size fuel (i * 2)

/-- `_dictNextPower`.  Sixty-one doublings of the initial size pass every
request below `LONG_MAX`. -/
def dictNextPower (size : ℕ) : ℕ :=
  if longMax ≤ size then longMax else nextPowerLoop size 61 initialSize

/-- `dictExpand`, with `true` for `DICT_OK`.  A request of `LONG_MAX` buckets
or more never returns, since `zcalloc` aborts on it; that case leaves the
dictionary alone here. -/
def dictExpand (d : Dict K V) (size : ℕ) : Dict K V × Bool :=
  if d.isRehashing ∨ size < d.ht0.used ∨ longMax ≤ size then (d, false)
  else
    let n : Dictht K V := Dictht.alloc (dictNextPower size)
    if d.ht0.table = [] then ({ d with ht0 := n }, true)
    else ({ d with ht1 := n, rehashidx := some 0 }, true)

/-- `dictResize`; `canResize` is the global `dict_can_resize`.  The element
count goes through an `int`. -/
def dictResize (canResize : Bool) (d : Dict K V) : Dict K V × Bool :=
  if ¬ canResize ∨ d.isRehashing then (d, false)
  else
    let minimal : ℤ := (BitVec.ofNat 32 d.ht0.used).toInt
    dictExpand d (if minimal < initialSize then initialSize else minimal.toNat)

section Hashing

variable (hash : K → BitVec 32)

/-- Bucket index of a key: `dictHashKey(d,key) & sizemask`. -/
def Dictht.index (ht : Dictht K V) (key : K) : ℕ :=
  (hash key).toNat &&& ht.sizemask

/-- Index of the first non-empty bucket at or after `idx`. -/
def skipEmpty (ht : Dictht K V) (idx : ℕ) : ℕ :=
  idx + ((ht.table.drop idx).takeWhile List.isEmpty).length

/-- Move one chain, head first, to the front of the chains of `ht`. -/
def moveChain (chain : List (K × V)) (ht : Dictht K V) : Dictht K V :=
  chain.foldl (fun ht entry => ht.pushFront (ht.index hash entry.1) entry) ht

/-- One turn of the loop of `dictRehash`: finish the rehash when nothing is
left in `ht0`, otherwise move the next non-empty bucket. -/
def rehashBucket (d : Dict K V) (idx : ℕ) : Dict K V :=
  if d.ht0.used = 0 then
    { d with ht0 := d.ht1, ht1 := Dictht.reset, rehashidx := none }
  else
    let next := skipEmpty d.ht0 idx
    let chain := d.ht0.bucket next
    { d with
      ht0 := ⟨d.ht0.table.set next [], d.ht0.used - chain.length⟩
      ht1 := moveChain hash chain d.ht1
      rehashidx := some (next + 1) }

/-- `dictRehash`: up to `n` bucket moves. -/
def dictRehash (d : Dict K V) : ℕ → Dict K V
  | 0 => d
  | n + 1 =>
    match d.rehashidx with
    | none => d
    | some idx => dictRehash (rehashBucket hash d idx) n

/-- `_dictRehashStep`: suspended while a safe iterator is open. -/
def dictRehashStep (d : Dict K V) : Dict K V :=
  if d.iterators = 0 then dictRehash hash d 1 else d

/-- `_dictExpandIfNeeded`. -/
def dictExpandIfNeeded (canResize : Bool) (d : Dict K V) : Dict K V × Bool :=
  if d.isRehashing then (d, true)
  else if d.ht0.size = 0 then dictExpand d initialSize
  else if d.ht0.size ≤ d.ht0.used ∧
      (canResize ∨ forceResizeRatio < d.ht0.used / d.ht0.size) then
    dictExpand d (d.ht0.used * 2)
  else (d, true)

variable [DecidableEq K]

/-- Whether a chain holds a key. -/
def chainHas (chain : List (K × V)) (key : K) : Bool :=
  chain.any fun entry => entry.1 = key

/-- Whether the lookup loops over the live tables meet the key. -/
def hasKey (d : Dict K V) (key : K) : Bool :=
  chainHas (d.ht0.bucket (d.ht0.index hash key)) key ||
    (d.isRehashing && chainHas (d.ht1.bucket (d.ht1.index hash key)) key)

/-- `dictAddRaw` followed by `dictSetVal`, that is `dictAdd`, where the index of
the bucket is an `int`; `Stores.dictAdd` compares it with `dictAddRaw`. -/
def dictAdd (canResize : Bool) (d : Dict K V) (key : K) (val : V) :
    Dict K V × Bool :=
  let d := if d.isRehashing then dictRehashStep hash d else d
  -- `_dictKeyIndex` first grows the table, and gives up when that fails
  match dictExpandIfNeeded canResize d with
  | (d, false) => (d, false)
  | (d, true) =>
    if hasKey hash d key then (d, false)
    else if d.isRehashing then
      ({ d with ht1 := d.ht1.pushFront (d.ht1.index hash key) (key, val) },
        true)
    else
      ({ d with ht0 := d.ht0.pushFront (d.ht0.index hash key) (key, val) },
        true)

/-- Unlink the first entry with the given key from a chain of `ht`. -/
def Dictht.unlink (ht : Dictht K V) (key : K) : Dictht K V :=
  let index := ht.index hash key
  ⟨ht.table.set index ((ht.bucket index).eraseP fun entry => entry.1 = key),
    ht.used - 1⟩

/-- `dictGenericDelete`. -/
def dictDelete (d : Dict K V) (key : K) : Dict K V × Bool :=
  if d.ht0.size = 0 then (d, false)
  else
    let d := if d.isRehashing then dictRehashStep hash d else d
    if chainHas (d.ht0.bucket (d.ht0.index hash key)) key then
      ({ d with ht0 := d.ht0.unlink hash key }, true)
    else if d.isRehashing ∧
        chainHas (d.ht1.bucket (d.ht1.index hash key)) key then
      ({ d with ht1 := d.ht1.unlink hash key }, true)
    else (d, false)

/-- The chain entry a lookup returns. -/
def chainFind (chain : List (K × V)) (key : K) : Option V :=
  (chain.find? fun entry => entry.1 = key).map Prod.snd

/-- `dictFind`, which may also advance the rehash. -/
def dictFind (d : Dict K V) (key : K) : Dict K V × Option V :=
  if d.ht0.size = 0 then (d, none)
  else
    let d := if d.isRehashing then dictRehashStep hash d else d
    match chainFind (d.ht0.bucket (d.ht0.index hash key)) key with
    | some val => (d, some val)
    | none =>
      if d.isRehashing then
        (d, chainFind (d.ht1.bucket (d.ht1.index hash key)) key)
      else (d, none)

/-- Overwrite the value of the first entry with the given key. -/
def chainSet (chain : List (K × V)) (key : K) (val : V) : List (K × V) :=
  match chain with
  | [] => []
  | entry :: rest =>
    if entry.1 = key then (key, val) :: rest
    else entry :: chainSet rest key val

/-- `dictSetVal` on the entry that `dictFind` located. -/
def setVal (d : Dict K V) (key : K) (val : V) : Dict K V :=
  let index0 := d.ht0.index hash key
  let index1 := d.ht1.index hash key
  if chainHas (d.ht0.bucket index0) key then
    { d with ht0 := { d.ht0 with
      table := d.ht0.table.set index0 (chainSet (d.ht0.bucket index0) key val) } }
  else if d.isRehashing then
    { d with ht1 := { d.ht1 with
      table := d.ht1.table.set index1 (chainSet (d.ht1.bucket index1) key val) } }
  else d

/-- `dictReplace`, with `true` when the key was added from scratch. -/
def dictReplace (canResize : Bool) (d : Dict K V) (key : K) (val : V) :
    Dict K V × Bool :=
  match dictAdd hash canResize d key val with
  | (d, true) => (d, true)
  | (d, false) => (setVal hash (dictFind hash d key).1 key val, false)

end Hashing

end RedisV8.HashTable
