import RedisV8.Ziplist.Codec

/-!
# Integer sets

`intset.c`: an ordered array of integers that are all stored in the width the
largest of them needs.  The array is a heap block, and an access outside of it
has no result.  Positions are passed as `int`, sizes in bytes as `uint32_t`.
-/

namespace RedisV8.Sets

open Bytes Util
open Ziplist (signedBytes signedWord)

/-- `INTSET_ENC_INT16`, `INTSET_ENC_INT32` and `INTSET_ENC_INT64`. -/
inductive Encoding where
  | int16
  | int32
  | int64
  deriving DecidableEq, Repr

def Encoding.size : Encoding → ℕ
  | int16 => 2
  | int32 => 4
  | int64 => 8

/-- The bytes behind the header are those that were allocated for them. -/
structure Intset where
  encoding : Encoding
  length : ℕ
  contents : Bytes
  deriving DecidableEq, Repr

/-- The bytes of fresh memory, by their place in the block. -/
abbrev Fresh := ℕ → UInt8

/-- `_intsetValueEncoding`. -/
def intsetValueEncoding (v : ℤ) : Encoding :=
  if v < -2 ^ 31 ∨ 2 ^ 31 - 1 < v then .int64
  else if v < -2 ^ 15 ∨ 2 ^ 15 - 1 < v then .int32
  else .int16

namespace Intset

/-- `_intsetGetEncoded`. -/
def getEncoded (is : Intset) (pos : ℤ) (enc : Encoding) : Option ℤ :=
  if toInt pos < 0 then none
  else (load is.contents ((toInt pos).toNat * enc.size) enc.size).map signedWord

/-- `_intsetGet`. -/
def getAt (is : Intset) (pos : ℤ) : Option ℤ := is.getEncoded pos is.encoding

/-- `_intsetSet`. -/
def setAt (is : Intset) (pos : ℤ) (value : ℤ) : Option Intset :=
  if toInt pos < 0 then none
  else do
    let contents ← store is.contents ((toInt pos).toNat * is.encoding.size)
      (signedBytes is.encoding.size value)
    some { is with contents }

end Intset

def intsetNew : Intset := ⟨.int16, 0, []⟩

def intsetResize (fresh : Fresh) (is : Intset) (len : ℕ) : Intset :=
  { is with contents :=
      resize fresh is.contents (len % 2 ^ 32 * is.encoding.size % 2 ^ 32) }

/-- The loop of `intsetSearch`, which leaves `min`, `mid` and `cur`. -/
def searchLoop (is : Intset) (value : ℤ) :
    ℕ → ℤ → ℤ → ℤ → ℤ → Option (ℤ × ℤ × ℤ)
  | 0, _, _, _, _ => none
  | fuel + 1, min, max, mid, cur =>
    if min ≤ max then do
      let mid := (toInt (min + max)).tdiv 2
      let cur ← is.getAt mid
      if cur < value then searchLoop is value fuel (mid + 1) max mid cur
      else if value < cur then searchLoop is value fuel min (mid - 1) mid cur
      else some (min, mid, cur)
    else some (min, mid, cur)

/-- `intsetSearch`: whether the value is there, and its position or the one to
insert it at. -/
def intsetSearch (is : Intset) (value : ℤ) : Option (Bool × ℕ) :=
  if is.length = 0 then some (false, 0)
  else do
    let last ← is.getAt (is.length - 1)
    if last < value then some (false, is.length)
    else
      let first ← is.getAt 0
      if value < first then some (false, 0)
      else
        let (min, mid, cur) ← searchLoop is value (is.length + 1) 0
          (toInt (is.length - 1)) (-1) (-1)
        if value = cur then some (true, mid.toNat) else some (false, min.toNat)

/-- The loop of `intsetUpgradeAndAdd` over the values not yet rewritten. -/
def upgradeLoop (curenc : Encoding) (offset : ℕ) : ℕ → Intset → Option Intset
  | 0, is => some is
  | length + 1, is => do
      let value ← is.getEncoded length curenc
      let is ← is.setAt (length + offset : ℕ) value
      upgradeLoop curenc offset length is

def intsetUpgradeAndAdd (fresh : Fresh) (is : Intset) (value : ℤ) :
    Option Intset := do
  let curenc := is.encoding
  let offset := if value < 0 then 1 else 0
  let is := { is with encoding := intsetValueEncoding value }
  let is := intsetResize fresh is (is.length + 1)
  let is ← upgradeLoop curenc offset is.length is
  let is ← is.setAt (if value < 0 then 0 else is.length) value
  some { is with length := (is.length + 1) % 2 ^ 32 }

/-- `intsetMoveTail`; `src` and `dst` are its `from` and `to`. -/
def intsetMoveTail (is : Intset) (src dst : ℕ) : Option Intset := do
  let contents ← memmove is.contents (dst * is.encoding.size)
    (src * is.encoding.size)
    ((is.length - src) * is.encoding.size % 2 ^ 32)
  some { is with contents }

/-- The values from a position on make room for one more. -/
def openGap (is : Intset) (pos : ℕ) : Option Intset :=
  if pos < is.length then intsetMoveTail is pos (pos + 1) else some is

/-- The values behind a position are moved over it. -/
def closeGap (is : Intset) (pos : ℕ) : Option Intset :=
  if pos < is.length - 1 then intsetMoveTail is (pos + 1) pos else some is

/-- The insertion of a value that is not there at its position. -/
def insertAt (fresh : Fresh) (is : Intset) (value : ℤ) (pos : ℕ) :
    Option Intset := do
  let is ← openGap (intsetResize fresh is (is.length + 1)) pos
  let is ← is.setAt pos value
  some { is with length := (is.length + 1) % 2 ^ 32 }

/-- `intsetAdd`, which tells whether the value was added. -/
def intsetAdd (fresh : Fresh) (is : Intset) (value : ℤ) :
    Option (Intset × Bool) :=
  if is.encoding.size < (intsetValueEncoding value).size then do
    let is ← intsetUpgradeAndAdd fresh is value
    some (is, true)
  else do
    let (found, pos) ← intsetSearch is value
    if found then some (is, false)
    else
      let is ← insertAt fresh is value pos
      some (is, true)

/-- The deletion of the value at a position. -/
def removeAt (fresh : Fresh) (is : Intset) (pos : ℕ) : Option Intset := do
  let is ← closeGap is pos
  let is := intsetResize fresh is (is.length - 1)
  some { is with length := is.length - 1 }

/-- `intsetRemove`, which tells whether the value was there. -/
def intsetRemove (fresh : Fresh) (is : Intset) (value : ℤ) :
    Option (Intset × Bool) :=
  if (intsetValueEncoding value).size ≤ is.encoding.size then do
    let (found, pos) ← intsetSearch is value
    if found then
      let is ← removeAt fresh is pos
      some (is, true)
    else some (is, false)
  else some (is, false)

def intsetFind (is : Intset) (value : ℤ) : Option Bool :=
  if (intsetValueEncoding value).size ≤ is.encoding.size then do
    let (found, _) ← intsetSearch is value
    some found
  else some false

/-- `intsetRandom`, with the number `rand` gives. -/
def intsetRandom (is : Intset) (rand : ℕ) : Option ℤ :=
  is.getAt (rand % is.length : ℕ)

/-- `intsetGet`; the inner `none` says that the position is out of range. -/
def intsetGet (is : Intset) (pos : ℕ) : Option (Option ℤ) :=
  if pos < is.length then (is.getAt pos).map some else some none

def intsetLen (is : Intset) : ℕ := is.length

end RedisV8.Sets
