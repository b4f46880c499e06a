import RedisV8.Ziplist.Entry

/-!
# Ziplist operations

`ziplistResize`, `__ziplistCascadeUpdate`, `__ziplistInsert`,
`__ziplistDelete` and the traversal functions of `ziplist.c`.  A position is an offset into the block.  The
parameter `junk` gives the contents of the bytes that `zrealloc` adds.
-/

namespace RedisV8.Ziplist

open Bytes Util

def ziplistHeaderSize : ℕ := 10

def ziplistBytes (zl : Bytes) : Option ℕ := (load zl 0 4).map leNat
def ziplistTailOffset (zl : Bytes) : Option ℕ := (load zl 4 4).map leNat
def ziplistLength (zl : Bytes) : Option ℕ := (load zl 8 2).map leNat

def setZiplistBytes (zl : Bytes) (bytes : ℕ) : Option Bytes :=
  store zl 0 (leBytes 4 bytes)

def setZiplistTailOffset (zl : Bytes) (offset : ℕ) : Option Bytes :=
  store zl 4 (leBytes 4 offset)

/-- `ZIPLIST_INCR_LENGTH(zl,1)` -/
def ziplistIncrLength (zl : Bytes) : Option Bytes := do
  let length ← ziplistLength zl
  if length < 2 ^ 16 - 1 then store zl 8 (leBytes 2 (length + 1)) else some zl

def ziplistNew : Bytes :=
  leBytes 4 (ziplistHeaderSize + 1) ++ leBytes 4 ziplistHeaderSize ++
    leBytes 2 0 ++ [zipEnd]

variable (junk : ℕ → UInt8)

/-- The new size is an `unsigned int`. -/
def ziplistResize (zl : Bytes) (size : ℕ) : Option Bytes := do
  let len := size % 2 ^ 32
  let zl ← setZiplistBytes (resize junk zl len) len
  if len = 0 then none else store zl (len - 1) [zipEnd]

/-- The branch of `__ziplistCascadeUpdate` that gives the entry at `np` a
larger back-length field. -/
def cascadeGrow (zl : Bytes) (curlen np rawlen prevrawlensize : ℕ) :
    Option Bytes := do
  let rawlensize := zipPrevEncodeSize rawlen
  let extra := rawlensize - prevrawlensize
  let zl ← ziplistResize junk zl (curlen + extra)
  let tail ← ziplistTailOffset zl
  let zl ← (if tail ≠ np then setZiplistTailOffset zl (tail + extra)
    else some zl)
  let zl ← memmove zl (np + rawlensize) (np + prevrawlensize)
    (curlen - np - prevrawlensize - 1)
  store zl np (zipPrevEncodeLength rawlen)

/-- The loop of `__ziplistCascadeUpdate`; `fuel` bounds its iterations. -/
def cascadeLoop : ℕ → Bytes → ℕ → ℕ → Option Bytes
  | 0, _, _, _ => none
  | fuel + 1, zl, curlen, p => do
      let byte ← zl[p]?
      if byte = zipEnd then some zl
      else do
        let cur ← zipEntry (zl.drop p)
        let rawlen := (cur.headersize + cur.len) % 2 ^ 32
        let rawlensize := zipPrevEncodeSize rawlen
        let after ← zl[p + rawlen]?
        if after = zipEnd then some zl
        else do
          let next ← zipEntry (zl.drop (p + rawlen))
          if next.prevrawlen = rawlen then some zl
          else if next.prevrawlensize < rawlensize then do
            let zl ← cascadeGrow junk zl curlen (p + rawlen) rawlen
              next.prevrawlensize
            cascadeLoop fuel zl (curlen + (rawlensize - next.prevrawlensize))
              (p + rawlen)
          else if rawlensize < next.prevrawlensize then
            store zl (p + rawlen) (zipPrevEncodeLengthForceLarge rawlen)
          else
            store zl (p + rawlen) (zipPrevEncodeLength rawlen)

def ziplistCascadeUpdate (zl : Bytes) (p : ℕ) : Option Bytes := do
  let curlen ← ziplistBytes zl
  cascadeLoop junk zl.length zl curlen p

/-- The back-length of an entry inserted at `p`. -/
def insertPrevlen (zl : Bytes) (p : ℕ) : Option ℕ := do
  let byte ← zl[p]?
  if byte ≠ zipEnd then do
    let entry ← zipEntry (zl.drop p)
    some entry.prevrawlen
  else do
    let ptail ← ziplistTailOffset zl
    let last ← zl[ptail]?
    if last ≠ zipEnd then zipRawEntryLength (zl.drop ptail) else some 0

/-- The bytes needed for the encoded length and the payload of `s`. -/
def payloadSize (s : Bytes) : ℕ :=
  match zipTryEncoding s with
  | some (_, encoding) =>
    zipIntSize encoding + (zipEncodeLength encoding s.length).length
  | none => s.length + (zipEncodeLength 0 s.length).length

/-- The encoding, length and payload that `__ziplistInsert` writes for `s`. -/
def entryBody (s : Bytes) : Option Bytes :=
  match zipTryEncoding s with
  | some (value, encoding) => do
      let payload ← zipSaveInteger value encoding
      some (zipEncodeLength encoding s.length ++ payload)
  | none => some (zipEncodeLength 0 s.length ++ s)

/-- The memory move of `__ziplistInsert`, and the new back-length of the entry
behind the gap. -/
def moveTail (zl : Bytes) (p curlen reqlen : ℕ) (nextdiff : ℤ) :
    Option Bytes := do
  let zl ← memmove zl (p + reqlen) (p - nextdiff).toNat
    (curlen - p - 1 + nextdiff).toNat
  store zl (p + reqlen) (zipPrevEncodeLength (reqlen % 2 ^ 32))

/-- The update of the tail offset: `nextdiff` counts when the moved entry is
not the last one. -/
def moveTailOffset (zl : Bytes) (p reqlen : ℕ) (nextdiff : ℤ) :
    Option Bytes := do
  let offset ← ziplistTailOffset zl
  let zl ← setZiplistTailOffset zl (offset + reqlen)
  let tail ← zipEntry (zl.drop (p + reqlen))
  let byte ← zl[p + reqlen + (tail.headersize + tail.len)]?
  if byte ≠ zipEnd then do
    let offset ← ziplistTailOffset zl
    setZiplistTailOffset zl ((offset + nextdiff) % 2 ^ 32).toNat
  else some zl

def makeRoom (zl : Bytes) (p curlen reqlen : ℕ) (nextdiff : ℤ) :
    Option Bytes := do
  let zl ← moveTail zl p curlen reqlen nextdiff
  moveTailOffset zl p reqlen nextdiff

/-- The end of `__ziplistInsert`: the cascade and the new entry itself. -/
def insertEntry (zl : Bytes) (p : ℕ) (s : Bytes) (prevlen reqlen : ℕ)
    (nextdiff : ℤ) : Option Bytes := do
  let zl ← (if nextdiff ≠ 0 then ziplistCascadeUpdate junk zl (p + reqlen)
    else some zl)
  let body ← entryBody s
  let zl ← store zl p (zipPrevEncodeLength prevlen ++ body)
  ziplistIncrLength zl

/-- `__ziplistInsert` from the resize on. -/
def insertSized (zl : Bytes) (p : ℕ) (s : Bytes) (curlen prevlen reqlen : ℕ)
    (nextdiff : ℤ) : Option Bytes := do
  let zl ← ziplistResize junk zl (curlen + reqlen + nextdiff).toNat
  let byte ← zl[p]?
  let zl ← (if byte ≠ zipEnd then makeRoom zl p curlen reqlen nextdiff
    else setZiplistTailOffset zl p)
  insertEntry junk zl p s prevlen reqlen nextdiff

def ziplistInsert (zl : Bytes) (p : ℕ) (s : Bytes) : Option Bytes := do
  let curlen ← ziplistBytes zl
  let prevlen ← insertPrevlen zl p
  let reqlen := payloadSize s + zipPrevEncodeSize prevlen
  let byte ← zl[p]?
  let nextdiff ← (if byte ≠ zipEnd then zipPrevLenByteDiff (zl.drop p) reqlen
    else some 0)
  insertSized junk zl p s curlen prevlen reqlen nextdiff

/-- `none` is an invalid access, `some none` the null pointer. -/
def ziplistNext (zl : Bytes) (p : ℕ) : Option (Option ℕ) := do
  let byte ← zl[p]?
  if byte = zipEnd then some none
  else do
    let rawlen ← zipRawEntryLength (zl.drop p)
    let byte ← zl[p + rawlen]?
    some (if byte = zipEnd then none else some (p + rawlen))

def ziplistPrev (zl : Bytes) (p : ℕ) : Option (Option ℕ) := do
  let byte ← zl[p]?
  if byte = zipEnd then do
    let tail ← ziplistTailOffset zl
    let byte ← zl[tail]?
    some (if byte = zipEnd then none else some tail)
  else if p = ziplistHeaderSize then some none
  else do
    let entry ← zipEntry (zl.drop p)
    if 0 < entry.prevrawlen ∧ entry.prevrawlen ≤ p then
      some (some (p - entry.prevrawlen))
    else none

/-- `ZIPLIST_INCR_LENGTH(zl,-deleted)` -/
def ziplistDecrLength (zl : Bytes) (deleted : ℕ) : Option Bytes := do
  let length ← ziplistLength zl
  if length < 2 ^ 16 - 1 then
    store zl 8 (leBytes 2 (((length : ℤ) - deleted) % 2 ^ 16).toNat)
  else some zl

/-- The loop of `__ziplistDelete`: the position behind the entries to delete
and how many they are. -/
def skipEntries (zl : Bytes) : ℕ → ℕ → ℕ → Option (ℕ × ℕ)
  | 0, p, deleted => some (p, deleted)
  | num + 1, p, deleted => do
      let byte ← zl[p]?
      if byte = zipEnd then some (p, deleted)
      else do
        let rawlen ← zipRawEntryLength (zl.drop p)
        skipEntries zl num (p + rawlen) (deleted + 1)

/-- The tail offset once `totlen` bytes before the entry at `p` are gone:
`nextdiff` counts when that entry is not the last one. -/
def dropTailOffset (zl : Bytes) (p totlen : ℕ) (nextdiff : ℤ) :
    Option Bytes := do
  let offset ← ziplistTailOffset zl
  let zl ← setZiplistTailOffset zl (((offset : ℤ) - totlen) % 2 ^ 32).toNat
  let tail ← zipEntry (zl.drop p)
  let byte ← zl[p + (tail.headersize + tail.len)]?
  if byte ≠ zipEnd then do
    let offset ← ziplistTailOffset zl
    setZiplistTailOffset zl (((offset : ℤ) + nextdiff) % 2 ^ 32).toNat
  else some zl

/-- The branch of `__ziplistDelete` with entries behind the deleted ones: the
first of them, at `p`, gets a new back-length, and they are moved to `first`. -/
def closeGap (zl : Bytes) (first p prevrawlen totlen : ℕ) :
    Option (Bytes × ℤ) := do
  let nextdiff ← zipPrevLenByteDiff (zl.drop p) prevrawlen
  let p := ((p : ℤ) - nextdiff).toNat
  let zl ← store zl p (zipPrevEncodeLength prevrawlen)
  let zl ← dropTailOffset zl p totlen nextdiff
  let bytes ← ziplistBytes zl
  let zl ← memmove zl first p (bytes - p - 1)
  some (zl, nextdiff)

/-- The other branch: the tail is now the entry before `first`. -/
def cutTail (zl : Bytes) (first prevrawlen : ℕ) : Option (Bytes × ℤ) := do
  let zl ← setZiplistTailOffset zl (first - prevrawlen)
  some (zl, 0)

/-- The end of `__ziplistDelete`, from the resize on. -/
def deleteResize (zl : Bytes) (first totlen deleted : ℕ) (nextdiff : ℤ) :
    Option Bytes := do
  let bytes ← ziplistBytes zl
  let zl ← ziplistResize junk zl
    (((bytes : ℤ) - totlen + nextdiff) % 2 ^ 32).toNat
  let zl ← ziplistDecrLength zl deleted
  if nextdiff ≠ 0 then ziplistCascadeUpdate junk zl first else some zl

/-- `__ziplistDelete` -/
def ziplistDeleteEntries (zl : Bytes) (first num : ℕ) : Option Bytes := do
  let entry ← zipEntry (zl.drop first)
  let (p, deleted) ← skipEntries zl num first 0
  let totlen := (p - first) % 2 ^ 32
  if totlen = 0 then some zl
  else do
    let byte ← zl[p]?
    let (zl, nextdiff) ← (if byte ≠ zipEnd then
        closeGap zl first p entry.prevrawlen totlen
      else cutTail zl first entry.prevrawlen)
    deleteResize junk zl first totlen deleted nextdiff

/-- `ZIPLIST_HEAD` and `ZIPLIST_TAIL` -/
inductive ZlEnd where
  | head
  | tail
  deriving DecidableEq, Repr

def ziplistPush (zl : Bytes) (s : Bytes) : ZlEnd → Option Bytes
  | .head => ziplistInsert junk zl ziplistHeaderSize s
  | .tail => do
      let bytes ← ziplistBytes zl
      ziplistInsert junk zl (bytes - 1) s

/-- The loop of `ziplistIndex` for an index from the head on. -/
def indexForward (zl : Bytes) : ℕ → ℕ → Option (Option ℕ)
  | 0, p => do
      let byte ← zl[p]?
      some (if byte = zipEnd then none else some p)
  | index + 1, p => do
      let byte ← zl[p]?
      if byte = zipEnd then some none
      else do
        let rawlen ← zipRawEntryLength (zl.drop p)
        indexForward zl index (p + rawlen)

/-- The loop for an index from the tail on, counted from 0. -/
def indexBackward (zl : Bytes) : ℕ → ℕ → Option (Option ℕ)
  | 0, p => some (some p)
  | index + 1, p => do
      let entry ← zipEntry (zl.drop p)
      if 0 < entry.prevrawlen then
        if entry.prevrawlen ≤ p then
          indexBackward zl index (p - entry.prevrawlen)
        else none
      else some none

/-- `ziplistIndex`, for any `int` but the smallest. -/
def ziplistIndex (zl : Bytes) (index : ℤ) : Option (Option ℕ) :=
  if index < 0 then do
    let p ← ziplistTailOffset zl
    let byte ← zl[p]?
    if byte = zipEnd then some none else indexBackward zl (-index - 1).toNat p
  else indexForward zl index.toNat ziplistHeaderSize

/-- `ziplistDelete`; the position stays where it was. -/
def ziplistDelete (zl : Bytes) (p : ℕ) : Option Bytes :=
  ziplistDeleteEntries junk zl p 1

/-- The index arrives as an `unsigned int` and is used as an `int`. -/
def ziplistDeleteRange (zl : Bytes) (index : ℤ) (num : ℕ) : Option Bytes := do
  let p ← ziplistIndex zl index
  match p with
  | none => some zl
  | some p => ziplistDeleteEntries junk zl p num

/-- The loop of `ziplistLen`; each entry takes a byte at least. -/
def countEntries (zl : Bytes) : ℕ → ℕ → Option ℕ
  | 0, _ => none
  | fuel + 1, p => do
      let byte ← zl[p]?
      if byte = zipEnd then some 0
      else do
        let rawlen ← zipRawEntryLength (zl.drop p)
        let len ← countEntries zl fuel (p + rawlen)
        some (len + 1)

/-- The length, and the ziplist with the length stored again if it fits. -/
def ziplistLen (zl : Bytes) : Option (ℕ × Bytes) := do
  let length ← ziplistLength zl
  if length < 2 ^ 16 - 1 then some (length, zl)
  else do
    let len ← countEntries zl zl.length ziplistHeaderSize
    if len < 2 ^ 16 - 1 then do
      let zl ← store zl 8 (leBytes 2 len)
      some (len, zl)
    else some (len, zl)

/-- Follows `step` from a position, collecting the elements on the way. -/
def readFrom (step : ℕ → Option (Option ℕ)) (zl : Bytes) :
    ℕ → Option ℕ → Option (List Bytes)
  | _, none => some []
  | 0, some _ => none
  | fuel + 1, some p => do
      let value ← ziplistGet (zl.drop p)
      let next ← step p
      let rest ← readFrom step zl fuel next
      some (value.text :: rest)

/-- The elements from the head on, as `ziplistNext` visits them. -/
def readForward (zl : Bytes) : Option (List Bytes) := do
  let byte ← zl[ziplistHeaderSize]?
  readFrom (ziplistNext zl) zl zl.length
    (if byte = zipEnd then none else some ziplistHeaderSize)

/-- The elements from the tail on, as `ziplistPrev` visits them from the end
marker. -/
def readBackward (zl : Bytes) : Option (List Bytes) := do
  let start ← ziplistPrev zl (zl.length - 1)
  readFrom (ziplistPrev zl) zl zl.length start

end RedisV8.Ziplist
