import RedisV8.Util.Decimal

/-!
# Ziplist entries

The entry codec of `ziplist.c`.  A pointer into a ziplist is the suffix of the
block that starts there; a read past the end of the block, and a failed
assertion, have no result.  Words are stored little-endian, as
`intrev32ifbe` and its siblings arrange on every host.
-/

namespace RedisV8.Ziplist

open Bytes Util

def zipEnd : UInt8 := 255
def zipBiglen : ℕ := 254

def zipStrMask : UInt8 := 0xc0
def zipStr06B : UInt8 := 0x00
def zipStr14B : UInt8 := 0x40
def zipStr32B : UInt8 := 0x80
def zipInt16B : UInt8 := 0xc0
def zipInt32B : UInt8 := 0xd0
def zipInt64B : UInt8 := 0xe0
def zipInt24B : UInt8 := 0xf0
def zipInt8B : UInt8 := 0xfe
def zipIntImmMin : UInt8 := 0xf1
def zipIntImmMax : UInt8 := 0xfd

def zipIsStr (encoding : UInt8) : Bool := encoding &&& zipStrMask < zipStrMask

structure ZlEntry where
  prevrawlensize : ℕ
  prevrawlen : ℕ
  lensize : ℕ
  len : ℕ
  headersize : ℕ
  encoding : UInt8
  deriving DecidableEq, Repr

def zipEntryEncoding (byte : UInt8) : UInt8 :=
  if byte < zipStrMask then byte &&& zipStrMask else byte

def zipIntSize (encoding : UInt8) : ℕ :=
  if encoding = zipInt8B then 1
  else if encoding = zipInt16B then 2
  else if encoding = zipInt24B then 3
  else if encoding = zipInt32B then 4
  else if encoding = zipInt64B then 8
  else 0

/-- The bytes that `zipEncodeLength` stores; with a null pointer only their
number is used. -/
def zipEncodeLength (encoding : UInt8) (rawlen : ℕ) : Bytes :=
  if zipIsStr encoding then
    if rawlen ≤ 0x3f then
      [zipStr06B ||| UInt8.ofNat rawlen]
    else if rawlen ≤ 0x3fff then
      [zipStr14B ||| (UInt8.ofNat (rawlen >>> 8) &&& 0x3f), UInt8.ofNat rawlen]
    else
      [zipStr32B, UInt8.ofNat (rawlen >>> 24), UInt8.ofNat (rawlen >>> 16),
        UInt8.ofNat (rawlen >>> 8), UInt8.ofNat rawlen]
  else [encoding]

/-- `ZIP_DECODE_LENGTH`: the encoding, the size of the length field and the
length. -/
def zipDecodeLength (ptr : Bytes) : Option (UInt8 × ℕ × ℕ) := do
  let byte ← ptr[0]?
  let encoding := zipEntryEncoding byte
  if encoding < zipStrMask then
    if encoding = zipStr06B then
      some (encoding, 1, (byte &&& 0x3f).toNat)
    else if encoding = zipStr14B then do
      let low ← ptr[1]?
      some (encoding, 2, ((byte &&& 0x3f).toNat <<< 8) ||| low.toNat)
    else if encoding = zipStr32B then do
      let b1 ← ptr[1]?
      let b2 ← ptr[2]?
      let b3 ← ptr[3]?
      let b4 ← ptr[4]?
      some (encoding, 5, (b1.toNat <<< 24) ||| (b2.toNat <<< 16) |||
        (b3.toNat <<< 8) ||| b4.toNat)
    else none
  else some (encoding, 1, zipIntSize encoding)

/-- `zipPrevEncodeLength` with a null pointer. -/
def zipPrevEncodeSize (len : ℕ) : ℕ := if len < zipBiglen then 1 else 5

def zipPrevEncodeLength (len : ℕ) : Bytes :=
  if len < zipBiglen then [UInt8.ofNat len]
  else UInt8.ofNat zipBiglen :: leBytes 4 len

def zipPrevEncodeLengthForceLarge (len : ℕ) : Bytes :=
  UInt8.ofNat zipBiglen :: leBytes 4 len

def zipDecodePrevlensize (ptr : Bytes) : Option ℕ := do
  let byte ← ptr[0]?
  some (if byte.toNat < zipBiglen then 1 else 5)

def zipDecodePrevlen (ptr : Bytes) : Option (ℕ × ℕ) := do
  let prevlensize ← zipDecodePrevlensize ptr
  if prevlensize = 1 then do
    let byte ← ptr[0]?
    some (1, byte.toNat)
  else do
    let word ← load ptr 1 4
    some (prevlensize, leNat word)

/-- `len` is an `unsigned int`. -/
def zipPrevLenByteDiff (ptr : Bytes) (len : ℕ) : Option ℤ := do
  let prevlensize ← zipDecodePrevlensize ptr
  some ((zipPrevEncodeSize (len % 2 ^ 32) : ℤ) - prevlensize)

def zipRawEntryLength (ptr : Bytes) : Option ℕ := do
  let prevlensize ← zipDecodePrevlensize ptr
  let (_, lensize, len) ← zipDecodeLength (ptr.drop prevlensize)
  some ((prevlensize + lensize + len) % 2 ^ 32)

def zipEntry (ptr : Bytes) : Option ZlEntry := do
  let (prevrawlensize, prevrawlen) ← zipDecodePrevlen ptr
  let (encoding, lensize, len) ← zipDecodeLength (ptr.drop prevrawlensize)
  some {
    prevrawlensize := prevrawlensize
    prevrawlen := prevrawlen
    lensize := lensize
    len := len
    headersize := prevrawlensize + lensize
    encoding := encoding }

/-- The value and the smallest encoding that holds it. -/
def zipTryEncoding (entry : Bytes) : Option (ℤ × UInt8) :=
  if 32 ≤ entry.length ∨ entry.length = 0 then none
  else do
    let value ← string2ll entry
    if 0 ≤ value ∧ value ≤ 12 then
      some (value, zipIntImmMin + UInt8.ofNat value.toNat)
    else if -2 ^ 7 ≤ value ∧ value ≤ 2 ^ 7 - 1 then some (value, zipInt8B)
    else if -2 ^ 15 ≤ value ∧ value ≤ 2 ^ 15 - 1 then some (value, zipInt16B)
    else if -2 ^ 23 ≤ value ∧ value ≤ 2 ^ 23 - 1 then some (value, zipInt24B)
    else if -2 ^ 31 ≤ value ∧ value ≤ 2 ^ 31 - 1 then some (value, zipInt32B)
    else some (value, zipInt64B)

/-- The bytes of a signed value cut to `8 * width` bits. -/
def signedBytes (width : ℕ) (value : ℤ) : Bytes :=
  leBytes width (value % 2 ^ (8 * width)).toNat

def zipSaveInteger (value : ℤ) (encoding : UInt8) : Option Bytes :=
  if encoding = zipInt8B then some (signedBytes 1 value)
  else if encoding = zipInt16B then some (signedBytes 2 value)
  else if encoding = zipInt24B then some ((signedBytes 4 (value * 2 ^ 8)).drop 1)
  else if encoding = zipInt32B then some (signedBytes 4 value)
  else if encoding = zipInt64B then some (signedBytes 8 value)
  else if zipIntImmMin ≤ encoding ∧ encoding ≤ zipIntImmMax then some []
  else none

/-- A word read as a two's complement number. -/
def signedWord (bytes : Bytes) : ℤ :=
  Int.bmod (leNat bytes) (2 ^ (8 * bytes.length))

def zipLoadInteger (ptr : Bytes) (encoding : UInt8) : Option ℤ :=
  if encoding = zipInt8B then (load ptr 0 1).map signedWord
  else if encoding = zipInt16B then (load ptr 0 2).map signedWord
  else if encoding = zipInt32B then (load ptr 0 4).map signedWord
  else if encoding = zipInt24B then
    (load ptr 0 3).map fun word => signedWord (0 :: word) / 2 ^ 8
  else if encoding = zipInt64B then (load ptr 0 8).map signedWord
  else if zipIntImmMin ≤ encoding ∧ encoding ≤ zipIntImmMax then
    some ((encoding &&& 0x0f).toNat - 1)
  else none

/-- What `ziplistGet` hands out: a string, or an integer. -/
inductive ZlValue where
  | str (bytes : Bytes)
  | int (value : ℤ)
  deriving DecidableEq, Repr

/-- The element as its users see it: an integer is printed in decimal. -/
def ZlValue.text : ZlValue → Bytes
  | .str bytes => bytes
  | .int value => llText value

/-- The result is `none` also where the source returns 0, at the end marker. -/
def ziplistGet (ptr : Bytes) : Option ZlValue := do
  let byte ← ptr[0]?
  if byte = zipEnd then none
  else do
    let entry ← zipEntry ptr
    if zipIsStr entry.encoding then
      (load ptr entry.headersize entry.len).map .str
    else
      (zipLoadInteger (ptr.drop entry.headersize) entry.encoding).map .int

/-- The value of an entry without its back-length field; the byte string must
end where the entry does. -/
def bodyValue (body : Bytes) : Option ZlValue := do
  let (encoding, lensize, len) ← zipDecodeLength body
  if body.length = lensize + len then
    if zipIsStr encoding then some (.str (body.drop lensize))
    else (zipLoadInteger (body.drop lensize) encoding).map .int
  else none

end RedisV8.Ziplist
