import RedisV8.Rdb.Lzf
import RedisV8.Server.Object
import RedisV8.Util.Sds
import RedisV8.Ziplist.Codec

/-!
# Strings in an RDB file

The string codec of `rdb.c`.  A string is written verbatim behind its length,
as an integer of 8, 16 or 32 bits or compressed by LZF; the two high bits of
the first byte tell the forms apart.
-/

namespace RedisV8.Rdb

open Bytes List Server Util Ziplist

def rdbLenErr : ℕ := 2 ^ 32 - 1

/-- `htonl` reverses the bytes of the word. -/
def rdbSaveLen (len : ℕ) : Bytes :=
  if len < 2 ^ 6 then [UInt8.ofNat len]
  else if len < 2 ^ 14 then
    [UInt8.ofNat (len >>> 8) ||| 0x40, UInt8.ofNat len]
  else 0x80 :: (leBytes 4 len).reverse

/-- Whether it is an encoding type, the length or the type, and the bytes that
follow. -/
def rdbLoadLen (rdb : Bytes) : Option (Bool × ℕ × Bytes) := do
  let byte ← rdb[0]?
  let rdb := rdb.drop 1
  let type := (byte &&& 0xC0) >>> 6
  if type = 3 then some (true, (byte &&& 0x3F).toNat, rdb)
  else if type = 0 then some (false, (byte &&& 0x3F).toNat, rdb)
  else if type = 1 then do
    let low ← rdb[0]?
    some (false, ((byte &&& 0x3F).toNat <<< 8) ||| low.toNat, rdb.drop 1)
  else do
    let word ← load rdb 0 4
    some (false, leNat word.reverse, rdb.drop 4)

def rdbEncodeInteger (value : ℤ) : Option Bytes :=
  if -2 ^ 7 ≤ value ∧ value ≤ 2 ^ 7 - 1 then
    some (0xC0 :: signedBytes 1 value)
  else if -2 ^ 15 ≤ value ∧ value ≤ 2 ^ 15 - 1 then
    some (0xC1 :: signedBytes 2 value)
  else if -2 ^ 31 ≤ value ∧ value ≤ 2 ^ 31 - 1 then
    some (0xC2 :: signedBytes 4 value)
  else none

/-- `behind` is what the memory holds behind the string. -/
def rdbTryIntegerEncoding (s behind : Bytes) : Option Bytes :=
  let parsed := strtoll (s ++ behind)
  if parsed.eptr[0]? ≠ some 0 then none
  else if ll2string 32 parsed.value ≠ s then none
  else rdbEncodeInteger parsed.value

/-- `htab` is what the table of the compressor holds at first. -/
def rdbSaveLzfStringObject (htab : UInt32 → ℕ) (s : Bytes) : Option Bytes :=
  if s.length ≤ 4 then none
  else
    let out := Lzf.compress s htab (s.length - 4)
    if out = [] then none
    else some (0xC3 :: (rdbSaveLen out.length ++ rdbSaveLen s.length ++ out))

/-- `rdbSaveRawString`.  The number of bytes that the compressed form took is
returned as an `int`; when that is not positive the string is stored again. -/
def rdbSaveRawString (htab : UInt32 → ℕ) (compression : Bool)
    (s behind : Bytes) : Option Bytes :=
  let verbatim := rdbSaveLen s.length ++ s
  match if s.length ≤ 11 then rdbTryIntegerEncoding s behind else none with
  | some enc => some enc
  | none =>
    match if compression ∧ 20 < s.length then rdbSaveLzfStringObject htab s
      else none with
    | none => some verbatim
    | some bytes =>
      let n := (bytes.length : ℤ).bmod (2 ^ 32)
      if n = -1 then none
      else if 0 < n then some bytes
      else some (bytes ++ verbatim)

def rdbSaveLongLongAsStringObject (value : ℤ) : Bytes :=
  match rdbEncodeInteger value with
  | some enc => enc
  | none =>
    let buf := ll2string 32 value
    rdbSaveLen buf.length ++ buf

/-- The number of bytes of an integer type. -/
def rdbIntegerSize (enctype : ℕ) : Option ℕ :=
  match enctype with
  | 0 => some 1
  | 1 => some 2
  | 2 => some 4
  | _ => none

def rdbLoadIntegerObject (rdb : Bytes) (enctype : ℕ) (encode : Bool) :
    Option (StringObj × Bytes) := do
  let size ← rdbIntegerSize enctype
  let word ← load rdb 0 size
  let val := signedWord word
  let o := if encode then createStringObjectFromLongLong val
    else .raw (llText val)
  some (o, rdb.drop size)

def rdbLoadLzfStringObject (rdb : Bytes) :
    Option (StringObj × Bytes) := do
  let (_, clen, rdb) ← rdbLoadLen rdb
  let (_, len, rdb) ← rdbLoadLen rdb
  if clen = rdbLenErr ∨ len = rdbLenErr then none
  else do
    let c ← load rdb 0 clen
    let val ← Lzf.decompress c len
    let val ← sdsnewlen val
    some (.raw val, rdb.drop clen)

def rdbGenericLoadStringObject (encode : Bool) (rdb : Bytes) :
    Option (StringObj × Bytes) := do
  let (isencoded, len, rdb) ← rdbLoadLen rdb
  if isencoded then
    if len = 3 then rdbLoadLzfStringObject rdb
    else rdbLoadIntegerObject rdb len encode
  else if len = rdbLenErr then none
  else do
    let val ← load rdb 0 len
    let val ← sdsnewlen val
    some (.raw val, rdb.drop len)

section Lengths

theorem load_front {data rest : Bytes} {count : ℕ}
    (hlength : data.length = count) :
    load (data ++ rest) 0 count = some data := by
  rw [← hlength]
  exact load_append [] data rest

theorem rdbLoadLen_rdbSaveLen {len : ℕ} (hlen : len < 2 ^ 32)
    (rest : Bytes) :
    rdbLoadLen (rdbSaveLen len ++ rest) = some (false, len, rest) := by
  rw [rdbSaveLen]
  split_ifs with h6 h14
  · have hbyte : ∀ len < 64, ((UInt8.ofNat len &&& 0xC0) >>> 6 = 0) ∧
        (UInt8.ofNat len &&& 0x3F).toNat = len := by
      decide +kernel
    obtain ⟨htype, hlow⟩ := hbyte len h6
    simp only [rdbLoadLen, htype, cons_append, nil_append, getElem?_cons_zero,
      some_bind, drop_one, tail_cons, hlow]
    rfl
  · have hbyte : ∀ high < 64,
        ((UInt8.ofNat high ||| 0x40) &&& 0xC0) >>> 6 = 1 ∧
        ((UInt8.ofNat high ||| 0x40) &&& 0x3F).toNat = high := by
      decide +kernel
    have hhigh : len >>> 8 = len / 2 ^ 8 := Nat.shiftRight_eq_div_pow _ _
    obtain ⟨htype, hlow⟩ := hbyte (len >>> 8) (by omega)
    have hvalue : (len >>> 8 <<< 8) ||| (UInt8.ofNat len).toNat = len := by
      rw [be14_eq (UInt8.toNat_lt _), hhigh, UInt8.toNat_ofNat']
      omega
    simp only [rdbLoadLen, htype, cons_append, nil_append, getElem?_cons_zero,
      some_bind, drop_one, tail_cons, hlow, hvalue]
    rfl
  · have hword : load ((leBytes 4 len).reverse ++ rest) 0 4 = _ :=
      load_front (by simp)
    have hvalue : leNat (leBytes 4 len) = len := by
      rw [leNat_leBytes]
      omega
    have hdrop : ((leBytes 4 len).reverse ++ rest).drop 4 = rest :=
      drop_left' (by simp)
    simp only [rdbLoadLen, cons_append, getElem?_cons_zero, some_bind,
      drop_one, tail_cons, hword, reverse_reverse, hvalue, hdrop]
    rfl

end Lengths

section Loading

variable {htab : UInt32 → ℕ} {encode : Bool} {s rest : Bytes}

theorem load_integer {value : ℤ} {enc : Bytes}
    (henc : rdbEncodeInteger value = some enc) :
    ∃ o, rdbGenericLoadStringObject encode (enc ++ rest) =
        some (o, rest) ∧ getDecodedObject o = llText value := by
  have hobject (tag : UInt8) (size : ℕ) (hlow : -2 ^ (8 * size - 1) ≤ value)
      (hhigh : value < 2 ^ (8 * size - 1)) (hpos : 0 < size) (hsize : size ≤ 4)
      (htag : ∀ rdb, rdbGenericLoadStringObject encode (tag :: rdb) = do
        let word ← load rdb 0 size
        let val := signedWord word
        let o := if encode then createStringObjectFromLongLong val
          else .raw (llText val)
        some (o, rdb.drop size)) :
      ∃ o, rdbGenericLoadStringObject encode
          (tag :: signedBytes size value ++ rest) = some (o, rest) ∧
        getDecodedObject o = llText value := by
    refine ⟨if encode then createStringObjectFromLongLong value
      else .raw (llText value), ?_, ?_⟩
    · rw [cons_append, htag, load_front (length_signedBytes size value),
        some_bind, signedWord_signedBytes hpos hlow hhigh,
        drop_left' (length_signedBytes size value)]
    · split
      · apply getDecodedObject_fromLongLong
        rw [llongMin, llongMax]
        interval_cases size <;> omega
      · rfl
  rw [rdbEncodeInteger] at henc
  split_ifs at henc with h8 h16 h32
  · cases henc
    exact hobject 0xC0 1 (by omega) (by omega) (by omega) (by omega)
      fun _ => rfl
  · cases henc
    exact hobject 0xC1 2 (by omega) (by omega) (by omega) (by omega)
      fun _ => rfl
  · cases henc
    exact hobject 0xC2 4 (by omega) (by omega) (by omega) (by omega)
      fun _ => rfl

theorem load_verbatim (hlen : s.length < 2 ^ 32 - 1) :
    rdbGenericLoadStringObject encode
        (rdbSaveLen s.length ++ s ++ rest) =
      (sdsnewlen s).map fun val => (.raw val, rest) := by
  rw [rdbGenericLoadStringObject, append_assoc,
    rdbLoadLen_rdbSaveLen (by omega), some_bind]
  have herr : s.length ≠ rdbLenErr := by
    rw [rdbLenErr]
    omega
  simp only [Bool.false_eq_true, if_false, herr, load_front rfl, some_bind,
    drop_left]
  cases sdsnewlen s <;> rfl

/-- What the compressor makes of the string, if anything, keeps to the room it
is given and is inverted by the decompressor. -/
def Inverts (htab : UInt32 → ℕ) (s : Bytes) : Prop :=
  let out := Lzf.compress s htab (s.length - 4)
  out ≠ [] → out.length ≤ s.length - 4 ∧
    Lzf.decompress out s.length = some s

theorem load_compressed {bytes : Bytes} (hlen : s.length < 2 ^ 32 - 1)
    (hinverts : Inverts htab s) (hsave : rdbSaveLzfStringObject htab s = some bytes) :
    rdbGenericLoadStringObject encode (bytes ++ rest) =
      (sdsnewlen s).map fun val => (.raw val, rest) := by
  rw [rdbSaveLzfStringObject] at hsave
  split_ifs at hsave with hshort
  dsimp only at hsave
  split_ifs at hsave with hnil
  cases hsave
  obtain ⟨hle, hinverse⟩ := hinverts hnil
  generalize Lzf.compress s htab (s.length - 4) = out at hle hinverse
  have htag : ∀ rdb, rdbGenericLoadStringObject encode (0xC3 :: rdb) =
      rdbLoadLzfStringObject rdb := fun _ => rfl
  have herr : ¬ (out.length = rdbLenErr ∨ s.length = rdbLenErr) := by
    rw [rdbLenErr]
    omega
  rw [cons_append, htag, rdbLoadLzfStringObject, append_assoc, append_assoc,
    rdbLoadLen_rdbSaveLen (by omega), some_bind]
  dsimp only
  rw [rdbLoadLen_rdbSaveLen (by omega), some_bind]
  simp only [herr, if_false, load_front rfl, some_bind, hinverse, drop_left]
  cases sdsnewlen s <;> rfl

end Loading

/-- What the length of an sds and the number of bytes written, both of type
`int`, can express. -/
def Fits (htab : UInt32 → ℕ) (compression : Bool) (s : Bytes) : Prop :=
  s.length < 2 ^ 31 ∧ (compression ∧ 20 < s.length →
    ∀ bytes, rdbSaveLzfStringObject htab s = some bytes →
      bytes.length < 2 ^ 31)

theorem length_rdbSaveLen_le (len : ℕ) : (rdbSaveLen len).length ≤ 5 := by
  rw [rdbSaveLen]
  split_ifs <;> simp

theorem length_compressed {htab : UInt32 → ℕ} {s bytes : Bytes}
    (hinverts : Inverts htab s) (hsave : rdbSaveLzfStringObject htab s = some bytes) :
    0 < bytes.length ∧ bytes.length ≤ s.length + 7 := by
  rw [rdbSaveLzfStringObject] at hsave
  split_ifs at hsave with hshort
  dsimp only at hsave
  split_ifs at hsave with hnil
  cases hsave
  have hle := (hinverts hnil).1
  have hlen := length_rdbSaveLen_le s.length
  have hclen := length_rdbSaveLen_le
    (Lzf.compress s htab (s.length - 4)).length
  simp only [length_cons, length_append]
  omega

theorem sdsnewlen_reads_iff {s rest tail : Bytes} :
    (∃ o, (sdsnewlen s).map (fun val => (StringObj.raw val, tail)) =
        some (o, rest) ∧ getDecodedObject o = s) ↔
      s.length < 2 ^ 31 ∧ tail = rest := by
  rw [sdsnewlen]
  constructor
  · rintro ⟨o, hsome, -⟩
    split_ifs at hsome with hshort
    · cases hsome
      exact ⟨hshort, rfl⟩
    · cases hsome
  · rintro ⟨hshort, rfl⟩
    exact ⟨.raw s, by rw [if_pos hshort]; rfl, rfl⟩

theorem raw_string_reads_back {htab : UInt32 → ℕ}
    {compression encode : Bool} {s behind rest : Bytes}
    (hlen : s.length < 2 ^ 32 - 1) (hinverts : Inverts htab s) :
    (∃ bytes o, rdbSaveRawString htab compression s behind = some bytes ∧
        rdbGenericLoadStringObject encode (bytes ++ rest) =
          some (o, rest) ∧ getDecodedObject o = s) ↔
      Fits htab compression s := by
  rw [rdbSaveRawString, Fits]
  dsimp only
  split
  · rename_i enc henc
    split_ifs at henc with hshort
    rw [rdbTryIntegerEncoding] at henc
    split_ifs at henc with hend htext
    obtain ⟨o, hload, hdecoded⟩ := load_integer henc
    rw [ll2string_eq (by decide), not_not] at htext
    exact ⟨fun _ => ⟨by omega, fun _ => by omega⟩,
      fun _ => ⟨enc, o, rfl, hload, hdecoded.trans htext⟩⟩
  split
  · rename_i hnone
    simp only [Option.some.injEq, exists_and_left, exists_eq_left',
      load_verbatim hlen, sdsnewlen_reads_iff, and_true]
    refine ⟨fun hshort => ⟨hshort, fun hif bytes hsome => ?_⟩, And.left⟩
    rw [if_pos hif, hsome] at hnone
    cases hnone
  · rename_i bytes hsome
    split_ifs at hsome with hif
    obtain ⟨hpos, hle⟩ := length_compressed hinverts hsome
    have hfits : (compression ∧ 20 < s.length → ∀ bytes,
        rdbSaveLzfStringObject htab s = some bytes → bytes.length < 2 ^ 31) ↔
        bytes.length < 2 ^ 31 := by
      rw [hsome]
      simp [hif]
    rw [hfits]
    by_cases hcount : bytes.length < 2 ^ 31
    · have hn : (bytes.length : ℤ).bmod (2 ^ 32) = bytes.length :=
        Int.bmod_eq_of_le (by omega) (by omega)
      rw [hn, if_neg (by omega), if_pos (by omega)]
      simp only [Option.some.injEq, exists_and_left, exists_eq_left',
        load_compressed hlen hinverts hsome, sdsnewlen_reads_iff, and_true, hcount]
    · refine ⟨?_, fun h => absurd h.2 hcount⟩
      rintro ⟨written, o, hwritten, hload⟩
      split_ifs at hwritten with herror hdone
      · cases hwritten
        rw [load_compressed hlen hinverts hsome] at hload
        obtain ⟨hshort, -⟩ := sdsnewlen_reads_iff.1 ⟨o, hload⟩
        rw [Int.bmod_def] at hdone
        omega
      · cases hwritten
        rw [append_assoc, load_compressed hlen hinverts hsome] at hload
        obtain ⟨-, htail⟩ := sdsnewlen_reads_iff.1 ⟨o, hload⟩
        have hlength := congrArg length htail
        simp only [length_append] at hlength
        omega

/-- A string object, raw or encoded as an integer, is read back from what was
written for it, and nothing else is consumed. -/
theorem strings_read_back_iff (htab : UInt32 → ℕ) (encode : Bool)
    (rest : Bytes) :
    (∀ compression s behind, s.length < 2 ^ 32 - 1 → Inverts htab s →
      ((∃ bytes o, rdbSaveRawString htab compression s behind = some bytes ∧
          rdbGenericLoadStringObject encode (bytes ++ rest) =
            some (o, rest) ∧ getDecodedObject o = s) ↔
        Fits htab compression s)) ∧
    ∀ value : Int64, ∃ o, rdbGenericLoadStringObject encode
        (rdbSaveLongLongAsStringObject value.toInt ++ rest) =
          some (o, rest) ∧
        getDecodedObject o = getDecodedObject (.int value) := by
  refine ⟨fun compression s behind hlen hinverts =>
    raw_string_reads_back hlen hinverts, ?_⟩
  intro value
  rw [getDecodedObject_int, rdbSaveLongLongAsStringObject]
  cases henc : rdbEncodeInteger value.toInt with
  | some enc => exact load_integer henc
  | none =>
    have hlength := length_llText_le value.toInt
    dsimp only
    rw [ll2string_eq (by decide), load_verbatim (by omega)]
    exact sdsnewlen_reads_iff.2 ⟨by omega, rfl⟩

/-- Thirty equal bytes are compressed to nine. -/
theorem strings_read_back_compressed :
    rdbSaveRawString (fun _ => 0) true (replicate 30 97) [0] =
        some [0xC3, 9, 30, 1, 97, 97, 224, 17, 0, 1, 97, 97] ∧
      ∃ bytes o,
        rdbSaveRawString (fun _ => 0) true (replicate 30 97) [0] =
          some bytes ∧
        rdbGenericLoadStringObject true (bytes ++ [255]) = some (o, [255]) ∧
        getDecodedObject o = replicate 30 97 := by
  have hinverts : Inverts (fun _ => 0) (replicate 30 97) := by
    rw [Inverts]
    decide +kernel
  have hfits : Fits (fun _ => 0) true (replicate 30 97) := by
    refine ⟨by decide, fun _ bytes hbytes => ?_⟩
    have hlength := (length_compressed hinverts hbytes).2
    rw [length_replicate] at hlength
    omega
  exact ⟨by decide +kernel, ((strings_read_back_iff _ true [255]).1 true _ [0]
    (by decide) hinverts).mpr hfits⟩

/-- The length of an sds of `2 ^ 31` bytes is no `int`. -/
theorem long_string_not_read_back :
    ∃ s : Bytes, s.length = 2 ^ 31 ∧ ∀ htab encode rest,
      ∃ bytes, rdbSaveRawString htab false s [0] = some bytes ∧
        rdbGenericLoadStringObject encode (bytes ++ rest) = none := by
  have hs : (replicate (2 ^ 31) (0 : UInt8)).length = 2 ^ 31 :=
    length_replicate
  -- from here on the string is never evaluated
  generalize replicate (2 ^ 31) (0 : UInt8) = s at hs
  refine ⟨s, hs, fun htab encode rest => ⟨rdbSaveLen s.length ++ s, ?_, ?_⟩⟩
  · rw [rdbSaveRawString, if_neg (by omega), if_neg (by simp)]
  · rw [load_verbatim (by omega), sdsnewlen, if_neg (by omega)]
    rfl

end RedisV8.Rdb
