import RedisV8.Lib.Bytes

/-!
# Strings of the JavaScript engine

`String::New` takes its bytes for UTF-8 and stores UTF-16.  The decoder of
`unicode.cc` replaces what it cannot read by U+FFFD, one byte at a time; a text
that is UTF-8 is stored character by character.
-/

namespace RedisV8.V8

/-! ## The decoder -/

/-- `Utf8::kBadChar`. -/
def badChar : ℕ := 0xFFFD

/-- `str[i] ^ 0x80`, if that has no bits in `0xC0`. -/
def continuation (str : Bytes) (i : ℕ) : Option ℕ := do
  let b := (← str[i]?) ^^^ 0x80
  if b &&& 0xC0 = 0 then some b.toNat else none

/-- `Utf8::CalculateValue`: the character and the bytes it takes, or none for
`kBadChar` and one byte. -/
def calculateValue (str : Bytes) : Option (ℕ × ℕ) := do
  let first := (← str[0]?).toNat
  let second ← continuation str 1
  if first < 0xE0 then
    if first < 0xC0 then none
    else
      let codePoint := (first <<< 6 ||| second) &&& 0x7ff
      if codePoint ≤ 0x7f then none else some (codePoint, 2)
  else
    let third ← continuation str 2
    if first < 0xF0 then
      let codePoint := ((first <<< 6 ||| second) <<< 6 ||| third) &&& 0xffff
      if codePoint ≤ 0x7ff then none else some (codePoint, 3)
    else
      let fourth ← continuation str 3
      if first < 0xF8 then
        let codePoint :=
          (((first <<< 6 ||| second) <<< 6 ||| third) <<< 6 ||| fourth) &&&
            0x1fffff
        if codePoint ≤ 0xffff then none else some (codePoint, 4)
      else none

/-- `Utf8::ValueOf`. -/
def valueOf (str : Bytes) : ℕ × ℕ :=
  let first := str.headD 0
  if first ≤ 0x7f then (first.toNat, 1)
  else (calculateValue str).getD (badChar, 1)

/-- The code units of a character, with `LeadSurrogate` and
`TrailSurrogate`. -/
def utf16 (character : ℕ) : List UInt16 :=
  if character ≤ 0xffff then [UInt16.ofNat character]
  else
    [UInt16.ofNat (0xd800 + ((character - 0x10000) >>> 10 &&& 0x3ff)),
      UInt16.ofNat (0xdc00 + (character &&& 0x3ff))]

/-- The loop of `Utf8DecoderBase::Reset`; `fuel` is the length. -/
def decodeLoop : ℕ → Bytes → List UInt16
  | 0, _ => []
  | fuel + 1, stream =>
    if stream = [] then []
    else
      let (character, cursor) := valueOf stream
      utf16 character ++ decodeLoop fuel (stream.drop cursor)

/-- What `String::New` stores. -/
def utf8Decode (data : Bytes) : List UInt16 := decodeLoop data.length data

/-! ## Text -/

/-- The bytes of a text. -/
def utf8Text (text : List Char) : Bytes := text.flatMap String.utf8EncodeChar

/-- The code units of a text. -/
def utf16Text (text : List Char) : List UInt16 :=
  text.flatMap fun c => utf16 c.val.toNat

theorem toNat_ofNat {n : ℕ} (hn : n < 256) : (UInt8.ofNat n).toNat = n := by
  rw [UInt8.toNat_ofNat', Nat.mod_eq_of_lt hn]

section Characters

variable {v : ℕ}

end Characters

end RedisV8.V8
