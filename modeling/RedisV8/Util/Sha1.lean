import RedisV8.Util.Repr

/-!
# SHA1

`sha1.c`, and the digest in hexadecimal of `scripting.c`.
-/

namespace RedisV8.Util

def rol (value : UInt32) (bits : ℕ) : UInt32 :=
  value <<< UInt32.ofNat bits ||| value >>> UInt32.ofNat (32 - bits)

/-- The words of a message or of a digest, the high byte first. -/
def bigEndian : Bytes → List UInt32
  | a :: b :: c :: d :: bytes =>
      (a.toUInt32 <<< 24 ||| b.toUInt32 <<< 16 ||| c.toUInt32 <<< 8 |||
        d.toUInt32) :: bigEndian bytes
  | _ => []

def wordBytes (w : UInt32) : Bytes :=
  [(w >>> 24).toUInt8, (w >>> 16).toUInt8, (w >>> 8).toUInt8, w.toUInt8]

/-- `state` of the context. -/
structure Sha1 where
  a : UInt32
  b : UInt32
  c : UInt32
  d : UInt32
  e : UInt32

/-- `R0` to `R4`; the variables change places from one round to the next. -/
def Sha1.round (s : Sha1) (i : ℕ) (word : UInt32) : Sha1 :=
  let f :=
    if i < 20 then ((s.b &&& (s.c ^^^ s.d)) ^^^ s.d) + 0x5A827999
    else if i < 40 then (s.b ^^^ s.c ^^^ s.d) + 0x6ED9EBA1
    else if i < 60 then ((s.b ||| s.c) &&& s.d ||| s.b &&& s.c) + 0x8F1BBCDC
    else (s.b ^^^ s.c ^^^ s.d) + 0xCA62C1D6
  ⟨s.e + f + word + rol s.a 5, s.a, rol s.b 30, s.c, s.d⟩

/-- `blk` puts the new word in the place of the oldest of sixteen; here the
block is kept in the order of the rounds. -/
def Sha1.rounds : ℕ → ℕ → List UInt32 → Sha1 → Sha1
  | 0, _, _, s => s
  | n + 1, i, block, s =>
    let next := rol (block.getD 13 0 ^^^ block.getD 8 0 ^^^ block.getD 2 0 ^^^
      block.getD 0 0) 1
    rounds n (i + 1) (block.tail ++ [next]) (s.round i (block.getD 0 0))

def sha1Transform (s : Sha1) (block : List UInt32) : Sha1 :=
  let r := s.rounds 80 0 block
  ⟨s.a + r.a, s.b + r.b, s.c + r.c, s.d + r.d, s.e + r.e⟩

/-- The bytes that `SHA1Final` adds: a one bit, zeros up to eight bytes before
the end of a block, and the number of bits. -/
def sha1Padding (length : ℕ) : Bytes :=
  128 :: List.replicate ((119 - length % 64) % 64) 0 ++
    wordBytes (UInt32.ofNat (8 * length / 2 ^ 32)) ++
    wordBytes (UInt32.ofNat (8 * length))

def sha1 (message : Bytes) : Sha1 :=
  let words := bigEndian (message ++ sha1Padding message.length)
  (words.toChunks 16).foldl sha1Transform
    ⟨0x67452301, 0xEFCDAB89, 0x98BADCFE, 0x10325476, 0xC3D2E1F0⟩

def hexByte (b : UInt8) : Bytes :=
  [hexChar (b.toNat / 16), hexChar (b.toNat % 16)]

def sha1hex (script : Bytes) : Bytes :=
  let s := sha1 script
  ([s.a, s.b, s.c, s.d, s.e].flatMap wordBytes).flatMap hexByte

example : sha1hex (ascii "abc") =
    ascii "a9993e364706816aba3e25717850c26c9cd0d89d" := by decide +kernel

theorem length_sha1hex (script : Bytes) : (sha1hex script).length = 40 := rfl

theorem ne_zero_of_mem_sha1hex {script : Bytes} {b : UInt8}
    (h : b ∈ sha1hex script) : b ≠ 0 := by
  have hchar : ∀ n < 16, hexChar n ≠ 0 := by decide
  obtain ⟨byte, -, hbyte⟩ := List.mem_flatMap.mp h
  have hlt := byte.toNat_lt
  rcases List.mem_pair.mp hbyte with rfl | rfl
  · exact hchar _ (by omega)
  · exact hchar _ (by omega)

end RedisV8.Util
