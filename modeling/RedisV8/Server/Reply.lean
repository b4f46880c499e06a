import RedisV8.Util.Cstring

/-!
# Replies

What a command answers, before and after it is written in the Redis protocol.
The texts of the shared replies are those of `createSharedObjects`.
-/

namespace RedisV8.Server

open Util

inductive Reply where
  | status (text : Bytes)
  | error (text : Bytes)
  | integer (value : ℤ)
  | nullBulk
  | bulk (s : Bytes)
  | nullMultiBulk
  | multiBulk (items : List Reply)

namespace Reply

def crlf : Bytes := [13, 10]

/-- One line of the protocol: a type character, a text and CRLF. -/
def line (kind : Char) (text : Bytes) : Bytes :=
  UInt8.ofNat kind.toNat :: text ++ crlf

mutual

/-- The bytes the `addReply` family writes for a reply. -/
def encode : Reply → Bytes
  | status text => line '+' text
  | error text => line '-' text
  | integer value => line ':' (llText value)
  | nullBulk => line '$' (ascii "-1")
  | bulk s => line '$' (natText s.length) ++ s ++ crlf
  | nullMultiBulk => line '*' (ascii "-1")
  | multiBulk items => line '*' (natText items.length) ++ encodeAll items

def encodeAll : List Reply → Bytes
  | [] => []
  | item :: items => encode item ++ encodeAll items

end

section Lengths

theorem length_line (kind : Char) (text : Bytes) :
    (line kind text).length = text.length + 3 := by
  simp [line, crlf]

theorem drop_line (text rest : Bytes) :
    (text ++ crlf ++ rest).drop (text.length + 2) = rest := by
  rw [List.append_assoc, ← List.drop_drop, List.drop_left' rfl]
  rfl

theorem length_encode_pos (reply : Reply) : 0 < (encode reply).length := by
  cases reply <;> simp [encode, length_line]

theorem length_encode_le_encodeAll {items : List Reply} {item : Reply}
    (hmem : item ∈ items) :
    (encode item).length ≤ (encodeAll items).length := by
  induction items with
  | nil => cases hmem
  | cons first items ih =>
    rw [encodeAll, List.length_append]
    obtain rfl | hmem := List.mem_cons.1 hmem
    · omega
    · have := ih hmem
      omega

end Lengths

def ok : Reply := status (ascii "OK")
def czero : Reply := integer 0
def cone : Reply := integer 1
def cnegone : Reply := integer (-1)
def emptyMultiBulk : Reply := multiBulk []

def wrongtypeerr : Reply := error
  (ascii "WRONGTYPE Operation against a key holding the wrong kind of value")
def nokeyerr : Reply := error (ascii "ERR no such key")
def syntaxerr : Reply := error (ascii "ERR syntax error")
def outofrangeerr : Reply := error (ascii "ERR index out of range")

/-- The reply of `getLongLongFromObjectOrReply` without a message. -/
def notAnInteger : Reply :=
  error (ascii "ERR value is not an integer or out of range")

end Reply

/-- `getLongFromObjectOrReply`, where `long` has 64 bits. -/
def getLongFromObjectOrReply (s : Bytes) : Except Reply ℤ :=
  match getLongLongFromObject s with
  | none => .error Reply.notAnInteger
  | some value => .ok value

end RedisV8.Server
