import RedisV8.Server.Reply
import RedisV8.V8.Unicode

/-!
# The reply parser of the JavaScript engine

`v8redisparser.cc` turns the reply of a command into a JavaScript value.  Its
functions share a read cursor, `redisReply`, and a static buffer of 4096 bytes
for short strings.  A function that does not store its position back leaves
the cursor where it was.
-/

namespace RedisV8.V8

open Util Server

/-- Size of `bufForString` and of `lastError`. -/
def bufferSize : ℕ := 4096

/-- The values the parser builds.  A string is given by its code units. -/
inductive JsValue where
  | undefined
  | null
  | boolean (value : Bool)
  | number (value : ℤ)
  | string (units : List UInt16)
  | array (items : List JsValue)

/-- The globals of the parser; `redisReply` is the reply from the cursor to
its end. -/
structure Parser where
  redisReply : Bytes
  bufForString : Bytes
  lastError : Bytes
  deriving DecidableEq, Repr

/-- `strstr(s,"\r\n")-s`; where the line end is missing the source goes on with
a difference of unrelated pointers. -/
def strstrCrlf : Bytes → Option ℕ
  | [] => none
  | b :: s =>
    if b = 13 ∧ s.head? = some 10 then some 0
    else if b = 0 then none
    else (strstrCrlf s).map (· + 1)

/-- `atoll`. -/
def atoll (s : Bytes) : ℤ := (strtoll s).value

/-- `atoi`: the low half of what `strtol` returns. -/
def atoi (s : Bytes) : ℤ := toInt (atoll s)

/-- `strlen` of a static buffer; without a nul it would run past the end. -/
def strlen (buffer : Bytes) : Option ℕ :=
  if 0 ∈ buffer then some (buffer.takeWhile (· ≠ 0)).length else none

section Parsing

-- what lies in memory behind `bufForString`
variable (junk : ℕ → UInt8)

/-- The numbers made of `bufForString[0..len-1]`, which may lie behind it. -/
def bufferBytes (buffer : Bytes) (len : ℕ) : List JsValue :=
  (List.range len).map fun i => .number (buffer.getD i (junk i)).toNat

/-- `parse_string`, with the text after the `$`. -/
def parseString (p : Parser) (replyPtr : Bytes) : Option (JsValue × Parser) := do
  let length := atoi replyPtr
  let specialMinusOne := length = -1
  let strlength := if specialMinusOne then 0 else length
  let len ← strstrCrlf replyPtr
  let replyPtr := replyPtr.drop (if specialMinusOne then len else len + 2)
  -- `memcpy` of a negative size, or of bytes that are not there
  if strlength < 0 ∨ (replyPtr.length : ℤ) < strlength then none
  else
    let strlength := strlength.toNat
    let text := replyPtr.take strlength
    if strlength < bufferSize then
      let p := { p with
        redisReply := replyPtr.drop (strlength + 2)
        bufForString := text ++ 0 :: p.bufForString.drop (strlength + 1) }
      some (if specialMinusOne then .null else .string (utf8Decode text), p)
    else
      -- the long string is in `buff`, but the check looks at `bufForString`
      if (← strlen p.bufForString) ≠ strlength then
        some (.array (bufferBytes junk p.bufForString strlength), p)
      else
        some (.string (utf8Decode (text.takeWhile (· ≠ 0))),
          { p with redisReply := replyPtr.drop (strlength + 2) })

/-- `parse_error`, with the text after the `-`. -/
def parseError (p : Parser) (replyPtr : Bytes) : Option (JsValue × Parser) := do
  let len ← strstrCrlf replyPtr
  -- `strncpy` behind the end of `lastError`
  if bufferSize < len then none
  else
    some (.boolean false, { p with
      redisReply := replyPtr.drop (len + 2)
      lastError := replyPtr.take len ++ List.replicate (bufferSize - len) 0 })

/-- The `:` case of `parse_response`.  Numbers that a double cannot hold are
printed into 20 bytes; `Integer::New` takes 32 bits. -/
def parseInteger (p : Parser) (replyPtr : Bytes) :
    Option (JsValue × Parser) :=
  let lvalue := atoll replyPtr
  if 9007199254740992 < lvalue ∨ lvalue < -9007199254740992 then
    if 20 ≤ (llText lvalue).length then none
    else some (.string (utf8Decode (llText lvalue)), p)
  else some (.number (lvalue.bmod (2 ^ 32)), p)

/-- The loop of `parse_bulk`. -/
def parseItems (parse : Parser → Option (JsValue × Parser)) :
    ℕ → Parser → Option (List JsValue × Parser)
  | 0, p => some ([], p)
  | count + 1, p => do
      let (item, p) ← parse p
      let (items, p) ← parseItems parse count p
      some (item :: items, p)

/-- `parse_response`, for replies nested less deeply than `fuel`. -/
def parseResponse : ℕ → Parser → Option (JsValue × Parser)
  | 0, _ => none
  | fuel + 1, p =>
    match p.redisReply with
    | [] => some (.undefined, p)
    | kind :: replyPtr =>
      if kind = 43 then some (.boolean true, p)
      else if kind = 45 then parseError p replyPtr
      else if kind = 58 then parseInteger p replyPtr
      else if kind = 36 then parseString junk p replyPtr
      else if kind = 42 then do
        let arrLength := atoi replyPtr
        let len ← strstrCrlf replyPtr
        let p := { p with redisReply := replyPtr.drop (len + 2) }
        let (items, p) ←
          parseItems (parseResponse fuel) arrLength.toNat p
        some (.array items, p)
      else some (.undefined, p)

/-- `parse_response` on a reply: every level of nesting takes a byte. -/
def parse (p : Parser) : Option (JsValue × Parser) :=
  parseResponse junk (p.redisReply.length + 1) p

end Parsing

end RedisV8.V8
