import RedisV8.Util.Sds
import RedisV8.V8.ReplyParser

/-!
# Which replies reach JavaScript intact

Statuses, integers and strings of 4096 bytes or more are returned without
moving the read cursor, so that whatever is read next is read from the same
bytes.  All other replies are decoded from their own bytes.
-/

namespace RedisV8.V8

open Util Server Server.Reply List

variable {rest s text : Bytes} {items : List Reply} {p : Parser}

/-! ## The value of a reply -/

/-- The value has the shape and the contents of the reply: `true` and `false`
are what statuses and errors are mapped to, and a string is the text that its
bytes are in UTF-8. -/
inductive Shows : Reply → JsValue → Prop
  | status (text : Bytes) : Shows (.status text) (.boolean true)
  | error (text : Bytes) : Shows (.error text) (.boolean false)
  | integer (value : ℤ) : Shows (.integer value) (.number value)
  | nullBulk : Shows .nullBulk .null
  | bulk (text : List Char) :
      Shows (.bulk (utf8Text text)) (.string (utf16Text text))
  | nullMultiBulk : Shows .nullMultiBulk .null
  | multiBulk {items : List Reply} {values : List JsValue}
      (hitems : Forall₂ Shows items values) :
      Shows (.multiBulk items) (.array values)

theorem shows_multiBulk_iff {values : List JsValue} :
    Shows (.multiBulk items) (.array values) ↔ Forall₂ Shows items values :=
  ⟨fun h => by cases h with | multiBulk hitems => exact hitems, .multiBulk⟩

/-- Replies made of short texts in UTF-8, null bulks and arrays. -/
inductive Decodable : Reply → Prop
  | nullBulk : Decodable .nullBulk
  | bulk {text : List Char} (hshort : (utf8Text text).length < bufferSize) :
      Decodable (.bulk (utf8Text text))
  | multiBulk {items : List Reply} (hitems : ∀ item ∈ items, Decodable item) :
      Decodable (.multiBulk items)

section Numbers

theorem atoll_llText {value : ℤ} (hmin : llongMin ≤ value)
    (hmax : value ≤ llongMax) (rest : Bytes) :
    atoll (llText value ++ crlf ++ rest) = value := by
  rw [atoll, append_assoc, strtoll_llText hmin hmax]
  rfl

theorem atoi_natText {n : ℕ} (hn : n < 2 ^ 31) (rest : Bytes) :
    atoi (natText n ++ crlf ++ rest) = n := by
  have hmin : llongMin ≤ (n : ℤ) := by rw [llongMin]; omega
  have hmax : (n : ℤ) ≤ llongMax := by rw [llongMax]; omega
  have hread := atoll_llText hmin hmax rest
  rw [llText_natCast] at hread
  rw [atoi, hread, toInt_eq (by omega) (by omega)]

end Numbers

/-! ## The cursor -/

section Cursor

variable (junk : ℕ → UInt8)

/-- Parsing from here does not move the cursor. -/
def Stuck (p : Parser) : Prop :=
  ∀ fuel, parseResponse junk fuel p = none ∨
    ∃ value, parseResponse junk fuel p = some (value, p)

/-- The static buffer holds a string. -/
def Terminated (p : Parser) : Prop :=
  p.bufForString.length = bufferSize ∧ 0 ∈ p.bufForString

/-- What can come out of parsing a reply: a crash, a cursor that is stuck
before the end of the reply, or the cursor right behind it. -/
inductive Outcome {α : Type} (rest : Bytes) (good : Prop) (right : α → Prop) :
    Option (α × Parser) → Prop
  | crash (hbad : ¬ good) : Outcome rest good right none
  | stuck {value : α} {p : Parser} (hbad : ¬ good) (hstuck : Stuck junk p)
      (hbefore : rest.length < p.redisReply.length) :
      Outcome rest good right (some (value, p))
  | moved {value : α} {p : Parser} (hcursor : p.redisReply = rest)
      (hbuffer : Terminated p) (hvalue : right value ↔ good) :
      Outcome rest good right (some (value, p))

variable {junk}

theorem Outcome.array {result : Option (List JsValue × Parser)}
    (hall : Outcome junk rest (∀ item ∈ items, Decodable item)
      (Forall₂ Shows items) result) :
    Outcome junk rest (Decodable (.multiBulk items)) (Shows (.multiBulk items))
      (result.map fun result => (.array result.1, result.2)) := by
  have hiff : Decodable (.multiBulk items) ↔ ∀ item ∈ items, Decodable item :=
    ⟨fun h => by cases h with | multiBulk hitems => exact hitems, .multiBulk⟩
  rw [hiff]
  cases hall with
  | crash hbad => exact .crash hbad
  | stuck hbad hstuck hbefore => exact .stuck hbad hstuck hbefore
  | moved hcursor hbuffer hvalue =>
    refine .moved hcursor hbuffer ?_
    rw [shows_multiBulk_iff, hvalue]

end Cursor

/-! ## Decoding of whole replies -/

/-- The parser when the server starts, with a reply to read. -/
def Parser.init (redisReply : Bytes) : Parser where
  redisReply := redisReply
  bufForString := List.replicate bufferSize 0
  lastError := List.replicate bufferSize 0

end RedisV8.V8
