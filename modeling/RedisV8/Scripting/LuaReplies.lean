import RedisV8.Server.Reply
import RedisV8.Util.Sds

/-!
# Replies as Lua values

`redisProtocolToLuaType` of `scripting.c` finds the end of a line with
`strchr`, which stops at a nul, and puts the elements of an array into a Lua
table, which has room for `2 ^ 27` of them.  All other replies are decoded from
their own bytes.
-/

namespace RedisV8.Scripting

open Util RedisV8.Server RedisV8.Server.Reply List

/-! ## The model -/

/-- The values that are pushed.  A number is the `lua_Number` of an integer,
`ok` and `err` are tables with that one field. -/
inductive LuaValue where
  | boolean (value : Bool)
  | number (value : ℤ)
  | string (bytes : Bytes)
  | ok (text : Bytes)
  | err (text : Bytes)
  | table (items : List LuaValue)

/-- How far a table takes the keys `1, 2, …`: as many as `2 ^ MAXBITS` of them in
its array part, and as many in its hash part. -/
def luaTableRoom : ℤ := 2 * 2 ^ 26

/-- The loop of `redisProtocolToLuaType_MultiBulk`. -/
def luaItems (parse : Bytes → Option (LuaValue × Bytes)) :
    ℕ → Bytes → Option (List LuaValue × Bytes)
  | 0, p => some ([], p)
  | count + 1, p => do
      let (item, p) ← parse p
      let (items, p) ← luaItems parse count p
      some (item :: items, p)

/-- The functions for one type of reply, with the first line up to its CR and
the bytes behind the line. -/
def luaReply (parse : Bytes → Option (LuaValue × Bytes)) (kind : UInt8)
    (text p : Bytes) : Option (LuaValue × Bytes) :=
  if kind = 43 then some (.ok text, p)
  else if kind = 45 then some (.err text, p)
  else
    (string2ll text).bind fun value =>
      if kind = 58 then some (.number value, p)
      else if value = -1 then some (.boolean false, p)
      else if kind = 36 then
        if value < 0 ∨ (p.length : ℤ) < value then none
        else some (.string (p.take value.toNat), p.drop (value.toNat + 2))
      else if kind ≠ 42 then none
      else if luaTableRoom < value then none
      else
        (luaItems parse value.toNat p).map fun (items, p) => (.table items, p)

/-- `redisProtocolToLuaType`, for replies nested less deeply than `fuel`, with
the bytes at the position it returns.  It is `none` where the source uses a
null pointer or a number that was not set, where Lua raises "table overflow",
and where it pushes nothing. -/
def redisProtocolToLuaType : ℕ → Bytes → Option (LuaValue × Bytes)
  | fuel + 1, kind :: reply =>
    (strchr charCr reply).bind fun len =>
      luaReply (redisProtocolToLuaType fuel) kind (reply.take len)
        (reply.drop (len + 2))
  | _, _ => none

/-! ## The value of a reply -/

mutual

def luaOf : Reply → LuaValue
  | .status text => .ok text
  | .error text => .err text
  | .integer value => .number value
  | .nullBulk | .nullMultiBulk => .boolean false
  | .bulk s => .string s
  | .multiBulk items => .table (luaAll items)

def luaAll : List Reply → List LuaValue
  | [] => []
  | item :: items => luaOf item :: luaAll items

end

/-- Replies with statuses and errors without CR, integers that a `lua_Number`
holds exactly, and lengths that are `long long`. -/
inductive Encoded : Reply → Prop
  | status {text : Bytes} (hcr : charCr ∉ text) : Encoded (.status text)
  | error {text : Bytes} (hcr : charCr ∉ text) : Encoded (.error text)
  | integer {value : ℤ} (hvalue : value.natAbs < 2 ^ 53) :
      Encoded (.integer value)
  | nullBulk : Encoded .nullBulk
  | bulk {s : Bytes} (hlength : s.length < 2 ^ 63) : Encoded (.bulk s)
  | nullMultiBulk : Encoded .nullMultiBulk
  | multiBulk {items : List Reply} (hlength : items.length < 2 ^ 63)
      (hitems : ∀ item ∈ items, Encoded item) : Encoded (.multiBulk items)

mutual

/-- No status or error has a nul, and every array fits a table. -/
def countable : Reply → Bool
  | .status text | .error text => 0 ∉ text
  | .multiBulk items => items.length ≤ luaTableRoom && allCountable items
  | _ => true

def allCountable : List Reply → Bool
  | [] => true
  | item :: items => countable item && allCountable items

end

/-! ## Decoding -/

section Decoding

variable {text rest : Bytes} {items : List Reply} {fuel : ℕ} {kind : UInt8}

theorem decode_line (hcr : charCr ∉ text) :
    redisProtocolToLuaType (fuel + 1) (kind :: (text ++ crlf ++ rest)) =
      if 0 ∉ text then luaReply (redisProtocolToLuaType fuel) kind text rest
      else none := by
  have hline : strchr charCr (text ++ crlf ++ rest) =
      if 0 ∉ text then some text.length else none := by
    rw [append_assoc]
    exact strchr_append_cons hcr (charLf :: rest)
  rw [redisProtocolToLuaType, hline]
  split
  · rw [Option.bind_some, drop_line, append_assoc, take_left' rfl]
  · rfl

theorem decode_number (value : ℤ) :
    redisProtocolToLuaType (fuel + 1) (kind :: (llText value ++ crlf ++ rest)) =
      luaReply (redisProtocolToLuaType fuel) kind (llText value) rest := by
  have hplain : ∀ b ∈ llText value, b = charMinus ∨ isdigit b := fun b hb => by
    rw [llText] at hb
    split at hb
    · exact (mem_cons.1 hb).imp_right isdigit_of_mem_natText
    · exact .inr (isdigit_of_mem_natText hb)
  rw [decode_line fun hb => absurd (hplain _ hb) (by decide),
    if_pos fun hb => absurd (hplain _ hb) (by decide)]

theorem luaItems_eq {parse : Bytes → Option (LuaValue × Bytes)}
    (hitem : ∀ item ∈ items, ∀ rest, parse (encode item ++ rest) =
      if countable item then some (luaOf item, rest) else none) :
    luaItems parse items.length (encodeAll items ++ rest) =
      if allCountable items then some (luaAll items, rest) else none := by
  induction items with
  | nil => rfl
  | cons item items ih =>
    have hrest := ih fun item hmem => hitem item (mem_cons_of_mem _ hmem)
    rw [length_cons, luaItems, encodeAll, append_assoc,
      hitem item mem_cons_self, allCountable]
    cases countable item with
    | false => rfl
    | true =>
      simp only [if_true, some_bind, hrest, Bool.true_and]
      cases allCountable items <;> rfl

theorem decode_eq {reply : Reply} (hencoded : Encoded reply)
    (hfuel : (encode reply).length ≤ fuel + 1) (rest : Bytes) :
    redisProtocolToLuaType (fuel + 1) (encode reply ++ rest) =
      if countable reply then some (luaOf reply, rest) else none := by
  have hread : ∀ n < 2 ^ 63, string2ll (llText ((n : ℕ) : ℤ)) = some (n : ℤ) :=
    fun n hn => string2ll_llText (by rw [llongMin]; omega)
      (by rw [llongMax]; omega)
  induction hencoded generalizing fuel rest with
  | status hcr | error hcr =>
    refine (decode_line hcr).trans ?_
    simp only [countable, decide_eq_true_eq]
    rfl
  | @integer value hvalue =>
    refine (decode_number value).trans ?_
    rw [luaReply, string2ll_llText (by rw [llongMin]; omega)
      (by rw [llongMax]; omega)]
    rfl
  | nullBulk | nullMultiBulk =>
    refine (decode_number (-1)).trans ?_
    rw [luaReply, string2ll_llText (by decide) (by decide)]
    rfl
  | @bulk s hlength =>
    have hroom : ¬ ((s.length : ℤ) < 0 ∨
        ((s ++ (crlf ++ rest)).length : ℤ) < s.length) := by
      rw [length_append]
      omega
    rw [encode, line, ← llText_natCast, append_assoc, append_assoc, cons_append,
      cons_append, decode_number, luaReply, hread _ hlength, Option.bind_some,
      if_neg (show ¬ (s.length : ℤ) = -1 by omega), if_neg hroom,
      Int.toNat_natCast, take_left' rfl, ← drop_drop, drop_left' rfl]
    rfl
  | @multiBulk items hlength hitems ih =>
    have hitem : ∀ item ∈ items, ∀ rest,
        redisProtocolToLuaType fuel (encode item ++ rest) =
          if countable item then some (luaOf item, rest) else none :=
      fun item hmem rest => by
        have hpos := length_encode_pos item
        have hle := length_encode_le_encodeAll hmem
        rw [encode, length_append, length_line] at hfuel
        obtain ⟨fuel, rfl⟩ := Nat.exists_eq_succ_of_ne_zero
          (show fuel ≠ 0 by omega)
        exact ih item hmem (by omega) rest
    rw [encode, line, ← llText_natCast, append_assoc, cons_append, cons_append,
      decode_number, luaReply, hread _ hlength, Option.bind_some,
      if_neg (show ¬ (items.length : ℤ) = -1 by omega), Int.toNat_natCast,
      luaItems_eq hitem, countable]
    by_cases hcount : luaTableRoom < items.length
    · rw [if_pos hcount, decide_eq_false hcount.not_ge]
      rfl
    · rw [if_neg hcount, decide_eq_true (not_lt.1 hcount)]
      cases allCountable items <;> rfl

end Decoding

/-- `redisProtocolToLuaType` builds the value of a reply, and returns the
position just after it, exactly if no status or error has a nul and every array
has at most `2 ^ 27` elements. -/
theorem redisProtocolToLuaType_iff {reply : Reply} (hencoded : Encoded reply)
    (rest : Bytes) :
    redisProtocolToLuaType (encode reply ++ rest).length
        (encode reply ++ rest) = some (luaOf reply, rest) ↔
      countable reply = true := by
  obtain ⟨fuel, hfuel⟩ := Nat.exists_eq_add_of_le' (length_encode_pos reply)
  rw [show (encode reply ++ rest).length = fuel + rest.length + 1 by
    rw [length_append]; omega, decode_eq hencoded (by omega)]
  cases countable reply <;> simp

/-- A string with line ends in it, next to an integer. -/
theorem redisProtocolToLuaType_binary :
    redisProtocolToLuaType
        (encode (.multiBulk [.integer 7, .bulk [13, 10, 0]]) ++ [43]).length
        (encode (.multiBulk [.integer 7, .bulk [13, 10, 0]]) ++ [43]) =
      some (.table [.number 7, .string [13, 10, 0]], [43]) := by
  refine (redisProtocolToLuaType_iff (.multiBulk (by decide) ?_) _).2 rfl
  simpa using ⟨Encoded.integer (by decide), Encoded.bulk (by decide)⟩

/-- A status with a nul in it is not read. -/
theorem redisProtocolToLuaType_nul :
    charCr ∉ ([97, 0, 98] : Bytes) ∧
      redisProtocolToLuaType (encode (.status [97, 0, 98])).length
        (encode (.status [97, 0, 98])) = none :=
  ⟨by decide, rfl⟩

end RedisV8.Scripting
