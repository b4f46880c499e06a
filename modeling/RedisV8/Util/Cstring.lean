import RedisV8.Util.Decimal

/-!
# String functions of the C library

Names and options are compared without regard to case.  Numbers in command
arguments and in the headers of the append only file go through `strtoll` in
base ten: it reads the longest numeric start of the text and stays silent
about what follows, so that `eptr` has to be inspected by the caller.
-/

namespace RedisV8.Util

open List

variable {digit : ℕ} {rest : Bytes} {value : ℤ}

/-- The bytes of a C string literal. -/
def ascii (text : String) : Bytes :=
  text.toList.map fun c => UInt8.ofNat c.toNat

def tolower (c : UInt8) : UInt8 :=
  if 65 ≤ c ∧ c ≤ 90 then c + 32 else c

/-- `!strcasecmp(s,text)` for a literal in lower case. -/
def isText (text : String) (s : Bytes) : Bool :=
  (s.takeWhile (· ≠ 0)).map tolower == ascii text

def charPlus : UInt8 := 43

/-- `isspace` in the C locale. -/
def isspace (c : UInt8) : Bool := c == 32 || (9 ≤ c && c ≤ 13)

def isdigit (c : UInt8) : Bool := charZero ≤ c && c ≤ charNine

/-- The value, the text from `eptr` on, and whether `errno` is `ERANGE`. -/
structure Strtoll where
  value : ℤ
  eptr : Bytes
  erange : Bool
  deriving DecidableEq, Repr

def scanDigits : ℕ → Bytes → ℕ × Bytes
  | v, [] => (v, [])
  | v, c :: rest =>
    if isdigit c then scanDigits (v * 10 + (c - charZero).toNat) rest
    else (v, c :: rest)

def scanSign (s : Bytes) : Bool × Bytes :=
  match s with
  | [] => (false, [])
  | c :: rest =>
    if c = charMinus then (true, rest)
    else if c = charPlus then (false, rest)
    else (false, c :: rest)

def strtoll (s : Bytes) : Strtoll :=
  let (negative, digits) := scanSign (s.dropWhile isspace)
  if digits.head?.any isdigit then
    let (v, eptr) := scanDigits 0 digits
    let value : ℤ := if negative then -v else v
    if value < llongMin then ⟨llongMin, eptr, true⟩
    else if llongMax < value then ⟨llongMax, eptr, true⟩
    else ⟨value, eptr, false⟩
  else ⟨0, s, false⟩

/-- The value is cut to an `int`. -/
def atoi (s : Bytes) : ℤ := Int.bmod (strtoll s).value (2 ^ 32)

def strtoull (s : Bytes) : ℕ :=
  let (negative, digits) := scanSign (s.dropWhile isspace)
  if digits.head?.any isdigit then
    let v := (scanDigits 0 digits).1
    if ullongMax < v then ullongMax
    else if negative then (2 ^ 64 - v) % 2 ^ 64
    else v
  else 0

/-- `getLongLongFromObject` for a string that is not integer encoded.  The
text ends at its first nul, so bytes after one are ignored. -/
def getLongLongFromObject (s : Bytes) : Option ℤ :=
  let parsed := strtoll s
  if s.head?.any isspace || parsed.eptr.head?.any (· ≠ 0) || parsed.erange
  then none
  else some parsed.value

/-- `selectDb`, whose argument is an `int`. -/
def selectDb (dbnum : ℕ) (id : ℤ) : Option ℕ :=
  let id := toInt id
  if id < 0 ∨ (dbnum : ℤ) ≤ id then none else some id.toNat

/-- The database that `SELECT id` leaves a client of database `db` in. -/
def selectedDb (dbnum db : ℕ) (id : Bytes) : ℕ :=
  ((getLongLongFromObject id).bind (selectDb dbnum)).getD db

theorem isdigit_digitChar (hdigit : digit < 10) :
    isdigit (digitChar digit) = true := by
  obtain ⟨hlow, hhigh, _⟩ := digitChar_spec hdigit
  simp [isdigit, hlow, hhigh]

theorem scanDigits_digitChar {v : ℕ} (hdigit : digit < 10) (rest : Bytes) :
    scanDigits v (digitChar digit :: rest) =
      scanDigits (v * 10 + digit) rest := by
  obtain ⟨_, _, hsub⟩ := digitChar_spec hdigit
  rw [scanDigits, if_pos (isdigit_digitChar hdigit), hsub]

theorem scanDigits_stop (hstop : rest.head?.any isdigit = false) (v : ℕ) :
    scanDigits v rest = (v, rest) := by
  cases rest with
  | nil => rfl
  | cons c rest =>
    have hdigit : isdigit c = false := by simpa using hstop
    simp [scanDigits, hdigit]

/-- What a number in base ten starts with, and what reading it gives. -/
theorem scanDigits_natText {w : ℕ} (hw : w < 10 ^ 20) (rest : Bytes) :
    (∃ digit tail, digit < 10 ∧ natText w = digitChar digit :: tail) ∧
      scanDigits 0 (natText w ++ rest) = scanDigits w rest := by
  induction w using Nat.strong_induction_on generalizing rest with
  | _ w ih =>
    by_cases hlt : w < 10
    · rw [natText_of_lt hlt, singleton_append,
        scanDigits_digitChar hlt, Nat.zero_mul, Nat.zero_add]
      exact ⟨⟨w, [], hlt, rfl⟩, rfl⟩
    have hsplit : w / 10 * 10 + w % 10 = w := by omega
    have hrem : w % 10 < 10 := Nat.mod_lt _ (by omega)
    obtain ⟨⟨digit, tail, hdigit, htext⟩, hscan⟩ :=
      ih (w / 10) (by omega) (by omega) (digitChar (w % 10) :: rest)
    have hsnoc : natText w = natText (w / 10) ++ [digitChar (w % 10)] := by
      rw [← natText_snoc (by omega) hrem (by omega), hsplit]
    rw [scanDigits_digitChar hrem, hsplit] at hscan
    constructor
    · exact ⟨digit, tail ++ [digitChar (w % 10)], hdigit,
        by rw [hsnoc, htext, cons_append]⟩
    · rw [hsnoc, append_assoc, singleton_append, hscan]

theorem llText_natCast (n : ℕ) : llText (n : ℤ) = natText n := by
  rw [llText, if_neg (by omega), Int.natAbs_natCast]

theorem nodup_natText (n : ℕ) (hn : n ≤ 2 ^ 63) :
    ((List.range n).map natText).Nodup := by
  refine List.Nodup.map_on ?_ nodup_range
  intro i hi j hj heq
  rw [mem_range] at hi hj
  rw [← llText_natCast, ← llText_natCast] at heq
  have hij := llText_injective (by rw [llongMin]; omega)
    (by rw [llongMax]; omega) (by rw [llongMin]; omega)
    (by rw [llongMax]; omega) heq
  omega

theorem digitChar_plain (hdigit : digit < 10) :
    isspace (digitChar digit) = false ∧ digitChar digit ≠ charMinus ∧
      digitChar digit ≠ charPlus := by
  interval_cases digit <;> decide

theorem scanSign_llText (hbound : value.natAbs < 10 ^ 20) (rest : Bytes) :
    scanSign ((llText value ++ rest).dropWhile isspace) =
      (decide (value < 0), natText value.natAbs ++ rest) := by
  obtain ⟨⟨digit, tail, hdigit, htext⟩, _⟩ := scanDigits_natText hbound rest
  obtain ⟨hspace, hminus, hplus⟩ := digitChar_plain hdigit
  by_cases hneg : value < 0
  · have hsign : isspace charMinus = false := by decide
    simp [llText, hneg, scanSign, hsign]
  · simp [llText, hneg, htext, scanSign, hspace, hminus, hplus]

/-- The parser undoes the printer, up to the first byte that is no digit. -/
theorem strtoll_llText (hmin : llongMin ≤ value) (hmax : value ≤ llongMax)
    (hstop : rest.head?.any isdigit = false) :
    strtoll (llText value ++ rest) = ⟨value, rest, false⟩ := by
  have hbound : value.natAbs < 10 ^ 20 := by
    simp only [llongMin, llongMax] at hmin hmax
    omega
  obtain ⟨⟨digit, tail, hdigit, htext⟩, hscan⟩ :=
    scanDigits_natText hbound rest
  have hhead : (natText value.natAbs ++ rest).head?.any isdigit = true := by
    simp [htext, isdigit_digitChar hdigit]
  have hvalue : (if decide (value < 0) = true then -(value.natAbs : ℤ)
      else (value.natAbs : ℤ)) = value := by
    split_ifs with hneg
    · have := of_decide_eq_true hneg
      omega
    · have : ¬ value < 0 := fun h => hneg (decide_eq_true h)
      omega
  rw [strtoll, scanSign_llText hbound]
  simp only [hhead, if_true, hscan, scanDigits_stop hstop, hvalue]
  rw [if_neg (not_lt.2 hmin), if_neg (not_lt.2 hmax)]

theorem atoi_llText (hmin : -2 ^ 31 ≤ value) (hmax : value < 2 ^ 31)
    (hstop : rest.head?.any isdigit = false) :
    atoi (llText value ++ rest) = value := by
  rw [atoi, strtoll_llText (by simp only [llongMin]; omega)
    (by simp only [llongMax]; omega) hstop]
  show Int.bmod value (2 ^ 32) = value
  exact Int.bmod_eq_of_le (by omega) (by omega)

theorem strtoull_natText {value : ℕ} (hmax : value < 2 ^ 64) :
    strtoull (natText value) = value := by
  have hbound : value < 10 ^ 20 := by omega
  have hsign : scanSign ((llText (value : ℤ) ++ []).dropWhile isspace) = _ :=
    scanSign_llText (by omega) []
  have hnil : scanDigits value [] = (value, []) := rfl
  obtain ⟨⟨digit, tail, hdigit, htext⟩, hscan⟩ := scanDigits_natText hbound []
  have hhead : (natText value).head?.any isdigit = true := by
    simp [htext, isdigit_digitChar hdigit]
  have hneg : decide ((value : ℤ) < 0) = false := by simp
  have hle : ¬ ullongMax < value := by
    simp only [ullongMax]
    omega
  rw [llText_natCast, append_nil, hneg, Int.natAbs_natCast, append_nil] at hsign
  rw [append_nil, hnil] at hscan
  rw [strtoull, hsign]
  simp only [hhead, hscan, hle, if_true, if_false, Bool.false_eq_true]

theorem getLongLongFromObject_llText (hmin : llongMin ≤ value)
    (hmax : value ≤ llongMax) :
    getLongLongFromObject (llText value) = some value := by
  have hparse : strtoll (llText value ++ []) = ⟨value, [], false⟩ :=
    strtoll_llText hmin hmax rfl
  have hbound : value.natAbs < 10 ^ 20 := by
    simp only [llongMin, llongMax] at hmin hmax
    omega
  obtain ⟨⟨digit, tail, hdigit, htext⟩, _⟩ := scanDigits_natText hbound []
  have hspace : (llText value).head?.any isspace = false := by
    unfold llText
    split_ifs
    · rfl
    · simp [htext, (digitChar_plain hdigit).1]
  rw [append_nil] at hparse
  simp [getLongLongFromObject, hparse, hspace]

theorem selectedDb_llText {dbnum id : ℕ} (hdbnum : dbnum ≤ 2 ^ 31)
    (hid : id < dbnum) (db : ℕ) : selectedDb dbnum db (llText id) = id := by
  have hmin : llongMin ≤ (id : ℤ) := by rw [llongMin]; omega
  have hmax : (id : ℤ) ≤ llongMax := by rw [llongMax]; omega
  rw [selectedDb, getLongLongFromObject_llText hmin hmax, Option.bind_some,
    selectDb, toInt_eq (by omega) (by omega)]
  rw [if_neg (by omega), Option.getD_some, Int.toNat_natCast]

theorem strtoll_bounds (s : Bytes) :
    llongMin ≤ (strtoll s).value ∧ (strtoll s).value ≤ llongMax := by
  rw [strtoll]
  split
  split
  · split
    dsimp only
    split_ifs <;> simp only [llongMin, llongMax] at * <;> omega
  · simp [llongMin, llongMax]

theorem getLongLongFromObject_bounds {s : Bytes}
    (hvalue : getLongLongFromObject s = some value) :
    llongMin ≤ value ∧ value ≤ llongMax := by
  rw [getLongLongFromObject] at hvalue
  split at hvalue
  · cases hvalue
  · rw [← Option.some.inj hvalue]
    exact strtoll_bounds s

/-! ## Digits -/

theorem isdigit_of_mem_digitLoop {fuel v : ℕ} {acc : Bytes} {b : UInt8}
    (hb : b ∈ digitLoop fuel v acc) : b ∈ acc ∨ isdigit b = true := by
  induction fuel generalizing v acc with
  | zero => exact Or.inl hb
  | succ fuel ih =>
    have hdigit := isdigit_digitChar (Nat.mod_lt v (by decide : 0 < 10))
    rw [digitLoop_succ] at hb
    split at hb
    · obtain rfl | hmem := mem_cons.1 hb
      · exact Or.inr hdigit
      · exact Or.inl hmem
    obtain hmem | hmem := ih hb
    · obtain rfl | hmem := mem_cons.1 hmem
      · exact Or.inr hdigit
      · exact Or.inl hmem
    · exact Or.inr hmem

theorem isdigit_of_mem_natText {n : ℕ} {b : UInt8} (hb : b ∈ natText n) :
    isdigit b = true := by
  obtain hmem | hdigit := isdigit_of_mem_digitLoop hb
  · cases hmem
  · exact hdigit

theorem length_digitLoop_le (fuel v : ℕ) (acc : Bytes) :
    (digitLoop fuel v acc).length ≤ fuel + acc.length := by
  induction fuel generalizing v acc with
  | zero => simp [digitLoop]
  | succ fuel ih =>
    rw [digitLoop_succ]
    split
    · simp only [length_cons]
      omega
    · have hrest := ih (v / 10) (digitChar (v % 10) :: acc)
      simp only [length_cons] at hrest
      omega

theorem length_natText_le (n : ℕ) : (natText n).length ≤ 20 :=
  length_digitLoop_le 20 n []

theorem length_llText_le (value : ℤ) : (llText value).length ≤ 21 := by
  have hnat := length_natText_le value.natAbs
  rw [llText]
  split
  · exact Nat.succ_le_succ hnat
  · exact hnat.trans (Nat.le_succ _)

end RedisV8.Util
