import RedisV8.Lib.Bytes

/-!
# Decimal conversion of signed 64-bit integers

`ll2string` and `string2ll` of `util.c`.  The parser accepts exactly the
strings that the printer produces, so a string replaced by the integer it
denotes can always be recovered.
-/

namespace RedisV8.Util

variable {digit v w : ℕ} {rest s : Bytes} {value : ℤ}

def charZero : UInt8 := 48
def charNine : UInt8 := 57
def charMinus : UInt8 := 45

def llongMin : ℤ := -2 ^ 63
def llongMax : ℤ := 2 ^ 63 - 1
def ullongMax : ℕ := 2 ^ 64 - 1

/-! ## Casts -/

def toInt (n : ℤ) : ℤ := n.bmod (2 ^ 32)
def toUnsigned (n : ℤ) : ℕ := (n % 2 ^ 32).toNat
def toLongLong (n : ℤ) : ℤ := n.bmod (2 ^ 64)

theorem toInt_eq {n : ℤ} (hlow : -2 ^ 31 ≤ n) (hhigh : n < 2 ^ 31) :
    toInt n = n :=
  Int.bmod_eq_of_le (by omega) (by omega)

theorem toLongLong_eq {n : ℤ} (hmin : llongMin ≤ n) (hmax : n ≤ llongMax) :
    toLongLong n = n := by
  rw [llongMin] at hmin
  rw [llongMax] at hmax
  exact Int.bmod_eq_of_le (by omega) (by omega)

/-! ## Printing and parsing -/

def digitChar (digit : ℕ) : UInt8 := UInt8.ofNat (48 + digit)

/-- The `do ... while(v)` loop, writing from the last character backwards. -/
def digitLoop : ℕ → ℕ → Bytes → Bytes
  | 0, _, acc => acc
  | fuel + 1, v, acc =>
    let acc := digitChar (v % 10) :: acc
    if v / 10 = 0 then acc else digitLoop fuel (v / 10) acc

/-- `v` holds at most twenty decimal digits. -/
def natText (v : ℕ) : Bytes := digitLoop 20 v []

def llText (value : ℤ) : Bytes :=
  if value < 0 then charMinus :: natText value.natAbs else natText value.natAbs

/-- `ll2string(s,len,value)`: the characters left in `s`, without the final
nul. -/
def ll2string (len : ℕ) (value : ℤ) : Bytes :=
  if len = 0 then [] else (llText value).take (len - 1)

/-- The `while` loop of `string2ll`; leftover bytes make the parse fail. -/
def digitsFrom : ℕ → Bytes → Option ℕ
  | v, [] => some v
  | v, c :: rest =>
    if charZero ≤ c ∧ c ≤ charNine then
      if ullongMax / 10 < v then none
      else if ullongMax - (c - charZero).toNat < v * 10 then none
      else digitsFrom (v * 10 + (c - charZero).toNat) rest
    else none

def string2llUnsigned (s : Bytes) : Option ℕ :=
  match s with
  | [] => none
  | c :: rest =>
    if 49 ≤ c ∧ c ≤ charNine then digitsFrom (c - charZero).toNat rest
    else none

def string2ll (s : Bytes) : Option ℤ :=
  if s = [charZero] then some 0
  else
    match s with
    | [] => none
    | c :: rest =>
      if c = charMinus then do
        let v ← string2llUnsigned rest
        if 2 ^ 63 < v then none else some (-v)
      else do
        let v ← string2llUnsigned s
        if llongMax < v then none else some v

section Digits

theorem digitLoop_succ (fuel v : ℕ) (acc : Bytes) :
    digitLoop (fuel + 1) v acc =
      if v / 10 = 0 then digitChar (v % 10) :: acc
      else digitLoop fuel (v / 10) (digitChar (v % 10) :: acc) := rfl

theorem digitLoop_append (fuel v : ℕ) (acc : Bytes) :
    digitLoop fuel v acc = digitLoop fuel v [] ++ acc := by
  induction fuel generalizing v acc with
  | zero => rfl
  | succ fuel ih =>
    rw [digitLoop_succ, digitLoop_succ]
    split
    · rfl
    · rw [ih, ih (v / 10) [digitChar (v % 10)]]
      simp

/-- Once there is room for every digit the loop bound does not matter. -/
theorem digitLoop_fuel {fuel fuel' : ℕ} (acc : Bytes)
    (hfuel : v < 10 ^ (fuel + 1)) (hfuel' : v < 10 ^ (fuel' + 1)) :
    digitLoop (fuel + 1) v acc = digitLoop (fuel' + 1) v acc := by
  induction fuel generalizing fuel' v acc with
  | zero =>
    have hzero : v / 10 = 0 := Nat.div_eq_of_lt (by simpa using hfuel)
    simp [digitLoop, hzero]
  | succ fuel ih =>
    rw [digitLoop_succ (fuel + 1), digitLoop_succ fuel']
    split
    · rfl
    rename_i hne
    cases fuel' with
    | zero =>
      exact absurd (Nat.div_eq_of_lt (by simpa using hfuel')) hne
    | succ fuel' =>
      apply ih
      · rw [Nat.div_lt_iff_lt_mul (by omega), ← pow_succ]
        exact hfuel
      · rw [Nat.div_lt_iff_lt_mul (by omega), ← pow_succ]
        exact hfuel'

theorem natText_of_lt (hdigit : digit < 10) :
    natText digit = [digitChar digit] := by
  have hzero : digit / 10 = 0 := Nat.div_eq_of_lt hdigit
  simp [natText, digitLoop, hzero, Nat.mod_eq_of_lt hdigit]

theorem natText_snoc (hv : 0 < v) (hdigit : digit < 10)
    (hlt : v * 10 + digit < 10 ^ 20) :
    natText (v * 10 + digit) = natText v ++ [digitChar digit] := by
  have hquot : (v * 10 + digit) / 10 = v := by omega
  have hrem : (v * 10 + digit) % 10 = digit := by omega
  rw [natText, digitLoop_succ, hquot, hrem, if_neg (by omega), digitLoop_append, natText]
  congr 1
  exact digitLoop_fuel [] (by omega) (by omega)

end Digits

section Exact

theorem digit_spec {c : UInt8} (hdigit : charZero ≤ c ∧ c ≤ charNine) :
    (c - charZero).toNat < 10 ∧ digitChar (c - charZero).toNat = c := by
  obtain ⟨hlow, hhigh⟩ := hdigit
  have hsub := UInt8.toNat_sub_of_le c charZero hlow
  have hlow' : 48 ≤ c.toNat := UInt8.le_iff_toNat_le.1 hlow
  have hhigh' : c.toNat ≤ 57 := UInt8.le_iff_toNat_le.1 hhigh
  have hzero : charZero.toNat = 48 := rfl
  refine ⟨by omega, ?_⟩
  rw [digitChar, hsub, hzero, Nat.add_sub_cancel' hlow', UInt8.ofNat_toNat]

theorem digitChar_spec (hdigit : digit < 10) :
    charZero ≤ digitChar digit ∧ digitChar digit ≤ charNine ∧
      (digitChar digit - charZero).toNat = digit := by
  interval_cases digit <;> decide

theorem digitsFrom_sound (hv : 0 < v) (hmax : v ≤ ullongMax)
    (hparse : digitsFrom v rest = some w) :
    natText v ++ rest = natText w ∧ 0 < w ∧ w ≤ ullongMax := by
  induction rest generalizing v with
  | nil =>
    cases hparse
    exact ⟨List.append_nil _, hv, hmax⟩
  | cons c rest ih =>
    rw [digitsFrom] at hparse
    split_ifs at hparse with hdigit hhigh hover
    obtain ⟨hlt, hchar⟩ := digit_spec hdigit
    have hmax' : v * 10 + (c - charZero).toNat ≤ ullongMax := by
      simp only [ullongMax] at hover ⊢
      omega
    have hbound : v * 10 + (c - charZero).toNat < 10 ^ 20 := by
      simp only [ullongMax] at hmax'
      omega
    obtain ⟨htext, hw⟩ := ih (by omega) hmax' hparse
    rw [natText_snoc hv hlt hbound, hchar, List.append_assoc] at htext
    exact ⟨htext, hw⟩

theorem string2llUnsigned_sound (hparse : string2llUnsigned s = some w) :
    s = natText w ∧ 0 < w ∧ w ≤ ullongMax := by
  cases s with
  | nil => cases hparse
  | cons c rest =>
    simp only [string2llUnsigned] at hparse
    split_ifs at hparse with hfirst
    obtain ⟨hlow, hhigh⟩ := hfirst
    have hdigit : charZero ≤ c := UInt8.le_trans (by decide) hlow
    obtain ⟨hlt, hchar⟩ := digit_spec ⟨hdigit, hhigh⟩
    have hpos : 0 < (c - charZero).toNat := by
      rw [UInt8.toNat_sub_of_le c charZero hdigit]
      have hlow' : 49 ≤ c.toNat := UInt8.le_iff_toNat_le.1 hlow
      have hzero : charZero.toNat = 48 := rfl
      omega
    obtain ⟨htext, hw⟩ := digitsFrom_sound hpos
      (by simp only [ullongMax]; omega) hparse
    rw [natText_of_lt hlt, hchar] at htext
    exact ⟨htext, hw⟩

theorem digitsFrom_snoc (hparse : digitsFrom v rest = some w)
    (hdigit : digit < 10) (hmax : w * 10 + digit ≤ ullongMax) :
    digitsFrom v (rest ++ [digitChar digit]) = some (w * 10 + digit) := by
  induction rest generalizing v with
  | nil =>
    obtain rfl : v = w := Option.some_inj.1 hparse
    obtain ⟨hlow, hhigh, hsub⟩ := digitChar_spec hdigit
    have htens : ¬ ullongMax / 10 < v := by omega
    have hones : ¬ ullongMax - digit < v * 10 := by omega
    rw [List.nil_append, digitsFrom, if_pos ⟨hlow, hhigh⟩, hsub,
      if_neg htens, if_neg hones, digitsFrom]
  | cons c rest ih =>
    simp only [digitsFrom] at hparse
    simp only [List.cons_append, digitsFrom]
    split_ifs at hparse ⊢
    exact ih hparse

theorem string2llUnsigned_natText (hpos : 0 < w) (hmax : w ≤ ullongMax) :
    string2llUnsigned (natText w) = some w := by
  induction w using Nat.strong_induction_on with
  | _ w ih =>
    by_cases hlt : w < 10
    · rw [natText_of_lt hlt]
      interval_cases w <;> decide
    have hsplit : w / 10 * 10 + w % 10 = w := by omega
    have hrem : w % 10 < 10 := Nat.mod_lt _ (by omega)
    have hquot := ih (w / 10) (by omega) (by omega) (by omega)
    have hbound : w < 10 ^ 20 := by
      simp only [ullongMax] at hmax
      omega
    rw [← hsplit, natText_snoc (by omega) hrem (by omega)]
    cases htext : natText (w / 10) with
    | nil =>
      rw [htext] at hquot
      cases hquot
    | cons c rest =>
      rw [htext] at hquot
      simp only [string2llUnsigned, List.cons_append] at hquot ⊢
      split_ifs at hquot ⊢
      exact digitsFrom_snoc hquot hrem (by omega)

theorem natText_ne_zero (hpos : 0 < w) (hmax : w ≤ ullongMax) :
    natText w ≠ [charZero] := by
  intro heq
  have hparse := string2llUnsigned_natText hpos hmax
  rw [heq] at hparse
  cases hparse

theorem head_natText_ne_minus (hpos : 0 < w) (hmax : w ≤ ullongMax) :
    natText w ≠ charMinus :: rest := by
  intro heq
  have hparse := string2llUnsigned_natText hpos hmax
  rw [heq] at hparse
  cases hparse

theorem string2ll_sound (hparse : string2ll s = some value) :
    s = llText value ∧ llongMin ≤ value ∧ value ≤ llongMax := by
  unfold string2ll at hparse
  split_ifs at hparse with hzero
  · cases hparse
    exact ⟨hzero, by decide, by decide⟩
  cases s with
  | nil => cases hparse
  | cons c rest =>
    dsimp only at hparse
    split_ifs at hparse with hminus
    · obtain ⟨v, hv, hrange⟩ := Option.bind_eq_some_iff.1 hparse
      obtain ⟨htext, hpos, -⟩ := string2llUnsigned_sound hv
      split_ifs at hrange with hover
      cases hrange
      have hneg : -(v : ℤ) < 0 := by omega
      simp only [llText, hneg, if_true, Int.natAbs_neg, Int.natAbs_natCast,
        llongMin, llongMax]
      refine ⟨by rw [hminus, htext], by omega, by omega⟩
    · obtain ⟨v, hv, hrange⟩ := Option.bind_eq_some_iff.1 hparse
      obtain ⟨htext, hpos, -⟩ := string2llUnsigned_sound hv
      split_ifs at hrange with hover
      cases hrange
      have hneg : ¬ (v : ℤ) < 0 := by omega
      simp only [llText, hneg, if_false, Int.natAbs_natCast, llongMin]
      exact ⟨htext, by omega, by omega⟩

theorem string2ll_llText (hmin : llongMin ≤ value) (hmax : value ≤ llongMax) :
    string2ll (llText value) = some value := by
  simp only [llongMin, llongMax] at hmin hmax
  obtain hneg | hzero | hpos := lt_trichotomy value 0
  · have habs : 0 < value.natAbs := by omega
    have hparse := string2llUnsigned_natText habs
      (by simp only [ullongMax]; omega)
    have hover : ¬ 2 ^ 63 < value.natAbs := by omega
    have hcast : -(value.natAbs : ℤ) = value := by omega
    have hne : charMinus :: natText value.natAbs ≠ [charZero] := by
      intro heq
      cases heq
    simp only [string2ll, llText, hneg, if_true, hne, if_false, hparse,
      some_bind, hover, hcast]
  · subst hzero
    decide
  have habs : 0 < value.natAbs := by omega
  have hbound : value.natAbs ≤ ullongMax := by
    simp only [ullongMax]
    omega
  have hparse := string2llUnsigned_natText habs hbound
  have hover : ¬ llongMax < value := by
    simp only [llongMax]
    omega
  have hcast : (value.natAbs : ℤ) = value := by omega
  have htext : llText value = natText value.natAbs := by
    rw [llText, if_neg (by omega)]
  rw [htext]
  unfold string2ll
  rw [if_neg (natText_ne_zero habs hbound)]
  cases hchars : natText value.natAbs with
  | nil =>
    rw [hchars] at hparse
    cases hparse
  | cons c rest =>
    have hminus : c ≠ charMinus := by
      rintro rfl
      exact head_natText_ne_minus habs hbound hchars
    rw [hchars] at hparse
    simp only [hminus, if_false, hparse, some_bind, hover, hcast]

/-- The parser accepts the canonical decimal forms and nothing else. -/
theorem string2ll_eq_some_iff :
    string2ll s = some value ↔
      s = llText value ∧ llongMin ≤ value ∧ value ≤ llongMax := by
  constructor
  · exact string2ll_sound
  · rintro ⟨rfl, hmin, hmax⟩
    exact string2ll_llText hmin hmax

theorem llText_injective {left right : ℤ} (hleft : llongMin ≤ left)
    (hleft' : left ≤ llongMax) (hright : llongMin ≤ right)
    (hright' : right ≤ llongMax) (heq : llText left = llText right) :
    left = right := by
  have hparse := string2ll_llText hleft hleft'
  rw [heq, string2ll_llText hright hright'] at hparse
  exact (Option.some_inj.1 hparse).symm

/-- The decimal numeral of an integer: the digits without leading zeros, a
minus sign in front of a negative one and no other sign. -/
def decimal (value : ℤ) : Bytes :=
  if value = 0 then [charZero]
  else (if value < 0 then [charMinus] else []) ++
    (Nat.digits 10 value.natAbs).reverse.map digitChar

theorem natText_eq_digits (hpos : 0 < w) (hmax : w ≤ ullongMax) :
    natText w = (Nat.digits 10 w).reverse.map digitChar := by
  induction w using Nat.strong_induction_on with
  | _ w ih =>
    rw [Nat.digits_def' (by decide) hpos, List.reverse_cons, List.map_append]
    by_cases hlt : w < 10
    · rw [natText_of_lt hlt, Nat.div_eq_of_lt hlt, Nat.mod_eq_of_lt hlt]
      rfl
    have hsplit : w / 10 * 10 + w % 10 = w := by omega
    have hbound : w < 10 ^ 20 := by
      simp only [ullongMax] at hmax
      omega
    rw [← ih (w / 10) (by omega) (by omega) (by omega)]
    conv_lhs => rw [← hsplit, natText_snoc (by omega) (by omega) (by omega)]
    rfl

theorem llText_eq_decimal (hmin : llongMin ≤ value) (hmax : value ≤ llongMax) :
    llText value = decimal value := by
  rw [decimal, llText]
  split_ifs with hneg hzero hzero
  · omega
  · rw [natText_eq_digits (by omega)
      (by simp only [llongMin, ullongMax] at *; omega)]
    rfl
  · rw [hzero]
    rfl
  · rw [natText_eq_digits (by omega)
      (by simp only [llongMax, ullongMax] at *; omega)]
    rfl

/-- `string2ll` accepts exactly the numerals of 64-bit integers, and reads back
what `ll2string` prints into a buffer with room for the numeral. -/
theorem decimal_conversion_exact (s : Bytes) (value : ℤ) (len : ℕ) :
    (string2ll s = some value ↔
      s = decimal value ∧ llongMin ≤ value ∧ value ≤ llongMax) ∧
    (llongMin ≤ value → value ≤ llongMax → (decimal value).length < len →
      ll2string len value = decimal value ∧
        string2ll (ll2string len value) = some value) := by
  constructor
  · rw [string2ll_eq_some_iff]
    refine and_congr_left fun hrange => ?_
    rw [llText_eq_decimal hrange.1 hrange.2]
  · intro hmin hmax hlen
    have hprint : ll2string len value = llText value := by
      rw [← llText_eq_decimal hmin hmax] at hlen
      rw [ll2string, if_neg (by omega), List.take_of_length_le (by omega)]
    rw [hprint, string2ll_llText hmin hmax, llText_eq_decimal hmin hmax]
    exact ⟨rfl, rfl⟩

end Exact

end RedisV8.Util
