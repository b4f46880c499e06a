import RedisV8.Util.Cstring

/-!
# String objects

The string encodings of `object.c`.  A string is held as its bytes (the raw
and the embedded encoding differ only in how they are allocated) or, when it
is the canonical decimal form of a `long`, as that number.
-/

namespace RedisV8.Server

open Util

inductive StringObj where
  | raw (s : Bytes)
  | int (value : Int64)
  deriving DecidableEq, Repr

def string2l (s : Bytes) : Option Int64 := (string2ll s).map Int64.ofInt

/-- `createStringObjectFromLongLong` and `createStringObject`, for a value
that was stored as an integer wherever it could be. -/
def createStringObject (s : Bytes) : StringObj :=
  match string2l s with
  | none => .raw s
  | some value => .int value

/-- `createStringObjectFromLongLong`, where `long` has 64 bits. -/
def createStringObjectFromLongLong (value : ℤ) : StringObj :=
  .int (Int64.ofInt value)

/-- `tryObjectEncoding`; an object with a second owner is left alone. -/
def tryObjectEncoding (refcount : ℕ) : StringObj → StringObj
  | .int value => .int value
  | .raw s =>
    if 1 < refcount then .raw s
    else if 21 < s.length then .raw s
    else
      match string2l s with
      | none => .raw s
      | some value => .int value

namespace StringObj

/-- `sdsEncodedObject`. -/
def sdsEncoded : StringObj → Bool
  | .raw _ => true
  | .int _ => false

end StringObj

/-- The bytes of `getDecodedObject`. -/
def getDecodedObject : StringObj → Bytes
  | .raw s => s
  | .int value => ll2string 32 value.toInt

/-- `memcmp` over the length of the shorter string. -/
def memcmp : Bytes → Bytes → ℤ
  | a :: left, b :: right =>
    if a = b then memcmp left right else (a.toNat : ℤ) - b.toNat
  | _, _ => 0

/-- The characters `compareStringObjects` works on. -/
def comparedBytes : StringObj → Bytes
  | .raw s => s
  | .int value => ll2string 128 value.toInt

/-- `compareStringObjects`.  The difference of the lengths is returned as an
`int`. -/
def compareStringObjects (a b : StringObj) : ℤ :=
  let astr := comparedBytes a
  let bstr := comparedBytes b
  let cmp := memcmp astr bstr
  if cmp = 0 then ((astr.length : ℤ) - bstr.length).bmod (2 ^ 32) else cmp

def equalStringObjects : StringObj → StringObj → Bool
  | .int a, .int b => a == b
  | a, b => compareStringObjects a b == 0

section Decoding

theorem toInt_bounds (value : Int64) :
    llongMin ≤ value.toInt ∧ value.toInt ≤ llongMax := by
  have hlow := value.le_toInt
  have hhigh := value.toInt_lt
  rw [llongMin, llongMax]
  omega

theorem ll2string_eq {len : ℕ} (hlen : 22 ≤ len) (value : ℤ) :
    ll2string len value = llText value := by
  have htext := length_llText_le value
  rw [ll2string, if_neg (by omega), List.take_of_length_le (by omega)]

@[simp]
theorem getDecodedObject_int (value : Int64) :
    getDecodedObject (.int value) = llText value.toInt :=
  ll2string_eq (by decide) _

theorem comparedBytes_eq (o : StringObj) :
    comparedBytes o = getDecodedObject o := by
  cases o with
  | raw s => rfl
  | int value => rw [getDecodedObject_int, comparedBytes, ll2string_eq (by decide)]

theorem llText_of_string2l {s : Bytes} {value : Int64}
    (hparse : string2l s = some value) : llText value.toInt = s := by
  obtain ⟨n, hn, rfl⟩ := Option.map_eq_some_iff.1 hparse
  obtain ⟨htext, hmin, hmax⟩ := string2ll_sound hn
  rw [llongMin] at hmin
  rw [llongMax] at hmax
  rw [Int64.toInt_ofInt_of_le hmin (by omega), htext]

theorem getDecodedObject_fromLongLong {value : ℤ}
    (hvalue : llongMin ≤ value ∧ value ≤ llongMax) :
    getDecodedObject (createStringObjectFromLongLong value) = llText value := by
  rw [llongMin, llongMax] at hvalue
  rw [createStringObjectFromLongLong, getDecodedObject_int,
    Int64.toInt_ofInt_of_le (by omega) (by omega)]

@[simp]
theorem getDecodedObject_createStringObject (s : Bytes) :
    getDecodedObject (createStringObject s) = s := by
  rw [createStringObject]
  split
  · rfl
  · rename_i value hparse
    rw [getDecodedObject_int, llText_of_string2l hparse]

@[simp]
theorem getDecodedObject_tryObjectEncoding (refcount : ℕ) (o : StringObj) :
    getDecodedObject (tryObjectEncoding refcount o) = getDecodedObject o := by
  cases o with
  | int value => rfl
  | raw s =>
    rw [tryObjectEncoding]
    split_ifs
    · rfl
    · rfl
    · exact getDecodedObject_createStringObject s

end Decoding

section Comparing

theorem memcmp_self (s : Bytes) : memcmp s s = 0 := by
  induction s with
  | nil => rfl
  | cons a s ih => rw [memcmp, if_pos rfl, ih]

theorem eq_of_memcmp_eq_zero {left right : Bytes}
    (hcmp : memcmp left right = 0) (hlen : left.length = right.length) :
    left = right := by
  induction left generalizing right with
  | nil => exact (List.length_eq_zero_iff.1 hlen.symm).symm
  | cons a left ih =>
    cases right with
    | nil => cases hlen
    | cons b right =>
      rw [memcmp] at hcmp
      split at hcmp
      · rename_i hab
        rw [hab, ih hcmp (Nat.succ_inj.1 hlen)]
      · rename_i hab
        have hval : a.toNat = b.toNat := by omega
        exact absurd (UInt8.toNat_inj.1 hval) hab

/-- Lengths below `2 ^ 32` cannot hide their difference from an `int`. -/
theorem compareStringObjects_eq_zero_iff {a b : StringObj}
    (ha : (getDecodedObject a).length < 2 ^ 32)
    (hb : (getDecodedObject b).length < 2 ^ 32) :
    compareStringObjects a b = 0 ↔ getDecodedObject a = getDecodedObject b := by
  rw [compareStringObjects, comparedBytes_eq, comparedBytes_eq]
  constructor
  · intro hzero
    split at hzero
    · rename_i hcmp
      refine eq_of_memcmp_eq_zero hcmp ?_
      have hdvd := Int.dvd_of_bmod_eq_zero hzero
      omega
    · rename_i hcmp
      exact absurd hzero hcmp
  · intro heq
    rw [heq, memcmp_self, if_pos rfl, sub_self]
    rfl

theorem equalStringObjects_iff {a b : StringObj}
    (ha : (getDecodedObject a).length < 2 ^ 32)
    (hb : (getDecodedObject b).length < 2 ^ 32) :
    equalStringObjects a b = true ↔
      getDecodedObject a = getDecodedObject b := by
  have hcompare := compareStringObjects_eq_zero_iff ha hb
  cases a with
  | raw s => simpa [equalStringObjects] using hcompare
  | int n =>
    cases b with
    | raw s => simpa [equalStringObjects] using hcompare
    | int m =>
      have hn := toInt_bounds n
      have hm := toInt_bounds m
      rw [getDecodedObject_int, getDecodedObject_int]
      simp only [equalStringObjects, beq_iff_eq]
      constructor
      · intro heq
        rw [heq]
      · intro heq
        exact Int64.toInt_inj.1
          (llText_injective hn.1 hn.2 hm.1 hm.2 heq)

end Comparing

end RedisV8.Server
