import RedisV8.Server.Object

/-!
# The encodings of string objects

`tryObjectEncoding` and the comparisons of `object.c` for all three encodings.
The objects to compare are given by their addresses, since equal pointers are a
case of their own.
-/

namespace RedisV8.Server.Encodings

open Util

/-- The length field of an sds is an `int`. -/
abbrev Sds := { s : Bytes // s.length < 2 ^ 31 }

/-- A string object: `REDIS_ENCODING_RAW` with the free space of the sds,
`REDIS_ENCODING_EMBSTR` and `REDIS_ENCODING_INT`. -/
inductive Robj where
  | raw (s : Sds) (avail : ℕ)
  | embstr (s : Sds)
  | int (value : Int64)

namespace Robj

def sds : Robj → Option Sds
  | .raw s _ => some s
  | .embstr s => some s
  | .int _ => none

/-- `sdsavail` of a raw string. -/
def avail : Robj → ℕ
  | .raw _ avail => avail
  | _ => 0

def obj : Robj → StringObj
  | .raw s _ => .raw s
  | .embstr s => .raw s
  | .int value => .int value

/-- The bytes of `getDecodedObject`. -/
def bytes (o : Robj) : Bytes := getDecodedObject o.obj

end Robj

def embstrSizeLimit : ℕ := 32
def numSharedIntegers : ℕ := 10000

/-- `shared.integers[i]`, as `createSharedObjects` makes it. -/
def sharedInteger (i : ℕ) : Robj := .int (Int64.ofInt i)

/-- The object that `tryObjectEncoding` returns for one with the given number
of references. -/
def tryObjectEncoding (maxmemory refcount : ℕ) (o : Robj) : Robj :=
  match o.sds with
  | none => o
  | some s =>
    if 1 < refcount then o
    else
      match if 21 < s.1.length then none else string2l s.1 with
      | none =>
        if s.1.length ≤ embstrSizeLimit then .embstr s
        else if s.1.length / 10 < o.avail then .raw s 0
        else o
      | some value =>
        if maxmemory = 0 ∧ 0 ≤ value.toInt ∧
            value.toInt < numSharedIntegers then
          sharedInteger value.toInt.toNat
        else .int value

/-- `heap` has the object at every address in use. -/
def compareStringObjects (heap : ℕ → Robj) (a b : ℕ) : ℤ :=
  if a = b then 0 else Server.compareStringObjects (heap a).obj (heap b).obj

def equalStringObjects (heap : ℕ → Robj) (a b : ℕ) : Bool :=
  match heap a, heap b with
  | .int m, .int n => m == n
  | _, _ => compareStringObjects heap a b == 0

section Encoding

theorem obj_of_sds {o : Robj} {s : Sds} (hs : o.sds = some s) :
    o.obj = .raw s.1 := by
  cases o with
  | raw t avail | embstr t =>
    cases hs
    rfl
  | int value => cases hs

/-- Where the bytes are kept and which number is shared does not matter. -/
theorem obj_tryObjectEncoding (maxmemory refcount : ℕ) (o : Robj) :
    (tryObjectEncoding maxmemory refcount o).obj =
      Server.tryObjectEncoding refcount o.obj := by
  cases hs : o.sds with
  | none =>
    cases o with
    | raw s avail | embstr s => cases hs
    | int value => rfl
  | some s =>
    have hkept : (if s.1.length ≤ embstrSizeLimit then .embstr s
        else if s.1.length / 10 < o.avail then .raw s 0 else o).obj =
        .raw s.1 := by
      split_ifs
      · rfl
      · rfl
      · exact obj_of_sds hs
    simp only [tryObjectEncoding, hs, obj_of_sds hs, Server.tryObjectEncoding]
    split
    · exact obj_of_sds hs
    by_cases hlong : 21 < s.1.length
    · simpa only [hlong, if_true] using hkept
    simp only [hlong, if_false]
    cases string2l s.1 with
    | none => exact hkept
    | some value =>
      dsimp only
      split_ifs with hshared
      · rw [sharedInteger, Int.toNat_of_nonneg hshared.2.1, Int64.ofInt_toInt]
        rfl
      · rfl

end Encoding

section Comparing

theorem lt_of_memcmp {left right : Bytes} :
    memcmp left right < 0 ∨
        memcmp left right = 0 ∧ left.length < right.length ↔
      left < right := by
  induction left generalizing right with
  | nil =>
    cases right with
    | nil => simp [memcmp]
    | cons b right => simp [memcmp]
  | cons a left ih =>
    cases right with
    | nil => simp [memcmp]
    | cons b right =>
      rw [memcmp, List.cons_lt_cons_iff]
      split
      · rename_i hab
        subst hab
        simpa using ih
      · rename_i hab
        have hne : a.toNat ≠ b.toNat := fun heq => hab (UInt8.toNat_inj.1 heq)
        rw [UInt8.lt_iff_toNat_lt]
        constructor
        · intro h
          left
          omega
        · rintro (h | h)
          · left
            omega
          · exact absurd h.1 hab

theorem length_bytes_lt (o : Robj) : o.bytes.length < 2 ^ 31 := by
  cases o with
  | raw s avail | embstr s => exact s.2
  | int value =>
    have htext := length_llText_le value.toInt
    rw [Robj.bytes, Robj.obj, getDecodedObject_int]
    omega

/-- Two lengths of an `int` differ by an `int`. -/
theorem compareStringObjects_neg_iff (left right : Robj) :
    Server.compareStringObjects left.obj right.obj < 0 ↔
      left.bytes < right.bytes := by
  have hleft := length_bytes_lt left
  have hright := length_bytes_lt right
  rw [Robj.bytes] at hleft hright ⊢
  rw [Robj.bytes, ← lt_of_memcmp, Server.compareStringObjects,
    comparedBytes_eq, comparedBytes_eq, Int.bmod_eq_of_le (by omega) (by omega)]
  split <;> omega

theorem compareStringObjects_zero_iff (left right : Robj) :
    Server.compareStringObjects left.obj right.obj = 0 ↔
      left.bytes = right.bytes :=
  compareStringObjects_eq_zero_iff
    ((length_bytes_lt left).trans (by decide))
    ((length_bytes_lt right).trans (by decide))

variable (heap : ℕ → Robj) (a b : ℕ)

theorem compareStringObjects_orders :
    (compareStringObjects heap a b = 0 ↔ (heap a).bytes = (heap b).bytes) ∧
      (compareStringObjects heap a b < 0 ↔
        (heap a).bytes < (heap b).bytes) ∧
      (0 < compareStringObjects heap a b ↔
        (heap b).bytes < (heap a).bytes) := by
  rw [compareStringObjects]
  by_cases hab : a = b
  · simp [hab]
  have hzero := compareStringObjects_zero_iff (heap a) (heap b)
  have hneg := compareStringObjects_neg_iff (heap a) (heap b)
  rw [if_neg hab]
  refine ⟨hzero, hneg, ?_⟩
  have hpos : (heap b).bytes < (heap a).bytes ↔
      ¬ ((heap a).bytes < (heap b).bytes ∨ (heap a).bytes = (heap b).bytes) := by
    rw [← Std.le_iff_lt_or_eq, Std.not_le]
  rw [hpos, ← hneg, ← hzero]
  omega

theorem equalStringObjects_eq :
    equalStringObjects heap a b = true ↔ (heap a).bytes = (heap b).bytes := by
  rw [equalStringObjects]
  split
  · rename_i m n hm hn
    rw [hm, hn]
    exact equalStringObjects_iff
      ((length_bytes_lt (.int m)).trans (by decide))
      ((length_bytes_lt (.int n)).trans (by decide))
  · rw [beq_iff_eq, (compareStringObjects_orders heap a b).1]

/-- Encoding an object keeps its bytes, and the comparisons of two objects, in
any encodings and at any addresses, are those of their bytes. -/
theorem encodings_keep_strings (maxmemory refcount : ℕ) (o : Robj) :
    (tryObjectEncoding maxmemory refcount o).bytes = o.bytes ∧
      (equalStringObjects heap a b = true ↔
        (heap a).bytes = (heap b).bytes) ∧
      (compareStringObjects heap a b = 0 ↔
        (heap a).bytes = (heap b).bytes) ∧
      (compareStringObjects heap a b < 0 ↔
        (heap a).bytes < (heap b).bytes) ∧
      (0 < compareStringObjects heap a b ↔
        (heap b).bytes < (heap a).bytes) := by
  refine ⟨?_, equalStringObjects_eq heap a b,
    compareStringObjects_orders heap a b⟩
  rw [Robj.bytes, obj_tryObjectEncoding, getDecodedObject_tryObjectEncoding]
  rfl

end Comparing

end RedisV8.Server.Encodings
