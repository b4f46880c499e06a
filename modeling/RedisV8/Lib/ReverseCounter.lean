import Mathlib

/-!
# Reverse-binary counters

A word is ordered by its bits read from the low end: `order` reverses the word
and compares the results as numbers.  Words that agree on their `k` low bits
form one contiguous block of this order, whatever `k` is, and that is why a
cursor moving along it keeps its meaning when the number of masked bits
changes.  The file proves the block structure and the effect of incrementing
the reversed word on the masked bits only.
-/

namespace RedisV8.ReverseCounter

open Nat

variable {w : ℕ}

/-- Position of a word in reversed-bit order. -/
def order (v : BitVec w) : ℕ := v.reverse.toNat

/-- The mask selecting the `k` low bits. -/
def lowMask (w k : ℕ) : BitVec w := BitVec.ofNat w (2 ^ k - 1)

/-- Index, in reversed-bit order, of the class of words that agree with `v` on
the `k` low bits. -/
def block (k : ℕ) (v : BitVec w) : ℕ := order v / 2 ^ (w - k)

/-- Set the unmasked bits, then increment the reversed word. -/
def advance (mask v : BitVec w) : BitVec w :=
  ((v ||| ~~~mask).reverse + 1).reverse

theorem testBit_order (v : BitVec w) (i : ℕ) :
    (order v).testBit i = (decide (i < w) && v.getLsbD (w - 1 - i)) := by
  rw [order, BitVec.testBit_toNat, BitVec.getLsbD_reverse, BitVec.getMsbD]

theorem order_lt (v : BitVec w) : order v < 2 ^ w := v.reverse.isLt

theorem order_reverse (v : BitVec w) : order v.reverse = v.toNat := by
  rw [order, BitVec.reverse_reverse_eq]

@[simp]
theorem order_zero : order (0#w) = 0 := by
  have hzero : (0#w).reverse = 0#w := BitVec.reverse_eq_zero_iff.2 rfl
  rw [order, hzero, BitVec.toNat_zero]

theorem getLsbD_lowMask (k i : ℕ) :
    (lowMask w k).getLsbD i = (decide (i < w) && decide (i < k)) := by
  rw [lowMask, BitVec.getLsbD_ofNat, testBit_two_pow_sub_one]

theorem testBit_block {k : ℕ} (hk : k ≤ w) (v : BitVec w) (i : ℕ) :
    (block k v).testBit i = (decide (i < k) && v.getLsbD (k - 1 - i)) := by
  rw [block, ← shiftRight_eq_div_pow, testBit_shiftRight, testBit_order]
  by_cases hi : i < k
  · have hlt : w - k + i < w := by omega
    have hidx : w - 1 - (w - k + i) = k - 1 - i := by omega
    simp [hi, hlt, hidx]
  · have hge : ¬ w - k + i < w := by omega
    simp [hi, hge]

/-- Two words lie in the same block exactly when their low bits agree. -/
theorem block_eq_iff {k : ℕ} (hk : k ≤ w) (u v : BitVec w) :
    block k u = block k v ↔ u.toNat % 2 ^ k = v.toNat % 2 ^ k := by
  constructor
  · intro heq
    apply eq_of_testBit_eq
    intro i
    rw [testBit_mod_two_pow, testBit_mod_two_pow]
    by_cases hi : i < k
    · have hbit := congrArg (fun value => value.testBit (k - 1 - i)) heq
      simp only [testBit_block hk] at hbit
      have hlt : k - 1 - i < k := by omega
      have hidx : k - 1 - (k - 1 - i) = i := by omega
      simpa [hi, hlt, hidx, BitVec.testBit_toNat] using hbit
    · simp [hi]
  · intro heq
    apply eq_of_testBit_eq
    intro i
    rw [testBit_block hk, testBit_block hk]
    by_cases hi : i < k
    · have hbit := congrArg (fun value => value.testBit (k - 1 - i)) heq
      have hlt : k - 1 - i < k := by omega
      simpa [testBit_mod_two_pow, hi, hlt, BitVec.testBit_toNat] using hbit
    · simp [hi]

/-- Setting the unmasked bits moves a word to the last position of its block.
-/
theorem order_or_compl {k : ℕ} (hk : k ≤ w) (v : BitVec w) :
    order (v ||| ~~~lowMask w k) =
      block k v * 2 ^ (w - k) + (2 ^ (w - k) - 1) := by
  have hlow : 2 ^ (w - k) - 1 < 2 ^ (w - k) :=
    sub_lt (by positivity) (by omega)
  rw [← shiftLeft_eq, shiftLeft_add_eq_or_of_lt hlow]
  apply eq_of_testBit_eq
  intro i
  rw [testBit_order, testBit_or, testBit_shiftLeft, testBit_block hk,
    testBit_two_pow_sub_one, BitVec.getLsbD_or, BitVec.getLsbD_not,
    getLsbD_lowMask]
  by_cases hi : i < w
  · have hrev : w - 1 - i < w := by omega
    by_cases hin : i < w - k
    · have hout : ¬ w - 1 - i < k := by omega
      simp [hi, hin, hrev, hout]
    have hmask : w - 1 - i < k := by omega
    have hge : w - k ≤ i := by omega
    have hlt : i - (w - k) < k := by omega
    have hidx : k - 1 - (i - (w - k)) = w - 1 - i := by omega
    simp [hi, hin, hrev, hmask, hge, hlt, hidx]
  · have hin : ¬ i < w - k := by omega
    have hlt : ¬ i - (w - k) < k := by omega
    simp [hi, hin, hlt]

theorem order_advance {k : ℕ} (hk : k ≤ w) (v : BitVec w) :
    order (advance (lowMask w k) v) =
      ((block k v + 1) * 2 ^ (w - k)) % 2 ^ w := by
  rw [advance, order_reverse, BitVec.toNat_add]
  have hlast : (v ||| ~~~lowMask w k).reverse.toNat =
      block k v * 2 ^ (w - k) + (2 ^ (w - k) - 1) := order_or_compl hk v
  have hpos : 0 < 2 ^ (w - k) := by positivity
  have hone : (1 : BitVec w).toNat = 1 % 2 ^ w := BitVec.toNat_ofNat ..
  rw [hlast, hone, add_mod_mod, add_mul, one_mul]
  congr 1
  omega

/-- A word at or after the cursor and outside the cursor's block is still at
or after the advanced cursor, and the advanced cursor has not wrapped. -/
theorem order_advance_le {k : ℕ} (hk : k ≤ w) {v x : BitVec w}
    (hle : order v ≤ order x) (hne : block k x ≠ block k v) :
    order (advance (lowMask w k) v) ≤ order x ∧
      advance (lowMask w k) v ≠ 0 := by
  have hblock : block k v ≤ block k x := Nat.div_le_div_right hle
  have hsucc : block k v + 1 ≤ block k x := by omega
  have hbound : (block k v + 1) * 2 ^ (w - k) ≤ order x :=
    (Nat.mul_le_mul_right _ hsucc).trans (div_mul_le_self _ _)
  have hvalue : order (advance (lowMask w k) v) =
      (block k v + 1) * 2 ^ (w - k) := by
    rw [order_advance hk, mod_eq_of_lt (hbound.trans_lt (order_lt x))]
  refine ⟨hvalue.trans_le hbound, fun hzero => ?_⟩
  rw [hzero, show order (0 : BitVec w) = 0 from order_zero] at hvalue
  have hpos : 0 < (block k v + 1) * 2 ^ (w - k) := by positivity
  omega

theorem order_injective : Function.Injective (order : BitVec w → ℕ) := by
  intro u v heq
  have hrev : u.reverse = v.reverse := BitVec.eq_of_toNat_eq heq
  rw [← BitVec.reverse_reverse_eq (x := u), hrev, BitVec.reverse_reverse_eq]

/-- Advancing looks at the masked bits only. -/
theorem advance_congr {k : ℕ} (hk : k ≤ w) {u v : BitVec w}
    (hlow : u.toNat % 2 ^ k = v.toNat % 2 ^ k) :
    advance (lowMask w k) u = advance (lowMask w k) v := by
  apply order_injective
  rw [order_advance hk, order_advance hk, (block_eq_iff hk u v).2 hlow]

/-- A word without bits above the mask stands first in its block. -/
theorem order_eq_block_mul {k : ℕ} (hk : k ≤ w) {v : BitVec w}
    (hsmall : v.toNat < 2 ^ k) : order v = block k v * 2 ^ (w - k) := by
  rw [← shiftLeft_eq]
  apply eq_of_testBit_eq
  intro i
  rw [testBit_order, testBit_shiftLeft, testBit_block hk]
  by_cases hi : i < w - k
  · have hge : k ≤ w - 1 - i := by omega
    have hbit : v.getLsbD (w - 1 - i) = false := by
      rw [← BitVec.testBit_toNat]
      exact Nat.testBit_lt_two_pow
        (hsmall.trans_le (Nat.pow_le_pow_right (by omega) hge))
    have hout : ¬ w - k ≤ i := by omega
    simp [hbit, hout]
  by_cases hiw : i < w
  · have hidx : k - 1 - (i - (w - k)) = w - 1 - i := by omega
    have hin : i - (w - k) < k := by omega
    have hge : w - k ≤ i := by omega
    simp [hiw, hidx, hin, hge]
  · have hout : ¬ i - (w - k) < k := by omega
    simp [hiw, hout]

/-- A word that stands first in its block has no bits above the mask. -/
theorem toNat_lt_of_order {k n : ℕ} (hk : k ≤ w) {v : BitVec w}
    (horder : order v = n * 2 ^ (w - k)) : v.toNat < 2 ^ k := by
  have hpow : 2 ^ k ≤ 2 ^ w := Nat.pow_le_pow_right (by omega) hk
  have hmod : v.toNat % 2 ^ k < 2 ^ k := Nat.mod_lt _ (by positivity)
  have hlow : (BitVec.ofNat w (v.toNat % 2 ^ k)).toNat = v.toNat % 2 ^ k := by
    rw [BitVec.toNat_ofNat, Nat.mod_eq_of_lt (hmod.trans_le hpow)]
  have hblock : block k (BitVec.ofNat w (v.toNat % 2 ^ k)) = block k v := by
    rw [block_eq_iff hk, hlow, Nat.mod_mod]
  have heq : BitVec.ofNat w (v.toNat % 2 ^ k) = v := by
    apply order_injective
    rw [order_eq_block_mul hk (by rwa [hlow]), hblock, block, horder,
      Nat.mul_div_cancel _ (by positivity)]
  rw [← heq, hlow]
  exact hmod

/-- Counting from zero goes through the blocks in turn. -/
theorem order_iterate_advance {k i : ℕ} (hk : k ≤ w) (hi : i < 2 ^ k) :
    order ((advance (lowMask w k))^[i] 0) = i * 2 ^ (w - k) := by
  induction i with
  | zero => rw [zero_mul]; exact order_zero
  | succ i ih =>
    have hlt : (i + 1) * 2 ^ (w - k) < 2 ^ k * 2 ^ (w - k) :=
      Nat.mul_lt_mul_of_pos_right hi (by positivity)
    rw [← pow_add, Nat.add_sub_cancel' hk] at hlt
    rw [Function.iterate_succ_apply', order_advance hk, block, ih (by omega),
      Nat.mul_div_cancel _ (by positivity), Nat.mod_eq_of_lt hlt]

/-- After as many steps as there are blocks the counter is back at zero. -/
theorem iterate_advance_two_pow {k : ℕ} (hk : k ≤ w) :
    (advance (lowMask w k))^[2 ^ k] 0 = 0 := by
  obtain ⟨n, hn⟩ := exists_eq_succ_of_ne_zero (pow_ne_zero k two_ne_zero)
  apply order_injective
  rw [hn, Function.iterate_succ_apply', order_advance hk, block,
    order_iterate_advance hk (by omega), Nat.mul_div_cancel _ (by positivity),
    ← Nat.succ_eq_add_one, ← hn, ← pow_add, Nat.add_sub_cancel' hk,
    Nat.mod_self]
  exact order_zero.symm

end RedisV8.ReverseCounter
