import Mathlib.Data.Nat.Bitwise
import Mathlib.Tactic.NormNum

/-!
# Bits counted in parallel

The bits of a word are counted by sums within groups of two, four and eight
bits that never carry into each other.
-/

namespace RedisV8.BitCounts

section Bytes

variable {a b b0 b1 b2 b3 m : ℕ}

theorem and_cons (ha : a < 256) (hb : b < 256) (x y : ℕ) :
    (a + 256 * x) &&& (b + 256 * y) = (a &&& b) + 256 * (x &&& y) := by
  have hmod : (a + 256 * x &&& b + 256 * y) % 2 ^ 8 = _ := Nat.and_mod_two_pow
  have hdiv : (a + 256 * x &&& b + 256 * y) / 2 ^ 8 = _ := Nat.and_div_two_pow
  rw [show (a + 256 * x) % 2 ^ 8 = a by omega,
    show (b + 256 * y) % 2 ^ 8 = b by omega] at hmod
  rw [show (a + 256 * x) / 2 ^ 8 = x by omega,
    show (b + 256 * y) / 2 ^ 8 = y by omega] at hdiv
  omega

/-- A word of four bytes. -/
def word (b0 b1 b2 b3 : ℕ) : ℕ := b0 + 256 * (b1 + 256 * (b2 + 256 * b3))

theorem word_lt (h0 : b0 < 256) (h1 : b1 < 256) (h2 : b2 < 256) (h3 : b3 < 256) :
    word b0 b1 b2 b3 < 2 ^ 32 := by
  simp only [word]
  omega

theorem word_add (c0 c1 c2 c3 : ℕ) : word b0 b1 b2 b3 + word c0 c1 c2 c3 =
    word (b0 + c0) (b1 + c1) (b2 + c2) (b3 + c3) := by
  simp only [word]
  omega

theorem word_and (h0 : b0 < 256) (h1 : b1 < 256) (h2 : b2 < 256)
    (hm : m < 256) : word b0 b1 b2 b3 &&& word m m m m =
      word (b0 &&& m) (b1 &&& m) (b2 &&& m) (b3 &&& m) := by
  simp only [word]
  rw [and_cons h0 hm, and_cons h1 hm, and_cons h2 hm]

theorem div_digit {d e : ℕ} (hde : d * e = 256) (hd : 0 < d) (x : ℕ) :
    (b + 256 * x) / d = b / d + e * (x % d) + 256 * (x / d) := by
  have hx : e * x = e * (x % d) + 256 * (x / d) := by
    rw [← hde, mul_comm d, mul_assoc, ← mul_add, Nat.mod_add_div]
  rw [← hde, mul_assoc, Nat.add_mul_div_left _ _ hd, hx, hde, add_assoc]

/-- A shift moves the low bits of each byte to the top of the byte before. -/
theorem word_div {d e : ℕ} (hde : d * e = 256) (hd : 0 < d) :
    word b0 b1 b2 b3 / d = word (b0 / d + e * (b1 % d)) (b1 / d + e * (b2 % d))
      (b2 / d + e * (b3 % d)) (b3 / d) := by
  have hmod : ∀ a x : ℕ, (a + 256 * x) % d = a % d := fun a x => by
    rw [← hde, mul_assoc, Nat.add_mul_mod_self_left]
  simp only [word, div_digit hde hd, hmod]

end Bytes

/-- The number of bits set in a word of 32 bits. -/
def countWord (aux : ℕ) : ℕ :=
  let aux := (aux + 2 ^ 32 - (aux >>> 1 &&& 0x55555555)) % 2 ^ 32
  let aux := ((aux &&& 0x33333333) + (aux >>> 2 &&& 0x33333333)) % 2 ^ 32
  (((aux + aux >>> 4) % 2 ^ 32 &&& 0x0F0F0F0F) * 0x01010101 % 2 ^ 32) >>> 24

/-- The bits of a byte that are set, one by one. -/
def ones (b : ℕ) : ℕ := (List.range 8).countP b.testBit

/-- A byte after the first step. -/
def pairs (b : ℕ) : ℕ := b - (b / 2 &&& 85)

/-- The second step on a byte. -/
def quads (b : ℕ) : ℕ := (b &&& 51) + (b / 4 &&& 51)

theorem byte_steps : ∀ b < 256, pairs b < 256 ∧ quads (pairs b) ≤ 68 ∧
    quads (pairs b) % 16 ≤ 4 ∧ ones b ≤ 8 ∧
    (quads (pairs b) + quads (pairs b) / 16) % 16 = ones b := by
  decide +kernel

section Steps

variable {b0 b1 b2 b3 : ℕ}

theorem word_pairs (h0 : b0 < 256) (h1 : b1 < 256) (h2 : b2 < 256)
    (h3 : b3 < 256) :
    (word b0 b1 b2 b3 + 2 ^ 32 - (word b0 b1 b2 b3 >>> 1 &&& 0x55555555)) %
      2 ^ 32 = word (pairs b0) (pairs b1) (pairs b2) (pairs b3) := by
  -- the bit that comes from the next byte is masked out
  have hmask : ∀ b < 256, ∀ c < 2, b / 2 + 128 * c &&& 85 = b / 2 &&& 85 := by
    decide +kernel
  have hle : ∀ b < 256, pairs b + (b / 2 &&& 85) = b ∧ pairs b < 256 := by
    decide +kernel
  have hsum : word (pairs b0) (pairs b1) (pairs b2) (pairs b3) +
      word (b0 / 2 &&& 85) (b1 / 2 &&& 85) (b2 / 2 &&& 85) (b3 / 2 &&& 85) =
      word b0 b1 b2 b3 := by
    rw [word_add, (hle b0 h0).1, (hle b1 h1).1, (hle b2 h2).1, (hle b3 h3).1]
  rw [Nat.shiftRight_eq_div_pow,
    word_div (d := 2 ^ 1) (e := 128) (by norm_num) (by norm_num),
    show 0x55555555 = word 85 85 85 85 from rfl,
    word_and (by omega) (by omega) (by omega) (by omega),
    hmask b0 h0 _ (by omega), hmask b1 h1 _ (by omega),
    hmask b2 h2 _ (by omega), pow_one, ← hsum, add_right_comm,
    Nat.add_sub_cancel, Nat.add_mod_right]
  exact Nat.mod_eq_of_lt
    (word_lt (hle b0 h0).2 (hle b1 h1).2 (hle b2 h2).2 (hle b3 h3).2)

theorem word_quads (h0 : b0 < 256) (h1 : b1 < 256) (h2 : b2 < 256)
    (h3 : b3 < 256) :
    ((word b0 b1 b2 b3 &&& 0x33333333) +
      (word b0 b1 b2 b3 >>> 2 &&& 0x33333333)) % 2 ^ 32 =
      word (quads b0) (quads b1) (quads b2) (quads b3) := by
  have hmask : ∀ b < 256, ∀ c < 4, b / 4 + 64 * c &&& 51 = b / 4 &&& 51 := by
    decide +kernel
  have hlt : ∀ b < 256, quads b < 256 := by decide +kernel
  rw [Nat.shiftRight_eq_div_pow,
    word_div (d := 2 ^ 2) (e := 64) (by norm_num) (by norm_num),
    show 0x33333333 = word 51 51 51 51 from rfl, word_and h0 h1 h2 (by omega),
    word_and (by omega) (by omega) (by omega) (by omega),
    hmask b0 h0 _ (by omega), hmask b1 h1 _ (by omega),
    hmask b2 h2 _ (by omega), word_add]
  exact Nat.mod_eq_of_lt
    (word_lt (hlt b0 h0) (hlt b1 h1) (hlt b2 h2) (hlt b3 h3))

theorem word_octets (h0 : b0 ≤ 68) (h1 : b1 ≤ 68) (h2 : b2 ≤ 68) (h3 : b3 ≤ 68)
    (h1' : b1 % 16 ≤ 4) (h2' : b2 % 16 ≤ 4) (h3' : b3 % 16 ≤ 4) :
    (word b0 b1 b2 b3 + word b0 b1 b2 b3 >>> 4) % 2 ^ 32 &&& 0x0F0F0F0F =
      word ((b0 + b0 / 16) % 16) ((b1 + b1 / 16) % 16) ((b2 + b2 / 16) % 16)
        ((b3 + b3 / 16) % 16) := by
  have hlow : ∀ n c, n + 16 * c &&& 15 = n % 16 := fun n c => by
    rw [show 15 = 2 ^ 4 - 1 from rfl, Nat.and_two_pow_sub_one_eq_mod,
      Nat.add_mul_mod_self_left]
  rw [Nat.shiftRight_eq_div_pow,
    word_div (d := 2 ^ 4) (e := 16) (by norm_num) (by norm_num), word_add,
    Nat.mod_eq_of_lt (word_lt (by omega) (by omega) (by omega) (by omega)),
    show 0x0F0F0F0F = word 15 15 15 15 from rfl,
    word_and (by omega) (by omega) (by omega) (by omega)]
  simp only [← add_assoc, hlow]
  rw [show 2 ^ 4 = 16 from rfl, ← hlow (b3 + b3 / 16) 0, mul_zero, add_zero]

/-- The product with `0x01010101` leaves the sum of the bytes at the top. -/
theorem word_sum (h0 : b0 ≤ 8) (h1 : b1 ≤ 8) (h2 : b2 ≤ 8) (h3 : b3 ≤ 8) :
    (word b0 b1 b2 b3 * 0x01010101 % 2 ^ 32) >>> 24 = b0 + b1 + b2 + b3 := by
  have hprod : word b0 b1 b2 b3 * 0x01010101 =
      b0 + 256 * (b0 + b1) + 65536 * (b0 + b1 + b2) +
      2 ^ 24 * (b0 + b1 + b2 + b3) +
      2 ^ 32 * (b1 + b2 + b3 + 256 * (b2 + b3) + 65536 * b3) := by
    simp only [word]
    omega
  have hlow : b0 + 256 * (b0 + b1) + 65536 * (b0 + b1 + b2) < 2 ^ 24 := by omega
  rw [hprod, Nat.shiftRight_eq_div_pow, Nat.add_mul_mod_self_left,
    Nat.mod_eq_of_lt (by omega), Nat.add_mul_div_left _ _ (by norm_num),
    Nat.div_eq_of_lt hlow, zero_add]

theorem countWord_eq (h0 : b0 < 256) (h1 : b1 < 256) (h2 : b2 < 256)
    (h3 : b3 < 256) :
    countWord (word b0 b1 b2 b3) = ones b0 + ones b1 + ones b2 + ones b3 := by
  obtain ⟨hp0, hq0, -, hl0, ho0⟩ := byte_steps b0 h0
  obtain ⟨hp1, hq1, hm1, hl1, ho1⟩ := byte_steps b1 h1
  obtain ⟨hp2, hq2, hm2, hl2, ho2⟩ := byte_steps b2 h2
  obtain ⟨hp3, hq3, hm3, hl3, ho3⟩ := byte_steps b3 h3
  simp only [countWord]
  rw [word_pairs h0 h1 h2 h3, word_quads hp0 hp1 hp2 hp3,
    word_octets hq0 hq1 hq2 hq3 hm1 hm2 hm3, ho0, ho1, ho2, ho3,
    word_sum hl0 hl1 hl2 hl3]

end Steps

end RedisV8.BitCounts
