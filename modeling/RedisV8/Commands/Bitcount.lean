import RedisV8.Commands.Slices
import RedisV8.Lib.BitCounts

/-!
# Counted bits

BITCOUNT of `bitops.c`: sixteen bytes at a time as four words whose bits are
counted in parallel, and the rest by a table.  A byte read outside the string
is `none`.
-/

namespace RedisV8.Commands

open Server List BitCounts

/-! ## The model -/

def bitsinbyte : List ℕ :=
  [0, 1, 1, 2, 1, 2, 2, 3, 1, 2, 2, 3, 2, 3, 3, 4, 1, 2, 2, 3, 2, 3, 3, 4, 2, 3,
    3, 4, 3, 4, 4, 5, 1, 2, 2, 3, 2, 3, 3, 4, 2, 3, 3, 4, 3, 4, 4, 5, 2, 3, 3,
    4, 3, 4, 4, 5, 3, 4, 4, 5, 4, 5, 5, 6, 1, 2, 2, 3, 2, 3, 3, 4, 2, 3, 3, 4,
    3, 4, 4, 5, 2, 3, 3, 4, 3, 4, 4, 5, 3, 4, 4, 5, 4, 5, 5, 6, 2, 3, 3, 4, 3,
    4, 4, 5, 3, 4, 4, 5, 4, 5, 5, 6, 3, 4, 4, 5, 4, 5, 5, 6, 4, 5, 5, 6, 5, 6,
    6, 7, 1, 2, 2, 3, 2, 3, 3, 4, 2, 3, 3, 4, 3, 4, 4, 5, 2, 3, 3, 4, 3, 4, 4,
    5, 3, 4, 4, 5, 4, 5, 5, 6, 2, 3, 3, 4, 3, 4, 4, 5, 3, 4, 4, 5, 4, 5, 5, 6,
    3, 4, 4, 5, 4, 5, 5, 6, 4, 5, 5, 6, 5, 6, 6, 7, 2, 3, 3, 4, 3, 4, 4, 5, 3,
    4, 4, 5, 4, 5, 5, 6, 3, 4, 4, 5, 4, 5, 5, 6, 4, 5, 5, 6, 5, 6, 6, 7, 3, 4,
    4, 5, 4, 5, 5, 6, 4, 5, 5, 6, 5, 6, 6, 7, 4, 5, 5, 6, 5, 6, 6, 7, 5, 6, 6,
    7, 6, 7, 7, 8]

/-- `*p4`, on a machine with the low byte first. -/
def load32 (s : Bytes) (p : ℕ) : Option ℕ := do
  let b0 ← s[p]?
  let b1 ← s[p + 1]?
  let b2 ← s[p + 2]?
  let b3 ← s[p + 3]?
  some (word b0.toNat b1.toNat b2.toNat b3.toNat)

/-- The loop over the remaining bytes. -/
def countBytes (s : Bytes) : ℕ → ℕ → Option ℕ
  | _, 0 => some 0
  | p, count + 1 => do
      let byte ← s[p]?
      let bits ← bitsinbyte[byte.toNat]?
      let rest ← countBytes s (p + 1) count
      some (bits + rest)

def redisPopcount (s : Bytes) (p count : ℕ) : Option ℕ :=
  if 16 ≤ count then do
    let aux1 ← load32 s p
    let aux2 ← load32 s (p + 4)
    let aux3 ← load32 s (p + 8)
    let aux4 ← load32 s (p + 12)
    let rest ← redisPopcount s (p + 16) (count - 16)
    some (countWord aux1 + countWord aux2 + countWord aux3 + countWord aux4 +
      rest)
  else countBytes s p count
termination_by count

/-- The number BITCOUNT answers for a string object, with the start and the end
of a range if they are given. -/
def bitcount (o : StringObj) (bounds : Option (ℤ × ℤ)) : Option ℕ :=
  let str := getDecodedObject o
  let strlen : ℤ := str.length
  let (start, stop) :=
    match bounds with
    | none => (0, strlen - 1)
    | some (start, stop) =>
      let start := if start < 0 then strlen + start else start
      let stop := if stop < 0 then strlen + stop else stop
      let start := if start < 0 then 0 else start
      let stop := if stop < 0 then 0 else stop
      (start, if strlen ≤ stop then strlen - 1 else stop)
  if stop < start then some 0
  else redisPopcount str start.toNat (stop - start + 1).toNat

/-! ## The bits of a range -/

/-- The bits set in some bytes, counted one by one. -/
def bitsSet (s : Bytes) : ℕ := (s.map fun byte => ones byte.toNat).sum

section Count

variable {s : Bytes} {p count : ℕ}

theorem bitsSet_succ (hp : p < s.length) (n : ℕ) :
    bitsSet ((s.drop p).take (n + 1)) =
      ones s[p].toNat + bitsSet ((s.drop (p + 1)).take n) := by
  rw [drop_eq_getElem_cons hp, take_succ_cons, bitsSet, map_cons, sum_cons]
  rfl

theorem bitsSet_add (m n : ℕ) : bitsSet ((s.drop p).take (m + n)) =
    bitsSet ((s.drop p).take m) + bitsSet ((s.drop (p + m)).take n) := by
  rw [take_add, drop_drop, bitsSet, map_append, sum_append]
  rfl

theorem bitsinbyte_eq : ∀ b < 256, bitsinbyte[b]? = some (ones b) := by
  decide +kernel

theorem countBytes_eq (hlen : p + count ≤ s.length) :
    countBytes s p count = some (bitsSet ((s.drop p).take count)) := by
  induction count generalizing p with
  | zero => rfl
  | succ count ih =>
    have hp : p < s.length := by omega
    rw [countBytes, getElem?_eq_getElem hp, some_bind,
      bitsinbyte_eq _ (UInt8.toNat_lt _), some_bind, ih (by omega), some_bind,
      bitsSet_succ hp]

theorem load32_eq (hlen : p + 4 ≤ s.length) :
    ∃ aux, load32 s p = some aux ∧
      countWord aux = bitsSet ((s.drop p).take 4) := by
  have h0 : p < s.length := by omega
  have h1 : p + 1 < s.length := by omega
  have h2 : p + 2 < s.length := by omega
  have h3 : p + 3 < s.length := by omega
  refine ⟨word s[p].toNat s[p + 1].toNat s[p + 2].toNat s[p + 3].toNat, ?_, ?_⟩
  · simp only [load32, getElem?_eq_getElem, h0, h1, h2, h3, some_bind]
  rw [countWord_eq (UInt8.toNat_lt _) (UInt8.toNat_lt _) (UInt8.toNat_lt _)
    (UInt8.toNat_lt _), bitsSet_succ h0, bitsSet_succ h1, bitsSet_succ h2,
    bitsSet_succ h3, take_zero]
  simp only [bitsSet, map_nil, sum_nil]
  omega

/-- Counting in parallel gives what counting one by one gives, and reads the
`count` bytes only. -/
theorem redisPopcount_eq (hlen : p + count ≤ s.length) :
    redisPopcount s p count = some (bitsSet ((s.drop p).take count)) := by
  induction count using Nat.strong_induction_on generalizing p with
  | _ count ih =>
    rw [redisPopcount]
    split
    · rename_i hblock
      obtain ⟨left, rfl⟩ := Nat.exists_eq_add_of_le hblock
      obtain ⟨aux1, hload1, hbits1⟩ := load32_eq (s := s) (p := p) (by omega)
      obtain ⟨aux2, hload2, hbits2⟩ :=
        load32_eq (s := s) (p := p + 4) (by omega)
      obtain ⟨aux3, hload3, hbits3⟩ :=
        load32_eq (s := s) (p := p + 8) (by omega)
      obtain ⟨aux4, hload4, hbits4⟩ :=
        load32_eq (s := s) (p := p + 12) (by omega)
      rw [hload1, hload2, hload3, hload4, Nat.add_sub_cancel_left,
        ih left (by omega) (by omega)]
      simp only [some_bind, hbits1, hbits2, hbits3, hbits4]
      rw [show 16 + left = 4 + 4 + 4 + 4 + left from rfl]
      simp only [bitsSet_add]
    · exact countBytes_eq hlen

end Count

/-- BITCOUNT answers the number of bits set in the slice that is asked for, and
reads nothing outside the string. -/
theorem bitcount_eq (o : StringObj) (bounds : Option (ℤ × ℤ)) :
    bitcount o bounds = some (bitsSet (match bounds with
      | none => getDecodedObject o
      | some (start, stop) => slice (getDecodedObject o) start stop)) := by
  unfold bitcount
  generalize getDecodedObject o = s
  cases bounds with
  | none =>
    dsimp only
    split
    · rw [length_eq_zero_iff.1 (show s.length = 0 by omega)]
      rfl
    · rw [redisPopcount_eq (by omega), Int.toNat_zero, drop_zero,
        take_of_length_le (by omega)]
  | some bounds =>
    obtain ⟨start, stop⟩ := bounds
    have hfirst := normalIndex_nonneg s.length start
    have hclamp : ∀ last : ℤ, (if (s.length : ℤ) ≤ last then
        (s.length : ℤ) - 1 else last) = min last ((s.length : ℤ) - 1) :=
      fun last => by split <;> omega
    simp only [normalIndex_eq, hclamp, slice]
    split
    · rfl
    · exact redisPopcount_eq
        (length_slice_window (min_le_right _ _) hfirst (by omega))

end RedisV8.Commands
