import RedisV8.Lib.ReverseCounter
import RedisV8.Dict.Invariant

/-!
# `dictScan`

The scan cursor is a 64-bit word whose masked bits are incremented from the
high end.  A call emits one bucket of the smaller live table together with
buckets of the larger one that extend it, and returns the next cursor.

The expansion loop of the larger table counts upwards numerically from the
cursor, while the cursor itself moves in reversed-bit order.  The two orders
agree on the buckets still to be visited unless the cursor already carries
bits between the two masks with a zero below a one; then buckets that are
ahead of the cursor are stepped over.  `CursorCovers` is the condition that no
such bucket holds an entry, and `scanRun_emits` is the scan guarantee under it.
-/

namespace RedisV8.HashTable

open ReverseCounter List Nat

/-- Exchange neighbouring blocks of `s` bits; `mask` selects the lower ones. -/
def swapBlocks (s : ℕ) (mask v : BitVec 64) : BitVec 64 :=
  ((v >>> s) &&& mask) ||| ((v <<< s) &&& ~~~mask)

/-- The loop of `rev`: exchange ever smaller blocks under the running mask. -/
def revLoop : ℕ → ℕ → BitVec 64 → BitVec 64 → BitVec 64
  | 0, _, _, v => v
  | fuel + 1, s, mask, v =>
    let s := s >>> 1
    if s = 0 then v
    else
      let mask := mask ^^^ (mask <<< s)
      revLoop fuel s mask (swapBlocks s mask v)

def rev (v : BitVec 64) : BitVec 64 := revLoop 7 64 (~~~0) v

section Reversal

/-- Exchanging blocks of `s` bits reads bit `i` at `i ^^^ s`. -/
theorem getLsbD_swapBlocks (s : ℕ) (mask v : BitVec 64)
    (hmask : ∀ i < 64, mask.getLsbD i = decide (i &&& s = 0))
    (hlow : ∀ i < 64, i &&& s = 0 → i ^^^ s = s + i)
    (hhigh : ∀ i < 64, i &&& s ≠ 0 → s ≤ i ∧ i ^^^ s = i - s)
    {i : ℕ} (hi : i < 64) :
    (swapBlocks s mask v).getLsbD i = v.getLsbD (i ^^^ s) := by
  rw [swapBlocks, BitVec.getLsbD_or, BitVec.getLsbD_and, BitVec.getLsbD_and,
    BitVec.getLsbD_not, BitVec.getLsbD_ushiftRight, BitVec.getLsbD_shiftLeft,
    hmask i hi]
  by_cases hzero : i &&& s = 0
  · simp [hzero, hlow i hi hzero]
  · obtain ⟨hle, hxor⟩ := hhigh i hi hzero
    have hge : ¬ i < s := by omega
    simp [hzero, hxor, hi, hge]

theorem rev_eq_reverse (v : BitVec 64) : rev v = v.reverse := by
  apply BitVec.eq_of_getLsbD_eq
  intro i hi
  have hxor : ∀ i < 64, i ^^^ 1 ^^^ 2 ^^^ 4 ^^^ 8 ^^^ 16 ^^^ 32 = 63 - i := by
    decide
  have hbound : ∀ i < 64, i ^^^ 1 < 64 ∧ i ^^^ 2 < 64 ∧ i ^^^ 4 < 64 ∧
      i ^^^ 8 < 64 ∧ i ^^^ 16 < 64 := by decide
  have h1 := (hbound i hi).1
  have h2 := (hbound _ h1).2.1
  have h3 := (hbound _ h2).2.2.1
  have h4 := (hbound _ h3).2.2.2.1
  have h5 := (hbound _ h4).2.2.2.2
  change (swapBlocks 1 _ (swapBlocks 2 _ (swapBlocks 4 _ (swapBlocks 8 _
    (swapBlocks 16 _ (swapBlocks 32 _ v)))))).getLsbD i = _
  rw [getLsbD_swapBlocks 1 _ _ (by decide) (by decide) (by decide) hi,
    getLsbD_swapBlocks 2 _ _ (by decide) (by decide) (by decide) h1,
    getLsbD_swapBlocks 4 _ _ (by decide) (by decide) (by decide) h2,
    getLsbD_swapBlocks 8 _ _ (by decide) (by decide) (by decide) h3,
    getLsbD_swapBlocks 16 _ _ (by decide) (by decide) (by decide) h4,
    getLsbD_swapBlocks 32 _ _ (by decide) (by decide) (by decide) h5,
    hxor i hi, BitVec.getLsbD_reverse, BitVec.getMsbD]
  simp [hi]

end Reversal

variable {K V : Type*} {ht : Dictht K V} {k k0 k1 : ℕ} {d : Dict K V}
  {entry : K × V} {v : BitVec 64}

/-- `sizemask` as the `unsigned long` the cursor is masked with. -/
def Dictht.mask (ht : Dictht K V) : BitVec 64 := BitVec.ofNat 64 ht.sizemask

/-- The chain a cursor points at. -/
def Dictht.chainAt (ht : Dictht K V) (v : BitVec 64) : List (K × V) :=
  ht.bucket (v &&& ht.mask).toNat

/-- Increment the bits not covered by the smaller mask. -/
def nextExpansion (m0 v : BitVec 64) : BitVec 64 :=
  (((v ||| m0) + 1#64) &&& ~~~m0) ||| (v &&& m0)

/-- The `do … while` loop over the larger table.  The loop ends after at most
as many turns as the table has buckets. -/
def scanExpansions (t1 : Dictht K V) (m0 : BitVec 64) :
    ℕ → BitVec 64 → List (K × V) × BitVec 64
  | 0, v => ([], v)
  | fuel + 1, v =>
    let next := nextExpansion m0 v
    if next &&& (m0 ^^^ t1.mask) = 0#64 then (t1.chainAt v, next)
    else
      let rest := scanExpansions t1 m0 fuel next
      (t1.chainAt v ++ rest.1, rest.2)

/-- Set the unmasked bits and increment the reversed cursor. -/
def advanceCursor (m0 v : BitVec 64) : BitVec 64 :=
  rev (rev (v ||| ~~~m0) + 1)

/-- The two live tables, the smaller one first. -/
def Dict.bySize (d : Dict K V) : Dictht K V × Dictht K V :=
  if d.ht1.size < d.ht0.size then (d.ht1, d.ht0) else (d.ht0, d.ht1)

/-- `dictScan`: the entries passed to the callback and the next cursor. -/
def dictScan (d : Dict K V) (v : BitVec 64) : List (K × V) × BitVec 64 :=
  if d.size = 0 then ([], 0)
  else if ¬ d.isRehashing then
    (d.ht0.chainAt v, advanceCursor d.ht0.mask v)
  else
    let t0 := d.bySize.1
    let t1 := d.bySize.2
    let expansions := scanExpansions t1 t0.mask t1.size v
    (t0.chainAt v ++ expansions.1, advanceCursor t0.mask expansions.2)

section Cursor

theorem advanceCursor_eq (m0 v : BitVec 64) :
    advanceCursor m0 v = advance m0 v := by
  rw [advanceCursor, advance, rev_eq_reverse, rev_eq_reverse]

theorem mask_eq_lowMask (hsize : ht.size = 2 ^ k) : ht.mask = lowMask 64 k := by
  rw [Dictht.mask, Dictht.sizemask, hsize, lowMask]

theorem toNat_lowMask (hk : k ≤ 63) : (lowMask 64 k).toNat = 2 ^ k - 1 := by
  have hpow : 2 ^ k ≤ 2 ^ 63 := Nat.pow_le_pow_right (by omega) hk
  rw [lowMask, BitVec.toNat_ofNat]
  exact Nat.mod_eq_of_lt (by omega)

theorem toNat_and_lowMask (hk : k ≤ 63) (v : BitVec 64) :
    (v &&& lowMask 64 k).toNat = v.toNat % 2 ^ k := by
  rw [BitVec.toNat_and, toNat_lowMask hk, and_two_pow_sub_one_eq_mod]

theorem chainAt_eq (hk : k ≤ 63) (hsize : ht.size = 2 ^ k) (v : BitVec 64) :
    ht.chainAt v = ht.bucket (v.toNat % 2 ^ k) := by
  rw [Dictht.chainAt, mask_eq_lowMask hsize, toNat_and_lowMask hk]

/-- Setting the low `k` bits of a number. -/
theorem or_two_pow_sub_one (a k : ℕ) :
    a ||| (2 ^ k - 1) = a / 2 ^ k * 2 ^ k + (2 ^ k - 1) := by
  have hlow : 2 ^ k - 1 < 2 ^ k := sub_lt (by positivity) (by omega)
  rw [← shiftLeft_eq, shiftLeft_add_eq_or_of_lt hlow]
  apply eq_of_testBit_eq
  intro i
  rw [testBit_or, testBit_or, testBit_two_pow_sub_one,
    testBit_shiftLeft, testBit_div_two_pow]
  by_cases hi : i < k
  · simp [hi]
  · have hge : k ≤ i := by omega
    simp [hi, hge, Nat.sub_add_cancel hge]

/-- The expansion step adds one to the part of the cursor above the mask. -/
theorem toNat_nextExpansion (hk : k ≤ 63) (v : BitVec 64) :
    (nextExpansion (lowMask 64 k) v).toNat =
      ((v.toNat / 2 ^ k + 1) * 2 ^ k) % 2 ^ 64 + v.toNat % 2 ^ k := by
  have hpos : 0 < 2 ^ k := by positivity
  set above := (v ||| lowMask 64 k) + 1#64 with habove
  have htoNat : above.toNat = ((v.toNat / 2 ^ k + 1) * 2 ^ k) % 2 ^ 64 := by
    rw [habove, BitVec.toNat_add, BitVec.toNat_or, toNat_lowMask hk,
      or_two_pow_sub_one, add_mul, one_mul, BitVec.toNat_ofNat,
      add_mod_mod]
    congr 1
    omega
  -- the incremented word is a multiple of `2 ^ k`, so the mask changes nothing
  have hdvd : 2 ^ k ∣ above.toNat := by
    rw [htoNat]
    exact (dvd_mod_iff (pow_dvd_pow 2 (by omega))).2 (dvd_mul_left _ _)
  have hclear : above &&& ~~~lowMask 64 k = above := by
    apply BitVec.eq_of_getLsbD_eq
    intro i hi
    rw [BitVec.getLsbD_and, BitVec.getLsbD_not, getLsbD_lowMask]
    by_cases hik : i < k
    · have hzero : above.getLsbD i = false := by
        rw [← BitVec.testBit_toNat]
        obtain ⟨c, hc⟩ := hdvd
        rw [hc, testBit_two_pow_mul]
        simp [hik]
      simp [hzero]
    · simp [hi, hik]
  have hlow : v.toNat % 2 ^ k < 2 ^ k := mod_lt _ hpos
  rw [nextExpansion, ← habove, hclear, BitVec.toNat_or, toNat_and_lowMask hk,
    ← htoNat]
  obtain ⟨c, hc⟩ := hdvd
  rw [hc, mul_comm, ← shiftLeft_eq, shiftLeft_add_eq_or_of_lt hlow]

/-- The loop test looks at the bits between the two masks. -/
theorem and_xor_eq_zero_iff (hle : k0 ≤ k1) (hk : k1 ≤ 63) (v : BitVec 64) :
    v &&& (lowMask 64 k0 ^^^ lowMask 64 k1) = 0#64 ↔
      v.toNat / 2 ^ k0 % 2 ^ (k1 - k0) = 0 := by
  constructor
  · intro hzero
    apply Nat.eq_of_testBit_eq
    intro i
    rw [Nat.testBit_mod_two_pow, Nat.testBit_div_two_pow, Nat.zero_testBit]
    by_cases hi : i < k1 - k0
    · have hbit := congrArg (fun word => word.getLsbD (i + k0)) hzero
      have h64 : i + k0 < 64 := by omega
      have hnot : ¬ i + k0 < k0 := by omega
      have hin : i + k0 < k1 := by omega
      rw [BitVec.getLsbD_and, BitVec.getLsbD_xor, getLsbD_lowMask,
        getLsbD_lowMask, BitVec.getLsbD_zero] at hbit
      simpa [h64, hnot, hin, BitVec.testBit_toNat] using fun _ => hbit
    · simp [hi]
  · intro hzero
    apply BitVec.eq_of_getLsbD_eq
    intro i hi
    rw [BitVec.getLsbD_and, BitVec.getLsbD_xor, getLsbD_lowMask,
      getLsbD_lowMask, BitVec.getLsbD_zero]
    by_cases hin : k0 ≤ i ∧ i < k1
    · have hbit := congrArg (fun value => value.testBit (i - k0)) hzero
      have hlt : i - k0 < k1 - k0 := by omega
      rw [Nat.testBit_mod_two_pow, Nat.testBit_div_two_pow,
        Nat.zero_testBit, Nat.sub_add_cancel hin.1, BitVec.testBit_toNat] at hbit
      simp only [hlt, decide_true, Bool.true_and] at hbit
      simp [hbit]
    by_cases hlow : i < k0
    · have : i < k1 := by omega
      simp [hi, hlow, this]
    · have : ¬ i < k1 := by omega
      simp [hlow, this]

/-- The expansion loop emits the extensions of the cursor numerically from the
cursor upwards, and keeps the bits under the smaller mask. -/
theorem scanExpansions_eq {t1 : Dictht K V} (hle : k0 ≤ k1) (hk : k1 ≤ 63)
    (hsize : t1.size = 2 ^ k1) (fuel : ℕ) (v : BitVec 64)
    (hfuel : 2 ^ (k1 - k0) ≤ v.toNat / 2 ^ k0 % 2 ^ (k1 - k0) + fuel) :
    (scanExpansions t1 (lowMask 64 k0) fuel v).1 =
        (List.range' (v.toNat / 2 ^ k0 % 2 ^ (k1 - k0))
          (2 ^ (k1 - k0) - v.toNat / 2 ^ k0 % 2 ^ (k1 - k0))).flatMap
          (fun i => t1.bucket (v.toNat % 2 ^ k0 + 2 ^ k0 * i)) ∧
      (scanExpansions t1 (lowMask 64 k0) fuel v).2.toNat % 2 ^ k0 =
        v.toNat % 2 ^ k0 := by
  have hn : 0 < 2 ^ (k1 - k0) := by positivity
  have hp : 0 < 2 ^ k0 := by positivity
  induction fuel generalizing v with
  | zero =>
    have := mod_lt (v.toNat / 2 ^ k0) hn
    omega
  | succ fuel ih =>
    set lo := v.toNat % 2 ^ k0 with hlo
    set c := v.toNat / 2 ^ k0 % 2 ^ (k1 - k0) with hc
    have hclt : c < 2 ^ (k1 - k0) := mod_lt _ hn
    have hlolt : lo < 2 ^ k0 := mod_lt _ hp
    have hchain : t1.chainAt v = t1.bucket (lo + 2 ^ k0 * c) := by
      rw [chainAt_eq hk hsize, ← Nat.mod_mul, ← pow_add,
        Nat.add_sub_cancel' hle]
    set next := nextExpansion (lowMask 64 k0) v with hnext
    have htoNat : next.toNat =
        ((v.toNat / 2 ^ k0 + 1) % 2 ^ (64 - k0)) * 2 ^ k0 + lo := by
      rw [hnext, toNat_nextExpansion (by omega), ← Nat.mul_mod_mul_right,
        ← pow_add, Nat.sub_add_cancel (by omega)]
    have hnextLo : next.toNat % 2 ^ k0 = lo := by
      rw [htoNat, Nat.mul_add_mod_self_right, Nat.mod_eq_of_lt hlolt]
    have hnextHi : next.toNat / 2 ^ k0 % 2 ^ (k1 - k0) =
        (c + 1) % 2 ^ (k1 - k0) := by
      rw [htoNat, mul_comm, mul_add_div hp, div_eq_of_lt hlolt,
        add_zero, mod_mod_of_dvd _ (pow_dvd_pow 2 (by omega)), hc,
        mod_add_mod]
    have htest : next &&& (lowMask 64 k0 ^^^ t1.mask) = 0#64 ↔
        c + 1 = 2 ^ (k1 - k0) := by
      rw [mask_eq_lowMask hsize, and_xor_eq_zero_iff hle hk, hnextHi]
      constructor
      · intro hzero
        by_contra hne
        rw [mod_eq_of_lt (by omega)] at hzero
        omega
      · intro heq
        rw [heq, mod_self]
    rw [scanExpansions]
    dsimp only
    rw [← hnext]
    split
    · rename_i hend
      have hlast : 2 ^ (k1 - k0) - c = 1 := by
        have := htest.1 hend
        omega
      refine ⟨?_, hnextLo⟩
      rw [hlast]
      simp [hchain]
    rename_i hmore
    have hne : c + 1 ≠ 2 ^ (k1 - k0) := fun heq => hmore (htest.2 heq)
    have hsucc : next.toNat / 2 ^ k0 % 2 ^ (k1 - k0) = c + 1 := by
      rw [hnextHi, mod_eq_of_lt (by omega)]
    obtain ⟨hrest, hlow⟩ := ih next (by omega)
    rw [hsucc, hnextLo] at hrest
    refine ⟨?_, hlow.trans hnextLo⟩
    rw [hrest, hchain, show 2 ^ (k1 - k0) - c =
      (2 ^ (k1 - k0) - (c + 1)) + 1 by omega, range'_succ,
      flatMap_cons]

end Cursor

section Guarantee

/-- Presence of a key in either table. -/
def Dict.Holds (d : Dict K V) (entry : K × V) : Prop :=
  (∃ i, entry ∈ d.ht0.bucket i) ∨ ∃ i, entry ∈ d.ht1.bucket i

def Dict.HasKey (d : Dict K V) (key : K) : Prop := ∃ val, d.Holds (key, val)

/-- No entry of the larger table is stepped over by the expansion loop: every
non-empty extension of the cursor that lies numerically below it has already
been passed in reversed-bit order. -/
def CursorCovers (d : Dict K V) (v : BitVec 64) : Prop :=
  d.isRehashing → ∀ i < d.bySize.2.size,
    i % d.bySize.1.size = v.toNat % d.bySize.1.size →
    i < v.toNat % d.bySize.2.size → d.bySize.2.bucket i ≠ [] →
    order (BitVec.ofNat 64 i) < order (v &&& d.bySize.2.mask)

instance (d : Dict K V) (v : BitVec 64) : Decidable (CursorCovers d v) :=
  inferInstanceAs (Decidable (d.isRehashing → ∀ i < d.bySize.2.size,
    i % d.bySize.1.size = v.toNat % d.bySize.1.size →
    i < v.toNat % d.bySize.2.size → d.bySize.2.bucket i ≠ [] →
    order (BitVec.ofNat 64 i) < order (v &&& d.bySize.2.mask)))

variable (hash : K → BitVec 32)

/-- The hash as a cursor-sized word. -/
def hashWord (key : K) : BitVec 64 := (hash key).setWidth 64

theorem toNat_hashWord (key : K) :
    (hashWord hash key).toNat = (hash key).toNat :=
  BitVec.toNat_setWidth_of_le (by omega)

theorem index_eq_mod (hsize : ht.size = 2 ^ k) (key : K) :
    ht.index hash key = (hashWord hash key).toNat % 2 ^ k := by
  rw [Dictht.index, Dictht.sizemask, hsize, and_two_pow_sub_one_eq_mod,
    toNat_hashWord]

theorem length_le_count (ht : Dictht K V) (i : ℕ) :
    (ht.bucket i).length ≤ ht.count := by
  obtain ⟨table, _⟩ := ht
  simp only [Dictht.bucket, Dictht.count]
  induction table generalizing i with
  | nil => simp
  | cons head tail ih =>
    cases i with
    | zero => simp
    | succ i =>
      have hrec := ih i
      simp only [getD_cons_succ, map_cons, sum_cons]
      omega

theorem size_ne_zero_of_holds (hwf : d.WF hash) (hmem : d.Holds entry) :
    d.size ≠ 0 := by
  have hused0 := hwf.wf0.used_eq
  have hused1 := hwf.wf1.used_eq
  rw [Dict.size]
  rcases hmem with ⟨i, hi⟩ | ⟨i, hi⟩
  · have hle := length_le_count d.ht0 i
    have hpos := length_pos_of_mem hi
    omega
  · have hle := length_le_count d.ht1 i
    have hpos := length_pos_of_mem hi
    omega

/-- During a rehash both tables are powers of two, the smaller one first. -/
theorem bySize_spec (hwf : d.WF hash) (hbusy : d.isRehashing) :
    ∃ k0 k1, k0 ≤ k1 ∧ k1 ≤ 63 ∧ d.bySize.1.size = 2 ^ k0 ∧
      d.bySize.2.size = 2 ^ k1 ∧ d.bySize.1.WF hash ∧ d.bySize.2.WF hash := by
  obtain ⟨idx, hidx⟩ := Option.isSome_iff_exists.1 hbusy
  obtain ⟨⟨k, _, hk, hsize⟩, ⟨l, _, hl, hsize'⟩, -⟩ := hwf.busy idx hidx
  rw [Dict.bySize]
  split
  · rename_i hlt
    refine ⟨l, k, ?_, hk, hsize', hsize, hwf.wf1, hwf.wf0⟩
    rw [hsize, hsize'] at hlt
    exact ((Nat.pow_lt_pow_iff_right (by omega)).1 hlt).le
  rename_i hge
  refine ⟨k, l, ?_, hl, hsize, hsize', hwf.wf0, hwf.wf1⟩
  rw [hsize, hsize', not_lt] at hge
  exact (Nat.pow_le_pow_iff_right (by omega)).1 hge

theorem holds_bySize (hmem : d.Holds entry) :
    (∃ i, entry ∈ d.bySize.1.bucket i) ∨ ∃ i, entry ∈ d.bySize.2.bucket i := by
  rw [Dict.bySize]
  split
  · exact hmem.symm
  · exact hmem

/-- An entry in the larger table that the cursor has not passed is emitted by
the expansion loop, provided the cursor covers it. -/
theorem mem_scanExpansions {t1 : Dictht K V} (hle : k0 ≤ k1) (hk : k1 ≤ 63)
    (hsize : t1.size = 2 ^ k1) (hwf : t1.WF hash) {i : ℕ}
    (hmem : entry ∈ t1.bucket i)
    (hlow : (hashWord hash entry.1).toNat % 2 ^ k0 = v.toNat % 2 ^ k0)
    (hreach : v.toNat % 2 ^ k1 ≤ i) :
    entry ∈ (scanExpansions t1 (lowMask 64 k0) t1.size v).1 := by
  have hi : i = (hashWord hash entry.1).toNat % 2 ^ k1 := by
    rw [← index_eq_mod hash hsize, hwf.placed i entry hmem]
  have hilow : i % 2 ^ k0 = v.toNat % 2 ^ k0 := by
    rw [hi, mod_mod_of_dvd _ (pow_dvd_pow 2 hle), hlow]
  have hpow : 2 ^ k1 = 2 ^ k0 * 2 ^ (k1 - k0) := by
    rw [← pow_add, Nat.add_sub_cancel' hle]
  have hilt : i / 2 ^ k0 < 2 ^ (k1 - k0) := by
    rw [Nat.div_lt_iff_lt_mul (by positivity), mul_comm, ← hpow, hi]
    exact Nat.mod_lt _ (by positivity)
  have hclt : v.toNat / 2 ^ k0 % 2 ^ (k1 - k0) ≤ i / 2 ^ k0 := by
    rw [le_div_iff_mul_le (by positivity), mul_comm]
    rw [hpow, mod_mul] at hreach
    omega
  have hfuel : 2 ^ (k1 - k0) ≤ t1.size := by
    rw [hsize]
    exact Nat.pow_le_pow_right (by omega) (Nat.sub_le _ _)
  rw [(scanExpansions_eq hle hk hsize t1.size v (by omega)).1, mem_flatMap]
  refine ⟨i / 2 ^ k0, ?_, ?_⟩
  · rw [mem_range'_1]
    omega
  · rw [← hilow, mod_add_div]
    exact hmem

/-- One call: an entry at or after the cursor is emitted, or stays at or after
the cursor that the call returns. -/
theorem dictScan_step (hwf : d.WF hash) (hcover : CursorCovers d v)
    (hmem : d.Holds entry) (hahead : order v ≤ order (hashWord hash entry.1)) :
    entry ∈ (dictScan d v).1 ∨ (dictScan d v).2 ≠ 0 ∧
      order (dictScan d v).2 ≤ order (hashWord hash entry.1) := by
  have hnonempty := size_ne_zero_of_holds hash hwf hmem
  rw [dictScan, if_neg hnonempty]
  by_cases hbusy : d.isRehashing
  · rw [if_neg (by simpa using hbusy)]
    dsimp only
    obtain ⟨k0, k1, hle, hk, hsize0, hsize1, hwf0, hwf1⟩ :=
      bySize_spec hash hwf hbusy
    have hfuel : 2 ^ (k1 - k0) ≤ d.bySize.2.size := by
      rw [hsize1]
      exact Nat.pow_le_pow_right (by omega) (Nat.sub_le _ _)
    have hkept := (scanExpansions_eq hle hk hsize1 d.bySize.2.size v
      (by omega)).2
    rw [mask_eq_lowMask hsize0, advanceCursor_eq,
      advance_congr (by omega) hkept]
    by_cases hsame : block k0 (hashWord hash entry.1) = block k0 v
    · have hlow := (block_eq_iff (by omega) _ _).1 hsame
      left
      rw [mem_append]
      rcases holds_bySize hmem with ⟨i, hi⟩ | ⟨i, hi⟩
      · left
        rw [chainAt_eq (by omega) hsize0, ← hlow, ← index_eq_mod hash hsize0,
          hwf0.placed i entry hi]
        exact hi
      right
      apply mem_scanExpansions hash hle hk hsize1 hwf1 hi hlow
      by_contra hbelow
      have hindex : i = (hashWord hash entry.1).toNat % 2 ^ k1 := by
        rw [← index_eq_mod hash hsize1, hwf1.placed i entry hi]
      have hilt : i < 2 ^ k1 := hindex ▸ Nat.mod_lt _ (by positivity)
      have hpow : 2 ^ k1 ≤ 2 ^ 63 := Nat.pow_le_pow_right (by omega) hk
      have hpassed := hcover hbusy i (by omega)
        (by rw [hsize0, hindex, Nat.mod_mod_of_dvd _ (pow_dvd_pow 2 hle),
          hlow])
        (by rw [hsize1]; omega) (ne_nil_of_mem hi)
      -- both words lie under the larger mask, so their order is that of
      -- their blocks, and the blocks are those of the entry and the cursor
      have hword : (BitVec.ofNat 64 i).toNat = i := by
        rw [BitVec.toNat_ofNat]
        exact mod_eq_of_lt (by omega)
      have hmasked : (v &&& lowMask 64 k1).toNat = v.toNat % 2 ^ k1 :=
        toNat_and_lowMask hk v
      rw [mask_eq_lowMask hsize1,
        order_eq_block_mul (k := k1) (by omega) (by rw [hword]; exact hilt),
        order_eq_block_mul (k := k1) (by omega)
          (by rw [hmasked]; exact mod_lt _ (by positivity)),
        (block_eq_iff (by omega) (BitVec.ofNat 64 i)
          (hashWord hash entry.1)).2
          (by rw [hword, ← hindex, mod_eq_of_lt hilt]),
        (block_eq_iff (by omega) (v &&& lowMask 64 k1) v).2
          (by rw [hmasked, mod_mod])] at hpassed
      have hblock : block k1 v ≤ block k1 (hashWord hash entry.1) :=
        Nat.div_le_div_right hahead
      exact absurd hpassed (not_lt.2 (Nat.mul_le_mul_right _ hblock))
    · right
      exact (order_advance_le (by omega) hahead hsame).symm
  · rw [if_pos (by simpa using hbusy)]
    have hidle : d.rehashidx = none := by
      simpa [Dict.isRehashing] using hbusy
    have hempty : ∀ i, d.ht1.bucket i = [] := by simp [hwf.idle hidle]
    obtain ⟨i, hi⟩ : ∃ i, entry ∈ d.ht0.bucket i := by
      rcases hmem with hht0 | ⟨i, hi⟩
      · exact hht0
      · simp [hempty] at hi
    have hsize : d.ht0.size ≠ 0 := by
      intro hzero
      rw [bucket_eq_nil_of_size_le d.ht0 (by omega)] at hi
      simp at hi
    obtain ⟨k, _, hk, hsize⟩ := hwf.size0.resolve_left hsize
    dsimp only
    rw [mask_eq_lowMask hsize, advanceCursor_eq]
    by_cases hsame : block k (hashWord hash entry.1) = block k v
    · left
      rw [chainAt_eq hk hsize, ← (block_eq_iff (by omega) _ _).1 hsame,
        ← index_eq_mod hash hsize, hwf.wf0.placed i entry hi]
      exact hi
    · right
      exact (order_advance_le (by omega) hahead hsame).symm

variable [DecidableEq K]

/-- Iterations of `dictScan` interleaved with other operations.  The indices
are the current dictionary, the cursor for the next call, the entries emitted
so far and the keys present ever since the first call; every call is made in a
dictionary and with a cursor that satisfy `P`. -/
inductive ScanRun (P : Dict K V → BitVec 64 → Prop) :
    Dict K V → BitVec 64 → List (K × V) → (K → Prop) → Prop
  | first {d : Dict K V} (hwf : d.WF hash) (hcall : P d 0) :
      ScanRun P d (dictScan d 0).2 (dictScan d 0).1 d.HasKey
  | op {d : Dict K V} {v : BitVec 64} {emitted : List (K × V)}
      {stable : K → Prop} (o : Op K V) (hrun : ScanRun P d v emitted stable) :
      ScanRun P (o.apply hash d) v emitted
        (fun key => stable key ∧ (o.apply hash d).HasKey key)
  | call {d : Dict K V} {v : BitVec 64} {emitted : List (K × V)}
      {stable : K → Prop} (hrun : ScanRun P d v emitted stable) (hmore : v ≠ 0)
      (hcall : P d v) :
      ScanRun P d (dictScan d v).2 (emitted ++ (dictScan d v).1) stable

/-- The invariant of an iteration: each key still stable is in the table, and
was emitted or lies at or after the cursor. -/
structure ScanInv (d : Dict K V) (v : BitVec 64) (emitted : List (K × V))
    (stable : K → Prop) : Prop where
  wf : d.WF hash
  present : ∀ key, stable key → d.HasKey key
  ahead : ∀ key, stable key → (∃ val, (key, val) ∈ emitted) ∨
    v ≠ 0 ∧ order v ≤ order (hashWord hash key)

theorem scanRun_inv {emitted : List (K × V)} {stable : K → Prop}
    (hrun : ScanRun hash CursorCovers d v emitted stable) :
    ScanInv hash d v emitted stable := by
  induction hrun with
  | first hwf hcall =>
    refine ⟨hwf, fun _ hkey => hkey, fun key hkey => ?_⟩
    obtain ⟨val, hmem⟩ := hkey
    rcases dictScan_step hash hwf hcall hmem (by simp) with hemit | hnext
    · exact Or.inl ⟨val, hemit⟩
    · exact Or.inr hnext
  | op o hrun ih =>
    exact ⟨wf_apply hash ih.wf o, fun _ hkey => hkey.2,
      fun key hkey => ih.ahead key hkey.1⟩
  | call hrun hmore hcall ih =>
    refine ⟨ih.wf, ih.present, fun key hkey => ?_⟩
    rcases ih.ahead key hkey with ⟨val, hold⟩ | ⟨-, hahead⟩
    · exact Or.inl ⟨val, mem_append_left _ hold⟩
    obtain ⟨val, hmem⟩ := ih.present key hkey
    rcases dictScan_step hash ih.wf hcall hmem hahead with hemit | hnext
    · exact Or.inl ⟨val, mem_append_right _ hemit⟩
    · exact Or.inr hnext

/-- The scan guarantee: once the cursor is back at zero, every key that was
present from the first call to the last has been emitted. -/
theorem scanRun_emits {emitted : List (K × V)} {stable : K → Prop}
    (hrun : ScanRun hash CursorCovers d 0 emitted stable) {key : K}
    (hstable : stable key) : ∃ val, (key, val) ∈ emitted := by
  rcases (scanRun_inv hash hrun).ahead key hstable with hemitted | hahead
  · exact hemitted
  · exact absurd rfl hahead.1

end Guarantee

section Examples

/-- The hash function of the concrete runs. -/
def plainHash (key : ℕ) : BitVec 32 := BitVec.ofNat 32 key

/-- A table of the requested size holding the single key 4. -/
def singleton4 (size : ℕ) : Dict ℕ Unit :=
  (dictAdd plainHash true (dictExpand Dict.create size).1 4 ()).1

theorem wf_singleton4 (size : ℕ) : (singleton4 size).WF plainHash :=
  wf_dictAdd plainHash (dictExpand_spec plainHash (wf_create plainHash) size).1
    true 4 ()

/-- A table of 8 buckets shrunk to 4 in the middle of the iteration: key 4
stays in the larger table throughout and is emitted from there. -/
theorem scanRun_emits_shrink_to_half :
    ∃ (d : Dict ℕ Unit) (emitted : List (ℕ × Unit)) (stable : ℕ → Prop),
      ScanRun plainHash CursorCovers d 0 emitted stable ∧ stable 4 ∧
        ∃ val, (4, val) ∈ emitted := by
  have h0 := ScanRun.first (P := CursorCovers) (wf_singleton4 8) (by decide)
  have h1 := ScanRun.op (.resize true) h0
  have h2 := ScanRun.call h1 (by decide) (by decide)
  have h3 := ScanRun.call h2 (by decide) (by decide)
  have h4 := ScanRun.call h3 (by decide) (by decide)
  have h5 := ScanRun.call h4 (by decide) (by decide)
  have hstable : (fun key => (singleton4 8).HasKey key ∧
      ((Op.resize true).apply plainHash (singleton4 8)).HasKey key) 4 :=
    ⟨⟨(), Or.inl ⟨4, by decide⟩⟩, ⟨(), Or.inl ⟨4, by decide⟩⟩⟩
  exact ⟨_, _, _, h5, hstable, scanRun_emits plainHash h5 hstable⟩

/-- A table of 16 buckets shrunk to 4 after the first call.  The second call
expands bucket 0 of the small table from index 8 upwards and never comes back
to index 4, where the key is. -/
theorem scanRun_misses_shrink_to_quarter :
    ∃ (d : Dict ℕ Unit) (emitted : List (ℕ × Unit)) (stable : ℕ → Prop),
      ScanRun plainHash (fun _ _ => True) d 0 emitted stable ∧ stable 4 ∧
        ¬ ∃ val, (4, val) ∈ emitted := by
  have h0 := ScanRun.first (P := fun _ _ => True) (wf_singleton4 16) trivial
  have h1 := ScanRun.op (.resize true) h0
  have h2 := ScanRun.call h1 (by decide) trivial
  have h3 := ScanRun.call h2 (by decide) trivial
  have h4 := ScanRun.call h3 (by decide) trivial
  have h5 := ScanRun.call h4 (by decide) trivial
  refine ⟨_, _, _, h5, ⟨⟨(), Or.inl ⟨4, by decide⟩⟩,
    ⟨(), Or.inl ⟨4, by decide⟩⟩⟩, ?_⟩
  rintro ⟨⟨⟩, hmem⟩
  revert hmem
  decide

end Examples

end RedisV8.HashTable
