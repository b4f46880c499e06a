import Mathlib

/-!
# Circular buffers

A circular buffer of `n` cells holds the end of everything that was ever
written to it: position `p` of that history lies in cell `p % n`, as long as
fewer than `n` later positions have been written.
-/

namespace RedisV8.Circular

open List Nat

variable {α : Type*}

/-- The cells, and the one that is written next. -/
structure Buffer (α : Type*) where
  buf : List α
  idx : ℕ
  idx_lt : idx < buf.length

namespace Buffer

def size (r : Buffer α) : ℕ := r.buf.length

/-- A chunk that does not reach past the end of the cells. -/
def put (r : Buffer α) (chunk : List α) (hfits : chunk.length ≤ r.size - r.idx) :
    Buffer α where
  buf := r.buf.take r.idx ++ chunk ++ r.buf.drop (r.idx + chunk.length)
  idx := if r.idx + chunk.length = r.size then 0 else r.idx + chunk.length
  idx_lt := by
    have hlt := r.idx_lt
    rw [size] at hfits ⊢
    simp only [length_append, length_take, length_drop]
    split <;> omega

theorem size_put (r : Buffer α) {chunk : List α}
    (hfits : chunk.length ≤ r.size - r.idx) :
    (r.put chunk hfits).size = r.size := by
  have hlt := r.idx_lt
  simp only [size, put] at hfits ⊢
  simp only [length_append, length_take, length_drop]
  omega

/-- Data chunk by chunk, with at least one cell in each. -/
def writeLoop : ℕ → Buffer α → List α → Buffer α
  | 0, r, _ => r
  | fuel + 1, r, data =>
    if data = [] then r
    else
      writeLoop fuel
        (r.put (data.take (r.size - r.idx)) (length_take_le _ _))
        (data.drop (r.size - r.idx))

/-- Data of any length. -/
def write (r : Buffer α) (data : List α) : Buffer α :=
  writeLoop data.length r data

/-- `len` cells from cell `j` on, going round at most once. -/
def read (r : Buffer α) (j len : ℕ) : List α :=
  if r.size - j < len then
    r.buf.drop j ++ r.buf.take (len - (r.size - j))
  else (r.buf.drop j).take len

/-! ## What the cells hold -/

/-- The cells hold the end of `s`. -/
structure Window (r : Buffer α) (s : List α) : Prop where
  idx_eq : r.idx = s.length % r.size
  cell : ∀ p < s.length, s.length ≤ p + r.size → r.buf[p % r.size]? = s[p]?

theorem size_pos (r : Buffer α) : 0 < r.size := (zero_le _).trans_lt r.idx_lt

theorem window_nil {r : Buffer α} (hidx : r.idx = 0) : Window r [] where
  idx_eq := by rw [hidx, length_nil, zero_mod]
  cell p hp := absurd hp (not_lt_zero p)

/-- The cells behind the chunk are those of the positions it pushes out. -/
theorem Window.put {r : Buffer α} {s chunk : List α} (hwindow : Window r s)
    (hfits : chunk.length ≤ r.size - r.idx) :
    Window (r.put chunk hfits) (s ++ chunk) := by
  have hlt : r.idx < r.size := r.idx_lt
  have hidx := hwindow.idx_eq
  have hdiv := div_add_mod s.length r.size
  rw [← hidx] at hdiv
  constructor
  · rw [size_put, length_append, add_mod, ← hidx]
    simp only [Buffer.put]
    split
    · rename_i hend
      obtain hfull | hshort := eq_or_lt_of_le (show chunk.length ≤ r.size by
        omega)
      · rw [hfull, mod_self, show r.idx = 0 by omega, zero_mod]
      · rw [mod_eq_of_lt hshort, hend, mod_self]
    · rw [mod_eq_of_lt (show chunk.length < r.size by omega),
        mod_eq_of_lt (by omega)]
  intro p hp hwithin
  rw [size_put] at hwithin ⊢
  rw [length_append] at hp hwithin
  simp only [Buffer.put]
  have htake : (r.buf.take r.idx).length = r.idx :=
    length_take_of_le (le_of_lt r.idx_lt)
  by_cases hnew : s.length ≤ p
  · have hp' : p % r.size = r.idx + (p - s.length) := by
      have hsum : p = r.idx + (p - s.length) + r.size * (s.length / r.size) := by
        omega
      rw [hsum, add_mul_mod_self_left, mod_eq_of_lt (by omega)]
      omega
    rw [getElem?_append_right hnew, hp',
      getElem?_append_left (by rw [length_append, htake]; omega),
      getElem?_append_right (by rw [htake]; omega), htake,
      Nat.add_sub_cancel_left]
  have hold := hwindow.cell p (by omega) (by omega)
  have hcell : p % r.size < r.idx ∨ r.idx + chunk.length ≤ p % r.size := by
    have hp' := Nat.div_add_mod p r.size
    have hmod := mod_lt p r.size_pos
    by_contra hbetween
    obtain hless | hsame : p / r.size < s.length / r.size ∨
        s.length / r.size ≤ p / r.size := by omega
    · have := mul_le_mul_left r.size hless
      rw [mul_succ] at this
      omega
    · have := mul_le_mul_left r.size hsame
      omega
  rw [show (s ++ chunk)[p]? = s[p]? from
    getElem?_append_left (by omega), ← hold]
  obtain hbefore | hbehind := hcell
  · rw [getElem?_append_left (by rw [length_append, htake]; omega),
      getElem?_append_left (by rw [htake]; omega),
      getElem?_take_of_lt hbefore]
  rw [getElem?_append_right (by
      rw [length_append, htake]; omega),
    length_append, htake, getElem?_drop]
  congr 1
  omega

theorem size_writeLoop (fuel : ℕ) (r : Buffer α) (data : List α) :
    (writeLoop fuel r data).size = r.size := by
  induction fuel generalizing r data with
  | zero => rfl
  | succ fuel ih =>
    rw [writeLoop]
    split
    · rfl
    · rw [ih, size_put]

theorem size_write (r : Buffer α) (data : List α) :
    (r.write data).size = r.size :=
  size_writeLoop _ r data

theorem Window.writeLoop {r : Buffer α} {s : List α} (hwindow : Window r s)
    {fuel : ℕ} {data : List α} (hfuel : data.length ≤ fuel) :
    Window (writeLoop fuel r data) (s ++ data) := by
  induction fuel generalizing r s data with
  | zero =>
    obtain rfl := length_eq_zero_iff.1 (le_zero.1 hfuel)
    rwa [append_nil]
  | succ fuel ih =>
    rw [Buffer.writeLoop]
    split
    · rename_i hnil
      rwa [hnil, append_nil]
    rename_i hdata
    have hlt : r.idx < r.size := r.idx_lt
    have hpos := length_pos_iff.2 hdata
    have hchunk : (data.take (r.size - r.idx)).length ≤ r.size - r.idx :=
      length_take_le _ _
    have hstep := ih (hwindow.put hchunk)
      (show (data.drop (r.size - r.idx)).length ≤ fuel by
        rw [length_drop]
        omega)
    rwa [append_assoc, take_append_drop] at hstep

theorem Window.write {r : Buffer α} {s : List α} (hwindow : Window r s)
    (data : List α) : Window (r.write data) (s ++ data) :=
  hwindow.writeLoop le_rfl

theorem add_mod_of_lt {a b n : ℕ} (hlt : a % n + b < n) :
    (a + b) % n = a % n + b := by
  rw [add_mod, mod_eq_of_lt (show b < n by omega), mod_eq_of_lt hlt]

theorem add_mod_of_le {a b n : ℕ} (hle : n ≤ a % n + b) (hb : b < n) :
    (a + b) % n = a % n + b - n := by
  have hmod := mod_lt a (show 0 < n by omega)
  rw [add_mod, mod_eq_of_lt hb, mod_eq_sub_mod hle, mod_eq_of_lt (by omega)]

/-- The cells that `read` visits. -/
theorem read_getElem? (r : Buffer α) {j len i : ℕ} (hj : j < r.size) :
    (r.read j len)[i]? =
      if i < len then
        r.buf[if j + i < r.size then j + i else j + i - r.size]?
      else none := by
  have hlength : r.buf.length = r.size := rfl
  rw [read]
  split
  · obtain hfirst | hsecond := lt_or_ge i (r.size - j)
    · rw [getElem?_append_left (by rw [length_drop]; omega),
        getElem?_drop, if_pos (by omega), if_pos (by omega)]
    rw [getElem?_append_right (by rw [length_drop]; omega),
      length_drop, getElem?_take, hlength]
    by_cases hi : i < len
    · rw [if_pos hi, if_pos (by omega), if_neg (by omega)]
      congr 1
      omega
    · rw [if_neg hi, if_neg (by omega)]
  · rw [getElem?_take, getElem?_drop]
    by_cases hi : i < len
    · rw [if_pos hi, if_pos hi, if_pos (by omega)]
    · rw [if_neg hi, if_neg hi]

/-- Reading the last `len` positions. -/
theorem Window.read {r : Buffer α} {s : List α} (hwindow : Window r s) {len : ℕ}
    (hhistory : len ≤ s.length) (hsize : len ≤ r.size) :
    r.read ((s.length - len) % r.size) len = s.drop (s.length - len) := by
  have hmod := mod_lt (s.length - len) r.size_pos
  apply ext_getElem?
  intro i
  rw [getElem?_drop, read_getElem? r hmod]
  split
  · rename_i hi
    rw [← hwindow.cell (s.length - len + i) (by omega) (by omega)]
    congr 1
    split
    · rename_i hstraight
      rw [add_mod_of_lt hstraight]
    · rename_i hround
      rw [add_mod_of_le (by omega) (by omega)]
  · rw [getElem?_eq_none (by omega)]

end Buffer

end RedisV8.Circular
