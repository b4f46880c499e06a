import Mathlib

/-!
# Byte strings, little-endian words and fixed-size blocks

A heap block is a byte string of exactly its allocated length.  Loads, stores
and moves are partial: an access outside the block has no result, so a proof
that an operation returns also shows that it stays inside its block.
-/

namespace RedisV8

open List

abbrev Bytes := List UInt8

/-- `Option.bind_some` for the bind of a `do` block. -/
theorem some_bind {α β : Type} (a : α) (f : α → Option β) :
    (some a >>= f) = f a := rfl

namespace Bytes

section LittleEndian

/-- The `width` low-order bytes of `n`, least significant first. -/
def leBytes (width n : ℕ) : Bytes :=
  (range width).map fun i => UInt8.ofNat (n / 256 ^ i)

def leNat (bytes : Bytes) : ℕ := Nat.ofDigits 256 (bytes.map UInt8.toNat)

@[simp]
theorem length_leBytes (width n : ℕ) : (leBytes width n).length = width := by
  simp [leBytes]

theorem leBytes_succ (width n : ℕ) :
    leBytes (width + 1) n = UInt8.ofNat n :: leBytes width (n / 256) := by
  rw [leBytes, range_succ_eq_map, map_cons, map_map, pow_zero,
    Nat.div_one, leBytes]
  congr 1
  apply map_congr_left
  intro i _
  simp only [Function.comp_apply]
  rw [Nat.div_div_eq_div_mul, ← Nat.pow_succ']

@[simp]
theorem leNat_nil : leNat [] = 0 := rfl

@[simp]
theorem leNat_cons (byte : UInt8) (bytes : Bytes) :
    leNat (byte :: bytes) = byte.toNat + 256 * leNat bytes := by
  simp [leNat, Nat.ofDigits_cons]

theorem leNat_leBytes (width n : ℕ) :
    leNat (leBytes width n) = n % 256 ^ width := by
  induction width generalizing n with
  | zero => simp [leBytes, Nat.mod_one]
  | succ width ih =>
    rw [leBytes_succ, leNat_cons, ih, pow_succ', Nat.mod_mul]
    simp

theorem leNat_lt (bytes : Bytes) : leNat bytes < 256 ^ bytes.length := by
  have hdigits : ∀ digit ∈ bytes.map UInt8.toNat, digit < 256 := by
    intro digit hdigit
    obtain ⟨byte, _, rfl⟩ := mem_map.1 hdigit
    exact byte.toNat_lt
  simpa [leNat] using Nat.ofDigits_lt_base_pow_length (by omega) hdigits

theorem leBytes_leNat (bytes : Bytes) :
    leBytes bytes.length (leNat bytes) = bytes := by
  induction bytes with
  | nil => rfl
  | cons byte bytes ih =>
    have hbyte := byte.toNat_lt
    have hquot : (byte.toNat + 256 * leNat bytes) / 256 = leNat bytes := by
      omega
    rw [length_cons, leBytes_succ, leNat_cons, hquot, ih]
    congr 1
    apply UInt8.toNat_inj.1
    simp

theorem leNat_injective {left right : Bytes}
    (hlength : left.length = right.length) (heq : leNat left = leNat right) :
    left = right := by
  rw [← leBytes_leNat left, ← leBytes_leNat right, hlength, heq]

end LittleEndian

section Block

variable {α : Type*}

/-- `zrealloc`: the common part is kept, the rest of a larger block is
arbitrary. -/
def resize (junk : ℕ → α) (block : List α) (size : ℕ) : List α :=
  block.take size ++ (range' block.length (size - block.length)).map junk

def load (block : List α) (offset count : ℕ) : Option (List α) :=
  if offset + count ≤ block.length then
    some ((block.drop offset).take count)
  else none

def store (block : List α) (offset : ℕ) (data : List α) : Option (List α) :=
  if offset + data.length ≤ block.length then
    some (block.take offset ++ data ++ block.drop (offset + data.length))
  else none

def memmove (block : List α) (dst src count : ℕ) : Option (List α) := do
  let data ← load block src count
  store block dst data

theorem length_resize (junk : ℕ → α) (block : List α) (size : ℕ) :
    (resize junk block size).length = size := by
  simp only [resize, length_append, length_take, length_map, length_range']
  omega

theorem load_append (before data after : List α) :
    load (before ++ data ++ after) before.length data.length = some data := by
  simp [load]

theorem store_append (before old after data : List α)
    (hlength : old.length = data.length) :
    store (before ++ old ++ after) before.length data =
      some (before ++ data ++ after) := by
  simp [store, ← hlength]

theorem store_eq_none {block data : List α} {offset : ℕ}
    (hlt : block.length < offset + data.length) :
    store block offset data = none := by
  simp [store, hlt]

theorem length_store {block data block' : List α} {offset : ℕ}
    (hstore : store block offset data = some block') :
    block'.length = block.length := by
  unfold store at hstore
  split at hstore
  · cases hstore
    simp only [length_append, length_take, length_drop]
    omega
  · cases hstore

/-- A resize that keeps the block keeps its contents in front. -/
theorem resize_of_le (junk : ℕ → α) {block : List α} {size : ℕ}
    (hle : block.length ≤ size) :
    ∃ extra, extra.length = size - block.length ∧
      resize junk block size = block ++ extra := by
  refine ⟨(range' block.length (size - block.length)).map junk, by simp, ?_⟩
  rw [resize, take_of_length_le hle]

theorem resize_append_left (junk : ℕ → α) (front block : List α) {size : ℕ}
    (hle : front.length ≤ size) :
    resize junk (front ++ block) size =
      front ++ resize (fun i => junk (front.length + i)) block
        (size - front.length) := by
  have hcount : size - (front ++ block).length =
      size - front.length - block.length := by
    rw [length_append]
    omega
  have hshift : range' (front ++ block).length
      (size - front.length - block.length) =
      (range' block.length (size - front.length - block.length)).map
        (front.length + ·) := by
    rw [map_add_range', length_append]
  rw [resize, resize, hcount, hshift, map_map, take_append,
    take_of_length_le hle, append_assoc]
  rfl

theorem take_resize (junk : ℕ → α) (block : List α) {count size : ℕ}
    (hle : count ≤ size) :
    (resize junk block size).take count = resize junk block count := by
  have hcount : count - (block.take size).length = count - block.length := by
    rw [length_take]
    omega
  rw [resize, resize, take_append, take_take, Nat.min_eq_left hle,
    ← map_take, hcount, take_range'_of_length_ge (by omega)]

theorem getElem?_resize (junk : ℕ → α) {block : List α} {size i : ℕ}
    (hblock : i < block.length) (hsize : i < size) :
    (resize junk block size)[i]? = block[i]? := by
  rw [resize, getElem?_append_left (by rw [length_take]; omega),
    getElem?_take_of_lt hsize]

theorem memmove_eq {block data : List α} {dst src count : ℕ}
    (hload : load block src count = some data)
    (hle : dst + data.length ≤ block.length) :
    memmove block dst src count =
      some (block.take dst ++ data ++ block.drop (dst + data.length)) := by
  simp [memmove, hload, store, hle]

/-- Replacing a field by a longer one: the data behind it is moved up into free
space and the field is overwritten. -/
theorem memmove_store_eq (front old data free after field : List α)
    (hlength : field.length = old.length + free.length) :
    (memmove (front ++ (old ++ (data ++ (free ++ after))))
        (front.length + field.length) (front.length + old.length)
        data.length).bind (store · front.length field) =
      some (front ++ (field ++ (data ++ after))) := by
  set block := front ++ (old ++ (data ++ (free ++ after))) with hblock
  have hload : load block (front.length + old.length) data.length =
      some data := by
    have hload := load_append (front ++ old) data (free ++ after)
    simpa [hblock] using hload
  have htotal : block.length = front.length + old.length + data.length +
      free.length + after.length := by
    simp [hblock]
    omega
  have hdrop : block.drop (front.length + field.length + data.length) =
      after := by
    have hsplit : block = (front ++ (old ++ (data ++ free))) ++ after := by
      simp [hblock]
    rw [hsplit]
    apply drop_left'
    simp only [length_append]
    omega
  have htake : block.take (front.length + field.length) =
      front ++ (block.drop front.length).take field.length := by
    rw [take_add]
    simp [hblock]
  rw [memmove_eq hload (by omega), hdrop, htake, Option.bind_some]
  have hgap : ((block.drop front.length).take field.length).length =
      field.length := by
    rw [length_take, length_drop]
    omega
  have hstore := store_append front
    ((block.drop front.length).take field.length) (data ++ after) field hgap
  simpa using hstore

theorem length_load {block data : List α} {offset count : ℕ}
    (hload : load block offset count = some data) : data.length = count := by
  unfold load at hload
  split_ifs at hload with hle
  cases hload
  rw [length_take, length_drop]
  omega

/-- A window that starts inside `front` and ends with `data`. -/
theorem load_window (front data after : List α) {count : ℕ}
    (hle : count ≤ front.length) :
    load (front ++ (data ++ after)) (front.length - count)
        (count + data.length) =
      some (front.drop (front.length - count) ++ data) := by
  have hload := load_append (front.take (front.length - count))
    (front.drop (front.length - count) ++ data) after
  have htake : (front.take (front.length - count)).length =
      front.length - count := by
    rw [length_take]
    omega
  have hdata : (front.drop (front.length - count) ++ data).length =
      count + data.length := by
    rw [length_append, length_drop]
    omega
  rw [htake, hdata, ← append_assoc, take_append_drop, append_assoc] at hload
  exact hload

/-- A move followed by overwriting the first bytes of what was moved. -/
theorem memmove_store_front {block old data : List α} {src count : ℕ}
    (dst : ℕ) (field : List α) (hload : load block src count = some (old ++ data))
    (hlength : field.length = old.length)
    (hle : dst + (old.length + data.length) ≤ block.length) :
    (memmove block dst src count).bind (store · dst field) =
      some (block.take dst ++ (field ++ (data ++
        block.drop (dst + (old.length + data.length))))) := by
  have hstore := store_append (block.take dst) old
    (data ++ block.drop (dst + (old.length + data.length))) field hlength.symm
  rw [length_take, Nat.min_eq_left (by omega)] at hstore
  rw [memmove_eq hload (by rwa [length_append]), Option.bind_some]
  simpa using hstore

theorem memmove_eq_none {block : List α} {dst src count : ℕ}
    (hlt : block.length < dst + count) : memmove block dst src count = none := by
  cases hload : load block src count with
  | none => simp [memmove, hload]
  | some data =>
    rw [memmove, hload]
    apply store_eq_none
    rwa [length_load hload]

theorem resize_append (junk : ℕ → α) (kept cut : List α) :
    resize junk (kept ++ cut) kept.length = kept := by
  simp [resize]

end Block

end Bytes

end RedisV8
