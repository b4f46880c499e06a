import RedisV8.Lib.Bytes

/-!
# Arrays of equal cells in a block

Values that are all written in `width` units, one after the other.  The cell
at a position is read and written at `width` times the position.
-/

namespace RedisV8.Cells

open Bytes List

variable {α β : Type*} {width : ℕ} {code : β → List α}

/-- The units of an array. -/
def pack (code : β → List α) (values : List β) : List α := values.flatMap code

@[simp]
theorem pack_nil : pack code [] = [] := rfl

@[simp]
theorem pack_cons (value : β) (values : List β) :
    pack code (value :: values) = code value ++ pack code values :=
  flatMap_cons

@[simp]
theorem pack_append (values rest : List β) :
    pack code (values ++ rest) = pack code values ++ pack code rest :=
  flatMap_append

variable (hcode : ∀ value, (code value).length = width)

include hcode

theorem length_pack (values : List β) :
    (pack code values).length = values.length * width := by
  induction values with
  | nil => rw [pack_nil, length_nil, length_nil, Nat.zero_mul]
  | cons value values ih =>
    rw [pack_cons, length_append, hcode, ih, length_cons,
      Nat.succ_mul, Nat.add_comm]

theorem load_pack (pre : List β) (value : β) (after : List α) :
    load (pack code pre ++ (code value ++ after)) (pre.length * width) width =
      some (code value) := by
  have hload := load_append (pack code pre) (code value) after
  rwa [length_pack hcode, hcode, append_assoc] at hload

theorem store_pack (pre : List β) (value : β) {old : List α}
    (hold : old.length = width) (after : List α) :
    store (pack code pre ++ (old ++ after)) (pre.length * width) (code value) =
      some (pack code pre ++ (code value ++ after)) := by
  have hstore := store_append (pack code pre) old after (code value)
    (hold.trans (hcode value).symm)
  rwa [length_pack hcode, append_assoc, append_assoc] at hstore

/-- Room for a cell is made at a position, and the cell is written there. -/
theorem insert_pack (pre : List β) (value : β) (post : List β) {room : List α}
    (hroom : room.length = width) :
    (memmove (pack code pre ++ (pack code post ++ room))
        ((pre.length + 1) * width) (pre.length * width)
        (post.length * width)).bind
        (store · (pre.length * width) (code value)) =
      some (pack code (pre ++ value :: post)) := by
  have hmove := memmove_store_eq (pack code pre) [] (pack code post) room []
    (code value) (by rw [hcode, length_nil, hroom, Nat.zero_add])
  rw [nil_append, append_nil, append_nil, length_nil,
    Nat.add_zero, length_pack hcode, length_pack hcode, hcode,
    ← Nat.succ_mul] at hmove
  rw [hmove, pack_append, pack_cons]

/-- The cells behind a position are moved over it. -/
theorem remove_pack (pre : List β) (value : β) (post : List β) :
    ∃ rest, memmove (pack code (pre ++ value :: post)) (pre.length * width)
        ((pre.length + 1) * width) (post.length * width) =
      some (pack code (pre ++ post) ++ rest) := by
  have hload := load_append (pack code (pre ++ [value])) (pack code post) []
  rw [length_pack hcode, length_pack hcode, length_append,
    length_singleton, append_nil, ← pack_append, append_assoc,
    singleton_append] at hload
  have hle : pre.length * width + (pack code post).length ≤
      (pack code (pre ++ value :: post)).length := by
    rw [length_pack hcode, length_pack hcode, length_append,
      length_cons, ← Nat.add_mul]
    exact Nat.mul_le_mul_right _ (by omega)
  have htake : (pack code (pre ++ value :: post)).take (pre.length * width) =
      pack code pre := by
    rw [pack_append, ← length_pack hcode, take_left' rfl]
  exact ⟨_, by rw [memmove_eq hload hle, htake, ← pack_append]⟩

end RedisV8.Cells
