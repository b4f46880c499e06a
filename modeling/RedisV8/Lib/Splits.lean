import Mathlib.Data.List.Basic

/-!
# Lists split at a place

A change at a place of a list, on the list written as what stands before the
place and what follows.
-/

namespace RedisV8.Splits

open List

variable {α : Type*} (left : List α) (a : α) (right : List α)

theorem exists_split {l : List α} {p : ℕ} (hp : p < l.length) :
    ∃ left a right, l = left ++ a :: right ∧ left.length = p := by
  refine ⟨l.take p, l[p], l.drop (p + 1), ?_, ?_⟩
  · rw [← drop_eq_getElem_cons hp, take_append_drop]
  · rw [length_take]
    omega

theorem eraseIdx_split :
    (left ++ a :: right).eraseIdx left.length = left ++ right := by
  rw [eraseIdx_append_of_length_le (Nat.le_refl _), Nat.sub_self]
  rfl

theorem insertIdx_split :
    (left ++ right).insertIdx left.length a = left ++ a :: right := by
  induction left with
  | nil => rfl
  | cons b left ih =>
    rw [cons_append, length_cons, insertIdx_succ_cons, ih]
    rfl

theorem set_split (b : α) :
    (left ++ b :: right).set left.length a = left ++ a :: right := by
  rw [set_append_right _ _ (Nat.le_refl _), Nat.sub_self]
  rfl

end RedisV8.Splits
