import Mathlib.Data.List.Basic
import Mathlib.Tactic.Ring

/-!
# Distance to the first element of a list that meets a test

`reach p l` counts the steps from just before `l` to its first element
satisfying `p`, or to the end of `l` when no element does.  Together with
`List.find?` it describes one express link over a list.
-/

namespace RedisV8.Reach

open List

variable {α : Type*} (p : α → Bool)

def reach : List α → ℕ
  | [] => 0
  | a :: l => if p a then 1 else reach l + 1

@[simp]
theorem reach_nil : reach p [] = 0 := rfl

theorem reach_cons_of_pos {a : α} (l : List α) (h : p a = true) :
    reach p (a :: l) = 1 := by
  rw [reach, if_pos h]

theorem reach_cons_of_neg {a : α} (l : List α) (h : p a = false) :
    reach p (a :: l) = reach p l + 1 := by
  rw [reach, if_neg (by simp [h])]

theorem reach_le_length (l : List α) : reach p l ≤ l.length := by
  induction l with
  | nil => exact Nat.le_refl 0
  | cons a l ih =>
    cases ha : p a with
    | true =>
      rw [reach_cons_of_pos p l ha, length_cons]
      exact Nat.le_add_left 1 _
    | false =>
      rw [reach_cons_of_neg p l ha, length_cons]
      exact Nat.succ_le_succ ih

/-- Elements failing the test only add their number. -/
theorem reach_append_of_forall {l : List α} (r : List α)
    (h : ∀ a ∈ l, p a = false) : reach p (l ++ r) = l.length + reach p r := by
  induction l with
  | nil => rw [nil_append, length_nil, Nat.zero_add]
  | cons a l ih =>
    have hl := ih fun b hb => h b (mem_cons_of_mem a hb)
    rw [cons_append, reach_cons_of_neg p _ (h a mem_cons_self), hl, length_cons]
    ring

/-- What follows the first hit does not matter. -/
theorem reach_append_of_exists {l : List α} (r : List α)
    (h : ∃ a ∈ l, p a = true) : reach p (l ++ r) = reach p l := by
  induction l with
  | nil =>
    obtain ⟨a, ha, _⟩ := h
    exact absurd ha not_mem_nil
  | cons a l ih =>
    rw [cons_append]
    cases ha : p a with
    | true => rw [reach_cons_of_pos p _ ha, reach_cons_of_pos p _ ha]
    | false =>
      have hl : ∃ b ∈ l, p b = true := by
        obtain ⟨b, hb, hpb⟩ := h
        cases mem_cons.mp hb with
        | inl heq => exact absurd hpb (by rw [heq, ha]; decide)
        | inr hmem => exact ⟨b, hmem, hpb⟩
      rw [reach_cons_of_neg p _ ha, reach_cons_of_neg p _ ha, ih hl]

theorem find?_append_of_forall {l : List α} (r : List α)
    (h : ∀ a ∈ l, p a = false) : (l ++ r).find? p = r.find? p := by
  have hnone : l.find? p = none :=
    find?_eq_none.mpr fun a ha => by simp [h a ha]
  rw [find?_append, hnone, Option.none_or]

theorem find?_append_of_exists {l : List α} (r : List α)
    (h : ∃ a ∈ l, p a = true) : (l ++ r).find? p = l.find? p := by
  have hsome : (l.find? p).isSome := find?_isSome.mpr h
  obtain ⟨a, ha⟩ := Option.isSome_iff_exists.mp hsome
  rw [find?_append, ha, Option.some_or]

/-- A list either has no hit, and `reach` measures all of it, or it splits
at its first hit. -/
theorem reach_cases (l : List α) :
    (l.find? p = none ∧ reach p l = l.length ∧ ∀ a ∈ l, p a = false) ∨
      ∃ s a t, l = s ++ a :: t ∧ (∀ b ∈ s, p b = false) ∧ p a = true ∧
        l.find? p = some a ∧ reach p l = s.length + 1 := by
  cases hfind : l.find? p with
  | none =>
    have hall : ∀ a ∈ l, p a = false := fun a ha => by
      simpa using find?_eq_none.mp hfind a ha
    refine Or.inl ⟨rfl, ?_, hall⟩
    have happ := reach_append_of_forall p [] hall
    rwa [append_nil, reach_nil, Nat.add_zero] at happ
  | some a =>
    obtain ⟨hpa, s, t, hl, hs⟩ := find?_eq_some_iff_append.mp hfind
    have hs' : ∀ b ∈ s, p b = false := fun b hb => by
      simpa using hs b hb
    refine Or.inr ⟨s, a, t, hl, hs', hpa, rfl, ?_⟩
    rw [hl, reach_append_of_forall p _ hs', reach_cons_of_pos p t hpa]

end RedisV8.Reach
