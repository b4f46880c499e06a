import Mathlib.Data.List.Basic

/-!
# Texts with holes

A text that is written from the left while some of its parts are still
unknown.  Each unknown part is a hole with a label, and is filled in later.
-/

namespace RedisV8.Holes

open List

variable {α ι : Type*}

inductive Item (α ι : Type*) where
  | item (a : α)
  | hole (label : ι)
  deriving DecidableEq

namespace Item

def label? : Item α ι → Option ι
  | .item _ => none
  | .hole label => some label

end Item

/-- A text without holes. -/
def solid (l : List α) : List (Item α ι) := l.map .item

/-- The labels of the holes, from the left. -/
def labels (s : List (Item α ι)) : List ι := s.filterMap Item.label?

/-- The stretch before the first hole. -/
def upToHole : List (Item α ι) → List α
  | [] => []
  | .item a :: s => a :: upToHole s
  | .hole _ :: _ => []

section Solid

@[simp]
theorem solid_append (l r : List α) :
    (solid (l ++ r) : List (Item α ι)) = solid l ++ solid r :=
  map_append

@[simp]
theorem length_solid (l : List α) :
    (solid l : List (Item α ι)).length = l.length :=
  length_map _

theorem solid_drop (n : ℕ) (l : List α) :
    (solid (l.drop n) : List (Item α ι)) = (solid l).drop n :=
  map_drop

@[simp]
theorem labels_solid (l : List α) : labels (solid l : List (Item α ι)) = [] := by
  simp [labels, solid, Item.label?]

@[simp]
theorem labels_append (s t : List (Item α ι)) :
    labels (s ++ t) = labels s ++ labels t :=
  filterMap_append

@[simp]
theorem labels_hole (label : ι) (s : List (Item α ι)) :
    labels (.hole label :: s) = label :: labels s := rfl

theorem not_mem_labels_cons {label : ι} {item : Item α ι}
    {s : List (Item α ι)} :
    label ∉ labels (item :: s) ↔
      item.label? ≠ some label ∧ label ∉ labels s := by
  cases item with
  | item a => simp [labels, Item.label?]
  | hole other => simp [Item.label?, eq_comm]

@[simp]
theorem upToHole_solid_append (l : List α) (s : List (Item α ι)) :
    upToHole (solid l ++ s) = l ++ upToHole s := by
  induction l with
  | nil => rfl
  | cons a l ih => exact congrArg (a :: ·) ih

end Solid

section Filling

variable [DecidableEq ι]

/-- Every hole with the label replaced by a text. -/
def fill (label : ι) (l : List α) (s : List (Item α ι)) : List (Item α ι) :=
  s.flatMap fun item =>
    if item.label? = some label then solid l else [item]

/-- The stretch between the hole with the label and the next one. -/
def afterHole (label : ι) : List (Item α ι) → List α
  | [] => []
  | item :: s =>
    if item.label? = some label then upToHole s else afterHole label s

@[simp]
theorem fill_append (label : ι) (l : List α) (s t : List (Item α ι)) :
    fill label l (s ++ t) = fill label l s ++ fill label l t :=
  flatMap_append

theorem fill_of_not_mem {label : ι} {s : List (Item α ι)}
    (hs : label ∉ labels s) (l : List α) : fill label l s = s := by
  induction s with
  | nil => rfl
  | cons item s ih =>
    obtain ⟨hitem, hrest⟩ := not_mem_labels_cons.1 hs
    rw [fill, flatMap_cons, if_neg hitem, ← fill, ih hrest]
    rfl

@[simp]
theorem fill_solid (label : ι) (l r : List α) :
    fill label l (solid r) = (solid r : List (Item α ι)) :=
  fill_of_not_mem (by simp) l

@[simp]
theorem fill_hole (label : ι) (l : List α) :
    fill label l [.hole label] = solid l := by
  simp [fill, Item.label?]

theorem afterHole_append {label : ι} {s : List (Item α ι)}
    (hs : label ∉ labels s) (t : List (Item α ι)) :
    afterHole label (s ++ .hole label :: t) = upToHole t := by
  induction s with
  | nil =>
    rw [nil_append, afterHole]
    exact if_pos rfl
  | cons item s ih =>
    obtain ⟨hitem, hrest⟩ := not_mem_labels_cons.1 hs
    rw [cons_append, afterHole, if_neg hitem, ih hrest]

end Filling

end RedisV8.Holes
