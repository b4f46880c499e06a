import RedisV8.Skiplist.Search

/-!
# Patching the levels of a search path

The loops that rewrite one level per node of a search path, as functions of
the whole heap.
-/

namespace RedisV8.Skiplist

open Reach Option List

variable {S M A : Type}

def patch (g : ℕ → ℕ → Level → Level) (heap : Heap S M) : Heap S M :=
  fun x => (heap x).map fun node =>
    { node with level := node.level.mapIdx (g x) }

theorem levelAt_patch (g : ℕ → ℕ → Level → Level) (heap : Heap S M)
    (x i : ℕ) : levelAt (patch g heap) x i = (levelAt heap x i).map (g x i) := by
  cases hx : heap x with
  | none => simp [levelAt, patch, hx]
  | some node => simp [levelAt, patch, hx]

/-- A node none of whose levels changes stays as it is. -/
theorem patch_apply_of_forall {g : ℕ → ℕ → Level → Level} {x : ℕ}
    (h : ∀ i lv, g x i lv = lv) (heap : Heap S M) :
    patch g heap x = heap x := by
  cases hx : heap x with
  | none => simp [patch, hx]
  | some node =>
    have hlevels : node.level.mapIdx (g x) = node.level := by
      apply ext_getElem?
      intro i
      have hid : g x i = id := funext (h i)
      simp [hid]
    simp [patch, hx, hlevels]

theorem patch_patch (g k : ℕ → ℕ → Level → Level) (heap : Heap S M) :
    patch k (patch g heap) = patch (fun x i lv => k x i (g x i lv)) heap := by
  funext x
  cases hx : heap x with
  | none => simp [patch, hx]
  | some node => simp [patch, hx, mapIdx_mapIdx, Function.comp_def]

theorem patch_congr {g k : ℕ → ℕ → Level → Level} {heap : Heap S M}
    (h : ∀ x i lv, levelAt heap x i = some lv → g x i lv = k x i lv) :
    patch g heap = patch k heap := by
  funext x
  cases hx : heap x with
  | none => simp [patch, hx]
  | some node =>
    have hlevels : node.level.mapIdx (g x) = node.level.mapIdx (k x) := by
      apply mapIdx_eq_mapIdx_iff.mpr
      intro i hi
      apply h x i
      simp [levelAt, hx, hi]
    simp [patch, hx, hlevels]

/-- Writing one level of one node. -/
theorem setLevel_eq_patch {heap : Heap S M} {x i : ℕ} {lv : Level}
    (h : levelAt heap x i = some lv) (new : Level) :
    setLevel heap x i new =
      some (patch (fun y j old => if y = x ∧ j = i then new else old) heap) := by
  cases hx : heap x with
  | none => simp [levelAt, hx] at h
  | some node =>
    have hi : i < node.level.length := by
      simp only [levelAt, hx, bind_eq_bind, bind_some] at h
      exact (List.getElem?_eq_some_iff.mp h).1
    simp only [setLevel, hx, bind_eq_bind, bind_some, hi, if_true]
    congr 1
    funext y
    by_cases hy : y = x
    · subst hy
      rw [Function.update_self, patch, hx, map_some]
      congr 2
      apply ext_getElem?
      intro j
      by_cases hj : j = i
      · subst hj
        simp [hi]
      · simp [getElem?_set_ne (Ne.symm hj), hj]
    · rw [Function.update_of_ne hy, patch_apply_of_forall]
      simp [hy]

/-- The change that a loop over `path`, starting on level `i`, makes. -/
def pathPatch (f : ℕ → A → Level → Option Level) (i : ℕ)
    (path : List (ℕ × A)) (x j : ℕ) (lv : Level) : Level :=
  if i ≤ j then
    match path[j - i]? with
    | some (y, crossed) => if y = x then (f j crossed lv).getD lv else lv
    | none => lv
  else lv

/-- Every level a loop over `path` reads exists, and its body succeeds. -/
def Patchable (f : ℕ → A → Level → Option Level) (i : ℕ)
    (path : List (ℕ × A)) (heap : Heap S M) : Prop :=
  ∀ j x crossed, path[j]? = some (x, crossed) →
    ∃ lv lv', levelAt heap x (i + j) = some lv ∧ f (i + j) crossed lv = some lv'

theorem patchPath_eq (f : ℕ → A → Level → Option Level) (path : List (ℕ × A))
    (i : ℕ) (heap : Heap S M) (h : Patchable f i path heap) :
    patchPath f i path heap = some (patch (pathPatch f i path) heap) := by
  induction path generalizing i heap with
  | nil =>
    rw [patchPath]
    congr 1
    funext x
    rw [patch_apply_of_forall]
    simp [pathPatch]
  | cons entry path ih =>
    obtain ⟨x, crossed⟩ := entry
    obtain ⟨lv, lv', hlv, hf⟩ := h 0 x crossed rfl
    rw [Nat.add_zero] at hlv hf
    have hrest : Patchable f (i + 1) path
        (patch (fun y j old => if y = x ∧ j = i then lv' else old) heap) := by
      intro j y c hj
      obtain ⟨old, new, hold, hnew⟩ := h (j + 1) y c hj
      refine ⟨old, new, ?_, ?_⟩
      · rw [levelAt_patch, Nat.add_assoc, Nat.add_comm 1 j, hold]
        simp
      · rwa [Nat.add_assoc, Nat.add_comm 1 j]
    simp only [patchPath, hlv, hf, setLevel_eq_patch hlv, bind_eq_bind,
      bind_some]
    rw [ih (i + 1) _ hrest, patch_patch]
    congr 1
    apply patch_congr
    intro y j old hold
    rcases Nat.lt_trichotomy j i with hlt | heq | hgt
    · simp [pathPatch, Nat.not_le.mpr hlt, hlt.ne, Nat.not_le.mpr (hlt.trans i.lt_succ_self)]
    · subst heq
      by_cases hy : y = x
      · subst hy
        obtain rfl := Option.some.inj (hold.symm.trans hlv)
        simp [pathPatch, hf]
      · simp [pathPatch, hy, Ne.symm hy]
    obtain ⟨d, rfl⟩ := Nat.exists_eq_add_of_lt hgt
    have h1 : i + d + 1 - i = d + 1 := by omega
    have h2 : i + d + 1 - (i + 1) = d := by omega
    have h3 : i + d + 1 ≠ i := by omega
    have h4 : i + 1 ≤ i + d + 1 := by omega
    simp [pathPatch, h1, h2, h3, h4, hgt.le]

/-- The linking loop rewrites the path like `patchPath` and collects what it
took over. -/
theorem linkLevels_eq (x : ℕ) (rank0 : BitVec 32) (old : ℕ → Level)
    (path : List (ℕ × BitVec 32)) (i : ℕ) (heap : Heap S M)
    (h : ∀ j u rank, path[j]? = some (u, rank) →
      levelAt heap u (i + j) = some (old (i + j))) :
    linkLevels x rank0 i path heap =
      (patchPath (fun _ rank _ => some ⟨some x, rank0 - rank + 1⟩) i path
        heap).map (·, path.mapIdx fun j entry =>
          ⟨(old (i + j)).forward, (old (i + j)).span - (rank0 - entry.2)⟩) := by
  induction path generalizing i heap with
  | nil => rfl
  | cons entry path ih =>
    obtain ⟨u, rank⟩ := entry
    have hlv := h 0 u rank rfl
    rw [Nat.add_zero] at hlv
    have hset := setLevel_eq_patch hlv ⟨some x, rank0 - rank + 1⟩
    have hstep := ih (i + 1)
      (patch (fun y j lv =>
        if y = u ∧ j = i then ⟨some x, rank0 - rank + 1⟩ else lv) heap) (by
      intro j v c hj
      have hold := h (j + 1) v c hj
      rw [levelAt_patch, Nat.add_assoc, Nat.add_comm 1 j, hold]
      simp)
    simp only [linkLevels, patchPath, hlv, hset, bind_eq_bind,
      bind_some, hstep, mapIdx_cons, Nat.add_zero]
    cases patchPath (fun _ rank _ => some ⟨some x, rank0 - rank + 1⟩) (i + 1)
        path _ with
    | none => rfl
    | some heap' => simp [Nat.add_assoc, Nat.add_comm 1]

end RedisV8.Skiplist
