import RedisV8.Skiplist.Patch

/-!
# Changing the row behind a search path

Insertion and deletion both replace what follows the towers `left` and patch
the levels of the path to `left`.  The theorems here say, for any loop body
that turns the old links of the path into the new ones, that all of `left`
is linked to the new row afterwards.
-/

namespace RedisV8.Skiplist

open Reach List

variable {S M A : Type} {heap : Heap S M} {post pre : List (Tower S M)} {i : ℕ}
  {f : ℕ → A → Level → Option Level}

/-- The towers `seg`, standing between `pre` and `post`, are stored. -/
def Segment (heap : Heap S M) (pre seg post : List (Tower S M)) : Prop :=
  ∀ l t r, seg = l ++ t :: r → heap t.addr =
    some (render ((pre ++ l).getLast?.map Tower.addr) t (r ++ post))

theorem segment_nil (heap : Heap S M) (pre post : List (Tower S M)) :
    Segment heap pre [] post := by
  intro l t r h
  simp at h

theorem segment_append {a b : List (Tower S M)} :
    Segment heap pre (a ++ b) post ↔
      Segment heap pre a (b ++ post) ∧ Segment heap (pre ++ a) b post := by
  constructor
  · intro h
    refine ⟨?_, ?_⟩
    · rintro l t r rfl
      rw [h l t (r ++ b) (by simp), append_assoc]
    · rintro l t r rfl
      rw [h (a ++ l) t r (by simp), ← append_assoc]
  rintro ⟨ha, hb⟩ l t r hsplit
  rcases append_eq_append_iff.mp hsplit with ⟨m, hl, hb'⟩ | ⟨m, ha', hm⟩
  · rw [hb m t r hb', hl, append_assoc]
  cases m with
  | nil =>
    have hl : l = a := by simpa using ha'.symm
    have hb' : b = [] ++ t :: r := by simpa using hm.symm
    rw [hb [] t r hb', append_nil, hl]
  | cons u m =>
    rw [cons_append] at hm
    obtain ⟨rfl, rfl⟩ := cons.inj hm
    rw [ha l t m ha', append_assoc]

theorem segment_singleton {t : Tower S M} :
    Segment heap pre [t] post ↔
      heap t.addr = some (render (pre.getLast?.map Tower.addr) t post) := by
  constructor
  · intro h
    simpa using h [] t [] rfl
  intro h l u r hsplit
  obtain ⟨rfl, rfl, rfl⟩ : l = [] ∧ u = t ∧ r = [] := by
    cases l with
    | nil =>
      obtain ⟨rfl, rfl⟩ := cons.inj hsplit
      exact ⟨rfl, rfl, rfl⟩
    | cons v l => simp at hsplit
  simpa using h

/-- Segments are kept by heaps that agree on their addresses. -/
theorem Segment.congr {heap' : Heap S M} {seg : List (Tower S M)}
    (h : Segment heap pre seg post)
    (heq : ∀ t ∈ seg, heap' t.addr = heap t.addr) :
    Segment heap' pre seg post := by
  intro l t r hsplit
  rw [heq t (by rw [hsplit]; simp), h l t r hsplit]

/-- Turning the backward pointer of its first tower moves a segment behind
another row. -/
theorem Segment.rebase {pre' : List (Tower S M)} {t : Tower S M}
    {r : List (Tower S M)} (h : Segment heap pre (t :: r) post)
    (hnodup : ((t :: r).map Tower.addr).Nodup) :
    ∃ heap', setBackward heap t.addr (pre'.getLast?.map Tower.addr) =
        some heap' ∧
      Segment heap' pre' (t :: r) post ∧ ∀ a, a ≠ t.addr → heap' a = heap a := by
  have hcons : t :: r = [t] ++ r := rfl
  rw [hcons, segment_append, segment_singleton] at h
  obtain ⟨hfirst, hrest⟩ := h
  refine ⟨_, by rw [setBackward, hfirst]; rfl, ?_, ?_⟩
  · rw [hcons, segment_append, segment_singleton]
    refine ⟨by rw [Function.update_self]; rfl, ?_⟩
    intro l u s hsplit
    have hne : u.addr ≠ t.addr := by
      intro heq
      rw [map_cons, nodup_cons] at hnodup
      apply hnodup.1
      rw [← heq]
      exact mem_map_of_mem (by rw [hsplit]; simp)
    rw [Function.update_of_ne hne, hrest l u s hsplit]
    simp only [getLast?_append, getLast?_singleton, Option.some_or]
  · intro a ha
    rw [Function.update_of_ne ha]

section Relink

variable {zsl : Zskiplist S M} {left old new : List (Tower S M)}
  {inv : List (Tower S M) → A → Prop} {path : List (ℕ × A)}

/-- The path entry of level `i` against any position of that level: they are
the same exactly when no tower of level `i` follows the position. -/
theorem OnPath.eq_or_ne (h : Represents zsl (left ++ old)) {x : ℕ}
    {l l₁ l₂ : List (Tower S M)} (hpath : OnPath i left l x)
    (hleft : left = l₁ ++ l₂) (hstands : StandsOn i l₁) :
    (l = l₁ ∧ x = here l₁ ∧ ∀ t ∈ l₂, t.height ≤ i) ∨
      (x ≠ here l₁ ∧ ∃ t ∈ l₂, tall i t = true) := by
  obtain ⟨m, hm, hlow⟩ := hpath.low
  by_cases hlow₂ : ∀ t ∈ l₂, t.height ≤ i
  · left
    have heq : l = l₁ := by
      rcases append_eq_append_iff.mp (hm.symm.trans hleft) with
        ⟨s, hl₁, hm'⟩ | ⟨s, hl, hl₂⟩
      · cases s using reverseRecOn with
        | nil => rw [hl₁, append_nil]
        | append_singleton s t =>
          rw [hl₁, ← append_assoc, standsOn_concat] at hstands
          exact absurd (hlow t (by rw [hm']; simp)) (Nat.not_le.mpr hstands)
      cases s using reverseRecOn with
      | nil => rw [hl, append_nil]
      | append_singleton s t =>
        have hl' := hpath.stands
        rw [hl, ← append_assoc, standsOn_concat] at hl'
        exact absurd (hlow₂ t (by rw [hl₂]; simp)) (Nat.not_le.mpr hl')
    exact ⟨heq, by rw [hpath.addr, heq], hlow₂⟩
  · right
    push Not at hlow₂
    obtain ⟨t, ht, hheight⟩ := hlow₂
    refine ⟨?_, t, ht, tall_iff.mpr hheight⟩
    intro hx
    have hl : left ++ old = l ++ (m ++ old) := by rw [hm, append_assoc]
    have hl₁ : left ++ old = l₁ ++ (l₂ ++ old) := by
      rw [hleft, append_assoc]
    have heq : l = l₁ := h.here_injective hl hl₁ (hpath.addr.symm.trans hx)
    rw [heq, hleft] at hm
    rw [append_cancel_left hm] at ht
    exact absurd (hlow t ht) (Nat.not_le.mpr hheight)

/-- A loop body that relinks every path entry from `old` to `new`. -/
def Relinks (f : ℕ → A → Level → Option Level)
    (inv : List (Tower S M) → A → Prop) (n : ℕ)
    (left old new : List (Tower S M)) : Prop :=
  ∀ i < n, ∀ l₁ l₂ crossed, left = l₁ ++ l₂ → (∀ t ∈ l₂, tall i t = false) →
    inv l₁ crossed →
    f i crossed (link i (l₂ ++ old)) = some (link i (l₂ ++ new))

theorem link_append_of_exists {l : List (Tower S M)}
    (h : ∃ t ∈ l, tall i t = true) (r : List (Tower S M)) :
    link i (l ++ r) = link i l := by
  rw [link, find?_append_of_exists _ r h, reach_append_of_exists _ r h, link]

/-- What a relinking loop makes of the heap. -/
structure Relinked (heap heap' : Heap S M) (level : ℕ)
    (left new : List (Tower S M)) : Prop where
  header : ∃ levels, heap' 0 = some ⟨none, none, levels⟩ ∧
    HeaderLevels levels level (left ++ new)
  segment : Segment heap' [] left new
  other : ∀ a, a ≠ 0 → (∀ t ∈ left, t.addr ≠ a) → heap' a = heap a

theorem pathPatch_other (hpath : IsPath inv zsl.level left path) {a : ℕ}
    (ha : a ≠ 0) (hleft : ∀ t ∈ left, t.addr ≠ a) :
    patch (pathPatch f 0 path) zsl.heap a = zsl.heap a := by
  apply patch_apply_of_forall
  intro i lv
  by_cases hi : i < zsl.level
  · obtain ⟨l, x, crossed, hentry, hon, _⟩ := hpath.entry i hi
    obtain ⟨m, hm, _⟩ := hon.low
    have hx : x ≠ a := by
      rw [hon.addr]
      cases l using reverseRecOn with
      | nil => exact ha.symm
      | append_singleton l t =>
        rw [here_concat]
        exact hleft t (by rw [hm]; simp)
    simp [pathPatch, hentry, hx]
  · have hnone : path[i]? = none := by
      apply getElem?_eq_none
      rw [hpath.length]
      exact Nat.not_lt.mp hi
    simp [pathPatch, hnone]

section Loop

variable (h : Represents zsl (left ++ old))
  (hpath : IsPath inv zsl.level left path)
  (hf : Relinks f inv zsl.level left old new)

include h hpath hf

/-- After the loop every position of `left` is linked to the new row. -/
theorem pathPatch_link (hi : i < zsl.level)
    {l₁ l₂ : List (Tower S M)} (hleft : left = l₁ ++ l₂)
    (hstands : StandsOn i l₁) :
    pathPatch f 0 path (here l₁) i (link i (l₂ ++ old)) =
      link i (l₂ ++ new) := by
  obtain ⟨l, x, crossed, hentry, hon, hinv⟩ := hpath.entry i hi
  simp only [pathPatch, Nat.zero_le, if_true, Nat.sub_zero, hentry]
  cases hon.eq_or_ne h hleft hstands with
  | inl hsame =>
    obtain ⟨rfl, hx, hlow⟩ := hsame
    have hnew := hf i hi l l₂ crossed hleft
      (fun t ht => tall_eq_false_of_le (hlow t ht)) hinv
    rw [if_pos hx, hnew, Option.getD_some]
  | inr hother =>
    obtain ⟨hx, htall⟩ := hother
    rw [if_neg hx, link_append_of_exists htall, link_append_of_exists htall]

theorem patchable_of_relinks :
    Patchable f 0 path zsl.heap := by
  intro i x crossed hentry
  have hi : i < zsl.level := by
    rw [← hpath.length]
    exact (List.getElem?_eq_some_iff.mp hentry).1
  obtain ⟨l, x', crossed', hentry', hon, hinv⟩ := hpath.entry i hi
  obtain ⟨rfl, rfl⟩ := Prod.mk.inj (Option.some.inj (hentry.symm.trans hentry'))
  obtain ⟨m, hm, hlow⟩ := hon.low
  rw [Nat.zero_add]
  refine ⟨link i (m ++ old), link i (m ++ new), ?_, ?_⟩
  · rw [hon.addr]
    apply h.levelAt_here _ hon.stands hi
    rw [hm, append_assoc]
  · exact hf i hi l m crossed hm
      (fun t ht => tall_eq_false_of_le (hlow t ht)) hinv

theorem pathPatch_header :
    ∃ levels, patch (pathPatch f 0 path) zsl.heap 0 =
        some ⟨none, none, levels⟩ ∧
      HeaderLevels levels zsl.level (left ++ new) := by
  obtain ⟨levels, hheap, hlevels⟩ := h.header
  refine ⟨levels.mapIdx (pathPatch f 0 path 0), by simp [patch, hheap], ?_, ?_,
    ?_⟩
  · rw [length_mapIdx, hlevels.length]
  · intro i hi
    have hnew := pathPatch_link h hpath hf hi
      (show left = [] ++ left from rfl) (standsOn_nil i)
    rw [getElem?_mapIdx, hlevels.used i hi, Option.map_some]
    exact congrArg some hnew
  intro i hi hmax
  have hnone : path[i]? = none := by
    apply getElem?_eq_none
    rw [hpath.length]
    exact hi
  have hkeep : pathPatch f 0 path 0 i = id := by
    funext lv
    simp [pathPatch, hnone]
  rw [getElem?_mapIdx, hkeep, Option.map_id]
  exact hlevels.unused i hi hmax

theorem pathPatch_segment :
    Segment (patch (pathPatch f 0 path) zsl.heap) [] left new := by
  intro l t r hsplit
  have hnode := h.node l t (r ++ old) (by rw [hsplit]; simp)
  have hheight : t.height ≤ zsl.level := by
    apply h.level.bound t
    rw [hsplit]
    simp
  have hlevels : (render (l.getLast?.map Tower.addr) t (r ++ old)).level.mapIdx
      (pathPatch f 0 path t.addr) =
        (render (l.getLast?.map Tower.addr) t (r ++ new)).level := by
    apply ext_getElem?
    intro i
    rw [getElem?_mapIdx]
    by_cases hi : i < t.height
    · have hleft : left = (l ++ [t]) ++ r := by
        rw [hsplit, append_assoc, singleton_append]
      have hnew := pathPatch_link h hpath hf (hi.trans_le hheight) hleft
        ((standsOn_concat l).mpr hi)
      rw [here_concat] at hnew
      rw [getElem?_render_level _ _ hi, getElem?_render_level _ _ hi,
        Option.map_some, hnew]
    · simp [render, hi]
  rw [patch, hnode, Option.map_some, hlevels]
  rfl

/-- A relinking loop succeeds, links all of `left` to the new row and leaves
the other nodes alone. -/
theorem patchPath_relinked :
    ∃ heap', patchPath f 0 path zsl.heap = some heap' ∧
      Relinked zsl.heap heap' zsl.level left new :=
  ⟨_, patchPath_eq f path 0 zsl.heap (patchable_of_relinks h hpath hf),
    pathPatch_header h hpath hf, pathPatch_segment h hpath hf,
    fun _ ha hleft => pathPatch_other hpath ha hleft⟩

end Loop

end Relink

end RedisV8.Skiplist
