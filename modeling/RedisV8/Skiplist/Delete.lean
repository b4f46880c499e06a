import RedisV8.Skiplist.Relink

/-!
# Deletion from a skiplist

`zslDeleteNode` takes one tower out of the row, given the path to it; the
range deletions repeat it with one path, which stays the path to the towers
in front of the range.
-/

namespace RedisV8.Skiplist

open Reach List Option Function Tower

variable {S M A : Type} {left right ts : List (Tower S M)} {n : ℕ}
  {inv : List (Tower S M) → A → Prop} {path : List (ℕ × A)}
  {zsl : Zskiplist S M}

/-- The level is one, or the height of some tower. -/
def Attained (level : ℕ) (ts : List (Tower S M)) : Prop :=
  level = 1 ∨ ∃ t ∈ ts, t.height = level

section Links

variable {i : ℕ} {l r : List (Tower S M)} {t : Tower S M}

theorem link_append_of_forall (h : ∀ u ∈ l, tall i u = false) :
    link i (l ++ r) =
      ⟨(link i r).forward, BitVec.ofNat 32 l.length + (link i r).span⟩ := by
  rw [link, find?_append_of_forall _ r h, reach_append_of_forall _ r h,
    BitVec.ofNat_add]
  rfl

theorem link_cons_of_lt (h : i < t.height) :
    link i (t :: r) = ⟨some t.addr, 1⟩ := by
  have htall : tall i t = true := tall_iff.mpr h
  rw [link, find?_cons_of_pos htall, reach_cons_of_pos _ r htall]
  rfl

theorem link_cons_of_le (h : t.height ≤ i) :
    link i (t :: r) = ⟨(link i r).forward, (link i r).span + 1⟩ := by
  have hlow : tall i t = false := tall_eq_false_of_le h
  rw [link, find?_cons_of_neg (by simp [hlow]), reach_cons_of_neg _ r hlow,
    BitVec.ofNat_add]
  rfl

theorem head?_render_level (backward : Option ℕ) (r : List (Tower S M))
    (h : 0 < t.height) :
    (render backward t r).level.head? = some (link 0 r) := by
  rw [head?_eq_getElem?]
  exact getElem?_render_level backward r h

theorem forward_link_mem {a : ℕ} (h : (link i r).forward = some a) :
    a ∈ r.map addr := by
  obtain ⟨u, hu, rfl⟩ := map_eq_some_iff.mp h
  exact mem_map_of_mem (mem_of_find?_eq_some hu)

theorem forward_link_eq_none :
    (link i r).forward = none ↔ ∀ u ∈ r, u.height ≤ i := by
  simp [link, find?_eq_none]

end Links

/-- The loop of `zslDeleteNode` relinks the path past the deleted tower. -/
theorem unlinkLevel_relinks {t : Tower S M}
    (hnodup : t.addr ∉ right.map addr) (backward : Option ℕ)
    (inv : List (Tower S M) → A → Prop) (n : ℕ) :
    Relinks (fun i _ lv => unlinkLevel t.addr (render backward t right) i lv)
      inv n left (t :: right) right := by
  intro i _ l₁ l₂ crossed _ hlow _
  rw [link_append_of_forall hlow, link_append_of_forall hlow]
  by_cases hi : i < t.height
  · rw [link_cons_of_lt hi]
    simp only [unlinkLevel, if_true, getElem?_render_level backward right hi,
      bind_eq_bind, bind_some]
    congr 2
    ring
  rw [link_cons_of_le (Nat.not_lt.mp hi)]
  have hne : (link i right).forward ≠ some t.addr :=
    fun heq => hnodup (forward_link_mem heq)
  simp only [unlinkLevel, if_neg hne]
  congr 2
  ring

/-! ## Dropping empty levels -/

/-- `shrinkLevel` stops at the lowest level above which all are empty. -/
theorem shrinkLevel_spec (levels : List Level) (hn : 0 < n) :
    0 < shrinkLevel levels n ∧ shrinkLevel levels n ≤ n ∧
      (∀ i, shrinkLevel levels n ≤ i → i < n →
        levels[i]?.bind Level.forward = none) ∧
      (shrinkLevel levels n = 1 ∨
        levels[shrinkLevel levels n - 1]?.bind Level.forward ≠ none) := by
  induction n with
  | zero => exact absurd hn (lt_irrefl 0)
  | succ n ih =>
    cases n with
    | zero =>
      refine ⟨Nat.one_pos, le_rfl, ?_, Or.inl rfl⟩
      intro i hle hlt
      exact absurd hlt (Nat.not_lt.mpr hle)
    | succ n =>
      cases hempty : levels[n + 1]?.bind Level.forward with
      | none =>
        obtain ⟨hpos, hle, hall, hstop⟩ := ih (Nat.succ_pos n)
        have hstep : shrinkLevel levels (n + 2) =
            shrinkLevel levels (n + 1) := by
          rw [shrinkLevel, hempty, isNone_none, if_pos rfl]
        rw [hstep]
        refine ⟨hpos, hle.trans (Nat.le_succ _), ?_, hstop⟩
        intro i hi hlt
        cases Nat.lt_succ_iff_lt_or_eq.mp hlt with
        | inl hlt' => exact hall i hi hlt'
        | inr heq => rw [heq, hempty]
      | some f =>
        have hstep : shrinkLevel levels (n + 2) = n + 2 := by
          rw [shrinkLevel, hempty, isNone_some]
          rfl
        rw [hstep]
        refine ⟨Nat.succ_pos _, le_rfl, ?_, Or.inr ?_⟩
        · intro i hle hlt
          exact absurd hlt (Nat.not_lt.mpr hle)
        · rw [Nat.add_sub_cancel (n + 1) 1, hempty]
          exact some_ne_none f

theorem HeaderLevels.shrink {levels : List Level} {level : ℕ}
    (h : HeaderLevels levels level ts) (hbound : LevelBound level ts) :
    HeaderLevels levels (shrinkLevel levels level) ts ∧
      LevelBound (shrinkLevel levels level) ts ∧
      Attained (shrinkLevel levels level) ts := by
  obtain ⟨hpos, hle, hempty, hstop⟩ := shrinkLevel_spec levels hbound.pos
  generalize shrinkLevel levels level = n at *
  have hforward : ∀ i < level, levels[i]?.bind Level.forward =
      (link i ts).forward := by
    intro i hi
    rw [h.used i hi, bind_some]
  have hlow : ∀ t ∈ ts, t.height ≤ n := by
    intro t ht
    by_contra hlt
    have hi : t.height - 1 < level := by
      have := hbound.bound t ht
      omega
    have hnone := hempty (t.height - 1) (by omega) hi
    rw [hforward _ hi, forward_link_eq_none] at hnone
    have := hnone t ht
    omega
  refine ⟨⟨h.length, fun i hi => h.used i (hi.trans_le hle), ?_⟩,
    ⟨hpos, hle.trans hbound.le_maxLevel, hlow⟩, ?_⟩
  · intro i hi hmax
    by_cases hlevel : i < level
    · have hnone := hempty i hi hlevel
      rw [h.used i hlevel, bind_some] at hnone
      rw [h.used i hlevel, map_some, hnone]
    · exact h.unused i (Nat.not_lt.mp hlevel) hmax
  refine hstop.imp_right fun hne => ?_
  rw [hforward (n - 1) (by omega), ne_eq, forward_link_eq_none] at hne
  push Not at hne
  obtain ⟨t, ht, hheight⟩ := hne
  have := hlow t ht
  exact ⟨t, ht, by omega⟩

/-! ## One node -/

theorem IsPath.take {m : ℕ} (h : IsPath inv n left path) (hm : m ≤ n) :
    IsPath inv m left (path.take m) := by
  refine ⟨?_, ?_⟩
  · rw [length_take, h.length, Nat.min_eq_left hm]
  · intro i hi
    rw [getElem?_take_of_lt hi]
    exact h.entry i (hi.trans_le hm)

theorem Represents.segment (h : Represents zsl ts) :
    Segment zsl.heap [] ts [] := by
  intro l t r hsplit
  rw [h.node l t r hsplit, nil_append, append_nil]

theorem node_of_segment {heap : Heap S M} (h : Segment heap [] ts [])
    (l : List (Tower S M)) (t : Tower S M) (r : List (Tower S M))
    (hsplit : ts = l ++ t :: r) :
    heap t.addr = some (render (l.getLast?.map addr) t r) := by
  rw [h l t r hsplit, nil_append, append_nil]

theorem forward_link_zero {r : List (Tower S M)}
    (hpos : ∀ t ∈ r, 0 < t.height) :
    (link 0 r).forward = r.head?.map addr := by
  cases r with
  | nil => rfl
  | cons t r => rw [link_cons_of_lt (hpos t mem_cons_self)]; rfl

/-- Fixing the pointers to the right of the change: the first tower of
`right` goes back to the row `pre'`, or the row ends there. -/
theorem turnBack_spec {heap : Heap S M} {pre : List (Tower S M)}
    (h : Segment heap pre right []) (pre' : List (Tower S M))
    (tail : Option ℕ) (hnodup : (right.map addr).Nodup)
    (htail : tail = (pre ++ right).getLast?.map addr) :
    ∃ heap', turnBack heap (right.head?.map addr)
        (pre'.getLast?.map addr) tail =
          some (heap', (pre' ++ right).getLast?.map addr) ∧
      Segment heap' pre' right [] ∧
      ∀ a, a ∉ right.map addr → heap' a = heap a := by
  cases right with
  | nil =>
    refine ⟨heap, ?_, segment_nil heap pre' [], fun _ _ => rfl⟩
    rw [append_nil]
    rfl
  | cons t r =>
    obtain ⟨heap', hset, hsegment, hother⟩ := h.rebase hnodup
    refine ⟨heap', ?_, hsegment, ?_⟩
    · simp only [turnBack, head?_cons, map_some, hset, htail,
        getLast?_append, getLast?_cons, some_or]
    intro a ha
    apply hother
    rintro rfl
    exact ha (mem_map_of_mem mem_cons_self)

theorem mem_insert_of_mem {t u : Tower S M} (h : u ∈ left ++ right) :
    u ∈ left ++ t :: right := by
  rw [mem_append] at h
  simp only [mem_append, mem_cons]
  tauto

theorem nodup_addrs_insert {t : Tower S M} :
    (addrs (left ++ t :: right)).Nodup ↔
      t.addr ∉ addrs (left ++ right) ∧ (addrs (left ++ right)).Nodup := by
  have hperm : (addrs (left ++ t :: right)).Perm
      (t.addr :: addrs (left ++ right)) := by
    refine List.Perm.trans (List.Perm.cons 0 ?_) (List.Perm.swap _ _ _)
    exact perm_middle.map addr
  rw [hperm.nodup_iff, nodup_cons]

theorem nodup_addrs_append (h : (addrs (left ++ right)).Nodup) :
    (right.map addr).Nodup ∧ 0 ∉ right.map addr ∧
      ∀ t ∈ left, t.addr ∉ right.map addr := by
  rw [addrs, map_append, nodup_cons, nodup_append] at h
  obtain ⟨hzero, _, hright, hdisjoint⟩ := h
  refine ⟨hright, fun hmem => hzero (mem_append_right _ hmem), ?_⟩
  intro t ht hmem
  exact hdisjoint _ (mem_map_of_mem ht) _ hmem rfl

/-- Nodes outside the row can come and go. -/
theorem Represents.update_other (h : Represents zsl ts) {x : ℕ}
    (hx : x ∉ addrs ts) (node : Option (Node S M)) :
    Represents { zsl with heap := update zsl.heap x node } ts where
  header := by
    obtain ⟨levels, hheap, hlevels⟩ := h.header
    have hne : 0 ≠ x := by
      rintro rfl
      exact hx mem_cons_self
    exact ⟨levels, (update_of_ne hne _ _).trans hheap, hlevels⟩
  node l t r hsplit := by
    have hmem : t.addr ∈ addrs ts :=
      mem_cons_of_mem _ (mem_map_of_mem (by rw [hsplit]; simp))
    have hne : t.addr ≠ x := by
      rintro rfl
      exact hx hmem
    exact (update_of_ne hne _ _).trans (h.node l t r hsplit)
  nodup := h.nodup
  fresh := h.fresh
  height_pos := h.height_pos
  level := h.level
  tail := h.tail
  length := h.length

/-- `zslDeleteNode` and `zslFreeNode` take one tower out of the row. -/
theorem zslDeleteNode_spec {t : Tower S M}
    (h : Represents zsl (left ++ t :: right)) (hpath : IsPath inv n left path)
    (hn : zsl.level ≤ n) :
    ∃ zsl', zslDeleteNode zsl t.addr path = some zsl' ∧
      Represents (zslFreeNode zsl' t.addr) (left ++ right) ∧
      Attained zsl'.level (left ++ right) ∧ zsl'.level ≤ zsl.level := by
  obtain ⟨hfresh, hnodup⟩ := nodup_addrs_insert.mp h.nodup
  obtain ⟨hright, hzero, hleft⟩ := nodup_addrs_append hnodup
  have hnode := h.node left t right rfl
  have hpos : ∀ u ∈ left ++ right, 0 < u.height := fun u hu =>
    h.height_pos u (mem_insert_of_mem hu)
  have hheight : 0 < t.height := h.height_pos t (by simp)
  -- the loop over the levels
  obtain ⟨heap₁, hloop, hrelinked⟩ := patchPath_relinked h (hpath.take hn)
    (unlinkLevel_relinks
      (fun hmem => hfresh (mem_cons_of_mem _ (by simp at hmem ⊢; tauto)))
      (left.getLast?.map addr) inv zsl.level)
  have hsegment : Segment heap₁ (left ++ [t]) right [] := by
    have hsplit : left ++ t :: right = (left ++ [t]) ++ right := by simp
    have hold := h.segment
    rw [hsplit, segment_append] at hold
    refine hold.2.congr fun u hu => hrelinked.other u.addr ?_ ?_
    · exact fun heq => hzero (heq ▸ mem_map_of_mem hu)
    · exact fun v hv heq => hleft v hv (heq ▸ mem_map_of_mem hu)
  -- the backward pointer, or the tail
  obtain ⟨heap₂, hback, hsegment₂, hother₂⟩ := turnBack_spec hsegment left
    zsl.tail hright (by rw [h.tail]; simp)
  have hseg : Segment heap₂ [] (left ++ right) [] := by
    rw [segment_append, append_nil, nil_append]
    exact ⟨hrelinked.segment.congr fun u hu => hother₂ u.addr (hleft u hu),
      hsegment₂⟩
  obtain ⟨levels, hheader, hlevels⟩ := hrelinked.header
  have hbound : LevelBound zsl.level (left ++ right) :=
    ⟨h.level.pos, h.level.le_maxLevel, fun u hu =>
      h.level.bound u (mem_insert_of_mem hu)⟩
  obtain ⟨hlevels', hbound', hattained⟩ := hlevels.shrink hbound
  have hforward : (link 0 right).forward = right.head?.map addr :=
    forward_link_zero fun u hu => hpos u (mem_append_right _ hu)
  refine ⟨{ zsl with heap := heap₂
                     tail := (left ++ right).getLast?.map addr
                     level := shrinkLevel levels zsl.level
                     length := zsl.length - 1 }, ?_, ?_, hattained,
    (shrinkLevel_spec levels h.level.pos).2.1⟩
  · simp only [zslDeleteNode, hnode, hloop, head?_render_level _ right hheight,
      hforward, bind_eq_bind, bind_some]
    have hheader₂ : heap₂ 0 = some ⟨none, none, levels⟩ := by
      rw [hother₂ 0 hzero, hheader]
    have hback' : (render (left.getLast?.map addr) t right).backward =
      left.getLast?.map addr := rfl
    simp only [hback', hback, bind_some, hheader₂]
  apply Represents.update_other _ hfresh
  exact
    { header := ⟨levels, (hother₂ 0 hzero).trans hheader, hlevels'⟩
      node := node_of_segment hseg
      nodup := hnodup
      fresh := fun a ha => h.fresh a (by
        simp only [addrs, mem_cons, map_append, mem_append, map_cons] at ha ⊢
        tauto)
      height_pos := hpos
      level := hbound'
      tail := rfl
      length := by
        simp [h.length] }

/-! ## Ranges -/

theorem afterPath_eq (h : Represents zsl (left ++ right)) {crossed : A}
    (hhead : path.head? = some (here left, crossed)) :
    afterPath zsl path = some (right.head?.map addr) := by
  have hpos : ∀ t ∈ left ++ right, 0 < t.height := h.height_pos
  have hstands : StandsOn 0 left := by
    intro t ht
    exact hpos t (mem_append_left _ (mem_of_getLast? ht))
  have hlevel := h.levelAt_here rfl hstands h.level.pos
  have hforward : (link 0 right).forward = right.head?.map addr :=
    forward_link_zero fun t ht => hpos t (mem_append_right _ ht)
  simp only [afterPath, hhead, bind_eq_bind, bind_some, hlevel, hforward]

/-- The dictionary view without the members of the given towers. -/
def forget [DecidableEq M] (dict : M → Option S) :
    List (Tower S M) → M → Option S
  | [] => dict
  | t :: ts => forget (update dict t.elem.2 none) ts

/-- The range loop takes a first part of the towers in front of it, all of
them within the range, out of the row and out of the dictionary. -/
theorem deleteWhile_spec [DecidableEq M] (inRange : ℕ → Node S M → Bool)
    (hpath : IsPath inv n left path) (right : List (Tower S M)) (fuel : ℕ)
    (hfuel : right.length < fuel) (zsl : Zskiplist S M) (dict : M → Option S)
    (removed : ℕ) (h : Represents zsl (left ++ right)) (hn : zsl.level ≤ n)
    (hattained : Attained zsl.level (left ++ right)) :
    ∃ gone kept zsl', right = gone ++ kept ∧
      deleteWhile inRange path fuel (right.head?.map addr) zsl dict
          removed =
        some (zsl', forget dict gone, removed + gone.length) ∧
      Represents zsl' (left ++ kept) ∧ Attained zsl'.level (left ++ kept) := by
  induction right generalizing fuel zsl dict removed with
  | nil =>
    refine ⟨[], [], zsl, rfl, ?_, h, hattained⟩
    cases fuel with
    | zero => rfl
    | succ fuel => rfl
  | cons t right ih =>
    cases fuel with
    | zero => exact absurd hfuel (Nat.not_lt_zero _)
    | succ fuel =>
      have hnode := h.node left t right rfl
      have hheight : 0 < t.height := h.height_pos t (by simp)
      cases hin : inRange removed
          (render (left.getLast?.map addr) t right) with
      | false =>
        refine ⟨[], t :: right, zsl, rfl, ?_, h, hattained⟩
        simp [deleteWhile, hnode, hin, forget]
      | true =>
        obtain ⟨zsl₁, hdelete, hrep, hattained₁, hlevel⟩ :=
          zslDeleteNode_spec h hpath hn
        obtain ⟨gone, kept, zsl', hsplit, hrun, hrep', hattained'⟩ :=
          ih fuel (Nat.lt_of_succ_lt_succ hfuel) (zslFreeNode zsl₁ t.addr)
            (update dict t.elem.2 none) (removed + 1) hrep
            (hlevel.trans hn) hattained₁
        refine ⟨t :: gone, kept, zsl', by rw [hsplit]; rfl, ?_, hrep',
          hattained'⟩
        have hforward :
            (link 0 right).forward = right.head?.map addr :=
          forward_link_zero fun u hu => h.height_pos u (by simp [hu])
        have helem :
            (render (left.getLast?.map addr) t right).elem =
              some t.elem := rfl
        simp only [head?_cons, map_some, deleteWhile, hnode,
          hin, if_true, head?_render_level _ right hheight, hdelete, helem,
          hforward, hrun, bind_eq_bind, bind_some, forget, length_cons]
        congr 3
        ring

end RedisV8.Skiplist
