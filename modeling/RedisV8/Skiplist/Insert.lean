import Mathlib.Data.Prod.Lex
import RedisV8.Skiplist.Delete

/-!
# Insertion into a skiplist
-/

namespace RedisV8.Skiplist

open Reach List Option Nat

variable {S M A : Type} {i k length level : ℕ}
  {left right ts : List (Tower S M)} {inv : List (Tower S M) → BitVec 32 → Prop}
  {path : List (ℕ × BitVec 32)} {zsl : Zskiplist S M}

/-! ## Opening levels -/

theorem link_of_forall (h : ∀ t ∈ ts, t.height ≤ i) :
    link i ts = ⟨none, BitVec.ofNat 32 ts.length⟩ := by
  have hlow : ∀ t ∈ ts, tall i t = false :=
    fun t ht => tall_eq_false_of_le (h t ht)
  have hlink := link_append_of_forall (r := []) hlow
  rw [append_nil] at hlink
  rw [hlink]
  simp [link]

/-- The loop body that opens a level. -/
def openLevel (length : ℕ) (_ : ℕ) (_ : BitVec 32) (lv : Level) :
    Option Level :=
  some { lv with span := BitVec.ofNat 32 length }

/-- The entries that the opened levels add to the path. -/
def headerPath (k : ℕ) : List (ℕ × BitVec 32) := replicate k (0, 0)

theorem getElem?_headerPath {j : ℕ} (hj : j < k) :
    (headerPath k)[j]? = some (0, 0) := getElem?_replicate_of_lt hj

theorem pathPatch_headerPath_lt (x : ℕ) (hi : i < level) (lv : Level) :
    pathPatch (openLevel length) level (headerPath k) x i lv = lv := by
  rw [pathPatch, if_neg (not_le.mpr hi)]

theorem pathPatch_headerPath_ge (x : ℕ) (hi : level + k ≤ i) (lv : Level) :
    pathPatch (openLevel length) level (headerPath k) x i lv = lv := by
  have hnone : (headerPath k)[i - level]? = none := by
    apply getElem?_eq_none
    rw [headerPath, length_replicate]
    omega
  rw [pathPatch, hnone]
  split <;> rfl

theorem pathPatch_headerPath (hle : level ≤ i) (hlt : i < level + k)
    (lv : Level) :
    pathPatch (openLevel length) level (headerPath k) 0 i lv =
      { lv with span := BitVec.ofNat 32 length } := by
  rw [pathPatch, if_pos hle, getElem?_headerPath (by omega)]
  rfl

theorem pathPatch_headerPath_ne {x : ℕ} (hx : x ≠ 0) (i : ℕ) (lv : Level) :
    pathPatch (openLevel length) level (headerPath k) x i lv = lv := by
  by_cases hle : level ≤ i
  · by_cases hlt : i < level + k
    · rw [pathPatch, if_pos hle, getElem?_headerPath (by omega)]
      exact if_neg hx.symm
    · exact pathPatch_headerPath_ge x (not_lt.mp hlt) lv
  · exact pathPatch_headerPath_lt x (not_le.mp hle) lv

/-- Opening levels keeps the header exact. -/
theorem HeaderLevels.open {levels : List Level}
    (h : HeaderLevels levels level ts) (hbound : ∀ t ∈ ts, t.height ≤ level)
    (hmax : level + k ≤ maxLevel) :
    HeaderLevels (levels.mapIdx
      (pathPatch (openLevel ts.length) level (headerPath k) 0))
      (level + k) ts := by
  refine ⟨by rw [length_mapIdx, h.length], ?_, ?_⟩
  · intro i hi
    rw [getElem?_mapIdx]
    by_cases hlt : i < level
    · rw [h.used i hlt, map_some, pathPatch_headerPath_lt 0 hlt]
    have hle : level ≤ i := not_lt.mp hlt
    obtain ⟨lv, hlv, hforward⟩ := map_eq_some_iff.mp
      (h.unused i hle (hi.trans_le hmax))
    rw [hlv, map_some, pathPatch_headerPath hle hi,
      link_of_forall fun t ht => (hbound t ht).trans hle, hforward]
  · intro i hi hmax'
    have hkeep : pathPatch (openLevel ts.length) level (headerPath k) 0 i = id :=
      funext (pathPatch_headerPath_ge 0 hi)
    rw [getElem?_mapIdx, hkeep, Option.map_id]
    exact h.unused i (by omega) hmax'

/-- A path goes on over levels that no tower has. -/
theorem IsPath.append_headerPath (hinv : inv [] 0)
    (h : IsPath inv level left path) (hlow : ∀ t ∈ left, t.height ≤ level) :
    IsPath inv (level + k) left (path ++ headerPath k) := by
  refine ⟨?_, ?_⟩
  · rw [length_append, h.length, headerPath, length_replicate]
  intro i hi
  by_cases hlt : i < level
  · rw [getElem?_append_left (by rw [h.length]; exact hlt)]
    exact h.entry i hlt
  have hle : level ≤ i := not_lt.mp hlt
  refine ⟨[], 0, 0, ?_, ⟨rfl, standsOn_nil i, left, rfl, ?_⟩, hinv⟩
  · rw [getElem?_append_right (by rw [h.length]; exact hle), h.length]
    exact getElem?_headerPath (by omega)
  · exact fun t ht => (hlow t ht).trans hle

/-- The state after the levels up to `level + k` have been opened. -/
def opened (zsl : Zskiplist S M) (k : ℕ) : Zskiplist S M :=
  { zsl with
    heap := patch (pathPatch (openLevel zsl.length) zsl.level (headerPath k))
      zsl.heap
    level := zsl.level + k }

theorem Represents.opened (h : Represents zsl ts)
    (hmax : zsl.level + k ≤ maxLevel) :
    Represents (opened zsl k) ts where
  header := by
    obtain ⟨levels, hheap, hlevels⟩ := h.header
    refine ⟨_, ?_, hlevels.open h.level.bound hmax⟩
    simp [Skiplist.opened, patch, hheap, h.length]
  node l t r hsplit := by
    have hne : t.addr ≠ 0 := h.addr_ne_zero (by rw [hsplit]; simp)
    rw [← h.node l t r hsplit]
    exact patch_apply_of_forall (pathPatch_headerPath_ne hne) zsl.heap
  nodup := h.nodup
  fresh := h.fresh
  height_pos := h.height_pos
  level := ⟨h.level.pos.trans_le (le_add_right _ _), hmax,
    fun t ht => (h.level.bound t ht).trans (le_add_right _ _)⟩
  tail := h.tail
  length := h.length

theorem raiseLevel_of_lt (h : Represents zsl ts) (hpos : 0 < k)
    (hmax : zsl.level + k ≤ maxLevel) (path : List (ℕ × BitVec 32)) :
    raiseLevel zsl (zsl.level + k) path =
      some (opened zsl k, path ++ headerPath k) := by
  obtain ⟨levels, hheap, hlevels⟩ := h.header
  have hpatch : patchPath (openLevel zsl.length) zsl.level (headerPath k)
      zsl.heap = some (opened zsl k).heap := by
    apply patchPath_eq
    intro j x c hj
    have hjlt : j < k := by
      have hlt := (List.getElem?_eq_some_iff.mp hj).1
      rwa [headerPath, length_replicate] at hlt
    rw [getElem?_headerPath hjlt] at hj
    obtain ⟨rfl, rfl⟩ := Prod.mk.inj (Option.some.inj hj)
    have hi : zsl.level + j < levels.length := by
      rw [hlevels.length]
      omega
    refine ⟨levels[zsl.level + j], _, ?_, rfl⟩
    rw [levelAt, hheap]
    exact getElem?_eq_getElem hi
  rw [raiseLevel, if_pos (Nat.lt_add_of_pos_right hpos),
    Nat.add_sub_cancel_left]
  change (patchPath (openLevel zsl.length) zsl.level (headerPath k)
    zsl.heap).bind _ = _
  rw [hpatch]
  rfl

/-- The levels above the old top get the header as their only entry. -/
theorem raiseLevel_spec (h : Represents zsl (left ++ right))
    (hlevel : level ≤ maxLevel) (hinv : inv [] 0)
    (hpath : IsPath inv zsl.level left path) :
    ∃ zsl₁ added, raiseLevel zsl level path = some (zsl₁, path ++ added) ∧
      Represents zsl₁ (left ++ right) ∧ zsl₁.level = max zsl.level level ∧
      IsPath inv zsl₁.level left (path ++ added) := by
  by_cases hlt : zsl.level < level
  · obtain ⟨k, rfl⟩ := Nat.exists_eq_add_of_le hlt.le
    have hpos : 0 < k := by omega
    refine ⟨opened zsl k, headerPath k, raiseLevel_of_lt h hpos hlevel path,
      h.opened hlevel, (Nat.max_eq_right hlt.le).symm, ?_⟩
    exact hpath.append_headerPath hinv
      fun t ht => h.level.bound t (mem_append_left _ ht)
  refine ⟨zsl, [], ?_, h, ?_, ?_⟩
  · rw [raiseLevel, if_neg hlt, append_nil]
  · rw [Nat.max_eq_left (Nat.not_lt.mp hlt)]
  · rwa [append_nil]

/-! ## Linking the new tower -/

/-- What the two loops of the insertion make of level `i` of the path. -/
def insertLevel (x level : ℕ) (rank0 : BitVec 32) (i : ℕ) (rank : BitVec 32)
    (lv : Level) : Option Level :=
  if i < level then some ⟨some x, rank0 - rank + 1⟩
  else some { lv with span := lv.span + 1 }

theorem insertLevel_relinks (t : Tower S M)
    (hinv : ∀ l rank, inv l rank → rank = BitVec.ofNat 32 l.length) (n : ℕ) :
    Relinks (insertLevel t.addr t.height (BitVec.ofNat 32 left.length)) inv n
      left right (t :: right) := by
  intro i _ l₁ l₂ rank hleft hlow hrank
  rw [link_append_of_forall hlow, link_append_of_forall hlow, insertLevel,
    hinv l₁ rank hrank]
  by_cases hi : i < t.height
  · rw [if_pos hi, link_cons_of_lt hi, hleft, length_append, BitVec.ofNat_add]
    congr 2
    ring
  · rw [if_neg hi, link_cons_of_le (not_lt.mp hi)]
    congr 2
    ring

theorem patchPath_append (f : ℕ → A → Level → Option Level)
    (path path' : List (ℕ × A)) (i : ℕ) (heap : Heap S M) :
    patchPath f i (path ++ path') heap =
      (patchPath f i path heap).bind
        (patchPath f (i + path.length) path') := by
  induction path generalizing i heap with
  | nil => rfl
  | cons entry path ih =>
    obtain ⟨x, crossed⟩ := entry
    simp only [cons_append, patchPath, ih, bind_eq_bind,
      bind_assoc, length_cons, add_assoc, add_comm 1]

theorem patchPath_congr {f g : ℕ → A → Level → Option Level}
    {path : List (ℕ × A)} (heap : Heap S M)
    (h : ∀ j < path.length, f (i + j) = g (i + j)) :
    patchPath f i path heap = patchPath g i path heap := by
  induction path generalizing i heap with
  | nil => rfl
  | cons entry path ih =>
    obtain ⟨x, crossed⟩ := entry
    have hfirst := h 0 (succ_pos _)
    rw [add_zero] at hfirst
    have hrest : ∀ heap' : Heap S M, patchPath f (i + 1) path heap' =
        patchPath g (i + 1) path heap' := fun heap' =>
      ih heap' fun j hj => by
        have hnext := h (j + 1) (succ_lt_succ hj)
        rwa [← add_assoc, add_right_comm] at hnext
    simp only [patchPath, hfirst, hrest]

/-- Both loops of the insertion together: the path is relinked through the
new tower, whose levels are those of a tower in front of `right`. -/
theorem linkLevels_spec (h : Represents zsl (left ++ right))
    (hinv : ∀ l rank, inv l rank → rank = BitVec.ofNat 32 l.length)
    (hpath : IsPath inv zsl.level left path) (t : Tower S M)
    (ht : t.height ≤ zsl.level) :
    ∃ heap₁ heap₂, linkLevels t.addr (BitVec.ofNat 32 left.length) 0
        (path.take t.height) zsl.heap =
          some (heap₁, (range t.height).map (link · right)) ∧
      patchPath (fun _ _ lv => some { lv with span := lv.span + 1 }) t.height
        (path.drop t.height) heap₁ = some heap₂ ∧
      Relinked zsl.heap heap₂ zsl.level left (t :: right) := by
  obtain ⟨heap₂, hpatch, hrelinked⟩ := patchPath_relinked h hpath
    (insertLevel_relinks t hinv zsl.level)
  have htake : (path.take t.height).length = t.height := by
    rw [length_take, hpath.length, min_eq_left ht]
  rw [← take_append_drop t.height path, patchPath_append, htake,
    zero_add] at hpatch
  obtain ⟨heap₁, hlow, hhigh⟩ := bind_eq_some_iff.mp hpatch
  refine ⟨heap₁, heap₂, ?_, ?_, hrelinked⟩
  · -- what the new tower takes over was linked past it
    have hentry : ∀ i < t.height, ∃ l m, path[i]? =
        some (here l, BitVec.ofNat 32 l.length) ∧ left = l ++ m ∧
        levelAt zsl.heap (here l) i = some (link i (m ++ right)) ∧
        ∀ u ∈ m, tall i u = false := by
      intro i hi
      obtain ⟨l, x, rank, hat, hon, hrank⟩ := hpath.entry i (hi.trans_le ht)
      obtain ⟨m, hm, hlowm⟩ := hon.low
      refine ⟨l, m, ?_, hm, ?_, fun u hu => tall_eq_false_of_le (hlowm u hu)⟩
      · rw [hat, hon.addr, hinv l rank hrank]
      · apply h.levelAt_here _ hon.stands (hi.trans_le ht)
        rw [hm, append_assoc]
    set rank0 := BitVec.ofNat 32 left.length with hrank0
    have hspan : ∀ {l m : List (Tower S M)}, left = l ++ m →
        BitVec.ofNat 32 m.length = rank0 - BitVec.ofNat 32 l.length := by
      intro l m hm
      rw [hrank0, hm, length_append, BitVec.ofNat_add]
      ring
    have hlink := linkLevels_eq t.addr rank0
      (fun i => ⟨(link i right).forward,
        (rank0 - ((path[i]?.map Prod.snd).getD 0)) + (link i right).span⟩)
      (path.take t.height) 0 zsl.heap (by
        intro i u rank hat
        have hi : i < t.height := by
          rw [← htake]
          exact (List.getElem?_eq_some_iff.mp hat).1
        obtain ⟨l, m, hat', hm, hlevel, hlowm⟩ := hentry i hi
        rw [List.getElem?_take_of_lt hi, hat'] at hat
        obtain ⟨rfl, rfl⟩ := Prod.mk.inj (Option.some.inj hat)
        rw [zero_add, hlevel, link_append_of_forall hlowm, hspan hm, hat']
        rfl)
    have hlow' : patchPath (fun _ rank _ =>
        some ⟨some t.addr, rank0 - rank + 1⟩) 0 (path.take t.height) zsl.heap =
          some heap₁ := by
      rw [← hlow]
      apply patchPath_congr
      intro j hj
      funext rank lv
      rw [insertLevel, if_pos (by omega)]
    rw [hlink, hlow', map_some]
    congr 2
    apply ext_getElem?
    intro i
    by_cases hi : i < t.height
    · obtain ⟨l, m, hat, _⟩ := hentry i hi
      rw [getElem?_mapIdx, getElem?_take_of_lt hi, hat,
        getElem?_map, getElem?_range hi]
      simp only [zero_add, hat, map_some, getD_some, add_sub_cancel_left]
    rw [getElem?_eq_none, getElem?_eq_none]
    · rw [length_map, length_range]
      exact not_lt.mp hi
    · rw [length_mapIdx, htake]
      exact not_lt.mp hi
  · rw [← hhigh]
    apply patchPath_congr
    intro j _
    funext rank lv
    rw [insertLevel, if_neg (by omega)]

theorem backward_eq (h : Represents zsl (left ++ right)) :
    (if here left = 0 then none else some (here left)) =
      left.getLast?.map Tower.addr := by
  cases left using reverseRecOn with
  | nil => rfl
  | append_singleton l t =>
    have hne : t.addr ≠ 0 := h.addr_ne_zero (by simp)
    rw [here_concat, if_neg hne, getLast?_concat, map_some]

theorem forall_mem_insert {P : Tower S M → Prop} {t : Tower S M}
    (h : ∀ u ∈ left ++ right, P u) (ht : P t) :
    ∀ u ∈ left ++ t :: right, P u := by
  intro u hu
  cases mem_append.mp hu with
  | inl hleft => exact h u (mem_append_left _ hleft)
  | inr hright =>
    cases mem_cons.mp hright with
    | inl heq => exact heq ▸ ht
    | inr hmem => exact h u (mem_append_right _ hmem)

/-- The rest of the insertion, once the path is known. -/
theorem insert_represents (h : Represents zsl (left ++ right)) (t : Tower S M)
    (haddr : t.addr = zsl.nextAddr) (hpos : 0 < t.height)
    (ht : t.height ≤ zsl.level) {heap₂ : Heap S M}
    (hrelinked : Relinked zsl.heap heap₂ zsl.level left (t :: right)) :
    ∃ heap₃, turnBack (Function.update heap₂ t.addr
        (some (render (left.getLast?.map Tower.addr) t right)))
        (right.head?.map Tower.addr) (some t.addr) zsl.tail =
          some (heap₃, (left ++ t :: right).getLast?.map Tower.addr) ∧
      Represents ⟨heap₃, t.addr + 1,
        (left ++ t :: right).getLast?.map Tower.addr, zsl.length + 1,
        zsl.level⟩ (left ++ t :: right) := by
  have hfresh : t.addr ∉ addrs (left ++ right) := fun hmem => by
    have hlt := h.fresh _ hmem
    omega
  have hnodup : (addrs (left ++ t :: right)).Nodup :=
    nodup_addrs_insert.mpr ⟨hfresh, h.nodup⟩
  obtain ⟨hright, hzero, hleft⟩ := nodup_addrs_append h.nodup
  set heap := Function.update heap₂ t.addr
    (some (render (left.getLast?.map Tower.addr) t right)) with hheap
  have hkeep : ∀ a ∈ addrs (left ++ right), heap a = heap₂ a := by
    intro a ha
    rw [hheap, Function.update_of_ne]
    rintro rfl
    exact hfresh ha
  have hmem : ∀ u ∈ left ++ right, u.addr ∈ addrs (left ++ right) :=
    fun u hu => mem_cons_of_mem _ (mem_map_of_mem hu)
  have hsegLeft : Segment heap [] left (t :: right) :=
    hrelinked.segment.congr fun u hu =>
      hkeep _ (hmem u (mem_append_left _ hu))
  have hsegRight : Segment heap left right [] := by
    have hold := h.segment
    rw [segment_append] at hold
    refine hold.2.congr fun u hu => ?_
    have huright : u.addr ∈ right.map Tower.addr := mem_map_of_mem hu
    rw [hkeep _ (hmem u (mem_append_right _ hu))]
    apply hrelinked.other
    · rintro heq
      exact hzero (heq ▸ huright)
    · intro v hv heq
      exact hleft v hv (heq ▸ huright)
  obtain ⟨heap₃, hturn, hsegRight₃, hother₃⟩ :=
    turnBack_spec hsegRight (left ++ [t]) zsl.tail hright h.tail
  rw [getLast?_concat, map_some, append_assoc, singleton_append] at hturn
  refine ⟨heap₃, hturn, ?_⟩
  have htright : t.addr ∉ right.map Tower.addr := fun hin =>
    hfresh (mem_cons_of_mem _ (by rw [map_append]; simp [hin]))
  have hseg : Segment heap₃ [] (left ++ t :: right) [] := by
    rw [show left ++ t :: right = left ++ ([t] ++ right) from rfl,
      segment_append, segment_append, segment_singleton]
    refine ⟨?_, ?_, ?_⟩
    · rw [append_nil]
      exact hsegLeft.congr (fun u hu => hother₃ u.addr (hleft u hu))
    · rw [hother₃ t.addr htright, hheap, Function.update_self]
      simp
    · exact hsegRight₃
  obtain ⟨levels, hheader, hlevels⟩ := hrelinked.header
  exact
    { header := ⟨levels, by
        have hkeep₀ := hkeep 0 mem_cons_self
        exact (hother₃ 0 hzero).trans (hkeep₀.trans hheader), hlevels⟩
      node := node_of_segment hseg
      nodup := hnodup
      fresh := fun a ha => by
        cases mem_cons.mp ha with
        | inl hzero' => rw [hzero']; exact succ_pos _
        | inr hin =>
          obtain ⟨u, hu, rfl⟩ := mem_map.mp hin
          refine forall_mem_insert (P := fun u => u.addr < t.addr + 1) ?_
            (lt_succ_self _) u hu
          intro v hv
          exact lt_succ_of_lt (haddr ▸ h.fresh _ (hmem v hv))
      height_pos := forall_mem_insert h.height_pos hpos
      level := ⟨h.level.pos, h.level.le_maxLevel,
        forall_mem_insert h.level.bound ht⟩
      tail := rfl
      length := by
        change zsl.length + 1 = _
        rw [h.length, length_append, length_append, length_cons]
        ring }

theorem Attained.insert (h : Attained level (left ++ right)) (t : Tower S M) :
    Attained (max level t.height) (left ++ t :: right) := by
  by_cases hle : level ≤ t.height
  · rw [max_eq_right hle]
    exact Or.inr ⟨t, by simp, rfl⟩
  rw [Nat.max_eq_left (Nat.le_of_not_le hle)]
  refine h.imp_right ?_
  rintro ⟨u, hu, hheight⟩
  exact ⟨u, mem_insert_of_mem hu, hheight⟩

section Order

variable [LinearOrder S] [LinearOrder M]

/-- The towers stand in strict order of score and member. -/
def Sorted (ts : List (Tower S M)) : Prop :=
  ts.Pairwise fun a b => toLex a.elem < toLex b.elem

theorem precedes_eq {score : S} {obj : M} {node : Node S M} {e : S × M}
    (h : node.elem = some e) :
    precedes score obj node = decide (toLex e < toLex (score, obj)) := by
  rw [precedes, h, decide_eq_decide, Prod.Lex.toLex_lt_toLex]

theorem Sorted.precedes_mono (h : Sorted ts) (e : S × M) :
    ts.Pairwise fun a b => decide (toLex b.elem < toLex e) = true →
      decide (toLex a.elem < toLex e) = true := by
  refine h.imp fun {a b} hab hb => ?_
  rw [decide_eq_true_iff] at hb ⊢
  exact hab.trans hb

/-- `zslInsert` puts a tower of the given level between the elements below the
new one and the others. -/
theorem zslInsert_spec (h : Represents zsl ts)
    (hattained : Attained zsl.level ts) (hsorted : Sorted ts)
    (hpos : 0 < level) (hmax : level ≤ maxLevel) (score : S) (obj : M) :
    ∃ left right zsl' addr, ts = left ++ right ∧
      zslInsert zsl level score obj = some zsl' ∧
      Represents zsl' (left ++ ⟨addr, (score, obj), level⟩ :: right) ∧
      Attained zsl'.level (left ++ ⟨addr, (score, obj), level⟩ :: right) ∧
      (∀ t ∈ left, toLex t.elem < toLex (score, obj)) ∧
      ∀ t ∈ right, toLex (score, obj) ≤ toLex t.elem := by
  obtain ⟨left, right, path, rfl, hsearch, hpath, hhead, hleft, hright⟩ :=
    elem_search (fun _ _ node => precedes score obj node)
      (fun rank span => rank + span) _ h (hsorted.precedes_mono (score, obj))
      (BitVec.ofNat 32) (fun _ _ _ _ helem => precedes_eq helem)
      (fun a d => (BitVec.ofNat_add a d).symm)
  obtain ⟨zsl₁, added, hraise, hrep₁, hlevel₁, hpath₁⟩ :=
    raiseLevel_spec h hmax rfl hpath
  set t : Tower S M := ⟨zsl₁.nextAddr, (score, obj), level⟩ with ht
  have htlevel : t.height ≤ zsl₁.level := by
    rw [hlevel₁]
    exact le_max_right _ _
  obtain ⟨heap₁, heap₂, hlink, hbump, hrelinked⟩ :=
    linkLevels_spec hrep₁ (fun _ _ hrank => hrank) hpath₁ t htlevel
  obtain ⟨heap₃, hturn, hrep⟩ :=
    insert_represents hrep₁ t rfl hpos htlevel hrelinked
  refine ⟨left, right, _, zsl₁.nextAddr, rfl, ?_, hrep, ?_, ?_, ?_⟩
  · have hhead₁ : (path ++ added).head? =
        some (here left, BitVec.ofNat 32 left.length) := by
      rw [head?_append, hhead, some_or]
    have hfirst : ((range t.height).map (link · right)).head? =
        some (link 0 right) := by
      rw [head?_eq_getElem?, getElem?_map, getElem?_range hpos, map_some]
    have hforward : (link 0 right).forward = right.head?.map Tower.addr :=
      forward_link_zero fun u hu => h.height_pos u (mem_append_right _ hu)
    have hnode : (⟨some (score, obj),
        if here left = 0 then none else some (here left),
        (range t.height).map (link · right)⟩ : Node S M) =
          render (left.getLast?.map Tower.addr) t right := by
      rw [backward_eq h]
      rfl
    have hzero : (0 : BitVec 32) = BitVec.ofNat 32 0 := rfl
    simp only [zslInsert, hzero, hsearch, hraise, hhead₁, bind_eq_bind,
      bind_some]
    rw [show level = t.height from rfl, show zsl₁.nextAddr = t.addr from rfl,
      hlink]
    simp only [bind_some, hbump, hfirst, hforward, hnode, hturn]
  · exact hlevel₁ ▸ hattained.insert t
  · exact fun u hu => of_decide_eq_true (hleft u hu)
  · exact fun u hu => not_lt.mp (of_decide_eq_false (hright u hu))

end Order

end RedisV8.Skiplist
