import RedisV8.Skiplist.Insert
import RedisV8.Skiplist.Pointers

/-!
# The skiplist over whole runs

Every run of insertions and deletions keeps a heap that stores a sorted row
of towers.  `Invariant` and the two span conditions say what this means for
the pointers themselves, without mentioning towers.
-/

namespace RedisV8.Skiplist

open Reach List

variable {S M A : Type} [LinearOrder S] [LinearOrder M]

/-- The heap stores the towers, in order, under an exact top level. -/
structure Stores (zsl : Zskiplist S M) (ts : List (Tower S M)) : Prop
    extends Represents zsl ts where
  attained : Attained zsl.level ts
  sorted : Sorted ts

theorem zslCreate_stores : Stores (zslCreate : Zskiplist S M) [] where
  header := by
    refine ⟨replicate maxLevel ⟨none, 0⟩, rfl, length_replicate, ?_, ?_⟩
    · intro i hi
      have hzero : i = 0 := Nat.lt_one_iff.mp hi
      subst hzero
      rfl
    · intro i _ hi
      rw [getElem?_replicate_of_lt hi]
      rfl
  node l t r hsplit := by simp at hsplit
  nodup := by simp [addrs]
  fresh := by simp [addrs, zslCreate]
  height_pos := by simp
  level := ⟨Nat.one_pos, show 1 ≤ maxLevel by decide, by simp⟩
  tail := rfl
  length := rfl
  attained := Or.inl rfl
  sorted := List.Pairwise.nil

/-! ## The operations -/

section Ops

variable {zsl : Zskiplist S M} {ts : List (Tower S M)}

/-- An insertion keeps the order unless the element is there already. -/
theorem zslInsert_stores (h : Stores zsl ts) {level : ℕ} (hpos : 0 < level)
    (hmax : level ≤ maxLevel) {score : S} {obj : M}
    (habsent : (score, obj) ∉ ts.map Tower.elem) :
    ∃ left right zsl' addr, ts = left ++ right ∧
      zslInsert zsl level score obj = some zsl' ∧
      Stores zsl' (left ++ ⟨addr, (score, obj), level⟩ :: right) ∧
      (∀ t ∈ left, toLex t.elem < toLex (score, obj)) ∧
      ∀ t ∈ right, toLex (score, obj) < toLex t.elem := by
  obtain ⟨left, right, zsl', addr, rfl, hinsert, hrep, hattained, hleft,
    hright⟩ := zslInsert_spec h.toRepresents h.attained h.sorted hpos hmax score
      obj
  have hright' : ∀ t ∈ right, toLex (score, obj) < toLex t.elem := by
    intro t ht
    refine lt_of_le_of_ne (hright t ht) fun heq => habsent ?_
    rw [toLex.injective heq]
    exact mem_map_of_mem (mem_append_right _ ht)
  obtain ⟨hsl, hsr, hlr⟩ := pairwise_append.mp h.sorted
  refine ⟨left, right, zsl', addr, rfl, hinsert, ⟨hrep, hattained, ?_⟩, hleft,
    hright'⟩
  refine pairwise_append.mpr ⟨hsl, pairwise_cons.mpr ⟨hright', hsr⟩, ?_⟩
  intro a ha b hb
  cases mem_cons.mp hb with
  | inl heq => exact heq ▸ hleft a ha
  | inr hmem => exact hlr a ha b hmem

theorem Stores.of_sublist {zsl' : Zskiplist S M} {ts' : List (Tower S M)}
    (h : Stores zsl ts) (hsub : ts'.Sublist ts) (hrep : Represents zsl' ts')
    (hattained : Attained zsl'.level ts') : Stores zsl' ts' :=
  ⟨hrep, hattained, h.sorted.sublist hsub⟩

/-- A single deletion takes out the tower of the element, if there is one. -/
theorem zslDelete_stores (h : Stores zsl ts) (score : S) (obj : M) :
    ∃ zsl' found ts', zslDelete zsl score obj = some (zsl', found) ∧
      Stores zsl' ts' ∧
      ts'.map Tower.elem = (ts.map Tower.elem).erase (score, obj) := by
  obtain ⟨left, right, path, rfl, hsearch, hpath, hhead, hleft, hright⟩ :=
    elem_search (fun _ _ node => precedes score obj node) (fun _ _ => ()) _
      h.toRepresents (h.sorted.precedes_mono (score, obj)) (fun _ => ())
      (fun _ _ _ _ helem => precedes_eq helem) (fun _ _ => rfl)
  have hafter := afterPath_eq h.toRepresents hhead
  have hnotLeft : (score, obj) ∉ left.map Tower.elem := by
    intro hmem
    obtain ⟨t, ht, heq⟩ := mem_map.mp hmem
    exact (of_decide_eq_true (hleft t ht)).ne (congrArg toLex heq)
  cases right with
  | nil =>
    refine ⟨zsl, false, left ++ [], ?_, h, ?_⟩
    · simp [zslDelete, hsearch, hafter]
    · rw [append_nil, erase_of_not_mem hnotLeft]
  | cons t r =>
    have hnode := h.node left t r rfl
    have helem : (render (left.getLast?.map Tower.addr) t r).elem =
      some t.elem := rfl
    by_cases hfound : t.elem = (score, obj)
    · obtain ⟨zsl₁, hdelete, hrep, hattained, _⟩ :=
        zslDeleteNode_spec h.toRepresents hpath le_rfl
      refine ⟨zslFreeNode zsl₁ t.addr, true, left ++ r, ?_,
        h.of_sublist (List.Sublist.append_left (sublist_cons_self t r) left)
          hrep hattained, ?_⟩
      · simp [zslDelete, hsearch, hafter, hnode, helem, hfound, hdelete]
      · rw [map_append, map_append, map_cons, hfound,
          erase_append_right _ hnotLeft, erase_cons_head]
    refine ⟨zsl, false, left ++ t :: r, ?_, h, ?_⟩
    · simp [zslDelete, hsearch, hafter, hnode, helem, hfound]
    have hlt : toLex (score, obj) < toLex t.elem :=
      lt_of_le_of_ne
        (not_lt.mp (of_decide_eq_false (hright t mem_cons_self)))
        fun heq => hfound (toLex.injective heq).symm
    have hnotRight : (score, obj) ∉ (t :: r).map Tower.elem := by
      intro hmem
      obtain ⟨u, hu, heq⟩ := mem_map.mp hmem
      cases mem_cons.mp hu with
      | inl hut => exact hfound (hut ▸ heq)
      | inr hur =>
        have hsr := (pairwise_append.mp h.sorted).2.1
        have htu := rel_of_pairwise_cons hsr hur
        exact (hlt.trans htu).ne (congrArg toLex heq.symm)
    rw [map_append, erase_of_not_mem]
    rw [mem_append]
    exact not_or_intro hnotLeft hnotRight

omit [LinearOrder M] in
theorem belowMin_mono (range : ZRangeSpec S) {s s' : S} (hle : s ≤ s')
    (h : belowMin range s' = true) : belowMin range s = true := by
  by_cases hex : range.minex = true
  · rw [belowMin, if_pos hex, decide_eq_true_iff] at h ⊢
    exact hle.trans h
  · rw [belowMin, if_neg hex, decide_eq_true_iff] at h ⊢
    exact hle.trans_lt h

theorem score_le_of_lt {a b : Tower S M}
    (h : toLex a.elem < toLex b.elem) : a.elem.1 ≤ b.elem.1 := by
  cases Prod.Lex.toLex_lt_toLex.mp h with
  | inl hlt => exact hlt.le
  | inr heq => exact heq.1.le

/-- The range loop, run from the end of a path, keeps a sorted row. -/
theorem Stores.deleteWhile {left right : List (Tower S M)}
    {inv : List (Tower S M) → A → Prop} {path : List (ℕ × A)}
    (h : Stores zsl (left ++ right)) (hpath : IsPath inv zsl.level left path)
    (inRange : ℕ → Node S M → Bool) (dict : M → Option S) :
    ∃ gone kept zsl', right = gone ++ kept ∧
      Skiplist.deleteWhile inRange path (zsl.length + 1)
          (right.head?.map Tower.addr) zsl dict 0 =
        some (zsl', forget dict gone, gone.length) ∧
      Stores zsl' (left ++ kept) := by
  obtain ⟨gone, kept, zsl', rfl, hrun, hrep, hattained⟩ :=
    deleteWhile_spec inRange hpath right (zsl.length + 1)
      (by rw [h.length, length_append]; omega) zsl dict 0 h.toRepresents le_rfl
      h.attained
  rw [Nat.zero_add] at hrun
  exact ⟨gone, kept, zsl', rfl, hrun, h.of_sublist
    (List.Sublist.append_left (sublist_append_right gone kept) left)
    hrep hattained⟩

/-- A deletion by score keeps a sorted row, from which a stretch is gone. -/
theorem zslDeleteRangeByScore_stores (h : Stores zsl ts)
    (range : ZRangeSpec S) (dict : M → Option S) :
    ∃ left gone kept zsl', ts = left ++ (gone ++ kept) ∧
      zslDeleteRangeByScore zsl range dict =
        some (zsl', forget dict gone, gone.length) ∧
      Stores zsl' (left ++ kept) := by
  have hmono : ts.Pairwise fun a b =>
      belowMin range b.elem.1 = true → belowMin range a.elem.1 = true :=
    h.sorted.imp fun {a b} hab => belowMin_mono range (score_le_of_lt hab)
  obtain ⟨left, right, path, rfl, hsearch, hpath, hhead, _, _⟩ :=
    elem_search (fun _ _ node => testScore (belowMin range) node)
      (fun _ _ => ()) (fun e => belowMin range e.1) h.toRepresents hmono
      (fun _ => ()) (fun _ _ _ _ helem => by rw [testScore, helem])
      (fun _ _ => rfl)
  have hafter := afterPath_eq h.toRepresents hhead
  obtain ⟨gone, kept, zsl', rfl, hrun, hstores⟩ := h.deleteWhile hpath
    (fun _ node => testScore (withinMax range) node) dict
  refine ⟨left, gone, kept, zsl', rfl, ?_, hstores⟩
  simp only [zslDeleteRangeByScore, hsearch, hafter, hrun, Option.bind_eq_bind,
    Option.bind_some]

/-- So does a deletion by rank, whatever the spans it goes by. -/
theorem zslDeleteRangeByRank_stores (h : Stores zsl ts)
    (start finish : BitVec 32) (dict : M → Option S) :
    ∃ left gone kept zsl', ts = left ++ (gone ++ kept) ∧
      zslDeleteRangeByRank zsl start finish dict =
        some (zsl', forget dict gone, gone.length) ∧
      Stores zsl' (left ++ kept) := by
  have hinv : (rankRule ts start.toNat).inv [] 0 := fun _ => ⟨rfl, Or.inl rfl⟩
  obtain ⟨left, right, path, rfl, hsearch, hfound⟩ :=
    search_spec h.toRepresents _ hinv
  obtain ⟨traversed, hhead, _⟩ := hfound.bottom h.level.pos
  have hafter := afterPath_eq h.toRepresents hhead
  obtain ⟨gone, kept, zsl', rfl, hrun, hstores⟩ :=
    h.deleteWhile hfound.toIsPath
      (fun removed _ => decide (traversed + 1 + removed ≤ finish.toNat)) dict
  refine ⟨left, gone, kept, zsl', rfl, ?_, hstores⟩
  simp only [zslDeleteRangeByRank, hsearch, hhead, hafter, hrun,
    Option.bind_eq_bind, Option.bind_some]

end Ops

/-! ## The pointers -/

/-- The pointers of a sound skiplist with the bottom row `row`. -/
structure Invariant (zsl : Zskiplist S M) (row : List ℕ) : Prop where
  bottom : levelAddrs zsl 0 = some row
  sorted : ∃ keys : List (S × M),
    row.map (fun x => (zsl.heap x).bind Node.elem) = keys.map some ∧
      keys.Pairwise fun a b => toLex a < toLex b
  sublist : ∀ i, i + 1 < maxLevel → ∃ upper lower,
    levelAddrs zsl (i + 1) = some upper ∧ levelAddrs zsl i = some lower ∧
      upper.Sublist lower
  backward : ∀ k x, row[k]? = some x →
    (zsl.heap x).map Node.backward =
      some (if k = 0 then none else row[k - 1]?)
  level_pos : 0 < zsl.level
  level : ∀ i < maxLevel,
    i < zsl.level ↔ i = 0 ∨ levelAddrs zsl i ≠ some []
  level_le : zsl.level ≤ maxLevel
  tail : zsl.tail = row.getLast?
  length : zsl.length = row.length

variable {zsl : Zskiplist S M} {ts : List (Tower S M)}

theorem Stores.elem_of_mem (h : Stores zsl ts) {t : Tower S M} (ht : t ∈ ts) :
    (zsl.heap t.addr).bind Node.elem = some t.elem := by
  obtain ⟨l, r, hsplit⟩ := append_of_mem ht
  rw [h.node l t r hsplit]
  rfl

theorem Stores.invariant (h : Stores zsl ts) :
    Invariant zsl (ts.map Tower.addr) where
  bottom := by
    rw [levelAddrs_eq h.toRepresents (by decide), filter_tall_zero h.toRepresents]
  sorted := by
    refine ⟨ts.map Tower.elem, ?_, pairwise_map.mpr h.sorted⟩
    rw [map_map, map_map]
    exact map_congr_left fun t ht => h.elem_of_mem ht
  sublist i hi := by
    refine ⟨_, _, levelAddrs_eq h.toRepresents hi,
      levelAddrs_eq h.toRepresents (by omega), ?_⟩
    refine List.Sublist.map _ (monotone_filter_right ts fun t ht => ?_)
    rw [tall_iff] at ht ⊢
    omega
  backward k x hx := by
    obtain ⟨t, rfl, hsplit⟩ := split_at_row hx
    have hk : k < ts.length := by
      simpa using (List.getElem?_eq_some_iff.mp hx).1
    rw [h.node _ t _ hsplit, Option.map_some]
    congr 1
    cases k with
    | zero => rfl
    | succ k =>
      have hget := getElem?_eq_getElem (Nat.lt_of_succ_lt hk)
      rw [if_neg (Nat.succ_ne_zero k), Nat.add_sub_cancel, getElem?_map,
        getLast?_take, if_neg (Nat.succ_ne_zero k), Nat.add_sub_cancel,
        hget, Option.some_or]
      rfl
  level_pos := h.level.pos
  level i hi := by
    rw [levelAddrs_eq h.toRepresents hi, ne_eq, Option.some.injEq,
      map_eq_nil_iff, filter_eq_nil_iff]
    push Not
    constructor
    · intro hlt
      refine or_iff_not_imp_left.mpr fun hne => ?_
      cases h.attained with
      | inl hone => omega
      | inr htower =>
        obtain ⟨t, ht, hheight⟩ := htower
        exact ⟨t, ht, tall_iff.mpr (hheight ▸ hlt)⟩
    · rintro (rfl | ⟨t, ht, htall⟩)
      · exact h.level.pos
      · exact (tall_iff.mp htall).trans_le (h.level.bound t ht)
  level_le := h.level.le_maxLevel
  tail := by rw [h.tail, getLast?_map]
  length := by rw [h.length, length_map]

/-! ## Runs -/

inductive Op (S M : Type) where
  | insert (level : ℕ) (score : S) (obj : M)
  | delete (score : S) (obj : M)
  | deleteRangeByScore (range : ZRangeSpec S) (dict : M → Option S)
  | deleteRangeByRank (start finish : BitVec 32) (dict : M → Option S)

def step (zsl : Zskiplist S M) : Op S M → Option (Zskiplist S M)
  | .insert level score obj => zslInsert zsl level score obj
  | .delete score obj => (zslDelete zsl score obj).map Prod.fst
  | .deleteRangeByScore range dict =>
    (zslDeleteRangeByScore zsl range dict).map Prod.fst
  | .deleteRangeByRank start finish dict =>
    (zslDeleteRangeByRank zsl start finish dict).map Prod.fst

/-- What the callers promise: the level is one that `zslRandomLevel` returns,
and no node of the list holds the element yet. -/
def Admissible (zsl : Zskiplist S M) : Op S M → Prop
  | .insert level score obj => 0 < level ∧ level ≤ maxLevel ∧
    ∀ row, levelAddrs zsl 0 = some row →
      ∀ x ∈ row, (zsl.heap x).bind Node.elem ≠ some (score, obj)
  | _ => True

inductive Reachable : Zskiplist S M → Prop
  | create : Reachable zslCreate
  | step {zsl zsl' : Zskiplist S M} (op : Op S M) :
    Reachable zsl → Admissible zsl op → step zsl op = some zsl' →
      Reachable zsl'

instance (zsl : Zskiplist S M) (op : Op S M) : Decidable (Admissible zsl op) :=
  match op with
  | .insert level score obj => inferInstanceAs (Decidable (0 < level ∧
      level ≤ maxLevel ∧ ∀ row ∈ levelAddrs zsl 0,
        ∀ x ∈ row, (zsl.heap x).bind Node.elem ≠ some (score, obj)))
  | .delete .. | .deleteRangeByScore .. | .deleteRangeByRank .. =>
    inferInstanceAs (Decidable True)

/-- The run of the operations, as long as each is admissible. -/
def run (zsl : Zskiplist S M) (ops : List (Op S M)) : Option (Zskiplist S M) :=
  ops.foldlM (fun zsl op => if Admissible zsl op then step zsl op else none) zsl

/-- The promise about an insertion, in terms of the stored towers. -/
theorem Stores.admissible_insert (h : Stores zsl ts) {level : ℕ} {score : S}
    {obj : M} :
    Admissible zsl (.insert level score obj) ↔
      0 < level ∧ level ≤ maxLevel ∧ (score, obj) ∉ ts.map Tower.elem := by
  refine and_congr_right fun _ => and_congr_right fun _ => ?_
  constructor
  · intro hadm hmem
    obtain ⟨t, ht, heq⟩ := mem_map.mp hmem
    apply hadm _ h.invariant.bottom t.addr (mem_map_of_mem ht)
    rw [h.elem_of_mem ht, heq]
  intro habsent row hrow x hx heq
  rw [h.invariant.bottom] at hrow
  obtain rfl := Option.some.inj hrow
  obtain ⟨t, ht, rfl⟩ := mem_map.mp hx
  rw [h.elem_of_mem ht] at heq
  exact habsent (Option.some.inj heq ▸ mem_map_of_mem ht)

/-- One step: every admissible operation succeeds and stores some row. -/
theorem Stores.step (h : Stores zsl ts) (op : Op S M)
    (hadm : Admissible zsl op) :
    ∃ zsl' ts', Skiplist.step zsl op = some zsl' ∧ Stores zsl' ts' := by
  cases op with
  | insert level score obj =>
    obtain ⟨hpos, hmax, habsent⟩ := h.admissible_insert.mp hadm
    obtain ⟨left, right, zsl', addr, _, hrun, hstores, _⟩ :=
      zslInsert_stores h hpos hmax habsent
    exact ⟨zsl', _, hrun, hstores⟩
  | delete score obj =>
    obtain ⟨zsl', found, ts', hrun, hstores, _⟩ :=
      zslDelete_stores h score obj
    exact ⟨zsl', ts', by rw [Skiplist.step, hrun]; rfl, hstores⟩
  | deleteRangeByScore range dict =>
    obtain ⟨left, gone, kept, zsl', _, hrun, hstores⟩ :=
      zslDeleteRangeByScore_stores h range dict
    exact ⟨zsl', _, by rw [Skiplist.step, hrun]; rfl, hstores⟩
  | deleteRangeByRank start finish dict =>
    obtain ⟨left, gone, kept, zsl', _, hrun, hstores⟩ :=
      zslDeleteRangeByRank_stores h start finish dict
    exact ⟨zsl', _, by rw [Skiplist.step, hrun]; rfl, hstores⟩

theorem Reachable.run {ops : List (Op S M)} {zsl zsl' : Zskiplist S M}
    (h : Reachable zsl) (hrun : run zsl ops = some zsl') : Reachable zsl' := by
  induction ops generalizing zsl with
  | nil => exact Option.some.inj hrun ▸ h
  | cons op ops ih =>
    obtain ⟨zsl₁, hfirst, hrest⟩ := Option.bind_eq_some_iff.mp hrun
    obtain ⟨hadm, hstep⟩ := Option.ite_none_right_eq_some.mp hfirst
    exact ih (.step op h hadm hstep) hrest

theorem Reachable.stores (h : Reachable zsl) : ∃ ts, Stores zsl ts := by
  induction h with
  | create => exact ⟨[], zslCreate_stores⟩
  | step op _ hadm hstep ih =>
    obtain ⟨ts, hstores⟩ := ih
    obtain ⟨zsl', ts', hrun, hstores'⟩ := hstores.step op hadm
    obtain rfl := Option.some.inj (hstep.symm.trans hrun)
    exact ⟨ts', hstores'⟩

/-- Every run of admissible operations goes through, and every skiplist it
reaches is sound; its spans count bottom-level steps modulo `2 ^ 32`, hence
exactly as long as the list holds fewer than `2 ^ 32` elements. -/
theorem reachable_invariant {zsl : Zskiplist S M} (h : Reachable zsl) :
    (∃ row, Invariant zsl row ∧ ModularSpans zsl row ∧
      (zsl.length < 2 ^ 32 → ExactSpans zsl row)) ∧
      ∀ op, Admissible zsl op → ∃ zsl', step zsl op = some zsl' := by
  obtain ⟨ts, hstores⟩ := h.stores
  refine ⟨⟨ts.map Tower.addr, hstores.invariant, hstores.modularSpans, ?_⟩, ?_⟩
  · intro hlt
    exact hstores.exactSpans (hstores.length ▸ hlt)
  · intro op hadm
    obtain ⟨zsl', _, hrun, _⟩ := hstores.step op hadm
    exact ⟨zsl', hrun⟩

/-- Towers of four heights, the two highest of which a range takes away. -/
theorem reachable_invariant_range :
    ∃ zsl : Zskiplist ℕ ℕ,
      run zslCreate [.insert 3 5 7, .insert 1 2 4, .insert 2 9 1,
        .insert 4 5 8, .deleteRangeByScore ⟨2, 9, true, true⟩ fun _ => none] =
          some zsl ∧
      Reachable zsl ∧ zsl.level = 2 ∧ zsl.length = 2 ∧
      ∃ row, Invariant zsl row ∧ ExactSpans zsl row := by
  have hshape : (run (zslCreate : Zskiplist ℕ ℕ) [.insert 3 5 7, .insert 1 2 4,
      .insert 2 9 1, .insert 4 5 8,
      .deleteRangeByScore ⟨2, 9, true, true⟩ fun _ => none]).map
        (fun zsl => (zsl.level, zsl.length)) = some (2, 2) := by
    decide +kernel
  obtain ⟨zsl, hrun, heq⟩ := Option.map_eq_some_iff.mp hshape
  obtain ⟨hlevel, hlength⟩ := Prod.mk.inj heq
  have hreach : Reachable zsl := Reachable.create.run hrun
  obtain ⟨⟨row, hinv, _, hexact⟩, _⟩ := reachable_invariant hreach
  exact ⟨zsl, hrun, hreach, hlevel, hlength, row, hinv,
    hexact (by rw [hlength]; decide)⟩

/-- A tall tower in front of `n` low ones, built by insertions at the end. -/
theorem exists_reachable_staircase (n : ℕ) :
    ∃ (zsl : Zskiplist ℕ ℕ) (t : Tower ℕ ℕ) (ts : List (Tower ℕ ℕ)),
      Reachable zsl ∧ Stores zsl (t :: ts) ∧ t.height = 2 ∧ ts.length = n ∧
      (∀ u ∈ ts, u.height ≤ 1) ∧ ∀ u ∈ t :: ts, u.elem.1 ≤ n := by
  induction n with
  | zero =>
    have hadm : Admissible (zslCreate : Zskiplist ℕ ℕ) (.insert 2 0 0) :=
      zslCreate_stores.admissible_insert.mpr (by decide)
    obtain ⟨hpos, hmax, habsent⟩ := zslCreate_stores.admissible_insert.mp hadm
    obtain ⟨left, right, zsl, addr, hnil, hrun, hstores, _⟩ :=
      zslInsert_stores zslCreate_stores hpos hmax habsent
    obtain ⟨rfl, rfl⟩ := append_eq_nil_iff.mp hnil.symm
    exact ⟨zsl, _, [], .step (.insert 2 0 0) .create hadm hrun, hstores, rfl,
      rfl, by simp, by simp⟩
  | succ n ih =>
    obtain ⟨zsl, t, ts, hreach, hstores, hheight, hlength, hlow, hscore⟩ := ih
    have habsent : (n + 1, 0) ∉ (t :: ts).map Tower.elem := by
      intro hmem
      obtain ⟨u, hu, heq⟩ := mem_map.mp hmem
      have hle := hscore u hu
      rw [heq] at hle
      exact absurd hle (Nat.not_succ_le_self n)
    obtain ⟨left, right, zsl', addr, hsplit, hrun, hstores', _, hright⟩ :=
      zslInsert_stores hstores Nat.one_pos (by decide) habsent
    -- nothing sorts behind the new score
    have hnil : right = [] := by
      apply eq_nil_iff_forall_not_mem.mpr
      intro u hu
      have hle := hscore u (by rw [hsplit]; exact mem_append_right _ hu)
      have hlt : n + 1 ≤ u.elem.1 :=
        score_le_of_lt (a := ⟨addr, (n + 1, 0), 1⟩) (hright u hu)
      omega
    subst hnil
    rw [append_nil] at hsplit
    subst hsplit
    rw [cons_append] at hstores'
    refine ⟨zsl', t, ts ++ [⟨addr, (n + 1, 0), 1⟩], ?_, hstores', hheight, ?_,
      ?_, ?_⟩
    · exact .step (.insert 1 (n + 1) 0) hreach
        (hstores.admissible_insert.mpr ⟨Nat.one_pos, by decide, habsent⟩) hrun
    · rw [length_append, hlength, length_singleton]
    · intro u hu
      cases mem_append.mp hu with
      | inl hmem => exact hlow u hmem
      | inr hmem => rw [mem_singleton.mp hmem]
    intro u hu
    rw [← cons_append] at hu
    cases mem_append.mp hu with
    | inl hmem => exact (hscore u hmem).trans (Nat.le_succ n)
    | inr hmem => rw [mem_singleton.mp hmem]

/-- With `2 ^ 32` elements behind it, the span of a tall tower wraps to `0`. -/
theorem reachable_wraps_spans :
    ∃ zsl : Zskiplist ℕ ℕ, Reachable zsl ∧
      ∀ row, Invariant zsl row → ¬ExactSpans zsl row := by
  obtain ⟨zsl, t, ts, hreach, hstores, hheight, hlength, hlow, _⟩ :=
    exists_reachable_staircase (2 ^ 32)
  refine ⟨zsl, hreach, fun row hinv hexact => ?_⟩
  obtain rfl := Option.some.inj
    (hinv.bottom.symm.trans hstores.invariant.bottom)
  have hlink : link 1 ts = ⟨none, BitVec.ofNat 32 (2 ^ 32)⟩ := by
    rw [link_of_forall hlow, hlength]
  have hlevel : levelAt zsl.heap t.addr 1 = some (link 1 ts) := by
    rw [levelAt, hstores.node [] t ts rfl]
    exact getElem?_render_level _ ts (by omega)
  have hjump := hexact 1 1 (link 1 ts) ⟨by simp, t.addr, rfl, hlevel⟩
  rw [hlink] at hjump
  have hwrap : (BitVec.ofNat 32 (2 ^ 32)).toNat = 0 := by
    rw [BitVec.toNat_ofNat, Nat.mod_self]
  simp only [Jumps, hwrap, length_map, length_cons, hlength] at hjump
  omega

end RedisV8.Skiplist
