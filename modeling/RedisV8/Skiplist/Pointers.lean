import RedisV8.Skiplist.Towers

/-!
# Reading a skiplist through its pointers

What following the pointers of a skiplist shows, and that it shows the row of
towers stored.  A span is an `unsigned int`, so it gives the distance of a
jump modulo `2 ^ 32`.
-/

namespace RedisV8.Skiplist

open Reach List

variable {S M : Type}

/-- The addresses met on level `i` from `x` on, up to the `NULL` pointer. -/
def follow (heap : Heap S M) (i : ℕ) : ℕ → ℕ → Option (List ℕ)
  | 0, _ => none
  | fuel + 1, x => do
    let lv ← levelAt heap x i
    match lv.forward with
    | none => some []
    | some f =>
      let rest ← follow heap i fuel f
      some (f :: rest)

/-- The nodes of level `i`, in order. -/
def levelAddrs (zsl : Zskiplist S M) (i : ℕ) : Option (List ℕ) :=
  follow zsl.heap i (zsl.length + 1) 0

/-- A link of the node in position `k` of the bottom row, the header being in
position `0`, that jumps `d` bottom-level steps, or stands `d` steps before
the end. -/
def Jumps (row : List ℕ) (k : ℕ) (lv : Level) (d : ℕ) : Prop :=
  match lv.forward with
  | some f => 0 < d ∧ (0 :: row)[k + d]? = some f
  | none => k + d = row.length

/-- `lv` is level `i` of the node in position `k`, one that is in use. -/
structure IsLink (zsl : Zskiplist S M) (row : List ℕ) (k i : ℕ) (lv : Level) :
    Prop where
  used : k = 0 → i < zsl.level
  at_row : ∃ x, (0 :: row)[k]? = some x ∧ levelAt zsl.heap x i = some lv

/-- Every span is the number of bottom-level steps. -/
def ExactSpans (zsl : Zskiplist S M) (row : List ℕ) : Prop :=
  ∀ k i lv, IsLink zsl row k i lv → Jumps row k lv lv.span.toNat

/-- Every span is the number of bottom-level steps modulo `2 ^ 32`. -/
def ModularSpans (zsl : Zskiplist S M) (row : List ℕ) : Prop :=
  ∀ k i lv, IsLink zsl row k i lv →
    ∃ d, Jumps row k lv d ∧ lv.span.toNat = d % 2 ^ 32

variable {zsl : Zskiplist S M} {ts : List (Tower S M)}

theorem follow_eq (h : Represents zsl ts) {i : ℕ} (hi : i < zsl.level)
    (fuel : ℕ) (l r : List (Tower S M)) (hts : ts = l ++ r)
    (hstands : StandsOn i l) (hfuel : r.length < fuel) :
    follow zsl.heap i fuel (here l) =
      some ((r.filter (tall i)).map Tower.addr) := by
  induction fuel generalizing l r with
  | zero => exact absurd hfuel (Nat.not_lt_zero _)
  | succ fuel ih =>
    rw [follow, h.levelAt_here hts hstands hi]
    cases reach_cases (tall i) r with
    | inl hnone =>
      obtain ⟨hfind, _, hlow⟩ := hnone
      have hfilter : r.filter (tall i) = [] := by
        rw [filter_eq_nil_iff]
        exact fun t ht => by simp [hlow t ht]
      simp [link, hfind, hfilter]
    | inr hsome =>
      obtain ⟨s, f, t, rfl, hlow, htall, hfind, _⟩ := hsome
      have hfilter : s.filter (tall i) = [] := by
        rw [filter_eq_nil_iff]
        exact fun u hu => by simp [hlow u hu]
      have hrest := ih (l ++ s ++ [f]) t (by rw [hts]; simp)
        ((standsOn_concat _).mpr (tall_iff.mp htall))
        (by simp at hfuel; omega)
      rw [here_concat] at hrest
      simp [link, hfind, hrest, hfilter, htall]

/-- Level `i` runs through the towers that have it. -/
theorem levelAddrs_eq (h : Represents zsl ts) {i : ℕ} (hi : i < maxLevel) :
    levelAddrs zsl i = some ((ts.filter (tall i)).map Tower.addr) := by
  by_cases hlevel : i < zsl.level
  · exact follow_eq h hlevel _ [] ts rfl (standsOn_nil i)
      (by rw [h.length]; exact Nat.lt_succ_self _)
  have hle : zsl.level ≤ i := Nat.not_lt.mp hlevel
  obtain ⟨levels, hheap, hlevels⟩ := h.header
  obtain ⟨lv, hlv, hnone⟩ :=
    Option.map_eq_some_iff.mp (hlevels.unused i hle hi)
  have hfilter : ts.filter (tall i) = [] := by
    rw [filter_eq_nil_iff]
    intro t ht
    rw [tall_iff, Nat.not_lt]
    exact (h.level.bound t ht).trans hle
  simp [levelAddrs, follow, levelAt, hheap, hlv, hnone, hfilter]

theorem filter_tall_zero (h : Represents zsl ts) : ts.filter (tall 0) = ts :=
  filter_eq_self.mpr fun t ht => tall_iff.mpr (h.height_pos t ht)

/-- A tower and what stands on both sides of it. -/
theorem split_at_row {k x : ℕ} (hx : (ts.map Tower.addr)[k]? = some x) :
    ∃ t, x = t.addr ∧ ts = ts.take k ++ t :: ts.drop (k + 1) := by
  rw [List.getElem?_map] at hx
  obtain ⟨t, ht, rfl⟩ := Option.map_eq_some_iff.mp hx
  obtain ⟨hk, hget⟩ := List.getElem?_eq_some_iff.mp ht
  refine ⟨t, rfl, ?_⟩
  rw [← hget, cons_getElem_drop_succ, take_append_drop]

/-- The link of a position in use. -/
theorem IsLink.eq_link (h : Represents zsl ts) {k i : ℕ} {lv : Level}
    (hlink : IsLink zsl (ts.map Tower.addr) k i lv) :
    k ≤ ts.length ∧ lv = link i (ts.drop k) := by
  obtain ⟨x, hx, hlevel⟩ := hlink.at_row
  cases k with
  | zero =>
    obtain rfl : 0 = x := by simpa using hx
    have hread := h.levelAt_here rfl (standsOn_nil i) (hlink.used rfl)
    rw [here_nil, hlevel] at hread
    exact ⟨Nat.zero_le _, Option.some.inj hread⟩
  | succ k =>
    rw [getElem?_cons_succ] at hx
    have hk : k < ts.length := by
      simpa using (List.getElem?_eq_some_iff.mp hx).1
    obtain ⟨t, rfl, hsplit⟩ := split_at_row hx
    rw [levelAt, h.node _ t _ hsplit] at hlevel
    have hi : i < t.height := by
      have hlt := (getElem?_eq_some_iff.mp hlevel).1
      simpa [render] using hlt
    refine ⟨hk, ?_⟩
    rw [← Option.some.injEq, ← hlevel]
    exact getElem?_render_level _ _ hi

theorem jumps_link {k i : ℕ} (hk : k ≤ ts.length) :
    Jumps (ts.map Tower.addr) k (link i (ts.drop k))
      (reach (tall i) (ts.drop k)) := by
  cases reach_cases (tall i) (ts.drop k) with
  | inl hnone =>
    obtain ⟨hfind, hreach, _⟩ := hnone
    simp only [Jumps, link, hfind, hreach, Option.map_none, length_drop,
      length_map]
    omega
  | inr hsome =>
    obtain ⟨s, f, t, hsplit, _, _, hfind, hreach⟩ := hsome
    simp only [Jumps, link, hfind, hreach, Option.map_some]
    refine ⟨Nat.succ_pos _, ?_⟩
    rw [← Nat.add_assoc, getElem?_cons_succ, getElem?_map,
      ← getElem?_drop, hsplit, getElem?_append_right le_rfl,
      Nat.sub_self]
    rfl

theorem Represents.modularSpans (h : Represents zsl ts) :
    ModularSpans zsl (ts.map Tower.addr) := by
  intro k i lv hlink
  obtain ⟨hk, rfl⟩ := hlink.eq_link h
  exact ⟨_, jumps_link hk, BitVec.toNat_ofNat _ _⟩

theorem Represents.exactSpans (h : Represents zsl ts)
    (hlt : ts.length < 2 ^ 32) : ExactSpans zsl (ts.map Tower.addr) := by
  intro k i lv hlink
  obtain ⟨hk, rfl⟩ := hlink.eq_link h
  have hreach : reach (tall i) (ts.drop k) < 2 ^ 32 := by
    have hle := reach_le_length (tall i) (ts.drop k)
    rw [length_drop] at hle
    omega
  have hspan : (link i (ts.drop k)).span.toNat = reach (tall i) (ts.drop k) := by
    rw [link, BitVec.toNat_ofNat, Nat.mod_eq_of_lt hreach]
  rw [hspan]
  exact jumps_link hk

end RedisV8.Skiplist
