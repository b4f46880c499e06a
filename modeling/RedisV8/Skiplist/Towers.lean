import RedisV8.Lib.Reach
import RedisV8.Skiplist.Ops

/-!
# Skiplists as rows of towers

A skiplist is determined by the row of its towers: the nodes in order, each
with its address, element and number of levels.  Level `i` of a node links to
the next tower of more than `i` levels.  `Represents` relates a heap to the
row it stores.
-/

namespace RedisV8.Skiplist

open Reach List

structure Tower (S M : Type) where
  addr : ℕ
  elem : S × M
  height : ℕ

variable {S M : Type}

def tall (i : ℕ) (t : Tower S M) : Bool := decide (i < t.height)

/-- The level `i` of a node that the towers `r` follow. -/
def link (i : ℕ) (r : List (Tower S M)) : Level :=
  ⟨(r.find? (tall i)).map Tower.addr, BitVec.ofNat 32 (reach (tall i) r)⟩

/-- The address of the last tower, the header standing before the first. -/
def here (l : List (Tower S M)) : ℕ := (l.getLast?.map Tower.addr).getD 0

def render (backward : Option ℕ) (t : Tower S M) (r : List (Tower S M)) :
    Node S M :=
  ⟨some t.elem, backward, (range t.height).map (link · r)⟩

/-- The header's levels: exact below `level`, without a link above it. -/
structure HeaderLevels (levels : List Level) (level : ℕ)
    (ts : List (Tower S M)) : Prop where
  length : levels.length = maxLevel
  used : ∀ i < level, levels[i]? = some (link i ts)
  unused : ∀ i, level ≤ i → i < maxLevel →
    (levels[i]?.map Level.forward) = some none

/-- `level` is within its bounds and covers all towers. -/
structure LevelBound (level : ℕ) (ts : List (Tower S M)) : Prop where
  pos : 0 < level
  le_maxLevel : level ≤ maxLevel
  bound : ∀ t ∈ ts, t.height ≤ level

/-- The addresses of a row of towers, the header's included. -/
def addrs (ts : List (Tower S M)) : List ℕ := 0 :: ts.map Tower.addr

structure Represents (zsl : Zskiplist S M) (ts : List (Tower S M)) : Prop where
  header : ∃ levels, zsl.heap 0 = some ⟨none, none, levels⟩ ∧
    HeaderLevels levels zsl.level ts
  node : ∀ l t r, ts = l ++ t :: r →
    zsl.heap t.addr = some (render (l.getLast?.map Tower.addr) t r)
  nodup : (addrs ts).Nodup
  fresh : ∀ a ∈ addrs ts, a < zsl.nextAddr
  height_pos : ∀ t ∈ ts, 0 < t.height
  level : LevelBound zsl.level ts
  tail : zsl.tail = ts.getLast?.map Tower.addr
  length : zsl.length = ts.length

@[simp]
theorem here_nil : here ([] : List (Tower S M)) = 0 := rfl

@[simp]
theorem here_concat (l : List (Tower S M)) (t : Tower S M) :
    here (l ++ [t]) = t.addr := by
  rw [here, getLast?_concat, Option.map_some, Option.getD_some]

theorem tall_eq_false_of_le {i : ℕ} {t : Tower S M} (h : t.height ≤ i) :
    tall i t = false := decide_eq_false (Nat.not_lt.mpr h)

@[simp]
theorem tall_iff {i : ℕ} {t : Tower S M} : tall i t = true ↔ i < t.height :=
  decide_eq_true_iff

@[simp]
theorem tall_eq_false_iff {i : ℕ} {t : Tower S M} :
    tall i t = false ↔ t.height ≤ i := by
  rw [tall, decide_eq_false_iff_not, Nat.not_lt]

theorem getElem?_render_level (backward : Option ℕ) {t : Tower S M}
    (r : List (Tower S M)) {i : ℕ} (hi : i < t.height) :
    (render backward t r).level[i]? = some (link i r) := by
  simp [render, hi]

/-- Where a search can stand on level `i`: at the header, or at a tower that
has this level. -/
def StandsOn (i : ℕ) (l : List (Tower S M)) : Prop :=
  ∀ t, l.getLast? = some t → i < t.height

theorem standsOn_nil (i : ℕ) : StandsOn i ([] : List (Tower S M)) :=
  fun _ h => nomatch h

theorem standsOn_concat {i : ℕ} (l : List (Tower S M)) {t : Tower S M} :
    StandsOn i (l ++ [t]) ↔ i < t.height := by
  simp [StandsOn]

theorem StandsOn.mono {i j : ℕ} {l : List (Tower S M)} (hij : i ≤ j)
    (h : StandsOn j l) : StandsOn i l :=
  fun t ht => Nat.lt_of_le_of_lt hij (h t ht)

namespace Represents

variable {zsl : Zskiplist S M} {ts : List (Tower S M)}

/-- Reading a link of a represented skiplist. -/
theorem levelAt_here (h : Represents zsl ts) {l r : List (Tower S M)} {i : ℕ}
    (hts : ts = l ++ r) (hstands : StandsOn i l) (hi : i < zsl.level) :
    levelAt zsl.heap (here l) i = some (link i r) := by
  cases l using reverseRecOn with
  | nil =>
    obtain ⟨levels, hheap, hlevels⟩ := h.header
    rw [here_nil, levelAt, hheap]
    subst hts
    exact hlevels.used i hi
  | append_singleton l t =>
    have hsplit : ts = l ++ t :: r := by
      rw [hts, append_assoc, singleton_append]
    rw [here_concat, levelAt, h.node l t r hsplit]
    exact getElem?_render_level _ r ((standsOn_concat l).mp hstands)

theorem addr_ne_zero (h : Represents zsl ts) {t : Tower S M} (ht : t ∈ ts) :
    t.addr ≠ 0 := by
  intro hzero
  have hmem : 0 ∈ ts.map Tower.addr := hzero ▸ mem_map_of_mem ht
  exact (nodup_cons.mp h.nodup).1 hmem

/-- A position is determined by its address. -/
theorem here_injective (h : Represents zsl ts) {l l' r r' : List (Tower S M)}
    (hl : ts = l ++ r) (hl' : ts = l' ++ r') (heq : here l = here l') :
    l = l' := by
  have hat : ∀ {k s : List (Tower S M)}, ts = k ++ s →
      (addrs ts)[k.length]? = some (here k) := by
    intro k s hks
    cases k using reverseRecOn with
    | nil => rfl
    | append_singleton k t =>
      rw [here_concat, hks]
      simp [addrs]
  have hlen : l.length = l'.length := by
    have hlt : l.length < (addrs ts).length := by
      rw [addrs, length_cons, length_map, hl, length_append]
      omega
    apply (getElem?_inj hlt h.nodup).mp
    rw [hat hl, hat hl', heq]
  exact (append_inj (hl.symm.trans hl') hlen).1

end Represents

end RedisV8.Skiplist
