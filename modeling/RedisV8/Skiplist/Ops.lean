import Mathlib.Order.Lattice
import Mathlib.Logic.Function.Basic
import Mathlib.Data.BitVec

/-!
# The skiplist of a sorted set

Nodes live in a heap indexed by addresses, address `0` being the header, and
a read of a dead address or of a missing level makes the operation fail.
Spans and ranks are `unsigned int`, hence bit vectors of width 32; the length
is an `unsigned long`, which the address space keeps from overflowing.
-/

namespace RedisV8.Skiplist

open Function

/-- `ZSKIPLIST_MAXLEVEL`. -/
def maxLevel : ℕ := 32

structure Level where
  forward : Option ℕ
  span : BitVec 32
  deriving DecidableEq, Repr

/-- A node; the header is the one node without an element. -/
structure Node (S M : Type) where
  elem : Option (S × M)
  backward : Option ℕ
  level : List Level
  deriving DecidableEq, Repr

abbrev Heap (S M : Type) := ℕ → Option (Node S M)

structure Zskiplist (S M : Type) where
  heap : Heap S M
  nextAddr : ℕ
  tail : Option ℕ
  length : ℕ
  level : ℕ

variable {S M A : Type}

def levelAt (heap : Heap S M) (x i : ℕ) : Option Level := do
  let node ← heap x
  node.level[i]?

def setLevel (heap : Heap S M) (x i : ℕ) (lv : Level) :
    Option (Heap S M) := do
  let node ← heap x
  if i < node.level.length then
    some (update heap x (some { node with level := node.level.set i lv }))
  else none

def setBackward (heap : Heap S M) (x : ℕ) (backward : Option ℕ) :
    Option (Heap S M) := do
  let node ← heap x
  some (update heap x (some { node with backward := backward }))

def zslCreate : Zskiplist S M where
  heap := update (fun _ => none) 0
    (some ⟨none, none, List.replicate maxLevel ⟨none, 0⟩⟩)
  nextAddr := 1
  tail := none
  length := 0
  level := 1

/-! ## Searching -/

/-- The inner loop of every search, on level `i`: move forward while `go`
accepts the next node, adding up the spans crossed. -/
def walk (heap : Heap S M) (go : A → BitVec 32 → Node S M → Bool)
    (add : A → BitVec 32 → A) (i : ℕ) : ℕ → ℕ → A → Option (ℕ × A)
  | 0, _, _ => none
  | fuel + 1, x, crossed => do
    let lv ← levelAt heap x i
    match lv.forward with
    | none => some (x, crossed)
    | some f =>
      let node ← heap f
      if go crossed lv.span node then
        walk heap go add i fuel f (add crossed lv.span)
      else some (x, crossed)

/-- The outer loop: one walk per level, from the top down.  Entry `i` of the
result is `update[i]` with the distance crossed to reach it. -/
def descend (heap : Heap S M) (go : A → BitVec 32 → Node S M → Bool)
    (add : A → BitVec 32 → A) (fuel : ℕ) : ℕ → ℕ → A → Option (List (ℕ × A))
  | 0, _, _ => some []
  | i + 1, x, crossed => do
    let (x, crossed) ← walk heap go add i fuel x crossed
    let below ← descend heap go add fuel i x crossed
    some (below ++ [(x, crossed)])

def search (zsl : Zskiplist S M) (go : A → BitVec 32 → Node S M → Bool)
    (add : A → BitVec 32 → A) (start : A) : Option (List (ℕ × A)) :=
  descend zsl.heap go add (zsl.length + 1) zsl.level 0 start

/-- Rewrites level `i`, `i + 1`, … of the nodes of a search path. -/
def patchPath (f : ℕ → A → Level → Option Level) :
    ℕ → List (ℕ × A) → Heap S M → Option (Heap S M)
  | _, [], heap => some heap
  | i, (x, crossed) :: path, heap => do
    let lv ← levelAt heap x i
    let lv' ← f i crossed lv
    let heap ← setLevel heap x i lv'
    patchPath f (i + 1) path heap

/-- The node after a change gets a new backward pointer; where there is none,
the tail moves instead. -/
def turnBack (heap : Heap S M) (next backward tail : Option ℕ) :
    Option (Heap S M × Option ℕ) :=
  match next with
  | some f => (setBackward heap f backward).map (·, tail)
  | none => some (heap, backward)

/-! ## Insertion -/

section Insert

variable [LinearOrder S] [LinearOrder M]

/-- The node sorts before the given score and member. -/
def precedes (score : S) (obj : M) (node : Node S M) : Bool :=
  match node.elem with
  | some (s, o) => decide (s < score ∨ s = score ∧ o < obj)
  | none => false

/-- The linking loop: takes over the forward pointers of the path for the new
node `x` and returns the levels of `x`, which nothing points to before. -/
def linkLevels (x : ℕ) (rank0 : BitVec 32) :
    ℕ → List (ℕ × BitVec 32) → Heap S M → Option (Heap S M × List Level)
  | _, [], heap => some (heap, [])
  | i, (u, rank) :: path, heap => do
    let lv ← levelAt heap u i
    let heap ← setLevel heap u i ⟨some x, rank0 - rank + 1⟩
    let (heap, levels) ← linkLevels x rank0 (i + 1) path heap
    some (heap, ⟨lv.forward, lv.span - (rank0 - rank)⟩ :: levels)

/-- The levels above the present one enter the path with the header, whose
span there is set to the length of the list. -/
def raiseLevel (zsl : Zskiplist S M) (level : ℕ)
    (path : List (ℕ × BitVec 32)) :
    Option (Zskiplist S M × List (ℕ × BitVec 32)) :=
  if zsl.level < level then do
    let added := List.replicate (level - zsl.level) (0, 0)
    let heap ← patchPath
      (fun _ _ lv => some { lv with span := BitVec.ofNat 32 zsl.length })
      zsl.level added zsl.heap
    some ({ zsl with heap := heap, level := level }, path ++ added)
  else some (zsl, path)

/-- `zslInsert` for the level that `zslRandomLevel` drew. -/
def zslInsert (zsl : Zskiplist S M) (level : ℕ) (score : S) (obj : M) :
    Option (Zskiplist S M) := do
  let path ← search zsl (fun _ _ node => precedes score obj node)
    (fun rank span => rank + span) 0
  let (zsl, path) ← raiseLevel zsl level path
  let (update0, rank0) ← path.head?
  let x := zsl.nextAddr
  let (heap, levels) ← linkLevels x rank0 0 (path.take level) zsl.heap
  let heap ← patchPath
    (fun _ _ lv => some { lv with span := lv.span + 1 }) level
    (path.drop level) heap
  let backward := if update0 = 0 then none else some update0
  let heap := update heap x
    (some ⟨some (score, obj), backward, levels⟩)
  let first ← levels.head?
  let (heap, tail) ← turnBack heap first.forward (some x) zsl.tail
  some { heap := heap, nextAddr := x + 1, tail := tail,
         length := zsl.length + 1, level := zsl.level }

end Insert

/-! ## Deletion -/

/-- The closing loop of `zslDeleteNode`: drop empty levels, never the last. -/
def shrinkLevel (levels : List Level) : ℕ → ℕ
  | 0 => 0
  | 1 => 1
  | n + 2 =>
    if (levels[n + 1]?.bind Level.forward).isNone then
      shrinkLevel levels (n + 1)
    else n + 2

/-- What unlinking `node` at address `x` makes of level `i` of `update[i]`. -/
def unlinkLevel (x : ℕ) (node : Node S M) (i : ℕ) (lv : Level) :
    Option Level :=
  if lv.forward = some x then do
    let own ← node.level[i]?
    some ⟨own.forward, lv.span + (own.span - 1)⟩
  else some { lv with span := lv.span - 1 }

def zslDeleteNode (zsl : Zskiplist S M) (x : ℕ) (update : List (ℕ × A)) :
    Option (Zskiplist S M) := do
  let node ← zsl.heap x
  let heap ← patchPath (fun i _ lv => unlinkLevel x node i lv) 0
    (update.take zsl.level) zsl.heap
  let own ← node.level.head?
  let (heap, tail) ← turnBack heap own.forward node.backward zsl.tail
  let header ← heap 0
  some { zsl with heap := heap, tail := tail,
                  level := shrinkLevel header.level zsl.level,
                  length := zsl.length - 1 }

def zslFreeNode (zsl : Zskiplist S M) (x : ℕ) : Zskiplist S M :=
  { zsl with heap := update zsl.heap x none }

/-- The node after the bottom end of a search path. -/
def afterPath (zsl : Zskiplist S M) (path : List (ℕ × A)) :
    Option (Option ℕ) := do
  let (x, _) ← path.head?
  let lv ← levelAt zsl.heap x 0
  some lv.forward

/-- The loop of the range deletions: unlink and free the nodes from `x` on
while `inRange`, given the number already removed, accepts them. -/
def deleteWhile [DecidableEq M] (inRange : ℕ → Node S M → Bool)
    (update : List (ℕ × A)) :
    ℕ → Option ℕ → Zskiplist S M → (M → Option S) → ℕ →
      Option (Zskiplist S M × (M → Option S) × ℕ)
  | _, none, zsl, dict, removed => some (zsl, dict, removed)
  | 0, some _, _, _, _ => none
  | fuel + 1, some x, zsl, dict, removed => do
    let node ← zsl.heap x
    if inRange removed node then
      let own ← node.level.head?
      let zsl ← zslDeleteNode zsl x update
      let (_, obj) ← node.elem
      deleteWhile inRange update fuel own.forward (zslFreeNode zsl x)
        (Function.update dict obj none) (removed + 1)
    else some (zsl, dict, removed)

/-- `zrangespec`. -/
structure ZRangeSpec (S : Type) where
  min : S
  max : S
  minex : Bool
  maxex : Bool
  deriving DecidableEq, Repr

section Delete

variable [LinearOrder S] [LinearOrder M]

/-- `zslDelete`, with its return code. -/
def zslDelete (zsl : Zskiplist S M) (score : S) (obj : M) :
    Option (Zskiplist S M × Bool) := do
  let update ← search zsl (fun _ _ node => precedes score obj node)
    (fun _ _ => ()) ()
  match ← afterPath zsl update with
  | none => some (zsl, false)
  | some x =>
    let node ← zsl.heap x
    if node.elem = some (score, obj) then
      let zsl ← zslDeleteNode zsl x update
      some (zslFreeNode zsl x, true)
    else some (zsl, false)

/-- The score is too low for the range. -/
def belowMin (range : ZRangeSpec S) (s : S) : Bool :=
  if range.minex then decide (s ≤ range.min) else decide (s < range.min)

/-- The score is not too high for the range. -/
def withinMax (range : ZRangeSpec S) (s : S) : Bool :=
  if range.maxex then decide (s < range.max) else decide (s ≤ range.max)

def testScore (test : S → Bool) (node : Node S M) : Bool :=
  match node.elem with
  | some (s, _) => test s
  | none => false

def zslDeleteRangeByScore (zsl : Zskiplist S M) (range : ZRangeSpec S)
    (dict : M → Option S) : Option (Zskiplist S M × (M → Option S) × ℕ) := do
  let update ← search zsl (fun _ _ node => testScore (belowMin range) node)
    (fun _ _ => ()) ()
  let x ← afterPath zsl update
  deleteWhile (fun _ node => testScore (withinMax range) node) update
    (zsl.length + 1) x zsl dict 0

/-- The bounds are 1-based `unsigned int`s; `traversed` is an `unsigned long`
and stays within `finish + 1`. -/
def zslDeleteRangeByRank (zsl : Zskiplist S M) (start finish : BitVec 32)
    (dict : M → Option S) : Option (Zskiplist S M × (M → Option S) × ℕ) := do
  let update ← search zsl
    (fun traversed span _ => decide (traversed + span.toNat < start.toNat))
    (fun traversed span => traversed + span.toNat) 0
  let (_, traversed) ← update.head?
  let x ← afterPath zsl update
  deleteWhile
    (fun removed _ => decide (traversed + 1 + removed ≤ finish.toNat)) update
    (zsl.length + 1) x zsl dict 0

end Delete

end RedisV8.Skiplist
