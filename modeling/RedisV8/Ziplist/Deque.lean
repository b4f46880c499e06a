import RedisV8.Ziplist.Delete

/-!
# The ziplist as a double-ended list

Pushes at either end and deletions anywhere keep a ziplist well formed and
change it like the list of its elements.  The first entry always has a short
back-length field, which is why a push at the head never meets the case in
which an insertion goes wrong.
-/

namespace RedisV8.Ziplist

open Bytes Util List Option

/-! ## What the operations do to the slots -/

/-- The slot that `__ziplistInsert` writes for `s` behind an entry of size
`prev`. -/
def newSlot (s : Bytes) (prev : ℕ) : Option Slot :=
  match entryBody s with
  | none => none
  | some body =>
    match hvalue : bodyValue body with
    | none => none
    | some value => some ⟨decide (zipBiglen ≤ prev), body, value, hvalue⟩

def pushSlots (slots : List Slot) (s : Bytes) : ZlEnd → Option (List Slot)
  | .head => (newSlot s 0).map fun new => new :: refit new.size slots
  | .tail => (newSlot s (lastSize 0 slots)).map fun new => slots ++ [new]

/-- The block below `2 ^ 32` bytes that the size field can describe. -/
def blockSize (slots : List Slot) : ℕ := ziplistHeaderSize + totalSize slots + 1

/-- The first entry has a short back-length field. -/
def HeadShort (slots : List Slot) : Prop :=
  ∀ slot ∈ slots.head?, slot.wide = false

/-- The entry counter is right unless it is saturated. -/
def Counted (count n : ℕ) : Prop :=
  count % 2 ^ 16 < 2 ^ 16 - 1 → count % 2 ^ 16 = n

section Slots

theorem map_text_refit (len : ℕ) (slots : List Slot) :
    (refit len slots).map Slot.text = slots.map Slot.text := by
  cases slots with
  | nil => rfl
  | cons next rest =>
    rw [refit, map_cons, map_text_widen]
    rfl

theorem length_refit (len : ℕ) (slots : List Slot) :
    (refit len slots).length = slots.length := by
  have hlength := congrArg List.length (map_text_refit len slots)
  rwa [length_map, length_map] at hlength

theorem chained_refit {prev len : ℕ} {slots : List Slot}
    (hchain : Chained prev slots) (hlen : len < 2 ^ 32)
    (hsize : totalSize (refit len slots) < 2 ^ 32) :
    Chained len (refit len slots) := by
  cases slots with
  | nil => trivial
  | cons next rest =>
    rw [refit, totalSize_cons] at hsize
    exact ⟨prevFits_setWide hlen next,
      chained_widen hchain.2 (by omega) (by omega)⟩

theorem headShort_refit_zero (slots : List Slot) :
    HeadShort (refit 0 slots) := by
  intro slot hmem
  cases slots with
  | nil => cases hmem
  | cons next rest =>
    obtain rfl := Option.some.inj hmem
    rfl

theorem newSlot_eq_some {s : Bytes} {prev : ℕ} {new : Slot}
    (hnew : newSlot s prev = some new) :
    entryBody s = some new.body ∧ new.wide = decide (zipBiglen ≤ prev) ∧
      new.size = payloadSize s + zipPrevEncodeSize prev := by
  rw [newSlot] at hnew
  cases hbody : entryBody s with
  | none =>
    rw [hbody] at hnew
    cases hnew
  | some body =>
    rw [hbody] at hnew
    dsimp only at hnew
    split at hnew
    · cases hnew
    · cases hnew
      refine ⟨rfl, rfl, ?_⟩
      rw [Slot.size, length_entryBody hbody, zipPrevEncodeSize_eq, add_comm]

/-- A slot that fits into the block holds the whole string. -/
theorem newSlot_text {s : Bytes} {prev : ℕ} {new : Slot}
    (hnew : newSlot s prev = some new) (hsize : new.size < 2 ^ 32) :
    new.text = s := by
  obtain ⟨hbody, -, -⟩ := newSlot_eq_some hnew
  have hle : s.length < 2 ^ 32 := by
    by_contra hlong
    have hnone : zipTryEncoding s = none := by
      rw [zipTryEncoding, if_pos (Or.inl (by omega))]
    have hlength : new.body.length = payloadSize s := length_entryBody hbody
    rw [payloadSize, hnone] at hlength
    rw [Slot.size] at hsize
    dsimp only at hlength
    omega
  obtain ⟨body, value, hbody', hvalue, htext⟩ := entryBody_spec hle
  rw [hbody, some_inj] at hbody'
  have hdecodes := new.decodes
  rw [hbody', hvalue, some_inj] at hdecodes
  rw [Slot.text, ← hdecodes, htext]

theorem counted_incr {count n : ℕ} (hcounted : Counted count n) :
    Counted (incrCount count) (n + 1) := by
  intro hlt
  rw [incrCount] at hlt ⊢
  split at hlt
  · rename_i hsmall
    have hn := hcounted hsmall
    rw [if_pos hsmall]
    omega
  · rename_i hfull
    exact absurd hlt hfull

theorem counted_decr {count n deleted : ℕ} (hcounted : Counted count n)
    (hle : deleted ≤ n) : Counted (decrCount count deleted) (n - deleted) := by
  intro hlt
  rw [decrCount] at hlt ⊢
  split at hlt
  · rename_i hsmall
    have hn := hcounted hsmall
    rw [if_pos hsmall]
    omega
  · rename_i hfull
    exact absurd hlt hfull

end Slots

/-! ## Pushing -/

section Push

variable {slots : List Slot} {s : Bytes} {new : Slot} (junk : ℕ → UInt8)

theorem insertPrevlen_tail {zl : Bytes} (hwf : WellFormed zl slots) :
    insertPrevlen zl (ziplistHeaderSize + totalSize slots) =
      some (lastSize 0 slots) := by
  rw [insertPrevlen, hwf.end]
  simp only [some_bind, ne_eq, not_true_eq_false, if_false,
    hwf.ziplistTailOffset_eq]
  rcases eq_nil_or_concat slots with rfl | ⟨init, last, rfl⟩
  · rw [show zl[tailOffset []]? = _ from hwf.end]
    rfl
  rw [concat_eq_append] at hwf ⊢
  obtain ⟨byte, hbyte, hne, hlen, -⟩ := hwf.entry
  rw [tailOffset, dropLast_concat, hbyte]
  simp only [some_bind, hne, not_false_eq_true, if_true, hlen,
    lastSize_concat]

/-- An insertion at the end marker only has to write the new entry. -/
theorem ziplistInsert_tail (count : ℕ)
    (hold : ziplistHeaderSize + totalSize slots + 1 < 2 ^ 32)
    (hchain : Chained 0 slots)
    (hwide : new.wide = decide (zipBiglen ≤ lastSize 0 slots))
    (hbody : entryBody s = some new.body)
    (hnew : new.size = payloadSize s + zipPrevEncodeSize (lastSize 0 slots))
    (hsize : ziplistHeaderSize + totalSize (slots ++ [new]) + 1 < 2 ^ 32) :
    ziplistInsert junk (render slots count)
        (ziplistHeaderSize + totalSize slots) s =
      some (render (slots ++ [new]) (incrCount count)) := by
  have hwf : WellFormed (render slots count) slots :=
    ⟨⟨count, rfl⟩, hold, hchain⟩
  have hrender : render slots count = header
      (ziplistHeaderSize + totalSize slots + 1) (tailOffset slots) count ++
        (layout 0 slots ++ [zipEnd]) := by
    rw [render, append_assoc]
  have hpos := size_pos new
  rw [totalSize_append, totalSize_cons, totalSize_nil, add_zero] at hsize
  have hlow : ziplistHeaderSize + (layout 0 slots ++ [zipEnd]).length <
      ziplistHeaderSize + (totalSize slots + new.size) + 1 := by
    rw [length_append, length_layout, length_singleton]
    omega
  obtain ⟨extra, hextra, hresize⟩ := ziplistResize_grow junk
    (ziplistHeaderSize + totalSize slots + 1) (tailOffset slots) count hlow hsize
  rw [length_append, length_layout, length_singleton] at hextra
  have hreq : (((ziplistHeaderSize + totalSize slots + 1 : ℕ) : ℤ) +
      (new.size : ℤ) + 0).toNat =
      ziplistHeaderSize + (totalSize slots + new.size) + 1 := by
    omega
  have hkept : ∀ bytes tail : ℕ, (header bytes tail count ++
      (layout 0 slots ++ (zipEnd :: extra) ++ [zipEnd]))[
        ziplistHeaderSize + totalSize slots]? = some zipEnd := by
    intro bytes tail
    have hget := getElem?_header bytes tail count (layout 0 slots)
      (zipEnd :: extra ++ [zipEnd]) 0
    rw [length_layout, add_zero] at hget
    rw [append_assoc, hget]
    rfl
  have hgap : layout 0 slots ++ [zipEnd] ++ (extra ++ [zipEnd]) =
      layout 0 slots ++ (zipEnd :: extra) ++ [zipEnd] := by
    simp
  rw [ziplistInsert, ziplistBytes_render hold, insertPrevlen_tail hwf, hwf.end]
  simp only [some_bind, ne_eq, not_true_eq_false, if_false, ← hnew]
  rw [insertSized, hreq, hrender, hresize, hgap]
  simp only [some_bind, hkept, ne_eq, not_true_eq_false, if_false,
    setZiplistTailOffset_header]
  -- the new entry is written over the old marker and the bytes gained
  refine (store_new _ _ count slots [zipEnd] (by rw [length_cons]; omega) hwide
    hbody).trans ?_
  rw [render, layout_append, tailOffset, dropLast_concat, totalSize_append]
  simp [layout]

theorem ziplistInsert_head {next : Slot} {rest : List Slot} (count : ℕ)
    (hshort : next.wide = false)
    (hold : ziplistHeaderSize + totalSize (next :: rest) + 1 < 2 ^ 32)
    (hchain : Chained 0 (next :: rest)) (hnew : newSlot s 0 = some new)
    (hsize : blockSize (new :: refit new.size (next :: rest)) < 2 ^ 32) :
    ziplistInsert junk (render (next :: rest) count) ziplistHeaderSize s =
      some (render (new :: refit new.size (next :: rest)) (incrCount count)) := by
  obtain ⟨hbody, hwide, hlength⟩ := newSlot_eq_some hnew
  have hinsert : ziplistInsert junk (render ([] ++ next :: rest) count)
      (ziplistHeaderSize + totalSize []) s =
      some (render (insertSlots [] new next rest) (incrCount count)) :=
    ziplistInsert_eq junk hold hchain hwide hbody hlength hsize
      fun hwide' => absurd (hshort.symm.trans hwide') Bool.false_ne_true
  exact hinsert

/-- A push builds the slots it is meant to build. -/
theorem ziplistPush_render {slots' : List Slot} {where_ : ZlEnd} (count : ℕ)
    (hhead : HeadShort slots) (hold : blockSize slots < 2 ^ 32)
    (hchain : Chained 0 slots) (hpush : pushSlots slots s where_ = some slots')
    (hsize : blockSize slots' < 2 ^ 32) :
    ziplistPush junk (render slots count) s where_ =
      some (render slots' (incrCount count)) := by
  cases where_ with
  | tail =>
    obtain ⟨new, hnew, rfl⟩ := map_eq_some_iff.1 hpush
    obtain ⟨hbody, hwide, hlength⟩ := newSlot_eq_some hnew
    rw [ziplistPush, ziplistBytes_render hold, some_bind, Nat.add_sub_cancel]
    exact ziplistInsert_tail junk count hold hchain hwide hbody hlength hsize
  | head =>
    obtain ⟨new, hnew, rfl⟩ := map_eq_some_iff.1 hpush
    obtain ⟨hbody, hwide, hlength⟩ := newSlot_eq_some hnew
    rw [ziplistPush]
    cases slots with
    | nil =>
      exact ziplistInsert_tail junk count hold hchain hwide hbody hlength
        hsize
    | cons next rest =>
      exact ziplistInsert_head junk count (hhead next rfl) hold hchain hnew
        hsize

end Push

/-! ## Finding entries -/

/-- The position that an index from either end stands for in a list of `n`
elements. -/
def placeOf (n : ℕ) (index : ℤ) : Option ℕ :=
  if index < 0 then
    if -index ≤ n then some (n + index).toNat else none
  else if index < n then some index.toNat else none

section Index

variable {zl : Bytes} {slots : List Slot}

theorem indexForward_eq {left right : List Slot} (index : ℕ)
    (hwf : WellFormed zl (left ++ right)) :
    indexForward zl index (ziplistHeaderSize + totalSize left) =
      some (if index < right.length then
        some (ziplistHeaderSize + totalSize (left ++ right.take index))
      else none) := by
  induction index generalizing left right with
  | zero =>
    cases right with
    | nil =>
      rw [append_nil] at hwf
      rw [indexForward, hwf.end]
      rfl
    | cons slot right =>
      obtain ⟨byte, hbyte, hend, -⟩ := hwf.entry
      rw [indexForward, hbyte]
      simp [hend]
  | succ index ih =>
    cases right with
    | nil =>
      rw [append_nil] at hwf
      rw [indexForward, hwf.end]
      rfl
    | cons slot right =>
      obtain ⟨byte, hbyte, hend, hlen, hpos⟩ := hwf.entry
      rw [append_cons] at hwf
      rw [indexForward, hbyte, hlen]
      simp only [some_bind, hend, if_false]
      rw [hpos, ih hwf, length_cons, take_succ_cons, append_assoc,
        singleton_append]
      simp only [Nat.add_lt_add_iff_right]

/-- From the last entry of `left ++ [slot]` backwards. -/
theorem indexBackward_render (left right : List Slot) (slot : Slot)
    (count index : ℕ) (hchain : Chained 0 (left ++ slot :: right)) :
    indexBackward (render (left ++ slot :: right) count) index
        (ziplistHeaderSize + totalSize left) =
      some (if index ≤ left.length then
        some (ziplistHeaderSize + totalSize (left.take (left.length - index)))
      else none) := by
  induction index generalizing left right slot with
  | zero => simp [indexBackward]
  | succ index ih =>
    obtain ⟨-, hfits, -⟩ := chained_append.1 hchain
    obtain ⟨entry, hentry, -, hprev, -⟩ := zipEntry_slot hfits right [zipEnd]
    rw [indexBackward, drop_render, hentry]
    simp only [some_bind, hprev]
    rcases eq_nil_or_concat left with rfl | ⟨init, last, rfl⟩
    · rw [lastSize, if_neg (lt_irrefl 0), if_neg (by simp)]
    rw [concat_eq_append] at hchain ⊢
    have hpos := size_pos last
    have hback : ziplistHeaderSize + totalSize (init ++ [last]) - last.size =
        ziplistHeaderSize + totalSize init := by
      rw [totalSize_append, totalSize_cons, totalSize_nil]
      omega
    rw [← append_cons] at hchain ⊢
    rw [lastSize_concat, if_pos hpos, if_pos, hback, ih init _ last hchain,
      length_append, length_singleton, Nat.add_sub_add_right,
      take_append_of_le_length (Nat.sub_le _ _)]
    · simp only [Nat.add_le_add_iff_right]
    · rw [totalSize_append, totalSize_cons, totalSize_nil]
      omega

theorem ziplistIndex_eq (index : ℤ) (hwf : WellFormed zl slots) :
    ziplistIndex zl index =
      some ((placeOf slots.length index).map (entryOffset slots)) := by
  rw [ziplistIndex, placeOf]
  by_cases hneg : index < 0
  · rw [if_pos hneg, if_pos hneg, hwf.ziplistTailOffset_eq, some_bind]
    rcases eq_nil_or_concat slots with rfl | ⟨init, last, rfl⟩
    · rw [show zl[tailOffset []]? = _ from hwf.end,
        if_neg (by simpa using hneg)]
      rfl
    rw [concat_eq_append] at hwf ⊢
    obtain ⟨byte, hbyte, hend, -⟩ := hwf.entry
    obtain ⟨⟨count, rfl⟩, -, hchain⟩ := hwf
    rw [tailOffset, dropLast_concat, hbyte, some_bind, if_neg hend,
      indexBackward_render init [] last count _ hchain, length_append,
      length_singleton]
    by_cases hin : -index ≤ ((init.length + 1 : ℕ) : ℤ)
    · have hplace : ((init.length + 1 : ℕ) + index).toNat =
          init.length - (-index - 1).toNat := by
        omega
      rw [if_pos hin, if_pos (by omega), map_some, hplace, entryOffset,
        take_append_of_le_length (Nat.sub_le _ _)]
    · rw [if_neg hin, if_neg (by omega), map_none]
  · have hforward : indexForward zl index.toNat ziplistHeaderSize = _ :=
      @indexForward_eq zl [] slots index.toNat hwf
    rw [if_neg hneg, if_neg hneg, hforward]
    by_cases hin : index < slots.length
    · rw [if_pos hin, if_pos (by omega), map_some, entryOffset]
      rfl
    · rw [if_neg hin, if_neg (by omega), map_none]

theorem countEntries_eq {left right : List Slot} {fuel : ℕ}
    (hfuel : right.length < fuel) (hwf : WellFormed zl (left ++ right)) :
    countEntries zl fuel (ziplistHeaderSize + totalSize left) =
      some right.length := by
  obtain ⟨fuel, rfl⟩ : ∃ n, fuel = n + 1 := ⟨fuel - 1, by omega⟩
  induction right generalizing left fuel with
  | nil =>
    rw [append_nil] at hwf
    rw [countEntries, hwf.end]
    rfl
  | cons slot right ih =>
    obtain ⟨byte, hbyte, hend, hlen, hpos⟩ := hwf.entry
    rw [append_cons] at hwf
    obtain ⟨fuel, rfl⟩ : ∃ n, fuel = n + 1 := by
      rw [length_cons] at hfuel
      exact ⟨fuel - 1, by omega⟩
    rw [countEntries, hbyte, hlen]
    simp only [some_bind, hend, if_false]
    rw [hpos, ih hwf fuel (by simpa using hfuel)]
    rfl

/-- The length is that of the list, also when the counter is saturated. -/
theorem ziplistLen_render {count : ℕ} (hcounted : Counted count slots.length)
    (hsize : ziplistHeaderSize + totalSize slots + 1 < 2 ^ 32)
    (hchain : Chained 0 slots) :
    ∃ count', ziplistLen (render slots count) =
        some (slots.length, render slots count') ∧
      Counted count' slots.length := by
  have hlength : ziplistLength (render slots count) =
      some (count % 2 ^ 16) := by
    rw [render, append_assoc]
    exact ziplistLength_header
  have hcount : countEntries (render slots count) _ ziplistHeaderSize = _ :=
    @countEntries_eq _ [] slots _ (length_lt_render slots count)
      ⟨⟨count, rfl⟩, hsize, hchain⟩
  have hstore := store_append (leBytes 4 (ziplistHeaderSize + totalSize slots +
    1) ++ leBytes 4 (tailOffset slots)) (leBytes 2 count)
    (layout 0 slots ++ [zipEnd]) (leBytes 2 slots.length) (by simp)
  simp only [length_append, length_leBytes] at hstore
  rw [ziplistLen, hlength, some_bind]
  by_cases hsmall : count % 2 ^ 16 < 2 ^ 16 - 1
  · rw [if_pos hsmall, hcounted hsmall]
    exact ⟨count, rfl, hcounted⟩
  rw [if_neg hsmall, hcount, some_bind]
  by_cases hfew : slots.length < 2 ^ 16 - 1
  · rw [if_pos hfew]
    refine ⟨slots.length, ?_, fun hlt => by omega⟩
    have hrender : ∀ n, render slots n = leBytes 4 (ziplistHeaderSize +
        totalSize slots + 1) ++ leBytes 4 (tailOffset slots) ++ leBytes 2 n ++
        (layout 0 slots ++ [zipEnd]) := by
      intro n
      rw [render, header, append_assoc]
    rw [hrender count, hstore, ← hrender]
    rfl
  · rw [if_neg hfew]
    exact ⟨count, rfl, hcounted⟩

end Index

/-! ## Runs -/

/-- An operation on a ziplist.  Single entries are reached by their index. -/
inductive Op where
  | push (s : Bytes) (end_ : ZlEnd)
  | delete (index : ℤ)
  | deleteRange (index : ℤ) (num : ℕ)
  | len
  deriving DecidableEq, Repr

namespace Op

def apply (junk : ℕ → UInt8) (zl : Bytes) : Op → Option Bytes
  | push s end_ => ziplistPush junk zl s end_
  | delete index => do
      let p ← ziplistIndex zl index
      match p with
      | none => some zl
      | some p => ziplistDelete junk zl p
  | deleteRange index num => ziplistDeleteRange junk zl index num
  | len => (ziplistLen zl).map Prod.snd

/-- A range of a list, taken out. -/
def cutRange {α : Type} (l : List α) (place : Option ℕ) (num : ℕ) : List α :=
  match place with
  | none => l
  | some i => l.take i ++ l.drop (i + num)

/-- The operation on the list of elements. -/
def applyList (l : List Bytes) : Op → List Bytes
  | push s .head => s :: l
  | push s .tail => l ++ [s]
  | delete index => cutRange l (placeOf l.length index) 1
  | deleteRange index num => cutRange l (placeOf l.length index) num
  | len => l

/-- The range taken out of the slots, with the back-lengths behind it. -/
def cutSlots (slots : List Slot) (place : Option ℕ) (num : ℕ) : List Slot :=
  match place with
  | none => slots
  | some i =>
    if num = 0 then slots
    else deleteSlots (slots.take i) (slots.drop (i + num))

/-- The operation on the slots. -/
def applySlots (slots : List Slot) : Op → Option (List Slot)
  | push s end_ => pushSlots slots s end_
  | delete index => some (cutSlots slots (placeOf slots.length index) 1)
  | deleteRange index num =>
    some (cutSlots slots (placeOf slots.length index) num)
  | len => some slots

end Op

/-- No operation makes the block reach `2 ^ 32` bytes. -/
def Fits : List Slot → List Op → Prop
  | _, [] => True
  | slots, op :: ops =>
    ∃ slots', op.applySlots slots = some slots' ∧ blockSize slots' < 2 ^ 32 ∧
      Fits slots' ops

/-- The operations in a row, each with what its reallocations find in the
bytes they gain. -/
def runOps : Bytes → List (Op × (ℕ → UInt8)) → Option Bytes
  | zl, [] => some zl
  | zl, (op, junk) :: steps => (op.apply junk zl).bind (runOps · steps)

/-- What holds between the operations. -/
structure Holds (zl : Bytes) (slots : List Slot) (l : List Bytes) : Prop where
  rendered : ∃ count, zl = render slots count ∧ Counted count slots.length
  size_lt : blockSize slots < 2 ^ 32
  chained : Chained 0 slots
  headShort : HeadShort slots
  texts : slots.map Slot.text = l

section Run

theorem placeOf_lt {n : ℕ} {index : ℤ} {i : ℕ} (hplace : placeOf n index = some i) :
    i < n := by
  rw [placeOf] at hplace
  split_ifs at hplace
  · cases hplace
    omega
  · cases hplace
    omega

theorem holds_new : Holds ziplistNew [] [] where
  rendered := ⟨0, rfl, fun _ => rfl⟩
  size_lt := by decide
  chained := trivial
  headShort := by simp [HeadShort]
  texts := rfl

variable {zl : Bytes} {slots : List Slot} {l : List Bytes} (junk : ℕ → UInt8)

theorem Holds.push {s : Bytes} {end_ : ZlEnd} {slots' : List Slot}
    (hholds : Holds zl slots l) (hpush : pushSlots slots s end_ = some slots')
    (hsize : blockSize slots' < 2 ^ 32) :
    ∃ zl', ziplistPush junk zl s end_ = some zl' ∧
      Holds zl' slots' (Op.applyList l (.push s end_)) := by
  obtain ⟨⟨count, rfl, hcounted⟩, hold, hchain, hhead, htexts⟩ := hholds
  refine ⟨_, ziplistPush_render junk count hhead hold hchain hpush hsize, ?_⟩
  rw [blockSize] at hsize hold
  cases end_ with
  | tail =>
    obtain ⟨new, hnew, rfl⟩ := map_eq_some_iff.1 hpush
    obtain ⟨-, hwide, -⟩ := newSlot_eq_some hnew
    have htotal := totalSize_append slots [new]
    rw [totalSize_cons, totalSize_nil, add_zero] at htotal
    have hlast := totalSize_dropLast_add_lastSize slots
    refine ⟨⟨_, rfl, ?_⟩, hsize, ?_, ?_, ?_⟩
    · rw [length_append]
      exact counted_incr hcounted
    · refine chained_append.2 ⟨hchain, ⟨by omega, fun hshort => ?_⟩, trivial⟩
      rw [hwide] at hshort
      simpa using hshort
    · intro slot hmem
      cases slots with
      | nil =>
        obtain rfl := Option.some.inj hmem
        exact hwide
      | cons first slots => exact hhead slot hmem
    · rw [map_append, htexts, map_singleton, newSlot_text hnew (by omega)]
      rfl
  | head =>
    obtain ⟨new, hnew, rfl⟩ := map_eq_some_iff.1 hpush
    obtain ⟨-, hwide, -⟩ := newSlot_eq_some hnew
    have hshort : new.wide = false := hwide
    rw [totalSize_cons] at hsize
    refine ⟨⟨_, rfl, ?_⟩, ?_, ⟨⟨by decide, fun _ => by decide⟩, ?_⟩, ?_, ?_⟩
    · rw [length_cons, length_refit]
      exact counted_incr hcounted
    · rw [blockSize, totalSize_cons]
      exact hsize
    · exact chained_refit hchain (by omega) (by omega)
    · intro slot hmem
      obtain rfl := Option.some.inj hmem
      exact hshort
    · rw [map_cons, map_text_refit, htexts, newSlot_text hnew (by omega)]
      rfl

theorem cutRange_map {α β : Type} (f : α → β) (l : List α) (place : Option ℕ)
    (num : ℕ) :
    (Op.cutRange l place num).map f = Op.cutRange (l.map f) place num := by
  cases place with
  | none => rfl
  | some i => simp [Op.cutRange, map_append, map_take, map_drop]

theorem map_text_cutSlots (slots : List Slot) (place : Option ℕ) (num : ℕ) :
    (Op.cutSlots slots place num).map Slot.text =
      Op.cutRange (slots.map Slot.text) place num := by
  rw [← cutRange_map]
  cases place with
  | none => rfl
  | some i =>
    rw [Op.cutSlots, Op.cutRange]
    split
    · rename_i hzero
      rw [hzero, add_zero, take_append_drop]
    · rw [deleteSlots, map_append, map_text_refit, map_append]

/-- Deleting entries from a place in the list. -/
theorem Holds.deleteEntries {i num : ℕ} (hholds : Holds zl slots l)
    (hi : i < slots.length)
    (hsize : blockSize (Op.cutSlots slots (some i) num) < 2 ^ 32) :
    ∃ zl', ziplistDeleteEntries junk zl (entryOffset slots i) num = some zl' ∧
      Holds zl' (Op.cutSlots slots (some i) num)
        (Op.cutRange l (some i) num) := by
  have htexts' : (Op.cutSlots slots (some i) num).map Slot.text =
      Op.cutRange l (some i) num := by
    rw [map_text_cutSlots, hholds.texts]
  obtain ⟨⟨count, rfl, hcounted⟩, hold, hchain, hhead, htexts⟩ := hholds
  have hsplit : slots.take i ++ slots.drop i = slots := take_append_drop i _
  have hright : slots.drop i ≠ [] := by
    rw [ne_eq, drop_eq_nil_iff]
    omega
  obtain ⟨hleft, hchain'⟩ := chained_append.1 (hsplit.symm ▸ hchain)
  by_cases hnum : num = 0
  · subst hnum
    have hsame : Op.cutSlots slots (some i) 0 = slots := rfl
    rw [hsame] at htexts' ⊢
    refine ⟨render slots count, ?_, ⟨count, rfl, hcounted⟩, hold, hchain, hhead,
      htexts'⟩
    obtain ⟨first, tail, hcons⟩ := exists_cons_of_ne_nil hright
    rw [hcons] at hchain'
    obtain ⟨entry, hentry, -⟩ := zipEntry_slot hchain'.1 tail [zipEnd]
    have hdrop := drop_render (slots.take i) (slots.drop i) count
    rw [hsplit, hcons] at hdrop
    rw [ziplistDeleteEntries, entryOffset, hdrop, hentry]
    simp [skipEntries]
  · have hcut : Op.cutSlots slots (some i) num =
        deleteSlots (slots.take i) ((slots.drop i).drop num) := by
      rw [Op.cutSlots, if_neg hnum, drop_drop]
    rw [hcut] at hsize htexts' ⊢
    have hdelete := ziplistDeleteEntries_eq junk count hright hnum
      (by rwa [hsplit]) (by rwa [hsplit]) hsize
    rw [hsplit] at hdelete
    refine ⟨_, hdelete, ⟨_, rfl, ?_⟩, hsize, ?_, ?_, htexts'⟩
    · have hlength : (deleteSlots (slots.take i)
          ((slots.drop i).drop num)).length =
          slots.length - ((slots.drop i).take num).length := by
        rw [deleteSlots, length_append, length_refit]
        simp only [length_take, length_drop]
        omega
      rw [hlength]
      refine counted_decr hcounted ?_
      simp only [length_take, length_drop]
      omega
    · rw [blockSize, deleteSlots, totalSize_append] at hsize
      have hlast := totalSize_dropLast_add_lastSize (slots.take i)
      rw [← take_append_drop num (slots.drop i)] at hchain'
      exact chained_append.2 ⟨hleft,
        chained_refit (chained_append.1 hchain').2 (by omega) (by omega)⟩
    intro slot hmem
    rw [deleteSlots] at hmem
    cases hcons : slots.take i with
    | nil =>
      rw [hcons] at hmem
      exact headShort_refit_zero _ slot hmem
    | cons first left =>
      rw [hcons] at hmem
      refine hhead slot ?_
      rw [← hsplit, hcons]
      exact hmem

theorem Holds.delete {index : ℤ} {num : ℕ} (hholds : Holds zl slots l)
    (hsize : blockSize (Op.cutSlots slots (placeOf slots.length index) num) <
      2 ^ 32) :
    ∃ zl', ziplistDeleteRange junk zl index num = some zl' ∧
      Holds zl' (Op.cutSlots slots (placeOf slots.length index) num)
        (Op.cutRange l (placeOf l.length index) num) := by
  have hlength : l.length = slots.length := by
    rw [← hholds.texts, length_map]
  have hindex : ziplistIndex zl index =
      some ((placeOf slots.length index).map (entryOffset slots)) := by
    obtain ⟨⟨count, rfl, -⟩, hold, hchain, -⟩ := hholds
    exact ziplistIndex_eq index ⟨⟨count, rfl⟩, hold, hchain⟩
  rw [ziplistDeleteRange, hindex, hlength]
  cases hplace : placeOf slots.length index with
  | none => exact ⟨zl, rfl, hholds⟩
  | some i =>
    rw [hplace] at hsize
    exact hholds.deleteEntries junk (placeOf_lt hplace) hsize

theorem Holds.apply {op : Op} {slots' : List Slot} (hholds : Holds zl slots l)
    (hslots : op.applySlots slots = some slots')
    (hsize : blockSize slots' < 2 ^ 32) :
    ∃ zl', op.apply junk zl = some zl' ∧ Holds zl' slots' (op.applyList l) := by
  cases op with
  | push s end_ => exact hholds.push junk hslots hsize
  | delete index | deleteRange index num =>
    cases hslots
    exact hholds.delete junk hsize
  | len =>
    cases hslots
    obtain ⟨⟨count, rfl, hcounted⟩, hold, hchain, hhead, htexts⟩ := hholds
    obtain ⟨count', hlen, hcounted'⟩ := ziplistLen_render hcounted hold hchain
    refine ⟨render slots count', ?_, ⟨count', rfl, hcounted'⟩, hold, hchain,
      hhead, htexts⟩
    rw [Op.apply, hlen]
    rfl

theorem Holds.run {steps : List (Op × (ℕ → UInt8))}
    (hholds : Holds zl slots l) (hfits : Fits slots (steps.map Prod.fst)) :
    ∃ zl' slots', runOps zl steps = some zl' ∧
      Holds zl' slots' ((steps.map Prod.fst).foldl Op.applyList l) := by
  induction steps generalizing zl slots l with
  | nil => exact ⟨zl, slots, rfl, hholds⟩
  | cons step steps ih =>
    obtain ⟨op, junk⟩ := step
    obtain ⟨slots', hslots, hsize, hrest⟩ := hfits
    obtain ⟨zl', happly, hholds'⟩ := hholds.apply junk hslots hsize
    obtain ⟨zl'', slots'', hrun, hholds''⟩ := ih hholds' hrest
    refine ⟨zl'', slots'', ?_, hholds''⟩
    rw [runOps, happly]
    exact hrun

/-- After any pushes at either end and any deletions the ziplist is well
formed, and it reads forwards, backwards and by its length as the list that the
same operations build; its size and the offset of its tail are exact. -/
theorem ziplist_runs_as_list {steps : List (Op × (ℕ → UInt8))}
    (hfits : Fits [] (steps.map Prod.fst)) :
    ∃ zl slots, runOps ziplistNew steps = some zl ∧ WellFormed zl slots ∧
      readForward zl = some ((steps.map Prod.fst).foldl Op.applyList []) ∧
      readBackward zl =
        some ((steps.map Prod.fst).foldl Op.applyList []).reverse ∧
      (ziplistLen zl).map Prod.fst =
        some ((steps.map Prod.fst).foldl Op.applyList []).length ∧
      ziplistBytes zl = some zl.length ∧
      ziplistTailOffset zl = some (tailOffset slots) := by
  obtain ⟨zl, slots, hrun, hholds⟩ := holds_new.run hfits
  have htexts := hholds.texts
  obtain ⟨⟨count, rfl, hcounted⟩, hold, hchain, -⟩ := hholds
  have hwf : WellFormed (render slots count) slots := ⟨⟨count, rfl⟩, hold, hchain⟩
  obtain ⟨count', hlen, -⟩ := ziplistLen_render hcounted hold hchain
  refine ⟨_, slots, hrun, hwf, ?_, ?_, ?_, ?_, hwf.ziplistTailOffset_eq⟩
  · rw [readForward_eq hwf, htexts]
  · rw [readBackward_eq hwf, htexts]
  · rw [hlen, ← htexts, length_map]
    rfl
  · rw [length_render, ziplistBytes_render hold]

/-- `12` is stored as a number; the entry between the other two is deleted. -/
theorem ziplist_runs_as_list_three :
    ∃ zl slots, runOps ziplistNew
        [(.push [120] .tail, fun _ => 0), (.push [49, 50] .tail, fun _ => 1),
          (.push [97] .head, fun _ => 2), (.deleteRange (-2) 1, fun _ => 3)] =
        some zl ∧
      WellFormed zl slots ∧ readForward zl = some [[97], [49, 50]] ∧
      readBackward zl = some [[49, 50], [97]] ∧
      (ziplistLen zl).map Prod.fst = some 2 ∧
      ziplistBytes zl = some zl.length ∧
      ziplistTailOffset zl = some (tailOffset slots) :=
  ziplist_runs_as_list ⟨_, rfl, by decide, _, rfl, by decide, _, rfl, by decide,
    _, rfl, by decide, trivial⟩

end Run

end RedisV8.Ziplist
