import RedisV8.Ziplist.Codec

/-!
# Well-formed ziplists

A ziplist is the rendering of a list of slots: each slot is an entry without
its back-length, together with the width of the field that stores it.  The
back-length fields, the tail offset and the total size are determined by the
slots.
-/

namespace RedisV8.Ziplist

open Bytes Util List

/-- An entry: the width of its back-length field, its encoding and payload, and
the element these decode to. -/
structure Slot where
  wide : Bool
  body : Bytes
  value : ZlValue
  decodes : bodyValue body = some value

def Slot.size (slot : Slot) : ℕ := prevSize slot.wide + slot.body.length

def Slot.bytes (slot : Slot) (prev : ℕ) : Bytes :=
  prevField slot.wide prev ++ slot.body

def Slot.text (slot : Slot) : Bytes := slot.value.text

def Slot.setWide (slot : Slot) (wide : Bool) : Slot := { slot with wide := wide }

/-- The bytes of consecutive entries; `prev` is the size of the entry before
the first. -/
def layout : ℕ → List Slot → Bytes
  | _, [] => []
  | prev, slot :: rest => slot.bytes prev ++ layout slot.size rest

/-- Every back-length fits its field. -/
def Chained : ℕ → List Slot → Prop
  | _, [] => True
  | prev, slot :: rest => PrevFits slot.wide prev ∧ Chained slot.size rest

def totalSize (slots : List Slot) : ℕ := (slots.map Slot.size).sum

/-- The size of the last entry, or `prev` when there is none. -/
def lastSize : ℕ → List Slot → ℕ
  | prev, [] => prev
  | _, slot :: rest => lastSize slot.size rest

def header (bytes tail count : ℕ) : Bytes :=
  leBytes 4 bytes ++ leBytes 4 tail ++ leBytes 2 count

def tailOffset (slots : List Slot) : ℕ :=
  ziplistHeaderSize + totalSize slots.dropLast

def render (slots : List Slot) (count : ℕ) : Bytes :=
  header (ziplistHeaderSize + totalSize slots + 1) (tailOffset slots) count ++
    layout 0 slots ++ [zipEnd]

/-- `zl` is a well-formed ziplist with the given entries.  The entry counter of
the header is free: it saturates at `UINT16_MAX`. -/
structure WellFormed (zl : Bytes) (slots : List Slot) : Prop where
  eq_render : ∃ count, zl = render slots count
  size_lt : ziplistHeaderSize + totalSize slots + 1 < 2 ^ 32
  chained : Chained 0 slots

def entryOffset (slots : List Slot) (i : ℕ) : ℕ :=
  ziplistHeaderSize + totalSize (slots.take i)

section Sizes

@[simp]
theorem length_header (bytes tail count : ℕ) :
    (header bytes tail count).length = ziplistHeaderSize := by
  simp [header, ziplistHeaderSize]

@[simp]
theorem length_slotBytes (slot : Slot) (prev : ℕ) :
    (slot.bytes prev).length = slot.size := by
  simp [Slot.bytes, Slot.size]

@[simp]
theorem totalSize_nil : totalSize [] = 0 := rfl

@[simp]
theorem totalSize_cons (slot : Slot) (rest : List Slot) :
    totalSize (slot :: rest) = slot.size + totalSize rest := by
  simp [totalSize]

@[simp]
theorem totalSize_append (left right : List Slot) :
    totalSize (left ++ right) = totalSize left + totalSize right := by
  simp [totalSize]

theorem totalSize_dropLast_le (slots : List Slot) :
    totalSize slots.dropLast ≤ totalSize slots := by
  rcases eq_nil_or_concat slots with rfl | ⟨init, last, rfl⟩
  · exact le_rfl
  · simp

@[simp]
theorem length_layout (prev : ℕ) (slots : List Slot) :
    (layout prev slots).length = totalSize slots := by
  induction slots generalizing prev with
  | nil => rfl
  | cons slot rest ih => simp [layout, ih]

theorem prevSize_pos (wide : Bool) : 0 < prevSize wide := by
  cases wide <;> decide

theorem two_le_size (slot : Slot) : prevSize slot.wide + 1 ≤ slot.size := by
  have hbody := length_pos_of_bodyValue slot.decodes
  rw [Slot.size]
  omega

theorem size_pos (slot : Slot) : 0 < slot.size := by
  have hsize := two_le_size slot
  omega

theorem layout_append (prev : ℕ) (left right : List Slot) :
    layout prev (left ++ right) =
      layout prev left ++ layout (lastSize prev left) right := by
  induction left generalizing prev with
  | nil => rfl
  | cons slot rest ih =>
    rw [cons_append, layout, layout, ih, lastSize, append_assoc]

theorem lastSize_append (prev : ℕ) (left right : List Slot) :
    lastSize prev (left ++ right) = lastSize (lastSize prev left) right := by
  induction left generalizing prev with
  | nil => rfl
  | cons slot rest ih => exact ih slot.size

@[simp]
theorem lastSize_concat (prev : ℕ) (init : List Slot) (last : Slot) :
    lastSize prev (init ++ [last]) = last.size := lastSize_append prev init [last]

theorem tailOffset_append_cons (left : List Slot) (next : Slot)
    (rest : List Slot) :
    tailOffset (left ++ next :: rest) = ziplistHeaderSize + totalSize left +
      totalSize (next :: rest).dropLast := by
  rw [tailOffset, dropLast_append_of_ne_nil (by simp), totalSize_append,
    add_assoc]

theorem chained_append {prev : ℕ} {left right : List Slot} :
    Chained prev (left ++ right) ↔
      Chained prev left ∧ Chained (lastSize prev left) right := by
  induction left generalizing prev with
  | nil => simp [Chained, lastSize]
  | cons slot rest ih =>
    rw [cons_append, Chained, Chained, ih, lastSize, and_assoc]

end Sizes

section Header

variable {bytes tail count : ℕ} {rest : Bytes}

theorem drop_header (bytes tail count : ℕ) (mid after : Bytes) :
    (header bytes tail count ++ (mid ++ after)).drop
      (ziplistHeaderSize + mid.length) = after := by
  rw [← append_assoc]
  apply drop_left'
  simp

theorem getElem?_header (bytes tail count : ℕ) (mid after : Bytes) (i : ℕ) :
    (header bytes tail count ++ (mid ++ after))[
      ziplistHeaderSize + mid.length + i]? = after[i]? := by
  rw [← getElem?_drop, drop_header]

theorem ziplistBytes_header (hlt : bytes < 2 ^ 32) :
    ziplistBytes (header bytes tail count ++ rest) = some bytes := by
  have hload := load_append [] (leBytes 4 bytes)
    (leBytes 4 tail ++ leBytes 2 count ++ rest)
  simp only [nil_append, length_nil, length_leBytes] at hload
  simp only [ziplistBytes, header, append_assoc] at hload ⊢
  rw [hload, Option.map_some, leNat_leBytes, Nat.mod_eq_of_lt (by omega)]

theorem ziplistTailOffset_header_mod :
    ziplistTailOffset (header bytes tail count ++ rest) =
      some (tail % 2 ^ 32) := by
  have hload := load_append (leBytes 4 bytes) (leBytes 4 tail)
    (leBytes 2 count ++ rest)
  simp only [length_leBytes] at hload
  simp only [ziplistTailOffset, header, append_assoc] at hload ⊢
  rw [hload, Option.map_some, leNat_leBytes]
  rfl

theorem ziplistTailOffset_header (hlt : tail < 2 ^ 32) :
    ziplistTailOffset (header bytes tail count ++ rest) = some tail := by
  rw [ziplistTailOffset_header_mod, Nat.mod_eq_of_lt hlt]

theorem ziplistLength_header :
    ziplistLength (header bytes tail count ++ rest) = some (count % 2 ^ 16) := by
  have hload := load_append (leBytes 4 bytes ++ leBytes 4 tail)
    (leBytes 2 count) rest
  simp only [length_append, length_leBytes] at hload
  simp only [ziplistLength, header, append_assoc] at hload ⊢
  rw [hload, Option.map_some, leNat_leBytes]
  rfl

theorem setZiplistBytes_header (bytes' : ℕ) :
    setZiplistBytes (header bytes tail count ++ rest) bytes' =
      some (header bytes' tail count ++ rest) := by
  have hstore := store_append [] (leBytes 4 bytes)
    (leBytes 4 tail ++ leBytes 2 count ++ rest) (leBytes 4 bytes') (by simp)
  simp only [nil_append, length_nil] at hstore
  simp only [setZiplistBytes, header, append_assoc] at hstore ⊢
  exact hstore

theorem setZiplistTailOffset_header (tail' : ℕ) :
    setZiplistTailOffset (header bytes tail count ++ rest) tail' =
      some (header bytes tail' count ++ rest) := by
  have hstore := store_append (leBytes 4 bytes) (leBytes 4 tail)
    (leBytes 2 count ++ rest) (leBytes 4 tail') (by simp)
  simp only [length_leBytes] at hstore
  simp only [setZiplistTailOffset, header, append_assoc] at hstore ⊢
  exact hstore

/-- The saturating entry counter after one more entry. -/
def incrCount (count : ℕ) : ℕ :=
  if count % 2 ^ 16 < 2 ^ 16 - 1 then count % 2 ^ 16 + 1 else count

theorem ziplistIncrLength_header :
    ziplistIncrLength (header bytes tail count ++ rest) =
      some (header bytes tail (incrCount count) ++ rest) := by
  have hstore := store_append (leBytes 4 bytes ++ leBytes 4 tail)
    (leBytes 2 count) rest (leBytes 2 (count % 2 ^ 16 + 1)) (by simp)
  simp only [length_append, length_leBytes] at hstore
  rw [ziplistIncrLength, ziplistLength_header, incrCount]
  simp only [some_bind]
  split
  · simp only [header, append_assoc] at hstore ⊢
    exact hstore
  · rfl

end Header

section Read

variable {zl : Bytes} {slots left right : List Slot} {slot : Slot}
  {count : ℕ}

theorem length_render (slots : List Slot) (count : ℕ) :
    (render slots count).length = ziplistHeaderSize + totalSize slots + 1 := by
  simp [render]
  omega

theorem drop_render (left right : List Slot) (count : ℕ) :
    (render (left ++ right) count).drop (ziplistHeaderSize + totalSize left) =
      layout (lastSize 0 left) right ++ [zipEnd] := by
  rw [render, layout_append]
  set head := header (ziplistHeaderSize + totalSize (left ++ right) + 1)
    (tailOffset (left ++ right)) count with hhead
  have hlength : ziplistHeaderSize + totalSize left =
      (head ++ layout 0 left).length := by
    simp [hhead]
  rw [hlength, ← append_assoc head, append_assoc, drop_left]

theorem getElem?_render (left right : List Slot) (count : ℕ) :
    (render (left ++ right) count)[ziplistHeaderSize + totalSize left]? =
      (layout (lastSize 0 left) right ++ [zipEnd])[0]? := by
  rw [← drop_render left right count, getElem?_drop, add_zero]

theorem getElem?_layout_nil (prev : ℕ) :
    (layout prev [] ++ [zipEnd])[0]? = some zipEnd := rfl

theorem getElem?_layout_cons {prev : ℕ} (hfits : PrevFits slot.wide prev)
    (rest : List Slot) (after : Bytes) :
    ∃ byte, (layout prev (slot :: rest) ++ after)[0]? = some byte ∧
      byte ≠ zipEnd := by
  obtain ⟨byte, tail, heq, hend, -⟩ := head_prevField hfits
  refine ⟨byte, ?_, hend⟩
  rw [layout, Slot.bytes, heq]
  rfl

theorem size_lt_of_render
    (hsize : ziplistHeaderSize + totalSize slots + 1 < 2 ^ 32)
    (hmem : slot ∈ slots) : slot.size < 2 ^ 32 := by
  have hle := single_le_sum (by simp) slot.size
    (mem_map_of_mem (f := Slot.size) hmem)
  rw [totalSize] at hsize
  omega

theorem zipRawEntryLength_slot {prev : ℕ} (hfits : PrevFits slot.wide prev)
    (hsize : slot.size < 2 ^ 32) (rest : List Slot) (after : Bytes) :
    zipRawEntryLength (layout prev (slot :: rest) ++ after) =
      some slot.size := by
  rw [layout, Slot.bytes, append_assoc, append_assoc,
    zipRawEntryLength_prevField hfits slot.decodes, ← Slot.size,
    Nat.mod_eq_of_lt hsize]

theorem zipEntry_slot {prev : ℕ} (hfits : PrevFits slot.wide prev)
    (rest : List Slot) (after : Bytes) :
    ∃ entry, zipEntry (layout prev (slot :: rest) ++ after) = some entry ∧
      entry.prevrawlensize = prevSize slot.wide ∧ entry.prevrawlen = prev ∧
      entry.headersize + entry.len = slot.size := by
  obtain ⟨entry, hentry, hsize, hprev, hheader, -, hlength⟩ :=
    zipEntry_prevField hfits slot.decodes (layout slot.size rest ++ after)
  refine ⟨entry, ?_, hsize, hprev, ?_⟩
  · rw [layout, Slot.bytes, append_assoc, append_assoc]
    exact hentry
  · rw [hheader, Slot.size, hlength, add_assoc]

theorem zipEntry_bytes {prev : ℕ} (hfits : PrevFits slot.wide prev)
    (after : Bytes) :
    ∃ entry, zipEntry (slot.bytes prev ++ after) = some entry ∧
      entry.headersize + entry.len = slot.size := by
  obtain ⟨entry, hentry, -, -, hlen⟩ := zipEntry_slot hfits [] after
  rw [layout, layout, append_nil] at hentry
  exact ⟨entry, hentry, hlen⟩

/-- An entry within a block, and the byte behind it. -/
theorem zipEntry_block {prev : ℕ} (hfits : PrevFits slot.wide prev)
    (bytes count : ℕ) (mid after : Bytes) :
    ∃ entry, zipEntry (slot.bytes prev ++ after) = some entry ∧
      ∀ tail : ℕ, (header bytes tail count ++
        (mid ++ (slot.bytes prev ++ after)))[ziplistHeaderSize + mid.length +
          (entry.headersize + entry.len)]? = after[0]? := by
  obtain ⟨entry, hentry, hlen⟩ := zipEntry_bytes hfits after
  refine ⟨entry, hentry, fun tail => ?_⟩
  rw [getElem?_header, hlen, getElem?_append_right (by simp)]
  simp

theorem zipPrevEncodeLength_append_body {prev : ℕ}
    (hwide : slot.wide = decide (zipBiglen ≤ prev)) :
    zipPrevEncodeLength prev ++ slot.body = slot.bytes prev := by
  rw [zipPrevEncodeLength_eq, ← hwide, Slot.bytes]

theorem ziplistGet_slot {prev : ℕ} (hfits : PrevFits slot.wide prev)
    (rest : List Slot) (after : Bytes) :
    ziplistGet (layout prev (slot :: rest) ++ after) = some slot.value := by
  rw [layout, Slot.bytes, append_assoc, append_assoc]
  exact ziplistGet_prevField hfits slot.decodes _

/-- The position of the first slot of `right` in a list that continues with
it. -/
def firstOffset (left right : List Slot) : Option ℕ :=
  if right = [] then none else some (ziplistHeaderSize + totalSize left)

/-- What a loop over the entries reads at one of them, and where it goes
next. -/
theorem WellFormed.entry (hwf : WellFormed zl (left ++ slot :: right)) :
    ∃ byte, zl[ziplistHeaderSize + totalSize left]? = some byte ∧
      byte ≠ zipEnd ∧
      zipRawEntryLength (zl.drop (ziplistHeaderSize + totalSize left)) =
        some slot.size ∧
      ziplistHeaderSize + totalSize left + slot.size =
        ziplistHeaderSize + totalSize (left ++ [slot]) := by
  obtain ⟨⟨count, rfl⟩, hsize, hchain⟩ := hwf
  obtain ⟨-, hfits, -⟩ := chained_append.1 hchain
  obtain ⟨byte, hbyte, hend⟩ := getElem?_layout_cons hfits right [zipEnd]
  have hlt := size_lt_of_render hsize
    (show slot ∈ left ++ slot :: right by simp)
  refine ⟨byte, ?_, hend, ?_, ?_⟩
  · rw [getElem?_render, hbyte]
  · rw [drop_render, zipRawEntryLength_slot hfits hlt]
  · rw [totalSize_append, totalSize_cons, totalSize_nil, add_zero, add_assoc]

theorem WellFormed.end (hwf : WellFormed zl slots) :
    zl[ziplistHeaderSize + totalSize slots]? = some zipEnd := by
  obtain ⟨⟨count, rfl⟩, -⟩ := hwf
  have hend := getElem?_render slots [] count
  rwa [append_nil, getElem?_layout_nil] at hend

theorem WellFormed.ziplistGet_eq (hwf : WellFormed zl (left ++ slot :: right)) :
    ziplistGet (zl.drop (ziplistHeaderSize + totalSize left)) =
      some slot.value := by
  obtain ⟨⟨count, rfl⟩, -, hchain⟩ := hwf
  rw [drop_render, ziplistGet_slot (chained_append.1 hchain).2.1]

theorem WellFormed.ziplistNext_eq
    (hwf : WellFormed zl (left ++ slot :: right)) :
    ziplistNext zl (ziplistHeaderSize + totalSize left) =
      some (firstOffset (left ++ [slot]) right) := by
  obtain ⟨byte, hbyte, hend, hlen, hpos⟩ := hwf.entry
  rw [append_cons] at hwf
  rw [ziplistNext, hbyte, hlen]
  simp only [some_bind, hend, if_false, hpos]
  cases right with
  | nil =>
    rw [append_nil] at hwf
    rw [hwf.end]
    rfl
  | cons next rest =>
    obtain ⟨byte', hbyte', hend', -⟩ := hwf.entry
    rw [hbyte']
    simp [hend', firstOffset]

/-- Following `ziplistNext` from any entry yields the elements from there on. -/
theorem readFrom_next {fuel : ℕ} (hwf : WellFormed zl (left ++ right))
    (hfuel : right.length ≤ fuel) :
    readFrom (ziplistNext zl) zl fuel (firstOffset left right) =
      some (right.map Slot.text) := by
  induction right generalizing left fuel with
  | nil => simp [firstOffset, readFrom]
  | cons slot right ih =>
    cases fuel with
    | zero => simp at hfuel
    | succ fuel =>
      have hfirst : firstOffset left (slot :: right) =
          some (ziplistHeaderSize + totalSize left) := by
        simp [firstOffset]
      rw [hfirst, readFrom, hwf.ziplistGet_eq, hwf.ziplistNext_eq]
      rw [append_cons] at hwf
      simp only [some_bind]
      rw [ih hwf (by simpa using hfuel)]
      rfl

theorem tailOffset_le (slots : List Slot) :
    tailOffset slots ≤ ziplistHeaderSize + totalSize slots := by
  have hle := totalSize_dropLast_le slots
  rw [tailOffset]
  omega

theorem WellFormed.ziplistTailOffset_eq (hwf : WellFormed zl slots) :
    ziplistTailOffset zl = some (tailOffset slots) := by
  obtain ⟨⟨count, rfl⟩, hsize, -⟩ := hwf
  have hle := tailOffset_le slots
  rw [render, append_assoc]
  exact ziplistTailOffset_header (by omega)

theorem ziplistBytes_render
    (hsize : ziplistHeaderSize + totalSize slots + 1 < 2 ^ 32) :
    ziplistBytes (render slots count) =
      some (ziplistHeaderSize + totalSize slots + 1) := by
  rw [render, append_assoc]
  exact ziplistBytes_header hsize

/-- The position of the last slot of `left`. -/
def lastOffset (left : List Slot) : Option ℕ :=
  if left = [] then none
  else some (ziplistHeaderSize + totalSize left.dropLast)

theorem WellFormed.ziplistPrev_eq
    (hwf : WellFormed zl (left ++ slot :: right)) :
    ziplistPrev zl (ziplistHeaderSize + totalSize left) =
      some (lastOffset left) := by
  obtain ⟨byte, hbyte, hend, -⟩ := hwf.entry
  obtain ⟨⟨count, rfl⟩, -, hchain⟩ := hwf
  obtain ⟨-, hfits, -⟩ := chained_append.1 hchain
  obtain ⟨entry, hentry, -, hprev, -⟩ := zipEntry_slot hfits right [zipEnd]
  rw [ziplistPrev, hbyte, drop_render, hentry]
  simp only [some_bind, hend, if_false, hprev]
  rcases eq_nil_or_concat left with rfl | ⟨init, last, rfl⟩
  · simp [lastOffset]
  have hpos := size_pos last
  simp only [concat_eq_append, totalSize_append, totalSize_cons,
    totalSize_nil, add_zero, lastSize_concat, lastOffset, append_eq_nil_iff,
    reduceCtorEq, and_false, if_false, dropLast_concat]
  rw [if_neg (by omega), if_pos ⟨hpos, by omega⟩]
  congr 2
  omega

/-- Following `ziplistPrev` from any entry yields the elements before it, last
first. -/
theorem readFrom_prev {fuel : ℕ} (hwf : WellFormed zl (left ++ right))
    (hfuel : left.length ≤ fuel) :
    readFrom (ziplistPrev zl) zl fuel (lastOffset left) =
      some (left.map Slot.text).reverse := by
  induction left using reverseRecOn generalizing right fuel with
  | nil => simp [lastOffset, readFrom]
  | append_singleton init slot ih =>
    rw [← append_cons] at hwf
    cases fuel with
    | zero => simp at hfuel
    | succ fuel =>
      have hlast : lastOffset (init ++ [slot]) =
          some (ziplistHeaderSize + totalSize init) := by
        simp [lastOffset]
      rw [hlast, readFrom, hwf.ziplistGet_eq, hwf.ziplistPrev_eq]
      simp only [some_bind]
      rw [ih hwf (by simpa using hfuel)]
      simp [Slot.text]

theorem length_le_totalSize (slots : List Slot) :
    slots.length ≤ totalSize slots := by
  induction slots with
  | nil => simp
  | cons slot rest ih =>
    have hpos := size_pos slot
    simp only [length_cons, totalSize_cons]
    omega

theorem length_lt_render (slots : List Slot) (count : ℕ) :
    slots.length < (render slots count).length := by
  have hle := length_le_totalSize slots
  rw [length_render]
  omega

theorem readForward_eq (hwf : WellFormed zl slots) :
    readForward zl = some (slots.map Slot.text) := by
  have hlength : slots.length < zl.length := by
    obtain ⟨count, rfl⟩ := hwf.eq_render
    exact length_lt_render slots count
  have hread : readFrom (ziplistNext zl) zl zl.length (firstOffset [] slots) =
      some (slots.map Slot.text) := readFrom_next hwf hlength.le
  rw [readForward]
  cases slots with
  | nil =>
    rw [show zl[ziplistHeaderSize]? = _ from hwf.end]
    exact hread
  | cons slot rest =>
    obtain ⟨byte, hbyte, hend, -⟩ := @WellFormed.entry zl [] rest slot hwf
    rw [show zl[ziplistHeaderSize]? = _ from hbyte]
    simp only [some_bind, hend, if_false]
    exact hread

theorem readBackward_eq (hwf : WellFormed zl slots) :
    readBackward zl = some (slots.map Slot.text).reverse := by
  have hlength : zl.length = ziplistHeaderSize + totalSize slots + 1 ∧
      slots.length < zl.length := by
    obtain ⟨count, rfl⟩ := hwf.eq_render
    exact ⟨length_render slots count, length_lt_render slots count⟩
  have hread : readFrom (ziplistPrev zl) zl zl.length (lastOffset slots) =
      some (slots.map Slot.text).reverse :=
    readFrom_prev ((append_nil slots).symm ▸ hwf) hlength.2.le
  have hstart : ziplistPrev zl (ziplistHeaderSize + totalSize slots) =
      some (lastOffset slots) := by
    rw [ziplistPrev, hwf.end]
    simp only [some_bind, if_true, hwf.ziplistTailOffset_eq]
    rcases eq_nil_or_concat slots with rfl | ⟨init, last, rfl⟩
    · rw [show zl[tailOffset []]? = _ from hwf.end]
      rfl
    rw [concat_eq_append] at hwf ⊢
    obtain ⟨byte, hbyte, hne, -⟩ := hwf.entry
    rw [tailOffset, dropLast_concat, hbyte]
    simp [hne, lastOffset]
  rw [readBackward, hlength.1, Nat.add_sub_cancel, hstart]
  rw [hlength.1] at hread
  exact hread

end Read

end RedisV8.Ziplist
