import RedisV8.Ziplist.Layout

/-!
# Resizing and cascading updates

When the size of an entry changes, the back-lengths after it are rewritten one
by one until a field of the right value is found.  `widen` says which slots
result, and `cascadeLoop_eq` that the loop computes them.
-/

namespace RedisV8.Ziplist

open Bytes Util List

section Resize

variable {bytes tail count : ℕ} {rest : Bytes} (junk : ℕ → UInt8)

theorem ziplistResize_header {size : ℕ} (hlow : ziplistHeaderSize < size)
    (hlt : size < 2 ^ 32) :
    ziplistResize junk (header bytes tail count ++ rest) size =
      some (header size tail count ++
        resize (fun i => junk (ziplistHeaderSize + i)) rest
          (size - ziplistHeaderSize - 1) ++ [zipEnd]) := by
  set junk' := fun i => junk (ziplistHeaderSize + i) with hjunk
  set body := resize junk' rest (size - ziplistHeaderSize) with hbody
  have hblock : resize junk (header bytes tail count ++ rest) size =
      header bytes tail count ++ body := by
    rw [resize_append_left junk _ _ (by rw [length_header]; omega),
      length_header]
  have hlength : body.length = size - ziplistHeaderSize := length_resize _ _ _
  have hsplit : body = resize junk' rest (size - ziplistHeaderSize - 1) ++
      body.drop (size - ziplistHeaderSize - 1) := by
    rw [← take_resize junk' rest (Nat.sub_le _ 1), take_append_drop]
  have hstore := store_append
    (header size tail count ++ resize junk' rest (size - ziplistHeaderSize - 1))
    (body.drop (size - ziplistHeaderSize - 1)) [] [zipEnd]
    (by rw [length_drop, hlength, length_singleton]; omega)
  rw [append_nil, append_nil, append_assoc, ← hsplit,
    length_append, length_header, length_resize] at hstore
  rw [ziplistResize, Nat.mod_eq_of_lt hlt, hblock]
  simp only [setZiplistBytes_header, some_bind]
  rw [if_neg (by omega), show size - 1 =
    ziplistHeaderSize + (size - ziplistHeaderSize - 1) by omega, hstore]

/-- A block too small for its size field cannot be resized. -/
theorem ziplistResize_eq_none {zl : Bytes} {size : ℕ}
    (hlt : size % 2 ^ 32 < 4) : ziplistResize junk zl size = none := by
  have hnone : setZiplistBytes (resize junk zl (size % 2 ^ 32))
      (size % 2 ^ 32) = none := by
    apply store_eq_none
    rw [length_resize, length_leBytes]
    omega
  rw [ziplistResize, hnone]
  rfl

/-- Growing keeps the old block in front of the new end marker. -/
theorem ziplistResize_grow (bytes tail count : ℕ) {rest : Bytes} {size : ℕ}
    (hlow : ziplistHeaderSize + rest.length < size) (hlt : size < 2 ^ 32) :
    ∃ extra, extra.length + ziplistHeaderSize + rest.length + 1 = size ∧
      ziplistResize junk (header bytes tail count ++ rest) size =
        some (header size tail count ++ (rest ++ (extra ++ [zipEnd]))) := by
  obtain ⟨extra, hlength, heq⟩ := resize_of_le
    (fun i => junk (ziplistHeaderSize + i))
    (show rest.length ≤ size - ziplistHeaderSize - 1 by omega)
  refine ⟨extra, by omega, ?_⟩
  rw [ziplistResize_header junk (by omega) hlt, heq]
  simp

/-- A resize that cuts off the end of a block. -/
theorem ziplistResize_kept (bytes tail count : ℕ) (kept cut : Bytes)
    (hlt : ziplistHeaderSize + kept.length + 1 < 2 ^ 32) :
    ziplistResize junk (header bytes tail count ++ (kept ++ cut))
        (ziplistHeaderSize + kept.length + 1) =
      some (header (ziplistHeaderSize + kept.length + 1) tail count ++
        (kept ++ [zipEnd])) := by
  have hsize : ziplistHeaderSize + kept.length + 1 - ziplistHeaderSize - 1 =
      kept.length := by
    omega
  rw [ziplistResize_header junk (by omega) hlt, hsize, resize_append,
    append_assoc]

theorem length_ziplistResize {zl zl' : Bytes} {size : ℕ}
    (hresize : ziplistResize junk zl size = some zl') :
    zl'.length = size % 2 ^ 32 := by
  simp only [ziplistResize, Option.bind_eq_bind, Option.bind_eq_some_iff]
    at hresize
  obtain ⟨zl1, hbytes, hlast⟩ := hresize
  split_ifs at hlast
  rw [length_store hlast, length_store hbytes, length_resize]

/-- A resized block ends with the end marker. -/
theorem drop_ziplistResize {zl zl' : Bytes} {size : ℕ}
    (hresize : ziplistResize junk zl size = some zl') (hlt : size < 2 ^ 32) :
    zl'.drop (size - 1) = [zipEnd] := by
  have hlength := length_ziplistResize junk hresize
  simp only [ziplistResize, Nat.mod_eq_of_lt hlt, Option.bind_eq_bind,
    Option.bind_eq_some_iff] at hresize
  obtain ⟨zl1, -, hlast⟩ := hresize
  split_ifs at hlast with hzero
  have hstored := length_store hlast
  rw [hlength, Nat.mod_eq_of_lt hlt] at hstored
  rw [store, if_pos (by simp; omega)] at hlast
  obtain rfl := Option.some.inj hlast
  rw [append_assoc, drop_left' (by rw [length_take]; omega),
    drop_of_length_le (by simp; omega), append_nil]

end Resize

section Cascade

/-- The slots after one whose size became `prev`: each short field that can no
longer hold its back-length is widened, which may affect the next slot. -/
def widen : ℕ → List Slot → List Slot
  | _, [] => []
  | prev, slot :: rest =>
    if slot.wide = false ∧ zipBiglen ≤ prev then
      slot.setWide true :: widen (slot.setWide true).size rest
    else slot :: rest

/-- A block in which the entry `cur` has just been rewritten while the entries
after it still record its old size `old`. -/
def staleBlock (mid : Bytes) (prev : ℕ) (cur : Slot) (old : ℕ)
    (rest : List Slot) (count : ℕ) : Bytes :=
  header (ziplistHeaderSize + mid.length + totalSize (cur :: rest) + 1)
      (ziplistHeaderSize + mid.length + totalSize (cur :: rest).dropLast)
      count ++
    (mid ++ (cur.bytes prev ++ (layout old rest ++ [zipEnd])))

@[simp]
theorem size_setWide (slot : Slot) (wide : Bool) :
    (slot.setWide wide).size = prevSize wide + slot.body.length := rfl

/-- A field that was chosen for a back-length fits it. -/
theorem prevFits_setWide {len : ℕ} (hlen : len < 2 ^ 32) (slot : Slot) :
    PrevFits (slot.setWide (decide (zipBiglen ≤ len))).wide len :=
  ⟨hlen, fun hshort => by simpa [Slot.setWide] using hshort⟩

theorem size_setWide_of_short {slot : Slot} (hshort : slot.wide = false) :
    (slot.setWide true).size = slot.size + 4 := by
  rw [size_setWide, Slot.size, hshort]
  simp only [prevSize, if_true, Bool.false_eq_true, if_false]
  omega

theorem totalSize_le_widen (prev : ℕ) (slots : List Slot) :
    totalSize slots ≤ totalSize (widen prev slots) := by
  induction slots generalizing prev with
  | nil => exact le_rfl
  | cons slot rest ih =>
    rw [widen]
    split
    · rename_i hgrow
      have hrest := ih (slot.setWide true).size
      rw [totalSize_cons, totalSize_cons, size_setWide_of_short hgrow.1] at *
      omega
    · exact le_rfl

theorem widen_of_le {prev old : ℕ} {slots : List Slot} (hle : prev ≤ old)
    (hchain : Chained old slots) : widen prev slots = slots := by
  cases slots with
  | nil => rfl
  | cons slot rest =>
    rw [widen, if_neg]
    rintro ⟨hshort, hbig⟩
    have hlt := hchain.1.2 hshort
    omega

theorem chained_widen {prev old : ℕ} {slots : List Slot}
    (hchain : Chained old slots) (hprev : prev < 2 ^ 32)
    (hsize : totalSize (widen prev slots) < 2 ^ 32) :
    Chained prev (widen prev slots) := by
  induction slots generalizing prev old with
  | nil => trivial
  | cons slot rest ih =>
    rw [widen] at hsize ⊢
    split at hsize
    · rename_i hgrow
      rw [if_pos hgrow]
      rw [totalSize_cons] at hsize
      exact ⟨⟨hprev, by simp [Slot.setWide]⟩,
        ih hchain.2 (by omega) (by omega)⟩
    rename_i hkeep
    rw [if_neg hkeep]
    refine ⟨⟨hprev, fun hshort => ?_⟩, hchain.2⟩
    by_contra hbig
    exact hkeep ⟨hshort, Nat.not_lt.1 hbig⟩

variable (junk : ℕ → UInt8)

theorem cascadeGrow_eq {mid : Bytes} {prev old count : ℕ} {cur next : Slot}
    {rest : List Slot} (hshort : next.wide = false)
    (hbig : zipBiglen ≤ cur.size)
    (hsize : ziplistHeaderSize + mid.length + totalSize (cur :: next :: rest) +
      1 + 4 < 2 ^ 32) :
    cascadeGrow junk (staleBlock mid prev cur old (next :: rest) count)
        (ziplistHeaderSize + mid.length + totalSize (cur :: next :: rest) + 1)
        (ziplistHeaderSize + mid.length + cur.size) cur.size
        (prevSize next.wide) =
      some (staleBlock (mid ++ cur.bytes prev) cur.size (next.setWide true)
        next.size rest count) := by
  have hfield : zipPrevEncodeLength cur.size = prevField true cur.size := by
    rw [zipPrevEncodeLength_eq, decide_eq_true hbig]
  have hsizes : zipPrevEncodeSize cur.size = 5 := by
    rw [zipPrevEncodeSize_eq, decide_eq_true hbig]
    rfl
  have hprev : prevSize next.wide = 1 := by
    rw [hshort]
    rfl
  have hgrown := size_setWide_of_short hshort
  simp only [totalSize_cons] at hsize
  set size := ziplistHeaderSize + mid.length + totalSize (cur :: next :: rest) +
    1 with hsizeDef
  set np := ziplistHeaderSize + mid.length + cur.size with hnp
  set tail := ziplistHeaderSize + mid.length +
    totalSize (cur :: next :: rest).dropLast with htail
  set content := mid ++ (cur.bytes prev ++
    (layout old (next :: rest) ++ [zipEnd])) with hcontent
  have hlow : ziplistHeaderSize + content.length < size + 4 := by
    simp [hcontent, hsizeDef]
    omega
  obtain ⟨extra, hextra, hresize⟩ := ziplistResize_grow junk size tail count
    hlow (by simp [hsizeDef]; omega)
  have hthree : extra.length = 3 := by
    simp [hcontent, hsizeDef] at hextra
    omega
  set tail' := ziplistHeaderSize + (mid ++ cur.bytes prev).length +
    totalSize (next.setWide true :: rest).dropLast with htail'
  have htailStep : ∀ block : Bytes,
      (if tail ≠ np then
        setZiplistTailOffset (header (size + 4) tail count ++ block) (tail + 4)
      else some (header (size + 4) tail count ++ block)) =
        some (header (size + 4) tail' count ++ block) := by
    intro block
    cases rest with
    | nil =>
      have heq : tail = np := by simp [htail, hnp]
      have heq' : tail' = np := by
        simp [htail', hnp]
        omega
      rw [if_neg (by simpa using heq), heq, heq']
    | cons after rest =>
      have hpos := size_pos next
      have hne : tail ≠ np := by
        simp [htail, hnp]
        omega
      have heq' : tail' = tail + 4 := by
        simp only [htail', htail, dropLast_cons_cons, totalSize_cons,
          hgrown, length_append, length_slotBytes]
        omega
      rw [if_pos hne, setZiplistTailOffset_header, heq']
  have htailLt : tail < 2 ^ 32 := by
    have hle : totalSize (next :: rest).dropLast ≤ totalSize (next :: rest) :=
      totalSize_dropLast_le _
    simp only [htail, dropLast_cons_cons, totalSize_cons] at hle ⊢
    omega
  have hshift := memmove_store_eq
    (header (size + 4) tail' count ++ (mid ++ cur.bytes prev))
    (prevField next.wide old) (next.body ++ layout next.size rest)
    (zipEnd :: extra) [zipEnd] (prevField true cur.size)
    (by simp [hshort, hthree, prevSize])
  have hblock : header (size + 4) tail' count ++ (content ++ (extra ++ [zipEnd])) =
      header (size + 4) tail' count ++ (mid ++ cur.bytes prev) ++
        (prevField next.wide old ++ (next.body ++ layout next.size rest ++
          (zipEnd :: extra ++ [zipEnd]))) := by
    simp [hcontent, layout, Slot.bytes]
  rw [cascadeGrow, hsizes, hprev, staleBlock]
  simp only [Nat.reduceSub, ← htail, ← hsizeDef, ← hcontent, hresize, some_bind,
    ziplistTailOffset_header htailLt, htailStep]
  have hlength : (header (size + 4) tail' count ++
      (mid ++ cur.bytes prev)).length = np := by
    simp [hnp]
    omega
  have hdata : (next.body ++ layout next.size rest).length =
      size - np - 1 - 1 := by
    simp [hsizeDef, hnp, Slot.size, hprev]
    omega
  rw [hlength, hdata, length_prevField, length_prevField, hprev] at hshift
  rw [hblock, hfield]
  refine hshift.trans ?_
  have hsize' : size + 4 = ziplistHeaderSize + (mid ++ cur.bytes prev).length +
      totalSize (next.setWide true :: rest) + 1 := by
    simp only [hsizeDef, totalSize_cons, hgrown, length_append,
      length_slotBytes]
    omega
  rw [staleBlock, ← htail', ← hsize']
  simp [Slot.bytes, Slot.setWide]

theorem length_staleBlock (mid : Bytes) (prev : ℕ) (cur : Slot) (old : ℕ)
    (rest : List Slot) (count : ℕ) :
    (staleBlock mid prev cur old rest count).length =
      ziplistHeaderSize + mid.length + totalSize (cur :: rest) + 1 := by
  simp [staleBlock]
  omega

theorem staleBlock_cons (mid : Bytes) (prev : ℕ) (cur next : Slot)
    (rest : List Slot) (count : ℕ) :
    staleBlock (mid ++ cur.bytes prev) cur.size next next.size rest count =
      staleBlock mid prev cur cur.size (next :: rest) count := by
  simp only [staleBlock, layout, append_assoc, length_append,
    length_slotBytes, totalSize_cons, dropLast_cons_cons, add_assoc]

theorem cascadeGrow_eq_none {zl : Bytes} {curlen np rawlen : ℕ} {wide : Bool}
    (hshort : wide = false) (hbig : zipBiglen ≤ rawlen)
    (hsize : curlen < 2 ^ 32) (hfull : 2 ^ 32 ≤ curlen + 4) :
    cascadeGrow junk zl curlen np rawlen (prevSize wide) = none := by
  have hextra : zipPrevEncodeSize rawlen - prevSize wide = 4 := by
    rw [zipPrevEncodeSize_eq, decide_eq_true hbig, hshort]
    rfl
  rw [cascadeGrow, hextra, ziplistResize_eq_none junk (by omega)]
  rfl

section Step

variable {bytes tail count prev old fuel curlen : ℕ} {mid back : Bytes}
  {cur : Slot}

theorem zipEntry_prevlen {wide : Bool} {entry : ZlEntry}
    (hfits : PrevFits wide prev)
    (hentry : zipEntry (prevField wide prev ++ back) = some entry) :
    entry.prevrawlensize = prevSize wide ∧ entry.prevrawlen = prev ∧
      entry.headersize = prevSize wide + entry.lensize ∧
      zipDecodeLength back = some (entry.encoding, entry.lensize, entry.len) := by
  rw [zipEntry, zipDecodePrevlen_prevField hfits] at hentry
  simp only [some_bind, drop_prevField, Option.bind_eq_bind,
    Option.bind_eq_some_iff] at hentry
  obtain ⟨⟨encoding, lensize, len⟩, hdecode, heq⟩ := hentry
  cases heq
  exact ⟨rfl, rfl, rfl, hdecode⟩

/-- What the loop reads at the entry whose size may have changed. -/
theorem block_read (bytes tail count : ℕ) (mid back : Bytes)
    (hcur : PrevFits cur.wide prev) (hsize : cur.size < 2 ^ 32) :
    ∃ byte entry, (header bytes tail count ++
        (mid ++ (cur.bytes prev ++ back)))[ziplistHeaderSize + mid.length]? =
          some byte ∧ byte ≠ zipEnd ∧
      zipEntry (cur.bytes prev ++ back) = some entry ∧
      (entry.headersize + entry.len) % 2 ^ 32 = cur.size := by
  obtain ⟨byte, front, hhead, hend, -⟩ := head_prevField hcur
  obtain ⟨entry, hentry, hlen⟩ := zipEntry_bytes hcur back
  refine ⟨byte, entry, ?_, hend, hentry, ?_⟩
  · rw [← add_zero (ziplistHeaderSize + mid.length), getElem?_header,
      Slot.bytes, hhead]
    rfl
  · rw [hlen, Nat.mod_eq_of_lt hsize]

theorem drop_block (bytes tail count prev : ℕ) (mid back : Bytes)
    (cur : Slot) :
    (header bytes tail count ++ (mid ++ (cur.bytes prev ++ back))).drop
      (ziplistHeaderSize + mid.length + cur.size) = back := by
  rw [← drop_drop, drop_header]
  exact drop_left' (length_slotBytes cur prev)

theorem getElem?_block (bytes tail count prev : ℕ) (mid back : Bytes)
    (cur : Slot) :
    (header bytes tail count ++ (mid ++ (cur.bytes prev ++ back)))[
      ziplistHeaderSize + mid.length + cur.size]? = back[0]? := by
  rw [← add_zero (_ + cur.size), ← getElem?_drop, drop_block]

theorem cascadeLoop_nil (hcur : PrevFits cur.wide prev)
    (hsize : cur.size < 2 ^ 32) :
    cascadeLoop junk (fuel + 1) (staleBlock mid prev cur old [] count) curlen
        (ziplistHeaderSize + mid.length) =
      some (staleBlock mid prev cur old [] count) := by
  rw [staleBlock]
  obtain ⟨byte, entry, hbyte, hend, hentry, hlen⟩ := block_read
    (ziplistHeaderSize + mid.length + totalSize [cur] + 1)
    (ziplistHeaderSize + mid.length + totalSize [cur].dropLast) count mid
    (layout old [] ++ [zipEnd]) hcur hsize
  rw [cascadeLoop, hbyte, drop_header, hentry]
  simp only [some_bind, hend, if_false, hlen, getElem?_block,
    getElem?_layout_nil, if_true]

/-- One iteration, before an entry whose back-length is `len` in `block len`. -/
theorem cascadeLoop_step {wide : Bool} (block : ℕ → Bytes)
    (hblock : ∀ len, block len = header bytes tail count ++
      (mid ++ (cur.bytes prev ++ (prevField wide len ++ back))))
    (hcur : PrevFits cur.wide prev) (hnext : PrevFits wide old)
    (hsize : cur.size < 2 ^ 32) :
    cascadeLoop junk (fuel + 1) (block old) curlen
        (ziplistHeaderSize + mid.length) =
      (zipEntry (prevField wide old ++ back)).bind fun _ =>
        if old = cur.size then some (block old)
        else if wide = false ∧ zipBiglen ≤ cur.size then
          (cascadeGrow junk (block old) curlen
            (ziplistHeaderSize + mid.length + cur.size) cur.size
            (prevSize wide)).bind fun zl =>
              cascadeLoop junk fuel zl (curlen + 4)
                (ziplistHeaderSize + mid.length + cur.size)
        else some (block cur.size) := by
  obtain ⟨byte, entry, hbyte, hend, hentry, hlen⟩ := block_read bytes tail
    count mid (prevField wide old ++ back) hcur hsize
  obtain ⟨byte', front, hhead, hend', -⟩ := head_prevField hnext
  have hbyte' : (prevField wide old ++ back)[0]? = some byte' := by
    rw [hhead]
    rfl
  have hstore : store (block old)
      (ziplistHeaderSize + mid.length + cur.size) (prevField wide cur.size) =
      some (block cur.size) := by
    have hfront : (header bytes tail count ++
        (mid ++ cur.bytes prev)).length =
        ziplistHeaderSize + mid.length + cur.size := by
      simp [add_assoc]
    have happend := store_append
      (header bytes tail count ++ (mid ++ cur.bytes prev))
      (prevField wide old) back (prevField wide cur.size) (by simp)
    rw [hfront] at happend
    simpa only [hblock, append_assoc] using happend
  rw [cascadeLoop]
  nth_rewrite 1 2 3 [hblock]
  simp only [hbyte, drop_header, hentry, some_bind, hend, if_false, hlen]
  rw [hblock old, getElem?_block, drop_block, hbyte', ← hblock]
  simp only [some_bind, hend', if_false]
  cases hread : zipEntry (prevField wide old ++ back) with
  | none => rfl
  | some next =>
    obtain ⟨hprevsize, hprev, -⟩ := zipEntry_prevlen hnext hread
    simp only [some_bind, Option.bind_some, hprev, hprevsize,
      zipPrevEncodeSize_eq, zipPrevEncodeLength_eq]
    by_cases hsame : old = cur.size
    · rw [if_pos hsame, if_pos hsame]
    rw [if_neg hsame, if_neg hsame]
    by_cases hbig : zipBiglen ≤ cur.size
    · rw [decide_eq_true hbig]
      cases wide with
      | false =>
        rw [if_pos (by decide), if_pos ⟨rfl, hbig⟩]
        rfl
      | true =>
        rw [if_neg (by decide), if_neg (by decide), if_neg (by simp), hstore]
    have hkeep : ¬ (wide = false ∧ zipBiglen ≤ cur.size) :=
      fun hgrow => hbig hgrow.2
    rw [decide_eq_false hbig, if_neg (by cases wide <;> decide)]
    cases wide with
    | false => rw [if_neg (by decide), if_neg hkeep, hstore]
    | true =>
      rw [if_pos (by decide), if_neg hkeep]
      exact hstore

end Step

/-- The cascade widens exactly the slots that need it; it fails when the list
would reach `2 ^ 32` bytes. -/
theorem cascadeLoop_eq (count : ℕ) {mid : Bytes} {prev old fuel : ℕ}
    {cur : Slot} {rest : List Slot} (hcur : PrevFits cur.wide prev)
    (hchain : Chained old rest) (hfuel : rest.length < fuel)
    (hsize : ziplistHeaderSize + mid.length + totalSize (cur :: rest) + 1 <
      2 ^ 32) :
    cascadeLoop junk fuel (staleBlock mid prev cur old rest count)
        (ziplistHeaderSize + mid.length + totalSize (cur :: rest) + 1)
        (ziplistHeaderSize + mid.length) =
      if ziplistHeaderSize + mid.length +
          totalSize (cur :: widen cur.size rest) + 1 < 2 ^ 32 then
        some (staleBlock mid prev cur cur.size (widen cur.size rest) count)
      else none := by
  have hlt : cur.size < 2 ^ 32 := by
    rw [totalSize_cons] at hsize
    omega
  induction rest generalizing mid prev old cur fuel with
  | nil =>
    obtain ⟨fuel, rfl⟩ : ∃ n, fuel = n + 1 := ⟨fuel - 1, by omega⟩
    rw [cascadeLoop_nil junk hcur hlt, widen, if_pos hsize]
    rfl
  | cons next rest ih =>
    obtain ⟨fuel, rfl⟩ : ∃ n, fuel = n + 1 := ⟨fuel - 1, by omega⟩
    obtain ⟨hnext, hrest⟩ := hchain
    obtain ⟨entry, hentry, -⟩ := zipEntry_slot hnext rest [zipEnd]
    rw [layout, Slot.bytes, append_assoc, append_assoc] at hentry
    rw [cascadeLoop_step junk
      (fun len => staleBlock mid prev cur len (next :: rest) count)
      (fun len => by
        simp only [staleBlock, layout, Slot.bytes, append_assoc]
        rfl)
      hcur hnext hlt, hentry, Option.bind_some]
    by_cases hsame : old = cur.size
    · have hchain : Chained old (next :: rest) := ⟨hnext, hrest⟩
      rw [if_pos hsame, ← hsame, widen_of_le le_rfl hchain, hsame, if_pos hsize]
    rw [if_neg hsame, widen]
    by_cases hgrow : next.wide = false ∧ zipBiglen ≤ cur.size
    · rw [if_pos hgrow, if_pos hgrow]
      have hgrown := size_setWide_of_short hgrow.1
      have hle := totalSize_le_widen (next.setWide true).size rest
      have hlength : (mid ++ cur.bytes prev).length =
          mid.length + cur.size := by
        simp
      have htotal : totalSize (cur :: next :: rest) =
          cur.size + (next.size + totalSize rest) := by
        simp
      by_cases hfull : ziplistHeaderSize + mid.length +
          totalSize (cur :: next :: rest) + 1 + 4 < 2 ^ 32
      · have hrec := @ih (mid ++ cur.bytes prev) cur.size next.size fuel
          (next.setWide true) ⟨by omega, by simp [Slot.setWide]⟩ hrest
          (by simpa using hfuel)
          (by rw [hlength, totalSize_cons, hgrown]; omega) (by omega)
        have hcurlen : ziplistHeaderSize + (mid ++ cur.bytes prev).length +
            totalSize (next.setWide true :: rest) + 1 = ziplistHeaderSize +
            mid.length + totalSize (cur :: next :: rest) + 1 + 4 := by
          rw [hlength, totalSize_cons, hgrown]
          omega
        have hpos : ziplistHeaderSize + (mid ++ cur.bytes prev).length =
            ziplistHeaderSize + mid.length + cur.size := by
          rw [hlength]
          omega
        rw [cascadeGrow_eq junk hgrow.1 hgrow.2 hfull, Option.bind_some,
          ← hcurlen, ← hpos, hrec, staleBlock_cons, hlength,
          totalSize_cons cur, add_assoc ziplistHeaderSize,
          add_assoc ziplistHeaderSize mid.length, add_assoc mid.length]
      · rw [hgrown] at hle
        rw [cascadeGrow_eq_none junk hgrow.1 hgrow.2 hsize (by omega),
          if_neg (by simp only [totalSize_cons, hgrown]; omega)]
        rfl
    · rw [if_neg hgrow, if_neg hgrow, if_pos hsize]

/-- The cascade behind an entry whose size has changed by `nextdiff`. -/
theorem ziplistCascadeUpdate_stale (mid : Bytes) {prev old : ℕ} {cur : Slot}
    {rest : List Slot} {nextdiff : ℤ} (count : ℕ)
    (hfits : PrevFits cur.wide prev) (hchain : Chained old rest)
    (hdiff : (cur.size : ℤ) = old + nextdiff)
    (hsize : ziplistHeaderSize + mid.length + totalSize (cur :: rest) + 1 <
      2 ^ 32) :
    (if nextdiff ≠ 0 then
      ziplistCascadeUpdate junk (staleBlock mid prev cur old rest count)
        (ziplistHeaderSize + mid.length)
    else some (staleBlock mid prev cur old rest count)) =
      if ziplistHeaderSize + mid.length +
          totalSize (cur :: widen cur.size rest) + 1 < 2 ^ 32 then
        some (staleBlock mid prev cur cur.size (widen cur.size rest) count)
      else none := by
  split
  · have hfuel : rest.length <
        (staleBlock mid prev cur old rest count).length := by
      have hlength := length_le_totalSize rest
      rw [length_staleBlock, totalSize_cons]
      omega
    have hbytes : ziplistBytes (staleBlock mid prev cur old rest count) =
        some (ziplistHeaderSize + mid.length + totalSize (cur :: rest) + 1) :=
      ziplistBytes_header hsize
    rw [ziplistCascadeUpdate, hbytes, some_bind,
      cascadeLoop_eq junk count hfits hchain hfuel hsize]
  · rename_i hzero
    obtain rfl : cur.size = old := by
      simp only [ne_eq, not_not] at hzero
      omega
    rw [widen_of_le le_rfl hchain, if_pos hsize]

end Cascade

end RedisV8.Ziplist
