import RedisV8.Ziplist.Cascade

/-!
# Insertion into a ziplist

`ziplistInsert` opens a gap before an entry, rewrites that entry's back-length
and lets the change run through the following entries.  `insertSlots` says
which slots should result, and `InsertFits` when the byte moves produce them:
the block is cut before its tail is moved, so a gap smaller than the bytes
given up by the next entry loses the end of the list.
-/

namespace RedisV8.Ziplist

open Bytes Util List Option

section Move

variable {size tail count prev : ℕ} {mid data after : Bytes} {wide : Bool}

/-- The tail moves behind the gap whatever the sizes of the two back-length
fields are, provided it is still whole. -/
theorem moveTail_eq (curlen reqlen : ℕ)
    (hlength : (header size tail count ++
      (mid ++ (prevField wide prev ++ (data ++ after)))).length = size)
    (hlast : (header size tail count ++
      (mid ++ (prevField wide prev ++ (data ++ after)))).drop (size - 1) =
        [zipEnd])
    (hsize : size = ziplistHeaderSize + mid.length + reqlen +
      zipPrevEncodeSize reqlen + data.length + 1)
    (hcurlen : curlen = ziplistHeaderSize + mid.length + prevSize wide +
      data.length + 1)
    (hreq : reqlen < 2 ^ 32) :
    ∃ gap, gap.length = reqlen ∧
      moveTail (header size tail count ++
          (mid ++ (prevField wide prev ++ (data ++ after))))
          (ziplistHeaderSize + mid.length) curlen reqlen
          ((zipPrevEncodeSize reqlen : ℤ) - prevSize wide) =
        some (header size tail count ++ (mid ++ gap ++
          (prevField (decide (zipBiglen ≤ reqlen)) reqlen ++
            (data ++ [zipEnd])))) := by
  set block := header size tail count ++
    (mid ++ (prevField wide prev ++ (data ++ after))) with hblock
  set start := ziplistHeaderSize + mid.length with hstart
  set front := header size tail count ++ (mid ++ prevField wide prev)
    with hfront
  have hfrontLength : front.length = start + prevSize wide := by
    simp [hfront, hstart]
    omega
  have hfive : ∀ wide, prevSize wide ≤ 5 := by decide
  have hwidth : zipPrevEncodeSize reqlen ≤ front.length := by
    have hle := hfive (decide (zipBiglen ≤ reqlen))
    rw [← zipPrevEncodeSize_eq] at hle
    have hten : ziplistHeaderSize = 10 := rfl
    omega
  -- the window keeps room for the new back-length field in front of the data
  have hload := load_window front data after hwidth
  have hwindow : front ++ (data ++ after) = block := by
    simp [hfront, hblock]
  rw [hwindow] at hload
  have hsrc : ((start : ℤ) - ((zipPrevEncodeSize reqlen : ℤ) -
      prevSize wide)).toNat = front.length - zipPrevEncodeSize reqlen := by
    omega
  have hcount : ((curlen : ℤ) - start - 1 + ((zipPrevEncodeSize reqlen : ℤ) -
      prevSize wide)).toNat = zipPrevEncodeSize reqlen + data.length := by
    omega
  set old := front.drop (front.length - zipPrevEncodeSize reqlen) with hold
  have holdLength : old.length = zipPrevEncodeSize reqlen := by
    rw [hold, length_drop]
    omega
  have hfield : zipPrevEncodeLength (reqlen % 2 ^ 32) =
      prevField (decide (zipBiglen ≤ reqlen)) reqlen := by
    rw [Nat.mod_eq_of_lt hreq, zipPrevEncodeLength_eq]
  have hmove := memmove_store_front (start + reqlen)
    (prevField (decide (zipBiglen ≤ reqlen)) reqlen) hload
    (by rw [holdLength, length_prevField, zipPrevEncodeSize_eq])
    (by rw [holdLength, hlength]; omega)
  have hend : start + reqlen + (old.length + data.length) = size - 1 := by
    omega
  rw [hend, hlast] at hmove
  have htake : block.take (start + reqlen) =
      header size tail count ++ (mid ++ (block.drop start).take reqlen) := by
    rw [take_add, ← append_assoc]
    congr 1
    rw [hblock, ← append_assoc]
    apply take_left'
    simp [hstart]
  refine ⟨(block.drop start).take reqlen, ?_, ?_⟩
  · rw [length_take, length_drop, hlength]
    omega
  rw [moveTail, hsrc, hcount, hfield]
  refine hmove.trans ?_
  rw [htake]
  simp

end Move

section Place

variable {left rest : List Slot} {next new : Slot} {gap s : Bytes}
  {count : ℕ}

/-- The slots after an insertion before `next`. -/
def insertSlots (left : List Slot) (new next : Slot) (rest : List Slot) :
    List Slot :=
  let moved := next.setWide (decide (zipBiglen ≤ new.size))
  left ++ new :: moved :: widen moved.size rest

theorem size_setWide_fit (slot : Slot) (len : ℕ) :
    ((slot.setWide (decide (zipBiglen ≤ len))).size : ℤ) = slot.size +
      ((zipPrevEncodeSize len : ℤ) - prevSize slot.wide) := by
  rw [size_setWide, Slot.size, zipPrevEncodeSize_eq]
  omega

theorem moveTailOffset_eq (left : List Slot) (next : Slot) (count : ℕ)
    {reqlen : ℕ} (hgap : gap.length = reqlen) (hreq : reqlen < 2 ^ 32)
    (hchain : Chained next.size rest)
    (hsize : ziplistHeaderSize + totalSize left + reqlen +
      totalSize (next.setWide (decide (zipBiglen ≤ reqlen)) :: rest) + 1 <
        2 ^ 32)
    (hold : ziplistHeaderSize + totalSize (left ++ next :: rest) + 1 < 2 ^ 32) :
    moveTailOffset (header (ziplistHeaderSize + totalSize left + reqlen +
          totalSize (next.setWide (decide (zipBiglen ≤ reqlen)) :: rest) + 1)
          (tailOffset (left ++ next :: rest)) count ++
        (layout 0 left ++ gap ++
          (prevField (decide (zipBiglen ≤ reqlen)) reqlen ++
            (next.body ++ layout next.size rest ++ [zipEnd]))))
        (ziplistHeaderSize + totalSize left) reqlen
        ((zipPrevEncodeSize reqlen : ℤ) - prevSize next.wide) =
      some (staleBlock (layout 0 left ++ gap) reqlen
        (next.setWide (decide (zipBiglen ≤ reqlen))) next.size rest count) := by
  set wide := decide (zipBiglen ≤ reqlen) with hwide
  set moved := next.setWide wide with hmoved
  set mid := layout 0 left ++ gap with hmid
  have hmidLength : mid.length = totalSize left + reqlen := by
    simp [hmid, hgap]
  set size := ziplistHeaderSize + totalSize left + reqlen +
    totalSize (moved :: rest) + 1 with hsizeDef
  have hfits : PrevFits moved.wide reqlen := prevFits_setWide hreq next
  have hmovedSize : (moved.size : ℤ) = next.size +
      ((zipPrevEncodeSize reqlen : ℤ) - prevSize next.wide) :=
    size_setWide_fit next reqlen
  have htail := tailOffset_append_cons left next rest
  have hblock : ∀ offset : ℕ, header size offset count ++
      (mid ++ (prevField wide reqlen ++
        (next.body ++ layout next.size rest ++ [zipEnd]))) =
      header size offset count ++ (mid ++ (moved.bytes reqlen ++
        (layout next.size rest ++ [zipEnd]))) := by
    intro offset
    simp [hmoved, Slot.bytes, Slot.setWide]
  have hpos : ziplistHeaderSize + totalSize left + reqlen =
      ziplistHeaderSize + mid.length := by
    omega
  have hdropLe := totalSize_dropLast_le (next :: rest)
  have hdropLe' := totalSize_dropLast_le (moved :: rest)
  rw [totalSize_append] at hold
  obtain ⟨entry, hentry, hafter⟩ := zipEntry_block hfits size count mid
    (layout next.size rest ++ [zipEnd])
  have hfinal : staleBlock mid reqlen moved next.size rest count =
      header size (ziplistHeaderSize + mid.length +
        totalSize (moved :: rest).dropLast) count ++
        (mid ++ (moved.bytes reqlen ++ (layout next.size rest ++ [zipEnd]))) := by
    rw [staleBlock, hsizeDef, hmidLength]
    simp only [add_assoc]
  rw [moveTailOffset, hblock, ziplistTailOffset_header (by omega)]
  simp only [bind_eq_bind, bind_some, setZiplistTailOffset_header,
    hpos, drop_header, hentry, hafter]
  cases rest with
  | nil =>
    rw [getElem?_layout_nil]
    simp only [bind_some, ne_eq, not_true_eq_false, if_false]
    rw [hfinal, htail, ← hpos]
    rfl
  | cons after rest =>
    obtain ⟨byte, hbyte, hend⟩ := getElem?_layout_cons hchain.1 rest [zipEnd]
    have htotal : totalSize (moved :: after :: rest) =
        moved.size + (after.size + totalSize rest) := by
      simp
    rw [hbyte]
    simp only [bind_some, ne_eq, hend, not_false_eq_true, if_true,
      dropLast_cons_cons, totalSize_cons] at hdropLe hdropLe' ⊢
    rw [ziplistTailOffset_header_mod]
    simp only [bind_some, some_inj, hfinal, dropLast_cons_cons, totalSize_cons]
    congr 2
    rw [htail]
    simp only [dropLast_cons_cons, totalSize_cons]
    omega

/-- The new entry fills the gap before `back`, and the entry counter is
bumped. -/
theorem store_new (size tail count : ℕ) (left : List Slot) (back : Bytes)
    (hgap : gap.length = new.size)
    (hwide : new.wide = decide (zipBiglen ≤ lastSize 0 left))
    (hbody : entryBody s = some new.body) :
    (entryBody s).bind (fun body =>
      (store (header size tail count ++ (layout 0 left ++ gap ++ back))
        (ziplistHeaderSize + totalSize left)
        (zipPrevEncodeLength (lastSize 0 left) ++ body)).bind
          ziplistIncrLength) =
      some (header size tail (incrCount count) ++
        (layout 0 left ++ (new.bytes (lastSize 0 left) ++ back))) := by
  have hfield := zipPrevEncodeLength_append_body hwide
  have hstore := store_append (header size tail count ++ layout 0 left) gap
    back (new.bytes (lastSize 0 left)) (by rw [hgap, length_slotBytes])
  rw [length_append, length_header, length_layout] at hstore
  simp only [append_assoc] at hstore ⊢
  rw [hbody, bind_some, hfield, hstore, bind_some, ziplistIncrLength_header]

theorem store_gap {moved : Slot} (hgap : gap.length = new.size)
    (hwide : new.wide = decide (zipBiglen ≤ lastSize 0 left))
    (hbody : entryBody s = some new.body) :
    (entryBody s).bind (fun body =>
      (store (staleBlock (layout 0 left ++ gap) new.size moved moved.size rest
          count) (ziplistHeaderSize + totalSize left)
        (zipPrevEncodeLength (lastSize 0 left) ++ body)).bind
          ziplistIncrLength) =
      some (render (left ++ new :: moved :: rest) (incrCount count)) := by
  have htotal : ziplistHeaderSize + (layout 0 left ++ gap).length +
      totalSize (moved :: rest) + 1 =
      ziplistHeaderSize + totalSize (left ++ new :: moved :: rest) + 1 := by
    simp only [length_append, length_layout, hgap, totalSize_append,
      totalSize_cons]
    omega
  have htail : ziplistHeaderSize + (layout 0 left ++ gap).length +
      totalSize (moved :: rest).dropLast =
      tailOffset (left ++ new :: moved :: rest) := by
    rw [tailOffset_append_cons, dropLast_cons_cons]
    simp only [length_append, length_layout, hgap, totalSize_cons]
    omega
  rw [staleBlock, htotal, htail, store_new _ _ _ _ _ hgap hwide hbody, render,
    layout_append]
  simp [layout]

end Place

section Insert

variable {left rest : List Slot} {next new : Slot} {s : Bytes} {count : ℕ}
  (junk : ℕ → UInt8)

theorem length_entryBody {body : Bytes} (hbody : entryBody s = some body) :
    body.length = payloadSize s := by
  unfold entryBody at hbody
  unfold payloadSize
  cases htry : zipTryEncoding s with
  | none =>
    rw [htry] at hbody
    cases hbody
    simp [add_comm]
  | some result =>
    obtain ⟨value, encoding⟩ := result
    obtain ⟨-, -, -, payload, hsave, hlength, -⟩ := zipTryEncoding_spec htry
    rw [htry] at hbody
    simp only [hsave, some_bind, some_inj] at hbody
    rw [← hbody, length_append, hlength, add_comm]

/-- The slot of a new element behind an entry of size `prev`. -/
theorem exists_newSlot (hlen : s.length < 2 ^ 32) (prev : ℕ) :
    ∃ new : Slot, entryBody s = some new.body ∧
      new.wide = decide (zipBiglen ≤ prev) ∧ new.text = s ∧
      new.size = payloadSize s + zipPrevEncodeSize prev := by
  obtain ⟨body, value, hbody, hvalue, htext⟩ := entryBody_spec hlen
  refine ⟨⟨decide (zipBiglen ≤ prev), body, value, hvalue⟩, hbody, rfl, htext,
    ?_⟩
  rw [Slot.size, length_entryBody hbody, zipPrevEncodeSize_eq, add_comm]

/-- Up to the resize the insertion only reads. -/
theorem ziplistInsert_render
    (hsize : ziplistHeaderSize + totalSize (left ++ next :: rest) + 1 < 2 ^ 32)
    (hchain : Chained 0 (left ++ next :: rest)) {reqlen : ℕ}
    (hreq : reqlen = payloadSize s + zipPrevEncodeSize (lastSize 0 left)) :
    ziplistInsert junk (render (left ++ next :: rest) count)
        (ziplistHeaderSize + totalSize left) s =
      insertSized junk (render (left ++ next :: rest) count)
        (ziplistHeaderSize + totalSize left) s
        (ziplistHeaderSize + totalSize (left ++ next :: rest) + 1)
        (lastSize 0 left) reqlen
        ((zipPrevEncodeSize (reqlen % 2 ^ 32) : ℤ) - prevSize next.wide) := by
  obtain ⟨-, hfits, -⟩ := chained_append.1 hchain
  obtain ⟨byte, hbyte, hend⟩ := getElem?_layout_cons hfits rest [zipEnd]
  obtain ⟨entry, hentry, -, hprev, -⟩ := zipEntry_slot hfits rest [zipEnd]
  have hdiff : zipPrevLenByteDiff (layout (lastSize 0 left) (next :: rest) ++
      [zipEnd]) reqlen =
      some ((zipPrevEncodeSize (reqlen % 2 ^ 32) : ℤ) - prevSize next.wide) := by
    rw [zipPrevLenByteDiff, layout, Slot.bytes, append_assoc,
      append_assoc, zipDecodePrevlensize_prevField hfits]
    rfl
  have hprevlen : insertPrevlen (render (left ++ next :: rest) count)
      (ziplistHeaderSize + totalSize left) = some (lastSize 0 left) := by
    rw [insertPrevlen, getElem?_render, hbyte, drop_render, hentry]
    simp [hend, hprev]
  rw [ziplistInsert, ziplistBytes_render hsize, hprevlen, getElem?_render, hbyte, drop_render]
  simp only [some_bind, ne_eq, hend, not_false_eq_true, if_true, ← hreq, hdiff]

theorem insertEntry_eq (left : List Slot) (count : ℕ) {gap : Bytes}
    (hgap : gap.length = new.size)
    (hwide : new.wide = decide (zipBiglen ≤ lastSize 0 left))
    (hbody : entryBody s = some new.body) (hchain : Chained next.size rest)
    (hnew : new.size < 2 ^ 32)
    (hsize : ziplistHeaderSize + totalSize left + new.size + totalSize
      (next.setWide (decide (zipBiglen ≤ new.size)) :: rest) + 1 < 2 ^ 32) :
    insertEntry junk (staleBlock (layout 0 left ++ gap) new.size
        (next.setWide (decide (zipBiglen ≤ new.size))) next.size rest count)
        (ziplistHeaderSize + totalSize left) s (lastSize 0 left) new.size
        ((zipPrevEncodeSize new.size : ℤ) - prevSize next.wide) =
      if ziplistHeaderSize + totalSize (insertSlots left new next rest) + 1 <
          2 ^ 32 then
        some (render (insertSlots left new next rest) (incrCount count))
      else none := by
  set moved := next.setWide (decide (zipBiglen ≤ new.size)) with hmoved
  set mid := layout 0 left ++ gap with hmid
  have hmidLength : mid.length = totalSize left + new.size := by
    simp [hmid, hgap]
  have hmovedSize : (moved.size : ℤ) = next.size +
      ((zipPrevEncodeSize new.size : ℤ) - prevSize next.wide) :=
    size_setWide_fit next new.size
  have hslots : insertSlots left new next rest =
      left ++ new :: moved :: widen moved.size rest := rfl
  have htotal : ziplistHeaderSize + mid.length +
      totalSize (moved :: widen moved.size rest) + 1 =
      ziplistHeaderSize + totalSize (insertSlots left new next rest) + 1 := by
    rw [hslots, hmidLength]
    simp only [totalSize_append, totalSize_cons]
    omega
  have hpos : ziplistHeaderSize + totalSize left + new.size =
      ziplistHeaderSize + mid.length := by
    omega
  have hcascade := ziplistCascadeUpdate_stale junk mid count
    (prevFits_setWide hnew next) hchain hmovedSize
    (show ziplistHeaderSize + mid.length + totalSize (moved :: rest) + 1 < _ by
      omega)
  rw [htotal, ← hpos] at hcascade
  rw [insertEntry, hcascade]
  split
  · exact store_gap hgap hwide hbody
  · rfl

/-- The bytes of `next` after its back-length field, and all later entries. -/
def restBytes (next : Slot) (rest : List Slot) : Bytes :=
  next.body ++ layout next.size rest

theorem length_restBytes (next : Slot) (rest : List Slot) :
    prevSize next.wide + (restBytes next rest).length =
      totalSize (next :: rest) := by
  simp only [restBytes, length_append, length_layout, totalSize_cons, Slot.size]
  omega

theorem render_eq_restBytes (left : List Slot) (next : Slot) (rest : List Slot)
    (count : ℕ) :
    render (left ++ next :: rest) count =
      header (ziplistHeaderSize + totalSize (left ++ next :: rest) + 1)
        (tailOffset (left ++ next :: rest)) count ++
      (layout 0 left ++ (prevField next.wide (lastSize 0 left) ++
        restBytes next rest) ++ [zipEnd]) := by
  rw [render, layout_append]
  simp [layout, Slot.bytes, restBytes]

/-- Up to the tail offset, given what the resize leaves. -/
theorem insertSized_makeRoom {zl data after : Bytes}
    {size tail curlen reqlen : ℕ}
    (hfits : PrevFits next.wide (lastSize 0 left))
    (hsize : size = ziplistHeaderSize + totalSize left + reqlen +
      zipPrevEncodeSize reqlen + data.length + 1)
    (hcurlen : curlen = ziplistHeaderSize + totalSize left +
      prevSize next.wide + data.length + 1)
    (hlt : size < 2 ^ 32)
    (hresize : ziplistResize junk zl size = some (header size tail count ++
      (layout 0 left ++ (prevField next.wide (lastSize 0 left) ++
        (data ++ after))))) :
    ∃ gap, gap.length = reqlen ∧
      insertSized junk zl (ziplistHeaderSize + totalSize left) s curlen
          (lastSize 0 left) reqlen
          ((zipPrevEncodeSize reqlen : ℤ) - prevSize next.wide) =
        (moveTailOffset (header size tail count ++ (layout 0 left ++ gap ++
            (prevField (decide (zipBiglen ≤ reqlen)) reqlen ++
              (data ++ [zipEnd])))) (ziplistHeaderSize + totalSize left) reqlen
          ((zipPrevEncodeSize reqlen : ℤ) - prevSize next.wide)).bind fun zl =>
            insertEntry junk zl (ziplistHeaderSize + totalSize left) s
              (lastSize 0 left) reqlen
              ((zipPrevEncodeSize reqlen : ℤ) - prevSize next.wide) := by
  have hlength := length_ziplistResize junk hresize
  rw [Nat.mod_eq_of_lt hlt] at hlength
  have hsum : ((curlen : ℤ) + reqlen +
      ((zipPrevEncodeSize reqlen : ℤ) - prevSize next.wide)).toNat = size := by
    omega
  obtain ⟨byte, front, hhead, hend, -⟩ := head_prevField hfits
  have hbyte := getElem?_header size tail count (layout 0 left)
    (prevField next.wide (lastSize 0 left) ++ (data ++ after)) 0
  rw [hhead, length_layout, add_zero, cons_append,
    List.getElem?_cons_zero, ← cons_append, ← hhead] at hbyte
  obtain ⟨gap, hgap, hmove⟩ := moveTail_eq curlen reqlen hlength
    (drop_ziplistResize junk hresize hlt) (by rwa [length_layout])
    (by rwa [length_layout]) (by omega)
  rw [length_layout] at hmove
  refine ⟨gap, hgap, ?_⟩
  rw [insertSized, hsum, hresize]
  simp only [some_bind, hbyte, ne_eq, hend, not_false_eq_true, if_true]
  rw [makeRoom, hmove]
  rfl

/-- When the resized block still holds all entries, the insertion produces the
intended slots, unless the cascade outgrows the size field. -/
theorem insertSized_of_resize {after : Bytes} {size : ℕ}
    (hfits : PrevFits next.wide (lastSize 0 left))
    (hchain : Chained next.size rest)
    (hold : ziplistHeaderSize + totalSize (left ++ next :: rest) + 1 < 2 ^ 32)
    (hwide : new.wide = decide (zipBiglen ≤ lastSize 0 left))
    (hbody : entryBody s = some new.body)
    (hsize : size = ziplistHeaderSize + totalSize left + new.size + totalSize
      (next.setWide (decide (zipBiglen ≤ new.size)) :: rest) + 1)
    (hlt : size < 2 ^ 32)
    (hresize : ziplistResize junk (render (left ++ next :: rest) count) size =
      some (header size (tailOffset (left ++ next :: rest)) count ++
        (layout 0 left ++ (prevField next.wide (lastSize 0 left) ++
          (restBytes next rest ++ after))))) :
    insertSized junk (render (left ++ next :: rest) count)
        (ziplistHeaderSize + totalSize left) s
        (ziplistHeaderSize + totalSize (left ++ next :: rest) + 1)
        (lastSize 0 left) new.size
        ((zipPrevEncodeSize new.size : ℤ) - prevSize next.wide) =
      if ziplistHeaderSize + totalSize (insertSlots left new next rest) + 1 <
          2 ^ 32 then
        some (render (insertSlots left new next rest) (incrCount count))
      else none := by
  have hrest := length_restBytes next rest
  have hmovedSize := size_setWide_fit next new.size
  rw [totalSize_cons] at hsize hrest
  have hnew : new.size < 2 ^ 32 := by omega
  obtain ⟨gap, hgap, hroom⟩ := insertSized_makeRoom junk hfits
    (show size = ziplistHeaderSize + totalSize left + new.size +
      zipPrevEncodeSize new.size + (restBytes next rest).length + 1 by omega)
    (show ziplistHeaderSize + totalSize (left ++ next :: rest) + 1 = _ by
      simp only [totalSize_append, totalSize_cons]
      omega) hlt hresize
  have hstale := moveTailOffset_eq left next count hgap hnew hchain
    (by rw [totalSize_cons]; omega) hold
  have hentry := insertEntry_eq junk left count hgap hwide hbody hchain hnew
    (by rw [totalSize_cons]; omega)
  rw [totalSize_cons, ← hsize] at hstale
  rw [hroom, restBytes, hstale, bind_some, hentry]

/-- A resize that does not shrink the block keeps all entries. -/
theorem ziplistResize_whole (count : ℕ) {size : ℕ}
    (hle : ziplistHeaderSize + totalSize (left ++ next :: rest) + 1 ≤ size)
    (hlt : size < 2 ^ 32) :
    ∃ after, ziplistResize junk (render (left ++ next :: rest) count) size =
      some (header size (tailOffset (left ++ next :: rest)) count ++
        (layout 0 left ++ (prevField next.wide (lastSize 0 left) ++
          (restBytes next rest ++ after)))) := by
  set content := layout 0 left ++ (prevField next.wide (lastSize 0 left) ++
    restBytes next rest) with hcontent
  have hlength : content.length = totalSize (left ++ next :: rest) := by
    rw [totalSize_append, ← length_restBytes]
    simp [hcontent]
  rw [render_eq_restBytes, ← hcontent]
  rcases hle.lt_or_eq with hgrow | hsame
  · have hlow : ziplistHeaderSize + (content ++ [zipEnd]).length < size := by
      rw [length_append, length_singleton]
      omega
    obtain ⟨extra, -, hresize⟩ := ziplistResize_grow junk
      (ziplistHeaderSize + totalSize (left ++ next :: rest) + 1)
      (tailOffset (left ++ next :: rest)) count hlow hlt
    exact ⟨zipEnd :: (extra ++ [zipEnd]), by rw [hresize]; simp [hcontent]⟩
  · have hresize := ziplistResize_kept junk size
      (tailOffset (left ++ next :: rest)) count content [zipEnd] (by omega)
    rw [hlength, hsame] at hresize
    exact ⟨[zipEnd], by rw [hsame, hresize]; simp [hcontent]⟩

end Insert

end RedisV8.Ziplist
