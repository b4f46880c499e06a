import RedisV8.Ziplist.Damage

/-!
# When insertion refines list insertion

The insertion before an entry yields a well-formed ziplist with the new element
in its place exactly when the result stays below `2 ^ 32` bytes and the block
is not cut short before its tail has been moved.
-/

namespace RedisV8.Ziplist

open Bytes Util List Option

section Failure

variable {left rest : List Slot} {next : Slot} {s : Bytes} {count : ℕ}
  (junk : ℕ → UInt8)

/-- The first byte of an entry survives a resize unless the end marker is
written over it. -/
theorem getElem?_ziplistResize {zl' : Bytes} {size : ℕ}
    (hfits : PrevFits next.wide (lastSize 0 left))
    (hresize : ziplistResize junk (render (left ++ next :: rest) count) size =
      some zl')
    (hlt : ziplistHeaderSize + totalSize left + 1 < size % 2 ^ 32) :
    ∃ byte, zl'[ziplistHeaderSize + totalSize left]? = some byte ∧
      byte ≠ zipEnd := by
  obtain ⟨byte, hbyte, hend⟩ := getElem?_layout_cons hfits rest [zipEnd]
  refine ⟨byte, ?_, hend⟩
  have hmod : ziplistResize junk (render (left ++ next :: rest) count) size =
      ziplistResize junk (render (left ++ next :: rest) count)
        (size % 2 ^ 32) := by
    simp only [ziplistResize, Nat.mod_mod]
  rw [hmod, render, append_assoc, ziplistResize_header junk (by omega)
    (Nat.mod_lt _ (by decide)), some_inj] at hresize
  have hbody : totalSize left < (layout 0 (left ++ next :: rest) ++
      [zipEnd]).length := by
    simp
  rw [← hresize, append_assoc, getElem?_append_right (by simp),
    length_header, Nat.add_sub_cancel_left,
    getElem?_append_left (by rw [length_resize]; omega),
    getElem?_resize _ hbody (by omega), layout_append, append_assoc,
    getElem?_append_right (by simp), length_layout, Nat.sub_self, hbyte]

/-- Past the size limit the truncated block cannot hold the moved entries. -/
theorem insertSized_overflow {size reqlen curlen : ℕ} {nextdiff : ℤ}
    (hfits : PrevFits next.wide (lastSize 0 left))
    (hreq : 2 ≤ reqlen) (hbody : ∀ body, entryBody s = some body →
      reqlen = (zipPrevEncodeLength (lastSize 0 left) ++ body).length)
    (hcount : ziplistHeaderSize + totalSize left + 1 < curlen + nextdiff)
    (hsize : (size : ℤ) = curlen + reqlen + nextdiff) (hlarge : 2 ^ 32 ≤ size) :
    insertSized junk (render (left ++ next :: rest) count)
      (ziplistHeaderSize + totalSize left) s curlen (lastSize 0 left) reqlen
      nextdiff = none := by
  rw [eq_none_iff_forall_not_mem]
  intro zl' hrun
  have htoNat : ((curlen : ℤ) + reqlen + nextdiff).toNat = size := by omega
  rw [mem_def, insertSized, htoNat] at hrun
  simp only [bind_eq_bind, bind_eq_some_iff] at hrun
  obtain ⟨zl1, hresize, byte, hbyte, zl2, hroom, hentry⟩ := hrun
  have hlength := length_ziplistResize junk hresize
  obtain ⟨hlt, -⟩ := List.getElem?_eq_some_iff.1 hbyte
  split_ifs at hroom with hend
  · -- the moved entries end at `size - 1`
    simp only [makeRoom, moveTail, bind_eq_bind, bind_eq_some_iff] at hroom
    obtain ⟨zl3, ⟨zl4, hmove, -⟩, -⟩ := hroom
    rw [memmove_eq_none (by omega)] at hmove
    cases hmove
  -- the end marker sits at the insert position: no room for the entry
  have hlength2 := length_store hroom
  have hfull : ziplistHeaderSize + totalSize left + reqlen ≤ zl2.length := by
    rw [insertEntry] at hentry
    simp only [bind_eq_bind, bind_eq_some_iff] at hentry
    obtain ⟨zl3, hcascade, body, hbody', zl4, hstore, -⟩ := hentry
    split_ifs at hcascade
    · simp only [ziplistCascadeUpdate, bind_eq_bind,
        bind_eq_some_iff] at hcascade
      obtain ⟨bytes, -, hloop⟩ := hcascade
      cases hzl : zl2.length with
      | zero =>
        rw [hzl] at hloop
        cases hloop
      | succ fuel =>
        rw [hzl, cascadeLoop] at hloop
        simp only [bind_eq_bind, bind_eq_some_iff] at hloop
        obtain ⟨byte', hbyte', -⟩ := hloop
        obtain ⟨hlt', -⟩ := List.getElem?_eq_some_iff.1 hbyte'
        omega
    · cases hcascade
      by_contra hshort
      rw [store_eq_none (by rw [← hbody body hbody']; omega)] at hstore
      cases hstore
  obtain ⟨byte', hbyte', hend'⟩ := getElem?_ziplistResize junk hfits hresize
    (by omega)
  rw [hbyte', some_inj] at hbyte
  exact hend (hbyte ▸ hend')

/-- A two-byte entry in front of a wide field cuts two bytes off: the move
reads past the block. -/
theorem insertSized_cut_two {curlen : ℕ}
    (hfits : PrevFits next.wide (lastSize 0 left))
    (hcount : ziplistHeaderSize + totalSize left + 6 < curlen)
    (hlt : curlen < 2 ^ 32) :
    insertSized junk (render (left ++ next :: rest) count)
      (ziplistHeaderSize + totalSize left) s curlen (lastSize 0 left) 2 (-4) =
        none := by
  rw [eq_none_iff_forall_not_mem]
  intro zl' hrun
  have htoNat : ((curlen : ℤ) + (2 : ℕ) + -4).toNat = curlen - 2 := by omega
  rw [mem_def, insertSized, htoNat] at hrun
  simp only [bind_eq_bind, bind_eq_some_iff] at hrun
  obtain ⟨zl1, hresize, byte, hbyte, zl2, hroom, hentry⟩ := hrun
  have hlength := length_ziplistResize junk hresize
  obtain ⟨byte', hbyte', hend⟩ := getElem?_ziplistResize junk hfits hresize
    (by omega)
  rw [hbyte', some_inj] at hbyte
  subst hbyte
  rw [if_pos hend] at hroom
  simp only [makeRoom, moveTail, memmove, bind_eq_bind,
    bind_eq_some_iff] at hroom
  obtain ⟨zl3, ⟨zl4, ⟨data, hload, -⟩, -⟩, -⟩ := hroom
  rw [load, if_neg (by omega)] at hload
  cases hload

end Failure

section Slots

theorem map_text_widen (prev : ℕ) (slots : List Slot) :
    (widen prev slots).map Slot.text = slots.map Slot.text := by
  induction slots generalizing prev with
  | nil => rfl
  | cons slot rest ih =>
    rw [widen]
    split
    · rw [map_cons, ih]
      rfl
    · rfl

theorem map_text_insertSlots (left : List Slot) (new next : Slot)
    (rest : List Slot) :
    (insertSlots left new next rest).map Slot.text =
      ((left ++ next :: rest).map Slot.text).insertIdx left.length new.text := by
  induction left with
  | nil =>
    rw [insertSlots, nil_append, map_cons, map_cons, map_text_widen]
    rfl
  | cons slot left ih =>
    rw [cons_append, map_cons, length_cons, insertIdx_succ_cons, ← ih]
    rfl

theorem chained_insertSlots {left rest : List Slot} {new next : Slot}
    (hchain : Chained 0 (left ++ next :: rest))
    (hwide : new.wide = decide (zipBiglen ≤ lastSize 0 left))
    (hsize : ziplistHeaderSize + totalSize (insertSlots left new next rest) + 1 <
      2 ^ 32) : Chained 0 (insertSlots left new next rest) := by
  obtain ⟨hleft, hfits, hrest⟩ := chained_append.1 hchain
  simp only [insertSlots, totalSize_append, totalSize_cons] at hsize ⊢
  refine chained_append.2 ⟨hleft, ⟨hfits.1, fun hshort => ?_⟩,
    prevFits_setWide (by omega) next, chained_widen hrest (by omega) (by omega)⟩
  rw [hwide] at hshort
  simpa using hshort

theorem getLast?_layout (prev : ℕ) (slots : List Slot) :
    (layout prev slots).getLast? =
      slots.getLast?.bind fun slot => slot.body.getLast? := by
  induction slots generalizing prev with
  | nil => rfl
  | cons slot rest ih =>
    cases rest with
    | nil =>
      have hbody : slot.body ≠ [] :=
        ne_nil_of_length_pos (length_pos_of_bodyValue slot.decodes)
      rw [layout, layout, append_nil, Slot.bytes,
        getLast?_append_of_ne_nil _ hbody]
      rfl
    | cons second rest =>
      rw [layout, getLast?_append_of_ne_nil _
        (layout_ne_nil slot.size second rest), ih,
        getLast?_cons_cons]

end Slots

section Refine

/-- The following slots once the entry before them has size `len`. -/
def refit (len : ℕ) : List Slot → List Slot
  | [] => []
  | next :: rest =>
    let moved := next.setWide (decide (zipBiglen ≤ len))
    moved :: widen moved.size rest

/-- The size of a new entry for `s` before the `i`-th one. -/
def insertSize (slots : List Slot) (i : ℕ) (s : Bytes) : ℕ :=
  payloadSize s + zipPrevEncodeSize (lastSize 0 (slots.take i))

/-- The result stays below `2 ^ 32` bytes, and where the next back-length field
shrinks by four bytes the new entry has at least four bytes, or three and the
list happens to end in the byte that is written over its end. -/
def InsertSafe (zl : Bytes) (slots : List Slot) (i : ℕ) (s : Bytes) : Prop :=
  entryOffset slots i + insertSize slots i s +
      totalSize (refit (insertSize slots i s) (slots.drop i)) + 1 < 2 ^ 32 ∧
    ∀ next ∈ slots[i]?, next.wide = true → insertSize slots i s < 4 →
      insertSize slots i s = 3 ∧ zl[zl.length - 2]? = some zipEnd

/-- The insertion returns a well-formed ziplist that reads, in both directions,
as the old one with `s` at index `i`. -/
def InsertRefines (junk : ℕ → UInt8) (zl : Bytes) (slots : List Slot) (i : ℕ)
    (s : Bytes) : Prop :=
  ∃ zl' slots' old,
    ziplistInsert junk zl (entryOffset slots i) s = some zl' ∧
    WellFormed zl' slots' ∧ readForward zl = some old ∧
    readForward zl' = some (old.insertIdx i s) ∧
    readBackward zl' = some (old.insertIdx i s).reverse

variable {left rest : List Slot} {next new : Slot} {s : Bytes} {count : ℕ}
  (junk : ℕ → UInt8)

theorem getElem?_render_last (left rest : List Slot) (next : Slot)
    (count : ℕ) :
    (render (left ++ next :: rest) count)[
        (render (left ++ next :: rest) count).length - 2]? =
      (restBytes next rest).getLast? := by
  have hne := restBytes_ne_nil next rest
  set front := header (ziplistHeaderSize + totalSize (left ++ next :: rest) + 1)
    (tailOffset (left ++ next :: rest)) count ++
    (layout 0 left ++ prevField next.wide (lastSize 0 left)) with hfront
  have hsplit : render (left ++ next :: rest) count =
      front ++ restBytes next rest ++ [zipEnd] := by
    rw [render_eq_restBytes]
    simp [hfront]
  have hpos := length_pos_of_ne_nil hne
  rw [hsplit, getLast?_eq_getElem?]
  have hindex : (front ++ restBytes next rest ++ [zipEnd]).length - 2 =
      front.length + ((restBytes next rest).length - 1) := by
    simp only [length_append, length_singleton]
    omega
  rw [hindex, append_assoc, getElem?_append_right (by omega),
    Nat.add_sub_cancel_left, getElem?_append_left (by omega)]

theorem two_le_payloadSize_add (s : Bytes) (prev : ℕ) :
    2 ≤ payloadSize s + zipPrevEncodeSize prev := by
  have hprev := prevSize_pos (decide (zipBiglen ≤ prev))
  rw [← zipPrevEncodeSize_eq] at hprev
  have hencode : ∀ encoding rawlen, 0 < (zipEncodeLength encoding rawlen).length := by
    intro encoding rawlen
    unfold zipEncodeLength
    split_ifs <;> simp
  have hpayload : 0 < payloadSize s := by
    unfold payloadSize
    split
    · rename_i encoding _
      have := hencode encoding s.length
      omega
    · have := hencode 0 s.length
      omega
  omega

/-- The total size after the insertion, before any cascading growth. -/
theorem totalSize_insertSlots_ge (left : List Slot) (new next : Slot)
    (rest : List Slot) :
    (totalSize (left ++ next :: rest) : ℤ) + new.size +
        ((zipPrevEncodeSize new.size : ℤ) - prevSize next.wide) ≤
      totalSize (insertSlots left new next rest) := by
  have hmoved := size_setWide_fit next new.size
  have hle := totalSize_le_widen
    (next.setWide (decide (zipBiglen ≤ new.size))).size rest
  simp only [insertSlots, totalSize_append, totalSize_cons]
  omega

theorem getLast?_restBytes (wide : Bool) (prev : ℕ) (front : List Slot) :
    (layout prev (front ++ next.setWide wide :: rest)).getLast? =
      (restBytes next rest).getLast? := by
  rw [getLast?_layout]
  cases rest with
  | nil =>
    rw [getLast?_concat, restBytes, layout, append_nil]
    rfl
  | cons second rest =>
    rw [restBytes, getLast?_append_of_ne_nil _
      (layout_ne_nil next.size second rest), getLast?_layout,
      getLast?_append_of_ne_nil _ (by simp), getLast?_cons_cons]

section New

variable
  (hold : ziplistHeaderSize + totalSize (left ++ next :: rest) + 1 < 2 ^ 32)
  (hchain : Chained 0 (left ++ next :: rest))
  (hwide : new.wide = decide (zipBiglen ≤ lastSize 0 left))
  (hbody : entryBody s = some new.body)
  (hnew : new.size = payloadSize s + zipPrevEncodeSize (lastSize 0 left))

include hold hchain hwide hbody hnew

/-- The insertion yields the intended slots whenever no byte is lost. -/
theorem ziplistInsert_eq
    (hsize : ziplistHeaderSize + totalSize (insertSlots left new next rest) + 1 <
      2 ^ 32)
    (hlast : next.wide = true → new.size < 4 →
      new.size = 3 ∧ (restBytes next rest).getLast? = some zipEnd) :
    ziplistInsert junk (render (left ++ next :: rest) count)
        (ziplistHeaderSize + totalSize left) s =
      some (render (insertSlots left new next rest) (incrCount count)) := by
  obtain ⟨-, hfits, hrest⟩ := chained_append.1 hchain
  have hge := totalSize_insertSlots_ge left new next rest
  have hmoved := size_setWide_fit next new.size
  have htwo := two_le_payloadSize_add s (lastSize 0 left)
  have hlt : new.size < 2 ^ 32 := by
    simp only [insertSlots, totalSize_append, totalSize_cons] at hsize
    omega
  obtain ⟨size, hsizeDef⟩ : ∃ size, size = ziplistHeaderSize + totalSize left +
      new.size + totalSize
        (next.setWide (decide (zipBiglen ≤ new.size)) :: rest) + 1 := ⟨_, rfl⟩
  have hsizeEq : (size : ℤ) = ziplistHeaderSize +
      totalSize (left ++ next :: rest) + 1 + new.size +
      ((zipPrevEncodeSize new.size : ℤ) - prevSize next.wide) := by
    simp only [hsizeDef, totalSize_append, totalSize_cons]
    push_cast
    omega
  rw [ziplistInsert_render junk hold hchain hnew, Nat.mod_eq_of_lt hlt]
  by_cases hwhole : ziplistHeaderSize + totalSize (left ++ next :: rest) + 1 ≤ size
  · obtain ⟨after, hresize⟩ := ziplistResize_whole junk count hwhole (by omega)
    rw [insertSized_of_resize junk hfits hrest hold hwide hbody hsizeDef
      (by omega) hresize, if_pos hsize]
  have hencode := prevSize_pos (decide (zipBiglen ≤ new.size))
  rw [← zipPrevEncodeSize_eq] at hencode
  have hnext : next.wide = true := by
    by_contra hshort
    have hone : prevSize next.wide = 1 := by
      rw [Bool.eq_false_iff.2 hshort]
      rfl
    omega
  have hfive : prevSize next.wide = 5 := by
    rw [hnext]
    rfl
  obtain ⟨hthree, hbyte⟩ := hlast hnext (by omega)
  have hone : zipPrevEncodeSize new.size = 1 := by
    rw [hthree]
    rfl
  have hcut : size = ziplistHeaderSize + totalSize (left ++ next :: rest) := by
    omega
  have hresize := ziplistResize_cut junk count hcut (by omega)
  rw [damage_of_getLast? hbyte, ← append_nil (restBytes next rest)]
    at hresize
  rw [insertSized_of_resize junk hfits hrest hold hwide hbody hsizeDef
    (by omega) hresize, if_pos hsize]

/-- A result of `2 ^ 32` bytes or more is never produced. -/
theorem ziplistInsert_eq_none
    (hsize : 2 ^ 32 ≤
      ziplistHeaderSize + totalSize (insertSlots left new next rest) + 1) :
    ziplistInsert junk (render (left ++ next :: rest) count)
        (ziplistHeaderSize + totalSize left) s = none := by
  obtain ⟨-, hfits, hrest⟩ := chained_append.1 hchain
  have htwo := two_le_payloadSize_add s (lastSize 0 left)
  have hnext := two_le_size next
  have hencode := prevSize_pos (decide (zipBiglen ≤ new.size % 2 ^ 32))
  rw [← zipPrevEncodeSize_eq] at hencode
  have htotal : totalSize (left ++ next :: rest) =
      totalSize left + (next.size + totalSize rest) := by
    simp
  obtain ⟨size, hsizeDef⟩ : ∃ size : ℕ, (size : ℤ) =
      (ziplistHeaderSize + totalSize (left ++ next :: rest) + 1 : ℕ) + new.size +
      ((zipPrevEncodeSize (new.size % 2 ^ 32) : ℤ) - prevSize next.wide) := by
    refine ⟨(((ziplistHeaderSize + totalSize (left ++ next :: rest) + 1 : ℕ) :
      ℤ) + new.size +
      ((zipPrevEncodeSize (new.size % 2 ^ 32) : ℤ) - prevSize next.wide)).toNat,
      Int.toNat_of_nonneg ?_⟩
    omega
  rw [ziplistInsert_render junk hold hchain hnew]
  by_cases hlarge : 2 ^ 32 ≤ size
  · apply insertSized_overflow junk hfits (by omega) _ (by push_cast; omega)
      hsizeDef hlarge
    intro body hbody'
    rw [hbody, some_inj] at hbody'
    rw [← hbody', zipPrevEncodeLength_eq, length_append, length_prevField,
      ← hwide, Slot.size]
  have hlt : new.size < 2 ^ 32 := by omega
  rw [Nat.mod_eq_of_lt hlt] at hsizeDef hencode ⊢
  have hmoved := size_setWide_fit next new.size
  set moved := next.setWide (decide (zipBiglen ≤ new.size)) with hmovedDef
  have hslots : totalSize (insertSlots left new next rest) = totalSize left +
      (new.size + (moved.size + totalSize (widen moved.size rest))) := by
    simp [insertSlots, hmovedDef]
  have hsizeDef' : size = ziplistHeaderSize + totalSize left + new.size +
      totalSize (moved :: rest) + 1 := by
    rw [totalSize_cons]
    omega
  by_cases hwhole : ziplistHeaderSize + totalSize (left ++ next :: rest) + 1 ≤ size
  · obtain ⟨after, hresize⟩ := ziplistResize_whole junk count hwhole (by omega)
    rw [insertSized_of_resize junk hfits hrest hold hwide hbody hsizeDef'
      (by omega) hresize, if_neg (by omega)]
  · -- a shrinking list cannot outgrow the limit
    rw [widen_of_le (by omega) hrest] at hslots
    omega

/-- After a cut the result is not the intended list. -/
theorem not_wellFormed_of_cut {zl' : Bytes} {slots' : List Slot}
    (hnext : next.wide = true) (hsmall : new.size < 4)
    (hlast : ¬ (new.size = 3 ∧ (restBytes next rest).getLast? = some zipEnd))
    (hrun : ziplistInsert junk (render (left ++ next :: rest) count)
        (ziplistHeaderSize + totalSize left) s = some zl')
    (hwf : WellFormed zl' slots')
    (htext : slots'.map Slot.text =
      (insertSlots left new next rest).map Slot.text) : False := by
  obtain ⟨-, hfits, hrest⟩ := chained_append.1 hchain
  have htwo := two_le_payloadSize_add s (lastSize 0 left)
  have hfive : prevSize next.wide = 5 := by
    rw [hnext]
    rfl
  have hnextSize := two_le_size next
  have htotal : totalSize (left ++ next :: rest) =
      totalSize left + (next.size + totalSize rest) := by
    simp
  rw [ziplistInsert_render junk hold hchain hnew,
    Nat.mod_eq_of_lt (by omega)] at hrun
  obtain htwo' | hthree : new.size = 2 ∨ new.size = 3 := by omega
  · have hdiff : ((zipPrevEncodeSize 2 : ℤ) - prevSize next.wide) = -4 := by
      rw [hfive]
      rfl
    rw [htwo', hdiff, insertSized_cut_two junk hfits (by omega) hold] at hrun
    cases hrun
  obtain ⟨bytes, tail, count', rfl⟩ := insertSized_damage junk hnext hthree
    hfits hrest hold hwide hbody hrun
  set moved := next.setWide false with hmoved
  have hmovedSize : moved.size + 4 = next.size := by
    rw [hmoved, size_setWide, Slot.size, hfive]
    have hone : prevSize false = 1 := rfl
    omega
  have hslots : insertSlots left new next rest = left ++ new :: moved :: rest := by
    rw [insertSlots, hthree]
    have hshort : decide (zipBiglen ≤ 3) = false := rfl
    rw [hshort, ← hmoved, widen_of_le (by omega) hrest]
  have hnewTotal : totalSize (left ++ new :: moved :: rest) =
      totalSize left + (new.size + (moved.size + totalSize rest)) := by
    simp
  have hchain' := chained_insertSlots hchain hwide (by
    rw [hslots, hnewTotal]
    omega)
  rw [hslots] at hchain' htext
  obtain ⟨⟨count'', hrender⟩, -, hwfChain⟩ := hwf
  -- both sides have the same bytes behind their headers
  have hbytes : layout 0 slots' =
      damage (layout 0 (left ++ new :: moved :: rest)) := by
    rw [render, append_assoc] at hrender
    have hback := (append_inj hrender (by simp)).2
    exact (append_cancel_right hback).symm
  have hsame := layout_of_damage hchain' hwfChain (by simp) htext hbytes
  have hend := getLast?_of_damage hsame
  rw [← concat_append, concat_eq_append, hmoved, getLast?_restBytes] at hend
  exact hlast ⟨hthree, hend⟩

end New

/-- Insertion before an entry refines list insertion exactly on safe inputs. -/
theorem ziplistInsert_refines_iff {zl : Bytes} {slots : List Slot} {i : ℕ}
    (hwf : WellFormed zl slots) (hi : i < slots.length)
    (hlen : s.length < 2 ^ 32) :
    InsertRefines junk zl slots i s ↔ InsertSafe zl slots i s := by
  obtain ⟨next, hnext⟩ : ∃ next, slots[i]? = some next :=
    ⟨slots[i], List.getElem?_eq_getElem hi⟩
  obtain ⟨left, rest, rfl, hleft⟩ : ∃ left rest,
      slots = left ++ next :: rest ∧ left.length = i := by
    refine ⟨slots.take i, slots.drop (i + 1), ?_, ?_⟩
    · obtain ⟨hlt, hget⟩ := List.getElem?_eq_some_iff.1 hnext
      rw [← hget, getElem_cons_drop, take_append_drop]
    · rw [length_take]
      omega
  subst hleft
  obtain ⟨new, hbody, hwide, htext, hsize⟩ :=
    exists_newSlot hlen (lastSize 0 left)
  have hread := readForward_eq hwf
  obtain ⟨⟨count, rfl⟩, hold, hchain⟩ := hwf
  have hoffset : entryOffset (left ++ next :: rest) left.length =
      ziplistHeaderSize + totalSize left := by
    rw [entryOffset, take_left]
  have hinsert : insertSize (left ++ next :: rest) left.length s = new.size := by
    rw [insertSize, take_left, hsize]
  have htotal : ziplistHeaderSize + totalSize left + new.size +
      totalSize (refit new.size (next :: rest)) + 1 =
      ziplistHeaderSize + totalSize (insertSlots left new next rest) + 1 := by
    simp only [refit, insertSlots, totalSize_append, totalSize_cons]
    omega
  have hexpected := map_text_insertSlots left new next rest
  rw [htext] at hexpected
  rw [InsertSafe, hoffset, hinsert, drop_left, htotal,
    getElem?_render_last, hnext]
  simp only [mem_some_iff, forall_eq']
  constructor
  · rintro ⟨zl', slots', old, hrun, hwf', hforward, hforward', -⟩
    rw [hread, some_inj] at hforward
    rw [readForward_eq hwf', some_inj, ← hforward, ← hexpected]
      at hforward'
    rw [hoffset] at hrun
    refine ⟨?_, fun hnextWide hsmall => ?_⟩
    · by_contra hfull
      rw [ziplistInsert_eq_none junk hold hchain hwide hbody hsize
        (Nat.le_of_not_lt hfull)] at hrun
      cases hrun
    · by_contra hlast
      exact not_wellFormed_of_cut junk hold hchain hwide hbody hsize hnextWide
        hsmall hlast hrun hwf' hforward'
  · rintro ⟨hfull, hlast⟩
    have hwf' : WellFormed (render (insertSlots left new next rest)
        (incrCount count)) (insertSlots left new next rest) :=
      ⟨⟨_, rfl⟩, hfull, chained_insertSlots hchain hwide hfull⟩
    refine ⟨_, _, _, ?_, hwf', hread, ?_, ?_⟩
    · rw [hoffset, ziplistInsert_eq junk hold hchain hwide hbody hsize hfull
        hlast]
    · rw [readForward_eq hwf', hexpected]
    · rw [readBackward_eq hwf', hexpected]

end Refine

section Examples

/-- The entries `a` and `b`, the second with a back-length field that was once
widened. -/
def slotsAB (wide : Bool) : List Slot :=
  [⟨false, [1, 97], .str [97], by decide⟩,
    ⟨wide, [1, 98], .str [98], by decide⟩]

theorem wellFormed_slotsAB (wide : Bool) :
    WellFormed (render (slotsAB wide) 2) (slotsAB wide) := by
  refine ⟨⟨2, rfl⟩, ?_, ?_⟩
  · cases wide <;> decide
  · exact ⟨⟨by decide, fun _ => by decide⟩, ⟨by decide, fun _ => by decide⟩,
      trivial⟩

/-- Inserting the number 1024 before `b` in front of a wide field: the field
shrinks, and the block grows by nothing but keeps all entries. -/
theorem ziplistInsert_refines_number :
    InsertRefines (fun _ => 0) (render (slotsAB true) 2) (slotsAB true) 1
      [49, 48, 50, 52] :=
  (ziplistInsert_refines_iff _ (wellFormed_slotsAB true) (by decide)
    (by decide)).2 ⟨by decide, by rintro next ⟨⟩ - hsmall; exact absurd hsmall (by decide)⟩

/-- Inserting `x` before `b` in front of a wide field turns `b` into the byte
`0xff`. -/
theorem ziplistInsert_damages_last :
    WellFormed (render (slotsAB true) 2) (slotsAB true) ∧
      ¬ InsertRefines (fun _ => 0) (render (slotsAB true) 2) (slotsAB true) 1
        [120] := by
  refine ⟨wellFormed_slotsAB true, ?_⟩
  rintro ⟨zl', slots', old, hrun, -, hold, hforward, -⟩
  have hrun' : (ziplistInsert (fun _ => 0) (render (slotsAB true) 2)
      (entryOffset (slotsAB true) 1) [120]).bind readForward =
      some [[97], [120], [255]] := by
    decide +kernel
  have hold' : readForward (render (slotsAB true) 2) = some [[97], [98]] := by
    decide +kernel
  rw [hold', some_inj] at hold
  rw [hrun, bind_some, hforward, ← hold] at hrun'
  exact absurd hrun' (by decide)

end Examples

end RedisV8.Ziplist
