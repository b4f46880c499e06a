import RedisV8.Ziplist.Refine

/-!
# Deletion from a ziplist

`__ziplistDelete` gives the entry behind the deleted ones the back-length of
the first of them, moves the rest of the list over the gap and lets the change
of size run through it.  Unlike an insertion it moves the entries before it
resizes the block, so that nothing is cut off.
-/

namespace RedisV8.Ziplist

open Bytes Util List Option

/-- The slots that are left when those between `left` and `rest` are deleted. -/
def deleteSlots (left rest : List Slot) : List Slot :=
  left ++ refit (lastSize 0 left) rest

/-- The saturating entry counter after deletions. -/
def decrCount (count deleted : ℕ) : ℕ :=
  if count % 2 ^ 16 < 2 ^ 16 - 1 then
    ((((count % 2 ^ 16 : ℕ) : ℤ) - deleted) % 2 ^ 16).toNat
  else count

section Reading

variable {bytes tail count : ℕ} {rest : Bytes}

theorem ziplistDecrLength_header (deleted : ℕ) :
    ziplistDecrLength (header bytes tail count ++ rest) deleted =
      some (header bytes tail (decrCount count deleted) ++ rest) := by
  have hstore := store_append (leBytes 4 bytes ++ leBytes 4 tail)
    (leBytes 2 count) rest
    (leBytes 2 ((((count % 2 ^ 16 : ℕ) : ℤ) - deleted) % 2 ^ 16).toNat)
    (by simp)
  simp only [length_append, length_leBytes] at hstore
  rw [ziplistDecrLength, ziplistLength_header, decrCount]
  simp only [some_bind]
  split
  · simp only [header, append_assoc] at hstore ⊢
    exact hstore
  · rfl

/-- The entries passed over are the next `num`, or all that are left. -/
theorem skipEntries_eq {zl : Bytes} {left right : List Slot} (num deleted : ℕ)
    (hwf : WellFormed zl (left ++ right)) :
    skipEntries zl num (ziplistHeaderSize + totalSize left) deleted =
      some (ziplistHeaderSize + totalSize (left ++ right.take num),
        deleted + (right.take num).length) := by
  induction num generalizing left right deleted with
  | zero => simp [skipEntries]
  | succ num ih =>
    cases right with
    | nil =>
      rw [append_nil] at hwf
      rw [skipEntries, hwf.end]
      simp
    | cons slot right =>
      obtain ⟨byte, hbyte, hend, hlen, hpos⟩ := hwf.entry
      rw [append_cons] at hwf
      rw [skipEntries, hbyte, hlen]
      simp only [some_bind, hend, if_false]
      rw [hpos, ih _ hwf, take_succ_cons, length_cons, append_assoc,
        singleton_append, Nat.add_assoc, Nat.add_comm 1]

end Reading

section Gap

variable {left gone rest : List Slot} {next : Slot} {count : ℕ}

/-- The first deleted entry has room for the back-length that its successor
takes over. -/
theorem encodeSize_le_of_gone {prev : ℕ} (hne : gone ≠ [])
    (hchain : Chained prev gone) :
    zipPrevEncodeSize prev ≤ totalSize gone := by
  obtain ⟨slot, gone, rfl⟩ := exists_cons_of_ne_nil hne
  have hsize := two_le_size slot
  have hwide : zipPrevEncodeSize prev ≤ prevSize slot.wide := by
    rw [zipPrevEncodeSize_eq]
    by_cases hbig : zipBiglen ≤ prev
    · cases hshort : slot.wide with
      | true => rw [decide_eq_true hbig]
      | false => exact absurd (hchain.1.2 hshort) (Nat.not_lt.2 hbig)
    · rw [decide_eq_false hbig]
      cases slot.wide <;> decide
  rw [totalSize_cons]
  omega

/-- The bytes of the deleted entries and of the back-length field behind them,
split where the new field starts. -/
theorem gap_split (gap field : Bytes) (size : ℕ)
    (hle : size ≤ gap.length + field.length) :
    ∃ before old, gap ++ field = before ++ old ∧ old.length = size := by
  refine ⟨(gap ++ field).take (gap.length + field.length - size),
    (gap ++ field).drop (gap.length + field.length - size),
    (take_append_drop _ _).symm, ?_⟩
  rw [length_drop, length_append]
  omega

/-- The tail offset moves with the entries behind the gap; the change of the
first one's size counts unless that one is the tail. -/
theorem dropTailOffset_eq (bytes count base totlen : ℕ) (mid : Bytes)
    {prev : ℕ} {cur : Slot} {nextdiff : ℤ} (hfits : PrevFits cur.wide prev)
    (hchain : Chained next.size rest)
    (hcur : (cur.size : ℤ) = next.size + nextdiff)
    (hsize : base + totlen + totalSize (next :: rest) < 2 ^ 32)
    (hsize' : base + totalSize (cur :: rest) < 2 ^ 32) :
    dropTailOffset (header bytes
          (base + totlen + totalSize (next :: rest).dropLast) count ++
        (mid ++ (cur.bytes prev ++ (layout next.size rest ++ [zipEnd]))))
        (ziplistHeaderSize + mid.length) totlen nextdiff =
      some (header bytes (base + totalSize (cur :: rest).dropLast) count ++
        (mid ++ (cur.bytes prev ++ (layout next.size rest ++ [zipEnd])))) := by
  obtain ⟨entry, hentry, hafter⟩ := zipEntry_block hfits bytes count mid
    (layout next.size rest ++ [zipEnd])
  have hle := totalSize_dropLast_le (next :: rest)
  rw [dropTailOffset, ziplistTailOffset_header (by omega)]
  simp only [bind_eq_bind, bind_some, setZiplistTailOffset_header,
    drop_header, hentry, hafter]
  have hdropped : ((((base + totlen + totalSize (next :: rest).dropLast : ℕ) :
      ℤ) - totlen) % 2 ^ 32).toNat =
      base + totalSize (next :: rest).dropLast := by
    omega
  rw [hdropped]
  cases rest with
  | nil =>
    rw [getElem?_layout_nil]
    simp
  | cons after rest =>
    obtain ⟨byte, hbyte, hend⟩ := getElem?_layout_cons hchain.1 rest [zipEnd]
    rw [hbyte]
    simp only [bind_some, ne_eq, hend, not_false_eq_true, if_true,
      dropLast_cons_cons, totalSize_cons] at hle hsize hsize' ⊢
    have hrest := totalSize_dropLast_le (after :: rest)
    rw [totalSize_cons] at hrest
    rw [ziplistTailOffset_header (by omega)]
    simp only [bind_some, some_inj]
    congr 2
    omega

/-- The new field is written right before the data of `next`, and the whole is
moved to where the first deleted entry was. -/
theorem closeGap_eq (count : ℕ) (hne : gone ≠ [])
    (hsize : ziplistHeaderSize + totalSize (left ++ (gone ++ next :: rest)) + 1 <
      2 ^ 32)
    (hchain : Chained 0 (left ++ (gone ++ next :: rest))) :
    ∃ leftover, closeGap (render (left ++ (gone ++ next :: rest)) count)
        (ziplistHeaderSize + totalSize left)
        (ziplistHeaderSize + totalSize (left ++ gone)) (lastSize 0 left)
        (totalSize gone) =
      some (header
          (ziplistHeaderSize + totalSize (left ++ (gone ++ next :: rest)) + 1)
          (ziplistHeaderSize + totalSize left + totalSize (next.setWide
            (decide (zipBiglen ≤ lastSize 0 left)) :: rest).dropLast) count ++
        (layout 0 left ++ ((next.setWide
            (decide (zipBiglen ≤ lastSize 0 left))).bytes (lastSize 0 left) ++
          layout next.size rest) ++ leftover),
        (zipPrevEncodeSize (lastSize 0 left) : ℤ) - prevSize next.wide) := by
  obtain ⟨hleft, hright⟩ := chained_append.1 hchain
  obtain ⟨hgone, hnext, hrest⟩ := chained_append.1 hright
  set prev := lastSize 0 left with hprev
  set old := lastSize prev gone with hold
  set moved := next.setWide (decide (zipBiglen ≤ prev)) with hmoved
  have henc := encodeSize_le_of_gone hne hgone
  have hmovedSize := size_setWide_fit next prev
  rw [← hmoved] at hmovedSize
  have hprevLt : prev < 2 ^ 32 := by
    obtain ⟨slot, gone', rfl⟩ := exists_cons_of_ne_nil hne
    exact hgone.1.1
  have hfits : PrevFits moved.wide prev := prevFits_setWide hprevLt next
  obtain ⟨before, field, hsplit, hfield⟩ := gap_split (layout prev gone)
    (prevField next.wide old) (zipPrevEncodeSize prev)
    (by rw [length_layout]; omega)
  have hbefore : before.length + zipPrevEncodeSize prev =
      totalSize gone + prevSize next.wide := by
    have hlengths := congrArg List.length hsplit
    rw [length_append, length_append, length_layout, length_prevField,
      hfield] at hlengths
    omega
  have htotal : totalSize (left ++ (gone ++ next :: rest)) = totalSize left +
      (totalSize gone + (next.size + totalSize rest)) := by
    simp
  set bytes := ziplistHeaderSize + totalSize (left ++ (gone ++ next :: rest)) + 1
    with hbytes
  have htail : tailOffset (left ++ (gone ++ next :: rest)) = ziplistHeaderSize +
      totalSize left + totalSize gone + totalSize (next :: rest).dropLast := by
    rw [← append_assoc, tailOffset_append_cons, totalSize_append, add_assoc,
      add_assoc, add_assoc, add_assoc]
  have hblock : render (left ++ (gone ++ next :: rest)) count =
      header bytes (ziplistHeaderSize + totalSize left + totalSize gone +
        totalSize (next :: rest).dropLast) count ++ (layout 0 left ++ before) ++
        field ++ (next.body ++ layout next.size rest ++ [zipEnd]) := by
    rw [render, htail, layout_append, layout_append, ← hprev, ← hold, layout,
      Slot.bytes]
    simp only [append_assoc]
    rw [← append_assoc (layout prev gone), hsplit]
    simp only [append_assoc, ← hbytes]
  have hpos : ((ziplistHeaderSize + totalSize (left ++ gone) : ℕ) -
      ((zipPrevEncodeSize prev : ℤ) - prevSize next.wide)).toNat =
      ziplistHeaderSize + (layout 0 left ++ before).length := by
    rw [totalSize_append, length_append, length_layout]
    omega
  have hdiff : zipPrevLenByteDiff ((render (left ++ (gone ++ next :: rest))
      count).drop (ziplistHeaderSize + totalSize (left ++ gone))) prev =
      some ((zipPrevEncodeSize prev : ℤ) - prevSize next.wide) := by
    rw [← append_assoc, drop_render, lastSize_append, ← hprev, ← hold,
      zipPrevLenByteDiff, layout, Slot.bytes, append_assoc,
      append_assoc, zipDecodePrevlensize_prevField hnext,
      Nat.mod_eq_of_lt hprevLt]
    rfl
  -- the field is written over the end of the gap
  have hstore : ∀ tail : ℕ, store (header bytes tail count ++
        (layout 0 left ++ before) ++ field ++
        (next.body ++ layout next.size rest ++ [zipEnd]))
      (ziplistHeaderSize + (layout 0 left ++ before).length)
      (zipPrevEncodeLength prev) = some (header bytes tail count ++
        ((layout 0 left ++ before) ++ (moved.bytes prev ++
          (layout next.size rest ++ [zipEnd])))) := by
    intro tail
    have hstore := store_append (header bytes tail count ++
      (layout 0 left ++ before)) field
      (next.body ++ layout next.size rest ++ [zipEnd])
      (prevField (decide (zipBiglen ≤ prev)) prev)
      (by rw [hfield, length_prevField, zipPrevEncodeSize_eq])
    rw [length_append, length_header] at hstore
    rw [zipPrevEncodeLength_eq, hstore]
    simp [hmoved, Slot.bytes, Slot.setWide]
  have hdrop := dropTailOffset_eq bytes count
    (ziplistHeaderSize + totalSize left) (totalSize gone)
    (layout 0 left ++ before) hfits hrest hmovedSize
    (by rw [totalSize_cons]; omega) (by rw [totalSize_cons]; omega)
  set tail := ziplistHeaderSize + totalSize left +
    totalSize (moved :: rest).dropLast with htailDef
  set data := moved.bytes prev ++ layout next.size rest with hdata
  have hdataLength : data.length = moved.size + totalSize rest := by
    simp [hdata]
  set block := header bytes tail count ++ ((layout 0 left ++ before) ++
    (moved.bytes prev ++ (layout next.size rest ++ [zipEnd]))) with hblockDef
  have hlength : block.length = bytes := by
    simp only [hblockDef, hbytes, htotal, length_append, length_header,
      length_layout, length_slotBytes, length_singleton]
    omega
  have hcount : bytes - (ziplistHeaderSize + (layout 0 left ++ before).length) -
      1 = data.length := by
    rw [hdataLength, length_append, length_layout]
    omega
  have hload : load block
      (ziplistHeaderSize + (layout 0 left ++ before).length) data.length =
      some data := by
    have hload := load_append (header bytes tail count ++
      (layout 0 left ++ before)) data [zipEnd]
    rw [length_append, length_header] at hload
    rw [← hload, hblockDef, hdata]
    simp only [append_assoc]
  have hmove := memmove_eq hload
    (show ziplistHeaderSize + totalSize left + data.length ≤ block.length by
      rw [hlength, hdataLength]
      omega)
  have htake : block.take (ziplistHeaderSize + totalSize left) =
      header bytes tail count ++ layout 0 left := by
    rw [hblockDef, append_assoc, ← append_assoc]
    apply take_left'
    simp
  refine ⟨block.drop (ziplistHeaderSize + totalSize left + data.length), ?_⟩
  have hbytesOf : ziplistBytes block = some bytes := ziplistBytes_header hsize
  rw [closeGap, hdiff]
  simp only [bind_eq_bind, bind_some, hpos]
  rw [hblock, hstore, bind_some, hdrop, bind_some, hbytesOf,
    bind_some, hcount, hmove, htake, bind_some]
  simp only [append_assoc]

end Gap

section Delete

variable {left right : List Slot} {next : Slot} {count : ℕ}
  (junk : ℕ → UInt8)

theorem totalSize_dropLast_add_lastSize (left : List Slot) :
    totalSize left.dropLast + lastSize 0 left = totalSize left := by
  rcases eq_nil_or_concat left with rfl | ⟨init, last, rfl⟩
  · rfl
  · simp

theorem staleBlock_eq_render (left : List Slot) (cur : Slot) (rest : List Slot)
    (count : ℕ) :
    staleBlock (layout 0 left) (lastSize 0 left) cur cur.size rest count =
      render (left ++ cur :: rest) count := by
  rw [staleBlock, render, tailOffset_append_cons, layout_append, totalSize_append, length_layout]
  simp [layout, add_assoc]

/-- With entries behind the deleted ones. -/
theorem deleteResize_gap {gone rest : List Slot} (count : ℕ) (leftover : Bytes)
    {deleted : ℕ} (hrest : Chained next.size rest)
    (hprev : lastSize 0 left < 2 ^ 32)
    (hold : ziplistHeaderSize + totalSize (left ++ (gone ++ next :: rest)) + 1 <
      2 ^ 32)
    (hsize : ziplistHeaderSize +
      totalSize (deleteSlots left (next :: rest)) + 1 < 2 ^ 32) :
    deleteResize junk (header
          (ziplistHeaderSize + totalSize (left ++ (gone ++ next :: rest)) + 1)
          (ziplistHeaderSize + totalSize left + totalSize (next.setWide
            (decide (zipBiglen ≤ lastSize 0 left)) :: rest).dropLast) count ++
        (layout 0 left ++ ((next.setWide
            (decide (zipBiglen ≤ lastSize 0 left))).bytes (lastSize 0 left) ++
          layout next.size rest) ++ leftover))
        (ziplistHeaderSize + totalSize left) (totalSize gone) deleted
        ((zipPrevEncodeSize (lastSize 0 left) : ℤ) - prevSize next.wide) =
      some (render (deleteSlots left (next :: rest))
        (decrCount count deleted)) := by
  set prev := lastSize 0 left with hprevDef
  set moved := next.setWide (decide (zipBiglen ≤ prev)) with hmoved
  have hmovedSize := size_setWide_fit next prev
  rw [← hmoved] at hmovedSize
  have hslots : deleteSlots left (next :: rest) =
      left ++ moved :: widen moved.size rest := rfl
  have hle := totalSize_le_widen moved.size rest
  rw [hslots, totalSize_append, totalSize_cons] at hsize
  set kept := layout 0 left ++ (moved.bytes prev ++ layout next.size rest)
    with hkept
  have hkeptLength : kept.length =
      totalSize left + (moved.size + totalSize rest) := by
    simp [hkept]
  have hlt : ziplistHeaderSize + kept.length + 1 < 2 ^ 32 := by
    omega
  have hnew : ((((ziplistHeaderSize + totalSize (left ++ (gone ++ next :: rest)) +
      1 : ℕ) : ℤ) - totalSize gone +
      ((zipPrevEncodeSize prev : ℤ) - prevSize next.wide)) % 2 ^ 32).toNat =
      ziplistHeaderSize + kept.length + 1 := by
    simp only [totalSize_append, totalSize_cons] at hold ⊢
    omega
  have hstale : header (ziplistHeaderSize + kept.length + 1)
      (ziplistHeaderSize + totalSize left + totalSize (moved :: rest).dropLast)
      (decrCount count deleted) ++ (kept ++ [zipEnd]) =
      staleBlock (layout 0 left) prev moved next.size rest
        (decrCount count deleted) := by
    rw [staleBlock, hkeptLength, length_layout, totalSize_cons, hkept]
    simp only [append_assoc, add_assoc]
  rw [deleteResize, ziplistBytes_header hold]
  simp only [bind_eq_bind, bind_some, hnew]
  rw [ziplistResize_kept junk _ _ _ _ _ hlt]
  simp only [bind_some, ziplistDecrLength_header, hstale]
  have hcascade := ziplistCascadeUpdate_stale junk (layout 0 left)
    (decrCount count deleted) (prevFits_setWide hprev next) hrest hmovedSize
    (by rw [length_layout, totalSize_cons, ← hmoved]; omega)
  have hfull : ziplistHeaderSize + totalSize left +
      totalSize (moved :: widen moved.size rest) + 1 < 2 ^ 32 := by
    rw [totalSize_cons]
    omega
  rw [length_layout, ← hmoved, if_pos hfull, staleBlock_eq_render] at hcascade
  exact hcascade

/-- With nothing behind the deleted entries. -/
theorem deleteResize_tail {gone : List Slot} (count : ℕ) {deleted : ℕ}
    (hold : ziplistHeaderSize + totalSize (left ++ gone) + 1 < 2 ^ 32) :
    (cutTail (render (left ++ gone) count) (ziplistHeaderSize + totalSize left)
        (lastSize 0 left)).bind (fun result =>
      deleteResize junk result.1 (ziplistHeaderSize + totalSize left)
        (totalSize gone) deleted result.2) =
      some (render left (decrCount count deleted)) := by
  have htail : ziplistHeaderSize + totalSize left - lastSize 0 left =
      tailOffset left := by
    have hsum := totalSize_dropLast_add_lastSize left
    rw [tailOffset]
    omega
  rw [totalSize_append] at hold
  have hnew : ((((ziplistHeaderSize + (totalSize left + totalSize gone) + 1 : ℕ) :
      ℤ) - totalSize gone + 0) % 2 ^ 32).toNat =
      ziplistHeaderSize + (layout 0 left).length + 1 := by
    rw [length_layout]
    omega
  rw [cutTail, render, append_assoc, setZiplistTailOffset_header, htail,
    bind_eq_bind, bind_some, bind_some, deleteResize,
    totalSize_append, ziplistBytes_header hold]
  simp only [bind_eq_bind, bind_some, hnew, layout_append, append_assoc]
  rw [ziplistResize_kept junk _ _ _ _ _ (by rw [length_layout]; omega)]
  simp only [bind_some, ziplistDecrLength_header, ne_eq,
    not_true_eq_false, if_false]
  rw [render, length_layout]
  simp

/-- `__ziplistDelete` from the entry behind `left` on. -/
theorem ziplistDeleteEntries_eq (count : ℕ) {num : ℕ} (hright : right ≠ [])
    (hnum : num ≠ 0)
    (hold : ziplistHeaderSize + totalSize (left ++ right) + 1 < 2 ^ 32)
    (hchain : Chained 0 (left ++ right))
    (hsize : ziplistHeaderSize +
      totalSize (deleteSlots left (right.drop num)) + 1 < 2 ^ 32) :
    ziplistDeleteEntries junk (render (left ++ right) count)
        (ziplistHeaderSize + totalSize left) num =
      some (render (deleteSlots left (right.drop num))
        (decrCount count (right.take num).length)) := by
  obtain ⟨hleft, hchain'⟩ := chained_append.1 hchain
  obtain ⟨first, tail, rfl⟩ := exists_cons_of_ne_nil hright
  obtain ⟨entry, hentry, -, hprev, -⟩ := zipEntry_slot hchain'.1 tail [zipEnd]
  have hskip := skipEntries_eq num 0 ⟨⟨count, rfl⟩, hold, hchain⟩
  rw [Nat.zero_add] at hskip
  set gone := (first :: tail).take num with hgone
  set rest := (first :: tail).drop num with hrest
  have hsplit : first :: tail = gone ++ rest := (take_append_drop _ _).symm
  have hne : gone ≠ [] := by
    obtain ⟨num, rfl⟩ := Nat.exists_eq_succ_of_ne_zero hnum
    rw [hgone, take_succ_cons]
    exact cons_ne_nil _ _
  have hpos : 0 < totalSize gone := by
    obtain ⟨slot, gone', hcons⟩ := exists_cons_of_ne_nil hne
    have := size_pos slot
    rw [hcons, totalSize_cons]
    omega
  have htotlen : (ziplistHeaderSize + totalSize (left ++ gone) -
      (ziplistHeaderSize + totalSize left)) % 2 ^ 32 = totalSize gone := by
    rw [hsplit] at hold
    simp only [totalSize_append] at hold ⊢
    omega
  rw [ziplistDeleteEntries, drop_render, hentry]
  simp only [bind_eq_bind, bind_some, hskip, htotlen, hprev]
  rw [if_neg (by omega)]
  have hbyte := getElem?_render (left ++ gone) rest count
  rw [append_assoc, ← hsplit] at hbyte
  rw [hbyte]
  clear_value gone rest
  rw [hsplit] at hold hchain ⊢
  cases rest with
  | nil =>
    rw [getElem?_layout_nil]
    simp only [bind_some, ne_eq, not_true_eq_false, if_false]
    rw [append_nil] at hold ⊢
    exact (deleteResize_tail junk count hold).trans (by simp [deleteSlots, refit])
  | cons next rest =>
    obtain ⟨-, hnext, hrestChain⟩ :=
      chained_append.1 (chained_append.1 hchain).2
    obtain ⟨byte, hbyte, hend⟩ := getElem?_layout_cons hnext rest [zipEnd]
    obtain ⟨leftover, hgap⟩ := closeGap_eq count hne hold hchain
    rw [lastSize_append, hbyte]
    simp only [bind_some, ne_eq, hend, not_false_eq_true, if_true, hgap]
    exact deleteResize_gap junk count leftover hrestChain hchain'.1.1 hold
      hsize

end Delete

end RedisV8.Ziplist
