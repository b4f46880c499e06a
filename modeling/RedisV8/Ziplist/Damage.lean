import RedisV8.Ziplist.Insert

/-!
# Losing the end of the list

`ziplistInsert` shrinks the block before it moves the tail.  When the new entry
is smaller than the four bytes that the next back-length field gives up, the
end marker is written over the last entry first.  These lemmas follow such a
run and show that its result is not the intended list unless the overwritten
byte was the end marker's value already.
-/

namespace RedisV8.Ziplist

open Bytes Util List Option

variable {back zl' : Bytes} {prev : ℕ}

/-- The last byte replaced by the end marker. -/
def damage (bytes : Bytes) : Bytes := bytes.dropLast ++ [zipEnd]

section Unique

theorem damage_append {front : Bytes} (hback : back ≠ []) :
    damage (front ++ back) = front ++ damage back := by
  rw [damage, damage, dropLast_append_of_ne_nil hback, append_assoc]

@[simp]
theorem length_damage {bytes : Bytes} (hne : bytes ≠ []) :
    (damage bytes).length = bytes.length := by
  have hpos := length_pos_of_ne_nil hne
  rw [damage, length_append, length_dropLast, length_singleton]
  omega

theorem damage_of_getLast? {bytes : Bytes}
    (hlast : bytes.getLast? = some zipEnd) : damage bytes = bytes := by
  obtain ⟨init, rfl⟩ := getLast?_eq_some_iff.1 hlast
  simp [damage]

theorem getLast?_of_damage {bytes : Bytes} (heq : damage bytes = bytes) :
    bytes.getLast? = some zipEnd := by
  rw [← heq, damage, getLast?_concat]

theorem bodyValue_zipEnd : bodyValue [zipEnd] = none := by decide

/-- The width of a back-length field shows in its first byte. -/
theorem prevField_cancel {wide wide' : Bool} {back' : Bytes}
    (hfits : PrevFits wide prev) (hfits' : PrevFits wide' prev)
    (heq : prevField wide prev ++ back = prevField wide' prev ++ back') :
    wide = wide' ∧ back = back' := by
  have hsize := zipDecodePrevlensize_prevField hfits back
  rw [heq, zipDecodePrevlensize_prevField hfits', some_inj] at hsize
  have hwide : wide = wide' := by
    cases wide <;> cases wide' <;> simp [prevSize] at hsize ⊢
  subst hwide
  exact ⟨rfl, append_cancel_left heq⟩

/-- The extent of an entry shows in its first bytes. -/
theorem body_cancel {left right : Slot} {back' : Bytes}
    (heq : left.body ++ back = right.body ++ back') :
    left.body = right.body ∧ back = back' := by
  obtain ⟨enc, lensize, len, hdecode, hlength, -⟩ := bodyValue_spec left.decodes
  obtain ⟨enc', lensize', len', hdecode', hlength', -⟩ :=
    bodyValue_spec right.decodes
  have hsame := zipDecodeLength_append hdecode back
  rw [heq, zipDecodeLength_append hdecode'] at hsame
  cases hsame
  exact append_inj heq (by omega)

theorem layout_ne_nil (prev : ℕ) (slot : Slot) (rest : List Slot) :
    layout prev (slot :: rest) ≠ [] := by
  intro hnil
  have hlength := length_layout prev (slot :: rest)
  have hpos := size_pos slot
  rw [hnil, totalSize_cons, length_nil] at hlength
  omega

/-- A damaged entry with the same element was not damaged at all. -/
theorem body_of_damage {slot slot' : Slot}
    (heq : slot'.body = damage slot.body) (htext : slot'.text = slot.text) :
    damage slot.body = slot.body := by
  have hpos := length_pos_of_bodyValue slot.decodes
  have hne : slot.body ≠ [] := ne_nil_of_length_pos hpos
  cases hbody : slot.body with
  | nil => exact absurd hbody hne
  | cons byte tail =>
    cases tail with
    | nil =>
      have hdecodes := slot'.decodes
      rw [heq, hbody] at hdecodes
      exact absurd hdecodes (by rw [damage]; simp [bodyValue_zipEnd])
    | cons byte' tail =>
      have hhead : slot'.body.head? = slot.body.head? := by
        rw [heq, hbody]
        rfl
      have hlength : slot'.body.length = slot.body.length := by
        rw [heq, length_damage hne]
      have hsame := body_eq_of_text_eq slot'.decodes slot.decodes hhead
        hlength htext
      rw [← hbody, ← heq, hsame]

/-- If damaged entries still read as the same elements, the last byte was the
end marker's value before. -/
theorem layout_of_damage {slots slots' : List Slot}
    (hchain : Chained prev slots) (hchain' : Chained prev slots')
    (hne : slots ≠ []) (htext : slots'.map Slot.text = slots.map Slot.text)
    (heq : layout prev slots' = damage (layout prev slots)) :
    damage (layout prev slots) = layout prev slots := by
  induction slots generalizing prev slots' with
  | nil => exact absurd rfl hne
  | cons slot rest ih =>
    cases slots' with
    | nil => simp at htext
    | cons slot' rest' =>
      rw [map_cons, map_cons, cons.injEq] at htext
      have hbody : slot.body ≠ [] :=
        ne_nil_of_length_pos (length_pos_of_bodyValue slot.decodes)
      cases rest with
      | nil =>
        obtain rfl : rest' = [] := by simpa using htext.2
        simp only [layout, append_nil, Slot.bytes, damage_append hbody] at heq ⊢
        obtain ⟨-, hdamage⟩ := prevField_cancel hchain'.1 hchain.1 heq
        rw [body_of_damage hdamage htext.1]
      | cons second rest =>
        have hrest := layout_ne_nil slot.size second rest
        rw [layout, layout, damage_append hrest] at heq
        simp only [Slot.bytes, append_assoc] at heq
        obtain ⟨hwide, htail⟩ := prevField_cancel hchain'.1 hchain.1 heq
        obtain ⟨hsame, htail⟩ := body_cancel htail
        have hsize : slot'.size = slot.size := by
          rw [Slot.size, Slot.size, hwide, hsame]
        rw [layout, damage_append hrest]
        congr 1
        refine ih hchain.2 (hsize ▸ hchain'.2) (by simp) htext.2 ?_
        rw [← hsize, htail, hsize]

end Unique

section Run

/-- What the length field of a damaged entry says: the true extent, or one
that leads out of the block. -/
theorem damage_extent {body : Bytes} {value : ZlValue}
    (hvalue : bodyValue body = some value) {encoding : UInt8} {lensize len : ℕ}
    (hdecode : zipDecodeLength (damage body ++ [zipEnd]) =
      some (encoding, lensize, len)) :
    lensize + len = body.length ∨
      (body.length < lensize + len ∧ lensize + len ≤ 260) := by
  obtain ⟨enc, lensize', len', hdecode', hlength, -⟩ := bodyValue_spec hvalue
  by_cases hempty : len' = 0
  · -- the last byte is the lowest one of a length that was 0
    subst hempty
    obtain ⟨byte, word, rest, rfl, rfl, hword, rfl, hzero⟩ :=
      zipDecodeLength_cases hdecode'
    obtain rfl : rest = [] := by simpa [hword] using hlength
    rcases eq_nil_or_concat word with rfl | ⟨init, last, rfl⟩
    · cases hdecode
      exact .inl rfl
    have hdamage : damage (byte :: (init.concat last ++ [])) ++ [zipEnd] =
        byte :: ((init ++ [zipEnd]) ++ [zipEnd]) := by
      rw [append_nil, concat_eq_append, ← cons_append,
        damage_append (cons_ne_nil last [])]
      rfl
    rw [hdamage, zipDecodeLength_word (by simpa using hword)] at hdecode
    cases hdecode
    have hstr : zipIsStr (zipEntryEncoding byte) = true := by
      by_contra hint
      rw [wordSize_of_int (Bool.eq_false_iff.2 hint)] at hword
      simp at hword
    have hfull : lengthOf byte (init ++ [zipEnd]) = 255 := by
      rw [lengthOf, if_pos hstr] at hzero ⊢
      have hend : zipEnd.toNat = 255 := rfl
      simp only [concat_eq_append, length_append, length_singleton,
        reverse_append, reverse_singleton, singleton_append,
        leNat_cons, hend] at hzero ⊢
      split_ifs at hzero ⊢ <;> omega
    have hfour : wordSize (zipEntryEncoding byte) ≤ 4 := by
      rw [wordSize]
      split_ifs <;> omega
    rw [hfull]
    simp only [concat_eq_append, length_append, length_cons,
      append_nil] at hword ⊢
    omega
  · have hsplit : damage body ++ [zipEnd] = body.take lensize' ++
        (damage (body.drop lensize') ++ [zipEnd]) := by
      rw [← append_assoc, ← damage_append, take_append_drop]
      apply ne_nil_of_length_pos
      rw [length_drop]
      omega
    rw [hsplit, zipDecodeLength_append (zipDecodeLength_take hdecode')] at hdecode
    cases hdecode
    exact .inl hlength.symm

variable {left rest : List Slot} {next new : Slot} {s : Bytes}
  {bytes tail count curlen fuel : ℕ} {mid : Bytes} (junk : ℕ → UInt8)

theorem restBytes_ne_nil (next : Slot) (rest : List Slot) :
    restBytes next rest ≠ [] := by
  have hbody := length_pos_of_bodyValue next.decodes
  apply ne_nil_of_length_pos
  rw [restBytes, length_append]
  omega

/-- The cascade over a damaged last entry changes nothing. -/
theorem cascadeLoop_damage_last {moved : Slot}
    (hfits : PrevFits moved.wide prev) (hsize : moved.size < 2 ^ 32 - 1)
    (hrun : cascadeLoop junk fuel (header bytes tail count ++
      (mid ++ (damage (layout prev [moved]) ++ [zipEnd]))) curlen
      (ziplistHeaderSize + mid.length) = some zl') :
    zl' = header bytes tail count ++
      (mid ++ (damage (layout prev [moved]) ++ [zipEnd])) := by
  have hbody : moved.body ≠ [] :=
    ne_nil_of_length_pos (length_pos_of_bodyValue moved.decodes)
  have hlayout : damage (layout prev [moved]) ++ [zipEnd] =
      prevField moved.wide prev ++ (damage moved.body ++ [zipEnd]) := by
    rw [layout, layout, append_nil, Slot.bytes, damage_append hbody,
      append_assoc]
  rw [hlayout] at hrun ⊢
  cases fuel with
  | zero => cases hrun
  | succ fuel =>
    simp only [cascadeLoop, bind_eq_bind, bind_eq_some_iff]
      at hrun
    obtain ⟨byte, -, hrun⟩ := hrun
    split_ifs at hrun with hend
    · exact (some_inj.1 hrun).symm
    simp only [drop_header, bind_eq_some_iff] at hrun
    obtain ⟨entry, hentry, after, hafter, hrun⟩ := hrun
    obtain ⟨-, -, hheader, hdecode⟩ := zipEntry_prevlen hfits hentry
    have hfive : prevSize moved.wide ≤ 5 := by
      cases moved.wide <;> decide
    rw [getElem?_header] at hafter
    rcases damage_extent moved.decodes hdecode with hextent | ⟨hout, hbound⟩
    · have hrawlen : (entry.headersize + entry.len) % 2 ^ 32 =
          (prevField moved.wide prev ++ damage moved.body).length := by
        rw [length_append, length_prevField, length_damage hbody,
          Nat.mod_eq_of_lt (by rw [Slot.size] at hsize; omega)]
        omega
      rw [hrawlen, ← append_assoc, getElem?_concat_length, some_inj] at hafter
      rw [if_pos hafter.symm] at hrun
      exact (some_inj.1 hrun).symm
    · have hrawlen : (entry.headersize + entry.len) % 2 ^ 32 =
          entry.headersize + entry.len := Nat.mod_eq_of_lt (by omega)
      rw [hrawlen, getElem?_eq_none] at hafter
      · cases hafter
      · simp only [length_append, length_prevField, length_damage hbody,
          length_singleton]
        omega

/-- With an entry in between, the cascade rewrites that entry's back-length in
place and stops. -/
theorem cascadeLoop_damage_cons {old : ℕ} {moved second : Slot}
    (hfits : PrevFits moved.wide prev) (hsecond : PrevFits second.wide old)
    (hshrunk : moved.size < old) (hsize : moved.size < 2 ^ 32)
    (hrun : cascadeLoop junk fuel (header bytes tail count ++
      (mid ++ (moved.bytes prev ++
        (damage (layout old (second :: rest)) ++ [zipEnd])))) curlen
      (ziplistHeaderSize + mid.length) = some zl') :
    zl' = header bytes tail count ++ (mid ++ (moved.bytes prev ++
      (damage (layout moved.size (second :: rest)) ++ [zipEnd]))) := by
  have hlayout : ∀ len, damage (layout len (second :: rest)) ++ [zipEnd] =
      prevField second.wide len ++ (damage (restBytes second rest) ++
        [zipEnd]) := by
    intro len
    rw [layout, Slot.bytes, append_assoc, ← restBytes,
      damage_append (restBytes_ne_nil second rest), append_assoc]
  cases fuel with
  | zero => cases hrun
  | succ fuel =>
    rw [cascadeLoop_step junk
      (fun len => header bytes tail count ++ (mid ++ (moved.bytes prev ++
        (damage (layout len (second :: rest)) ++ [zipEnd]))))
      (fun len => by rw [hlayout]) hfits hsecond hsize] at hrun
    obtain ⟨entry, -, hrun⟩ := bind_eq_some_iff.1 hrun
    rw [if_neg (by omega), if_neg, some_inj] at hrun
    · exact hrun.symm
    rintro ⟨hshort, hbig⟩
    have hold := hsecond.2 hshort
    omega

theorem cascadeLoop_damage (hwide : next.wide = true)
    (hprev : prev < zipBiglen) (hchain : Chained next.size rest)
    (hsize : next.size < 2 ^ 32 - 1)
    (hrun : cascadeLoop junk fuel (header bytes tail count ++
      (mid ++ (prevField false prev ++
        (damage (restBytes next rest) ++ [zipEnd])))) curlen
      (ziplistHeaderSize + mid.length) = some zl') :
    zl' = header bytes tail count ++ (mid ++
      (damage (layout prev (next.setWide false :: rest)) ++ [zipEnd])) := by
  set moved := next.setWide false with hmoved
  have hfits : PrevFits moved.wide prev :=
    ⟨lt_trans hprev (by decide), fun _ => hprev⟩
  have hmovedSize : moved.size + 4 = next.size := by
    rw [hmoved, size_setWide, Slot.size, hwide]
    simp only [prevSize, if_true, Bool.false_eq_true, if_false]
    omega
  cases rest with
  | nil =>
    have hbody : next.body ≠ [] :=
      ne_nil_of_length_pos (length_pos_of_bodyValue next.decodes)
    have hblock : prevField false prev ++ (damage (restBytes next []) ++
        [zipEnd]) = damage (layout prev [moved]) ++ [zipEnd] := by
      simp only [restBytes, layout, append_nil]
      rw [Slot.bytes, hmoved, Slot.setWide, damage_append hbody, append_assoc]
    rw [hblock] at hrun
    exact cascadeLoop_damage_last junk hfits (by omega) hrun
  | cons second rest =>
    have hne := layout_ne_nil next.size second rest
    have hne' := layout_ne_nil moved.size second rest
    have hblock : prevField false prev ++ (damage (restBytes next
        (second :: rest)) ++ [zipEnd]) = moved.bytes prev ++
        (damage (layout next.size (second :: rest)) ++ [zipEnd]) := by
      rw [restBytes, damage_append hne, Slot.bytes, hmoved, Slot.setWide]
      simp only [append_assoc]
    rw [hblock] at hrun
    rw [layout, damage_append hne', append_assoc]
    exact cascadeLoop_damage_cons junk hfits hchain.1 (by omega) (by omega)
      hrun

/-- Only the tail offset is written. -/
theorem moveTailOffset_header {p reqlen : ℕ} {nextdiff : ℤ}
    (hrun : moveTailOffset (header bytes tail count ++ back) p reqlen nextdiff =
      some zl') : ∃ tail', zl' = header bytes tail' count ++ back := by
  rw [moveTailOffset, ziplistTailOffset_header_mod] at hrun
  simp only [bind_eq_bind, bind_some,
    setZiplistTailOffset_header, bind_eq_some_iff] at hrun
  obtain ⟨entry, -, byte, -, hrun⟩ := hrun
  split_ifs at hrun
  · rw [ziplistTailOffset_header_mod, bind_some] at hrun
    exact ⟨_, (some_inj.1 hrun).symm⟩
  · exact ⟨_, (some_inj.1 hrun).symm⟩

/-- Shrinking the block by one byte damages the last entry. -/
theorem ziplistResize_cut (count : ℕ) {size : ℕ}
    (hsize : size = ziplistHeaderSize + totalSize (left ++ next :: rest))
    (hlt : size < 2 ^ 32) :
    ziplistResize junk (render (left ++ next :: rest) count) size =
      some (header size (tailOffset (left ++ next :: rest)) count ++
        (layout 0 left ++ (prevField next.wide (lastSize 0 left) ++
          damage (restBytes next rest)))) := by
  have hne := restBytes_ne_nil next rest
  have hrest := length_restBytes next rest
  set content := layout 0 left ++ (prevField next.wide (lastSize 0 left) ++
    restBytes next rest) with hcontent
  have hcontentNe : content ≠ [] := by simp [hcontent, hne]
  have hlength : content.length = totalSize (left ++ next :: rest) := by
    rw [totalSize_append, ← hrest]
    simp [hcontent]
  have hpos := length_pos_of_ne_nil hcontentNe
  have hkept : size - ziplistHeaderSize - 1 = content.dropLast.length := by
    rw [length_dropLast]
    omega
  have hsplit : content ++ [zipEnd] = content.dropLast ++
      [content.getLast hcontentNe, zipEnd] := by
    conv_lhs => rw [← dropLast_append_getLast hcontentNe]
    simp
  rw [render_eq_restBytes, ← hcontent,
    ziplistResize_header junk (by omega) hlt, hkept, hsplit, resize_append,
    append_assoc, ← damage, hcontent,
    damage_append (by simp [hne]), damage_append hne]

/-- A run over a damaged block leaves the damaged bytes in place. -/
theorem insertSized_damage (hwide : next.wide = true) (hthree : new.size = 3)
    (hfits : PrevFits next.wide (lastSize 0 left))
    (hchain : Chained next.size rest)
    (hold : ziplistHeaderSize + totalSize (left ++ next :: rest) + 1 < 2 ^ 32)
    (hnew : new.wide = decide (zipBiglen ≤ lastSize 0 left))
    (hbody : entryBody s = some new.body)
    (hrun : insertSized junk (render (left ++ next :: rest) count)
        (ziplistHeaderSize + totalSize left) s
        (ziplistHeaderSize + totalSize (left ++ next :: rest) + 1)
        (lastSize 0 left) new.size
        ((zipPrevEncodeSize new.size : ℤ) - prevSize next.wide) = some zl') :
    ∃ bytes tail count', zl' = header bytes tail count' ++
      (damage (layout 0 (left ++ new :: next.setWide false :: rest)) ++
        [zipEnd]) := by
  set size := ziplistHeaderSize + totalSize (left ++ next :: rest) with hsizeDef
  have hrest := length_restBytes next rest
  have hlengthDamage := length_damage (restBytes_ne_nil next rest)
  have htotal : totalSize (left ++ next :: rest) =
      totalSize left + totalSize (next :: rest) := totalSize_append _ _
  have hprevSize : prevSize next.wide = 5 := by
    rw [hwide]
    rfl
  have hencode : zipPrevEncodeSize 3 = 1 := rfl
  have hresize := ziplistResize_cut junk count hsizeDef (by omega)
  rw [← append_nil (damage (restBytes next rest))] at hresize
  rw [hthree] at hrun
  obtain ⟨gap, hgap, hroom⟩ := insertSized_makeRoom junk hfits
    (show size = ziplistHeaderSize + totalSize left + 3 +
      zipPrevEncodeSize 3 + (damage (restBytes next rest)).length + 1 by omega)
    (show size + 1 = _ by omega) (by omega) hresize
  rw [hroom, bind_eq_some_iff] at hrun
  obtain ⟨zl1, hoffset, hrun⟩ := hrun
  obtain ⟨tail1, rfl⟩ := moveTailOffset_header hoffset
  set moved := next.setWide false with hmoved
  have hpos : ziplistHeaderSize + totalSize left + 3 =
      ziplistHeaderSize + (layout 0 left ++ gap).length := by
    simp [hgap, add_assoc]
  rw [insertEntry, if_pos (by rw [hprevSize]; decide)] at hrun
  obtain ⟨zl2, hcascade, hrun⟩ := bind_eq_some_iff.1 hrun
  rw [ziplistCascadeUpdate, ziplistBytes_header (by omega), some_bind,
    hpos] at hcascade
  obtain rfl := cascadeLoop_damage junk hwide (show 3 < zipBiglen by decide)
    hchain (by rw [totalSize_cons] at htotal; omega) hcascade
  have hstore := (store_new size tail1 count left
    (damage (layout 3 (moved :: rest)) ++ [zipEnd]) (hgap.trans hthree.symm)
    hnew hbody).symm.trans hrun
  have hne := layout_ne_nil 3 moved rest
  have hlayout : layout (lastSize 0 left) (new :: moved :: rest) =
      new.bytes (lastSize 0 left) ++ layout 3 (moved :: rest) := by
    rw [layout, hthree]
  refine ⟨size, tail1, incrCount count, ?_⟩
  rw [← some_inj.1 hstore, layout_append, hlayout,
    damage_append (by simp [hne]), damage_append hne]
  simp

end Run

end RedisV8.Ziplist
