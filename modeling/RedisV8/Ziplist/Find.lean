import RedisV8.Util.Cstring
import RedisV8.Ziplist.Layout

/-!
# Searching a ziplist

`ziplistFind` compares an element with the entries in their encoded form, one
entry out of `skip + 1`.
-/

namespace RedisV8.Ziplist

open Bytes List Option Util

/-- The number that the element encodes, as it is kept from entry to entry:
the encoding is 0 before the first attempt and 255 for no number. -/
def findEncode (vstr : Bytes) (vencoding : UInt8) (vll : ℤ) : UInt8 × ℤ :=
  if vencoding = 0 then
    match zipTryEncoding vstr with
    | some (value, encoding) => (encoding, value)
    | none => (255, vll)
  else (vencoding, vll)

/-- The comparison of one entry, whose payload is at `q`. -/
def findCompare (vstr : Bytes) (vencoding : UInt8) (vll : ℤ) (q : Bytes)
    (encoding : UInt8) (len : ℕ) : Option (Bool × UInt8 × ℤ) :=
  if zipIsStr encoding then
    if len = vstr.length then
      (load q 0 len).map fun data =>
        (decide (data = vstr), vencoding, vll)
    else some (false, vencoding, vll)
  else
    let (vencoding, vll) := findEncode vstr vencoding vll
    if vencoding = 0 then none
    else if vencoding = 255 then some (false, vencoding, vll)
    else
      (zipLoadInteger q encoding).map fun ll =>
        (decide (ll = vll), vencoding, vll)

/-- The loop of `ziplistFind`; the result is the distance from the entry it
started at, `some none` the null pointer.  The entries to skip are counted by
an `int`, and no ziplist has enough of them to wrap it. -/
def findLoop (vstr : Bytes) (skip : ℕ) :
    ℕ → Bytes → ℕ → ℕ → UInt8 → ℤ → Option (Option ℕ)
  | 0, _, _, _, _, _ => none
  | fuel + 1, ptr, offset, skipcnt, vencoding, vll => do
    let byte ← ptr[0]?
    if byte = zipEnd then some none
    else do
      let prevlensize ← zipDecodePrevlensize ptr
      let (encoding, lensize, len) ← zipDecodeLength (ptr.drop prevlensize)
      let q := prevlensize + lensize
      if skipcnt = 0 then do
        let (equal, vencoding, vll) ←
          findCompare vstr vencoding vll (ptr.drop q) encoding len
        if equal then some (some offset)
        else
          findLoop vstr skip fuel (ptr.drop (q + len)) (offset + (q + len))
            skip vencoding vll
      else
        findLoop vstr skip fuel (ptr.drop (q + len)) (offset + (q + len))
          (skipcnt - 1) vencoding vll

def ziplistFind (ptr vstr : Bytes) (skip : ℕ) : Option (Option ℕ) :=
  findLoop vstr skip (ptr.length + 1) ptr 0 0 0 0

section Compare

variable {vstr : Bytes} {vencoding : UInt8} {vll : ℤ}

/-- What is kept about the element is right, once it is there. -/
def Cached (vstr : Bytes) (vencoding : UInt8) (vll : ℤ) : Prop :=
  vencoding ≠ 0 → if vencoding = 255 then string2ll vstr = none
    else string2ll vstr = some vll

theorem string2ll_of_zipTryEncoding (hnone : zipTryEncoding vstr = none) :
    string2ll vstr = none := by
  by_contra hsome
  obtain ⟨value, hparse⟩ := Option.ne_none_iff_exists'.1 hsome
  obtain ⟨htext, -⟩ := string2ll_sound hparse
  have hlength := length_llText_le value
  rw [← htext] at hlength
  have hne : vstr.length ≠ 0 := by
    intro hzero
    rw [length_eq_zero_iff.1 hzero] at hparse
    cases hparse
  rw [zipTryEncoding, if_neg (by omega), hparse] at hnone
  simp only [some_bind] at hnone
  split_ifs at hnone

theorem findEncode_spec (hcached : Cached vstr vencoding vll) :
    (findEncode vstr vencoding vll).1 ≠ 0 ∧
      Cached vstr (findEncode vstr vencoding vll).1
        (findEncode vstr vencoding vll).2 := by
  rw [findEncode]
  split
  · cases htry : zipTryEncoding vstr with
    | none => exact ⟨by simp, fun _ => string2ll_of_zipTryEncoding htry⟩
    | some result =>
      obtain ⟨value, encoding⟩ := result
      obtain ⟨hparse, hint, -, payload, -, -, hload⟩ := zipTryEncoding_spec htry
      refine ⟨?_, fun _ => ?_⟩
      · rintro rfl
        cases hint
      · rw [if_neg]
        · exact hparse
        · rintro rfl
          cases hload
  · rename_i hne
    exact ⟨hne, hcached⟩

/-- Encoded forms are equal exactly when the elements are. -/
theorem findCompare_spec {body : Bytes} {value : ZlValue} {encoding : UInt8}
    {lensize len : ℕ} (hcached : Cached vstr vencoding vll)
    (hvalue : bodyValue body = some value)
    (hdecode : zipDecodeLength body = some (encoding, lensize, len))
    (after : Bytes) :
    ∃ vencoding' vll', Cached vstr vencoding' vll' ∧
      findCompare vstr vencoding vll (body.drop lensize ++ after) encoding len =
        some (decide (value.text = vstr), vencoding', vll') := by
  obtain ⟨_, _, _, hdecode', hlength, hcases⟩ := bodyValue_spec hvalue
  rw [hdecode] at hdecode'
  cases hdecode'
  have hdrop : (body.drop lensize).length = len := by
    rw [length_drop]
    omega
  rw [findCompare]
  rcases hcases with ⟨hstr, rfl⟩ | ⟨hint, number, hload, rfl⟩
  · refine ⟨_, _, hcached, ?_⟩
    rw [if_pos hstr, ZlValue.text]
    split
    · rw [load_append_left (load_all _ hdrop), map_some]
    · rename_i hne
      have hfalse : body.drop lensize ≠ vstr := by
        rintro rfl
        exact hne hdrop.symm
      rw [decide_eq_false hfalse]
  obtain ⟨hne, hcached⟩ := findEncode_spec hcached
  refine ⟨_, _, hcached, ?_⟩
  have hknown := hcached hne
  obtain ⟨hmin, hmax⟩ := zipLoadInteger_range
    (hdrop.trans (zipDecodeLength_int hdecode hint).2) hload
  have hparse := string2ll_llText hmin hmax
  rw [if_neg (by simp [hint])]
  dsimp only
  rw [if_neg hne, ZlValue.text]
  split
  · rename_i h255
    rw [if_pos h255] at hknown
    have hfalse : llText number ≠ vstr := by
      rintro rfl
      rw [hparse] at hknown
      cases hknown
    rw [decide_eq_false hfalse]
  · rename_i h255
    rw [if_neg h255] at hknown
    have hequal : number = (findEncode vstr vencoding vll).2 ↔
        llText number = vstr := by
      constructor
      · intro heq
        rw [heq, ← (string2ll_sound hknown).1]
      · intro heq
        rw [heq, hknown, some_inj] at hparse
        exact hparse.symm
    rw [zipLoadInteger_append hload, map_some]
    simp only [hequal]

end Compare

section Find

variable {vstr : Bytes} {vencoding : UInt8} {vll : ℤ}

/-- The place of the first element that equals `vstr`, among those at the
places `skipcnt`, `skipcnt + (skip + 1)`, and so on. -/
def findPlace (l : List Bytes) (vstr : Bytes) (skip skipcnt : ℕ) : Option ℕ :=
  (range l.length).find? fun i =>
    skipcnt ≤ i ∧ skip + 1 ∣ i - skipcnt ∧ l[i]? = some vstr

theorem findPlace_cons (text : Bytes) (l : List Bytes) (vstr : Bytes)
    (skip skipcnt : ℕ) :
    findPlace (text :: l) vstr skip skipcnt =
      if skipcnt = 0 then
        if text = vstr then some 0 else (findPlace l vstr skip skip).map (· + 1)
      else (findPlace l vstr skip (skipcnt - 1)).map (· + 1) := by
  rw [findPlace, length_cons, range_succ_eq_map, find?_cons, find?_map]
  cases skipcnt with
  | zero =>
    have hstride : ∀ i, skip + 1 ∣ i + 1 ↔ skip ≤ i ∧ skip + 1 ∣ i - skip := by
      intro i
      constructor
      · intro hdvd
        have hle := Nat.le_of_dvd (by omega) hdvd
        refine ⟨by omega, ?_⟩
        rw [← Nat.add_sub_add_right i 1 skip]
        exact Nat.dvd_sub hdvd (dvd_refl _)
      · rintro ⟨hle, hdvd⟩
        rw [← Nat.sub_add_cancel hle, add_assoc]
        exact Nat.dvd_add hdvd (dvd_refl _)
    by_cases heq : text = vstr
    · simp [heq]
    · simp [heq, findPlace, hstride, Bool.and_assoc]
  | succ skipcnt => simp [findPlace]

theorem findLoop_layout (hcached : Cached vstr vencoding vll)
    {slots : List Slot} {prev : ℕ} (hchained : Chained prev slots)
    (skip : ℕ) (after : Bytes) {fuel : ℕ} (hfuel : slots.length < fuel)
    (offset skipcnt : ℕ) :
    findLoop vstr skip fuel (layout prev slots ++ zipEnd :: after) offset
        skipcnt vencoding vll =
      some ((findPlace (slots.map Slot.text) vstr skip skipcnt).map fun i =>
        offset + totalSize (slots.take i)) := by
  induction slots generalizing prev fuel offset skipcnt vencoding vll with
  | nil =>
    obtain ⟨fuel, rfl⟩ := Nat.exists_eq_succ_of_ne_zero
      (Nat.ne_zero_of_lt hfuel)
    rw [findLoop]
    simp [layout, findPlace]
  | cons slot rest ih =>
    obtain ⟨fuel, rfl⟩ := Nat.exists_eq_succ_of_ne_zero
      (Nat.ne_zero_of_lt hfuel)
    have hfuel : rest.length < fuel := Nat.succ_lt_succ_iff.1 hfuel
    obtain ⟨hfits, hrest⟩ := hchained
    obtain ⟨byte, hbyte, hend⟩ :=
      getElem?_layout_cons hfits rest (zipEnd :: after)
    obtain ⟨encoding, lensize, len, hdecode, hlength, -⟩ :=
      bodyValue_spec slot.decodes
    have hsize : prevSize slot.wide + lensize + len = slot.size := by
      rw [Slot.size, hlength, add_assoc]
    rw [findLoop, hbyte, some_bind, if_neg hend, layout, append_assoc]
    have hnext : (slot.bytes prev ++ (layout slot.size rest ++
        zipEnd :: after)).drop slot.size =
        layout slot.size rest ++ zipEnd :: after :=
      drop_left' (length_slotBytes slot prev)
    rw [Slot.bytes, append_assoc] at hnext ⊢
    rw [zipDecodePrevlensize_prevField hfits, some_bind, drop_prevField,
      zipDecodeLength_append hdecode, some_bind]
    dsimp only
    rw [hsize, hnext, ← drop_drop, drop_prevField,
      drop_append_of_le_length (by omega), map_cons, findPlace_cons]
    have hstep : ∀ place : Option ℕ, (place.map fun i =>
        offset + slot.size + totalSize (rest.take i)) =
        (place.map (· + 1)).map fun i =>
          offset + totalSize ((slot :: rest).take i) := by
      intro place
      rw [Option.map_map]
      congr 1
      funext i
      simp [add_assoc]
    split
    · obtain ⟨vencoding', vll', hcached', hcompare⟩ :=
        findCompare_spec hcached slot.decodes hdecode
          (layout slot.size rest ++ zipEnd :: after)
      rw [hcompare, some_bind]
      dsimp only
      rw [← Slot.text]
      by_cases heq : slot.text = vstr
      · rw [if_pos (decide_eq_true heq), if_pos heq]
        simp
      · rw [if_neg (by simpa using heq), if_neg heq, ih hcached' hrest hfuel,
          hstep]
    · rw [ih hcached hrest hfuel, hstep]

theorem ziplistFind_layout {slots : List Slot} {prev : ℕ}
    (hchained : Chained prev slots) (vstr : Bytes) (skip : ℕ)
    (after : Bytes) :
    ziplistFind (layout prev slots ++ zipEnd :: after) vstr skip =
      some ((findPlace (slots.map Slot.text) vstr skip 0).map fun i =>
        totalSize (slots.take i)) := by
  have hfuel : slots.length <
      (layout prev slots ++ zipEnd :: after).length + 1 := by
    have hle := length_le_totalSize slots
    rw [length_append, length_layout]
    omega
  rw [ziplistFind, findLoop_layout (fun hne => absurd rfl hne) hchained skip
    after hfuel]
  simp only [zero_add]

end Find

section Codec

/-- The whole entry for `s` behind an entry of size `prev`. -/
def entryBytes (s : Bytes) (prev : ℕ) : Option Bytes :=
  (entryBody s).map fun body => zipPrevEncodeLength prev ++ body

/-- An entry within a block reads as the string and the back-length it was
written for, and it extends as far as it was written. -/
def Decodes (written s : Bytes) (prev : ℕ) : Prop :=
  ∀ after, (ziplistGet (written ++ after)).map ZlValue.text = some s ∧
    ∃ entry, zipEntry (written ++ after) = some entry ∧
      entry.prevrawlen = prev ∧
      entry.headersize + entry.len = written.length

theorem entryBytes_spec {s : Bytes} {prev : ℕ} (hs : s.length < 2 ^ 32)
    (hprev : prev < 2 ^ 32) :
    ∃ written, entryBytes s prev = some written ∧ Decodes written s prev ∧
      ∀ after, zipRawEntryLength (written ++ after) =
        some (written.length % 2 ^ 32) := by
  obtain ⟨body, value, hbody, hvalue, rfl⟩ := entryBody_spec hs
  have hfits : PrevFits (decide (zipBiglen ≤ prev)) prev :=
    ⟨hprev, fun hwide => by simpa using hwide⟩
  rw [entryBytes, hbody, map_some, zipPrevEncodeLength_eq]
  refine ⟨_, rfl, fun after => ?_, fun after => ?_⟩
  · obtain ⟨entry, hentry, -, hback, hheader, -, hlength⟩ :=
      zipEntry_prevField hfits hvalue after
    rw [append_assoc, ziplistGet_prevField hfits hvalue after, map_some]
    refine ⟨rfl, entry, hentry, hback, ?_⟩
    rw [hheader, length_append, length_prevField, hlength, add_assoc]
  · rw [append_assoc, zipRawEntryLength_prevField hfits hvalue, length_append,
      length_prevField]

/-- `zipRawEntryLength` returns the extent of an entry as an `unsigned int`.
A search compares elements, one out of `skip + 1`. -/
theorem entry_codec_iff (prev : ℕ) (after : Bytes) :
    (∀ s, s.length < 2 ^ 32 → prev < 2 ^ 32 →
      ∃ written, entryBytes s prev = some written ∧ Decodes written s prev ∧
        (zipRawEntryLength (written ++ after) = some written.length ↔
          written.length < 2 ^ 32)) ∧
    ∀ slots vstr skip, Chained prev slots →
      ziplistFind (layout prev slots ++ zipEnd :: after) vstr skip =
        some ((findPlace (slots.map Slot.text) vstr skip 0).map fun i =>
          totalSize (slots.take i)) := by
  constructor
  · intro s hs hprev
    obtain ⟨written, hwritten, hdecodes, hraw⟩ := entryBytes_spec hs hprev
    refine ⟨written, hwritten, hdecodes, ?_⟩
    rw [hraw, some_inj]
    exact Nat.mod_eq_iff_lt (by decide)
  · intro slots vstr skip hchained
    exact ziplistFind_layout hchained vstr skip after

/-- The entry for the longest string is taken for one of 5 bytes. -/
theorem zipRawEntryLength_wraps :
    ∃ s written : Bytes, s.length = 2 ^ 32 - 1 ∧
      entryBytes s 0 = some written ∧
      zipRawEntryLength (written ++ []) = some 5 := by
  have hs : (replicate (2 ^ 32 - 1) (0 : UInt8)).length = 2 ^ 32 - 1 :=
    length_replicate
  -- from here on the string is never evaluated
  generalize replicate (2 ^ 32 - 1) (0 : UInt8) = s at hs
  have hlt : s.length < 2 ^ 32 := by omega
  obtain ⟨written, hwritten, -, hraw⟩ := entryBytes_spec hlt
    (Nat.two_pow_pos 32)
  refine ⟨s, written, hs, hwritten, ?_⟩
  rw [entryBytes, entryBody, zipTryEncoding, if_pos (by omega), map_some,
    some_inj] at hwritten
  rw [hraw, ← hwritten, length_append, length_append, hs]
  rfl

end Codec

end RedisV8.Ziplist
