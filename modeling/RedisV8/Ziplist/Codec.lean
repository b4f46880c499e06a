import RedisV8.Ziplist.Ops

/-!
# The entry codec reads back what it writes

Every string is stored in one of nine forms; `entryBody_spec` says that the
stored bytes decode to the string, and `body_eq_of_text_eq` that an entry of a
given length and first byte is determined by its element.
-/

namespace RedisV8.Ziplist

open Bytes Util List Option UInt8

variable {left ptr right : Bytes} {encoding : UInt8} {len lensize : ℕ}

section Words

theorem be32_eq {b1 b2 b3 b4 : ℕ} (h2 : b2 < 256) (h3 : b3 < 256)
    (h4 : b4 < 256) :
    (b1 <<< 24) ||| (b2 <<< 16) ||| (b3 <<< 8) ||| b4 =
      b1 * 2 ^ 24 + b2 * 2 ^ 16 + b3 * 2 ^ 8 + b4 := by
  have hfirst : (b1 <<< 24) ||| (b2 <<< 16) = (b1 * 2 ^ 8 + b2) <<< 16 := by
    rw [← Nat.shiftLeft_add_eq_or_of_lt (by rw [Nat.shiftLeft_eq]; omega)]
    simp only [Nat.shiftLeft_eq]
    omega
  have hsecond : (b1 * 2 ^ 8 + b2) <<< 16 ||| (b3 <<< 8) =
      (b1 * 2 ^ 16 + b2 * 2 ^ 8 + b3) <<< 8 := by
    rw [← Nat.shiftLeft_add_eq_or_of_lt (by rw [Nat.shiftLeft_eq]; omega)]
    simp only [Nat.shiftLeft_eq]
    omega
  rw [hfirst, hsecond, ← Nat.shiftLeft_add_eq_or_of_lt (by omega)]
  simp only [Nat.shiftLeft_eq]
  omega

theorem be14_eq {high low : ℕ} (hlow : low < 256) :
    (high <<< 8) ||| low = high * 2 ^ 8 + low := by
  rw [← Nat.shiftLeft_add_eq_or_of_lt (by omega), Nat.shiftLeft_eq]

@[simp]
theorem length_signedBytes (width : ℕ) (value : ℤ) :
    (signedBytes width value).length = width := by
  simp [signedBytes]

theorem load_all (word : Bytes) {count : ℕ} (hlength : word.length = count) :
    load word 0 count = some word := by
  have hload := load_append [] word []
  rwa [nil_append, append_nil, length_nil, hlength] at hload

theorem signedWord_signedBytes {width : ℕ} {value : ℤ} (hwidth : 0 < width)
    (hlow : -2 ^ (8 * width - 1) ≤ value) (hhigh : value < 2 ^ (8 * width - 1)) :
    signedWord (signedBytes width value) = value := by
  have hpow : (256 : ℕ) ^ width = 2 ^ (8 * width) := by
    rw [pow_mul]
    rfl
  have hdouble : (2 : ℤ) ^ (8 * width) = 2 * 2 ^ (8 * width - 1) := by
    rw [← pow_succ']
    congr 1
    omega
  have hcast : (2 : ℤ) ^ (8 * width) = ((2 ^ (8 * width) : ℕ) : ℤ) := by
    push_cast
    rfl
  have hpos : (0 : ℤ) < 2 ^ (8 * width) := by positivity
  have hnonneg := Int.emod_nonneg value hpos.ne'
  have hlt := Int.emod_lt_of_pos value hpos
  rw [signedWord, length_signedBytes, signedBytes, leNat_leBytes, hpow,
    Nat.mod_eq_of_lt (by zify [hnonneg]; simpa [hnonneg] using hlt),
    Int.toNat_of_nonneg hnonneg, hcast, Int.emod_bmod, Int.bmod_eq_of_le]
  · push_cast
    omega
  · push_cast
    omega

theorem signedWord_injective (hlength : left.length = right.length)
    (heq : signedWord left = signedWord right) : left = right := by
  apply leNat_injective hlength
  have hleft := leNat_lt left
  have hright := leNat_lt right
  have hpow : (256 : ℕ) ^ right.length = 2 ^ (8 * right.length) := by
    rw [pow_mul]
    rfl
  rw [signedWord, signedWord, hlength] at heq
  have hmod := congrArg (· % ((2 ^ (8 * right.length) : ℕ) : ℤ)) heq
  simp only [Int.bmod_emod] at hmod
  rw [hlength, hpow] at hleft
  rw [hpow] at hright
  rw [Int.emod_eq_of_lt (by positivity) (by exact_mod_cast hleft),
    Int.emod_eq_of_lt (by positivity) (by exact_mod_cast hright)] at hmod
  exact_mod_cast hmod

/-- The three-byte form keeps the value in the high part of a 32-bit word. -/
theorem signedWord_cons_zero_div {word : Bytes} (hlength : word.length = 3) :
    signedWord (0 :: word) / 2 ^ 8 = signedWord word := by
  have hlt := leNat_lt word
  rw [hlength] at hlt
  simp only [signedWord, length_cons, hlength, leNat_cons,
    UInt8.toNat_zero, zero_add]
  rw [Int.bmod_def, Int.bmod_def]
  push_cast
  split <;> split <;> omega

theorem drop_signedBytes_shift {value : ℤ} :
    (signedBytes 4 (value * 2 ^ 8)).drop 1 = signedBytes 3 value := by
  have hmod : (value * 2 ^ 8 % 2 ^ (8 * 4)).toNat / 256 =
      (value % 2 ^ (8 * 3)).toNat := by
    omega
  rw [signedBytes, leBytes_succ, drop_one, tail_cons, hmod, signedBytes]

end Words

section Encoding

/-- The number of bytes of a length behind its first byte. -/
def wordSize (encoding : UInt8) : ℕ :=
  if encoding = zipStr14B then 1 else if encoding = zipStr32B then 4 else 0

/-- The length that a first byte and those behind it, the most significant
first, stand for. -/
def lengthOf (byte : UInt8) (word : Bytes) : ℕ :=
  if zipIsStr (zipEntryEncoding byte) then
    if zipEntryEncoding byte = zipStr32B then leNat word.reverse
    else (byte &&& 0x3f).toNat * 256 ^ word.length + leNat word.reverse
  else zipIntSize (zipEntryEncoding byte)

theorem zipEntryEncoding_cases :
    ∀ byte : UInt8, zipEntryEncoding byte = zipStr06B ∨
      zipEntryEncoding byte = zipStr14B ∨ zipEntryEncoding byte = zipStr32B ∨
      (¬ zipEntryEncoding byte < zipStrMask ∧
        zipIsStr (zipEntryEncoding byte) = false) := by
  decide +kernel

theorem wordSize_of_int :
    ∀ {byte : UInt8}, zipIsStr (zipEntryEncoding byte) = false →
      wordSize (zipEntryEncoding byte) = 0 := by
  decide +kernel

/-- What `ZIP_DECODE_LENGTH` finds. -/
theorem zipDecodeLength_cons (byte : UInt8) (tail : Bytes) :
    zipDecodeLength (byte :: tail) =
      if wordSize (zipEntryEncoding byte) ≤ tail.length then
        some (zipEntryEncoding byte, wordSize (zipEntryEncoding byte) + 1,
          lengthOf byte (tail.take (wordSize (zipEntryEncoding byte))))
      else none := by
  rw [zipDecodeLength, lengthOf]
  simp only [getElem?_cons_zero, some_bind, getElem?_cons_succ]
  rcases zipEntryEncoding_cases byte with henc | henc | henc | ⟨hmask, hint⟩
  · rw [henc]
    simp +decide [wordSize]
  · rw [henc]
    cases tail with
    | nil => rfl
    | cons low rest => simp +decide [wordSize, be14_eq low.toNat_lt]
  · rw [henc]
    rcases tail with _ | ⟨b1, _ | ⟨b2, _ | ⟨b3, _ | ⟨b4, rest⟩⟩⟩⟩
    iterate 4 rfl
    simp +decide [wordSize, be32_eq b2.toNat_lt b3.toNat_lt b4.toNat_lt]
    omega
  · simp [hmask, hint, wordSize_of_int hint]

/-- A decoded length field is its first byte and the bytes that this asks
for. -/
theorem zipDecodeLength_cases
    (hdecode : zipDecodeLength ptr = some (encoding, lensize, len)) :
    ∃ byte word rest, ptr = byte :: (word ++ rest) ∧
      encoding = zipEntryEncoding byte ∧ word.length = wordSize encoding ∧
      lensize = wordSize encoding + 1 ∧ len = lengthOf byte word := by
  cases ptr with
  | nil => cases hdecode
  | cons byte tail =>
    rw [zipDecodeLength_cons] at hdecode
    split_ifs at hdecode with hle
    cases hdecode
    exact ⟨byte, _, _, by rw [take_append_drop], rfl, length_take_of_le hle,
      rfl, rfl⟩

theorem zipDecodeLength_word {byte : UInt8} {word : Bytes}
    (hword : word.length = wordSize (zipEntryEncoding byte)) (after : Bytes) :
    zipDecodeLength (byte :: (word ++ after)) =
      some (zipEntryEncoding byte, word.length + 1, lengthOf byte word) := by
  rw [zipDecodeLength_cons, ← hword, if_pos (by simp), take_left]

theorem zipDecodeLength_append {result : UInt8 × ℕ × ℕ}
    (hdecode : zipDecodeLength ptr = some result) (after : Bytes) :
    zipDecodeLength (ptr ++ after) = some result := by
  obtain ⟨byte, word, rest, rfl, henc, hword, -⟩ :=
    zipDecodeLength_cases hdecode
  rw [henc] at hword
  rw [← hdecode, cons_append, append_assoc, zipDecodeLength_word hword,
    zipDecodeLength_word hword]

/-- The length field is read from its own bytes only. -/
theorem zipDecodeLength_take
    (hdecode : zipDecodeLength ptr = some (encoding, lensize, len)) :
    zipDecodeLength (ptr.take lensize) = some (encoding, lensize, len) := by
  obtain ⟨byte, word, rest, rfl, rfl, hword, rfl, -⟩ :=
    zipDecodeLength_cases hdecode
  have htake := zipDecodeLength_word hword []
  rw [append_nil] at htake
  rw [← hdecode, take_succ_cons, ← hword, take_left, htake,
    zipDecodeLength_word hword]

theorem bodyValue_spec {body : Bytes} {value : ZlValue}
    (hvalue : bodyValue body = some value) :
    ∃ encoding lensize len,
      zipDecodeLength body = some (encoding, lensize, len) ∧
      body.length = lensize + len ∧
      ((zipIsStr encoding = true ∧ value = .str (body.drop lensize)) ∨
        (zipIsStr encoding = false ∧ ∃ number,
          zipLoadInteger (body.drop lensize) encoding = some number ∧
          value = .int number)) := by
  simp only [bodyValue, bind_eq_bind, bind_eq_some_iff] at hvalue
  obtain ⟨⟨encoding, lensize, len⟩, hdecode, hrest⟩ := hvalue
  refine ⟨encoding, lensize, len, hdecode, ?_⟩
  dsimp only at hrest
  split_ifs at hrest with hlength hstr
  · cases hrest
    exact ⟨hlength, .inl ⟨hstr, rfl⟩⟩
  · obtain ⟨number, hload, heq⟩ := map_eq_some_iff.1 hrest
    exact ⟨hlength, .inr ⟨Bool.eq_false_iff.2 hstr, number, hload, heq.symm⟩⟩

theorem length_pos_of_bodyValue {body : Bytes} {value : ZlValue}
    (hvalue : bodyValue body = some value) : 0 < body.length := by
  obtain ⟨encoding, lensize, len, hdecode, -⟩ := bodyValue_spec hvalue
  cases body with
  | nil => cases hdecode
  | cons byte rest => simp

theorem load_append_left {block : Bytes} {offset count : ℕ} {data : Bytes}
    (hload : load block offset count = some data) (after : Bytes) :
    load (block ++ after) offset count = some data := by
  unfold load at hload ⊢
  split_ifs at hload with hle
  rw [if_pos (by rw [length_append]; omega), ← hload,
    drop_append_of_le_length (by omega),
    take_append_of_le_length (by rw [length_drop]; omega)]

theorem zipLoadInteger_append {value : ℤ}
    (hload : zipLoadInteger ptr encoding = some value) (after : Bytes) :
    zipLoadInteger (ptr ++ after) encoding = some value := by
  have hmap : ∀ {count : ℕ} {f : Bytes → ℤ},
      (load ptr 0 count).map f = some value →
      (load (ptr ++ after) 0 count).map f = some value := by
    intro count f hsome
    obtain ⟨word, hword, heq⟩ := map_eq_some_iff.1 hsome
    rw [load_append_left hword, map_some, heq]
  unfold zipLoadInteger at hload ⊢
  split_ifs at hload ⊢
  iterate 5 exact hmap hload
  exact hload

end Encoding

section Header

/-- The size of a back-length field in its short or its wide form. -/
def prevSize (wide : Bool) : ℕ := if wide then 5 else 1

def prevField (wide : Bool) (prev : ℕ) : Bytes :=
  if wide then zipPrevEncodeLengthForceLarge prev else [ofNat prev]

/-- A back-length that the field can hold. -/
def PrevFits (wide : Bool) (prev : ℕ) : Prop :=
  prev < 2 ^ 32 ∧ (wide = false → prev < zipBiglen)

@[simp]
theorem length_prevField (wide : Bool) (prev : ℕ) :
    (prevField wide prev).length = prevSize wide := by
  cases wide <;> simp [prevField, prevSize, zipPrevEncodeLengthForceLarge]

theorem drop_prevField (wide : Bool) (prev : ℕ) (after : Bytes) :
    (prevField wide prev ++ after).drop (prevSize wide) = after :=
  drop_left' (length_prevField wide prev)

theorem zipPrevEncodeLength_eq (len : ℕ) :
    zipPrevEncodeLength len = prevField (decide (zipBiglen ≤ len)) len := by
  unfold zipPrevEncodeLength prevField
  by_cases hlt : len < zipBiglen
  · simp [hlt]
  · simp [hlt, Nat.not_lt.1 hlt, zipPrevEncodeLengthForceLarge]

theorem zipPrevEncodeSize_eq (len : ℕ) :
    zipPrevEncodeSize len = prevSize (decide (zipBiglen ≤ len)) := by
  unfold zipPrevEncodeSize prevSize
  by_cases hlt : len < zipBiglen
  · simp [hlt]
  · simp [hlt, Nat.not_lt.1 hlt]

variable {wide : Bool} {prev : ℕ} {body after : Bytes} {value : ZlValue}

theorem head_prevField (hfits : PrevFits wide prev) :
    ∃ byte rest, prevField wide prev = byte :: rest ∧ byte ≠ zipEnd ∧
      (byte.toNat < zipBiglen ↔ wide = false) := by
  cases wide with
  | true => exact ⟨254, leBytes 4 prev, rfl, by decide, by decide⟩
  | false =>
    have hlt : prev < 254 := hfits.2 rfl
    have hmod : (ofNat prev).toNat = prev := by
      rw [toNat_ofNat']
      omega
    refine ⟨ofNat prev, [], rfl, ?_, by simp [hmod, hlt, zipBiglen]⟩
    intro heq
    rw [heq] at hmod
    have : zipEnd.toNat = 255 := rfl
    omega

theorem zipDecodePrevlensize_prevField (hfits : PrevFits wide prev)
    (after : Bytes) :
    zipDecodePrevlensize (prevField wide prev ++ after) = some (prevSize wide) := by
  obtain ⟨byte, rest, heq, -, hbig⟩ := head_prevField hfits
  rw [heq]
  cases wide with
  | true | false => simp [zipDecodePrevlensize, hbig, prevSize]

theorem zipDecodePrevlen_prevField (hfits : PrevFits wide prev)
    (after : Bytes) :
    zipDecodePrevlen (prevField wide prev ++ after) =
      some (prevSize wide, prev) := by
  rw [zipDecodePrevlen, zipDecodePrevlensize_prevField hfits]
  cases wide with
  | true =>
    have hload := load_append [ofNat zipBiglen] (leBytes 4 prev) after
    rw [length_singleton, length_leBytes] at hload
    simp only [prevField, prevSize, if_true, zipPrevEncodeLengthForceLarge,
      some_bind, cons_append]
    simp only [cons_append, nil_append] at hload
    simpa [hload, leNat_leBytes] using hfits.1
  | false =>
    have hlt : prev < 254 := hfits.2 rfl
    have hmod : prev % 256 = prev := by omega
    simp [prevField, prevSize, hmod]

/-- A stored entry decodes to its back-length and its extent. -/
theorem zipEntry_prevField (hfits : PrevFits wide prev)
    (hvalue : bodyValue body = some value) (after : Bytes) :
    ∃ entry, zipEntry (prevField wide prev ++ (body ++ after)) = some entry ∧
      entry.prevrawlensize = prevSize wide ∧ entry.prevrawlen = prev ∧
      entry.headersize = prevSize wide + entry.lensize ∧
      zipDecodeLength body = some (entry.encoding, entry.lensize, entry.len) ∧
      body.length = entry.lensize + entry.len := by
  obtain ⟨encoding, lensize, len, hdecode, hlength, -⟩ := bodyValue_spec hvalue
  rw [zipEntry, zipDecodePrevlen_prevField hfits]
  simp only [some_bind, drop_prevField, zipDecodeLength_append hdecode]
  exact ⟨_, rfl, rfl, rfl, rfl, hdecode, hlength⟩

theorem zipRawEntryLength_prevField (hfits : PrevFits wide prev)
    (hvalue : bodyValue body = some value) (after : Bytes) :
    zipRawEntryLength (prevField wide prev ++ (body ++ after)) =
      some ((prevSize wide + body.length) % 2 ^ 32) := by
  obtain ⟨encoding, lensize, len, hdecode, hlength, -⟩ := bodyValue_spec hvalue
  rw [zipRawEntryLength, zipDecodePrevlensize_prevField hfits]
  simp only [some_bind, drop_prevField, zipDecodeLength_append hdecode]
  rw [hlength, add_assoc]

theorem ziplistGet_prevField (hfits : PrevFits wide prev)
    (hvalue : bodyValue body = some value) (after : Bytes) :
    ziplistGet (prevField wide prev ++ (body ++ after)) = some value := by
  obtain ⟨byte, rest, heq, hend, -⟩ := head_prevField hfits
  obtain ⟨entry, hentry, -, -, hheader, hdecode, hlength⟩ :=
    zipEntry_prevField hfits hvalue after
  obtain ⟨encoding, lensize, len, hdecode', hlength', hcases⟩ :=
    bodyValue_spec hvalue
  rw [hdecode] at hdecode'
  cases hdecode'
  have hdrop : (prevField wide prev ++ (body ++ after)).drop entry.headersize =
      body.drop entry.lensize ++ after := by
    rw [hheader, ← length_prevField wide prev, drop_length_add_append,
      drop_append_of_le_length (by omega)]
  have hhead : (prevField wide prev ++ (body ++ after))[0]? = some byte := by
    rw [heq]
    rfl
  rw [ziplistGet, hhead, hentry]
  simp only [some_bind, hend, if_false]
  rcases hcases with ⟨hstr, rfl⟩ | ⟨hint, number, hload, rfl⟩
  · have hload : load (prevField wide prev ++ (body ++ after)) entry.headersize
        entry.len = some (body.drop entry.lensize) := by
      rw [load, if_pos (by simp only [length_append, length_prevField]; omega),
        hdrop, take_left' (by rw [length_drop]; omega)]
    rw [if_pos hstr, hload, map_some]
  · rw [if_neg (by simp [hint]), hdrop, zipLoadInteger_append hload,
      map_some]

end Header

section Roundtrip

theorem zipDecodeLength_zipEncodeLength {rawlen : ℕ} (hlen : rawlen < 2 ^ 32)
    (after : Bytes) :
    ∃ encoding, zipIsStr encoding = true ∧
      zipDecodeLength (zipEncodeLength 0 rawlen ++ after) =
        some (encoding, (zipEncodeLength 0 rawlen).length, rawlen) := by
  have hdecode (byte : UInt8) (word : Bytes) {encoding : UInt8}
      (henc : zipEntryEncoding byte = encoding)
      (hstr : zipIsStr encoding = true) (hword : word.length = wordSize encoding)
      (hvalue : lengthOf byte word = rawlen) :
      ∃ encoding, zipIsStr encoding = true ∧
        zipDecodeLength (byte :: word ++ after) =
          some (encoding, (byte :: word).length, rawlen) := by
    subst henc hvalue
    exact ⟨_, hstr, zipDecodeLength_word hword after⟩
  unfold zipEncodeLength
  rw [if_pos (by decide)]
  split_ifs with h06 h14
  · have hbyte : ∀ len < 64,
        zipEntryEncoding (zipStr06B ||| ofNat len) = zipStr06B ∧
        ((zipStr06B ||| ofNat len) &&& 0x3f).toNat = len := by
      decide +kernel
    obtain ⟨henc, hlow⟩ := hbyte rawlen (by omega)
    refine hdecode _ _ henc rfl rfl ?_
    rw [lengthOf, henc, hlow]
    simp +decide
  · have hbyte : ∀ high < 64,
        zipEntryEncoding (zipStr14B ||| (ofNat high &&& 0x3f)) =
          zipStr14B ∧
        ((zipStr14B ||| (ofNat high &&& 0x3f)) &&& 0x3f).toNat = high := by
      decide +kernel
    have hhigh : rawlen >>> 8 = rawlen / 2 ^ 8 := Nat.shiftRight_eq_div_pow _ _
    obtain ⟨henc, hlow⟩ := hbyte (rawlen >>> 8) (by omega)
    refine hdecode _ _ henc rfl rfl ?_
    rw [lengthOf, henc, hlow, hhigh]
    simp +decide
    omega
  · refine hdecode zipStr32B _ rfl rfl rfl ?_
    simp +decide [lengthOf, Nat.shiftRight_eq_div_pow]
    omega

/-- The value stored under an integer encoding is the value loaded from it. -/
theorem zipTryEncoding_spec {s : Bytes} {value : ℤ}
    (htry : zipTryEncoding s = some (value, encoding)) :
    string2ll s = some value ∧ zipIsStr encoding = false ∧
      zipEntryEncoding encoding = encoding ∧
      ∃ payload, zipSaveInteger value encoding = some payload ∧
        payload.length = zipIntSize encoding ∧
        zipLoadInteger payload encoding = some value := by
  unfold zipTryEncoding at htry
  split_ifs at htry with hlength
  obtain ⟨number, hparse, hrest⟩ := bind_eq_some_iff.1 htry
  obtain ⟨-, hmin, hmax⟩ := string2ll_sound hparse
  simp only [llongMin, llongMax] at hmin hmax
  have hword : ∀ width : ℕ, 0 < width →
      -2 ^ (8 * width - 1) ≤ number → number < 2 ^ (8 * width - 1) →
      (load (signedBytes width number) 0 width).map signedWord =
        some number := by
    intro width hpos hlow hhigh
    rw [load_all _ (length_signedBytes width number), map_some,
      signedWord_signedBytes hpos hlow hhigh]
  split_ifs at hrest with himm h8 h16 h24 h32
  · obtain ⟨hlow, hhigh⟩ := himm
    cases hrest
    refine ⟨hparse, ?_⟩
    clear hparse htry hword hmin hmax
    interval_cases value <;> exact ⟨by decide, by decide, [], by decide⟩
  · cases hrest
    exact ⟨hparse, by decide, by decide, signedBytes 1 value, rfl, rfl,
      hword 1 (by omega) (by omega) (by omega)⟩
  · cases hrest
    exact ⟨hparse, by decide, by decide, signedBytes 2 value, rfl, rfl,
      hword 2 (by omega) (by omega) (by omega)⟩
  · cases hrest
    refine ⟨hparse, by decide, by decide, signedBytes 3 value, ?_, rfl, ?_⟩
    · rw [← drop_signedBytes_shift]
      rfl
    change (load (signedBytes 3 value) 0 3).map
      (fun word => signedWord (0 :: word) / 2 ^ 8) = some value
    rw [load_all _ (length_signedBytes 3 value), map_some,
      signedWord_cons_zero_div (length_signedBytes 3 value),
      signedWord_signedBytes (by omega) (by omega) (by omega)]
  · cases hrest
    exact ⟨hparse, by decide, by decide, signedBytes 4 value, rfl, rfl,
      hword 4 (by omega) (by omega) (by omega)⟩
  · cases hrest
    exact ⟨hparse, by decide, by decide, signedBytes 8 value, rfl, rfl,
      hword 8 (by omega) (by omega) (by omega)⟩

/-- What is written for a string reads back as that string. -/
theorem entryBody_spec {s : Bytes} (hlen : s.length < 2 ^ 32) :
    ∃ body value, entryBody s = some body ∧ bodyValue body = some value ∧
      value.text = s := by
  unfold entryBody
  cases htry : zipTryEncoding s with
  | none =>
    obtain ⟨encoding, hstr, hdecode⟩ :=
      zipDecodeLength_zipEncodeLength hlen s
    refine ⟨_, .str s, rfl, ?_, rfl⟩
    simp only [bodyValue, hdecode, some_bind,
      length_append, hstr, if_true, drop_left]
  | some result =>
    obtain ⟨value, encoding⟩ := result
    obtain ⟨hparse, hint, hself, payload, hsave, hlength, hload⟩ :=
      zipTryEncoding_spec htry
    have henc : zipEncodeLength encoding s.length = [encoding] := by
      simp [zipEncodeLength, hint]
    have hdecode : zipDecodeLength (encoding :: payload) =
        some (encoding, 1, zipIntSize encoding) := by
      rw [← hself] at hint
      rw [zipDecodeLength_cons, wordSize_of_int hint, lengthOf, hint, hself]
      rfl
    refine ⟨encoding :: payload, .int value, ?_, ?_, ?_⟩
    · simp only [hsave, henc, some_bind, singleton_append]
    · have hlength' : (encoding :: payload).length =
          1 + zipIntSize encoding := by
        rw [length_cons, hlength, add_comm]
      simp only [bodyValue, hdecode, some_bind,
        hlength', if_true, hint, Bool.false_eq_true, if_false,
        drop_one, tail_cons, hload, map_some]
    · exact (string2ll_sound hparse).1.symm

/-- A loaded integer is an immediate or the signed word of its payload. -/
theorem zipLoadInteger_cases {value : ℤ}
    (hlength : ptr.length = zipIntSize encoding)
    (hload : zipLoadInteger ptr encoding = some value) :
    (ptr = [] ∧ 0 ≤ value + 1 ∧ value ≤ 14) ∨
      (value = signedWord ptr ∧ 0 < ptr.length ∧ ptr.length ≤ 8) := by
  have hword : ∀ count : ℕ, 0 < count → count ≤ 8 → ptr.length = count →
      (load ptr 0 count).map signedWord = some value →
      value = signedWord ptr ∧ 0 < ptr.length ∧ ptr.length ≤ 8 := by
    intro count hpos hle hcount hsome
    rw [load_all ptr hcount, map_some, some_inj] at hsome
    exact ⟨hsome.symm, by omega, by omega⟩
  unfold zipLoadInteger at hload
  split_ifs at hload with h8 h16 h32 h24 h64 himm
  · rw [h8] at hlength
    exact .inr (hword 1 (by omega) (by omega) hlength hload)
  · rw [h16] at hlength
    exact .inr (hword 2 (by omega) (by omega) hlength hload)
  · rw [h32] at hlength
    exact .inr (hword 4 (by omega) (by omega) hlength hload)
  · rw [h24] at hlength
    have hthree : ptr.length = 3 := hlength
    rw [load_all ptr hthree, map_some, some_inj,
      signedWord_cons_zero_div hthree] at hload
    exact .inr ⟨hload.symm, by omega, by omega⟩
  · rw [h64] at hlength
    exact .inr (hword 8 (by omega) (by omega) hlength hload)
  · rw [zipIntSize, if_neg h8, if_neg h16, if_neg h24, if_neg h32,
      if_neg h64] at hlength
    have hmask : (encoding &&& 0x0f).toNat ≤ 15 := by
      rw [UInt8.toNat_and]
      exact Nat.and_le_right
    cases hload
    exact .inl ⟨length_eq_zero_iff.1 hlength, by omega, by omega⟩

theorem zipLoadInteger_range {value : ℤ}
    (hlength : ptr.length = zipIntSize encoding)
    (hload : zipLoadInteger ptr encoding = some value) :
    llongMin ≤ value ∧ value ≤ llongMax := by
  simp only [llongMin, llongMax]
  rcases zipLoadInteger_cases hlength hload with ⟨-, hlow, hhigh⟩ | ⟨rfl, hpos, hle⟩
  · exact ⟨by omega, by omega⟩
  have hpow : 2 ^ (8 * ptr.length) ≤ 2 ^ 64 :=
    Nat.pow_le_pow_right (by omega) (by omega)
  have hmin := Int.le_bmod (x := leNat ptr)
    (m := 2 ^ (8 * ptr.length)) (by positivity)
  have hmax := Int.bmod_le (x := leNat ptr)
    (m := 2 ^ (8 * ptr.length)) (by positivity)
  rw [signedWord]
  omega

/-- The payload of an integer entry is determined by the integer. -/
theorem zipLoadInteger_injective {value : ℤ}
    (hleft : left.length = zipIntSize encoding)
    (hright : right.length = zipIntSize encoding)
    (hload : zipLoadInteger left encoding = some value)
    (hload' : zipLoadInteger right encoding = some value) : left = right := by
  have hlength : left.length = right.length := hleft.trans hright.symm
  rcases zipLoadInteger_cases hleft hload with ⟨rfl, -⟩ | ⟨heq, hpos, -⟩
  · exact (length_eq_zero_iff.1 hlength.symm).symm
  rcases zipLoadInteger_cases hright hload' with ⟨rfl, -⟩ | ⟨heq', -⟩
  · rw [length_nil] at hlength
    omega
  · exact signedWord_injective hlength (heq.symm.trans heq')

theorem zipDecodeLength_int
    (hdecode : zipDecodeLength ptr = some (encoding, lensize, len))
    (hint : zipIsStr encoding = false) :
    lensize = 1 ∧ len = zipIntSize encoding := by
  obtain ⟨byte, word, rest, rfl, rfl, -, rfl, rfl⟩ :=
    zipDecodeLength_cases hdecode
  rw [wordSize_of_int hint, lengthOf, hint]
  exact ⟨rfl, rfl⟩

theorem lengthOf_injective {byte : UInt8} {word word' : Bytes}
    (hword : word.length = wordSize (zipEntryEncoding byte))
    (hword' : word'.length = wordSize (zipEntryEncoding byte))
    (heq : lengthOf byte word = lengthOf byte word') : word = word' := by
  have hlength : word.length = word'.length := hword.trans hword'.symm
  cases hstr : zipIsStr (zipEntryEncoding byte) with
  | false =>
    rw [wordSize_of_int hstr] at hword hword'
    rw [length_eq_zero_iff.1 hword, length_eq_zero_iff.1 hword']
  | true =>
    apply reverse_injective
    apply leNat_injective (by simpa using hlength)
    rw [lengthOf, lengthOf, if_pos hstr, if_pos hstr, hlength] at heq
    split at heq <;> omega

/-- The length field is determined by its first byte and the length. -/
theorem zipDecodeLength_header {encoding' : UInt8} {lensize' len' : ℕ}
    (hleft : zipDecodeLength left = some (encoding, lensize, len))
    (hright : zipDecodeLength right = some (encoding', lensize', len'))
    (hhead : left.head? = right.head?)
    (hlen : lensize + len = lensize' + len') :
    encoding = encoding' ∧ lensize = lensize' ∧
      left.take lensize = right.take lensize := by
  obtain ⟨byte, word, rest, rfl, rfl, hword, rfl, rfl⟩ :=
    zipDecodeLength_cases hleft
  obtain ⟨byte', word', rest', rfl, rfl, hword', rfl, rfl⟩ :=
    zipDecodeLength_cases hright
  obtain rfl : byte = byte' := some_inj.1 hhead
  obtain rfl := lengthOf_injective hword hword' (by omega)
  rw [take_succ_cons, take_succ_cons, ← hword, take_left, take_left]
  exact ⟨rfl, rfl, rfl⟩

/-- Two entry bodies of one length that start with the same byte and hold the
same element are equal. -/
theorem body_eq_of_text_eq {value value' : ZlValue}
    (hleft : bodyValue left = some value)
    (hright : bodyValue right = some value')
    (hhead : left.head? = right.head?) (hlength : left.length = right.length)
    (htext : value.text = value'.text) : left = right := by
  obtain ⟨enc, lensize, len, hdec, hlen, hcase⟩ := bodyValue_spec hleft
  obtain ⟨enc', lensize', len', hdec', hlen', hcase'⟩ := bodyValue_spec hright
  obtain ⟨rfl, rfl, htake⟩ :=
    zipDecodeLength_header hdec hdec' hhead (by omega)
  have hdrop : left.drop lensize = right.drop lensize := by
    rcases hcase with ⟨hstr, rfl⟩ | ⟨hint, number, hload, rfl⟩
    · rcases hcase' with ⟨-, rfl⟩ | ⟨hint', -⟩
      · exact htext
      · rw [hstr] at hint'
        cases hint'
    rcases hcase' with ⟨hstr', -⟩ | ⟨-, number', hload', rfl⟩
    · rw [hint] at hstr'
      cases hstr'
    have hsize := (zipDecodeLength_int hdec hint).2
    have hpayload : (left.drop lensize).length = zipIntSize enc := by
      rw [length_drop]
      omega
    have hpayload' : (right.drop lensize).length = zipIntSize enc := by
      rw [length_drop]
      omega
    obtain ⟨hmin, hmax⟩ := zipLoadInteger_range hpayload hload
    obtain ⟨hmin', hmax'⟩ := zipLoadInteger_range hpayload' hload'
    obtain rfl := llText_injective hmin hmax hmin' hmax' htext
    exact zipLoadInteger_injective hpayload hpayload' hload hload'
  rw [← take_append_drop lensize left, htake, hdrop, take_append_drop]

end Roundtrip

end RedisV8.Ziplist
