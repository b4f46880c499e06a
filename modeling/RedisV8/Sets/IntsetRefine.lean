import RedisV8.Lib.Cells
import RedisV8.Lib.Splits
import RedisV8.Sets.Intset

/-!
# Integer sets hold ordered lists of integers

The block of an integer set is an array of equal cells in increasing order.
Searching, adding and removing are those of the ordered list, and no access
leaves the block, as long as its size fits a `uint32_t` with one more entry in
the widest encoding.
-/

namespace RedisV8.Sets

open Bytes Util Cells RedisV8.Splits List Option Encoding
open Ziplist (signedBytes signedWord signedWord_signedBytes length_signedBytes)

/-- The value can be stored in the encoding. -/
def Encoding.Fits (enc : Encoding) (v : ℤ) : Prop :=
  -2 ^ (8 * enc.size - 1) ≤ v ∧ v < 2 ^ (8 * enc.size - 1)

/-- The cell of a value. -/
def Encoding.cell (enc : Encoding) (v : ℤ) : Bytes := signedBytes enc.size v

/-- The set holds the values, in this order. -/
structure Intset.Holds (is : Intset) (vs : List ℤ) : Prop where
  length_eq : is.length = vs.length
  contents_eq : is.contents = pack is.encoding.cell vs
  fits : ∀ v ∈ vs, is.encoding.Fits v
  sorted : vs.Pairwise (· < ·)

/-- One more entry of the widest encoding would still fit. -/
def Small (vs : List ℤ) : Prop := (vs.length + 1) * 8 < 2 ^ 32

section Cells

variable {enc : Encoding} {v : ℤ}

theorem size_le (enc : Encoding) : enc.size ≤ 8 := by
  cases enc <;> decide

theorem size_pos (enc : Encoding) : 0 < enc.size := by
  cases enc <;> decide

theorem length_cell (enc : Encoding) (v : ℤ) : (enc.cell v).length = enc.size :=
  length_signedBytes _ _

theorem signedWord_cell (hfits : enc.Fits v) : signedWord (enc.cell v) = v :=
  signedWord_signedBytes (size_pos enc) hfits.1 hfits.2

theorem fits_valueEncoding (hv : int64.Fits v) :
    (intsetValueEncoding v).Fits v := by
  simp only [Encoding.Fits, size] at hv
  rw [intsetValueEncoding]
  split_ifs <;> simp only [Encoding.Fits, size] <;> omega

theorem fits_iff (hv : int64.Fits v) :
    enc.Fits v ↔ (intsetValueEncoding v).size ≤ enc.size := by
  simp only [Encoding.Fits, size] at hv
  rw [intsetValueEncoding]
  cases enc <;> split_ifs <;> simp only [Encoding.Fits, size] <;> omega

theorem fits_mono {enc' : Encoding} (hle : enc.size ≤ enc'.size)
    (hfits : enc.Fits v) : enc'.Fits v := by
  cases enc <;> cases enc' <;>
    simp only [Encoding.Fits, size] at hfits hle ⊢ <;> omega

theorem fits_int64 (hfits : enc.Fits v) : int64.Fits v :=
  fits_mono (size_le enc) hfits

end Cells

section Access

variable {is : Intset} {vs : List ℤ}

theorem Intset.getEncoded_eq (is : Intset) {n : ℕ} (hn : n < 2 ^ 31) (enc : Encoding) :
    is.getEncoded n enc =
      (load is.contents (n * enc.size) enc.size).map signedWord := by
  rw [getEncoded, toInt_eq (by omega) (by omega), if_neg (by omega), Int.toNat_natCast]

theorem Intset.setAt_eq (is : Intset) {n : ℕ} (hn : n < 2 ^ 31) (value : ℤ) :
    is.setAt n value =
      (store is.contents (n * is.encoding.size) (is.encoding.cell value)).map
        fun contents => { is with contents } := by
  rw [setAt, toInt_eq (by omega) (by omega), if_neg (by omega), Int.toNat_natCast,
    map_eq_bind]
  rfl

theorem Small.lt (hsmall : Small vs) : vs.length < 2 ^ 29 := by
  rw [Small] at hsmall
  omega

theorem Intset.Holds.getAt (hholds : is.Holds vs) (hlt : vs.length < 2 ^ 31)
    {n : ℕ} (hn : n < vs.length) : is.getAt n = some vs[n] := by
  obtain ⟨pre, v, post, rfl, rfl⟩ := exists_split hn
  have hload := load_pack (length_cell is.encoding) pre v
    (pack is.encoding.cell post)
  rw [Intset.getAt, Intset.getEncoded_eq _ (by omega), hholds.contents_eq,
    pack_append, pack_cons, hload, map_some,
    signedWord_cell (hholds.fits v (by simp))]
  simp

theorem Intset.Holds.getElem_le (hholds : is.Holds vs) {i j : ℕ}
    (hi : i < vs.length) (hj : j < vs.length) (hle : i ≤ j) :
    vs[i] ≤ vs[j] := by
  obtain rfl | hlt := hle.eq_or_lt
  · exact le_rfl
  · exact (pairwise_iff_getElem.1 hholds.sorted i j hi hj hlt).le

end Access

/-! ## Searching -/

section Search

/-- Where a search ends: at the value, or between the smaller and the larger
values. -/
def Searched (vs : List ℤ) (value : ℤ) : Bool × ℕ → Prop
  | (true, pos) => ∃ pre post, vs = pre ++ value :: post ∧ pre.length = pos
  | (false, pos) =>
    ∃ pre post, vs = pre ++ post ∧ pre.length = pos ∧
      (∀ v ∈ pre, v < value) ∧ ∀ v ∈ post, value < v

variable {is : Intset} {vs : List ℤ} {value : ℤ}

theorem searched_of_get {pos : ℕ} (hpos : pos < vs.length)
    (hget : vs[pos] = value) : Searched vs value (true, pos) := by
  obtain ⟨pre, v, post, rfl, rfl⟩ := exists_split hpos
  have hv : v = value := by simpa using hget
  exact ⟨pre, post, by rw [hv], rfl⟩

theorem searched_of_between {pos : ℕ} (hpos : pos ≤ vs.length)
    (hbelow : ∀ i, (hi : i < vs.length) → i < pos → vs[i] < value)
    (habove : ∀ i, (hi : i < vs.length) → pos ≤ i → value < vs[i]) :
    Searched vs value (false, pos) := by
  refine ⟨vs.take pos, vs.drop pos, (take_append_drop pos vs).symm,
    length_take_of_le hpos, ?_, ?_⟩
  · intro v hv
    obtain ⟨i, hi, rfl⟩ := mem_iff_getElem.1 hv
    rw [length_take] at hi
    rw [getElem_take]
    exact hbelow i (by omega) (by omega)
  intro v hv
  obtain ⟨i, hi, rfl⟩ := mem_iff_getElem.1 hv
  rw [length_drop] at hi
  rw [getElem_drop]
  exact habove (pos + i) (by omega) (by omega)

theorem Searched.mem_iff {found : Bool} {pos : ℕ}
    (hsearched : Searched vs value (found, pos)) :
    value ∈ vs ↔ found = true := by
  cases found with
  | true =>
    obtain ⟨pre, post, rfl, -⟩ := hsearched
    simp
  | false =>
    obtain ⟨pre, post, rfl, -, hpre, hpost⟩ := hsearched
    refine iff_of_false ?_ Bool.false_ne_true
    rw [mem_append]
    rintro (hmem | hmem)
    · exact lt_irrefl _ (hpre _ hmem)
    · exact lt_irrefl _ (hpost _ hmem)

/-- The loop of `intsetSearch`: smaller values lie below `lo`, larger ones from
`hi` on. -/
theorem searchLoop_spec (hholds : is.Holds vs) (hsmall : Small vs)
    (fuel lo hi : ℕ) (mid cur : ℤ) (hfuel : hi - lo < fuel) (hlo : lo ≤ hi)
    (hhi : hi ≤ vs.length)
    (hbelow : ∀ i, (hi : i < vs.length) → i < lo → vs[i] < value)
    (habove : ∀ i, (hi' : i < vs.length) → hi ≤ i → value < vs[i])
    (hcur : lo = hi → value ≠ cur) :
    ∃ min mid' cur',
      searchLoop is value fuel lo (hi - 1 : ℤ) mid cur =
        some (min, mid', cur') ∧
      Searched vs value
        (if value = cur' then (true, mid'.toNat) else (false, min.toNat)) := by
  induction fuel generalizing lo hi mid cur with
  | zero => omega
  | succ fuel ih =>
    rw [searchLoop]
    by_cases hlt : lo < hi
    · have hlength := hsmall.lt
      have hmid : (toInt ((lo : ℤ) + (hi - 1))).tdiv 2 =
          ((lo + hi - 1) / 2 : ℕ) := by
        rw [show ((lo : ℤ) + (hi - 1)) = ((lo + hi - 1 : ℕ) : ℤ) by omega,
          toInt_eq (by omega) (by omega)]
        rfl
      set middle := (lo + hi - 1) / 2 with hmiddle
      have hbound : middle < vs.length := by omega
      have hget := hholds.getAt (by omega) hbound
      rw [if_pos (by omega)]
      simp only [hmid, hget, some_bind]
      split
      · rename_i hless
        have hstep := ih (middle + 1) hi middle vs[middle] (by omega)
          (by omega) hhi ?_ habove (fun _ => hless.ne')
        · exact_mod_cast hstep
        intro i hi' hle
        exact (hholds.getElem_le hi' hbound (by omega)).trans_lt hless
      split
      · rename_i hgreater
        have hstep := ih lo middle middle vs[middle] (by omega) (by omega)
          (by omega) hbelow ?_ (fun _ => hgreater.ne)
        · exact hstep
        intro i hi' hle
        exact hgreater.trans_le (hholds.getElem_le hbound hi' hle)
      · rename_i hge hle
        have hequal : value = vs[middle] := le_antisymm
          (not_lt.1 hge) (not_lt.1 hle)
        refine ⟨_, _, _, rfl, ?_⟩
        rw [if_pos hequal, Int.toNat_natCast]
        exact searched_of_get hbound hequal.symm
    · obtain rfl : lo = hi := by omega
      rw [if_neg (by omega)]
      refine ⟨_, _, _, rfl, ?_⟩
      rw [if_neg (hcur rfl), Int.toNat_natCast]
      exact searched_of_between hhi hbelow habove

theorem intsetSearch_spec (hholds : is.Holds vs) (hsmall : Small vs)
    (value : ℤ) :
    ∃ result, intsetSearch is value = some result ∧
      Searched vs value result := by
  rw [intsetSearch, hholds.length_eq]
  split
  · rename_i hempty
    rw [length_eq_zero_iff] at hempty
    exact ⟨_, rfl, [], [], hempty, rfl, by simp, by simp⟩
  rename_i hne
  have hlength := hsmall.lt
  have hcast : ((vs.length : ℤ) - 1) = ((vs.length - 1 : ℕ) : ℤ) := by omega
  have hlast : is.getAt ((vs.length : ℤ) - 1) = some vs[vs.length - 1] := by
    rw [hcast]
    exact hholds.getAt (by omega) _
  have hpos : 0 < vs.length := by omega
  have hfirst : is.getAt 0 = some vs[0] := hholds.getAt (by omega) hpos
  have hmax : toInt ((vs.length : ℤ) - 1) = (vs.length : ℤ) - 1 := by
    rw [hcast, toInt_eq (by omega) (by omega)]
  rw [hlast]
  simp only [bind_eq_bind, bind_some]
  split
  · rename_i hgreater
    refine ⟨_, rfl, searched_of_between (le_refl _) ?_ ?_⟩
    · intro i hi _
      exact (hholds.getElem_le hi (by omega) (by omega)).trans_lt hgreater
    · intro i hi hle
      omega
  rw [hfirst, bind_some]
  split
  · rename_i hless
    refine ⟨_, rfl, searched_of_between (Nat.zero_le _) ?_ ?_⟩
    · intro i _ hlt
      omega
    intro i hi _
    exact hless.trans_le (hholds.getElem_le hpos hi (Nat.zero_le i))
  obtain ⟨min, mid, cur, hloop, hsearched⟩ := searchLoop_spec hholds hsmall
    (vs.length + 1) 0 vs.length (-1) (-1) (by omega) (by omega) (le_refl _)
    (fun i _ hlt => by omega) (fun i hi hle => by omega)
    (fun hzero => absurd hzero.symm hne)
  rw [hmax]
  rw [Nat.cast_zero] at hloop
  rw [hloop, bind_some]
  refine ⟨_, ?_, hsearched⟩
  dsimp only
  split <;> rfl

end Search

/-! ## Adding and removing -/

section Insertion

variable {is : Intset} {pre post vs : List ℤ} {value : ℤ}

/-- Sizes of small sets do not overflow. -/
theorem tail_size (hsmall : Small vs) (enc : Encoding) {len : ℕ}
    (hlen : len ≤ vs.length + 1) :
    len * enc.size % 2 ^ 32 = len * enc.size := by
  have hmul : len * enc.size ≤ (vs.length + 1) * 8 :=
    Nat.mul_le_mul hlen (size_le enc)
  rw [Small] at hsmall
  exact Nat.mod_eq_of_lt (by omega)

theorem resize_size (hsmall : Small vs) (enc : Encoding) {len : ℕ}
    (hlen : len ≤ vs.length + 1) :
    len % 2 ^ 32 * enc.size % 2 ^ 32 = len * enc.size := by
  have hlt := hsmall.lt
  rw [Nat.mod_eq_of_lt (by omega : len < 2 ^ 32), tail_size hsmall enc hlen]

/-- A block with room for one more cell. -/
theorem exists_room (hsmall : Small vs) (fresh : Fresh) (enc : Encoding)
    {block : Bytes} (hblock : block.length = vs.length * enc.size) :
    ∃ room, room.length = enc.size ∧
      resize fresh block ((vs.length + 1) % 2 ^ 32 * enc.size % 2 ^ 32) =
        block ++ room := by
  rw [resize_size hsmall enc (le_refl _)]
  have hle : block.length ≤ (vs.length + 1) * enc.size := by
    rw [hblock]
    exact Nat.mul_le_mul_right _ (Nat.le_succ _)
  obtain ⟨room, hroom, hresize⟩ := resize_of_le fresh hle
  refine ⟨room, ?_, hresize⟩
  rw [hroom, hblock, Nat.succ_mul, Nat.add_sub_cancel_left]

theorem sorted_insert (hsorted : (pre ++ post).Pairwise (· < ·))
    (hpre : ∀ v ∈ pre, v < value) (hpost : ∀ v ∈ post, value < v) :
    (pre ++ value :: post).Pairwise (· < ·) := by
  rw [pairwise_append] at hsorted ⊢
  refine ⟨hsorted.1, pairwise_cons.2 ⟨hpost, hsorted.2.1⟩, ?_⟩
  intro v hv w hw
  obtain rfl | hw := mem_cons.1 hw
  · exact hpre v hv
  · exact hsorted.2.2 v hv w hw

theorem moveTail_setAt (is : Intset) (src dst : ℕ) {pos : ℕ}
    (hpos : pos < 2 ^ 31) (value : ℤ) :
    (intsetMoveTail is src dst).bind (·.setAt pos value) =
      ((memmove is.contents (dst * is.encoding.size) (src * is.encoding.size)
          ((is.length - src) * is.encoding.size % 2 ^ 32)).bind
        (store · (pos * is.encoding.size) (is.encoding.cell value))).map
        fun contents => { is with contents } := by
  rw [intsetMoveTail]
  cases memmove is.contents (dst * is.encoding.size) (src * is.encoding.size)
      ((is.length - src) * is.encoding.size % 2 ^ 32) with
  | none => rfl
  | some contents =>
    rw [some_bind, bind_some, bind_some, Intset.setAt_eq _ hpos]

theorem insertAt_spec (hholds : is.Holds (pre ++ post))
    (hsmall : Small (pre ++ post)) (fresh : Fresh)
    (hfits : is.encoding.Fits value) (hpre : ∀ v ∈ pre, v < value)
    (hpost : ∀ v ∈ post, value < v) :
    ∃ is', insertAt fresh is value pre.length = some is' ∧
      is'.Holds (pre ++ value :: post) := by
  obtain ⟨enc, length, contents⟩ := is
  obtain ⟨hlength, hcontents, hfit, hsorted⟩ := hholds
  dsimp only at hlength hcontents hfit
  subst hlength hcontents
  have hlt := hsmall.lt
  rw [length_append] at hlt
  obtain ⟨room, hroom, hresize⟩ :=
    exists_room hsmall fresh enc (length_pack (length_cell enc) (pre ++ post))
  have hresized : intsetResize fresh
      ⟨enc, (pre ++ post).length, pack enc.cell (pre ++ post)⟩
        ((pre ++ post).length + 1) =
      ⟨enc, (pre ++ post).length,
        pack enc.cell pre ++ (pack enc.cell post ++ room)⟩ := by
    rw [intsetResize, hresize, pack_append, append_assoc]
  have hwritten : (openGap ⟨enc, (pre ++ post).length,
        pack enc.cell pre ++ (pack enc.cell post ++ room)⟩ pre.length).bind
        (·.setAt pre.length value) =
      some ⟨enc, (pre ++ post).length,
        pack enc.cell (pre ++ value :: post)⟩ := by
    rw [openGap]
    split
    · have htail : (pre ++ post).length - pre.length = post.length := by
        rw [length_append, Nat.add_sub_cancel_left]
      rw [moveTail_setAt _ _ _ (by omega), htail,
        tail_size hsmall enc (by simp; omega), insert_pack (length_cell enc) _ _ _ hroom]
      rfl
    rename_i hlast
    obtain rfl : post = [] := by
      rw [← length_eq_zero_iff]
      simp only [length_append] at hlast
      omega
    have hstore := store_pack (length_cell enc) pre value hroom []
    rw [append_nil, append_nil] at hstore
    rw [bind_some, Intset.setAt_eq _ (by omega), pack_nil,
      nil_append, hstore, pack_append, pack_cons, pack_nil,
      append_nil, append_nil]
    rfl
  refine ⟨⟨enc, (pre ++ value :: post).length,
    pack enc.cell (pre ++ value :: post)⟩, ?_, rfl, rfl, ?_,
    sorted_insert hsorted hpre hpost⟩
  · have hlength : ((pre ++ post).length + 1) % 2 ^ 32 =
        (pre ++ value :: post).length := by
      rw [length_append, length_append, length_cons,
        Nat.mod_eq_of_lt (by omega), Nat.add_assoc]
    rw [insertAt, hresized, bind_eq_bind, ← bind_assoc, hwritten, bind_some, hlength]
  intro v hv
  rw [mem_append, mem_cons] at hv
  rcases hv with hv | rfl | hv
  · exact hfit v (mem_append_left _ hv)
  · exact hfits
  · exact hfit v (mem_append_right _ hv)

theorem removeAt_spec (hholds : is.Holds (pre ++ value :: post))
    (hsmall : Small (pre ++ value :: post)) (fresh : Fresh) :
    ∃ is', removeAt fresh is pre.length = some is' ∧
      is'.encoding = is.encoding ∧ is'.Holds (pre ++ post) := by
  obtain ⟨enc, length, contents⟩ := is
  obtain ⟨hlength, hcontents, hfit, hsorted⟩ := hholds
  dsimp only at hlength hcontents hfit
  subst hlength hcontents
  have hlength : (pre ++ value :: post).length = (pre ++ post).length + 1 := by
    rw [length_append, length_append, length_cons, Nat.add_assoc]
  have hsublist : (pre ++ post).Sublist (pre ++ value :: post) :=
    (sublist_cons_self value post).append_left pre
  have hmoved : ∃ rest, closeGap ⟨enc, (pre ++ value :: post).length,
        pack enc.cell (pre ++ value :: post)⟩ pre.length =
      some ⟨enc, (pre ++ value :: post).length,
        pack enc.cell (pre ++ post) ++ rest⟩ := by
    rw [closeGap]
    split
    · obtain ⟨rest, hmove⟩ := remove_pack (length_cell enc) pre value post
      have htail : (pre ++ value :: post).length - (pre.length + 1) =
          post.length := by
        rw [hlength, length_append]
        omega
      refine ⟨rest, ?_⟩
      simp only [intsetMoveTail, htail]
      rw [tail_size hsmall enc (by rw [hlength, length_append]; omega),
        hmove]
      rfl
    · rename_i hlast
      obtain rfl : post = [] := by
        rw [← length_eq_zero_iff]
        simp only [hlength, length_append] at hlast
        omega
      exact ⟨enc.cell value, by simp⟩
  obtain ⟨rest, hmoved⟩ := hmoved
  refine ⟨⟨enc, (pre ++ post).length, pack enc.cell (pre ++ post)⟩, ?_, rfl,
    rfl, rfl, fun v hv => hfit v (hsublist.subset hv),
    hsorted.sublist hsublist⟩
  have hsize : (pre ++ post).length % 2 ^ 32 * enc.size % 2 ^ 32 =
      (pack enc.cell (pre ++ post)).length := by
    rw [resize_size hsmall enc (by omega), length_pack (length_cell enc)]
  rw [removeAt, hmoved, some_bind]
  simp only [intsetResize, hlength, Nat.add_sub_cancel]
  rw [hsize, resize_append]

end Insertion

section Upgrade

variable {is : Intset} {vs : List ℤ} {value : ℤ}

/-- The block of an integer set that is being rewritten from the back: `k`
values are left in the old width, the others stand in the new one, with room
for one cell before or behind them. -/
structure Upgrading (old new : Encoding) (offset : ℕ) (vs : List ℤ) (k : ℕ)
    (block : Bytes) : Prop where
  length_eq : block.length = (vs.length + 1) * new.size
  front : block.take (k * old.size) = pack old.cell (vs.take k)
  back : ∃ room, block.drop ((k + offset) * new.size) =
    pack new.cell (vs.drop k) ++ room

variable {old new : Encoding} {offset k : ℕ} {block : Bytes}

/-- One value is read in the old width and written in the new one. -/
theorem Upgrading.step (hup : Upgrading old new offset vs (k + 1) block)
    (hwider : old.size ≤ new.size) (hk : k < vs.length) (hoffset : offset ≤ 1)
    (hfits : ∀ v ∈ vs, old.Fits v) :
    ∃ block', (load block (k * old.size) old.size).map signedWord =
        some vs[k] ∧
      store block ((k + offset) * new.size) (new.cell vs[k]) = some block' ∧
      Upgrading old new offset vs k block' := by
  have hle : k * old.size ≤ (k + offset) * new.size :=
    Nat.mul_le_mul (by omega) hwider
  have hroom : (k + offset) * new.size + new.size ≤ block.length := by
    rw [hup.length_eq, ← Nat.succ_mul]
    exact Nat.mul_le_mul_right _ (by omega)
  have holdle : k * old.size + old.size ≤ block.length := by
    have hmul : (k + 1) * old.size ≤ (vs.length + 1) * new.size :=
      Nat.mul_le_mul (by omega) hwider
    rw [hup.length_eq, ← Nat.succ_mul]
    exact hmul
  have hread : (block.drop (k * old.size)).take old.size = old.cell vs[k] := by
    have hfront := congrArg (List.drop (k * old.size)) hup.front
    have htake : vs.take (k + 1) = vs.take k ++ [vs[k]] :=
      take_succ_eq_append_getElem hk
    have hpack : k * old.size = (pack old.cell (vs.take k)).length := by
      rw [length_pack (length_cell old), length_take_of_le (by omega)]
    rw [drop_take, Nat.succ_mul, Nat.add_sub_cancel_left, htake,
      pack_append] at hfront
    rw [hfront, hpack, drop_left' rfl, pack_cons, pack_nil, append_nil]
  refine ⟨block.take ((k + offset) * new.size) ++ new.cell vs[k] ++
    block.drop ((k + offset) * new.size + new.size), ?_, ?_, ?_⟩
  · rw [load, if_pos holdle, map_some, hread,
      signedWord_cell (hfits _ (getElem_mem hk))]
  · rw [store, length_cell, if_pos hroom]
  have hprefix : (block.take ((k + offset) * new.size)).length =
      (k + offset) * new.size := length_take_of_le (by omega)
  constructor
  · rw [length_append, length_append, hprefix, length_cell,
      length_drop, ← hup.length_eq]
    omega
  · have hfront := congrArg (List.take (k * old.size)) hup.front
    have hcut : (pack old.cell (vs.take (k + 1))).take (k * old.size) =
        pack old.cell (vs.take k) := by
      have hpack : k * old.size = (pack old.cell (vs.take k)).length := by
        rw [length_pack (length_cell old), length_take_of_le (by omega)]
      rw [take_succ_eq_append_getElem hk, pack_append, hpack, take_left' rfl]
    rw [take_take, Nat.min_eq_left (Nat.mul_le_mul_right _ (by omega)),
      hcut] at hfront
    rw [append_assoc, take_append_of_le_length (by omega),
      take_take, Nat.min_eq_left hle, hfront]
  · obtain ⟨room, hback⟩ := hup.back
    refine ⟨room, ?_⟩
    rw [append_assoc, drop_left' hprefix, ← Nat.succ_mul,
      show (k + offset).succ = k + 1 + offset by omega, hback,
      drop_eq_getElem_cons hk, pack_cons, append_assoc]

/-- The whole loop leaves all values in the new width. -/
theorem upgradeLoop_spec (hwider : old.size ≤ new.size) (hsmall : Small vs)
    (hoffset : offset ≤ 1) (hfits : ∀ v ∈ vs, old.Fits v) {n : ℕ}
    (hk : k ≤ vs.length) (hup : Upgrading old new offset vs k block) :
    ∃ block', upgradeLoop old offset k ⟨new, n, block⟩ =
        some ⟨new, n, block'⟩ ∧ Upgrading old new offset vs 0 block' := by
  induction k generalizing block with
  | zero => exact ⟨block, rfl, hup⟩
  | succ k ih =>
    have hlt := hsmall.lt
    obtain ⟨block₁, hload, hstore, hup₁⟩ := hup.step hwider hk hoffset hfits
    obtain ⟨block₂, hloop, hup₂⟩ := ih (by omega) hup₁
    refine ⟨block₂, ?_, hup₂⟩
    rw [upgradeLoop, Intset.getEncoded_eq _ (by omega), hload,
      some_bind, Intset.setAt_eq _ (by omega),
      hstore]
    exact hloop

/-- A value that needs a wider encoding lies outside of all the others. -/
theorem outside (hfits : ∀ v ∈ vs, old.Fits v) (hvalue : ¬ old.Fits value) :
    if value < 0 then ∀ v ∈ vs, value < v else ∀ v ∈ vs, v < value := by
  have hpow : (0 : ℤ) < 2 ^ (8 * old.size - 1) := by positivity
  rw [Encoding.Fits] at hvalue
  split <;> intro v hv <;> obtain ⟨hlow, hhigh⟩ := hfits v hv <;> omega

theorem intsetUpgradeAndAdd_spec (hholds : is.Holds vs) (hsmall : Small vs)
    (fresh : Fresh) (hvalue : int64.Fits value)
    (hwider : is.encoding.size < (intsetValueEncoding value).size) :
    ∃ is', intsetUpgradeAndAdd fresh is value = some is' ∧
      is'.Holds (if value < 0 then value :: vs else vs ++ [value]) := by
  obtain ⟨old, length, contents⟩ := is
  obtain ⟨hlength, hcontents, hfit, hsorted⟩ := hholds
  dsimp only at hlength hcontents hfit hwider
  subst hlength hcontents
  set new := intsetValueEncoding value with hnew
  have hlt := hsmall.lt
  have hout := outside hfit fun hfits =>
    absurd ((fits_iff hvalue).1 hfits) (not_le.2 hwider)
  have hnewfits : ∀ v ∈ vs, new.Fits v := fun v hv =>
    fits_mono hwider.le (hfit v hv)
  have hvaluefits : new.Fits value := fits_valueEncoding hvalue
  have hlen : (vs.length + 1) % 2 ^ 32 = vs.length + 1 :=
    Nat.mod_eq_of_lt (by omega)
  set offset := if value < 0 then 1 else 0 with hoffset
  -- the freshly resized block holds the old cells in front
  have hsize : (vs.length + 1) % 2 ^ 32 * new.size % 2 ^ 32 =
      (vs.length + 1) * new.size := resize_size hsmall new (le_refl _)
  have hfits : (pack old.cell vs).length ≤ (vs.length + 1) * new.size := by
    rw [length_pack (length_cell old)]
    exact Nat.mul_le_mul (Nat.le_succ _) hwider.le
  obtain ⟨extra, hextra, hresize⟩ := resize_of_le fresh hfits
  have hstart : Upgrading old new offset vs vs.length
      (pack old.cell vs ++ extra) := by
    refine ⟨?_, ?_, ?_⟩
    · rw [← hresize, length_resize]
    · rw [take_length, ← length_pack (length_cell old), take_left' rfl]
    · exact ⟨_, by rw [drop_length, pack_nil, nil_append]⟩
  obtain ⟨block, hloop, hup⟩ := upgradeLoop_spec (n := vs.length) hwider.le
    hsmall (by rw [hoffset]; split <;> omega) hfit (le_refl _) hstart
  obtain ⟨room, hback⟩ := hup.back
  rw [drop_zero, Nat.zero_add] at hback
  have hrun : intsetUpgradeAndAdd fresh ⟨old, vs.length, pack old.cell vs⟩
      value = ((Intset.mk new vs.length block).setAt
        (if value < 0 then 0 else vs.length) value).map fun is =>
          { is with length := (is.length + 1) % 2 ^ 32 } := by
    simp only [intsetUpgradeAndAdd, intsetResize, ← hnew, hsize, hresize,
      ← hoffset, hloop, some_bind,
      map_eq_bind]
    rfl
  have hroom : room.length + offset * new.size = new.size := by
    have hcount := congrArg List.length hback
    rw [length_drop, length_append, hup.length_eq,
      length_pack (length_cell new), Nat.succ_mul] at hcount
    have hle : offset * new.size ≤ 1 * new.size := by
      gcongr
      rw [hoffset]
      split <;> omega
    omega
  rw [hrun]
  by_cases hneg : value < 0
  · -- the room is the first cell
    rw [if_pos hneg] at hout hoffset
    rw [hoffset, Nat.one_mul] at hback hroom
    have hnil : room = [] := length_eq_zero_iff.1 (by omega)
    have hsplit : block = block.take new.size ++ pack new.cell vs := by
      rw [← append_nil (pack new.cell vs), ← hnil, ← hback, take_append_drop]
    have hcell : (block.take new.size).length = new.size := by
      rw [length_take, hup.length_eq]
      exact Nat.min_eq_left (Nat.le_mul_of_pos_left _ (by omega))
    have hset := Intset.setAt_eq ⟨new, vs.length, block⟩
      (by decide : 0 < 2 ^ 31) value
    have hstore := store_pack (length_cell new) [] value hcell
      (pack new.cell vs)
    rw [pack_nil, nil_append, nil_append, ← hsplit] at hstore
    rw [if_pos hneg, if_pos hneg]
    refine ⟨⟨new, (vs.length + 1) % 2 ^ 32, pack new.cell (value :: vs)⟩, ?_,
      hlen, rfl, ?_, pairwise_cons.2 ⟨hout, hsorted⟩⟩
    · rw [show (0 : ℤ) = ((0 : ℕ) : ℤ) from rfl, hset]
      dsimp only
      rw [length_nil] at hstore
      rw [hstore, pack_cons]
      rfl
    · exact forall_mem_cons.2 ⟨hvaluefits, hnewfits⟩
  · -- the room is the last cell
    rw [if_neg hneg] at hout hoffset
    rw [hoffset, Nat.zero_mul] at hback hroom
    rw [drop_zero] at hback
    have hset := Intset.setAt_eq ⟨new, vs.length, block⟩
      (by omega : vs.length < 2 ^ 31) value
    have hstore := store_pack (length_cell new) vs value hroom []
    rw [append_nil, append_nil, ← hback] at hstore
    rw [if_neg hneg, if_neg hneg]
    refine ⟨⟨new, (vs.length + 1) % 2 ^ 32, pack new.cell (vs ++ [value])⟩, ?_,
      ?_, rfl, ?_, ?_⟩
    · rw [hset]
      dsimp only
      rw [hstore, pack_append, pack_cons, pack_nil, append_nil]
      rfl
    · rw [hlen, length_append, length_singleton]
    · intro v hv
      obtain hv | hv := mem_append.1 hv
      · exact hnewfits v hv
      · rwa [mem_singleton.1 hv]
    refine pairwise_append.2 ⟨hsorted, pairwise_singleton _ _, ?_⟩
    intro v hv w hw
    rw [mem_singleton.1 hw]
    exact hout v hv

end Upgrade

/-! ## The interface -/

section Interface

variable {is : Intset} {vs : List ℤ} {value : ℤ}

/-- `intsetAdd` adds a value that is not there. -/
theorem intsetAdd_spec (hholds : is.Holds vs) (hsmall : Small vs)
    (fresh : Fresh) (hvalue : int64.Fits value) :
    ∃ is' vs', intsetAdd fresh is value = some (is', decide (value ∉ vs)) ∧
      is'.Holds vs' ∧ if value ∈ vs then vs' = vs else vs'.Perm (value :: vs) := by
  rw [intsetAdd]
  split
  · rename_i hwider
    obtain ⟨is', hrun, hholds'⟩ :=
      intsetUpgradeAndAdd_spec hholds hsmall fresh hvalue hwider
    have hnew : value ∉ vs := fun hmem =>
      absurd ((fits_iff hvalue).1 (hholds.fits value hmem)) (not_le.2 hwider)
    refine ⟨is', _, ?_, hholds', ?_⟩
    · rw [hrun, decide_eq_true hnew]
      rfl
    rw [if_neg hnew]
    split
    · exact List.Perm.refl _
    · exact perm_append_singleton _ _
  · rename_i hnarrow
    have hfits := (fits_iff hvalue).2 (not_lt.1 hnarrow)
    obtain ⟨⟨found, pos⟩, hsearch, hsearched⟩ :=
      intsetSearch_spec hholds hsmall value
    have hmem := hsearched.mem_iff
    rw [hsearch, some_bind]
    cases found with
    | true =>
      have hin : value ∈ vs := hmem.2 rfl
      refine ⟨is, vs, ?_, hholds, by rw [if_pos hin]⟩
      rw [decide_eq_false (not_not.2 hin)]
      rfl
    | false =>
      have hnew : value ∉ vs := fun hin => Bool.false_ne_true (hmem.1 hin)
      obtain ⟨pre, post, rfl, rfl, hpre, hpost⟩ := hsearched
      obtain ⟨is', hinsert, hholds'⟩ :=
        insertAt_spec hholds hsmall fresh hfits hpre hpost
      refine ⟨is', _, ?_, hholds', ?_⟩
      · rw [decide_eq_true hnew]
        simp only [hinsert, some_bind]
        rfl
      · rw [if_neg hnew]
        exact perm_middle

theorem intsetRemove_spec (hholds : is.Holds vs) (hsmall : Small vs)
    (fresh : Fresh) (hvalue : int64.Fits value) :
    ∃ is' vs', intsetRemove fresh is value = some (is', decide (value ∈ vs)) ∧
      is'.Holds vs' ∧ if value ∈ vs then vs.Perm (value :: vs') else vs' = vs := by
  rw [intsetRemove]
  split
  · obtain ⟨⟨found, pos⟩, hsearch, hsearched⟩ :=
      intsetSearch_spec hholds hsmall value
    have hmem := hsearched.mem_iff
    rw [hsearch, some_bind]
    cases found with
    | false =>
      have hout : value ∉ vs := fun hin => Bool.false_ne_true (hmem.1 hin)
      refine ⟨is, vs, ?_, hholds, by rw [if_neg hout]⟩
      rw [decide_eq_false hout]
      rfl
    | true =>
      have hin : value ∈ vs := hmem.2 rfl
      obtain ⟨pre, post, rfl, rfl⟩ := hsearched
      obtain ⟨is', hremove, -, hholds'⟩ := removeAt_spec hholds hsmall fresh
      refine ⟨is', _, ?_, hholds', ?_⟩
      · rw [decide_eq_true hin]
        simp only [hremove, some_bind]
        rfl
      · rw [if_pos hin]
        exact perm_middle
  · rename_i hwider
    have hout : value ∉ vs := fun hin =>
      hwider ((fits_iff hvalue).1 (hholds.fits value hin))
    exact ⟨is, vs, by rw [decide_eq_false hout], hholds, by rw [if_neg hout]⟩

theorem intsetFind_eq (hholds : is.Holds vs) (hsmall : Small vs)
    (hvalue : int64.Fits value) :
    intsetFind is value = some (decide (value ∈ vs)) := by
  rw [intsetFind]
  split
  · obtain ⟨⟨found, pos⟩, hsearch, hsearched⟩ :=
      intsetSearch_spec hholds hsmall value
    rw [hsearch, some_bind, Option.some.injEq,
      Bool.eq_iff_iff, decide_eq_true_iff, hsearched.mem_iff]
  · rename_i hwider
    rw [decide_eq_false fun hin =>
      hwider ((fits_iff hvalue).1 (hholds.fits value hin))]

theorem holds_intsetNew : intsetNew.Holds [] :=
  ⟨rfl, rfl, by simp, List.Pairwise.nil⟩

end Interface

/-! ## Runs -/

section Runs

/-- A call that changes an integer set. -/
inductive IntsetCall where
  | add (value : ℤ)
  | remove (value : ℤ)
  deriving DecidableEq, Repr

namespace IntsetCall

def value : IntsetCall → ℤ
  | add value | remove value => value

def run (fresh : Fresh) (is : Intset) : IntsetCall → Option Intset
  | add value => (intsetAdd fresh is value).map Prod.fst
  | remove value => (intsetRemove fresh is value).map Prod.fst

/-- What the call does to a set of integers. -/
def onSet (s : Finset ℤ) : IntsetCall → Finset ℤ
  | add value => insert value s
  | remove value => s.erase value

end IntsetCall

/-- The calls one after the other, each with the fresh memory it is given. -/
def runCalls (is : Intset) (calls : List (Fresh × IntsetCall)) : Option Intset :=
  calls.foldlM (fun is call => call.2.run call.1 is) is

/-- The set of integers the calls build. -/
def setAfter (s : Finset ℤ) (calls : List (Fresh × IntsetCall)) : Finset ℤ :=
  calls.foldl (fun s call => call.2.onSet s) s

/-- The array is the increasing list of the members, in a width that each of
them fits, and the reading functions answer as the set does. -/
structure Intset.Agrees (is : Intset) (s : Finset ℤ) : Prop where
  holds : is.Holds (s.sort (· ≤ ·))
  find_eq : ∀ value, int64.Fits value →
    intsetFind is value = some (decide (value ∈ s))
  len_eq : intsetLen is = s.card
  get_eq : ∀ pos, intsetGet is pos = some (s.sort (· ≤ ·))[pos]?

variable {is : Intset} {vs : List ℤ}

theorem Intset.Holds.nodup (hholds : is.Holds vs) : vs.Nodup :=
  hholds.sorted.imp ne_of_lt

theorem IntsetCall.run_spec (hholds : is.Holds vs) (hsmall : Small vs)
    (fresh : Fresh) {call : IntsetCall} (hcall : int64.Fits call.value) :
    ∃ is' vs', call.run fresh is = some is' ∧ is'.Holds vs' ∧
      vs'.toFinset = call.onSet vs.toFinset := by
  cases call with
  | add value =>
    change int64.Fits value at hcall
    obtain ⟨is', vs', hadd, hholds', hvs'⟩ :=
      intsetAdd_spec hholds hsmall fresh hcall
    refine ⟨is', vs', by rw [run, hadd, map_some], hholds', ?_⟩
    split at hvs'
    · next hmem => rw [hvs', onSet, Finset.insert_eq_of_mem (mem_toFinset.mpr hmem)]
    · rw [toFinset_eq_of_perm _ _ hvs', toFinset_cons, onSet]
  | remove value =>
    change int64.Fits value at hcall
    obtain ⟨is', vs', hremove, hholds', hvs'⟩ :=
      intsetRemove_spec hholds hsmall fresh hcall
    refine ⟨is', vs', by rw [run, hremove, map_some], hholds', ?_⟩
    split at hvs'
    · have hnodup := hvs'.nodup_iff.mp hholds.nodup
      rw [toFinset_eq_of_perm _ _ hvs', toFinset_cons, onSet,
        Finset.erase_insert (by simpa using (nodup_cons.mp hnodup).1)]
    · next hmem => rw [hvs', onSet, Finset.erase_eq_of_notMem (by simpa using hmem)]

theorem small_of_card (hholds : is.Holds vs) (hcard : vs.toFinset.card < 2 ^ 28) :
    Small vs := by
  rw [toFinset_card_of_nodup hholds.nodup] at hcard
  rw [Small]
  omega

theorem Intset.Holds.agrees (hholds : is.Holds vs)
    (hcard : vs.toFinset.card < 2 ^ 28) : is.Agrees vs.toFinset := by
  have hsmall := small_of_card hholds hcard
  have hsort : vs.toFinset.sort (· ≤ ·) = vs :=
    (toFinset_sort (· ≤ ·) hholds.nodup).mpr (hholds.sorted.imp le_of_lt)
  refine ⟨by rwa [hsort], fun value hvalue => ?_, ?_, fun pos => ?_⟩
  · rw [intsetFind_eq hholds hsmall hvalue, some_inj, decide_eq_decide,
      List.mem_toFinset]
  · rw [intsetLen, hholds.length_eq, toFinset_card_of_nodup hholds.nodup]
  have hlt := hsmall.lt
  rw [intsetGet, hholds.length_eq, hsort]
  split
  · next hpos =>
    rw [hholds.getAt (by omega) hpos, map_some, getElem?_eq_getElem hpos]
  · next hpos => rw [getElem?_eq_none (by omega)]

theorem runCalls_spec (calls : List (Fresh × IntsetCall)) (hholds : is.Holds vs)
    (hvalues : ∀ call ∈ calls, int64.Fits call.2.value)
    (hheld : ∀ n, (setAfter vs.toFinset (calls.take n)).card < 2 ^ 28) :
    ∃ is', runCalls is calls = some is' ∧
      is'.Agrees (setAfter vs.toFinset calls) := by
  have hcard : vs.toFinset.card < 2 ^ 28 := hheld 0
  induction calls generalizing is vs with
  | nil => exact ⟨is, rfl, hholds.agrees hcard⟩
  | cons call calls ih =>
    obtain ⟨hvalue, hvalues⟩ := forall_mem_cons.mp hvalues
    obtain ⟨is₁, vs₁, hrun, hholds₁, hvs₁⟩ :=
      IntsetCall.run_spec hholds (small_of_card hholds hcard) call.1 hvalue
    have hheld₁ : ∀ n, (setAfter vs₁.toFinset (calls.take n)).card < 2 ^ 28 := by
      intro n
      rw [hvs₁]
      exact hheld (n + 1)
    obtain ⟨is₂, hruns, hagrees⟩ := ih hholds₁ hvalues hheld₁ (hheld₁ 0)
    refine ⟨is₂, ?_, ?_⟩
    · rw [runCalls, foldlM_cons, hrun, some_bind]
      exact hruns
    · rw [hvs₁] at hagrees
      exact hagrees

/-- Whatever is added and removed, an integer set with fewer than `2 ^ 28`
members at any time is the mathematical set. -/
theorem intset_runs_as_set (calls : List (Fresh × IntsetCall))
    (hvalues : ∀ call ∈ calls, int64.Fits call.2.value)
    (hheld : ∀ n, (setAfter ∅ (calls.take n)).card < 2 ^ 28) :
    ∃ is, runCalls intsetNew calls = some is ∧ is.Agrees (setAfter ∅ calls) :=
  runCalls_spec calls holds_intsetNew hvalues hheld

theorem intset_runs_as_set_upgraded :
    ∃ is, runCalls intsetNew [(fun _ => 0, .add 5), (fun _ => 0, .add (-70000)),
        (fun _ => 0, .remove 5)] = some is ∧ is.Agrees {-70000} := by
  refine intset_runs_as_set _ (by simp [IntsetCall.value, Encoding.Fits,
    size]) fun n => ?_
  match n with
  | 0 | 1 | 2 => decide
  | n + 3 => simp [setAfter, IntsetCall.onSet]

end Runs

end RedisV8.Sets
