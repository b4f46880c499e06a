import RedisV8.Dict.Invariant
import RedisV8.Lib.AssocMap

/-!
# The hash table as a finite map

A run of dictionary operations answers as a finite map would.  The abstract
map never sees the tables: a rehash, a resize or a pause leaves it alone.

`_dictKeyIndex` returns a bucket index, or `-1` for a key that exists, as an
`int`, and `rehashidx` is an `int` too.  Tables of `2 ^ 31` buckets and more
do not fit these types, and there the map is lost.
-/

namespace RedisV8.HashTable

open AssocMap List Function Dictht

variable {K V : Type*} {idx size : ℕ} {canResize : Bool} {ht : Dictht K V}
  {chain : List (K × V)} {key : K}

/-! ## Bucket indexes as the source passes them -/

section Calls

variable (hash : K → BitVec 32) [DecidableEq K]

/-- What `_dictKeyIndex` returns once the table has been expanded. -/
def dictKeyIndex (d : Dict K V) (key : K) : ℤ :=
  if hasKey hash d key then -1
  else
    let ht := if d.isRehashing then d.ht1 else d.ht0
    (BitVec.ofNat 32 (ht.index hash key)).toInt

/-- `dictAddRaw` with the value set; there is no result where the bucket
array is indexed by a negative number. -/
def dictAddRaw (canResize : Bool) (d : Dict K V) (key : K) (val : V) :
    Option (Dict K V × Bool) :=
  let d := if d.isRehashing then dictRehashStep hash d else d
  match dictExpandIfNeeded canResize d with
  | (d, false) => some (d, false)
  | (d, true) =>
    let index := dictKeyIndex hash d key
    if index = -1 then some (d, false)
    else if index < 0 then none
    else if d.isRehashing then
      some ({ d with ht1 := d.ht1.pushFront index.toNat (key, val) }, true)
    else
      some ({ d with ht0 := d.ht0.pushFront index.toNat (key, val) }, true)

/-- `dictReplace`, which dereferences the entry it expects to find. -/
def dictReplaceRaw (canResize : Bool) (d : Dict K V) (key : K) (val : V) :
    Option (Dict K V × Bool) := do
  match ← dictAddRaw hash canResize d key val with
  | (d, true) => some (d, true)
  | (d, false) =>
    let (d, entry) := dictFind hash d key
    if entry.isSome then some (setVal hash d key val, false) else none

/-- What a caller learns from an operation. -/
inductive Answer (V : Type*) where
  | done
  | flag (ok : Bool)
  | found (val : Option V)
  deriving DecidableEq, Repr

def Op.call (d : Dict K V) : Op K V → Option (Dict K V × Answer V)
  | .add canResize key val =>
    (dictAddRaw hash canResize d key val).map fun r => (r.1, .flag r.2)
  | .replace canResize key val =>
    (dictReplaceRaw hash canResize d key val).map fun r => (r.1, .flag r.2)
  | .delete key => let r := dictDelete hash d key; some (r.1, .flag r.2)
  | .find key => let r := dictFind hash d key; some (r.1, .found r.2)
  | op => some (op.apply hash d, .done)

/-- A run of operations with the answers it gives; it has no result once
`rehashidx` leaves the range of `int`. -/
def callAll (d : Dict K V) : List (Op K V) → Option (Dict K V × List (Answer V))
  | [] => some (d, [])
  | op :: ops => do
    let (d, answer) ← op.call hash d
    if d.rehashidx.any (2 ^ 31 ≤ ·) then none
    else
      let (d, answers) ← callAll d ops
      some (d, answer :: answers)

end Calls

/-! ## The map the operations are meant for -/

section Meaning

variable [DecidableEq K]

def Op.mean (map : K → Option V) : Op K V → (K → Option V) × Answer V
  | .add _ key val =>
    if (map key).isSome then (map, .flag false)
    else (update map key (some val), .flag true)
  | .replace _ key val =>
    (update map key (some val), .flag (map key).isNone)
  | .delete key => (update map key none, .flag (map key).isSome)
  | .find key => (map, .found (map key))
  | _ => (map, .done)

def meanAll (map : K → Option V) :
    List (Op K V) → (K → Option V) × List (Answer V)
  | [] => (map, [])
  | op :: ops =>
    let (map, answer) := op.mean map
    let (map, answers) := meanAll map ops
    (map, answer :: answers)

end Meaning

/-! ## Tables that the index types can address -/

section Requests

/-- The table size `_dictExpandIfNeeded` asks for, zero where it asks for
none. -/
def growRequest (canResize : Bool) (d : Dict K V) : ℕ :=
  if d.isRehashing then 0
  else if d.ht0.size = 0 then initialSize
  else if d.ht0.size ≤ d.ht0.used ∧
      (canResize ∨ forceResizeRatio < d.ht0.used / d.ht0.size) then
    d.ht0.used * 2
  else 0

/-- The table size an operation asks for. -/
def Op.request (hash : K → BitVec 32) (d : Dict K V) : Op K V → ℕ
  | .add canResize _ _ | .replace canResize _ _ =>
    growRequest canResize
      (if d.isRehashing then dictRehashStep hash d else d)
  | .expand size => if d.isRehashing then 0 else size
  | .resize canResize =>
    if ¬ canResize ∨ d.isRehashing then 0 else d.ht0.used
  | _ => 0

/-- Tables of at most `2 ^ 30` buckets, and a `rehashidx` inside them. -/
structure Addressable (d : Dict K V) : Prop where
  size0 : d.ht0.size ≤ 2 ^ 30
  size1 : d.ht1.size ≤ 2 ^ 30
  rehashidx : ∀ idx, d.rehashidx = some idx → idx ≤ d.ht0.size

theorem Addressable.with_ht0 {d : Dict K V} (haddr : Addressable d)
    (hsize : ht.size = d.ht0.size) : Addressable { d with ht0 := ht } :=
  ⟨hsize.trans_le haddr.size0, haddr.size1,
    fun idx hidx => (haddr.rehashidx idx hidx).trans_eq hsize.symm⟩

theorem Addressable.with_ht1 {d : Dict K V} (haddr : Addressable d)
    (hsize : ht.size = d.ht1.size) : Addressable { d with ht1 := ht } :=
  ⟨haddr.size0, hsize.trans_le haddr.size1, haddr.rehashidx⟩

theorem nextPowerLoop_le {fuel k : ℕ} (hk : k ≤ 30) (hsize : size ≤ 2 ^ 30) :
    nextPowerLoop size fuel (2 ^ k) ≤ 2 ^ 30 := by
  induction fuel generalizing k with
  | zero => exact Nat.pow_le_pow_right (by decide) hk
  | succ fuel ih =>
    rw [nextPowerLoop]
    split
    · exact Nat.pow_le_pow_right (by decide) hk
    rename_i hlt
    have hlt' : 2 ^ k < 2 ^ 30 := by omega
    have hk' : k < 30 := (Nat.pow_lt_pow_iff_right (by decide)).1 hlt'
    rw [← pow_succ]
    exact ih hk'

theorem dictNextPower_le (hsize : size ≤ 2 ^ 30) :
    dictNextPower size ≤ 2 ^ 30 := by
  have hlong : ¬ longMax ≤ size := by
    rw [longMax]
    omega
  rw [dictNextPower, if_neg hlong]
  exact nextPowerLoop_le (k := 2) (by decide) hsize

theorem dictExpand_ok {d : Dict K V} (hidle : d.isRehashing = false)
    (hused : d.ht0.used ≤ size) (hsize : size ≤ 2 ^ 30) :
    (dictExpand d size).2 = true := by
  have hguard : ¬ (d.isRehashing ∨ size < d.ht0.used ∨ longMax ≤ size) := by
    rw [hidle, longMax]
    simp only [Bool.false_eq_true, false_or]
    omega
  rw [dictExpand, if_neg hguard]
  dsimp only
  split <;> rfl

end Requests

/-! ## Entries -/

section Entries

def Dictht.entries (ht : Dictht K V) : List (K × V) := ht.table.flatten

def Dict.entries (d : Dict K V) : List (K × V) :=
  d.ht0.entries ++ d.ht1.entries

@[simp]
theorem entries_reset : (reset : Dictht K V).entries = [] := rfl

@[simp]
theorem entries_alloc (size : ℕ) :
    (alloc size : Dictht K V).entries = [] := by
  simp [alloc, entries]

theorem length_entries (ht : Dictht K V) : ht.entries.length = ht.count := by
  simp [Dictht.entries, Dictht.count, length_flatten]

theorem mem_entries {entry : K × V} :
    entry ∈ ht.entries ↔ ∃ i, entry ∈ ht.bucket i := by
  rw [entries, mem_flatten]
  constructor
  · rintro ⟨chain, hchain, hentry⟩
    obtain ⟨i, hi, rfl⟩ := getElem_of_mem hchain
    exact ⟨i, by rwa [bucket, getD_eq_getElem _ _ hi]⟩
  rintro ⟨i, hentry⟩
  by_cases hi : i < ht.table.length
  · rw [bucket, getD_eq_getElem _ _ hi] at hentry
    exact ⟨_, getElem_mem hi, hentry⟩
  · rw [bucket_eq_nil_of_size_le ht (Nat.le_of_not_lt hi)] at hentry
    cases hentry

/-- The entries around one chain stay where they are when it is replaced. -/
theorem entries_split (ht : Dictht K V) {index : ℕ} (hindex : index < ht.size) :
    ∃ pre post, ht.entries = pre ++ (ht.bucket index ++ post) ∧
      ∀ chain used, (mk (ht.table.set index chain) used).entries =
        pre ++ (chain ++ post) := by
  refine ⟨(ht.table.take index).flatten, (ht.table.drop (index + 1)).flatten,
    ?_, fun chain used => ?_⟩
  · conv_lhs => rw [entries, ← take_append_drop index ht.table]
    rw [flatten_append, drop_eq_getElem_cons hindex,
      flatten_cons, bucket, getD_eq_getElem _ _ hindex]
  · have hlength : index < ht.table.length := hindex
    rw [entries, set_eq_take_append_cons_drop, if_pos hlength,
      flatten_append, flatten_cons]

theorem entries_pushFront (ht : Dictht K V) {index : ℕ}
    (hindex : index < ht.size) (entry : K × V) :
    (ht.pushFront index entry).entries.Perm (entry :: ht.entries) := by
  obtain ⟨pre, post, hold, hnew⟩ := entries_split ht hindex
  rw [pushFront, hnew, hold, cons_append]
  exact perm_middle

variable (hash : K → BitVec 32)

theorem entries_moveChain (chain : List (K × V)) (hpower : ht.PowerSize) :
    (moveChain hash chain ht).entries.Perm (chain ++ ht.entries) := by
  induction chain generalizing ht with
  | nil => exact List.Perm.refl _
  | cons entry chain ih =>
    have hlt := index_lt_size hash hpower entry.1
    have hpush := entries_pushFront ht hlt entry
    have hmoved := ih (powerSize_of_size_eq
      (size_pushFront ht (ht.index hash entry.1) entry) hpower)
    exact hmoved.trans ((hpush.append_left chain).trans perm_middle)

theorem skipEmpty_lt {i : ℕ} (hidx : idx ≤ i) (hbucket : ht.bucket i ≠ []) :
    skipEmpty ht idx < ht.size := by
  by_contra hle
  have hi : i < ht.size := by
    by_contra hsize
    exact hbucket (bucket_eq_nil_of_size_le ht (Nat.le_of_not_lt hsize))
  exact hbucket (bucket_skipEmpty ht hidx (by omega))

variable {d : Dict K V}

/-- A rehash only moves entries, within tables of the same sizes. -/
theorem rehashBucket_spec (hwf : d.WF hash) (hidx : d.rehashidx = some idx) :
    (rehashBucket hash d idx).entries.Perm d.entries ∧
      (Addressable d → Addressable (rehashBucket hash d idx)) := by
  obtain ⟨_, hpower1, hempty⟩ := hwf.busy idx hidx
  rw [rehashBucket]
  split
  · rename_i hused
    have hnil : d.ht0.entries = [] := by
      rw [← length_eq_zero_iff, length_entries, ← hwf.wf0.used_eq, hused]
    exact ⟨by simp [Dict.entries, hnil], fun haddr =>
      ⟨haddr.size1, Nat.zero_le _, fun idx hidx => by cases hidx⟩⟩
  -- an entry is left, so that there is a bucket to move
  obtain ⟨entry, hentry⟩ : ∃ entry, entry ∈ d.ht0.entries := by
    apply exists_mem_of_length_pos
    rw [length_entries, ← hwf.wf0.used_eq]
    omega
  obtain ⟨i, hi⟩ := mem_entries.1 hentry
  have hle : idx ≤ i := by
    by_contra hlt
    rw [hempty i (by omega)] at hi
    cases hi
  have hnext := skipEmpty_lt hle (ne_nil_of_mem hi)
  dsimp only
  constructor
  · have hmoved := entries_moveChain hash
      (d.ht0.bucket (skipEmpty d.ht0 idx)) hpower1
    obtain ⟨pre, post, hold, hnew⟩ := entries_split d.ht0 hnext
    rw [Dict.entries, Dict.entries, hnew, hold, nil_append]
    refine (hmoved.append_left _).trans ?_
    rw [append_assoc, append_assoc, append_assoc]
    refine List.Perm.append_left pre ?_
    rw [← append_assoc, ← append_assoc]
    exact perm_append_comm.append_right _
  · intro haddr
    have hmoved := wf_moveChain hash
      (d.ht0.bucket (skipEmpty d.ht0 idx)) hwf.wf1 hpower1
    have hsize := size_set d.ht0 (d.ht0.used -
      (d.ht0.bucket (skipEmpty d.ht0 idx)).length) (skipEmpty d.ht0 idx) []
    refine ⟨hsize.trans_le haddr.size0, hmoved.2.trans_le haddr.size1, ?_⟩
    intro idx' hidx'
    obtain rfl : skipEmpty d.ht0 idx + 1 = idx' := by simpa using hidx'
    exact hnext.trans_eq hsize.symm

/-- What every rehash keeps. -/
def Moved (d d' : Dict K V) : Prop :=
  d'.entries.Perm d.entries ∧ (Addressable d → Addressable d')

theorem Moved.rehashBucket {d' : Dict K V} (hwf : d'.WF hash)
    (hidx : d'.rehashidx = some idx) (hmoved : Moved d d') :
    Moved d (rehashBucket hash d' idx) :=
  ⟨(rehashBucket_spec hash hwf hidx).1.trans hmoved.1,
    (rehashBucket_spec hash hwf hidx).2 ∘ hmoved.2⟩

theorem moved_dictRehash (hwf : d.WF hash) (n : ℕ) :
    Moved d (dictRehash hash d n) :=
  (dictRehash_rule hash (fun _ _ => Moved.rehashBucket hash) hwf
    ⟨List.Perm.refl _, id⟩ n).2

theorem moved_rehashIfBusy (hwf : d.WF hash) :
    Moved d (if d.isRehashing then dictRehashStep hash d else d) :=
  (rehashIfBusy_rule hash (fun _ _ => Moved.rehashBucket hash) hwf
    ⟨List.Perm.refl _, id⟩).2

theorem moved_dictExpand (hwf : d.WF hash)
    (hsize : d.isRehashing = false → size ≤ 2 ^ 30) :
    Moved d (dictExpand d size).1 := by
  rw [dictExpand]
  split
  · exact ⟨List.Perm.refl _, id⟩
  rename_i hok
  have hidle : d.isRehashing = false := by
    rw [← Bool.not_eq_true]
    exact fun h => hok (Or.inl h)
  have hnone : d.rehashidx = none := by
    simpa [Dict.isRehashing] using hidle
  have halloc : (Dictht.alloc (dictNextPower size) : Dictht K V).size ≤
      2 ^ 30 := by
    simpa [Dictht.alloc, Dictht.size] using dictNextPower_le (hsize hidle)
  dsimp only
  split
  · rename_i htable
    exact ⟨by simp [Dict.entries, entries, htable, alloc], fun haddr =>
      ⟨halloc, haddr.size1, fun idx hidx => by simp [hnone] at hidx⟩⟩
  · refine ⟨by simp [Dict.entries, hwf.idle hnone], fun haddr =>
      ⟨haddr.size0, halloc, fun idx hidx => ?_⟩⟩
    obtain rfl : 0 = idx := by simpa using hidx
    exact Nat.zero_le _

theorem moved_dictResize (hwf : d.WF hash)
    (hrequest : (if ¬ canResize ∨ d.isRehashing then 0 else d.ht0.used) ≤
      2 ^ 30) : Moved d (dictResize canResize d).1 := by
  rw [dictResize]
  split
  · exact ⟨List.Perm.refl _, id⟩
  rename_i hguard
  rw [if_neg hguard] at hrequest
  have hminimal : (BitVec.ofNat 32 d.ht0.used).toInt = d.ht0.used := by
    rw [BitVec.toInt_ofNat']
    simp only [Nat.reducePow] at hrequest ⊢
    rw [Int.bmod_def]
    omega
  apply moved_dictExpand hash hwf
  intro _
  rw [hminimal]
  split
  · decide
  · simpa using hrequest

theorem moved_dictExpandIfNeeded (hwf : d.WF hash)
    (hrequest : growRequest canResize d ≤ 2 ^ 30) :
    (dictExpandIfNeeded canResize d).2 = true ∧
      Moved d (dictExpandIfNeeded canResize d).1 := by
  rw [growRequest] at hrequest
  rw [dictExpandIfNeeded]
  split
  · exact ⟨rfl, List.Perm.refl _, id⟩
  rename_i hidle
  rw [if_neg hidle] at hrequest
  rw [Bool.not_eq_true] at hidle
  split
  · rename_i hsize
    have htable : d.ht0.table = [] := length_eq_zero_iff.1 hsize
    have hused : d.ht0.used = 0 := by
      rw [hwf.wf0.used_eq, Dictht.count, htable]
      rfl
    exact ⟨dictExpand_ok hidle (by omega) (by decide),
      moved_dictExpand hash hwf fun _ => by decide⟩
  rename_i hsize
  rw [if_neg hsize] at hrequest
  split
  · rename_i hload
    rw [if_pos hload] at hrequest
    exact ⟨dictExpand_ok hidle (by omega) hrequest,
      moved_dictExpand hash hwf fun _ => hrequest⟩
  · exact ⟨rfl, List.Perm.refl _, id⟩

end Entries

/-! ## Chains -/

section Chains

variable [DecidableEq K]

/-- The entry a search stops at, and what the updates do to it. -/
theorem chain_split (hhas : chainHas chain key = true) :
    ∃ pre val post, chain = pre ++ (key, val) :: post ∧
      chainFind chain key = some val ∧
      (∀ val', chainSet chain key val' = pre ++ (key, val') :: post) ∧
      chain.eraseP (fun entry => entry.1 = key) = pre ++ post := by
  induction chain with
  | nil => cases hhas
  | cons entry rest ih =>
    obtain ⟨key', val⟩ := entry
    by_cases heq : key' = key
    · subst heq
      exact ⟨[], val, rest, rfl, by simp [chainFind], by simp [chainSet],
        by simp⟩
    have hrest : chainHas rest key = true := by
      simpa [chainHas, heq] using hhas
    obtain ⟨pre, val', post, hsplit, hfind, hset, herase⟩ := ih hrest
    refine ⟨(key', val) :: pre, val', post, by rw [hsplit]; rfl, ?_, ?_, ?_⟩
    · simpa [chainFind, heq] using hfind
    · intro val''
      simp [chainSet, heq, hset]
    · simp [heq, herase]

theorem chainFind_eq_none (hhas : chainHas chain key = false) :
    chainFind chain key = none := by
  rw [chainHas, any_eq_false] at hhas
  rw [chainFind, Option.map_eq_none_iff, List.find?_eq_none]
  exact hhas

theorem chainHas_iff :
    chainHas chain key = true ↔ ∃ val, (key, val) ∈ chain := by
  rw [chainHas, any_eq_true]
  constructor
  · rintro ⟨⟨key', val⟩, hmem, heq⟩
    have hkey : key' = key := by simpa using heq
    exact ⟨val, hkey ▸ hmem⟩
  · rintro ⟨val, hmem⟩
    exact ⟨(key, val), hmem, by simp⟩

variable (hash : K → BitVec 32)

/-- Searching one bucket finds the entries of the whole table. -/
theorem chainHas_bucket_iff (hwf : ht.WF hash) :
    chainHas (ht.bucket (ht.index hash key)) key = true ↔
      ∃ val, (key, val) ∈ ht.entries := by
  rw [chainHas_iff]
  constructor
  · rintro ⟨val, hmem⟩
    exact ⟨val, mem_entries.2 ⟨_, hmem⟩⟩
  · rintro ⟨val, hmem⟩
    obtain ⟨i, hi⟩ := mem_entries.1 hmem
    exact ⟨val, by rwa [hwf.placed i _ hi]⟩

/-- A table that has the key, around its one entry. -/
theorem table_split
    (hhas : chainHas (ht.bucket (ht.index hash key)) key = true) :
    ∃ val rest, ht.entries.Perm ((key, val) :: rest) ∧
      chainFind (ht.bucket (ht.index hash key)) key = some val ∧
      (∀ val' used, (mk (ht.table.set (ht.index hash key) (chainSet
        (ht.bucket (ht.index hash key)) key val')) used).entries.Perm
          ((key, val') :: rest)) ∧
      (ht.unlink hash key).entries.Perm rest := by
  obtain ⟨pre, val, post, hchain, hfind, hset, herase⟩ := chain_split hhas
  have hindex : ht.index hash key < ht.size := by
    by_contra hle
    rw [bucket_eq_nil_of_size_le ht (Nat.le_of_not_lt hle)] at hhas
    cases hhas
  obtain ⟨before, after, hold, hnew⟩ := entries_split ht hindex
  have hmiddle (val : V) : (before ++ (pre ++ (key, val) :: post ++ after)).Perm
      ((key, val) :: (before ++ pre ++ (post ++ after))) := by
    have hassoc : before ++ (pre ++ (key, val) :: post ++ after) =
        before ++ pre ++ (key, val) :: (post ++ after) := by simp
    rw [hassoc]
    exact perm_middle
  refine ⟨val, before ++ pre ++ (post ++ after), ?_, hfind,
    fun val' used => ?_, ?_⟩
  · rw [hold, hchain]
    exact hmiddle val
  · rw [hnew, hset]
    exact hmiddle val'
  · rw [unlink, hnew, herase]
    simp

end Chains

/-! ## The map a dictionary stands for -/

section Refinement

variable {hash : K → BitVec 32}

/-- A well-formed dictionary that holds the pairs of `map`. -/
structure Stores (hash : K → BitVec 32) (d : Dict K V) (map : K → Option V) :
    Prop where
  wf : d.WF hash
  lists : Lists d.entries map

variable {d : Dict K V} {map : K → Option V}

theorem Stores.perm {d' : Dict K V} (hstores : Stores hash d map)
    (hwf : d'.WF hash) (hperm : d'.entries.Perm d.entries) :
    Stores hash d' map :=
  ⟨hwf, hstores.lists.perm hperm.symm⟩

theorem Stores.rehashIfBusy (hstores : Stores hash d map) :
    Stores hash (if d.isRehashing then dictRehashStep hash d else d) map :=
  hstores.perm (wf_rehashIfBusy hash hstores.wf)
    (moved_rehashIfBusy hash hstores.wf).1

/-- Without a first table there is nothing at all. -/
theorem Stores.eq_none (hstores : Stores hash d map) (hsize : d.ht0.size = 0)
    (key : K) : map key = none := by
  have hidle : d.rehashidx = none := by
    cases hidx : d.rehashidx with
    | none => rfl
    | some idx =>
      obtain ⟨⟨k, _, _, hpower⟩, _⟩ := hstores.wf.busy idx hidx
      exact absurd (hpower.symm.trans hsize) (by positivity)
  have hentries : d.entries = [] := by
    have htable : d.ht0.table = [] := length_eq_zero_iff.1 hsize
    rw [Dict.entries, hstores.wf.idle hidle, entries, htable]
    rfl
  rw [← Option.not_isSome_iff_eq_none, ← hstores.lists.key_mem_iff, hentries]
  exact not_mem_nil

variable [DecidableEq K]

theorem Stores.hasKey_iff (hstores : Stores hash d map) (key : K) :
    hasKey hash d key = true ↔ (map key).isSome := by
  rw [← hstores.lists.key_mem_iff, Dict.entries, map_append,
    mem_append, hasKey, Bool.or_eq_true, Bool.and_eq_true,
    chainHas_bucket_iff hash hstores.wf.wf0,
    chainHas_bucket_iff hash hstores.wf.wf1]
  simp only [mem_map, Prod.exists, exists_and_right, exists_eq_right]
  refine or_congr_right ⟨fun h => h.2, fun hmem => ⟨?_, hmem⟩⟩
  by_contra hidle
  have hnone : d.rehashidx = none := by
    simpa [Dict.isRehashing] using hidle
  obtain ⟨val, hval⟩ := hmem
  rw [hstores.wf.idle hnone] at hval
  cases hval

/-- The first table has the key, or it is up to the second one. -/
theorem Stores.chainFind_eq (hstores : Stores hash d map) (key : K) :
    (match chainFind (d.ht0.bucket (d.ht0.index hash key)) key with
      | some val => some val
      | none =>
        if d.isRehashing then
          chainFind (d.ht1.bucket (d.ht1.index hash key)) key
        else none) = map key := by
  cases hhas : chainHas (d.ht0.bucket (d.ht0.index hash key)) key with
  | true =>
    obtain ⟨val, rest, hperm, hfind, _⟩ := table_split hash hhas
    have hmem : (key, val) ∈ d.entries :=
      mem_append_left _ (hperm.mem_iff.2 mem_cons_self)
    rw [hfind, (hstores.lists.mem_iff key val).1 hmem]
  | false =>
    rw [chainFind_eq_none hhas]
    cases hhas1 : d.isRehashing &&
        chainHas (d.ht1.bucket (d.ht1.index hash key)) key with
    | true =>
      rw [Bool.and_eq_true] at hhas1
      obtain ⟨val, rest, hperm, hfind, _⟩ := table_split hash hhas1.2
      have hmem : (key, val) ∈ d.entries :=
        mem_append_right _ (hperm.mem_iff.2 mem_cons_self)
      simp only [hhas1.1, if_true, hfind]
      exact ((hstores.lists.mem_iff key val).1 hmem).symm
    | false =>
      have hnone : map key = none := by
        rw [← Option.not_isSome_iff_eq_none, ← hstores.hasKey_iff key, hasKey,
          hhas, hhas1]
        decide
      rw [hnone]
      by_cases hbusy : d.isRehashing
      · rw [hbusy, Bool.true_and] at hhas1
        simp [hbusy, chainFind_eq_none hhas1]
      · simp [hbusy]

theorem Stores.dictFind (hstores : Stores hash d map) (key : K) :
    Stores hash (dictFind hash d key).1 map ∧
      (Addressable d → Addressable (dictFind hash d key).1) ∧
      (dictFind hash d key).2 = map key := by
  rw [HashTable.dictFind]
  split
  · rename_i hsize
    exact ⟨hstores, id, (hstores.eq_none hsize key).symm⟩
  dsimp only
  have haddr := (moved_rehashIfBusy hash hstores.wf).2
  have hmoved := hstores.rehashIfBusy
  have hfind := hmoved.chainFind_eq key
  generalize (if d.isRehashing then dictRehashStep hash d else d) = d1
    at haddr hmoved hfind ⊢
  cases hval : chainFind (d1.ht0.bucket (d1.ht0.index hash key)) key with
  | some val =>
    rw [hval] at hfind
    exact ⟨hmoved, haddr, hfind⟩
  | none =>
    rw [hval] at hfind
    dsimp only at hfind ⊢
    by_cases hbusy : d1.isRehashing = true
    · rw [if_pos hbusy] at hfind ⊢
      exact ⟨hmoved, haddr, hfind⟩
    · rw [if_neg hbusy] at hfind ⊢
      exact ⟨hmoved, haddr, hfind⟩

theorem Stores.dictDelete (hstores : Stores hash d map) (key : K) :
    Stores hash (dictDelete hash d key).1 (update map key none) ∧
      (Addressable d → Addressable (dictDelete hash d key).1) ∧
      (dictDelete hash d key).2 = (map key).isSome := by
  have hwf := wf_dictDelete hash hstores.wf key
  rw [HashTable.dictDelete] at hwf ⊢
  split
  · rename_i hsize
    have hnone := hstores.eq_none hsize key
    rw [update_eq_self_iff.2 hnone.symm, hnone]
    exact ⟨hstores, id, rfl⟩
  rename_i hsize
  rw [if_neg hsize] at hwf
  dsimp only at hwf ⊢
  have haddr := (moved_rehashIfBusy hash hstores.wf).2
  have hmoved := hstores.rehashIfBusy
  generalize (if d.isRehashing then dictRehashStep hash d else d) = d1
    at hwf haddr hmoved ⊢
  have hiff := hmoved.hasKey_iff key
  rw [hasKey] at hiff
  split at hwf
  · rename_i hhas
    obtain ⟨val, rest, hperm, _, _, hunlink⟩ := table_split hash hhas
    have hlists := hmoved.lists.perm (hperm.append_right d1.ht1.entries)
    rw [if_pos hhas]
    refine ⟨⟨hwf, hlists.tail.perm (hunlink.append_right _).symm⟩,
      fun h => (haddr h).with_ht0 (size_set _ _ _ _), ?_⟩
    rw [hhas, Bool.true_or] at hiff
    exact (hiff.1 rfl).symm
  rename_i hhas
  rw [if_neg hhas]
  rw [Bool.not_eq_true] at hhas
  split at hwf
  · rename_i hhas1
    obtain ⟨val, rest, hperm, _, _, hunlink⟩ := table_split hash hhas1.2
    have hlists := hmoved.lists.perm
      ((hperm.append_left d1.ht0.entries).trans perm_middle)
    rw [if_pos hhas1]
    refine ⟨⟨hwf, hlists.tail.perm (hunlink.append_left _).symm⟩,
      fun h => (haddr h).with_ht1 (size_set _ _ _ _), ?_⟩
    rw [hhas, Bool.false_or, Bool.and_eq_true] at hiff
    exact (hiff.1 hhas1).symm
  rename_i hhas1
  rw [if_neg hhas1]
  rw [hhas, Bool.false_or, Bool.and_eq_true] at hiff
  have hnone : map key = none := by
    rw [← Option.not_isSome_iff_eq_none, ← hiff]
    exact hhas1
  rw [update_eq_self_iff.2 hnone.symm, hnone]
  exact ⟨hmoved, haddr, rfl⟩

/-- The conversion to `int` is harmless in a table it can address. -/
theorem dictKeyIndex_eq (haddr : Addressable d) (hwf : d.WF hash)
    (hpower : d.ht0.PowerSize) (hnew : hasKey hash d key = false) :
    dictKeyIndex hash d key =
      ((if d.isRehashing then d.ht1 else d.ht0).index hash key : ℤ) := by
  have hlt : (if d.isRehashing then d.ht1 else d.ht0).index hash key <
      2 ^ 30 := by
    split
    · rename_i hbusy
      obtain ⟨idx, hidx⟩ := Option.isSome_iff_exists.1 hbusy
      exact (index_lt_size hash (hwf.busy idx hidx).2.1 key).trans_le
        haddr.size1
    · exact (index_lt_size hash hpower key).trans_le haddr.size0
  rw [dictKeyIndex, hnew, if_neg Bool.false_ne_true, BitVec.toInt_ofNat']
  simp only [Nat.reducePow] at hlt ⊢
  rw [Int.bmod_def]
  omega

theorem Stores.dictAdd (hstores : Stores hash d map) (haddr : Addressable d)
    (key : K) (val : V)
    (hrequest : growRequest canResize
      (if d.isRehashing then dictRehashStep hash d else d) ≤ 2 ^ 30) :
    dictAddRaw hash canResize d key val =
        some (dictAdd hash canResize d key val) ∧
      Addressable (dictAdd hash canResize d key val).1 ∧
      (dictAdd hash canResize d key val).2 = (map key).isNone ∧
      Stores hash (dictAdd hash canResize d key val).1
        (if (map key).isSome then map else update map key (some val)) := by
  have hwf := wf_dictAdd hash hstores.wf canResize key val
  have hstores1 := hstores.rehashIfBusy
  have haddr1 := (moved_rehashIfBusy hash hstores.wf).2 haddr
  rw [dictAddRaw]
  rw [HashTable.dictAdd] at hwf ⊢
  generalize (if d.isRehashing then dictRehashStep hash d else d) = d1
    at hrequest hwf hstores1 haddr1 ⊢
  obtain ⟨hok, hmoved⟩ := moved_dictExpandIfNeeded hash hstores1.wf hrequest
  obtain ⟨hwf2, hpower⟩ := dictExpandIfNeeded_spec hash hstores1.wf canResize
  have haddr2 := hmoved.2 haddr1
  have hstores2 := hstores1.perm hwf2 hmoved.1
  replace hpower := hpower hok
  generalize dictExpandIfNeeded canResize d1 = r
    at hwf hok hpower haddr2 hstores2 ⊢
  clear hmoved hwf2
  obtain ⟨d2, ok⟩ := r
  subst hok
  dsimp only at *
  cases hkey : map key with
  | some old =>
    have hhas : hasKey hash d2 key = true := by
      rw [hstores2.hasKey_iff key, hkey]
      rfl
    rw [if_pos hhas]
    exact ⟨by simp [dictKeyIndex, hhas], haddr2, rfl, hstores2⟩
  | none =>
    have hhas : ¬ hasKey hash d2 key = true := by
      rw [hstores2.hasKey_iff key, hkey]
      exact Bool.false_ne_true
    have hindex := dictKeyIndex_eq haddr2 hstores2.wf hpower
      (Bool.eq_false_iff.2 hhas)
    rw [if_neg hhas] at hwf ⊢
    have hlists := hstores2.lists.cons hkey val
    by_cases hbusy : d2.isRehashing = true
    · obtain ⟨idx, hidx⟩ := Option.isSome_iff_exists.1 hbusy
      have hlt := index_lt_size hash (hstores2.wf.busy idx hidx).2.1 key
      have hpush := entries_pushFront d2.ht1 hlt (key, val)
      rw [if_pos hbusy] at hwf hindex
      rw [hindex, if_neg (by omega), if_neg (by omega), Int.toNat_natCast,
        if_pos hbusy, if_pos hbusy]
      exact ⟨rfl, haddr2.with_ht1 (size_pushFront _ _ _), rfl, hwf,
        hlists.perm ((hpush.append_left _).trans perm_middle).symm⟩
    have hpush := entries_pushFront d2.ht0 (index_lt_size hash hpower key)
      (key, val)
    rw [if_neg hbusy] at hwf hindex
    rw [hindex, if_neg (by omega), if_neg (by omega), Int.toNat_natCast,
      if_neg hbusy, if_neg hbusy]
    exact ⟨rfl, haddr2.with_ht0 (size_pushFront _ _ _), rfl, hwf,
      hlists.perm (hpush.append_right _).symm⟩

theorem Stores.setVal (hstores : Stores hash d map) (hkey : (map key).isSome)
    (val : V) :
    Stores hash (setVal hash d key val) (update map key (some val)) ∧
      (Addressable d → Addressable (setVal hash d key val)) := by
  have hwf := wf_setVal hash hstores.wf key val
  have hhas := (hstores.hasKey_iff key).2 hkey
  rw [hasKey, Bool.or_eq_true, Bool.and_eq_true] at hhas
  rw [HashTable.setVal] at hwf ⊢
  dsimp only at hwf ⊢
  by_cases hhas0 : chainHas (d.ht0.bucket (d.ht0.index hash key)) key = true
  · obtain ⟨old, rest, hperm, _, hset, _⟩ := table_split hash hhas0
    rw [if_pos hhas0] at hwf ⊢
    have hlists := hstores.lists.perm (hperm.append_right d.ht1.entries)
    exact ⟨⟨hwf, (hlists.set val).perm
      ((hset val d.ht0.used).append_right d.ht1.entries).symm⟩,
      fun haddr => haddr.with_ht0 (size_set _ _ _ _)⟩
  obtain ⟨hbusy, hhas1⟩ := hhas.resolve_left hhas0
  obtain ⟨old, rest, hperm, _, hset, _⟩ := table_split hash hhas1
  rw [if_neg hhas0, if_pos hbusy] at hwf ⊢
  have hlists := hstores.lists.perm
    ((hperm.append_left d.ht0.entries).trans perm_middle)
  exact ⟨⟨hwf, (hlists.set val).perm (((hset val d.ht1.used).append_left
    d.ht0.entries).trans perm_middle).symm⟩,
    fun haddr => haddr.with_ht1 (size_set _ _ _ _)⟩

theorem Stores.dictReplaceRaw (hstores : Stores hash d map)
    (haddr : Addressable d) (key : K) (val : V)
    (hrequest : growRequest canResize
      (if d.isRehashing then dictRehashStep hash d else d) ≤ 2 ^ 30) :
    ∃ d', dictReplaceRaw hash canResize d key val =
        some (d', (map key).isNone) ∧ Addressable d' ∧
      Stores hash d' (update map key (some val)) := by
  obtain ⟨hraw, haddr1, hok, hstores1⟩ :=
    hstores.dictAdd haddr key val hrequest
  rw [HashTable.dictReplaceRaw, hraw]
  generalize HashTable.dictAdd hash canResize d key val = r
    at haddr1 hok hstores1 ⊢
  obtain ⟨d1, ok⟩ := r
  dsimp only at haddr1 hok hstores1
  subst hok
  cases hkey : map key with
  | none =>
    rw [hkey] at hstores1
    exact ⟨d1, rfl, haddr1, hstores1⟩
  | some old =>
    rw [hkey, Option.isSome_some, if_pos rfl] at hstores1
    obtain ⟨hfound, haddr2, hval⟩ := hstores1.dictFind key
    obtain ⟨hset, haddr3⟩ := hfound.setVal (by rw [hkey]; rfl) val
    refine ⟨_, ?_, haddr3 (haddr2 haddr1), hset⟩
    simp [hval, hkey]

/-- One operation answers as the map does and keeps the dictionary in step
with it. -/
theorem Op.call_spec (hstores : Stores hash d map) (haddr : Addressable d)
    (op : Op K V) (hrequest : op.request hash d ≤ 2 ^ 30) :
    ∃ d', op.call hash d = some (d', (op.mean map).2) ∧ Addressable d' ∧
      Stores hash d' (op.mean map).1 := by
  cases op with
  | add canResize key val =>
    obtain ⟨hraw, haddr1, hok, hstores1⟩ :=
      hstores.dictAdd haddr key val hrequest
    refine ⟨_, ?_, haddr1, ?_⟩
    · rw [Op.call, hraw, Option.map_some, hok, Op.mean]
      cases map key <;> rfl
    · rw [Op.mean]
      cases hkey : map key <;> simpa [hkey] using hstores1
  | replace canResize key val =>
    obtain ⟨d', hcall, haddr1, hstores1⟩ :=
      hstores.dictReplaceRaw haddr key val hrequest
    exact ⟨d', by rw [Op.call, hcall]; rfl, haddr1, hstores1⟩
  | delete key =>
    obtain ⟨hstores1, haddr1, hok⟩ := hstores.dictDelete key
    exact ⟨_, by rw [Op.call, hok]; rfl, haddr1 haddr, hstores1⟩
  | find key =>
    obtain ⟨hstores1, haddr1, hval⟩ := hstores.dictFind key
    exact ⟨_, by rw [Op.call, hval]; rfl, haddr1 haddr, hstores1⟩
  | expand size =>
    have hmoved : Moved d (dictExpand d size).1 :=
      moved_dictExpand hash hstores.wf fun hidle => by
        simpa [Op.request, hidle] using hrequest
    exact ⟨_, rfl, hmoved.2 haddr,
      hstores.perm (dictExpand_spec hash hstores.wf size).1 hmoved.1⟩
  | resize canResize =>
    have hmoved := moved_dictResize hash hstores.wf hrequest
    exact ⟨_, rfl, hmoved.2 haddr,
      hstores.perm (wf_dictResize hash hstores.wf canResize) hmoved.1⟩
  | rehash n =>
    have hmoved := moved_dictRehash hash hstores.wf n
    exact ⟨_, rfl, hmoved.2 haddr,
      hstores.perm (wf_dictRehash hash hstores.wf n) hmoved.1⟩
  | pause =>
    exact ⟨_, rfl, ⟨haddr.size0, haddr.size1, haddr.rehashidx⟩,
      hstores.perm (wf_apply hash hstores.wf .pause) (List.Perm.refl _)⟩
  | resume =>
    exact ⟨_, rfl, ⟨haddr.size0, haddr.size1, haddr.rehashidx⟩,
      hstores.perm (wf_apply hash hstores.wf .resume) (List.Perm.refl _)⟩

/-- What a dictionary has to look like after a run that amounts to `map`. -/
structure Represents (hash : K → BitVec 32) (d : Dict K V)
    (map : K → Option V) : Prop where
  lookup : ∀ key, (dictFind hash d key).2 = map key
  once : (d.entries.map Prod.fst).Nodup
  stored : ∀ key val, (key, val) ∈ d.entries ↔ map key = some val
  placed0 : ∀ index, ∀ entry ∈ d.ht0.bucket index,
    d.ht0.index hash entry.1 = index
  placed1 : ∀ index, ∀ entry ∈ d.ht1.bucket index,
    d.ht1.index hash entry.1 = index
  drained : ∀ idx, d.rehashidx = some idx → ∀ i < idx, d.ht0.bucket i = []
  used : d.ht0.used + d.ht1.used = Set.ncard {key | (map key).isSome}

theorem Stores.represents (hstores : Stores hash d map) :
    Represents hash d map where
  lookup := fun key => (hstores.dictFind key).2.2
  once := hstores.lists.nodup
  stored := hstores.lists.mem_iff
  placed0 := hstores.wf.wf0.placed
  placed1 := hstores.wf.wf1.placed
  drained := fun idx hidx => (hstores.wf.busy idx hidx).2.2
  used := by
    rw [hstores.lists.ncard, Dict.entries, length_append, length_entries,
      length_entries, hstores.wf.wf0.used_eq, hstores.wf.wf1.used_eq]

/-- No operation of the run asks for a table of more than `2 ^ 30` buckets. -/
def Requests (hash : K → BitVec 32) (d : Dict K V) : List (Op K V) → Prop
  | [] => True
  | op :: ops => op.request hash d ≤ 2 ^ 30 ∧
      ∀ d' answer, op.call hash d = some (d', answer) → Requests hash d' ops

omit map in
theorem callAll_cons {d d1 d2 : Dict K V} {op : Op K V} {ops : List (Op K V)}
    {answer : Answer V} {answers : List (Answer V)}
    (hcall : op.call hash d = some (d1, answer))
    (hint : ¬ d1.rehashidx.any (2 ^ 31 ≤ ·) = true)
    (hcalls : callAll hash d1 ops = some (d2, answers)) :
    callAll hash d (op :: ops) = some (d2, answer :: answers) := by
  simp only [callAll, hcall, Option.bind_eq_bind, Option.bind_some,
    if_neg hint, hcalls]

theorem callAll_spec (hstores : Stores hash d map) (haddr : Addressable d)
    (ops : List (Op K V)) (hrequests : Requests hash d ops) :
    ∃ d', callAll hash d ops = some (d', (meanAll map ops).2) ∧
      Stores hash d' (meanAll map ops).1 := by
  induction ops generalizing d map with
  | nil => exact ⟨d, rfl, hstores⟩
  | cons op ops ih =>
    obtain ⟨hrequest, hrest⟩ := hrequests
    obtain ⟨d1, hcall, haddr1, hstores1⟩ :=
      Op.call_spec hstores haddr op hrequest
    obtain ⟨d2, hcalls, hstores2⟩ := ih hstores1 haddr1 (hrest _ _ hcall)
    have hint : ¬ d1.rehashidx.any (2 ^ 31 ≤ ·) = true := by
      cases hidx : d1.rehashidx with
      | none => exact Bool.false_ne_true
      | some idx =>
        have hle := haddr1.rehashidx idx hidx
        have hsize := haddr1.size0
        simp only [Option.any_some, decide_eq_true_eq]
        omega
    exact ⟨d2, callAll_cons hcall hint hcalls, hstores2⟩

omit [DecidableEq K] in
theorem stores_create : Stores hash (Dict.create : Dict K V) fun _ => none :=
  ⟨wf_create hash, lists_nil⟩

end Refinement

/-- Under any hash function, a run whose tables stay addressable answers as a
finite map and leaves a dictionary that represents it. -/
theorem callAll_represents [DecidableEq K] (hash : K → BitVec 32)
    (ops : List (Op K V)) (hrequests : Requests hash Dict.create ops) :
    ∃ d, callAll hash Dict.create ops =
        some (d, (meanAll (fun _ => none) ops).2) ∧
      Represents hash d (meanAll (fun _ => none) ops).1 := by
  have haddr : Addressable (Dict.create : Dict K V) :=
    ⟨Nat.zero_le _, Nat.zero_le _, fun idx hidx => by cases hidx⟩
  obtain ⟨d, hcalls, hstores⟩ :=
    callAll_spec stores_create haddr ops hrequests
  exact ⟨d, hcalls, hstores.represents⟩

/-- Two keys of one bucket, one of them replaced and the other deleted. -/
theorem callAll_represents_colliding :
    Requests (fun _ : Bool => 7#32) (Dict.create : Dict Bool ℕ)
        [.add true true 1, .add true false 2, .replace true true 3,
          .delete false] ∧
      ∃ d : Dict Bool ℕ, callAll (fun _ => 7#32) Dict.create
          [.add true true 1, .add true false 2, .replace true true 3,
            .delete false] =
        some (d, [.flag true, .flag true, .flag false, .flag true]) ∧
      d.size = 1 := by
  have hrequests : Requests (fun _ : Bool => 7#32) (Dict.create : Dict Bool ℕ)
      [.add true true 1, .add true false 2, .replace true true 3,
        .delete false] := by
    refine ⟨by decide, fun d1 a1 h1 => ?_⟩
    cases h1
    refine ⟨by decide, fun d2 a2 h2 => ?_⟩
    cases h2
    refine ⟨by decide, fun d3 a3 h3 => ?_⟩
    cases h3
    exact ⟨by decide, fun _ _ _ => trivial⟩
  obtain ⟨d, hcalls, hrep⟩ := callAll_represents _ _ hrequests
  refine ⟨hrequests, d, hcalls, ?_⟩
  rw [Dict.size, hrep.used, Set.ncard_eq_one]
  exact ⟨true, Set.ext fun key => by cases key <;> decide⟩

/-- In a table of `2 ^ 32` buckets the last index reads as `-1`, the answer
for a key that exists. -/
theorem dictAddRaw_last_bucket [DecidableEq K] (hash : K → BitVec 32)
    {d : Dict K V} (canResize : Bool) (key : K) (val : V)
    (hidle : d.isRehashing = false) (hsize : d.ht0.size = 2 ^ 32)
    (hused : d.ht0.used = 0) (hempty : ∀ index, d.ht0.bucket index = [])
    (hhash : hash key = 0xFFFFFFFF#32) :
    dictAddRaw hash canResize d key val = some (d, false) := by
  have hgrow : dictExpandIfNeeded canResize d = (d, true) := by
    rw [dictExpandIfNeeded, hsize, hused, hidle, if_neg Bool.false_ne_true,
      if_neg (by decide), if_neg (by simp)]
  have habsent : ¬ hasKey hash d key = true := by
    rw [hasKey, hempty, hidle]
    exact Bool.false_ne_true
  have hindex : dictKeyIndex hash d key = -1 := by
    rw [dictKeyIndex, if_neg habsent, hidle]
    dsimp only [index, sizemask]
    rw [if_neg Bool.false_ne_true, hsize, hhash]
    decide
  rw [dictAddRaw, hidle, if_neg Bool.false_ne_true]
  dsimp only
  rw [hgrow]
  dsimp only
  rw [if_pos hindex]

theorem dictFind_empty [DecidableEq K] (hash : K → BitVec 32) {d : Dict K V}
    (hidle : d.isRehashing = false) (hempty : ∀ index, d.ht0.bucket index = [])
    (key : K) : dictFind hash d key = (d, none) := by
  rw [dictFind, hidle, if_neg Bool.false_ne_true]
  split
  · rfl
  · dsimp only
    rw [hempty, hidle]
    rfl

theorem callAll_refuses_absent_key :
    ∃ d : Dict Unit ℕ,
      callAll (fun _ => 0xFFFFFFFF#32) Dict.create
          [.expand (2 ^ 32), .add true () 1, .find ()] =
        some (d, [.done, .flag false, .found none]) ∧
      (meanAll (fun _ : Unit => (none : Option ℕ))
          [.expand (2 ^ 32), .add true () 1, .find ()]).2 =
        [.done, .flag true, .found (some 1)] := by
  have hexpand : (dictExpand (Dict.create : Dict Unit ℕ) (2 ^ 32)).1 =
      ⟨alloc (2 ^ 32), reset, none, 0⟩ := by
    have hpower : dictNextPower (2 ^ 32) = 2 ^ 32 := by decide
    rw [dictExpand, if_neg (by decide), hpower]
    rfl
  have hsize : (alloc (2 ^ 32) : Dictht Unit ℕ).size = 2 ^ 32 :=
    length_replicate
  have hempty : ∀ index,
      (alloc (2 ^ 32) : Dictht Unit ℕ).bucket index = [] := by
    intro index
    rw [bucket, alloc, getD_eq_getElem?_getD, List.getElem?_replicate]
    split <;> rfl
  have hused : (alloc (2 ^ 32) : Dictht Unit ℕ).used = 0 := rfl
  -- from here on the bucket array is never evaluated
  generalize (alloc (2 ^ 32) : Dictht Unit ℕ) = ht at *
  refine ⟨⟨ht, reset, none, 0⟩, ?_, rfl⟩
  have hidle : (⟨ht, reset, none, 0⟩ : Dict Unit ℕ).isRehashing = false :=
    rfl
  have hadd := dictAddRaw_last_bucket (fun _ : Unit => 0xFFFFFFFF#32) true () 1
    hidle hsize hused hempty rfl
  have hfind := dictFind_empty (fun _ : Unit => 0xFFFFFFFF#32) hidle hempty ()
  have hcall1 : Op.call (fun _ => 0xFFFFFFFF#32) Dict.create
      (.expand (2 ^ 32) : Op Unit ℕ) =
        some (⟨ht, reset, none, 0⟩, .done) := by
    rw [Op.call, Op.apply, hexpand] <;> simp
  have hcall2 : Op.call (fun _ => 0xFFFFFFFF#32) ⟨ht, reset, none, 0⟩
      (.add true () 1) =
        some (⟨ht, reset, none, 0⟩, .flag false) := by
    rw [Op.call, hadd]
    rfl
  have hcall3 : Op.call (fun _ => 0xFFFFFFFF#32) ⟨ht, reset, none, 0⟩
      (.find ()) = some (⟨ht, reset, none, 0⟩, .found none) := by
    rw [Op.call, hfind]
  exact callAll_cons hcall1 Bool.false_ne_true
    (callAll_cons hcall2 Bool.false_ne_true
      (callAll_cons hcall3 Bool.false_ne_true rfl))

end RedisV8.HashTable
