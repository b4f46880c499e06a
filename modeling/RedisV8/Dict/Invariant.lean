import RedisV8.Dict.Table

/-!
# The representation invariant of the hash table

Table sizes are powers of two, every entry hangs in the bucket its hash
selects, the `used` counters are exact, the second table is in use only during
a rehash, and during one the buckets below `rehashidx` are empty.  Every
operation of `dict.c` keeps the invariant.
-/

namespace RedisV8.HashTable

open List Dictht

variable {K V : Type*} (hash : K → BitVec 32) {ht : Dictht K V} {d : Dict K V}

/-- Number of entries linked in a table. -/
def Dictht.count (ht : Dictht K V) : ℕ := (ht.table.map length).sum

/-- Entries are where lookups search for them and the counter is exact. -/
structure Dictht.WF (ht : Dictht K V) : Prop where
  placed : ∀ index, ∀ entry ∈ ht.bucket index,
    ht.index hash entry.1 = index
  used_eq : ht.used = ht.count

/-- A bucket array allocated by `dictExpand`. -/
def Dictht.PowerSize (ht : Dictht K V) : Prop :=
  ∃ k, 2 ≤ k ∧ k ≤ 63 ∧ ht.size = 2 ^ k

/-- The invariant of a whole dictionary. -/
structure Dict.WF (d : Dict K V) : Prop where
  wf0 : d.ht0.WF hash
  wf1 : d.ht1.WF hash
  size0 : d.ht0.size = 0 ∨ d.ht0.PowerSize
  idle : d.rehashidx = none → d.ht1 = reset
  busy : ∀ idx, d.rehashidx = some idx →
    d.ht0.PowerSize ∧ d.ht1.PowerSize ∧ ∀ i < idx, d.ht0.bucket i = []

/-! ## Single tables -/

@[simp]
theorem bucket_reset (index : ℕ) :
    (reset : Dictht K V).bucket index = [] := by
  simp [reset, bucket]

@[simp]
theorem bucket_alloc (size index : ℕ) :
    (alloc size : Dictht K V).bucket index = [] := by
  by_cases hindex : index < size <;>
    simp [alloc, bucket, hindex]

theorem bucket_set (ht : Dictht K V) (used index other : ℕ)
    (chain : List (K × V)) :
    (mk (ht.table.set index chain) used).bucket other =
      if other = index ∧ index < ht.size then chain else ht.bucket other := by
  simp only [bucket, size, getD_eq_getElem?_getD, getElem?_set]
  by_cases heq : index = other
  · subst heq
    by_cases hlt : index < ht.table.length
    · simp [hlt]
    · simp [hlt]
  · simp [heq, Ne.symm heq]

@[simp]
theorem size_set (ht : Dictht K V) (used index : ℕ) (chain : List (K × V)) :
    (mk (ht.table.set index chain) used).size = ht.size := by
  simp [size]

@[simp]
theorem index_set (ht : Dictht K V) (used index : ℕ) (chain : List (K × V))
    (key : K) :
    (Dictht.mk (ht.table.set index chain) used).index hash key =
      ht.index hash key := by
  simp [Dictht.index, Dictht.sizemask]

theorem bucket_eq_nil_of_size_le (ht : Dictht K V) {index : ℕ}
    (hsize : ht.size ≤ index) : ht.bucket index = [] := by
  rw [bucket, getD_eq_default _ _ hsize]

/-- Replacing one chain changes the entry count by the two chain lengths. -/
theorem count_set (ht : Dictht K V) (used index : ℕ) (chain : List (K × V))
    (hindex : index < ht.size) :
    (mk (ht.table.set index chain) used).count +
        (ht.bucket index).length = ht.count + chain.length := by
  obtain ⟨table, _⟩ := ht
  simp only [Dictht.count, Dictht.bucket, Dictht.size] at hindex ⊢
  induction table generalizing index with
  | nil => simp at hindex
  | cons head tail ih =>
    cases index with
    | zero => simp; omega
    | succ index =>
      have hrec := ih index (by simpa using hindex)
      simp only [set_cons_succ, map_cons, sum_cons, getD_cons_succ]
      omega

theorem wf_reset : (Dictht.reset : Dictht K V).WF hash where
  placed := by simp
  used_eq := rfl

theorem wf_alloc (size : ℕ) : (Dictht.alloc size : Dictht K V).WF hash where
  placed := by simp
  used_eq := by simp [Dictht.alloc, Dictht.count]

theorem index_lt_size (hpower : ht.PowerSize) (key : K) :
    ht.index hash key < ht.size := by
  obtain ⟨k, _, _, hsize⟩ := hpower
  rw [index, sizemask, hsize, Nat.and_two_pow_sub_one_eq_mod]
  exact Nat.mod_lt _ (by positivity)

/-- Replacing one chain, with the counter set accordingly. -/
theorem wf_replaceChain (hwf : ht.WF hash) {index used : ℕ}
    {chain : List (K × V)}
    (hplaced : ∀ entry ∈ chain, ht.index hash entry.1 = index)
    (hlength : used + (ht.bucket index).length = ht.used + chain.length)
    (hout : ht.size ≤ index → chain.length = 0) :
    (mk (ht.table.set index chain) used).WF hash := by
  constructor
  · intro other entry hentry
    rw [index_set]
    rw [bucket_set] at hentry
    split at hentry
    · rename_i hindex
      rw [hindex.1]
      exact hplaced entry hentry
    · exact hwf.placed _ _ hentry
  have hused := hwf.used_eq
  by_cases hindex : index < ht.size
  · have hcount := count_set ht used index chain hindex
    dsimp only at hcount ⊢
    omega
  have hnil := bucket_eq_nil_of_size_le ht (Nat.le_of_not_lt hindex)
  have hset : ht.table.set index chain = ht.table :=
    set_eq_of_length_le (by simpa [size] using hindex)
  rw [hnil, hout (Nat.le_of_not_lt hindex)] at hlength
  simp only [hset, Dictht.count, length_nil] at hlength hused ⊢
  omega

theorem wf_pushFront (hwf : ht.WF hash) (hpower : ht.PowerSize)
    (entry : K × V) : (ht.pushFront (ht.index hash entry.1) entry).WF hash := by
  have hlt := index_lt_size hash hpower entry.1
  refine wf_replaceChain hash hwf (fun other hother => ?_) ?_
    fun hle => absurd hlt (Nat.not_lt.2 hle)
  · rcases mem_cons.1 hother with rfl | htail
    · rfl
    · exact hwf.placed _ _ htail
  · rw [length_cons]
    omega

@[simp]
theorem size_pushFront (ht : Dictht K V) (index : ℕ) (entry : K × V) :
    (ht.pushFront index entry).size = ht.size := size_set _ _ _ _

theorem powerSize_of_size_eq {other : Dictht K V}
    (hsize : other.size = ht.size) (hpower : ht.PowerSize) :
    other.PowerSize := by
  obtain ⟨k, hlow, hhigh, heq⟩ := hpower
  exact ⟨k, hlow, hhigh, hsize.trans heq⟩

theorem wf_moveChain (chain : List (K × V)) (hwf : ht.WF hash)
    (hpower : ht.PowerSize) :
    (moveChain hash chain ht).WF hash ∧
      (moveChain hash chain ht).size = ht.size := by
  induction chain generalizing ht with
  | nil => exact ⟨hwf, rfl⟩
  | cons entry chain ih =>
    have hpush := wf_pushFront hash hwf hpower entry
    have hsize := size_pushFront ht (ht.index hash entry.1) entry
    obtain ⟨hmoved, hmovedSize⟩ :=
      ih hpush (powerSize_of_size_eq hsize hpower)
    exact ⟨hmoved, hmovedSize.trans hsize⟩

theorem length_bucket_le (hwf : ht.WF hash) (index : ℕ) :
    (ht.bucket index).length ≤ ht.used := by
  by_cases hindex : index < ht.size
  · have hcount := count_set ht 0 index [] hindex
    rw [hwf.used_eq]
    simp only [length_nil] at hcount
    omega
  · rw [bucket_eq_nil_of_size_le ht (Nat.le_of_not_lt hindex)]
    exact Nat.zero_le _

/-- Replacing a chain by a sublist that dropped `removed` entries. -/
theorem wf_shrinkChain (hwf : ht.WF hash) (index removed : ℕ)
    {chain : List (K × V)} (hsub : chain.Sublist (ht.bucket index))
    (hlength : chain.length + removed = (ht.bucket index).length) :
    (mk (ht.table.set index chain) (ht.used - removed)).WF hash := by
  have hle := length_bucket_le hash hwf index
  refine wf_replaceChain hash hwf
    (fun entry hentry => hwf.placed _ _ (hsub.subset hentry)) (by omega) ?_
  intro hout
  rw [bucket_eq_nil_of_size_le ht hout, length_nil] at hlength
  omega

/-! ## Whole dictionaries -/

theorem wf_create : (Dict.create : Dict K V).WF hash where
  wf0 := wf_reset hash
  wf1 := wf_reset hash
  size0 := Or.inl rfl
  idle := fun _ => rfl
  busy := fun _ hidx => by simp [Dict.create] at hidx

theorem nextPowerLoop_eq (size fuel k : ℕ) (hfit : size ≤ 2 ^ (k + fuel)) :
    ∃ j, k ≤ j ∧ j ≤ k + fuel ∧ nextPowerLoop size fuel (2 ^ k) = 2 ^ j ∧
      size ≤ 2 ^ j := by
  induction fuel generalizing k with
  | zero => exact ⟨k, le_rfl, by omega, rfl, hfit⟩
  | succ fuel ih =>
    rw [nextPowerLoop]
    split
    · rename_i hle
      exact ⟨k, le_rfl, by omega, rfl, hle⟩
    rw [← pow_succ]
    obtain ⟨j, hlow, hhigh, heq, hle⟩ := ih (k + 1) (by
      rwa [show k + 1 + fuel = k + (fuel + 1) by omega])
    exact ⟨j, by omega, by omega, heq, hle⟩

theorem powerSize_alloc {size : ℕ} (hsize : size < longMax) :
    (Dictht.alloc (dictNextPower size) : Dictht K V).PowerSize := by
  have hfit : size ≤ 2 ^ (2 + 61) := by
    rw [longMax] at hsize
    omega
  obtain ⟨j, hlow, hhigh, heq, -⟩ := nextPowerLoop_eq size 61 2 hfit
  have hnext : dictNextPower size = 2 ^ j := by
    rw [dictNextPower, if_neg (by omega)]
    exact heq
  exact ⟨j, hlow, hhigh, by simp [Dictht.alloc, Dictht.size, hnext]⟩

/-- A growth that succeeds leaves a first table that can take an entry. -/
theorem dictExpand_spec (hwf : d.WF hash) (size : ℕ) :
    (dictExpand d size).1.WF hash ∧
      ((dictExpand d size).2 = true →
        (dictExpand d size).1.ht0.PowerSize) := by
  rw [dictExpand]
  split
  · exact ⟨hwf, fun hok => by cases hok⟩
  rename_i hok
  simp only [not_or, Bool.not_eq_true, not_lt, not_le, Dict.isRehashing,
    Option.isSome_eq_false_iff, Option.isNone_iff_eq_none] at hok
  obtain ⟨hidle, -, hbound⟩ := hok
  have hpower : (alloc (dictNextPower size) : Dictht K V).PowerSize :=
    powerSize_alloc hbound
  dsimp only
  split
  · refine ⟨⟨wf_alloc hash _, hwf.wf1, Or.inr hpower, hwf.idle, ?_⟩,
      fun _ => hpower⟩
    intro idx hidx
    simp [hidle] at hidx
  rename_i htable
  have hpower0 : d.ht0.PowerSize := by
    rcases hwf.size0 with hzero | hpow
    · exact absurd (length_eq_zero_iff.1 hzero) htable
    · exact hpow
  refine ⟨⟨hwf.wf0, wf_alloc hash _, hwf.size0, by simp, ?_⟩,
    fun _ => hpower0⟩
  intro idx hidx
  obtain rfl : 0 = idx := by simpa using hidx
  exact ⟨hpower0, hpower, by simp⟩

theorem wf_dictResize (hwf : d.WF hash) (canResize : Bool) :
    (dictResize canResize d).1.WF hash := by
  rw [dictResize]
  split
  · exact hwf
  · exact (dictExpand_spec hash hwf _).1

/-- The buckets stepped over while searching for the next chain are empty. -/
theorem bucket_skipEmpty (ht : Dictht K V) {idx i : ℕ} (hlow : idx ≤ i)
    (hhigh : i < skipEmpty ht idx) : ht.bucket i = [] := by
  obtain ⟨j, rfl⟩ := Nat.exists_eq_add_of_le hlow
  have hj : j < ((ht.table.drop idx).takeWhile List.isEmpty).length := by
    rw [skipEmpty] at hhigh
    omega
  have hempty := mem_takeWhile_imp
    (getElem_mem hj (l := (ht.table.drop idx).takeWhile isEmpty))
  have hpre := List.takeWhile_prefix List.isEmpty (l := ht.table.drop idx)
  rw [hpre.getElem hj, List.getElem_drop, List.isEmpty_iff] at hempty
  rw [bucket, List.getD_eq_getElem?_getD, List.getElem?_eq_getElem,
    Option.getD_some]
  exact hempty

theorem wf_rehashBucket (hwf : d.WF hash) {idx : ℕ}
    (hidx : d.rehashidx = some idx) : (rehashBucket hash d idx).WF hash := by
  obtain ⟨hpower0, hpower1, hempty⟩ := hwf.busy idx hidx
  rw [rehashBucket]
  split
  · exact ⟨hwf.wf1, wf_reset hash, Or.inr hpower1, fun _ => rfl, by simp⟩
  dsimp only
  set next := skipEmpty d.ht0 idx with hnext
  have hmoved := wf_moveChain hash (d.ht0.bucket next) hwf.wf1 hpower1
  have hsize0 : (mk (d.ht0.table.set next [])
      (d.ht0.used - (d.ht0.bucket next).length)).size = d.ht0.size :=
    size_set _ _ _ _
  refine ⟨wf_shrinkChain hash hwf.wf0 next _ (nil_sublist _)
    (Nat.zero_add _), hmoved.1, Or.inr (powerSize_of_size_eq hsize0 hpower0), by simp, ?_⟩
  intro idx' hidx'
  obtain rfl : next + 1 = idx' := by simpa using hidx'
  refine ⟨powerSize_of_size_eq hsize0 hpower0,
    powerSize_of_size_eq hmoved.2 hpower1, ?_⟩
  intro i hi
  rw [bucket_set]
  split
  · rfl
  rename_i hne
  by_cases hlow : i < idx
  · exact hempty i hlow
  by_cases hlt : i < next
  · exact bucket_skipEmpty d.ht0 (by omega) hlt
  obtain rfl : i = next := by omega
  exact bucket_eq_nil_of_size_le d.ht0 (by
    by_contra hsize
    exact hne ⟨rfl, by omega⟩)

section Rehash

variable {P : Dict K V → Prop} (hstep : ∀ d idx, d.WF hash →
  d.rehashidx = some idx → P d → P (rehashBucket hash d idx))

include hstep

/-- What the move of one bucket keeps, a rehash keeps. -/
theorem dictRehash_rule (hwf : d.WF hash) (hd : P d) (n : ℕ) :
    (dictRehash hash d n).WF hash ∧ P (dictRehash hash d n) := by
  induction n generalizing d with
  | zero => exact ⟨hwf, hd⟩
  | succ n ih =>
    rw [dictRehash]
    cases hidx : d.rehashidx with
    | none => exact ⟨hwf, hd⟩
    | some idx =>
      exact ih (wf_rehashBucket hash hwf hidx) (hstep d idx hwf hidx hd)

/-- The opportunistic step that every lookup and update starts with. -/
theorem rehashIfBusy_rule (hwf : d.WF hash) (hd : P d) :
    (if d.isRehashing then dictRehashStep hash d else d).WF hash ∧
      P (if d.isRehashing then dictRehashStep hash d else d) := by
  split
  · rw [dictRehashStep]
    split
    · exact dictRehash_rule hash hstep hwf hd 1
    · exact ⟨hwf, hd⟩
  · exact ⟨hwf, hd⟩

end Rehash

theorem wf_dictRehash (hwf : d.WF hash) (n : ℕ) :
    (dictRehash hash d n).WF hash :=
  (dictRehash_rule hash (P := fun _ => True) (fun _ _ _ _ h => h) hwf
    trivial n).1

theorem wf_rehashIfBusy (hwf : d.WF hash) :
    (if d.isRehashing then dictRehashStep hash d else d).WF hash :=
  (rehashIfBusy_rule hash (P := fun _ => True) (fun _ _ _ _ h => h) hwf
    trivial).1

theorem dictExpandIfNeeded_spec (hwf : d.WF hash) (canResize : Bool) :
    (dictExpandIfNeeded canResize d).1.WF hash ∧
      ((dictExpandIfNeeded canResize d).2 = true →
        (dictExpandIfNeeded canResize d).1.ht0.PowerSize) := by
  rw [dictExpandIfNeeded]
  split
  · rename_i hbusy
    obtain ⟨idx, hidx⟩ := Option.isSome_iff_exists.1 hbusy
    exact ⟨hwf, fun _ => (hwf.busy idx hidx).1⟩
  split
  · exact dictExpand_spec hash hwf _
  rename_i hzero
  split
  · exact dictExpand_spec hash hwf _
  · exact ⟨hwf, fun _ => hwf.size0.resolve_left hzero⟩

/-- Replacing the first table by one of the same size, no bucket of which
gained entries below `rehashidx`. -/
theorem wf_with_ht0 (hwf : d.WF hash) (hht : ht.WF hash)
    (hsize : ht.size = d.ht0.size)
    (hempty : ∀ i, d.isRehashing → d.ht0.bucket i = [] → ht.bucket i = []) :
    ({ d with ht0 := ht } : Dict K V).WF hash where
  wf0 := hht
  wf1 := hwf.wf1
  size0 := by
    rcases hwf.size0 with hzero | hpower
    · exact Or.inl (hsize.trans hzero)
    · exact Or.inr (powerSize_of_size_eq hsize hpower)
  idle := hwf.idle
  busy := by
    intro idx hidx
    obtain ⟨hpower0, hpower1, hbelow⟩ := hwf.busy idx hidx
    refine ⟨powerSize_of_size_eq hsize hpower0, hpower1, fun i hi => ?_⟩
    refine hempty i ?_ (hbelow i hi)
    rw [Dict.isRehashing]
    exact Option.isSome_iff_exists.2 ⟨idx, hidx⟩

theorem wf_with_ht1 (hwf : d.WF hash) (hht : ht.WF hash)
    (hsize : ht.size = d.ht1.size) (hbusy : d.isRehashing) :
    ({ d with ht1 := ht } : Dict K V).WF hash where
  wf0 := hwf.wf0
  wf1 := hht
  size0 := hwf.size0
  idle := by
    intro hidle
    have hnone : d.rehashidx = none := hidle
    simp [Dict.isRehashing, hnone] at hbusy
  busy := by
    intro idx hidx
    obtain ⟨hpower0, hpower1, hbelow⟩ := hwf.busy idx hidx
    exact ⟨hpower0, powerSize_of_size_eq hsize hpower1, hbelow⟩

variable [DecidableEq K]

theorem wf_dictAdd (hwf : d.WF hash) (canResize : Bool) (key : K) (val : V) :
    (dictAdd hash canResize d key val).1.WF hash := by
  unfold dictAdd
  set d1 := if d.isRehashing then dictRehashStep hash d else d with hd1
  have hwf1 : d1.WF hash := wf_rehashIfBusy hash hwf
  obtain ⟨hgrown, hpower⟩ := dictExpandIfNeeded_spec hash hwf1 canResize
  rcases hexp : dictExpandIfNeeded canResize d1 with ⟨d2, ok⟩
  rw [hexp] at hgrown hpower
  simp only [hexp]
  cases ok with
  | false => exact hgrown
  | true =>
    dsimp only
    split
    · exact hgrown
    split
    · rename_i hbusy
      obtain ⟨idx, hidx⟩ := Option.isSome_iff_exists.1 hbusy
      exact wf_with_ht1 hash hgrown
        (wf_pushFront hash hgrown.wf1 (hgrown.busy idx hidx).2.1 (key, val))
        (size_pushFront _ _ _) hbusy
    rename_i hbusy
    exact wf_with_ht0 hash hgrown
      (wf_pushFront hash hgrown.wf0 (hpower rfl) (key, val))
      (size_pushFront _ _ _) (fun _ h => absurd h hbusy)

theorem wf_unlink (hwf : ht.WF hash) {key : K}
    (hhas : chainHas (ht.bucket (ht.index hash key)) key = true) :
    (ht.unlink hash key).WF hash := by
  rw [unlink]
  apply wf_shrinkChain hash hwf _ 1 (eraseP_sublist ..)
  rw [chainHas, any_eq_true] at hhas
  obtain ⟨entry, hmem, hkey⟩ := hhas
  have hpos := length_pos_of_mem hmem
  rw [length_eraseP_of_mem hmem hkey]
  omega

theorem bucket_unlink_eq_nil (ht : Dictht K V) (key : K) {i : ℕ}
    (hnil : ht.bucket i = []) : (ht.unlink hash key).bucket i = [] := by
  rw [unlink, bucket_set]
  split
  · rename_i hi
    simp [← hi.1, hnil]
  · exact hnil

theorem wf_dictDelete (hwf : d.WF hash) (key : K) :
    (dictDelete hash d key).1.WF hash := by
  rw [dictDelete]
  split
  · exact hwf
  dsimp only
  set d1 := if d.isRehashing then dictRehashStep hash d else d with hd1
  have hwf1 : d1.WF hash := wf_rehashIfBusy hash hwf
  split
  · rename_i hhas
    exact wf_with_ht0 hash hwf1 (wf_unlink hash hwf1.wf0 hhas) (size_set _ _ _ _)
      (fun i _ hnil => bucket_unlink_eq_nil hash d1.ht0 key hnil)
  split
  · rename_i hhas
    exact wf_with_ht1 hash hwf1 (wf_unlink hash hwf1.wf1 hhas.2)
      (size_set _ _ _ _) hhas.1
  · exact hwf1

theorem wf_dictFind (hwf : d.WF hash) (key : K) :
    (dictFind hash d key).1.WF hash := by
  rw [dictFind]
  split
  · exact hwf
  dsimp only
  set d1 := if d.isRehashing then dictRehashStep hash d else d with hd1
  have hwf1 : d1.WF hash := wf_rehashIfBusy hash hwf
  split
  · exact hwf1
  · split <;> exact hwf1

theorem map_fst_chainSet (chain : List (K × V)) (key : K) (val : V) :
    (chainSet chain key val).map Prod.fst = chain.map Prod.fst := by
  induction chain with
  | nil => rfl
  | cons entry rest ih =>
    rw [chainSet]
    split
    · rename_i heq
      simp [heq]
    · simp [ih]

/-- Overwriting a value keeps the keys of the chain, hence the invariant. -/
theorem wf_setChain (hwf : ht.WF hash) (index : ℕ) (key : K) (val : V) :
    (mk (ht.table.set index (chainSet (ht.bucket index) key val))
      ht.used).WF hash := by
  have hkeys := map_fst_chainSet (ht.bucket index) key val
  have hlength := congrArg length hkeys
  rw [length_map, length_map] at hlength
  refine wf_replaceChain hash hwf (fun entry hentry => ?_) (by omega)
    fun hout => ?_
  · have hmem : entry.1 ∈ (ht.bucket index).map Prod.fst := by
      rw [← hkeys]
      exact mem_map_of_mem hentry
    obtain ⟨old, hold, hfst⟩ := mem_map.1 hmem
    rw [← hfst]
    exact hwf.placed _ _ hold
  · rw [hlength, bucket_eq_nil_of_size_le ht hout, length_nil]

theorem wf_setVal (hwf : d.WF hash) (key : K) (val : V) :
    (setVal hash d key val).WF hash := by
  rw [setVal]
  dsimp only
  split
  · refine wf_with_ht0 hash hwf (wf_setChain hash hwf.wf0 _ key val)
      (size_set _ _ _ _) (fun i _ hnil => ?_)
    rw [bucket_set]
    split
    · rename_i hi
      rw [← hi.1, hnil]
      rfl
    · exact hnil
  split
  · rename_i hbusy
    exact wf_with_ht1 hash hwf (wf_setChain hash hwf.wf1 _ key val)
      (size_set _ _ _ _) hbusy
  · exact hwf

theorem wf_dictReplace (hwf : d.WF hash) (canResize : Bool) (key : K)
    (val : V) : (dictReplace hash canResize d key val).1.WF hash := by
  have hadd := wf_dictAdd hash hwf canResize key val
  rw [dictReplace]
  rcases hres : dictAdd hash canResize d key val with ⟨d1, ok⟩
  rw [hres] at hadd
  cases ok with
  | true => exact hadd
  | false => exact wf_setVal hash (wf_dictFind hash hadd key) key val

/-! ## Runs of operations -/

/-- The calls that may come between two scan calls.  `pause` and `resume` are
the opening and closing of a safe iterator. -/
inductive Op (K V : Type*) where
  | add (canResize : Bool) (key : K) (val : V)
  | replace (canResize : Bool) (key : K) (val : V)
  | delete (key : K)
  | find (key : K)
  | expand (size : ℕ)
  | resize (canResize : Bool)
  | rehash (n : ℕ)
  | pause
  | resume
  deriving DecidableEq, Repr

def Op.apply (d : Dict K V) : Op K V → Dict K V
  | .add canResize key val => (dictAdd hash canResize d key val).1
  | .replace canResize key val => (dictReplace hash canResize d key val).1
  | .delete key => (dictDelete hash d key).1
  | .find key => (dictFind hash d key).1
  | .expand size => (dictExpand d size).1
  | .resize canResize => (dictResize canResize d).1
  | .rehash n => dictRehash hash d n
  | .pause => { d with iterators := d.iterators + 1 }
  | .resume => { d with iterators := d.iterators - 1 }

theorem wf_apply (hwf : d.WF hash) (op : Op K V) :
    (op.apply hash d).WF hash := by
  cases op with
  | add canResize key val => exact wf_dictAdd hash hwf canResize key val
  | replace canResize key val => exact wf_dictReplace hash hwf canResize key val
  | delete key => exact wf_dictDelete hash hwf key
  | find key => exact wf_dictFind hash hwf key
  | expand size => exact (dictExpand_spec hash hwf size).1
  | resize canResize => exact wf_dictResize hash hwf canResize
  | rehash n => exact wf_dictRehash hash hwf n
  | pause | resume => exact ⟨hwf.wf0, hwf.wf1, hwf.size0, hwf.idle, hwf.busy⟩

end RedisV8.HashTable
