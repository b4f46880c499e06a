import RedisV8.Dict.FiniteMap
import RedisV8.Dict.Scan

/-!
# The scan of a table that does not change

Between calls that find the same table the cursor counts through the buckets
of the smaller table in reversed-bit order.  It never carries bits above the
mask, so the expansion loop starts at the bottom every time and each bucket of
the larger table is emitted with the one bucket of the smaller table it
extends.
-/

namespace RedisV8.HashTable

open ReverseCounter List

variable {K V : Type*} {hash : K → BitVec 32} {d : Dict K V}

/-- The cursor after a number of calls, the first of them at zero. -/
def cursorAfter (d : Dict K V) (calls : ℕ) : BitVec 64 :=
  (fun v => (dictScan d v).2)^[calls] 0

/-- The entries that a number of calls pass to the callback. -/
def scannedBy (d : Dict K V) (calls : ℕ) : List (K × V) :=
  (range calls).flatMap fun i => (dictScan d (cursorAfter d i)).1

/-- The buckets of the smaller live table. -/
def scanSize (d : Dict K V) : ℕ :=
  if d.isRehashing then d.bySize.1.size else d.ht0.size

section Buckets

theorem flatMap_bucket (ht : Dictht K V) :
    (range ht.size).flatMap ht.bucket = ht.entries := by
  have htable : (range ht.size).map ht.bucket = ht.table := by
    refine ext_getElem (by simp [Dictht.size]) fun i _ hi => ?_
    simp [Dictht.bucket, getElem?_eq_getElem hi]
  rw [flatMap_def, htable, Dictht.entries]

/-- Every number below a product, by its remainder and its quotient. -/
theorem perm_range_mul (a b : ℕ) :
    ((range a).flatMap fun j => (range b).map fun i => j + a * i).Perm
      (range (a * b)) := by
  induction b with
  | zero => simp
  | succ b ih =>
    simp only [range_succ, map_append, map_singleton]
    refine (flatMap_append_perm _ _ _).symm.trans ?_
    rw [Nat.mul_succ, range_add]
    refine ih.append (.of_eq ?_)
    rw [← map_eq_flatMap]
    exact map_congr_left fun j _ => Nat.add_comm j (a * b)

theorem perm_flatMap_mul {α : Type*} (a b : ℕ) (g : ℕ → List α) :
    ((range a).flatMap fun j => (range b).flatMap fun i => g (j + a * i)).Perm
      ((range (a * b)).flatMap g) := by
  have hperm := (perm_range_mul a b).flatMap_right g
  rw [flatMap_assoc] at hperm
  simpa only [flatMap_map] using hperm

end Buckets

/-- A call on a table with entries advances the cursor under the mask of the
smaller table, and emits what belongs to a bucket of that table if the cursor
has no bits above the mask. -/
theorem exists_emitted (hwf : d.WF hash) (hsize : d.size ≠ 0) :
    ∃ k f, k ≤ 63 ∧ scanSize d = 2 ^ k ∧
      (∀ v, (dictScan d v).2 = advance (lowMask 64 k) v) ∧
      (∀ v : BitVec 64, v.toNat < 2 ^ k → (dictScan d v).1 = f v.toNat) ∧
      ((range (2 ^ k)).flatMap f).Perm d.entries := by
  by_cases hbusy : d.isRehashing
  · obtain ⟨k0, k1, hle, hk, hsize0, hsize1, -, -⟩ := bySize_spec hash hwf hbusy
    have hfuel : 2 ^ (k1 - k0) ≤ d.bySize.2.size := by
      rw [hsize1]
      exact Nat.pow_le_pow_right (by omega) (Nat.sub_le _ _)
    have hexpansions := fun v => scanExpansions_eq hle hk hsize1 d.bySize.2.size
      v (by omega)
    have hscan : ∀ v, dictScan d v = (d.bySize.1.chainAt v ++
        (scanExpansions d.bySize.2 (lowMask 64 k0) d.bySize.2.size v).1,
        advanceCursor (lowMask 64 k0)
          (scanExpansions d.bySize.2 (lowMask 64 k0) d.bySize.2.size v).2) := by
      intro v
      rw [dictScan, if_neg hsize, if_neg (by simpa using hbusy),
        ← mask_eq_lowMask hsize0]
    refine ⟨k0, fun j => d.bySize.1.bucket j ++ (range (2 ^ (k1 - k0))).flatMap
      fun i => d.bySize.2.bucket (j + 2 ^ k0 * i), by omega,
      by rw [scanSize, if_pos hbusy, hsize0], fun v => ?_, fun v hv => ?_, ?_⟩
    · rw [hscan, advanceCursor_eq]
      exact advance_congr (by omega) (hexpansions v).2
    · rw [hscan, (hexpansions v).1, chainAt_eq (by omega) hsize0,
        Nat.mod_eq_of_lt hv, Nat.div_eq_of_lt hv, Nat.zero_mod, Nat.sub_zero,
        range_eq_range']
    refine (flatMap_append_perm _ _ _).symm.trans ?_
    have hlarge := perm_flatMap_mul (2 ^ k0) (2 ^ (k1 - k0)) d.bySize.2.bucket
    rw [← pow_add, Nat.add_sub_cancel' hle, ← hsize1, flatMap_bucket] at hlarge
    have hsmall := flatMap_bucket d.bySize.1
    rw [hsize0] at hsmall
    rw [hsmall]
    refine (hlarge.append_left _).trans ?_
    rw [Dict.bySize, Dict.entries]
    split
    · exact perm_append_comm
    · exact .refl _
  · have hidle : d.rehashidx = none := by simpa [Dict.isRehashing] using hbusy
    have hempty := hwf.idle hidle
    have hne : d.ht0.size ≠ 0 := by
      intro hzero
      have hused := hwf.wf0.used_eq
      rw [← length_entries, ← flatMap_bucket, hzero] at hused
      rw [Dict.size, hempty] at hsize
      exact hsize hused
    obtain ⟨k, -, hk, hsize0⟩ := hwf.size0.resolve_left hne
    have hscan : ∀ v, dictScan d v =
        (d.ht0.chainAt v, advanceCursor d.ht0.mask v) := by
      intro v
      rw [dictScan, if_neg hsize, if_pos (by simpa using hbusy)]
    refine ⟨k, d.ht0.bucket, hk, by rw [scanSize, if_neg hbusy, hsize0],
      fun v => ?_, fun v hv => ?_, ?_⟩
    · rw [hscan, mask_eq_lowMask hsize0, advanceCursor_eq]
    · rw [hscan, chainAt_eq hk hsize0, Nat.mod_eq_of_lt hv]
    · rw [← hsize0, flatMap_bucket, Dict.entries, hempty, entries_reset,
        append_nil]

/-- A scan of an unchanging table with entries emits each of them once, and is
back at cursor zero after as many calls as the smaller table has buckets, not
before. -/
theorem scan_emits_once (hwf : d.WF hash) (hsize : d.size ≠ 0) :
    (scannedBy d (scanSize d)).Perm d.entries ∧
      cursorAfter d (scanSize d) = 0 ∧
      ∀ calls, 0 < calls → calls < scanSize d → cursorAfter d calls ≠ 0 := by
  obtain ⟨k, f, hk, hbuckets, hnext, hemits, hperm⟩ := exists_emitted hwf hsize
  have hcursor : cursorAfter d = fun i => (advance (lowMask 64 k))^[i] 0 := by
    rw [← funext hnext]
    rfl
  have horder : ∀ i < 2 ^ k, order (cursorAfter d i) = i * 2 ^ (64 - k) := by
    rw [hcursor]
    exact fun i hi => order_iterate_advance (by omega) hi
  have hlow : ∀ i < 2 ^ k, (cursorAfter d i).toNat < 2 ^ k :=
    fun i hi => toNat_lt_of_order (by omega) (horder i hi)
  rw [hbuckets]
  refine ⟨?_, ?_, fun i hpos hi hzero => ?_⟩
  · -- the cursors are the buckets of the smaller table in some order
    have hnodup : ((range (2 ^ k)).map fun i => (cursorAfter d i).toNat).Nodup := by
      refine Nodup.map_on (fun i hi j hj heq => ?_) nodup_range
      have horders := congrArg order (BitVec.eq_of_toNat_eq heq)
      rw [horder i (mem_range.mp hi), horder j (mem_range.mp hj)] at horders
      exact Nat.eq_of_mul_eq_mul_right (by positivity) horders
    have hcursors : ((range (2 ^ k)).map fun i => (cursorAfter d i).toNat).Perm
        (range (2 ^ k)) := by
      refine (subperm_of_subset hnodup fun n hn => ?_).perm_of_length_le (by simp)
      obtain ⟨i, hi, rfl⟩ := mem_map.mp hn
      exact mem_range.mpr (hlow i (mem_range.mp hi))
    have hscanned : scannedBy d (2 ^ k) =
        ((range (2 ^ k)).map fun i => (cursorAfter d i).toNat).flatMap f := by
      rw [scannedBy, flatMap_map]
      exact flatMap_congr fun i hi => hemits _ (hlow i (mem_range.mp hi))
    rw [hscanned]
    exact (hcursors.flatMap_right f).trans hperm
  · rw [hcursor]
    exact iterate_advance_two_pow (by omega)
  · have hzero' := horder i hi
    rw [hzero, show order (0 : BitVec 64) = 0 from order_zero] at hzero'
    have hpos' : 0 < i * 2 ^ (64 - k) := by positivity
    omega

/-- The table of 8 buckets in the middle of its rehash to 4. -/
theorem scan_emits_once_shrinking :
    (scannedBy ((Op.resize true).apply plainHash (singleton4 8)) 4).Perm [(4, ())]
      ∧ cursorAfter ((Op.resize true).apply plainHash (singleton4 8)) 4 = 0 := by
  have hwf := wf_apply plainHash (wf_singleton4 8) (.resize true)
  obtain ⟨hperm, hzero, -⟩ := scan_emits_once hwf (by decide)
  exact ⟨hperm, hzero⟩

end RedisV8.HashTable
