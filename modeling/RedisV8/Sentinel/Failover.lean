import Mathlib.Data.List.Lex
import Mathlib.Data.List.Sort
import Mathlib.Data.Prod.Lex
import Mathlib.Order.WithBot
import RedisV8.Util.Cstring

/-!
# The promotion of a replica by Sentinel

One monitored master with its replicas, and the choice of the replica to
promote.  Times are those of `mstime`.
-/

namespace RedisV8.Sentinel

open Util

/-- What Sentinel knows of a replica. -/
structure Slave where
  down : Bool
  disconnected : Bool
  lastAvailTime : ℤ
  infoRefresh : ℤ
  masterLinkDownTime : ℤ
  slavePriority : BitVec 32
  slaveReplOffset : ℕ
  runid : Option Bytes
  deriving DecidableEq

structure Master where
  slaves : List Slave
  sDown : Bool
  sDownSinceTime : ℤ
  downAfterPeriod : ℤ

/-- The text of a run id as `strcasecmp` sees it. -/
def text (runid : Bytes) : List ℕ :=
  (runid.takeWhile (· ≠ 0)).map fun c => (tolower c).toNat

/-- The sign of the difference. -/
def strcasecmp (a b : Bytes) : ℤ :=
  if text a < text b then -1 else if text b < text a then 1 else 0

def compareSlavesForPromotion (a b : Slave) : ℤ :=
  if a.slavePriority ≠ b.slavePriority then
    (a.slavePriority - b.slavePriority).toInt
  else if b.slaveReplOffset < a.slaveReplOffset then -1
  else if a.slaveReplOffset < b.slaveReplOffset then 1
  else
    match a.runid, b.runid with
    | none, none => 0
    | none, some _ => 1
    | some _, none => -1
    | some x, some y => strcasecmp x y

/-- The tests that a replica has to pass. -/
def eligible (m : Master) (now : ℤ) (s : Slave) : Bool :=
  let maxMasterDownTime :=
    (if m.sDown then now - m.sDownSinceTime else 0) + m.downAfterPeriod * 10
  let infoValidityTime := if m.sDown then 1000 * 5 else 10000 * 3
  !s.down && !s.disconnected && now - s.lastAvailTime ≤ 1000 * 5 &&
    s.slavePriority ≠ 0 && now - s.infoRefresh ≤ infoValidityTime &&
    s.masterLinkDownTime ≤ maxMasterDownTime

def candidates (m : Master) (now : ℤ) : List Slave :=
  m.slaves.filter (eligible m now)

/-- `qsort` is the one of the C library, called with
`compareSlavesForPromotion`. -/
def sentinelSelectSlave (qsort : List Slave → List Slave) (m : Master)
    (now : ℤ) : Option Slave :=
  (qsort (candidates m now)).head?

/-- The comparison of members of a list is the one of a total preorder. -/
def Consistent (l : List Slave) : Prop :=
  ∃ le : Slave → Slave → Prop, (∀ a b c, le a b → le b c → le a c) ∧
    (∀ a b, le a b ∨ le b a) ∧ ∀ a ∈ l, ∀ b ∈ l,
      (compareSlavesForPromotion a b ≤ 0 ↔ le a b) ∧
      (0 ≤ compareSlavesForPromotion a b ↔ le b a)

/-- What the C library promises. -/
def Sorts (qsort : List Slave → List Slave) : Prop :=
  ∀ l, Consistent l → (qsort l).Perm l ∧
    (qsort l).Pairwise (compareSlavesForPromotion · · ≤ 0)

/-- What a replica is preferred by: a low priority number, a large offset and
a small run id, where a missing one comes last. -/
def rank (s : Slave) : ℤ ×ₗ (ℕᵒᵈ ×ₗ WithTop (List ℕ)) :=
  toLex (s.slavePriority.toInt, toLex (OrderDual.toDual s.slaveReplOffset,
    (s.runid.map text : Option (List ℕ))))

/-- The chosen replica is a candidate that none is preferred to. -/
def Best (m : Master) (now : ℤ) : Option Slave → Prop
  | none => candidates m now = []
  | some s => s ∈ candidates m now ∧ ∀ t ∈ candidates m now, rank s ≤ rank t

theorem compare_of_rank_lt {a b : Slave}
    (hrange : b.slavePriority.toInt - a.slavePriority.toInt < 2 ^ 31)
    (h : rank a < rank b) :
    compareSlavesForPromotion a b < 0 ∧ 0 < compareSlavesForPromotion b a := by
  rw [rank, rank, Prod.Lex.toLex_lt_toLex] at h
  rcases h with hlt | ⟨heq, h⟩
  · have hne : a.slavePriority ≠ b.slavePriority := fun h => by simp [h] at hlt
    simp only [compareSlavesForPromotion, hne, hne.symm, ne_eq,
      not_false_eq_true, if_true, BitVec.toInt_sub]
    dsimp only at hlt
    constructor <;> rw [Int.bmod_eq_of_le] <;> omega
  have heq := BitVec.eq_of_toInt_eq heq
  rw [Prod.Lex.toLex_lt_toLex] at h
  rcases h with hlt | ⟨hoffset, h⟩
  · have hlt : b.slaveReplOffset < a.slaveReplOffset := hlt
    simp [compareSlavesForPromotion, heq, hlt, hlt.not_gt]
  have hoffset : a.slaveReplOffset = b.slaveReplOffset := hoffset
  cases ha : a.runid with
  | none =>
    rw [ha] at h
    exact absurd h not_top_lt
  | some x =>
    cases hb : b.runid with
    | none => simp [compareSlavesForPromotion, heq, hoffset, ha, hb]
    | some y =>
      rw [ha, hb] at h
      have hlt : text x < text y := WithTop.coe_lt_coe.1 h
      simp [compareSlavesForPromotion, heq, hoffset, ha, hb, strcasecmp, hlt,
        hlt.not_gt]

theorem compare_of_rank_eq {a b : Slave} (h : rank a = rank b) :
    compareSlavesForPromotion a b = 0 := by
  have hpriority : a.slavePriority = b.slavePriority :=
    BitVec.eq_of_toInt_eq (congrArg (fun k => (ofLex k).1) h)
  have hoffset : a.slaveReplOffset = b.slaveReplOffset :=
    congrArg (fun k => (ofLex (ofLex k).2).1) h
  have hrunid : a.runid.map text = b.runid.map text :=
    congrArg (fun k => (ofLex (ofLex k).2).2) h
  cases ha : a.runid <;> cases hb : b.runid <;>
    simp_all [compareSlavesForPromotion, strcasecmp]

/-- Comparisons that do not overflow are those of the ranks. -/
theorem consistent_of_range {l : List Slave}
    (hrange : ∀ a ∈ l, ∀ b ∈ l,
      a.slavePriority.toInt - b.slavePriority.toInt < 2 ^ 31) :
    ∀ a ∈ l, ∀ b ∈ l,
      (compareSlavesForPromotion a b ≤ 0 ↔ rank a ≤ rank b) ∧
      (0 ≤ compareSlavesForPromotion a b ↔ rank b ≤ rank a) := by
  intro a ha b hb
  rcases lt_trichotomy (rank a) (rank b) with h | h | h
  · have hcmp := compare_of_rank_lt (hrange b hb a ha) h
    simp [h.le, h.not_ge, hcmp.1.le, hcmp.1]
  · simp [h, compare_of_rank_eq h]
  · have hcmp := compare_of_rank_lt (hrange a ha b hb) h
    simp [h.le, h.not_ge, hcmp.2.le, hcmp.2]

theorem Consistent.exists_sorted {l : List Slave} (hl : Consistent l) :
    ∃ l' : List Slave, l'.Perm l ∧
      l'.Pairwise (compareSlavesForPromotion · · ≤ 0) := by
  classical
  obtain ⟨le, htrans, htotal, hle⟩ := hl
  have : IsTrans Slave le := ⟨htrans⟩
  have : Std.Total le := ⟨htotal⟩
  have hperm := List.perm_insertionSort le l
  refine ⟨l.insertionSort le, hperm, ?_⟩
  refine (List.pairwise_insertionSort le l).imp_of_mem fun ha hb hab => ?_
  exact (hle _ (hperm.subset ha) _ (hperm.subset hb)).1.2 hab

/-- A library that gives nothing for a comparison that is not consistent. -/
theorem exists_sorts : ∃ qsort, Sorts qsort ∧
    ∀ l, ¬Consistent l → qsort l = [] := by
  have hex : ∀ l, ∃ l' : List Slave, (Consistent l → l'.Perm l ∧
      l'.Pairwise (compareSlavesForPromotion · · ≤ 0)) ∧
      (¬Consistent l → l' = []) := fun l => by
    by_cases hl : Consistent l
    · exact hl.exists_sorted.imp fun l' h =>
        ⟨fun _ => h, fun hn => absurd hl hn⟩
    · exact ⟨[], fun h => absurd h hl, fun _ => rfl⟩
  choose qsort hsorts hother using hex
  exact ⟨qsort, hsorts, hother⟩

variable {m : Master} {now : ℤ}

/-- Where two priorities are too far apart, the library may do anything, or
puts the one with the higher number first. -/
theorem range_of_best
    (h : ∀ qsort, Sorts qsort → Best m now (sentinelSelectSlave qsort m now)) :
    ∀ a ∈ candidates m now, ∀ b ∈ candidates m now,
      a.slavePriority.toInt - b.slavePriority.toInt < 2 ^ 31 := by
  intro a ha b hb
  obtain ⟨qsort, hsorts, hother⟩ := exists_sorts
  have hbest := h qsort hsorts
  rw [sentinelSelectSlave] at hbest
  by_contra hfar
  cases hq : qsort (candidates m now) with
  | nil =>
    rw [hq] at hbest
    exact absurd ha (by simp [show candidates m now = [] from hbest])
  | cons s rest =>
    have hc : Consistent (candidates m now) := by
      by_contra hc
      simp [hother _ hc] at hq
    obtain ⟨hperm, hsorted⟩ := hsorts _ hc
    rw [hq] at hbest hperm hsorted
    obtain ⟨hs, hfirst⟩ := hbest
    have hle : s.slavePriority.toInt ≤ b.slavePriority.toInt := by
      rcases Prod.Lex.toLex_le_toLex.1 (hfirst b hb) with h | h
      · exact h.le
      · exact h.1.le
    have hne : s ≠ a := by
      rintro rfl
      omega
    have hcmp : compareSlavesForPromotion s a ≤ 0 :=
      (List.pairwise_cons.1 hsorted).1 a
        ((List.mem_cons.1 (hperm.symm.subset ha)).resolve_left hne.symm)
    -- in a preorder the opposite comparison has the opposite sign
    obtain ⟨le, -, -, hiff⟩ := hc
    have hsa := (hiff a ha s hs).2.2 ((hiff s hs a ha).1.1 hcmp)
    have hdiff : a.slavePriority ≠ s.slavePriority := by
      intro h
      rw [h] at hfar
      omega
    rw [compareSlavesForPromotion, if_pos hdiff, BitVec.toInt_sub,
      Int.bmod_def] at hsa
    have := a.slavePriority.toInt_lt
    have := s.slavePriority.le_toInt
    omega

/-- The best replica is chosen if and only if no two priorities are that far
apart. -/
theorem select_best_iff (m : Master) (now : ℤ) :
    (∀ qsort, Sorts qsort → Best m now (sentinelSelectSlave qsort m now)) ↔
      ∀ a ∈ candidates m now, ∀ b ∈ candidates m now,
        a.slavePriority.toInt - b.slavePriority.toInt < 2 ^ 31 := by
  refine ⟨range_of_best, fun hrange qsort hsorts => ?_⟩
  have hiff := consistent_of_range hrange
  obtain ⟨hperm, hsorted⟩ := hsorts _ ⟨(rank · ≤ rank ·),
    fun _ _ _ => le_trans, fun _ _ => le_total _ _, hiff⟩
  rw [sentinelSelectSlave]
  cases hq : qsort (candidates m now) with
  | nil =>
    rw [hq] at hperm
    exact hperm.symm.eq_nil
  | cons s rest =>
    rw [hq] at hperm hsorted
    have hmem : s ∈ candidates m now := hperm.subset List.mem_cons_self
    refine ⟨hmem, fun t ht => ?_⟩
    rcases List.mem_cons.1 (hperm.symm.subset ht) with rfl | hrest
    · exact le_rfl
    · exact (hiff s hmem t ht).1.1 ((List.pairwise_cons.1 hsorted).1 t hrest)

/-- A replica that is up. -/
def idleSlave (priority : BitVec 32) : Slave :=
  ⟨false, false, 0, 0, 0, priority, 0, none⟩

/-- The priorities 2147483647 and -10 are too far apart. -/
theorem not_select_best : ¬∀ qsort, Sorts qsort →
    let m : Master :=
      ⟨[idleSlave 2147483647, idleSlave (-10)], true, 0, 30000⟩
    Best m 0 (sentinelSelectSlave qsort m 0) := by
  intro h
  have hrange := range_of_best h (idleSlave 2147483647) (by decide)
    (idleSlave (-10)) (by decide)
  exact absurd hrange (by decide)

end RedisV8.Sentinel
