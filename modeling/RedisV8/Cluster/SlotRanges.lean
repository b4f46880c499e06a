import RedisV8.Cluster.NodesConf
import RedisV8.Lib.Outcomes

/-!
# Slots as ranges

The ranges that are written for the slots of a node cover these slots, and the
last slot as well when the one before it is among them.  Loading them binds what
they cover and was free.
-/

namespace RedisV8.Cluster.NodesConf

open Util Cluster Outcomes List Option Config

/-! ## Writing -/

section Writing

variable {slots : ℕ} {bit : ℕ → Bool} {k : ℕ} {acc : Option ℕ × List (ℕ × ℕ)}

def Covers (ranges : List (ℕ × ℕ)) (j : ℕ) : Prop :=
  ∃ range ∈ ranges, range.1 ≤ j ∧ j ≤ range.2

instance (ranges : List (ℕ × ℕ)) (j : ℕ) : Decidable (Covers ranges j) :=
  inferInstanceAs (Decidable (∃ range ∈ ranges, range.1 ≤ j ∧ j ≤ range.2))

theorem covers_snoc (ranges : List (ℕ × ℕ)) (first last j : ℕ) :
    Covers (ranges ++ [(first, last)]) j ↔
      Covers ranges j ∨ first ≤ j ∧ j ≤ last := by
  simp [Covers, or_and_right, exists_or]

/-- What the loop has written and left open after `k` rounds before the last
one. -/
structure WrittenUpTo (bit : ℕ → Bool) (k : ℕ)
    (acc : Option ℕ × List (ℕ × ℕ)) : Prop where
  opened : ∀ first, acc.1 = some first →
    first < k ∧ ∀ i, first ≤ i → i < k → bit i = true
  closed : acc.1 = none → ∀ i, k = i + 1 → bit i = false
  covers : ∀ j, Covers acc.2 j ∨ (∃ first, acc.1 = some first ∧ first ≤ j ∧
    j < k) ↔ j < k ∧ bit j = true
  ordered : ∀ range ∈ acc.2, range.1 ≤ range.2 ∧ range.2 < k
  length : acc.2.length ≤ k

theorem WrittenUpTo.zero : WrittenUpTo bit 0 (none, []) where
  opened := by simp
  closed := by simp
  covers := by simp [Covers]
  ordered := by simp
  length := Nat.le_refl 0

theorem lt_succ_and_bit {j : ℕ} :
    j < k + 1 ∧ bit j = true ↔ (j < k ∧ bit j = true) ∨ j = k ∧ bit k = true := by
  rw [Nat.lt_succ_iff_lt_or_eq, or_and_right]
  refine or_congr_right (and_congr_right fun heq => ?_)
  rw [heq]

theorem WrittenUpTo.round (h : WrittenUpTo bit k acc) (hk : k ≠ slots - 1) :
    WrittenUpTo bit (k + 1) (rangeRound slots bit acc k) := by
  obtain ⟨start, ranges⟩ := acc
  have hordered : ∀ range ∈ ranges, range.1 ≤ range.2 ∧ range.2 < k + 1 :=
    fun range hrange => ⟨(h.ordered range hrange).1,
      (h.ordered range hrange).2.trans (Nat.lt_succ_self k)⟩
  have hlength : ranges.length ≤ k := h.length
  cases hbit : bit k with
  | false =>
    have hclosed : ∀ i, k + 1 = i + 1 → bit i = false := by
      rintro i hi
      obtain rfl : k = i := by omega
      exact hbit
    cases start with
    | none =>
      have hround : rangeRound slots bit (none, ranges) k =
          (none, ranges) := by
        simp [rangeRound, hbit]
      rw [hround]
      refine ⟨by simp, fun _ => hclosed, fun j => ?_, hordered,
        hlength.trans (Nat.le_succ k)⟩
      rw [lt_succ_and_bit, ← h.covers j]
      simp [hbit]
    | some first =>
      have hround : rangeRound slots bit (some first, ranges) k =
          (none, ranges ++ [(first, k - 1)]) := by
        simp [rangeRound, hbit, hk]
      have hlt := (h.opened first rfl).1
      rw [hround]
      refine ⟨by simp, fun _ => hclosed, fun j => ?_, fun range hr => ?_, ?_⟩
      · have hsame : first ≤ j ∧ j ≤ k - 1 ↔ first ≤ j ∧ j < k := by omega
        rw [lt_succ_and_bit, ← h.covers j]
        simp [covers_snoc, hbit, hsame]
      · rcases mem_append.mp hr with hr | hr
        · exact hordered range hr
        · obtain rfl := mem_singleton.mp hr
          show first ≤ k - 1 ∧ k - 1 < k + 1
          omega
      · simp only [length_append, length_singleton]
        omega
  | true =>
    have hround : rangeRound slots bit (start, ranges) k =
        (some (start.getD k), ranges) := by
      cases start <;> simp [rangeRound, hbit, hk]
    rw [hround]
    refine ⟨fun first hfirst => ?_, by simp, fun j => ?_, hordered,
      hlength.trans (Nat.le_succ k)⟩
    · obtain rfl : start.getD k = first := by simpa using hfirst
      cases start with
      | none =>
        refine ⟨Nat.lt_succ_self k, fun i hi hik => ?_⟩
        obtain rfl : k = i := by simp at hi; omega
        exact hbit
      | some first =>
        obtain ⟨hlt, hrun⟩ := h.opened first rfl
        refine ⟨by simp; omega, fun i hi hik => ?_⟩
        by_cases heq : i = k
        · rw [heq, hbit]
        · exact hrun i hi (by omega)
    · rw [lt_succ_and_bit, ← h.covers j]
      cases start with
      | none =>
        have hsame : k ≤ j ∧ j ≤ k ↔ j = k := by omega
        simp [hbit, hsame]
      | some first =>
        have hlt := (h.opened first rfl).1
        have hsame : first ≤ j ∧ j < k + 1 ↔ first ≤ j ∧ j < k ∨ j = k := by
          omega
        simp only [getD_some, some_inj, exists_eq_left', hsame, hbit]
        tauto

theorem writtenUpTo_rangeLoop (hk : k ≤ slots - 1) :
    WrittenUpTo bit k (rangeLoop slots bit k) := by
  induction k with
  | zero => exact .zero
  | succ k ih => exact (ih (by omega)).round (by omega)

/-- The last round closes what is open, including the last slot. -/
theorem rangeRound_last (bit : ℕ → Bool) (start : Option ℕ)
    (ranges : List (ℕ × ℕ)) :
    rangeRound (k + 1) bit (start, ranges) k =
      (none, ranges ++ ((if bit k then start.or (some k) else start).map
        fun first => (first, k)).toList) := by
  cases start <;> cases hbit : bit k <;> simp [rangeRound, hbit]

theorem rangeLoop_last (k : ℕ) (bit : ℕ → Bool) :
    ∃ start ranges, WrittenUpTo bit (k + 1) (start, ranges) ∧
      (rangeLoop (k + 2) bit (k + 2)).2 = ranges ++
        ((if bit (k + 1) then start.or (some (k + 1)) else start).map
          fun first => (first, k + 1)).toList := by
  have hwritten : WrittenUpTo bit (k + 1) (rangeLoop (k + 2) bit (k + 1)) :=
    writtenUpTo_rangeLoop (by omega)
  rw [rangeLoop]
  generalize rangeLoop (k + 2) bit (k + 1) = acc at hwritten ⊢
  obtain ⟨start, ranges⟩ := acc
  exact ⟨start, ranges, hwritten, by rw [rangeRound_last]⟩

theorem rangeLoop_covers (j : ℕ) :
    Covers (rangeLoop (k + 2) bit (k + 2)).2 j ↔
      j < k + 2 ∧ (bit j = true ∨ j = k + 1 ∧ bit k = true) := by
  obtain ⟨start, ranges, hwritten, hloop⟩ := rangeLoop_last k bit
  have hlast : j < k + 2 ∧ j = k + 1 ∧ bit k = true ↔
      j = k + 1 ∧ bit k = true := and_iff_right_of_imp fun h => by omega
  rw [hloop, and_or_left, hlast, lt_succ_and_bit, ← hwritten.covers j]
  cases start with
  | none =>
    have hbit := hwritten.closed rfl k rfl
    have hsame : k < j ∧ j ≤ k + 1 ↔ j = k + 1 := by omega
    cases bit (k + 1) <;> simp [covers_snoc, hbit, hsame]
  | some first =>
    obtain ⟨hlt, hrun⟩ := hwritten.opened first rfl
    have hbit := hrun k (by omega) (by omega)
    have hsame : first ≤ j ∧ j ≤ k + 1 ↔
        first ≤ j ∧ j < k + 1 ∨ j = k + 1 := by omega
    simp only [some_or, ite_self, map_some, toList_some, covers_snoc, hbit,
      hsame, some_inj, exists_eq_left']
    tauto

theorem rangeLoop_ordered {range : ℕ × ℕ}
    (hrange : range ∈ (rangeLoop (k + 2) bit (k + 2)).2) :
    range.1 ≤ range.2 ∧ range.2 < k + 2 := by
  obtain ⟨start, ranges, hwritten, hloop⟩ := rangeLoop_last k bit
  rw [hloop] at hrange
  rcases mem_append.mp hrange with hrange | hrange
  · have := hwritten.ordered range hrange
    omega
  rw [mem_toList, map_eq_some_iff] at hrange
  obtain ⟨first, hfirst, rfl⟩ := hrange
  suffices hle : first ≤ k + 1 by
    show first ≤ k + 1 ∧ k + 1 < k + 2
    omega
  cases start with
  | none =>
    split at hfirst
    · obtain rfl : k + 1 = first := by simpa using hfirst
      exact le_rfl
    · simp at hfirst
  | some opened =>
    obtain rfl : opened = first := by simpa using hfirst
    have := (hwritten.opened opened rfl).1
    omega

theorem length_rangeLoop_le :
    (rangeLoop (k + 2) bit (k + 2)).2.length ≤ k + 2 := by
  obtain ⟨start, ranges, hwritten, hloop⟩ := rangeLoop_last k bit
  have hone : ∀ o : Option (ℕ × ℕ), o.toList.length ≤ 1 := by
    rintro (_ | _) <;> simp
  rw [hloop, length_append]
  show _ ≤ k + 1 + 1
  exact Nat.add_le_add hwritten.length (hone _)

end Writing

/-! ## Loading -/

section Loading

variable {cfg : Config} {name : Bytes}

/-- The free slots that meet a condition are bound to a node. -/
def Config.claim (cfg : Config) (name : Bytes) (p : ℕ → Prop)
    [DecidablePred p] : Config :=
  { cfg with
    slots := fun j => (cfg.slots j).or (if p j then some name else none) }

theorem Config.claim_congr {p q : ℕ → Prop} [DecidablePred p]
    [DecidablePred q] (h : ∀ j < 16384, p j ↔ q j) :
    cfg.claim name p = cfg.claim name q := by
  simp only [claim, mk.injEq, true_and, and_true]
  funext j
  simp only [h j j.isLt]

theorem Config.claim_claim {p q : ℕ → Prop} [DecidablePred p]
    [DecidablePred q] :
    (cfg.claim name p).claim name q = cfg.claim name fun j => p j ∨ q j := by
  simp only [claim, mk.injEq, true_and, and_true]
  funext j
  cases cfg.slots j with
  | some owner => rfl
  | none => by_cases hp : p j <;> simp [hp]

theorem addSlot_eq {j : ℕ} (hj : j < 16384) :
    addSlot name cfg j = .ok (cfg.claim name (· = j)) := by
  have hentry : intEntry (j : ℤ) = .ok ⟨j, hj⟩ := by
    rw [intEntry, if_neg (by omega), Int.toNat_natCast]
    exact dif_pos hj
  rw [addSlot, hentry]
  show (if (cfg.slots ⟨j, hj⟩).isSome then pure cfg else pure _) = _
  have hother : ∀ i : Slot, i ≠ ⟨j, hj⟩ → (i : ℕ) ≠ j :=
    fun i hne h => hne (Fin.ext h)
  cases hfree : cfg.slots ⟨j, hj⟩ with
  | some owner =>
    refine congrArg Except.ok (Config.ext rfl rfl (funext fun i => ?_) rfl rfl)
    rcases eq_or_ne i ⟨j, hj⟩ with rfl | hne
    · simp [claim, hfree]
    · simp [claim, hother i hne]
  | none =>
    refine congrArg Except.ok (Config.ext rfl rfl (funext fun i => ?_) rfl rfl)
    rcases eq_or_ne i ⟨j, hj⟩ with rfl | hne
    · simp [claim, hfree]
    · simp [claim, hother i hne, hne]

theorem addSlots_eq {rounds first : ℕ} (h : first + rounds ≤ 16384) :
    addSlots name rounds first cfg =
      .ok (cfg.claim name fun j => first ≤ j ∧ j < first + rounds) := by
  induction rounds generalizing first cfg with
  | zero =>
    refine congrArg Except.ok (Config.ext rfl rfl ?_ rfl rfl)
    funext j
    have hempty : ¬ (first ≤ (j : ℕ) ∧ (j : ℕ) < first + 0) := by omega
    simp only [Config.claim, if_neg hempty, or_none]
  | succ rounds ih =>
    have hnext : ((first : ℤ) + 1) = ((first + 1 : ℕ) : ℤ) := rfl
    rw [addSlots, addSlot_eq (by omega), hnext]
    show addSlots name rounds ((first + 1 : ℕ) : ℤ) _ = _
    rw [ih (by omega), claim_claim]
    exact congrArg Except.ok (claim_congr fun j _ => by omega)

theorem addRange_eq {first last : ℕ} (hle : first ≤ last)
    (hlast : last < 16384) :
    addRange cfg name first last =
      .ok (cfg.claim name fun j => first ≤ j ∧ j ≤ last) := by
  have hrounds : ((last : ℤ) + 1 - first).toNat = last + 1 - first := by omega
  rw [addRange, hrounds, addSlots_eq (by omega)]
  exact congrArg Except.ok (claim_congr fun j _ => by omega)

theorem charMinus_notMem_natText (n : ℕ) : charMinus ∉ natText n :=
  fun h => absurd (isdigit_of_mem_natText h) (by decide)

theorem zero_notMem_natText (n : ℕ) : (0 : UInt8) ∉ natText n :=
  fun h => absurd (isdigit_of_mem_natText h) (by decide)

theorem atoi_natText {n : ℕ} (hn : n < 2 ^ 31) {rest : Bytes}
    (hstop : rest.head?.any isdigit = false) :
    atoi (natText n ++ rest) = n := by
  rw [← llText_natCast]
  exact atoi_llText (by omega) (by omega) hstop

theorem atoi_natText_self {n : ℕ} (hn : n < 2 ^ 31) :
    atoi (natText n) = n := by
  rw [← append_nil (natText n)]
  exact atoi_natText hn rfl

theorem drop_length_succ (s : Bytes) (c : UInt8) (rest : Bytes) :
    (s ++ c :: rest).drop (s.length + 1) = rest := by
  rw [append_cons, drop_left' (by simp)]

theorem natText_ne_nil (n : ℕ) : natText n ≠ [] := by
  rw [natText, digitLoop_succ]
  split
  · simp
  · rw [digitLoop_append]
    simp

theorem natText_head_ne_charOpen (n : ℕ) (rest : Bytes) :
    (natText n ++ rest).head? ≠ some charOpen := by
  obtain ⟨b, text, htext⟩ := exists_cons_of_ne_nil (natText_ne_nil n)
  have hb := isdigit_of_mem_natText (n := n) (b := b) (by simp [htext])
  simp only [htext, cons_append, List.head?_cons, ne_eq, some_inj]
  rintro rfl
  exact absurd hb (by decide)

/-- Loading a range binds the free slots in it. -/
theorem readSlots_rangeText {range : ℕ × ℕ} (hle : range.1 ≤ range.2)
    (hlast : range.2 < 16384) :
    readSlots name cfg (rangeText range) =
      .ok (cfg.claim name fun j => range.1 ≤ j ∧ j ≤ range.2) := by
  obtain ⟨first, last⟩ := range
  simp only at hle hlast
  rw [rangeText]
  split
  next heq =>
    obtain rfl : first = last := heq
    have hatoi := atoi_natText_self (show first < 2 ^ 31 by omega)
    have hhead := natText_head_ne_charOpen first []
    rw [append_nil] at hhead
    rw [readSlots, if_neg hhead,
      strchr_eq_none (charMinus_notMem_natText first)]
    simp only [hatoi]
    exact addRange_eq le_rfl hlast
  next =>
    have hsplit : natText first ++ [charMinus] ++ natText last =
        natText first ++ charMinus :: natText last := by simp
    rw [hsplit, readSlots, if_neg (natText_head_ne_charOpen first _),
      strchr_append_cons (charMinus_notMem_natText first),
      if_pos (zero_notMem_natText first)]
    simp only [take_left, drop_length_succ,
      atoi_natText_self (show first < 2 ^ 31 by omega),
      atoi_natText_self (show last < 2 ^ 31 by omega)]
    exact addRange_eq hle hlast

theorem foldlM_readSlots_ranges {ranges : List (ℕ × ℕ)}
    (h : ∀ range ∈ ranges, range.1 ≤ range.2 ∧ range.2 < 16384) :
    (ranges.map rangeText).foldlM (readSlots name) cfg =
      .ok (cfg.claim name (Covers ranges)) := by
  induction ranges generalizing cfg with
  | nil =>
    refine congrArg Except.ok (Config.ext rfl rfl ?_ rfl rfl)
    funext j
    simp [Config.claim, Covers]
  | cons range ranges ih =>
    have hrange := h range mem_cons_self
    rw [map_cons, foldlM_cons, readSlots_rangeText hrange.1 hrange.2]
    show List.foldlM (readSlots name) _ _ = _
    rw [ih fun r hr => h r (mem_cons_of_mem range hr), claim_claim]
    refine congrArg Except.ok (claim_congr fun j _ => ?_)
    simp [Covers]

end Loading

end RedisV8.Cluster.NodesConf
