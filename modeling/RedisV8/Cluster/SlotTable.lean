import RedisV8.Cluster.Slots
import RedisV8.Lib.Outcomes

/-!
# Table, bitmaps and counters agree

The owner of a slot is kept three times: in the table, in the bitmap of the
owner and in its number of slots.  They agree in every state of a run, and
nothing outside the tables or behind the address of a freed node is used, as
long as no command names slot 16384 and no node is freed that is still
referred to.
-/

namespace RedisV8.Cluster

open Outcomes Util Server

variable {s s' : State} {r : Ref} {n n' : Node} {j : Slot}

/-! ## What the operations on slots leave alone -/

section Frames

/-- A node without what it knows of slots. -/
def Node.bare (n : Node) : Node := { n with slots := ∅, numslots := 0 }

/-- Only tables, bitmaps and counters differ. -/
structure SlotsOnly (s s' : State) : Prop where
  next : s'.next = s.next
  known : s'.known = s.known
  myself : s'.myself = s.myself
  nodes : ∀ r, (s'.heap r).map Node.bare = (s.heap r).map Node.bare

namespace SlotsOnly

theorem refl (s : State) : SlotsOnly s s := ⟨rfl, rfl, rfl, fun _ => rfl⟩

theorem trans {s'' : State} (h : SlotsOnly s s') (h' : SlotsOnly s' s'') :
    SlotsOnly s s'' where
  next := h'.next.trans h.next
  known := h'.known.trans h.known
  myself := h'.myself.trans h.myself
  nodes r := (h'.nodes r).trans (h.nodes r)

theorem symm (h : SlotsOnly s s') : SlotsOnly s' s :=
  ⟨h.next.symm, h.known.symm, h.myself.symm, fun r => (h.nodes r).symm⟩

theorem exists_node (h : SlotsOnly s s') (hn : s'.heap r = some n') :
    ∃ n, s.heap r = some n ∧ n.bare = n'.bare := by
  have hr := h.nodes r
  rw [hn, Option.map_some, eq_comm, Option.map_eq_some_iff] at hr
  exact hr

theorem isSome (h : SlotsOnly s s') (r : Ref) :
    (s'.heap r).isSome = (s.heap r).isSome := by
  have hr := congrArg Option.isSome (h.nodes r)
  rwa [Option.isSome_map, Option.isSome_map] at hr

theorem store (hr : s.heap r = some n) (hn : n'.bare = n.bare) :
    SlotsOnly s (s.store r n') := by
  refine ⟨rfl, rfl, rfl, fun r' => ?_⟩
  by_cases h : r' = r
  · subst h
    simp [State.store, hr, hn]
  · simp [State.store, h]

end SlotsOnly

theorem bare_clusterNodeSetSlotBit (n : Node) (j : Slot) :
    (clusterNodeSetSlotBit n j).bare = n.bare := by
  by_cases h : j ∈ n.slots <;> simp [clusterNodeSetSlotBit, h, Node.bare]

theorem bare_clusterNodeClearSlotBit (n : Node) (j : Slot) :
    (clusterNodeClearSlotBit n j).bare = n.bare := by
  by_cases h : j ∈ n.slots <;> simp [clusterNodeClearSlotBit, h, Node.bare]

section Rules

variable {α β : Type} {allowed : Set Fault} {post : α → Prop}

theorem deref_bind_returns {f : Node → Step α}
    (hnone : s.heap r = none → Fault.undefined ∈ allowed)
    (hf : ∀ n, s.heap r = some n → Returns allowed (f n) post) :
    Returns allowed (s.deref r >>= f) post := by
  cases h : s.heap r with
  | none =>
    rw [State.deref, h]
    exact hnone h
  | some n =>
    rw [State.deref, h]
    exact hf n h

theorem live_bind_returns {f : Node → Step α} (hr : (s.heap r).isSome = true)
    (hf : ∀ n, s.heap r = some n → Returns allowed (f n) post) :
    Returns allowed (s.deref r >>= f) post :=
  deref_bind_returns (fun h => by simp [h] at hr) hf

theorem redisAssert_bind_returns {p : Bool} {f : Unit → Step α}
    (hstop : p = false → Fault.stop ∈ allowed)
    (hf : p = true → Returns allowed (f ()) post) :
    Returns allowed (redisAssert p >>= f) post := by
  cases p with
  | false => exact hstop rfl
  | true => exact hf rfl

theorem touch_bind_returns {o : Option Ref} {f : Unit → Step α}
    (hnone : ∀ r, o = some r → s.heap r = none → Fault.undefined ∈ allowed)
    (hf : Returns allowed (f ()) post) :
    Returns allowed (s.touch o >>= f) post := by
  cases o with
  | none => exact hf
  | some r =>
    rw [State.touch, bind_assoc]
    exact deref_bind_returns (hnone r rfl) fun _ _ => hf

end Rules

theorem clusterDelSlot_frame (s : State) (j : Slot) :
    Returns Set.univ (clusterDelSlot s j) fun p =>
      SlotsOnly s p.1 ∧ p.1.slots = Function.update s.slots j none := by
  rw [clusterDelSlot]
  split
  next h =>
    exact .pure ⟨.refl s, (Function.update_eq_self_iff.mpr h.symm).symm⟩
  next r h =>
    refine deref_bind_returns (fun _ => trivial) fun n hn => ?_
    refine redisAssert_bind_returns (fun _ => trivial) fun _ => .pure ⟨?_, rfl⟩
    exact (SlotsOnly.store hn (bare_clusterNodeClearSlotBit n j)).trans
      ⟨rfl, rfl, rfl, fun _ => rfl⟩

theorem clusterAddSlot_frame (s : State) (r : Ref) (j : Slot) :
    Returns Set.univ (clusterAddSlot s r j) fun p =>
      SlotsOnly s p.1 ∧ p.1.slots =
        if (s.slots j).isSome then s.slots
        else Function.update s.slots j (some r) := by
  rw [clusterAddSlot]
  split
  next h => exact .pure ⟨.refl s, rfl⟩
  next h =>
    refine deref_bind_returns (fun _ => trivial) fun n hn => .pure ⟨?_, rfl⟩
    exact (SlotsOnly.store hn (bare_clusterNodeSetSlotBit n j)).trans
      ⟨rfl, rfl, rfl, fun _ => rfl⟩

theorem rebindSlot_frame (s : State) (r : Ref) (j : Slot) :
    Returns Set.univ (rebindSlot s r j) fun s' =>
      SlotsOnly s s' ∧ s'.slots = Function.update s.slots j (some r) := by
  refine (clusterDelSlot_frame s j).bind fun p hp => ?_
  refine (clusterAddSlot_frame p.1 r j).bind fun q hq => .pure ⟨?_, ?_⟩
  · exact hp.1.trans hq.1
  · rw [hq.2, hp.2]
    simp

theorem clusterDelNodeSlots_frame (s : State) (r : Ref) :
    Returns Set.univ (clusterDelNodeSlots s r) fun s' =>
      SlotsOnly s s' ∧ ∀ j, s'.slots j = s.slots j ∨ s'.slots j = none := by
  unfold clusterDelNodeSlots
  refine Returns.foldlM ⟨.refl s, fun _ => .inl rfl⟩ fun t ht j _ => ?_
  refine deref_bind_returns (fun _ => trivial) fun n _ => ?_
  split
  · refine (clusterDelSlot_frame t j).bind fun p hp => .pure ⟨?_, fun k => ?_⟩
    · exact ht.1.trans hp.1
    rw [hp.2]
    by_cases hk : k = j
    · exact .inr (by simp [hk])
    · simpa [hk] using ht.2 k
  · exact .pure ht

end Frames

/-! ## The invariant -/

section Invariant

/-- A slot is bound to a node exactly when its bit is set there, and the counter
of a node is the number of its bits. -/
structure Consistent (s : State) : Prop where
  bound : ∀ j r, s.slots j = some r ↔ ∃ n, s.heap r = some n ∧ j ∈ n.slots
  numslots : ∀ r n, s.heap r = some n → n.numslots = n.slots.card

/-- The addresses that are used lead to nodes. -/
structure Linked (s : State) : Prop where
  myself : (s.heap s.myself).isSome = true
  slaveof : ∀ r n m, s.heap r = some n → n.slaveof = some m →
    (s.heap m).isSome = true
  known : ∀ r ∈ s.known, (s.heap r).isSome = true
  fresh : ∀ r, s.next ≤ r → s.heap r = none

structure WellFormed (s : State) : Prop where
  consistent : Consistent s
  linked : Linked s

theorem Linked.of_slotsOnly (hs : Linked s) (h : SlotsOnly s s') :
    Linked s' where
  myself := by rw [h.isSome, h.myself, hs.myself]
  slaveof r n' m hn' hm := by
    obtain ⟨n, hn, hbare⟩ := h.exists_node hn'
    rw [h.isSome]
    exact hs.slaveof r n m hn ((congrArg Node.slaveof hbare).trans hm)
  known r hr := by
    rw [h.isSome]
    exact hs.known r (h.known ▸ hr)
  fresh r hr := by
    have hnone := hs.fresh r (h.next ▸ hr)
    rw [← Option.isNone_iff_eq_none, ← Option.not_isSome, h.isSome, hnone]
    rfl

theorem Consistent.isSome_of_bound (hs : Consistent s)
    (h : s.slots j = some r) : (s.heap r).isSome = true := by
  obtain ⟨n, hn, -⟩ := (hs.bound j r).mp h
  rw [hn, Option.isSome_some]

/-- The table and the heap with one slot and the bitmap of one node changed. -/
theorem Consistent.store_bind {o : Option Ref} (hs : Consistent s)
    (hn : s.heap r = some n) (hcount : n'.numslots = n'.slots.card)
    (hbits : ∀ k, k ≠ j → (k ∈ n'.slots ↔ k ∈ n.slots))
    (howner : s.slots j = none ∨ s.slots j = some r)
    (ho : o = none ∧ j ∉ n'.slots ∨ o = some r ∧ j ∈ n'.slots) :
    Consistent ((s.store r n').bind j o) where
  bound k q := by
    have hk := hs.bound k q
    by_cases hkj : k = j <;> by_cases hqr : q = r
    · subst hkj hqr
      rcases ho with ⟨rfl, ho⟩ | ⟨rfl, ho⟩ <;>
        simp [State.store, State.bind, ho]
    · -- no other node has the bit, before or after
      subst hkj
      have hne : s.slots k ≠ some q := by
        rcases howner with h | h <;> rw [h]
        · simp
        · simpa using fun h => hqr h.symm
      have hne' : o ≠ some q := by
        rcases ho with ⟨rfl, -⟩ | ⟨rfl, -⟩
        · simp
        · simpa using fun h => hqr h.symm
      simpa [State.store, State.bind, hqr, hne, hne'] using hk
    · subst hqr
      rw [hn] at hk
      simpa [State.store, State.bind, hkj, hbits k hkj] using hk
    · simpa [State.store, State.bind, hkj, hqr] using hk
  numslots q m hm := by
    by_cases hqr : q = r
    · subst hqr
      obtain rfl : n' = m := by simpa [State.store, State.bind] using hm
      exact hcount
    · exact hs.numslots q m (by simpa [State.store, State.bind, hqr] using hm)

theorem clusterDelSlot_consistent (hs : Consistent s) (j : Slot) :
    Returns ∅ (clusterDelSlot s j) fun p => Consistent p.1 := by
  rw [clusterDelSlot]
  split
  next h => exact .pure hs
  next r h =>
    obtain ⟨n, hn, hj⟩ := (hs.bound j r).mp h
    refine deref_bind_returns (fun hr => by simp [hr] at hn) fun m hm => ?_
    obtain rfl : n = m := by simpa [hn] using hm
    refine redisAssert_bind_returns (fun hp => by simp [hj] at hp) fun _ => ?_
    have hclear : clusterNodeClearSlotBit n j =
        { n with slots := n.slots.erase j, numslots := n.numslots - 1 } :=
      if_pos hj
    refine .pure (hs.store_bind hn ?_ ?_ (.inr h) (.inl ⟨rfl, ?_⟩)) <;>
      rw [hclear]
    · have hpos := Finset.card_pos.mpr ⟨j, hj⟩
      have hcard := Finset.card_erase_of_mem hj
      have hnum := hs.numslots r n hn
      show n.numslots - 1 = ((n.slots.erase j).card : ℤ)
      omega
    · exact fun k hk => Finset.mem_erase.trans (and_iff_right hk)
    · exact Finset.notMem_erase j n.slots

theorem clusterAddSlot_consistent (hs : Consistent s)
    (hr : (s.heap r).isSome = true) (j : Slot) :
    Returns ∅ (clusterAddSlot s r j) fun p => Consistent p.1 := by
  rw [clusterAddSlot]
  split
  next h => exact .pure hs
  next h =>
    have hfree : s.slots j = none := by simpa using h
    refine live_bind_returns hr fun n hn => ?_
    have hj : j ∉ n.slots := fun hj => by
      simp [(hs.bound j r).mpr ⟨n, hn, hj⟩] at hfree
    have hset : clusterNodeSetSlotBit n j =
        { n with slots := insert j n.slots, numslots := n.numslots + 1 } :=
      if_neg hj
    refine .pure (hs.store_bind hn ?_ ?_ (.inl hfree) (.inr ⟨rfl, ?_⟩)) <;>
      rw [hset]
    · have hcard := Finset.card_insert_of_notMem hj
      have hnum := hs.numslots r n hn
      show n.numslots + 1 = ((insert j n.slots).card : ℤ)
      omega
    · exact fun k hk => Finset.mem_insert.trans (or_iff_right hk)
    · exact Finset.mem_insert_self j n.slots

/-- What only changes tables, bitmaps and counters keeps the addresses. -/
theorem WellFormed.of_returns {α : Type} {allowed : Set Fault} {x : Step α}
    {f : α → State} (hs : WellFormed s)
    (hx : Returns allowed x fun a => Consistent (f a))
    (hframe : Returns Set.univ x fun a => SlotsOnly s (f a)) :
    Returns allowed x fun a => WellFormed (f a) ∧ SlotsOnly s (f a) :=
  (hx.and hframe).imp fun _ h => ⟨⟨h.1, hs.linked.of_slotsOnly h.2⟩, h.2⟩

theorem clusterDelSlot_wellFormed (hs : WellFormed s) (j : Slot) :
    Returns ∅ (clusterDelSlot s j) fun p =>
      WellFormed p.1 ∧ SlotsOnly s p.1 :=
  hs.of_returns (clusterDelSlot_consistent hs.consistent j)
    ((clusterDelSlot_frame s j).imp fun _ h => h.1)

theorem clusterAddSlot_wellFormed (hs : WellFormed s)
    (hr : (s.heap r).isSome = true) (j : Slot) :
    Returns ∅ (clusterAddSlot s r j) fun p =>
      WellFormed p.1 ∧ SlotsOnly s p.1 :=
  hs.of_returns (clusterAddSlot_consistent hs.consistent hr j)
    ((clusterAddSlot_frame s r j).imp fun _ h => h.1)

theorem rebindSlot_wellFormed (hs : WellFormed s)
    (hr : (s.heap r).isSome = true) (j : Slot) :
    Returns ∅ (rebindSlot s r j) fun s' => WellFormed s' ∧ SlotsOnly s s' := by
  refine (clusterDelSlot_wellFormed hs j).bind fun p hp => ?_
  have hlive : (p.1.heap r).isSome = true := by rw [hp.2.isSome, hr]
  refine (clusterAddSlot_wellFormed hp.1 hlive j).bind fun q hq => ?_
  exact .pure ⟨hq.1, hp.2.trans hq.2⟩

theorem clusterDelNodeSlots_wellFormed (hs : WellFormed s)
    (hr : (s.heap r).isSome = true) :
    Returns ∅ (clusterDelNodeSlots s r) fun s' =>
      WellFormed s' ∧ SlotsOnly s s' := by
  unfold clusterDelNodeSlots
  refine Returns.foldlM ⟨hs, .refl s⟩ fun t ht j _ => ?_
  refine deref_bind_returns (fun h => ?_) fun n _ => ?_
  · have hsome := ht.2.isSome r
    simp [h, hr] at hsome
  split
  · refine (clusterDelSlot_wellFormed ht.1 j).bind fun p hp => ?_
    exact .pure ⟨hp.1, ht.2.trans hp.2⟩
  · exact .pure ht

end Invariant

end RedisV8.Cluster
