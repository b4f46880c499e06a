import RedisV8.Cluster.SlotTable

/-!
# Commands and packets keep the slot table consistent

Each CLUSTER subcommand and each packet keeps the invariant of the slot table
under a condition on what it names and frees, and so does every run whose steps
meet it.
-/

namespace RedisV8.Cluster

open Outcomes Util Server List Function State

variable {s s' : State} {r : Ref} {n n' : Node} {j : Slot}

/-! ## Nodes -/

section Nodes

theorem WellFormed.marks (hs : WellFormed s) (m i : Slot → Option Ref) :
    WellFormed { s with migratingSlotsTo := m, importingSlotsFrom := i } :=
  ⟨⟨hs.consistent.bound, hs.consistent.numslots⟩,
    ⟨hs.linked.myself, hs.linked.slaveof, hs.linked.known, hs.linked.fresh⟩⟩

theorem SlotsOnly.marks (s : State) (m i : Slot → Option Ref) :
    SlotsOnly s { s with migratingSlotsTo := m, importingSlotsFrom := i } :=
  ⟨rfl, rfl, rfl, fun _ => rfl⟩

theorem WellFormed.dropMarks (hs : WellFormed s) (r : Ref) (j : Slot) :
    WellFormed (dropMarks r s j) := hs.marks _ _

theorem WellFormed.clearMarks (hs : WellFormed s) (j : Slot) (r : Ref) :
    WellFormed (clearMarks s j r) := hs.marks _ _

/-- A node may be replaced by one with the same slots. -/
theorem WellFormed.store (hs : WellFormed s) (hn : s.heap r = some n)
    (hslots : n'.slots = n.slots) (hnum : n'.numslots = n.numslots)
    (hslaveof : ∀ m, n'.slaveof = some m → (s.heap m).isSome = true) :
    WellFormed (s.store r n') where
  consistent :=
    { bound := fun k q => by
        have hk := hs.consistent.bound k q
        by_cases h : q = r
        · subst h
          rw [hn] at hk
          simpa [State.store, hslots] using hk
        · simpa [State.store, h] using hk
      numslots := fun q m hm => by
        by_cases h : q = r
        · subst h
          obtain rfl : n' = m := by simpa [store] using hm
          rw [hnum, hslots]
          exact hs.consistent.numslots q n hn
        · exact hs.consistent.numslots q m
            (by simpa [State.store, h] using hm) }
  linked := by
    have hlive : ∀ q, (s.heap q).isSome = true →
        ((s.store r n').heap q).isSome = true := fun q hq => by
      by_cases h : q = r
      · simp [State.store, h]
      · simpa [State.store, h] using hq
    refine ⟨hlive _ hs.linked.myself, fun q m k hm hk => hlive k ?_,
      fun q hq => hlive q (hs.linked.known q hq), fun q hq => ?_⟩
    · by_cases h : q = r
      · subst h
        obtain rfl : n' = m := by simpa [store] using hm
        exact hslaveof k hk
      · exact hs.linked.slaveof q m k (by simpa [State.store, h] using hm) hk
    · have hnone := hs.linked.fresh q hq
      have h : q ≠ r := fun h => by simp [h, hn] at hnone
      simpa [State.store, h] using hnone

theorem WellFormed.touch_slaveof {α : Type} {allowed : Set Fault}
    {post : α → Prop} {f : Unit → Step α} (hs : WellFormed s)
    (hn : s.heap r = some n) (hf : Returns allowed (f ()) post) :
    Returns allowed (s.touch n.slaveof >>= f) post :=
  touch_bind_returns (fun m hm h => by
    have hlive := hs.linked.slaveof r n m hn hm
    simp [h] at hlive) hf

/-- Nothing but the slot table and the dictionary refers to the node. -/
def State.Unreferenced (s : State) (r : Ref) : Prop :=
  r ≠ s.myself ∧ ∀ q n, s.heap q = some n → n.slaveof ≠ some r

theorem freeClusterNode_wellFormed (hs : WellFormed s)
    (hr : (s.heap r).isSome = true) (hfree : s.Unreferenced r)
    (hslots : ∀ j, s.slots j ≠ some r) :
    Returns ∅ (freeClusterNode s r) WellFormed := by
  refine live_bind_returns hr fun n hn => ?_
  refine hs.touch_slaveof hn (.pure ?_)
  have hheap : ∀ q m, update s.heap r none q = some m ↔
      q ≠ r ∧ s.heap q = some m := fun q m => by
    by_cases h : q = r <;> simp [h]
  have hlive : ∀ q, q ≠ r → (s.heap q).isSome = true →
      (update s.heap r none q).isSome = true := fun q h hq => by
    simpa [h] using hq
  refine ⟨⟨fun k q => ?_, fun q m hm => ?_⟩, ⟨?_, fun q m k hm hk => ?_,
    fun q hq => ?_, fun q hq => ?_⟩⟩
  · show s.slots k = some q ↔ ∃ m, update s.heap r none q = some m ∧ _
    simp only [hheap, and_assoc]
    by_cases h : q = r
    · simp [h, hslots k]
    · simpa [h] using hs.consistent.bound k q
  · exact hs.consistent.numslots q m ((hheap q m).mp hm).2
  · exact hlive _ hfree.1.symm hs.linked.myself
  · have hm := ((hheap q m).mp hm).2
    refine hlive k (fun h => ?_) (hs.linked.slaveof q m k hm hk)
    exact hfree.2 q m hm (h ▸ hk)
  · have hq := mem_filter.mp hq
    exact hlive q (by simpa using hq.2) (hs.linked.known q hq.1)
  · have hnone := hs.linked.fresh q hq
    by_cases h : q = r <;> simp [h, hnone]

theorem clusterDelNodeSlot_wellFormed (hs : WellFormed s) (r : Ref)
    (j : Slot) :
    Returns ∅ (clusterDelNodeSlot r s j) fun s' =>
      (WellFormed s' ∧ SlotsOnly s s') ∧ s'.slots j ≠ some r ∧
        ∀ k, s.slots k ≠ some r → s'.slots k ≠ some r := by
  rw [clusterDelNodeSlot]
  split
  next h =>
    have hdel := (clusterDelSlot_wellFormed (hs.dropMarks r j) j).and
      (clusterDelSlot_frame (dropMarks r s j) j)
    refine hdel.bind fun p hp => .pure ⟨⟨hp.1.1, ?_⟩, ?_, fun k hk => ?_⟩
    · exact (SlotsOnly.marks s _ _).trans hp.1.2
    · rw [hp.2.2]
      simp
    rw [hp.2.2]
    by_cases hkj : k = j
    · simp [hkj]
    · simpa [hkj, dropMarks] using hk
  next h => exact .pure ⟨⟨hs.dropMarks r j, .marks s _ _⟩, h, fun _ hk => hk⟩

theorem SlotsOnly.unreferenced (h : SlotsOnly s s')
    (hr : s.Unreferenced r) : s'.Unreferenced r := by
  refine ⟨h.myself ▸ hr.1, fun q n' hn' => ?_⟩
  obtain ⟨n, hn, hbare⟩ := h.exists_node hn'
  have hslaveof : n.bare.slaveof = n'.bare.slaveof := by rw [hbare]
  exact hslaveof ▸ hr.2 q n hn

theorem foldlM_clusterDelNodeSlot (hs : WellFormed s) (r : Ref) :
    Returns ∅ (allSlots.foldlM (clusterDelNodeSlot r) s) fun s' =>
      (WellFormed s' ∧ SlotsOnly s s') ∧
        ∀ j ∈ allSlots, s'.slots j ≠ some r := by
  refine Returns.foldlM_forall ⟨hs, .refl s⟩ fun t ht j _ => ?_
  refine (clusterDelNodeSlot_wellFormed ht.1 r j).imp fun t' ht' => ?_
  exact ⟨⟨ht'.1.1, ht.2.trans ht'.1.2⟩, ht'.2⟩

theorem clusterDelNode_wellFormed (hs : WellFormed s)
    (hr : (s.heap r).isSome = true) (hfree : s.Unreferenced r) :
    Returns ∅ (clusterDelNode s r) WellFormed := by
  refine (foldlM_clusterDelNodeSlot hs r).bind fun t ht => ?_
  exact freeClusterNode_wellFormed ht.1.1 (by rw [ht.1.2.isSome, hr])
    (ht.1.2.unreferenced hfree) fun j => ht.2 j (mem_allSlots j)

/-- The node is freed even when it is the server itself. -/
theorem clusterDelNode_frees (hs : WellFormed s)
    (hr : (s.heap r).isSome = true) :
    Returns ∅ (clusterDelNode s r) fun s' =>
      s'.heap r = none ∧ s'.myself = s.myself := by
  refine (foldlM_clusterDelNodeSlot hs r).bind fun t ht => ?_
  have hlive := ht.1.2.isSome r
  refine deref_bind_returns (fun h => by simp [h, hr] at hlive) fun n hn => ?_
  exact ht.1.1.touch_slaveof hn (.pure ⟨by simp, ht.1.2.myself⟩)

/-- The invariant still holds, and no node was freed. -/
structure Kept (s s' : State) : Prop where
  wellFormed : WellFormed s'
  live : ∀ q, (s.heap q).isSome = true → (s'.heap q).isSome = true

namespace Kept

theorem refl (hs : WellFormed s) : Kept s s := ⟨hs, fun _ hq => hq⟩

theorem trans {s'' : State} (h : Kept s s') (h' : Kept s' s'') : Kept s s'' :=
  ⟨h'.wellFormed, fun q hq => h'.live q (h.live q hq)⟩

theorem of_slotsOnly (hs : WellFormed s') (h : SlotsOnly s s') : Kept s s' :=
  ⟨hs, fun q hq => by rw [h.isSome, hq]⟩

theorem store (hs : WellFormed s) (hn : s.heap r = some n)
    (hslots : n'.slots = n.slots) (hnum : n'.numslots = n.numslots)
    (hslaveof : ∀ m, n'.slaveof = some m → (s.heap m).isSome = true) :
    Kept s (s.store r n') := by
  refine ⟨hs.store hn hslots hnum hslaveof, fun q hq => ?_⟩
  by_cases h : q = r
  · simp [State.store, h]
  · simpa [State.store, h] using hq

theorem whenever (p : Prop) (h : Kept s s') : WellFormed s' ∧ (p → Kept s s') :=
  ⟨h.wellFormed, fun _ => h⟩

end Kept

end Nodes

/-! ## Packets -/

section Packets

theorem takesSlot_returns (hs : Consistent s) (r : Ref) (e : ℕ) (j : Slot) :
    Returns ∅ (takesSlot s r e j) fun _ => True := by
  rw [takesSlot]
  split
  next => exact .pure trivial
  next owner howner =>
    split
    · exact .pure trivial
    · have hlive := hs.isSome_of_bound howner
      exact live_bind_returns hlive
        fun _ _ => .pure trivial

theorem updateSlot_wellFormed {acc : State × Bool} (hs : WellFormed acc.1)
    (hr : (acc.1.heap r).isSome = true) (e : ℕ) (claimed : Finset Slot)
    (curmaster : Option Ref) (j : Slot) :
    Returns ∅ (updateSlot r e claimed curmaster acc j) fun acc' =>
      WellFormed acc'.1 ∧ SlotsOnly acc.1 acc'.1 := by
  rw [updateSlot]
  split
  · refine (takesSlot_returns hs.consistent r e j).bind fun b _ => ?_
    split
    · refine (rebindSlot_wellFormed hs hr j).bind fun s' hs' => ?_
      exact .pure hs'
    · exact .pure ⟨hs, .refl _⟩
  · exact .pure ⟨hs, .refl _⟩

theorem isSome_of_clusterLookupNode {name : Bytes}
    (h : s.clusterLookupNode name = some r) : (s.heap r).isSome = true := by
  have hany := List.find?_some h
  rw [Option.any_eq_true] at hany
  obtain ⟨n, hn, -⟩ := hany
  simp [hn]

/-! ### Nodes that are there -/

section Live

variable (hs : WellFormed s) (hr : (s.heap r).isSome = true)

include hs hr

theorem clusterSetNodeAsMaster_kept :
    Returns ∅ (clusterSetNodeAsMaster s r) (Kept s) := by
  refine live_bind_returns hr fun n hn => ?_
  split
  · exact .pure (.refl hs)
  exact hs.touch_slaveof hn (.pure (.store hs hn rfl rfl (by simp)))

theorem clusterSetMaster_kept :
    Returns {.stop} (clusterSetMaster s r) (Kept s) := by
  refine live_bind_returns hs.linked.myself fun n hn => ?_
  refine redisAssert_bind_returns (fun _ => rfl) fun _ => ?_
  refine redisAssert_bind_returns (fun _ => rfl) fun _ => ?_
  refine touch_bind_returns (fun m hm h => ?_) (.pure ?_)
  · obtain rfl : r = m := by simpa using hm
    simp [h] at hr
  · exact .store hs hn rfl rfl (by simpa using hr)

theorem followNewMaster_kept {curmaster : Option Ref}
    (hcur : ∀ q, curmaster = some q → (s.heap q).isSome = true) :
    Returns {.stop} (followNewMaster s r curmaster) (Kept s) := by
  cases curmaster with
  | none => exact rfl
  | some q =>
    refine live_bind_returns (hcur q rfl) fun n hn => ?_
    split
    · exact clusterSetMaster_kept hs hr
    · exact .pure (.refl hs)

theorem clusterUpdateSlotsConfigWith_kept (e : ℕ) (claimed : Finset Slot) :
    Returns {.stop} (clusterUpdateSlotsConfigWith s r e claimed) (Kept s) := by
  have hmyself := hs.linked.myself
  refine live_bind_returns hmyself fun n hn => ?_
  have hcur : ∀ q,
      (if n.flags.master then some s.myself else n.slaveof) = some q →
        (s.heap q).isSome = true := fun q hq => by
    split at hq
    · obtain rfl : s.myself = q := by simpa using hq
      exact hmyself
    · exact hs.linked.slaveof _ n q hn hq
  generalize (if n.flags.master then some s.myself else n.slaveof) = cur at hcur
  have hloop : Returns {Fault.stop}
      (allSlots.foldlM (updateSlot r e claimed cur) (s, false)) fun acc =>
        WellFormed acc.1 ∧ SlotsOnly s acc.1 := by
    refine Returns.foldlM ⟨hs, .refl s⟩ fun acc hacc j _ => ?_
    have hlive : (acc.1.heap r).isSome = true := by rw [hacc.2.isSome, hr]
    exact (updateSlot_wellFormed hacc.1 hlive e claimed cur j).mono
      (Set.empty_subset _) fun acc' h => ⟨h.1, hacc.2.trans h.2⟩
  refine hloop.bind fun ⟨t, taken⟩ ht => ?_
  have hkept : Kept s t := .of_slotsOnly ht.1 ht.2
  cases taken with
  | false => exact .pure hkept
  | true =>
    exact (followNewMaster_kept ht.1 (hkept.live r hr)
      fun q hq => hkept.live q (hcur q hq)).imp fun _ h => hkept.trans h

theorem seeEpochs_kept (hdr : Header) :
    Returns ∅ (seeEpochs s r hdr) (Kept s) := by
  refine live_bind_returns hr fun n hn => ?_
  split
  · exact .pure (.refl hs)
  have hs' : WellFormed
      { s with currentEpoch := max s.currentEpoch hdr.currentEpoch } :=
    ⟨⟨hs.consistent.bound, hs.consistent.numslots⟩,
      ⟨hs.linked.myself, hs.linked.slaveof, hs.linked.known, hs.linked.fresh⟩⟩
  have hkept : Kept _ (store _ r { n with
      configEpoch := max n.configEpoch hdr.configEpoch }) :=
    .store hs' hn rfl rfl fun m hm => hs.linked.slaveof r n m hn hm
  exact .pure ⟨hkept.wellFormed, hkept.live⟩

theorem turnIntoSlave_kept : Returns ∅ (turnIntoSlave s r) (Kept s) := by
  refine live_bind_returns hr fun n hn => ?_
  split
  · refine (clusterDelNodeSlots_wellFormed hs hr).bind fun t ht => ?_
    have hkept : Kept s t := .of_slotsOnly ht.1 ht.2
    refine live_bind_returns (hkept.live r hr) fun m hm => ?_
    exact .pure (hkept.trans (.store ht.1 hm rfl rfl
      fun k hk => ht.1.linked.slaveof r m k hm hk))
  · exact .pure (.refl hs)

theorem changeMaster_kept {master : Option Ref}
    (hmaster : ∀ q, master = some q → (s.heap q).isSome = true) :
    Returns {.stop} (changeMaster s r master) (Kept s) := by
  refine live_bind_returns hr fun n hn => ?_
  split
  · exact .pure (.refl hs)
  refine hs.touch_slaveof hn ?_
  refine redisAssert_bind_returns (fun _ => rfl) fun _ => .pure ?_
  exact .store hs hn rfl rfl hmaster

theorem switchRole_kept (hdr : Header) :
    Returns {.stop} (switchRole s r hdr) (Kept s) := by
  rw [switchRole]
  split
  · exact (clusterSetNodeAsMaster_kept hs hr).weaken
  · refine (turnIntoSlave_kept hs hr).weaken.bind fun t ht => ?_
    exact (changeMaster_kept ht.wellFormed (ht.live r hr) fun q hq =>
      ht.live q (isSome_of_clusterLookupNode hq)).imp fun _ h => ht.trans h

theorem claimSlots_kept (e : ℕ) (hdr : Header) :
    Returns {.stop} (claimSlots s r e hdr) (Kept s) := by
  refine live_bind_returns hr fun n hn => ?_
  refine touch_bind_returns (fun m hm h => ?_) ?_
  · split at hm
    · simp at hm
    · have hlive := hs.linked.slaveof r n m hn hm
      simp [h] at hlive
  · split
    · exact clusterUpdateSlotsConfigWith_kept hs hr e hdr.myslots
    · exact .pure (.refl hs)

theorem processSender_kept (e : ℕ) (hdr : Header) :
    Returns {.stop} (processSender s r e hdr) (Kept s) := by
  refine (switchRole_kept hs hr hdr).bind fun t ht => ?_
  exact (claimSlots_kept ht.wellFormed (ht.live r hr) e hdr).imp
    fun _ h => ht.trans h

theorem promoteSlave_kept (slave : Bool) :
    Returns ∅ (promoteSlave s r slave) (Kept s) := by
  cases slave with
  | false => exact .pure (.refl hs)
  | true => exact clusterSetNodeAsMaster_kept hs hr

end Live

/-- Nodes may be new or have a greater epoch. -/
structure Grown (s s' : State) : Prop where
  myself : s'.myself = s.myself
  slots : s'.slots = s.slots
  next : s.next ≤ s'.next
  live : ∀ q, (s.heap q).isSome = true → (s'.heap q).isSome = true
  nodes : ∀ q n', s'.heap q = some n' →
    (∃ n, s.heap q = some n ∧ n'.flags = n.flags ∧ n'.slaveof = n.slaveof ∧
      n.configEpoch ≤ n'.configEpoch) ∨
    s.heap q = none ∧ n'.slaveof = none ∧ s.next ≤ q

namespace Grown

theorem refl (s : State) : Grown s s :=
  ⟨rfl, rfl, le_rfl, fun _ hq => hq,
    fun _ n' hn' => .inl ⟨n', hn', rfl, rfl, le_rfl⟩⟩

theorem trans {s'' : State} (h : Grown s s') (h' : Grown s' s'') :
    Grown s s'' where
  myself := h'.myself.trans h.myself
  slots := h'.slots.trans h.slots
  next := h.next.trans h'.next
  live q hq := h'.live q (h.live q hq)
  nodes q n'' hn'' := by
    rcases h'.nodes q n'' hn'' with ⟨n', hn', hflags, hslaveof, hle⟩ | hnew
    · rcases h.nodes q n' hn' with ⟨n, hn, hflags', hslaveof', hle'⟩ | hnew
      · exact .inl ⟨n, hn, hflags.trans hflags', hslaveof.trans hslaveof',
          hle'.trans hle⟩
      · exact .inr ⟨hnew.1, hslaveof.trans hnew.2.1, hnew.2.2⟩
    · refine .inr ⟨?_, hnew.2.1, h.next.trans hnew.2.2⟩
      have hlive := h.live q
      simpa [hnew.1] using hlive

theorem unreferenced (h : Grown s s') (hr : s.Unreferenced r) :
    s'.Unreferenced r := by
  refine ⟨h.myself ▸ hr.1, fun q n' hn' => ?_⟩
  rcases h.nodes q n' hn' with ⟨n, hn, -, hslaveof, -⟩ | hnew
  · rw [hslaveof]
    exact hr.2 q n hn
  · simp [hnew.2.1]

end Grown

theorem seeEpochs_grown (s : State) (r : Ref) (hdr : Header) :
    Returns Set.univ (seeEpochs s r hdr) (Grown s) := by
  refine deref_bind_returns (fun _ => trivial) fun n hn => ?_
  split
  · exact .pure (.refl s)
  refine .pure ⟨rfl, rfl, le_rfl, fun q hq => ?_, fun q n' hn' => ?_⟩ <;>
    by_cases h : q = r
  · simp [store, h]
  · simpa [store, h] using hq
  · subst h
    refine .inl ⟨n, hn, ?_⟩
    simp only [store, update_self, Option.some_inj] at hn'
    subst hn'
    exact ⟨rfl, rfl, le_max_left _ _⟩
  · simp only [store, update_of_ne h] at hn'
    exact .inl ⟨n', hn', rfl, rfl, le_rfl⟩

theorem heap_startHandshake (s : State) (name : Bytes) :
    (startHandshake s name).heap =
      update s.heap s.next (some (createClusterNode name true)) := rfl

theorem startHandshake_fresh (hs : ∀ q, s.next ≤ q → s.heap q = none)
    (name : Bytes) (q : Ref) (hq : (startHandshake s name).next ≤ q) :
    (startHandshake s name).heap q = none := by
  have hlt : s.next < q := hq
  rw [heap_startHandshake, update_of_ne hlt.ne']
  exact hs q hlt.le

theorem startHandshake_grown (hs : ∀ q, s.next ≤ q → s.heap q = none)
    (name : Bytes) : Grown s (startHandshake s name) := by
  refine ⟨rfl, rfl, Nat.le_succ _, fun q hq => ?_, fun q n' hn' => ?_⟩
  · rw [heap_startHandshake]
    by_cases h : q = s.next
    · simp [h]
    · simpa [h] using hq
  rw [heap_startHandshake] at hn'
  by_cases h : q = s.next
  · subst h
    obtain rfl : createClusterNode name true = n' := by simpa using hn'
    exact .inr ⟨hs _ le_rfl, rfl, le_rfl⟩
  · rw [update_of_ne h] at hn'
    exact .inl ⟨n', hn', rfl, rfl, le_rfl⟩

theorem startHandshake_wellFormed (hs : WellFormed s) (name : Bytes) :
    WellFormed (startHandshake s name) := by
  have hnew := hs.linked.fresh s.next le_rfl
  have hgrown := startHandshake_grown hs.linked.fresh name
  refine ⟨⟨fun k q => ?_, fun q m hm => ?_⟩, ⟨hgrown.live _ hs.linked.myself,
    fun q m k hm hk => ?_, fun q hq => ?_,
    startHandshake_fresh hs.linked.fresh name⟩⟩
  · have hk := hs.consistent.bound k q
    rw [heap_startHandshake]
    by_cases h : q = s.next
    · subst h
      simpa [hnew, createClusterNode, startHandshake, store] using hk
    · simpa [h, startHandshake, store] using hk
  · rw [heap_startHandshake] at hm
    by_cases h : q = s.next
    · subst h
      obtain rfl : createClusterNode name true = m := by simpa using hm
      rfl
    · exact hs.consistent.numslots q m (by simpa [h] using hm)
  · rcases hgrown.nodes q m hm with ⟨n, hn, -, hslaveof, -⟩ | hq
    · exact hgrown.live k (hs.linked.slaveof q n k hn (hslaveof ▸ hk))
    · simp [hq.2.1] at hk
  by_cases h : q = s.next
  · rw [heap_startHandshake, h]
    simp
  refine hgrown.live q (hs.linked.known q ?_)
  have hmem : q ∈ s.known ++ [s.next] := by
    simp only [startHandshake] at hq
    split at hq
    · exact mem_append_left _ hq
    · exact hq
  simpa [h] using hmem

theorem foldl_startHandshake_grown (hs : ∀ q, s.next ≤ q → s.heap q = none)
    (added : List Bytes) :
    Grown s (added.foldl startHandshake s) ∧
      ∀ q, (added.foldl startHandshake s).next ≤ q →
        (added.foldl startHandshake s).heap q = none := by
  induction added generalizing s with
  | nil => exact ⟨.refl s, hs⟩
  | cons name added ih =>
    have h := ih (startHandshake_fresh hs name)
    exact ⟨(startHandshake_grown hs name).trans h.1, h.2⟩

/-- A node that the link of the packet makes the server free is not in use. -/
theorem updateLinkNode_kept (hs : WellFormed s) {link sender : Option Ref}
    (hlink : ∀ q, link = some q → (s.heap q).isSome = true)
    (hfree : ∀ q n, link = some q → s.heap q = some n →
      n.flags.handshake = true → sender.isSome = true →
        s.Unreferenced q ∧ ∀ j, s.slots j ≠ some q) (hdr : Header) :
    Returns ∅ (updateLinkNode s link sender hdr) fun p =>
      WellFormed p.1 ∧ (p.2 = false → Kept s p.1) := by
  cases link with
  | none => exact .pure (Kept.whenever _ (.refl hs))
  | some q =>
    have hq := hlink q rfl
    refine live_bind_returns hq fun n hn => ?_
    have hslaveof := fun m hm => hs.linked.slaveof q n m hn hm
    split
    next hshake =>
      split
      next hsender =>
        have hfree := hfree q n rfl hn hshake hsender
        refine (freeClusterNode_wellFormed hs hq hfree.1 hfree.2).bind
          fun t ht => ?_
        exact .pure ⟨ht, fun h => by simp at h⟩
      next =>
        exact .pure (Kept.whenever _ (.store hs hn rfl rfl hslaveof))
    next =>
      split
      · exact .pure (Kept.whenever _ (.refl hs))
      · exact .pure (Kept.whenever _ (.store hs hn rfl rfl hslaveof))

theorem seeSenderEpochs_grown (s : State) (sender : Option Ref)
    (hdr : Header) :
    Returns Set.univ (seeSenderEpochs s sender hdr) (Grown s) := by
  cases sender with
  | none => exact .pure (.refl s)
  | some r => exact seeEpochs_grown s r hdr

theorem seeSenderEpochs_wellFormed (hs : WellFormed s) {sender : Option Ref}
    (hsender : ∀ r, sender = some r → (s.heap r).isSome = true)
    (hdr : Header) :
    Returns ∅ (seeSenderEpochs s sender hdr) WellFormed := by
  cases sender with
  | none => exact .pure hs
  | some r =>
    exact (seeEpochs_kept hs (hsender r rfl) hdr).imp
      fun _ h => h.wellFormed

theorem contactNodes_grown (hs : ∀ q, s.next ≤ q → s.heap q = none)
    (heard : Bool) (added : List Bytes) :
    Grown s (contactNodes s heard added) ∧
      ∀ q, (contactNodes s heard added).next ≤ q →
        (contactNodes s heard added).heap q = none := by
  cases heard with
  | false => exact ⟨.refl s, hs⟩
  | true => exact foldl_startHandshake_grown hs added

theorem contactNodes_wellFormed (hs : WellFormed s) (heard : Bool)
    (added : List Bytes) : WellFormed (contactNodes s heard added) := by
  cases heard with
  | false => exact hs
  | true =>
    exact foldlRecOn added startHandshake hs fun _ ht name _ =>
      startHandshake_wellFormed ht name

theorem processPing_wellFormed (hs : WellFormed s) (kind : Kind)
    {link : Option Ref}
    (hlink : ∀ q, link = some q → (s.heap q).isSome = true) (hdr : Header)
    (hfree : ∀ q n, link = some q → s.heap q = some n →
      n.flags.handshake = true →
        (s.clusterLookupNode hdr.sender).isSome = true →
          s.Unreferenced q ∧ ∀ j, s.slots j ≠ some q) (added : List Bytes) :
    Returns {.stop} (processPing s kind link hdr added) WellFormed := by
  have hepochs := (seeSenderEpochs_wellFormed hs
    (fun _ h => isSome_of_clusterLookupNode h) hdr).and
    (seeSenderEpochs_grown s (s.clusterLookupNode hdr.sender) hdr)
  refine hepochs.weaken.bind fun t ht => ?_
  have hu := contactNodes_wellFormed ht.1 ((s.clusterLookupNode
    hdr.sender).isSome || link.isSome || decide (kind = .meet)) added
  have hup := ht.2.trans (contactNodes_grown ht.1.linked.fresh
    ((s.clusterLookupNode hdr.sender).isSome || link.isSome ||
      decide (kind = .meet)) added).1
  generalize contactNodes t ((s.clusterLookupNode hdr.sender).isSome ||
    link.isSome || decide (kind = .meet)) added = u at hu hup
  have hlink' : ∀ q, link = some q → (u.heap q).isSome = true :=
    fun q hq => hup.live q (hlink q hq)
  refine (updateLinkNode_kept hu hlink' (fun q n' hq hn' hshake hsome => ?_)
    hdr).weaken.bind fun ⟨v, stop⟩ hv => ?_
  · rcases hup.nodes q n' hn' with ⟨n, hn, hflags, -⟩ | hnew
    · have h := hfree q n hq hn (hflags ▸ hshake) hsome
      exact ⟨hup.unreferenced h.1, hup.slots ▸ h.2⟩
    · have hlive := hlink q hq
      simp [hnew.1] at hlive
  cases stop with
  | true => exact .pure hv.1
  | false =>
    simp only [Bool.false_eq_true, if_false]
    split
    next r hr =>
      have hlive := isSome_of_clusterLookupNode hr
      have hkept := hv.2 rfl
      exact (processSender_kept hkept.wellFormed
        (hkept.live r (hup.live r hlive)) _ hdr).imp fun _ h => h.wellFormed
    next => exact .pure hv.1

theorem applyUpdate_wellFormed (hs : WellFormed s) (cfg : Nodecfg) :
    Returns {.stop} (applyUpdate s cfg) WellFormed := by
  rw [applyUpdate]
  split
  next => exact .pure hs
  next r hr =>
    have hlive := isSome_of_clusterLookupNode hr
    refine live_bind_returns hlive fun n hn => ?_
    split
    · exact .pure hs
    refine (promoteSlave_kept hs hlive n.flags.slave).weaken.bind
      fun t ht => ?_
    exact (clusterUpdateSlotsConfigWith_kept ht.wellFormed
      (ht.live r hlive) _ _).imp fun _ h => h.wellFormed

theorem processUpdate_wellFormed (hs : WellFormed s) (hdr : Header)
    (cfg : Nodecfg) :
    Returns {.stop} (processUpdate s hdr cfg) WellFormed := by
  rw [processUpdate]
  split
  next => exact .pure hs
  next r hr =>
    refine (seeEpochs_kept hs (isSome_of_clusterLookupNode hr)
      hdr).weaken.bind fun t ht => ?_
    exact applyUpdate_wellFormed ht.wellFormed cfg

end Packets

/-! ## Commands -/

section Commands

/-- The arguments that are read as slots. -/
def slotArguments (argv : List Bytes) : List Bytes :=
  let sub := argv.getD 1 []
  if isText "addslots" sub ∨ isText "delslots" sub then argv.drop 2
  else if isText "setslot" sub then [argv.getD 2 []]
  else []

/-- The node that a command forgets. -/
def forgotten (s : State) (argv : List Bytes) : Option Ref :=
  if isText "forget" (argv.getD 1 []) then
    s.clusterLookupNode (argv.getD 2 [])
  else none

theorem lt_of_getSlotOrReply {o : Bytes} {slot : ℕ}
    (h : getSlotOrReply o = some slot)
    (hbound : getSlotOrReply o ≠ some 16384) : slot < 16384 := by
  have hne : slot ≠ 16384 := fun heq => hbound (heq ▸ h)
  rw [getSlotOrReply] at h
  split at h
  next => simp at h
  next v _ =>
    split at h
    next => simp at h
    next hv =>
      simp only [Option.some_inj] at h
      omega

theorem entry_eq_ok {slot : ℕ} (h : slot < 16384) :
    entry slot = .ok ⟨slot, h⟩ := dif_pos h

theorem parseSlots_returns (s : State) (del : Bool) {args : List Bytes}
    (hargs : ∀ o ∈ args, getSlotOrReply o ≠ some 16384)
    (marked : List Slot) :
    Returns ∅ (parseSlots s del args marked) fun _ => True := by
  induction args generalizing marked with
  | nil => exact .pure trivial
  | cons o args ih =>
    rw [parseSlots]
    split
    next => exact .pure trivial
    next slot hslot =>
      have hlt := lt_of_getSlotOrReply hslot (hargs o mem_cons_self)
      rw [entry_eq_ok hlt]
      show Returns ∅ (ite _ _ _) _
      split_ifs
      · exact .pure trivial
      · exact .pure trivial
      · exact .pure trivial
      · exact ih (fun o ho => hargs o (mem_cons_of_mem _ ho)) _

theorem changeSlot_wellFormed (hs : WellFormed s) (del : Bool) (j : Slot) :
    Returns ∅ (changeSlot del s j) fun p => WellFormed p.1 := by
  cases del with
  | false =>
    exact (clusterAddSlot_wellFormed hs hs.linked.myself j).imp fun _ h => h.1
  | true => exact (clusterDelSlot_wellFormed hs j).imp fun _ h => h.1

theorem assignSlot_wellFormed (hs : WellFormed s) (del : Bool)
    (marked : List Slot) (j : Slot) :
    Returns {.stop} (assignSlot del marked s j) WellFormed := by
  rw [assignSlot]
  split
  · have hs' := hs.marks s.migratingSlotsTo
      (update s.importingSlotsFrom j none)
    refine (changeSlot_wellFormed hs' del j).weaken.bind fun p hp => ?_
    exact redisAssert_bind_returns (fun _ => rfl) fun _ => .pure hp
  · exact .pure hs

theorem addDelSlots_wellFormed (hs : WellFormed s) (del : Bool)
    {args : List Bytes}
    (hargs : ∀ o ∈ args, getSlotOrReply o ≠ some 16384) :
    Returns {.stop} (addDelSlots s del args) fun p => WellFormed p.1 := by
  refine (parseSlots_returns s del hargs []).weaken.bind fun parsed _ => ?_
  cases parsed with
  | error r => exact .pure hs
  | ok marked =>
    refine (Returns.foldlM hs fun t ht j _ =>
      assignSlot_wellFormed ht del marked j).bind fun t ht => ?_
    exact .pure ht

theorem setSlot_wellFormed (hs : WellFormed s) (keys : Keys)
    {argv : List Bytes}
    (hslot : getSlotOrReply (argv.getD 2 []) ≠ some 16384) :
    Returns {.stop} (setSlot keys s argv) fun p => WellFormed p.1 := by
  rw [setSlot]
  split
  next => exact .pure hs
  next slot h =>
    have hlt := lt_of_getSlotOrReply h hslot
    simp only
    split_ifs
    · rw [setSlotMigrating, entry_eq_ok hlt]
      show Returns _ (ite _ _ _) _
      split_ifs
      · exact .pure hs
      · split
        · exact .pure hs
        · exact .pure (hs.marks _ _)
    · rw [setSlotImporting, entry_eq_ok hlt]
      show Returns _ (ite _ _ _) _
      split_ifs
      · exact .pure hs
      · split
        · exact .pure hs
        · exact .pure (hs.marks _ _)
    · rw [setSlotStable, entry_eq_ok hlt]
      exact .pure (hs.marks _ _)
    · rw [setSlotNode]
      split
      next => exact .pure hs
      next r hr =>
        rw [entry_eq_ok hlt]
        show Returns _ (ite _ _ _) _
        split_ifs
        · exact .pure hs
        · refine (rebindSlot_wellFormed (hs.clearMarks _ r)
            (isSome_of_clusterLookupNode hr) _).weaken.bind fun t ht => ?_
          exact .pure ht.1
    · exact .pure hs

theorem forget_wellFormed (hs : WellFormed s) {id : Bytes}
    (hfree : ∀ r, s.clusterLookupNode id = some r → s.Unreferenced r) :
    Returns ∅ (forget s id) fun p => WellFormed p.1 := by
  rw [forget]
  split
  next => exact .pure hs
  next r hr =>
    refine (clusterDelNode_wellFormed hs (isSome_of_clusterLookupNode hr)
      (hfree r hr)).bind fun t ht => ?_
    exact .pure ht

theorem flushSlots_wellFormed (hs : WellFormed s) (keys : Keys) :
    Returns ∅ (flushSlots keys s) fun p => WellFormed p.1 := by
  rw [flushSlots]
  split
  · refine (clusterDelNodeSlots_wellFormed hs hs.linked.myself).bind
      fun t ht => ?_
    exact .pure ht.1
  · exact .pure hs

theorem clusterCommand_wellFormed (hs : WellFormed s) (keys : Keys)
    {argv : List Bytes}
    (hslots : ∀ o ∈ slotArguments argv, getSlotOrReply o ≠ some 16384)
    (hfree : ∀ r, forgotten s argv = some r → s.Unreferenced r) :
    Returns {.stop} (clusterCommand keys s argv) fun p => WellFormed p.1 := by
  rw [slotArguments] at hslots
  rw [forgotten] at hfree
  rw [clusterCommand]
  split_ifs with hflush hadd hset hforget
  · exact (flushSlots_wellFormed hs keys).weaken
  · rw [if_pos hadd.1] at hslots
    exact addDelSlots_wellFormed hs _ hslots
  · have hname := fun h => hadd ⟨h, by omega⟩
    rw [if_neg hname, if_pos hset.1] at hslots
    exact setSlot_wellFormed hs keys (hslots _ mem_cons_self)
  · rw [if_pos hforget.1] at hfree
    exact (forget_wellFormed hs hfree).weaken
  · exact .pure hs

end Commands

/-! ## Runs -/

section Runs

/-- No slot argument is 16384, and a node that is freed is not in use: it is
not the node itself nor the master of a node, and owns no slot unless the
command is FORGET, which takes its slots away. -/
def Event.careful (s : State) : Event → Prop
  | .command _ argv =>
    (∀ o ∈ slotArguments argv, getSlotOrReply o ≠ some 16384) ∧
      ∀ r, forgotten s argv = some r → s.Unreferenced r
  | .ping _ link hdr _ =>
    ∀ r n, link = some r → s.heap r = some n → n.flags.handshake = true →
      (s.clusterLookupNode hdr.sender).isSome = true →
        s.Unreferenced r ∧ ∀ j, s.slots j ≠ some r
  | .update _ _ => True
  | .handshakeTimeout r =>
    ∀ n, s.heap r = some n → n.flags.handshake = true →
      s.Unreferenced r ∧ ∀ j, s.slots j ≠ some r

def Careful : State → List Event → Prop
  | _, [] => True
  | s, e :: events =>
    e.careful s ∧ ∀ s', s.step e = .ok s' → Careful s' events

theorem handshakeTimeout_wellFormed (hs : WellFormed s)
    (hfree : ∀ n, s.heap r = some n → n.flags.handshake = true →
      s.Unreferenced r ∧ ∀ j, s.slots j ≠ some r) :
    Returns ∅ (handshakeTimeout s r) WellFormed := by
  rw [handshakeTimeout]
  split
  next hknown =>
    have hr := hs.linked.known r hknown
    refine live_bind_returns hr fun n hn => ?_
    split
    next hshake =>
      have h := hfree n hn hshake
      exact freeClusterNode_wellFormed hs hr h.1 h.2
    next => exact .pure hs
  next => exact .pure hs

theorem step_wellFormed (hs : WellFormed s) {e : Event}
    (hcareful : e.careful s) : Returns {.stop} (s.step e) WellFormed := by
  cases e with
  | command keys argv =>
    refine (clusterCommand_wellFormed hs keys hcareful.1 hcareful.2).bind
      fun p hp => ?_
    exact .pure hp
  | ping kind link hdr added =>
    refine processPing_wellFormed hs kind (fun q hq => ?_) hdr
      (fun q n hq => hcareful q n (Option.filter_eq_some_iff.mp hq).1) added
    have hmem := (Option.filter_eq_some_iff.mp hq).2
    exact hs.linked.known q (by simpa using hmem)
  | update hdr cfg => exact processUpdate_wellFormed hs hdr cfg
  | handshakeTimeout r => exact (handshakeTimeout_wellFormed hs hcareful).weaken

theorem run_wellFormed {events : List Event} (hs : WellFormed s)
    (hcareful : Careful s events) :
    Returns {.stop} (s.run events) WellFormed := by
  induction events generalizing s with
  | nil => exact .pure hs
  | cons e events ih =>
    rw [run, foldlM_cons]
    have hstep := step_wellFormed hs hcareful.1
    cases h : s.step e with
    | error f =>
      rw [h] at hstep
      exact hstep
    | ok t => exact ih (hstep.of_eq_ok h) (hcareful.2 t h)

theorem clusterInit_wellFormed (name : Bytes) :
    WellFormed (clusterInit name) := by
  have hheap : ∀ r n, (clusterInit name).heap r = some n →
      r = 0 ∧ n.slots = ∅ ∧ n.numslots = 0 ∧ n.slaveof = none := by
    intro r n hn
    simp only [clusterInit] at hn
    split at hn
    next h =>
      obtain rfl := Option.some_inj.mp hn
      exact ⟨h, rfl, rfl, rfl⟩
    next => simp at hn
  refine ⟨⟨fun j r => ?_, fun r n hn => ?_⟩,
    ⟨rfl, fun r n m hn hm => ?_, fun r hr => ?_, fun r hr => ?_⟩⟩
  · refine ⟨fun h => by simp [clusterInit] at h, fun ⟨n, hn, hj⟩ => ?_⟩
    simp [(hheap r n hn).2.1] at hj
  · obtain ⟨-, hslots, hnum, -⟩ := hheap r n hn
    simp [hslots, hnum]
  · simp [(hheap r n hn).2.2.2] at hm
  · obtain rfl : r = 0 := by simpa [clusterInit] using hr
    rfl
  · have hpos : r ≠ 0 := Nat.one_le_iff_ne_zero.mp hr
    exact if_neg hpos

/-- Runs whose steps are careful never leave the tables, and in every state
they reach the table, the bitmaps and the counters agree. -/
theorem slot_table_consistent (events : List Event) (hs : WellFormed s)
    (hcareful : Careful s events) :
    s.run events ≠ .error .undefined ∧
      ∀ s', s.run events = .ok s' → Consistent s' := by
  have hrun := run_wellFormed hs hcareful
  refine ⟨fun h => ?_, fun s' h => (hrun.of_eq_ok h).consistent⟩
  rw [h] at hrun
  exact absurd hrun (by simp [Returns])

def clusterArgv (args : List String) : List Bytes :=
  ascii "CLUSTER" :: args.map ascii

def noKeys : Keys := ⟨true, fun _ => 0⟩

theorem slot_table_consistent_addslots :
    let s := clusterInit (ascii "a")
    let events :=
      [Event.command noKeys (clusterArgv ["ADDSLOTS", "5", "16383"]),
        .command noKeys (clusterArgv ["SETSLOT", "5", "STABLE"])]
    s.run events ≠ .error .undefined ∧
      ∀ s', s.run events = .ok s' → Consistent s' := by
  have hfree : ∀ (t : State) argv, isText "forget" (argv.getD 1 []) = false →
      ∀ r, forgotten t argv = some r → t.Unreferenced r := by
    intro t argv hname r hr
    rw [forgotten, hname] at hr
    simp at hr
  refine slot_table_consistent _ (clusterInit_wellFormed _) ?_
  refine ⟨⟨by decide, hfree _ _ (by decide)⟩, fun t _ => ?_⟩
  exact ⟨⟨by decide, hfree _ _ (by decide)⟩, fun _ _ => trivial⟩

theorem clusterDelNodeSlots_freed (h : s.heap r = none) :
    clusterDelNodeSlots s r = .error .undefined := by
  obtain ⟨slot, slots, hslots⟩ :=
    exists_cons_of_ne_nil (ne_nil_of_mem (mem_allSlots 0))
  rw [clusterDelNodeSlots, hslots, foldlM_cons, deref, h]
  rfl

/-- SETSLOT writes outside the tables at slot 16384, and after a node has
forgotten itself FLUSHSLOTS reads the freed node. -/
theorem setslot_16384_leaves_tables :
    (clusterInit (ascii "a")).run
      [.command noKeys (clusterArgv ["SETSLOT", "16384", "STABLE"])] =
        .error .undefined ∧
    (clusterInit (ascii "a")).run
      [.command noKeys (clusterArgv ["FORGET", "a"]),
        .command noKeys (clusterArgv ["FLUSHSLOTS"])] =
        .error .undefined := by
  refine ⟨rfl, ?_⟩
  obtain ⟨t, ht, hnone, hmyself⟩ := (clusterDelNode_frees
    (clusterInit_wellFormed (ascii "a")) (r := 0) rfl).exists_ok
  have hforget : (clusterInit (ascii "a")).step
      (.command noKeys (clusterArgv ["FORGET", "a"])) = .ok t := by
    have hdel : clusterCommand noKeys (clusterInit (ascii "a"))
        (clusterArgv ["FORGET", "a"]) =
          clusterDelNode (clusterInit (ascii "a")) 0 >>= fun s =>
            pure (s, Reply.ok) := rfl
    rw [step, hdel, ht]
    rfl
  have hflush : t.step (.command noKeys (clusterArgv ["FLUSHSLOTS"])) =
      .error .undefined := by
    have hdel : clusterCommand noKeys t (clusterArgv ["FLUSHSLOTS"]) =
        clusterDelNodeSlots t t.myself >>= fun s => pure (s, Reply.ok) := rfl
    rw [step, hdel, clusterDelNodeSlots_freed (hmyself ▸ hnone)]
    rfl
  rw [run, foldlM_cons, hforget]
  show List.foldlM step t _ = _
  rw [foldlM_cons, hflush]
  rfl

end Runs

end RedisV8.Cluster
