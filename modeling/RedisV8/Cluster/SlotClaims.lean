import RedisV8.Cluster.SlotRuns

/-!
# Claims on slots

A claim takes a slot from its owner when its epoch is greater than the one
recorded for the owner.  PING and PONG packets record their epoch before their
claim is looked at, so a slot then never goes back to an older claim.  An
UPDATE packet binds slots without recording the epoch.
-/

namespace RedisV8.Cluster

open Outcomes Util Server Option

variable {s s' : State} {r : Ref} {n n' : Node} {j : Slot}

/-! ## Epochs only grow -/

section Epochs

/-- The nodes that are still there have not lost epochs, and addresses from
`next` on are unused. -/
structure Aged (s s' : State) : Prop where
  next : s.next ≤ s'.next
  fresh : ∀ q, s'.next ≤ q → s'.heap q = none
  nodes : ∀ q n', q < s.next → s'.heap q = some n' →
    ∃ n, s.heap q = some n ∧ n.configEpoch ≤ n'.configEpoch

namespace Aged

theorem refl (hs : ∀ q, s.next ≤ q → s.heap q = none) : Aged s s :=
  ⟨le_rfl, hs, fun _ n' _ hn' => ⟨n', hn', le_rfl⟩⟩

theorem trans {s'' : State} (h : Aged s s') (h' : Aged s' s'') :
    Aged s s'' where
  next := h.next.trans h'.next
  fresh := h'.fresh
  nodes q n'' hq hn'' := by
    obtain ⟨n', hn', hle'⟩ := h'.nodes q n'' (hq.trans_le h.next) hn''
    obtain ⟨n, hn, hle⟩ := h.nodes q n' hq hn'
    exact ⟨n, hn, hle.trans hle'⟩

theorem of_slotsOnly (hs : ∀ q, s.next ≤ q → s.heap q = none)
    (h : SlotsOnly s s') : Aged s s' where
  next := h.next.ge
  fresh q hq := by
    have hsome := h.isSome q
    rw [hs q (h.next ▸ hq)] at hsome
    simpa using hsome
  nodes q n' _ hn' := by
    obtain ⟨n, hn, hbare⟩ := h.exists_node hn'
    have hepoch : n.bare.configEpoch = n'.bare.configEpoch := by rw [hbare]
    exact ⟨n, hn, hepoch.le⟩

theorem of_grown (h : Grown s s')
    (hfresh : ∀ q, s'.next ≤ q → s'.heap q = none) : Aged s s' where
  next := h.next
  fresh := hfresh
  nodes q n' hq hn' := by
    rcases h.nodes q n' hn' with ⟨n, hn, -, -, hle⟩ | hnew
    · exact ⟨n, hn, hle⟩
    · exact absurd hnew.2.2 hq.not_ge

theorem store (hs : ∀ q, s.next ≤ q → s.heap q = none)
    (hn : s.heap r = some n) (hle : n.configEpoch ≤ n'.configEpoch) :
    Aged s (s.store r n') := by
  refine ⟨le_rfl, fun q hq => ?_, fun q m _ hm => ?_⟩
  · have hnone := hs q hq
    have h : q ≠ r := fun h => by simp [h, hn] at hnone
    simpa [State.store, h] using hnone
  by_cases h : q = r
  · subst h
    obtain rfl : n' = m := by simpa [State.store] using hm
    exact ⟨n, hn, hle⟩
  · exact ⟨m, by simpa [State.store, h] using hm, le_rfl⟩

end Aged

/-- What leaves the slot table as it is. -/
def Aside (s s' : State) : Prop := Aged s s' ∧ s'.slots = s.slots

theorem Aside.trans {s'' : State} (h : Aside s s') (h' : Aside s' s'') :
    Aside s s'' :=
  ⟨h.1.trans h'.1, h'.2.trans h.2⟩

variable (hs : ∀ q, s.next ≤ q → s.heap q = none)

include hs

theorem freeClusterNode_aside (r : Ref) :
    Returns Set.univ (freeClusterNode s r) (Aside s) := by
  refine deref_bind_returns (fun _ => trivial) fun n hn => ?_
  refine touch_bind_returns (fun _ _ _ => trivial) (.pure ⟨⟨le_rfl, ?_, ?_⟩, rfl⟩)
  · intro q hq
    by_cases h : q = r
    · simp [h]
    · simpa [h] using hs q hq
  intro q m _ hm
  by_cases h : q = r
  · simp [h] at hm
  · exact ⟨m, by simpa [h] using hm, le_rfl⟩

theorem clusterSetNodeAsMaster_aside (r : Ref) :
    Returns Set.univ (clusterSetNodeAsMaster s r) (Aside s) := by
  refine deref_bind_returns (fun _ => trivial) fun n hn => ?_
  split
  · exact .pure ⟨.refl hs, rfl⟩
  · exact touch_bind_returns (fun _ _ _ => trivial)
      (.pure ⟨.store hs hn le_rfl, rfl⟩)

theorem clusterSetMaster_aside (r : Ref) :
    Returns Set.univ (clusterSetMaster s r) (Aside s) := by
  refine deref_bind_returns (fun _ => trivial) fun n hn => ?_
  refine redisAssert_bind_returns (fun _ => trivial) fun _ => ?_
  refine redisAssert_bind_returns (fun _ => trivial) fun _ => ?_
  exact touch_bind_returns (fun _ _ _ => trivial)
    (.pure ⟨.store hs hn le_rfl, rfl⟩)

theorem followNewMaster_aside (r : Ref) (curmaster : Option Ref) :
    Returns Set.univ (followNewMaster s r curmaster) (Aside s) := by
  cases curmaster with
  | none => trivial
  | some q =>
    refine deref_bind_returns (fun _ => trivial) fun n _ => ?_
    split
    · exact clusterSetMaster_aside hs r
    · exact .pure ⟨.refl hs, rfl⟩

theorem updateLinkNode_aside (link sender : Option Ref) (hdr : Header) :
    Returns Set.univ (updateLinkNode s link sender hdr) fun p =>
      Aside s p.1 := by
  cases link with
  | none => exact .pure ⟨.refl hs, rfl⟩
  | some q =>
    refine deref_bind_returns (fun _ => trivial) fun n hn => ?_
    split
    · split
      · refine (freeClusterNode_aside hs q).bind fun t ht => ?_
        exact .pure ht
      · exact .pure ⟨.store hs hn le_rfl, rfl⟩
    · split
      · exact .pure ⟨.refl hs, rfl⟩
      · exact .pure ⟨.store hs hn le_rfl, rfl⟩

theorem promoteSlave_aside (r : Ref) (slave : Bool) :
    Returns Set.univ (promoteSlave s r slave) (Aside s) := by
  cases slave with
  | false => exact .pure ⟨.refl hs, rfl⟩
  | true => exact clusterSetNodeAsMaster_aside hs r

end Epochs

/-! ## Claims -/

section Claims

/-- A claim to some slots under an epoch may take the slot. -/
def Yields (s : State) (claimed : Finset Slot) (j : Slot) (e : ℕ) : Prop :=
  j ∈ claimed ∧ ∀ o, s.slots j = some o → ∃ n, s.heap o = some n ∧ n.configEpoch < e

/-- Slots go to `r` only from owners with smaller epochs. -/
def ClaimedBy (r : Ref) (claimed : Finset Slot) (e : ℕ) (s s' : State) : Prop :=
  Aged s s' ∧ ∀ j, s'.slots j = s.slots j ∨
    s'.slots j = some r ∧ Yields s claimed j e

variable {claimed : Finset Slot}

theorem takesSlot_yields (hj : j ∈ claimed) (s : State) (r : Ref) (e : ℕ) :
    Returns Set.univ (takesSlot s r e j) fun b =>
      b = true → s.slots j ≠ some r ∧ Yields s claimed j e := by
  rw [takesSlot]
  split
  next h => exact .pure fun _ => by simp [Yields, hj, h]
  next o h =>
    split
    next => exact .pure fun h => by simp at h
    next hne =>
      refine deref_bind_returns (fun _ => trivial) fun n hn => .pure ?_
      intro hlt
      refine ⟨by simpa [h] using hne, hj, fun q hq => ?_⟩
      obtain rfl : o = q := by simpa [h] using hq
      exact ⟨n, hn, by simpa using hlt⟩

theorem Yields.takesSlot {e : ℕ} (hy : Yields s claimed j e)
    (hne : s.slots j ≠ some r) : takesSlot s r e j = .ok true := by
  rw [Cluster.takesSlot]
  cases ho : s.slots j with
  | none => rfl
  | some o =>
    obtain ⟨n, hn, hlt⟩ := hy.2 o ho
    have hor : o ≠ r := fun h => hne (h ▸ ho)
    simp [hor, State.deref, hn, hlt, bind, Except.bind, pure, Except.pure]

theorem Yields.of_slotsOnly {e : ℕ} (h : SlotsOnly s s')
    (hslots : s'.slots j = s.slots j) (hy : Yields s' claimed j e) :
    Yields s claimed j e := by
  refine ⟨hy.1, fun o ho => ?_⟩
  obtain ⟨n', hn', hlt⟩ := hy.2 o (hslots.trans ho)
  obtain ⟨n, hn, hbare⟩ := h.exists_node hn'
  have hepoch : n.bare.configEpoch = n'.bare.configEpoch := by rw [hbare]
  exact ⟨n, hn, hepoch.trans_lt hlt⟩

/-- What the loop has done up to some round. -/
structure LoopClaims (r : Ref) (claimed : Finset Slot) (e : ℕ) (s t : State) : Prop where
  slotsOnly : SlotsOnly s t
  slots : ∀ j, t.slots j = s.slots j ∨ t.slots j = some r ∧ Yields s claimed j e

theorem updateSlot_claims {e : ℕ} {acc : State × Bool}
    (hacc : LoopClaims r claimed e s acc.1) (curmaster : Option Ref)
    (j : Slot) :
    Returns Set.univ (updateSlot r e claimed curmaster acc j) fun acc' =>
      LoopClaims r claimed e s acc'.1 := by
  rw [updateSlot]
  split
  · rename_i hj
    refine (takesSlot_yields hj acc.1 r e).bind fun b hb => ?_
    split
    next htrue =>
      obtain ⟨hne, hy⟩ := hb htrue
      have hslot : acc.1.slots j = s.slots j :=
        (hacc.slots j).resolve_right fun h => hne h.1
      refine (rebindSlot_frame acc.1 r j).bind fun t ht => ?_
      refine .pure ⟨hacc.slotsOnly.trans ht.1, fun k => ?_⟩
      show t.slots k = s.slots k ∨ t.slots k = some r ∧ Yields s claimed k e
      rw [ht.2]
      by_cases hk : k = j
      · subst hk
        exact .inr ⟨by simp, hy.of_slotsOnly hacc.slotsOnly hslot⟩
      · simpa [hk] using hacc.slots k
    next => exact .pure hacc
  · exact .pure hacc

theorem clusterUpdateSlotsConfigWith_claims
    (hs : ∀ q, s.next ≤ q → s.heap q = none) (r : Ref) (e : ℕ)
    (claimed : Finset Slot) :
    Returns Set.univ (clusterUpdateSlotsConfigWith s r e claimed)
      (ClaimedBy r claimed e s) := by
  refine deref_bind_returns (fun _ => trivial) fun n _ => ?_
  generalize (if n.flags.master then some s.myself else n.slaveof) = cur
  have hloop : Returns Set.univ
      (allSlots.foldlM (updateSlot r e claimed cur) (s, false)) fun acc =>
        LoopClaims r claimed e s acc.1 :=
    Returns.foldlM ⟨.refl s, fun _ => .inl rfl⟩
      fun acc hacc j _ => updateSlot_claims hacc cur j
  refine hloop.bind fun ⟨t, taken⟩ ht => ?_
  have haged := Aged.of_slotsOnly hs ht.slotsOnly
  cases taken with
  | false => exact .pure ⟨haged, ht.slots⟩
  | true =>
    refine (followNewMaster_aside haged.fresh r cur).imp fun u hu => ?_
    exact ⟨haged.trans hu.1, hu.2 ▸ ht.slots⟩

theorem Yields.of_aged {e : ℕ} (h : Aged s s')
    (hslots : s'.slots j = s.slots j)
    (hbelow : ∀ o, s.slots j = some o → o < s.next) (hy : Yields s' claimed j e) :
    Yields s claimed j e := by
  refine ⟨hy.1, fun o ho => ?_⟩
  obtain ⟨n', hn', hlt⟩ := hy.2 o (hslots.trans ho)
  obtain ⟨n, hn, hle⟩ := h.nodes o n' (hbelow o ho) hn'
  exact ⟨n, hn, hle.trans_lt hlt⟩

/-- What a claim of `r` under an epoch does to the slot table. -/
structure Rebinds (s : State) (r : Ref) (claimed : Finset Slot) (e : ℕ)
    (s' : State) : Prop where
  aged : Aged s s'
  slots : ∀ j, s'.slots j = s.slots j ∨ s'.slots j = none ∨
    s'.slots j = some r ∧ Yields s claimed j e

theorem Rebinds.of_aside {t : State} {e : ℕ}
    (hbelow : ∀ j o, s.slots j = some o → o < s.next) (h : Aside s t)
    (h' : Rebinds t r claimed e s') : Rebinds s r claimed e s' where
  aged := h.1.trans h'.aged
  slots j := by
    have hj : t.slots j = s.slots j := congrFun h.2 j
    rcases h'.slots j with hsame | hnone | ⟨hr, hy⟩
    · exact .inl (hsame.trans hj)
    · exact .inr (.inl hnone)
    · exact .inr (.inr ⟨hr, hy.of_aged h.1 hj (hbelow j)⟩)

/-- A node that loses slots this way is no longer a master. -/
def Demoted (r : Ref) (s s' : State) : Prop :=
  Aged s s' ∧ (s'.slots = s.slots ∨
    (∀ j, s'.slots j = s.slots j ∨ s'.slots j = none) ∧
      ∀ n', s'.heap r = some n' → n'.flags.master = false)

variable (hs : ∀ q, s.next ≤ q → s.heap q = none)

include hs

theorem turnIntoSlave_demoted (r : Ref) :
    Returns Set.univ (turnIntoSlave s r) (Demoted r s) := by
  refine deref_bind_returns (fun _ => trivial) fun n _ => ?_
  split
  · refine (clusterDelNodeSlots_frame s r).bind fun t ht => ?_
    have haged := Aged.of_slotsOnly hs ht.1
    refine deref_bind_returns (fun _ => trivial) fun m hm => .pure ⟨?_, ?_⟩
    · exact haged.trans (.store haged.fresh hm le_rfl)
    refine .inr ⟨ht.2, fun n' hn' => ?_⟩
    simp only [State.store, Function.update_self, some_inj] at hn'
    subst hn'
    rfl
  · exact .pure ⟨.refl hs, .inl rfl⟩

theorem changeMaster_aside (r : Ref) (master : Option Ref) :
    Returns Set.univ (changeMaster s r master) fun s' => Aside s s' ∧
      ∀ n', s'.heap r = some n' →
        ∃ n, s.heap r = some n ∧ n'.flags = n.flags := by
  refine deref_bind_returns (fun _ => trivial) fun n hn => ?_
  split
  · exact .pure ⟨⟨.refl hs, rfl⟩, fun n' hn' => ⟨n', hn', rfl⟩⟩
  refine touch_bind_returns (fun _ _ _ => trivial) ?_
  refine redisAssert_bind_returns (fun _ => trivial) fun _ => ?_
  refine .pure ⟨⟨.store hs hn le_rfl, rfl⟩, fun n' hn' => ⟨n, hn, ?_⟩⟩
  simp only [State.store, Function.update_self, some_inj] at hn'
  subst hn'
  rfl

theorem switchRole_demoted (r : Ref) (hdr : Header) :
    Returns Set.univ (switchRole s r hdr) (Demoted r s) := by
  rw [switchRole]
  split
  · exact (clusterSetNodeAsMaster_aside hs r).imp
      fun _ h => ⟨h.1, .inl h.2⟩
  refine (turnIntoSlave_demoted hs r).bind fun t ht => ?_
  refine (changeMaster_aside ht.1.fresh r _).imp fun u hu => ?_
  refine ⟨ht.1.trans hu.1.1, ?_⟩
  rcases ht.2 with hsame | ⟨hslots, hflag⟩
  · exact .inl (hu.1.2.trans hsame)
  refine .inr ⟨hu.1.2 ▸ hslots, fun n' hn' => ?_⟩
  obtain ⟨n, hn, hflags⟩ := hu.2 n' hn'
  rw [hflags]
  exact hflag n hn

/-- The claim of a node that is not a master is not looked at. -/
theorem claimSlots_claims (r : Ref) (e : ℕ) (hdr : Header) :
    Returns Set.univ (claimSlots s r e hdr) fun s' => ClaimedBy r hdr.myslots e s s' ∧
      ((∀ n, s.heap r = some n → n.flags.master = false) →
        s'.slots = s.slots) := by
  refine deref_bind_returns (fun _ => trivial) fun n hn => ?_
  refine touch_bind_returns (fun _ _ _ => trivial) ?_
  split
  next h =>
    refine (clusterUpdateSlotsConfigWith_claims hs r e hdr.myslots).imp
      fun t ht => ⟨ht, fun hflag => ?_⟩
    simp [hflag n hn] at h
  next => exact .pure ⟨⟨.refl hs, fun _ => .inl rfl⟩, fun _ => rfl⟩

theorem processSender_rebinds
    (hbelow : ∀ j o, s.slots j = some o → o < s.next) (r : Ref) (e : ℕ)
    (hdr : Header) :
    Returns Set.univ (processSender s r e hdr) (Rebinds s r hdr.myslots e) := by
  refine (switchRole_demoted hs r hdr).bind fun t ht => ?_
  refine (claimSlots_claims ht.1.fresh r e hdr).imp fun u hu => ?_
  refine ⟨ht.1.trans hu.1.1, fun j => ?_⟩
  rcases ht.2 with hsame | ⟨hslots, hflag⟩
  · have hj : t.slots j = s.slots j := congrFun hsame j
    rcases hu.1.2 j with h | ⟨h, hy⟩
    · exact .inl (h.trans hj)
    · exact .inr (.inr ⟨h, hy.of_aged ht.1 hj (hbelow j)⟩)
  · -- no claim follows once slots were lost
    rw [hu.2 hflag]
    exact (hslots j).imp_right .inl

theorem lt_next_of_clusterLookupNode {name : Bytes}
    (h : s.clusterLookupNode name = some r) : r < s.next := by
  have hlive := isSome_of_clusterLookupNode h
  by_contra hle
  simp [hs r (not_lt.mp hle)] at hlive

/-- The epoch of a claim is recorded before the claim is looked at. -/
theorem seeEpochs_aside (r : Ref) (hdr : Header) :
    Returns Set.univ (seeEpochs s r hdr) fun t => Aside s t ∧
      ∀ n', t.heap r = some n' →
        senderConfigEpoch s (some r) hdr ≤ n'.configEpoch := by
  refine deref_bind_returns (fun _ => trivial) fun n hn => ?_
  have hepoch : senderConfigEpoch s (some r) hdr =
      if n.flags.handshake then 0 else hdr.configEpoch := by
    simp [senderConfigEpoch, hn]
  split
  next hshake =>
    rw [hepoch, if_pos hshake]
    exact .pure ⟨⟨.refl hs, rfl⟩, fun _ _ => Nat.zero_le _⟩
  next hshake =>
    rw [hepoch, if_neg hshake]
    have haged : Aged s (s.store r { n with
        configEpoch := max n.configEpoch hdr.configEpoch }) :=
      .store hs hn (le_max_left _ _)
    refine .pure ⟨⟨⟨haged.next, haged.fresh, haged.nodes⟩, rfl⟩,
      fun n' hn' => ?_⟩
    simp only [State.store, Function.update_self, some_inj] at hn'
    subst hn'
    exact le_max_right _ _

theorem contactNodes_aside (heard : Bool) (added : List Bytes) :
    Aside s (contactNodes s heard added) := by
  have h := contactNodes_grown hs heard added
  exact ⟨.of_grown h.1 h.2, h.1.slots⟩

/-- The slots that a PING or PONG binds go to its sender, whose record then
has an epoch at least that of the claim. -/
theorem processPing_rebinds
    (hbelow : ∀ j o, s.slots j = some o → o < s.next) (kind : Kind)
    (link : Option Ref) (hdr : Header) (added : List Bytes) :
    Returns Set.univ (processPing s kind link hdr added) fun s' =>
      Aside s s' ∨ ∃ r, s.clusterLookupNode hdr.sender = some r ∧
        Rebinds s r hdr.myslots (senderConfigEpoch s (some r) hdr) s' ∧
        ∀ n', s'.heap r = some n' →
          senderConfigEpoch s (some r) hdr ≤ n'.configEpoch := by
  have hlink : ∀ {t : State} (sender : Option Ref),
      (∀ q, t.next ≤ q → t.heap q = none) → Returns Set.univ
        (updateLinkNode (contactNodes t (sender.isSome || link.isSome ||
          decide (kind = .meet)) added) link sender hdr) fun p =>
            Aside t p.1 := by
    intro t sender ht
    have hcontact := contactNodes_aside ht (sender.isSome || link.isSome ||
      decide (kind = .meet)) added
    exact (updateLinkNode_aside hcontact.1.fresh link sender hdr).imp
      fun _ h => hcontact.trans h
  unfold processPing
  cases hsender : s.clusterLookupNode hdr.sender with
  | none =>
    refine (hlink none hs).bind fun ⟨v, stop⟩ hv => ?_
    cases stop <;> exact .pure (.inl hv)
  | some r =>
    refine (seeEpochs_aside hs r hdr).bind fun t ht => ?_
    refine (hlink (some r) ht.1.1.fresh).bind fun ⟨v, stop⟩ htv => ?_
    have hv : Aside s v := ht.1.trans htv
    cases stop with
    | true => exact .pure (.inl hv)
    | false =>
      refine (processSender_rebinds hv.1.fresh (fun j o ho => ?_) r _
        hdr).imp fun u hu => .inr ⟨r, rfl, hu.of_aside hbelow hv,
          fun n' hn' => ?_⟩
      · exact (hbelow j o (hv.2 ▸ ho)).trans_le hv.1.next
      have hlt := (lt_next_of_clusterLookupNode hs hsender).trans_le
        ht.1.1.next
      obtain ⟨n, hn, hle⟩ := (htv.1.trans hu.aged).nodes r n' hlt hn'
      exact (ht.2 n hn).trans hle

omit hs in
theorem seeEpochs_clusterLookupNode (s : State) (r : Ref) (hdr : Header)
    (name : Bytes) :
    Returns Set.univ (seeEpochs s r hdr) fun t =>
      t.clusterLookupNode name = s.clusterLookupNode name := by
  refine deref_bind_returns (fun _ => trivial) fun n hn => ?_
  split
  · exact .pure rfl
  refine .pure (congrFun (congrArg List.find? (funext fun q => ?_)) s.known)
  by_cases hq : q = r
  · simp [State.store, hq, hn]
  · simp [State.store, hq]

/-- The node that an UPDATE is about, and what it does to the slot table. -/
structure Updates (s : State) (cfg : Nodecfg) (r : Ref) (s' : State) :
    Prop where
  node : s.clusterLookupNode cfg.nodename = some r
  older : ∃ n, s.heap r = some n ∧ n.configEpoch < cfg.configEpoch
  rebinds : Rebinds s r cfg.slots cfg.configEpoch s'

theorem applyUpdate_rebinds
    (hbelow : ∀ j o, s.slots j = some o → o < s.next) (cfg : Nodecfg) :
    Returns Set.univ (applyUpdate s cfg) fun s' =>
      Aside s s' ∨ ∃ r, Updates s cfg r s' := by
  rw [applyUpdate]
  split
  next => exact .pure (.inl ⟨.refl hs, rfl⟩)
  next r hr =>
    refine deref_bind_returns (fun _ => trivial) fun n hn => ?_
    split
    · exact .pure (.inl ⟨.refl hs, rfl⟩)
    next hold =>
    refine (promoteSlave_aside hs r n.flags.slave).bind fun t ht => ?_
    refine (clusterUpdateSlotsConfigWith_claims ht.1.fresh r _ _).imp
      fun u hu => .inr ⟨r, hr, ⟨n, hn, not_le.1 hold⟩, ?_⟩
    exact .of_aside hbelow ht ⟨hu.1, fun j => (hu.2 j).imp_right .inr⟩

theorem processUpdate_rebinds
    (hbelow : ∀ j o, s.slots j = some o → o < s.next) (hdr : Header)
    (cfg : Nodecfg) :
    Returns Set.univ (processUpdate s hdr cfg) fun s' =>
      Aside s s' ∨ ∃ r, Updates s cfg r s' := by
  rw [processUpdate]
  split
  next => exact .pure (.inl ⟨.refl hs, rfl⟩)
  next q hq =>
    have hsee := (seeEpochs_aside hs q hdr).and
      (seeEpochs_clusterLookupNode s q hdr cfg.nodename)
    refine hsee.bind fun t hsaw => ?_
    obtain ⟨ht, hlookup⟩ := hsaw
    refine (applyUpdate_rebinds ht.1.1.fresh (fun j o ho => ?_) cfg).imp
      fun u hu => ?_
    · exact (hbelow j o (ht.1.2 ▸ ho)).trans_le ht.1.1.next
    · refine hu.imp ht.1.trans fun hupdates => ?_
      obtain ⟨r, hnode, ⟨n', hn', hlt⟩, hrebinds⟩ := hupdates
      rw [hlookup] at hnode
      obtain ⟨n, hn, hle⟩ := ht.1.1.nodes r n'
        (lt_next_of_clusterLookupNode hs hnode) hn'
      exact ⟨r, hnode, ⟨n, hn, hle.trans_lt hlt⟩,
        hrebinds.of_aside hbelow ht.1⟩

end Claims

/-! ## Runs -/

section Runs

inductive Packet where
  | ping (kind : Kind) (link : Option Ref) (hdr : Header) (added : List Bytes)
  | update (hdr : Header) (cfg : Nodecfg)

namespace Packet

def event : Packet → Event
  | ping kind link hdr added => .ping kind link hdr added
  | update hdr cfg => .update hdr cfg

/-- The epoch under which a packet claims slots. -/
def claimEpoch (s : State) : Packet → ℕ
  | ping _ _ hdr _ =>
    senderConfigEpoch s (s.clusterLookupNode hdr.sender) hdr
  | update _ cfg => cfg.configEpoch

def claimed : Packet → Finset Slot
  | ping _ _ hdr _ => hdr.myslots
  | update _ cfg => cfg.slots

/-- An UPDATE in which no slot passes the test under which its owner changes,
as the server is before the packet. -/
def BindsNothing (s : State) : Packet → Prop
  | ping _ _ _ _ => True
  | update _ cfg => ∀ r n, s.clusterLookupNode cfg.nodename = some r →
      s.heap r = some n → n.configEpoch < cfg.configEpoch →
        ∀ j ∈ cfg.slots, takesSlot s r cfg.configEpoch j ≠ .ok true

end Packet

/-- The state of the server, and for each slot the epoch of the claim under
which it is bound. -/
structure Ledger where
  state : State
  bound : Slot → ℕ

namespace Ledger

def step (w : Ledger) (p : Packet) : Step Ledger := do
  let s ← w.state.step p.event
  pure ⟨s, fun j =>
    if s.slots j = w.state.slots j then w.bound j else p.claimEpoch w.state⟩

def run (w : Ledger) (packets : List Packet) : Step Ledger :=
  packets.foldlM step w

/-- No UPDATE packet binds a slot. -/
def Recorded : Ledger → List Packet → Prop
  | _, [] => True
  | w, p :: packets => p.BindsNothing w.state ∧
      ∀ w', w.step p = .ok w' → Recorded w' packets

/-- The record of the owner of a slot has at least the epoch of the claim under
which the slot is bound. -/
structure Sound (w : Ledger) : Prop where
  fresh : ∀ q, w.state.next ≤ q → w.state.heap q = none
  below : ∀ j o, w.state.slots j = some o → o < w.state.next
  bound_le : ∀ j o n, w.state.slots j = some o → w.state.heap o = some n →
    w.bound j ≤ n.configEpoch

variable {w w' w'' : Ledger} {p : Packet} {packets : List Packet}

/-- What a packet does to the state of the server. -/
theorem step_rebinds (hw : w.Sound) (p : Packet) :
    Returns Set.univ (w.state.step p.event) fun s' =>
      Aside w.state s' ∨ ∃ r < s'.next,
        Rebinds w.state r p.claimed (p.claimEpoch w.state) s' ∧
        ((∃ hdr cfg, p = .update hdr cfg ∧ Updates w.state cfg r s') ∨
          ∀ n', s'.heap r = some n' →
            p.claimEpoch w.state ≤ n'.configEpoch) := by
  cases p with
  | update hdr cfg =>
    refine (processUpdate_rebinds hw.fresh hw.below hdr cfg).imp
      fun s' h => h.imp_right fun ⟨r, hr⟩ => ?_
    refine ⟨r, ?_, hr.rebinds, .inl ⟨hdr, cfg, rfl, hr⟩⟩
    exact (lt_next_of_clusterLookupNode hw.fresh hr.node).trans_le
      hr.rebinds.aged.next
  | ping kind link hdr added =>
    refine (processPing_rebinds hw.fresh hw.below kind _ hdr added).imp
      fun s' h => h.imp_right fun ⟨r, hr, hrebinds, hepoch⟩ => ?_
    have hclaim : (Packet.ping kind link hdr added).claimEpoch w.state =
        senderConfigEpoch w.state (some r) hdr := by
      rw [Packet.claimEpoch, hr]
    rw [hclaim]
    refine ⟨r, ?_, hrebinds, .inr hepoch⟩
    exact (lt_next_of_clusterLookupNode hw.fresh hr).trans_le
      hrebinds.aged.next

theorem step_eq_ok (hstep : w.step p = .ok w') :
    w.state.step p.event = .ok w'.state ∧ ∀ j, w'.bound j =
      if w'.state.slots j = w.state.slots j then w.bound j
      else p.claimEpoch w.state := by
  rw [step] at hstep
  cases h : w.state.step p.event with
  | error f => simp [h, bind, Except.bind] at hstep
  | ok s' =>
    rw [h] at hstep
    obtain rfl := Except.ok.inj hstep
    exact ⟨rfl, fun _ => rfl⟩

theorem step_of_eq_ok {s' : State} (h : w.state.step p.event = .ok s') :
    w.step p = .ok ⟨s', fun j => if s'.slots j = w.state.slots j then w.bound j
      else p.claimEpoch w.state⟩ := by
  rw [step, h]
  rfl

theorem Sound.step (hw : w.Sound)
    (hupdate : p.BindsNothing w.state)
    (hstep : w.step p = .ok w') : w'.Sound := by
  obtain ⟨hstate, hbound⟩ := step_eq_ok hstep
  -- a slot that keeps its owner keeps its bound, whose record is not younger
  have hkeep : Aged w.state w'.state → ∀ j o n,
      w'.state.slots j = w.state.slots j → w'.state.slots j = some o →
        w'.state.heap o = some n → w'.bound j ≤ n.configEpoch := by
    intro haged j o n hsame ho hn
    have ho' := hsame ▸ ho
    obtain ⟨m, hm, hle⟩ := haged.nodes o n (hw.below j o ho') hn
    rw [hbound, if_pos hsame]
    exact (hw.bound_le j o m ho' hm).trans hle
  rcases (step_rebinds hw p).of_eq_ok hstate with ⟨haged, hslots⟩ |
      ⟨r, hr, hrebinds, hepoch⟩
  · refine ⟨haged.fresh, fun j o ho => ?_, fun j o n ho hn => ?_⟩
    · exact (hw.below j o (hslots ▸ ho)).trans_le haged.next
    · exact hkeep haged j o n (congrFun hslots j) ho hn
  have haged := hrebinds.aged
  refine ⟨haged.fresh, fun j o ho => ?_, fun j o n ho hn => ?_⟩
  · rcases hrebinds.slots j with h | h | ⟨h, -⟩
    · exact (hw.below j o (h ▸ ho)).trans_le haged.next
    · simp [ho] at h
    · obtain rfl : o = r := by simpa [ho] using h
      exact hr
  by_cases hsame : w'.state.slots j = w.state.slots j
  · exact hkeep haged j o n hsame ho hn
  rcases hrebinds.slots j with h | h | ⟨h, hy⟩
  · exact absurd h hsame
  · simp [ho] at h
  obtain rfl : o = r := by simpa [ho] using h
  rw [hbound, if_neg hsame]
  rcases hepoch with ⟨hdr, cfg, rfl, hnode, ⟨m, hm, hlt⟩, -⟩ | hepoch
  · have htakes := hy.takesSlot fun hold => hsame (ho.trans hold.symm)
    exact absurd htakes (hupdate o m hnode hm hlt j hy.1)
  · exact hepoch n hn

theorem Sound.run (hw : w.Sound) (hrecorded : w.Recorded packets)
    (hrun : w.run packets = .ok w') : w'.Sound := by
  induction packets generalizing w with
  | nil =>
    obtain rfl := Except.ok.inj hrun
    exact hw
  | cons p packets ih =>
    rw [Ledger.run, List.foldlM_cons] at hrun
    cases h : w.step p with
    | error f => simp [h, bind, Except.bind] at hrun
    | ok v =>
      rw [h] at hrun
      exact ih (hw.step hrecorded.1 h) (hrecorded.2 v h) hrun

/-- After packets none of which is an UPDATE that binds slots, a slot passes
from one owner to another only on a claim that is newer than the one under
which it is bound. -/
theorem slot_claims_never_go_back (hw : w.Sound)
    (hrecorded : w.Recorded packets) (hrun : w.run packets = .ok w')
    (hstep : w'.step p = .ok w'') {j : Slot} {o o' : Ref}
    (ho : w'.state.slots j = some o) (ho' : w''.state.slots j = some o')
    (hne : o ≠ o') : w'.bound j < p.claimEpoch w'.state := by
  have hw' := hw.run hrecorded hrun
  obtain ⟨hstate, -⟩ := step_eq_ok hstep
  rcases (step_rebinds hw' p).of_eq_ok hstate with ⟨-, hslots⟩ |
      ⟨r, -, hrebinds, -⟩
  · exact absurd (by simpa [hslots, ho] using ho') hne
  rcases hrebinds.slots j with h | h | ⟨-, hyields⟩
  · exact absurd (by simpa [h, ho] using ho') hne
  · simp [ho'] at h
  · obtain ⟨n, hn, hlt⟩ := hyields.2 o ho
    exact (hw'.bound_le j o n ho hn).trans_lt hlt

/-! ### An UPDATE that is undone -/

section Example

def exampleNode (name : String) (epoch : ℕ) (slots : Finset Slot) : Node where
  name := ascii name
  ip := []
  port := 0
  flags := ⟨false, true, false, false, false, false, false⟩
  configEpoch := epoch
  slots := slots
  numslots := slots.card
  slaveof := none

/-- The server is `a`; slot 5 is bound to `b`. -/
def threeMasters : State where
  heap r := [exampleNode "a" 0 ∅, exampleNode "b" 1 {5}, exampleNode "c" 0 ∅][r]?
  next := 3
  known := [0, 1, 2]
  myself := 0
  currentEpoch := 1
  slots j := if j = 5 then some 1 else none
  migratingSlotsTo _ := none
  importingSlotsFrom _ := none

theorem threeMasters_wellFormed : WellFormed threeMasters := by
  have hheap : ∀ r n, threeMasters.heap r = some n →
      n.numslots = n.slots.card ∧ n.slaveof = none ∧
        (r = 1 ∧ n.slots = {5} ∨ r ≠ 1 ∧ n.slots = ∅) := by
    intro r n hn
    have hmem : r = 0 ∧ n = exampleNode "a" 0 ∅ ∨
        r = 1 ∧ n = exampleNode "b" 1 {5} ∨ r = 2 ∧ n = exampleNode "c" 0 ∅ := by
      match r, hn with
      | 0, hn => exact .inl ⟨rfl, (some_inj.mp hn).symm⟩
      | 1, hn => exact .inr (.inl ⟨rfl, (some_inj.mp hn).symm⟩)
      | 2, hn => exact .inr (.inr ⟨rfl, (some_inj.mp hn).symm⟩)
    rcases hmem with ⟨rfl, rfl⟩ | ⟨rfl, rfl⟩ | ⟨rfl, rfl⟩ <;>
      simp [exampleNode]
  refine ⟨⟨fun j r => ?_, fun r n hn => (hheap r n hn).1⟩,
    ⟨rfl, fun r n m hn hm => ?_, by decide, fun r hr => ?_⟩⟩
  · constructor
    · intro h
      simp only [threeMasters] at h
      split at h
      next hj =>
        obtain rfl := some_inj.mp h
        exact ⟨_, rfl, by simp [hj, exampleNode]⟩
      next => simp at h
    · rintro ⟨n, hn, hj⟩
      rcases (hheap r n hn).2.2 with ⟨rfl, hslots⟩ | ⟨-, hslots⟩
      · rw [hslots, Finset.mem_singleton] at hj
        simp [threeMasters, hj]
      · simp [hslots] at hj
  · simp [(hheap r n hn).2.1] at hm
  · exact List.getElem?_eq_none hr

/-- A claim on one slot that a node other than the server owns. -/
theorem clusterUpdateSlotsConfigWith_single {m : Node} {o : Ref} {e : ℕ}
    (hs : WellFormed s) (hm : s.heap s.myself = some m)
    (hmaster : m.flags.master = true) (hr : (s.heap r).isSome = true)
    (ho : s.slots j = some o) (hn : s.heap o = some n)
    (hlt : n.configEpoch < e) (hor : o ≠ r) (hmyself : o ≠ s.myself) :
    Returns ∅ (clusterUpdateSlotsConfigWith s r e {j}) fun s' =>
      (WellFormed s' ∧ SlotsOnly s s') ∧ s'.slots j = some r := by
  refine deref_bind_returns (fun h => by simp [h] at hm) fun m' hm' => ?_
  obtain rfl : m = m' := by simpa [hm] using hm'
  simp only [hmaster, if_true]
  have hloop : Returns ∅
      (allSlots.foldlM (updateSlot r e {j} (some s.myself)) (s, false))
      fun acc => ((WellFormed acc.1 ∧ SlotsOnly s acc.1) ∧ acc.2 = false ∧
        (acc.1.slots j = some o ∨ acc.1.slots j = some r)) ∧
        ∀ k ∈ allSlots, k = j → acc.1.slots j = some r := by
    refine Returns.foldlM_forall ⟨⟨hs, .refl s⟩, rfl, .inl ho⟩ ?_
    rintro ⟨t, taken⟩ ⟨⟨ht, hst⟩, rfl, hslot⟩ k -
    change WellFormed t at ht
    change SlotsOnly s t at hst
    change t.slots j = some o ∨ t.slots j = some r at hslot
    by_cases hk : k = j
    · subst hk
      rw [updateSlot, if_pos (Finset.mem_singleton_self k)]
      rcases hslot with hslot | hslot
      · obtain ⟨n', hn', hbare⟩ := hst.symm.exists_node hn
        have hepoch : n'.bare.configEpoch = n.bare.configEpoch := by rw [hbare]
        have htakes : takesSlot t r e k = .ok true := by
          have hlt' : n'.configEpoch < e := hepoch.trans_lt hlt
          simp [takesSlot, hslot, hor, State.deref, hn', hlt', bind,
            Except.bind, pure, Except.pure]
        rw [htakes]
        have hrebind := (rebindSlot_wellFormed ht (r := r)
          (by rw [hst.isSome, hr]) k).and (rebindSlot_frame t r k)
        refine hrebind.bind fun u hu => .pure ?_
        have hur : u.slots k = some r := by simp [hu.2.2]
        exact ⟨⟨⟨hu.1.1, hst.trans hu.1.2⟩, by simp [hslot, hmyself],
          .inr hur⟩, fun _ => hur, fun _ _ _ => hur⟩
      · have htakes : takesSlot t r e k = .ok false := by
          simp [takesSlot, hslot, pure, Except.pure]
        rw [htakes]
        exact .pure ⟨⟨⟨ht, hst⟩, rfl, .inr hslot⟩, fun _ => hslot,
          fun _ hb => hb⟩
    · rw [updateSlot, if_neg (by simpa using hk)]
      exact .pure ⟨⟨⟨ht, hst⟩, rfl, hslot⟩, fun h => absurd h hk,
        fun _ hb => hb⟩
  refine hloop.bind ?_
  rintro ⟨t, taken⟩ ht
  obtain rfl : taken = false := ht.1.2.1
  exact .pure ⟨ht.1.1, ht.2 j (mem_allSlots j) rfl⟩

theorem clusterLookupNode_of_slotsOnly (h : SlotsOnly s s') (name : Bytes) :
    s'.clusterLookupNode name = s.clusterLookupNode name := by
  have hany : ∀ q, (s'.heap q).any (fun n => n.name == name.take 40) =
      (s.heap q).any fun n => n.name == name.take 40 := fun q => by
    have hq := congrArg (Option.any fun n => n.name == name.take 40)
      (h.nodes q)
    rw [any_map, any_map] at hq
    exact hq
  simp only [State.clusterLookupNode, h.known, hany]

/-- A PING over a link without node, from a master that claims other slots than
are known of it. -/
theorem processPing_master {hdr : Header}
    (hsender : s.clusterLookupNode hdr.sender = some r)
    (hn : s.heap r = some n) (hmaster : n.flags.master = true)
    (hshake : n.flags.handshake = false) (hslaveof : hdr.slaveof = none)
    (hslots : n.slots ≠ hdr.myslots) :
    processPing s .ping none hdr [] = seeEpochs s r hdr >>= fun t =>
      clusterUpdateSlotsConfigWith t r hdr.configEpoch hdr.myslots := by
  simp [processPing, hsender, seeSenderEpochs, seeEpochs, State.deref, hn,
    hshake, contactNodes, updateLinkNode, processSender, switchRole, hslaveof,
    clusterSetNodeAsMaster, hmaster, claimSlots, State.touch, hslots,
    senderConfigEpoch, State.store, bind, Except.bind, pure, Except.pure]

def exampleHeader : Header where
  sender := ascii "b"
  currentEpoch := 1
  configEpoch := 1
  myslots := {5}
  slaveof := none
  master := true
  slave := false

def exampleConfig : Nodecfg := ⟨ascii "c", 10, {5}⟩

theorem processUpdate_claims {t : State} {q : Ref} {hdr : Header}
    {cfg : Nodecfg} (hsender : s.clusterLookupNode hdr.sender = some q)
    (hsee : seeEpochs s q hdr = .ok t)
    (hnode : t.clusterLookupNode cfg.nodename = some r)
    (hn : t.heap r = some n) (hlt : n.configEpoch < cfg.configEpoch)
    (hslave : n.flags.slave = false) :
    processUpdate s hdr cfg =
      clusterUpdateSlotsConfigWith t r cfg.configEpoch cfg.slots := by
  simp [processUpdate, hsender, hsee, applyUpdate, hnode, State.deref, hn,
    hlt.not_ge, promoteSlave, hslave, bind, Except.bind, pure, Except.pure]

/-- The UPDATE gives slot 5 to `c`. -/
theorem exampleConfig_applied :
    ∃ t, processUpdate threeMasters exampleHeader exampleConfig = .ok t ∧
      (WellFormed t ∧ SlotsOnly threeMasters t) ∧ t.slots 5 = some 2 := by
  have hsee : seeEpochs threeMasters 1 exampleHeader = .ok (State.store
      { threeMasters with currentEpoch := max 1 1 } 1
      (exampleNode "b" (max 1 1) {5})) := rfl
  have hwf := ((seeEpochs_kept threeMasters_wellFormed rfl
    exampleHeader).of_eq_ok hsee).wellFormed
  obtain ⟨t, ht, hframe, hslot⟩ := (clusterUpdateSlotsConfigWith_single hwf
    (j := 5) (o := 1) (r := 2) (e := 10) rfl rfl rfl rfl rfl (by decide)
    (by decide) (by decide)).exists_ok
  have hupdate : processUpdate threeMasters exampleHeader exampleConfig = _ :=
    processUpdate_claims rfl hsee (r := 2) rfl rfl (by decide) rfl
  refine ⟨t, hupdate.trans ht, ⟨hframe.1, .trans ?_ hframe.2⟩, hslot⟩
  refine ⟨rfl, rfl, rfl, fun q => ?_⟩
  by_cases hq : q = 1
  · subst hq
    rfl
  · simp [State.store, hq]

/-- The PING of `b` takes slot 5 from `c`, which is still recorded under
epoch 0. -/
theorem exampleHeader_applied {t : State} (ht : WellFormed t)
    (hframe : SlotsOnly threeMasters t) (hslot : t.slots 5 = some 2) :
    ∃ u, processPing t .ping none exampleHeader [] = .ok u ∧
      u.slots 5 = some 1 := by
  obtain ⟨a, ha, habare⟩ := hframe.symm.exists_node (r := 0) rfl
  obtain ⟨b, hb, hbbare⟩ := hframe.symm.exists_node (r := 1) rfl
  obtain ⟨c, hc, hcbare⟩ := hframe.symm.exists_node (r := 2) rfl
  have hb' : b.slots ≠ {5} := fun h => by
    have howner := (ht.consistent.bound 5 1).mpr ⟨b, hb, by simp [h]⟩
    simp [hslot] at howner
  have hshake : b.bare.flags.handshake = false := by rw [hbbare]; rfl
  have hsee : seeEpochs t 1 exampleHeader = .ok (State.store
      { t with currentEpoch := max t.currentEpoch 1 } 1
      { b with configEpoch := max b.configEpoch 1 }) := by
    have hshake : b.flags.handshake = false := hshake
    simp [seeEpochs, State.deref, hb, hshake, exampleHeader, bind,
      Except.bind, pure, Except.pure]
  have hping := processPing_master
    ((clusterLookupNode_of_slotsOnly hframe exampleHeader.sender).trans rfl) hb
    (show b.bare.flags.master = true by rw [hbbare]; rfl) hshake rfl hb'
  have hwf := ((seeEpochs_kept ht (by rw [hb]; rfl)
    exampleHeader).of_eq_ok hsee).wellFormed
  have hmyself : t.myself = 0 := hframe.myself
  obtain ⟨u, hu, -, hslot'⟩ := (clusterUpdateSlotsConfigWith_single hwf
    (j := 5) (o := 2) (r := 1) (e := 1) (m := a) (n := c)
    (by simpa [State.store, hmyself] using ha)
    (show a.bare.flags.master = true by rw [habare]; rfl)
    (by simp [State.store]) hslot (by simpa [State.store] using hc)
    (show c.bare.configEpoch < 1 by rw [hcbare]; decide) (by decide)
    (by simp [State.store, hmyself])).exists_ok
  refine ⟨u, ?_, hslot'⟩
  rw [hping, hsee]
  exact hu

theorem threeMasters_sound : (Ledger.mk threeMasters fun _ => 1).Sound where
  fresh := threeMasters_wellFormed.linked.fresh
  below j o ho := by
    obtain ⟨n, hn, -⟩ := (threeMasters_wellFormed.consistent.bound j o).mp ho
    exact (List.getElem?_eq_some_iff.mp hn).1
  bound_le j o n ho hn := by
    simp only [threeMasters] at ho
    split at ho
    next =>
      obtain rfl := some_inj.mp ho
      obtain rfl := some_inj.mp hn
      exact le_rfl
    next => simp at ho

theorem store_self (h : s.heap r = some n) : s.store r n = s := by
  rw [State.store, Function.update_eq_self_iff.2 h.symm]

theorem step_of_quiet (hp : threeMasters.step p.event = .ok threeMasters) :
    (Ledger.mk threeMasters fun _ => 1).step p =
      .ok ⟨threeMasters, fun _ => 1⟩ :=
  (step_of_eq_ok (w := ⟨threeMasters, fun _ => 1⟩) hp).trans (by simp)

/-- A PING of `b` and an UPDATE about it that tell nothing new. -/
def quietPackets : List Packet :=
  [.ping .ping none exampleHeader [],
    .update exampleHeader ⟨ascii "b", 1, {5}⟩]

theorem quietPackets_quiet :
    ∀ p ∈ quietPackets, threeMasters.step p.event = .ok threeMasters := by
  have hsame : threeMasters.store 1 (exampleNode "b" 1 {5}) = threeMasters :=
    store_self rfl
  have hping : processPing threeMasters .ping none exampleHeader [] =
      .ok (threeMasters.store 1 (exampleNode "b" 1 {5})) := rfl
  have hupdate : processUpdate threeMasters exampleHeader
      ⟨ascii "b", 1, {5}⟩ =
        .ok (threeMasters.store 1 (exampleNode "b" 1 {5})) := rfl
  rw [hsame] at hping hupdate
  simpa [quietPackets] using ⟨hping, hupdate⟩

theorem slot_claims_never_go_back_update :
    ∃ w', (Ledger.mk threeMasters fun _ => 1).run quietPackets =
        .ok ⟨threeMasters, fun _ => 1⟩ ∧
      (Ledger.mk threeMasters fun _ => 1).step
        (.update exampleHeader exampleConfig) = .ok w' ∧
      w'.state.slots 5 = some 2 ∧ 1 < Packet.claimEpoch threeMasters
        (.update exampleHeader exampleConfig) := by
  obtain ⟨t, ht, -, hslot⟩ := exampleConfig_applied
  have hstep := step_of_eq_ok (w := ⟨threeMasters, fun _ => 1⟩)
    (p := .update exampleHeader exampleConfig) ht
  obtain ⟨hping, hupdate, -⟩ : _ ∧ _ ∧ _ := by
    simpa only [quietPackets, List.forall_mem_cons] using quietPackets_quiet
  have hrun : (Ledger.mk threeMasters fun _ => 1).run quietPackets =
      .ok ⟨threeMasters, fun _ => 1⟩ := by
    rw [Ledger.run, quietPackets, List.foldlM_cons, step_of_quiet hping]
    exact step_of_quiet hupdate
  have hrecorded : (Ledger.mk threeMasters fun _ => 1).Recorded
      quietPackets := by
    refine ⟨trivial, fun w hw => ⟨?_, fun _ _ => trivial⟩⟩
    rw [step_of_quiet hping] at hw
    obtain rfl := Except.ok.inj hw
    rintro r n hr hn hlt j -
    obtain rfl : 1 = r := some_inj.1 hr
    obtain rfl := some_inj.1 hn
    exact absurd hlt (by decide)
  exact ⟨_, hrun, hstep, hslot, slot_claims_never_go_back threeMasters_sound
    hrecorded hrun hstep rfl hslot (by decide)⟩

/-- Node `c` takes slot 5 under epoch 10, of which an UPDATE tells; the next
PING of `b` takes the slot back under epoch 1. -/
theorem update_undone_by_ping :
    ∃ w' w'' : Ledger,
      (Ledger.mk threeMasters fun _ => 1).run
        [.update exampleHeader exampleConfig] = .ok w' ∧
      w'.step (.ping .ping none exampleHeader []) = .ok w'' ∧
      w'.state.slots 5 = some 2 ∧ w''.state.slots 5 = some 1 ∧
      w'.bound 5 = 10 ∧
      Packet.claimEpoch w'.state (.ping .ping none exampleHeader []) = 1 := by
  obtain ⟨t, ht, ⟨hwf, hframe⟩, hslot⟩ := exampleConfig_applied
  obtain ⟨u, hu, hslot'⟩ := exampleHeader_applied hwf hframe hslot
  have hupdate := step_of_eq_ok (w := ⟨threeMasters, fun _ => 1⟩)
    (p := .update exampleHeader exampleConfig) ht
  have hping := step_of_eq_ok (p := .ping .ping none exampleHeader [])
    (w := ⟨t, fun j => if t.slots j = threeMasters.slots j then 1 else 10⟩) hu
  refine ⟨_, _, ?_, hping, hslot, hslot', ?_, ?_⟩
  · rw [Ledger.run, List.foldlM_cons, hupdate]
    rfl
  · show (if t.slots 5 = threeMasters.slots 5 then 1 else 10) = 10
    rw [hslot]
    rfl
  obtain ⟨b, hb, hbare⟩ := hframe.symm.exists_node (r := 1) rfl
  have hshake : b.bare.flags.handshake = false := by rw [hbare]; rfl
  have hshake : b.flags.handshake = false := hshake
  have hsender : t.clusterLookupNode exampleHeader.sender = some 1 :=
    (clusterLookupNode_of_slotsOnly hframe _).trans rfl
  rw [Packet.claimEpoch, hsender]
  simp [senderConfigEpoch, hb, hshake, exampleHeader]

end Example

end Ledger

end Runs

end RedisV8.Cluster
