import RedisV8.Cluster.Election

/-!
# At most one replica is elected in an epoch

A master votes once in an epoch, and an acknowledgement carries the epoch of the
vote, so the acknowledgements that are counted for an election come from
distinct masters.  That needs the count to start at zero: it is reset when an
election is scheduled, not when it starts, and an acknowledgement of the
election before that arrives in between is counted for the new one.
-/

namespace RedisV8.Cluster.Election

open List Function Packet

variable {cfg : Config} {w : World} {e myself : ℕ} {n : Node}

/-- The masters that voted for the replica in the epoch of its promotion. -/
def supporters (cfg : Config) (w : World) (p : Promotion) : Finset ℕ :=
  cfg.voters.filter fun v => ⟨v, p.replica, p.epoch⟩ ∈ w.votes

/-- More than half of the masters that serve slots voted for it. -/
def Elected (cfg : Config) (w : World) (p : Promotion) : Prop :=
  cfg.voters.card / 2 + 1 ≤ (supporters cfg w p).card

/-- An acknowledgement that will be counted finds the replica waiting for
votes, and a replica that looks after a failover has an epoch left. -/
def Event.timely (w : World) : Event → Prop
  | .failover myself _ _ _ _ => (w.nodes myself).currentEpoch + 1 < 2 ^ 64
  | .deliver (.authAck sender receiver currentEpoch) _ =>
    .authAck sender receiver currentEpoch ∈ w.wire →
      (w.nodes receiver).failoverAuthEpoch ≤ currentEpoch →
        (w.nodes receiver).failoverAuthSent = true
  | _ => True

def Timely (cfg : Config) : World → List Event → Prop
  | _, [] => True
  | w, e :: events => e.timely w ∧ Timely cfg (w.step cfg e) events

/-- The acknowledgements counted so far come from distinct masters that voted
in the epoch of the election. -/
def Counted (w : World) (id : ℕ) : Prop :=
  ∃ counted : Finset ℕ,
    counted.card = (w.nodes id).failoverAuthCount ∧
    ((w.nodes id).failoverAuthSent = false → counted = ∅) ∧
    ∀ v ∈ counted, ⟨v, id, (w.nodes id).failoverAuthEpoch⟩ ∈ w.votes ∧
      authAck v id (w.nodes id).failoverAuthEpoch ∉ w.wire

/-- What holds of the votes and of the packets on their way. -/
structure Ballots (cfg : Config) (w : World) : Prop where
  unique : ∀ x ∈ w.votes, ∀ y ∈ w.votes,
    x.voter = y.voter → x.epoch = y.epoch → x = y
  voter : ∀ x ∈ w.votes, x.voter ∈ cfg.voters
  lastVote : ∀ x ∈ w.votes, x.epoch ≤ (w.nodes x.voter).lastVoteEpoch
  candidate : ∀ x ∈ w.votes, x.epoch ≤ (w.nodes x.candidate).failoverAuthEpoch
  lastVote_le : ∀ id, (w.nodes id).lastVoteEpoch ≤ (w.nodes id).currentEpoch
  auth_le : ∀ id, (w.nodes id).failoverAuthEpoch ≤ (w.nodes id).currentEpoch
  request : ∀ s r e c m, authRequest s r e c m ∈ w.wire →
    e ≤ (w.nodes s).failoverAuthEpoch
  ack : ∀ v r e, authAck v r e ∈ w.wire → ⟨v, r, e⟩ ∈ w.votes
  acks : ∀ v r e, w.wire.count (.authAck v r e) ≤ 1

structure Safe (cfg : Config) (w : World) : Prop where
  ballots : Ballots cfg w
  counted : ∀ id, Counted w id
  elected : ∀ p ∈ w.promotions, Elected cfg w p

theorem Initial.safe (hinit : Initial w) : Safe cfg w where
  ballots :=
    { unique := by simp [hinit.votes]
      voter := by simp [hinit.votes]
      lastVote := by simp [hinit.votes]
      candidate := by simp [hinit.votes]
      lastVote_le := by simp [hinit.lastVoteEpoch]
      auth_le := by simp [hinit.failoverAuthEpoch]
      request := by simp [hinit.wire]
      ack := by simp [hinit.wire]
      acks := by simp [hinit.wire] }
  counted id := ⟨∅, (hinit.failoverAuthCount id).symm, fun _ => rfl, by simp⟩
  elected := by simp [hinit.promotions]

theorem Elected.mono {w' : World} {p : Promotion} (helected : Elected cfg w p)
    (hvotes : ∀ x ∈ w.votes, x ∈ w'.votes) : Elected cfg w' p := by
  refine le_trans helected (Finset.card_le_card fun v hv => ?_)
  rw [supporters, Finset.mem_filter] at hv ⊢
  exact ⟨hv.1, hvotes _ hv.2⟩

/-- A tally stands as long as nothing happens to its election. -/
theorem Counted.mono {w' : World} {id : ℕ} (hcounted : Counted w id)
    (hcount : (w'.nodes id).failoverAuthCount = (w.nodes id).failoverAuthCount)
    (hsent : (w'.nodes id).failoverAuthSent = (w.nodes id).failoverAuthSent)
    (hepoch : (w'.nodes id).failoverAuthEpoch = (w.nodes id).failoverAuthEpoch)
    (hvotes : ∀ x ∈ w.votes, x ∈ w'.votes)
    (hwire : ∀ v e, ⟨v, id, e⟩ ∈ w.votes →
      authAck v id e ∈ w'.wire → authAck v id e ∈ w.wire) :
    Counted w' id := by
  obtain ⟨counted, hcard, hzero, hmem⟩ := hcounted
  refine ⟨counted, hcard.trans hcount.symm, fun h => hzero (hsent ▸ h),
    fun v hv => ?_⟩
  obtain ⟨hvote, hgone⟩ := hmem v hv
  rw [hepoch]
  exact ⟨hvotes _ hvote, fun hp => hgone (hwire v _ hvote hp)⟩

/-! ## Ballots -/

namespace Ballots

/-- Epochs only grow. -/
structure Grown (n n' : Node) : Prop where
  lastVoteEpoch : n.lastVoteEpoch ≤ n'.lastVoteEpoch
  failoverAuthEpoch : n.failoverAuthEpoch ≤ n'.failoverAuthEpoch
  lastVote_le : n'.lastVoteEpoch ≤ n'.currentEpoch
  auth_le : n'.failoverAuthEpoch ≤ n'.currentEpoch

theorem grow (h : Ballots cfg w) (hn : Grown (w.nodes myself) n) :
    Ballots cfg { w with nodes := update w.nodes myself n } := by
  have hall : ∀ id, Grown (w.nodes id) (update w.nodes myself n id) :=
    fun id => by
      by_cases hid : id = myself
      · rw [hid, update_self]
        exact hn
      · rw [update_of_ne hid]
        exact ⟨le_rfl, le_rfl, h.lastVote_le id, h.auth_le id⟩
  exact
    { unique := h.unique
      voter := h.voter
      lastVote := fun x hx => (h.lastVote x hx).trans (hall _).lastVoteEpoch
      candidate := fun x hx =>
        (h.candidate x hx).trans (hall _).failoverAuthEpoch
      lastVote_le := fun id => (hall id).lastVote_le
      auth_le := fun id => (hall id).auth_le
      request := fun s r e c m hp =>
        (h.request s r e c m hp).trans (hall s).failoverAuthEpoch
      ack := h.ack
      acks := h.acks }

/-- Packets leave the wire. -/
theorem drop (h : Ballots cfg w) {wire : List Packet}
    (hwire : wire.Sublist w.wire) : Ballots cfg { w with wire := wire } where
  unique := h.unique
  voter := h.voter
  lastVote := h.lastVote
  candidate := h.candidate
  lastVote_le := h.lastVote_le
  auth_le := h.auth_le
  request s r e c m hp := h.request s r e c m (hwire.subset hp)
  ack v r e hp := h.ack v r e (hwire.subset hp)
  acks v r e := (hwire.count_le _).trans (h.acks v r e)

/-- Packets are sent that do not acknowledge anything. -/
theorem send (h : Ballots cfg w) {sent : List Packet}
    (hack : ∀ v r e, authAck v r e ∉ sent)
    (hrequest : ∀ s r e c m, authRequest s r e c m ∈ sent →
      e ≤ (w.nodes s).failoverAuthEpoch) :
    Ballots cfg { w with wire := sent ++ w.wire } where
  unique := h.unique
  voter := h.voter
  lastVote := h.lastVote
  candidate := h.candidate
  lastVote_le := h.lastVote_le
  auth_le := h.auth_le
  request s r e c m hp := by
    cases mem_append.1 hp with
    | inl hsent => exact hrequest s r e c m hsent
    | inr hwire => exact h.request s r e c m hwire
  ack v r e hp := by
    cases mem_append.1 hp with
    | inl hsent => exact absurd hsent (hack v r e)
    | inr hwire => exact h.ack v r e hwire
  acks v r e := by
    rw [count_append, count_eq_zero_of_not_mem (hack v r e), Nat.zero_add]
    exact h.acks v r e

/-- A vote in an epoch in which the voter has not voted, with its
acknowledgement. -/
theorem vote (h : Ballots cfg w) {v r : ℕ} (hvoter : v ∈ cfg.voters)
    (hlast : e ≤ (w.nodes v).lastVoteEpoch)
    (hcandidate : e ≤ (w.nodes r).failoverAuthEpoch)
    (hnew : ∀ x ∈ w.votes, x.voter = v → x.epoch ≠ e) :
    Ballots cfg { w with
      wire := .authAck v r e :: w.wire
      votes := ⟨v, r, e⟩ :: w.votes } where
  unique x hx y hy hv he := by
    cases mem_cons.1 hx with
    | inl hx =>
      subst hx
      cases mem_cons.1 hy with
      | inl hy => exact hy.symm
      | inr hy => exact absurd he.symm (hnew y hy hv.symm)
    | inr hx =>
      cases mem_cons.1 hy with
      | inl hy =>
        subst hy
        exact absurd he (hnew x hx hv)
      | inr hy => exact h.unique x hx y hy hv he
  voter := forall_mem_cons.2 ⟨hvoter, h.voter⟩
  lastVote := forall_mem_cons.2 ⟨hlast, h.lastVote⟩
  candidate := forall_mem_cons.2 ⟨hcandidate, h.candidate⟩
  lastVote_le := h.lastVote_le
  auth_le := h.auth_le
  request s r' e' c m hp := by
    cases mem_cons.1 hp with
    | inl hp => cases hp
    | inr hp => exact h.request s r' e' c m hp
  ack v' r' e' hp := by
    cases mem_cons.1 hp with
    | inl hp =>
      cases hp
      exact mem_cons_self
    | inr hp => exact mem_cons_of_mem _ (h.ack v' r' e' hp)
  acks v' r' e' := by
    rw [count_cons]
    split_ifs with heq
    · have hsame : authAck v r e = .authAck v' r' e' := by
        simpa using heq
      cases hsame
      have hnone : authAck v r e ∉ w.wire :=
        fun hp => hnew _ (h.ack v r e hp) rfl rfl
      rw [count_eq_zero_of_not_mem hnone]
    · exact h.acks v' r' e'

end Ballots

/-! ## Steps -/

namespace Safe

/-- A step that only changes the role or the current epoch of a node. -/
theorem grow (h : Safe cfg w) (hn : Ballots.Grown (w.nodes myself) n)
    (hcount : n.failoverAuthCount = (w.nodes myself).failoverAuthCount)
    (hsent : n.failoverAuthSent = (w.nodes myself).failoverAuthSent)
    (hepoch : n.failoverAuthEpoch = (w.nodes myself).failoverAuthEpoch) :
    Safe cfg { w with nodes := update w.nodes myself n } where
  ballots := h.ballots.grow hn
  counted id := by
    have hkeep := h.counted id
    by_cases hid : id = myself
    · subst hid
      apply hkeep.mono <;> simp_all
    · apply hkeep.mono <;> simp [hid]
  elected := h.elected

theorem drop (h : Safe cfg w) {wire : List Packet}
    (hwire : wire.Sublist w.wire) : Safe cfg { w with wire := wire } where
  ballots := h.ballots.drop hwire
  counted id := (h.counted id).mono rfl rfl rfl (fun _ hx => hx)
    fun _ _ _ hp => hwire.subset hp
  elected := h.elected

theorem ping (h : Safe cfg w) (sender receiver epoch : ℕ) :
    Safe cfg { w with wire := .other sender receiver epoch :: w.wire } where
  ballots := by
    have hsent : Ballots cfg { w with
        wire := [.other sender receiver epoch] ++ w.wire } :=
      h.ballots.send (by simp) (by simp)
    exact hsent
  counted id := (h.counted id).mono rfl rfl rfl (fun _ hx => hx)
    fun v e _ hp => by simpa using hp
  elected := h.elected

theorem sees (h : Safe cfg w) (myself epoch : ℕ) :
    Safe cfg { w with
      nodes := update w.nodes myself
        ((w.nodes myself).sees epoch) } := by
  have hlast := h.ballots.lastVote_le myself
  have hauth := h.ballots.auth_le myself
  apply h.grow
  · exact ⟨le_rfl, le_rfl, le_max_of_le_left hlast, le_max_of_le_left hauth⟩
  · rfl
  · rfl
  · rfl

theorem grants_epoch {c : ℕ} {view : View} {slots : List ℕ}
    (hgrants : grants cfg myself n view e c slots = true) :
    myself ∈ cfg.voters ∧ n.currentEpoch ≤ e ∧
      n.lastVoteEpoch ≠ n.currentEpoch := by
  simp only [grants, Bool.and_eq_true, decide_eq_true_eq, Bool.not_eq_true',
    decide_eq_false_iff_not, not_lt, beq_eq_false_iff_ne] at hgrants
  obtain ⟨⟨⟨⟨⟨⟨hvoter, hepoch⟩, hlast⟩, _⟩, _⟩, _⟩, _⟩ := hgrants
  exact ⟨hvoter, hepoch, hlast⟩

/-- The answer to a request, which is not newer than the election it is
for. -/
theorem authIfNeeded (h : Safe cfg w) {node c : ℕ} (view : View)
    (slots : List ℕ) (hnode : e ≤ (w.nodes node).failoverAuthEpoch) :
    Safe cfg (clusterSendFailoverAuthIfNeeded cfg w myself node view e c
      slots) := by
  by_cases hgrants : grants cfg myself (w.nodes myself) view e c slots = true
  · obtain ⟨hvoter, hepoch, hlast⟩ := grants_epoch hgrants
    have hle := h.ballots.lastVote_le myself
    -- the voter has not voted in its current epoch
    have hnew : ∀ x ∈ w.votes, x.voter = myself →
        x.epoch ≠ (w.nodes myself).currentEpoch := fun x hx hv he => by
      have hx' := h.ballots.lastVote x hx
      rw [hv] at hx'
      omega
    have hvoted : Safe cfg { w with
        nodes := update w.nodes myself
          ((w.nodes myself).voted view.slaveof view.mstime) } := by
      have hauth := h.ballots.auth_le myself
      exact h.grow ⟨hle, le_rfl, le_rfl, hauth⟩ rfl rfl rfl
    have hauth : ((update w.nodes myself
        ((w.nodes myself).voted view.slaveof view.mstime)) node
          ).failoverAuthEpoch = (w.nodes node).failoverAuthEpoch := by
      by_cases hid : node = myself
      · simp [hid, Node.voted]
      · simp [hid]
    have hsent : Safe cfg { w with
        nodes := update w.nodes myself
          ((w.nodes myself).voted view.slaveof view.mstime)
        wire := .authAck myself node (w.nodes myself).currentEpoch :: w.wire
        votes := ⟨myself, node, (w.nodes myself).currentEpoch⟩ :: w.votes } :=
      { ballots := by
          apply hvoted.ballots.vote hvoter
          · simp [Node.voted]
          · rw [hauth]
            exact hepoch.trans hnode
          · exact hnew
        counted := fun id => by
          refine (hvoted.counted id).mono rfl rfl rfl
            (fun x hx => mem_cons_of_mem _ hx) fun v e' hvote hp => ?_
          cases mem_cons.1 hp with
          | inl hp =>
            rw [authAck.injEq] at hp
            exact absurd hp.2.2 (hnew _ hvote hp.1)
          | inr hp => exact hp
        elected := fun p hp =>
          (hvoted.elected p hp).mono fun x hx => mem_cons_of_mem _ hx }
    rw [clusterSendFailoverAuthIfNeeded]
    simp only [hgrants, if_true]
    cases view.linked with
    | true => exact hsent
    | false =>
      exact hsent.drop (sublist_cons_self
        (authAck myself node (w.nodes myself).currentEpoch) w.wire)
  · rw [clusterSendFailoverAuthIfNeeded]
    simp only [hgrants]
    exact h

/-- An acknowledgement that is counted is one for the running election. -/
theorem acknowledge (h : Safe cfg w) {v r : ℕ}
    (hwire : authAck v r e ∈ w.wire)
    (htimely : (w.nodes r).failoverAuthEpoch ≤ e →
      (w.nodes r).failoverAuthSent = true) :
    Safe cfg { w with
      wire := w.wire.erase (.authAck v r e)
      nodes := update w.nodes r
        ((w.nodes r).acknowledged cfg v e) } := by
  have hdropped := h.drop (erase_sublist (a := authAck v r e))
  by_cases hcounts : v ∈ cfg.voters ∧ (w.nodes r).failoverAuthEpoch ≤ e
  · have hvote := h.ballots.ack v r e hwire
    obtain rfl : e = (w.nodes r).failoverAuthEpoch :=
      le_antisymm (h.ballots.candidate _ hvote) hcounts.2
    have hgone : authAck v r (w.nodes r).failoverAuthEpoch ∉
        w.wire.erase (.authAck v r (w.nodes r).failoverAuthEpoch) := by
      intro hp
      have hone := h.ballots.acks v r (w.nodes r).failoverAuthEpoch
      have hpos := count_pos_iff.2 hp
      rw [count_erase_self] at hpos
      omega
    rw [Node.acknowledged, if_pos hcounts]
    refine ⟨hdropped.ballots.grow ⟨le_rfl, le_rfl,
      h.ballots.lastVote_le r, h.ballots.auth_le r⟩, fun id => ?_, h.elected⟩
    by_cases hid : id = r
    · subst hid
      obtain ⟨counted, hcard, _, hmem⟩ := h.counted id
      -- what has been counted is not on its way any more
      have hfresh : v ∉ counted := fun hv => (hmem v hv).2 hwire
      refine ⟨insert v counted, ?_, fun hfalse => ?_, fun v' hv' => ?_⟩
      · simp [Finset.card_insert_of_notMem hfresh, hcard]
      · simp [htimely hcounts.2] at hfalse
      simp only [update_self]
      cases Finset.mem_insert.1 hv' with
      | inl heq =>
        subst heq
        exact ⟨hvote, hgone⟩
      | inr hold =>
        exact ⟨(hmem v' hold).1,
          fun hp => (hmem v' hold).2 (mem_of_mem_erase hp)⟩
    · apply (hdropped.counted id).mono <;> simp [hid]
  · rw [Node.acknowledged, if_neg hcounts, update_eq_self]
    exact hdropped

/-- A packet is taken off the wire and processed. -/
theorem processPacket (h : Safe cfg w) {p : Packet} (view : View)
    (hwire : p ∈ w.wire) (htimely : (Event.deliver p view).timely w) :
    Safe cfg (clusterProcessPacket cfg { w with wire := w.wire.erase p } view
      p) := by
  have hsees := h.sees p.receiver p.currentEpoch
  have hdropped := hsees.drop (erase_sublist (a := p))
  cases p with
  | authRequest sender receiver currentEpoch configEpoch myslots =>
    apply hdropped.authIfNeeded
    exact hsees.ballots.request _ _ _ _ _ hwire
  | authAck sender receiver currentEpoch =>
    have hack := hsees.acknowledge hwire
    simp only [Packet.receiver, Packet.currentEpoch, update_self,
      update_idem] at hack
    simp only [clusterProcessPacket, Packet.receiver, Packet.currentEpoch,
      update_idem]
    exact hack fun hle => htimely hwire hle
  | other sender receiver currentEpoch => exact hdropped

/-! ## Replicas -/

theorem decision_request {i : Situation}
    (hdecision : decision cfg n i = .request) : n.failoverAuthSent = false := by
  unfold decision at hdecision
  simp only at hdecision
  split_ifs at hdecision <;> assumption

theorem decision_promote {i : Situation}
    (hdecision : decision cfg n i = .promote) :
    cfg.voters.card / 2 + 1 ≤ n.failoverAuthCount := by
  unfold decision at hdecision
  simp only at hdecision
  split_ifs at hdecision <;> assumption

theorem schedule (h : Safe cfg w) (myself : ℕ) (time : ℤ) :
    Safe cfg { w with
      nodes := update w.nodes myself
        ((w.nodes myself).scheduled time) } where
  ballots := h.ballots.grow ⟨le_rfl, le_rfl, h.ballots.lastVote_le myself,
    h.ballots.auth_le myself⟩
  counted id := by
    by_cases hid : id = myself
    · exact ⟨∅, by simp [hid, Node.scheduled], fun _ => rfl, by simp⟩
    · apply (h.counted id).mono <;> simp [hid]
  elected := h.elected

/-- The new epoch is beyond all votes there are. -/
theorem request (h : Safe cfg w) (peers : List ℕ) (configEpoch : ℕ)
    (myslots : List ℕ) (hsent : (w.nodes myself).failoverAuthSent = false)
    (hroom : (w.nodes myself).currentEpoch + 1 < 2 ^ 64) :
    Safe cfg { w with
      nodes := update w.nodes myself (w.nodes myself).requested
      wire := peers.map (fun peer => .authRequest myself peer
        (w.nodes myself).requested.currentEpoch configEpoch myslots) ++
          w.wire } where
  ballots := by
    have hepoch : (w.nodes myself).currentEpoch ≤
        ((w.nodes myself).currentEpoch + 1) % 2 ^ 64 := by
      rw [Nat.mod_eq_of_lt hroom]
      exact Nat.le_succ _
    have hlast := (h.ballots.lastVote_le myself).trans hepoch
    have hauth := (h.ballots.auth_le myself).trans hepoch
    have hgrown : Ballots cfg { w with
        nodes := update w.nodes myself
          (w.nodes myself).requested } :=
      h.ballots.grow ⟨le_rfl, hauth, hlast, le_rfl⟩
    refine hgrown.send ?_ fun s r e c m hp => ?_
    · simp
    · obtain ⟨peer, _, heq⟩ := mem_map.1 hp
      cases heq
      simp [Node.requested]
  counted id := by
    by_cases hid : id = myself
    · subst hid
      obtain ⟨counted, hcard, hzero, _⟩ := h.counted id
      have hnone : (w.nodes id).failoverAuthCount = 0 := by
        rw [← hcard, hzero hsent, Finset.card_empty]
      exact ⟨∅, by simp [Node.requested, hnone], fun _ => rfl, by simp⟩
    · apply (h.counted id).mono <;> simp [hid]
  elected := h.elected

theorem promote (h : Safe cfg w)
    (hquorum : cfg.voters.card / 2 + 1 ≤ (w.nodes myself).failoverAuthCount) :
    Elected cfg w ⟨myself, (w.nodes myself).failoverAuthEpoch⟩ := by
  obtain ⟨counted, hcard, _, hmem⟩ := h.counted myself
  rw [← hcard] at hquorum
  refine le_trans hquorum (Finset.card_le_card fun v hv => ?_)
  have hvote := (hmem v hv).1
  rw [supporters, Finset.mem_filter]
  exact ⟨h.ballots.voter _ hvote, hvote⟩

theorem demote (h : Safe cfg w) (myself : ℕ) (slave : Bool) :
    Safe cfg { w with
      nodes := update w.nodes myself
        (let n := w.nodes myself; { n with slave := slave }) } :=
  h.grow ⟨le_rfl, le_rfl, h.ballots.lastVote_le myself,
    h.ballots.auth_le myself⟩ rfl rfl rfl

theorem slaveFailover (h : Safe cfg w) (i : Situation) (peers : List ℕ)
    (configEpoch : ℕ) (myslots : List ℕ)
    (hroom : (w.nodes myself).currentEpoch + 1 < 2 ^ 64) :
    Safe cfg (clusterHandleSlaveFailover cfg w myself i peers configEpoch
      myslots) := by
  rw [clusterHandleSlaveFailover]
  cases hdecision : decision cfg (w.nodes myself) i with
  | wait => exact h
  | schedule time => exact h.schedule myself time
  | request =>
    exact h.request peers configEpoch myslots (decision_request hdecision)
      hroom
  | promote =>
    have helected := h.promote (decision_promote hdecision)
    have hrole := h.demote myself false
    exact ⟨⟨hrole.ballots.unique, hrole.ballots.voter,
      hrole.ballots.lastVote, hrole.ballots.candidate,
      hrole.ballots.lastVote_le, hrole.ballots.auth_le,
      hrole.ballots.request, hrole.ballots.ack, hrole.ballots.acks⟩,
      hrole.counted, forall_mem_cons.2 ⟨helected, hrole.elected⟩⟩

theorem step (h : Safe cfg w) {e : Event} (htimely : e.timely w) :
    Safe cfg (w.step cfg e) := by
  cases e with
  | failover myself i peers configEpoch myslots =>
    exact h.slaveFailover i peers configEpoch myslots htimely
  | deliver p view =>
    rw [World.step]
    split_ifs with hwire
    · exact h.processPacket view hwire htimely
    · exact h
  | lose p => exact h.drop erase_sublist
  | ping sender receiver => exact h.ping _ _ _
  | demote myself => exact h.demote myself true

theorem run (h : Safe cfg w) {events : List Event}
    (htimely : Timely cfg w events) : Safe cfg (w.run cfg events) := by
  induction events generalizing w with
  | nil => exact h
  | cons e events ih => exact ih (h.step htimely.1) htimely.2

/-- Two majorities have a master in common, which voted once. -/
theorem unique_promotion (h : Safe cfg w) {p q : Promotion}
    (hp : p ∈ w.promotions) (hq : q ∈ w.promotions)
    (hepoch : p.epoch = q.epoch) : p = q := by
  have hvoters : ∀ x : Promotion, supporters cfg w x ⊆ cfg.voters :=
    fun x => Finset.filter_subset _ _
  have hmajority : cfg.voters.card <
      (supporters cfg w p).card + (supporters cfg w q).card := by
    have hpe : cfg.voters.card / 2 + 1 ≤ _ := h.elected p hp
    have hqe : cfg.voters.card / 2 + 1 ≤ _ := h.elected q hq
    omega
  obtain ⟨v, hv⟩ := Finset.inter_nonempty_of_card_lt_card_add_card
    (hvoters p) (hvoters q) hmajority
  rw [Finset.mem_inter, supporters, supporters, Finset.mem_filter,
    Finset.mem_filter] at hv
  have hsame := h.ballots.unique _ hv.1.2 _ hv.2.2 rfl hepoch
  cases p
  cases q
  rw [Vote.mk.injEq] at hsame
  simp_all

end Safe

/-- In a run in which no acknowledgement of an earlier election reaches a
replica between the scheduling and the start of the next one and no epoch wraps
around, a promotion rests on the votes of a majority in its epoch, and no epoch
has two. -/
theorem failover_elections_safe {events : List Event} (hinit : Initial w)
    (htimely : Timely cfg w events) :
    (∀ p ∈ (w.run cfg events).promotions, Elected cfg (w.run cfg events) p) ∧
    ∀ p ∈ (w.run cfg events).promotions,
      ∀ q ∈ (w.run cfg events).promotions, p.epoch = q.epoch → p = q := by
  have hsafe : Safe cfg (w.run cfg events) := hinit.safe.run htimely
  exact ⟨hsafe.elected, fun p hp q hq => hsafe.unique_promotion hp hq⟩

section Examples

/-- Masters `1`, `2` and `3`, and replicas of `3` from `10` on. -/
def threeMasters : Config := ⟨{1, 2, 3}, 1000⟩

def started : World where
  nodes id := ⟨decide (10 ≤ id), 0, 0, fun _ => 0, 0, 0, false, 0⟩
  wire := []
  votes := []
  promotions := []

/-- A replica of `3`, which has failed, as the others see it. -/
def seenAt (mstime : ℤ) : View :=
  ⟨true, some 3, true, true, fun _ => none, mstime⟩

/-- The replica looks after the failover, with links to two masters. -/
def failoverAt (replica : ℕ) (mstime : ℤ) : Event :=
  .failover replica ⟨mstime, 0, true, true, 0⟩ [1, 2] 0 []

/-- The request of a replica reaches a master. -/
def asked (replica master epoch : ℕ) (mstime : ℤ) : Event :=
  .deliver (.authRequest replica master epoch 0 []) (seenAt mstime)

/-- The vote of a master reaches a replica. -/
def answered (master replica epoch : ℕ) (mstime : ℤ) : Event :=
  .deliver (.authAck master replica epoch) (seenAt mstime)

theorem started_initial : Initial started :=
  ⟨rfl, rfl, rfl, fun _ => rfl, fun _ => rfl, fun _ => rfl⟩

/-- One replica is elected by two of the three masters. -/
def wonElection : List Event :=
  [failoverAt 10 5000, failoverAt 10 5500, asked 10 1 1 5600,
    asked 10 2 1 5600, answered 1 10 1 5700, answered 2 10 1 5700,
    failoverAt 10 5800]

theorem failover_elections_safe_won :
    (started.run threeMasters wonElection).promotions = [⟨10, 1⟩] ∧
      Elected threeMasters (started.run threeMasters wonElection) ⟨10, 1⟩ := by
  have htimely : Timely threeMasters started wonElection := by
    refine ⟨?_, ?_, trivial, trivial, fun _ _ => ?_, fun _ _ => ?_, ?_,
      trivial⟩
    · show (World.nodes _ 10).currentEpoch + 1 < 2 ^ 64
      decide
    · show (World.nodes _ 10).currentEpoch + 1 < 2 ^ 64
      decide
    · decide
    · decide
    · show (World.nodes _ 10).currentEpoch + 1 < 2 ^ 64
      decide
  have hwon : (started.run threeMasters wonElection).promotions =
      [⟨10, 1⟩] := by decide
  refine ⟨hwon, (failover_elections_safe started_initial htimely).1 _ ?_⟩
  rw [hwon]
  exact mem_singleton_self _

/-- Each replica is voted for by one master in epoch `1`.  The votes arrive
after the next election was scheduled and count for epoch `2`, where the same
master votes once more. -/
def splitElection : List Event :=
  [failoverAt 10 5000, failoverAt 11 5000, failoverAt 10 5500,
    failoverAt 11 5500, asked 10 1 1 5600, asked 11 2 1 5600,
    failoverAt 10 10000, failoverAt 11 10000, answered 1 10 1 10100,
    answered 2 11 1 10100, failoverAt 10 10500, failoverAt 11 10500,
    asked 10 1 2 10600, asked 11 2 2 10600, answered 1 10 2 10700,
    answered 2 11 2 10700, failoverAt 10 10800, failoverAt 11 10800]

theorem late_votes_elect_two :
    Initial started ∧
      (started.run threeMasters splitElection).promotions =
        [⟨11, 2⟩, ⟨10, 2⟩] ∧
      supporters threeMasters (started.run threeMasters splitElection)
        ⟨10, 2⟩ = {1} ∧
      supporters threeMasters (started.run threeMasters splitElection)
        ⟨11, 2⟩ = {2} :=
  ⟨started_initial, by decide, by decide, by decide⟩

end Examples

end RedisV8.Cluster.Election
