import RedisV8.Replication.InitialSync
import RedisV8.Replication.Replica

/-!
# Partial resynchronisation

The offset a replica has recorded is right when the bytes of the stream from
there on, after those it has received, make its data set that of the master.
The backlog gives it exactly these bytes, so an accepted request is harmless
whenever the recorded offset is right.  The offset announced by `+FULLRESYNC`
is the current one.  It is right for a save forked at that moment.  A replica
that joins a running save is also given what was queued since the fork, and
counts it once more; one that waits for the next save misses what is written
until then, and counts too little.
-/

namespace RedisV8.Replication

open Util Networking List Master

variable {dbnum : ℕ} {m m' : Master} {stream : Bytes} {start : ℤ}

/-! ## The master -/

section OfMaster

/-- `stream` is what was fed to the backlog since it was created, at offset
`start`. -/
structure MasterOk (m : Master) (stream : Bytes) (start : ℤ) : Prop where
  offset_nonneg : 0 ≤ m.masterReplOffset
  start_nonneg : 0 ≤ start
  nobody : m.backlog = none → m.slaves = []
  offset : m.backlog.isSome = true → m.masterReplOffset = start + stream.length
  holds : ∀ backlog, m.backlog = some backlog →
    backlog.Holds stream m.masterReplOffset
  ids_lt : ∀ slave ∈ m.slaves, slave.id < m.nextId
  nodup : (m.slaves.map Slave.id).Nodup
  fresh : ∀ slave ∈ m.slaves, slave.replstate = .waitBgsaveEnd →
    slave.reply = [] → ∀ file, m.rdbChild = some file → file = m.executed

/-- What an event other than a write does to the backlog and the offset. -/
inductive BacklogTurn (backlog : Option Backlog) (offset : ℤ) (m' : Master) :
    Prop
  | kept (hsame : m'.backlog = backlog) (hoffset : m'.masterReplOffset = offset)
      (hnobody : backlog = none → m'.slaves = [])
  | resized (hsome : backlog.isSome = true)
      (hoffset : m'.masterReplOffset = offset) (size : ℕ) (hsize : 0 < size)
      (hnew : m'.backlog = some (.alloc size hsize m'.masterReplOffset))
  | created (hnone : backlog = none)
      (hoffset : m'.masterReplOffset = offset + 1) (size : ℕ)
      (hsize : 0 < size)
      (hnew : m'.backlog = some (.alloc size hsize m'.masterReplOffset))
  | freed (hnone : m'.backlog = none)
      (hoffset : m'.masterReplOffset = offset) (hnobody : m'.slaves = [])

/-- What an event other than a write does to a replica: nothing, or the next
step of the synchronisation.  `child` is the running save before it, and
`child'` the one after it. -/
inductive SlaveTurn (executed : Snapshot) (child child' : Option Snapshot) :
    Slave → Slave → Prop
  | same {slave : Slave}
      (hchild : slave.replstate = .waitBgsaveEnd → child.isSome = true →
        child' = child) : SlaveTurn executed child child' slave slave
  | started {slave : Slave} (hstate : slave.replstate = .waitBgsaveStart)
      (hchild : child' = some executed) :
      SlaveTurn executed child child' slave
        { slave with replstate := .waitBgsaveEnd }
  | saved {slave : Slave} (hstate : slave.replstate = .waitBgsaveEnd) :
      SlaveTurn executed child child' slave
        { slave with replstate := .sendBulk, repldbfd := child }
  | sent {slave : Slave} (hstate : slave.replstate = .sendBulk) :
      SlaveTurn executed child child' slave { slave with replstate := .online }

/-- `slave` comes from a replica that was there before. -/
def ComesFrom (m m' : Master) (slave : Slave) : Prop :=
  ∃ before ∈ m.slaves, before.id = slave.id ∧
    SlaveTurn m.executed m.rdbChild m'.rdbChild before slave

/-- An event that executes nothing. -/
structure Quiet (m m' : Master) : Prop where
  executed : m'.executed = m.executed
  slaveseldb : m'.slaveseldb = m.slaveseldb ∨ m'.slaveseldb = none
  backlog : BacklogTurn m.backlog m.masterReplOffset m'
  ids : (m'.slaves.map Slave.id).Sublist (m.slaves.map Slave.id) ∧
      m.nextId ≤ m'.nextId ∨
    (m'.slaves.map Slave.id).Sublist (m.slaves.map Slave.id ++ [m.nextId]) ∧
      m'.nextId = m.nextId + 1
  fresh : ∀ slave ∈ m'.slaves, slave.replstate = .waitBgsaveEnd →
    slave.reply = [] → ∀ file, m'.rdbChild = some file → file = m.executed

theorem BacklogTurn.offset_le {backlog : Option Backlog} {offset : ℤ}
    (hturn : BacklogTurn backlog offset m') : offset ≤ m'.masterReplOffset := by
  cases hturn <;> omega

theorem Quiet.nextId_le (hquiet : Quiet m m') : m.nextId ≤ m'.nextId := by
  obtain ⟨-, hle⟩ | ⟨-, heq⟩ := hquiet.ids <;> omega

/-- The stream and its start after an event that executes nothing. -/
def epoch (m : Master) (stream : Bytes) (start : ℤ) : Bytes × ℤ :=
  if m.backlog.isSome then (stream, start) else ([], m.masterReplOffset + 1)

theorem MasterOk.backlog_turn (hok : MasterOk m stream start)
    (hturn : BacklogTurn m.backlog m.masterReplOffset m') :
    (m'.backlog = none → m'.slaves = []) ∧
      (m'.backlog.isSome = true → m'.masterReplOffset =
        (epoch m stream start).2 + (epoch m stream start).1.length) ∧
      ∀ backlog, m'.backlog = some backlog →
        backlog.Holds (epoch m stream start).1 m'.masterReplOffset := by
  cases hturn with
  | kept hsame hoffset hnobody =>
    rw [hsame, hoffset]
    refine ⟨hnobody, fun hsome => ?_, fun backlog hbacklog => ?_⟩
    · rw [epoch, if_pos hsome]
      exact hok.offset hsome
    · rw [epoch, if_pos (by rw [hbacklog]; rfl)]
      exact hok.holds backlog hbacklog
  | resized hsome hoffset size hsize hnew =>
    rw [hnew]
    refine ⟨nofun, fun _ => ?_, ?_⟩
    · rw [epoch, if_pos hsome, hoffset]
      exact hok.offset hsome
    · rintro _ ⟨⟩
      exact Backlog.holds_alloc hsize _ _
  | created hnone hoffset size hsize hnew =>
    rw [hnew]
    refine ⟨nofun, fun _ => ?_, ?_⟩
    · rw [epoch, hnone, if_neg (by simp), hoffset]
      simp
    · rintro _ ⟨⟩
      exact Backlog.holds_alloc hsize _ _
  | freed hnone _ hnobody =>
    rw [hnone]
    exact ⟨fun _ => hnobody, nofun, nofun⟩

theorem MasterOk.quiet (hok : MasterOk m stream start) (hquiet : Quiet m m') :
    MasterOk m' (epoch m stream start).1 (epoch m stream start).2 := by
  have hlt : ∀ id ∈ m.slaves.map Slave.id, id < m.nextId :=
    forall_mem_map.2 hok.ids_lt
  have hoffset := hok.offset_nonneg
  obtain ⟨hnobody, hend, hholds⟩ := hok.backlog_turn hquiet.backlog
  refine ⟨?_, ?_, hnobody, hend, hholds, ?_, ?_, ?_⟩
  · exact hoffset.trans hquiet.backlog.offset_le
  · rw [epoch]
    split
    · exact hok.start_nonneg
    · exact hoffset.trans (by dsimp only; omega)
  · intro slave hslave
    have hid : slave.id ∈ m'.slaves.map Slave.id := mem_map_of_mem hslave
    obtain ⟨hsub, hle⟩ | ⟨hsub, heq⟩ := hquiet.ids
    · exact (hlt _ (hsub.subset hid)).trans_le hle
    rw [heq, Nat.lt_succ_iff]
    obtain hmem | hmem := mem_append.1 (hsub.subset hid)
    · exact (hlt _ hmem).le
    · exact (mem_singleton.1 hmem).le
  · obtain ⟨hsub, -⟩ | ⟨hsub, -⟩ := hquiet.ids
    · exact hsub.nodup hok.nodup
    · refine hsub.nodup
        (nodup_append.2 ⟨hok.nodup, nodup_singleton _, fun id hid id' hid' => ?_⟩)
      obtain rfl := mem_singleton.1 hid'
      exact (hlt id hid).ne
  · rw [hquiet.executed]
    exact hquiet.fresh

/-! ### Events of the master -/

variable {sound : ℕ → Prop}

theorem FullResync.nextId {c : ℕ} (hresync : FullResync m c m') :
    m'.nextId = m.nextId := by
  cases hresync with
  | joined | waits | forked => exact (rest_becomeSlave _ _ _ _).2.2.2.2.1
  | refused => rfl

/-- What has to be true of an event for a replica in the middle of its
synchronisation: its child ends by itself, and its save is started. -/
def SoundFor (m : Master) (c : ℕ) : Master.Event → Prop
  | .saveDone exit _ forked => ∀ slave ∈ m.slaves, slave.id = c →
      (exit = .signal → slave.replstate ≠ .waitBgsaveEnd) ∧
      (forked = false → slave.replstate ≠ .waitBgsaveStart)
  | _ => True

end OfMaster

/-! ## The replica -/

section OfReplica

/-- The stream from offset `reploff` on turns what the replica has into the
data set of the master. -/
def Follows (dbnum : ℕ) (m : Master) (stream : Bytes) (start : ℤ)
    (file : Snapshot) (received : Bytes) (reploff : ℤ) : Prop :=
  ∃ before rest, stream = before ++ rest ∧ reploff = start + before.length ∧
    Tracks dbnum (received ++ rest) file m.executed m.slaveseldb

/-- A replica that has not loaded its file yet. -/
def TransferOk (dbnum : ℕ) (m : Master) (stream : Bytes) (start : ℤ)
    (initialOffset : ℤ) (slave : Slave) : Prop :=
  match slave.replstate with
  | .waitBgsaveStart => slave.reply = [] ∧ m.slaveseldb = none ∧
      initialOffset = m.masterReplOffset
  | .waitBgsaveEnd => ∃ file, m.rdbChild = some file ∧
      (∃ before, stream = before ++ slave.reply ∧
        initialOffset = start + before.length) ∧
      Tracks dbnum slave.reply file m.executed m.slaveseldb
  | .sendBulk | .online => ∃ file, slave.repldbfd = some file ∧
      (∃ before, stream = before ++ slave.reply ∧
        initialOffset = start + before.length) ∧
      Tracks dbnum slave.reply file m.executed m.slaveseldb

/-- A replica that reads the stream: the unread part of its buffer is the end
of the stream from its offset on. -/
def ReadingOk (stream : Bytes) (start : ℤ) (readBytes : ℕ)
    (reploff : ℤ) (slave : Slave) : Prop :=
  slave.replstate = .online ∧ readBytes ≤ slave.reply.length ∧
    ∃ before, stream = before ++ slave.reply.drop readBytes ∧
      reploff = start + before.length

def LinkOk (dbnum : ℕ) (m : Master) (stream : Bytes) (start : ℤ)
    (r : Replica) : Prop :=
  match r.link with
  | .down => True
  | .transfer c initialOffset => c < m.nextId ∧ r.reploff = none ∧
      ∀ slave ∈ m.slaves, slave.id = c →
        TransferOk dbnum m stream start initialOffset slave
  | .connected c readBytes _ => c < m.nextId ∧ ∃ reploff,
      r.reploff = some reploff ∧ ∀ slave ∈ m.slaves, slave.id = c →
        ReadingOk stream start readBytes reploff slave

/-- A recorded offset is right, or lies before the backlog was created. -/
structure ReplicaOk (dbnum : ℕ) (m : Master) (stream : Bytes) (start : ℤ)
    (r : Replica) : Prop where
  reploff_le : ∀ reploff, r.reploff = some reploff →
    reploff ≤ m.masterReplOffset
  cached : ∀ reploff, r.reploff = some reploff → m.backlog.isSome = true →
    reploff < start ∨
      Follows dbnum m stream start r.file r.received reploff
  link : LinkOk dbnum m stream start r

theorem Tracks.quiet {reply : Bytes} {file : Snapshot} (hquiet : Quiet m m')
    (htracks : Tracks dbnum reply file m.executed m.slaveseldb) :
    Tracks dbnum reply file m'.executed m'.slaveseldb := by
  rw [hquiet.executed]
  obtain hsame | hnone := hquiet.slaveseldb
  · rwa [hsame]
  · rw [hnone]
    exact htracks.forget

theorem TransferOk.turn (hquiet : Quiet m m') {initialOffset : ℤ}
    (hoffset : m.masterReplOffset = start + stream.length)
    (hsame : m'.masterReplOffset = m.masterReplOffset) {before slave : Slave}
    (hturn : SlaveTurn m.executed m.rdbChild m'.rdbChild before slave)
    (hok : TransferOk dbnum m stream start initialOffset before) :
    TransferOk dbnum m' stream start initialOffset slave := by
  unfold TransferOk at hok ⊢
  cases hturn with
  | same hchild =>
    cases hstate : before.replstate with
    | waitBgsaveStart =>
      rw [hstate] at hok
      obtain ⟨hreply, hnone, hinitial⟩ := hok
      refine ⟨hreply, ?_, hinitial.trans hsame.symm⟩
      obtain hseldb | hseldb := hquiet.slaveseldb
      · exact hseldb.trans hnone
      · exact hseldb
    | waitBgsaveEnd =>
      rw [hstate] at hok
      obtain ⟨file, hfile, hposition, htracks⟩ := hok
      exact ⟨file, (hchild hstate (by rw [hfile]; rfl)).trans hfile,
        hposition, htracks.quiet hquiet⟩
    | sendBulk | online =>
      rw [hstate] at hok
      obtain ⟨file, hfile, hposition, htracks⟩ := hok
      exact ⟨file, hfile, hposition, htracks.quiet hquiet⟩
  | started hstate hchild =>
    rw [hstate] at hok
    obtain ⟨hreply, hnone, hinitial⟩ := hok
    refine ⟨m.executed, hchild, ⟨stream, ?_, ?_⟩, ?_⟩
    · rw [hreply, append_nil]
    · rw [hinitial, hoffset]
    rw [hreply]
    refine Tracks.quiet hquiet ?_
    rw [hnone]
    exact tracks_nil _
  | saved hstate | sent hstate =>
    rw [hstate] at hok
    obtain ⟨file, hfile, hposition, htracks⟩ := hok
    exact ⟨file, hfile, hposition, htracks.quiet hquiet⟩

theorem ReadingOk.turn {readBytes : ℕ} {reploff : ℤ} {before slave : Slave}
    {executed : Snapshot} {child child' : Option Snapshot}
    (hturn : SlaveTurn executed child child' before slave)
    (hok : ReadingOk stream start readBytes reploff before) :
    ReadingOk stream start readBytes reploff slave := by
  cases hturn with
  | same => exact hok
  | started hstate | saved hstate | sent hstate =>
    have honline := hok.1
    rw [hstate] at honline
    cases honline

/-- The connection of the replica. -/
def OnLink (r : Replica) (c : ℕ) : Prop :=
  (∃ initialOffset, r.link = .transfer c initialOffset) ∨
    ∃ readBytes continued, r.link = .connected c readBytes continued

/-- The link is kept in order by whatever keeps each replica on it so. -/
theorem LinkOk.turn {r : Replica} {stream' : Bytes} {start' : ℤ}
    (hlink : LinkOk dbnum m stream start r) (hnext : m.nextId ≤ m'.nextId)
    (hturn : ∀ slave ∈ m'.slaves, OnLink r slave.id →
      ∃ before ∈ m.slaves, before.id = slave.id ∧
        (∀ initialOffset, TransferOk dbnum m stream start initialOffset before →
          TransferOk dbnum m' stream' start' initialOffset slave) ∧
        ∀ readBytes reploff, ReadingOk stream start readBytes reploff before →
          ReadingOk stream' start' readBytes reploff slave) :
    LinkOk dbnum m' stream' start' r := by
  unfold LinkOk at hlink ⊢
  cases hstate : r.link with
  | down => exact trivial
  | transfer c initialOffset =>
    rw [hstate] at hlink
    obtain ⟨hc, hnone, htransfer⟩ := hlink
    refine ⟨hc.trans_le hnext, hnone, fun slave hslave hid => ?_⟩
    obtain ⟨before, hbefore, hid', hok, -⟩ :=
      hturn slave hslave (Or.inl ⟨initialOffset, hid ▸ hstate⟩)
    exact hok _ (htransfer before hbefore (hid'.trans hid))
  | connected c readBytes continued =>
    rw [hstate] at hlink
    obtain ⟨hc, reploff, hreploff, hreading⟩ := hlink
    refine ⟨hc.trans_le hnext, reploff, hreploff, fun slave hslave hid => ?_⟩
    obtain ⟨before, hbefore, hid', -, hok⟩ :=
      hturn slave hslave (Or.inr ⟨readBytes, continued, hid ▸ hstate⟩)
    exact hok _ _ (hreading before hbefore (hid'.trans hid))

/-- The replica's side under an event that executes nothing. -/
theorem ReplicaOk.quiet {r : Replica} (hmaster : MasterOk m stream start)
    (hquiet : Quiet m m')
    (hslaves : ∀ slave ∈ m'.slaves, OnLink r slave.id → ComesFrom m m' slave)
    (hok : ReplicaOk dbnum m stream start r) :
    ReplicaOk dbnum m' (epoch m stream start).1 (epoch m stream start).2 r := by
  have hnext := hquiet.nextId_le
  -- with the backlog there the stream goes on, without it there are no replicas
  by_cases hsome : m.backlog.isSome = true
  · have hepoch : epoch m stream start = (stream, start) := if_pos hsome
    have hsame : m'.masterReplOffset = m.masterReplOffset := by
      cases hquiet.backlog with
      | kept _ hoffset | resized _ hoffset | freed _ hoffset => exact hoffset
      | created hnone =>
        rw [hnone] at hsome
        cases hsome
    rw [hepoch]
    refine ⟨fun reploff hreploff => ?_, fun reploff hreploff _ => ?_, ?_⟩
    · rw [hsame]
      exact hok.reploff_le reploff hreploff
    · obtain hearly | ⟨before, rest, hstream, hposition, htracks⟩ :=
        hok.cached reploff hreploff hsome
      · exact Or.inl hearly
      · exact Or.inr ⟨before, rest, hstream, hposition, htracks.quiet hquiet⟩
    refine hok.link.turn hnext fun slave hslave hon => ?_
    obtain ⟨before, hbefore, hid, hturn⟩ := hslaves slave hslave hon
    exact ⟨before, hbefore, hid, fun _ htransfer =>
      htransfer.turn hquiet (hmaster.offset hsome) hsame hturn,
      fun _ _ hreading => hreading.turn hturn⟩
  · have hnone : m.backlog = none := Option.not_isSome_iff_eq_none.1 hsome
    have hepoch : epoch m stream start = ([], m.masterReplOffset + 1) :=
      if_neg hsome
    have hempty := hmaster.nobody hnone
    rw [hepoch]
    refine ⟨fun reploff hreploff => ?_, fun reploff hreploff _ => ?_, ?_⟩
    · exact (hok.reploff_le reploff hreploff).trans hquiet.backlog.offset_le
    · have := hok.reploff_le reploff hreploff
      exact Or.inl (by dsimp only; omega)
    refine hok.link.turn hnext fun slave hslave hon => ?_
    obtain ⟨before, hbefore, -⟩ := hslaves slave hslave hon
    rw [hempty] at hbefore
    cases hbefore

/-! ### Writes -/

/-- The bytes a write adds to the stream. -/
def written (m : Master) (w : Write) : Bytes :=
  (selectcmd m.slaveseldb w.1).flatMap vector ++ vector w.2

theorem write_nobody {w : Write} (hnone : m.backlog = none)
    (hempty : m.slaves = []) :
    m.write w = { m with executed := m.executed ++ [w] } := by
  rw [write, replicationFeedSlaves]
  dsimp only
  rw [hnone, hempty]
  rfl

/-- The fields of the master after a write, with a backlog to feed. -/
theorem write_fed {w : Write} {backlog : Backlog}
    (hsome : m.backlog = some backlog) :
    m.write w = { m with
      executed := m.executed ++ [w]
      slaveseldb := some w.1
      masterReplOffset := m.masterReplOffset + (written m w).length
      backlog := some (backlog.feed
        (m.masterReplOffset + (written m w).length) (written m w))
      slaves := m.slaves.map (Slave.feed
        ((selectcmd m.slaveseldb w.1).flatMap vector) (vector w.2)) } := by
  have hfed : ∀ (base : Master) (data : Bytes), base.backlog = some backlog →
      base.feedReplicationBacklog data = { base with
        masterReplOffset := base.masterReplOffset + data.length
        backlog := some
          (backlog.feed (base.masterReplOffset + data.length) data) } := by
    intro base data hbase
    rw [feedReplicationBacklog.eq_def, hbase]
  have hsomebody : ¬ ((m.backlog.isNone && m.slaves.isEmpty) = true) := by
    rw [hsome]
    exact Bool.false_ne_true
  rw [write, replicationFeedSlaves, if_neg hsomebody]
  dsimp only
  rw [hfed { m with executed := m.executed ++ [w] } _ hsome]
  rfl

theorem reply_feed {slave : Slave} {w : Write}
    (hstate : slave.replstate ≠ .waitBgsaveStart) :
    (slave.feed ((selectcmd m.slaveseldb w.1).flatMap vector)
      (vector w.2)).reply = slave.reply ++ written m w := by
  rw [Slave.feed, if_neg hstate, written]
  simp

theorem MasterOk.write {w : Write} (hok : MasterOk m stream start) :
    MasterOk (m.write w) (stream ++ written m w) start := by
  obtain hnone | ⟨backlog, hsome⟩ := Option.eq_none_or_eq_some m.backlog
  · have hempty := hok.nobody hnone
    rw [write_nobody hnone hempty]
    refine ⟨hok.offset_nonneg, hok.start_nonneg, fun _ => hempty,
      fun h => ?_, fun b hb => ?_, hok.ids_lt, hok.nodup,
      fun slave hslave => ?_⟩
    · rw [hnone] at h
      cases h
    · rw [hnone] at hb
      cases hb
    · rw [hempty] at hslave
      cases hslave
  · have hoffset := hok.offset (by rw [hsome]; rfl)
    rw [write_fed hsome]
    have hnonneg := hok.offset_nonneg
    refine ⟨by dsimp only; omega, hok.start_nonneg, fun h => (by cases h),
      fun _ => ?_, fun b hb => ?_, ?_, ?_, ?_⟩
    · dsimp only
      rw [hoffset, length_append]
      push_cast
      ring
    · cases hb
      exact (hok.holds backlog hsome).feed _
    · intro slave' hslave'
      obtain ⟨slave, hslave, rfl⟩ := mem_map.1 hslave'
      exact hok.ids_lt slave hslave
    · rw [map_map]
      exact hok.nodup
    · intro slave' hslave' hstate hreply
      obtain ⟨slave, hslave, rfl⟩ := mem_map.1 hslave'
      have hstate' : slave.replstate = .waitBgsaveEnd := hstate
      rw [reply_feed (by rw [hstate']; decide), written] at hreply
      have hnil := (append_eq_nil_iff.1 (append_eq_nil_iff.1 hreply).2).2
      exact absurd hnil (vector_ne_nil w.2)

theorem ReplicaOk.write {w : Write} {r : Replica} (hdbnum : dbnum ≤ 2 ^ 31)
    (hw : Propagable dbnum w)
    (hsound : ∀ slave ∈ m.slaves, OnLink r slave.id →
      slave.replstate ≠ .waitBgsaveStart)
    (hmaster : MasterOk m stream start)
    (hok : ReplicaOk dbnum m stream start r) :
    ReplicaOk dbnum (m.write w) (stream ++ written m w) start r := by
  obtain hnone | ⟨backlog, hsome⟩ := Option.eq_none_or_eq_some m.backlog
  · have hempty := hmaster.nobody hnone
    rw [write_nobody hnone hempty]
    refine ⟨hok.reploff_le, fun reploff hreploff h => ?_, ?_⟩
    · rw [hnone] at h
      cases h
    refine hok.link.turn le_rfl fun slave hslave => ?_
    rw [hempty] at hslave
    cases hslave
  · have hwrite : ∀ {reply : Bytes} {file : Snapshot},
        Tracks dbnum reply file m.executed m.slaveseldb →
        Tracks dbnum (reply ++ written m w) file (m.executed ++ [w])
          (some w.1) := by
      intro reply file htracks
      rw [written, ← append_assoc]
      exact htracks.write hdbnum hw
    rw [write_fed hsome]
    refine ⟨fun reploff hreploff => ?_, fun reploff hreploff _ => ?_, ?_⟩
    · have := hok.reploff_le reploff hreploff
      dsimp only
      omega
    · obtain hearly | ⟨before, rest, hstream, hposition, htracks⟩ :=
        hok.cached reploff hreploff (by rw [hsome]; rfl)
      · exact Or.inl hearly
      refine Or.inr ⟨before, rest ++ written m w, ?_, hposition, ?_⟩
      · rw [hstream, append_assoc]
      · rw [← append_assoc]
        exact hwrite htracks
    refine hok.link.turn le_rfl fun slave' hslave' hon => ?_
    obtain ⟨slave, hslave, rfl⟩ := mem_map.1 hslave'
    have hwaits := hsound slave hslave hon
    have hreply := @reply_feed m slave w hwaits
    refine ⟨slave, hslave, rfl, fun initialOffset hbefore => ?_,
      fun readBytes reploff hbefore => ?_⟩
    · unfold TransferOk at hbefore ⊢
      rw [show (slave.feed _ _).replstate = slave.replstate from rfl, hreply]
      cases hstate : slave.replstate with
      | waitBgsaveStart => exact absurd hstate hwaits
      | waitBgsaveEnd | sendBulk | online =>
        rw [hstate] at hbefore
        obtain ⟨file, hfile, ⟨before, hstream, hinitial⟩, htracks⟩ :=
          hbefore
        refine ⟨file, hfile, ⟨before, ?_, hinitial⟩, hwrite htracks⟩
        rw [hstream, append_assoc]
    · obtain ⟨honline, hread, before, hstream, hposition⟩ := hbefore
      refine ⟨honline, ?_, before, ?_, hposition⟩
      · rw [hreply, length_append]
        omega
      · rw [hreply, drop_append_of_le_length hread, hstream, append_assoc]

/-! ### Connecting -/

end OfReplica

/-! ## The system -/

section OfSystem

/-- The replica can go on: the backlog `b` has the bytes after its offset. -/
def Resumes (s : System) (b : Backlog) (reploff : ℤ) : Prop :=
  s.replica.reploff = some reploff ∧ s.master.backlog = some b ∧
    b.accepts (reploff + 1) = true

/-- The events the result is about.  A replica that can go on is sent strings
that tell their lengths; one that cannot does not join a save with writes queued
since the fork.  Nothing is written while it waits for a save to start, its
child ends by itself, and its save is started. -/
def Sound (dbnum : ℕ) (s : System) : System.Event → Prop
  | .master (.write w) => Propagable dbnum w ∧
      ∀ slave ∈ s.master.slaves, OnLink s.replica slave.id →
        slave.replstate ≠ .waitBgsaveStart
  | .master event => ∀ c, OnLink s.replica c → SoundFor s.master c event
  | .connect _ => (∀ b reploff, Resumes s b reploff → b.Fits (reploff + 1)) ∧
      ((∀ b reploff, ¬ Resumes s b reploff) →
        ∀ slave, s.master.rdbChild.isSome = true →
          s.master.slaves.find? (·.replstate = .waitBgsaveEnd) = some slave →
            slave.reply = [])
  | _ => True

variable {s : System}

end OfSystem

/-! ## Whole runs -/

def SoundAll (dbnum : ℕ) (s : System) : List System.Event → Prop
  | [] => True
  | event :: events =>
    Sound dbnum s event ∧ SoundAll dbnum (s.step event) events

end RedisV8.Replication
