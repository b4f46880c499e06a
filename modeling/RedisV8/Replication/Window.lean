import RedisV8.Replication.Master

/-!
# The backlog as a window on the stream

Whatever is fed to the backlog and however often it is resized, it holds the
last `repl_backlog_histlen` bytes of the stream, and a replica whose offset is
accepted is sent the stream from there on.
-/

namespace RedisV8.Replication

open List

/-- All that the backlog keeps, from its oldest byte on. -/
def Backlog.contents (b : Backlog) : Bytes :=
  b.ring.read
    ((b.ring.idx + (b.ring.size - b.histlen)) % b.ring.size) b.histlen

namespace Backlog

/-- What is kept is the end of the stream. -/
theorem Holds.contents_eq {b : Backlog} {stream : Bytes} {masterReplOffset : ℤ}
    (hholds : Holds b stream masterReplOffset) :
    b.histlen ≤ stream.length ∧
      b.contents = stream.drop (stream.length - b.histlen) := by
  have hle : b.histlen ≤ stream.length := by
    obtain ⟨⟨fed, hsuffix, -, hhistlen⟩, -⟩ := hholds
    have hfed := hsuffix.length_le
    omega
  refine ⟨hle, ?_⟩
  have haccepts : b.accepts b.off = true := by simp [accepts]
  have hall : b.bytesFrom b.off = b.contents := by
    simp [Backlog.bytesFrom, place, contents]
  obtain ⟨before, hstream, hoffset⟩ := hholds.bytesFrom haccepts
  rw [hall] at hstream hoffset
  have hoff := hholds.off_eq
  rw [hstream, length_append, drop_left']
  omega

end Backlog

namespace Master

/-- What happens to a backlog that has been created. -/
inductive BacklogEvent where
  | feed (data : Bytes)
  | resize (newsize : ℕ)
  deriving DecidableEq, Repr

def onBacklogEvent (m : Master) : BacklogEvent → Master
  | .feed data => m.feedReplicationBacklog data
  | .resize newsize => m.resizeReplicationBacklog newsize

def runBacklog (m : Master) (events : List BacklogEvent) : Master :=
  events.foldl onBacklogEvent m

/-- The replication stream: everything that was fed. -/
def BacklogEvent.stream (events : List BacklogEvent) : Bytes :=
  events.flatMap fun
    | .feed data => data
    | .resize _ => []

/-- The backlog exists and holds the end of the stream, whose first byte has
the offset `start`. -/
def Windowed (m : Master) (stream : Bytes) (start : ℤ) : Prop :=
  (∃ b, m.backlog = some b ∧ b.Holds stream m.masterReplOffset) ∧
    m.masterReplOffset + 1 = start + stream.length

theorem windowed_create (m : Master) :
    m.createReplicationBacklog.Windowed [] (m.masterReplOffset + 2) := by
  refine ⟨⟨_, rfl, Backlog.holds_alloc m.backlogSize_pos [] _⟩, ?_⟩
  rw [createReplicationBacklog]
  simp
  ring

theorem Windowed.step {m : Master} {stream : Bytes} {start : ℤ}
    (hwindowed : m.Windowed stream start) (event : BacklogEvent) :
    (m.onBacklogEvent event).Windowed
      (stream ++ BacklogEvent.stream [event]) start := by
  obtain ⟨⟨b, hbacklog, hholds⟩, hoffset⟩ := hwindowed
  cases event with
  | feed data =>
    have hstream : BacklogEvent.stream [.feed data] = data := by
      simp [BacklogEvent.stream]
    rw [hstream, onBacklogEvent, feedReplicationBacklog, hbacklog]
    refine ⟨⟨_, rfl, hholds.feed data⟩, ?_⟩
    rw [length_append]
    push_cast
    linarith
  | resize newsize =>
    have hstream : BacklogEvent.stream [.resize newsize] = [] := rfl
    rw [hstream, append_nil, onBacklogEvent, resizeReplicationBacklog]
    split
    · exact ⟨⟨b, hbacklog, hholds⟩, hoffset⟩
    have hsize : 0 < max newsize backlogMinSize :=
      lt_of_lt_of_le (by decide) (le_max_right _ _)
    refine ⟨⟨Backlog.alloc _ hsize m.masterReplOffset, ?_,
      Backlog.holds_alloc hsize stream _⟩, hoffset⟩
    rw [hbacklog]
    rfl

theorem Windowed.run {m : Master} {stream : Bytes} {start : ℤ}
    (hwindowed : m.Windowed stream start) (events : List BacklogEvent) :
    (m.runBacklog events).Windowed
      (stream ++ BacklogEvent.stream events) start := by
  induction events generalizing m stream with
  | nil => simpa [runBacklog, BacklogEvent.stream] using hwindowed
  | cons event events ih =>
    have hrun := ih (hwindowed.step event)
    rwa [append_assoc, BacklogEvent.stream, BacklogEvent.stream,
      ← flatMap_append] at hrun

/-- An accepted request is answered with the stream from its offset on, if the
lengths of its parts can be told. -/
theorem Windowed.partialReply {m : Master} {stream : Bytes} {start : ℤ}
    (hwindowed : m.Windowed stream start) {b : Backlog}
    (hbacklog : m.backlog = some b) {runid : Bytes} {reply : Option Bytes}
    {offset : ℤ} (haccepted : m.partialReply runid offset = some reply) :
    start ≤ offset ∧
      (reply = some (stream.drop (offset - start).toNat) ↔ b.Fits offset) := by
  obtain ⟨⟨_, hbacklog', hholds⟩, hoffset⟩ := hwindowed
  obtain rfl := Option.some.inj (hbacklog.symm.trans hbacklog')
  rw [Master.partialReply, hbacklog] at haccepted
  split at haccepted
  · dsimp only at haccepted
    split at haccepted
    · rename_i haccepts
      obtain ⟨before, hstream, hend⟩ := hholds.bytesFrom haccepts
      obtain rfl := Option.some.inj haccepted
      rw [hstream, length_append] at hoffset
      push_cast at hoffset
      refine ⟨by linarith, ?_⟩
      rw [Backlog.addReply_eq, show (offset - start).toNat = before.length by
        omega, hstream, drop_left]
      split <;> simpa
    · cases haccepted
  · cases haccepted

/-- After any feeds and resizes the backlog holds the last `histlen` bytes of
the stream, which end at the current offset, and for every offset that `PSYNC`
accepts the replica is sent the stream from that offset to its end, exactly if
neither of the two strings it is sent in has `2 ^ 31` bytes or more. -/
theorem backlog_window (m : Master) (events : List BacklogEvent) :
    ∃ b, (m.createReplicationBacklog.runBacklog events).backlog = some b ∧
      b.histlen ≤ (BacklogEvent.stream events).length ∧
      b.contents = (BacklogEvent.stream events).drop
        ((BacklogEvent.stream events).length - b.histlen) ∧
      b.off + b.histlen = (m.createReplicationBacklog.runBacklog
        events).masterReplOffset + 1 ∧
      (m.createReplicationBacklog.runBacklog events).masterReplOffset + 1 =
        m.masterReplOffset + 2 + (BacklogEvent.stream events).length ∧
      ∀ runid offset reply,
        (m.createReplicationBacklog.runBacklog events).partialReply runid
          offset = some reply →
        m.masterReplOffset + 2 ≤ offset ∧
          (reply = some ((BacklogEvent.stream events).drop
            (offset - (m.masterReplOffset + 2)).toNat) ↔ b.Fits offset) := by
  have hwindowed := (windowed_create m).run events
  rw [nil_append] at hwindowed
  obtain ⟨b, hbacklog, hholds⟩ := hwindowed.1
  obtain ⟨hle, hcontents⟩ := hholds.contents_eq
  refine ⟨b, hbacklog, hle, hcontents, ?_, hwindowed.2,
    fun runid offset reply => hwindowed.partialReply hbacklog⟩
  rw [hholds.off_eq]
  ring

/-- A backlog that has been filled once, from its first byte on. -/
theorem not_fits_full {size : ℕ} (hsize : 0 < size) (hbig : 2 ^ 31 ≤ size)
    (offset : ℤ) {data : Bytes} (hdata : data.length = size) :
    ¬ ((Backlog.alloc size hsize offset).feed (offset + data.length) data).Fits
      (offset + 1) := by
  have halloc : (Backlog.alloc size hsize offset).ring.size = size :=
    length_replicate
  have hwritten : ((Backlog.alloc size hsize offset).ring.write data).size =
      size := (Circular.Buffer.size_write _ data).trans halloc
  have hidx : ((Backlog.alloc size hsize offset).ring.write data).idx = 0 := by
    have hwindow := (Circular.Buffer.window_nil (α := UInt8)
      (r := (Backlog.alloc size hsize offset).ring) rfl).write data
    rw [hwindow.idx_eq, nil_append, hdata, hwritten, Nat.mod_self]
  have hplace : ((Backlog.alloc size hsize offset).feed
      (offset + data.length) data).place (offset + 1) = (0, size) := by
    have hhistlen : (Backlog.alloc size hsize offset).histlen = 0 := rfl
    simp [Backlog.place, Backlog.feed, hwritten, halloc, hidx, hdata, hhistlen]
  simp only [Backlog.Fits, hplace]
  simp only [Backlog.feed, hwritten]
  omega

theorem partialReply_full {m : Master} (hbig : 2 ^ 31 ≤ m.backlogSize)
    {data : Bytes} (hdata : data.length = m.backlogSize) :
    (m.createReplicationBacklog.runBacklog [.feed data]).partialReply m.runid
      (m.masterReplOffset + 1 + 1) = some none := by
  have hbacklog : (m.createReplicationBacklog.runBacklog
      [.feed data]).backlog = some
        ((Backlog.alloc m.backlogSize m.backlogSize_pos
          (m.masterReplOffset + 1)).feed
            (m.masterReplOffset + 1 + data.length) data) := rfl
  have hrunid : (m.createReplicationBacklog.runBacklog
      [.feed data]).runid = m.runid := rfl
  have halloc : (Backlog.alloc m.backlogSize m.backlogSize_pos
      (m.masterReplOffset + 1)).ring.size = m.backlogSize := length_replicate
  rw [Master.partialReply, hrunid, if_pos (by simp [sameText]), hbacklog]
  dsimp only
  rw [if_pos, Backlog.addReply_eq, if_neg (not_fits_full _ hbig _ hdata)]
  simp [Backlog.accepts, Backlog.feed, halloc, hdata]

/-- A full backlog of two gigabytes, all of which a replica asks for. -/
theorem backlog_reply_lost :
    ((init [] (2 ^ 31) (by decide) []).createReplicationBacklog.runBacklog
      [.feed (replicate (2 ^ 31) 0)]).partialReply [] 2 = some none :=
  partialReply_full (m := init [] (2 ^ 31) (by decide) []) (Nat.le_refl _)
    length_replicate

end Master

end RedisV8.Replication
