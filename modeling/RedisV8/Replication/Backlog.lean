import RedisV8.Lib.Bytes
import RedisV8.Lib.Circular

/-!
# The replication backlog

The end of the replication stream is kept in a circular buffer.  Offsets count
the bytes of the stream; `off` is the offset of the oldest byte still there.
-/

namespace RedisV8.Replication

open Circular List

/-- `repl_backlog` with its index, `repl_backlog_histlen` and
`repl_backlog_off`. -/
structure Backlog where
  ring : Buffer UInt8
  histlen : ℕ
  off : ℤ

namespace Backlog

/-- A new buffer.  Its bytes are not initialised, and not read either before
they are written. -/
def alloc (size : ℕ) (hsize : 0 < size) (masterReplOffset : ℤ) : Backlog where
  ring := ⟨List.replicate size 0, 0, by rwa [length_replicate]⟩
  histlen := 0
  off := masterReplOffset + 1

/-- The loop of `feedReplicationBacklog` and what follows it; the offset has
been advanced before. -/
def feed (b : Backlog) (masterReplOffset : ℤ) (data : Bytes) : Backlog :=
  let histlen := min (b.histlen + data.length) b.ring.size
  ⟨b.ring.write data, histlen, masterReplOffset - histlen + 1⟩

/-- The test of `masterTryPartialResynchronization`. -/
def accepts (b : Backlog) (psyncOffset : ℤ) : Bool :=
  b.off ≤ psyncOffset && psyncOffset ≤ b.off + b.histlen

/-- The cell of the byte at an offset, and how many bytes there are from it
on. -/
def place (b : Backlog) (offset : ℤ) : ℕ × ℕ :=
  let skip := (offset - b.off).toNat
  let j := (b.ring.idx + (b.ring.size - b.histlen)) % b.ring.size
  ((j + skip) % b.ring.size, b.histlen - skip)

/-- The bytes kept from an offset on. -/
def bytesFrom (b : Backlog) (offset : ℤ) : Bytes :=
  b.ring.read (b.place offset).1 (b.place offset).2

/-- These bytes are sent in one string up to the end of the buffer and another
one from its start, whose lengths are of type `int`. -/
def Fits (b : Backlog) (offset : ℤ) : Prop :=
  let thislen := min (b.ring.size - (b.place offset).1) (b.place offset).2
  thislen < 2 ^ 31 ∧ (b.place offset).2 - thislen < 2 ^ 31

instance (b : Backlog) (offset : ℤ) : Decidable (b.Fits offset) :=
  inferInstanceAs (Decidable (_ ∧ _))

/-- What `addReplyReplicationBacklog` sends; `none` if a string has lost its
length. -/
def addReplyReplicationBacklog (b : Backlog) (offset : ℤ) : Option Bytes :=
  if b.histlen = 0 then some []
  else if b.Fits offset then some (b.bytesFrom offset)
  else none

/-! ## The window on the stream -/

/-- The backlog holds the end of `stream`, whose last byte has the given
offset.  After a resize only what was fed since then counts. -/
structure Holds (b : Backlog) (stream : Bytes) (masterReplOffset : ℤ) :
    Prop where
  window : ∃ fed, fed <:+ stream ∧ b.ring.Window fed ∧
    b.histlen = min fed.length b.ring.size
  off_eq : b.off = masterReplOffset - b.histlen + 1

theorem holds_alloc {size : ℕ} (hsize : 0 < size) (stream : Bytes)
    (masterReplOffset : ℤ) :
    Holds (alloc size hsize masterReplOffset) stream masterReplOffset where
  window := ⟨[], nil_suffix, Buffer.window_nil rfl, by simp [alloc]⟩
  off_eq := by simp [alloc]

theorem Holds.feed {b : Backlog} {stream : Bytes} {masterReplOffset : ℤ}
    (hholds : Holds b stream masterReplOffset) (data : Bytes) :
    Holds (b.feed (masterReplOffset + data.length) data) (stream ++ data)
      (masterReplOffset + data.length) := by
  obtain ⟨⟨fed, hsuffix, hwindow, hhistlen⟩, -⟩ := hholds
  refine ⟨⟨fed ++ data, ?_, hwindow.write data, ?_⟩, rfl⟩
  · obtain ⟨before, rfl⟩ := hsuffix
    exact ⟨before, (append_assoc ..).symm⟩
  · have hsize := b.ring.size_write data
    simp only [Backlog.feed, hsize, hhistlen, length_append]
    omega

/-- An accepted offset is the next one the replica expects, and the bytes kept
from there on are the stream to its end. -/
theorem Holds.bytesFrom {b : Backlog} {stream : Bytes} {masterReplOffset : ℤ}
    (hholds : Holds b stream masterReplOffset) {offset : ℤ}
    (haccepts : b.accepts offset = true) :
    ∃ before, stream = before ++ b.bytesFrom offset ∧
      offset + (b.bytesFrom offset).length = masterReplOffset + 1 := by
  obtain ⟨⟨fed, ⟨before, rfl⟩, hwindow, hhistlen⟩, hoff⟩ := hholds
  obtain ⟨hlow, hhigh⟩ : b.off ≤ offset ∧ offset ≤ b.off + b.histlen := by
    simpa [accepts] using haccepts
  have hpos := b.ring.size_pos
  obtain ⟨skip, hskip⟩ : ∃ skip : ℕ, offset - b.off = skip :=
    Int.eq_ofNat_of_zero_le (by omega)
  have hkept : skip ≤ b.histlen := by omega
  -- the oldest byte kept lies in the cell of its position
  have hcell : (b.ring.idx + (b.ring.size - b.histlen)) % b.ring.size =
      (fed.length - b.histlen) % b.ring.size := by
    have hsum : b.ring.size * (fed.length / b.ring.size) +
        (b.ring.idx + (b.ring.size - b.histlen)) =
          fed.length - b.histlen + b.ring.size := by
      have hdiv := Nat.div_add_mod fed.length b.ring.size
      rw [← hwindow.idx_eq] at hdiv
      omega
    rw [← Nat.mul_add_mod b.ring.size (fed.length / b.ring.size), hsum,
      Nat.add_mod_right]
  have hfrom : b.bytesFrom offset =
      fed.drop (fed.length - (b.histlen - skip)) := by
    rw [Backlog.bytesFrom, place, hskip, Int.toNat_natCast]
    dsimp only
    by_cases hlast : skip = b.histlen
    · rw [hlast, Nat.sub_self, Nat.sub_zero, drop_length, Buffer.read,
        if_neg (Nat.not_lt_zero _), take_zero]
    rw [← hwindow.read (by omega) (by omega), hcell, Nat.mod_add_mod]
    congr 2
    omega
  rw [hfrom, length_drop]
  refine ⟨before ++ fed.take (fed.length - (b.histlen - skip)), ?_, by omega⟩
  rw [append_assoc, take_append_drop]

theorem fits_of_histlen_lt {b : Backlog} (hhistlen : b.histlen < 2 ^ 31)
    (offset : ℤ) : b.Fits offset := by
  have hle : (b.place offset).2 ≤ b.histlen := Nat.sub_le _ _
  simp only [Fits]
  omega

theorem addReply_eq (b : Backlog) (offset : ℤ) :
    b.addReplyReplicationBacklog offset =
      if b.Fits offset then some (b.bytesFrom offset) else none := by
  rw [addReplyReplicationBacklog]
  split
  · rename_i hzero
    have hlen : (b.place offset).2 = 0 := by
      rw [place, hzero, Nat.zero_sub]
    rw [if_pos (fits_of_histlen_lt (by omega) offset), bytesFrom, hlen, Buffer.read,
      if_neg (Nat.not_lt_zero _), take_zero]
  · rfl

end Backlog

end RedisV8.Replication
