import RedisV8.Aof.Protocol

/-!
# Logging while a child rewrites the log

`feedAppendOnlyFile` puts a command into the regular buffer and, while a
child rewrites the file, into the blocks of the rewrite buffer as well.  When
the child is done the blocks are appended to its file, which replaces the old
one, and the regular buffer is dropped.  The dataset and the effect of a
command on it are parameters here.
-/

namespace RedisV8.Aof

open Util List

/-! ## The rewrite buffer -/

/-- `AOF_RW_BUF_BLOCK_SIZE`. -/
def blockSize : ℕ := 1024 * 1024 * 10

/-- An `aofrwblock`, holding the used bytes of its buffer. -/
structure Block where
  buf : Bytes
  used_le : buf.length ≤ blockSize

namespace Block

def empty : Block := ⟨[], Nat.zero_le _⟩

def free (block : Block) : ℕ := blockSize - block.buf.length

/-- The `memcpy` of the bytes there is room for. -/
def fill (block : Block) (s : Bytes) : Block where
  buf := block.buf ++ s.take block.free
  used_le := by
    have hused := block.used_le
    simp only [free, length_append, length_take]
    omega

end Block

/-- The `while(len)` loop; a full or missing last block costs a round. -/
def appendLoop : ℕ → List Block → Bytes → List Block
  | 0, blocks, _ => blocks
  | fuel + 1, blocks, s =>
    if s = [] then blocks
    else
      match blocks.getLast? with
      | none => appendLoop fuel [Block.empty] s
      | some block =>
        let blocks := blocks.dropLast ++ [block.fill s]
        let s := s.drop block.free
        if s = [] then blocks
        else appendLoop fuel (blocks ++ [Block.empty]) s

def aofRewriteBufferAppend (blocks : List Block) (s : Bytes) : List Block :=
  appendLoop (s.length + 1) blocks s

/-- The bytes `aofRewriteBufferWrite` writes. -/
def aofRewriteBufferWrite (blocks : List Block) : Bytes :=
  blocks.flatMap Block.buf

theorem appendLoop_write {fuel : ℕ} {blocks : List Block} {s : Bytes}
    (hfuel : s.length < fuel ∨
      s.length ≤ fuel ∧ ∃ block, blocks.getLast? = some block ∧
        0 < block.free) :
    aofRewriteBufferWrite (appendLoop fuel blocks s) =
      aofRewriteBufferWrite blocks ++ s := by
  have hroom : 0 < Block.empty.free := by decide
  induction fuel generalizing blocks s with
  | zero =>
    obtain rfl : s = [] := length_eq_zero_iff.1 (by omega)
    simp [appendLoop]
  | succ fuel ih =>
    rw [appendLoop]
    split_ifs with hnil
    · simp [hnil]
    split
    · rename_i hlast
      obtain rfl : blocks = [] := getLast?_eq_none_iff.1 hlast
      rw [ih (Or.inr ⟨?_, Block.empty, rfl, hroom⟩)]
      · simp [aofRewriteBufferWrite, Block.empty]
      · obtain hlt | ⟨_, block, hnone, _⟩ := hfuel
        · omega
        · cases hnone
    rename_i block hlast
    have hsplit : blocks = blocks.dropLast ++ [block] := by
      rw [dropLast_append_getLast?]
      exact hlast
    have hfill : aofRewriteBufferWrite
          (blocks.dropLast ++ [block.fill s]) ++ s.drop block.free =
        aofRewriteBufferWrite blocks ++ s := by
      conv_rhs => rw [hsplit]
      simp [aofRewriteBufferWrite, Block.fill]
    dsimp only
    split_ifs with hdone
    · rw [hdone, append_nil] at hfill
      exact hfill
    rw [ih (Or.inr ⟨?_, Block.empty, by simp, hroom⟩), ← hfill]
    · simp [aofRewriteBufferWrite, Block.empty]
    rw [length_drop]
    obtain hlt | ⟨hle, block', hlast', hfree⟩ := hfuel
    · omega
    · rw [hlast] at hlast'
      cases hlast'
      omega

theorem aofRewriteBufferWrite_append (blocks : List Block) (s : Bytes) :
    aofRewriteBufferWrite (aofRewriteBufferAppend blocks s) =
      aofRewriteBufferWrite blocks ++ s :=
  appendLoop_write (Or.inl (Nat.lt_succ_self _))

/-! ## What is logged for a command -/

/-- The command procedures `feedAppendOnlyFile` tells apart. -/
inductive Proc where
  | expire | pexpire | expireat | setex | psetex | other
  deriving DecidableEq, Repr

def catAppendOnlyExpireAtCommand (mstime : ℤ) (proc : Proc)
    (key seconds : Bytes) : List Bytes :=
  let time := (strtoll seconds).value
  let time :=
    if proc = .expire ∨ proc = .setex ∨ proc = .expireat then
      toLongLong (time * 1000)
    else time
  let time :=
    if proc = .expire ∨ proc = .pexpire ∨ proc = .setex ∨ proc = .psetex then
      toLongLong (time + mstime)
    else time
  [ascii "PEXPIREAT", key, llText time]

/-- The commands written for one command, in their order. -/
def translate (mstime : ℤ) (proc : Proc) (argv : List Bytes) :
    List (List Bytes) :=
  let arg (j : ℕ) := argv.getD j []
  match proc with
  | .expire | .pexpire | .expireat =>
    [catAppendOnlyExpireAtCommand mstime proc (arg 1) (arg 2)]
  | .setex | .psetex =>
    [[ascii "SET", arg 1, arg 3],
      catAppendOnlyExpireAtCommand mstime proc (arg 1) (arg 2)]
  | .other => [argv]

/-- A `SELECT` goes first when the log last went to another database. -/
def selectFirst (selected : Option ℕ) (dictid : ℕ) : List (List Bytes) :=
  if selected = some dictid then [] else [[ascii "SELECT", llText dictid]]

/-! ## Replay -/

/-- What the log is replayed into: datasets over `dbnum` databases, and the
effect of a command other than `SELECT`, `MULTI` and `EXEC` run in a given
database.  An unknown command ends the load. -/
structure Engine (D : Type) where
  dbnum : ℕ
  dbnum_lt : dbnum < 2 ^ 31
  empty : D
  exec : ℕ → List Bytes → D → Option D

variable {D : Type}

/-- The fake client of a load, with the dataset it works on. -/
structure FakeClient (D : Type) where
  data : D
  db : ℕ
  multi : Bool

def createFakeClient (engine : Engine D) : FakeClient D :=
  ⟨engine.empty, 0, false⟩

/-- `cmd->proc(fakeClient)`.  Commands between `MULTI` and `EXEC` are not
queued here, so `EXEC` finds an empty queue. -/
def FakeClient.run (engine : Engine D) (c : FakeClient D)
    (argv : List Bytes) : Option (FakeClient D) :=
  if isText "select" (argv.getD 0 []) then
    some { c with db := selectedDb engine.dbnum c.db (argv.getD 1 []) }
  else if isText "multi" (argv.getD 0 []) then some { c with multi := true }
  else if isText "exec" (argv.getD 0 []) then some { c with multi := false }
  else do
    let data ← engine.exec c.db argv c.data
    some { c with data := data }

inductive AofState where
  | off | on | waitRewrite
  deriving DecidableEq, Repr

/-- `inExec` is set from the propagation of `MULTI` to that of `EXEC`, `fd`
while `aof_fd` is not `-1`, and `child` holds the file a running child
produces. -/
structure Server (D : Type) where
  data : D
  inExec : Bool
  aofState : AofState
  fd : Bool
  file : Bytes
  aofBuf : Bytes
  selectedDb : Option ℕ
  child : Option Bytes
  rewriteBuf : List Block

namespace Server

/-- The text of `feedAppendOnlyFile` for a command. -/
def feed (s : Server D) (mstime : ℤ) (proc : Proc) (dictid : ℕ)
    (argv : List Bytes) : Bytes :=
  (selectFirst s.selectedDb dictid ++
    translate mstime proc argv).flatMap catAppendOnlyGenericCommand

/-- The text, and `aof_buf` with the text, have lengths that fit an sds; where
they do not the buffer is lost. -/
def Fits (s : Server D) (buf : Bytes) : Prop :=
  buf.length < 2 ^ 31 ∧
    (s.aofState = .on → s.aofBuf.length + buf.length < 2 ^ 31)

instance (s : Server D) (buf : Bytes) : Decidable (s.Fits buf) :=
  inferInstanceAs (Decidable (_ ∧ (_ → _)))

/-- With texts that fit. -/
def feedAppendOnlyFile (s : Server D) (mstime : ℤ) (proc : Proc)
    (dictid : ℕ) (argv : List Bytes) : Server D :=
  let buf := s.feed mstime proc dictid argv
  { s with
    selectedDb := some dictid
    aofBuf := if s.aofState = .on then s.aofBuf ++ buf else s.aofBuf
    rewriteBuf :=
      if s.child.isSome then aofRewriteBufferAppend s.rewriteBuf buf
      else s.rewriteBuf }

/-- The part of `propagate` that concerns the log. -/
def propagate (s : Server D) (mstime : ℤ) (proc : Proc) (dictid : ℕ)
    (argv : List Bytes) : Server D :=
  if s.aofState = .off then s
  else s.feedAppendOnlyFile mstime proc dictid argv

/-- The write of `flushAppendOnlyFile`, storing all bytes. -/
def flushAppendOnlyFile (s : Server D) : Server D :=
  { s with file := s.file ++ s.aofBuf, aofBuf := [] }

/-- A fork that succeeds, with the file the child is going to produce. -/
def rewriteAppendOnlyFileBackground (s : Server D) (tmpfile : Bytes) :
    Option (Server D) :=
  if s.child.isSome then none
  else some { s with child := some tmpfile, selectedDb := none }

/-- The rename and the switch to the new file; with the log disabled nothing
is going to be written to it. -/
def switchFile (s : Server D) (tmpfile : Bytes) : Server D :=
  { s with
    file := tmpfile ++ aofRewriteBufferWrite s.rewriteBuf
    selectedDb := if s.fd then none else s.selectedDb
    aofBuf := if s.fd then [] else s.aofBuf
    aofState := if s.aofState = .waitRewrite then .on else s.aofState }

/-- The `cleanup` label. -/
def cleanup (s : Server D) : Server D :=
  { s with rewriteBuf := [], child := none }

/-- `success` is an exit with code zero and no signal; opening and renaming
the temporary file may still fail. -/
def backgroundRewriteDoneHandler (s : Server D)
    (success opened renamed : Bool) : Server D :=
  match s.child with
  | none => s
  | some tmpfile =>
    if success && opened && renamed then (s.switchFile tmpfile).cleanup
    else s.cleanup

/-- A script has changed the dataset to `middle` when it starts a rewrite; its
`EVAL` is logged when it ends. -/
def scriptRewrite (s : Server D) (middle data : D) (tmpfile : Bytes)
    (dictid : ℕ) (argv : List Bytes) : Option (Server D) :=
  let s := { s with data := middle }
  (s.rewriteAppendOnlyFileBackground tmpfile).map fun s =>
    { s.propagate 0 .other dictid argv with data := data }

/-- `CONFIG SET appendonly yes`; the descriptor is not reset when the rewrite
cannot be started. -/
def startAppendOnly (s : Server D) (tmpfile : Bytes) : Server D :=
  match { s with fd := true }.rewriteAppendOnlyFileBackground tmpfile with
  | none => { s with fd := true }
  | some s => { s with aofState := .waitRewrite }

def stopAppendOnly (s : Server D) : Server D :=
  { s.flushAppendOnlyFile with
    fd := false
    selectedDb := none
    aofState := .off
    child := none
    rewriteBuf := if s.child.isSome then [] else s.rewriteBuf }

end Server

end RedisV8.Aof
