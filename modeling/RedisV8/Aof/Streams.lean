import RedisV8.Aof.Background

/-!
# The byte streams of the log

The log is read back from one of two streams: the file followed by the regular
buffer, and, once a running rewrite is done, the child's file followed by the
rewrite buffer.  `Logs` says that a property holds of every stream that is
being fed; what is fed goes to the end of both.
-/

namespace RedisV8.Aof

open Util

variable {D : Type} {P Q : Bytes → Prop} {s : Server D}

structure Logs (P : Bytes → Prop) (s : Server D) : Prop where
  fd : s.aofState ≠ .off → s.fd = true
  log : s.aofState = .on → P (s.file ++ s.aofBuf)
  rewritten : s.aofState ≠ .off → ∀ tmpfile, s.child = some tmpfile →
    P (tmpfile ++ aofRewriteBufferWrite s.rewriteBuf)
  reset : s.child = none → s.rewriteBuf = []

theorem Logs.mono (hlogs : Logs P s) (hPQ : ∀ fp, P fp → Q fp) :
    Logs Q s where
  fd := hlogs.fd
  log hon := hPQ _ (hlogs.log hon)
  rewritten hstarted tmpfile hchild :=
    hPQ _ (hlogs.rewritten hstarted tmpfile hchild)
  reset := hlogs.reset

theorem Logs.propagate (hlogs : Logs P s) (mstime : ℤ) (proc : Proc)
    (dictid : ℕ) (argv : List Bytes)
    (hfeed : ∀ fp, P fp → Q (fp ++ (selectFirst s.selectedDb dictid ++
      translate mstime proc argv).flatMap catAppendOnlyGenericCommand)) :
    Logs Q (s.propagate mstime proc dictid argv) := by
  rw [Server.propagate]
  split
  · rename_i hoff
    exact ⟨hlogs.fd, fun hon => by simp [hoff] at hon,
      fun hstarted => absurd hoff hstarted, hlogs.reset⟩
  rename_i hstarted
  refine ⟨hlogs.fd, fun hon => ?_, fun _ tmpfile hchild => ?_, fun hchild => ?_⟩
  · have hon' : s.aofState = .on := hon
    simp only [Server.feedAppendOnlyFile, if_pos hon', ← List.append_assoc]
    exact hfeed _ (hlogs.log hon')
  · have hchild' : s.child = some tmpfile := hchild
    simp only [Server.feedAppendOnlyFile, hchild', Option.isSome_some,
      if_true, aofRewriteBufferWrite_append, ← List.append_assoc]
    exact hfeed _ (hlogs.rewritten hstarted tmpfile hchild')
  · have hchild' : s.child = none := hchild
    simp [Server.feedAppendOnlyFile, hchild', hlogs.reset hchild']

theorem Logs.flush (hlogs : Logs P s) : Logs P s.flushAppendOnlyFile where
  fd := hlogs.fd
  log hon := by
    simpa [Server.flushAppendOnlyFile] using hlogs.log hon
  rewritten := hlogs.rewritten
  reset := hlogs.reset

theorem Logs.rewriteStart {s' : Server D} {tmpfile : Bytes}
    (hlogs : Logs P s) (htmpfile : P tmpfile)
    (hstart : s.rewriteAppendOnlyFileBackground tmpfile = some s') :
    Logs P s' := by
  rw [Server.rewriteAppendOnlyFileBackground] at hstart
  split at hstart
  · cases hstart
  rename_i hchild
  cases hstart
  have hreset := hlogs.reset (Option.not_isSome_iff_eq_none.1 hchild)
  refine ⟨hlogs.fd, hlogs.log, ?_, fun hnone => by cases hnone⟩
  rintro - _ ⟨⟩
  simpa [hreset, aofRewriteBufferWrite] using htmpfile

theorem Logs.cleanup (hlogs : Logs P s) : Logs P s.cleanup where
  fd := hlogs.fd
  log := hlogs.log
  rewritten _ _ hchild := by cases hchild
  reset _ := rfl

theorem Logs.rewriteDone (hlogs : Logs P s) (success opened renamed : Bool) :
    Logs P (s.backgroundRewriteDoneHandler success opened renamed) := by
  rw [Server.backgroundRewriteDoneHandler.eq_def]
  split
  · exact hlogs
  rename_i tmpfile hchild
  split
  · refine ⟨fun hstarted => ?_, fun hon => ?_,
      fun _ _ hnone => (by cases hnone), fun _ => rfl⟩
    · refine hlogs.fd fun hoff => hstarted ?_
      simp [Server.cleanup, Server.switchFile, hoff]
    have hstarted : s.aofState ≠ .off := by
      intro hoff
      simp [Server.cleanup, Server.switchFile, hoff] at hon
    simpa [Server.cleanup, Server.switchFile, hlogs.fd hstarted] using
      hlogs.rewritten hstarted tmpfile hchild
  · exact hlogs.cleanup

theorem Logs.start {tmpfile : Bytes} (hlogs : Logs P s)
    (htmpfile : P tmpfile) : Logs P (s.startAppendOnly tmpfile) := by
  have hopened : Logs P { s with fd := true } :=
    ⟨fun _ => rfl, hlogs.log, hlogs.rewritten, hlogs.reset⟩
  rw [Server.startAppendOnly]
  split
  · exact hopened
  rename_i s' hstart
  have hstarted := hopened.rewriteStart htmpfile hstart
  rw [Server.rewriteAppendOnlyFileBackground] at hstart
  split at hstart
  · cases hstart
  rename_i hidle
  cases hstart
  have hreset := hlogs.reset (Option.not_isSome_iff_eq_none.1 hidle)
  refine ⟨fun _ => rfl, fun hon => (by cases hon), ?_, hstarted.reset⟩
  rintro - _ ⟨⟩
  simpa [hreset, aofRewriteBufferWrite] using htmpfile

theorem Logs.stop (hlogs : Logs P s) : Logs P s.stopAppendOnly where
  fd hstarted := absurd rfl hstarted
  log hon := by cases hon
  rewritten hstarted := absurd rfl hstarted
  reset _ := by
    rw [Server.stopAppendOnly]
    dsimp only
    split
    · rfl
    · rename_i hidle
      exact hlogs.reset (Option.not_isSome_iff_eq_none.1 hidle)

end RedisV8.Aof
