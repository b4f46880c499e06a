import RedisV8.Aof.Background

/-!
# The log always replays to the dataset

Two byte streams have to be right at every moment: the file followed by the
regular buffer, and, while a child is at work, its file followed by the
rewrite buffer.  Both read the same feed, and `aof_selected_db` is right for
both because every change of stream resets it.
-/

namespace RedisV8.Aof

open Util List FakeClient

variable {D : Type} {s : Server D} {data : D} {tmpfile : Bytes}

/-- The stream replays to the given state of the fake client. -/
def Replays (engine : Engine D) (fp : Bytes) (c : FakeClient D) : Prop :=
  loadAll (run engine) fp (createFakeClient engine) = some c

/-- One event at the server.  A logged command replays to the effect it had,
and a child's file holds the dataset at the time of the fork.  The texts fit
their buffers, and a script that starts a rewrite has changed nothing
before. -/
inductive Step (engine : Engine D) : Server D → Server D → Prop where
  | write {s : Server D} {dictid : ℕ} {argv : List Bytes} {data : D}
      (mstime : ℤ) (proc : Proc)
      (hdb : dictid < engine.dbnum)
      (hsize : ∀ cmd ∈ translate mstime proc argv, Writable cmd)
      (hfits : s.Fits (s.feed mstime proc dictid argv))
      (heffect : ∀ multi, runAll (run engine)
        (translate mstime proc argv) ⟨s.data, dictid, multi⟩ =
          some ⟨data, dictid, multi⟩) :
      Step engine s { s.propagate mstime proc dictid argv with data := data }
  | scriptRewrite {s s' : Server D} {dictid : ℕ} {argv : List Bytes}
      {middle data : D} {tmpfile : Bytes}
      (hdb : dictid < engine.dbnum) (hsize : Writable argv)
      (hfits : s.Fits ({ s with selectedDb := none }.feed 0 .other dictid argv))
      (heffect : ∀ multi, runAll (run engine) [argv]
        ⟨s.data, dictid, multi⟩ = some ⟨data, dictid, multi⟩)
      (hsnapshot : ∃ db, Replays engine tmpfile ⟨middle, db, false⟩)
      (hunchanged : middle = s.data)
      (hstart : s.scriptRewrite middle data tmpfile dictid argv = some s') :
      Step engine s s'
  | unlogged {s : Server D} (data : D) (hoff : s.aofState = .off) :
      Step engine s { s with data := data }
  | multi {s : Server D} {dictid : ℕ} (mstime : ℤ)
      (hdb : dictid < engine.dbnum) (hidle : s.inExec = false)
      (hfits : s.Fits (s.feed mstime .other dictid [ascii "MULTI"])) :
      Step engine s
        { s.propagate mstime .other dictid [ascii "MULTI"] with
          inExec := true }
  | exec {s : Server D} {dictid : ℕ} {name : Bytes} (mstime : ℤ)
      (hdb : dictid < engine.dbnum) (hname : isText "exec" name = true)
      (hsize : Writable [name])
      (hfits : s.Fits (s.feed mstime .other dictid [name]))
      (hexec : s.inExec = true) :
      Step engine s
        { s.propagate mstime .other dictid [name] with inExec := false }
  | flush {s : Server D} : Step engine s s.flushAppendOnlyFile
  | rewriteStart {s s' : Server D} {tmpfile : Bytes}
      (hsnapshot : ∃ db, Replays engine tmpfile ⟨s.data, db, false⟩)
      (hstart : s.rewriteAppendOnlyFileBackground tmpfile = some s') :
      Step engine s s'
  | rewriteDone {s : Server D} (success opened renamed : Bool)
      (hidle : s.inExec = false) :
      Step engine s (s.backgroundRewriteDoneHandler success opened renamed)
  | start {s : Server D} {tmpfile : Bytes} (hoff : s.aofState = .off)
      (hsnapshot : ∃ db, Replays engine tmpfile ⟨s.data, db, false⟩) :
      Step engine s (s.startAppendOnly tmpfile)
  | startFailed {s : Server D} (hoff : s.aofState = .off) :
      Step engine s { s with fd := true }
  | stop {s : Server D} (hstarted : s.aofState ≠ .off) :
      Step engine s s.stopAppendOnly

/-- A server that has just loaded its file, or that runs without a log. -/
structure Initial (engine : Engine D) (s : Server D) : Prop where
  loaded : s.aofState ≠ .off →
    s.aofState = .on ∧ s.fd = true ∧
      ∃ db, Replays engine s.file ⟨s.data, db, false⟩
  inExec : s.inExec = false
  aofBuf : s.aofBuf = []
  selectedDb : s.selectedDb = none
  child : s.child = none
  rewriteBuf : s.rewriteBuf = []

inductive Reachable (engine : Engine D) : Server D → Prop where
  | initial {s : Server D} (hinitial : Initial engine s) : Reachable engine s
  | step {s s' : Server D} (hreach : Reachable engine s)
      (hstep : Step engine s s') : Reachable engine s'

/-- The stream ends with the dataset, in the database last selected. -/
def Current (engine : Engine D) (s : Server D) (fp : Bytes) (multi : Bool) :
    Prop :=
  ∃ db, Replays engine fp ⟨s.data, db, multi⟩ ∧
    ∀ dictid, s.selectedDb = some dictid → dictid = db

/-- A stream that starts inside a transaction lacks its `MULTI`. -/
structure Invariant (engine : Engine D) (s : Server D) : Prop where
  fd : s.aofState ≠ .off → s.fd = true
  log : s.aofState = .on →
    Current engine s (s.file ++ s.aofBuf) s.inExec
  rewritten : s.aofState ≠ .off → ∀ tmpfile, s.child = some tmpfile →
    ∃ multi, (multi = true → s.inExec = true) ∧
      Current engine s (tmpfile ++ aofRewriteBufferWrite s.rewriteBuf) multi
  reset : s.child = none → s.rewriteBuf = []

section Feed

variable {engine : Engine D}

theorem run_select {id : ℕ} (hid : id < engine.dbnum) (c : FakeClient D) :
    c.run engine [ascii "SELECT", llText id] = some { c with db := id } := by
  have hselect : isText "select" (ascii "SELECT") = true := by decide
  have hdb := selectedDb_llText engine.dbnum_lt.le hid c.db
  simp [run, hselect, hdb]

theorem writable_select {id : ℕ} :
    Writable [ascii "SELECT", llText id] where
  pos := Nat.succ_pos 1
  argc := by norm_num
  len := by
    have hlength := (natText_plain id).1
    simp only [mem_cons, not_mem_nil, or_false, forall_eq_or_imp, forall_eq]
    constructor
    · decide
    · simp only [llText, Int.natAbs_natCast, not_lt.2 (Int.natCast_nonneg id),
        if_false]
      omega

/-- The feed continues a stream, whatever database the stream is in. -/
theorem Current.feed {fp : Bytes} {multi multi' : Bool} {dictid : ℕ}
    {cmds : List (List Bytes)} (hcurrent : Current engine s fp multi)
    (hdb : dictid < engine.dbnum) (hsize : ∀ cmd ∈ cmds, Writable cmd)
    (heffect : runAll (run engine) cmds ⟨s.data, dictid, multi⟩ =
      some ⟨data, dictid, multi'⟩) :
    Replays engine (fp ++ (selectFirst s.selectedDb dictid ++ cmds).flatMap
      catAppendOnlyGenericCommand) ⟨data, dictid, multi'⟩ := by
  obtain ⟨db, hreplays, hselected⟩ := hcurrent
  have hload := loadAll_flatMap (run engine) hsize []
    ⟨s.data, dictid, multi⟩
  rw [append_nil, heffect, Option.bind_some, loadAll_nil] at hload
  rw [Replays, loadAll_append _ hreplays, selectFirst]
  split_ifs with hsame
  · obtain rfl := hselected dictid hsame
    exact hload
  rw [singleton_append, flatMap_cons, loadAll_of_readCommand _
    (readCommand_catAppendOnlyGenericCommand writable_select _),
    run_select hdb, Option.bind_some]
  exact hload

/-- Logging a command that acts on the transaction flag by `next`. -/
theorem invariant_propagate {mstime : ℤ} {proc : Proc} {dictid : ℕ}
    {argv : List Bytes} (next : Bool → Bool) (hinv : Invariant engine s)
    (hdb : dictid < engine.dbnum)
    (hsize : ∀ cmd ∈ translate mstime proc argv, Writable cmd)
    (heffect : ∀ multi, runAll (run engine)
      (translate mstime proc argv) ⟨s.data, dictid, multi⟩ =
        some ⟨data, dictid, next multi⟩)
    (hclosed : ∀ multi, (multi = true → s.inExec = true) →
      next multi = true → next s.inExec = true) :
    Invariant engine { s.propagate mstime proc dictid argv with
      data := data, inExec := next s.inExec } := by
  by_cases hoff : s.aofState = .off
  · have hkeep : s.propagate mstime proc dictid argv = s := if_pos hoff
    rw [hkeep]
    exact
      { fd := fun h => absurd hoff h
        log := fun h => by cases hoff.symm.trans h
        rewritten := fun h => absurd hoff h
        reset := hinv.reset }
  have hfeed : s.propagate mstime proc dictid argv =
      s.feedAppendOnlyFile mstime proc dictid argv := if_neg hoff
  rw [hfeed]
  refine ⟨fun _ => hinv.fd hoff, fun hon => ?_, fun _ tmpfile hchild => ?_,
    fun hnone => ?_⟩
  · have hstream := (hinv.log hon).feed hdb hsize (heffect s.inExec)
    rw [append_assoc] at hstream
    refine ⟨dictid, ?_, fun d hd => (Option.some_inj.1 hd).symm⟩
    have hbuf : s.aofState = .on := hon
    simpa only [Server.feedAppendOnlyFile, Server.feed, hbuf, if_true] using
      hstream
  · obtain ⟨multi, hmulti, hcurrent⟩ := hinv.rewritten hoff tmpfile hchild
    have hstream := hcurrent.feed hdb hsize (heffect multi)
    rw [append_assoc, ← aofRewriteBufferWrite_append] at hstream
    refine ⟨next multi, hclosed multi hmulti, dictid, ?_,
      fun d hd => (Option.some_inj.1 hd).symm⟩
    have hsome : s.child.isSome = true := by
      rw [show s.child = some tmpfile from hchild]
      rfl
    simpa only [Server.feedAppendOnlyFile, Server.feed, hsome, if_true] using
      hstream
  · have hchild : s.child = none := hnone
    simpa [Server.feedAppendOnlyFile, hchild] using hinv.reset hchild

end Feed

section Steps

variable {engine : Engine D}

theorem invariant_rewriteStart {s' : Server D} (hinv : Invariant engine s)
    (hsnapshot : ∃ db, Replays engine tmpfile ⟨s.data, db, false⟩)
    (hstart : s.rewriteAppendOnlyFileBackground tmpfile = some s') :
    Invariant engine s' := by
  rw [Server.rewriteAppendOnlyFileBackground] at hstart
  split_ifs at hstart with hchild
  cases hstart
  obtain ⟨db, hreplays⟩ := hsnapshot
  have hreset := hinv.reset (by simpa using hchild)
  refine ⟨hinv.fd, fun hon => ?_, fun _ tmpfile' hchild' => ?_,
    fun hnone => by cases hnone⟩
  · obtain ⟨db, hlog, _⟩ := hinv.log hon
    exact ⟨db, hlog, fun d hd => by cases hd⟩
  · cases hchild'
    refine ⟨false, Bool.noConfusion, db, ?_, fun d hd => by cases hd⟩
    simpa [hreset, aofRewriteBufferWrite] using hreplays

theorem invariant_cleanup (hfd : s.aofState ≠ .off → s.fd = true)
    (hlog : s.aofState = .on → Current engine s (s.file ++ s.aofBuf) s.inExec) :
    Invariant engine s.cleanup where
  fd := hfd
  log := hlog
  rewritten := fun _ _ hchild => by cases hchild
  reset := fun _ => rfl

/-- The child's file takes over with all that was logged since the fork. -/
theorem invariant_switchFile (hinv : Invariant engine s)
    (hidle : s.inExec = false) (hchild : s.child = some tmpfile) :
    Invariant engine (s.switchFile tmpfile).cleanup := by
  by_cases hoff : s.aofState = .off
  · apply invariant_cleanup
    · intro hstarted
      simp [Server.switchFile, hoff] at hstarted
    · intro hon
      simp [Server.switchFile, hoff] at hon
  have hfd := hinv.fd hoff
  obtain ⟨multi, hmulti, db, hreplays, _⟩ :=
    hinv.rewritten hoff tmpfile hchild
  have hclosed : multi = s.inExec := by
    cases multi with
    | false => exact hidle.symm
    | true => exact (hmulti rfl).symm
  apply invariant_cleanup
  · exact fun _ => hfd
  intro _
  refine ⟨db, ?_, fun d hd => ?_⟩
  · rw [hclosed] at hreplays
    simpa [Server.switchFile, hfd] using hreplays
  · simp [Server.switchFile, hfd] at hd

theorem invariant_rewriteDone (success opened renamed : Bool)
    (hinv : Invariant engine s) (hidle : s.inExec = false) :
    Invariant engine
      (s.backgroundRewriteDoneHandler success opened renamed) := by
  rw [Server.backgroundRewriteDoneHandler]
  split
  · exact hinv
  rename_i tmpfile hchild
  split_ifs with hok
  · exact invariant_switchFile hinv hidle hchild
  · exact invariant_cleanup hinv.fd hinv.log

theorem invariant_fd (hinv : Invariant engine s) :
    Invariant engine { s with fd := true } :=
  ⟨fun _ => rfl, hinv.log, hinv.rewritten, hinv.reset⟩

theorem invariant_start (hinv : Invariant engine s)
    (hsnapshot : ∃ db, Replays engine tmpfile ⟨s.data, db, false⟩) :
    Invariant engine (s.startAppendOnly tmpfile) := by
  cases hchild : s.child with
  | some running =>
    simpa [Server.startAppendOnly, Server.rewriteAppendOnlyFileBackground,
      hchild] using invariant_fd hinv
  | none =>
    let waiting : Server D := { s with fd := true, aofState := .waitRewrite }
    have hwaiting : Invariant engine waiting :=
      ⟨fun _ => rfl, fun hon => (by cases hon),
        fun _ _ hsome => (by cases hchild.symm.trans hsome), hinv.reset⟩
    have hstart : waiting.rewriteAppendOnlyFileBackground tmpfile =
        some (s.startAppendOnly tmpfile) := by
      simp [waiting, Server.startAppendOnly,
        Server.rewriteAppendOnlyFileBackground, hchild]
    exact invariant_rewriteStart hwaiting hsnapshot hstart

theorem invariant_stop (hinv : Invariant engine s) :
    Invariant engine s.stopAppendOnly where
  fd := fun hstarted => absurd rfl hstarted
  log := fun hon => by cases hon
  rewritten := fun hstarted => absurd rfl hstarted
  reset := fun _ => by
    simp only [Server.stopAppendOnly]
    split_ifs with hchild
    · rfl
    · exact hinv.reset (by simpa using hchild)

theorem runAll_multi (mstime : ℤ) (dictid : ℕ) (data : D) (multi : Bool) :
    runAll (run engine) (translate mstime .other [ascii "MULTI"])
      ⟨data, dictid, multi⟩ = some ⟨data, dictid, true⟩ := by
  have hselect : isText "select" (ascii "MULTI") = false := by decide
  have hmulti : isText "multi" (ascii "MULTI") = true := by decide
  simp [translate, runAll, run, hselect, hmulti]

theorem runAll_exec {name : Bytes} (hname : isText "exec" name = true)
    (mstime : ℤ) (dictid : ℕ) (data : D) (multi : Bool) :
    runAll (run engine) (translate mstime .other [name])
      ⟨data, dictid, multi⟩ = some ⟨data, dictid, false⟩ := by
  have hother : ∀ text, ascii "exec" ≠ ascii text → isText text name = false := by
    intro text hne
    rw [isText, beq_iff_eq] at hname
    rw [isText, hname, beq_eq_false_iff_ne]
    exact hne
  have hselect := hother "select" (by decide)
  have hmulti := hother "multi" (by decide)
  simp [translate, runAll, run, hselect, hmulti, hname]

theorem writable_multi : Writable [ascii "MULTI"] where
  pos := Nat.one_pos
  argc := by norm_num
  len := by decide

theorem propagate_fields (s : Server D) (mstime : ℤ) (proc : Proc)
    (dictid : ℕ) (argv : List Bytes) :
    (s.propagate mstime proc dictid argv).inExec = s.inExec ∧
      (s.propagate mstime proc dictid argv).data = s.data := by
  rw [Server.propagate]
  split_ifs <;> exact ⟨rfl, rfl⟩

theorem invariant_write {mstime : ℤ} {proc : Proc} {dictid : ℕ}
    {argv : List Bytes} (hinv : Invariant engine s)
    (hdb : dictid < engine.dbnum)
    (hsize : ∀ cmd ∈ translate mstime proc argv, Writable cmd)
    (heffect : ∀ multi, runAll (run engine)
      (translate mstime proc argv) ⟨s.data, dictid, multi⟩ =
        some ⟨data, dictid, multi⟩) :
    Invariant engine { s.propagate mstime proc dictid argv with
      data := data } := by
  have hlogged := invariant_propagate id hinv hdb hsize heffect
    fun _ hmulti => hmulti
  rw [id, ← (propagate_fields s mstime proc dictid argv).1] at hlogged
  exact hlogged

/-- A script that starts a rewrite before it writes. -/
theorem invariant_scriptRewrite {s' : Server D} {dictid : ℕ}
    {argv : List Bytes} (hinv : Invariant engine s)
    (hdb : dictid < engine.dbnum) (hsize : Writable argv)
    (heffect : ∀ multi, runAll (run engine) [argv]
      ⟨s.data, dictid, multi⟩ = some ⟨data, dictid, multi⟩)
    (hsnapshot : ∃ db, Replays engine tmpfile ⟨s.data, db, false⟩)
    (hstart : s.scriptRewrite s.data data tmpfile dictid argv = some s') :
    Invariant engine s' := by
  obtain ⟨forked, hfork, rfl⟩ := Option.map_eq_some_iff.mp hstart
  have hdata : forked.data = s.data := by
    rw [Server.rewriteAppendOnlyFileBackground] at hfork
    split_ifs at hfork
    cases hfork
    rfl
  rw [← hdata] at heffect
  exact invariant_write (invariant_rewriteStart hinv hsnapshot hfork) hdb
    (forall_mem_singleton.mpr hsize) heffect

theorem Step.invariant {s' : Server D} (hstep : Step engine s s')
    (hinv : Invariant engine s) : Invariant engine s' := by
  cases hstep with
  | write _ _ hdb hsize _ heffect =>
    exact invariant_write hinv hdb hsize heffect
  | scriptRewrite hdb hsize _ heffect hsnapshot hunchanged hstart =>
    subst hunchanged
    exact invariant_scriptRewrite hinv hdb hsize heffect hsnapshot hstart
  | unlogged data hoff =>
    exact ⟨hinv.fd, fun hon => (by cases hoff.symm.trans hon),
      fun hstarted => absurd hoff hstarted, hinv.reset⟩
  | @multi dictid mstime hdb hidle _ =>
    have hlogged := invariant_propagate (fun _ => true) hinv hdb
      (by simpa [translate] using writable_multi)
      (runAll_multi mstime dictid s.data) fun _ _ _ => rfl
    rw [← (propagate_fields s mstime .other dictid _).2] at hlogged
    exact hlogged
  | @exec dictid name mstime hdb hname hsize _ hexec =>
    have hlogged := invariant_propagate (fun _ => false) hinv hdb
      (by simpa [translate] using hsize)
      (runAll_exec hname mstime dictid s.data) fun _ _ h => h
    rw [← (propagate_fields s mstime .other dictid _).2] at hlogged
    exact hlogged
  | flush =>
    refine ⟨hinv.fd, fun hon => ?_, hinv.rewritten, hinv.reset⟩
    rw [Server.flushAppendOnlyFile, append_nil]
    exact hinv.log hon
  | rewriteStart hsnapshot hstart =>
    exact invariant_rewriteStart hinv hsnapshot hstart
  | rewriteDone success opened renamed hidle =>
    exact invariant_rewriteDone success opened renamed hinv hidle
  | start hoff hsnapshot => exact invariant_start hinv hsnapshot
  | startFailed hoff => exact invariant_fd hinv
  | stop hstarted => exact invariant_stop hinv

theorem Initial.invariant (hinitial : Initial engine s) :
    Invariant engine s where
  fd := fun hstarted => (hinitial.loaded hstarted).2.1
  log := fun hon => by
    obtain ⟨_, _, db, hreplays⟩ := hinitial.loaded (by simp [hon])
    refine ⟨db, ?_, fun d hd => by cases hinitial.selectedDb.symm.trans hd⟩
    rw [hinitial.aofBuf, hinitial.inExec, append_nil]
    exact hreplays
  rewritten := fun _ _ hchild => by cases hinitial.child.symm.trans hchild
  reset := fun _ => hinitial.rewriteBuf

theorem Reachable.invariant (hreach : Reachable engine s) :
    Invariant engine s := by
  induction hreach with
  | initial hinitial => exact hinitial.invariant
  | step _ hstep ih => exact hstep.invariant ih

end Steps

/-- A server with an empty log. -/
def started : Server ℕ := ⟨0, false, .on, true, [], [], none, none, []⟩

def incr : List Bytes := [ascii "INCR", ascii "n"]

/-- `INCR` in a database. -/
def Server.incr (s : Server ℕ) (dictid : ℕ) : Server ℕ :=
  { s.propagate 0 .other dictid Aof.incr with data := s.data + 1 }

/-- The log that a child writes for the dataset `1`. -/
def snapshot : Bytes := catAppendOnlyGenericCommand incr

end RedisV8.Aof
