import RedisV8.Aof.Durability
import RedisV8.Replication.InitialSync
import RedisV8.Scripting.EvalCommands
import RedisV8.Util.Sha1

/-!
# A propagated EVALSHA can be resolved

Every stream that is being fed has carried the body of every script whose
digest is in the replication script cache.  Whatever starts a stream flushes
the cache, and a flush of the scripts is propagated.  What breaks the rule is
an `EVALSHA` that puts its digest into the cache and is not propagated itself,
because the script wrote nothing.
-/

namespace RedisV8.Scripting

open Util Networking Replication List Master

variable {body fp reply : Bytes}

/-! ## Digests -/

section Digests

/-- A key of the cache as its comparison reads it. -/
def text (sha : Bytes) : Bytes := (sha.takeWhile (· ≠ 0)).map tolower

/-- Every digest in the cache is known. -/
def Knows (cache known : List Bytes) : Prop := ∀ sha ∈ cache, text sha ∈ known

variable {lua : Lua} {cache cache' known : List Bytes} {sha : Bytes}

theorem knows_nil (known : List Bytes) : Knows [] known := by
  intro sha hmem
  cases hmem

theorem Knows.cons (hknows : Knows cache known) (sha : Bytes) :
    Knows cache (sha :: known) :=
  fun sha' hmem => mem_cons_of_mem _ (hknows sha' hmem)

theorem Knows.add (hknows : Knows cache known) (hsha : text sha ∈ known) :
    Knows (replicationScriptCacheAdd cache sha) known := by
  intro sha' hmem
  obtain rfl | hmem := mem_cons.1 hmem
  · exact hsha
  · split at hmem
    · exact hknows sha' (mem_of_mem_dropLast hmem)
    · exact hknows sha' hmem

theorem Knows.of_exists (hknows : Knows cache known)
    (hexists : replicationScriptCacheExists cache sha = true) :
    text sha ∈ known := by
  obtain ⟨sha', hmem, hsame⟩ := any_eq_true.1 hexists
  have heq : text sha = text sha' := by
    simpa [sameText, text] using hsame
  rw [heq]
  exact hknows sha' hmem

theorem script_eq_some {s : Server} {sha1 : Bytes}
    (hfound : s.script lua sha1 = some body) :
    lua.sha1hex body = sha1 ∧ body ∈ s.luaScripts :=
  ⟨by simpa using List.find?_some hfound, mem_of_find?_eq_some hfound⟩

/-- A digest for which there is a script has no zero byte in it. -/
theorem text_eq_of_script (hbody : lua.sha1hex body = sha.map tolower) :
    text sha = sha.map tolower := by
  rw [text, takeWhile_eq_self_iff.2]
  intro b hmem
  have hne := lua.sha1hex_ne_zero body (tolower b)
    (hbody ▸ mem_map_of_mem hmem)
  have hb : b ≠ 0 := by
    rintro rfl
    exact hne rfl
  simpa using hb

end Digests

/-! ## Streams -/

section Streams

/-- A vector that can be sent to receivers that know the digests in `cache`,
and after which they know those in `cache'`. -/
def Accepted (lua : Lua) (cache cache' : List Bytes) (argv : List Bytes) :
    Prop :=
  ∀ known, Knows cache known →
    ∃ known', receive lua known argv = some known' ∧ Knows cache' known'

/-- The stream can be resolved, and makes the digests in `cache` known. -/
def Primed (lua : Lua) (cache : List Bytes) (reply : Bytes) : Prop :=
  ∃ commands known, reply = commands.flatMap vector ∧
    (∀ argv ∈ commands, Sendable argv) ∧
    Aof.runAll (receive lua) commands [] = some known ∧ Knows cache known

def PrimedLog (lua : Lua) (cache : List Bytes) (fp : Bytes) : Prop :=
  ∃ known, resolveLog lua fp = some known ∧ Knows cache known

variable {lua : Lua} {cache cache' : List Bytes} {argv : List Bytes}

theorem primed_nil (lua : Lua) : Primed lua [] [] :=
  ⟨[], [], rfl, fun _ hmem => (by cases hmem), rfl, knows_nil _⟩

theorem Primed.mono (hprimed : Primed lua cache reply)
    (hcache : ∀ known, Knows cache known → Knows cache' known) :
    Primed lua cache' reply := by
  obtain ⟨commands, known, hreply, hsendable, hrun, hknows⟩ := hprimed
  exact ⟨commands, known, hreply, hsendable, hrun, hcache known hknows⟩

theorem PrimedLog.mono (hprimed : PrimedLog lua cache fp)
    (hcache : ∀ known, Knows cache known → Knows cache' known) :
    PrimedLog lua cache' fp := by
  obtain ⟨known, hload, hknows⟩ := hprimed
  exact ⟨known, hload, hcache known hknows⟩

theorem Primed.resolves (hprimed : Primed lua cache reply) :
    (resolveReplica lua reply).isSome := by
  obtain ⟨commands, known, rfl, hsendable, hrun, -⟩ := hprimed
  rw [resolveReplica, commandsOf_vectors hsendable, hrun]
  rfl

theorem receive_select (known : List Bytes) (id : Bytes) :
    receive lua known [ascii "SELECT", id] = some known := by
  have heval : isText "eval" (ascii "SELECT") = false := by decide
  have hevalsha : isText "evalsha" (ascii "SELECT") = false := by decide
  have hscript : isText "script" (ascii "SELECT") = false := by decide
  simp [receive, heval, hevalsha, hscript]

theorem runAll_selectcmd (slaveseldb : Option ℕ) (dictid : ℕ)
    (known : List Bytes) :
    Aof.runAll (receive lua) (selectcmd slaveseldb dictid) known =
      some known := by
  rw [selectcmd]
  split
  · rfl
  · rw [Aof.runAll, receive_select]
    rfl

theorem Primed.append (hprimed : Primed lua cache reply)
    {commands : List (List Bytes)}
    (hsendable : ∀ argv ∈ commands, Sendable argv)
    (hrun : ∀ known, Knows cache known → ∃ known',
      Aof.runAll (receive lua) commands known = some known' ∧
        Knows cache' known') :
    Primed lua cache' (reply ++ commands.flatMap vector) := by
  obtain ⟨sent, known, rfl, hsent, hread, hknows⟩ := hprimed
  obtain ⟨known', hrun, hknows'⟩ := hrun known hknows
  refine ⟨sent ++ commands, known', (flatMap_append).symm, ?_, ?_, hknows'⟩
  · intro argv hmem
    exact (mem_append.1 hmem).elim (hsent argv) (hsendable argv)
  · rw [Aof.runAll_append, hread, Option.bind_some, hrun]

theorem Primed.select (hprimed : Primed lua cache reply)
    (slaveseldb : Option ℕ) (dictid : ℕ) :
    Primed lua cache
      (reply ++ (selectcmd slaveseldb dictid).flatMap vector) :=
  hprimed.append (sendable_selectcmd slaveseldb dictid) fun known hknows =>
    ⟨known, runAll_selectcmd slaveseldb dictid known, hknows⟩

theorem Primed.feed (hprimed : Primed lua cache reply) (hargv : Sendable argv)
    (haccepted : Accepted lua cache cache' argv) (slaveseldb : Option ℕ)
    (dictid : ℕ) :
    Primed lua cache' (reply ++
      (selectcmd slaveseldb dictid).flatMap vector ++ vector argv) := by
  have hrun : ∀ known, Knows cache known → ∃ known',
      Aof.runAll (receive lua) [argv] known = some known' ∧
        Knows cache' known' := by
    intro known hknows
    obtain ⟨known', hreceive, hknows'⟩ := haccepted known hknows
    exact ⟨known', by simp [Aof.runAll, hreceive], hknows'⟩
  simpa using (hprimed.select slaveseldb dictid).append
    (forall_mem_singleton.2 hargv) hrun

theorem writable_of_sendable (hargv : Sendable argv) : Aof.Writable argv where
  pos := length_pos_iff.2 hargv.nonempty
  argc := by
    have hcount := hargv.count_le
    rw [maxMultibulkLen] at hcount
    omega
  len arg hmem := by
    have hlength := hargv.length_le arg hmem
    rw [maxBulkLen] at hlength
    omega

theorem PrimedLog.feed (hprimed : PrimedLog lua cache fp)
    (hargv : Sendable argv) (haccepted : Accepted lua cache cache' argv)
    (selectedDb : Option ℕ) (dictid : ℕ) :
    PrimedLog lua cache' (fp ++ (Aof.selectFirst selectedDb dictid ++
      Aof.translate 0 .other argv).flatMap
        Aof.catAppendOnlyGenericCommand) := by
  obtain ⟨known, hload, hknows⟩ := hprimed
  obtain ⟨known', hreceive, hknows'⟩ := haccepted known hknows
  have hwritable : ∀ cmd ∈ Aof.selectFirst selectedDb dictid ++ [argv],
      Aof.Writable cmd := by
    intro cmd hmem
    obtain hselect | hmem := mem_append.1 hmem
    · rw [Aof.selectFirst] at hselect
      split at hselect
      · cases hselect
      · rw [mem_singleton.1 hselect]
        exact Aof.writable_select
    · rw [mem_singleton.1 hmem]
      exact writable_of_sendable hargv
  have hselect : Aof.runAll (receive lua)
      (Aof.selectFirst selectedDb dictid) known = some known := by
    rw [Aof.selectFirst]
    split
    · rfl
    · rw [Aof.runAll, receive_select]
      rfl
  refine ⟨known', ?_, hknows'⟩
  rw [resolveLog, Aof.loadAll_append _ hload, Aof.translate,
    ← append_nil (List.flatMap _ _), Aof.loadAll_flatMap _ hwritable,
    Aof.runAll_append, hselect, Option.bind_some, Aof.runAll, hreceive]
  simp [Aof.runAll]

end Streams

/-! ## Replicas -/

section Replicas

/-- What a replica that is waiting for a save to start is sent holds no
scripts; one that was continued from the backlog knows what it knew before. -/
def Fed (lua : Lua) (cache : List Bytes) (slave : Slave) : Prop :=
  match slave.replstate with
  | .waitBgsaveStart => Primed lua [] slave.reply
  | .waitBgsaveEnd | .sendBulk => Primed lua cache slave.reply
  | .online => slave.repldbfd.isSome → Primed lua cache slave.reply

def FedAll (lua : Lua) (m : Master) : Prop :=
  ∀ slave ∈ m.slaves, Fed lua m.scriptCache slave

/-- Replication keeps its replicas fed and only ever flushes the cache. -/
def Kept (lua : Lua) (cache : List Bytes) (m : Master) : Prop :=
  FedAll lua m ∧ (m.scriptCache = cache ∨ m.scriptCache = [])

/-- A command that has nothing to do with scripts. -/
structure Ordinary (argv : List Bytes) : Prop where
  eval : isText "eval" (argv.getD 0 []) = false
  evalsha : isText "evalsha" (argv.getD 0 []) = false
  script : isText "script" (argv.getD 0 []) = false

variable {lua : Lua} {cache cache' : List Bytes} {slave : Slave}
  {m m' : Master} {argv : List Bytes} {ok forked : Bool} {opened : ℕ → Bool}

theorem Fed.mono (hfed : Fed lua cache slave)
    (hcache : ∀ known, Knows cache known → Knows cache' known) :
    Fed lua cache' slave := by
  unfold Fed at hfed ⊢
  cases hstate : slave.replstate with
  | waitBgsaveStart => simpa [hstate] using hfed
  | waitBgsaveEnd | sendBulk =>
    rw [hstate] at hfed
    exact Primed.mono hfed hcache
  | online =>
    rw [hstate] at hfed
    exact fun hfile => (hfed hfile).mono hcache

theorem Fed.feed (hfed : Fed lua cache slave) (hargv : Sendable argv)
    (haccepted : Accepted lua cache cache' argv) (slaveseldb : Option ℕ)
    (dictid : ℕ) :
    Fed lua cache' (slave.feed ((selectcmd slaveseldb dictid).flatMap vector)
      (vector argv)) := by
  unfold Fed Slave.feed at *
  cases hstate : slave.replstate with
  | waitBgsaveStart =>
    rw [hstate] at hfed
    simp only [if_pos, append_nil]
    exact Primed.select hfed slaveseldb dictid
  | waitBgsaveEnd | sendBulk =>
    rw [hstate] at hfed
    exact Primed.feed hfed hargv haccepted slaveseldb dictid
  | online =>
    rw [hstate] at hfed
    exact fun hfile => (hfed hfile).feed hargv haccepted slaveseldb dictid

theorem fed_replicationFeedSlaves (hargv : Sendable argv)
    (haccepted : Accepted lua cache cache' argv) (dictid : ℕ)
    (hfed : ∀ slave ∈ m.slaves, Fed lua cache slave) :
    ∀ slave ∈ (m.replicationFeedSlaves dictid argv).slaves,
      Fed lua cache' slave := by
  intro slave' hmem
  rw [replicationFeedSlaves] at hmem
  split at hmem
  · rename_i hnobody
    obtain ⟨-, hnone⟩ : m.backlog = none ∧ m.slaves = [] := by
      simpa using hnobody
    rw [hnone] at hmem
    cases hmem
  · obtain ⟨slave, hslave, rfl⟩ := mem_map.1 hmem
    exact (hfed slave hslave).feed hargv haccepted _ _

theorem scriptCache_replicationFeedSlaves (m : Master) (dictid : ℕ)
    (argv : List Bytes) :
    (m.replicationFeedSlaves dictid argv).scriptCache = m.scriptCache := by
  rw [replicationFeedSlaves]
  split
  · rfl
  · dsimp only
    rw [feedReplicationBacklog.eq_def]
    split <;> rfl

theorem accepted_ordinary (hargv : Ordinary argv) (cache : List Bytes) :
    Accepted lua cache cache argv := by
  intro known hknows
  refine ⟨known, ?_, hknows⟩
  simp only [receive, hargv.eval, hargv.evalsha, hargv.script]
  rfl

theorem kept_becomeSlave (hkept : Kept lua cache m) {c : ℕ}
    {replstate : ReplState}
    (hslave : Fed lua m.scriptCache ⟨c, replstate, reply, none⟩) :
    Kept lua cache (m.becomeSlave c replstate reply) := by
  obtain ⟨hslaves, -, -, -, -, hcache⟩ := rest_becomeSlave m c replstate reply
  rw [Kept, FedAll, hslaves, hcache]
  refine ⟨fun slave' hmem => ?_, hkept.2⟩
  obtain hold | hnew := mem_append.1 hmem
  · exact hkept.1 slave' hold
  · obtain rfl := mem_singleton.1 hnew
    exact hslave

theorem FedAll.flush (hfed : FedAll lua m) :
    FedAll lua { m with scriptCache := [] } :=
  fun slave hmem => (hfed slave hmem).mono fun _ _ => knows_nil _

/-- A replica that joins a running save has been sent what the other has. -/
theorem kept_fullResync (hkept : Kept lua cache m) {c : ℕ}
    (hresync : FullResync m c m') : Kept lua cache m' := by
  cases hresync with
  | joined hslave _ hstate _ =>
    have hjoined := hkept.1 _ hslave
    rw [Fed, hstate] at hjoined
    exact kept_becomeSlave hkept hjoined
  | waits => exact kept_becomeSlave hkept (primed_nil lua)
  | refused => exact hkept
  | forked =>
    have hforked : Kept lua cache
        { m with rdbChild := some m.executed, scriptCache := [] } :=
      ⟨hkept.1.flush, Or.inr rfl⟩
    exact kept_becomeSlave hforked (primed_nil lua)

theorem kept_syncCommand (hkept : Kept lua cache m) (request : Master.Request)
    (forked : Bool) : Kept lua cache (m.syncCommand request forked).1 := by
  have hnext : Kept lua cache { m with nextId := m.nextId + 1 } := hkept
  cases request with
  | sync => exact kept_fullResync hnext (fullResync_cases _ _ forked)
  | psync runid offset =>
    rw [syncCommand]
    split
    · refine ⟨fun slave hmem => ?_, hkept.2⟩
      obtain hold | hnew := mem_append.1 hmem
      · exact hkept.1 slave hold
      · obtain rfl := mem_singleton.1 hnew
        exact fun hfile => by cases hfile
    · exact hnext
    · exact kept_fullResync hnext (fullResync_cases _ _ forked)

/-- Replicas that waited for a save to start are there only if the cache is
flushed. -/
theorem Fed.update (hfed : Fed lua cache slave) {file : Option Snapshot}
    {slave' : Slave} (hupdate : SlaveUpdate ok file slave slave')
    (hstart : slave.replstate = .waitBgsaveStart → cache = []) :
    Fed lua cache slave' := by
  cases hupdate with
  | started hstate =>
    rw [Fed, hstate] at hfed
    rw [Fed, hstart hstate]
    exact hfed
  | saved hstate =>
    rw [Fed, hstate] at hfed
    exact hfed
  | same => exact hfed

theorem kept_updated (hkept : Kept lua cache m)
    (hupdated : Updated m ok opened forked m') : Kept lua cache m' := by
  have hmem : ∀ slave' ∈ m'.slaves, _ := fun _ => hupdated.mem
  cases hupdated with
  | kept hnone =>
    refine ⟨fun slave' hslave' => ?_, hkept.2⟩
    obtain ⟨slave, hslave, hupdate⟩ := hmem slave' hslave'
    exact (hkept.1 slave hslave).update hupdate fun hstate =>
      absurd hstate (hnone slave hslave)
  | forked | refused =>
    refine ⟨fun slave' hslave' => ?_, Or.inr rfl⟩
    obtain ⟨slave, hslave, hupdate⟩ := hmem slave' hslave'
    exact (hkept.1.flush slave hslave).update hupdate fun _ => rfl

theorem kept_step {event : Master.Event}
    (hwrite : ∀ w, event = .write w → Sendable w.2 ∧ Ordinary w.2)
    (hkept : Kept lua cache m) : Kept lua cache (m.step event) := by
  cases event with
  | write w =>
    obtain ⟨hsendable, hordinary⟩ := hwrite w rfl
    rw [step, write, Kept, FedAll, scriptCache_replicationFeedSlaves]
    exact ⟨fed_replicationFeedSlaves hsendable
      (accepted_ordinary hordinary _) w.1 hkept.1, hkept.2⟩
  | sync request forked => exact kept_syncCommand hkept request forked
  | bgsave forked =>
    rw [step, bgsaveCommand]
    cases hsave : m.rdbSaveBackground forked with
    | none => exact hkept
    | some m' =>
      obtain ⟨-, rfl⟩ := rdbSaveBackground_eq_some hsave
      exact hkept
  | save =>
    rw [step, saveCommand]
    split <;> exact hkept
  | saveDone exit opened forked =>
    rw [step, backgroundSaveDoneHandler.eq_def]
    split
    · exact hkept
    rename_i snapshot hchild
    have hended : Kept lua cache { m with
        rdbChild := none
        rdbFile := if exit = Master.Exit.success then some snapshot
          else m.rdbFile } := hkept
    exact kept_updated hended (updated_cases _ _ _ _)
  | sentBulk id =>
    refine ⟨fun slave' hmem => ?_, hkept.2⟩
    obtain ⟨slave, hslave, rfl⟩ := mem_map.1 hmem
    split
    · rename_i hsent
      have hslave' := hkept.1 slave hslave
      rw [Fed, hsent.2] at hslave'
      exact fun _ => hslave'
    · exact hkept.1 slave hslave
  | freeClient id =>
    exact ⟨fun slave hmem => hkept.1 slave (mem_of_mem_filter hmem), hkept.2⟩
  | freeBacklog =>
    rw [step, freeReplicationBacklog]
    split <;> exact hkept
  | resizeBacklog newsize =>
    rw [step, resizeReplicationBacklog]
    split <;> exact hkept

end Replicas

/-! ## Commands -/

section Commands

/-- A propagation to the replicas and to the log. -/
def Effect.everywhere (effect : Effect) : Prop :=
  effect.dirty = true ∨ effect.forceRepl = true ∧ effect.forceAof = true

/-- What the procedure of a command guarantees to `call`: the vector can be
sent to receivers that know what was in the cache, and they then know what is
in it now; if they get nothing, the cache has not grown. -/
structure Announces (lua : Lua) (s s' : Server) (argv : List Bytes)
    (effect : Effect) : Prop where
  aof : s'.aof = s.aof
  slaves : s'.repl.slaves = s.repl.slaves
  bodies : ∀ body ∈ s'.luaScripts, (body.length : ℤ) ≤ maxBulkLen
  sendable : Sendable argv
  accepted : effect ≠ Effect.nothing →
    Accepted lua s.scriptCache s'.scriptCache argv
  kept : effect.everywhere ∨
    ∀ known, Knows s.scriptCache known → Knows s'.scriptCache known

variable {lua : Lua} {s : Server} {argv : List Bytes} {run : Effect}

theorem length_getD_le (hsendable : Sendable argv) (j : ℕ) :
    ((argv.getD j []).length : ℤ) ≤ maxBulkLen := by
  rcases lt_or_ge j argv.length with hj | hj
  · rw [getD_eq_getElem _ _ hj]
    exact hsendable.length_le _ (getElem_mem hj)
  · rw [getD_eq_default _ _ hj]
    decide

theorem sendable_eval (hsendable : Sendable argv) (hargc : 3 ≤ argv.length)
    (hbody : (body.length : ℤ) ≤ maxBulkLen) :
    Sendable (ascii "EVAL" :: body :: argv.drop 2) := by
  refine ⟨cons_ne_nil _ _, ?_, ?_⟩
  · have hcount := hsendable.count_le
    simp only [length_cons, length_drop]
    omega
  intro arg hmem
  obtain rfl | hmem := mem_cons.1 hmem
  · decide
  obtain rfl | hmem := mem_cons.1 hmem
  · exact hbody
  · exact hsendable.length_le arg (mem_of_mem_drop hmem)

/-- An `EVALSHA` whose digest is not in the cache is propagated. -/
def Sent (s : Server) (argv : List Bytes) (run : Effect) : Prop :=
  isText "evalsha" (argv.getD 0 []) = true →
    replicationScriptCacheExists s.scriptCache (argv.getD 1 []) = false →
      run.everywhere

variable (hsendable : Sendable argv)
  (hbodies : ∀ body ∈ s.luaScripts, (body.length : ℤ) ≤ maxBulkLen)

include hsendable hbodies

theorem announces_nothing : Announces lua s s argv Effect.nothing :=
  ⟨rfl, rfl, hbodies, hsendable, fun hne => absurd rfl hne,
    Or.inr fun _ hknows => hknows⟩

/-- Scripts are created by commands that carry the body. -/
theorem announces_body (hbody : (body.length : ℤ) ≤ maxBulkLen)
    (hreceive : ∀ known,
      receive lua known argv = some (lua.sha1hex body :: known)) :
    Announces lua s s argv run ∧
      ∀ s', s.luaCreateFunction lua body = some s' →
        Announces lua s s' argv run := by
  have haccepted : Accepted lua s.scriptCache s.scriptCache argv :=
    fun known hknows => ⟨_, hreceive known, hknows.cons _⟩
  refine ⟨⟨rfl, rfl, hbodies, hsendable, fun _ => haccepted,
    Or.inr fun _ hknows => hknows⟩, fun s' hcreate => ?_⟩
  rw [Server.luaCreateFunction] at hcreate
  split at hcreate
  · cases hcreate
    refine ⟨rfl, rfl, fun body' hmem => ?_, hsendable, fun _ => haccepted,
      Or.inr fun _ hknows => hknows⟩
    obtain hold | hnew := mem_append.1 hmem
    · exact hbodies body' hold
    · rw [mem_singleton.1 hnew]
      exact hbody
  · cases hcreate

theorem announces_evalCommand
    (hname : isText "eval" (argv.getD 0 []) = true) :
    Announces lua s (s.evalCommand lua argv run).1
      (s.evalCommand lua argv run).2.1 (s.evalCommand lua argv run).2.2 := by
  have hreceive : ∀ known, receive lua known argv =
      some (lua.sha1hex (argv.getD 1 []) :: known) := by
    intro known
    rw [receive]
    exact if_pos hname
  obtain ⟨hsame, hcreated⟩ := announces_body hsendable hbodies
    (length_getD_le hsendable 1) hreceive
  rw [Server.evalCommand]
  split
  · split
    · exact hsame
    split
    · exact announces_nothing hsendable hbodies
    · rename_i s' hcreate
      exact hcreated s' hcreate
  · exact announces_nothing hsendable hbodies

theorem announces_scriptCommand
    (heval : isText "eval" (argv.getD 0 []) = false)
    (hevalsha : isText "evalsha" (argv.getD 0 []) = false)
    (hname : isText "script" (argv.getD 0 []) = true) :
    Announces lua s (s.scriptCommand lua argv).1
      (s.scriptCommand lua argv).2.1 (s.scriptCommand lua argv).2.2 := by
  have hscript : ∀ known, receive lua known argv =
      if argv.length = 2 ∧ isText "flush" (argv.getD 1 []) then some []
      else if argv.length = 3 ∧ isText "load" (argv.getD 1 []) then
        some (lua.sha1hex (argv.getD 2 []) :: known)
      else some known := by
    intro known
    simp only [receive, heval, hevalsha, hname, Bool.false_eq_true, if_false,
      if_true]
  rw [Server.scriptCommand]
  split
  · rename_i hflush
    refine ⟨rfl, rfl, fun _ hmem => (by cases hmem), hsendable,
      fun _ known _ => ⟨[], ?_, knows_nil _⟩, Or.inl (Or.inl rfl)⟩
    rw [hscript, if_pos hflush]
  rename_i hflush
  split
  · rename_i hload
    have hreceive : ∀ known, receive lua known argv =
        some (lua.sha1hex (argv.getD 2 []) :: known) := by
      intro known
      rw [hscript, if_neg hflush, if_pos hload]
    obtain ⟨hsame, hcreated⟩ := announces_body hsendable hbodies
      (length_getD_le hsendable 2) hreceive
    rw [Server.scriptLoad]
    split
    · exact hsame
    split
    · exact announces_nothing hsendable hbodies
    · rename_i s' hcreate
      exact hcreated s' hcreate
  · exact announces_nothing hsendable hbodies

/-- The body goes out with the command that puts its digest into the cache,
provided that the command goes out. -/
theorem announces_evalShaCommand
    (heval : isText "eval" (argv.getD 0 []) = false)
    (hname : isText "evalsha" (argv.getD 0 []) = true)
    (hargc : 3 ≤ argv.length)
    (hrun : replicationScriptCacheExists s.scriptCache
      (argv.getD 1 []) = false → run.everywhere) :
    Announces lua s (s.evalShaCommand lua argv run).1
      (s.evalShaCommand lua argv run).2.1
      (s.evalShaCommand lua argv run).2.2 := by
  rw [Server.evalShaCommand]
  split
  · split
    · exact announces_nothing hsendable hbodies
    rename_i body hfound
    obtain ⟨hbody, hmem⟩ := script_eq_some hfound
    have htext := text_eq_of_script hbody
    split
    · rename_i hexists
      refine ⟨rfl, rfl, hbodies, hsendable, fun _ known hknows => ?_,
        Or.inr fun _ hknows => hknows⟩
      have hknown := hknows.of_exists hexists
      rw [htext] at hknown
      refine ⟨known, ?_, hknows⟩
      simp only [receive, heval, hname, Bool.false_eq_true, if_false,
        if_true, contains_iff_mem.2 hknown]
    rename_i habsent
    refine ⟨rfl, rfl, hbodies,
      sendable_eval hsendable hargc (hbodies body hmem),
      fun _ known hknows => ?_,
      Or.inl (hrun (Bool.not_eq_true _ ▸ habsent))⟩
    have hevalName : isText "eval" (ascii "EVAL") = true := by decide
    refine ⟨lua.sha1hex body :: known, ?_, (hknows.cons _).add ?_⟩
    · rw [receive]
      exact if_pos hevalName
    · rw [htext, hbody]
      exact mem_cons_self
  · exact announces_nothing hsendable hbodies

theorem announces_proc (hsent : Sent s argv run) :
    Announces lua s (s.proc lua argv run).1 (s.proc lua argv run).2.1
      (s.proc lua argv run).2.2 := by
  rw [Server.proc]
  split_ifs with heval hargc hevalsha hargc hscript
  · exact announces_evalCommand hsendable hbodies heval
  · exact announces_nothing hsendable hbodies
  · exact announces_evalShaCommand hsendable hbodies
      (Bool.not_eq_true _ ▸ heval) hevalsha hargc (hsent hevalsha)
  · exact announces_nothing hsendable hbodies
  · exact announces_scriptCommand hsendable hbodies
      (Bool.not_eq_true _ ▸ heval) (Bool.not_eq_true _ ▸ hevalsha) hscript
  · have hordinary : Ordinary argv := ⟨Bool.not_eq_true _ ▸ heval,
      Bool.not_eq_true _ ▸ hevalsha, Bool.not_eq_true _ ▸ hscript⟩
    exact ⟨rfl, rfl, hbodies, hsendable,
      fun _ => accepted_ordinary hordinary _, Or.inr fun _ hknows => hknows⟩

end Commands

/-! ## The server -/

section Steps

structure Invariant (lua : Lua) (s : Server) : Prop where
  bodies : ∀ body ∈ s.luaScripts, (body.length : ℤ) ≤ maxBulkLen
  slaves : FedAll lua s.repl
  logs : Aof.Logs (PrimedLog lua s.scriptCache) s.aof

variable {lua : Lua} {s : Server}

theorem Invariant.flush (hinv : Invariant lua s) :
    Invariant lua s.replicationScriptCacheFlush where
  bodies := hinv.bodies
  slaves := hinv.slaves.flush
  logs := hinv.logs.mono fun _ hprimed => hprimed.mono fun _ _ => knows_nil _

/-- The receivers that are sent the command accept it; the others know what is
in the cache without it. -/
theorem Announces.propagate {s' : Server} {argv : List Bytes}
    {effect : Effect} (hinv : Invariant lua s)
    (hann : Announces lua s s' argv effect) (dictid : ℕ) :
    Invariant lua (s'.propagate dictid argv (effect.forceRepl || effect.dirty)
      (effect.forceAof || effect.dirty)) := by
  have hslaves : ∀ slave ∈ s'.repl.slaves, Fed lua s.scriptCache slave := by
    rw [hann.slaves]
    exact hinv.slaves
  have hlogs : Aof.Logs (PrimedLog lua s.scriptCache) s'.aof := by
    rw [hann.aof]
    exact hinv.logs
  have hcache : (s'.propagate dictid argv (effect.forceRepl || effect.dirty)
      (effect.forceAof || effect.dirty)).scriptCache = s'.scriptCache := by
    rw [Server.propagate, Server.scriptCache]
    dsimp only
    split
    · exact scriptCache_replicationFeedSlaves _ _ _
    · rfl
  refine ⟨hann.bodies, ?_, ?_⟩
  · have hfed : ∀ slave ∈ (s'.propagate dictid argv
        (effect.forceRepl || effect.dirty)
        (effect.forceAof || effect.dirty)).repl.slaves,
        Fed lua s'.scriptCache slave := by
      rw [Server.propagate]
      dsimp only
      split
      · rename_i hrepl
        refine fed_replicationFeedSlaves hann.sendable (hann.accepted ?_)
          dictid hslaves
        rintro rfl
        cases hrepl
      rename_i hrepl
      refine fun slave hmem => (hslaves slave hmem).mono
        (hann.kept.resolve_left fun heverywhere => hrepl ?_)
      rcases heverywhere with hdirty | ⟨hforced, -⟩ <;> simp [*]
    intro slave hmem
    rw [show (s'.propagate dictid argv _ _).repl.scriptCache = _ from hcache]
    exact hfed slave hmem
  · rw [hcache, Server.propagate]
    dsimp only
    split
    · rename_i haof
      refine hlogs.propagate 0 .other dictid argv fun fp hprimed =>
        hprimed.feed hann.sendable (hann.accepted ?_) _ _
      rintro rfl
      cases haof
    rename_i haof
    refine hlogs.mono fun fp hprimed => hprimed.mono
      (hann.kept.resolve_left fun heverywhere => haof ?_)
    rcases heverywhere with hdirty | ⟨-, hforced⟩ <;> simp [*]

/-- The events the result is about: an `EVALSHA` that puts its digest into the
cache is propagated, and the file that a child writes can be read. -/
def Sound (lua : Lua) (s : Server) : Event → Prop
  | .command _ argv run => Sendable argv ∧ Sent s argv run
  | .repl event => ∀ w, event = .write w → Sendable w.2 ∧ Ordinary w.2
  | .rewriteAof tmpfile | .startAof tmpfile =>
    (resolveLog lua tmpfile).isSome
  | _ => True

theorem primedLog_of_isSome (hload : (resolveLog lua fp).isSome) :
    PrimedLog lua [] fp := by
  obtain ⟨known, hknown⟩ := Option.isSome_iff_exists.1 hload
  exact ⟨known, hknown, knows_nil _⟩

theorem invariant_startAppendOnly {tmpfile : Bytes} (hinv : Invariant lua s)
    (htmpfile : (resolveLog lua tmpfile).isSome) :
    Invariant lua (s.startAppendOnly tmpfile) := by
  rw [Server.startAppendOnly]
  split
  · rename_i hchild
    refine ⟨hinv.bodies, hinv.slaves, ?_⟩
    have hopened : Aof.Logs (PrimedLog lua s.scriptCache)
        { s.aof with fd := true } :=
      ⟨fun _ => rfl, hinv.logs.log, hinv.logs.rewritten, hinv.logs.reset⟩
    have hstart : s.aof.startAppendOnly tmpfile = { s.aof with fd := true } := by
      simp [Aof.Server.startAppendOnly,
        Aof.Server.rewriteAppendOnlyFileBackground, hchild]
    rw [hstart]
    exact hopened
  · exact ⟨hinv.bodies, hinv.slaves.flush,
      hinv.flush.logs.start (primedLog_of_isSome htmpfile)⟩

theorem invariant_step {event : Event} (hsound : Sound lua s event)
    (hinv : Invariant lua s) : Invariant lua (s.step lua event) := by
  cases event with
  | command dictid argv run =>
    exact (announces_proc hsound.1 hinv.bodies hsound.2).propagate hinv
      dictid
  | repl event =>
    obtain ⟨hslaves, hcache⟩ := kept_step hsound ⟨hinv.slaves, Or.inl rfl⟩
    refine ⟨hinv.bodies, hslaves,
      hinv.logs.mono fun fp hprimed => hprimed.mono fun known hknows => ?_⟩
    obtain hsame | hflushed := hcache
    · rw [Server.step, Server.scriptCache, hsame]
      exact hknows
    · rw [Server.step, Server.scriptCache, hflushed]
      exact knows_nil known
  | cron =>
    rw [Server.step, Server.replicationCron]
    split
    · exact hinv.flush
    · exact hinv
  | flushAof => exact ⟨hinv.bodies, hinv.slaves, hinv.logs.flush⟩
  | rewriteAof tmpfile =>
    rw [Server.step, Server.rewriteAppendOnlyFileBackground.eq_def]
    split
    · exact hinv
    · rename_i aof hstart
      exact ⟨hinv.bodies, hinv.slaves.flush,
        hinv.flush.logs.rewriteStart (primedLog_of_isSome hsound) hstart⟩
  | rewriteAofDone success opened renamed =>
    exact ⟨hinv.bodies, hinv.slaves,
      hinv.logs.rewriteDone success opened renamed⟩
  | startAof tmpfile =>
    rw [Server.step]
    split
    · exact invariant_startAppendOnly hinv hsound
    · exact hinv
  | stopAof =>
    rw [Server.step]
    split
    · exact hinv
    · exact ⟨hinv.bodies, hinv.slaves, hinv.logs.stop⟩

end Steps

/-! ## Whole runs -/

def Server.runAll (lua : Lua) (s : Server) (events : List Event) : Server :=
  events.foldl (Server.step lua) s

def SoundAll (lua : Lua) (s : Server) : List Event → Prop
  | [] => True
  | event :: events =>
    Sound lua s event ∧ SoundAll lua (s.step lua event) events

/-- A server without replicas that has just loaded its log, or that runs
without one. -/
structure Initial (lua : Lua) (s : Server) : Prop where
  bodies : ∀ body ∈ s.luaScripts, (body.length : ℤ) ≤ maxBulkLen
  slaves : s.repl.slaves = []
  loaded : s.aof.aofState ≠ .off → s.aof.aofState = .on ∧ s.aof.fd = true ∧
    PrimedLog lua s.scriptCache s.aof.file
  aofBuf : s.aof.aofBuf = []
  child : s.aof.child = none
  rewriteBuf : s.aof.rewriteBuf = []

theorem Initial.invariant {lua : Lua} {s : Server}
    (hinitial : Initial lua s) : Invariant lua s where
  bodies := hinitial.bodies
  slaves slave hmem := by
    rw [hinitial.slaves] at hmem
    cases hmem
  logs := by
    refine ⟨fun hon => (hinitial.loaded hon).2.1, fun hon => ?_,
      fun _ tmpfile hchild => ?_, fun _ => hinitial.rewriteBuf⟩
    · rw [hinitial.aofBuf, append_nil]
      exact (hinitial.loaded (by rw [hon]; decide)).2.2
    · rw [hinitial.child] at hchild
      cases hchild

theorem invariant_runAll {lua : Lua} {s : Server} {events : List Event}
    (hsound : SoundAll lua s events) (hinv : Invariant lua s) :
    Invariant lua (s.runAll lua events) := by
  induction events generalizing s with
  | nil => exact hinv
  | cons event events ih =>
    exact ih hsound.2 (invariant_step hsound.1 hinv)

theorem Fed.resolves {lua : Lua} {cache : List Bytes} {slave : Slave}
    (hfed : Fed lua cache slave)
    (hfile : slave.replstate = .online → slave.repldbfd.isSome) :
    (resolveReplica lua slave.reply).isSome := by
  unfold Fed at hfed
  cases hstate : slave.replstate with
  | waitBgsaveStart | waitBgsaveEnd | sendBulk =>
    rw [hstate] at hfed
    exact Primed.resolves hfed
  | online =>
    rw [hstate] at hfed
    exact (hfed (hfile hstate)).resolves

theorem PrimedLog.resolves {lua : Lua} {cache : List Bytes}
    (hprimed : PrimedLog lua cache fp) : (resolveLog lua fp).isSome := by
  obtain ⟨known, hload, -⟩ := hprimed
  rw [hload]
  rfl

/-- In a run where every `EVALSHA` that puts its digest into the cache is
propagated, every `EVALSHA` sent can be resolved from the bodies sent before it
on the same stream: the queue of a replica that is, or was, sent a snapshot,
the log, and the log that a running rewrite is going to leave. -/
theorem evalsha_resolvable (lua : Lua) {s : Server}
    (hinitial : Initial lua s) {events : List Event}
    (hsound : SoundAll lua s events) :
    (∀ slave ∈ (s.runAll lua events).repl.slaves,
      (slave.replstate = .online → slave.repldbfd.isSome) →
        (resolveReplica lua slave.reply).isSome) ∧
    ((s.runAll lua events).aof.aofState = .on →
      (resolveLog lua ((s.runAll lua events).aof.file ++
        (s.runAll lua events).aof.aofBuf)).isSome) ∧
    ((s.runAll lua events).aof.aofState ≠ .off →
      ∀ tmpfile, (s.runAll lua events).aof.child = some tmpfile →
        (resolveLog lua (tmpfile ++ Aof.aofRewriteBufferWrite
          (s.runAll lua events).aof.rewriteBuf)).isSome) := by
  have hinv := invariant_runAll hsound hinitial.invariant
  exact ⟨fun slave hmem => (hinv.slaves slave hmem).resolves,
    fun hon => (hinv.logs.log hon).resolves,
    fun hstarted tmpfile hchild =>
      (hinv.logs.rewritten hstarted tmpfile hchild).resolves⟩

section Runs

/-- A script that writes if its key is there. -/
def delScript : Bytes := ascii "return redis.call('del',KEYS[1])"

/-- The interpreter, of which only one script is asked. -/
def delLua : Lua where
  sha1hex := sha1hex
  sha1hex_length := length_sha1hex
  sha1hex_ne_zero _ _ := ne_zero_of_mem_sha1hex
  compiles body := body = delScript

/-- A master with an empty log. -/
def logging : Server where
  luaScripts := []
  repl := .init [] 16384 (by decide) []
  aof := {
    data := ()
    inExec := false
    aofState := .on
    fd := true
    file := []
    aofBuf := []
    selectedDb := none
    child := none
    rewriteBuf := [] }

def writes : Effect := ⟨true, false, false⟩

/-- A replica attaches, and a client runs the script on a key that is not
there. -/
def attached : List Event :=
  [.repl (.sync .sync true), .repl (.saveDone .success (fun _ => true) true),
    .repl (.sentBulk 0),
    .command 0 [ascii "EVAL", delScript, ascii "1", ascii "k"] Effect.nothing]

def evalsha : List Bytes :=
  [ascii "EVALSHA", ascii "dd818e8f932b442a1fa2b44d767baa93d8031d7a",
    ascii "1", ascii "k"]

/-- The key is set and deleted by the script. -/
def setAndDelete : List Event :=
  [.command 0 [ascii "SET", ascii "k", ascii "v"] writes,
    .command 0 evalsha writes]

/-- The first writing call sends the body, the second one the digest. -/
theorem evalsha_resolvable_writing :
    (logging.runAll delLua (attached ++ setAndDelete ++
      setAndDelete)).repl.slaves.map
        (fun slave => (commandsOf slave.reply).map (·.head?)) =
      [[some (ascii "SELECT"), some (ascii "SET"), some (ascii "EVAL"),
        some (ascii "SET"), some (ascii "EVALSHA")]] ∧
    ∀ slave ∈ (logging.runAll delLua (attached ++ setAndDelete ++
      setAndDelete)).repl.slaves,
      (slave.replstate = .online → slave.repldbfd.isSome) →
        (resolveReplica delLua slave.reply).isSome := by
  have hinitial : Initial delLua logging :=
    ⟨fun _ hmem => (by cases hmem), rfl,
      fun _ => ⟨rfl, rfl, [], rfl, knows_nil _⟩, rfl, rfl, rfl⟩
  have hsound : SoundAll delLua logging
      (attached ++ setAndDelete ++ setAndDelete) := by
    refine ⟨fun _ h => (by cases h), fun _ h => (by cases h),
      fun _ h => (by cases h), ⟨by decide, fun h => ?_⟩,
      ⟨by decide, fun _ _ => Or.inl rfl⟩,
      ⟨by decide, fun _ _ => Or.inl rfl⟩,
      ⟨by decide, fun _ _ => Or.inl rfl⟩,
      ⟨by decide, fun _ _ => Or.inl rfl⟩, trivial⟩
    exact absurd h (by decide)
  exact ⟨by decide +kernel, (evalsha_resolvable _ hinitial hsound).1⟩

/-- A call that does not write comes first: the digest goes into the cache, and
the writing call is sent as an `EVALSHA` to a replica and a log that have never
seen the script. -/
theorem evalsha_unresolvable :
    evalsha.getD 1 [] = sha1hex delScript ∧
    (logging.runAll delLua (attached ++
      .command 0 evalsha Effect.nothing :: setAndDelete)).repl.slaves.map
        (fun slave => (slave.repldbfd.isSome, commandsOf slave.reply,
          resolveReplica delLua slave.reply)) =
      [(true, [[ascii "SELECT", ascii "0"],
        [ascii "SET", ascii "k", ascii "v"], evalsha], none)] ∧
    (logging.runAll delLua (attached ++
      .command 0 evalsha Effect.nothing :: setAndDelete)).aof.aofState = .on ∧
    resolveLog delLua
      ((logging.runAll delLua (attached ++
        .command 0 evalsha Effect.nothing :: setAndDelete)).aof.file ++
      (logging.runAll delLua (attached ++
        .command 0 evalsha Effect.nothing :: setAndDelete)).aof.aofBuf) =
      none :=
  ⟨by decide +kernel, by decide +kernel, by decide +kernel, by decide +kernel⟩

end Runs

end RedisV8.Scripting
