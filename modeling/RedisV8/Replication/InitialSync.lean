import RedisV8.Replication.Master

/-!
# The initial synchronisation

A replica is in step with the master when its file followed by its queue gives
the master's data set.  A queue belongs to the child that is running, or to
the file that was opened; for a replica that still waits for a save to start
it holds no writes.  Two things break the tie to one fork: a child killed by a
signal, after which an older file is sent, and a save that cannot be started
for the replicas that waited for it.
-/

namespace RedisV8.Replication

open Util Networking List Master

variable {dbnum : ℕ}

/-! ## What the steps do -/

section Outcomes

variable {m m' : Master} {ok forked : Bool} {opened : ℕ → Bool}
  {file : Option Snapshot} {slave slave' : Slave}

theorem rdbSaveBackground_eq_some
    (hsave : m.rdbSaveBackground forked = some m') :
    m.rdbChild = none ∧ m' = { m with rdbChild := some m.executed } := by
  rw [rdbSaveBackground] at hsave
  split at hsave
  · cases hsave
  rename_i hidle
  split at hsave
  · cases hsave
    exact ⟨Option.not_isSome_iff_eq_none.1 hidle, rfl⟩
  · cases hsave

/-- The end of `syncCommand`, except for the backlog. -/
theorem rest_becomeSlave (m : Master) (c : ℕ) (replstate : ReplState)
    (reply : Bytes) :
    (m.becomeSlave c replstate reply).slaves =
        m.slaves ++ [⟨c, replstate, reply, none⟩] ∧
      (m.becomeSlave c replstate reply).executed = m.executed ∧
      (m.becomeSlave c replstate reply).rdbChild = m.rdbChild ∧
      (m.becomeSlave c replstate reply).slaveseldb = none ∧
      (m.becomeSlave c replstate reply).nextId = m.nextId ∧
      (m.becomeSlave c replstate reply).scriptCache = m.scriptCache := by
  rw [becomeSlave, createFirstBacklog]
  split <;> exact ⟨rfl, rfl, rfl, rfl, rfl, rfl⟩

/-- The outcomes of a full resynchronisation. -/
inductive FullResync (m : Master) (c : ℕ) : Master → Prop
  | joined {slave : Slave} (hslave : slave ∈ m.slaves)
      (hfound : m.slaves.find? (·.replstate = .waitBgsaveEnd) = some slave)
      (hstate : slave.replstate = .waitBgsaveEnd)
      (hchild : m.rdbChild.isSome = true) :
      FullResync m c (m.becomeSlave c .waitBgsaveEnd slave.reply)
  | waits : FullResync m c (m.becomeSlave c .waitBgsaveStart [])
  | refused : FullResync m c m
  | forked (hidle : m.rdbChild = none) :
      FullResync m c (becomeSlave
        { m with rdbChild := some m.executed, scriptCache := [] } c
        .waitBgsaveEnd [])

theorem fullResync_cases (m : Master) (c : ℕ) (forked : Bool) :
    FullResync m c (m.fullResync c forked) := by
  rw [fullResync]
  split
  · rename_i hchild
    split
    · rename_i slave hfound
      exact .joined (mem_of_find?_eq_some hfound) hfound
        (by simpa using find?_some hfound) hchild
    · exact .waits
  split
  · exact .refused
  · rename_i m' hsave
    obtain ⟨hidle, rfl⟩ := rdbSaveBackground_eq_some hsave
    exact .forked hidle

/-- One round of the loop of `updateSlavesWaitingBgsave`, for a replica that
is not freed. -/
inductive SlaveUpdate (ok : Bool) (file : Option Snapshot) :
    Slave → Slave → Prop
  | started {slave : Slave} (hstate : slave.replstate = .waitBgsaveStart) :
      SlaveUpdate ok file slave { slave with replstate := .waitBgsaveEnd }
  | saved {slave : Slave} (hstate : slave.replstate = .waitBgsaveEnd)
      (hok : ok = true) : SlaveUpdate ok file slave
        { slave with replstate := .sendBulk, repldbfd := file }
  | same {slave : Slave}
      (hstate : slave.replstate = .sendBulk ∨ slave.replstate = .online) :
      SlaveUpdate ok file slave slave

theorem updateSlave_eq_some
    (hupdate : updateSlave ok file opened slave = some slave') :
    SlaveUpdate ok file slave slave' := by
  rw [updateSlave] at hupdate
  split at hupdate
  · rename_i hstate
    cases hupdate
    exact .started hstate
  · rename_i hstate
    split at hupdate
    · rename_i hopened
      cases hupdate
      simp only [Bool.and_eq_true] at hopened
      exact .saved hstate hopened.1.1
    · cases hupdate
  · rename_i hstate
    cases hupdate
    exact .same (.inl hstate)
  · rename_i hstate
    cases hupdate
    exact .same (.inr hstate)

theorem SlaveUpdate.id_eq (hupdate : SlaveUpdate ok file slave slave') :
    slave'.id = slave.id := by
  cases hupdate <;> rfl

/-- The outcomes of `updateSlavesWaitingBgsave`. -/
inductive Updated (m : Master) (ok : Bool) (opened : ℕ → Bool)
    (forked : Bool) : Master → Prop
  | kept (hnone : ∀ slave ∈ m.slaves, slave.replstate ≠ .waitBgsaveStart) :
      Updated m ok opened forked { m with
        slaves := m.slaves.filterMap (updateSlave ok m.rdbFile opened) }
  | forked :
      Updated m ok opened forked { m with
        slaves := m.slaves.filterMap (updateSlave ok m.rdbFile opened)
        scriptCache := []
        rdbChild := some m.executed }
  | refused {slave : Slave} (hslave : slave ∈ m.slaves)
      (hstate : slave.replstate = .waitBgsaveStart)
      (hrefused : m.rdbChild = none → forked = false) :
      Updated m ok opened forked { m with
        slaves := (m.slaves.filterMap (updateSlave ok m.rdbFile opened)).filter
          (·.replstate ≠ .waitBgsaveStart)
        scriptCache := [] }

theorem updated_cases (m : Master) (ok : Bool) (opened : ℕ → Bool)
    (forked : Bool) :
    Updated m ok opened forked
      (m.updateSlavesWaitingBgsave ok opened forked) := by
  rw [updateSlavesWaitingBgsave]
  dsimp only
  split
  · rename_i hstart
    obtain ⟨slave, hslave, hstate⟩ := any_eq_true.1 hstart
    split
    · rename_i m' hsave
      obtain ⟨-, rfl⟩ := rdbSaveBackground_eq_some hsave
      exact .forked
    · rename_i hsave
      refine .refused hslave (by simpa using hstate) fun hidle => ?_
      simpa [rdbSaveBackground, hidle] using hsave
  · rename_i hstart
    refine .kept fun slave hslave hstate => hstart ?_
    exact any_eq_true.2 ⟨slave, hslave, by simpa using hstate⟩

theorem Updated.mem (hupdated : Updated m ok opened forked m')
    (hmem : slave' ∈ m'.slaves) :
    ∃ slave ∈ m.slaves, SlaveUpdate ok m.rdbFile slave slave' := by
  have hupdated' : slave' ∈
      m.slaves.filterMap (updateSlave ok m.rdbFile opened) := by
    cases hupdated with
    | kept | forked => exact hmem
    | refused => exact mem_of_mem_filter hmem
  obtain ⟨slave, hslave, hupdate⟩ := mem_filterMap.1 hupdated'
  exact ⟨slave, hslave, updateSlave_eq_some hupdate⟩

end Outcomes

/-! ## Queues -/

section Queues

/-- Writes only go to the end, and the databases do not depend on them. -/
theorem applyCommands_base (db : ℕ) (executed : List Write)
    (commands : List (List Bytes)) :
    applyCommands dbnum (db, executed) commands =
      ((applyCommands dbnum (db, []) commands).1,
        executed ++ (applyCommands dbnum (db, []) commands).2) := by
  induction commands generalizing db executed with
  | nil => simp [applyCommands]
  | cons argv commands ih =>
    simp only [applyCommands, foldl_cons] at ih ⊢
    rw [applyCommand, applyCommand]
    split
    · exact ih _ _
    · dsimp only
      rw [ih db (executed ++ [(db, argv)]), ih db ([] ++ [(db, argv)])]
      simp

theorem replay_eq_append (file : Snapshot) (stream : Bytes) :
    replay dbnum file stream = file ++ replay dbnum [] stream := by
  rw [replay, replay, applyCommands_base]

/-- Loading `file` and reading `reply` gives the data set `executed`, and ends
in the database last selected for all replicas. -/
def Tracks (dbnum : ℕ) (reply : Bytes) (file executed : Snapshot)
    (slaveseldb : Option ℕ) : Prop :=
  ∃ commands db, reply = commands.flatMap vector ∧
    (∀ argv ∈ commands, Sendable argv) ∧
    applyCommands dbnum (0, file) commands = (db, executed) ∧
    ∀ dictid, slaveseldb = some dictid → dictid = db

theorem tracks_nil (executed : Snapshot) :
    Tracks dbnum [] executed executed none :=
  ⟨[], 0, rfl, fun _ hmem => (by cases hmem), rfl, fun _ h => (by cases h)⟩

theorem Tracks.forget {reply : Bytes} {file executed : Snapshot}
    {slaveseldb : Option ℕ} (htracks : Tracks dbnum reply file executed
      slaveseldb) : Tracks dbnum reply file executed none := by
  obtain ⟨commands, db, hreply, hsendable, hstate, -⟩ := htracks
  exact ⟨commands, db, hreply, hsendable, hstate, fun _ h => by cases h⟩

theorem Tracks.replay {reply : Bytes} {file executed : Snapshot}
    {slaveseldb : Option ℕ} (htracks : Tracks dbnum reply file executed
      slaveseldb) : replay dbnum file reply = executed := by
  obtain ⟨commands, db, rfl, hsendable, hstate, -⟩ := htracks
  rw [Replication.replay, commandsOf_vectors hsendable, hstate]

theorem sendable_selectcmd (slaveseldb : Option ℕ) (dictid : ℕ) :
    ∀ argv ∈ selectcmd slaveseldb dictid, Sendable argv := by
  intro argv hmem
  rw [selectcmd] at hmem
  split at hmem
  · cases hmem
  obtain rfl := mem_singleton.1 hmem
  have hlength := length_natText_le dictid
  refine ⟨cons_ne_nil _ _, by simp [maxMultibulkLen], ?_⟩
  intro arg harg
  obtain rfl | rfl : arg = ascii "SELECT" ∨ arg = natText dictid := by
    simpa using harg
  · decide
  · rw [maxBulkLen]
    omega

/-- After the `SELECT`, if one is sent, the write's database is selected. -/
theorem applyCommands_selectcmd {slaveseldb : Option ℕ} {dictid db : ℕ}
    (hdbnum : dbnum ≤ 2 ^ 31) (hdictid : dictid < dbnum)
    (hdb : ∀ d, slaveseldb = some d → d = db) (executed : Snapshot) :
    applyCommands dbnum (db, executed)
      (selectcmd slaveseldb dictid) = (dictid, executed) := by
  rw [selectcmd]
  split
  · rename_i hsame
    rw [hdb dictid hsame]
    rfl
  have hselect := selectedDb_llText hdbnum hdictid db
  rw [llText_natCast] at hselect
  have hname : isText "select" (ascii "SELECT") = true := by decide
  simp [applyCommands, applyCommand, hname, hselect]

variable {w : Write}

/-- The queue of a replica that is fed. -/
theorem Tracks.write {reply : Bytes} {file executed : Snapshot}
    {slaveseldb : Option ℕ} (hdbnum : dbnum ≤ 2 ^ 31)
    (hw : Propagable dbnum w)
    (htracks : Tracks dbnum reply file executed slaveseldb) :
    Tracks dbnum
      (reply ++ (selectcmd slaveseldb w.1).flatMap vector ++ vector w.2)
      file (executed ++ [w]) (some w.1) := by
  obtain ⟨commands, db, rfl, hsendable, hstate, hdb⟩ := htracks
  refine ⟨commands ++ selectcmd slaveseldb w.1 ++ [w.2], w.1, ?_, ?_, ?_, ?_⟩
  · simp
  · intro argv hmem
    simp only [mem_append, mem_singleton] at hmem
    obtain (hmem | hmem) | rfl := hmem
    · exact hsendable argv hmem
    · exact sendable_selectcmd _ _ argv hmem
    · exact hw.sendable
  · have hselect := applyCommands_selectcmd hdbnum hw.dictid_lt hdb executed
    rw [applyCommands] at hstate hselect
    rw [applyCommands, foldl_append, foldl_append, hstate, hselect,
      foldl_cons, applyCommand, hw.not_select,
      if_neg Bool.false_ne_true]
    rfl
  · rintro dictid ⟨⟩
    rfl

/-- The queue of a replica that waits for a save to start. -/
theorem Tracks.select {reply : Bytes} {executed : Snapshot}
    {slaveseldb : Option ℕ} (hdbnum : dbnum ≤ 2 ^ 31)
    (hw : Propagable dbnum w)
    (htracks : Tracks dbnum reply executed executed slaveseldb) :
    Tracks dbnum (reply ++ (selectcmd slaveseldb w.1).flatMap vector)
      (executed ++ [w]) (executed ++ [w]) (some w.1) := by
  obtain ⟨commands, db, rfl, hsendable, hstate, hdb⟩ := htracks
  have hnone : applyCommands dbnum (0, executed ++ [w]) commands =
      (db, executed ++ [w]) := by
    rw [applyCommands_base, Prod.mk.injEq] at hstate ⊢
    refine ⟨hstate.1, ?_⟩
    rw [self_eq_append_right.1 hstate.2.symm, append_nil]
  refine ⟨commands ++ selectcmd slaveseldb w.1, w.1, ?_, ?_, ?_, ?_⟩
  · simp
  · intro argv hmem
    obtain hmem | hmem := mem_append.1 hmem
    · exact hsendable argv hmem
    · exact sendable_selectcmd _ _ argv hmem
  · have hselect := applyCommands_selectcmd hdbnum hw.dictid_lt hdb
      (executed ++ [w])
    rw [applyCommands] at hnone hselect
    rw [applyCommands, foldl_append, hnone, hselect]
  · rintro dictid ⟨⟩
    rfl

end Queues

/-! ## Replicas in step -/

section Steps

/-- What a replica's queue has to be, by the state it is in. -/
def InStep (dbnum : ℕ) (child : Option Snapshot) (executed : Snapshot)
    (slaveseldb : Option ℕ) (slave : Slave) : Prop :=
  match slave.replstate with
  | .waitBgsaveStart =>
    Tracks dbnum slave.reply executed executed slaveseldb
  | .waitBgsaveEnd => ∃ file, child = some file ∧
      Tracks dbnum slave.reply file executed slaveseldb
  | .sendBulk => ∃ file, slave.repldbfd = some file ∧
      Tracks dbnum slave.reply file executed slaveseldb
  | .online => True

def Aligned (dbnum : ℕ) (m : Master) : Prop :=
  ∀ slave ∈ m.slaves,
    InStep dbnum m.rdbChild m.executed m.slaveseldb slave

/-- The events the result is about: every child that replicas wait for ends by
itself, and every save that has to be started for them is started. -/
def Orderly (dbnum : ℕ) (m : Master) : Master.Event → Prop
  | .write w => Propagable dbnum w
  | .saveDone exit _ forked =>
    (exit = .signal → ∀ slave ∈ m.slaves, slave.replstate ≠ .waitBgsaveEnd) ∧
    (forked = false → ∀ slave ∈ m.slaves, slave.replstate ≠ .waitBgsaveStart)
  | _ => True

variable {child : Option Snapshot} {executed : Snapshot}
  {slaveseldb : Option ℕ} {slave : Slave} {m m' : Master}

theorem InStep.forget
    (hstep : InStep dbnum child executed slaveseldb slave) :
    InStep dbnum child executed none slave := by
  unfold InStep at hstep ⊢
  cases hstate : slave.replstate with
  | waitBgsaveStart =>
    rw [hstate] at hstep
    exact hstep.forget
  | waitBgsaveEnd | sendBulk =>
    rw [hstate] at hstep
    obtain ⟨file, hfile, htracks⟩ := hstep
    exact ⟨file, hfile, htracks.forget⟩
  | online => exact trivial

/-- Without a child no replica waits for the end of one, and a new one may be
forked. -/
theorem InStep.fork (hstep : InStep dbnum none executed slaveseldb slave)
    (child : Option Snapshot) :
    InStep dbnum child executed slaveseldb slave := by
  unfold InStep at hstep ⊢
  cases hstate : slave.replstate with
  | waitBgsaveEnd =>
    rw [hstate] at hstep
    obtain ⟨file, hchild, -⟩ := hstep
    cases hchild
  | waitBgsaveStart | sendBulk => simpa [hstate] using hstep
  | online => exact trivial

theorem InStep.write (hdbnum : dbnum ≤ 2 ^ 31) {w : Write}
    (hw : Propagable dbnum w)
    (hstep : InStep dbnum child executed slaveseldb slave) :
    InStep dbnum child (executed ++ [w]) (some w.1)
      (slave.feed ((selectcmd slaveseldb w.1).flatMap vector)
        (vector w.2)) := by
  unfold InStep Slave.feed at *
  cases hstate : slave.replstate with
  | waitBgsaveStart =>
    rw [hstate] at hstep
    simp only [if_pos, append_nil]
    exact hstep.select hdbnum hw
  | waitBgsaveEnd | sendBulk =>
    rw [hstate] at hstep
    obtain ⟨file, hfile, htracks⟩ := hstep
    exact ⟨file, hfile, htracks.write hdbnum hw⟩
  | online => exact trivial

theorem aligned_write (hdbnum : dbnum ≤ 2 ^ 31) {w : Write}
    (hw : Propagable dbnum w) (haligned : Aligned dbnum m) :
    Aligned dbnum (m.write w) := by
  rw [write, replicationFeedSlaves]
  split
  · rename_i hnobody
    obtain ⟨-, hnone⟩ : m.backlog = none ∧ m.slaves = [] := by
      simpa using hnobody
    intro slave hmem
    rw [show ({ m with executed := m.executed ++ [w] } : Master).slaves = []
      from hnone] at hmem
    cases hmem
  · intro slave' hmem
    obtain ⟨slave, hslave, rfl⟩ := mem_map.1 hmem
    dsimp only
    rw [rdbChild_feed, executed_feed]
    exact (haligned slave hslave).write hdbnum hw

theorem aligned_addSlave (haligned : Aligned dbnum m)
    (hslave : InStep dbnum m.rdbChild m.executed m.slaveseldb slave) :
    Aligned dbnum (m.addSlave slave) := by
  intro slave' hmem
  obtain hold | hnew := mem_append.1 hmem
  · exact haligned slave' hold
  · obtain rfl := mem_singleton.1 hnew
    exact hslave

theorem aligned_becomeSlave (haligned : Aligned dbnum m) {c : ℕ}
    {replstate : ReplState} {reply : Bytes}
    (hslave : InStep dbnum m.rdbChild m.executed none
      ⟨c, replstate, reply, none⟩) :
    Aligned dbnum (m.becomeSlave c replstate reply) := by
  obtain ⟨hslaves, hexecuted, hchild, hseldb, -⟩ :=
    rest_becomeSlave m c replstate reply
  rw [Aligned, hslaves, hexecuted, hchild, hseldb]
  intro slave' hmem
  obtain hold | hnew := mem_append.1 hmem
  · exact (haligned slave' hold).forget
  · obtain rfl := mem_singleton.1 hnew
    exact hslave

theorem Aligned.fork (haligned : Aligned dbnum m) (hidle : m.rdbChild = none) :
    Aligned dbnum { m with rdbChild := some m.executed } := by
  intro slave hmem
  have hstep := haligned slave hmem
  rw [hidle] at hstep
  exact hstep.fork _

theorem aligned_fullResync (haligned : Aligned dbnum m) {c : ℕ}
    (hresync : FullResync m c m') : Aligned dbnum m' := by
  cases hresync with
  | joined hslave _ hstate _ =>
    have hstep := haligned _ hslave
    rw [InStep, hstate] at hstep
    obtain ⟨file, hfile, htracks⟩ := hstep
    exact aligned_becomeSlave haligned ⟨file, hfile, htracks.forget⟩
  | waits => exact aligned_becomeSlave haligned (tracks_nil _)
  | refused => exact haligned
  | forked hidle =>
    have hforked : Aligned dbnum
        { m with rdbChild := some m.executed, scriptCache := [] } :=
      haligned.fork hidle
    exact aligned_becomeSlave hforked ⟨_, rfl, tracks_nil _⟩

theorem aligned_syncCommand (haligned : Aligned dbnum m)
    (request : Master.Request) (forked : Bool) :
    Aligned dbnum (m.syncCommand request forked).1 := by
  have hnext : Aligned dbnum { m with nextId := m.nextId + 1 } := haligned
  cases request with
  | sync => exact aligned_fullResync hnext (fullResync_cases _ _ forked)
  | psync runid offset =>
    rw [syncCommand]
    split
    · exact aligned_addSlave hnext trivial
    · exact hnext
    · exact aligned_fullResync hnext (fullResync_cases _ _ forked)

/-- The file of the child that has just ended goes to the replicas that waited
for it; those that waited for it to start are tied to the next one. -/
theorem aligned_updated {ok : Bool} {opened : ℕ → Bool} {forked : Bool}
    (hidle : m.rdbChild = none)
    (hslaves : ∀ slave ∈ m.slaves, slave.replstate = .waitBgsaveEnd →
      ok = true → ∃ file, m.rdbFile = some file ∧
        Tracks dbnum slave.reply file m.executed m.slaveseldb)
    (hothers : ∀ slave ∈ m.slaves, slave.replstate ≠ .waitBgsaveEnd →
      InStep dbnum none m.executed m.slaveseldb slave)
    (hstarted : forked = false → ∀ slave ∈ m.slaves,
      slave.replstate ≠ .waitBgsaveStart)
    (hupdated : Updated m ok opened forked m') : Aligned dbnum m' := by
  have hstep : ∀ slave ∈ m.slaves, ∀ slave',
      SlaveUpdate ok m.rdbFile slave slave' → ∀ child,
      (slave.replstate = .waitBgsaveStart → child = some m.executed) →
      InStep dbnum child m.executed m.slaveseldb slave' := by
    intro slave hslave slave' hupdate child hchild
    cases hupdate with
    | started hstate =>
      have hstep := hothers slave hslave (by rw [hstate]; decide)
      rw [InStep, hstate] at hstep
      exact ⟨m.executed, hchild hstate, hstep⟩
    | saved hstate hok => exact hslaves slave hslave hstate hok
    | same hstate =>
      refine (hothers slave hslave fun hwaits => ?_).fork child
      rw [hwaits] at hstate
      rcases hstate with h | h <;> cases h
  intro slave' hmem
  obtain ⟨slave, hslave, hupdate⟩ := hupdated.mem hmem
  cases hupdated with
  | kept hnone =>
    exact hstep slave hslave slave' hupdate _ fun hstate =>
      absurd hstate (hnone slave hslave)
  | forked => exact hstep slave hslave slave' hupdate _ fun _ => rfl
  | refused hslave hstate hrefused =>
    exact absurd hstate (hstarted (hrefused hidle) _ hslave)

theorem aligned_step (hdbnum : dbnum ≤ 2 ^ 31) {event : Master.Event}
    (horderly : Orderly dbnum m event) (haligned : Aligned dbnum m) :
    Aligned dbnum (m.step event) := by
  cases event with
  | write w => exact aligned_write hdbnum horderly haligned
  | sync request forked => exact aligned_syncCommand haligned request forked
  | bgsave forked =>
    rw [step, bgsaveCommand]
    cases hsave : m.rdbSaveBackground forked with
    | none => exact haligned
    | some m' =>
      obtain ⟨hidle, rfl⟩ := rdbSaveBackground_eq_some hsave
      exact haligned.fork hidle
  | save =>
    rw [step, saveCommand]
    split <;> exact haligned
  | saveDone exit opened forked =>
    obtain ⟨hsignal, hstarted⟩ := horderly
    rw [step, backgroundSaveDoneHandler]
    cases hchild : m.rdbChild with
    | none => exact haligned
    | some file =>
      dsimp only
      refine aligned_updated ?_ ?_ ?_ ?_ (updated_cases _ _ _ _)
      · rfl
      · intro slave hslave hstate hok
        have hstep := haligned slave hslave
        rw [InStep, hstate, hchild] at hstep
        obtain ⟨file', hfile', htracks⟩ := hstep
        cases hfile'
        cases exit with
        | success => exact ⟨file, rfl, htracks⟩
        | failure => cases hok
        | signal => exact absurd hstate (hsignal rfl slave hslave)
      · intro slave hslave hstate
        have hstep := haligned slave hslave
        unfold InStep at hstep ⊢
        cases hstate' : slave.replstate with
        | waitBgsaveEnd => exact absurd hstate' hstate
        | waitBgsaveStart | sendBulk => simpa [hstate'] using hstep
        | online => exact trivial
      · exact hstarted
  | sentBulk id =>
    intro slave' hmem
    obtain ⟨slave, hslave, rfl⟩ := mem_map.1 hmem
    split
    · exact trivial
    · exact haligned slave hslave
  | freeClient id =>
    exact fun slave hmem => haligned slave (mem_of_mem_filter hmem)
  | freeBacklog =>
    rw [step, freeReplicationBacklog]
    split <;> exact haligned
  | resizeBacklog newsize =>
    rw [step, resizeReplicationBacklog]
    split <;> exact haligned

end Steps

/-! ## Whole runs -/

def Master.runAll (m : Master) (events : List Master.Event) : Master :=
  events.foldl step m

def OrderlyAll (dbnum : ℕ) (m : Master) : List Master.Event → Prop
  | [] => True
  | event :: events =>
    Orderly dbnum m event ∧ OrderlyAll dbnum (m.step event) events

theorem aligned_runAll (hdbnum : dbnum ≤ 2 ^ 31) {m : Master}
    {events : List Master.Event} (horderly : OrderlyAll dbnum m events)
    (haligned : Aligned dbnum m) : Aligned dbnum (m.runAll events) := by
  induction events generalizing m with
  | nil => exact haligned
  | cons event events ih =>
    exact ih horderly.2 (aligned_step hdbnum horderly.1 haligned)

/-- In an orderly run, the writes queued for a replica that is being sent a
file are those executed since the fork that produced the file, so that loading
the file and applying the queue gives the data set of the master. -/
theorem file_and_queue_eq_executed {D : Type} (exec : D → Write → D)
    (empty : D) (hdbnum : dbnum ≤ 2 ^ 31) (runid : Bytes) {size : ℕ}
    (hsize : 0 < size) (executed : List Write) {events : List Master.Event}
    (horderly : OrderlyAll dbnum (.init runid size hsize executed) events)
    {slave : Slave}
    (hslave : slave ∈ ((init runid size hsize executed).runAll events).slaves)
    (hsending : slave.replstate = .sendBulk) :
    ∃ file, slave.repldbfd = some file ∧
      file ++ replay dbnum [] slave.reply =
        ((init runid size hsize executed).runAll events).executed ∧
      (replay dbnum [] slave.reply).foldl exec (file.foldl exec empty) =
        (((init runid size hsize executed).runAll events).executed).foldl
          exec empty := by
  have hinit : Aligned dbnum (.init runid size hsize executed) := by
    intro slave hmem
    cases hmem
  have hstep := aligned_runAll hdbnum horderly hinit slave hslave
  rw [InStep, hsending] at hstep
  obtain ⟨file, hfile, htracks⟩ := hstep
  have hreplay := htracks.replay
  rw [replay_eq_append] at hreplay
  refine ⟨file, hfile, hreplay, ?_⟩
  rw [← foldl_append, hreplay]

/-- A replica that attaches after one write, with two more until the file is
sent. -/
theorem file_and_queue_eq_executed_attach :
    ∃ slave ∈ ((init [] 16384 (by decide) []).runAll
        [.write (0, [ascii "INCR", ascii "x"]),
          .sync (.psync (ascii "?") (-1)) true,
          .write (3, [ascii "INCR", ascii "y"]),
          .saveDone .success (fun _ => true) true,
          .write (3, [ascii "INCR", ascii "z"])]).slaves,
      slave.repldbfd = some [(0, [ascii "INCR", ascii "x"])] ∧
      ∃ file, slave.repldbfd = some file ∧
        file ++ replay 16 [] slave.reply =
          [(0, [ascii "INCR", ascii "x"]), (3, [ascii "INCR", ascii "y"]),
            (3, [ascii "INCR", ascii "z"])] := by
  have hx : Propagable 16 (0, [ascii "INCR", ascii "x"]) :=
    ⟨by decide, by decide, by decide⟩
  have hy : Propagable 16 (3, [ascii "INCR", ascii "y"]) :=
    ⟨by decide, by decide, by decide⟩
  have hz : Propagable 16 (3, [ascii "INCR", ascii "z"]) :=
    ⟨by decide, by decide, by decide⟩
  have horderly : OrderlyAll 16 (.init [] 16384 (by decide) [])
      [.write (0, [ascii "INCR", ascii "x"]),
        .sync (.psync (ascii "?") (-1)) true,
        .write (3, [ascii "INCR", ascii "y"]),
        .saveDone .success (fun _ => true) true,
        .write (3, [ascii "INCR", ascii "z"])] :=
    ⟨hx, trivial, hy, ⟨fun h => (by cases h), fun h => (by cases h)⟩, hz,
      trivial⟩
  obtain ⟨file, hfile, hqueue, -⟩ :=
    file_and_queue_eq_executed (fun n _ => n + 1) 0 (by decide) [] (by decide)
      [] horderly (mem_singleton.2 rfl) rfl
  exact ⟨_, mem_singleton.2 rfl, rfl, file, hfile, hqueue⟩

/-- A child killed by a signal: the replica gets the file of an earlier save,
and a write is missing.  A save that cannot be started for a replica that
waited for it: the replica gets the file of a later save, and a write is
applied twice. -/
theorem file_and_queue_apart :
    (∃ slave, ((init [] 16384 (by decide) []).runAll
        [.save, .write (0, [ascii "INCR", ascii "x"]),
          .sync (.psync (ascii "?") (-1)) true,
          .saveDone .signal (fun _ => true) true]).slaves = [slave] ∧
      slave.replstate = .sendBulk ∧ slave.repldbfd = some [] ∧
      replay 16 [] slave.reply = []) ∧
    ∃ slave, ((init [] 16384 (by decide) []).runAll
        [.bgsave true, .sync (.psync (ascii "?") (-1)) true,
          .saveDone .success (fun _ => true) false,
          .write (0, [ascii "INCR", ascii "x"]), .bgsave true,
          .saveDone .success (fun _ => true) true]).slaves = [slave] ∧
      slave.replstate = .sendBulk ∧
      slave.repldbfd = some [(0, [ascii "INCR", ascii "x"])] ∧
      replay 16 [] slave.reply = [(0, [ascii "INCR", ascii "x"])] :=
  ⟨⟨_, rfl, rfl, rfl, rfl⟩, ⟨_, rfl, rfl, rfl, by decide⟩⟩

end RedisV8.Replication
