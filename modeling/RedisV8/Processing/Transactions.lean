import RedisV8.Processing.Gates

/-!
# Refusals inside MULTI

A client in a MULTI block sends commands that are queued or refused.  EXEC
fails if a watched key was touched or a refusal marked the transaction.  The
redirections of the cluster, the read-only replica and the loading server
refuse a command without marking the transaction, and EXEC has to pass the same
gates.
-/

namespace RedisV8.Processing

open Util Server Keyspace Commands

/-- The refusals that call `flagTransaction`. -/
def Refusal.marks : Refusal → Bool
  | .unknownCommand _ | .arity _ | .noauth | .oom | .bgsave | .noreplicas
  | .masterdown | .slowscript => true
  | .clusterdown | .multipleKeys | .redirected _ _ _ _ | .roslave | .pubsub
  | .loading => false

variable {int : Internals} {views : Views} {c c' : RedisClient}
  {argv : List Bytes}

/-! ## One command -/

section Command

variable {s : Settings} {cluster : ClusterState}
  {route : RedisCommand → Route}

/-- What `processCommand` can do with a client. -/
inductive Handled (c : RedisClient) (argv : List Bytes) :
    Verdict × RedisClient → Prop
  | quit : Handled c argv (.quit, { c with closeAfterReply := true })
  | crash : Handled c argv (.crash, c)
  | marked {reason : Refusal} (hmarks : reason.marks = true) :
      Handled c argv (.refused reason, c.flagTransaction)
  | unmarked {reason : Refusal} (hmarks : reason.marks = false) :
      Handled c argv (.refused reason, c)
  | queued {cmd : RedisCommand} (hmulti : c.multi = true)
      (hcmd : Proc.immediate cmd.proc = false) :
      Handled c argv (.queued, c.queueMultiCommand cmd argv)
  | call {cmd : RedisCommand}
      (hcmd : c.multi = true → Proc.immediate cmd.proc = true) :
      Handled c argv (.call cmd, c)

theorem acceptCommand_handled (cmd : RedisCommand) :
    Handled c argv (acceptCommand s c cmd argv) := by
  unfold acceptCommand
  split_ifs with _ _ _ _ _ _ _ _ hqueue
  · exact .marked rfl
  · exact .marked rfl
  · exact .marked rfl
  · exact .unmarked rfl
  · exact .unmarked rfl
  · exact .marked rfl
  · exact .unmarked rfl
  · exact .marked rfl
  · exact .queued hqueue.1 (by simpa using hqueue.2)
  · exact .call fun hmulti => by simpa [hmulti] using hqueue

theorem clusterRefusal_unmarked {node : Route} {reason : Refusal}
    (h : clusterRefusal cluster node = some reason) :
    reason.marks = false := by
  cases node with
  | multipleKeys => obtain rfl := Option.some_inj.mp h; rfl
  | node n hashslot ask =>
    simp only [clusterRefusal] at h
    split_ifs at h
    obtain rfl := Option.some_inj.mp h
    rfl
  | myself => cases h
  | fault => cases h

theorem processCommand_handled :
    Handled c argv (processCommand int views s cluster route c argv) := by
  unfold processCommand
  split
  · exact .quit
  cases lookupCommand int views (arg argv 0) with
  | none => exact .marked rfl
  | some cmd =>
    simp only
    split
    · exact .marked rfl
    split
    · exact .marked rfl
    split
    · split
      · exact .unmarked rfl
      split
      next => exact .crash
      next =>
        split
        next reason hreason =>
          exact .unmarked (clusterRefusal_unmarked hreason)
        next => exact acceptCommand_handled cmd
    · exact acceptCommand_handled cmd

end Command

/-! ## The commands of a block -/

section Block

/-- A command of the client, with the server it arrives at; `touched` says
that a key the client watches was touched before. -/
structure Message where
  settings : Settings
  cluster : ClusterState
  route : RedisCommand → Route
  touched : Bool
  argv : List Bytes

def RedisClient.touch (c : RedisClient) (touched : Bool) : RedisClient :=
  { c with dirtyCas := c.dirtyCas || touched }

variable (int views) in
def process (c : RedisClient) (m : Message) : Verdict × RedisClient :=
  processCommand int views m.settings m.cluster m.route (c.touch m.touched)
    m.argv

/-- The client after the call of a command. -/
def Verdict.after (argv : List Bytes) (c : RedisClient) :
    Verdict → RedisClient
  | .call cmd => c.call argv cmd.proc
  | _ => c

variable (int views) in
def receive (c : RedisClient) (m : Message) : Verdict × RedisClient :=
  let p := process int views c m
  (p.1, p.1.after m.argv p.2)

variable (int views) in
/-- EXEC, if it passes the gates. -/
def execCommand (c : RedisClient) (m : Message) : Option ExecStart :=
  match process int views c m with
  | (.call cmd, c) =>
    match cmd.proc with
    | .exec => some (execStart c)
    | _ => none
  | _ => none

variable (int views) in
def receiveAll : RedisClient → List Message → List Verdict × RedisClient
  | c, [] => ([], c)
  | c, m :: messages =>
    let (verdict, c) := receive int views c m
    let (verdicts, c) := receiveAll c messages
    (verdict :: verdicts, c)

namespace Verdict

/-- The command is queued or refused, or a MULTI or WATCH. -/
def stays : Verdict → Bool
  | queued | refused _ => true
  | call cmd =>
    match cmd.proc with
    | .multi | .watch => true
    | _ => false
  | quit | crash => false

def marks : Verdict → Bool
  | refused reason => reason.marks
  | quit | crash | queued | call _ => false

end Verdict

/-- The client while it stays in a block: `touched` and `marked` say whether
a watched key was touched and whether a refusal marked the transaction since
the client was `c`. -/
structure InBlock (c : RedisClient) (touched marked : Bool)
    (c' : RedisClient) : Prop where
  multi : c'.multi = true
  dirtyCas : c'.dirtyCas = (c.dirtyCas || touched)
  dirtyExec : c'.dirtyExec = (c.dirtyExec || marked)
  authenticated : c'.authenticated = c.authenticated
  subscriptions : c'.subscriptions = c.subscriptions

theorem InBlock.trans {c c₁ c₂ : RedisClient}
    {touched touched' marked marked' : Bool}
    (h : InBlock c touched marked c₁) (h' : InBlock c₁ touched' marked' c₂) :
    InBlock c (touched || touched') (marked || marked') c₂ where
  multi := h'.multi
  dirtyCas := by rw [h'.dirtyCas, h.dirtyCas, Bool.or_assoc]
  dirtyExec := by rw [h'.dirtyExec, h.dirtyExec, Bool.or_assoc]
  authenticated := h'.authenticated.trans h.authenticated
  subscriptions := h'.subscriptions.trans h.subscriptions

theorem after_eq_self (hmulti : c.multi = true) {verdict : Verdict}
    (hstays : verdict.stays = true) : verdict.after argv c = c := by
  cases verdict with
  | queued | refused | quit | crash => rfl
  | call cmd =>
    rw [Verdict.stays] at hstays
    rw [Verdict.after, RedisClient.call.eq_def]
    split at hstays
    next hproc => rw [hproc]; exact if_pos hmulti
    next hproc => rw [hproc]; exact if_pos hmulti
    · cases hstays

theorem receive_inBlock (hmulti : c.multi = true) (m : Message)
    (hstays : (receive int views c m).1.stays = true) :
    InBlock c m.touched (receive int views c m).1.marks
      (receive int views c m).2 := by
  have handled : Handled (c.touch m.touched) m.argv
    (process int views c m) := processCommand_handled
  have htouch : (c.touch m.touched).multi = true := hmulti
  rw [receive] at hstays ⊢
  generalize process int views c m = p at *
  cases handled with
  | quit | crash => cases hstays
  | call hcmd =>
    rw [Prod.fst, Prod.snd, after_eq_self htouch hstays]
    exact ⟨hmulti, rfl, (Bool.or_false _).symm, rfl, rfl⟩
  | queued => exact ⟨hmulti, rfl, (Bool.or_false _).symm, rfl, rfl⟩
  | marked hmarks =>
    rw [RedisClient.flagTransaction, if_pos htouch]
    refine ⟨hmulti, rfl, ?_, rfl, rfl⟩
    rw [Verdict.marks, hmarks, Bool.or_true]
    rfl
  | unmarked hmarks =>
    refine ⟨hmulti, rfl, ?_, rfl, rfl⟩
    rw [Verdict.marks, hmarks, Bool.or_false]
    rfl

/-- Nothing that leaves the client in its block clears a mark. -/
theorem receiveAll_inBlock {messages : List Message} (hmulti : c.multi = true)
    (hstays : ∀ verdict ∈ (receiveAll int views c messages).1,
      verdict.stays = true) :
    InBlock c (messages.any (·.touched))
      ((receiveAll int views c messages).1.any Verdict.marks)
      (receiveAll int views c messages).2 := by
  induction messages generalizing c with
  | nil =>
    exact ⟨hmulti, (Bool.or_false _).symm, (Bool.or_false _).symm, rfl, rfl⟩
  | cons m messages ih =>
    rw [receiveAll] at hstays ⊢
    simp only [List.forall_mem_cons] at hstays
    have hfirst := receive_inBlock hmulti m hstays.1
    exact hfirst.trans (ih hfirst.multi hstays.2)

/-- EXEC, which has no flag that a gate asks for, passes them all. -/
def Settings.admitsExec (s : Settings) (c : RedisClient) : Bool :=
  !(s.requirepass.isSome && !c.authenticated) && c.subscriptions = 0 &&
    !(s.masterhost.isSome && !s.replConnected && !s.replServeStaleData) &&
    !s.loading && !s.luaTimedout

/-- The entry of EXEC in the command table. -/
def execEntry : RedisCommand := ⟨"exec", .exec, 1, "sM", none, 0, 0, 0⟩

theorem lookupCommand_exec {name : Bytes} (hname : isText "exec" name = true) :
    lookupCommand int views name = some execEntry := by
  have htext : ∀ text, isText text name = isText text (ascii "exec") := by
    intro text
    rw [isText, isText, eq_of_beq hname]
    rfl
  have hall : (stringTable int views ++ listTable int ++
      setTable int views ++ hashTable int views ++ zsetTable int views ++
      genericTable int views).all
        (fun cmd => !isText cmd.name (ascii "exec")) = true := by
    simp only [stringTable, listTable, setTable, hashTable, zsetTable,
      genericTable, List.all_append, List.all_cons, List.all_nil]
    decide
  simp only [lookupCommand, htext]
  rw [redisCommandTable, List.find?_append, List.find?_eq_none.mpr
    fun cmd hcmd => by simpa using List.all_eq_true.mp hall cmd hcmd]
  rfl

theorem acceptCommand_execEntry (s : Settings) (argv : List Bytes) :
    acceptCommand s c execEntry argv =
      if 0 < c.subscriptions then (.refused .pubsub, c)
      else if s.masterhost.isSome ∧ !s.replConnected ∧ !s.replServeStaleData
        then (.refused .masterdown, c.flagTransaction)
      else if s.loading then (.refused .loading, c)
      else if s.luaTimedout then (.refused .slowscript, c.flagTransaction)
      else (.call execEntry, c) := by
  have hflags : execEntry.denyoom = false ∧ execEntry.write = false ∧
      execEntry.stale = false ∧ execEntry.loading = false := by decide
  have hproc : execEntry.proc = .exec := rfl
  simp [acceptCommand, hflags, hproc, Proc.isPing, Proc.subscribes,
    Proc.allowedWhenBusy, Proc.immediate]

theorem execCommand_eq {m : Message} {name : Bytes} (hargv : m.argv = [name])
    (hname : isText "exec" name = true) :
    execCommand int views c m =
      if m.settings.admitsExec c then some (execStart (c.touch m.touched))
      else none := by
  have hquit : isText "quit" name = false := by
    rw [isText, eq_of_beq hname]
    decide
  have harity : execEntry.arityOk 1 = true := by decide
  have hauth : Proc.isAuth execEntry.proc = false := rfl
  have hrouted : routed m.settings (c.touch m.touched) execEntry = false := by
    simp [routed, execEntry]
  rw [execCommand, process, hargv, processCommand]
  simp only [arg, List.getD_cons_zero, hquit, lookupCommand_exec hname,
    List.length_singleton, harity, hauth, hrouted, acceptCommand_execEntry]
  generalize m.settings = s
  have hclient : (c.touch m.touched).subscriptions = c.subscriptions ∧
      (c.touch m.touched).authenticated = c.authenticated := ⟨rfl, rfl⟩
  simp only [hclient, Bool.false_eq_true, if_false, Bool.not_true]
  -- one case per gate that refuses EXEC, and one for the call
  split_ifs
  all_goals first
    | rfl
    | grind [Settings.admitsExec]

theorem execStart_aborted_iff (hmulti : c.multi = true) :
    (∃ r, execStart c = .aborted r) ↔
      c.dirtyCas = true ∨ c.dirtyExec = true := by
  rw [execStart, hmulti]
  by_cases h : c.dirtyCas = true ∨ c.dirtyExec = true <;> simp [h]

/-- The EXEC of a client that had a command refused reports that the
transaction is aborted when EXEC itself is not refused, and the reason marks
the transaction, or it was to be aborted anyway, or that follows from a later
command or a key touched later.  Otherwise the queue is run. -/
theorem refused_command_aborts_exec_iff (hmulti : c.multi = true)
    {m : Message} {reason : Refusal}
    (hrefused : (receive int views c m).1 = .refused reason)
    {later : List Message}
    (hlater : ∀ verdict ∈
      (receiveAll int views (receive int views c m).2 later).1,
        verdict.stays = true)
    {exec : Message} {name : Bytes} (hargv : exec.argv = [name])
    (hname : isText "exec" name = true) :
    (∃ r, execCommand int views
        (receiveAll int views (receive int views c m).2 later).2 exec =
          some (.aborted r)) ↔
      exec.settings.admitsExec c = true ∧
        (reason.marks = true ∨ (c.dirtyCas = true ∨ c.dirtyExec = true) ∨
          (∃ m' ∈ m :: exec :: later, m'.touched = true) ∨
          ∃ verdict ∈ (receiveAll int views (receive int views c m).2 later).1,
            verdict.marks = true) := by
  have hstays : (receive int views c m).1.stays = true := by
    rw [hrefused]; rfl
  have hfirst := receive_inBlock hmulti m hstays
  have hlast := hfirst.trans (receiveAll_inBlock hfirst.multi hlater)
  have hmarks : (receive int views c m).1.marks = reason.marks := by
    rw [hrefused]; rfl
  have hadmits : exec.settings.admitsExec
      (receiveAll int views (receive int views c m).2 later).2 =
        exec.settings.admitsExec c := by
    rw [Settings.admitsExec, hlast.authenticated, hlast.subscriptions]
    rfl
  rw [execCommand_eq hargv hname, hadmits]
  generalize (receiveAll int views (receive int views c m).2 later).2 = c'
    at hlast ⊢
  split
  next h =>
    have htouch : (c'.touch exec.touched).multi = true := hlast.multi
    have hcas : (c'.touch exec.touched).dirtyCas =
        (c'.dirtyCas || exec.touched) := rfl
    have hexec : (c'.touch exec.touched).dirtyExec = c'.dirtyExec := rfl
    simp only [Option.some_inj, execStart_aborted_iff htouch, hcas, hexec, h,
      true_and, hlast.dirtyCas, hlast.dirtyExec, hmarks]
    simp only [Bool.or_eq_true, List.any_eq_true, List.mem_cons,
      exists_eq_or_imp, or_assoc, or_left_comm]
  next h => simp [h]

/-- A client in MULTI that has queued a SET. -/
def queuingClient : RedisClient :=
  { createClient with
    multi := true
    mstate := [⟨⟨"set", .data setCommand, -3, "wm", some .noPreload, 1, 1, 1⟩,
      [ascii "SET", ascii "a", ascii "1"]⟩] }

/-- A message to a server that is not part of a cluster. -/
def messageTo (s : Settings) (argv : List Bytes) : Message :=
  ⟨s, .alone, fun _ => .myself, false, argv⟩

/-- A SET without arguments, a nested MULTI, and EXEC. -/
theorem refused_command_aborts_exec_iff_arity :
    let c := (receive someInternals someViews queuingClient
      (messageTo .default [ascii "SET"])).2
    let later := receiveAll someInternals someViews c
      [messageTo .default [ascii "MULTI"]]
    (∃ r, execCommand someInternals someViews later.2
        (messageTo .default [ascii "EXEC"]) = some (.aborted r)) ∧
      later.2.mstate = queuingClient.mstate := by
  have hlater : ∀ verdict ∈ (receiveAll someInternals someViews
      (receive someInternals someViews queuingClient
        (messageTo .default [ascii "SET"])).2
      [messageTo .default [ascii "MULTI"]]).1, verdict.stays = true :=
    List.forall_mem_singleton.mpr rfl
  exact ⟨(@refused_command_aborts_exec_iff _ _ queuingClient rfl _
    (.arity "set") rfl _ hlater (messageTo .default [ascii "EXEC"]) _ rfl
    (by decide)).mpr ⟨rfl, Or.inl rfl⟩, rfl⟩

/-- A replica with default settings and its link up. -/
def replicaSettings : Settings :=
  { Settings.default with
    masterhost := some (ascii "10.0.0.1")
    replConnected := true }

/-- The server has become a read-only replica: a SET is refused, and the SET
that was queued before is run. -/
theorem readonly_refusal_keeps_queue :
    let result := receive someInternals someViews queuingClient
      (messageTo replicaSettings [ascii "SET", ascii "b", ascii "2"])
    result.1.reply = some (.error (ascii
        "READONLY You can't write against a read only slave.")) ∧
      execCommand someInternals someViews result.2
        (messageTo replicaSettings [ascii "EXEC"]) =
          some (.runs queuingClient.mstate) :=
  ⟨rfl, rfl⟩

end Block

end RedisV8.Processing
