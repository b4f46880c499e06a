import RedisV8.Sets.Encodings

/-!
# The set commands on finite sets

Each command is given a meaning on the finite sets of strings of a keyspace,
and every run of the commands follows it, through all conversions of the
encodings.  SMOVE from a set to itself replies that the member was moved
without looking for it, so there the member has to be one.
-/

namespace RedisV8.Sets

open Util Server List Function Reply
open RedisV8.Lists (encodedArg getDecodedObject_encodedArg)

variable {s : Finset Bytes} {o : SetObj}

abbrev MemberSets := Bytes → Finset Bytes

/-! ## The meaning of the commands -/

namespace Command

/-- What a command may reply, and the sets it then leaves. -/
def Means : Command → MemberSets → Reply → MemberSets → Prop
  | sadd key member rest, sets, reply, sets' =>
    sets' = update sets key
      (sets key ∪ (member :: rest).toFinset) ∧
    reply = .integer ((member :: rest).toFinset \ sets key).card
  | srem key member rest, sets, reply, sets' =>
    sets' = update sets key
      (sets key \ (member :: rest).toFinset) ∧
    reply = .integer ((member :: rest).toFinset ∩ sets key).card
  | sismember key member, sets, reply, sets' =>
    sets' = sets ∧
    reply = if member ∈ sets key then cone else czero
  | scard key, sets, reply, sets' =>
    sets' = sets ∧ reply = .integer (sets key).card
  | smembers key, sets, reply, sets' =>
    sets' = sets ∧ ∃ members : List Bytes, members.Nodup ∧
      members.toFinset = sets key ∧ reply = .multiBulk (members.map .bulk)
  | spop key, sets, reply, sets' =>
    if sets key = ∅ then sets' = sets ∧ reply = .nullBulk
    else ∃ member ∈ sets key,
      sets' = update sets key ((sets key).erase member) ∧
      reply = .bulk member
  | smove src dst member, sets, reply, sets' =>
    if member ∈ sets src then
      sets' = update
        (update sets src ((sets src).erase member)) dst
        (insert member (sets dst)) ∧
      reply = cone
    else sets' = sets ∧ reply = czero

/-- SMOVE from a set to itself is of one of its members. -/
def Fits : Command → MemberSets → Prop
  | smove src dst member, sets =>
    src = dst → sets src = ∅ ∨ member ∈ sets src
  | _, _ => True

end Command

/-- Commands one after the other on the sets. -/
def SetRun : MemberSets → List Command → List Reply → MemberSets → Prop
  | sets, [], replies, sets' => replies = [] ∧ sets' = sets
  | sets, cmd :: cmds, replies, sets' =>
    ∃ reply rest next, replies = reply :: rest ∧
      cmd.Means sets reply next ∧ SetRun next cmds rest sets'

/-! ## The commands one by one -/

section Commands

variable {db : Db} {sets : MemberSets} {env : Env}

theorem Db.Holds.update (hdb : db.Holds sets) {key : Bytes} {stored : Stored}
    (hstored : stored.Holds s) :
    Db.Holds (update db key stored) (update sets key s) := by
  intro other
  by_cases heq : other = key
  · subst heq
    rwa [update_self, update_self]
  · rw [update_of_ne heq, update_of_ne heq]
    exact hdb other

theorem kept_holds (ho : o.Holds s) : (kept o).Holds s := by
  rw [kept, setTypeSize_eq ho]
  split
  · rename_i hempty
    exact Finset.card_eq_zero.1 hempty
  · rename_i hsome
    exact ⟨ho, fun hempty => hsome (Finset.card_eq_zero.2 hempty)⟩

/-- The cases of a lookup. -/
theorem lookup_cases (hdb : db.Holds sets) (key : Bytes) :
    (db key = .absent ∧ sets key = ∅) ∨
      ∃ o, db key = .set o ∧ o.Holds (sets key) ∧ sets key ≠ ∅ := by
  have hkey := hdb key
  cases hstored : db key with
  | absent => exact Or.inl ⟨rfl, by rwa [hstored] at hkey⟩
  | set o =>
    rw [hstored] at hkey
    exact Or.inr ⟨o, rfl, hkey.1, hkey.2⟩
  | otherType =>
    rw [hstored] at hkey
    exact hkey.elim

/-- One member less to add. -/
theorem card_insert_sdiff {member : Bytes} (hmem : member ∉ s)
    (members : Finset Bytes) :
    (insert member members \ s).card =
      (members \ insert member s).card + 1 := by
  have hsplit : insert member members \ s =
      insert member (members \ insert member s) := by
    ext other
    by_cases heq : other = member <;> simp [heq, hmem]
  rw [hsplit, Finset.card_insert_of_notMem (by simp)]

/-- One member less to remove. -/
theorem card_insert_inter {member : Bytes} (hmem : member ∈ s)
    (members : Finset Bytes) :
    (insert member members ∩ s).card =
      (members ∩ s.erase member).card + 1 := by
  have hsplit : insert member members ∩ s =
      insert member (members ∩ s.erase member) := by
    ext other
    by_cases heq : other = member <;> simp [heq, hmem]
  rw [hsplit, Finset.card_insert_of_notMem (by simp)]

theorem saddLoop_spec (henv : env.Small) (ho : o.Holds s) (added : ℕ)
    (members : List Bytes) :
    ∃ o', saddLoop env o added members =
        some (o', added + (members.toFinset \ s).card) ∧
      o'.Holds (s ∪ members.toFinset) := by
  induction members generalizing o s added with
  | nil => exact ⟨o, by simp [saddLoop], by simpa using ho⟩
  | cons member members ih =>
    obtain ⟨o₁, hadd, ho₁⟩ := setTypeAdd_spec ho henv (encodedArg member)
    rw [getDecodedObject_encodedArg] at hadd ho₁
    obtain ⟨o₂, hloop, ho₂⟩ := ih ho₁
      (if decide (member ∉ s) = true then added + 1 else added)
    refine ⟨o₂, ?_, ?_⟩
    · simp only [saddLoop, hadd, some_bind, hloop]
      have hcount : (if decide (member ∉ s) = true then added + 1 else added) +
          (members.toFinset \ insert member s).card =
          added + ((member :: members).toFinset \ s).card := by
        rw [toFinset_cons]
        by_cases hmem : member ∈ s
        · rw [Finset.insert_sdiff_of_mem _ hmem, Finset.insert_eq_of_mem hmem,
            decide_eq_false (not_not.2 hmem), if_neg Bool.false_ne_true]
        · rw [card_insert_sdiff hmem, decide_eq_true hmem, if_pos rfl,
            Nat.add_assoc, Nat.add_comm 1]
      rw [hcount]
    · rw [toFinset_cons, Finset.union_insert, ← Finset.insert_union]
      exact ho₂

/-- A command ran as on the sets. -/
def Command.RunsAs (cmd : Command) (sets : MemberSets) (effect : Effect) :
    Prop :=
  ∃ sets', effect.db.Holds sets' ∧
    (cmd.Fits sets → cmd.Means sets effect.reply sets')

theorem sadd_runsAs (hdb : db.Holds sets) (henv : env.Small)
    (key member : Bytes) (rest : List Bytes) :
    ∃ effect, saddCommand env key member rest db = some effect ∧
      (Command.sadd key member rest).RunsAs sets effect := by
  have hadd : ∀ {o : SetObj}, o.Holds (sets key) → ∃ o',
      saddLoop env o 0 (member :: rest) =
        some (o', ((member :: rest).toFinset \ sets key).card) ∧
      (Stored.set o').Holds (sets key ∪ (member :: rest).toFinset) := by
    intro o ho
    obtain ⟨o', hloop, ho'⟩ := saddLoop_spec henv ho 0 (member :: rest)
    rw [Nat.zero_add] at hloop
    refine ⟨o', hloop, ho', Finset.nonempty_iff_ne_empty.1 ⟨member, ?_⟩⟩
    simp
  rw [saddCommand]
  obtain ⟨habsent, hempty⟩ | ⟨o, hset, ho, -⟩ := lookup_cases hdb key
  · have hnew := setTypeCreate_holds (.raw member)
    rw [← hempty] at hnew
    obtain ⟨o', hloop, ho'⟩ := hadd hnew
    simp only [habsent, hloop, some_bind]
    exact ⟨_, rfl, _, hdb.update ho', fun _ => ⟨rfl, rfl⟩⟩
  · obtain ⟨o', hloop, ho'⟩ := hadd ho
    simp only [hset, hloop, some_bind]
    exact ⟨_, rfl, _, hdb.update ho', fun _ => ⟨rfl, rfl⟩⟩

/-- The loop of SREM ends early only on an empty set. -/
theorem sremLoop_spec (ho : o.Holds s) (env : Env) (deleted : ℕ)
    (members : List Bytes) :
    ∃ o', sremLoop env o deleted members =
        some (o', deleted + (members.toFinset ∩ s).card) ∧
      o'.Holds (s \ members.toFinset) := by
  induction members generalizing o s deleted with
  | nil => exact ⟨o, by simp [sremLoop], by simpa using ho⟩
  | cons member members ih =>
    obtain ⟨o₁, hremove, ho₁⟩ := setTypeRemove_spec ho env (.raw member)
    rw [show getDecodedObject (.raw member) = member from rfl] at hremove ho₁
    have hleft : s \ (member :: members).toFinset =
        s.erase member \ members.toFinset := by
      rw [toFinset_cons, Finset.sdiff_insert, Finset.erase_sdiff_comm]
    rw [hleft, toFinset_cons]
    simp only [sremLoop, hremove, some_bind]
    by_cases hmem : member ∈ s
    · rw [decide_eq_true hmem, if_pos rfl, card_insert_inter hmem,
        setTypeSize_eq ho₁]
      split
      · rename_i hzero
        have hempty := Finset.card_eq_zero.1 hzero
        rw [hempty] at ho₁ ⊢
        refine ⟨o₁, ?_, ?_⟩
        · rw [Finset.inter_empty, Finset.card_empty, Nat.zero_add]
        · rwa [Finset.empty_sdiff]
      · obtain ⟨o₂, hloop, ho₂⟩ := ih ho₁ (deleted + 1)
        refine ⟨o₂, ?_, ho₂⟩
        rw [hloop, Nat.add_assoc, Nat.add_comm 1]
    · rw [decide_eq_false hmem, if_neg Bool.false_ne_true,
        Finset.insert_inter_of_notMem hmem]
      rw [Finset.erase_eq_of_notMem hmem] at ho₁ ⊢
      exact ih ho₁ deleted

theorem srem_runsAs (hdb : db.Holds sets) (env : Env) (key member : Bytes)
    (rest : List Bytes) :
    ∃ effect, sremCommand env key (member :: rest) db = some effect ∧
      (Command.srem key member rest).RunsAs sets effect := by
  rw [sremCommand, lookupKeyOrReply]
  obtain ⟨habsent, hempty⟩ | ⟨o, hset, ho, -⟩ := lookup_cases hdb key
  · simp only [habsent]
    refine ⟨_, rfl, sets, hdb, fun _ => ⟨?_, ?_⟩⟩
    · rw [hempty, Finset.empty_sdiff, ← hempty, update_eq_self]
    · rw [hempty, Finset.inter_empty]
      rfl
  obtain ⟨o', hloop, ho'⟩ := sremLoop_spec ho env 0 (member :: rest)
  rw [Nat.zero_add] at hloop
  simp only [hset, hloop, some_bind]
  exact ⟨_, rfl, _, hdb.update (kept_holds ho'), fun _ => ⟨rfl, rfl⟩⟩

theorem sismember_runsAs (hdb : db.Holds sets) (key member : Bytes) :
    ∃ effect, sismemberCommand key member db = some effect ∧
      (Command.sismember key member).RunsAs sets effect := by
  rw [sismemberCommand, lookupKeyOrReply]
  obtain ⟨habsent, hempty⟩ | ⟨o, hset, ho, -⟩ := lookup_cases hdb key
  · simp only [habsent]
    refine ⟨_, rfl, sets, hdb, fun _ => ⟨rfl, ?_⟩⟩
    rw [hempty, if_neg (Finset.notMem_empty _)]
  · simp only [hset, setTypeIsMember_eq ho, getDecodedObject_encodedArg,
      some_bind, decide_eq_true_eq]
    exact ⟨_, rfl, sets, hdb, fun _ => ⟨rfl, rfl⟩⟩

theorem scard_runsAs (hdb : db.Holds sets) (key : Bytes) :
    ∃ effect, scardCommand key db = some effect ∧
      (Command.scard key).RunsAs sets effect := by
  rw [scardCommand, lookupKeyOrReply]
  obtain ⟨habsent, hempty⟩ | ⟨o, hset, ho, -⟩ := lookup_cases hdb key
  · simp only [habsent]
    refine ⟨_, rfl, sets, hdb, fun _ => ⟨rfl, ?_⟩⟩
    rw [hempty]
    rfl
  · simp only [hset, setTypeSize_eq ho]
    exact ⟨_, rfl, sets, hdb, fun _ => ⟨rfl, rfl⟩⟩

theorem smembers_runsAs (hdb : db.Holds sets) (key : Bytes) :
    ∃ effect, smembersCommand key db = some effect ∧
      (Command.smembers key).RunsAs sets effect := by
  rw [smembersCommand, lookupKeyOrReply]
  obtain ⟨habsent, hempty⟩ | ⟨o, hset, ho, -⟩ := lookup_cases hdb key
  · simp only [habsent]
    exact ⟨_, rfl, sets, hdb, fun _ =>
      ⟨rfl, [], nodup_nil, by rw [hempty]; rfl, rfl⟩⟩
  obtain ⟨members, hiterate, hnodup, hmembers⟩ := setTypeIterate_spec ho
  simp only [hset, hiterate, some_bind]
  refine ⟨_, rfl, sets, hdb, fun _ =>
    ⟨rfl, members.map getDecodedObject, hnodup, hmembers, ?_⟩⟩
  rw [map_map]
  rfl

theorem spop_runsAs (hdb : db.Holds sets) (env : Env) (key : Bytes) :
    ∃ effect, spopCommand env key db = some effect ∧
      (Command.spop key).RunsAs sets effect := by
  rw [spopCommand, lookupKeyOrReply]
  obtain ⟨habsent, hempty⟩ | ⟨o, hset, ho, hne⟩ := lookup_cases hdb key
  · simp only [habsent]
    refine ⟨_, rfl, sets, hdb, fun _ => ?_⟩
    rw [Command.Means, if_pos hempty]
    exact ⟨rfl, rfl⟩
  obtain ⟨ele, hrandom, hele⟩ := setTypeRandomElement_spec ho hne env
  obtain ⟨o', hremove, ho'⟩ := setTypeRemove_spec ho env ele
  simp only [hset, hrandom, hremove, some_bind]
  refine ⟨_, rfl, _, hdb.update (kept_holds ho'), fun _ => ?_⟩
  rw [Command.Means, if_neg hne]
  exact ⟨_, hele, rfl, rfl⟩

theorem destination_holds {stored : Stored} (hstored : stored.Holds s)
    (ele : StringObj) : (destination ele stored).Holds s := by
  cases stored with
  | absent =>
    rw [show s = ∅ from hstored]
    exact setTypeCreate_holds ele
  | set o => exact hstored.1
  | otherType => exact hstored.elim

/-- SMOVE removes a member of the source and adds it to the destination. -/
theorem moveMember_spec (henv : env.Small) {src dst : Bytes} (member : Bytes)
    {srcset : SetObj} (hsrc : srcset.Holds (sets src))
    (hdst : (db dst).Holds (sets dst)) :
    ∃ effect, moveMember env src dst member srcset db = some effect ∧
      if member ∈ sets src then
        effect.reply = cone ∧ ∃ from' to' : Stored,
          effect.db = update (update db src from') dst to' ∧
          from'.Holds ((sets src).erase member) ∧
          to'.Holds (insert member (sets dst))
      else effect = { db, reply := czero } := by
  obtain ⟨srcset', hremove, hsrc'⟩ :=
    setTypeRemove_spec hsrc env (encodedArg member)
  obtain ⟨dstset', hadd, hdst'⟩ := setTypeAdd_spec
    (destination_holds hdst (encodedArg member)) henv (encodedArg member)
  rw [getDecodedObject_encodedArg] at hremove hsrc' hadd hdst'
  simp only [moveMember, hremove, some_bind]
  by_cases hmem : member ∈ sets src
  · rw [decide_eq_true hmem, if_pos rfl, hadd]
    refine ⟨_, rfl, ?_⟩
    rw [if_pos hmem]
    exact ⟨rfl, _, _, rfl, kept_holds hsrc', hdst', Finset.insert_ne_empty _ _⟩
  · rw [decide_eq_false hmem, if_neg Bool.false_ne_true]
    refine ⟨_, rfl, ?_⟩
    rw [if_neg hmem]

theorem moveMember_runsAs (hdb : db.Holds sets) (henv : env.Small)
    {src : Bytes} (dst member : Bytes) {srcset : SetObj}
    (hsrc : srcset.Holds (sets src)) :
    ∃ effect, moveMember env src dst member srcset db = some effect ∧
      (Command.smove src dst member).RunsAs sets effect := by
  obtain ⟨effect, hrun, hspec⟩ := moveMember_spec henv member hsrc (hdb dst)
  refine ⟨effect, hrun, ?_⟩
  by_cases hmem : member ∈ sets src
  · rw [if_pos hmem] at hspec
    obtain ⟨hreply, from', to', hdb', hfrom, hto⟩ := hspec
    refine ⟨_, hdb' ▸ (hdb.update hfrom).update hto, fun _ => ?_⟩
    rw [Command.Means, if_pos hmem]
    exact ⟨rfl, hreply⟩
  rw [if_neg hmem] at hspec
  subst hspec
  refine ⟨sets, hdb, fun _ => ?_⟩
  rw [Command.Means, if_neg hmem]
  exact ⟨rfl, rfl⟩

/-- SMOVE under one key leaves the set as it is. -/
theorem smove_self_runsAs (hdb : db.Holds sets) {src dst : Bytes}
    (heq : src = dst) (member : Bytes) (hne : sets src ≠ ∅) :
    (Command.smove src dst member).RunsAs sets
      { db, reply := cone } := by
  subst heq
  refine ⟨sets, hdb, fun hfits => ?_⟩
  have hmem : member ∈ sets src := (hfits rfl).resolve_left hne
  rw [Command.Means, if_pos hmem, Finset.insert_eq_of_mem hmem,
    update_idem, update_eq_self]
  exact ⟨rfl, rfl⟩

theorem smove_runsAs (hdb : db.Holds sets) (henv : env.Small)
    (src dst member : Bytes) :
    ∃ effect, smoveCommand env src dst member db = some effect ∧
      (Command.smove src dst member).RunsAs sets effect := by
  obtain ⟨habsent, hempty⟩ | ⟨o, hset, ho, hsome⟩ := lookup_cases hdb src
  · simp only [smoveCommand, habsent]
    refine ⟨_, rfl, sets, hdb, fun _ => ?_⟩
    rw [Command.Means, hempty, if_neg (Finset.notMem_empty _)]
    exact ⟨rfl, rfl⟩
  have hmove : smoveCommand env src dst member db =
      if src = dst then some { db, reply := cone }
      else moveMember env src dst member o db := by
    obtain ⟨habsent, -⟩ | ⟨o', hset', -⟩ := lookup_cases hdb dst
    · simp only [smoveCommand, hset, habsent]
    · simp only [smoveCommand, hset, hset']
  rw [hmove]
  split
  · rename_i heq
    exact ⟨_, rfl, smove_self_runsAs hdb heq member hsome⟩
  · exact moveMember_runsAs hdb henv dst member ho

end Commands

/-! ## Runs -/

section Runs

variable {db : Db} {sets : MemberSets} {env : Env}

/-- One command, whatever the encodings. -/
theorem Command.run_runsAs (hdb : db.Holds sets) (henv : env.Small)
    (cmd : Command) :
    ∃ effect, cmd.run env db = some effect ∧ cmd.RunsAs sets effect := by
  cases cmd with
  | sadd key member rest => exact sadd_runsAs hdb henv key member rest
  | srem key member rest => exact srem_runsAs hdb env key member rest
  | sismember key member => exact sismember_runsAs hdb key member
  | scard key => exact scard_runsAs hdb key
  | smembers key => exact smembers_runsAs hdb key
  | spop key => exact spop_runsAs hdb env key
  | smove src dst member => exact smove_runsAs hdb henv src dst member

/-- In every state of the run the next command meets the condition. -/
def Meets : Db → List (Env × Command) → Prop
  | _, [] => True
  | db, (env, cmd) :: steps =>
    env.Small ∧ (∀ sets, db.Holds sets → cmd.Fits sets) ∧
      ∀ effect, cmd.run env db = some effect → Meets effect.db steps

theorem runCommands_spec (hdb : db.Holds sets)
    (steps : List (Env × Command)) (hmeets : Meets db steps) :
    ∃ db' replies sets', runCommands db steps = some (db', replies) ∧
      db'.Holds sets' ∧ SetRun sets (steps.map Prod.snd) replies sets' := by
  induction steps generalizing db sets with
  | nil => exact ⟨db, [], sets, rfl, hdb, rfl, rfl⟩
  | cons step steps ih =>
    obtain ⟨env, cmd⟩ := step
    obtain ⟨henv, hfits, hrest⟩ := hmeets
    obtain ⟨effect, hrun, next, hnext, hmeans⟩ := cmd.run_runsAs hdb henv
    obtain ⟨db', replies, sets', hsteps, hdb', hruns⟩ :=
      ih hnext (hrest effect hrun)
    refine ⟨db', effect.reply :: replies, sets', ?_, hdb', ?_⟩
    · rw [runCommands, hrun, some_bind, hsteps]
      rfl
    · exact ⟨effect.reply, replies, next, rfl, hmeans (hfits sets hdb), hruns⟩

/-- A keyspace without keys. -/
def emptyDb : Db := fun _ => .absent

theorem holds_emptyDb : emptyDb.Holds fun _ => ∅ := fun _ => rfl

/-- From an empty keyspace every run that meets the condition ends without a
failed assertion, its replies are those of the finite sets, and the keyspace
then holds these sets. -/
theorem sets_run_as_sets (steps : List (Env × Command))
    (hmeets : Meets emptyDb steps) :
    ∃ db replies sets, runCommands emptyDb steps = some (db, replies) ∧
      db.Holds sets ∧
      SetRun (fun _ => ∅) (steps.map Prod.snd) replies sets :=
  runCommands_spec holds_emptyDb steps hmeets

/-- A number and a look-alike, one of them moved and the other drawn. -/
theorem sets_run_as_sets_smove :
    Meets emptyDb
        [(⟨512, fun _ => 0, 0⟩, .sadd (ascii "k") (ascii "1") [ascii "01"]),
          (⟨0, fun _ => 0, 7⟩, .smove (ascii "k") (ascii "l") (ascii "01")),
          (⟨512, fun _ => 0, 7⟩, .spop (ascii "k"))] ∧
      ∃ db replies sets,
        runCommands emptyDb
          [(⟨512, fun _ => 0, 0⟩, .sadd (ascii "k") (ascii "1") [ascii "01"]),
            (⟨0, fun _ => 0, 7⟩, .smove (ascii "k") (ascii "l") (ascii "01")),
            (⟨512, fun _ => 0, 7⟩, .spop (ascii "k"))] =
          some (db, replies) ∧
        db.Holds sets ∧
        SetRun (fun _ => ∅)
          [.sadd (ascii "k") (ascii "1") [ascii "01"],
            .smove (ascii "k") (ascii "l") (ascii "01"), .spop (ascii "k")]
          replies sets := by
  have hmeets : Meets emptyDb
      [(⟨512, fun _ => 0, 0⟩, .sadd (ascii "k") (ascii "1") [ascii "01"]),
        (⟨0, fun _ => 0, 7⟩, .smove (ascii "k") (ascii "l") (ascii "01")),
        (⟨512, fun _ => 0, 7⟩, .spop (ascii "k"))] := by
    refine ⟨by simp [Env.Small], fun _ _ => trivial, fun _ _ => ?_⟩
    refine ⟨by simp [Env.Small], fun _ _ heq => absurd heq (by decide), ?_⟩
    intro _ _
    exact ⟨by simp [Env.Small], fun _ _ => trivial, fun _ _ => trivial⟩
  exact ⟨hmeets, sets_run_as_sets _ hmeets⟩

/-- SMOVE of a string that is no member, from a set to itself, is answered as
if it had been moved. -/
theorem smove_self_of_no_member :
    ¬ ∃ db replies sets,
      runCommands emptyDb
        [(⟨512, fun _ => 0, 0⟩, .sadd (ascii "k") (ascii "1") []),
          (⟨512, fun _ => 0, 0⟩, .smove (ascii "k") (ascii "k") (ascii "2"))] =
        some (db, replies) ∧
      db.Holds sets ∧
      SetRun (fun _ => ∅)
        [.sadd (ascii "k") (ascii "1") [],
          .smove (ascii "k") (ascii "k") (ascii "2")] replies sets := by
  rintro ⟨db, replies, sets, hrun, -, _, _, next, rfl, ⟨rfl, -⟩,
    _, _, _, rfl, hmeans, -⟩
  have hreplies : (runCommands emptyDb
      [(⟨512, fun _ => 0, 0⟩, .sadd (ascii "k") (ascii "1") []),
        (⟨512, fun _ => 0, 0⟩,
          .smove (ascii "k") (ascii "k") (ascii "2"))]).map Prod.snd =
      some [.integer 1, .integer 1] := rfl
  rw [hrun] at hreplies
  simp only [Option.map_some, Option.some.injEq, cons.injEq] at hreplies
  have hout : ascii "2" ∉ update (fun _ => (∅ : Finset Bytes))
      (ascii "k") (∅ ∪ [ascii "1"].toFinset) (ascii "k") := by decide
  rw [Command.Means, if_neg hout, hreplies.2.1] at hmeans
  cases hmeans.2

end Runs

/-! ## SMOVE under any two keys -/

section Moves

variable {db : Db} {sets : MemberSets} {env : Env} {src dst member : Bytes}

/-- SMOVE conserves the member: the reply tells whether it was in the source,
and it is moved if it was. -/
def Conserves (src dst member : Bytes) (sets : MemberSets) (db : Db)
    (effect : Effect) : Prop :=
  (effect.reply = cone ↔ member ∈ sets src) ∧
    if member ∈ sets src then
      (effect.db dst).Holds (insert member (sets dst)) ∧
      (src ≠ dst → (effect.db src).Holds ((sets src).erase member)) ∧
      ∀ key, key ≠ src → key ≠ dst → effect.db key = db key
    else effect = { db, reply := czero }

theorem conserves_unmoved (hmem : member ∉ sets src) :
    Conserves src dst member sets db { db, reply := czero } := by
  refine ⟨iff_of_false (by simp [cone, czero]) hmem, ?_⟩
  rw [if_neg hmem]

theorem moveMember_conserves (henv : env.Small) (hne : src ≠ dst)
    {srcset : SetObj} (hsrc : srcset.Holds (sets src))
    (hdst : (db dst).Holds (sets dst)) :
    ∃ effect, moveMember env src dst member srcset db = some effect ∧
      Conserves src dst member sets db effect := by
  obtain ⟨effect, hrun, hspec⟩ := moveMember_spec henv member hsrc hdst
  refine ⟨effect, hrun, ?_⟩
  by_cases hmem : member ∈ sets src
  · rw [if_pos hmem] at hspec
    obtain ⟨hreply, from', to', hdb, hfrom, hto⟩ := hspec
    refine ⟨iff_of_true hreply hmem, ?_⟩
    rw [if_pos hmem, hdb]
    refine ⟨?_, fun _ => ?_, fun key hkeySrc hkeyDst => ?_⟩
    · rwa [update_self]
    · rwa [update_of_ne hne, update_self]
    · rw [update_of_ne hkeyDst, update_of_ne hkeySrc]
  · rw [if_neg hmem] at hspec
    exact hspec ▸ conserves_unmoved hmem

/-- SMOVE conserves the member exactly when it is not asked to move a string
that is no member from a set to itself. -/
theorem smove_conserves_iff (henv : env.Small) (member : Bytes)
    (hsrc : (db src).Holds (sets src)) (hdst : (db dst).Holds (sets dst)) :
    ∃ effect, smoveCommand env src dst member db = some effect ∧
      (Conserves src dst member sets db effect ↔
        (src = dst → sets src = ∅ ∨ member ∈ sets src)) := by
  cases hstored : db src with
  | otherType =>
    rw [hstored] at hsrc
    exact hsrc.elim
  | absent =>
    rw [hstored] at hsrc
    have hempty : sets src = ∅ := hsrc
    have hmem : member ∉ sets src := hempty ▸ Finset.notMem_empty member
    simp only [smoveCommand, hstored]
    exact ⟨_, rfl, iff_of_true (conserves_unmoved hmem) fun _ => .inl hempty⟩
  | set srcset =>
    rw [hstored] at hsrc
    have hmove : smoveCommand env src dst member db =
        if src = dst then some { db, reply := cone }
        else moveMember env src dst member srcset db := by
      cases hto : db dst with
      | absent | set o => simp only [smoveCommand, hstored, hto]
      | otherType =>
        rw [hto] at hdst
        exact hdst.elim
    rw [hmove]
    split
    · rename_i heq
      subst heq
      refine ⟨_, rfl, fun hconserves _ => .inr (hconserves.1.1 rfl),
        fun hfits => ?_⟩
      have hmem := (hfits rfl).resolve_left hsrc.2
      refine ⟨iff_of_true rfl hmem, ?_⟩
      rw [if_pos hmem, Finset.insert_eq_of_mem hmem]
      exact ⟨hdst, fun hne => absurd rfl hne, fun _ _ _ => rfl⟩
    · rename_i hne
      obtain ⟨effect, hrun, hconserves⟩ :=
        moveMember_conserves henv hne hsrc.1 hdst
      exact ⟨effect, hrun, iff_of_true hconserves fun heq => absurd heq hne⟩

/-- A hash table with the member `x`, under the key `k`. -/
def oneMember : Db :=
  update emptyDb (ascii "k") (.set (.ht [(.raw (ascii "x"), ())]))

def oneMemberSets : MemberSets := update (fun _ => ∅) (ascii "k") {ascii "x"}

theorem holds_oneMember : oneMember.Holds oneMemberSets := by
  have hnil : AssocMap.Lists [] (indicator ∅) := AssocMap.lists_nil
  have hone := hnil.cons (indicator_eq_none_iff.2 (Finset.notMem_empty (ascii "x"))) ()
  rw [indicator_insert] at hone
  exact holds_emptyDb.update ⟨hone, Finset.singleton_ne_empty _⟩

/-- The member moves to a key that was not there. -/
theorem smove_conserves_iff_absent :
    ∃ effect, smoveCommand ⟨512, fun _ => 0, 0⟩ (ascii "k") (ascii "l")
        (ascii "x") oneMember = some effect ∧
      (Conserves (ascii "k") (ascii "l") (ascii "x") oneMemberSets oneMember
          effect ↔ (ascii "k" = ascii "l" → oneMemberSets (ascii "k") = ∅ ∨
            ascii "x" ∈ oneMemberSets (ascii "k"))) :=
  smove_conserves_iff (by simp [Env.Small]) _ (holds_oneMember _)
    (holds_oneMember _)

/-- Moving `y`, which is no member, from the set to itself is answered by 1. -/
theorem smove_not_member_to_itself :
    ∃ effect, smoveCommand ⟨512, fun _ => 0, 0⟩ (ascii "k") (ascii "k")
        (ascii "y") oneMember = some effect ∧ oneMember.Holds oneMemberSets ∧
      ¬ Conserves (ascii "k") (ascii "k") (ascii "y") oneMemberSets oneMember
        effect := by
  refine ⟨_, rfl, holds_oneMember, fun hconserves => ?_⟩
  exact absurd (hconserves.1.1 rfl) (by decide)

end Moves

end RedisV8.Sets
