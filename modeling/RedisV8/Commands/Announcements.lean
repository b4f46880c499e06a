import RedisV8.Commands.Elements

/-!
# Which commands announce the keys they empty

A key that goes away with its last element, or because a command stored
nothing, is announced by one `del` event, except by LREM, ZREM, by SINTERSTORE
when it finds a source missing, and when a blocked client is served.
-/

namespace RedisV8.Commands

open Util Server Keyspace Effects List
open RedisV8.Lists (Side)

variable {env : Env} {d : Dataset} {k k' : Key} {int : Internals}
  {views : Views} {c : Client} {argv : List Bytes} {text : Bytes}
  {f : ℤ → Cmd Outcome}

/-! ## Stores -/

section Stores

/-- Only an intersection ends at a missing source. -/
theorem lookupSets_ne_missing (keys : List Bytes) (s : State) :
    (run (handle env) (lookupSets c false keys) s).1 ≠ .missing := by
  induction keys generalizing s with
  | nil => exact nofun
  | cons key keys ih =>
    have hcons : ∀ t s, (run (handle env)
        (Sources.cons t <$> lookupSets c false keys) s).1 ≠ .missing := by
      intro t s
      rw [run_map]
      cases hrest : (run (handle env) (lookupSets c false keys) s).1 with
      | sets | wrongtype => exact nofun
      | missing => exact absurd hrest (ih s)
    rw [lookupSets, run_bind]
    split
    · exact hcons _ _
    · exact hcons _ _
    · exact nofun

/-- The store of a union, a difference or an intersection. -/
theorem announced_setopStore (op : SetOp) (d : Dataset) (k : Key)
    (hfound : (run (handle env) (lookupSets c (op = .inter) (argv.drop 2))
      (State.init d)).1 ≠ .missing) :
    Announced d k
      (run (handle env) (setopStore op c argv) (State.init d)).2 := by
  have hquiet : Quiet d k (run (handle env)
      (lookupSets c (op = .inter) (argv.drop 2)) (State.init d)).2 :=
    (reads_lookupSets _ _).calm.quiet _ (quiet_init d k)
  rw [setopStore, run_bind]
  generalize run (handle env) (lookupSets c (op = .inter) (argv.drop 2))
    (State.init d) = result at hfound hquiet ⊢
  obtain ⟨sources, s⟩ := result
  cases sources with
  | sets sets => exact (fine_storeSet op _ env).2 d k s hquiet
  | wrongtype => exact hquiet.announced
  | missing => exact absurd rfl hfound

/-- The key that SORT stores nothing at. -/
theorem announces_sortStore (output : List Bytes) (outputlen : ℕ) :
    Announces env d k (sortStore k' output outputlen) := by
  rw [sortStore]
  split
  · refine quiet_dbDelete.bind fun deleted => ?_
    cases deleted with
    | true =>
      have hnotify : Triple (handle env) (Unannounced d k k')
          (notifyKeyspaceEvent .generic "del" k') fun _ => Announced d k :=
        fun _ hs => hs.notify env
      exact (Calm.signalModifiedKey.afterDelete true).bind fun _ =>
        hnotify.bind fun _ => (Calm.addDirty 1).announced.bind
          fun _ _ hs => hs
    | false => exact fun s hs => Quiet.announced hs
  · have hrest : Calm (notifyKeyspaceEvent .list "sortstore" k' >>= fun _ =>
        addDirty outputlen >>= fun _ => addReply (.integer outputlen)) :=
      (Calm.notify (by decide) _).bind fun _ => (Calm.addDirty _).bind
        fun _ => .addReply _
    exact .bind (quiet_setKey _) fun _ s hs => (hrest.quiet s hs).announced

theorem announces_sortCommand :
    Announces env d k (sortCommand int views c argv) := by
  refine .bind Reads.lookup.calm.quiet fun found => ?_
  split
  · exact .addReply _
  split
  · exact .addReply _
  next o _ =>
    rw [sortVector]
    refine .bind (reads_sortWeights o _).calm.quiet fun weights => ?_
    split
    · exact .addReply _
    refine .bind (reads_sortOutput o.gets _).calm.quiet fun output => ?_
    split
    · exact .addReply _
    · exact announces_sortStore _ _

end Stores

/-! ## Commands that keep silent -/

section Silent

theorem mute_withLong (hf : ∀ n, Mute (f n)) : Mute (withLong text f) := by
  rw [withLong]
  split
  · trivial
  · exact hf _

theorem mute_lremCommand : Mute (lremCommand int c argv) := by
  refine mute_withLong fun _ => Issues.bind (Issues.perform nofun) fun o => ?_
  split
  · trivial
  · exact Issues.bind (Issues.perform nofun) fun _ => trivial
  next value _ =>
    match value with
    | .list l =>
      have hevents : ((Lists.Command.lrem (arg argv 2) (arg argv 3)).mean l
          int.index).events = [] := by
        simp only [Lists.Command.mean, Lists.meanRem, Lists.orReply]
        split <;> rfl
      rw [onList, listChange]
      split
      · exact Mute.put (by rw [hevents]; exact not_mem_nil)
      · trivial
    | .string _ | .set _ | .hash _ | .zset _ => trivial

theorem mute_zremCommand : Mute (zremCommand c argv) := by
  refine Issues.bind (Issues.perform nofun) fun o => ?_
  match o with
  | none => trivial
  | some (.zset z) =>
    simp only [zsetChange, zremoveChange, Bool.false_and]
    split
    · trivial
    · exact Mute.put (by decide)
  | some (.string _) | some (.list _) | some (.set _) | some (.hash _) =>
    trivial

theorem mute_rpoplpushHandlePush (dst : Option (List Bytes)) (value : Bytes) :
    Mute (rpoplpushHandlePush k dst value) := by
  have hrest : Mute (signalModifiedKey k >>= fun _ =>
      notifyKeyspaceEvent .list "lpush" k) :=
    Issues.bind (Issues.perform nofun) fun _ => Issues.perform nofun
  cases dst with
  | none =>
    exact Issues.bind (Issues.perform nofun) fun _ =>
      Issues.bind (Issues.perform nofun) fun _ => hrest
  | some l => exact Issues.bind (Issues.perform nofun) fun _ => hrest

theorem mute_serveLoop (db : ℕ) (key : Bytes) (receivers : List Receiver)
    (l : List Bytes) : Mute (serveLoop db key receivers l) := by
  have hserve : ∀ value target,
      Mute (serveClientBlockedOnList db value target) := by
    intro value target
    cases target with
    | none => trivial
    | some dst =>
      refine Issues.bind (Issues.perform (by simp)) fun o => ?_
      rcases o with _ | _ | _
      case none | some.list =>
        exact Issues.bind (mute_rpoplpushHandlePush _ _) fun _ => trivial
      all_goals trivial
  induction receivers generalizing l with
  | nil => trivial
  | cons r receivers ih =>
    rw [serveLoop]
    split
    · trivial
    refine Issues.bind (Issues.perform (by simp)) fun _ =>
      Issues.bind (hserve _ _) fun served => ?_
    cases served with
    | true => exact ih _
    | false => exact Issues.bind (Issues.perform (by simp)) fun _ => ih _

theorem mute_handleClientsBlockedOn (db : ℕ) (key : Bytes)
    (receivers : List Receiver) :
    Mute (handleClientsBlockedOn db key receivers) := by
  refine Issues.bind (Issues.perform nofun) fun o => ?_
  match o with
  | some (.list l) =>
    refine Issues.bind (mute_serveLoop _ _ _ _) fun left => ?_
    split
    · exact Issues.bind (Issues.perform nofun) fun _ => trivial
    · trivial
  | none | some (.string _) | some (.set _) | some (.hash _)
  | some (.zset _) => trivial

/-- The intersection that finds a source missing. -/
theorem dels_sinterstoreCommand (d : Dataset) (k : Key)
    (hmissing : (run (handle env) (lookupSets c true (argv.drop 2))
      (State.init d)).1 = .missing) :
    dels k (run (handle env) (sinterstoreCommand c argv) (State.init d)).2 =
      0 := by
  have hquiet : Quiet d k (run (handle env)
      (lookupSets c true (argv.drop 2)) (State.init d)).2 :=
    (reads_lookupSets _ _).calm.quiet _ (quiet_init d k)
  have hmute : Mute (do
      if ← dbDelete (keyArg c argv 1) then
        signalModifiedKey (keyArg c argv 1)
        addDirty 1
      addReply Reply.czero) := by
    refine Issues.bind (Issues.perform nofun) fun deleted => ?_
    cases deleted with
    | true =>
      exact Issues.bind (Issues.perform nofun) fun _ =>
        Issues.bind (Issues.perform nofun) fun _ => trivial
    | false => trivial
  rw [sinterstoreCommand, setopStore, run_bind]
  simp only [decide_true]
  rw [hmissing]
  exact hmute.dels_eq _ hquiet.2

end Silent

/-! ## All actions -/

section Actions

/-- What removes keys without a word. -/
def Action.Silent (env : Env) (d : Dataset) : Action → Prop
  | .call cmd c argv =>
    cmd.name = "lrem" ∨ cmd.name = "zrem" ∨
      cmd.name = "sinterstore" ∧
        (Effects.run (handle env) (lookupSets c true (argv.drop 2))
          (State.init d)).1 = .missing
  | .serve _ _ _ => True

/-- The command announces what it removes, unless it is silent. -/
def Speaks (cmd : RedisCommand) : Prop :=
  ∀ proc, cmd.proc = .data proc → ∀ env c argv d k,
    (¬ (Action.call cmd c argv).Silent env d →
      Announced d k (run (handle env) (proc c argv) (State.init d)).2) ∧
    ((Action.call cmd c argv).Silent env d →
      dels k (run (handle env) (proc c argv) (State.init d)).2 = 0)

/-- A command of another name. -/
theorem Speaks.of_announced {name sflags : String}
    {arity firstkey lastkey keystep : ℤ} {getkeysProc : Option GetKeys}
    {proc : Client → List Bytes → Cmd Outcome}
    (hname : name ∉ ["lrem", "zrem", "sinterstore"])
    (h : ∀ env c argv d k, Announced d k
      (run (handle env) (proc c argv) (State.init d)).2) :
    Speaks ⟨name, .data proc, arity, sflags, getkeysProc, firstkey, lastkey,
      keystep⟩ := by
  rintro _ ⟨⟩ env c argv d k
  refine ⟨fun _ => h env c argv d k, fun hsilent => ?_⟩
  simp only [mem_cons, not_mem_nil, or_false, not_or] at hname
  obtain h | h | h := hsilent
  · exact absurd h hname.1
  · exact absurd h hname.2.1
  · exact absurd h.1 hname.2.2

theorem speaks_sinterstore : Speaks ⟨"sinterstore",
    .data (setopStore .inter), -3, "wm", none, 1, -1, 1⟩ := by
  rintro _ ⟨⟩ env c argv d k
  refine ⟨fun hspeaks => announced_setopStore .inter d k fun hmissing =>
    hspeaks (Or.inr (Or.inr ⟨rfl, hmissing⟩)), fun hsilent => ?_⟩
  obtain h | h | h := hsilent
  · exact absurd h (by decide)
  · exact absurd h (by decide)
  · exact dels_sinterstoreCommand d k h.2

variable (int : Internals) (views : Views)

theorem speaks_collectionTable :
    ∀ cmd ∈ collectionTable int views, Speaks cmd := by
  intro cmd hcmd
  cases kind_collectionTable int views cmd hcmd with
  | fine hname h =>
    exact .of_announced hname fun env c argv d k =>
      (h c argv env).2 d k _ (quiet_init d k)
  | creates hname _ h =>
    exact .of_announced hname fun env c argv d k =>
      h env c argv d k _ (quiet_init d k)
  | store op hname =>
    obtain ⟨hname, hop⟩ | ⟨rfl, rfl⟩ := hname
    · refine .of_announced hname fun env c argv d k =>
        announced_setopStore op d k ?_
      rw [decide_eq_false hop]
      exact lookupSets_ne_missing _ _
    · exact speaks_sinterstore
  | lrem =>
    rintro _ ⟨⟩ env c argv d k
    exact ⟨fun hspeaks => absurd (Or.inl rfl) hspeaks,
      fun _ => mute_lremCommand.dels_eq _ (quiet_init d k).2⟩
  | zrem =>
    rintro _ ⟨⟩ env c argv d k
    exact ⟨fun hspeaks => absurd (Or.inr (Or.inl rfl)) hspeaks,
      fun _ => mute_zremCommand.dels_eq _ (quiet_init d k).2⟩
  | sort =>
    exact .of_announced (by decide) fun env c argv d k =>
      announces_sortCommand _ (quiet_init d k)

/-- A key that an action removes, and that had not expired, is announced by
exactly one `del` event unless the action is a silent one. -/
theorem removed_key_announced_iff (env : Env) (d : Dataset) (k : Key)
    {action : Action} (hvalid : action.Valid int views)
    (hremoved : Removed d k (action.run env d)) :
    dels k (action.run env d) = 1 ↔ ¬ action.Silent env d := by
  cases action with
  | call cmd c argv =>
    have hspeaks := speaks_collectionTable int views cmd hvalid.1
    rw [Action.run] at hremoved ⊢
    split at hremoved
    · next proc hproc =>
        obtain ⟨hone, hzero⟩ := hspeaks proc hproc env c argv d k
        by_cases hsilent : (Action.call cmd c argv).Silent env d
        · simp [hsilent, hzero hsilent]
        · simp [hsilent, hone hsilent hremoved]
    · exact absurd hremoved (quiet_init d k).1
  | serve db key receivers =>
    have hzero : dels k ((Action.serve db key receivers).run env d) = 0 :=
      (mute_handleClientsBlockedOn db key receivers).dels_eq _
        (quiet_init d k).2
    simp [Action.Silent, hzero]

/-- The list with the element `a` at the key `l`. -/
def oneElement : Dataset := fun _ =>
  Finmap.singleton (ascii "l") ⟨.list [ascii "a"], none⟩

theorem lpop_announces_removed_key :
    Removed oneElement (0, ascii "l")
        ((callOf "lpop" [ascii "lpop", ascii "l"]).run (Env.ofTime 0)
          oneElement) ∧
      dels (0, ascii "l") ((callOf "lpop" [ascii "lpop", ascii "l"]).run
        (Env.ofTime 0) oneElement) = 1 := by
  have hremoved : Removed oneElement (0, ascii "l")
      ((callOf "lpop" [ascii "lpop", ascii "l"]).run (Env.ofTime 0)
        oneElement) := by
    rw [Removed]
    decide +kernel
  refine ⟨hremoved, (removed_key_announced_iff someInternals someViews _ _ _
    (valid_callOf rfl rfl) hremoved).mpr ?_⟩
  rintro (h | h | ⟨h, -⟩) <;> exact absurd h (by decide)

/-- LREM takes the last element of a list, and the key goes without a word. -/
theorem lrem_removes_key_silently :
    (callOf "lrem" [ascii "lrem", ascii "l", ascii "0", ascii "a"]).Valid
        someInternals someViews ∧
      Removed oneElement (0, ascii "l")
        ((callOf "lrem" [ascii "lrem", ascii "l", ascii "0", ascii "a"]).run
          (Env.ofTime 0) oneElement) ∧
      dels (0, ascii "l")
        ((callOf "lrem" [ascii "lrem", ascii "l", ascii "0", ascii "a"]).run
          (Env.ofTime 0) oneElement) = 0 := by
  refine ⟨valid_callOf rfl rfl, ?_, ?_⟩
  · rw [Removed]
    decide +kernel
  · decide +kernel

end Actions

end RedisV8.Commands
