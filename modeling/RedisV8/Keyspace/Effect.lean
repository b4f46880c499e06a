import RedisV8.Keyspace.Operations

/-!
# The effect of a command on one key

Most commands look up one key and put a value in its place.  Such a run is
described by what the lookup finds and by the effect of the change.
-/

namespace RedisV8.Keyspace

open Util Server Effects State

variable {α : Type} {env : Env} {s : State} {k : Key}

/-- A server at a given time that expires keys on its own. -/
def Env.ofTime (now : ℤ) : Env where
  now := now
  later := now
  passive := false
  randomElement s := (s.sort (· ≤ ·)).headD []
  randomElement_mem s hs := by
    rw [← Finset.mem_sort (· ≤ ·)]
    cases h : s.sort (· ≤ ·) with
    | nil =>
      obtain ⟨a, ha⟩ := hs
      rw [← Finset.mem_sort (· ≤ ·), h] at ha
      cases ha
    | cons a l => exact List.mem_cons_self
  keyOrder s := s.sort (· ≤ ·)
  keyOrder_toFinset s := s.sort_toFinset (· ≤ ·)
  transfer := .accepted

/-- The value of a key, once it was looked up. -/
def found (env : Env) (s : State) (k : Key) : Option Value :=
  (handle env (.lookup k) s).1

/-- The server after the lookup of a key. -/
def lookedUp (env : Env) (s : State) (k : Key) : State :=
  (handle env (.lookup k) s).2

theorem found_of_expires (h : s.expires env k = true) :
    found env s k = none := by
  rw [found, handle, if_pos h]

theorem found_of_not_expires (h : s.expires env k = false) :
    found env s k = (s.data.find k).map Entry.value := by
  rw [found, handle, if_neg (by simp [h])]

theorem lookedUp_of_not_expires (h : s.expires env k = false) :
    lookedUp env s k = s := by
  rw [lookedUp, handle, if_neg (by simp [h])]

theorem lookedUp_of_found {value : Value}
    (h : found env s k = some value) : lookedUp env s k = s := by
  cases hexp : s.expires env k with
  | true => rw [found_of_expires hexp] at h; cases h
  | false => exact lookedUp_of_not_expires hexp

/-- A key that is found is there, with the value that was found. -/
theorem find_of_found {value : Value} (h : found env s k = some value) :
    ∃ expire, s.data.find k = some ⟨value, expire⟩ := by
  cases hexp : s.expires env k with
  | true => rw [found_of_expires hexp] at h; cases h
  | false =>
    rw [found_of_not_expires hexp] at h
    obtain ⟨entry, hentry, rfl⟩ := Option.map_eq_some_iff.mp h
    exact ⟨entry.expire, hentry⟩

/-- A key that is not found is not there any more. -/
theorem find_lookedUp_of_found_none (h : found env s k = none) :
    (lookedUp env s k).data.find k = none := by
  cases hexp : s.expires env k with
  | true =>
    rw [lookedUp, handle, if_pos hexp]
    exact Dataset.find_set_self _ _ _
  | false =>
    rw [found_of_not_expires hexp, Option.map_eq_none_iff] at h
    rwa [lookedUp_of_not_expires hexp]

/-- A key without an expire is found. -/
theorem found_init_set (env : Env) (d : Dataset) (k : Key) (value : Value) :
    found env (init (d.set k (some ⟨value, none⟩))) k = some value := by
  have hfind : (init (d.set k (some ⟨value, none⟩))).data.find k =
      some ⟨value, none⟩ := Dataset.find_set_self _ _ _
  have hexp : (init (d.set k (some ⟨value, none⟩))).expires env k =
      false := by
    rw [expires, hfind]
    exact Bool.and_false _
  rw [found_of_not_expires hexp, hfind]
  rfl

theorem found_init_empty (env : Env) (k : Key) :
    found env (init fun _ => ∅) k = none := by
  have hfind : (init fun _ => ∅).data.find k = none :=
    Finmap.lookup_empty _
  have hexp : (init fun _ => ∅).expires env k = false := by
    rw [expires, hfind]
    exact Bool.and_false _
  rw [found_of_not_expires hexp, hfind]
  rfl

theorem store_store (s : State) (k : Key) (value value' : Value) :
    (s.store k value).store k value' = s.store k value' := by
  simp only [store, put, Dataset.find_set_self, Dataset.set_set,
    Option.bind_some]

theorem dirty_lookedUp (env : Env) (s : State) (k : Key) :
    (lookedUp env s k).dirty = s.dirty := by
  rw [lookedUp, handle]
  split <;> rfl

/-- A lookup removes its key at most, and records that. -/
theorem data_lookedUp_init (env : Env) (d : Dataset) (k : Key) :
    (lookedUp env (init d) k).data =
      d.without (lookedUp env (init d) k).expired := by
  rw [lookedUp, handle]
  split <;> rfl

namespace Change

def reply : Change → Reply
  | .answer r => r
  | .put _ _ _ _ r => r

/-- What a change makes of the server. -/
def effect (k : Key) : Change → State → State
  | .answer _, s => s
  | .put value n events vector _, s =>
    { data := (value.elim (s.put k none) (s.store k)).data
      modified := (s.signalModifiedKey k).modified
      ready := s.ready
      events := s.events ++ events.map fun e => (e.1, e.2, k)
      dirty := s.dirty + n
      expired := s.expired
      vector := vector.elim s.vector some }

end Change

theorem run_notifyAll (events : List (EventClass × String)) (s : State) :
    run (handle env) (notifyAll k events) s =
      ((), { s with events := s.events ++ events.map fun e => (e.1, e.2, k) }) := by
  induction events generalizing s with
  | nil => simp [notifyAll]
  | cons event events ih =>
    rw [notifyAll, notifyKeyspaceEvent, Prog.perform_bind, run_op, ih]
    simp [handle]

theorem run_applyChange (change : Change) (s : State) :
    run (handle env) (applyChange k change) s =
      (.reply change.reply, change.effect k s) := by
  cases change with
  | answer r => rfl
  | put value n events vector r =>
    cases value <;> cases vector <;>
      simp [applyChange, dbReplace, dbOverwrite, dbDelete, signalModifiedKey,
        addDirty, rewriteIf, rewriteClientCommandVector, addReply, run_bind,
        run_notifyAll, handle, Change.reply, Change.effect, State.store,
        State.put, State.signalModifiedKey, Prog.perform]

/-- The change that a command on one key makes. -/
def changeOf (missing : Change) (f : Value → Change) (o : Option Value) :
    Change :=
  o.elim missing f

theorem run_updateCommand (missing : Change) (f : Value → Change)
    (s : State) :
    run (handle env) (updateCommand k missing f) s =
      (.reply (changeOf missing f (found env s k)).reply,
        (changeOf missing f (found env s k)).effect k (lookedUp env s k)) := by
  rw [updateCommand, lookupKeyWrite, Prog.perform_bind, run_op, found, lookedUp]
  cases (handle env (.lookup k) s).1 with
  | none => exact run_applyChange _ _
  | some value => exact run_applyChange _ _

/-- The server on which a command that creates its value makes its change. -/
def created (env : Env) (s : State) (k : Key) (empty : Value) : State :=
  (found env s k).elim ((lookedUp env s k).store k empty)
    fun _ => lookedUp env s k

theorem run_createCommand (empty : Value) (f : Value → Change) (s : State) :
    run (handle env) (createCommand k empty f) s =
      (.reply (f ((found env s k).getD empty)).reply,
        (f ((found env s k).getD empty)).effect k (created env s k empty)) := by
  rw [createCommand, lookupKeyWrite, Prog.perform_bind, run_op, created, found,
    lookedUp]
  cases (handle env (.lookup k) s).1 with
  | none => exact run_applyChange _ _
  | some value => exact run_applyChange _ _

theorem run_readCommand (missing : Reply) (f : Value → Reply) (s : State) :
    run (handle env) (readCommand k missing f) s =
      (.reply ((found env s k).elim missing f), lookedUp env s k) := by
  rw [readCommand, run_updateCommand]
  cases found env s k <;> rfl

/-! ## Programs that only read -/

/-- The operation changes the data set. -/
def Op.writes : Op → Prop
  | .store _ _ | .delete _ | .setExpire _ _ | .removeExpire _ | .flush _ =>
    True
  | _ => False

/-- The operation only looks at the data set or at what is outside of it. -/
def Op.reads : Op → Prop
  | .lookup _ | .find _ | .getExpire _ | .keys _ | .now _ | .passive
  | .randomElement _ | .transfer => True
  | _ => False

theorem Op.not_writes_of_reads {e : Op} (h : e.reads) : ¬ e.writes := by
  cases e <;> first | exact id | exact absurd h id

/-- The program changes nothing, except that lookups remove expired keys. -/
def Reads {α : Type} (p : Cmd α) : Prop := Issues Op.reads p

namespace Reads

theorem pure {α : Type} (a : α) : Reads (Pure.pure a) := trivial

theorem addReply (r : Reply) : Reads (addReply r) := trivial

theorem bind {α β : Type} {p : Cmd α} {f : α → Cmd β} (hp : Reads p)
    (hf : ∀ a, Reads (f a)) : Reads (p >>= f) := Issues.bind hp hf

theorem map {α β : Type} {p : Cmd α} (hp : Reads p) (f : α → β) :
    Reads (f <$> p) := Issues.map hp f

theorem perform {e : Op} (he : e.reads) : Reads (Prog.perform e) :=
  Issues.perform he

theorem lookup : Reads (Prog.perform (Op.lookup k)) := perform trivial

theorem readCommand (missing : Reply) (f : Value → Reply) :
    Reads (readCommand k missing f) := by
  refine lookup.bind fun found => ?_
  cases found <;> exact .addReply _

end Reads

end RedisV8.Keyspace
