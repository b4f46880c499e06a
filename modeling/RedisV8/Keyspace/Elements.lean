import RedisV8.Keyspace.Effect

/-!
# Keys that hold a collection without elements

A command may pass through such a state, when it adds a key before it fills
it.  `Filled H` says that only keys in `H` are in that state.
-/

namespace RedisV8.Keyspace

open Util Server Effects

def Value.HasElements : Value → Prop
  | .string _ => True
  | .list l => l ≠ []
  | .set s => s ≠ ∅
  | .hash h => h.keys ≠ ∅
  | .zset z => z.keys ≠ ∅

/-- No key holds a collection without elements. -/
def NoEmpty (d : Dataset) : Prop :=
  ∀ k entry, d.find k = some entry → entry.value.HasElements

def Filled (H : Set Key) (s : State) : Prop :=
  ∀ k ∉ H, ∀ entry, s.data.find k = some entry → entry.value.HasElements

variable {α β : Type} {env : Env} {s : State} {k : Key} {H : Set Key}

theorem filled_empty_iff : Filled ∅ s ↔ NoEmpty s.data :=
  ⟨fun h k => h k (Set.notMem_empty k), fun h k _ => h k⟩

/-! ## Operations -/

section Operations

/-- What holds of the entry of one key once it was replaced. -/
theorem Filled.put {o : Option Entry} (h : Filled (insert k H) s)
    (ho : ∀ entry, o = some entry → entry.value.HasElements) :
    Filled H (s.put k o) := by
  intro k' hk' entry hentry
  rw [State.put, Dataset.find_set] at hentry
  split_ifs at hentry with hk
  · exact ho entry hentry
  · exact h k' (by simp [hk, hk']) entry hentry

theorem Filled.weaken (h : Filled H s) : Filled (insert k H) s :=
  fun k' hk' => h k' fun hmem => hk' (Set.mem_insert_of_mem _ hmem)

theorem Filled.store {value : Value} (h : Filled (insert k H) s)
    (hvalue : value.HasElements) : Filled H (s.store k value) :=
  h.put fun entry hentry => by
    cases hentry
    exact hvalue

theorem Filled.delete (h : Filled (insert k H) s) : Filled H (s.put k none) :=
  h.put fun _ hentry => by cases hentry

/-- A key that gets a value without elements is one of the exceptions. -/
theorem Filled.store_insert (h : Filled H s) (value : Value) :
    Filled (insert k H) (s.store k value) := by
  intro k' hk' entry hentry
  rw [Set.mem_insert_iff, not_or] at hk'
  rw [State.store, State.put, Dataset.find_set_of_ne hk'.1] at hentry
  exact h k' hk'.2 entry hentry

theorem Filled.lookedUp (h : Filled H s) : Filled H (lookedUp env s k) := by
  rw [Keyspace.lookedUp, handle]
  split
  · exact Filled.delete h.weaken
  · exact h

theorem Filled.found {value : Value} (h : Filled H s) (hk : k ∉ H)
    (hfound : found env s k = some value) : value.HasElements := by
  obtain ⟨expire, hentry⟩ := find_of_found hfound
  exact h k hk _ hentry

theorem Filled.step {e : Op} (he : ¬ e.writes) (h : Filled H s) :
    Filled H (handle env e s).2 := by
  cases e with
  | lookup k => exact h.lookedUp
  | signalListAsReady k =>
    rw [handle, State.signalListAsReady]
    split <;> exact h
  | store | delete | setExpire | removeExpire | flush =>
    exact absurd trivial he
  | _ => exact h

theorem Filled.removeExpire (h : Filled H s) :
    Filled H (s.removeExpire k) := by
  intro k' hk' entry hentry
  rw [State.removeExpire, State.put, Dataset.find_set] at hentry
  split_ifs at hentry with hk
  · obtain ⟨before, hbefore, rfl⟩ := Option.map_eq_some_iff.mp hentry
    exact h k (hk ▸ hk') before hbefore
  · exact h k' hk' entry hentry

end Operations

/-! ## Programs -/

section Programs

/-- A program that leaves no key without elements if there was none. -/
def Keeps (env : Env) (p : Cmd α) : Prop :=
  Triple (handle env) (Filled ∅) p fun _ => Filled ∅

namespace Keeps

theorem pure (a : α) : Keeps env (Pure.pure a) := fun _ hs => hs

theorem addReply (r : Reply) : Keeps env (addReply r) := pure _

theorem bind {p : Cmd α} {f : α → Cmd β} (hp : Keeps env p)
    (hf : ∀ a, Keeps env (f a)) : Keeps env (p >>= f) := Triple.bind hp hf

theorem map {p : Cmd α} (hp : Keeps env p) (f : α → β) :
    Keeps env (f <$> p) := Triple.map hp

theorem perform {e : Op} (he : ¬ e.writes) : Keeps env (Prog.perform e) :=
  fun _ hs => hs.step he

/-- A program that changes nothing. -/
theorem of_reads {p : Cmd α} (hp : Reads p) : Keeps env p :=
  Issues.triple (fun _ _ he hs => hs.step (Op.not_writes_of_reads he)) hp

/-- The values that are looked up have elements. -/
theorem lookup {f : Option Value → Cmd α} (hnone : Keeps env (f none))
    (hsome : ∀ value, value.HasElements → Keeps env (f (some value))) :
    Keeps env (lookupKeyWrite k >>= f) := by
  intro s hs
  rw [run_bind]
  change Filled ∅ (run (handle env) (f (found env s k)) (lookedUp env s k)).2
  cases hfound : found env s k with
  | none => exact hnone _ hs.lookedUp
  | some value =>
    exact hsome value (hs.found (Set.notMem_empty k) hfound) _ hs.lookedUp

theorem store {value : Value} (hvalue : value.HasElements) :
    Keeps env (Prog.perform (Op.store k value)) :=
  fun _ hs => Filled.store hs.weaken hvalue

theorem dbDelete : Keeps env (dbDelete k) := fun _ hs => Filled.delete hs.weaken

theorem setKey {value : Value} (hvalue : value.HasElements) :
    Keeps env (setKey k value) := by
  have hrest : Keeps env (Keyspace.removeExpire k >>= fun _ =>
      signalModifiedKey k) :=
    bind (fun _ hs => hs.removeExpire) fun _ => perform id
  exact lookup (bind (store hvalue) fun _ => hrest)
    fun _ _ => bind (store hvalue) fun _ => hrest

theorem notifyAll (events : List (EventClass × String)) :
    Keeps env (notifyAll k events) := by
  intro s hs
  rw [run_notifyAll]
  exact hs

end Keeps

/-- What a change leaves has elements. -/
def Change.LeavesElements : Change → Prop
  | .answer _ => True
  | .put value _ _ _ _ => ∀ v, value = some v → v.HasElements

def Change.isPut : Change → Bool
  | .answer _ => false
  | .put _ _ _ _ _ => true

theorem Filled.effect {change : Change} (h : Filled (insert k H) s)
    (hchange : change.LeavesElements) (hput : change.isPut = true) :
    Filled H (change.effect k s) := by
  cases change with
  | answer r => cases hput
  | put value n events vector r =>
    cases value with
    | none => exact Filled.delete h
    | some value => exact Filled.store h (hchange value rfl)

theorem Keeps.applyChange {change : Change}
    (hchange : change.LeavesElements) : Keeps env (applyChange k change) := by
  intro s hs
  rw [run_applyChange]
  cases change with
  | answer r => exact hs
  | put value n events vector r => exact hs.weaken.effect hchange rfl

theorem Keeps.updateCommand {missing : Change} {f : Value → Change}
    (hmissing : missing.LeavesElements)
    (hf : ∀ value, value.HasElements → (f value).LeavesElements) :
    Keeps env (updateCommand k missing f) :=
  lookup (.applyChange hmissing) fun value hvalue =>
    .applyChange (hf value hvalue)

/-- A value that was added without elements gets some. -/
theorem Keeps.createCommand {empty : Value} {f : Value → Change}
    (hempty : (f empty).LeavesElements) (hput : (f empty).isPut = true)
    (hf : ∀ value, value.HasElements → (f value).LeavesElements) :
    Keeps env (createCommand k empty f) := by
  refine lookup (fun s hs => ?_) fun value hvalue =>
    .applyChange (hf value hvalue)
  have hadded : Filled (insert k ∅) (s.store k empty) := hs.store_insert empty
  rw [run_bind, run_applyChange]
  exact hadded.effect hempty hput

end Programs

end RedisV8.Keyspace
