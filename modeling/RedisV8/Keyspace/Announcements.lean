import RedisV8.Keyspace.Elements

/-!
# Announcing removed keys

A command that removes a key announces it with a `del` event.  `d` is the data
the command was called with, and `k` any key.  Most commands that do so also
leave no key without elements, and both are said of them at once.
-/

namespace RedisV8.Keyspace

open Util Server Effects List

/-- The key was there and is gone, and it had not expired. -/
def Removed (d : Dataset) (k : Key) (s : State) : Prop :=
  (d.find k).isSome = true ∧ s.data.find k = none ∧ k ∉ s.expired

/-- The number of `del` events for a key. -/
def dels (k : Key) (s : State) : ℕ := s.events.count (.generic, "del", k)

/-- Nothing has happened to the key. -/
def Quiet (d : Dataset) (k : Key) (s : State) : Prop :=
  ¬ Removed d k s ∧ dels k s = 0

/-- The key may have been removed if it is `k'`, and this is not announced
yet. -/
def Unannounced (d : Dataset) (k k' : Key) (s : State) : Prop :=
  (Removed d k s → k = k') ∧ dels k s = 0

def Announced (d : Dataset) (k : Key) (s : State) : Prop :=
  Removed d k s → dels k s = 1

variable {α β : Type} {env : Env} {d : Dataset} {k k' : Key} {s s' : State}
  {e : Op} {p : Cmd α}

theorem quiet_init (d : Dataset) (k : Key) : Quiet d k (State.init d) := by
  refine ⟨fun ⟨hsome, hnone, _⟩ => ?_, rfl⟩
  have hnone : d.find k = none := hnone
  rw [hnone] at hsome
  cases hsome

theorem Quiet.announced (h : Quiet d k s) : Announced d k s :=
  fun hremoved => absurd hremoved h.1

theorem removed_congr (hdata : s'.data.find k = s.data.find k)
    (hexpired : s'.expired = s.expired) :
    Removed d k s' ↔ Removed d k s := by
  rw [Removed, Removed, hdata, hexpired]

theorem removed_put_of_ne {o : Option Entry} (hne : k ≠ k') :
    Removed d k (s.put k' o) ↔ Removed d k s :=
  removed_congr (Dataset.find_set_of_ne hne o) rfl

/-- Only another key can be gone after a store. -/
theorem removed_store {value : Value}
    (h : Removed d k (s.store k' value)) : k ≠ k' ∧ Removed d k s := by
  by_cases hk : k = k'
  · obtain ⟨-, hnone, -⟩ := h
    rw [hk, State.store, State.put, Dataset.find_set_self] at hnone
    cases hnone
  · exact ⟨hk, (removed_put_of_ne hk).mp h⟩

/-! ## Operations -/

/-- The operation removes nothing and announces no removal. -/
def Op.tame (e : Op) : Prop :=
  ¬ e.writes ∧ ∀ k, e ≠ .notify .generic "del" k

theorem Op.tame_of_reads (h : e.reads) : e.tame :=
  ⟨Op.not_writes_of_reads h, fun _ heq => by cases heq; exact h⟩

theorem dels_notify (cls : EventClass) (event : String) (s : State) :
    dels k (handle env (.notify cls event k') s).2 =
      dels k s + if (cls, event, k') = (.generic, "del", k) then 1 else 0 := by
  simp [dels, handle, count_append, count_singleton, beq_iff_eq]

theorem dels_expire (s : State) : dels k (s.expire k') = dels k s := by
  simp [dels, State.expire, count_append]

theorem removed_of_expire (h : Removed d k (s.expire k')) : Removed d k s := by
  obtain ⟨hsome, hnone, hexpired⟩ := h
  have hk : k ∉ s.expired ++ [k'] := hexpired
  rw [mem_append, mem_singleton, not_or] at hk
  have hdata : (s.data.set k' none).find k = none := hnone
  rw [Dataset.find_set_of_ne hk.2] at hdata
  exact ⟨hsome, hdata, hk.1⟩

theorem dels_step (he : ∀ k, e ≠ .notify .generic "del" k) :
    dels k (handle env e s).2 = dels k s := by
  cases e with
  | lookup k' =>
    rw [handle]
    split
    · exact dels_expire s
    · rfl
  | notify cls event k' =>
    rw [dels_notify, if_neg fun h => he k (by cases h; rfl), Nat.add_zero]
  | signalListAsReady k' =>
    rw [handle, State.signalListAsReady]
    split <;> rfl
  | _ => rfl

theorem removed_step (d : Dataset) (he : ¬ e.writes)
    (h : Removed d k (handle env e s).2) : Removed d k s := by
  cases e with
  | lookup k' =>
    rw [handle] at h
    split at h
    · exact removed_of_expire h
    · exact h
  | signalListAsReady k' =>
    rw [handle, State.signalListAsReady] at h
    split at h <;> exact h
  | store | delete | setExpire | removeExpire | flush =>
    exact absurd trivial he
  | _ => exact h

theorem Quiet.store (h : Quiet d k s) (k' : Key) (value : Value) :
    Quiet d k (s.store k' value) :=
  ⟨fun hremoved => h.1 (removed_store hremoved).2, h.2⟩

theorem Unannounced.store (h : Unannounced d k k' s) (value : Value) :
    Quiet d k (s.store k' value) :=
  ⟨fun hremoved => (removed_store hremoved).1 (h.1 (removed_store hremoved).2),
    h.2⟩

theorem Announced.store (h : Announced d k s) (k' : Key) (value : Value) :
    Announced d k (s.store k' value) :=
  fun hremoved => h (removed_store hremoved).2

theorem Quiet.delete (h : Quiet d k s) (k' : Key) :
    Unannounced d k k' (s.put k' none) := by
  refine ⟨fun hremoved => ?_, h.2⟩
  by_contra hk
  exact h.1 ((removed_put_of_ne hk).mp hremoved)

/-- A key that is not there cannot be deleted. -/
theorem Quiet.delete_missing (h : Quiet d k s)
    (hmissing : (s.data.find k').isSome = false) :
    Quiet d k (s.put k' none) := by
  have hsame : (s.put k' none).data.find k = s.data.find k := by
    rw [State.put, Dataset.find_set]
    split_ifs with hk
    · rw [hk]
      exact (Option.isNone_iff_eq_none.mp
        (Option.isSome_eq_false_iff.mp hmissing)).symm
    · rfl
  exact ⟨(removed_congr hsame rfl).not.mpr h.1, h.2⟩

theorem Quiet.removeExpire (h : Quiet d k s) (k' : Key) :
    Quiet d k (s.removeExpire k') := by
  refine ⟨fun ⟨hsome, hnone, hexpired⟩ => h.1 ⟨hsome, ?_, hexpired⟩, h.2⟩
  rw [State.removeExpire, State.put, Dataset.find_set] at hnone
  split_ifs at hnone with hk
  · rw [hk]
    exact Option.map_eq_none_iff.mp hnone
  · exact hnone

theorem Unannounced.notify (h : Unannounced d k k' s) (env : Env) :
    Announced d k (handle env (.notify .generic "del" k') s).2 := by
  intro hremoved
  rw [dels_notify, h.2, if_pos (by rw [h.1 hremoved])]

/-! ## Programs -/

/-- After the removal of a key that may not have been there. -/
def AfterDelete (d : Dataset) (k k' : Key) (deleted : Bool) (s : State) :
    Prop :=
  if deleted then Unannounced d k k' s else Quiet d k s

theorem quiet_dbDelete :
    Triple (handle env) (Quiet d k) (dbDelete k') (AfterDelete d k k') := by
  intro s hs
  change if (s.data.find k').isSome then Unannounced d k k' (s.put k' none)
    else Quiet d k (s.put k' none)
  split
  · exact hs.delete k'
  · next h => exact hs.delete_missing (Bool.eq_false_of_not_eq_true h)

theorem AfterDelete.unannounced {deleted : Bool}
    (h : AfterDelete d k k' deleted s) : Unannounced d k k' s := by
  cases deleted with
  | true => exact h
  | false => exact ⟨fun hremoved => absurd hremoved h.1, h.2⟩

theorem AfterDelete.store {deleted : Bool} (h : AfterDelete d k k' deleted s)
    (value : Value) : Quiet d k (s.store k' value) := by
  cases deleted with
  | true => exact Unannounced.store h value
  | false => exact Quiet.store h k' value

/-- From a state in which nothing has happened to the key the program removes
it with one `del` event, or not at all. -/
def Announces (env : Env) (d : Dataset) (k : Key) (p : Cmd α) : Prop :=
  Triple (handle env) (Quiet d k) p fun _ => Announced d k

/-- A program of such operations. -/
def Calm (p : Cmd α) : Prop := Issues Op.tame p

theorem Calm.perform (hwrites : ¬ e.writes)
    (hnotify : ∀ k, e ≠ .notify .generic "del" k) : Calm (Prog.perform e) :=
  Issues.perform ⟨hwrites, hnotify⟩

namespace Calm

theorem addReply (r : Reply) : Calm (addReply r) := trivial

theorem bind {f : α → Cmd β} (hp : Calm p) (hf : ∀ a, Calm (f a)) :
    Calm (p >>= f) := Issues.bind hp hf

theorem signalModifiedKey : Calm (signalModifiedKey k) := perform id nofun

theorem signalListAsReady : Calm (signalListAsReady k) := perform id nofun

theorem addDirty (n : ℕ) : Calm (addDirty n) := perform id nofun

theorem notify {cls : EventClass} (hcls : cls ≠ .generic) (event : String) :
    Calm (notifyKeyspaceEvent cls event k) :=
  perform id fun _ heq => hcls (Op.notify.inj heq).1

end Calm

theorem Reads.calm (hp : Reads p) : Calm p :=
  Issues.mono hp fun _ => Op.tame_of_reads

theorem Calm.quiet (hp : Calm p) :
    Triple (handle env) (Quiet d k) p fun _ => Quiet d k :=
  Issues.triple (fun _ _ he hs => ⟨fun h => hs.1 (removed_step d he.1 h),
    (dels_step he.2).trans hs.2⟩) hp

theorem Calm.unannounced (hp : Calm p) :
    Triple (handle env) (Unannounced d k k') p fun _ => Unannounced d k k' :=
  Issues.triple (fun _ _ he hs => ⟨fun h => hs.1 (removed_step d he.1 h),
    (dels_step he.2).trans hs.2⟩) hp

theorem Calm.announced (hp : Calm p) :
    Triple (handle env) (Announced d k) p fun _ => Announced d k :=
  Issues.triple (fun _ _ he hs h =>
    (dels_step he.2).trans (hs (removed_step d he.1 h))) hp

theorem Calm.afterDelete (hp : Calm p) (deleted : Bool) :
    Triple (handle env) (AfterDelete d k k' deleted) p
      fun _ => AfterDelete d k k' deleted := by
  cases deleted with
  | true => exact hp.unannounced
  | false => exact hp.quiet

theorem quiet_setKey (value : Value) :
    Triple (handle env) (Quiet d k) (setKey k' value) fun _ => Quiet d k := by
  have hstore : Triple (handle env) (Quiet d k)
      (Prog.perform (Op.store k' value)) fun _ => Quiet d k :=
    fun _ hs => hs.store k' value
  have hrest : Triple (handle env) (Quiet d k) (removeExpire k' >>= fun _ =>
      signalModifiedKey k') fun _ => Quiet d k :=
    fun _ hs => Calm.signalModifiedKey.quiet _ (hs.removeExpire k')
  refine Reads.lookup.calm.quiet.bind fun found => ?_
  cases found <;> exact hstore.bind fun _ => hrest

/-- A change that removes the value says so. -/
def Change.Tells : Change → Prop
  | .put none _ events _ _ => events.count (.generic, "del") = 1
  | _ => True

namespace Announces

theorem addReply (r : Reply) : Announces env d k (addReply r) :=
  fun _ hs => hs.announced

theorem bind {f : α → Cmd β}
    (hp : Triple (handle env) (Quiet d k) p fun _ => Quiet d k)
    (hf : ∀ a, Announces env d k (f a)) : Announces env d k (p >>= f) :=
  Triple.bind hp hf

theorem applyChange {change : Change} (h : change.Tells) :
    Announces env d k (applyChange k' change) := by
  intro s hs
  rw [run_applyChange]
  match change with
  | .answer r => exact hs.announced
  | .put (some value) n events vector r =>
    exact fun hremoved => absurd hremoved (hs.store k' value).1
  | .put none n events vector r =>
    intro hremoved
    obtain rfl : k = k' := (hs.delete k').1 hremoved
    have hinjective : Function.Injective
        fun e : EventClass × String => (e.1, e.2, k) := by
      rintro ⟨cls, event⟩ ⟨cls', event'⟩ heq
      cases heq
      rfl
    have hcount := count_map_of_injective events _ hinjective
      (.generic, "del")
    have hdels : dels k s = 0 := hs.2
    rw [dels] at hdels
    rw [dels, Change.effect, count_append, hdels, hcount, h]

theorem updateCommand {r : Reply} {f : Value → Change}
    (hf : ∀ value, (f value).Tells) :
    Announces env d k (updateCommand k' (.answer r) f) :=
  bind Reads.lookup.calm.quiet fun o => by
    cases o with
    | none => exact .addReply r
    | some value => exact .applyChange (hf value)

theorem createCommand {empty : Value} {f : Value → Change}
    (hf : ∀ value, (f value).Tells) :
    Announces env d k (createCommand k' empty f) :=
  bind Reads.lookup.calm.quiet fun o => by
    cases o with
    | none =>
      exact bind (fun s hs => hs.store k' empty) fun _ =>
        .applyChange (hf empty)
    | some value => exact .applyChange (hf value)

end Announces

/-- The program never announces a removal. -/
def Mute (p : Cmd α) : Prop :=
  Issues (fun e => ∀ k, e ≠ .notify .generic "del" k) p

theorem Mute.dels_eq (hp : Mute p) :
    Triple (handle env) (fun s => dels k s = 0) p fun _ s => dels k s = 0 := by
  refine Issues.triple (fun e s he hs => ?_) hp
  exact (dels_step he).trans hs

theorem Mute.put {value : Option Value} {n : ℕ}
    {events : List (EventClass × String)} {vector : Option (List Bytes)}
    {r : Reply} (h : (.generic, "del") ∉ events) :
    Mute (applyChange k (.put value n events vector r)) := by
  have hperform : ∀ e : Op, (∀ k, e ≠ .notify .generic "del" k) →
      Mute (Prog.perform e) := fun e he => Issues.perform he
  have hnotify : Mute (notifyAll k events) := by
    induction events with
    | nil => trivial
    | cons event events ih =>
      rw [mem_cons, not_or] at h
      refine Issues.bind (hperform _ fun k' heq => h.1 ?_) fun _ => ih h.2
      obtain ⟨hcls, hevent, -⟩ := Op.notify.inj heq
      exact Prod.ext hcls.symm hevent.symm
  have hreplace : Mute (dbReplace k value) := by
    cases value with
    | none => exact Issues.bind (hperform _ nofun) fun _ => trivial
    | some value => exact hperform _ nofun
  have hrewrite : Mute (rewriteIf vector) := by
    cases vector with
    | none => trivial
    | some argv => exact hperform _ nofun
  exact hreplace.bind fun _ => Issues.bind (hperform _ nofun) fun _ =>
    hnotify.bind fun _ => Issues.bind (hperform _ nofun) fun _ =>
    hrewrite.bind fun _ => trivial

/-! ## Programs that keep both -/

/-- The change leaves elements, or says that it removes the value. -/
def Change.Sound (change : Change) : Prop :=
  change.LeavesElements ∧ change.Tells

theorem Change.sound_answer (r : Reply) : (Change.answer r).Sound :=
  ⟨trivial, trivial⟩

theorem Change.sound_put {value : Value} {n : ℕ}
    {events : List (EventClass × String)} {vector : Option (List Bytes)}
    {r : Reply} (h : value.HasElements) :
    (Change.put (some value) n events vector r).Sound :=
  ⟨fun _ hv => Option.some.inj hv ▸ h, trivial⟩

/-- The program removes no key, and leaves none without elements. -/
def Still (p : Cmd α) : Prop :=
  ∀ env, Keeps env p ∧ ∀ d k,
    Triple (handle env) (Quiet d k) p (fun _ => Quiet d k) ∧
    Triple (handle env) (Announced d k) p fun _ => Announced d k

/-- The program announces what it removes, and leaves no key without
elements. -/
def Fine (p : Cmd α) : Prop :=
  ∀ env, Keeps env p ∧ ∀ d k, Announces env d k p

/-- The same after the removal of a key. -/
def Settles (k' : Key) (deleted : Bool) (p : Cmd α) : Prop :=
  ∀ env, Keeps env p ∧ ∀ d k,
    Triple (handle env) (AfterDelete d k k' deleted) p fun _ => Announced d k

theorem Calm.keeps (hp : Calm p) : Keeps env p :=
  Issues.triple (fun _ _ he hs => hs.step he.1) hp

theorem Calm.still (hp : Calm p) : Still p :=
  fun _ => ⟨hp.keeps, fun _ _ => ⟨hp.quiet, hp.announced⟩⟩

namespace Still

theorem store {value : Value} (hvalue : value.HasElements) :
    Still (Prog.perform (Op.store k value)) :=
  fun _ => ⟨.store hvalue, fun _ _ =>
    ⟨fun _ hs => hs.store k value, fun _ hs => hs.store k value⟩⟩

theorem storeList {l : List Bytes} (h : l ≠ []) :
    Still (Prog.perform (Op.store k (.list l))) := store h

theorem storeSet {t : Finset Bytes} (h : t ≠ ∅) :
    Still (Prog.perform (Op.store k (.set t))) := store h

theorem bind {f : α → Cmd β} (hp : Still p) (hf : ∀ a, Still (f a)) :
    Still (p >>= f) := fun env => by
  refine ⟨(hp env).1.bind fun a => (hf a env).1, fun d k => ?_⟩
  obtain ⟨hquiet, hannounced⟩ := (hp env).2 d k
  exact ⟨hquiet.bind fun a => ((hf a env).2 d k).1,
    hannounced.bind fun a => ((hf a env).2 d k).2⟩

theorem fine (hp : Still p) : Fine p := fun env =>
  ⟨(hp env).1, fun d k s hs => (((hp env).2 d k).1 s hs).announced⟩

end Still

theorem Calm.fine (hp : Calm p) : Fine p := hp.still.fine

namespace Fine

theorem addReply (r : Reply) : Fine (addReply r) := (Calm.addReply r).fine

theorem of_reads (hp : Reads p) : Fine p := hp.calm.fine

theorem bind {f : α → Cmd β} (hp : Still p) (hf : ∀ a, Fine (f a)) :
    Fine (p >>= f) := fun env =>
  ⟨(hp env).1.bind fun a => (hf a env).1, fun d k =>
    .bind ((hp env).2 d k).1 fun a => (hf a env).2 d k⟩

/-- What follows removes no further key. -/
theorem still {f : α → Cmd β} (hp : Fine p) (hf : ∀ a, Still (f a)) :
    Fine (p >>= f) := fun env =>
  ⟨(hp env).1.bind fun a => (hf a env).1, fun d k =>
    Triple.bind ((hp env).2 d k) fun a => ((hf a env).2 d k).2⟩

theorem map (hp : Fine p) (f : α → β) : Fine (f <$> p) := fun env =>
  ⟨(hp env).1.map f, fun d k => Triple.map ((hp env).2 d k)⟩

theorem lookup {f : Option Value → Cmd α} (hf : ∀ o, Fine (f o)) :
    Fine (lookupKeyWrite k >>= f) := bind Reads.lookup.calm.still hf

theorem applyChange {change : Change} (h : change.Sound) :
    Fine (applyChange k change) :=
  fun _ => ⟨.applyChange h.1, fun _ _ => .applyChange h.2⟩

theorem updateCommand {r : Reply} {f : Value → Change}
    (hf : ∀ value, (f value).Sound) :
    Fine (updateCommand k (.answer r) f) := fun _ =>
  ⟨.updateCommand trivial fun value _ => (hf value).1,
    fun _ _ => .updateCommand fun value => (hf value).2⟩

theorem createCommand {empty : Value} {f : Value → Change}
    (hput : (f empty).isPut = true) (hf : ∀ value, (f value).Sound) :
    Fine (createCommand k empty f) := fun _ =>
  ⟨.createCommand (hf empty).1 hput fun value _ => (hf value).1,
    fun _ _ => .createCommand fun value => (hf value).2⟩

theorem delete {f : Bool → Cmd α}
    (hf : ∀ deleted, Settles k deleted (f deleted)) :
    Fine (dbDelete k >>= f) := fun env =>
  ⟨Keeps.dbDelete.bind fun deleted => (hf deleted env).1, fun d k' =>
    quiet_dbDelete.bind fun deleted => (hf deleted env).2 d k'⟩

end Fine

namespace Settles

variable {deleted : Bool} {f : α → Cmd β}

theorem calm (hp : Calm p) (hf : ∀ a, Settles k deleted (f a)) :
    Settles k deleted (p >>= f) := fun env =>
  ⟨hp.keeps.bind fun a => (hf a env).1, fun d k' =>
    (hp.afterDelete deleted).bind fun a => (hf a env).2 d k'⟩

theorem notify (hp : Calm p) :
    Settles k deleted
      (notifyKeyspaceEvent .generic "del" k >>= fun _ => p) := fun env =>
  ⟨(Keeps.perform id).bind fun _ => hp.keeps, fun _ _ =>
    Triple.bind (fun _ hs => hs.unannounced.notify env)
      fun _ => hp.announced⟩

theorem store {value : Value} {f : Unit → Cmd β}
    (hvalue : value.HasElements) (hf : ∀ a, Calm (f a)) :
    Settles k deleted (Prog.perform (Op.store k value) >>= f) := fun _ =>
  ⟨(Keeps.store hvalue).bind fun a => (hf a).keeps, fun _ _ _ hs =>
    ((hf ()).quiet _ (AfterDelete.store hs value)).announced⟩

end Settles

end RedisV8.Keyspace
