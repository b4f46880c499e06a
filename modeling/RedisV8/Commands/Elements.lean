import RedisV8.Commands.Serving
import RedisV8.Keyspace.Announcements

/-!
# No key holds a collection without elements

The commands on lists, sets, hashes and sorted sets, SORT and the serving of
blocked clients keep that, with one exception: the end of the range that SORT
stores is computed in 64 bits, and the number of elements it stores in 32.
Most of the commands also announce the keys they remove, and are shown to do
both at once.
-/

namespace RedisV8.Commands

open Util Server Keyspace Effects List
open RedisV8.Lists (Side)

variable {env : Env} {int : Internals} {views : Views} {c : Client}
  {argv : List Bytes} {k : Key} {text : Bytes} {f : ℤ → Cmd Outcome}
  {l l' : List Bytes} {value : Value} {s : State}

theorem fine_withLong (hf : ∀ n, Fine (f n)) : Fine (withLong text f) := by
  rw [withLong]
  split
  · exact .addReply _
  · exact hf _

/-! ## Commands that only read -/

section Reading

theorem reads_withLong (hf : ∀ n, Reads (f n)) : Reads (withLong text f) := by
  rw [withLong]
  split
  · exact .addReply _
  · exact hf _

theorem reads_listCommand {cmd : Lists.Command} (missing : Reply)
    (h : ∀ l, (cmd.mean l int.index).modified = false) :
    Reads (listCommand int k missing cmd) := by
  refine Reads.lookup.bind fun found => ?_
  match found with
  | none => exact .addReply _
  | some (.list l) =>
    have hanswer : onList int cmd (.list l) =
        .answer (cmd.mean l int.index).reply := by
      rw [onList, listChange, h, if_neg Bool.false_ne_true]
    dsimp only
    rw [hanswer]
    exact .addReply _
  | some (.string _) | some (.set _) | some (.hash _) | some (.zset _) =>
    exact .addReply _

theorem reads_lrangeCommand : Reads (lrangeCommand int c argv) :=
  reads_withLong fun _ => reads_withLong fun _ =>
    reads_listCommand _ fun l => by
      simp only [Lists.Command.mean, Lists.meanRange, Lists.orReply]
      split
      · rfl
      · split <;> rfl

theorem reads_blockForKeys (side : Side) (keys : List Bytes)
    (target : Option Bytes) (seconds : ℤ) :
    Reads (blockForKeys side keys target seconds) := by
  rw [blockForKeys]
  split
  · exact .pure _
  · have hnow : Reads mstime := .perform trivial
    exact hnow.bind fun _ => .pure _

theorem reads_viewCommand (v : View) (missing : Reply) :
    Reads (viewCommand views v missing c argv) := by
  rw [viewCommand]
  split
  · exact .addReply _
  · exact .readCommand _ _

theorem reads_lookupSets (stop : Bool) (keys : List Bytes) :
    Reads (lookupSets c stop keys) := by
  induction keys with
  | nil => exact .pure _
  | cons key keys ih =>
    refine Reads.lookup.bind fun found => ?_
    match found with
    | none =>
      dsimp only
      split
      · exact .pure _
      · exact ih.map _
    | some (.set s) => exact ih.map _
    | some (.string _) | some (.list _) | some (.hash _) | some (.zset _) =>
      exact .pure _

theorem reads_setopReply (op : SetOp) : Reads (setopReply int op c argv) := by
  refine (reads_lookupSets _ _).bind fun sources => ?_
  cases sources <;> exact .addReply _

theorem reads_lookupZsets (keys : List Bytes) : Reads (lookupZsets c keys) := by
  induction keys with
  | nil => exact .pure _
  | cons key keys ih =>
    refine Reads.lookup.bind fun found => ?_
    match found with
    | none | some (.set _) | some (.zset _) => exact ih.map _
    | some (.string _) | some (.list _) | some (.hash _) => exact .pure _

theorem reads_lookupKeyByPattern (pattern subst : Bytes) :
    Reads (lookupKeyByPattern c pattern subst) := by
  rw [lookupKeyByPattern]
  split
  · exact .pure _
  split
  · exact .pure _
  · refine Reads.lookup.bind fun found => ?_
    split <;> exact .pure _

theorem reads_sortWeights (o : SortOptions) (elements : List Bytes) :
    Reads (sortWeights c o elements) := by
  induction elements with
  | nil => exact .pure _
  | cons element rest ih =>
    have hrest : ∀ weight, Reads (sortWeights c o rest >>= fun weights =>
        pure ((element, weight) :: weights)) :=
      fun weight => ih.bind fun _ => .pure _
    rw [sortWeights]
    cases o.sortby with
    | none => exact (Reads.pure none).bind hrest
    | some pattern =>
      dsimp only
      split
      · exact (Reads.pure none).bind hrest
      · exact (reads_lookupKeyByPattern pattern element).bind hrest

theorem reads_sortGets (element : Bytes) (patterns : List Bytes) :
    Reads (sortGets c element patterns) := by
  induction patterns with
  | nil => exact .pure _
  | cons pattern patterns ih =>
    exact (reads_lookupKeyByPattern pattern element).bind fun _ =>
      ih.bind fun _ => .pure _

theorem reads_sortOutput (gets elements : List Bytes) :
    Reads (sortOutput c gets elements) := by
  induction elements with
  | nil => exact .pure _
  | cons element rest ih =>
    have hrest : ∀ values, Reads (sortOutput c gets rest >>= fun output =>
        pure (values ++ output)) := fun values => ih.bind fun _ => .pure _
    rw [sortOutput]
    split
    · exact (Reads.pure _).bind hrest
    · exact (reads_sortGets element gets).bind hrest

end Reading

/-! ## Lists -/

section Lists

theorem tells_listChange_of_some {o : Lists.Observed}
    (h : o.elements.isSome = true) : (listChange o).Tells := by
  obtain ⟨l, hl⟩ := Option.isSome_iff_exists.mp h
  rw [listChange, hl]
  split <;> trivial

theorem leavesElements_listChange {o : Lists.Observed}
    (h : o.modified = true → ∀ l, o.elements = some l → l ≠ []) :
    (listChange o).LeavesElements := by
  rw [listChange]
  split
  · intro value hvalue
    obtain ⟨l, hl, rfl⟩ := Option.map_eq_some_iff.mp hvalue
    exact h ‹_› l hl
  · trivial

theorem ne_nil_of_kept (h : Lists.kept l = some l') : l' ≠ [] := by
  rw [Lists.kept] at h
  split_ifs at h with hlen
  cases h
  exact fun hnil => hlen (by rw [hnil]; rfl)

theorem length_foldl_pushAt (side : Side) (values l : List Bytes) :
    (values.foldl (fun l value => Lists.pushAt l value side) l).length =
      l.length + values.length := by
  induction values generalizing l with
  | nil => rfl
  | cons value values ih =>
    rw [foldl_cons, ih]
    cases side <;> simp [Lists.pushAt] <;> omega

theorem meanPush_ne_nil {values : List Bytes} {side : Side}
    (hmodified : (Lists.meanPush l side values).modified = true)
    (hl' : (Lists.meanPush l side values).elements = some l') : l' ≠ [] := by
  cases hl'
  have hvalues : values ≠ [] := by simpa [Lists.meanPush] using hmodified
  have hlength := length_foldl_pushAt side values l
  have hpos := length_pos_iff.mpr hvalues
  exact length_pos_iff.mp (by omega)

theorem orReply_ne_nil {body : ℤ → Lists.Observed}
    (hbody : ∀ n, (body n).modified = true → (body n).elements = some l' →
      l' ≠ []) (hmodified : (Lists.orReply l text body).modified = true)
    (hl' : (Lists.orReply l text body).elements = some l') : l' ≠ [] := by
  rw [Lists.orReply] at hmodified hl'
  split at hmodified
  · cases hmodified
  · next n hn =>
      rw [hn] at hl'
      exact hbody n hmodified hl'

/-- A list with elements that is modified has elements, or is not kept. -/
theorem mean_ne_nil (hl : l ≠ []) (cmd : Lists.Command) (conv : ℤ → ℤ)
    (hmodified : (cmd.mean l conv).modified = true)
    (hl' : (cmd.mean l conv).elements = some l') : l' ≠ [] := by
  cases cmd with
  | push side values | pushx side value => exact meanPush_ne_nil hmodified hl'
  | linsert place refval value =>
    have hinsert : ∀ side, (Lists.meanInsert l refval value side).elements =
        some l' → l' ≠ [] := by
      intro side h
      rw [Lists.meanInsert] at h
      split at h
      · cases h
        exact hl
      cases h
      rw [← length_pos_iff, length_insertIdx]
      have hpos := length_pos_iff.mpr hl
      split_ifs <;> omega
    simp only [Lists.Command.mean, Lists.meanLinsert] at hl'
    split_ifs at hl'
    · exact hinsert _ hl'
    · exact hinsert _ hl'
    · cases hl'
      exact hl
  | llen => cases hmodified
  | lindex index =>
    refine orReply_ne_nil (fun n hmod _ => ?_) hmodified hl'
    split at hmod <;> cases hmod
  | lset index value =>
    refine orReply_ne_nil (fun n hmod h => ?_) hmodified hl'
    split at h
    · cases h
      exact hl
    · cases h
      exact fun hnil => hl (by simpa using hnil)
  | pop side =>
    cases side <;>
    · simp only [Lists.Command.mean, Lists.meanPop] at hmodified hl'
      split at hl'
      · cases hl'
        exact hl
      · exact ne_nil_of_kept hl'
  | lrange start stop =>
    refine orReply_ne_nil (fun n hmod h => ?_) hmodified hl'
    exact orReply_ne_nil (fun _ hmod _ => (by cases hmod)) hmod h
  | ltrim start stop =>
    refine orReply_ne_nil (fun n hmod h => ?_) hmodified hl'
    exact orReply_ne_nil (fun _ _ h => ne_nil_of_kept h) hmod h
  | lrem count value =>
    exact orReply_ne_nil (fun _ _ h => ne_nil_of_kept h) hmodified hl'

theorem leavesElements_onList (cmd : Lists.Command)
    (hvalue : value.HasElements) : (onList int cmd value).LeavesElements := by
  cases value with
  | list l =>
    exact leavesElements_listChange fun hmodified l' hl' =>
      mean_ne_nil hvalue cmd int.index hmodified hl'
  | string | set | hash | zset => trivial

/-- A list that is left empty goes away with a `del` event. -/
theorem tells_kept (l : List Bytes) (n : ℕ) (event : String) (r : Reply) :
    (listChange { elements := Lists.kept l, reply := r, dirty := n,
                  modified := true
                  events := (.list, event) ::
                    if l.length = 0 then [(.generic, "del")] else [] }).Tells := by
  by_cases hl : l.length = 0
  · simp [listChange, Lists.kept, hl, listEvent, Change.Tells]
  · simp [listChange, Lists.kept, hl, Change.Tells]

theorem tells_orReply {l : List Bytes} {body : ℤ → Lists.Observed}
    (h : ∀ n, (listChange (body n)).Tells) :
    (listChange (Lists.orReply l text body)).Tells := by
  rw [Lists.orReply]
  split
  · trivial
  · exact h _

/-- Of the list commands only LREM empties a list without a word. -/
theorem tells_mean {cmd : Lists.Command}
    (hcmd : ∀ count value, cmd ≠ .lrem count value) (l : List Bytes)
    (conv : ℤ → ℤ) : (listChange (cmd.mean l conv)).Tells := by
  cases cmd with
  | push | pushx => exact tells_listChange_of_some rfl
  | linsert place refval value =>
    refine tells_listChange_of_some ?_
    simp only [Lists.Command.mean, Lists.meanLinsert, Lists.meanInsert]
    split_ifs
    · split <;> rfl
    · split <;> rfl
    · rfl
  | llen => trivial
  | lindex index =>
    refine tells_orReply fun n => ?_
    split <;> trivial
  | lset index value =>
    refine tells_orReply fun n => tells_listChange_of_some ?_
    split <;> rfl
  | pop side =>
    cases side <;>
    · simp only [Lists.Command.mean, Lists.meanPop]
      split
      · trivial
      · exact tells_kept _ _ _ _
  | lrange start stop => exact tells_orReply fun _ => tells_orReply fun _ => trivial
  | ltrim start stop =>
    exact tells_orReply fun _ => tells_orReply fun _ => tells_kept _ _ _ _
  | lrem count value => exact absurd rfl (hcmd count value)

theorem fine_listCommand {cmd : Lists.Command}
    (hcmd : ∀ count value, cmd ≠ .lrem count value) (missing : Reply) :
    Fine (listCommand int k missing cmd) := by
  refine fun env => ⟨.updateCommand trivial fun _ =>
    leavesElements_onList cmd, fun d k' => .updateCommand fun value => ?_⟩
  cases value with
  | list l => exact tells_mean hcmd l _
  | string | set | hash | zset => trivial

theorem fine_pushGenericCommand (side : Side) (values : List Bytes) :
    Fine (pushGenericCommand k side values) := by
  have hpush : ∀ l, Fine
      (applyChange k (listChange (Lists.meanPush l side values))) :=
    fun l => .applyChange ⟨leavesElements_listChange fun hmod _ hl' =>
      meanPush_ne_nil hmod hl', tells_listChange_of_some rfl⟩
  refine .lookup fun o => ?_
  match o with
  | none => exact .bind Calm.signalListAsReady.still fun _ => hpush []
  | some (.list l) => exact hpush l
  | some (.string _) | some (.set _) | some (.hash _) | some (.zset _) =>
    exact .addReply _

theorem fine_linsertCommand : Fine (linsertCommand int c argv) := by
  rw [linsertCommand]
  split
  · exact fine_listCommand (by nofun) _
  · exact .addReply _

theorem fine_ltrimCommand : Fine (ltrimCommand int c argv) :=
  fine_withLong fun _ => fine_withLong fun _ => fine_listCommand (by nofun) _

theorem keeps_lremCommand : Keeps env (lremCommand int c argv) := by
  rw [lremCommand, withLong]
  split
  · exact .addReply _
  refine .lookup (.addReply _) fun value hvalue => ?_
  split
  · exact absurd ‹some value = none› (by simp)
  · exact Keeps.dbDelete.bind fun _ => .addReply _
  · next h => cases h; exact .applyChange (leavesElements_onList _ hvalue)

theorem still_rpoplpushHandlePush (dst : Option (List Bytes))
    (value : Bytes) : Still (rpoplpushHandlePush k dst value) := by
  have hrest : Calm (signalModifiedKey k >>= fun _ =>
      notifyKeyspaceEvent .list "lpush" k) :=
    Calm.signalModifiedKey.bind fun _ => .notify (by decide) _
  have hstore : ∀ l, Still (Prog.perform (Op.store k (.list (value :: l)))) :=
    fun l => .store (cons_ne_nil value l)
  cases dst with
  | none =>
    exact ((hstore []).bind fun _ => Calm.signalListAsReady.still).bind
      fun _ => hrest.still
  | some l => exact (hstore l).bind fun _ => hrest.still

theorem fine_dropLastElement (rest : List Bytes) :
    Fine (dropLastElement k rest) := by
  refine .bind (Calm.notify (by decide) _).still fun _ => ?_
  split
  · exact .delete fun _ => .notify Calm.signalModifiedKey
  · next h =>
      exact .bind (Still.storeList h) fun _ => Calm.signalModifiedKey.fine

theorem fine_rpoplpush (src dst : Key) (l : List Bytes) (value : Bytes)
    (target : Option (List Bytes)) :
    Fine (rpoplpush src dst l value target) := by
  have hrest : Calm (addDirty 1 >>= fun _ => addReply (.bulk value)) :=
    (Calm.addDirty 1).bind fun _ => .addReply _
  rw [rpoplpush]
  split
  · have hrotated : Calm (notifyKeyspaceEvent .list "rpop" src >>= fun _ =>
        signalModifiedKey src) :=
      (Calm.notify (by decide) _).bind fun _ => Calm.signalModifiedKey
    exact .bind (still_rpoplpushHandlePush _ _) fun _ =>
      (hrotated.bind fun _ => hrest).fine
  · exact .bind (still_rpoplpushHandlePush _ _) fun _ =>
      (fine_dropLastElement _).still fun _ => hrest.still

theorem fine_rpoplpushGeneric (src dst : Key) :
    Fine (rpoplpushGeneric src dst) := by
  refine .lookup fun o => ?_
  match o with
  | none => exact .addReply _
  | some (.list l) =>
    dsimp only
    split
    · exact .addReply _
    refine .lookup fun o => ?_
    match o with
    | none | some (.list _) => exact fine_rpoplpush _ _ _ _ _
    | some (.string _) | some (.set _) | some (.hash _) | some (.zset _) =>
      exact .addReply _
  | some (.string _) | some (.set _) | some (.hash _) | some (.zset _) =>
    exact .addReply _

theorem sound_servedPop (key : Bytes) (side : Side) (value : Bytes)
    (rest : List Bytes) : (servedPop key side value rest).Sound := by
  by_cases hrest : rest = []
  · cases side <;> simp [servedPop, hrest, Change.Sound, Change.Tells,
      Change.LeavesElements, Lists.popEvent]
  · simp only [servedPop, if_neg hrest]
    exact Change.sound_put hrest

theorem fine_blockingPopLoop (side : Side) (keys : List Bytes) :
    Fine (blockingPopLoop c side keys) := by
  induction keys with
  | nil => exact .of_reads (.pure _)
  | cons key keys ih =>
    refine .lookup fun o => ?_
    match o with
    | none => exact ih
    | some (.list l) =>
      dsimp only
      split
      · exact ih
      · exact (Fine.applyChange (sound_servedPop _ _ _ _)).map _
    | some (.string _) | some (.set _) | some (.hash _) | some (.zset _) =>
      exact (Fine.addReply _).map _

theorem fine_withTimeout (hf : ∀ n, Fine (f n)) :
    Fine (withTimeout text f) := by
  rw [withTimeout]
  split
  · exact .addReply _
  · split
    · exact .addReply _
    · exact hf _

theorem fine_blockingPopGenericCommand (side : Side) :
    Fine (blockingPopGenericCommand c argv side) := by
  refine fine_withTimeout fun seconds =>
    (fine_blockingPopLoop side _).still fun served => ?_
  cases served with
  | some outcome => exact (Reads.pure _).calm.still
  | none =>
    dsimp only
    split
    · exact (Calm.addReply _).still
    · exact (reads_blockForKeys _ _ _ _).calm.still

theorem fine_brpoplpushCommand : Fine (brpoplpushCommand c argv) := by
  refine fine_withTimeout fun seconds => .lookup fun o => ?_
  match o with
  | none =>
    dsimp only
    split
    · exact .addReply _
    · exact .of_reads (reads_blockForKeys _ _ _ _)
  | some (.list l) => exact fine_rpoplpushGeneric _ _
  | some (.string _) | some (.set _) | some (.hash _) | some (.zset _) =>
    exact .addReply _

end Lists

/-! ## Sets -/

section Sets

theorem count_delEvent (gone : Bool) :
    (delEvent gone).count (.generic, "del") = if gone then 1 else 0 := by
  cases gone <;> rfl

/-- A collection that is left empty goes away with a `del` event. -/
theorem sound_kept {gone : Prop} [Decidable gone]
    (h : ¬ gone → value.HasElements) {cls : EventClass}
    (hcls : cls ≠ .generic) (event : String) {n : ℕ}
    {vector : Option (List Bytes)} {r : Reply} :
    (Change.put (if gone then none else some value) n
      ((cls, event) :: delEvent gone) vector r).Sound := by
  by_cases hgone : gone
  · simp [hgone, Change.Sound, Change.LeavesElements, Change.Tells,
      count_delEvent, hcls]
  · rw [if_neg hgone]
    exact Change.sound_put (h hgone)

/-- What a command makes of a value of its type. -/
theorem sound_setChange {f : Finset Bytes → Change}
    (hf : ∀ s, (f s).Sound) (value : Value) : (setChange f value).Sound := by
  cases value with
  | set s => exact hf s
  | string | list | hash | zset => exact Change.sound_answer _

theorem sound_saddChange (members : List Bytes) (s : Finset Bytes) :
    (saddChange members s).Sound := by
  simp only [saddChange]
  split_ifs with hadded
  · exact Change.sound_answer _
  · refine Change.sound_put fun hempty => ?_
    rw [hempty] at hadded
    exact hadded (by simp)

theorem fine_saddCommand (hargv : 3 ≤ argv.length) :
    Fine (saddCommand c argv) := by
  refine .createCommand ?_ (sound_setChange (sound_saddChange _))
  have hmembers : (argv.drop 2).toFinset ≠ ∅ := by
    rw [Ne, toFinset_eq_empty_iff, ← length_eq_zero_iff, length_drop]
    omega
  have hcard := Finset.card_pos.mpr (Finset.nonempty_iff_ne_empty.mpr hmembers)
  simp only [setChange, saddChange, Finset.empty_union, Finset.card_empty]
  rw [if_neg (by omega)]
  rfl

theorem fine_sremCommand : Fine (sremCommand c argv) := by
  refine .updateCommand (sound_setChange fun s => ?_)
  simp only [sremChange]
  split_ifs
  · exact Change.sound_answer _
  · exact sound_kept id (by decide) _

theorem fine_takeMember (s : Finset Bytes) (ele : Bytes) :
    Fine (takeMember k s ele) := by
  refine .bind (Calm.notify (by decide) _).still fun _ => ?_
  split
  · exact .delete fun _ => .notify Calm.signalModifiedKey
  · next h =>
      exact .bind (Still.storeSet h) fun _ => Calm.signalModifiedKey.fine

theorem still_giveMember (s : Option (Finset Bytes)) (ele : Bytes) :
    Still (giveMember k s ele) := by
  refine Calm.signalModifiedKey.still.bind fun _ =>
    (Calm.addDirty 1).still.bind fun _ =>
    (Still.storeSet (Finset.insert_ne_empty ele _)).bind fun _ => ?_
  split
  · exact (Reads.pure _).calm.still
  · exact ((Calm.addDirty 1).bind fun _ => .notify (by decide) _).still

theorem fine_smove (src dst : Key) (s : Finset Bytes)
    (t : Option (Finset Bytes)) (ele : Bytes) :
    Fine (smove src dst s t ele) := by
  rw [smove]
  split
  · exact .addReply _
  split
  · exact (fine_takeMember _ _).still fun _ => (still_giveMember _ _).bind
      fun _ => (Calm.addReply _).still
  · exact .addReply _

theorem fine_smoveCommand : Fine (smoveCommand c argv) := by
  refine .lookup fun src => .lookup fun dst => ?_
  split
  · exact .addReply _
  · exact fine_smove _ _ _ _ _
  · exact fine_smove _ _ _ _ _
  · exact .addReply _

theorem fine_spopCommand : Fine (spopCommand c argv) := by
  refine .lookup fun o => ?_
  match o with
  | none => exact .addReply _
  | some (.set s) =>
    have hrandom : Reads (Prog.perform (Op.randomElement s)) :=
      .perform trivial
    exact .bind hrandom.calm.still fun ele =>
      .applyChange (sound_kept id (by decide) _)
  | some (.string _) | some (.list _) | some (.hash _) | some (.zset _) =>
    exact .addReply _

theorem settles_delEvent {deleted : Bool} {f : Unit → Cmd Outcome}
    (hf : ∀ a, Calm (f a)) :
    Settles k deleted (notifyAll k (delEvent deleted) >>= f) := by
  refine fun env => ⟨(Keeps.notifyAll _).bind fun a => (hf a).keeps,
    fun d k' => Triple.bind (fun s hs => ?_) fun a => (hf a).announced⟩
  cases deleted with
  | true => exact Unannounced.notify hs env
  | false => exact Quiet.announced hs

theorem fine_storeSet (op : SetOp) (s : Finset Bytes) :
    Fine (storeSet k op s) := by
  have hrest : Calm (signalModifiedKey k >>= fun _ => addDirty 1 >>= fun _ =>
      addReply (.integer s.card)) :=
    Calm.signalModifiedKey.bind fun _ => (Calm.addDirty 1).bind
      fun _ => .addReply _
  refine .delete fun deleted => ?_
  split
  · exact settles_delEvent fun _ => hrest
  · next h =>
      have hset : (Value.set s).HasElements := h
      exact .store hset fun _ =>
        (Calm.notify (by decide) op.event).bind fun _ => hrest

theorem keeps_setopStore (op : SetOp) : Keeps env (setopStore op c argv) := by
  refine (Keeps.of_reads (reads_lookupSets _ _)).bind fun sources => ?_
  cases sources with
  | sets sets => exact (fine_storeSet op _ env).1
  | wrongtype => exact .addReply _
  | missing =>
    refine Keeps.dbDelete.bind fun deleted => ?_
    cases deleted with
    | true =>
      exact (Keeps.perform id).bind fun _ => (Keeps.perform id).bind
        fun _ => .addReply _
    | false => exact .addReply _

end Sets

/-! ## Hashes -/

section Hashes

theorem insert_keys_ne_empty (m : Fields) (field value : Bytes) :
    (m.insert field value).keys ≠ ∅ := by
  have hmem : field ∈ (m.insert field value).keys :=
    Finmap.mem_keys.mpr (Finmap.mem_insert.mpr (Or.inl rfl))
  exact Finset.ne_empty_of_mem hmem

/-- A field is set. -/
theorem sound_insert {n : ℕ} {events : List (EventClass × String)}
    {vector : Option (List Bytes)} {r : Reply} (h : Fields)
    (field value : Bytes) :
    (Change.put (some (.hash (h.insert field value))) n events vector
      r).Sound :=
  Change.sound_put (insert_keys_ne_empty h field value)

theorem sound_hashChange {f : Fields → Change} (hf : ∀ h, (f h).Sound)
    (value : Value) : (hashChange f value).Sound := by
  cases value with
  | hash h => exact hf h
  | string | list | set | zset => exact Change.sound_answer _

theorem fine_hashUpdate {f : Fields → Change} (hf : ∀ h, (f h).Sound)
    (hput : (f ∅).isPut = true) : Fine (hashUpdate k f) :=
  .createCommand hput (sound_hashChange hf)

theorem fine_hsetCommand : Fine (hsetCommand c argv) :=
  fine_hashUpdate (fun h => sound_insert h _ _) rfl

theorem fine_hsetnxCommand : Fine (hsetnxCommand c argv) := by
  refine fine_hashUpdate (fun h => ?_) ?_
  · rw [hsetnxChange]
    split_ifs
    · exact Change.sound_answer _
    · exact sound_insert h _ _
  · rw [hsetnxChange, if_neg (Finmap.notMem_empty)]
    rfl

theorem foldl_insert_ne_empty {fields : List (Bytes × Bytes)} {h : Fields}
    (hne : h.keys ≠ ∅ ∨ fields ≠ []) :
    (fields.foldl (fun h (field, value) => h.insert field value) h).keys ≠
      ∅ := by
  induction fields generalizing h with
  | nil => simpa using hne
  | cons field fields ih => exact ih (Or.inl (insert_keys_ne_empty h _ _))

theorem pairs_ne_nil {args : List Bytes} (h : 2 ≤ args.length) :
    pairs args ≠ [] := by
  match args, h with
  | a :: b :: rest, _ => exact cons_ne_nil _ _

theorem fine_hmsetCommand (hargv : 4 ≤ argv.length) :
    Fine (hmsetCommand c argv) := by
  have hpairs : pairs (argv.drop 2) ≠ [] :=
    pairs_ne_nil (by rw [length_drop]; omega)
  rw [hmsetCommand]
  split
  · exact .addReply _
  · refine fine_hashUpdate (fun h => Change.sound_put ?_) rfl
    exact foldl_insert_ne_empty (Or.inr hpairs)

theorem announces_hmsetCommand {d : Dataset} :
    Announces env d k (hmsetCommand c argv) := by
  rw [hmsetCommand]
  split
  · exact .addReply _
  refine .createCommand fun value => ?_
  cases value <;> trivial

theorem fine_hincrbyCommand : Fine (hincrbyCommand c argv) := by
  refine fine_withLong fun incr => fine_hashUpdate (fun h => ?_) ?_
  · rw [hincrbyChange]
    split
    · exact Change.sound_answer _
    split
    · exact Change.sound_answer _
    · exact sound_insert h _ _
  · have hzero : getLongLongFromObject (ascii "0") = some 0 := by
      decide +kernel
    simp [hincrbyChange, hzero, addLongLong, Change.isPut]

theorem fine_hincrbyfloatCommand : Fine (hincrbyfloatCommand int c argv) := by
  rw [hincrbyfloatCommand]
  split
  · refine fine_hashUpdate (fun h => ?_) ?_
    · simp only [hincrbyfloatChange]
      split_ifs
      · exact sound_insert h _ _
      · exact Change.sound_answer _
    · simp [hincrbyfloatChange, Change.isPut]
  · exact .addReply _

theorem fine_hdelCommand : Fine (hdelCommand c argv) := by
  refine .updateCommand (sound_hashChange fun h => ?_)
  simp only [hdelChange]
  split
  · exact Change.sound_answer _
  · exact sound_kept id (by decide) _

end Hashes

/-! ## Sorted sets -/

section SortedSets

theorem sound_zsetChange {f : Scores → Change} (hf : ∀ z, (f z).Sound)
    (value : Value) : (zsetChange f value).Sound := by
  cases value with
  | zset z => exact hf z
  | string | list | set | hash => exact Change.sound_answer _

/-- The loop of ZADD never loses a member, and counts those it adds. -/
theorem zaddLoop_spec (args : List (Bytes × Bytes)) (z : Scores)
    (added updated : ℕ) :
    (z.keys ≠ ∅ ∨ args ≠ [] → (zaddLoop args z added updated).1.keys ≠ ∅) ∧
      added + updated ≤ (zaddLoop args z added updated).2.1 +
        (zaddLoop args z added updated).2.2 := by
  induction args generalizing z added updated with
  | nil => exact ⟨fun h => h.resolve_right (by simp), le_rfl⟩
  | cons pair args ih =>
    obtain ⟨score, member⟩ := pair
    rw [zaddLoop]
    split
    · have hrest := ih (z.insert member score) (added + 1) updated
      exact ⟨fun _ => hrest.1 (Or.inl (insert_keys_ne_empty _ _ _)),
        le_trans (by omega) hrest.2⟩
    next cur hcur =>
      split_ifs
      · have hmem : z.keys ≠ ∅ := Finset.ne_empty_of_mem
          (Finmap.mem_keys.mpr (Finmap.mem_of_lookup_eq_some hcur))
        exact ⟨fun _ => (ih z added updated).1 (Or.inl hmem),
          (ih z added updated).2⟩
      · have hrest := ih (z.insert member score) added (updated + 1)
        exact ⟨fun _ => hrest.1 (Or.inl (insert_keys_ne_empty _ _ _)),
          le_trans (by omega) hrest.2⟩

theorem parseScores_ne_nil {args args' : List (Bytes × Bytes)}
    (hargs : args ≠ []) (h : parseScores int args = some args') :
    args' ≠ [] := by
  match args, hargs with
  | (text, member) :: rest, _ =>
    rw [parseScores] at h
    split at h
    · cases h
      exact cons_ne_nil _ _
    · cases h

theorem fine_zaddCommand (hargv : 4 ≤ argv.length) :
    Fine (zaddCommand int c argv) := by
  have hpairs : pairs (argv.drop 2) ≠ [] :=
    pairs_ne_nil (by rw [length_drop]; omega)
  rw [zaddCommand]
  split
  · exact .addReply _
  split
  · exact .addReply _
  next args hargs =>
    have hargs := parseScores_ne_nil hpairs hargs
    have hsound : ∀ value, (zsetChange (zaddChange args) value).Sound := by
      refine sound_zsetChange fun z => ?_
      simp only [zaddChange]
      split_ifs
      · exact Change.sound_answer _
      · exact Change.sound_put ((zaddLoop_spec args z 0 0).1 (Or.inr hargs))
    refine .createCommand ?_ hsound
    match args, hargs with
    | (score, member) :: rest, _ =>
      have hloop : zaddLoop ((score, member) :: rest) ∅ 0 0 =
          zaddLoop rest ((∅ : Scores).insert member score) 1 0 := by
        rw [zaddLoop, Finmap.lookup_empty]
      have hcount := (zaddLoop_spec rest
        ((∅ : Scores).insert member score) 1 0).2
      rw [← hloop] at hcount
      have hchanged : ¬ (zaddLoop ((score, member) :: rest) ∅ 0 0).2.1 +
          (zaddLoop ((score, member) :: rest) ∅ 0 0).2.2 = 0 := by omega
      simp only [zsetChange, zaddChange]
      rw [if_neg hchanged]
      rfl

theorem announces_zaddCommand {d : Dataset} :
    Announces env d k (zaddCommand int c argv) := by
  rw [zaddCommand]
  split
  · exact .addReply _
  split
  · exact .addReply _
  refine .createCommand fun value => ?_
  cases value with
  | zset z =>
    simp only [zsetChange, zaddChange]
    split_ifs <;> trivial
  | string | list | set | hash => trivial

theorem fine_zincrbyCommand : Fine (zincrbyCommand int c argv) := by
  rw [zincrbyCommand]
  split
  · exact .addReply _
  refine .createCommand ?_ (sound_zsetChange fun z => ?_)
  · simp [zsetChange, zincrbyChange, Change.isPut]
  rw [zincrbyChange]
  split
  · exact Change.sound_put (insert_keys_ne_empty z _ _)
  split
  · exact Change.sound_answer _
  split_ifs
  · exact Change.sound_answer _
  · exact Change.sound_put (insert_keys_ne_empty z _ _)

theorem keeps_zremCommand : Keeps env (zremCommand c argv) := by
  refine .updateCommand trivial fun value _ => ?_
  cases value with
  | zset z =>
    simp only [zsetChange, zremoveChange]
    split_ifs with hdeleted hempty
    · trivial
    · exact nofun
    · intro value hvalue
      cases hvalue
      exact hempty
  | string | list | set | hash => trivial

/-- ZREMRANGEBYSCORE and ZREMRANGEBYRANK. -/
theorem fine_zremove {f : Scores → List Bytes} {event : String} :
    Fine (updateCommand k (.answer Reply.czero)
      (zsetChange fun z => zremoveChange event true (f z) z)) := by
  refine .updateCommand (sound_zsetChange fun z => ?_)
  simp only [zremoveChange, Bool.true_and]
  split
  · exact Change.sound_answer _
  · exact sound_kept id (by decide) _

theorem fine_zremrangebyscoreCommand :
    Fine (zremrangebyscoreCommand int c argv) := by
  rw [zremrangebyscoreCommand]
  split
  · exact .addReply _
  · exact fine_zremove

theorem fine_zremrangebyrankCommand :
    Fine (zremrangebyrankCommand int c argv) :=
  fine_withLong fun _ => fine_withLong fun _ => fine_zremove

theorem fine_storeZset (event : String) (z : Scores) :
    Fine (storeZset k event z) := by
  have hstored : Calm (notifyKeyspaceEvent .zset event k >>= fun _ =>
      addDirty 1 >>= fun _ => addReply (.integer z.keys.card)) :=
    (Calm.notify (by decide) _).bind fun _ => (Calm.addDirty 1).bind
      fun _ => .addReply _
  have hfinish : ∀ touched : Bool, Settles k touched (if z.keys = ∅ then do
        notifyAll k (delEvent touched)
        addReply Reply.czero
      else do
        dbAdd k (.zset z)
        if touched then pure () else signalModifiedKey k
        notifyKeyspaceEvent .zset event k
        addDirty 1
        addReply (.integer z.keys.card)) := by
    intro touched
    split
    · exact settles_delEvent fun _ => .addReply _
    next h =>
      have hset : (Value.zset z).HasElements := h
      refine .store hset fun _ => ?_
      cases touched with
      | true => exact hstored
      | false => exact Calm.signalModifiedKey.bind fun _ => hstored
  refine .delete fun touched => ?_
  cases touched with
  | true =>
    exact .calm Calm.signalModifiedKey fun _ => .calm (Calm.addDirty 1)
      fun _ => hfinish true
  | false => exact hfinish false

theorem fine_zunionInterGenericCommand (union : Bool) :
    Fine (zunionInterGenericCommand int union c argv) := by
  refine fine_withLong fun setnum => ?_
  split
  · exact .addReply _
  split
  · exact .addReply _
  refine .bind (reads_lookupZsets _).calm.still fun sources => ?_
  cases sources with
  | none => exact .addReply _
  | some sources =>
    dsimp only
    split
    · exact .addReply _
    · exact fine_storeZset _ _

end SortedSets

/-! ## SORT -/

section Sorting

/-- The end of the range of LIMIT, where one of `n` elements is in it, can be
computed in 64 bits. -/
def SortOptions.Fits (o : SortOptions) (n : ℕ) : Prop :=
  0 ≤ o.limitCount → max o.limitStart 0 < n →
    max o.limitStart 0 + o.limitCount - 1 ≤ llongMax

instance (o : SortOptions) (n : ℕ) : Decidable (o.Fits n) :=
  inferInstanceAs (Decidable (_ → _ → _))

/-- The bounds of the range are in order. -/
theorem sortBounds_spec {o : SortOptions} {n : ℕ} (hfits : o.Fits n) :
    (sortBounds o n).2 - (sortBounds o n).1 + 1 = 0 ∨
      0 ≤ (sortBounds o n).1 ∧ (sortBounds o n).1 < n ∧
        (sortBounds o n).1 ≤ (sortBounds o n).2 := by
  have hstop : 0 ≤ o.limitCount → max o.limitStart 0 < n →
      toLongLong (max o.limitStart 0 + o.limitCount - 1) =
        max o.limitStart 0 + o.limitCount - 1 := fun hcount hlen =>
    toLongLong_eq (by rw [llongMin]; omega) (hfits hcount hlen)
  have hstart : (if o.limitStart < 0 then 0 else o.limitStart) =
      max o.limitStart 0 := by omega
  simp only [sortBounds, hstart]
  by_cases hlen : (n : ℤ) ≤ max o.limitStart 0
  · rw [if_pos hlen]
    exact Or.inl (by omega)
  rw [if_neg hlen]
  by_cases hcount : o.limitCount < 0
  · rw [if_pos hcount]
    dsimp only
    split_ifs <;> omega
  · rw [if_neg hcount, hstop (by omega) (by omega)]
    dsimp only
    split_ifs <;> omega

/-- The range has elements if their number is not zero. -/
theorem sortRange_ne_nil {o : SortOptions} {elements : List Bytes}
    (hfits : o.Fits elements.length)
    (h : sortOutputlen o elements.length ≠ 0) : sortRange o elements ≠ [] := by
  obtain hzero | ⟨hstart, hlt, hle⟩ := sortBounds_spec hfits
  · rw [sortOutputlen, hzero] at h
    exact absurd (by simp) h
  · rw [sortRange, ← length_pos_iff, length_take, length_drop]
    omega

theorem sortGets_ne_nil (element : Bytes) {patterns : List Bytes}
    (hpatterns : patterns ≠ []) (s : State) :
    (run (handle env) (sortGets c element patterns) s).1 ≠ [] := by
  match patterns, hpatterns with
  | pattern :: patterns, _ =>
    rw [sortGets, run_bind, run_bind]
    exact cons_ne_nil _ _

theorem sortOutput_ne_nil (env : Env) (c : Client) (gets : List Bytes) {elements : List Bytes}
    (helements : elements ≠ []) (s : State) :
    (run (handle env) (sortOutput c gets elements) s).1 ≠ [] := by
  match elements, helements with
  | element :: rest, _ =>
    have hvalues : ∀ values : List (Option Bytes), values ≠ [] → ∀ s,
        (run (handle env) (sortOutput c gets rest >>= fun output =>
          pure (values ++ output)) s).1 ≠ [] := by
      intro values hne s
      rw [run_bind]
      exact append_ne_nil_of_left_ne_nil hne _
    rw [sortOutput]
    split
    · exact hvalues _ (cons_ne_nil _ _) s
    · next hgets =>
        rw [run_bind]
        exact hvalues _ (sortGets_ne_nil element hgets s) _

theorem keeps_sortStore {output : List Bytes} {outputlen : ℕ}
    (h : outputlen ≠ 0 → output ≠ []) :
    Keeps env (sortStore k output outputlen) := by
  rw [sortStore]
  split
  · refine Keeps.dbDelete.bind fun deleted => ?_
    cases deleted with
    | true =>
      exact (Keeps.perform id).bind fun _ => (Keeps.perform id).bind
        fun _ => (Keeps.perform id).bind fun _ => .addReply _
    | false => exact .addReply _
  next hlen =>
    have hset : Keeps env (setKey k (.list output)) := .setKey (h hlen)
    exact hset.bind fun _ => (Keeps.perform id).bind fun _ =>
      (Keeps.perform id).bind fun _ => .addReply _

theorem map_fst_sortWeights (env : Env) (c : Client) (o : SortOptions)
    (elements : List Bytes) (s : State) :
    (run (handle env) (sortWeights c o elements) s).1.map Prod.fst =
      elements := by
  induction elements generalizing s with
  | nil => rfl
  | cons element rest ih =>
    have hrest : ∀ (p : Cmd (Option Bytes)) (s : State),
        (run (handle env) (p >>= fun weight => sortWeights c o rest >>=
          fun weights => pure ((element, weight) :: weights)) s).1.map
            Prod.fst = element :: rest := by
      intro p s
      rw [run_bind, run_bind]
      exact congrArg (element :: ·) (ih _)
    rw [sortWeights]
    split
    · split
      · exact hrest (pure none) s
      · exact hrest _ s
    · exact hrest (pure none) s

/-- The range of the LIMIT of a SORT that stores its result, given what the
key holds. -/
def SortFits (int : Internals) (argv : List Bytes) (value : Option Value) :
    Prop :=
  ∀ o ∈ (parseSortOptions argv.length (argv.drop 2)
      SortOptions.none).toOption,
    o.storekey.isSome = true → ∀ elements ∈ sortElements int value,
      sortOutputlen o elements.length ≠ 0 → o.Fits elements.length

/-- The options and the elements are known. -/
theorem keeps_sortVector (views : Views) {o : SortOptions}
    {elements : List Bytes} (hfits : o.storekey.isSome = true →
      sortOutputlen o elements.length ≠ 0 → o.Fits elements.length) :
    Keeps env (sortVector views c argv o elements) := by
  intro s hs
  have hweights : Filled ∅ (run (handle env) (sortWeights c o elements) s).2 :=
    Keeps.of_reads (reads_sortWeights o elements) s hs
  have hfst := map_fst_sortWeights env c o elements s
  rw [sortVector, run_bind]
  generalize run (handle env) (sortWeights c o elements) s = result
    at hweights hfst ⊢
  split
  · exact hweights
  next vector _ =>
    have hlength : vector.1.length = elements.length := by
      rw [vector.2.length_eq, hfst]
    have houtput : Filled ∅ (run (handle env)
        (sortOutput c o.gets (sortRange o vector.1)) result.2).2 :=
      Keeps.of_reads (reads_sortOutput _ _) _ hweights
    rw [run_bind]
    cases hstore : o.storekey with
    | none => exact houtput
    | some key =>
      refine keeps_sortStore (fun hlen => ?_) _ houtput
      rw [← hlength] at hfits
      have hrange := sortRange_ne_nil (hfits (by rw [hstore]; rfl) hlen) hlen
      have hne := sortOutput_ne_nil env c o.gets hrange result.2
      exact fun hnil => hne (map_eq_nil_iff.mp hnil)

theorem keeps_sortCommand (s : State) (hs : Filled ∅ s)
    (hfits : SortFits int argv (found env s (keyArg c argv 1))) :
    Filled ∅ (run (handle env) (sortCommand int views c argv) s).2 := by
  have hlookup : run (handle env) (lookupKeyRead (keyArg c argv 1)) s =
      (found env s (keyArg c argv 1), lookedUp env s (keyArg c argv 1)) := rfl
  rw [sortCommand, run_bind, hlookup]
  dsimp only
  cases helements : sortElements int (found env s (keyArg c argv 1)) with
  | none => exact hs.lookedUp
  | some elements =>
    dsimp only
    cases hparse : parseSortOptions argv.length (argv.drop 2)
        SortOptions.none with
    | error r => exact hs.lookedUp
    | ok o =>
      have ho := hfits o (by rw [hparse]; rfl)
      exact keeps_sortVector views (fun hstore => ho hstore _ helements) _
        hs.lookedUp

end Sorting

/-! ## Serving blocked clients -/

section Serving

/-- The list being served is at its key with the elements `l`, and is the only
one that may have none. -/
def Serves (env : Env) (k : Key) (l : List Bytes) (s : State) : Prop :=
  Filled (insert k ∅) s ∧ found env s k = some (.list l)

theorem found_store_self {value' : Value} (h : found env s k = some value) :
    found env (s.store k value') k = some value' := by
  obtain ⟨expire, hentry⟩ := find_of_found h
  have hfind : (s.store k value').data.find k = some ⟨value', expire⟩ := by
    rw [State.store, State.put, Dataset.find_set_self, hentry]
    rfl
  have hexp : (s.store k value').expires env k = s.expires env k := by
    rw [State.expires, State.expires, hfind, hentry]
    rfl
  cases hlapsed : s.expires env k with
  | true => rw [found_of_expires hlapsed] at h; cases h
  | false =>
    rw [found_of_not_expires (hexp.trans hlapsed), hfind]
    rfl

/-- The entries of other keys do not matter. -/
theorem found_congr {s' : State} (h : s'.data.find k = s.data.find k) :
    found env s' k = found env s k := by
  have hexp : s'.expires env k = s.expires env k := by
    rw [State.expires, State.expires, h]
  cases hlapsed : s.expires env k with
  | true => rw [found_of_expires hlapsed, found_of_expires (hexp.trans hlapsed)]
  | false =>
    rw [found_of_not_expires hlapsed,
      found_of_not_expires (hexp.trans hlapsed), h]

theorem Serves.congr {s' : State} (h : Serves env k l s)
    (hdata : s'.data = s.data) : Serves env k l s' :=
  ⟨fun k' hk' entry hentry => h.1 k' hk' entry (hdata ▸ hentry),
    (found_congr (by rw [hdata])).trans h.2⟩

theorem Serves.store (h : Serves env k l s) :
    Serves env k l' (s.store k (.list l')) := by
  have hfilled : Filled (insert k (insert k ∅)) (s.store k (.list l')) :=
    h.1.store_insert _
  rw [Set.insert_eq_of_mem (Set.mem_insert k ∅)] at hfilled
  exact ⟨hfilled, found_store_self h.2⟩

/-- Another key gets elements, or is removed. -/
theorem Serves.put {k' : Key} {o : Option Entry} (h : Serves env k l s)
    (hne : k' ≠ k) (ho : ∀ entry, o = some entry → entry.value.HasElements) :
    Serves env k l (s.put k' o) :=
  ⟨h.1.weaken.put ho,
    (found_congr (Dataset.find_set_of_ne hne.symm o)).trans h.2⟩

theorem Serves.lookedUp {k' : Key} (h : Serves env k l s) :
    Serves env k l (lookedUp env s k') := by
  by_cases hk : k' = k
  · rw [hk, lookedUp_of_found h.2]
    exact h
  rw [Keyspace.lookedUp, handle]
  split
  · exact (h.put hk (o := none) fun _ hnone => (by cases hnone)).congr rfl
  · exact h

theorem data_rpoplpushHandlePush (dst : Option (List Bytes)) (value : Bytes)
    (s : State) :
    (run (handle env) (rpoplpushHandlePush k dst value) s).2.data =
      (s.store k (.list (value :: dst.getD []))).data := by
  cases dst with
  | some l => rfl
  | none =>
    change (State.signalListAsReady _ k).data = _
    rw [State.signalListAsReady]
    split <;> rfl

/-- The element goes to another list, or comes back to this one. -/
theorem serves_serveClientBlockedOnList {db : ℕ} {key : Bytes} (value : Bytes)
    (rest : List Bytes) (target : Option Bytes) :
    Triple (handle env) (Serves env (db, key) rest)
      (serveClientBlockedOnList db value target) fun served =>
        Serves env (db, key)
          (if served = true ∧ target = some key then value :: rest else rest) := by
  cases target with
  | none =>
    intro s hs
    simpa [serveClientBlockedOnList] using hs
  | some dst =>
    intro s hs
    have hpush : ∀ t : Option (List Bytes), (dst = key → t = some rest) →
        Serves env (db, key)
          (if some dst = some key then value :: rest else rest)
          (run (handle env) (rpoplpushHandlePush (db, dst) t value)
            (lookedUp env s (db, dst))).2 := by
      intro t ht
      by_cases hdst : dst = key
      · rw [ht hdst, if_pos (by rw [hdst]), hdst]
        exact hs.lookedUp.store.congr (data_rpoplpushHandlePush _ _ _)
      have hne : (db, dst) ≠ (db, key) := fun h => hdst (Prod.ext_iff.mp h).2
      rw [if_neg fun h => hdst (Option.some.inj h)]
      refine (hs.lookedUp.put hne fun entry hentry => ?_).congr
        (data_rpoplpushHandlePush _ _ _)
      cases hentry
      exact cons_ne_nil _ _
    have hself : dst = key → found env s (db, dst) = some (.list rest) :=
      fun hdst => hdst ▸ hs.2
    have hlookup : run (handle env) (lookupKeyWrite (db, dst)) s =
        (found env s (db, dst), lookedUp env s (db, dst)) := rfl
    rw [serveClientBlockedOnList, run_bind, hlookup]
    dsimp only
    cases hfound : found env s (db, dst) with
    | none =>
      have hne : dst ≠ key := fun hdst => by
        rw [hself hdst] at hfound
        cases hfound
      simpa [run_bind] using hpush none fun hdst => absurd hdst hne
    | some held =>
      cases held with
      | list l =>
        simpa [run_bind] using hpush (some l) fun hdst => by
          rw [hself hdst] at hfound
          cases hfound
          rfl
      | string | set | hash | zset => simpa using hs.lookedUp

theorem serves_serveLoop {db : ℕ} {key : Bytes} (receivers : List Receiver)
    (l : List Bytes) :
    Triple (handle env) (Serves env (db, key) l) (serveLoop db key receivers l)
      (Serves env (db, key)) := by
  induction receivers generalizing l with
  | nil => exact fun s hs => hs
  | cons r receivers ih =>
    rw [serveLoop]
    split
    · exact fun s hs => hs
    next value rest _ =>
      have hstore : Triple (handle env) (Serves env (db, key) l)
          (dbOverwrite (db, key) (.list rest))
          fun _ => Serves env (db, key) rest := fun s hs => hs.store
      refine hstore.bind fun _ =>
        (serves_serveClientBlockedOnList value rest r.target).bind
          fun served => ?_
      cases served with
      | true => 
          simp only [afterServing, true_and, if_true]
          exact ih _
      | false =>
        refine Triple.bind (fun s hs => ?_) fun _ => ih _
        simp only [Bool.false_eq_true, false_and, if_false] at hs
        exact hs.store

theorem keeps_handleClientsBlockedOn (db : ℕ) (key : Bytes)
    (receivers : List Receiver) :
    Keeps env (handleClientsBlockedOn db key receivers) := by
  intro s hs
  have hlookup : run (handle env) (lookupKeyWrite (db, key)) s =
      (found env s (db, key), lookedUp env s (db, key)) := rfl
  rw [handleClientsBlockedOn, run_bind, hlookup]
  dsimp only
  cases hfound : found env s (db, key) with
  | none => exact hs.lookedUp
  | some held =>
    cases held with
    | string | set | hash | zset => exact hs.lookedUp
    | list l =>
      rw [lookedUp_of_found hfound, run_bind]
      obtain ⟨hfilled, hleft⟩ := serves_serveLoop receivers l s
        ⟨hs.weaken, hfound⟩
      generalize run (handle env) (serveLoop db key receivers l) s =
        result at hfilled hleft ⊢
      split
      · exact Filled.delete hfilled
      next hne =>
        obtain ⟨expire, hentry⟩ := find_of_found hleft
        intro k' _ entry hk'
        change result.2.data.find k' = some entry at hk'
        by_cases hk : k' = (db, key)
        · rw [hk, hentry] at hk'
          cases hk'
          exact hne
        · exact hfilled k' (by simp [hk]) entry hk'

end Serving

/-! ## Runs -/

section Runs

/-- The command keeps that no key is without elements. -/
def Collects (int : Internals) (cmd : RedisCommand) : Prop :=
  ∀ proc, cmd.proc = .data proc → ∀ env c argv,
    cmd.arityOk argv.length = true → ∀ s, Filled ∅ s →
    (cmd.name = "sort" →
      SortFits int argv (found env s (keyArg c argv 1))) →
    Filled ∅ (run (handle env) (proc c argv) s).2

/-- How a command of the table is known to keep elements and to announce. -/
inductive Kind (int : Internals) (views : Views) : RedisCommand → Prop where
  | fine {name sflags : String} {arity firstkey lastkey keystep : ℤ}
      {getkeysProc : Option GetKeys} {proc : Client → List Bytes → Cmd Outcome}
      (hname : name ∉ ["lrem", "zrem", "sinterstore"])
      (h : ∀ c argv, Fine (proc c argv)) :
      Kind int views ⟨name, .data proc, arity, sflags, getkeysProc, firstkey,
        lastkey, keystep⟩
  /-- It creates its key before it looks at the other arguments. -/
  | creates {name : String} {n : ℕ}
      {proc : Client → List Bytes → Cmd Outcome}
      (hname : name ∉ ["lrem", "zrem", "sinterstore"])
      (h : ∀ c argv, n ≤ argv.length → Fine (proc c argv))
      (hannounces : ∀ env c argv d k, Announces env d k (proc c argv)) :
      Kind int views ⟨name, .data proc, -n, "wm", none, 1, 1, 1⟩
  | store {name : String} (op : SetOp)
      (hname : name ∉ ["lrem", "zrem", "sinterstore"] ∧ op ≠ .inter ∨
        name = "sinterstore" ∧ op = .inter) :
      Kind int views ⟨name, .data (setopStore op), -3, "wm", none, 1, -1, 1⟩
  | lrem : Kind int views ⟨"lrem", .data (lremCommand int), 4, "w", none, 1, 1,
      1⟩
  | zrem : Kind int views ⟨"zrem", .data zremCommand, -3, "w", none, 1, 1, 1⟩
  | sort : Kind int views ⟨"sort", .data (sortCommand int views), -2, "wm",
      none, 1, 1, 1⟩

variable (int : Internals) (views : Views)

theorem Kind.reads {name sflags : String} {arity firstkey lastkey keystep : ℤ}
    {getkeysProc : Option GetKeys}
    {proc : Client → List Bytes → Cmd Outcome}
    (hname : name ∉ ["lrem", "zrem", "sinterstore"])
    (h : ∀ c argv, Reads (proc c argv)) :
    Kind int views ⟨name, .data proc, arity, sflags, getkeysProc, firstkey,
      lastkey, keystep⟩ := .fine hname fun c argv => .of_reads (h c argv)

theorem kind_listTable : ∀ cmd ∈ listTable int, Kind int views cmd := by
  have hlist : ∀ {k missing cmd}, (∀ count value, cmd ≠ .lrem count value) →
      Fine (listCommand int k missing cmd) := fun h => fine_listCommand h _
  simp only [listTable, forall_mem_cons]
  refine ⟨.fine ?_ fun _ _ => fine_pushGenericCommand _ _,
    .fine ?_ fun _ _ => fine_pushGenericCommand _ _,
    .fine ?_ fun _ _ => hlist nofun, .fine ?_ fun _ _ => hlist nofun,
    .fine ?_ fun _ _ => fine_linsertCommand,
    .fine ?_ fun _ _ => hlist nofun, .fine ?_ fun _ _ => hlist nofun,
    .fine ?_ fun _ _ => fine_blockingPopGenericCommand _,
    .fine ?_ fun _ _ => fine_brpoplpushCommand,
    .fine ?_ fun _ _ => fine_blockingPopGenericCommand _,
    .fine ?_ fun _ _ => hlist nofun, .fine ?_ fun _ _ => hlist nofun,
    .fine ?_ fun _ _ => hlist nofun,
    .reads int views ?_ fun _ _ => reads_lrangeCommand,
    .fine ?_ fun _ _ => fine_ltrimCommand, .lrem,
    .fine ?_ fun _ _ => fine_rpoplpushGeneric _ _,
    forall_mem_nil _⟩ <;> decide

theorem kind_setTable : ∀ cmd ∈ setTable int views, Kind int views cmd := by
  simp only [setTable, forall_mem_cons]
  refine ⟨.creates (n := 3) ?_ (fun _ _ => fine_saddCommand)
      fun _ _ _ _ _ => .createCommand fun value =>
        (sound_setChange (sound_saddChange _) value).2,
    .fine ?_ fun _ _ => fine_sremCommand,
    .fine ?_ fun _ _ => fine_smoveCommand,
    .reads int views ?_ fun _ _ => .readCommand _ _,
    .reads int views ?_ fun _ _ => .readCommand _ _,
    .fine ?_ fun _ _ => fine_spopCommand,
    .reads int views ?_ fun _ _ => reads_viewCommand _ _,
    .reads int views ?_ fun _ _ => reads_setopReply _, .store .inter ?_,
    .reads int views ?_ fun _ _ => reads_setopReply _, .store .union ?_,
    .reads int views ?_ fun _ _ => reads_setopReply _, .store .diff ?_,
    .reads int views ?_ fun _ _ => reads_setopReply _,
    .reads int views ?_ fun _ _ => reads_viewCommand _ _,
    forall_mem_nil _⟩ <;> decide

theorem kind_hashTable : ∀ cmd ∈ hashTable int views, Kind int views cmd := by
  have hview : ∀ {v missing} c argv,
      Reads (viewCommand views v missing c argv) :=
    fun _ _ => reads_viewCommand _ _
  simp only [hashTable, forall_mem_cons]
  refine ⟨.fine ?_ fun _ _ => fine_hsetCommand,
    .fine ?_ fun _ _ => fine_hsetnxCommand,
    .reads int views ?_ fun _ _ => .readCommand _ _,
    .creates (n := 4) ?_ (fun _ _ => fine_hmsetCommand)
      fun _ _ _ _ _ => announces_hmsetCommand,
    .reads int views ?_ fun _ _ => .readCommand _ _,
    .fine ?_ fun _ _ => fine_hincrbyCommand,
    .fine ?_ fun _ _ => fine_hincrbyfloatCommand,
    .fine ?_ fun _ _ => fine_hdelCommand,
    .reads int views ?_ fun _ _ => .readCommand _ _,
    .reads int views ?_ hview, .reads int views ?_ hview,
    .reads int views ?_ hview,
    .reads int views ?_ fun _ _ => .readCommand _ _,
    .reads int views ?_ hview, forall_mem_nil _⟩ <;> decide

theorem kind_zsetTable : ∀ cmd ∈ zsetTable int views, Kind int views cmd := by
  have hview : ∀ {v missing} c argv,
      Reads (viewCommand views v missing c argv) :=
    fun _ _ => reads_viewCommand _ _
  simp only [zsetTable, forall_mem_cons]
  refine ⟨.creates (n := 4) ?_ (fun _ _ => fine_zaddCommand)
      fun _ _ _ _ _ => announces_zaddCommand,
    .fine ?_ fun _ _ => fine_zincrbyCommand, .zrem,
    .fine ?_ fun _ _ => fine_zremrangebyscoreCommand,
    .fine ?_ fun _ _ => fine_zremrangebyrankCommand,
    .fine ?_ fun _ _ => fine_zunionInterGenericCommand _,
    .fine ?_ fun _ _ => fine_zunionInterGenericCommand _,
    .reads int views ?_ hview, .reads int views ?_ hview,
    .reads int views ?_ hview, .reads int views ?_ hview,
    .reads int views ?_ hview,
    .reads int views ?_ fun _ _ => .readCommand _ _,
    .reads int views ?_ fun _ _ => .readCommand _ _,
    .reads int views ?_ hview, .reads int views ?_ hview,
    .reads int views ?_ hview, forall_mem_nil _⟩ <;> decide

theorem kind_collectionTable :
    ∀ cmd ∈ collectionTable int views, Kind int views cmd := by
  intro cmd hcmd
  simp only [collectionTable, mem_append, mem_singleton] at hcmd
  rcases hcmd with (((h | h) | h) | h) | rfl
  · exact kind_listTable int views cmd h
  · exact kind_setTable int views cmd h
  · exact kind_hashTable int views cmd h
  · exact kind_zsetTable int views cmd h
  · exact .sort

theorem collects_collectionTable :
    ∀ cmd ∈ collectionTable int views, Collects int cmd := by
  intro cmd hcmd
  cases kind_collectionTable int views cmd hcmd with
  | fine _ h =>
    rintro _ ⟨⟩ env c argv - s hs -
    exact (h c argv env).1 s hs
  | creates _ h _ =>
    rintro _ ⟨⟩ env c argv harity s hs -
    simp [RedisCommand.arityOk] at harity
    exact (h c argv (by omega) env).1 s hs
  | store op _ =>
    rintro _ ⟨⟩ env c argv - s hs -
    exact keeps_setopStore op s hs
  | lrem =>
    rintro _ ⟨⟩ env c argv - s hs -
    exact keeps_lremCommand s hs
  | zrem =>
    rintro _ ⟨⟩ env c argv - s hs -
    exact keeps_zremCommand s hs
  | sort =>
    rintro _ ⟨⟩ env c argv - s hs hfits
    exact keeps_sortCommand s hs (hfits rfl)

/-- A SORT of the action has a LIMIT whose range can be computed. -/
def Action.Fits (env : Env) (d : Dataset) : Action → Prop
  | .call cmd c argv => cmd.name = "sort" →
      SortFits int argv (found env (State.init d) (keyArg c argv 1))
  | .serve _ _ _ => True

/-- So have those of a run. -/
def FitsAll : List (Env × Action) → Dataset → Prop
  | [], _ => True
  | (env, action) :: steps, d =>
      action.Fits int env d ∧ FitsAll steps (action.run env d).data

theorem noEmpty_run {action : Action} (hvalid : action.Valid int views)
    {env : Env} {d : Dataset} (hfits : action.Fits int env d)
    (hd : NoEmpty d) : NoEmpty (action.run env d).data := by
  have hinit : Filled ∅ (State.init d) := filled_empty_iff.mpr hd
  cases action with
  | call cmd c argv =>
    have hkeeps := collects_collectionTable int views cmd hvalid.1
    rw [Action.run]
    split
    · next proc hproc =>
        exact filled_empty_iff.mp
          (hkeeps proc hproc env c argv hvalid.2 _ hinit hfits)
    · exact hd
  | serve db key receivers =>
    exact filled_empty_iff.mp
      (keeps_handleClientsBlockedOn db key receivers _ hinit)

/-- In a run of commands on collections and of served clients in which the end
of the range of every SORT with STORE can be computed, no key is ever left
without elements. -/
theorem noEmpty_runActions (steps : List (Env × Action))
    (hvalid : ∀ step ∈ steps, step.2.Valid int views)
    {d : Dataset} (hfits : FitsAll int steps d) (hd : NoEmpty d) :
    NoEmpty (runActions steps d) := by
  induction steps generalizing d with
  | nil => exact hd
  | cons step steps ih =>
    rw [forall_mem_cons] at hvalid
    exact ih hvalid.2 hfits.2 (noEmpty_run int views hvalid.1 hfits.1 hd)

/-- A call of the command of a name. -/
def callOf (name : String) (argv : List Bytes) : Action :=
  .call (((collectionTable someInternals someViews).find?
    (·.name = name)).getD ⟨"", .other, 0, "", none, 0, 0, 0⟩) ⟨0, false⟩ argv

theorem valid_callOf {name : String} {argv : List Bytes} {cmd : RedisCommand}
    (hcmd : (collectionTable someInternals someViews).find? (·.name = name) =
      some cmd) (harity : cmd.arityOk argv.length = true) :
    (callOf name argv).Valid someInternals someViews := by
  rw [callOf, hcmd]
  exact ⟨mem_of_find?_eq_some hcmd, harity⟩

/-- The list `c b a`, and `SORT mylist ALPHA LIMIT start count STORE dst`. -/
def sortRun (start count : String) : List (Env × Action) :=
  [(Env.ofTime 0, callOf "rpush"
      [ascii "rpush", ascii "mylist", ascii "c", ascii "b", ascii "a"]),
    (Env.ofTime 0, callOf "sort" [ascii "sort", ascii "mylist", ascii "alpha",
      ascii "limit", ascii start, ascii count, ascii "store", ascii "dst"])]

theorem valid_sortRun (start count : String) :
    ∀ step ∈ sortRun start count, step.2.Valid someInternals someViews :=
  forall_mem_cons.mpr ⟨valid_callOf rfl rfl,
    forall_mem_cons.mpr ⟨valid_callOf rfl rfl, forall_mem_nil _⟩⟩

theorem noEmpty_empty : NoEmpty fun _ => ∅ := by
  intro k entry h
  rw [show Dataset.find (fun _ => ∅) k = none from Finmap.lookup_empty _] at h
  cases h

theorem fitsAll_sortRun :
    FitsAll someInternals (sortRun "1" "2") fun _ => ∅ := by
  refine ⟨fun hname => absurd hname (by decide), fun _ => ?_, trivial⟩
  rw [SortFits]
  decide +kernel

theorem noEmpty_sortRun :
    (runActions (sortRun "1" "2") fun _ => ∅).find (0, ascii "dst") =
        some ⟨.list [ascii "b", ascii "c"], none⟩ ∧
      NoEmpty (runActions (sortRun "1" "2") fun _ => ∅) :=
  ⟨by decide +kernel, noEmpty_runActions someInternals someViews _
    (valid_sortRun "1" "2") fitsAll_sortRun noEmpty_empty⟩

/-- The end of the range, `2 + 9223372036854775807 - 1`, is negative once it
was computed, and the number of elements is taken for `4294967295`. -/
theorem sort_store_leaves_empty_list :
    (∀ step ∈ sortRun "2" "9223372036854775807",
        step.2.Valid someInternals someViews) ∧
      NoEmpty (fun _ => ∅) ∧
      (runActions (sortRun "2" "9223372036854775807") fun _ => ∅).find
        (0, ascii "dst") = some ⟨.list [], none⟩ ∧
      ¬ NoEmpty
        (runActions (sortRun "2" "9223372036854775807") fun _ => ∅) := by
  have hdst : (runActions (sortRun "2" "9223372036854775807")
      fun _ => ∅).find (0, ascii "dst") = some ⟨.list [], none⟩ := by
    decide +kernel
  exact ⟨valid_sortRun _ _, noEmpty_empty, hdst, fun h => h _ _ hdst rfl⟩

end Runs

end RedisV8.Commands
