import RedisV8.Hashes.Encodings

/-!
# The hash commands on a finite map

Each command is given a meaning on the map from fields to values, and every
run of the commands follows it, through all conversions of the encoding.  A
listing announces its length in an `int`: its reply is the map's as long as
that number can be held.
-/

namespace RedisV8.Hashes

open Util Server AssocMap List Function Command
open RedisV8.Lists (encodedArg)

/-! ## The meaning of the commands -/

namespace FieldMap

def empty : FieldMap := fun _ => none

noncomputable def size (map : FieldMap) : ℕ :=
  Set.ncard {field | (map field).isSome}

/-- Pairs of a field and a value, set from left to right. -/
def setAll : FieldMap → List Bytes → FieldMap
  | map, field :: value :: rest =>
    setAll (update map field (some value)) rest
  | map, _ => map

def deleteAll (map : FieldMap) (fields : List Bytes) : FieldMap :=
  fun field => if fields.contains field then none else map field

/-- How many of the fields are there. -/
def present (map : FieldMap) (fields : List Bytes) : ℕ :=
  (fields.toFinset.filter fun field => (map field).isSome).card

/-- The number a field is incremented to, or the error. -/
def incremented (map : FieldMap) (field incr : Bytes) : Except Reply ℤ :=
  match getLongLongFromObject incr with
  | none => .error Reply.notAnInteger
  | some incr =>
    match (map field).elim (some 0) getLongLongFromObject with
    | none => .error (.error (ascii "ERR hash value is not an integer"))
    | some old =>
      if llongMin ≤ old + incr ∧ old + incr ≤ llongMax then
        .ok (old + incr)
      else
        .error (.error (ascii "ERR increment or decrement would overflow"))

/-- The value of a field as a reply. -/
def item (map : FieldMap) (field : Bytes) : Reply :=
  (map field).elim .nullBulk .bulk

end FieldMap

namespace Command

/-- The map a command leaves. -/
def onMap : Command → FieldMap → FieldMap
  | hset field value, map => update map field (some value)
  | hsetnx field value, map =>
    if (map field).isSome then map else update map field (some value)
  | hmset field value rest, map =>
    if rest.length % 2 = 1 then map else map.setAll (field :: value :: rest)
  | hincrby field incr, map =>
    match map.incremented field incr with
    | .error _ => map
    | .ok value => update map field (some (llText value))
  | hdel field rest, map => map.deleteAll (field :: rest)
  | hget _, map | hmget _ _, map | hlen, map | hexists _, map => map
  | hkeys, map | hvals, map | hgetall, map => map

/-- What a command lists. -/
def listing : Command → Option Flags
  | hkeys => some .key
  | hvals => some .value
  | hgetall => some .both
  | _ => none

/-- A listing of a map, in any order. -/
def Listing (flags : Flags) (map : FieldMap) (reply : Reply) : Prop :=
  ∃ pairs, Lists pairs map ∧
    reply = .multiBulk ((pairs.flatMap flags.select).map .bulk)

/-- The replies a command may give. -/
def Replies : Command → FieldMap → Reply → Prop
  | hset field _, map, reply | hsetnx field _, map, reply =>
    reply = if (map field).isSome then Reply.czero else Reply.cone
  | hmset _ _ rest, _, reply =>
    reply =
      if rest.length % 2 = 1 then
        .error (ascii "ERR wrong number of arguments for HMSET")
      else Reply.ok
  | hincrby field incr, map, reply =>
    reply =
      match map.incremented field incr with
      | .error error => error
      | .ok value => .integer value
  | hget field, map, reply => reply = map.item field
  | hmget field rest, map, reply =>
    reply = .multiBulk ((field :: rest).map map.item)
  | hdel field rest, map, reply =>
    reply = .integer (map.present (field :: rest))
  | hlen, map, reply => reply = .integer map.size
  | hexists field, map, reply =>
    reply = if (map field).isSome then Reply.cone else Reply.czero
  | hkeys, map, reply => Listing .key map reply
  | hvals, map, reply => Listing .value map reply
  | hgetall, map, reply => Listing .both map reply

/-- The number of items of a listing fits an `int`. -/
def Fits (cmd : Command) (map : FieldMap) : Prop :=
  ∀ flags, cmd.listing = some flags → map.size * flags.multiplier < 2 ^ 31

/-- A command ran as on the map. -/
structure RunsAs (cmd : Command) (map : FieldMap) (effect : Effect) :
    Prop where
  stored : effect.stored.Holds (cmd.onMap map)
  reply : ∃ reply, cmd.Replies map reply ∧ effect.reply = reply.encode

end Command

/-! ## The commands one by one -/

section Commands

variable {stored : Stored} {o : HashObj} {map : FieldMap}

theorem getDecodedObject_arg (o : HashObj) (arg : Bytes) :
    getDecodedObject (hashTypeTryObjectEncoding o arg) = arg := by
  cases o with
  | ziplist entries => rfl
  | ht dict => exact getDecodedObject_tryObjectEncoding 1 (.raw arg)

/-- The hash a writing command works on. -/
theorem exists_hash (hstored : stored.Holds map) :
    ∃ o : HashObj, o.Holds map ∧
      ∀ body, hashTypeLookupWriteOrCreate stored body = body o := by
  cases stored with
  | absent =>
    refine ⟨createHashObject, ⟨[], rfl, ?_⟩, fun _ => rfl⟩
    rw [show map = fun _ => none from hstored]
    exact lists_nil
  | hash o => exact ⟨o, hstored.1, fun _ => rfl⟩
  | otherType => exact hstored.elim

/-- Setting a field to an argument or to a number. -/
theorem setField (ho : o.Holds map) (cfg : Config) (field : Bytes)
    {value : StringObj} {bytes : Bytes}
    (hvalue : getDecodedObject value = bytes) :
    ∃ o', hashTypeSet cfg o (hashTypeTryObjectEncoding o field) value =
        some (o', (map field).isSome) ∧
      o'.Holds (update map field (some bytes)) := by
  have hset := hashTypeSet_spec ho cfg (hashTypeTryObjectEncoding o field) value
  rwa [getDecodedObject_arg, hvalue] at hset

theorem holds_update (ho : o.Holds (update map field (some value))) :
    (Stored.hash o).Holds (update map field (some value)) :=
  ⟨ho, field, by rw [update_self]; rfl⟩

theorem hset_runsAs (hstored : stored.Holds map) (cfg : Config)
    (field value : Bytes) :
    ∃ effect, hsetCommand cfg field value stored = some effect ∧
      (hset field value).RunsAs map effect := by
  obtain ⟨o, ho, hlookup⟩ := exists_hash hstored
  obtain ⟨o₁, hconv, ho₁⟩ :=
    hashTypeTryConversion_spec ho cfg [.raw field, .raw value]
  obtain ⟨o₂, hset, ho₂⟩ := setField ho₁ cfg field (getDecodedObject_arg o₁ value)
  rw [hsetCommand, hlookup, hconv]
  simp only [some_bind, hset]
  exact ⟨_, rfl, holds_update ho₂, ⟨_, rfl, rfl⟩⟩

theorem hsetnx_runsAs (hstored : stored.Holds map) (cfg : Config)
    (field value : Bytes) :
    ∃ effect, hsetnxCommand cfg field value stored = some effect ∧
      (hsetnx field value).RunsAs map effect := by
  obtain ⟨o, ho, hlookup⟩ := exists_hash hstored
  obtain ⟨o₁, hconv, ho₁⟩ :=
    hashTypeTryConversion_spec ho cfg [.raw field, .raw value]
  have hexists : hashTypeExists o₁ (.raw field) = some (map field).isSome :=
    hashTypeExists_eq ho₁ _
  rw [hsetnxCommand, hlookup, hconv]
  simp only [some_bind, hexists]
  split
  · rename_i hfield
    refine ⟨_, rfl, ?_, ⟨_, rfl, ?_⟩⟩
    · rw [onMap, if_pos hfield]
      exact ⟨ho₁, field, hfield⟩
    · rw [if_pos hfield]
      rfl
  rename_i hfield
  obtain ⟨o₂, hset, ho₂⟩ :=
    setField ho₁ cfg field (getDecodedObject_arg o₁ value)
  simp only [hset]
  refine ⟨_, rfl, ?_, ⟨_, rfl, ?_⟩⟩
  · rw [onMap, if_neg hfield]
    exact holds_update ho₂
  · rw [if_neg hfield]
    rfl

theorem hmsetLoop_spec (ho : o.Holds map) (cfg : Config) (args : List Bytes) :
    ∃ o', hmsetLoop cfg o args = some o' ∧ o'.Holds (map.setAll args) := by
  fun_induction FieldMap.setAll map args generalizing o with
  | case1 map field value rest ih =>
    obtain ⟨o₁, hset, ho₁⟩ := setField ho cfg field (getDecodedObject_arg o value)
    obtain ⟨o₂, hloop, ho₂⟩ := ih ho₁
    refine ⟨o₂, ?_, ho₂⟩
    rw [hmsetLoop, hset]
    exact hloop
  | case2 map args hargs =>
    refine ⟨o, ?_, ho⟩
    rw [hmsetLoop]
    exact hargs

theorem isSome_setAll {field : Bytes} (args : List Bytes)
    (hfield : (map field).isSome) : (map.setAll args field).isSome := by
  fun_induction FieldMap.setAll map args with
  | case1 map other value rest ih =>
    apply ih
    by_cases heq : field = other
    · rw [heq, update_self]
      rfl
    · rwa [update_of_ne heq]
  | case2 map args hargs => exact hfield

theorem hmset_runsAs (hstored : stored.Holds map) (cfg : Config)
    (field value : Bytes) (rest : List Bytes) :
    ∃ effect, hmsetCommand cfg (field :: value :: rest) stored = some effect ∧
      (hmset field value rest).RunsAs map effect := by
  have hodd : ((field :: value :: rest).length + 2) % 2 = rest.length % 2 := by
    rw [length_cons, length_cons]
    omega
  rw [hmsetCommand, hodd]
  split
  · rename_i hargs
    refine ⟨_, rfl, ?_, ⟨_, rfl, ?_⟩⟩
    · rwa [onMap, if_pos hargs]
    · rw [if_pos hargs]
      rfl
  rename_i hargs
  obtain ⟨o, ho, hlookup⟩ := exists_hash hstored
  obtain ⟨o₁, hconv, ho₁⟩ := hashTypeTryConversion_spec ho cfg
    ((field :: value :: rest).map .raw)
  obtain ⟨o₂, hloop, ho₂⟩ := hmsetLoop_spec ho₁ cfg (field :: value :: rest)
  rw [hlookup, hconv, some_bind, hloop]
  refine ⟨_, rfl, ?_, ⟨_, rfl, ?_⟩⟩
  · rw [onMap, if_neg hargs]
    refine ⟨ho₂, field, isSome_setAll rest ?_⟩
    rw [update_self]
    rfl
  · rw [if_neg hargs]
    rfl

theorem longLongOfObject_eq (o : StringObj) :
    longLongOfObject o = getLongLongFromObject (getDecodedObject o) := by
  cases o with
  | raw s => rfl
  | int value =>
    have hbounds := toInt_bounds value
    rw [getDecodedObject_int,
      getLongLongFromObject_llText hbounds.1 hbounds.2, longLongOfObject]

theorem incrOverflows_iff {old incr : ℤ}
    (hold : llongMin ≤ old ∧ old ≤ llongMax)
    (hincr : llongMin ≤ incr ∧ incr ≤ llongMax) :
    incrOverflows old incr = false ↔
      llongMin ≤ old + incr ∧ old + incr ≤ llongMax := by
  rw [← Bool.not_eq_true]
  simp only [incrOverflows, Bool.or_eq_true, Bool.and_eq_true,
    decide_eq_true_eq]
  simp only [llongMin, llongMax] at hold hincr ⊢
  omega

/-- The number a field is taken for before it is incremented. -/
def currentNumber (map : FieldMap) (field : Bytes) : Option ℤ :=
  (map field).elim (some 0) getLongLongFromObject

theorem currentNumber_of_none {field : Bytes} (hfield : map field = none) :
    currentNumber map field = some 0 := by
  rw [currentNumber, hfield]
  rfl

theorem currentNumber_bounds {field : Bytes} {old : ℤ}
    (hold : currentNumber map field = some old) :
    llongMin ≤ old ∧ old ≤ llongMax := by
  cases hfield : map field with
  | none =>
    rw [currentNumber_of_none hfield] at hold
    cases hold
    decide
  | some value =>
    rw [currentNumber, hfield] at hold
    exact getLongLongFromObject_bounds hold

/-- An increment that fails at a missing field fails for its argument. -/
theorem isSome_of_failed {field : Bytes}
    (hfailed : ∀ old, currentNumber map field = some old → ∃ incr,
      incrOverflows old incr = true) : (map field).isSome := by
  cases hfield : map field with
  | some value => rfl
  | none =>
    obtain ⟨incr, hoverflow⟩ := hfailed 0 (currentNumber_of_none hfield)
    simp [incrOverflows] at hoverflow

theorem incremented_eq (map : FieldMap) (field : Bytes) {incr : Bytes} {by' : ℤ}
    (hincr : getLongLongFromObject incr = some by') :
    map.incremented field incr =
      match currentNumber map field with
      | none => .error (.error (ascii "ERR hash value is not an integer"))
      | some old =>
        if incrOverflows old by' then
          .error (.error (ascii "ERR increment or decrement would overflow"))
        else .ok (old + by') := by
  rw [FieldMap.incremented, hincr, ← currentNumber]
  cases hold : currentNumber map field with
  | none => rfl
  | some old =>
    have hin := incrOverflows_iff (currentNumber_bounds hold)
      (getLongLongFromObject_bounds hincr)
    dsimp only
    by_cases hsum : llongMin ≤ old + by' ∧ old + by' ≤ llongMax
    · rw [if_pos hsum, hin.2 hsum]
      rfl
    · rw [if_neg hsum, if_pos]
      exact Bool.of_not_eq_false fun hoverflow => hsum (hin.1 hoverflow)

theorem hincrby_failed {field incr : Bytes} {error : Reply}
    (hstored : stored.Holds map)
    (herror : map.incremented field incr = .error error) :
    (hincrby field incr).RunsAs map (answer stored error) := by
  constructor
  · simp only [onMap, herror]
    exact hstored
  · refine ⟨error, ?_, rfl⟩
    simp only [Command.Replies, herror]

theorem hincrby_runsAs (hstored : stored.Holds map) (cfg : Config)
    (field incr : Bytes) :
    ∃ effect, hincrbyCommand cfg field incr stored = some effect ∧
      (hincrby field incr).RunsAs map effect := by
  rw [hincrbyCommand]
  cases hincr : getLongLongFromObject incr with
  | none =>
    refine ⟨_, rfl, hincrby_failed hstored ?_⟩
    rw [FieldMap.incremented, hincr]
  | some by' =>
    have hsum := incremented_eq map field hincr
    obtain ⟨o, ho, hlookup⟩ := exists_hash hstored
    obtain ⟨found, hget, hfound⟩ := hashTypeGetObject_spec ho (.raw field)
    have hcurrent : found.elim (some 0) longLongOfObject =
        currentNumber map field := by
      rw [currentNumber,
        ← show found.map getDecodedObject = map field from hfound]
      cases found with
      | none => rfl
      | some current => exact longLongOfObject_eq current
    simp only [hlookup, hget, some_bind, hcurrent]
    cases hold : currentNumber map field with
    | none =>
      rw [hold] at hsum
      refine ⟨_, rfl, hincrby_failed ⟨ho, field, ?_⟩ hsum⟩
      exact isSome_of_failed fun old h => by rw [hold] at h; cases h
    | some old =>
      rw [hold] at hsum
      dsimp only at hsum ⊢
      split at hsum
      · rename_i hoverflow
        rw [if_pos hoverflow]
        refine ⟨_, rfl, hincrby_failed ⟨ho, field, ?_⟩ hsum⟩
        refine isSome_of_failed fun old' h => ⟨by', ?_⟩
        rw [hold, Option.some.injEq] at h
        rwa [← h]
      rename_i hoverflow
      have hin := (incrOverflows_iff (currentNumber_bounds hold)
        (getLongLongFromObject_bounds hincr)).1
        (Bool.not_eq_true _ ▸ hoverflow)
      obtain ⟨o', hset, ho'⟩ := setField ho cfg field
        (getDecodedObject_fromLongLong hin)
      rw [if_neg hoverflow, hset]
      refine ⟨_, rfl, ?_, ⟨_, rfl, ?_⟩⟩
      · simp only [onMap, hsum]
        exact holds_update ho'
      · simp only [hsum]
        rfl

theorem addHashFieldToReply_eq (ho : o.Holds map) (field : Bytes) :
    addHashFieldToReply (some o) field = some (map.item field) := by
  obtain ⟨found, hget, hfound⟩ := hashTypeGetObject_spec ho (.raw field)
  rw [addHashFieldToReply, hget, FieldMap.item,
    ← show found.map getDecodedObject = map field from hfound]
  cases found <;> rfl

theorem hget_runsAs (hstored : stored.Holds map) (field : Bytes) :
    ∃ effect, hgetCommand field stored = some effect ∧
      (hget field).RunsAs map effect := by
  cases stored with
  | absent =>
    have hmap : map = fun _ => none := hstored
    refine ⟨_, rfl, hstored, ⟨_, rfl, ?_⟩⟩
    rw [FieldMap.item, hmap]
    rfl
  | hash o =>
    rw [hgetCommand, lookupKeyOrReply, addHashFieldToReply_eq hstored.1]
    exact ⟨_, rfl, hstored, ⟨_, rfl, rfl⟩⟩
  | otherType => exact hstored.elim

theorem hmget_runsAs (hstored : stored.Holds map) (field : Bytes)
    (rest : List Bytes) :
    ∃ effect, hmgetCommand (field :: rest) stored = some effect ∧
      (hmget field rest).RunsAs map effect := by
  have hitems : ∀ {o}, (∀ field, addHashFieldToReply o field =
      some (map.item field)) → ∀ fields : List Bytes,
      fields.mapM (addHashFieldToReply o) = some (fields.map map.item) := by
    intro o hitem fields
    rw [funext hitem]
    exact mapM_pure
  cases stored with
  | absent =>
    have hmap : map = fun _ => none := hstored
    have hitem : ∀ field,
        addHashFieldToReply none field = some (map.item field) := by
      intro field
      rw [FieldMap.item, hmap]
      rfl
    simp only [hmgetCommand, hitems hitem, some_bind]
    exact ⟨_, rfl, hstored, ⟨_, rfl, rfl⟩⟩
  | hash o =>
    simp only [hmgetCommand, hitems (addHashFieldToReply_eq hstored.1),
      some_bind]
    exact ⟨_, rfl, hstored, ⟨_, rfl, rfl⟩⟩
  | otherType => exact hstored.elim

theorem hashTypeLength_eq_zero_iff (ho : o.Holds map) :
    hashTypeLength o = 0 ↔ map = FieldMap.empty := by
  obtain ⟨dict, -, hlists, hlength⟩ := hashTypeIterate_spec ho
  rw [← hlength, length_eq_zero_iff]
  constructor
  · rintro rfl
    funext field
    rw [FieldMap.empty, Option.eq_none_iff_forall_not_mem]
    intro value hvalue
    cases (hlists.mem_iff field value).2 hvalue
  intro hempty
  cases dict with
  | nil => rfl
  | cons pair dict =>
    have hpair := (hlists.mem_iff _ _).1 mem_cons_self
    rw [hempty] at hpair
    cases hpair

theorem deleteAll_cons (map : FieldMap) (field : Bytes) (rest : List Bytes) :
    map.deleteAll (field :: rest) =
      FieldMap.deleteAll (update map field none) rest := by
  funext other
  simp only [FieldMap.deleteAll, update_apply]
  by_cases heq : other = field <;> simp [heq]

theorem present_cons (map : FieldMap) (field : Bytes) (rest : List Bytes) :
    map.present (field :: rest) =
      (if (map field).isSome then 1 else 0) +
        FieldMap.present (update map field none) rest := by
  have hrest : (rest.toFinset.filter fun other =>
        (update map field none other).isSome) =
      (rest.toFinset.filter fun other => (map other).isSome).erase field := by
    ext other
    by_cases heq : other = field <;> simp [heq]
  rw [FieldMap.present, FieldMap.present, hrest, toFinset_cons,
    Finset.filter_insert]
  split
  · rw [← Finset.card_erase_add_one (Finset.mem_insert_self _ _),
      Finset.erase_insert_eq_erase, Nat.add_comm]
  · rename_i hfield
    rw [Finset.erase_eq_of_notMem (by simp [hfield]), Nat.zero_add]

theorem deleteAll_empty (fields : List Bytes) :
    FieldMap.empty.deleteAll fields = FieldMap.empty := by
  funext field
  simp [FieldMap.deleteAll, FieldMap.empty]

theorem present_empty (fields : List Bytes) :
    FieldMap.empty.present fields = 0 := by
  simp [FieldMap.present, FieldMap.empty]

/-- What the loop of HDEL leaves: it stops early only on an empty hash. -/
theorem hdelLoop_spec (ho : o.Holds map) (hsome : map ≠ FieldMap.empty)
    (deleted : ℕ) (fields : List Bytes) :
    (hdelLoop o deleted fields).2.1 = deleted + map.present fields ∧
      (if (hdelLoop o deleted fields).2.2 then
        map.deleteAll fields = FieldMap.empty
      else
        (hdelLoop o deleted fields).1.Holds (map.deleteAll fields) ∧
          map.deleteAll fields ≠ FieldMap.empty) := by
  induction fields generalizing o map deleted with
  | nil =>
    have hall : map.deleteAll [] = map := by
      funext field
      simp [FieldMap.deleteAll]
    rw [hdelLoop, hall]
    exact ⟨rfl, ho, hsome⟩
  | cons field rest ih =>
    obtain ⟨hfound, ho'⟩ := hashTypeDelete_spec ho (.raw field)
    generalize hresult : hashTypeDelete o (.raw field) = result at hfound ho'
    obtain ⟨o', deletedOne⟩ := result
    replace hfound : deletedOne = (map field).isSome := hfound
    rw [hdelLoop, hresult, deleteAll_cons, present_cons]
    cases deletedOne with
    | false =>
      have hnone : map field = none := by simpa using hfound.symm
      have hsame : update map field none = map :=
        update_eq_self_iff.2 hnone.symm
      have hloop := ih (hsame ▸ ho') hsome deleted
      rw [hsame, hnone]
      simpa using hloop
    | true =>
      rw [← hfound, if_pos rfl]
      have hzero := hashTypeLength_eq_zero_iff ho'
      dsimp only
      split
      · rename_i hlength
        rw [show getDecodedObject (.raw field) = field from rfl] at hzero
        rw [hzero.1 hlength, deleteAll_empty, present_empty]
        simp
      rename_i hlength
      have hloop := ih ho' (fun hempty => hlength (hzero.2 hempty))
        (deleted + 1)
      rw [Nat.add_assoc] at hloop
      exact hloop

theorem ne_empty_iff : map ≠ FieldMap.empty ↔ ∃ field, (map field).isSome := by
  rw [ne_iff]
  simp [FieldMap.empty, Option.ne_none_iff_isSome]

theorem hdel_runsAs (hstored : stored.Holds map) (field : Bytes)
    (rest : List Bytes) :
    ∃ effect, hdelCommand (field :: rest) stored = some effect ∧
      (hdel field rest).RunsAs map effect := by
  cases stored with
  | absent =>
    obtain rfl : map = FieldMap.empty := hstored
    refine ⟨_, rfl, deleteAll_empty _, ⟨_, rfl, ?_⟩⟩
    rw [present_empty]
    rfl
  | hash o =>
    have hloop := hdelLoop_spec hstored.1 (ne_empty_iff.2 hstored.2) 0
      (field :: rest)
    rw [hdelCommand, lookupKeyOrReply]
    generalize hdelLoop o 0 (field :: rest) = result at hloop ⊢
    obtain ⟨o', deleted, keyremoved⟩ := result
    obtain ⟨hdeleted, hleft⟩ := hloop
    refine ⟨_, rfl, ?_, ⟨_, rfl, ?_⟩⟩
    · cases keyremoved with
      | true => exact hleft
      | false => exact ⟨hleft.1, ne_empty_iff.1 hleft.2⟩
    · rw [← Nat.zero_add (map.present _), ← hdeleted]
  | otherType => exact hstored.elim

theorem hlen_runsAs (hstored : stored.Holds map) :
    ∃ effect, hlenCommand stored = some effect ∧
      hlen.RunsAs map effect := by
  cases stored with
  | absent =>
    obtain rfl : map = FieldMap.empty := hstored
    refine ⟨_, rfl, rfl, ⟨_, rfl, ?_⟩⟩
    have hsize : FieldMap.empty.size = 0 := by
      simp [FieldMap.size, FieldMap.empty]
    rw [hsize]
    rfl
  | hash o =>
    refine ⟨_, rfl, hstored, ⟨_, rfl, ?_⟩⟩
    rw [FieldMap.size, ← hashTypeLength_eq hstored.1]
    rfl
  | otherType => exact hstored.elim

theorem hexists_runsAs (hstored : stored.Holds map) (field : Bytes) :
    ∃ effect, hexistsCommand field stored = some effect ∧
      (hexists field).RunsAs map effect := by
  cases stored with
  | absent =>
    obtain rfl : map = FieldMap.empty := hstored
    exact ⟨_, rfl, rfl, ⟨_, rfl, rfl⟩⟩
  | hash o =>
    have hexists : hashTypeExists o (.raw field) =
        some (map field).isSome := hashTypeExists_eq hstored.1 _
    rw [hexistsCommand, lookupKeyOrReply, hexists]
    exact ⟨_, rfl, hstored, ⟨_, rfl, rfl⟩⟩
  | otherType => exact hstored.elim

theorem length_select {α : Type*} (flags : Flags) (pairs : List (α × α)) :
    (pairs.flatMap flags.select).length = pairs.length * flags.multiplier := by
  rw [length_flatMap]
  cases flags <;> simp [Flags.select, Flags.multiplier]

theorem select_readBack (flags : Flags) (dict : ObjDict StringObj) :
    (dict.flatMap flags.select).map getDecodedObject =
      (dict.readBack getDecodedObject).flatMap flags.select := by
  rw [ObjDict.readBack, flatMap_map, map_flatMap]
  cases flags <;> rfl

theorem size_empty : FieldMap.empty.size = 0 := by
  simp [FieldMap.size, FieldMap.empty]

/-- The items of a listing. -/
theorem exists_items (ho : o.Holds map) (flags : Flags) :
    ∃ dict pairs, hashTypeIterate o = some dict ∧ Lists pairs map ∧
      (dict.flatMap flags.select).map
          (fun o => Reply.bulk (getDecodedObject o)) =
        (pairs.flatMap flags.select).map .bulk ∧
      (pairs.flatMap flags.select).length = map.size * flags.multiplier := by
  obtain ⟨dict, hiterate, hlists, -⟩ := hashTypeIterate_spec ho
  have hsize : map.size = (dict.readBack getDecodedObject).length :=
    hlists.ncard
  refine ⟨dict, _, hiterate, hlists, ?_, ?_⟩
  · rw [← select_readBack, map_map]
    rfl
  · rw [length_select, hsize]

/-- A listing sends every field once, if their number fits an `int`. -/
theorem genericHgetallCommand_eq (hstored : stored.Holds map)
    {flags : Flags} (hfits : map.size * flags.multiplier < 2 ^ 31) :
    ∃ effect reply, genericHgetallCommand flags stored = some effect ∧
      effect.stored = stored ∧ Command.Listing flags map reply ∧
      effect.reply = reply.encode := by
  cases stored with
  | absent =>
    obtain rfl : map = FieldMap.empty := hstored
    exact ⟨_, Reply.emptyMultiBulk, rfl, rfl, ⟨[], lists_nil, rfl⟩, rfl⟩
  | hash o =>
    obtain ⟨dict, pairs, hiterate, hlists, hitems, hlength⟩ :=
      exists_items hstored.1 flags
    have hint : toInt (map.size * flags.multiplier : ℕ) =
        ((map.size * flags.multiplier : ℕ) : ℤ) :=
      toInt_eq (by omega) (by omega)
    have hheader : addReplyMultiBulkLen
        (toInt (map.size * flags.multiplier : ℕ)) =
        some (Reply.line '*' (natText (map.size * flags.multiplier))) := by
      rw [addReplyMultiBulkLen, hint, if_neg (by omega), llText_natCast]
    have hcount : toInt ((pairs.flatMap flags.select).map
          Reply.bulk).length = toInt (map.size * flags.multiplier : ℕ) := by
      rw [length_map, hlength]
    refine ⟨⟨.hash o, (Reply.multiBulk
      ((pairs.flatMap flags.select).map .bulk)).encode, 0, false, []⟩, _, ?_,
      rfl, ⟨pairs, hlists, rfl⟩, rfl⟩
    rw [genericHgetallCommand, lookupKeyOrReply, hashTypeLength_eq hstored.1,
      ← FieldMap.size]
    dsimp only
    rw [hheader, hiterate, some_bind, some_bind, hitems, if_pos hcount,
      Reply.encode, length_map, hlength]
  | otherType => exact hstored.elim

theorem listing_runsAs (hstored : stored.Holds map) {cmd : Command}
    {flags : Flags} (hlisting : cmd.listing = some flags)
    (honMap : cmd.onMap map = map)
    (hreplies : ∀ reply, Command.Listing flags map reply →
      cmd.Replies map reply) (hfits : cmd.Fits map) :
    ∃ effect, genericHgetallCommand flags stored = some effect ∧
      cmd.RunsAs map effect := by
  obtain ⟨effect, reply, hrun, hkept, hlists, hreply⟩ :=
    genericHgetallCommand_eq hstored (hfits flags hlisting)
  refine ⟨effect, hrun, ?_, reply, hreplies reply hlists, hreply⟩
  rwa [hkept, honMap]

end Commands

/-! ## Runs -/

section Runs

variable {stored : Stored} {map : FieldMap}

/-- One command, whatever the encoding and the thresholds. -/
theorem Command.run_runsAs (hstored : stored.Holds map) (cfg : Config)
    (cmd : Command) (hfits : cmd.Fits map) :
    ∃ effect, cmd.run cfg stored = some effect ∧ cmd.RunsAs map effect := by
  cases cmd with
  | hset field value => exact hset_runsAs hstored cfg field value
  | hsetnx field value => exact hsetnx_runsAs hstored cfg field value
  | hmset field value rest => exact hmset_runsAs hstored cfg field value rest
  | hincrby field incr => exact hincrby_runsAs hstored cfg field incr
  | hget field => exact hget_runsAs hstored field
  | hmget field rest => exact hmget_runsAs hstored field rest
  | hdel field rest => exact hdel_runsAs hstored field rest
  | hlen => exact hlen_runsAs hstored
  | hexists field => exact hexists_runsAs hstored field
  | hkeys | hvals | hgetall =>
    exact listing_runsAs hstored rfl rfl (fun _ h => h) hfits

/-- The map after a run of commands. -/
def mapAfter (map : FieldMap) (steps : List (Config × Command)) : FieldMap :=
  steps.foldl (fun map step => step.2.onMap map) map

/-- Every listing of the run fits. -/
def AllFit : FieldMap → List (Config × Command) → Prop
  | _, [] => True
  | map, step :: steps => step.2.Fits map ∧ AllFit (step.2.onMap map) steps

/-- The bytes a run on the map may send. -/
def MapReplies : FieldMap → List (Config × Command) → List Bytes → Prop
  | _, [], sent => sent = []
  | map, step :: steps, sent =>
    ∃ reply rest, sent = reply.encode :: rest ∧ step.2.Replies map reply ∧
      MapReplies (step.2.onMap map) steps rest

theorem runCommands_spec (hstored : stored.Holds map)
    {steps : List (Config × Command)} (hfits : AllFit map steps) :
    ∃ stored' sent, runCommands stored steps = some (stored', sent) ∧
      stored'.Holds (mapAfter map steps) ∧ MapReplies map steps sent := by
  induction steps generalizing stored map with
  | nil => exact ⟨stored, [], rfl, hstored, rfl⟩
  | cons step steps ih =>
    obtain ⟨effect, hrun, hruns⟩ :=
      step.2.run_runsAs hstored step.1 hfits.1
    obtain ⟨reply, hreply, hencode⟩ := hruns.reply
    obtain ⟨stored', sent, hrest, hstored', hsent⟩ := ih hruns.stored hfits.2
    refine ⟨stored', effect.reply :: sent, ?_, hstored', reply, sent, ?_,
      hreply, hsent⟩
    · rw [runCommands, hrun, some_bind, hrest]
      rfl
    · rw [hencode]

/-- Every run that starts without the key, under any thresholds, leaves the
map its commands make of the empty one and sends the map's replies, as long as
the number of items of each listing fits an `int`. -/
theorem hashes_run_as_map (steps : List (Config × Command))
    (hfits : AllFit FieldMap.empty steps) :
    ∃ stored sent, runCommands .absent steps = some (stored, sent) ∧
      stored.Holds (mapAfter FieldMap.empty steps) ∧
      MapReplies FieldMap.empty steps sent :=
  runCommands_spec (show Stored.absent.Holds FieldMap.empty from rfl) hfits

/-- A number set, incremented while the hash is converted, and read back. -/
theorem hashes_run_as_map_hget :
    AllFit FieldMap.empty
        [(⟨512, 64⟩, .hset (ascii "a") (ascii "7")),
          (⟨0, 0⟩, .hincrby (ascii "a") (ascii "-8")),
          (⟨512, 64⟩, .hget (ascii "a"))] ∧
      ∃ stored sent,
        runCommands .absent
          [(⟨512, 64⟩, .hset (ascii "a") (ascii "7")),
            (⟨0, 0⟩, .hincrby (ascii "a") (ascii "-8")),
            (⟨512, 64⟩, .hget (ascii "a"))] = some (stored, sent) ∧
        stored.Holds (mapAfter FieldMap.empty
          [(⟨512, 64⟩, .hset (ascii "a") (ascii "7")),
            (⟨0, 0⟩, .hincrby (ascii "a") (ascii "-8")),
            (⟨512, 64⟩, .hget (ascii "a"))]) ∧
        MapReplies FieldMap.empty
          [(⟨512, 64⟩, .hset (ascii "a") (ascii "7")),
            (⟨0, 0⟩, .hincrby (ascii "a") (ascii "-8")),
            (⟨512, 64⟩, .hget (ascii "a"))] sent := by
  have hfits : AllFit FieldMap.empty
      [(⟨512, 64⟩, .hset (ascii "a") (ascii "7")),
        (⟨0, 0⟩, .hincrby (ascii "a") (ascii "-8")),
        (⟨512, 64⟩, .hget (ascii "a"))] :=
    ⟨fun _ h => (by cases h), fun _ h => (by cases h), fun _ h => (by cases h),
      trivial⟩
  exact ⟨hfits, hashes_run_as_map _ hfits⟩

theorem mapAfter_hset (cfg : Config) (value : Bytes) (fields : List Bytes)
    (map : FieldMap) :
    mapAfter map (fields.map fun field => (cfg, .hset field value)) =
      fun field => if field ∈ fields then some value else map field := by
  induction fields generalizing map with
  | nil =>
    funext field
    simp [mapAfter]
  | cons field fields ih =>
    rw [map_cons, mapAfter, foldl_cons, ← mapAfter, ih]
    funext other
    by_cases heq : other = field <;> simp [heq, onMap]

/-- Fields set one after the other to nothing. -/
theorem size_mapAfter_hset (cfg : Config) (value : Bytes) {fields : List Bytes}
    (hnodup : fields.Nodup) :
    (mapAfter FieldMap.empty
        (fields.map fun field => (cfg, .hset field value))).size =
      fields.length := by
  have hset : {field | (mapAfter FieldMap.empty
        (fields.map fun field => (cfg, .hset field value)) field).isSome} =
      (fields.toFinset : Set Bytes) := by
    ext field
    by_cases hmem : field ∈ fields <;>
      simp [mapAfter_hset, hmem, FieldMap.empty]
  rw [FieldMap.size, hset, Set.ncard_coe_finset, toFinset_card_of_nodup hnodup]

theorem allFit_hset (cfg : Config) (value : Bytes) (fields : List Bytes)
    (map : FieldMap) :
    AllFit map (fields.map fun field => (cfg, .hset field value)) := by
  induction fields generalizing map with
  | nil => trivial
  | cons field fields ih => exact ⟨fun _ h => (by cases h), ih _⟩

/-- The start of a run, and what follows. -/
theorem runCommands_append {stored' : Stored} {sent : List Bytes}
    {steps : List (Config × Command)}
    (hrun : runCommands stored steps = some (stored', sent))
    (more : List (Config × Command)) :
    runCommands stored (steps ++ more) =
      (runCommands stored' more).map fun (stored, rest) =>
        (stored, sent ++ rest) := by
  induction steps generalizing stored sent with
  | nil =>
    cases hrun
    simp
  | cons step steps ih =>
    obtain ⟨cfg, cmd⟩ := step
    rw [runCommands] at hrun
    rw [cons_append, runCommands]
    cases heffect : cmd.run cfg stored with
    | none =>
      rw [heffect] at hrun
      cases hrun
    | some effect =>
      rw [heffect, some_bind] at hrun
      cases hrest : runCommands effect.stored steps with
      | none =>
        rw [hrest] at hrun
        cases hrun
      | some result =>
        rw [hrest] at hrun
        cases hrun
        rw [some_bind, ih hrest]
        cases runCommands result.1 more <;> rfl

/-- HGETALL of `2 ^ 30` fields looks a negative length up. -/
theorem hgetall_of_many_fields :
    ¬ ∃ stored sent,
      runCommands .absent
          (((List.range (2 ^ 30)).map natText).map
              (fun field => (⟨512, 64⟩, .hset field [])) ++
            [(⟨512, 64⟩, .hgetall)]) = some (stored, sent) ∧
      MapReplies FieldMap.empty
          (((List.range (2 ^ 30)).map natText).map
              (fun field => (⟨512, 64⟩, .hset field [])) ++
            [(⟨512, 64⟩, .hgetall)]) sent := by
  rintro ⟨stored, sent, hrun, -⟩
  have hempty : Stored.absent.Holds FieldMap.empty := rfl
  obtain ⟨stored', sent', hsteps, hstored, -⟩ := runCommands_spec hempty
    (allFit_hset ⟨512, 64⟩ [] ((List.range (2 ^ 30)).map natText)
      FieldMap.empty)
  have hsize := size_mapAfter_hset ⟨512, 64⟩ []
    (nodup_natText (2 ^ 30) (by decide))
  rw [length_map, length_range] at hsize
  rw [runCommands_append hsteps] at hrun
  have hcrash : hgetall.run ⟨512, 64⟩ stored' = none := by
    cases stored' with
    | absent =>
      rw [show mapAfter _ _ = FieldMap.empty from hstored, size_empty] at hsize
      cases hsize
    | hash o =>
      have hnegative : toInt (2 ^ 30 * Flags.both.multiplier : ℕ) < 0 := by
        decide
      rw [run, hgetallCommand, genericHgetallCommand,
        lookupKeyOrReply, hashTypeLength_eq hstored.1, ← FieldMap.size, hsize]
      dsimp only
      rw [addReplyMultiBulkLen, if_pos hnegative]
      rfl
    | otherType => exact hstored.elim
  rw [runCommands, hcrash] at hrun
  cases hrun

end Runs

end RedisV8.Hashes
