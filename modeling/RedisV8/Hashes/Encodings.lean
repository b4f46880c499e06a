import RedisV8.Lib.Splits
import RedisV8.Hashes.Commands

/-!
# Hashes as finite maps

Both encodings of a hash stand for a finite map from strings to strings.
Every function of the hash API is that of the map, whatever the encoding, so
the commands are too, through every conversion.  The one exception is the
header of a listing, whose length is an `int`.
-/

namespace RedisV8.Hashes

open Util Server AssocMap RedisV8.Splits List Function
open RedisV8.Lists (ziplistIndex nextPlace ziplistGet ziplistDeleteAt
  ziplistDeleteAt_split encodedArg)

abbrev FieldMap := Bytes → Option Bytes

/-- Fields and values in turn. -/
def flat (pairs : List (Bytes × Bytes)) : List Bytes :=
  pairs.flatMap fun pair => [pair.1, pair.2]

/-- The pairs an encoding stands for. -/
def HashObj.Shows : HashObj → List (Bytes × Bytes) → Prop
  | .ziplist entries, pairs => entries = flat pairs
  | .ht dict, pairs => dict.readBack getDecodedObject = pairs

def HashObj.Holds (o : HashObj) (map : FieldMap) : Prop :=
  ∃ pairs, o.Shows pairs ∧ Lists pairs map

/-- The key is there exactly when the map has a field. -/
def Stored.Holds : Stored → FieldMap → Prop
  | .absent, map => map = fun _ => none
  | .hash o, map => o.Holds map ∧ ∃ field, (map field).isSome
  | .otherType, _ => False

theorem holds_ht {dict : ObjDict StringObj} {map : FieldMap} :
    (HashObj.ht dict).Holds map ↔
      Lists (dict.readBack getDecodedObject) map :=
  ⟨fun ⟨_, hshows, hlists⟩ => hshows ▸ hlists, fun hlists => ⟨_, rfl, hlists⟩⟩

section Flat

@[simp]
theorem flat_append (pairs rest : List (Bytes × Bytes)) :
    flat (pairs ++ rest) = flat pairs ++ flat rest :=
  flatMap_append

@[simp]
theorem flat_cons (pair : Bytes × Bytes) (pairs : List (Bytes × Bytes)) :
    flat (pair :: pairs) = pair.1 :: pair.2 :: flat pairs :=
  rfl

@[simp]
theorem length_flat (pairs : List (Bytes × Bytes)) :
    (flat pairs).length = 2 * pairs.length := by
  induction pairs with
  | nil => rfl
  | cons pair pairs ih =>
    rw [flat_cons, length_cons, length_cons, ih, length_cons]
    omega

theorem ziplistIndex_zero (entries : List Bytes) :
    ziplistIndex entries 0 = if 0 < entries.length then some 0 else none :=
  rfl

/-- A value is never taken for a field. -/
theorem findLoop_flat {field : Bytes} {pre : List (Bytes × Bytes)}
    (hpre : field ∉ pre.map Prod.fst) (p : ℕ) (post : List (Bytes × Bytes)) :
    findLoop field 1 p 0 (flat (pre ++ post)) =
      findLoop field 1 (p + 2 * pre.length) 0 (flat post) := by
  induction pre generalizing p with
  | nil => rfl
  | cons pair pre ih =>
    rw [map_cons, mem_cons, not_or] at hpre
    rw [cons_append, flat_cons, findLoop, if_neg (Ne.symm hpre.1),
      findLoop, ih hpre.2, length_cons]
    congr 1
    omega

theorem fieldPlace_flat (field : Bytes) (pairs : List (Bytes × Bytes)) :
    fieldPlace (flat pairs) field = findLoop field 1 0 0 (flat pairs) := by
  rw [fieldPlace, ziplistIndex_zero]
  split
  · rfl
  rename_i hempty
  have hnil : flat pairs = [] := length_eq_zero_iff.1 (by omega)
  rw [hnil]
  rfl

theorem fieldPlace_of_not_mem {field : Bytes} {pairs : List (Bytes × Bytes)}
    (hfield : field ∉ pairs.map Prod.fst) :
    fieldPlace (flat pairs) field = none := by
  have hloop := findLoop_flat hfield 0 []
  rw [append_nil] at hloop
  rw [fieldPlace_flat, hloop]
  rfl

theorem fieldPlace_split {field : Bytes} {pre : List (Bytes × Bytes)}
    (hpre : field ∉ pre.map Prod.fst) (value : Bytes)
    (post : List (Bytes × Bytes)) :
    fieldPlace (flat (pre ++ (field, value) :: post)) field =
      some (2 * pre.length) := by
  rw [fieldPlace_flat, findLoop_flat hpre, flat_cons, findLoop, if_pos rfl,
    zero_add]

theorem nextPlace_split (pre post : List (Bytes × Bytes))
    (pair : Bytes × Bytes) :
    nextPlace (flat (pre ++ pair :: post)).length (2 * pre.length) =
      some (2 * pre.length + 1) := by
  have hlt : 2 * pre.length + 1 < (flat (pre ++ pair :: post)).length := by
    rw [length_flat, length_append, length_cons]
    omega
  rw [nextPlace, if_pos hlt]

theorem ziplistGet_field (pre post : List (Bytes × Bytes))
    (pair : Bytes × Bytes) :
    ziplistGet (flat (pre ++ pair :: post)) (some (2 * pre.length)) =
      some (createStringObject pair.1) := by
  simp [ziplistGet, ← length_flat]

theorem ziplistGet_value (pre post : List (Bytes × Bytes))
    (pair : Bytes × Bytes) :
    ziplistGet (flat (pre ++ pair :: post)) (some (2 * pre.length + 1)) =
      some (createStringObject pair.2) := by
  simp [ziplistGet, ← length_flat]

theorem deleteAt_value (pre post : List (Bytes × Bytes)) (pair : Bytes × Bytes)
    (value : Bytes) :
    (ziplistDeleteAt (flat (pre ++ pair :: post)) (2 * pre.length + 1) 1).insertIdx
        (2 * pre.length + 1) value =
      flat (pre ++ (pair.1, value) :: post) := by
  have hlength : 2 * pre.length + 1 = (flat pre ++ [pair.1]).length := by simp
  have hsplit : flat (pre ++ pair :: post) =
      (flat pre ++ [pair.1]) ++ pair.2 :: flat post := by simp
  rw [hsplit, hlength, ziplistDeleteAt_split, insertIdx_split]
  simp

theorem deleteAt_pair (pre post : List (Bytes × Bytes))
    (pair : Bytes × Bytes) :
    ziplistDeleteAt (ziplistDeleteAt (flat (pre ++ pair :: post))
        (2 * pre.length) 1) (2 * pre.length) 1 = flat (pre ++ post) := by
  rw [flat_append, flat_cons, flat_append, ← length_flat,
    ziplistDeleteAt_split, ziplistDeleteAt_split]

end Flat

/-! ## The hash API -/

section Iterators

/-- The cursor of an iterator that has yielded `n` pairs. -/
def cursorAfter : ℕ → Option (ℕ × ℕ)
  | 0 => none
  | n + 1 => some (2 * n, 2 * n + 1)

theorem hashTypeNext_cursorAfter {entries : List Bytes} {len : ℕ}
    (hlength : entries.length = 2 * len) (n : ℕ) :
    hashTypeNext entries (cursorAfter n) =
      some (if n < len then cursorAfter (n + 1) else none) := by
  have hfptr : nextField entries (cursorAfter n) =
      if n < len then some (2 * n) else none := by
    cases n with
    | zero =>
      rw [cursorAfter, nextField, ziplistIndex_zero, hlength]
      exact if_congr (by omega) rfl rfl
    | succ n =>
      rw [cursorAfter, nextField, nextPlace, hlength]
      exact if_congr (by omega) rfl rfl
  rw [hashTypeNext, hfptr]
  split_ifs with hlt
  · have hvptr : nextPlace entries.length (2 * n) = some (2 * n + 1) := by
      rw [nextPlace, hlength, if_pos (by omega)]
    simp only [hvptr]
    rfl
  · rfl

/-- A pair as the iterator of a ziplist makes objects of it. -/
def pairObjects (pair : Bytes × Bytes) : StringObj × StringObj :=
  (createStringObject pair.1, createStringObject pair.2)

theorem ziplistPairs_flat (pre post : List (Bytes × Bytes)) {fuel : ℕ}
    (hfuel : post.length < fuel) :
    ziplistPairs (flat (pre ++ post)) fuel (cursorAfter pre.length) =
      some (post.map pairObjects) := by
  induction post generalizing pre fuel with
  | nil =>
    obtain ⟨fuel, rfl⟩ : ∃ n, fuel = n + 1 := ⟨fuel - 1, by omega⟩
    rw [ziplistPairs, hashTypeNext_cursorAfter (length_flat _),
      if_neg (by simp)]
    rfl
  | cons pair post ih =>
    obtain ⟨fuel, rfl⟩ : ∃ n, fuel = n + 1 := ⟨fuel - 1, by omega⟩
    have hrest := ih (pre ++ [pair]) (Nat.lt_of_succ_lt_succ hfuel)
    rw [append_assoc, singleton_append, length_append,
      length_singleton, cursorAfter] at hrest
    rw [ziplistPairs, hashTypeNext_cursorAfter (length_flat _),
      if_pos (by simp), cursorAfter]
    simp only [some_bind, ziplistGet_field,
      ziplistGet_value, hrest, map_cons, pairObjects]

theorem readBack_pairObjects (pairs : List (Bytes × Bytes)) :
    ObjDict.readBack getDecodedObject (pairs.map pairObjects) = pairs := by
  simp [ObjDict.readBack, pairObjects, comp_def]

end Iterators

section Conversion

/-- A pair as `hashTypeConvertZiplist` adds it. -/
def encodePair (pair : StringObj × StringObj) : StringObj × StringObj :=
  (tryObjectEncoding 1 pair.1, tryObjectEncoding 1 pair.2)

theorem hashTypeConvert_spec {entries : List Bytes} {map : FieldMap}
    (ho : (HashObj.ziplist entries).Holds map) :
    ∃ o, hashTypeConvert (.ziplist entries) = some o ∧ o.Holds map := by
  obtain ⟨pairs, rfl, hlists⟩ := ho
  have hfuel : pairs.length < (flat pairs).length + 1 := by
    rw [length_flat]
    omega
  have hpairs : hashTypeIterate (.ziplist (flat pairs)) =
      some (pairs.map pairObjects) := ziplistPairs_flat [] pairs hfuel
  have hfold := ObjDict.foldlM_dictAdd encodePair (pairs.map pairObjects) [] (by
    simpa [pairObjects, encodePair, comp_def] using hlists.nodup)
  refine ⟨.ht ((pairs.map pairObjects).map encodePair).reverse, ?_,
    holds_ht.2 ?_⟩
  · rw [append_nil] at hfold
    rw [hashTypeConvert, hashTypeConvertZiplist, hpairs, some_bind]
    exact congrArg (·.bind fun dict => some (HashObj.ht dict)) hfold
  · apply hlists.perm
    simp [ObjDict.readBack, encodePair, pairObjects, comp_def]

theorem hashTypeTryConversion_spec {o : HashObj} {map : FieldMap}
    (ho : o.Holds map) (cfg : Config) (argv : List StringObj) :
    ∃ o', hashTypeTryConversion cfg o argv = some o' ∧ o'.Holds map := by
  cases o with
  | ht dict => exact ⟨.ht dict, rfl, ho⟩
  | ziplist entries =>
    rw [hashTypeTryConversion]
    split
    · exact hashTypeConvert_spec ho
    · exact ⟨.ziplist entries, rfl, ho⟩

end Conversion

section Api

variable {o : HashObj} {map : FieldMap} {field value : StringObj}

theorem hashTypeIterate_spec (ho : o.Holds map) :
    ∃ dict : ObjDict StringObj, hashTypeIterate o = some dict ∧
      Lists (dict.readBack getDecodedObject) map ∧
      dict.length = hashTypeLength o := by
  cases o with
  | ziplist entries =>
    obtain ⟨pairs, rfl, hlists⟩ := ho
    have hfuel : pairs.length < (flat pairs).length + 1 := by
      rw [length_flat]
      omega
    have hpairs := ziplistPairs_flat [] pairs hfuel
    refine ⟨pairs.map pairObjects, hpairs, ?_, ?_⟩
    · rwa [readBack_pairObjects]
    · rw [length_map, hashTypeLength, length_flat,
        Nat.mul_div_cancel_left _ (by decide)]
  | ht dict => exact ⟨dict, rfl, holds_ht.1 ho, rfl⟩

theorem hashTypeLength_eq (ho : o.Holds map) :
    hashTypeLength o = Set.ncard {field | (map field).isSome} := by
  obtain ⟨dict, -, hlists, hlength⟩ := hashTypeIterate_spec ho
  rw [hlists.ncard, ← hlength, ObjDict.readBack, length_map]

/-- Looking up a field never fails an assertion, and finds its value. -/
theorem hashTypeGetObject_spec (ho : o.Holds map) (field : StringObj) :
    ∃ found, hashTypeGetObject o field = some found ∧
      found.map getDecodedObject = map (getDecodedObject field) := by
  cases o with
  | ht dict => exact ⟨_, rfl, ObjDict.dictFind_eq (holds_ht.1 ho) field⟩
  | ziplist entries =>
    obtain ⟨pairs, rfl, hlists⟩ := ho
    cases hfield : map (getDecodedObject field) with
    | none =>
      refine ⟨none, ?_, rfl⟩
      rw [hashTypeGetObject, hashTypeGetFromZiplist,
        fieldPlace_of_not_mem (hlists.not_key_mem hfield)]
    | some value =>
      obtain ⟨pre, post, rfl, hpre⟩ := hlists.split hfield
      refine ⟨some (createStringObject value), ?_, ?_⟩
      · rw [hashTypeGetObject, hashTypeGetFromZiplist, fieldPlace_split hpre]
        simp only [nextPlace_split, ziplistGet_value, some_bind]
      · rw [Option.map_some, getDecodedObject_createStringObject]

theorem hashTypeExists_eq (ho : o.Holds map) (field : StringObj) :
    hashTypeExists o field = some (map (getDecodedObject field)).isSome := by
  obtain ⟨found, hget, hfound⟩ := hashTypeGetObject_spec ho field
  rw [hashTypeExists, hget, Option.map_some, ← hfound, Option.isSome_map]

theorem ziplistSet_spec {entries : List Bytes}
    (ho : (HashObj.ziplist entries).Holds map) (field value : Bytes) :
    ∃ entries', ziplistSet entries field value =
        some (entries', (map field).isSome) ∧
      (HashObj.ziplist entries').Holds
        (update map field (some value)) := by
  obtain ⟨pairs, rfl, hlists⟩ := ho
  cases hfield : map field with
  | none =>
    refine ⟨flat (pairs ++ [(field, value)]), ?_, _, rfl,
      hlists.append_new hfield value⟩
    rw [ziplistSet, fieldPlace_of_not_mem (hlists.not_key_mem hfield),
      flat_append, append_assoc]
    rfl
  | some old =>
    obtain ⟨pre, post, rfl, hpre⟩ := hlists.split hfield
    refine ⟨flat (pre ++ (field, value) :: post), ?_, _, rfl,
      hlists.set_middle value⟩
    rw [ziplistSet, fieldPlace_split hpre]
    simp only [nextPlace_split, some_bind, deleteAt_value, Option.isSome_some]

/-- `hashTypeSet` maps the field to the value, and tells whether the field was
there. -/
theorem hashTypeSet_spec (ho : o.Holds map) (cfg : Config)
    (field value : StringObj) :
    ∃ o', hashTypeSet cfg o field value =
        some (o', (map (getDecodedObject field)).isSome) ∧
      o'.Holds (update map (getDecodedObject field)
        (some (getDecodedObject value))) := by
  cases o with
  | ziplist entries =>
    obtain ⟨entries', hset, ho'⟩ := ziplistSet_spec ho
      (getDecodedObject field) (getDecodedObject value)
    simp only [hashTypeSet, hset, some_bind]
    split
    · obtain ⟨o', hconvert, ho''⟩ := hashTypeConvert_spec ho'
      exact ⟨o', by rw [hconvert]; rfl, ho''⟩
    · exact ⟨.ziplist entries', rfl, ho'⟩
  | ht dict =>
    obtain ⟨hreplace, hinserted⟩ :=
      ObjDict.dictReplace_spec (holds_ht.1 ho) field value
    refine ⟨.ht (dict.dictReplace field value).1, ?_, holds_ht.2 hreplace⟩
    have hupdate : (!(dict.dictReplace field value).2) =
        (map (getDecodedObject field)).isSome := by
      rw [hinserted, Option.not_isNone]
    rw [← hupdate]
    rfl

/-- `hashTypeDelete` removes the field, and tells whether it was there. -/
theorem hashTypeDelete_spec (ho : o.Holds map) (field : StringObj) :
    (hashTypeDelete o field).2 = (map (getDecodedObject field)).isSome ∧
      (hashTypeDelete o field).1.Holds
        (update map (getDecodedObject field) none) := by
  have hsame : map (getDecodedObject field) = none →
      update map (getDecodedObject field) none = map :=
    fun hfield => update_eq_self_iff.2 hfield.symm
  cases o with
  | ziplist entries =>
    obtain ⟨pairs, rfl, hlists⟩ := ho
    cases hfield : map (getDecodedObject field) with
    | none =>
      rw [hashTypeDelete,
        fieldPlace_of_not_mem (hlists.not_key_mem hfield), hsame hfield]
      exact ⟨rfl, pairs, rfl, hlists⟩
    | some value =>
      obtain ⟨pre, post, rfl, hpre⟩ := hlists.split hfield
      rw [hashTypeDelete, fieldPlace_split hpre]
      exact ⟨rfl, pre ++ post, deleteAt_pair pre post _, hlists.erase_middle⟩
  | ht dict =>
    have hdelete := ObjDict.dictDelete_spec (holds_ht.1 ho) field
    rw [hashTypeDelete]
    cases hresult : dict.dictDelete field with
    | none =>
      rw [hresult] at hdelete
      rw [hsame hdelete, hdelete]
      exact ⟨rfl, ho⟩
    | some dict' =>
      rw [hresult] at hdelete
      exact ⟨hdelete.1.symm, holds_ht.2 hdelete.2⟩

end Api

end RedisV8.Hashes
