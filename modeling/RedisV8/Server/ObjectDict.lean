import RedisV8.Lib.AssocMap
import RedisV8.Server.Object

/-!
# Dictionaries keyed by string objects

The dictionaries behind sets and hashes, `setDictType` and `hashDictType`,
taken at the meaning of a dictionary: the entries it holds, in the order of an
iteration.  `HashTable.callAll_represents` gives it that meaning while its tables
stay addressable.  Keys are compared by `dictEncObjKeyCompare`, so one string
held in two encodings is one key.
-/

namespace RedisV8.Server

open Util List

variable {V : Type*}

abbrev ObjDict (V : Type*) := List (StringObj × V)

/-- `dictEncObjKeyCompare`; strings are compared by `dictSdsKeyCompare`. -/
def dictEncObjKeyCompare : StringObj → StringObj → Bool
  | .int a, .int b => a == b
  | a, b => getDecodedObject a == getDecodedObject b

namespace ObjDict

/-- Whether an entry is the one a search for `key` stops at. -/
def found (key : StringObj) (entry : StringObj × V) : Bool :=
  dictEncObjKeyCompare key entry.1

def dictFind (d : ObjDict V) (key : StringObj) : Option V :=
  (d.find? (found key)).map Prod.snd

/-- `dictAdd`; `none` is `DICT_ERR`. -/
def dictAdd (d : ObjDict V) (key : StringObj) (val : V) :
    Option (ObjDict V) :=
  if d.any (found key) then none else some ((key, val) :: d)

/-- The change `dictReplace` makes to the entry of a present key. -/
def dictSetVal (key : StringObj) (val : V) : ObjDict V → ObjDict V
  | [] => []
  | entry :: d =>
    if found key entry then (entry.1, val) :: d
    else entry :: dictSetVal key val d

/-- `dictReplace`, which also tells whether the key was added. -/
def dictReplace (d : ObjDict V) (key : StringObj) (val : V) :
    ObjDict V × Bool :=
  match dictAdd d key val with
  | some d => (d, true)
  | none => (dictSetVal key val d, false)

/-- `dictDelete`; `none` is `DICT_ERR`. -/
def dictDelete (d : ObjDict V) (key : StringObj) : Option (ObjDict V) :=
  if d.any (found key) then some (d.eraseP (found key)) else none

end ObjDict

theorem dictEncObjKeyCompare_iff {a b : StringObj} :
    dictEncObjKeyCompare a b = true ↔
      getDecodedObject a = getDecodedObject b := by
  cases a with
  | raw s => simp [dictEncObjKeyCompare]
  | int n =>
    cases b with
    | raw s => simp [dictEncObjKeyCompare]
    | int m =>
      have hn := toInt_bounds n
      have hm := toInt_bounds m
      rw [getDecodedObject_int, getDecodedObject_int]
      simp only [dictEncObjKeyCompare, beq_iff_eq]
      constructor
      · intro heq
        rw [heq]
      · intro heq
        exact Int64.toInt_inj.1
          (llText_injective hn.1 hn.2 hm.1 hm.2 heq)

namespace ObjDict

open AssocMap

variable {W : Type*} {read : V → W} {d : ObjDict V} {map : Bytes → Option W}
  {key : StringObj} {val : V}

/-- The strings a dictionary holds, with its values as `read` shows them. -/
def readBack (read : V → W) (d : ObjDict V) : List (Bytes × W) :=
  d.map fun entry => (getDecodedObject entry.1, read entry.2)

theorem found_iff {entry : StringObj × V} :
    found key entry = true ↔ getDecodedObject entry.1 = getDecodedObject key :=
  dictEncObjKeyCompare_iff.trans eq_comm

theorem any_found (hlists : Lists (readBack read d) map) :
    d.any (found key) = (map (getDecodedObject key)).isSome := by
  rw [Bool.eq_iff_iff, any_eq_true, ← hlists.key_mem_iff]
  simp [readBack, found_iff]

/-- Where a present key is found. -/
theorem exists_split (hlists : Lists (readBack read d) map) {w : W}
    (hkey : map (getDecodedObject key) = some w) :
    ∃ pre entry post, d = pre ++ entry :: post ∧ found key entry = true ∧
      read entry.2 = w ∧ ∀ other ∈ pre, ¬ found key other = true := by
  have hany : d.any (found key) = true := by
    rw [any_found hlists, hkey]
    rfl
  obtain ⟨entry, hmem, hfound⟩ := any_eq_true.1 hany
  obtain ⟨entry, pre, post, hpre, hentry, rfl, -⟩ :=
    exists_of_eraseP hmem hfound
  refine ⟨pre, entry, post, rfl, hentry, ?_, hpre⟩
  have hread : (getDecodedObject entry.1, read entry.2) ∈
      readBack read (pre ++ entry :: post) := by
    simp [readBack]
  rw [hlists.mem_iff, found_iff.1 hentry, hkey] at hread
  exact (Option.some.inj hread).symm

theorem dictFind_eq (hlists : Lists (readBack read d) map)
    (key : StringObj) :
    (dictFind d key).map read = map (getDecodedObject key) := by
  cases hkey : map (getDecodedObject key) with
  | none =>
    have hany : d.any (found key) = false := by
      rw [any_found hlists, hkey]
      rfl
    rw [dictFind, List.find?_eq_none.2 (any_eq_false.1 hany)]
    rfl
  | some w =>
    obtain ⟨pre, entry, post, rfl, hentry, hread, hpre⟩ :=
      exists_split hlists hkey
    have hnone : pre.find? (found key) = none := List.find?_eq_none.2 hpre
    rw [dictFind, List.find?_append, hnone, Option.none_or,
      List.find?_cons_of_pos hentry, Option.map_some, Option.map_some, hread]

theorem dictAdd_of_none (hlists : Lists (readBack read d) map)
    (hkey : map (getDecodedObject key) = none) (val : V) :
    dictAdd d key val = some ((key, val) :: d) ∧
      Lists (readBack read ((key, val) :: d))
        (Function.update map (getDecodedObject key) (some (read val))) := by
  refine ⟨?_, hlists.cons hkey (read val)⟩
  rw [dictAdd, any_found hlists, hkey, Option.isSome_none,
    if_neg Bool.false_ne_true]

theorem dictAdd_of_some (hlists : Lists (readBack read d) map) {w : W}
    (hkey : map (getDecodedObject key) = some w) (val : V) :
    dictAdd d key val = none := by
  rw [dictAdd, any_found hlists, hkey, if_pos (by rfl)]

/-- No assertion fails while distinct keys are added. -/
theorem foldlM_dictAdd {A : Type*} (f : A → StringObj × V) (items : List A)
    (acc : ObjDict V) (hnodup : ((items.map f ++ acc).map
      fun entry => getDecodedObject entry.1).Nodup) :
    items.foldlM (fun (d : ObjDict V) a => d.dictAdd (f a).1 (f a).2) acc =
      some ((items.map f).reverse ++ acc) := by
  induction items generalizing acc with
  | nil => rfl
  | cons a items ih =>
    rw [map_cons, cons_append, map_cons, nodup_cons] at hnodup
    have hfresh : ¬ acc.any (found (f a).1) := by
      rw [any_eq_true]
      rintro ⟨entry, hmem, hfound⟩
      rw [← found_iff.1 hfound] at hnodup
      exact hnodup.1 (mem_map_of_mem (mem_append_right _ hmem))
    have hperm : (items.map f ++ f a :: acc).Perm
        (f a :: (items.map f ++ acc)) := perm_middle
    have hadd : dictAdd acc (f a).1 (f a).2 = some (f a :: acc) :=
      if_neg hfresh
    rw [foldlM_cons, hadd, map_cons, reverse_cons, append_assoc]
    exact ih _ ((hperm.map _).nodup_iff.2 (nodup_cons.2 hnodup))

theorem dictSetVal_split {pre post : ObjDict V} {entry : StringObj × V}
    (hpre : ∀ other ∈ pre, ¬ found key other = true)
    (hentry : found key entry = true) (val : V) :
    dictSetVal key val (pre ++ entry :: post) =
      pre ++ (entry.1, val) :: post := by
  induction pre with
  | nil => rw [nil_append, dictSetVal, if_pos hentry, nil_append]
  | cons other pre ih =>
    rw [cons_append, dictSetVal, if_neg (hpre other mem_cons_self),
      ih fun x hx => hpre x (mem_cons_of_mem _ hx), cons_append]

/-- `dictReplace` maps the key to the value, and tells whether it was new. -/
theorem dictReplace_spec (hlists : Lists (readBack read d) map)
    (key : StringObj) (val : V) :
    Lists (readBack read (dictReplace d key val).1)
        (Function.update map (getDecodedObject key) (some (read val))) ∧
      (dictReplace d key val).2 = (map (getDecodedObject key)).isNone := by
  cases hkey : map (getDecodedObject key) with
  | none =>
    obtain ⟨hadd, hnew⟩ := dictAdd_of_none hlists hkey val
    rw [dictReplace, hadd]
    exact ⟨hnew, rfl⟩
  | some w =>
    obtain ⟨pre, entry, post, rfl, hentry, hread, hpre⟩ :=
      exists_split hlists hkey
    rw [dictReplace, dictAdd_of_some hlists hkey, dictSetVal_split hpre hentry]
    refine ⟨?_, rfl⟩
    rw [← found_iff.1 hentry]
    rw [readBack, map_append, map_cons] at hlists ⊢
    exact hlists.set_middle (read val)

/-- `dictDelete` removes the key, or finds that it is not there. -/
theorem dictDelete_spec (hlists : Lists (readBack read d) map)
    (key : StringObj) :
    match dictDelete d key with
    | none => map (getDecodedObject key) = none
    | some d' =>
      (map (getDecodedObject key)).isSome = true ∧
      Lists (readBack read d')
        (Function.update map (getDecodedObject key) none) := by
  cases hkey : map (getDecodedObject key) with
  | none => rw [dictDelete, any_found hlists, hkey, Option.isSome_none,
    if_neg Bool.false_ne_true]
  | some w =>
    obtain ⟨pre, entry, post, rfl, hentry, hread, hpre⟩ :=
      exists_split hlists hkey
    rw [dictDelete, any_found hlists, hkey, if_pos (by rfl),
      eraseP_append_right _ hpre, eraseP_cons_of_pos hentry]
    refine ⟨rfl, ?_⟩
    rw [← found_iff.1 hentry]
    rw [readBack, map_append, map_cons] at hlists
    rw [readBack, map_append]
    exact hlists.erase_middle

end ObjDict

end RedisV8.Server
