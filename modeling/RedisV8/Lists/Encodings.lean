import RedisV8.Ziplist.Layout
import RedisV8.Lib.Splits
import RedisV8.Lists.Commands

/-!
# Both list encodings mean the same list

Every list command is given a meaning on the plain list of elements, and both
encodings are shown to follow it.  The two part ways in one respect: a ziplist
is indexed by an `int`, so that LINDEX and LSET reduce their index modulo
`2 ^ 32` before they look for the element.
-/

namespace RedisV8.Lists

open Util Server RedisV8.Splits List Option Function Reply ListObj

/-! ## The meaning of the commands -/

/-- The elements an object stands for. -/
def ListObj.elements : ListObj → List Bytes
  | .ziplist entries => entries
  | .linkedlist nodes => nodes.map getDecodedObject

/-- The elements stored at a key that holds a list. -/
def Stored.elements : Stored → Option (List Bytes)
  | .list o => some o.elements
  | .absent | .otherType => none

/-- What the rest of the server can see of an effect. -/
structure Observed where
  elements : Option (List Bytes)
  reply : Reply
  dirty : ℕ := 0
  modified : Bool := false
  ready : Bool := false
  events : List (EventClass × String) := []

def Effect.observed (e : Effect) : Observed :=
  ⟨e.stored.elements, e.reply, e.dirty, e.modified, e.ready, e.events⟩

/-- The elements left at a key; an empty list is not kept. -/
def kept (l : List Bytes) : Option (List Bytes) :=
  if l.length = 0 then none else some l

/-- The elements from `start` to `stop`, negative indexes counted from the
end. -/
def slice (l : List Bytes) (start stop : ℤ) : List Bytes :=
  let (start, stop) := convertIndexes l.length start stop
  (l.drop start.toNat).take (stop - start + 1).toNat

/-- Remove the occurrences of `x` from the head on, up to the given number of
them, where zero stands for all; `removed` counts along. -/
def removeFrom (x : Bytes) (toremove : ℤ) :
    List Bytes → ℕ → List Bytes × ℕ
  | [], removed => ([], removed)
  | a :: l, removed =>
    if a = x then
      if toremove ≠ 0 ∧ ((removed + 1 : ℕ) : ℤ) = toremove then
        (l, removed + 1)
      else removeFrom x toremove l (removed + 1)
    else
      let r := removeFrom x toremove l removed
      (a :: r.1, r.2)

/-- LREM on the elements, from the tail for a negative count. -/
def removeCount (l : List Bytes) (x : Bytes) (toremove : ℤ) :
    List Bytes × ℕ :=
  if toremove < 0 then
    let r := removeFrom x (negateLong toremove) l.reverse 0
    (r.1.reverse, r.2)
  else removeFrom x toremove l 0

section Meaning

variable (l : List Bytes)

/-- A command that only answers. -/
def answered (reply : Reply) : Observed := { elements := some l, reply }

def orReply (arg : Bytes) (body : ℤ → Observed) : Observed :=
  match getLongFromObjectOrReply arg with
  | .error reply => answered l reply
  | .ok value => body value

def meanPush (side : Side) (values : List Bytes) : Observed :=
  let l := values.foldl (fun l value => pushAt l value side) l
  { elements := some l
    reply := .integer l.length
    dirty := values.length
    modified := values ≠ []
    events := if values = [] then [] else [(.list, pushEvent side)] }

def meanInsert (refval value : Bytes) (side : Side) : Observed :=
  match l.idxOf? refval with
  | none => answered l cnegone
  | some i =>
    let l := l.insertIdx (match side with | .head => i | .tail => i + 1) value
    { elements := some l
      reply := .integer l.length
      dirty := 1
      modified := true
      events := [(.list, "linsert")] }

def meanLinsert (place refval value : Bytes) : Observed :=
  if isText "after" place then meanInsert l refval value .tail
  else if isText "before" place then meanInsert l refval value .head
  else answered l syntaxerr

def meanIndex (conv : ℤ → ℤ) (index : Bytes) : Observed :=
  orReply l index fun index =>
    match (placeOf l.length (conv index)).bind (l[·]?) with
    | some value => answered l (.bulk value)
    | none => answered l .nullBulk

def meanSet (conv : ℤ → ℤ) (index value : Bytes) : Observed :=
  orReply l index fun index =>
    match placeOf l.length (conv index) with
    | none => answered l outofrangeerr
    | some p =>
      { elements := some (l.set p value)
        reply := ok
        dirty := 1
        modified := true
        events := [(.list, "lset")] }

def meanPop (side : Side) : Observed :=
  let (rest, value) := match side with
    | .head => (l.tail, l.head?)
    | .tail => (l.dropLast, l.getLast?)
  match value with
  | none => answered l .nullBulk
  | some value =>
    { elements := kept rest
      reply := .bulk value
      dirty := 1
      modified := true
      events := (.list, popEvent side) ::
        if rest.length = 0 then [(.generic, "del")] else [] }

def meanRange (start stop : Bytes) : Observed :=
  orReply l start fun start => orReply l stop fun stop =>
    answered l (.multiBulk ((slice l start stop).map .bulk))

def meanTrim (start stop : Bytes) : Observed :=
  orReply l start fun start => orReply l stop fun stop =>
    let l := slice l start stop
    { elements := kept l
      reply := ok
      dirty := 1
      modified := true
      events := (.list, "ltrim") ::
        if l.length = 0 then [(.generic, "del")] else [] }

def meanRem (count value : Bytes) : Observed :=
  orReply l count fun count =>
    let (l, removed) := removeCount l value count
    { elements := kept l
      reply := .integer removed
      dirty := removed
      modified := removed ≠ 0 }

/-- What a command does to a list of elements; `conv` is the conversion the
index of LINDEX and LSET goes through. -/
def Command.mean (conv : ℤ → ℤ) : Command → Observed
  | .push side values => meanPush l side values
  | .pushx side value => meanPush l side [value]
  | .linsert place refval value => meanLinsert l place refval value
  | .llen => answered l (.integer l.length)
  | .lindex index => meanIndex l conv index
  | .lset index value => meanSet l conv index value
  | .pop side => meanPop l side
  | .lrange start stop => meanRange l start stop
  | .ltrim start stop => meanTrim l start stop
  | .lrem count value => meanRem l count value

end Meaning

/-! ## Objects against their elements -/

/-- The limits of a ziplist of fewer than `2 ^ 32` bytes: an entry takes two
bytes at least, and no string outgrows the whole. -/
structure Ziplistable (l : List Bytes) : Prop where
  length_lt : l.length < 2 ^ 31
  string_lt : ∀ s ∈ l, s.length < 2 ^ 32

section Objects

variable (o : ListObj)

@[simp]
theorem length_elements : o.elements.length = listTypeLength o := by
  cases o with
  | ziplist entries => rfl
  | linkedlist nodes => exact length_map _

@[simp]
theorem elements_listTypeConvert :
    (listTypeConvert o).elements = o.elements := by
  cases o with
  | linkedlist nodes => rfl
  | ziplist entries =>
    simp [listTypeConvert, elements, comp_def]

@[simp]
theorem elements_listTypeTryConversion (cfg : Config) (value : StringObj) :
    (listTypeTryConversion cfg o value).elements = o.elements := by
  cases o with
  | linkedlist nodes => rfl
  | ziplist entries =>
    rw [listTypeTryConversion]
    split
    · exact elements_listTypeConvert _
    · rfl

@[simp]
theorem elements_convertIf (full : ℕ → Bool) :
    (convertIf full o).elements = o.elements := by
  cases o with
  | linkedlist nodes => rfl
  | ziplist entries =>
    rw [convertIf]
    split
    · exact elements_listTypeConvert _
    · rfl

theorem map_pushAt {α β : Type*} (f : α → β) (l : List α) (a : α)
    (side : Side) : (pushAt l a side).map f = pushAt (l.map f) (f a) side := by
  cases side with
  | head => rfl
  | tail => exact map_append

@[simp]
theorem elements_listTypePush (cfg : Config) (value : StringObj)
    (side : Side) :
    (listTypePush cfg o value side).elements =
      pushAt o.elements (getDecodedObject value) side := by
  have helems : (convertIf (cfg.listMaxZiplistEntries ≤ ·)
      (listTypeTryConversion cfg o value)).elements = o.elements := by
    rw [elements_convertIf, elements_listTypeTryConversion]
  rw [listTypePush, ← helems]
  cases convertIf (cfg.listMaxZiplistEntries ≤ ·)
      (listTypeTryConversion cfg o value) with
  | ziplist entries => rfl
  | linkedlist nodes => exact map_pushAt _ _ _ _

theorem elements_foldl_push (cfg : Config) (side : Side)
    (values : List Bytes) :
    (values.foldl (fun o value => listTypePush cfg o (encodedArg value) side)
        o).elements =
      values.foldl (fun l value => pushAt l value side) o.elements := by
  induction values generalizing o with
  | nil => rfl
  | cons value values ih =>
    rw [foldl_cons, foldl_cons, ih, elements_listTypePush,
      getDecodedObject_encodedArg]

theorem elements_dropEmpty : (dropEmpty o).elements = kept o.elements := by
  rw [dropEmpty, kept, length_elements]
  split <;> rfl

end Objects

/-! ## Places -/

section Places

theorem placeOf_lt {len p : ℕ} {index : ℤ} (hplace : placeOf len index = some p) :
    p < len := by
  rw [placeOf] at hplace
  dsimp only at hplace
  split_ifs at hplace <;> cases hplace <;> omega

theorem placeOf_of_nat {len p : ℕ} (hp : p < len) :
    placeOf len p = some p := by
  rw [placeOf, if_neg (by omega), if_pos (by omega), Int.toNat_natCast]

theorem placeOf_of_neg {len back : ℕ} (hpos : 0 < back) (hback : back ≤ len) :
    placeOf len (-back) = some (len - back) := by
  rw [placeOf, if_pos (by omega)]
  dsimp only
  rw [if_pos (by omega)]
  congr 1
  omega

theorem placeOf_zero (len : ℕ) :
    placeOf len 0 = if len = 0 then none else some 0 := by
  rw [placeOf]
  by_cases hlen : len = 0
  · simp [hlen]
  · simp [hlen, Nat.pos_of_ne_zero hlen]

theorem placeOf_neg_one (len : ℕ) :
    placeOf len (-1) = if len = 0 then none else some (len - 1) := by
  by_cases hlen : len = 0
  · simp [placeOf, hlen]
  · rw [if_neg hlen]
    have hlast := placeOf_of_neg Nat.one_pos (Nat.pos_of_ne_zero hlen)
    exact hlast

theorem placeOf_eq_none_of_le {len : ℕ} {index : ℤ}
    (hout : index < -len ∨ (len : ℤ) ≤ index) : placeOf len index = none := by
  rw [placeOf]
  dsimp only
  split_ifs <;> first | rfl | omega

theorem listTypeInitIterator_eq (o : ListObj) {index : ℤ}
    (hindex : toInt index = index) :
    listTypeInitIterator o index = placeOf o.elements.length index := by
  cases o with
  | ziplist entries => rw [listTypeInitIterator, ziplistIndex, hindex, elements]
  | linkedlist nodes =>
    rw [listTypeInitIterator, listIndex, length_elements, listTypeLength]

theorem listTypeInitIterator_zero (o : ListObj) :
    listTypeInitIterator o 0 = if o.elements = [] then none else some 0 := by
  rw [listTypeInitIterator_eq o rfl, placeOf_zero]
  simp only [length_eq_zero_iff]

end Places

/-! ## Iterators -/

section Iterators

variable {o : ListObj} {left right : List Bytes} {a : Bytes} {x : StringObj}

def ListObj.isZiplist : ListObj → Bool
  | .ziplist _ => true
  | .linkedlist _ => false

/-- What `listTypeEqual` needs of the object it compares with. -/
def Comparable (o : ListObj) (x : StringObj) : Prop :=
  o.isZiplist = true → x.sdsEncoded = true

theorem listTypeEqual_split (hsplit : o.elements = left ++ a :: right)
    (hcomparable : Comparable o x)
    (hx : (getDecodedObject x).length < 2 ^ 32) (ha : a.length < 2 ^ 32) :
    listTypeEqual o left.length x = some (decide (a = getDecodedObject x)) := by
  have hget : o.elements[left.length]? = some a := by
    rw [hsplit]
    simp
  cases o with
  | ziplist entries =>
    cases x with
    | int value => exact absurd (hcomparable rfl) Bool.false_ne_true
    | raw s =>
      have hget' : entries[left.length]? = some a := hget
      rw [listTypeEqual, ziplistCompare, hget', getDecodedObject]
      congr 1
      rw [Bool.eq_iff_iff, beq_iff_eq, some_inj, decide_eq_true_eq]
  | linkedlist nodes =>
    rw [elements, getElem?_map] at hget
    obtain ⟨node, hnode, rfl⟩ := map_eq_some_iff.1 hget
    rw [listTypeEqual, hnode, map_some]
    congr 1
    rw [Bool.eq_iff_iff, equalStringObjects_iff hx ha, decide_eq_true_eq,
      eq_comm]

theorem listTypeNext_tail (o : ListObj) (p : ℕ) :
    listTypeNext o .tail (some p) =
      some (p, nextPlace o.elements.length p) := by
  cases o with
  | ziplist entries => rfl
  | linkedlist nodes => rw [listTypeNext, length_elements, listTypeLength]

theorem listTypeNext_head (o : ListObj) (p : ℕ) :
    listTypeNext o .head (some p) = some (p, prevPlace p) := by
  cases o <;> rfl

theorem elements_listTypeDelete (direction : Side)
    (hsplit : o.elements = left ++ a :: right) :
    (listTypeDelete o direction left.length).1.elements = left ++ right := by
  cases o with
  | ziplist entries =>
    have hentries : entries = left ++ a :: right := hsplit
    have hdelete : ziplistDeleteAt entries left.length 1 = left ++ right := by
      rw [hentries, ziplistDeleteAt_split]
    cases direction <;> exact hdelete
  | linkedlist nodes =>
    have hnodes : nodes.map getDecodedObject = left ++ a :: right := hsplit
    have hdelete : (listDelNode nodes left.length).map getDecodedObject =
        left ++ right := by
      rw [listDelNode, ← eraseIdx_map, hnodes, eraseIdx_split]
    cases direction <;> exact hdelete

theorem isZiplist_listTypeDelete (o : ListObj) (direction : Side)
    (entry : ℕ) :
    (listTypeDelete o direction entry).1.isZiplist = o.isZiplist := by
  cases o <;> cases direction <;> rfl

theorem listTypeDelete_head (o : ListObj) (entry : ℕ) :
    (listTypeDelete o .head entry).2 = prevPlace entry := by
  cases o <;> rfl

/-- Where an iterator towards the tail stands: before the elements `right`,
or behind all of them, which a ziplist may also say by its end marker. -/
def Stands (o : ListObj) (left right : List Bytes) (iter : Option ℕ) : Prop :=
  if right = [] then
    iter = none ∨ (o.isZiplist = true ∧ iter = some left.length)
  else iter = some left.length

theorem nextPlace_split (left : List Bytes) (a : Bytes) (right : List Bytes) :
    nextPlace (left ++ a :: right).length left.length =
      if right = [] then none else some (left.length + 1) := by
  rw [nextPlace, length_append, length_cons]
  cases right with
  | nil => simp
  | cons b right => simp

theorem stands_next (hsplit : o.elements = left ++ a :: right) :
    Stands o (left ++ [a]) right
      (nextPlace o.elements.length left.length) := by
  rw [hsplit, nextPlace_split, Stands]
  by_cases hright : right = []
  · rw [if_pos hright, if_pos hright]
    exact Or.inl rfl
  · rw [if_neg hright, if_neg hright, length_append, length_singleton]

theorem stands_delete (hsplit : o.elements = left ++ a :: right) :
    Stands (listTypeDelete o .tail left.length).1 left right
      (listTypeDelete o .tail left.length).2 := by
  rw [Stands, isZiplist_listTypeDelete]
  cases o with
  | ziplist entries =>
    split
    · exact Or.inr ⟨rfl, rfl⟩
    · rfl
  | linkedlist nodes =>
    have hlen : nodes.length = (left ++ a :: right).length := by
      rw [← hsplit, length_elements, listTypeLength]
    rw [listTypeDelete, hlen, nextPlace_split]
    by_cases hright : right = []
    · rw [if_pos hright, if_pos hright]
      exact Or.inl rfl
    · rw [if_neg hright, if_neg hright]
      rfl

theorem stands_init (o : ListObj) :
    Stands o [] o.elements (listTypeInitIterator o 0) := by
  rw [listTypeInitIterator_zero, Stands]
  split
  · exact Or.inl rfl
  · rfl

end Iterators

/-! ## The loops -/

section Loops

variable {o : ListObj} {x : StringObj}

theorem lremLoop_tail (toremove : ℤ) (hcomparable : Comparable o x)
    (hx : (getDecodedObject x).length < 2 ^ 32) {left right : List Bytes}
    {iter : Option ℕ} (removed : ℕ) {fuel : ℕ}
    (hsplit : o.elements = left ++ right)
    (hsizes : ∀ s ∈ right, s.length < 2 ^ 32)
    (hstands : Stands o left right iter) (hfuel : right.length + 2 ≤ fuel) :
    ∃ o', lremLoop x toremove .tail fuel o iter removed =
        some (o', (removeFrom (getDecodedObject x) toremove right removed).2) ∧
      o'.elements =
        left ++ (removeFrom (getDecodedObject x) toremove right removed).1 := by
  induction right generalizing o left iter removed fuel with
  | nil =>
    obtain ⟨fuel, rfl⟩ : ∃ n, fuel = n + 2 := ⟨fuel - 2, by
      simp only [length_nil] at hfuel
      omega⟩
    rw [Stands, if_pos rfl] at hstands
    obtain rfl | ⟨hzip, rfl⟩ := hstands
    · exact ⟨o, rfl, hsplit⟩
    -- the end marker is compared once and then left behind
    cases o with
    | linkedlist nodes => cases hzip
    | ziplist entries =>
      cases x with
      | int value => exact absurd (hcomparable rfl) Bool.false_ne_true
      | raw s =>
        have hentries : entries = left := by
          simpa [elements] using hsplit
        refine ⟨.ziplist entries, ?_, hsplit⟩
        simp [lremLoop, listTypeNext, listTypeEqual, ziplistCompare,
          nextPlace, hentries, removeFrom]
  | cons a right ih =>
    obtain ⟨fuel, rfl⟩ : ∃ n, fuel = n + 1 := ⟨fuel - 1, by omega⟩
    have hfuel' : right.length + 2 ≤ fuel := Nat.le_of_succ_le_succ hfuel
    rw [Stands, if_neg (cons_ne_nil _ _)] at hstands
    subst hstands
    have hrest : ∀ s ∈ right, s.length < 2 ^ 32 :=
      fun s hs => hsizes s (mem_cons_of_mem _ hs)
    rw [lremLoop, listTypeNext_tail]
    dsimp only
    rw [listTypeEqual_split hsplit hcomparable hx
      (hsizes a mem_cons_self), removeFrom]
    simp only [some_bind, decide_eq_true_eq]
    split
    · have helems := elements_listTypeDelete .tail hsplit
      split
      · exact ⟨_, rfl, helems⟩
      refine ih ?_ _ helems hrest (stands_delete hsplit) hfuel'
      intro hzip
      rw [isZiplist_listTypeDelete] at hzip
      exact hcomparable hzip
    have hsplit' : o.elements = left ++ [a] ++ right := by
      rw [hsplit, append_assoc]
      rfl
    obtain ⟨o', hloop, helems⟩ := ih hcomparable removed hsplit' hrest
      (stands_next hsplit) hfuel'
    refine ⟨o', hloop, ?_⟩
    rw [helems, append_assoc]
    rfl

theorem lremLoop_head (toremove : ℤ) (hcomparable : Comparable o x)
    (hx : (getDecodedObject x).length < 2 ^ 32) {left right : List Bytes}
    (removed : ℕ) {fuel : ℕ} (hsplit : o.elements = left.reverse ++ right)
    (hsizes : ∀ s ∈ left, s.length < 2 ^ 32)
    (hfuel : left.length + 1 ≤ fuel) :
    ∃ o', lremLoop x toremove .head fuel o (prevPlace left.length) removed =
        some (o', (removeFrom (getDecodedObject x) toremove left removed).2) ∧
      o'.elements = (removeFrom (getDecodedObject x) toremove left
        removed).1.reverse ++ right := by
  induction left generalizing o right removed fuel with
  | nil =>
    obtain ⟨fuel, rfl⟩ : ∃ n, fuel = n + 1 := ⟨fuel - 1, by omega⟩
    exact ⟨o, rfl, hsplit⟩
  | cons a left ih =>
    obtain ⟨fuel, rfl⟩ : ∃ n, fuel = n + 1 := ⟨fuel - 1, by omega⟩
    have hsplit' : o.elements = left.reverse ++ a :: right := by
      rw [hsplit, reverse_cons, append_assoc]
      rfl
    have hplace : prevPlace (a :: left).length =
        some left.reverse.length := by
      rw [length_reverse, length_cons, prevPlace,
        if_neg (Nat.succ_ne_zero _), Nat.add_sub_cancel]
    have hrest : ∀ s ∈ left, s.length < 2 ^ 32 :=
      fun s hs => hsizes s (mem_cons_of_mem _ hs)
    rw [hplace, lremLoop, listTypeNext_head]
    dsimp only
    rw [listTypeEqual_split hsplit' hcomparable hx
      (hsizes a mem_cons_self), removeFrom]
    simp only [some_bind, decide_eq_true_eq]
    split
    · have helems := elements_listTypeDelete .head hsplit'
      split
      · exact ⟨_, rfl, helems⟩
      rw [listTypeDelete_head, length_reverse]
      refine ih ?_ _ (by simpa using helems) hrest
        (Nat.le_of_succ_le_succ hfuel)
      intro hzip
      rw [isZiplist_listTypeDelete] at hzip
      exact hcomparable hzip
    · rw [length_reverse]
      obtain ⟨o', hloop, helems⟩ := ih hcomparable removed hsplit' hrest
        (Nat.le_of_succ_le_succ hfuel)
      refine ⟨o', hloop, ?_⟩
      rw [helems, reverse_cons, append_assoc]
      rfl

theorem seekLoop_spec (hcomparable : Comparable o x)
    (hx : (getDecodedObject x).length < 2 ^ 32) {left right : List Bytes}
    {fuel : ℕ} (hsplit : o.elements = left ++ right)
    (hsizes : ∀ s ∈ right, s.length < 2 ^ 32)
    (hfuel : right.length + 1 ≤ fuel) :
    seekLoop o x fuel (if right = [] then none else some left.length) =
      some ((right.idxOf? (getDecodedObject x)).map (· + left.length)) := by
  induction right generalizing left fuel with
  | nil =>
    obtain ⟨fuel, rfl⟩ : ∃ n, fuel = n + 1 := ⟨fuel - 1, by omega⟩
    rfl
  | cons a right ih =>
    obtain ⟨fuel, rfl⟩ : ∃ n, fuel = n + 1 := ⟨fuel - 1, by omega⟩
    rw [if_neg (cons_ne_nil _ _), seekLoop, listTypeNext_tail]
    dsimp only
    rw [listTypeEqual_split hsplit hcomparable hx (hsizes a mem_cons_self)]
    simp only [some_bind, decide_eq_true_eq, idxOf?_cons, beq_iff_eq]
    split
    · simp
    have hsplit' : o.elements = left ++ [a] ++ right := by
      rw [hsplit, append_assoc]
      rfl
    have hnext := ih hsplit'
      (fun s hs => hsizes s (mem_cons_of_mem _ hs))
      (Nat.le_of_succ_le_succ hfuel)
    rw [length_append, length_singleton] at hnext
    rw [hsplit, nextPlace_split, hnext, Option.map_map]
    congr 2
    funext i
    simp only [comp_apply]
    omega

end Loops

/-! ## Commands without a loop of their own -/

section Commands

/-- The conversion `listTypeInitIterator` applies to an index. -/
def ListObj.indexConv : ListObj → ℤ → ℤ
  | .ziplist _ => toInt
  | .linkedlist _ => id

variable (o : ListObj)

theorem map_createStringObject (value : Option Bytes) :
    (value.map createStringObject).map getDecodedObject = value := by
  cases value with
  | none => rfl
  | some s => exact congrArg some (getDecodedObject_createStringObject s)

theorem valueAt_spec (index : ℤ) :
    (valueAt o index).map getDecodedObject =
      (placeOf o.elements.length (o.indexConv index)).bind
        (o.elements[·]?) := by
  cases o with
  | ziplist entries => exact map_createStringObject _
  | linkedlist nodes =>
    simp only [valueAt, listIndex, elements, indexConv, id_eq,
      length_map, map_bind, comp_def,
      getElem?_map]

theorem setAt_spec (index : ℤ) (value : StringObj) :
    (setAt o index value).map elements =
      (placeOf o.elements.length (o.indexConv index)).map
        fun p => o.elements.set p (getDecodedObject value) := by
  cases o with
  | ziplist entries =>
    rw [setAt, Option.map_map, ziplistIndex]
    refine Option.map_congr fun p hp => ?_
    obtain ⟨left, a, right, hsplit, rfl⟩ := exists_split (placeOf_lt hp)
    simp only [comp_apply, elements, hsplit,
      ziplistDeleteAt_split, insertIdx_split, set_split]
  | linkedlist nodes =>
    rw [setAt, Option.map_map, listIndex, length_elements, listTypeLength]
    refine Option.map_congr fun p hp => ?_
    simp [elements, map_set]

/-- Popping where something is left at the end in question. -/
theorem listTypePop_split (side : Side) (left : List Bytes) {a : Bytes}
    {right : List Bytes} (hsplit : o.elements = left ++ a :: right)
    (hplace : listTypeInitIterator o
      (match side with | .head => 0 | .tail => -1) = some left.length) :
    ∃ o' value, listTypePop o side = (o', some value) ∧
      getDecodedObject value = a ∧ o'.elements = left ++ right := by
  cases o with
  | ziplist entries =>
    have hentries : entries = left ++ a :: right := hsplit
    have hget : ziplistGet entries (some left.length) =
        some (createStringObject a) := by
      simp [ziplistGet, hentries]
    refine ⟨.ziplist (left ++ right), createStringObject a, ?_,
      getDecodedObject_createStringObject a, rfl⟩
    rw [listTypeInitIterator] at hplace
    cases side with
    | head | tail =>
      simp only [listTypePop, hplace, hget]
      rw [hentries, ziplistDeleteAt_split]
  | linkedlist nodes =>
    obtain ⟨front, back, rfl, rfl, hback⟩ := map_eq_append_iff.1 hsplit
    obtain ⟨value, rest, rfl, rfl, rfl⟩ := map_eq_cons_iff.1 hback
    rw [listTypeInitIterator, listIndex, length_map] at hplace
    refine ⟨.linkedlist (front ++ rest), value, ?_, rfl, map_append⟩
    cases side with
    | head | tail =>
      simp only [listTypePop, hplace, listDelNode, eraseIdx_split,
        getElem?_append_right le_rfl, Nat.sub_self, getElem?_cons_zero]

theorem listTypePop_nil (side : Side) (hempty : o.elements = []) :
    listTypePop o side = (o, none) := by
  cases o with
  | ziplist entries =>
    have hentries : entries = [] := hempty
    cases side <;> rw [hentries] <;> rfl
  | linkedlist nodes =>
    have hnodes : nodes = [] := map_eq_nil_iff.1 hempty
    cases side <;> rw [hnodes] <;> rfl

theorem elements_listTypeInsert {entry : ℕ} (value : StringObj) (side : Side)
    (hentry : entry < o.elements.length) :
    (listTypeInsert o entry value side).elements =
      o.elements.insertIdx
        (match side with | .head => entry | .tail => entry + 1)
        (getDecodedObject value) := by
  cases o with
  | ziplist entries =>
    cases side with
    | head => rfl
    | tail =>
      obtain ⟨left, a, right, hsplit, rfl⟩ := exists_split hentry
      have hentries : entries = left ++ a :: right := hsplit
      have hinsert := insertIdx_split (left ++ [a])
        (getDecodedObject value) right
      rw [length_append, length_singleton, append_assoc,
        singleton_append, ← hentries] at hinsert
      simp only [listTypeInsert, elements, hinsert]
      rw [hentries, nextPlace_split]
      cases right with
      | nil => simp
      | cons b right =>
        rw [if_neg (cons_ne_nil _ _), ← hentries, ← hinsert]
  | linkedlist nodes =>
    cases side with
    | head | tail => exact map_insertIdx _ _ _ _

end Commands

/-! ## Ranges -/

section Ranges

theorem nextPlace_of_lt {len p : ℕ} (hp : p + 1 < len) :
    nextPlace len p = some (p + 1) := if_pos hp

theorem ziplistWalk_spec {entries : List Bytes} {rangelen p : ℕ}
    (hrange : p + rangelen ≤ entries.length) {iter : Option ℕ}
    (hiter : rangelen ≠ 0 → iter = some p) :
    ziplistWalk entries rangelen iter =
      some (((entries.drop p).take rangelen).map .bulk) := by
  induction rangelen generalizing p iter with
  | zero => rfl
  | succ rangelen ih =>
    have hp : p < entries.length := by omega
    have hrest := ih (show p + 1 + rangelen ≤ entries.length by omega)
      fun _ => nextPlace_of_lt (show p + 1 < entries.length by omega)
    rw [hiter (Nat.succ_ne_zero _), ziplistWalk, drop_eq_getElem_cons hp,
      take_succ_cons, map_cons]
    simp only [ziplistGet, hrest, bind_eq_bind, bind_some,
      getElem?_eq_getElem hp, map_some,
      getDecodedObject_createStringObject]

theorem listWalk_spec {nodes : List StringObj} {rangelen p : ℕ}
    (hrange : p + rangelen ≤ nodes.length) {iter : Option ℕ}
    (hiter : rangelen ≠ 0 → iter = some p) :
    listWalk nodes rangelen iter =
      some ((((nodes.map getDecodedObject).drop p).take rangelen).map
        .bulk) := by
  induction rangelen generalizing p iter with
  | zero => rfl
  | succ rangelen ih =>
    have hp : p < nodes.length := by omega
    have hp' : p < (nodes.map getDecodedObject).length := by
      rwa [length_map]
    have hrest := ih (show p + 1 + rangelen ≤ nodes.length by omega)
      fun _ => nextPlace_of_lt (show p + 1 < nodes.length by omega)
    rw [hiter (Nat.succ_ne_zero _), listWalk, drop_eq_getElem_cons hp']
    simp [hp, hrest]

theorem tail_iterate {α : Type*} (n : ℕ) (l : List α) :
    tail^[n] l = l.drop n := by
  induction n generalizing l with
  | zero => rfl
  | succ n ih => rw [iterate_succ_apply, ih, drop_tail]

theorem dropLast_iterate {α : Type*} (n : ℕ) (l : List α) :
    dropLast^[n] l = l.take (l.length - n) := by
  induction n generalizing l with
  | zero => simp
  | succ n ih =>
    rw [iterate_succ_apply, ih, dropLast_eq_take, take_take, length_take]
    congr 1
    omega

theorem toUnsigned_natCast {n : ℕ} (hn : n < 2 ^ 32) :
    toUnsigned (n : ℤ) = n := by
  rw [toUnsigned, Int.emod_eq_of_lt (by omega) (by omega), Int.toNat_natCast]

/-- An `int` survives its trip through an `unsigned int`. -/
theorem toInt_toUnsigned {n : ℤ} (hlow : -2 ^ 31 ≤ n) (hhigh : n < 2 ^ 31) :
    toInt (toUnsigned n : ℕ) = n := by
  have hbmod : Int.bmod (n % (2 ^ 32 : ℕ)) (2 ^ 32) = Int.bmod n (2 ^ 32) :=
    Int.emod_bmod _ _
  rw [toUnsigned, Int.toNat_of_nonneg (Int.emod_nonneg _ (by omega))]
  exact hbmod.trans (toInt_eq hlow hhigh)

theorem ziplistDeleteRange_eq {entries : List Bytes} {index : ℤ} {num : ℕ}
    (hlow : -2 ^ 31 ≤ index) (hhigh : index < 2 ^ 31) (hnum : num < 2 ^ 32) :
    ziplistDeleteRange entries index num =
      ziplistDeleteFrom entries num (placeOf entries.length index) := by
  rw [ziplistDeleteRange, ziplistIndex, toInt_toUnsigned hlow hhigh,
    toUnsigned_natCast hnum]

theorem ziplistDeleteRange_head {entries : List Bytes} {ltrim : ℕ}
    (hltrim : ltrim < 2 ^ 32) :
    ziplistDeleteRange entries 0 ltrim = entries.drop ltrim := by
  rw [ziplistDeleteRange_eq (by omega) (by omega) hltrim, placeOf_zero]
  cases entries with
  | nil => exact drop_nil.symm
  | cons a entries =>
    rw [if_neg (by simp), ziplistDeleteFrom, ziplistDeleteAt,
      take_zero, nil_append, Nat.zero_add]

theorem ziplistDeleteRange_tail {entries : List Bytes} {rtrim : ℕ}
    (hrtrim : rtrim ≤ entries.length) (hlength : entries.length < 2 ^ 31) :
    ziplistDeleteRange entries (-rtrim) rtrim =
      entries.take (entries.length - rtrim) := by
  rw [ziplistDeleteRange_eq (by omega) (by omega) (by omega)]
  obtain hzero | hpos := Nat.eq_zero_or_pos rtrim
  · rw [hzero, Nat.sub_zero, take_length]
    cases placeOf entries.length (-((0 : ℕ) : ℤ)) with
    | none => rfl
    | some p =>
      rw [ziplistDeleteFrom, ziplistDeleteAt, Nat.add_zero, take_append_drop]
  · rw [placeOf_of_neg hpos hrtrim, ziplistDeleteFrom, ziplistDeleteAt,
      Nat.sub_add_cancel hrtrim, drop_length, append_nil]

theorem rangeItems_spec {o : ListObj} (hlength : o.elements.length < 2 ^ 31)
    {start rangelen : ℕ} (hstart : start < o.elements.length)
    (hrange : start + rangelen ≤ o.elements.length) :
    rangeItems o start rangelen =
      some (((o.elements.drop start).take rangelen).map .bulk) := by
  cases o with
  | ziplist entries =>
    refine ziplistWalk_spec hrange fun _ => ?_
    have hlength' : entries.length < 2 ^ 31 := hlength
    have hstart' : start < entries.length := hstart
    rw [ziplistIndex, toInt_eq (by omega) (by omega), placeOf_of_nat hstart']
  | linkedlist nodes =>
    rw [length_elements, listTypeLength] at hstart hrange
    refine listWalk_spec hrange fun _ => ?_
    rw [listIndex]
    split
    · have hback : (start : ℤ) - nodes.length =
          -((nodes.length - start : ℕ) : ℤ) := by omega
      rw [hback, placeOf_of_neg (by omega) (by omega)]
      congr 1
      omega
    · exact placeOf_of_nat hstart

theorem elements_trimmed {o : ListObj} (hlength : o.elements.length < 2 ^ 31)
    {ltrim rtrim : ℕ} (htrim : ltrim + rtrim ≤ o.elements.length) :
    (trimmed o ltrim rtrim).elements =
      (o.elements.drop ltrim).take (o.elements.length - ltrim - rtrim) := by
  cases o with
  | ziplist entries =>
    have hlength' : entries.length < 2 ^ 31 := hlength
    have htrim' : ltrim + rtrim ≤ entries.length := htrim
    have hrtrim : rtrim ≤ (entries.drop ltrim).length := by
      rw [length_drop]
      omega
    have htail := ziplistDeleteRange_tail hrtrim
      (by rw [length_drop]; omega)
    rw [length_drop] at htail
    rw [trimmed, ziplistDeleteRange_head (by omega), htail]
    rfl
  | linkedlist nodes =>
    rw [trimmed, Int.toNat_natCast, Int.toNat_natCast, tail_iterate,
      dropLast_iterate, length_drop]
    simp only [elements, length_map, map_take, map_drop]

theorem exists_convertIndexes (llen start stop : ℤ) :
    ∃ (i : ℕ) (j : ℤ), convertIndexes llen start stop = (↑i, j) := by
  have hnonneg : 0 ≤ (convertIndexes llen start stop).1 := by
    rw [convertIndexes]
    dsimp only
    split <;> omega
  obtain ⟨i, hi⟩ := Int.eq_ofNat_of_zero_le hnonneg
  exact ⟨i, _, Prod.ext hi rfl⟩

theorem take_clamp {α : Type*} {l : List α} {stop : ℤ} {start : ℕ} :
    (l.drop start).take (stop - start + 1).toNat =
      (l.drop start).take
        ((if (l.length : ℤ) ≤ stop then (l.length : ℤ) - 1 else stop) - start
          + 1).toNat := by
  split
  · rw [take_of_length_le, take_of_length_le] <;>
      rw [length_drop] <;> omega
  · rfl

theorem elements_trimmed_slice {o : ListObj}
    (hlength : o.elements.length < 2 ^ 31) (start stop : ℤ) :
    (trimmed o (trimCounts o.elements.length start stop).1
        (trimCounts o.elements.length start stop).2).elements =
      slice o.elements start stop := by
  obtain ⟨first, last, hindexes⟩ :=
    exists_convertIndexes o.elements.length start stop
  simp only [trimCounts, slice, hindexes, Int.toNat_natCast]
  split
  · have hall := elements_trimmed hlength
      (show o.elements.length + 0 ≤ o.elements.length from le_rfl)
    rw [Nat.sub_self, Nat.zero_sub, take_zero] at hall
    refine hall.trans (Eq.symm ?_)
    rw [take_eq_nil_iff, drop_eq_nil_iff]
    omega
  rename_i hrange
  rw [take_clamp]
  generalize hclamp : (if (o.elements.length : ℤ) ≤ last
    then (o.elements.length : ℤ) - 1 else last) = clamped
  have hbounds : (first : ℤ) ≤ clamped ∧ clamped < o.elements.length := by
    split at hclamp <;> omega
  have hrtrim : (o.elements.length : ℤ) - clamped - 1 =
      ((o.elements.length - (clamped - first + 1).toNat - first : ℕ) : ℤ) := by
    omega
  dsimp only
  rw [hrtrim, elements_trimmed hlength (by omega)]
  congr 1
  omega

end Ranges

/-! ## Both encodings follow the meaning -/

section Refinement

/-- The conversion of the index on the way to the element.  LSET may turn the
ziplist into a linked list first. -/
def Command.indexConv (cfg : Config) (o : ListObj) : Command → ℤ → ℤ
  | .lset _ value => (listTypeTryConversion cfg o (encodedArg value)).indexConv
  | _ => o.indexConv

/-- The strings a command compares with the elements. -/
def Command.compared : Command → List Bytes
  | .linsert _ refval _ => [refval]
  | .lrem _ value => [value]
  | _ => []

variable {o : ListObj} (cfg : Config)

theorem withLong_observed {arg : Bytes} {body : ℤ → Option Effect}
    {mean : ℤ → Observed}
    (hbody : ∀ value, ∃ e, body value = some e ∧ e.observed = mean value) :
    ∃ e, withLong (.list o) arg body = some e ∧
      e.observed = orReply o.elements arg mean := by
  rw [withLong, orReply]
  cases getLongFromObjectOrReply arg with
  | error reply => exact ⟨_, rfl, rfl⟩
  | ok value => exact hbody value

theorem push_observed (side : Side) (values : List Bytes) :
    ∃ e, pushGenericCommand cfg side values (.list o) = some e ∧
      e.observed = meanPush o.elements side values := by
  refine ⟨_, rfl, ?_⟩
  have helems := elements_foldl_push o cfg side values
  by_cases hvalues : values = []
  · subst hvalues
    simp [Effect.observed, meanPush, Stored.elements]
  · simp [Effect.observed, meanPush, Stored.elements, hvalues, ← helems]

theorem pushx_observed (side : Side) (value : Bytes) :
    ∃ e, pushxCommand cfg side value (.list o) = some e ∧
      e.observed = meanPush o.elements side [value] := by
  refine ⟨_, rfl, ?_⟩
  simp only [Effect.observed, meanPush, Stored.elements, foldl_cons,
    foldl_nil, elements_listTypePush, ← length_elements,
    getDecodedObject_encodedArg]
  rfl

theorem insert_observed (hsizes : ∀ s ∈ o.elements, s.length < 2 ^ 32)
    {refval : Bytes} (hrefval : refval.length < 2 ^ 32) (value : Bytes)
    (side : Side) :
    ∃ e, insertGenericCommand cfg (.raw refval) (encodedArg value) side
        (.list o) = some e ∧
      e.observed = meanInsert o.elements refval value side := by
  have helems := elements_listTypeTryConversion o cfg (encodedArg value)
  rw [insertGenericCommand, withList]
  dsimp only
  generalize listTypeTryConversion cfg o (encodedArg value) = o1
    at helems ⊢
  have hcomparable : Comparable o1 (.raw refval) := fun _ => rfl
  have hseek := seekLoop_spec hcomparable hrefval (nil_append _).symm
    (helems ▸ hsizes)
    (show o1.elements.length + 1 ≤ listTypeLength o1 + 1 by
      rw [length_elements])
  rw [length_nil] at hseek
  rw [listTypeInitIterator_zero, hseek, helems, meanInsert, getDecodedObject]
  cases hidx : o.elements.idxOf? refval with
  | none =>
    refine ⟨_, rfl, ?_⟩
    simp [Effect.observed, answered, Stored.elements, helems]
  | some i =>
    have hi : i < o1.elements.length := by
      rw [helems]
      exact findIdx?_eq_some_iff_findIdx_eq.1 hidx |>.1
    have hinsert := elements_listTypeInsert o1 (encodedArg value) side hi
    refine ⟨_, rfl, ?_⟩
    rw [getDecodedObject_encodedArg, helems] at hinsert
    simp only [Effect.observed, Stored.elements,
      Nat.add_zero, elements_convertIf, ← length_elements, hinsert]

theorem index_observed (index : Bytes) :
    ∃ e, lindexCommand index (.list o) = some e ∧
      e.observed = meanIndex o.elements o.indexConv index := by
  refine withLong_observed fun index => ?_
  rw [← valueAt_spec o index]
  cases valueAt o index with
  | some value => exact ⟨_, rfl, rfl⟩
  | none => exact ⟨_, rfl, rfl⟩

theorem set_observed (index value : Bytes) :
    ∃ e, lsetCommand cfg index value (.list o) = some e ∧
      e.observed = meanSet o.elements
        (listTypeTryConversion cfg o (encodedArg value)).indexConv
        index value := by
  refine withLong_observed fun index => ?_
  have helems := elements_listTypeTryConversion o cfg (encodedArg value)
  dsimp only
  generalize listTypeTryConversion cfg o (encodedArg value) = o1
    at helems ⊢
  have hset := setAt_spec o1 index (encodedArg value)
  rw [helems, getDecodedObject_encodedArg] at hset
  cases hplace : placeOf o.elements.length (o1.indexConv index) with
  | none =>
    rw [hplace, map_none, map_eq_none_iff] at hset
    rw [hset]
    exact ⟨_, rfl, by simp [Effect.observed, answered, Stored.elements,
      helems]⟩
  | some p =>
    rw [hplace, map_some, map_eq_some_iff] at hset
    obtain ⟨o2, hsome, helems2⟩ := hset
    rw [hsome]
    exact ⟨_, rfl, by simp [Effect.observed, Stored.elements, helems2]⟩

theorem pop_observed (side : Side) :
    ∃ e, popGenericCommand side (.list o) = some e ∧
      e.observed = meanPop o.elements side := by
  rw [popGenericCommand, withList]
  by_cases hempty : o.elements = []
  · rw [listTypePop_nil o side hempty]
    refine ⟨_, rfl, ?_⟩
    cases side <;>
      simp [Effect.observed, Stored.elements, hempty, meanPop, answered]
  cases side with
  | head =>
    obtain ⟨a, right, hsplit⟩ := exists_cons_of_ne_nil hempty
    obtain ⟨o1, value, hpop, rfl, rfl⟩ := listTypePop_split o .head [] hsplit
      ((listTypeInitIterator_zero o).trans (if_neg hempty))
    rw [hpop]
    exact ⟨_, rfl, by
      simp [Effect.observed, elements_dropEmpty, meanPop, hsplit]⟩
  | tail =>
    obtain ⟨left, a, hsplit⟩ :=
      (eq_nil_or_concat o.elements).resolve_left hempty
    rw [concat_eq_append] at hsplit
    have hplace : listTypeInitIterator o (-1) = some left.length := by
      rw [listTypeInitIterator_eq o rfl, placeOf_neg_one, hsplit]
      simp
    obtain ⟨o1, value, hpop, rfl, helems⟩ :=
      listTypePop_split o .tail left hsplit hplace
    rw [append_nil] at helems
    subst helems
    rw [hpop]
    exact ⟨_, rfl, by
      simp [Effect.observed, elements_dropEmpty, meanPop, hsplit]⟩

theorem range_observed (hlength : o.elements.length < 2 ^ 31)
    (start stop : Bytes) :
    ∃ e, lrangeCommand start stop (.list o) = some e ∧
      e.observed = meanRange o.elements start stop := by
  refine withLong_observed fun start => withLong_observed fun stop => ?_
  obtain ⟨first, last, hindexes⟩ :=
    exists_convertIndexes o.elements.length start stop
  simp only [withList, slice, ← length_elements, hindexes, Int.toNat_natCast]
  split
  · rename_i hempty
    have hnil : (o.elements.drop first).take (last - first + 1).toNat =
        [] := by
      rw [take_eq_nil_iff, drop_eq_nil_iff]
      omega
    exact ⟨_, rfl, by rw [hnil]; rfl⟩
  rename_i hrange
  rw [take_clamp]
  rw [rangeItems_spec hlength (by omega) (by split <;> omega)]
  exact ⟨_, rfl, rfl⟩

theorem trim_observed (hlength : o.elements.length < 2 ^ 31)
    (start stop : Bytes) :
    ∃ e, ltrimCommand start stop (.list o) = some e ∧
      e.observed = meanTrim o.elements start stop := by
  refine withLong_observed fun start => withLong_observed fun stop => ?_
  have helems := elements_trimmed_slice hlength start stop
  rw [length_elements] at helems
  rw [withList]
  dsimp only
  generalize trimCounts (listTypeLength o) start stop = counts at helems ⊢
  refine ⟨_, rfl, ?_⟩
  rw [← helems]
  simp only [Effect.observed, elements_dropEmpty, length_elements]

theorem getDecodedObject_remObject (arg : Bytes) (o : ListObj) :
    getDecodedObject (remObject arg o) = arg := by
  cases o with
  | ziplist entries | linkedlist nodes => exact getDecodedObject_encodedArg arg

theorem comparable_remObject (arg : Bytes) (o : ListObj) :
    Comparable o (remObject arg o) := by
  intro hzip
  cases o with
  | ziplist entries => rfl
  | linkedlist nodes => cases hzip

theorem rem_observed (hsizes : ∀ s ∈ o.elements, s.length < 2 ^ 32)
    {value : Bytes} (hvalue : value.length < 2 ^ 32) (count : Bytes) :
    ∃ e, lremCommand count value (.list o) = some e ∧
      e.observed = meanRem o.elements count value := by
  refine withLong_observed fun count => ?_
  have hcomparable := comparable_remObject value o
  have hdecoded := getDecodedObject_remObject value o
  have hx : (getDecodedObject (remObject value o)).length < 2 ^ 32 :=
    hdecoded.symm ▸ hvalue
  rw [withList, removeCount]
  dsimp only
  split
  · have hinit : listTypeInitIterator o (-1) =
        prevPlace o.elements.reverse.length := by
      rw [listTypeInitIterator_eq o rfl, placeOf_neg_one, length_reverse,
        prevPlace]
    have hsplit : o.elements = o.elements.reverse.reverse ++ [] := by simp
    have hfuel : o.elements.reverse.length + 1 ≤ listTypeLength o + 2 := by
      simp
    obtain ⟨o1, hloop, helems⟩ := lremLoop_head (negateLong count) hcomparable
      hx 0 hsplit (by simpa using hsizes) hfuel
    rw [hdecoded] at hloop helems
    rw [append_nil] at helems
    rw [hinit, hloop]
    refine ⟨_, rfl, ?_⟩
    simp only [Effect.observed, elements_dropEmpty, helems]
  · have hfuel : o.elements.length + 2 ≤ listTypeLength o + 2 := by simp
    obtain ⟨o1, hloop, helems⟩ := lremLoop_tail count hcomparable hx 0
      (nil_append _).symm hsizes (stands_init o) hfuel
    rw [hdecoded] at hloop helems
    rw [nil_append] at helems
    rw [hloop]
    refine ⟨_, rfl, ?_⟩
    simp only [Effect.observed, elements_dropEmpty, helems]

/-- Each command, in either encoding, does to the elements what it means. -/
theorem run_observed (hzip : Ziplistable o.elements) (cmd : Command)
    (hcompared : ∀ s ∈ cmd.compared, s.length < 2 ^ 32) :
    ∃ e, cmd.run cfg (.list o) = some e ∧
      e.observed = cmd.mean o.elements (cmd.indexConv cfg o) := by
  cases cmd with
  | push side values => exact push_observed cfg side values
  | pushx side value => exact pushx_observed cfg side value
  | linsert place refval value =>
    have hrefval := hcompared refval mem_cons_self
    rw [Command.run, linsertCommand, Command.mean, meanLinsert]
    split
    · exact insert_observed cfg hzip.string_lt hrefval value .tail
    · split
      · exact insert_observed cfg hzip.string_lt hrefval value .head
      · exact ⟨_, rfl, rfl⟩
  | llen =>
    refine ⟨_, rfl, ?_⟩
    rw [Command.mean, length_elements]
    rfl
  | lindex index => exact index_observed index
  | lset index value => exact set_observed cfg index value
  | pop side => exact pop_observed side
  | lrange start stop => exact range_observed hzip.length_lt start stop
  | ltrim start stop => exact trim_observed hzip.length_lt start stop
  | lrem count value =>
    exact rem_observed hzip.string_lt
      (hcompared value mem_cons_self) count

end Refinement

/-! ## Where the encodings part -/

section Divergence

/-- The index an argument stands for lies outside the range of `int`, and
reduced to that range it selects an element. -/
def Wraps (len : ℕ) (arg : Bytes) : Prop :=
  ∃ index, getLongLongFromObject arg = some index ∧
    (index < -2 ^ 31 ∨ 2 ^ 31 ≤ index) ∧
    -(len : ℤ) ≤ toInt index ∧ toInt index < len

/-- LINDEX with an index that wraps, or LSET with one on a list that stays a
ziplist. -/
def Command.Wraps (cfg : Config) (entries : List Bytes) : Command → Prop
  | .lindex index => Lists.Wraps entries.length index
  | .lset index value =>
    Lists.Wraps entries.length index ∧
      listTypeTryConversion cfg (.ziplist entries) (encodedArg value) =
        .ziplist entries
  | _ => False

variable {l : List Bytes} (hlength : l.length < 2 ^ 31)

theorem placeOf_isSome_iff {len : ℕ} {index : ℤ} :
    (placeOf len index).isSome = true ↔ -(len : ℤ) ≤ index ∧ index < len := by
  rw [placeOf]
  dsimp only
  split_ifs <;> simp <;> omega

include hlength in
/-- An index that wraps names an element as an `int` and none as a `long`. -/
theorem Wraps.places {arg : Bytes} (hwraps : Wraps l.length arg) :
    ∃ index p, getLongLongFromObject arg = some index ∧
      placeOf l.length (toInt index) = some p ∧
      placeOf l.length index = none := by
  obtain ⟨index, harg, hout, hselects⟩ := hwraps
  obtain ⟨p, hp⟩ := isSome_iff_exists.1 (placeOf_isSome_iff.2 hselects)
  exact ⟨index, p, harg, hp, placeOf_eq_none_of_le (by omega)⟩

include hlength in
/-- Every other index finds the same place in both types. -/
theorem places_of_not_wraps {arg : Bytes} (hwraps : ¬ Wraps l.length arg)
    {index : ℤ} (harg : getLongLongFromObject arg = some index) :
    placeOf l.length (toInt index) = placeOf l.length index := by
  by_cases hfits : -2 ^ 31 ≤ index ∧ index < 2 ^ 31
  · rw [toInt_eq hfits.1 hfits.2]
  have hout : index < -l.length ∨ (l.length : ℤ) ≤ index := by omega
  rw [placeOf_eq_none_of_le hout, ← not_isSome_iff_eq_none, placeOf_isSome_iff]
  intro hselects
  exact hwraps ⟨index, harg, by omega, hselects⟩

include hlength in
/-- Whatever is made of the place, unless it is the same for every place. -/
theorem orReply_toInt_iff (arg : Bytes) (body : Option ℕ → Observed)
    (hbody : ∀ p < l.length, body (some p) ≠ body none) :
    (orReply l arg fun index => body (placeOf l.length (toInt index))) =
        (orReply l arg fun index => body (placeOf l.length index)) ↔
      ¬ Wraps l.length arg := by
  rw [orReply, orReply, getLongFromObjectOrReply]
  constructor
  · intro heq hwraps
    obtain ⟨index, p, harg, hp, hnone⟩ := hwraps.places hlength
    simp only [harg, hp, hnone] at heq
    exact hbody p (placeOf_lt hp) heq
  intro hwraps
  cases harg : getLongLongFromObject arg with
  | none => rfl
  | some index =>
    dsimp only
    rw [places_of_not_wraps hlength hwraps harg]

include hlength in
theorem mean_eq_iff (cfg : Config) (cmd : Command) (nodes : List StringObj) :
    cmd.mean l (cmd.indexConv cfg (.ziplist l)) =
        cmd.mean l (cmd.indexConv cfg (.linkedlist nodes)) ↔
      ¬ cmd.Wraps cfg l := by
  cases cmd with
  | lindex index =>
    refine orReply_toInt_iff hlength index (fun place =>
      match place.bind (l[·]?) with
      | some value => answered l (.bulk value)
      | none => answered l .nullBulk) fun p hp heq => ?_
    simp [getElem?_eq_getElem hp, answered] at heq
  | lset index value =>
    rw [Command.mean, Command.mean, Command.Wraps, Command.indexConv,
      Command.indexConv, listTypeTryConversion, listTypeTryConversion]
    split
    · exact iff_of_true rfl fun h => by cases h.2
    refine (orReply_toInt_iff hlength index (fun place =>
      match place with
      | none => answered l outofrangeerr
      | some p => ⟨some (l.set p value), ok, 1, true, false,
        [(.list, "lset")]⟩) fun p _ heq => ?_).trans (by simp)
    simp [answered] at heq
  | push side values | pushx side value | linsert place refval value | llen
  | pop side | lrange start stop | ltrim start stop | lrem count value =>
    exact iff_of_true rfl id

end Divergence

/-- A command run on the two encodings of the same elements has the same
reply, elements, `dirty` count and events, unless it is LINDEX or LSET with an
index that wraps. -/
theorem run_encodings_agree_iff (cfg : Config) (cmd : Command)
    (entries : List Bytes) (nodes : List StringObj)
    (hsame : nodes.map getDecodedObject = entries)
    (hzip : Ziplistable entries)
    (hcompared : ∀ s ∈ cmd.compared, s.length < 2 ^ 32) :
    ∃ onZiplist onLinkedlist,
      cmd.run cfg (.list (.ziplist entries)) = some onZiplist ∧
      cmd.run cfg (.list (.linkedlist nodes)) = some onLinkedlist ∧
      (onZiplist.observed = onLinkedlist.observed ↔
        ¬ cmd.Wraps cfg entries) := by
  have hlinked : (linkedlist nodes).elements = entries := hsame
  obtain ⟨e, hrun, hmean⟩ :=
    run_observed (o := .ziplist entries) cfg hzip cmd hcompared
  obtain ⟨e', hrun', hmean'⟩ :=
    run_observed (o := .linkedlist nodes) cfg (hlinked ▸ hzip) cmd hcompared
  rw [hlinked] at hmean'
  refine ⟨e, e', hrun, hrun', ?_⟩
  rw [hmean, hmean']
  exact mean_eq_iff hzip.length_lt cfg cmd nodes

/-- An element of three removed from both encodings, from the tail. -/
theorem run_encodings_agree_lrem :
    ∃ onZiplist onLinkedlist,
      (Command.lrem (ascii "-1") (ascii "7")).run ⟨512, 64⟩
          (.list (.ziplist [ascii "7", ascii "a", ascii "7"])) =
        some onZiplist ∧
      (Command.lrem (ascii "-1") (ascii "7")).run ⟨512, 64⟩
          (.list (.linkedlist [.int 7, .raw (ascii "a"), .raw (ascii "7")])) =
        some onLinkedlist ∧
      onZiplist.observed = onLinkedlist.observed := by
  obtain ⟨e, e', hrun, hrun', hiff⟩ := run_encodings_agree_iff ⟨512, 64⟩
    (.lrem (ascii "-1") (ascii "7")) [ascii "7", ascii "a", ascii "7"]
    [.int 7, .raw (ascii "a"), .raw (ascii "7")] (by decide)
    ⟨by decide, by decide⟩ (by decide)
  exact ⟨e, e', hrun, hrun', hiff.2 id⟩

/-- `LINDEX key 4294967296` finds the head of a ziplist and nothing in the
linked list. -/
theorem lindex_encodings_differ :
    ∃ onZiplist onLinkedlist,
      (Command.lindex (ascii "4294967296")).run ⟨512, 64⟩
          (.list (.ziplist [ascii "a"])) = some onZiplist ∧
      (Command.lindex (ascii "4294967296")).run ⟨512, 64⟩
          (.list (.linkedlist [.raw (ascii "a")])) = some onLinkedlist ∧
      onZiplist.reply = .bulk (ascii "a") ∧
      onLinkedlist.reply = .nullBulk :=
  ⟨_, _, rfl, rfl, rfl, rfl⟩

end RedisV8.Lists
