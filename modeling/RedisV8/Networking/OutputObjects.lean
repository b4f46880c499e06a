import RedisV8.Networking.Output

/-!
# Ownership of the objects in the reply list

Every object counts its owners: the nodes of the reply list that hold it and
whoever holds it elsewhere.  The reply functions keep the counts right, and
they change the string of an object only where the list is its only owner.
-/

namespace RedisV8.Output

open Util Server World List Function

variable {id : ObjId} {after before nodes : List Node} {ln node : Node}
  {o : Obj}

@[simp]
theorem heap_setObj_self (w : World) (id : ObjId) (o : Option Obj) :
    (w.setObj id o).heap id = o := by
  simp [setObj]

@[simp]
theorem heap_setObj_of_ne (w : World) {i : ObjId} (hne : i ≠ id)
    (o : Option Obj) : (w.setObj id o).heap i = w.heap i := by
  simp [setObj, hne]

@[simp]
theorem heap_createObject_next (w : World) (content : Content) :
    (w.createObject content).1.heap w.next = some ⟨content, 1⟩ := by
  simp [createObject]

theorem heap_createObject_of_ne (w : World) (hne : id ≠ w.next)
    (content : Content) : (w.createObject content).1.heap id = w.heap id := by
  simp [createObject, hne]

/-- How many nodes hold an object. -/
def held (nodes : List Node) (id : ObjId) : ℕ :=
  (nodes.map Node.value).count id

@[simp]
theorem held_nil (id : ObjId) : held [] id = 0 := rfl

@[simp]
theorem held_append (left right : List Node) (id : ObjId) :
    held (left ++ right) id = held left id + held right id := by
  simp [held]

@[simp]
theorem held_cons (node : Node) (nodes : List Node) (id : ObjId) :
    held (node :: nodes) id =
      held nodes id + if node.value = id then 1 else 0 := by
  simp [held, count_cons]

theorem held_pos (hmem : node ∈ nodes) : 0 < held nodes node.value :=
  count_pos_iff.2 (mem_map_of_mem hmem)

theorem held_eq_zero (hnot : ∀ node ∈ nodes, node.value ≠ id) :
    held nodes id = 0 := by
  rw [held, count_eq_zero]
  intro hmem
  obtain ⟨node, hnode, heq⟩ := mem_map.1 hmem
  exact hnot node hnode heq

theorem value_ne_of_held (hheld : held nodes id = 0) :
    ∀ node ∈ nodes, node.value ≠ id := by
  rintro node hnode rfl
  exact (held_pos hnode).ne' hheld

/-- The string of an object. -/
def World.text (w : World) (id : ObjId) : Bytes :=
  ((w.heap id).bind fun o => o.content.sds?).getD []

theorem text_of_content {w w' : World} {o' : Obj} (hid : w.heap id = some o)
    (hid' : w'.heap id = some o') (hcontent : o'.content = o.content) :
    w'.text id = w.text id := by
  rw [text, text, hid, hid', Option.bind_some, Option.bind_some, hcontent]

theorem text_of_sds {w : World} {s : Bytes} (hid : w.heap id = some o)
    (hs : o.content.sds? = some s) : w.text id = s := by
  rw [text, hid, Option.bind_some, hs]
  rfl

theorem text_setObj_of_ne (w : World) {i : ObjId} (hne : i ≠ id)
    (o : Option Obj) : (w.setObj id o).text i = w.text i := by
  rw [text, text, heap_setObj_of_ne w hne]

/-- The string is the same under another count. -/
theorem text_setCount {w : World} (hid : w.heap id = some o) (refcount : ℕ)
    (i : ObjId) :
    (w.setObj id (some { o with refcount })).text i = w.text i := by
  rcases eq_or_ne i id with rfl | hne
  · exact text_of_content hid (heap_setObj_self w _ _) rfl
  · exact text_setObj_of_ne w hne _

theorem Content.length_lt {content : Content} {s : Bytes}
    (hs : content.sds? = some s) (hlength : s.length < 2 ^ 31) :
    ∀ t, content.sds? = some t → t.length < 2 ^ 31 := by
  intro t ht
  rw [hs] at ht
  cases ht
  exact hlength

/-- What holds of an object that `held` nodes of the list hold. -/
structure Obj.Sound (o : Obj) (held : ℕ) : Prop where
  held_le : held ≤ o.refcount
  pos : 0 < o.refcount
  null : o.content = .null → o.refcount = 1
  length : ∀ s, o.content.sds? = some s → s.length < 2 ^ 31

/-- A node holds an object: a string, or none as long as its length is not
set. -/
structure Node.Sound (heap : ObjId → Option Obj) (node : Node) (o : Obj) :
    Prop where
  live : heap node.value = some o
  text : node.handle = none → ∃ s, o.content.sds? = some s
  deferred : ∀ handle, node.handle = some handle → o.content = .null

structure Sound (w : World) : Prop where
  fresh : ∀ id, w.next ≤ id → w.heap id = none
  object : ∀ id o, w.heap id = some o → o.Sound (held w.reply id)
  node : ∀ node ∈ w.reply, ∃ o, node.Sound w.heap o
  handles : (w.reply.filterMap Node.handle).Nodup

/-- Whoever holds an object elsewhere still does so, and finds the same
string in it. -/
def Keeps (w w' : World) : Prop :=
  ∀ id o, w.heap id = some o → held w.reply id < o.refcount →
    ∃ o', w'.heap id = some o' ∧ o'.content = o.content ∧
      o'.refcount + held w.reply id = o.refcount + held w'.reply id

theorem Keeps.refl (w : World) : Keeps w w :=
  fun _ o hid _ => ⟨o, hid, rfl, rfl⟩

theorem Keeps.trans {w₁ w₂ w₃ : World} (h₁₂ : Keeps w₁ w₂)
    (h₂₃ : Keeps w₂ w₃) : Keeps w₁ w₃ := by
  intro id o hid howned
  obtain ⟨o₂, hid₂, hcontent₂, hcount₂⟩ := h₁₂ id o hid howned
  obtain ⟨o₃, hid₃, hcontent₃, hcount₃⟩ := h₂₃ id o₂ hid₂ (by omega)
  exact ⟨o₃, hid₃, hcontent₃.trans hcontent₂, by omega⟩

section Primitives

variable {w : World}

/-- The texts do not matter. -/
theorem Sound.other (hw : Sound w) (buf : Bytes) (sentlen : ℕ)
    (sent : Bytes) : Sound { w with buf, sentlen, sent } :=
  ⟨hw.fresh, hw.object, hw.node, hw.handles⟩

theorem Sound.value_lt (hw : Sound w) (hnode : node ∈ w.reply) :
    node.value < w.next := by
  obtain ⟨o, ho⟩ := hw.node node hnode
  by_contra hge
  have hnone := hw.fresh node.value (not_lt.1 hge)
  rw [ho.live] at hnone
  cases hnone

theorem Sound.held_next (hw : Sound w) : held w.reply w.next = 0 :=
  held_eq_zero fun _ hnode => (hw.value_lt hnode).ne

theorem Sound.ne_next (hw : Sound w) (hid : w.heap id = some o) :
    id ≠ w.next := by
  rintro rfl
  rw [hw.fresh _ le_rfl] at hid
  cases hid

/-- A node keeps its meaning when its object is not touched. -/
theorem Sound.node_update (hw : Sound w) (hnode : node ∈ w.reply)
    (hne : node.value ≠ id) (new : Option Obj) :
    ∃ o, node.Sound (update w.heap id new) o := by
  obtain ⟨o, ho⟩ := hw.node node hnode
  exact ⟨o, by rw [update_of_ne hne, ho.live], ho.text, ho.deferred⟩

theorem Sound.object_update (hw : Sound w) {new : Option Obj}
    (hnew : ∀ o ∈ new, o.Sound (held w.reply id)) (i : ObjId) (o : Obj)
    (hi : update w.heap id new i = some o) : o.Sound (held w.reply i) := by
  rcases eq_or_ne i id with rfl | hne
  · rw [update_self] at hi
    exact hnew o hi
  · rw [update_of_ne hne] at hi
    exact hw.object i o hi

theorem Sound.text_create (hw : Sound w) (content : Content)
    (hnode : node ∈ w.reply) :
    (w.createObject content).1.text node.value = w.text node.value := by
  rw [text, text, heap_createObject_of_ne w (hw.value_lt hnode).ne]

/-- A new object, which its creator holds. -/
theorem Sound.create (hw : Sound w) {content : Content}
    (hlength : ∀ s, content.sds? = some s → s.length < 2 ^ 31) :
    Sound (w.createObject content).1 where
  fresh id hid := by
    show update w.heap w.next _ id = none
    rw [update_of_ne (Nat.lt_of_succ_le hid).ne',
      hw.fresh id (Nat.le_of_succ_le hid)]
  object := hw.object_update fun o ho => by
    cases ho
    exact ⟨hw.held_next.trans_le (Nat.zero_le _), Nat.one_pos, fun _ => rfl,
      hlength⟩
  node _ hnode := hw.node_update hnode (hw.value_lt hnode).ne _
  handles := hw.handles

theorem Keeps.create (hw : Sound w) (content : Content) :
    Keeps w (w.createObject content).1 := by
  intro id o hid _
  exact ⟨o, by rw [heap_createObject_of_ne w (hw.ne_next hid), hid], rfl, rfl⟩

/-- A node takes over a reference that somebody else held. -/
theorem Sound.push (hw : Sound w) (hnode : node.Sound w.heap o)
    (howned : held w.reply node.value < o.refcount)
    (hnew : ∀ handle ∈ node.handle, ∀ other ∈ w.reply,
      other.handle ≠ some handle) :
    Sound (w.listAddNodeTail node) where
  fresh := hw.fresh
  object id o' hid := by
    have hold := hw.object id o' hid
    refine ⟨?_, hold.pos, hold.null, hold.length⟩
    have hle := hold.held_le
    simp only [listAddNodeTail, held_append, held_cons, held_nil, zero_add]
    split
    · rename_i heq
      subst heq
      obtain rfl : o = o' := Option.some_inj.1 (hnode.live.symm.trans hid)
      exact howned
    · exact hle
  node other hother := by
    simp only [listAddNodeTail, mem_append, mem_singleton] at hother
    rcases hother with hother | rfl
    · exact hw.node other hother
    · exact ⟨o, hnode⟩
  handles := by
    rw [listAddNodeTail, filterMap_append, nodup_append]
    refine ⟨hw.handles, ?_, ?_⟩
    · cases hhandle : node.handle <;> simp [hhandle]
    rintro handle hmem handle' hmem' rfl
    obtain ⟨other, hother, heq⟩ := mem_filterMap.1 hmem
    simp only [mem_filterMap, mem_singleton] at hmem'
    obtain ⟨_, rfl, heq'⟩ := hmem'
    exact hnew handle heq' other hother heq

theorem Sound.fresh_setObj (hw : Sound w) (hid : w.heap id = some o)
    (new : Option Obj) : ∀ i, w.next ≤ i → (w.setObj id new).heap i = none := by
  intro i hi
  have hne : i ≠ id := by
    rintro rfl
    rw [hw.fresh i hi] at hid
    cases hid
  show update w.heap id new i = none
  rw [update_of_ne hne, hw.fresh i hi]

/-- Another count for an object. -/
theorem Sound.setCount (hw : Sound w) (hid : w.heap id = some o)
    {refcount : ℕ}
    (hnew : ({ o with refcount } : Obj).Sound (held w.reply id)) :
    Sound (w.setObj id (some { o with refcount })) where
  fresh := hw.fresh_setObj hid _
  object := hw.object_update fun o' ho' => by
    cases ho'
    exact hnew
  node node hnode := by
    rcases eq_or_ne node.value id with rfl | hne
    · obtain ⟨o', ho'⟩ := hw.node node hnode
      obtain rfl : o = o' := Option.some_inj.1 (hid.symm.trans ho'.live)
      exact ⟨{ o with refcount }, heap_setObj_self w _ _, ho'.text,
        ho'.deferred⟩
    · exact hw.node_update hnode hne _
  handles := hw.handles

/-- Another reference. -/
theorem Sound.incr (hw : Sound w) (hid : w.heap id = some o)
    (hnull : o.content ≠ .null) :
    Sound (w.setObj id (some { o with refcount := o.refcount + 1 })) := by
  have hold := hw.object id o hid
  exact hw.setCount hid ⟨hold.held_le.trans (Nat.le_succ _), Nat.succ_pos _,
    fun h => absurd h hnull, hold.length⟩

/-- A node gives its reference up. -/
theorem Sound.remove (hw : Sound w)
    (hreply : w.reply = before ++ node :: after) :
    Sound { w with reply := before ++ after } where
  fresh := hw.fresh
  object id o hid := by
    have hold := hw.object id o hid
    refine ⟨?_, hold.pos, hold.null, hold.length⟩
    have hle := hold.held_le
    simp only [hreply, held_append, held_cons] at hle ⊢
    omega
  node other hother := by
    refine hw.node other ?_
    rw [hreply]
    simp only [mem_append, mem_cons] at hother ⊢
    tauto
  handles := by
    have hnodup := hw.handles
    rw [hreply] at hnodup
    refine List.Nodup.sublist (List.Sublist.filterMap _ ?_) hnodup
    exact List.Sublist.append_left (sublist_cons_self node after) before

/-- An object with one owner less. -/
def Obj.released (o : Obj) : Option Obj :=
  if o.refcount = 1 then none else some { o with refcount := o.refcount - 1 }

theorem heap_released (w : World) (h : 1 < o.refcount) :
    (w.setObj id o.released).heap id =
      some { o with refcount := o.refcount - 1 } := by
  rw [heap_setObj_self, Obj.released, if_neg h.ne']

theorem text_released (hid : w.heap id = some o)
    (howned : held nodes id < o.refcount) : ∀ node ∈ nodes,
      (w.setObj id o.released).text node.value = w.text node.value := by
  intro node hnode
  rcases eq_or_ne node.value id with rfl | hne
  · have hpos := held_pos hnode
    exact text_of_content hid (heap_released w (by omega)) rfl
  · exact text_setObj_of_ne w hne _

theorem decrRefCount_eq (hid : w.heap id = some o) (hpos : 0 < o.refcount) :
    w.decrRefCount id = some (w.setObj id o.released) := by
  rw [decrRefCount, hid, some_bind, if_neg hpos.ne', Obj.released]
  split_ifs <;> rfl

/-- A reference outside of the list is given up. -/
theorem Sound.decr (hw : Sound w) (hid : w.heap id = some o)
    (howned : held w.reply id < o.refcount) :
    Sound (w.setObj id o.released) := by
  have hold := hw.object id o hid
  rcases eq_or_ne o.refcount 1 with hone | hone
  · rw [Obj.released, if_pos hone]
    have hne := value_ne_of_held (show held w.reply id = 0 by omega)
    exact ⟨hw.fresh_setObj hid none, hw.object_update fun _ h => (by cases h),
      fun node hnode => hw.node_update hnode (hne node hnode) _, hw.handles⟩
  · rw [Obj.released, if_neg hone]
    exact hw.setCount hid ⟨Nat.le_sub_one_of_lt howned,
      Nat.sub_pos_of_lt (by omega), fun h => absurd (hold.null h) hone,
      hold.length⟩

/-- The only owner of an object is a node, which gets a string in it. -/
theorem Sound.refill (hw : Sound w) (hreply : w.reply = before ++ ln :: after)
    (hid : w.heap ln.value = some o) (hone : o.refcount = 1) {s : Bytes}
    (hs : s.length < 2 ^ 31) :
    held before ln.value = 0 ∧ held after ln.value = 0 ∧
      Sound { w.setObj ln.value (some { o with content := .raw s }) with
        reply := before ++ { ln with handle := none } :: after } := by
  have hle := (hw.object _ o hid).held_le
  simp only [hreply, held_append, held_cons, if_true] at hle
  have hbefore : held before ln.value = 0 := by omega
  have hafter : held after ln.value = 0 := by omega
  refine ⟨hbefore, hafter, hw.fresh_setObj hid _, ?_, ?_, ?_⟩
  · intro i o' hi
    have hheld : held (before ++ { ln with handle := none } :: after) i =
        held w.reply i := by
      simp only [hreply, held_append, held_cons]
    rw [hheld]
    refine hw.object_update (fun o' ho' => ?_) i o' hi
    cases ho'
    have hold := hw.object _ o hid
    exact ⟨hold.held_le, hold.pos, fun _ => hone, Content.length_lt rfl hs⟩
  · intro node hnode
    have hother : ∀ other ∈ before ++ after,
        ∃ o', other.Sound (update w.heap ln.value
          (some { o with content := .raw s })) o' := by
      intro other hmem
      have hne : other.value ≠ ln.value := by
        rcases mem_append.1 hmem with h | h
        · exact value_ne_of_held hbefore other h
        · exact value_ne_of_held hafter other h
      refine hw.node_update ?_ hne _
      rw [hreply]
      simp only [mem_append, mem_cons] at hmem ⊢
      tauto
    simp only [mem_append, mem_cons] at hnode
    rcases hnode with h | rfl | h
    · exact hother node (mem_append_left _ h)
    · exact ⟨{ o with content := .raw s }, heap_setObj_self w _ _,
        fun _ => ⟨s, rfl⟩, fun _ h => by cases h⟩
    · exact hother node (mem_append_right _ h)
  · have hnodup := (hw.remove hreply).handles
    simpa only [filterMap_append, filterMap_cons] using hnodup

end Primitives

section Operations

variable {w : World}

theorem Keeps.pushNew (hw : Sound w) (content : Content)
    (handle : Option ℕ) :
    Keeps w ((w.createObject content).1.listAddNodeTail ⟨w.next, handle⟩) := by
  intro id o hid _
  have hne := hw.ne_next hid
  refine ⟨o, ?_, rfl, ?_⟩
  · rw [← hid]
    exact heap_createObject_of_ne w hne content
  · show _ = _ + held (w.reply ++ [_]) id
    rw [held_append, held_cons, if_neg hne.symm, held_nil]
    rfl

theorem Keeps.pushShared (hid : w.heap id = some o) :
    Keeps w ((w.setObj id
      (some { o with refcount := o.refcount + 1 })).listAddNodeTail
        ⟨id, none⟩) := by
  intro i o' hi _
  show ∃ _, (w.setObj id _).heap i = _ ∧ _ ∧ _ = _ + held (w.reply ++ [_]) i
  rw [held_append, held_cons, held_nil]
  rcases eq_or_ne i id with rfl | hne
  · obtain rfl : o = o' := Option.some_inj.1 (hid.symm.trans hi)
    refine ⟨_, heap_setObj_self w _ _, rfl, ?_⟩
    rw [if_pos rfl]
    show o.refcount + 1 + _ = _
    omega
  refine ⟨o', ?_, rfl, ?_⟩
  · rw [heap_setObj_of_ne w hne, hi]
  · rw [if_neg hne.symm]
    omega

/-- A node is deleted and gives its reference up. -/
theorem Sound.delNode (hw : Sound w)
    (hreply : w.reply = before ++ node :: after)
    (hid : w.heap node.value = some o) :
    Sound { w.setObj node.value o.released with reply := before ++ after } ∧
      Keeps w
        { w.setObj node.value o.released with reply := before ++ after } ∧
      ∀ other ∈ before ++ after,
        (w.setObj node.value o.released).text other.value =
          w.text other.value := by
  have hle := (hw.object _ o hid).held_le
  have hheld : ∀ i, held w.reply i =
      held (before ++ after) i + if node.value = i then 1 else 0 := by
    intro i
    simp only [hreply, held_append, held_cons]
    omega
  rw [hheld, if_pos rfl] at hle
  refine ⟨(hw.remove hreply).decr hid hle, ?_, text_released hid hle⟩
  intro i o' hi howned
  show ∃ _, (w.setObj node.value o.released).heap i = _ ∧ _ ∧
    _ = _ + held (before ++ after) i
  rw [hheld] at howned ⊢
  rcases eq_or_ne i node.value with rfl | hne
  · obtain rfl : o = o' := Option.some_inj.1 (hid.symm.trans hi)
    rw [if_pos rfl] at howned ⊢
    refine ⟨_, heap_released w (by omega), rfl, ?_⟩
    show o.refcount - 1 + _ = _
    omega
  refine ⟨o', ?_, rfl, ?_⟩
  · rw [heap_setObj_of_ne w hne, hi]
  · rw [if_neg hne.symm]
    rfl

theorem Keeps.refill (hw : Sound w) (hreply : w.reply = before ++ ln :: after)
    (hid : w.heap ln.value = some o) (hone : o.refcount = 1)
    (content : Content) (handle : Option ℕ) :
    Keeps w { w.setObj ln.value (some { o with content }) with
      reply := before ++ { ln with handle } :: after } := by
  intro i o' hi howned
  have hle := (hw.object _ o hid).held_le
  have hne : i ≠ ln.value := by
    rintro rfl
    obtain rfl : o = o' := Option.some_inj.1 (hid.symm.trans hi)
    have hpos := held_pos (show ln ∈ w.reply by rw [hreply]; simp)
    omega
  refine ⟨o', ?_, rfl, ?_⟩
  · show (w.setObj ln.value _).heap i = _
    rw [heap_setObj_of_ne w hne, hi]
  · simp only [hreply, held_append, held_cons]

/-- The last node gets an object of its own, with the same string. -/
theorem Sound.dupLast (hw : Sound w) {init : List Node}
    (hreply : w.reply = init ++ [ln]) (hid : w.heap ln.value = some o)
    {content : Content} {s : Bytes} (hs : content.sds? = some s)
    (hlength : s.length < 2 ^ 31) :
    Sound { (w.createObject content).1.setObj ln.value o.released with
        reply := init ++ [⟨w.next, none⟩] } ∧
      Keeps w { (w.createObject content).1.setObj ln.value o.released with
        reply := init ++ [⟨w.next, none⟩] } ∧
      ∀ other ∈ init,
        ((w.createObject content).1.setObj ln.value o.released).text
          other.value = w.text other.value := by
  have hne := hw.ne_next hid
  have hid' : (w.createObject content).1.heap ln.value = some o := by
    rw [heap_createObject_of_ne w hne, hid]
  obtain ⟨hdeleted, hkeeps, htexts⟩ :=
    (hw.create (Content.length_lt hs hlength)).delNode hreply hid'
  rw [append_nil] at hdeleted hkeeps htexts
  have hnew : ((w.createObject content).1.setObj ln.value o.released).heap
      w.next = some ⟨content, 1⟩ := by
    rw [heap_setObj_of_ne _ hne.symm, heap_createObject_next]
  have hheld : held init w.next = 0 := by
    have hzero := hw.held_next
    rw [hreply, held_append] at hzero
    omega
  have hnode : (⟨w.next, none⟩ : Node).Sound
      ((w.createObject content).1.setObj ln.value o.released).heap
      ⟨content, 1⟩ :=
    ⟨hnew, fun _ => ⟨s, hs⟩, fun _ h => by cases h⟩
  refine ⟨hdeleted.push hnode ?_ fun _ h => (by cases h), ?_,
    fun other hother => (htexts other hother).trans (hw.text_create content
      (by rw [hreply]; exact mem_append_left _ hother))⟩
  · show held init w.next < 1
    omega
  intro i o' hi howned
  obtain ⟨o'', hi', hcontent, hcount⟩ :=
    (Keeps.create hw content).trans hkeeps i o' hi howned
  refine ⟨o'', hi', hcontent, ?_⟩
  show _ = _ + held (init ++ [_]) i
  rw [held_append, held_cons, if_neg (hw.ne_next hi).symm]
  exact hcount

end Operations

end RedisV8.Output
