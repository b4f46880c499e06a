import RedisV8.Networking.OutputObjects
import RedisV8.Lib.Holes

/-!
# The output stream

What a client was sent and what its buffers still hold is one text, with a
hole for every length that is not set yet.  Each reply function appends to
that text, setting a length fills its hole, and the write handler leaves the
text as it is.
-/

namespace RedisV8.Output

open Util Server Holes World List Option

variable {node : Node} {nodes : List Node} {id : ObjId} {buf s tail : Bytes}

abbrev Stream := List (Item UInt8 ℕ)

def chunk (text : ObjId → Bytes) (node : Node) : Stream :=
  node.handle.elim (solid (text node.value)) fun handle => [.hole handle]

def chunks (text : ObjId → Bytes) (nodes : List Node) : Stream :=
  nodes.flatMap (chunk text)

/-- The contents of both buffers. -/
def World.pending (w : World) : Stream :=
  solid w.buf ++ chunks w.text w.reply

/-- What was sent, and what is buffered and was not. -/
def World.stream (w : World) : Stream :=
  solid w.sent ++ w.pending.drop w.sentlen

/-- The text that `sentlen` counts in. -/
def frontText (text : ObjId → Bytes) : Bytes → List Node → Bytes
  | b :: buf, _ => b :: buf
  | [], node :: _ => node.handle.elim (text node.value) fun _ => []
  | [], [] => []

structure WF (w : World) : Prop where
  sound : Sound w
  front : w.sentlen ≤ (frontText w.text w.buf w.reply).length

section Chunks

variable {text text' : ObjId → Bytes}

@[simp]
theorem chunks_append (left right : List Node) :
    chunks text (left ++ right) = chunks text left ++ chunks text right :=
  flatMap_append

@[simp]
theorem chunks_cons (node : Node) (nodes : List Node) :
    chunks text (node :: nodes) = chunk text node ++ chunks text nodes :=
  flatMap_cons

@[simp]
theorem chunks_nil : chunks text [] = [] := rfl

theorem chunk_text (hhandle : node.handle = none) :
    chunk text node = solid (text node.value) := by
  rw [chunk, hhandle]
  rfl

theorem chunk_deferred {handle : ℕ} (hhandle : node.handle = some handle) :
    chunk text node = [.hole handle] := by
  rw [chunk, hhandle]
  rfl

theorem chunks_congr
    (hsame : ∀ node ∈ nodes, text' node.value = text node.value) :
    chunks text' nodes = chunks text nodes := by
  refine flatMap_congr fun node hnode => ?_
  rw [chunk, chunk, hsame node hnode]

theorem labels_chunks (nodes : List Node) :
    labels (chunks text nodes) = nodes.filterMap Node.handle := by
  induction nodes with
  | nil => rfl
  | cons node nodes ih =>
    rw [chunks_cons, labels_append, ih, filterMap_cons]
    cases hhandle : node.handle with
    | none =>
      rw [chunk_text hhandle, labels_solid]
      rfl
    | some handle =>
      rw [chunk_deferred hhandle]
      rfl

end Chunks

section Fronts

variable {text text' : ObjId → Bytes}

/-- The front is the beginning of the buffers. -/
theorem exists_rest (text : ObjId → Bytes) (buf : Bytes)
    (nodes : List Node) :
    ∃ rest, solid buf ++ chunks text nodes =
      solid (frontText text buf nodes) ++ rest := by
  cases buf with
  | cons b buf => exact ⟨_, rfl⟩
  | nil =>
    cases nodes with
    | nil => exact ⟨[], rfl⟩
    | cons node nodes =>
      cases hhandle : node.handle with
      | none =>
        refine ⟨chunks text nodes, ?_⟩
        rw [frontText, hhandle, chunks_cons, chunk_text hhandle]
        rfl
      | some handle =>
        refine ⟨chunks text (node :: nodes), ?_⟩
        rw [frontText, hhandle]
        rfl

/-- A list that keeps what stands before a node, whose string gets no
shorter, keeps its front. -/
theorem front_replace {before after after' : List Node} {ln ln' : Node}
    (hsame : ∀ node ∈ before, text' node.value = text node.value)
    (hln : ln.handle = none → ln'.handle = none ∧
      (text ln.value).length ≤ (text' ln'.value).length) :
    (frontText text buf (before ++ ln :: after)).length ≤
      (frontText text' buf (before ++ ln' :: after')).length := by
  cases buf with
  | cons b buf => exact le_rfl
  | nil =>
    cases before with
    | nil =>
      rw [nil_append, nil_append, frontText, frontText]
      cases hhandle : ln.handle with
      | none =>
        obtain ⟨hhandle', hlength⟩ := hln hhandle
        rw [hhandle']
        exact hlength
      | some handle => exact Nat.zero_le _
    | cons node before =>
      rw [cons_append, cons_append, frontText, frontText,
        hsame node mem_cons_self]

theorem front_append (more : List Node)
    (hsame : ∀ node ∈ nodes, text' node.value = text node.value) :
    (frontText text buf nodes).length ≤
      (frontText text' buf (nodes ++ more)).length := by
  cases buf with
  | cons b buf => exact le_rfl
  | nil =>
    cases nodes with
    | nil => exact Nat.zero_le _
    | cons node nodes =>
      rw [cons_append, frontText, frontText, hsame node mem_cons_self]

end Fronts

section Streams

variable {w : World} {heap : ObjId → Option Obj} {next : ObjId}
  {reply : List Node}

theorem WF.sentlen_le (hw : WF w) : w.sentlen ≤ w.pending.length := by
  obtain ⟨rest, hrest⟩ := exists_rest w.text w.buf w.reply
  rw [pending, hrest, length_append, length_solid]
  exact hw.front.trans (Nat.le_add_right _ _)

/-- Buffers that grow at the end. -/
theorem stream_append (hw : WF w) {s : Stream}
    (hpending : ({ w with heap, next, buf, reply } : World).pending =
      w.pending ++ s) :
    ({ w with heap, next, buf, reply } : World).stream = w.stream ++ s := by
  rw [stream, stream, hpending, drop_append_of_le_length hw.sentlen_le,
    append_assoc]

/-- Filling a hole does not touch what was sent. -/
theorem stream_fill (hw : WF w) {handle : ℕ} {header : Bytes}
    (hpending : ({ w with heap, next, reply } : World).pending =
      fill handle header w.pending) :
    ({ w with heap, next, reply } : World).stream =
      fill handle header w.stream := by
  obtain ⟨rest, hrest⟩ := exists_rest w.text w.buf w.reply
  have hfront := hw.front
  have hdrop : ∀ t : Stream,
      (solid (frontText w.text w.buf w.reply) ++ t).drop w.sentlen =
        solid ((frontText w.text w.buf w.reply).drop w.sentlen) ++ t := by
    intro t
    rw [drop_append_of_le_length (by rwa [length_solid]), solid_drop]
  rw [stream, stream, hpending, pending, hrest, fill_append, fill_solid, hdrop, hdrop, fill_append, fill_append,
    fill_solid, fill_solid]

/-- The holes are the nodes whose length is not set. -/
theorem WF.labels_stream (hw : WF w) :
    labels w.stream = w.reply.filterMap Node.handle := by
  obtain ⟨rest, hrest⟩ := exists_rest w.text w.buf w.reply
  have hlabels : labels rest = w.reply.filterMap Node.handle := by
    rw [← labels_chunks, ← nil_append (labels (chunks _ _)),
      ← labels_solid w.buf, ← labels_append, hrest, labels_append,
      labels_solid, nil_append]
  rw [stream, pending, hrest,
    drop_append_of_le_length (by rw [length_solid]; exact hw.front),
    ← solid_drop, labels_append, labels_append, labels_solid, labels_solid,
    hlabels]
  rfl

/-- The same buffers, with the same strings in their objects. -/
theorem WF.same (hw : WF w)
    (hsound : Sound { w with heap, next })
    (hsame : ∀ node ∈ w.reply,
      ({ w with heap, next } : World).text node.value = w.text node.value) :
    WF { w with heap, next } ∧
      ({ w with heap, next } : World).stream = w.stream := by
  have hfront : w.sentlen ≤ (frontText _ w.buf (w.reply ++ [])).length :=
    hw.front.trans (front_append [] hsame)
  rw [append_nil] at hfront
  refine ⟨⟨hsound, hfront⟩, ?_⟩
  show solid w.sent ++ (solid w.buf ++ chunks _ w.reply).drop w.sentlen = _
  rw [chunks_congr hsame]
  rfl

end Streams

/-- A call that adds a text to the stream. -/
structure Adds (w w' : World) (s : Stream) : Prop where
  wf : WF w'
  keeps : Keeps w w'
  stream : w'.stream = w.stream ++ s

theorem Adds.trans {w₁ w₂ w₃ : World} {s t : Stream} (h₁₂ : Adds w₁ w₂ s)
    (h₂₃ : Adds w₂ w₃ t) : Adds w₁ w₃ (s ++ t) where
  wf := h₂₃.wf
  keeps := h₁₂.keeps.trans h₂₃.keeps
  stream := by rw [h₂₃.stream, h₁₂.stream, append_assoc]

section Pushing

variable {w : World}

/-- A node, in a heap with the same strings. -/
theorem WF.pushNode (hw : WF w) {heap : ObjId → Option Obj} {next : ObjId}
    (hsame : ∀ node ∈ w.reply,
      ({ w with heap, next } : World).text node.value = w.text node.value)
    (hsound : Sound (listAddNodeTail { w with heap, next } node))
    (hkeeps : Keeps w (listAddNodeTail { w with heap, next } node)) :
    Adds w (listAddNodeTail { w with heap, next } node)
      (chunk ({ w with heap, next } : World).text node) := by
  refine ⟨⟨hsound, hw.front.trans (front_append _ hsame)⟩, hkeeps,
    stream_append hw ?_⟩
  show solid w.buf ++ chunks ({ w with heap, next } : World).text
    (w.reply ++ [_]) = _
  rw [chunks_append, chunks_congr hsame, chunks_cons, chunks_nil, append_nil,
    ← append_assoc]
  rfl

/-- A node with a new object. -/
theorem WF.pushNew (hw : WF w) (content : Content) (handle : Option ℕ)
    (hlength : ∀ s, content.sds? = some s → s.length < 2 ^ 31)
    (htext : handle = none → ∃ s, content.sds? = some s)
    (hdeferred : ∀ h, handle = some h → content = .null ∧ h ∉ labels w.stream) :
    Adds w ((w.createObject content).1.listAddNodeTail ⟨w.next, handle⟩)
      (handle.elim (solid (content.sds?.getD [])) fun h => [.hole h]) := by
  have hnode : (⟨w.next, handle⟩ : Node).Sound
      (w.createObject content).1.heap ⟨content, 1⟩ :=
    ⟨heap_createObject_next w content, htext, fun h hh => (hdeferred h hh).1⟩
  have htext : (w.createObject content).1.text w.next =
      content.sds?.getD [] := by
    rw [text, heap_createObject_next]
    rfl
  rw [← htext]
  refine hw.pushNode (fun node hmem => hw.sound.text_create content hmem)
    ((hw.sound.create hlength).push hnode ?_ ?_)
    (Keeps.pushNew hw.sound content handle)
  · show held w.reply w.next < 1
    rw [hw.sound.held_next]
    exact Nat.one_pos
  · intro h hh other hother heq
    refine (hdeferred h hh).2 ?_
    rw [hw.labels_stream]
    exact mem_filterMap.2 ⟨other, hother, heq⟩

/-- A node with an object that its owner keeps. -/
theorem WF.pushShared (hw : WF w) {o : Obj} (hid : w.heap id = some o)
    (hs : o.content.sds? = some s) :
    Adds w ((w.setObj id
      (some { o with refcount := o.refcount + 1 })).listAddNodeTail ⟨id, none⟩)
      (solid s) := by
  have hnull : o.content ≠ .null := by
    intro h
    rw [h] at hs
    cases hs
  have hle := (hw.sound.object id o hid).held_le
  have hnode : (⟨id, none⟩ : Node).Sound
      (w.setObj id (some { o with refcount := o.refcount + 1 })).heap
      { o with refcount := o.refcount + 1 } :=
    ⟨heap_setObj_self w _ _, fun _ => ⟨s, hs⟩, fun _ h => by cases h⟩
  have hsame := text_setCount hid (o.refcount + 1)
  have hpush := hw.pushNode (fun node _ => hsame node.value)
    ((hw.sound.incr hid hnull).push hnode (Nat.lt_succ_of_le hle)
      fun _ h => (by cases h)) (Keeps.pushShared hid)
  rw [chunk_text rfl] at hpush
  rwa [← text_of_sds hid hs, ← hsame]

end Pushing

section Appending

variable {w : World} {init : List Node} {ln : Node} {o : Obj}

/-- The last object takes a text in place. -/
theorem WF.refillTail (hw : WF w) (hreply : w.reply = init ++ [ln])
    (hhandle : ln.handle = none) (hid : w.heap ln.value = some o)
    (htail : o.content = .raw tail) (hone : o.refcount = 1)
    (hlength : (tail ++ s).length < 2 ^ 31) :
    Adds w (w.setObj ln.value (some { o with content := .raw (tail ++ s) }))
      (solid s) := by
  obtain ⟨hbefore, -, hsound⟩ := hw.sound.refill hreply hid hone hlength
  have hkeeps := Keeps.refill hw.sound hreply hid hone (.raw (tail ++ s)) none
  have hln : ({ ln with handle := none } : Node) = ln := by
    rw [← hhandle]
  rw [hln, ← hreply] at hsound hkeeps
  have hsame : ∀ node ∈ init,
      (w.setObj ln.value (some { o with content := .raw (tail ++ s) })).text
        node.value = w.text node.value := fun node hnode =>
    text_setObj_of_ne w (value_ne_of_held hbefore node hnode) _
  have hold : w.text ln.value = tail := text_of_sds hid (by rw [htail]; rfl)
  have hnew : (w.setObj ln.value
      (some { o with content := .raw (tail ++ s) })).text ln.value =
        tail ++ s :=
    text_of_sds (heap_setObj_self w _ _) rfl
  refine ⟨⟨hsound, hw.front.trans ?_⟩, hkeeps, stream_append hw ?_⟩
  · show _ ≤ (frontText _ w.buf w.reply).length
    rw [hreply]
    refine front_replace hsame fun h => ⟨h, ?_⟩
    rw [hold, hnew, length_append]
    exact Nat.le_add_right _ _
  show solid w.buf ++ chunks (w.setObj ln.value _).text w.reply =
    solid w.buf ++ _ ++ _
  rw [hreply, chunks_append, chunks_append, chunks_congr hsame, chunks_cons,
    chunks_cons, chunk_text hhandle, chunk_text hhandle, hold, hnew,
    solid_append]
  simp only [chunks_nil, append_nil, append_assoc]

/-- The last node gets a copy of its object. -/
theorem WF.dupTail (hw : WF w) (hreply : w.reply = init ++ [ln])
    (hhandle : ln.handle = none) (hid : w.heap ln.value = some o)
    (htail : o.content = .raw tail) :
    Adds w { (w.createObject (.raw tail)).1.setObj ln.value o.released with
      reply := init ++ [⟨w.next, none⟩] } [] := by
  have hlength : tail.length < 2 ^ 31 :=
    (hw.sound.object _ o hid).length tail (by rw [htail]; rfl)
  obtain ⟨hsound, hkeeps, hsame⟩ := hw.sound.dupLast hreply hid
    (show (Content.raw tail).sds? = some tail from rfl) hlength
  have hnew : ((w.createObject (.raw tail)).1.setObj ln.value o.released).text
      w.next = tail :=
    text_of_sds (by rw [heap_setObj_of_ne _ (hw.sound.ne_next hid).symm,
      heap_createObject_next]) rfl
  have hold : w.text ln.value = tail := text_of_sds hid (by rw [htail]; rfl)
  refine ⟨⟨hsound, hw.front.trans ?_⟩, hkeeps, stream_append hw ?_⟩
  · rw [hreply]
    refine front_replace hsame fun _ => ⟨rfl, ?_⟩
    rw [hold]
    exact (congrArg length hnew).ge
  show solid w.buf ++ chunks
    ((w.createObject (.raw tail)).1.setObj ln.value o.released).text
    (init ++ [_]) = solid w.buf ++ chunks w.text w.reply ++ []
  rw [hreply, chunks_append, chunks_append, chunks_congr hsame, chunks_cons,
    chunks_cons, chunk_text rfl, chunk_text hhandle, hold, hnew, append_nil]
  rfl

/-- The last node holds a raw string. -/
theorem Sound.of_rawTail (hw : Sound w) (htail : w.rawTail = some tail) :
    ∃ init ln o, w.reply = init ++ [ln] ∧ ln.handle = none ∧
      w.heap ln.value = some o ∧ o.content = .raw tail := by
  rw [rawTail] at htail
  obtain ⟨ln, hlast, htail⟩ := bind_eq_some_iff.1 htail
  obtain ⟨o, hid, htail⟩ := bind_eq_some_iff.1 htail
  obtain ⟨init, hreply⟩ := List.getLast?_eq_some_iff.1 hlast
  have hcontent : o.content = .raw tail := by
    cases hcontent : o.content with
    | raw s =>
      rw [hcontent] at htail
      cases htail
      rfl
    | null | embstr s | int value =>
      rw [hcontent] at htail
      cases htail
  refine ⟨init, ln, o, hreply, ?_, hid, hcontent⟩
  obtain ⟨o', ho'⟩ := hw.node ln (by rw [hreply]; simp)
  cases hhandle : ln.handle with
  | none => rfl
  | some handle =>
    obtain rfl : o = o' := some_inj.1 (hid.symm.trans ho'.live)
    rw [ho'.deferred handle hhandle] at hcontent
    cases hcontent

theorem rawTail_eq (hreply : w.reply = init ++ [ln])
    (hid : w.heap ln.value = some o) (htail : o.content = .raw tail) :
    w.rawTail = some tail := by
  rw [rawTail, hreply, List.getLast?_concat, some_bind, hid, some_bind, htail]

/-- `dupLastObjectIfNeeded` leaves a string that only the list holds. -/
theorem WF.dupLastObjectIfNeeded (hw : WF w) (htail : w.rawTail = some tail) :
    ∃ w' init ln o, w.dupLastObjectIfNeeded = some (w', ln.value) ∧
      Adds w w' [] ∧ w'.reply = init ++ [ln] ∧ ln.handle = none ∧
      w'.heap ln.value = some o ∧ o.content = .raw tail ∧ o.refcount = 1 := by
  obtain ⟨init, ln, o, hreply, hhandle, hid, hcontent⟩ :=
    hw.sound.of_rawTail htail
  have hold := hw.sound.object _ o hid
  have hpos := hold.pos
  rw [World.dupLastObjectIfNeeded, hreply, List.getLast?_concat,
    some_bind, hid, some_bind]
  by_cases hmany : 1 < o.refcount
  · have hraw : w.dupStringObject o.content =
        some (w.createObject (.raw tail)) := by
      rw [hcontent, dupStringObject, createRawStringObject, sdsnewlen,
        if_pos (hold.length tail (by rw [hcontent]; rfl))]
      rfl
    have hdecr : (w.createObject (.raw tail)).1.decrRefCount ln.value =
        some ((w.createObject (.raw tail)).1.setObj ln.value o.released) :=
      decrRefCount_eq (by
        rw [heap_createObject_of_ne w (hw.sound.ne_next hid), hid]) hpos
    have hdrop : ((w.createObject (.raw tail)).1.setObj ln.value
        o.released).reply.dropLast = init := by
      show w.reply.dropLast = init
      rw [hreply, dropLast_concat]
    refine ⟨_, init, ⟨w.next, none⟩, ⟨.raw tail, 1⟩, ?_,
      hw.dupTail hreply hhandle hid hcontent, rfl, rfl, ?_, rfl, rfl⟩
    · rw [if_pos hmany, hraw, some_bind]
      simp only [hdecr, some_bind, hdrop, hhandle]
      rfl
    show ((w.createObject (.raw tail)).1.setObj ln.value o.released).heap
      w.next = _
    rw [heap_setObj_of_ne _ (hw.sound.ne_next hid).symm, heap_createObject_next]
  · rw [if_neg hmany]
    refine ⟨w, init, ln, o, rfl, ⟨hw, Keeps.refl w, ?_⟩, hreply, hhandle, hid,
      hcontent, by omega⟩
    rw [append_nil]

theorem WF.appendToTail (hw : WF w) (htakes : w.tailTakes s = true) :
    ∃ w', w.appendToTail s = some w' ∧ Adds w w' (solid s) := by
  rw [tailTakes] at htakes
  cases htail : w.rawTail with
  | none =>
    rw [htail] at htakes
    cases htakes
  | some tail =>
    rw [htail, any_some, decide_eq_true_eq, replyChunkBytes] at htakes
    have hlength : tail.length + s.length < 2 ^ 31 := by omega
    obtain ⟨w', init, ln, o, hdup, hadds, hreply, hhandle, hid, hcontent,
      hone⟩ := hw.dupLastObjectIfNeeded htail
    have happend := hadds.wf.refillTail hreply hhandle hid hcontent hone
      (show (tail ++ s).length < 2 ^ 31 by rwa [length_append])
    refine ⟨_, ?_, hadds.trans happend⟩
    rw [World.appendToTail, hdup, some_bind]
    simp only [rawTail_eq hreply hid hcontent, some_bind,
      sdscatSized, if_pos hlength, hid]

end Appending

end RedisV8.Output
