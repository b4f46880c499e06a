import RedisV8.Networking.OutputCalls

/-!
# Deferred lengths and writes

Setting a deferred length fills its hole, wherever its node stands and
whether or not the next object is glued to it.  The write handler moves the
boundary between what was sent and what is buffered, and nothing else.
-/

namespace RedisV8.Output

open Util Server Holes World List Option

variable {nodes : List Node} {node : Node} {o : Obj}

section Deferred

variable {w : World} {before after : List Node} {ln : Node} {handle : ℕ}

theorem addDeferredMultiBulkLength_spec {c : Peer} (hw : WF w) (hc : c.Takes)
    (hnew : handle ∉ labels w.stream) :
    Adds w (addDeferredMultiBulkLength c w handle) [.hole handle] := by
  rw [addDeferredMultiBulkLength, if_pos (hc.prepareClientToWrite w)]
  refine hw.pushNew .null (some handle) ?_ ?_ ?_
  · exact fun _ h => by cases h
  · exact fun h => by cases h
  · intro h hh
    cases hh
    exact ⟨rfl, hnew⟩

theorem splitAtHandle_spec (hmem : handle ∈ nodes.filterMap Node.handle) :
    ∃ before ln after, splitAtHandle handle nodes = some (before, ln, after) ∧
      nodes = before ++ ln :: after ∧ ln.handle = some handle := by
  induction nodes with
  | nil => cases hmem
  | cons node nodes ih =>
    rw [splitAtHandle]
    by_cases hnode : node.handle = some handle
    · rw [if_pos hnode]
      exact ⟨[], node, nodes, rfl, rfl, hnode⟩
    have hrest : handle ∈ nodes.filterMap Node.handle := by
      obtain ⟨other, hother, heq⟩ := mem_filterMap.1 hmem
      rcases mem_cons.1 hother with rfl | hother
      · exact absurd heq hnode
      · exact mem_filterMap.2 ⟨other, hother, heq⟩
    obtain ⟨before, ln, after, hsplit, hnodes, hln⟩ := ih hrest
    rw [if_neg hnode, hsplit]
    exact ⟨node :: before, ln, after, rfl, by rw [hnodes]; rfl, hln⟩

theorem length_frontText_le (text : ObjId → Bytes) (buf : Bytes)
    (before after : List Node) (hln : ln.handle = some handle) :
    (frontText text buf (before ++ ln :: after)).length ≤
      (solid buf ++ chunks text before).length := by
  rw [length_append, length_solid]
  cases buf with
  | cons b buf => exact Nat.le_add_right _ _
  | nil =>
    cases before with
    | nil =>
      rw [nil_append, frontText, hln]
      exact Nat.zero_le _
    | cons node before =>
      rw [cons_append, frontText, chunks_cons, length_append]
      cases hhandle : node.handle with
      | none =>
        rw [chunk_text hhandle, length_solid]
        show (text node.value).length ≤ _
        omega
      | some h => exact Nat.zero_le _

section Hole

variable (hreply : w.reply = before ++ ln :: after)
  (hln : ln.handle = some handle)

include hreply hln

/-- A handle stands for one node. -/
theorem Sound.handle_notMem (hw : Sound w) :
    handle ∉ before.filterMap Node.handle ∧
      handle ∉ after.filterMap Node.handle := by
  have hnodup := hw.handles
  rw [hreply, filterMap_append, filterMap_cons, hln, nodup_append] at hnodup
  exact ⟨fun hmem => hnodup.2.2 handle hmem handle mem_cons_self rfl,
    (nodup_cons.1 hnodup.2.1).1⟩

/-- The stream around a hole. -/
theorem WF.stream_eq (hw : WF w) :
    ∃ pre, handle ∉ labels pre ∧
      w.stream = pre ++ .hole handle :: chunks w.text after := by
  have hsentlen := hw.front
  rw [hreply] at hsentlen
  have hle := hsentlen.trans
    (length_frontText_le w.text w.buf before after hln)
  refine ⟨solid w.sent ++ (solid w.buf ++ chunks w.text before).drop w.sentlen,
    ?_, ?_⟩
  · rw [labels_append, labels_solid, nil_append]
    intro hmem
    have hsub := (drop_sublist w.sentlen
      (solid w.buf ++ chunks w.text before)).filterMap
        (Item.label? : Item UInt8 ℕ → Option ℕ)
    have hmem' := hsub.subset hmem
    rw [← labels, labels_append, labels_solid, nil_append,
      labels_chunks] at hmem'
    exact (hw.sound.handle_notMem hreply hln).1 hmem'
  · rw [World.stream, World.pending, hreply, chunks_append, chunks_cons,
      chunk_deferred hln, ← append_assoc (solid w.buf),
      drop_append_of_le_length hle, append_assoc (solid w.sent)]
    rfl

/-- The length object is the list's own. -/
theorem Sound.deferred (hw : Sound w) :
    ∃ len, w.heap ln.value = some len ∧ len.refcount = 1 := by
  obtain ⟨len, hlen⟩ := hw.node ln (by rw [hreply]; simp)
  exact ⟨len, hlen.live, (hw.object _ len hlen.live).null
    (hlen.deferred handle hln)⟩

/-- What a fill leaves of the other nodes. -/
theorem fill_chunks (hw : Sound w) (header : Bytes) :
    fill handle header w.pending =
      solid w.buf ++ chunks w.text before ++ solid header ++
        chunks w.text after := by
  obtain ⟨hbefore, hafter⟩ := hw.handle_notMem hreply hln
  rw [← @labels_chunks w.text] at hbefore hafter
  rw [World.pending, hreply, chunks_append, chunks_cons, chunk_deferred hln,
    fill_append, fill_append, fill_append, fill_solid, fill_hole,
    fill_of_not_mem hbefore, fill_of_not_mem hafter]
  simp only [append_assoc]

/-- The length object gets its string. -/
theorem WF.setText (hw : WF w) {len : Obj}
    (hlen : w.heap ln.value = some len) (hone : len.refcount = 1)
    {s : Bytes} (hs : s.length < 2 ^ 31) :
    WF { w.setObj ln.value (some { len with content := .raw s }) with
        reply := before ++ { ln with handle := none } :: after } ∧
      Keeps w { w.setObj ln.value (some { len with content := .raw s }) with
        reply := before ++ { ln with handle := none } :: after } ∧
      ∀ rest, (∀ node ∈ rest, node ∈ after) →
        chunks (w.setObj ln.value (some { len with content := .raw s })).text
            (before ++ { ln with handle := none } :: rest) =
          chunks w.text before ++ solid s ++ chunks w.text rest := by
  obtain ⟨hbefore, hafter, hsound⟩ := hw.sound.refill hreply hlen hone hs
  have hsame : ∀ nodes, held nodes ln.value = 0 → ∀ node ∈ nodes,
      (w.setObj ln.value (some { len with content := .raw s })).text
        node.value = w.text node.value := fun nodes hheld node hnode =>
    text_setObj_of_ne w (value_ne_of_held hheld node hnode) _
  refine ⟨⟨hsound, hw.front.trans ?_⟩,
    Keeps.refill hw.sound hreply hlen hone _ none, ?_⟩
  · rw [hreply]
    refine front_replace (hsame before hbefore) fun h => ?_
    rw [hln] at h
    cases h
  · intro rest hrest
    rw [chunks_append, chunks_congr (hsame before hbefore), chunks_cons,
      chunks_congr fun node hnode => hsame after hafter node (hrest node hnode),
      chunk_text rfl,
      text_of_sds (heap_setObj_self w ln.value _) rfl, append_assoc]

end Hole

/-- A node that is not the first one is deleted. -/
theorem WF.delNext (hw : WF w)
    (hreply : w.reply = before ++ ln :: node :: after)
    (hid : w.heap node.value = some o) :
    WF { w.setObj node.value o.released with
        reply := before ++ ln :: after } ∧
      Keeps w { w.setObj node.value o.released with
        reply := before ++ ln :: after } ∧
      chunks (w.setObj node.value o.released).text (before ++ ln :: after) =
        chunks w.text (before ++ ln :: after) := by
  have hsplit : w.reply = (before ++ [ln]) ++ node :: after := by
    rw [hreply, append_assoc]
    rfl
  have hlist : (before ++ [ln]) ++ after = before ++ ln :: after := by
    rw [append_assoc]
    rfl
  obtain ⟨hsound, hkeeps, hsame⟩ := hw.sound.delNode hsplit hid
  rw [hlist] at hsound hkeeps hsame
  refine ⟨⟨hsound, hw.front.trans ?_⟩, hkeeps, chunks_congr hsame⟩
  rw [hreply]
  refine front_replace (fun first hfirst => hsame first ?_) fun h => ⟨h, ?_⟩
  · exact mem_append_left _ hfirst
  · exact (congrArg length (hsame ln (by simp))).ge

/-- Only a node without a length is not glued. -/
theorem gluedNext_spec (hw : Sound w)
    (hafter : ∀ node ∈ after, node ∈ w.reply) :
    gluedNext w after = some none ∨
      ∃ next rest o s, after = next :: rest ∧ next.handle = none ∧
        w.heap next.value = some o ∧ o.content.sds? = some s ∧
        gluedNext w after = some (some s) := by
  cases after with
  | nil => exact .inl rfl
  | cons next rest =>
    obtain ⟨o, ho⟩ := hw.node next (hafter next mem_cons_self)
    rw [gluedNext, head?_cons]
    simp only [ho.live, some_bind]
    cases hhandle : next.handle with
    | some h =>
      rw [ho.deferred h hhandle]
      exact .inl rfl
    | none =>
      obtain ⟨s, hs⟩ := ho.text hhandle
      refine .inr ⟨next, rest, o, s, rfl, hhandle, ho.live, hs, ?_⟩
      cases hcontent : o.content with
      | null | int value =>
        rw [hcontent] at hs
        cases hs
      | raw t | embstr t =>
        rw [hcontent] at hs
        cases hs
        rfl

theorem setDeferredMultiBulkLength_spec (hw : WF w)
    (hopen : handle ∈ labels w.stream) (length : ℤ)
    (hfits : (Reply.line '*' (llText length)).length +
      (afterHole handle w.stream).length < 2 ^ 31) :
    ∃ w', setDeferredMultiBulkLength w handle length = some w' ∧ WF w' ∧
      Keeps w w' ∧
      w'.stream = fill handle (Reply.line '*' (llText length)) w.stream := by
  rw [hw.labels_stream] at hopen
  obtain ⟨before, ln, after, hsplit, hreply, hln⟩ := splitAtHandle_spec hopen
  obtain ⟨len, hlen, hone⟩ := hw.sound.deferred hreply hln
  obtain ⟨pre, hpre, hstream⟩ := hw.stream_eq hreply hln
  rw [hstream, afterHole_append hpre] at hfits
  have hfill := fill_chunks hreply hln hw.sound (Reply.line '*' (llText length))
  rw [setDeferredMultiBulkLength, hsplit]
  simp only [hlen, bind_eq_bind, bind_some]
  generalize Reply.line '*' (llText length) = header at hfits hfill ⊢
  obtain hnone | ⟨next, rest, o, s, rfl, hnext, hid, hs, hglued⟩ :=
    gluedNext_spec hw.sound fun node hnode => by
      rw [hreply]
      exact mem_append_right _ (mem_cons_of_mem _ hnode)
  · rw [hnone, bind_some, glue]
    obtain ⟨hwf, hkeeps, hchunks⟩ := hw.setText hreply hln hlen hone
      (show header.length < 2 ^ 31 by omega)
    refine ⟨_, rfl, hwf, hkeeps, stream_fill hw ?_⟩
    show solid w.buf ++ chunks (w.setObj ln.value _).text _ = _
    rw [hchunks after fun _ h => h, hfill]
    simp only [append_assoc]
  rw [chunks_cons, chunk_text hnext, text_of_sds hid hs,
    upToHole_solid_append, length_append] at hfits
  have hcat : sdscatSized header s = some (header ++ s) := by
    rw [sdscatSized, if_pos (by omega)]
  have hlength : (header ++ s).length < 2 ^ 31 := by
    rw [length_append]
    omega
  obtain ⟨hwf, hkeeps, hchunks⟩ := hw.setText hreply hln hlen hone hlength
  have hne : next.value ≠ ln.value :=
    value_ne_of_held (hw.sound.refill hreply hlen hone hlength).2.1 next
      mem_cons_self
  have hid' : (w.setObj ln.value
      (some { len with content := .raw (header ++ s) })).heap next.value =
        some o := by
    rw [heap_setObj_of_ne w hne, hid]
  obtain ⟨hwf', hkeeps', hchunks'⟩ := hwf.delNext rfl hid'
  refine ⟨_, ?_, hwf', hkeeps.trans hkeeps', stream_fill hw ?_⟩
  · rw [hglued, bind_some, glue, hcat, bind_eq_bind, bind_some,
      head?_cons, bind_eq_bind, bind_some,
      decrRefCount_eq hid' (hw.sound.object _ o hid).pos,
      bind_eq_bind, bind_some]
    rfl
  refine (congrArg (solid w.buf ++ ·) hchunks').trans ?_
  show solid w.buf ++ chunks (w.setObj ln.value _).text _ = _
  rw [hchunks rest fun _ h => mem_cons_of_mem next h, hfill,
    chunks_cons, chunk_text hnext, text_of_sds hid hs, solid_append]
  simp only [append_assoc]

end Deferred

section Writes

variable {w : World}

theorem Adds.refl (hw : WF w) : Adds w w [] :=
  ⟨hw, Keeps.refl w, (append_nil _).symm⟩

/-- The first node is deleted. -/
theorem Sound.delFirst (hw : Sound w) (hreply : w.reply = node :: nodes)
    (hid : w.heap node.value = some o) :
    Sound { w.setObj node.value o.released with reply := nodes } ∧
      Keeps w { w.setObj node.value o.released with reply := nodes } ∧
      chunks (w.setObj node.value o.released).text nodes =
        chunks w.text nodes := by
  have hsplit : w.reply = [] ++ node :: nodes := hreply
  obtain ⟨hsound, hkeeps, hsame⟩ := hw.delNode hsplit hid
  exact ⟨hsound, hkeeps, chunks_congr hsame⟩

theorem discardEmpty_spec (hw : WF w) (hreply : w.reply = nodes)
    (hbuf : w.buf = []) (hsolid : ∀ node ∈ nodes, node.handle = none) :
    ∃ w', discardEmpty nodes w = some w' ∧ Adds w w' [] := by
  induction nodes generalizing w with
  | nil => exact ⟨w, rfl, Adds.refl hw⟩
  | cons node nodes ih =>
    have hhandle := hsolid node mem_cons_self
    obtain ⟨o, ho⟩ := hw.sound.node node (by rw [hreply]; simp)
    obtain ⟨s, hs⟩ := ho.text hhandle
    rw [discardEmpty, ho.live, some_bind, hs, some_bind]
    split_ifs with hempty
    · subst hempty
      have htext : w.text node.value = [] := text_of_sds ho.live hs
      have hsentlen : w.sentlen = 0 := by
        have hfront := hw.front
        rw [hbuf, hreply, frontText, hhandle] at hfront
        exact Nat.le_zero.1 (hfront.trans_eq (congrArg length htext))
      obtain ⟨hsound, hkeeps, hchunks⟩ := hw.sound.delFirst hreply ho.live
      have hdel : Adds w { w.setObj node.value o.released with
          reply := nodes } [] := by
        refine ⟨⟨hsound, ?_⟩, hkeeps, stream_append hw ?_⟩
        · exact hsentlen.trans_le (Nat.zero_le _)
        show solid w.buf ++ chunks (w.setObj node.value _).text nodes =
          solid w.buf ++ chunks w.text w.reply ++ []
        rw [hchunks, hreply, chunks_cons, chunk_text hhandle, htext, append_nil]
        rfl
      obtain ⟨w', hrest, hadds⟩ := ih hdel.wf rfl hbuf
        fun other hother => hsolid other (mem_cons_of_mem node hother)
      refine ⟨w', ?_, hdel.trans hadds⟩
      rw [decrRefCount_eq ho.live (hw.sound.object _ o ho.live).pos, some_bind]
      exact hrest
    · exact ⟨w, rfl, Adds.refl hw⟩

theorem handle_eq_none (hw : WF w) (hsolid : labels w.stream = []) :
    ∀ node ∈ w.reply, node.handle = none := by
  intro node hnode
  rw [hw.labels_stream] at hsolid
  cases hhandle : node.handle with
  | none => rfl
  | some handle =>
    have hmem : handle ∈ w.reply.filterMap Node.handle :=
      mem_filterMap.2 ⟨node, hnode, hhandle⟩
    rw [hsolid] at hmem
    cases hmem

theorem skipEmpty_spec (hw : WF w) (hsolid : labels w.stream = []) :
    ∃ w', skipEmpty w = some w' ∧ Adds w w' [] := by
  rw [skipEmpty]
  split_ifs with hbuf
  · exact ⟨w, rfl, Adds.refl hw⟩
  · exact discardEmpty_spec hw rfl (not_not.1 hbuf) (handle_eq_none hw hsolid)

/-- Bytes that were sent are no longer pending. -/
theorem stream_sent {front : Bytes} {rest : Stream} {n : ℕ}
    (hpending : w.pending = solid front ++ rest)
    (hn : w.sentlen + n ≤ front.length) :
    solid (w.sent ++ (front.drop w.sentlen).take n) ++
      w.pending.drop (w.sentlen + n) = w.stream := by
  rw [World.stream, hpending,
    drop_append_of_le_length (by rw [length_solid]; omega),
    drop_append_of_le_length (by rw [length_solid]; omega), ← solid_drop,
    ← solid_drop, ← drop_drop, solid_append, append_assoc,
    ← append_assoc (solid (take n _)), ← solid_append, take_append_drop]

/-- Some bytes of the buffer. -/
theorem sentFromBuf_spec (hw : WF w) (hbuf : w.buf ≠ []) {n : ℕ}
    (hn : n ≤ w.buf.length - w.sentlen) : Adds w (sentFromBuf w n) [] := by
  have hle : w.sentlen ≤ w.buf.length := by
    have hfront := hw.front
    obtain ⟨b, buf, heq⟩ := exists_cons_of_ne_nil hbuf
    rwa [heq] at hfront ⊢
  have hpending : w.pending = solid w.buf ++ chunks w.text w.reply := rfl
  have hsent := stream_sent hpending
    (show w.sentlen + n ≤ w.buf.length by omega)
  rw [sentFromBuf]
  split_ifs with hall
  · refine ⟨⟨hw.sound.other _ _ _, Nat.zero_le _⟩, Keeps.refl w, ?_⟩
    rw [append_nil, ← hsent, hpending, hall, drop_left' (length_solid _)]
    rfl
  refine ⟨⟨hw.sound.other _ _ _, ?_⟩, Keeps.refl w, ?_⟩
  · show w.sentlen + n ≤ (frontText w.text w.buf w.reply).length
    obtain ⟨b, buf, heq⟩ := exists_cons_of_ne_nil hbuf
    rw [heq] at hle hn ⊢
    show _ ≤ (b :: buf).length
    omega
  · rw [append_nil, ← hsent]
    rfl

/-- The same for the first object. -/
theorem sentFromList_spec (hw : WF w) (hbuf : w.buf = [])
    (hreply : w.reply = node :: nodes) (hhandle : node.handle = none)
    (hid : w.heap node.value = some o) {s : Bytes}
    (hs : o.content.sds? = some s) {n : ℕ} (hn : n ≤ s.length - w.sentlen) :
    ∃ w', sentFromList w node nodes s n = some w' ∧ Adds w w' [] := by
  have htext : w.text node.value = s := text_of_sds hid hs
  have hfrontText : frontText w.text w.buf w.reply = s := by
    rw [hbuf, hreply, frontText, hhandle]
    exact htext
  have hle : w.sentlen ≤ s.length := by
    have hfront := hw.front
    rwa [hfrontText] at hfront
  have hpending : w.pending = solid s ++ chunks w.text nodes := by
    rw [World.pending, hbuf, hreply, chunks_cons, chunk_text hhandle, htext]
    rfl
  have hsent := stream_sent hpending
    (show w.sentlen + n ≤ s.length by omega)
  rw [sentFromList]
  split_ifs with hall
  · obtain ⟨hdeleted, hkeeps, hchunks⟩ := hw.sound.delFirst hreply hid
    refine ⟨{ w.setObj node.value o.released with
      sent := w.sent ++ (s.drop w.sentlen).take n, reply := nodes,
      sentlen := 0 }, ?_, ⟨hdeleted.other _ _ _, Nat.zero_le _⟩, hkeeps, ?_⟩
    · rw [decrRefCount_eq hid (hw.sound.object _ o hid).pos]
      rfl
    rw [append_nil, ← hsent, hpending, hall, drop_left' (length_solid _),
      ← hchunks]
    show solid _ ++ (solid w.buf ++ chunks _ nodes) = _
    rw [hbuf]
    rfl
  · refine ⟨_, rfl, ⟨hw.sound.other _ _ _, ?_⟩, Keeps.refl w, ?_⟩
    · show w.sentlen + n ≤ (frontText w.text w.buf w.reply).length
      rw [hfrontText]
      omega
    · rw [append_nil, ← hsent]
      rfl

theorem writeOnce_spec (hw : WF w) (hsolid : labels w.stream = [])
    (round : Round) :
    ∃ w' n, writeOnce w round = some (w', n) ∧ Adds w w' [] := by
  rw [writeOnce]
  by_cases hbuf : w.buf = []
  · rw [if_neg (not_not.2 hbuf)]
    cases hreply : w.reply with
    | nil => exact ⟨w, 0, rfl, Adds.refl hw⟩
    | cons node nodes =>
      have hmem : node ∈ w.reply := by
        rw [hreply]
        exact mem_cons_self
      have hhandle := handle_eq_none hw hsolid node hmem
      obtain ⟨o, ho⟩ := hw.sound.node node hmem
      obtain ⟨s, hs⟩ := ho.text hhandle
      simp only [ho.live, hs, some_bind]
      split_ifs with hzero
      · exact ⟨w, 0, rfl, Adds.refl hw⟩
      · obtain ⟨w', hsend, hadds⟩ := sentFromList_spec hw hbuf hreply hhandle
          ho.live hs (Nat.min_le_right round.taken _)
        exact ⟨w', _, by rw [hsend]; rfl, hadds⟩
  · rw [if_pos hbuf]
    refine ⟨_, _, rfl, ?_⟩
    split_ifs with hzero
    · exact Adds.refl hw
    · exact sentFromBuf_spec hw hbuf (Nat.min_le_right _ _)

theorem sendLoop_spec (hw : WF w) (hsolid : labels w.stream = [])
    (rounds : List Round) (totwritten : ℕ) :
    ∃ w', sendLoop rounds totwritten w = some w' ∧ Adds w w' [] := by
  induction rounds generalizing w totwritten with
  | nil => exact skipEmpty_spec hw hsolid
  | cons round rounds ih =>
    obtain ⟨w₁, hskip, hadds₁⟩ := skipEmpty_spec hw hsolid
    have hsolid₁ : labels w₁.stream = [] := by
      rwa [hadds₁.stream, append_nil]
    obtain ⟨w₂, n, hwrite, hadds₂⟩ := writeOnce_spec hadds₁.wf hsolid₁ round
    have hsolid₂ : labels w₂.stream = [] := by
      rwa [hadds₂.stream, append_nil]
    rw [sendLoop, hskip, some_bind, hwrite, some_bind]
    dsimp only
    split_ifs with hstop
    · exact ⟨w₂, rfl, hadds₁.trans hadds₂⟩
    · obtain ⟨w', hrest, hadds⟩ := ih hadds₂.wf hsolid₂ (totwritten + n)
      exact ⟨w', hrest, (hadds₁.trans hadds₂).trans hadds⟩

theorem sendReplyToClient_spec (hw : WF w) (hsolid : labels w.stream = [])
    (rounds : List Round) :
    ∃ w', sendReplyToClient w rounds = some w' ∧ Adds w w' [] := by
  obtain ⟨w₁, hloop, hadds⟩ := sendLoop_spec hw hsolid rounds 0
  rw [sendReplyToClient, hloop, some_bind]
  split_ifs with hempty
  · refine ⟨_, rfl, hadds.trans ⟨⟨hadds.wf.sound.other _ _ _,
      Nat.zero_le _⟩, Keeps.refl w₁, ?_⟩⟩
    have hpending : w₁.pending = [] := by
      rw [World.pending, hempty.1, hempty.2]
      rfl
    show solid w₁.sent ++ w₁.pending.drop 0 = _
    rw [World.stream, hpending, drop_nil, drop_nil, append_nil, append_nil]
  · exact ⟨w₁, rfl, hadds⟩

end Writes

end RedisV8.Output
