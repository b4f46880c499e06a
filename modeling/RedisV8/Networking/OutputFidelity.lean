import RedisV8.Networking.OutputDeferred

/-!
# Output stream fidelity

Runs of reply calls, deferred lengths and writes, in which other parts of the
server create, share, release and change objects of their own.  The text that
was sent and is buffered is the concatenation of the replies, with the
deferred lengths in place, and shared objects keep their strings, as long as
no string outgrows the `int` in its header.
-/

namespace RedisV8.Output

open Util Server Holes World List

/-! ## Calls -/

/-- A call of one of the reply functions. -/
inductive Call where
  | addReply (id : ObjId)
  | addReplySds (s : Bytes)
  | addReplyString (s : Bytes)
  | addReplyErrorLength (s : Bytes)
  | addReplyError (err : Bytes)
  | addReplyErrorFormat (s : Bytes)
  | addReplyStatusLength (s : Bytes)
  | addReplyStatus (status : Bytes)
  | addReplyStatusFormat (s : Bytes)
  | addReplyDouble (d : Double)
  | addReplyLongLong (ll : ℤ)
  | addReplyMultiBulkLen (length : ℤ)
  | addReplyBulkLen (id : ObjId)
  | addReplyBulk (id : ObjId)
  | addReplyBulkCBuffer (p : Bytes)
  | addReplyBulkCString (s : Option Bytes)
  | addReplyBulkLongLong (ll : ℤ)

def World.content (w : World) (id : ObjId) : Option Content :=
  (w.heap id).map Obj.content

/-- The bytes of an object. -/
def World.decoded (w : World) (id : ObjId) : Bytes :=
  (w.content id).elim [] Content.decoded

namespace Call

def run (c : Peer) (w : World) : Call → Option World
  | addReply id => Output.addReply c w id
  | addReplySds s => Output.addReplySds c w s
  | addReplyString s => Output.addReplyString c w s
  | addReplyErrorLength s => Output.addReplyErrorLength c w s
  | addReplyError err => Output.addReplyError c w err
  | addReplyErrorFormat s => Output.addReplyErrorFormat c w s
  | addReplyStatusLength s => Output.addReplyStatusLength c w s
  | addReplyStatus status => Output.addReplyStatus c w status
  | addReplyStatusFormat s => Output.addReplyStatusFormat c w s
  | addReplyDouble d => Output.addReplyDouble c w d
  | addReplyLongLong ll => Output.addReplyLongLong c w ll
  | addReplyMultiBulkLen length => Output.addReplyMultiBulkLen c w length
  | addReplyBulkLen id => Output.addReplyBulkLen c w id
  | addReplyBulk id => Output.addReplyBulk c w id
  | addReplyBulkCBuffer p => Output.addReplyBulkCBuffer c w p
  | addReplyBulkCString s => Output.addReplyBulkCString c w s
  | addReplyBulkLongLong ll => Output.addReplyBulkLongLong c w ll

/-- The reply that a call is for. -/
def text (w : World) : Call → Bytes
  | addReply id => w.decoded id
  | addReplySds s | addReplyString s => s
  | addReplyErrorLength s => (Reply.error (ascii "ERR " ++ s)).encode
  | addReplyError err =>
    (Reply.error (ascii "ERR " ++ err.takeWhile (· ≠ 0))).encode
  | addReplyErrorFormat s =>
    (Reply.error (ascii "ERR " ++ withoutNewlines s)).encode
  | addReplyStatusLength s | addReplyStatusFormat s =>
    (Reply.status s).encode
  | addReplyStatus status => (Reply.status (status.takeWhile (· ≠ 0))).encode
  | addReplyDouble (.infinite positive) =>
    (Reply.bulk (ascii (if positive then "inf" else "-inf"))).encode
  | addReplyDouble (.finite dbuf) => (Reply.bulk dbuf).encode
  | addReplyLongLong ll => (Reply.integer ll).encode
  | addReplyMultiBulkLen length => Reply.line '*' (llText length)
  | addReplyBulkLen id => Reply.line '$' (natText (w.decoded id).length)
  | addReplyBulk id => (Reply.bulk (w.decoded id)).encode
  | addReplyBulkCBuffer p => (Reply.bulk p).encode
  | addReplyBulkCString none => Reply.nullBulk.encode
  | addReplyBulkCString (some s) =>
    (Reply.bulk (s.takeWhile (· ≠ 0))).encode
  | addReplyBulkLongLong ll => (Reply.bulk (llText ll)).encode

/-- The callers hold the objects they pass, an sds has a length that fits its
header, lengths are not negative, and `%.17g` gives up to 24 characters. -/
def Valid (w : World) : Call → Prop
  | addReply id | addReplyBulkLen id | addReplyBulk id =>
    ∃ content, Owned w id content ∧ content ≠ .null
  | addReplySds s | addReplyErrorFormat s | addReplyStatusFormat s =>
    s.length < 2 ^ 31
  | addReplyDouble (.finite dbuf) => dbuf.length ≤ 24
  | addReplyMultiBulkLen length => 0 ≤ length
  | _ => True

/-- The caller's own characters fit an sds. -/
def Fits : Call → Prop
  | addReplyString s | addReplyErrorLength s | addReplyError s
  | addReplyStatusLength s | addReplyStatus s | addReplyBulkCBuffer s
  | addReplyBulkCString (some s) => s.length < 2 ^ 31
  | _ => True

end Call

section Calls

variable {w : World} {c : Peer}

theorem Owned.decoded_eq {id : ObjId} {content : Content}
    (howned : Owned w id content) : w.decoded id = content.decoded := by
  obtain ⟨o, hid, rfl, -⟩ := howned
  rw [World.decoded, World.content, hid]
  rfl

theorem length_takeWhile_lt {s : Bytes} (hs : s.length < 2 ^ 31) :
    (s.takeWhile (· ≠ 0)).length < 2 ^ 31 :=
  (takeWhile_sublist _).length_le.trans_lt hs

theorem addReplyDouble_spec (hw : WF w) (hc : c.Takes) {dbuf : Bytes}
    (hdbuf : dbuf.length ≤ 24) :
    Replies w (addReplyDouble c w (.finite dbuf)) (Reply.bulk dbuf).encode := by
  have hlength : (Reply.line '$' (natText dbuf.length) ++ dbuf ++
      Reply.crlf).length < 128 := by
    have hnat := length_natText_le dbuf.length
    rw [length_append, length_append, Reply.length_line]
    show _ + _ + 2 < 128
    omega
  rw [addReplyDouble, if_pos hlength, Reply.encode]
  exact addReplyString_spec hw hc (hlength.trans (by decide))

/-- Every call adds its reply. -/
theorem Call.run_spec (hw : WF w) (hc : c.Takes) (hshared : SharedHeld w)
    (call : Call) (hvalid : call.Valid w) (hfits : call.Fits) :
    Replies w (call.run c w) (call.text w) := by
  cases call with
  | addReply id =>
    obtain ⟨content, howned, hnull⟩ := hvalid
    rw [Call.text, howned.decoded_eq]
    exact addReply_spec hw hc howned hnull
  | addReplySds s => exact addReplySds_spec hw hc hvalid
  | addReplyString s => exact addReplyString_spec hw hc hfits
  | addReplyErrorLength s => exact addReplyErrorLength_spec hw hc hfits
  | addReplyError err =>
    exact addReplyErrorLength_spec hw hc (length_takeWhile_lt hfits)
  | addReplyErrorFormat s =>
    refine addReplyErrorLength_spec hw hc ?_
    rwa [withoutNewlines, length_map]
  | addReplyStatusLength s => exact addReplyStatusLength_spec hw hc hfits
  | addReplyStatus status =>
    exact addReplyStatusLength_spec hw hc (length_takeWhile_lt hfits)
  | addReplyStatusFormat s => exact addReplyStatusLength_spec hw hc hvalid
  | addReplyDouble d =>
    cases d with
    | infinite positive =>
      cases positive <;>
        exact addReplyBulkCBuffer_spec hw hc hshared (by decide)
    | finite dbuf => exact addReplyDouble_spec hw hc hvalid
  | addReplyLongLong ll => exact addReplyLongLong_spec hw hc hshared ll
  | addReplyMultiBulkLen length =>
    obtain ⟨n, rfl⟩ := Int.eq_ofNat_of_zero_le hvalid
    rw [Call.text, llText_natCast]
    exact addReplyMultiBulkLen_spec hw hc hshared n
  | addReplyBulkLen id =>
    obtain ⟨content, howned, hnull⟩ := hvalid
    rw [Call.text, howned.decoded_eq]
    exact addReplyBulkLen_spec hw hc hshared howned hnull
  | addReplyBulk id =>
    obtain ⟨content, howned, hnull⟩ := hvalid
    rw [Call.text, howned.decoded_eq]
    exact addReplyBulk_spec hw hc hshared howned hnull
  | addReplyBulkCBuffer p => exact addReplyBulkCBuffer_spec hw hc hshared hfits
  | addReplyBulkCString s =>
    cases s with
    | none => exact addReplyShared_spec hw hc hshared .nullbulk
    | some s =>
      exact addReplyBulkCBuffer_spec hw hc hshared
        (length_takeWhile_lt hfits)
  | addReplyBulkLongLong ll =>
    rw [Call.run, Output.addReplyBulkLongLong, ll2string_eq (by decide)]
    exact addReplyBulkCBuffer_spec hw hc hshared
      ((length_llText_le ll).trans_lt (by decide))

end Calls

/-! ## Runs -/

/-- What happens to the output buffers and to the objects in them. -/
inductive Step where
  | reply (call : Call)
  | defer (handle : ℕ)
  | setLength (handle : ℕ) (length : ℤ)
  | write (rounds : List Round)
  /-- Another part of the server makes an object. -/
  | create (content : Content)
  /-- Somebody takes a reference, as another client's list does. -/
  | retain (id : ObjId)
  | release (id : ObjId)
  /-- The only owner of an object changes its string. -/
  | overwrite (id : ObjId) (content : Content)

namespace Step

def run (c : Peer) (w : World) : Step → Option World
  | reply call => call.run c w
  | defer handle => some (addDeferredMultiBulkLength c w handle)
  | setLength handle length => setDeferredMultiBulkLength w handle length
  | write rounds => sendReplyToClient w rounds
  | create content => some (w.createObject content).1
  | retain id => w.incrRefCount id
  | release id => w.decrRefCount id
  | overwrite id content => do
      let o ← w.heap id
      some (w.setObj id (some { o with content }))

/-- The stream a step is meant to lead to. -/
def after (w : World) (stream : Stream) : Step → Stream
  | reply call => stream ++ solid (call.text w)
  | defer handle => stream ++ [.hole handle]
  | setLength handle length =>
    fill handle (Reply.line '*' (llText length)) stream
  | _ => stream

/-- A string object that an owner may hold. -/
def Storable (content : Content) : Prop :=
  content ≠ .null ∧ ∀ s, content.sds? = some s → s.length < 2 ^ 31

/-- A deferred length is set once, all are set before a write, and whoever
gives a reference up has one; the references in `shared` are never given
up. -/
def Valid (shared : Set ObjId) (w : World) (stream : Stream) : Step → Prop
  | reply call => call.Valid w
  | defer handle => handle ∉ labels stream
  | setLength handle _ => handle ∈ labels stream
  | write _ => labels stream = []
  | create content => Storable content
  | retain id => ∃ o, w.heap id = some o ∧ o.content ≠ .null
  | release id => ∃ o, w.heap id = some o ∧ held w.reply id < o.refcount ∧
      (id ∈ shared → held w.reply id + 1 < o.refcount)
  | overwrite id content => id ∉ shared ∧ Storable content ∧
      held w.reply id = 0 ∧ ∃ o, w.heap id = some o ∧ o.refcount = 1

/-- No string outgrows its header: neither the characters of a reply, nor a
length with the text up to the next length that is not set. -/
def Fits (stream : Stream) : Step → Prop
  | reply call => call.Fits
  | setLength handle length =>
    (Reply.line '*' (llText length)).length +
      (afterHole handle stream).length < 2 ^ 31
  | _ => True

end Step

/-- A client without output, and objects that others hold, among them the
shared ones. -/
structure Start (shared : Set ObjId) (w : World) : Prop where
  buf : w.buf = []
  sentlen : w.sentlen = 0
  reply : w.reply = []
  sent : w.sent = []
  fresh : ∀ id, w.next ≤ id → w.heap id = none
  object : ∀ id o, w.heap id = some o → 0 < o.refcount ∧
    Step.Storable o.content
  live : ∀ id ∈ shared, (w.heap id).isSome
  named : ∀ name : SharedName, name.id ∈ shared ∧
    w.content name.id = some (.raw name.text)

/-- The states that steps lead to, each with the stream that is meant. -/
inductive Reaches (c : Peer) (shared : Set ObjId) (start : World) :
    World → Stream → Prop where
  | start : Reaches c shared start start []
  | step {w w' : World} {stream : Stream} (step : Step) :
      Reaches c shared start w stream →
      step.Valid shared w stream → step.Fits stream →
      step.run c w = some w' →
      Reaches c shared start w' (step.after w stream)

/-- What holds in every state. -/
structure Faithful (shared : Set ObjId) (start w : World) (stream : Stream) :
    Prop where
  wf : WF w
  stream_eq : w.stream = stream
  owned : ∀ id ∈ shared, ∃ content, start.content id = some content ∧
    Owned w id content

section Runs

variable {c : Peer} {shared : Set ObjId} {start w : World} {stream : Stream}

theorem Start.faithful (hstart : Start shared start) :
    Faithful shared start start [] := by
  have hheld : ∀ id, held start.reply id = 0 := by
    intro id
    rw [hstart.reply]
    rfl
  refine ⟨⟨⟨hstart.fresh, ?_, ?_, ?_⟩, ?_⟩, ?_, ?_⟩
  · intro id o hid
    obtain ⟨hpos, hnull, hlength⟩ := hstart.object id o hid
    exact ⟨by rw [hheld]; exact Nat.zero_le _, hpos,
      fun h => absurd h hnull, hlength⟩
  · rw [hstart.reply]
    exact fun node hnode => by cases hnode
  · rw [hstart.reply]
    exact nodup_nil
  · rw [hstart.sentlen]
    exact Nat.zero_le _
  · rw [World.stream, World.pending, hstart.sent, hstart.buf, hstart.reply,
      hstart.sentlen]
    rfl
  · intro id hid
    obtain ⟨o, ho⟩ := Option.isSome_iff_exists.1 (hstart.live id hid)
    refine ⟨o.content, by rw [World.content, ho]; rfl, o, ho, rfl, ?_⟩
    rw [hheld]
    exact (hstart.object id o ho).1

theorem Faithful.sharedHeld (hstart : Start shared start)
    (hfaithful : Faithful shared start w stream) : SharedHeld w := by
  intro name
  obtain ⟨hshared, htext⟩ := hstart.named name
  obtain ⟨content, hcontent, howned⟩ := hfaithful.owned name.id hshared
  rw [htext] at hcontent
  cases hcontent
  exact howned

theorem Faithful.of_owned {w' : World} {stream' : Stream}
    (hfaithful : Faithful shared start w stream) (hwf : WF w')
    (hstream : w'.stream = stream')
    (hkept : ∀ id ∈ shared, ∀ content, Owned w id content →
      Owned w' id content) :
    Faithful shared start w' stream' where
  wf := hwf
  stream_eq := hstream
  owned id hid := by
    obtain ⟨content, hcontent, howned⟩ := hfaithful.owned id hid
    exact ⟨content, hcontent, hkept id hid content howned⟩

/-- A step of the client keeps what others hold. -/
theorem Faithful.of_keeps {w' : World} {stream' : Stream}
    (hfaithful : Faithful shared start w stream) (hwf : WF w')
    (hkeeps : Keeps w w') (hstream : w'.stream = stream') :
    Faithful shared start w' stream' :=
  hfaithful.of_owned hwf hstream fun _ _ _ => hkeeps.owned

/-- An object that no node holds does not show in the stream. -/
theorem WF.setUnheld (hw : WF w) {id : ObjId} {o o' : Obj}
    (hid : w.heap id = some o) (hheld : held w.reply id = 0)
    (hsound : o'.Sound 0) :
    WF (w.setObj id (some o')) ∧
      (w.setObj id (some o')).stream = w.stream := by
  have hne := value_ne_of_held hheld
  refine hw.same ⟨hw.sound.fresh_setObj hid _,
    hw.sound.object_update fun new hnew => ?_,
    fun node hnode => hw.sound.node_update hnode (hne node hnode) _,
    hw.sound.handles⟩ fun node hnode => text_setObj_of_ne w (hne node hnode) _
  cases hnew
  rwa [hheld]

theorem WF.retain (hw : WF w) {id : ObjId} {o : Obj}
    (hid : w.heap id = some o) (hnull : o.content ≠ .null) :
    WF (w.setObj id (some { o with refcount := o.refcount + 1 })) ∧
      (w.setObj id (some { o with refcount := o.refcount + 1 })).stream =
        w.stream :=
  hw.same (hw.sound.incr hid hnull)
    fun node _ => text_setCount hid (o.refcount + 1) node.value

/-- Another object does not concern an owner. -/
theorem Owned.setObj_of_ne {id i : ObjId} {content : Content}
    (howned : Owned w i content) (hne : i ≠ id) (new : Option Obj) :
    Owned (w.setObj id new) i content := by
  obtain ⟨o, hi, hcontent, hheld⟩ := howned
  exact ⟨o, by rw [heap_setObj_of_ne w hne, hi], hcontent, hheld⟩

/-- One step. -/
theorem Faithful.step (hc : c.Takes) (hstart : Start shared start)
    (hfaithful : Faithful shared start w stream) (step : Step)
    (hvalid : step.Valid shared w stream) (hfits : step.Fits stream) :
    ∃ w', step.run c w = some w' ∧
      Faithful shared start w' (step.after w stream) := by
  have hw := hfaithful.wf
  have hstream := hfaithful.stream_eq
  cases step with
  | reply call =>
    obtain ⟨w', hrun, hadds⟩ :=
      call.run_spec hw hc (hfaithful.sharedHeld hstart) hvalid hfits
    refine ⟨w', hrun, hfaithful.of_keeps hadds.wf hadds.keeps ?_⟩
    rw [hadds.stream, hstream]
    rfl
  | defer handle =>
    have hadds := addDeferredMultiBulkLength_spec hw hc
      (by rw [hstream]; exact hvalid)
    refine ⟨_, rfl, hfaithful.of_keeps hadds.wf hadds.keeps ?_⟩
    rw [hadds.stream, hstream]
    rfl
  | setLength handle length =>
    obtain ⟨w', hrun, hwf, hkeeps, hfill⟩ := setDeferredMultiBulkLength_spec hw
      (by rw [hstream]; exact hvalid) length (by rw [hstream]; exact hfits)
    refine ⟨w', hrun, hfaithful.of_keeps hwf hkeeps ?_⟩
    rw [hfill, hstream]
    rfl
  | write rounds =>
    obtain ⟨w', hrun, hadds⟩ := sendReplyToClient_spec hw
      (by rw [hstream]; exact hvalid) rounds
    refine ⟨w', hrun, hfaithful.of_keeps hadds.wf hadds.keeps ?_⟩
    rw [hadds.stream, hstream, append_nil]
    rfl
  | create content =>
    obtain ⟨hwf, hsame⟩ := hw.create hvalid.2
    exact ⟨_, rfl, hfaithful.of_keeps hwf (Keeps.create hw.sound content)
      (hsame.trans hstream)⟩
  | retain id =>
    obtain ⟨o, hid, hnull⟩ := hvalid
    obtain ⟨hwf, hsame⟩ := hw.retain hid hnull
    refine ⟨_, by rw [Step.run, incrRefCount, hid]; rfl,
      hfaithful.of_owned hwf (hsame.trans hstream)
        fun i hi content howned => ?_⟩
    rcases eq_or_ne i id with rfl | hne
    · obtain ⟨o', hid', hcontent', hheld⟩ := howned
      obtain rfl : o = o' := Option.some_inj.1 (hid.symm.trans hid')
      exact ⟨_, heap_setObj_self w _ _, hcontent',
        hheld.trans (Nat.lt_succ_self _)⟩
    · exact howned.setObj_of_ne hne _
  | release id =>
    obtain ⟨o, hid, hheld, hkept⟩ := hvalid
    obtain ⟨hdecr, hwf, hsame⟩ := hw.release hid hheld
    refine ⟨_, hdecr, hfaithful.of_owned hwf (hsame.trans hstream)
      fun i hi content howned => ?_⟩
    rcases eq_or_ne i id with rfl | hne
    · obtain ⟨o', hid', hcontent', -⟩ := howned
      obtain rfl : o = o' := Option.some_inj.1 (hid.symm.trans hid')
      have hmany := hkept hi
      exact ⟨_, heap_released w (by omega), hcontent',
        Nat.lt_sub_of_add_lt hmany⟩
    · exact howned.setObj_of_ne hne _
  | overwrite id content =>
    obtain ⟨hnot, ⟨hnull, hlength⟩, hheld, o, hid, hone⟩ := hvalid
    obtain ⟨hwf, hsame⟩ := hw.setUnheld hid hheld
      (show ({ o with content } : Obj).Sound 0 from
        ⟨Nat.zero_le _, by rw [hone]; exact Nat.one_pos, fun _ => hone,
          hlength⟩)
    exact ⟨_, by rw [Step.run, hid]; rfl,
      hfaithful.of_owned hwf (hsame.trans hstream) fun i hi _ howned =>
        howned.setObj_of_ne (ne_of_mem_of_not_mem hi hnot) _⟩

/-- Every state that is reached. -/
theorem Reaches.faithful (hc : c.Takes) (hstart : Start shared start)
    (hreach : Reaches c shared start w stream) :
    Faithful shared start w stream := by
  induction hreach with
  | start => exact hstart.faithful
  | step step _ hvalid hfits hrun ih =>
    obtain ⟨w', hrun', hfaithful⟩ := ih.step hc hstart step hvalid hfits
    obtain rfl := Option.some_inj.1 (hrun.symm.trans hrun')
    exact hfaithful

/-- In every run whose strings fit their headers, what a client that takes
replies was sent and what is buffered for it is the concatenation of the
replies, with the deferred lengths in place; every further step succeeds; and
the shared objects hold what they held at the start. -/
theorem output_stream_is_faithful (hc : c.Takes)
    (hstart : Start shared start)
    (hreach : Reaches c shared start w stream) :
    w.stream = stream ∧
      (∀ id ∈ shared, w.content id = start.content id) ∧
      ∀ step : Step, step.Valid shared w stream → step.Fits stream →
        (step.run c w).isSome := by
  have hfaithful := hreach.faithful hc hstart
  refine ⟨hfaithful.stream_eq, ?_, ?_⟩
  · intro id hid
    obtain ⟨content, hcontent, o, hlive, rfl, -⟩ := hfaithful.owned id hid
    rw [hcontent, World.content, hlive]
    rfl
  intro step hvalid hfits
  obtain ⟨w', hrun, -⟩ := hfaithful.step hc hstart step hvalid hfits
  rw [hrun]
  rfl

end Runs

section Samples

theorem SharedName.ofId_id (name : SharedName) :
    SharedName.ofId name.id = some name := by
  cases name with
  | crlf | czero | cone | nullbulk => rfl
  | mbulkhdr length | bulkhdr length =>
    revert length
    decide

theorem SharedName.ofId_of_le {n : ℕ} (hn : 68 ≤ n) :
    SharedName.ofId n = none := by
  rw [SharedName.ofId, if_neg (by omega), if_neg (by omega), if_neg (by omega),
    if_neg (by omega), dif_neg (by show ¬ n - 4 < 32; omega),
    dif_neg (by show ¬ n - 36 < 32; omega)]

theorem SharedName.length_text_le (name : SharedName) :
    name.text.length ≤ 23 := by
  cases name with
  | crlf | czero | cone | nullbulk => decide
  | mbulkhdr length | bulkhdr length =>
    have hnat := length_natText_le length
    rw [SharedName.text, Reply.length_line]
    omega

theorem start_createSharedObjects :
    Start { id | (SharedName.ofId id).isSome } createSharedObjects where
  buf := rfl
  sentlen := rfl
  reply := rfl
  sent := rfl
  fresh id hid := by
    show (SharedName.ofId id).map _ = none
    rw [SharedName.ofId_of_le hid]
    rfl
  object id o hid := by
    obtain ⟨name, -, rfl⟩ := Option.map_eq_some_iff.1 hid
    refine ⟨Nat.one_pos, by simp, fun s hs => ?_⟩
    cases hs
    exact name.length_text_le.trans_lt (by decide)
  live id hid := by
    show ((SharedName.ofId id).map _).isSome
    rw [Option.isSome_map]
    exact hid
  named name := by
    refine ⟨?_, ?_⟩
    · show (SharedName.ofId name.id).isSome
      rw [SharedName.ofId_id]
      rfl
    · show ((SharedName.ofId name.id).map _).map _ = _
      rw [SharedName.ofId_id]
      rfl

/-- An ordinary client. -/
def plainClient : Peer := ⟨false, false, false, false, 8, true⟩

theorem plainClient_takes : plainClient.Takes :=
  ⟨rfl, .inr ⟨.inl rfl, by decide, rfl⟩⟩

theorem Reaches.next {w : World} {stream : Stream}
    (hreach : Reaches plainClient { id | (SharedName.ofId id).isSome }
      createSharedObjects w stream) (step : Step)
    (hvalid : step.Valid { id | (SharedName.ofId id).isSome } w stream)
    (hfits : step.Fits stream) :
    ∃ w', Reaches plainClient { id | (SharedName.ofId id).isSome }
      createSharedObjects w' (step.after w stream) := by
  obtain ⟨w', hrun, -⟩ := (hreach.faithful plainClient_takes
    start_createSharedObjects).step plainClient_takes
      start_createSharedObjects step hvalid hfits
  exact ⟨w', .step step hreach hvalid hfits hrun⟩

/-- An array of one number whose length was deferred, half of it sent. -/
theorem output_stream_is_faithful_array :
    plainClient.Takes ∧
      Start { id | (SharedName.ofId id).isSome } createSharedObjects ∧
      ∃ w, Reaches plainClient { id | (SharedName.ofId id).isSome }
          createSharedObjects w (solid (ascii "*1\r\n:7\r\n")) ∧
        w.stream = solid (ascii "*1\r\n:7\r\n") := by
  obtain ⟨w₁, h₁⟩ := Reaches.start.next (.defer 0) (by
    show 0 ∉ labels []
    decide) trivial
  obtain ⟨w₂, h₂⟩ := h₁.next (.reply (.addReplyLongLong 7)) trivial trivial
  replace h₂ : Reaches plainClient { id | (SharedName.ofId id).isSome }
      createSharedObjects w₂ (.hole 0 :: solid (ascii ":7\r\n")) := h₂
  obtain ⟨w₃, h₃⟩ := h₂.next (.setLength 0 1)
    (by show 0 ∈ labels _; decide) (by show _ + _ < 2 ^ 31; decide)
  replace h₃ : Reaches plainClient { id | (SharedName.ofId id).isSome }
      createSharedObjects w₃ (solid (ascii "*1\r\n:7\r\n")) := h₃
  obtain ⟨w₄, h₄⟩ := h₃.next (.write [⟨5, false⟩])
    (by show labels _ = []; decide) trivial
  exact ⟨plainClient_takes, start_createSharedObjects, w₄, h₄,
    (output_stream_is_faithful plainClient_takes start_createSharedObjects
      h₄).1⟩

/-- A string object of two gigabytes cannot be made. -/
theorem addReplyString_of_long {c : Peer} (hc : c.Takes) {s : Bytes}
    (hs : 2 ^ 31 ≤ s.length) (w : World) : addReplyString c w s = none := by
  have hbuffer : addReplyToBuffer c w s = none := by
    rw [addReplyToBuffer, if_neg (by rw [hc.stays]; decide)]
    split_ifs with hreply hroom
    · rfl
    · rfl
    · rw [replyChunkBytes] at hroom
      omega
  have htail : w.tailTakes s = false := by
    rw [tailTakes]
    cases w.rawTail with
    | none => rfl
    | some tail =>
      rw [Option.any_some, decide_eq_false_iff_not, replyChunkBytes]
      omega
  have hcreate : w.createStringObject s = none := by
    rw [World.createStringObject, if_neg (by omega), createRawStringObject,
      sdsnewlen, if_neg (by omega)]
    rfl
  rw [addReplyString, if_pos (hc.prepareClientToWrite w), bufferOrList, hbuffer]
  show addReplyStringToList c w s = none
  rw [addReplyStringToList, addToList, if_neg (by rw [hc.stays]; decide),
    if_neg (by rw [htail]; decide), hcreate]
  rfl

/-- A bulk reply of two gigabytes, to a client without output. -/
theorem bulk_reply_of_two_gigabytes :
    plainClient.Takes ∧
      Start { id | (SharedName.ofId id).isSome } createSharedObjects ∧
      (Step.reply (.addReplyBulkCBuffer (replicate (2 ^ 31) 120))).Valid
        { id | (SharedName.ofId id).isSome } createSharedObjects [] ∧
      (Step.reply (.addReplyBulkCBuffer (replicate (2 ^ 31) 120))).run
        plainClient createSharedObjects = none := by
  refine ⟨plainClient_takes, start_createSharedObjects, trivial, ?_⟩
  show addReplyBulkCBuffer _ _ _ = none
  have hlong : ∀ w, addReplyString plainClient w
      (replicate (2 ^ 31) 120) = none :=
    addReplyString_of_long plainClient_takes (length_replicate ..).ge
  rw [addReplyBulkCBuffer]
  cases addReplyLongLongWithPrefix plainClient createSharedObjects
      (replicate (2 ^ 31) (120 : UInt8)).length '$' with
  | none => rfl
  | some w =>
    rw [some_bind, hlong]
    rfl

end Samples

end RedisV8.Output
