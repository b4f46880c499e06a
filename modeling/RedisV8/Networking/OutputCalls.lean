import RedisV8.Networking.OutputStream

/-!
# The reply functions append to the stream

What each member of the `addReply` family adds, for a client that takes
replies.  The texts are those of the reply in the protocol.
-/

namespace RedisV8.Output

open Util Server Holes World List Reply

variable {w' : World} {id : ObjId} {content : Content} {s : Bytes}

/-- A client that takes replies and is not about to be closed. -/
structure Peer.Takes (c : Peer) : Prop where
  stays : c.closeAfterReply = false
  prepared : c.luaClient = true ∨
    (c.master = false ∨ c.masterForceReply = true) ∧ 0 < c.fd ∧
      c.installs = true

theorem Peer.Takes.prepareClientToWrite {c : Peer} (hc : c.Takes) (w : World) :
    prepareClientToWrite c w = true := by
  rw [Output.prepareClientToWrite]
  rcases hc.prepared with hlua | ⟨hmaster, hfd, hinstalls⟩
  · rw [if_pos hlua]
  have hnot : ¬ (c.master && !c.masterForceReply) = true := by
    rcases hmaster with h | h <;> simp [h]
  rw [if_neg hnot, if_neg (not_le.2 hfd), hinstalls]
  simp

/-- Somebody outside of the reply list holds an object with this content. -/
def Owned (w : World) (id : ObjId) (content : Content) : Prop :=
  ∃ o, w.heap id = some o ∧ o.content = content ∧
    held w.reply id < o.refcount

theorem Keeps.owned {w : World} (hkeeps : Keeps w w')
    (howned : Owned w id content) : Owned w' id content := by
  obtain ⟨o, hid, hcontent, hheld⟩ := howned
  obtain ⟨o', hid', hcontent', hcount⟩ := hkeeps id o hid hheld
  exact ⟨o', hid', hcontent'.trans hcontent, by omega⟩

/-- The server holds the shared objects, with their texts. -/
def SharedHeld (w : World) : Prop :=
  ∀ name : SharedName, Owned w name.id (.raw name.text)

namespace Content

/-- The bytes that `getDecodedObject` would give. -/
def decoded : Content → Bytes
  | .null => []
  | .raw s | .embstr s => s
  | .int value => llText value.toInt

end Content

/-- A computation that succeeds and adds a text. -/
def Replies (w : World) (result : Option World) (s : Bytes) : Prop :=
  ∃ w', result = some w' ∧ Adds w w' (solid s)

theorem Replies.bind {w : World} {result : Option World} {t : Bytes}
    {next : World → Option World} (hresult : Replies w result s)
    (hnext : ∀ w', Adds w w' (solid s) → Replies w' (next w') t) :
    Replies w (result >>= next) (s ++ t) := by
  obtain ⟨w', rfl, hadds⟩ := hresult
  obtain ⟨w'', hrun, hadds'⟩ := hnext w' hadds
  refine ⟨w'', hrun, ?_⟩
  rw [solid_append]
  exact hadds.trans hadds'

section Objects

variable {w : World}

/-- A reference outside of the list that is given up does not show in the
stream. -/
theorem WF.release (hw : WF w) {o : Obj} (hid : w.heap id = some o)
    (howned : held w.reply id < o.refcount) :
    w.decrRefCount id = some (w.setObj id o.released) ∧
      WF (w.setObj id o.released) ∧
      (w.setObj id o.released).stream = w.stream := by
  exact ⟨decrRefCount_eq hid (hw.sound.object id o hid).pos,
    hw.same (hw.sound.decr hid howned) (text_released hid howned)⟩

/-- A reference that is taken outside of the list does not show in it
either. -/
theorem WF.create (hw : WF w)
    (hlength : ∀ s, content.sds? = some s → s.length < 2 ^ 31) :
    WF (w.createObject content).1 ∧
      (w.createObject content).1.stream = w.stream :=
  hw.same (hw.sound.create hlength)
    fun _ hnode => hw.sound.text_create content hnode

theorem createStringObject_spec (hs : s.length < 2 ^ 31) :
    ∃ content, w.createStringObject s = some (w.createObject content) ∧
      content.sds? = some s := by
  rw [World.createStringObject]
  split_ifs with hshort
  · exact ⟨.embstr s, rfl, rfl⟩
  · refine ⟨.raw s, ?_, rfl⟩
    rw [createRawStringObject, sdsnewlen, if_pos hs]
    rfl

theorem WF.pushString (hw : WF w) (content : Content)
    (hs : content.sds? = some s) (hlength : s.length < 2 ^ 31) :
    Adds w ((w.createObject content).1.listAddNodeTail ⟨w.next, none⟩)
      (solid s) := by
  have hpush := hw.pushNew content none (Content.length_lt hs hlength)
    (fun _ => ⟨s, hs⟩) fun _ h => (by cases h)
  rwa [hs] at hpush

end Objects

section Basics

variable {w : World} {c : Peer} (hw : WF w) (hc : c.Takes)

include hw hc

theorem addReplyToBuffer_spec (hbuffer : addReplyToBuffer c w s = some w') :
    Adds w w' (solid s) := by
  rw [addReplyToBuffer, if_neg (by rw [hc.stays]; decide)] at hbuffer
  split_ifs at hbuffer with hreply hroom
  rw [not_not] at hreply
  cases hbuffer
  refine ⟨⟨hw.sound.other _ _ _, ?_⟩, ?_, ?_⟩
  · have hfront := hw.front
    show w.sentlen ≤ (frontText _ (w.buf ++ s) w.reply).length
    rw [hreply] at hfront ⊢
    cases hbuf : w.buf with
    | nil =>
      rw [hbuf, frontText] at hfront
      exact (Nat.le_zero.1 hfront).le.trans (Nat.zero_le _)
    | cons b buf =>
      rw [hbuf] at hfront
      refine hfront.trans ?_
      simp only [cons_append, frontText, length_cons, length_append]
      omega
  · exact Keeps.refl w
  · refine stream_append hw ?_
    show solid (w.buf ++ s) ++ chunks _ w.reply = solid w.buf ++ _ ++ _
    rw [hreply, solid_append, chunks_nil, chunks_nil, append_nil, append_nil]

theorem bufferOrList_spec {toList : Option World}
    (hlist : Replies w toList s) : Replies w (bufferOrList c w s toList) s := by
  rw [bufferOrList]
  cases hbuffer : addReplyToBuffer c w s with
  | none => exact hlist
  | some w' => exact ⟨w', rfl, addReplyToBuffer_spec hw hc hbuffer⟩

theorem addToList_spec {push : World → Option World}
    (hpush : Replies w (push w) s) :
    Replies w (addToList c w s push) s := by
  rw [addToList, if_neg (by rw [hc.stays]; decide)]
  split_ifs with htakes
  · exact hw.appendToTail htakes
  · exact hpush

theorem addReplyObjectToList_spec {o : Obj} (hid : w.heap id = some o)
    (hs : o.content.sds? = some s) :
    Replies w (addReplyObjectToList c w id s) s := by
  refine addToList_spec hw hc ⟨_, ?_, hw.pushShared hid hs⟩
  rw [incrRefCount, hid]
  rfl

theorem addDecodedObject_spec (value : Int64) :
    Replies w (addDecodedObject c w value) (llText value.toInt) := by
  have htext : ll2string 32 value.toInt = llText value.toInt :=
    ll2string_eq (by decide) _
  have hlength : (llText value.toInt).length < 2 ^ 31 :=
    (length_llText_le value.toInt).trans_lt (by decide)
  obtain ⟨content, hcreate, hcontent⟩ :=
    createStringObject_spec (w := w) hlength
  obtain ⟨hwf, hstream⟩ := hw.create (Content.length_lt hcontent hlength)
  have hlive := heap_createObject_next w content
  obtain ⟨w', hadd, hadds⟩ := bufferOrList_spec hwf hc
    (addReplyObjectToList_spec hwf hc hlive hcontent)
  -- the caller still holds the object it made
  obtain ⟨o', hlive', -, hcount⟩ := hadds.keeps w.next _ hlive (by
    show held w.reply w.next < 1
    rw [hw.sound.held_next]
    exact Nat.one_pos)
  have hheld : held w'.reply w.next < o'.refcount := by
    have hzero : held (w.createObject content).1.reply w.next = 0 :=
      hw.sound.held_next
    rw [hzero] at hcount
    dsimp only at hcount
    omega
  obtain ⟨hdecr, hwf', hstream'⟩ := hadds.wf.release hlive' hheld
  refine ⟨w'.setObj w.next o'.released, ?_, hwf', ?_, ?_⟩
  · rw [addDecodedObject, htext, hcreate, some_bind]
    show bufferOrList c (w.createObject content).1 _
      (addReplyObjectToList c (w.createObject content).1 w.next _) >>=
        (fun w₁ => w₁.decrRefCount w.next) = _
    rw [hadd]
    exact hdecr
  · intro i o hi howned
    obtain ⟨o'', hi', hcontent', hcount'⟩ :=
      (Keeps.create hw.sound content).trans hadds.keeps i o hi howned
    refine ⟨o'', ?_, hcontent', hcount'⟩
    rw [heap_setObj_of_ne _ (hw.sound.ne_next hi), hi']
  · rw [hstream', hadds.stream, hstream]

/-- `addReply`, for an object the caller holds. -/
theorem addReply_spec (howned : Owned w id content) (hnull : content ≠ .null) :
    Replies w (addReply c w id) content.decoded := by
  obtain ⟨o, hid, rfl, -⟩ := howned
  rw [addReply, if_pos (hc.prepareClientToWrite w), hid, some_bind]
  cases hcontent : o.content with
  | null => exact absurd hcontent hnull
  | raw s | embstr s =>
    exact bufferOrList_spec hw hc
      (addReplyObjectToList_spec hw hc hid (by rw [hcontent]; rfl))
  | int value =>
    rw [addReplyContent, ll2string_eq (by decide)]
    split_ifs
    · exact bufferOrList_spec hw hc (addDecodedObject_spec hw hc value)
    · exact addDecodedObject_spec hw hc value

theorem addReplyShared_spec (hshared : SharedHeld w) (name : SharedName) :
    Replies w (addReply c w name.id) name.text :=
  addReply_spec hw hc (hshared name) (by simp)

theorem addReplyString_spec (hs : s.length < 2 ^ 31) :
    Replies w (addReplyString c w s) s := by
  rw [addReplyString, if_pos (hc.prepareClientToWrite w)]
  obtain ⟨content, hcreate, hcontent⟩ := createStringObject_spec (w := w) hs
  refine bufferOrList_spec hw hc (addToList_spec hw hc ⟨_, ?_,
    hw.pushString content hcontent hs⟩)
  rw [hcreate]
  rfl

theorem addReplySds_spec (hs : s.length < 2 ^ 31) :
    Replies w (addReplySds c w s) s := by
  rw [addReplySds, if_pos (hc.prepareClientToWrite w)]
  exact bufferOrList_spec hw hc (addToList_spec hw hc ⟨_, rfl,
    hw.pushString (.raw s) rfl hs⟩)

/-- Three strings one after the other. -/
theorem addReplyStrings_spec {start : Bytes}
    (hstart : start.length < 2 ^ 31) (hs : s.length < 2 ^ 31) :
    Replies w (do
        let w ← addReplyString c w start
        let w ← addReplyString c w s
        addReplyString c w crlf)
      (start ++ (s ++ crlf)) :=
  (addReplyString_spec hw hc hstart).bind fun _ hadds =>
    (addReplyString_spec hadds.wf hc hs).bind fun _ hadds =>
      addReplyString_spec hadds.wf hc (by decide)

theorem addReplyErrorLength_spec (hs : s.length < 2 ^ 31) :
    Replies w (addReplyErrorLength c w s)
      (error (ascii "ERR " ++ s)).encode := by
  have hstrings := addReplyStrings_spec hw hc
    (show (ascii "-ERR ").length < 2 ^ 31 by decide) hs
  rw [← append_assoc] at hstrings
  exact hstrings

theorem addReplyStatusLength_spec (hs : s.length < 2 ^ 31) :
    Replies w (addReplyStatusLength c w s) (status s).encode :=
  addReplyStrings_spec hw hc (show (ascii "+").length < 2 ^ 31 by decide) hs

theorem addReplyLine_spec (kind : Char) (ll : ℤ) :
    Replies w (addReplyString c w (line kind (ll2string 127 ll)))
      (line kind (llText ll)) := by
  have hlength := length_llText_le ll
  rw [ll2string_eq (by decide)]
  refine addReplyString_spec hw hc ?_
  rw [length_line]
  omega

end Basics

theorem Keeps.sharedHeld {w : World} (hkeeps : Keeps w w')
    (hshared : SharedHeld w) : SharedHeld w' :=
  fun name => hkeeps.owned (hshared name)

theorem SharedName.lookup_eq (table : Fin sharedBulkhdrLen → SharedName)
    {n : ℕ} (hn : n < sharedBulkhdrLen) :
    SharedName.lookup table n = some (table ⟨n, hn⟩) := by
  rw [SharedName.lookup, dif_pos ⟨Int.natCast_nonneg n, by simpa using hn⟩]
  simp

/-- A length, the text and the end of the line. -/
theorem Replies.bulk {w : World} {c : Peer} {header : Option World}
    {body : World → Option World}
    (hheader : Replies w header (line '$' (natText s.length)))
    (hc : c.Takes) (hshared : SharedHeld w)
    (hbody : ∀ w', Adds w w' (solid (line '$' (natText s.length))) →
      Replies w' (body w') s) :
    Replies w (header >>= fun w => body w >>= fun w =>
      addReply c w SharedName.crlf.id) (Reply.bulk s).encode := by
  have hbulk := hheader.bind fun _ hadds => (hbody _ hadds).bind
    fun _ hadds' => addReplyShared_spec hadds'.wf hc
      (hadds'.keeps.sharedHeld (hadds.keeps.sharedHeld hshared)) .crlf
  rw [← append_assoc] at hbulk
  exact hbulk

theorem tdiv_ten_eq_zero_iff (n : ℤ) :
    n.tdiv 10 = 0 ↔ n.natAbs / 10 = 0 := by
  rw [← Int.natAbs_eq_zero, Int.natAbs_tdiv]
  rfl

theorem countDigits_eq {fuel : ℕ} {n : ℤ} (hn : n.natAbs < 10 ^ (fuel + 1))
    (len : ℕ) (acc : Bytes) :
    countDigits (fuel + 1) n len + acc.length + 1 =
      (digitLoop (fuel + 1) n.natAbs acc).length + len := by
  induction fuel generalizing n len acc with
  | zero =>
    have hsmall : n.natAbs / 10 = 0 := by omega
    rw [countDigits, if_pos ((tdiv_ten_eq_zero_iff n).2 hsmall), digitLoop,
      if_pos hsmall, length_cons]
    omega
  | succ fuel ih =>
    rw [countDigits, digitLoop]
    by_cases hsmall : n.natAbs / 10 = 0
    · rw [if_pos ((tdiv_ten_eq_zero_iff n).2 hsmall), if_pos hsmall,
        length_cons]
      omega
    have habs : (n.tdiv 10).natAbs = n.natAbs / 10 := Int.natAbs_tdiv n 10
    have hih := ih (show (n.tdiv 10).natAbs < 10 ^ (fuel + 1) by
      rw [habs]
      omega) (len + 1) (digitChar (n.natAbs % 10) :: acc)
    rw [habs, length_cons] at hih
    rw [if_neg fun h => hsmall ((tdiv_ten_eq_zero_iff n).1 h), if_neg hsmall]
    omega

/-- The digits counted are those of the text. -/
theorem countDigits_natText {n : ℤ} (hn : n.natAbs < 10 ^ 20) (len : ℕ) :
    countDigits 20 n len + 1 = (natText n.natAbs).length + len :=
  countDigits_eq hn len []

theorem bulkLen_eq (hnull : content ≠ .null) :
    bulkLen content = some content.decoded.length := by
  cases content with
  | null => exact absurd rfl hnull
  | raw s => rfl
  | embstr s => rfl
  | int value =>
    have hmin := value.le_toInt
    have hmax := value.toInt_lt
    rw [bulkLen, Content.decoded, llText]
    split_ifs with hneg
    · -- the negation of the least `long` wraps around, to the same digits
      have habs : ((-value.toInt).bmod (2 ^ 64)).natAbs =
          value.toInt.natAbs := by
        rcases eq_or_ne value.toInt (-2 ^ 63) with heq | hne
        · rw [heq]
          decide
        · rw [Int.bmod_eq_of_le (by omega) (by omega), Int.natAbs_neg]
      have hcount := countDigits_natText
        (show ((-value.toInt).bmod (2 ^ 64)).natAbs < 10 ^ 20 by
          rw [habs]
          omega) 2
      rw [habs] at hcount
      rw [length_cons, Option.some_inj]
      omega
    · have hcount := countDigits_natText
        (show value.toInt.natAbs < 10 ^ 20 by omega) 1
      rw [Option.some_inj]
      omega

section Composed

variable {w : World} {c : Peer} (hw : WF w) (hc : c.Takes)
  (hshared : SharedHeld w)

include hw hc hshared

/-- A header, from the table where the length is a small one. -/
theorem addReplyHeader_spec {kind : Char} (hkind : kind = '*' ∨ kind = '$')
    (n : ℕ) :
    Replies w (addReplyLongLongWithPrefix c w n kind)
      (line kind (natText n)) := by
  rw [addReplyLongLongWithPrefix]
  by_cases hn : n < sharedBulkhdrLen
  · have hlt : (n : ℤ) < sharedBulkhdrLen := by exact_mod_cast hn
    rcases hkind with rfl | rfl
    · rw [if_pos ⟨rfl, hlt⟩, SharedName.lookup_eq .mbulkhdr hn]
      exact addReplyShared_spec hw hc hshared (.mbulkhdr ⟨n, hn⟩)
    · rw [if_neg fun h => absurd h.1 (by decide), if_pos ⟨rfl, hlt⟩,
        SharedName.lookup_eq .bulkhdr hn]
      exact addReplyShared_spec hw hc hshared (.bulkhdr ⟨n, hn⟩)
  · have hge : ¬ (n : ℤ) < sharedBulkhdrLen := by exact_mod_cast hn
    rw [if_neg fun h => hge h.2, if_neg fun h => hge h.2, ← llText_natCast]
    exact addReplyLine_spec hw hc kind n

theorem addReplyLongLong_spec (ll : ℤ) :
    Replies w (addReplyLongLong c w ll) (integer ll).encode := by
  rw [addReplyLongLong]
  split_ifs with hzero hone
  · rw [hzero]
    exact addReplyShared_spec hw hc hshared .czero
  · rw [hone]
    exact addReplyShared_spec hw hc hshared .cone
  · rw [addReplyLongLongWithPrefix, if_neg (by simp), if_neg (by simp)]
    exact addReplyLine_spec hw hc ':' ll

theorem addReplyMultiBulkLen_spec (n : ℕ) :
    Replies w (addReplyMultiBulkLen c w n) (line '*' (natText n)) := by
  have hheader := addReplyHeader_spec hw hc hshared (.inl rfl) n
  rw [addReplyMultiBulkLen]
  split_ifs with hn
  · rwa [addReplyLongLongWithPrefix, if_pos ⟨rfl, hn⟩] at hheader
  · exact hheader

theorem addReplyBulkLen_spec (howned : Owned w id content)
    (hnull : content ≠ .null) :
    Replies w (addReplyBulkLen c w id)
      (line '$' (natText content.decoded.length)) := by
  obtain ⟨o, hid, rfl, -⟩ := howned
  have hheader := addReplyHeader_spec hw hc hshared (.inr rfl)
    o.content.decoded.length
  rw [addReplyBulkLen, hid, some_bind, bulkLen_eq hnull, some_bind]
  split_ifs with hn
  · rwa [addReplyLongLongWithPrefix, if_neg fun h => absurd h.1 (by decide),
      if_pos ⟨rfl, by exact_mod_cast hn⟩] at hheader
  · exact hheader

theorem addReplyBulk_spec (howned : Owned w id content)
    (hnull : content ≠ .null) :
    Replies w (addReplyBulk c w id) (bulk content.decoded).encode :=
  (addReplyBulkLen_spec hw hc hshared howned hnull).bulk hc hshared
    fun _ hadds => addReply_spec hadds.wf hc (hadds.keeps.owned howned) hnull

theorem addReplyBulkCBuffer_spec {p : Bytes} (hp : p.length < 2 ^ 31) :
    Replies w (addReplyBulkCBuffer c w p) (bulk p).encode :=
  (addReplyHeader_spec hw hc hshared (.inr rfl) p.length).bulk hc hshared
    fun _ hadds => addReplyString_spec hadds.wf hc hp

end Composed

end RedisV8.Output
