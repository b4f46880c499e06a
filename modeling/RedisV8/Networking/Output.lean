import RedisV8.Server.Reply
import RedisV8.Server.Object
import RedisV8.Util.Sds

/-!
# The output buffers of a client

The `addReply` family and the write handler of `networking.c`.  Replies go to
a fixed buffer while they fit there, and then to a list of string objects,
each of them counted by its references.  The last object of the list takes
further text in place, unless somebody else holds it too; a length that is
not known yet is an object without a string, filled in later.

An access outside of an array or through a null pointer, the use of an object
that was freed, a string that outgrows its header and a failed check of the
source are all `none`.
-/

namespace RedisV8.Output

open Util Server Reply

/-- `REDIS_REPLY_CHUNK_BYTES`. -/
def replyChunkBytes : ℕ := 16 * 1024

/-- `REDIS_SHARED_BULKHDR_LEN`. -/
def sharedBulkhdrLen : ℕ := 32

/-- `REDIS_MAX_WRITE_PER_EVENT`. -/
def maxWritePerEvent : ℕ := 64 * 1024

/-! ## Objects -/

/-- The address of an object. -/
abbrev ObjId := ℕ

/-- The fields `encoding` and `ptr` of a string object. -/
inductive Content where
  /-- `ptr` is `NULL`. -/
  | null
  | raw (s : Bytes)
  | embstr (s : Bytes)
  | int (value : Int64)
  deriving DecidableEq

namespace Content

/-- The string that `ptr` points to. -/
def sds? : Content → Option Bytes
  | .raw s | .embstr s => some s
  | .null | .int _ => none

end Content

structure Obj where
  content : Content
  refcount : ℕ
  deriving DecidableEq

/-- The members of `shared` that the reply functions name. -/
inductive SharedName where
  | crlf
  | czero
  | cone
  | nullbulk
  | mbulkhdr (length : Fin sharedBulkhdrLen)
  | bulkhdr (length : Fin sharedBulkhdrLen)
  deriving DecidableEq

namespace SharedName

def id : SharedName → ObjId
  | .crlf => 0
  | .czero => 1
  | .cone => 2
  | .nullbulk => 3
  | .mbulkhdr length => 4 + length
  | .bulkhdr length => 36 + length

/-- The member at an address. -/
def ofId (id : ℕ) : Option SharedName :=
  if id = 0 then some .crlf
  else if id = 1 then some .czero
  else if id = 2 then some .cone
  else if id = 3 then some .nullbulk
  else if h : id - 4 < sharedBulkhdrLen then some (.mbulkhdr ⟨id - 4, h⟩)
  else if h : id - 36 < sharedBulkhdrLen then some (.bulkhdr ⟨id - 36, h⟩)
  else none

/-- The texts of `createSharedObjects`. -/
def text : SharedName → Bytes
  | .crlf => Reply.crlf
  | .czero => Reply.line ':' (natText 0)
  | .cone => Reply.line ':' (natText 1)
  | .nullbulk => Reply.line '$' (ascii "-1")
  | .mbulkhdr length => line '*' (natText length)
  | .bulkhdr length => line '$' (natText length)

/-- `table[ll]`, for a table of headers. -/
def lookup (table : Fin sharedBulkhdrLen → SharedName) (ll : ℤ) :
    Option SharedName :=
  if h : 0 ≤ ll ∧ ll.toNat < sharedBulkhdrLen then
    some (table ⟨ll.toNat, h.2⟩)
  else none

end SharedName

/-! ## The client -/

/-- A node of the reply list.  `handle` stands for the pointer that
`addDeferredMultiBulkLength` returned, until the length is set. -/
structure Node where
  value : ObjId
  handle : Option ℕ
  deriving DecidableEq

/-- What the reply functions read of a client. -/
structure Peer where
  luaClient : Bool
  master : Bool
  masterForceReply : Bool
  closeAfterReply : Bool
  fd : ℤ
  /-- The write handler could be installed. -/
  installs : Bool

/-- The objects of the server and the output buffers of one client. -/
structure World where
  heap : ObjId → Option Obj
  /-- The first address that was never handed out. -/
  next : ObjId
  /-- The first `bufpos` bytes of `buf`. -/
  buf : Bytes
  sentlen : ℕ
  reply : List Node
  /-- What the socket has taken. -/
  sent : Bytes

/-- The objects of `createSharedObjects` that the reply functions name, before
any client has output. -/
def createSharedObjects : World where
  heap id := (SharedName.ofId id).map fun name => ⟨.raw name.text, 1⟩
  next := 68
  buf := []
  sentlen := 0
  reply := []
  sent := []

namespace World

def setObj (w : World) (id : ObjId) (o : Option Obj) : World :=
  { w with heap := Function.update w.heap id o }

def createObject (w : World) (content : Content) : World × ObjId :=
  ({ w with
      heap := Function.update w.heap w.next (some ⟨content, 1⟩)
      next := w.next + 1 }, w.next)

def createRawStringObject (w : World) (s : Bytes) : Option (World × ObjId) :=
  (sdsnewlen s).map fun s => w.createObject (.raw s)

def createStringObject (w : World) (s : Bytes) : Option (World × ObjId) :=
  if s.length ≤ 32 then some (w.createObject (.embstr s))
  else w.createRawStringObject s

def dupStringObject (w : World) : Content → Option (World × ObjId)
  | .null => none
  | .raw s => w.createRawStringObject s
  | .embstr s => some (w.createObject (.embstr s))
  | .int value => some (w.createObject (.int value))

def incrRefCount (w : World) (id : ObjId) : Option World := do
  let o ← w.heap id
  some (w.setObj id (some { o with refcount := o.refcount + 1 }))

def decrRefCount (w : World) (id : ObjId) : Option World := do
  let o ← w.heap id
  if o.refcount = 0 then none
  else if o.refcount = 1 then some (w.setObj id none)
  else some (w.setObj id (some { o with refcount := o.refcount - 1 }))

def listAddNodeTail (w : World) (node : Node) : World :=
  { w with reply := w.reply ++ [node] }

/-- The object of the last node, as an object only the list owns. -/
def dupLastObjectIfNeeded (w : World) : Option (World × ObjId) := do
  let ln ← w.reply.getLast?
  let cur ← w.heap ln.value
  if 1 < cur.refcount then
    let (w, new) ← w.dupStringObject cur.content
    let w ← w.decrRefCount ln.value
    some ({ w with reply := w.reply.dropLast ++ [{ ln with value := new }] },
      new)
  else some (w, ln.value)

/-- The string of the last object, where it is a raw one. -/
def rawTail (w : World) : Option Bytes := do
  let ln ← w.reply.getLast?
  let tail ← w.heap ln.value
  match tail.content with
  | .raw s => some s
  | _ => none

/-- The last object takes a text when both fit a chunk. -/
def tailTakes (w : World) (s : Bytes) : Bool :=
  w.rawTail.any fun tail => tail.length + s.length ≤ replyChunkBytes

def appendToTail (w : World) (s : Bytes) : Option World := do
  let (w, tail) ← w.dupLastObjectIfNeeded
  let old ← w.rawTail
  let new ← sdscatSized old s
  let o ← w.heap tail
  some (w.setObj tail (some { o with content := .raw new }))

end World

open World

/-- `prepareClientToWrite`. -/
def prepareClientToWrite (c : Peer) (w : World) : Bool :=
  if c.luaClient then true
  else if c.master && !c.masterForceReply then false
  else if c.fd ≤ 0 then false
  else !(w.buf.isEmpty && w.reply.isEmpty && !c.installs)

/-- `_addReplyToBuffer`, with `none` for `REDIS_ERR`. -/
def addReplyToBuffer (c : Peer) (w : World) (s : Bytes) : Option World :=
  if c.closeAfterReply then some w
  else if w.reply ≠ [] then none
  else if replyChunkBytes - w.buf.length < s.length then none
  else some { w with buf := w.buf ++ s }

/-- The common part of the functions that add to the list: the last object
takes the text, or a node is pushed. -/
def addToList (c : Peer) (w : World) (s : Bytes)
    (push : World → Option World) : Option World :=
  if c.closeAfterReply then some w
  else if w.tailTakes s then w.appendToTail s
  else push w

/-- `_addReplyObjectToList`, for an object with the string `s`. -/
def addReplyObjectToList (c : Peer) (w : World) (id : ObjId) (s : Bytes) :
    Option World :=
  addToList c w s fun w =>
    (w.incrRefCount id).map (listAddNodeTail · ⟨id, none⟩)

/-- `_addReplySdsToList`. -/
def addReplySdsToList (c : Peer) (w : World) (s : Bytes) : Option World :=
  addToList c w s fun w =>
    let (w, id) := w.createObject (.raw s)
    some (w.listAddNodeTail ⟨id, none⟩)

/-- `_addReplyStringToList`. -/
def addReplyStringToList (c : Peer) (w : World) (s : Bytes) : Option World :=
  addToList c w s fun w =>
    (w.createStringObject s).map fun (w, id) => w.listAddNodeTail ⟨id, none⟩

/-- To the buffer, or else to the list. -/
def bufferOrList (c : Peer) (w : World) (s : Bytes) (toList : Option World) :
    Option World :=
  (addReplyToBuffer c w s).elim toList some

/-- The end of `addReply`, for the object `getDecodedObject` makes of a
number. -/
def addDecodedObject (c : Peer) (w : World) (value : Int64) :
    Option World := do
  let s := ll2string 32 value.toInt
  let (w, id) ← w.createStringObject s
  let w ← bufferOrList c w s (addReplyObjectToList c w id s)
  w.decrRefCount id

/-- `addReply` for an object with this content. -/
def addReplyContent (c : Peer) (w : World) (id : ObjId) :
    Content → Option World
  | .null => none
  | .raw s | .embstr s =>
    bufferOrList c w s (addReplyObjectToList c w id s)
  | .int value =>
    if w.reply = [] ∧ 32 ≤ replyChunkBytes - w.buf.length then
      bufferOrList c w (ll2string 32 value.toInt) (addDecodedObject c w value)
    else addDecodedObject c w value

def addReply (c : Peer) (w : World) (id : ObjId) : Option World :=
  if prepareClientToWrite c w then do
    let o ← w.heap id
    addReplyContent c w id o.content
  else some w

def addReplySds (c : Peer) (w : World) (s : Bytes) : Option World :=
  if prepareClientToWrite c w then
    bufferOrList c w s (addReplySdsToList c w s)
  else some w

def addReplyString (c : Peer) (w : World) (s : Bytes) : Option World :=
  if prepareClientToWrite c w then
    bufferOrList c w s (addReplyStringToList c w s)
  else some w

def addReplyErrorLength (c : Peer) (w : World) (s : Bytes) :
    Option World := do
  let w ← addReplyString c w (ascii "-ERR ")
  let w ← addReplyString c w s
  addReplyString c w crlf

/-- `addReplyError`; `strlen` stops at a nul. -/
def addReplyError (c : Peer) (w : World) (err : Bytes) : Option World :=
  addReplyErrorLength c w (err.takeWhile (· ≠ 0))

/-- The loop of `addReplyErrorFormat` over the formatted message. -/
def withoutNewlines (s : Bytes) : Bytes :=
  s.map fun b => if b = charCr ∨ b = charLf then charSpace else b

/-- `addReplyErrorFormat`, for the message `sdscatvprintf` made. -/
def addReplyErrorFormat (c : Peer) (w : World) (s : Bytes) : Option World :=
  addReplyErrorLength c w (withoutNewlines s)

def addReplyStatusLength (c : Peer) (w : World) (s : Bytes) :
    Option World := do
  let w ← addReplyString c w (ascii "+")
  let w ← addReplyString c w s
  addReplyString c w crlf

/-- `addReplyStatus`. -/
def addReplyStatus (c : Peer) (w : World) (status : Bytes) : Option World :=
  addReplyStatusLength c w (status.takeWhile (· ≠ 0))

/-- `addReplyStatusFormat`, for the message `sdscatvprintf` made. -/
def addReplyStatusFormat (c : Peer) (w : World) (s : Bytes) : Option World :=
  addReplyStatusLength c w s

/-- `addDeferredMultiBulkLength`; the caller knows the new node by `handle`. -/
def addDeferredMultiBulkLength (c : Peer) (w : World) (handle : ℕ) : World :=
  if prepareClientToWrite c w then
    let (w, id) := w.createObject .null
    w.listAddNodeTail ⟨id, some handle⟩
  else w

/-- The node with a handle, with what stands before and after it. -/
def splitAtHandle (handle : ℕ) :
    List Node → Option (List Node × Node × List Node)
  | [] => none
  | node :: nodes =>
    if node.handle = some handle then some ([], node, nodes)
    else (splitAtHandle handle nodes).map fun (before, found, after) =>
      (node :: before, found, after)

/-- The string of the next object, which is glued; `some none` when there is
nothing to glue. -/
def gluedNext (w : World) (after : List Node) : Option (Option Bytes) :=
  match after.head? with
  | none => some none
  | some next => do
      let o ← w.heap next.value
      match o.content with
      | .null => some none
      | .raw s | .embstr s => some (some s)
      | .int _ => none

/-- The rest of `setDeferredMultiBulkLength`, for the length object `len`: it
takes the header, and the string of the next object, whose node is deleted. -/
def glue (w : World) (before : List Node) (ln : Node) (len : Obj)
    (after : List Node) (header : Bytes) : Option Bytes → Option World
  | none =>
    some { w.setObj ln.value (some { len with content := .raw header }) with
      reply := before ++ { ln with handle := none } :: after }
  | some s => do
      let text ← sdscatSized header s
      let w := w.setObj ln.value (some { len with content := .raw text })
      let next ← after.head?
      let w ← w.decrRefCount next.value
      some { w with
        reply := before ++ { ln with handle := none } :: after.tail }

/-- `setDeferredMultiBulkLength`. -/
def setDeferredMultiBulkLength (w : World) (handle : ℕ) (length : ℤ) :
    Option World :=
  match splitAtHandle handle w.reply with
  | none => some w
  | some (before, ln, after) => do
      let len ← w.heap ln.value
      let s ← gluedNext w after
      glue w before ln len after (line '*' (llText length)) s

/-- `addReplyLongLongWithPrefix`. -/
def addReplyLongLongWithPrefix (c : Peer) (w : World) (ll : ℤ)
    (kind : Char) : Option World :=
  if kind = '*' ∧ ll < sharedBulkhdrLen then do
    let name ← SharedName.lookup .mbulkhdr ll
    addReply c w name.id
  else if kind = '$' ∧ ll < sharedBulkhdrLen then do
    let name ← SharedName.lookup .bulkhdr ll
    addReply c w name.id
  else addReplyString c w (line kind (ll2string 127 ll))

def addReplyLongLong (c : Peer) (w : World) (ll : ℤ) : Option World :=
  if ll = 0 then addReply c w SharedName.czero.id
  else if ll = 1 then addReply c w SharedName.cone.id
  else addReplyLongLongWithPrefix c w ll ':'

def addReplyMultiBulkLen (c : Peer) (w : World) (length : ℤ) : Option World :=
  if length < sharedBulkhdrLen then do
    let name ← SharedName.lookup .mbulkhdr length
    addReply c w name.id
  else addReplyLongLongWithPrefix c w length '*'

/-- The loop of `addReplyBulkLen` that counts digits, over a `long`. -/
def countDigits : ℕ → ℤ → ℕ → ℕ
  | 0, _, len => len
  | fuel + 1, n, len =>
    if n.tdiv 10 = 0 then len else countDigits fuel (n.tdiv 10) (len + 1)

/-- The length `addReplyBulkLen` announces. -/
def bulkLen : Content → Option ℕ
  | .null => none
  | .raw s | .embstr s => some s.length
  | .int value =>
    if value.toInt < 0 then
      some (countDigits 20 ((-value.toInt).bmod (2 ^ 64)) 2)
    else some (countDigits 20 value.toInt 1)

def addReplyBulkLen (c : Peer) (w : World) (id : ObjId) : Option World := do
  let o ← w.heap id
  let len ← bulkLen o.content
  if len < sharedBulkhdrLen then do
    let name ← SharedName.lookup .bulkhdr len
    addReply c w name.id
  else addReplyLongLongWithPrefix c w len '$'

def addReplyBulk (c : Peer) (w : World) (id : ObjId) : Option World := do
  let w ← addReplyBulkLen c w id
  let w ← addReply c w id
  addReply c w SharedName.crlf.id

def addReplyBulkCBuffer (c : Peer) (w : World) (p : Bytes) :
    Option World := do
  let w ← addReplyLongLongWithPrefix c w p.length '$'
  let w ← addReplyString c w p
  addReply c w SharedName.crlf.id

/-- `addReplyBulkCString`, with `none` for `NULL`. -/
def addReplyBulkCString (c : Peer) (w : World) (s : Option Bytes) :
    Option World :=
  s.elim (addReply c w SharedName.nullbulk.id) fun s =>
    addReplyBulkCBuffer c w (s.takeWhile (· ≠ 0))

def addReplyBulkLongLong (c : Peer) (w : World) (ll : ℤ) : Option World :=
  addReplyBulkCBuffer c w (ll2string 64 ll)

/-- A double, by its sign where it is infinite and else by the text that
`%.17g` gives. -/
inductive Double where
  | infinite (positive : Bool)
  | finite (dbuf : Bytes)

/-- `addReplyDouble`, with 128 bytes for the reply. -/
def addReplyDouble (c : Peer) (w : World) : Double → Option World
  | .infinite positive =>
    addReplyBulkCString c w (some (ascii (if positive then "inf" else "-inf")))
  | .finite dbuf =>
    let sbuf := line '$' (natText dbuf.length) ++ dbuf ++ crlf
    if sbuf.length < 128 then addReplyString c w sbuf else none

/-! ## The write handler -/

/-- The answer of the kernel to one `write`: how much of the text it takes,
with nothing for an error; and whether the server is over `maxmemory`
afterwards. -/
structure Round where
  taken : ℕ
  overMaxmemory : Bool

/-- The rounds of the loop that meet an empty object and delete its node. -/
def discardEmpty : List Node → World → Option World
  | [], w => some w
  | node :: nodes, w => do
      let o ← w.heap node.value
      let s ← o.content.sds?
      if s = [] then do
        let w ← w.decrRefCount node.value
        discardEmpty nodes { w with reply := nodes }
      else some w

/-- The part of a round after `write` took `n` bytes of the buffer. -/
def sentFromBuf (w : World) (n : ℕ) : World :=
  let sent := w.sent ++ (w.buf.drop w.sentlen).take n
  if w.sentlen + n = w.buf.length then { w with sent, buf := [], sentlen := 0 }
  else { w with sent, sentlen := w.sentlen + n }

/-- The same for the first object of the list, with the string `s`. -/
def sentFromList (w : World) (node : Node) (nodes : List Node) (s : Bytes)
    (n : ℕ) : Option World :=
  let sent := w.sent ++ (s.drop w.sentlen).take n
  if w.sentlen + n = s.length then do
    let w ← w.decrRefCount node.value
    some { w with sent, reply := nodes, sentlen := 0 }
  else some { w with sent, sentlen := w.sentlen + n }

/-- One `write`: what is left of the buffer, or else of the first object.
Returns the number of bytes taken too. -/
def writeOnce (w : World) (round : Round) : Option (World × ℕ) :=
  if w.buf ≠ [] then
    let n := min round.taken (w.buf.length - w.sentlen)
    some (if n = 0 then w else sentFromBuf w n, n)
  else
    match w.reply with
    | [] => some (w, 0)
    | node :: nodes => do
        let o ← w.heap node.value
        let s ← o.content.sds?
        let n := min round.taken (s.length - w.sentlen)
        if n = 0 then some (w, 0)
        else (sentFromList w node nodes s n).map (·, n)

/-- Empty objects are met once the buffer is sent. -/
def skipEmpty (w : World) : Option World :=
  if w.buf ≠ [] then some w else discardEmpty w.reply w

/-- The loop of `sendReplyToClient`. -/
def sendLoop : List Round → ℕ → World → Option World
  | [], _, w => skipEmpty w
  | round :: rounds, totwritten, w => do
      let w ← skipEmpty w
      let (w, nwritten) ← writeOnce w round
      let totwritten := totwritten + nwritten
      if nwritten = 0 ∨
          (maxWritePerEvent < totwritten ∧ round.overMaxmemory = false) then
        some w
      else sendLoop rounds totwritten w

/-- `sendReplyToClient`, without the closing of the connection. -/
def sendReplyToClient (w : World) (rounds : List Round) : Option World := do
  let w ← sendLoop rounds 0 w
  if w.buf = [] ∧ w.reply = [] then some { w with sentlen := 0 } else some w

end RedisV8.Output
