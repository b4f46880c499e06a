import RedisV8.Util.Sds

/-!
# The request parser

The input side of `networking.c`.  Bytes accumulate in the query buffer of a
client; `processInputBuffer` takes requests off its front, in the inline or in
the multi-bulk form, and keeps its place inside a multi-bulk request between
two reads.  It stops when the buffer runs dry, when a command blocks the
client, and for good after a protocol error or QUIT.
-/

namespace RedisV8.Networking

open Util

def inlineMaxSize : ℕ := 1024 * 64
def mbulkBigArg : ℕ := 1024 * 32
def maxMultibulkLen : ℤ := 1024 * 1024
def maxBulkLen : ℤ := 512 * 1024 * 1024

/-- `server.client_max_querybuf_len`. -/
def maxQuerybufLen : ℕ := 1024 * 1024 * 1024

inductive ReqType where
  | inline
  | multibulk
  deriving DecidableEq, Repr

/-- What the input of a client amounts to: a protocol error with its text, or
a request with its arguments. -/
abbrev Event := Except Bytes (List Bytes)

structure Client where
  querybuf : Bytes
  reqtype : Option ReqType
  multibulklen : ℕ
  /-- `none` where the source stores `-1`. -/
  bulklen : Option ℕ
  argv : List Bytes
  blocked : Bool
  closeAfterReply : Bool
  /-- The requests handed to `processCommand` and the protocol errors replied,
  in order. -/
  events : List Event

/-- `createClient`. -/
def Client.create : Client :=
  { querybuf := []
    reqtype := none
    multibulklen := 0
    bulklen := none
    argv := []
    blocked := false
    closeAfterReply := false
    events := [] }

/-- How far a parsing function came.  All but `ok` are `REDIS_ERR`; they are
told apart to say later which of them occurred. -/
inductive Progress where
  | ok
  | wait
  | tooBig
  | invalid
  deriving DecidableEq, Repr

/-- `addReplyError` and `setProtocolError`: the error is replied, and the
consumed bytes leave the buffer. -/
def protocolError (c : Client) (text : Bytes) (pos : ℕ) : Client :=
  { c with
    querybuf := c.querybuf.drop pos
    closeAfterReply := true
    events := c.events ++ [.error text] }

def tooBigInline : Bytes := ascii "Protocol error: too big inline request"
def tooBigMbulkCount : Bytes :=
  ascii "Protocol error: too big mbulk count string"
def tooBigBulkCount : Bytes := ascii "Protocol error: too big bulk count string"
def unbalancedQuotes : Bytes :=
  ascii "Protocol error: unbalanced quotes in request"
def invalidMultibulkLength : Bytes :=
  ascii "Protocol error: invalid multibulk length"
def invalidBulkLength : Bytes := ascii "Protocol error: invalid bulk length"

/-- The text of the error for a byte other than `$`, with newlines replaced
as `addReplyErrorFormat` does. -/
def expectedDollar (got : UInt8) : Bytes :=
  ascii "Protocol error: expected '$', got '" ++
    [if got = charCr ∨ got = charLf then charSpace else got] ++ ascii "'"

/-- The end of line of an inline request: `\r\n` or a bare `\n`. -/
def querylen (querybuf : Bytes) (newline : ℕ) : ℕ :=
  if newline ≠ 0 ∧ querybuf[newline - 1]? = some charCr then newline - 1
  else newline

def processInlineBuffer (c : Client) : Client × Progress :=
  match strchr charLf c.querybuf with
  | none =>
    if inlineMaxSize < c.querybuf.length then
      (protocolError c tooBigInline 0, .tooBig)
    else (c, .wait)
  | some newline =>
    let querylen := querylen c.querybuf newline
    match sdssplitargs (c.querybuf.take querylen) with
    | none => (protocolError c unbalancedQuotes 0, .invalid)
    | some argv =>
      ({ c with
        querybuf := c.querybuf.drop (querylen + 2)
        argv := argv.filter (· ≠ []) }, .ok)

/-- The outcome of reading a `$<len>` line. -/
inductive BulkLen where
  | wait
  | tooBig
  | invalid (text : Bytes)
  | found (querybuf : Bytes) (pos len : ℕ)

/-- The first half of the loop in `processMultibulkBuffer`.  Before a large
argument the buffer is trimmed, so that the argument starts it. -/
def readBulkLen (querybuf : Bytes) (pos : ℕ) : BulkLen :=
  match strchr charCr (querybuf.drop pos) with
  | none => if inlineMaxSize < querybuf.length then .tooBig else .wait
  | some newline =>
    if querybuf.length < pos + newline + 2 then .wait
    else
      let got := (querybuf.drop pos).headD 0
      if got ≠ 36 then .invalid (expectedDollar got)
      else
        match string2ll (((querybuf.drop pos).take newline).drop 1) with
        | none => .invalid invalidBulkLength
        | some ll =>
          if ll < 0 ∨ maxBulkLen < ll then .invalid invalidBulkLength
          else
            let pos := pos + newline + 2
            if mbulkBigArg ≤ ll.toNat then
              .found (querybuf.drop pos) 0 ll.toNat
            else .found querybuf pos ll.toNat

/-- The second half: the argument itself and the two bytes after it.  A buffer
that holds nothing else is taken over as the argument. -/
def readBulkData (querybuf : Bytes) (pos len : ℕ) :
    Option (Bytes × Bytes × ℕ) :=
  if querybuf.length - pos < len + 2 then none
  else if pos = 0 ∧ mbulkBigArg ≤ len ∧ querybuf.length = len + 2 then
    some (querybuf.take len, [], 0)
  else some ((querybuf.drop pos).take len, querybuf, pos + len + 2)

/-- The length of the next argument, read now if it is unknown. -/
def bulkHeader (c : Client) (pos : ℕ) : BulkLen :=
  match c.bulklen with
  | some len => .found c.querybuf pos len
  | none => readBulkLen c.querybuf pos

/-- The loop of `processMultibulkBuffer`, with the position it reached. -/
def bulkLoop : ℕ → Client → ℕ → Client × ℕ × Progress
  | 0, c, pos => (c, pos, .ok)
  | multibulklen + 1, c, pos =>
    match bulkHeader c pos with
    | .wait => (c, pos, .wait)
    | .tooBig => (protocolError c tooBigBulkCount 0, pos, .tooBig)
    | .invalid text => (protocolError c text pos, 0, .invalid)
    | .found querybuf pos len =>
      match readBulkData querybuf pos len with
      | none => ({ c with querybuf, bulklen := some len }, pos, .wait)
      | some (arg, querybuf, pos) =>
        bulkLoop multibulklen
          { c with
            querybuf
            multibulklen
            bulklen := none
            argv := c.argv ++ [arg] } pos

/-- The loop and the final trim to the position. -/
def readBulks (c : Client) (pos : ℕ) : Client × Progress :=
  let (c, pos, progress) := bulkLoop c.multibulklen c pos
  ({ c with querybuf := c.querybuf.drop pos }, progress)

def processMultibulkBuffer (c : Client) : Client × Progress :=
  if c.multibulklen = 0 then
    match strchr charCr c.querybuf with
    | none =>
      if inlineMaxSize < c.querybuf.length then
        (protocolError c tooBigMbulkCount 0, .tooBig)
      else (c, .wait)
    | some newline =>
      if c.querybuf.length < newline + 2 then (c, .wait)
      else
        match string2ll ((c.querybuf.take newline).drop 1) with
        | none => (protocolError c invalidMultibulkLength 0, .invalid)
        | some ll =>
          if maxMultibulkLen < ll then
            (protocolError c invalidMultibulkLength 0, .invalid)
          else if ll ≤ 0 then
            ({ c with querybuf := c.querybuf.drop (newline + 2) }, .ok)
          else
            readBulks { c with multibulklen := ll.toNat, argv := [] }
              (newline + 2)
  else readBulks c 0

def resetClient (c : Client) : Client :=
  { c with argv := [], reqtype := none, multibulklen := 0, bulklen := none }

section Commands

-- which requests close the connection, as QUIT does, and whether the command
-- just run has blocked the client
variable (closes : List Bytes → Bool) (blocks : List Event → Bool)

/-- The request goes to `processCommand`; an empty one is dropped. -/
def execute (c : Client) : Client :=
  if c.argv = [] then resetClient c
  else
    let events := c.events ++ [.ok c.argv]
    if closes c.argv then { c with events, closeAfterReply := true }
    else { resetClient c with events, blocked := blocks events }

/-- The type of a request, from its first byte when unknown. -/
def requestType (c : Client) : ReqType :=
  match c.reqtype with
  | some reqtype => reqtype
  | none => if c.querybuf.head? = some 42 then .multibulk else .inline

/-- The parsing function for the type of the request. -/
def processBuffer (c : Client) : Client × Progress :=
  match requestType c with
  | .inline => processInlineBuffer { c with reqtype := some .inline }
  | .multibulk => processMultibulkBuffer { c with reqtype := some .multibulk }

/-- The loop of `processInputBuffer`; each round takes one byte at least. -/
def inputLoop : ℕ → Client → Client
  | 0, c => c
  | fuel + 1, c =>
    if c.querybuf = [] ∨ c.blocked ∨ c.closeAfterReply then c
    else
      match processBuffer c with
      | (c, .ok) => inputLoop fuel (execute closes blocks c)
      | (c, _) => c

def processInputBuffer (c : Client) : Client :=
  inputLoop closes blocks (c.querybuf.length + 1) c

/-- `readQueryFromClient`, for a read that returned `data`. -/
def readQueryFromClient (c : Client) (data : Bytes) : Client :=
  processInputBuffer closes blocks { c with querybuf := c.querybuf ++ data }

end Commands

/-- `unblockClient`. -/
def unblockClient (c : Client) : Client := { c with blocked := false }

end RedisV8.Networking
