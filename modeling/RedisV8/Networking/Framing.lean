import RedisV8.Lib.Streaming
import RedisV8.Networking.Requests

/-!
# Request framing

The requests of a byte stream are defined on the stream as a whole, one after
the other, each starting right after the one before it.  The request parser
sees the stream in pieces, and now and then not at all while its client is
blocked; it finds the same requests and errors as long as two things do not
happen: an inline request that ends in a bare `\n` with more bytes already in
the buffer, and a line end that is missing from a buffer over the limit.
-/

namespace RedisV8.Networking

open Util Streaming Streaming.Parse List

/-! ## Requests of a whole stream -/

/-- Bytes to one item, with the texts of protocol errors. -/
abbrev Parsed (α : Type) := Parse UInt8 Bytes α

/-- A line that ends in `\r` and one more byte. -/
def lineOf (s : Bytes) : Parsed Bytes :=
  match strchr charCr s with
  | none => .incomplete
  | some newline =>
    if s.length < newline + 2 then .incomplete
    else .done (s.take newline) (s.drop (newline + 2))

/-- What a line says, or what is wrong with it. -/
def onLine {α : Type} (read : Bytes → Except Bytes α) (s : Bytes) : Parsed α :=
  (lineOf s).bind fun line rest =>
    match read line with
    | .error text => .error text
    | .ok item => .done item rest

/-- The length in a `$<len>` line. -/
def bulkLenLine (line : Bytes) : Except Bytes ℕ :=
  let got := line.headD charCr
  if got ≠ 36 then .error (expectedDollar got)
  else
    match string2ll (line.drop 1) with
    | none => .error invalidBulkLength
    | some ll =>
      if ll < 0 ∨ maxBulkLen < ll then .error invalidBulkLength
      else .ok ll.toNat

/-- The count in a `*<count>` line. -/
def mbulkCountLine (line : Bytes) : Except Bytes ℕ :=
  match string2ll (line.drop 1) with
  | none => .error invalidMultibulkLength
  | some ll =>
    if maxMultibulkLen < ll then .error invalidMultibulkLength
    else .ok ll.toNat

def bulkDataOf (len : ℕ) (s : Bytes) : Parsed Bytes :=
  if s.length < len + 2 then .incomplete
  else .done (s.take len) (s.drop (len + 2))

def bulksOf : ℕ → Bytes → Parsed (List Bytes)
  | 0, s => .done [] s
  | count + 1, s =>
    (onLine bulkLenLine s).bind fun len s =>
      (bulkDataOf len s).bind fun arg s => (bulksOf count s).map (arg :: ·)

def multibulkOf (s : Bytes) : Parsed (List Bytes) :=
  (onLine mbulkCountLine s).bind bulksOf

def inlineOf (s : Bytes) : Parsed (List Bytes) :=
  match strchr charLf s with
  | none => .incomplete
  | some newline =>
    match sdssplitargs (s.take (querylen s newline)) with
    | none => .error unbalancedQuotes
    | some argv => .done (argv.filter (· ≠ [])) (s.drop (newline + 1))

/-- The request at the start of a stream. -/
def requestOf (s : Bytes) : Parsed (List Bytes) :=
  if s = [] then .incomplete
  else if s.head? = some 42 then multibulkOf s
  else inlineOf s

/-- Empty requests go unnoticed. -/
def isVisible : Event → Bool
  | .ok argv => argv ≠ []
  | .error _ => true

section Stream

variable (closes : List Bytes → Bool)

def isLast (argv : List Bytes) : Bool := argv ≠ [] && closes argv

/-- The requests and errors of a stream, read from its start. -/
def frames (s : Bytes) : List Event :=
  (readAll requestOf (isLast closes) s).filter isVisible

/-- Those of a stream whose first request is read by `first`. -/
def framesFrom (first : Bytes → Parsed (List Bytes)) (s : Bytes) : List Event :=
  (readFrom requestOf (isLast closes) first s).filter isVisible

end Stream

/-! ## The parsers are stable -/

section Stability

theorem lineOf_cases (s : Bytes) :
    lineOf s = .incomplete ∨ ∃ newline, strchr charCr s = some newline ∧
      newline + 2 ≤ s.length ∧
      lineOf s = .done (s.take newline) (s.drop (newline + 2)) := by
  rw [lineOf]
  cases hfound : strchr charCr s with
  | none => exact Or.inl rfl
  | some newline =>
    dsimp only
    split
    · exact Or.inl rfl
    · rename_i hlen
      exact Or.inr ⟨newline, rfl, by omega, rfl⟩

theorem stable_lineOf : Stable lineOf := by
  intro s more hdecided
  obtain hinc | ⟨newline, hfound, hlen, hdone⟩ := lineOf_cases s
  · exact absurd hinc hdecided
  rw [hdone, lineOf, strchr_append hfound]
  dsimp only
  rw [if_neg (by rw [length_append]; omega),
    take_append_of_le_length (by omega),
    drop_append_of_le_length (by omega)]
  rfl

theorem stable_onLine {α : Type} (read : Bytes → Except Bytes α) :
    Stable (onLine read) := by
  refine stable_lineOf.bind fun line => ?_
  intro s more hdecided
  dsimp only
  cases read line <;> rfl

theorem onLine_of_error {α : Type} {read : Bytes → Except Bytes α}
    {s line rest text : Bytes} (hline : lineOf s = .done line rest)
    (hread : read line = .error text) : onLine read s = .error text := by
  rw [onLine, hline]
  dsimp only [Parse.bind]
  rw [hread]

theorem onLine_of_ok {α : Type} {read : Bytes → Except Bytes α}
    {s line rest : Bytes} {item : α} (hline : lineOf s = .done line rest)
    (hread : read line = .ok item) : onLine read s = .done item rest := by
  rw [onLine, hline]
  dsimp only [Parse.bind]
  rw [hread]

theorem stable_bulkDataOf (len : ℕ) : Stable (bulkDataOf len) := by
  intro s more hdecided
  rw [bulkDataOf] at hdecided ⊢
  split at hdecided
  · exact absurd rfl hdecided
  rename_i hlen
  rw [bulkDataOf, if_neg hlen, if_neg (by rw [length_append]; omega),
    take_append_of_le_length (by omega),
    drop_append_of_le_length (by omega)]
  rfl

theorem querylen_append {s : Bytes} {newline : ℕ} (hlt : newline < s.length)
    (more : Bytes) : querylen (s ++ more) newline = querylen s newline := by
  rw [querylen, querylen, List.getElem?_append_left (by omega)]

theorem querylen_le (s : Bytes) (newline : ℕ) :
    querylen s newline ≤ newline := by
  rw [querylen]
  split <;> omega

theorem stable_inlineOf : Stable inlineOf := by
  intro s more hdecided
  cases hfound : strchr charLf s with
  | none =>
    rw [inlineOf, hfound] at hdecided
    exact absurd rfl hdecided
  | some newline =>
    have hlt := strchr_lt hfound
    have hle := querylen_le s newline
    rw [inlineOf, inlineOf, hfound, strchr_append hfound]
    dsimp only
    rw [querylen_append hlt, take_append_of_le_length (by omega)]
    cases sdssplitargs (s.take (querylen s newline)) with
    | none => rfl
    | some argv =>
      dsimp only
      rw [drop_append_of_le_length (by omega)]
      rfl

theorem requestOf_cons (b : UInt8) (s : Bytes) :
    requestOf (b :: s) =
      if b = 42 then multibulkOf (b :: s) else inlineOf (b :: s) := by
  simp [requestOf]

end Stability

/-! ## The parsers consume -/

section Consumption

theorem length_lt_of_lineOf {s line rest : Bytes}
    (hdone : lineOf s = .done line rest) : rest.length < s.length := by
  obtain hinc | ⟨newline, hfound, hlen, hdone'⟩ := lineOf_cases s
  · rw [hinc] at hdone
    cases hdone
  rw [hdone] at hdone'
  cases hdone'
  rw [length_drop]
  omega

theorem bind_eq_done {α β : Type} {r : Parsed α}
    {f : α → Bytes → Parsed β} {item : β} {rest : Bytes}
    (hdone : r.bind f = .done item rest) :
    ∃ a s, r = .done a s ∧ f a s = .done item rest := by
  cases r with
  | incomplete => cases hdone
  | error reason => cases hdone
  | done a s => exact ⟨a, s, rfl, hdone⟩

theorem length_lt_of_onLine {α : Type} {read : Bytes → Except Bytes α}
    {s rest : Bytes} {item : α} (hdone : onLine read s = .done item rest) :
    rest.length < s.length := by
  obtain ⟨line, rest', hline, hread⟩ := bind_eq_done hdone
  have hlt := length_lt_of_lineOf hline
  cases hresult : read line with
  | error text =>
    rw [hresult] at hread
    cases hread
  | ok item' =>
    rw [hresult] at hread
    cases hread
    exact hlt

theorem length_le_of_bulkDataOf {len : ℕ} {s arg rest : Bytes}
    (hdone : bulkDataOf len s = .done arg rest) :
    rest.length < s.length := by
  rw [bulkDataOf] at hdone
  split at hdone
  · cases hdone
  · cases hdone
    rw [length_drop]
    omega

theorem length_le_of_bulksOf {count : ℕ} {s rest : Bytes} {args : List Bytes}
    (hdone : bulksOf count s = .done args rest) :
    rest.length + count ≤ s.length := by
  induction count generalizing s rest args with
  | zero =>
    cases hdone
    exact le_rfl
  | succ count ih =>
    obtain ⟨len, s1, hline, hrest1⟩ := bind_eq_done hdone
    obtain ⟨arg, s2, hdata, hrest2⟩ := bind_eq_done hrest1
    obtain ⟨args', s3, hargs, hlast⟩ := bind_eq_done hrest2
    cases hlast
    have h1 := length_lt_of_onLine hline
    have h2 := length_le_of_bulkDataOf hdata
    have h3 := ih hargs
    omega

theorem consuming_requestOf : Consuming requestOf := by
  intro s item rest hdone
  rw [requestOf] at hdone
  split at hdone
  · cases hdone
  split at hdone
  · obtain ⟨count, s1, hline, hargs⟩ := bind_eq_done hdone
    have h1 := length_lt_of_onLine hline
    have h2 := length_le_of_bulksOf hargs
    omega
  rw [inlineOf] at hdone
  cases hfound : strchr charLf s with
  | none =>
    rw [hfound] at hdone
    cases hdone
  | some newline =>
    have hlt := strchr_lt hfound
    rw [hfound] at hdone
    dsimp only at hdone
    split at hdone
    · cases hdone
    · cases hdone
      rw [length_drop]
      omega

end Consumption

/-! ## The parser in the middle of a request -/

section Resume

/-- What the loop over the arguments has still to read. -/
def restOfBulks (c : Client) (s : Bytes) : Parsed (List Bytes) :=
  match c.bulklen with
  | none => (bulksOf c.multibulklen s).map (c.argv ++ ·)
  | some len =>
    (bulkDataOf len s).bind fun arg s =>
      (bulksOf (c.multibulklen - 1) s).map (c.argv ++ [arg] ++ ·)

/-- What a client has still to read of its current request. -/
def resume (c : Client) (s : Bytes) : Parsed (List Bytes) :=
  if c.multibulklen = 0 then requestOf s else restOfBulks c s

/-- Whether bytes run out inside a line: `inLine` says it of the first item,
`next` of what comes after it. -/
def cutIn {α : Type} (first : Parsed α) (inLine : Bool)
    (next : α → Bytes → Bool) : Bool :=
  match first with
  | .incomplete => inLine
  | .error _ => false
  | .done item rest => next item rest

def noLineEnd (s : Bytes) : Bool := (strchr charCr s).isNone

/-- The bytes for so many arguments run out inside a `$<len>` line. -/
def bulksCut : ℕ → Bytes → Bool
  | 0, _ => false
  | count + 1, s =>
    cutIn (onLine bulkLenLine s) (noLineEnd s) fun len s =>
      cutIn (bulkDataOf len s) false fun _ s => bulksCut count s

def restCut (c : Client) (s : Bytes) : Bool :=
  match c.bulklen with
  | none => bulksCut c.multibulklen s
  | some len =>
    cutIn (bulkDataOf len s) false fun _ s => bulksCut (c.multibulklen - 1) s

/-- The buffer ends inside a line of the request at its front. -/
def lineCut (c : Client) : Bool :=
  if c.multibulklen ≠ 0 then restCut c c.querybuf
  else if c.querybuf.head? = some 42 then
    cutIn (onLine mbulkCountLine c.querybuf) (noLineEnd c.querybuf) bulksCut
  else (strchr charLf c.querybuf).isNone

/-- A buffer over the limit that ends inside a line. -/
def Overlong (c : Client) : Prop :=
  inlineMaxSize < c.querybuf.length ∧ lineCut c = true

instance (c : Client) : Decidable (Overlong c) :=
  inferInstanceAs (Decidable (_ ∧ _))

theorem headD_of_strchr {c d : UInt8} {s : Bytes} {n : ℕ}
    (hfound : strchr c s = some n) : s.headD d = (s.take n).headD c := by
  cases s with
  | nil => cases hfound
  | cons b s =>
    rw [strchr] at hfound
    split_ifs at hfound with hb hz
    · cases hfound
      exact hb
    · obtain ⟨m, -, rfl⟩ := Option.map_eq_some_iff.1 hfound
      rfl

/-- The header of an argument, as the loop and as the stream read it. -/
theorem readBulkLen_spec (querybuf : Bytes) (pos : ℕ) :
    match readBulkLen querybuf pos with
    | .wait => onLine bulkLenLine (querybuf.drop pos) = .incomplete
    | .tooBig => onLine bulkLenLine (querybuf.drop pos) = .incomplete ∧
        noLineEnd (querybuf.drop pos) = true ∧ inlineMaxSize < querybuf.length
    | .invalid text => onLine bulkLenLine (querybuf.drop pos) = .error text
    | .found querybuf' pos' len =>
      onLine bulkLenLine (querybuf.drop pos) =
        .done len (querybuf'.drop pos') ∧
        querybuf'.length ≤ querybuf.length := by
  rw [readBulkLen, onLine, lineOf]
  cases hfound : strchr charCr (querybuf.drop pos) with
  | none =>
    dsimp only
    by_cases hbig : inlineMaxSize < querybuf.length
    · rw [if_pos hbig]
      exact ⟨rfl, by rw [noLineEnd, hfound]; rfl, hbig⟩
    · rw [if_neg hbig]
      rfl
  | some newline =>
    have hlt := strchr_lt hfound
    rw [length_drop] at hlt
    have hiff : querybuf.length < pos + newline + 2 ↔
        (querybuf.drop pos).length < newline + 2 := by
      rw [length_drop]
      omega
    have hdrop : (querybuf.drop pos).drop (newline + 2) =
        querybuf.drop (pos + newline + 2) := by
      rw [drop_drop, Nat.add_assoc]
    dsimp only
    by_cases hshort : querybuf.length < pos + newline + 2
    · rw [if_pos hshort, if_pos (hiff.1 hshort)]
      rfl
    rw [if_neg hshort, if_neg (fun h => hshort (hiff.2 h)), hdrop,
      headD_of_strchr hfound]
    dsimp only [Parse.bind]
    rw [bulkLenLine]
    by_cases hgot : ((querybuf.drop pos).take newline).headD charCr = 36
    · rw [if_neg (not_not.2 hgot), if_neg (not_not.2 hgot)]
      cases string2ll (((querybuf.drop pos).take newline).drop 1) with
      | none => rfl
      | some ll =>
        dsimp only
        by_cases hrange : ll < 0 ∨ maxBulkLen < ll
        · rw [if_pos hrange, if_pos hrange]
        rw [if_neg hrange, if_neg hrange]
        by_cases hbig : mbulkBigArg ≤ ll.toNat
        · rw [if_pos hbig]
          exact ⟨rfl, by rw [length_drop]; omega⟩
        · rw [if_neg hbig]
          exact ⟨rfl, le_rfl⟩
    · rw [if_pos hgot, if_pos hgot]

theorem readBulkData_spec (querybuf : Bytes) (pos len : ℕ) :
    match readBulkData querybuf pos len with
    | none => bulkDataOf len (querybuf.drop pos) = .incomplete
    | some (arg, querybuf', pos') =>
      bulkDataOf len (querybuf.drop pos) =
        .done arg (querybuf'.drop pos') ∧
        querybuf'.length ≤ querybuf.length := by
  have hlen : (querybuf.drop pos).length = querybuf.length - pos :=
    length_drop
  rw [readBulkData, bulkDataOf, hlen]
  by_cases hshort : querybuf.length - pos < len + 2
  · rw [if_pos hshort, if_pos hshort]
  rw [if_neg hshort, if_neg hshort, drop_drop]
  by_cases hall : pos = 0 ∧ mbulkBigArg ≤ len ∧ querybuf.length = len + 2
  · rw [if_pos hall]
    obtain ⟨rfl, -, hall⟩ := hall
    rw [Nat.zero_add, ← hall, drop_length]
    exact ⟨rfl, Nat.zero_le _⟩
  · rw [if_neg hall, ← Nat.add_assoc]
    exact ⟨rfl, le_rfl⟩

/-- What became of a request of which `rest` was left to read, when the parser
returned with a position in the buffer. -/
def Outcome (rest : Bytes → Parsed (List Bytes)) (before after : Client)
    (left : Bytes) (progress : Progress)
    (next : Client → Bytes → Parsed (List Bytes)) : Prop :=
  match progress with
  | .ok => (∀ more, rest more = .done after.argv (left ++ more)) ∧
      after.events = before.events ∧
      after.closeAfterReply = before.closeAfterReply
  | .wait => (∀ more, rest more = next after (left ++ more)) ∧
      rest [] = .incomplete ∧ after.events = before.events ∧
      after.closeAfterReply = before.closeAfterReply
  | .invalid => ∃ text, (∀ more, rest more = .error text) ∧
      after.events = before.events ++ [.error text] ∧
      after.closeAfterReply = true
  | .tooBig => True

/-- A client is called waiting in the state it waits in, and a line is only
called too long while it is incomplete and `cut` tells so. -/
def Returned (rest : Bytes → Parsed (List Bytes)) (before after : Client)
    (left : Bytes) (progress : Progress)
    (next : Client → Bytes → Parsed (List Bytes)) (waits : Client → Prop)
    (cut : Prop) : Prop :=
  Outcome rest before after left progress next ∧
    (progress = .wait → waits after) ∧
    (progress = .tooBig → rest [] = .incomplete ∧ cut)

theorem restOfBulks_none {c : Client} (hlen : c.bulklen = none) (s : Bytes) :
    restOfBulks c s = (bulksOf c.multibulklen s).map (c.argv ++ ·) := by
  rw [restOfBulks, hlen]

theorem restOfBulks_some {c : Client} {len : ℕ} (hlen : c.bulklen = some len)
    (s : Bytes) :
    restOfBulks c s = (bulkDataOf len s).bind fun arg s =>
      (bulksOf (c.multibulklen - 1) s).map (c.argv ++ [arg] ++ ·) := by
  rw [restOfBulks, hlen]

theorem bulksOf_succ_map (count : ℕ) (argv : List Bytes) (s : Bytes) :
    (bulksOf (count + 1) s).map (argv ++ ·) =
      (onLine bulkLenLine s).bind fun len s =>
        (bulkDataOf len s).bind fun arg s =>
          (bulksOf count s).map (argv ++ [arg] ++ ·) := by
  rw [bulksOf]
  cases onLine bulkLenLine s with
  | incomplete => rfl
  | error text => rfl
  | done len s1 =>
    dsimp only [Parse.bind, Parse.map]
    cases bulkDataOf len s1 with
    | incomplete => rfl
    | error text => rfl
    | done arg s2 =>
      dsimp only
      cases bulksOf count s2 <;> simp

/-- The length of the next argument, whether known or read now. -/
theorem bulkHeader_spec {c : Client} {count : ℕ}
    (hcount : c.multibulklen = count + 1) (pos : ℕ) :
    match bulkHeader c pos with
    | .wait => c.bulklen = none ∧
        restOfBulks c (c.querybuf.drop pos) = .incomplete
    | .tooBig => restOfBulks c (c.querybuf.drop pos) = .incomplete ∧
        inlineMaxSize < c.querybuf.length ∧
        restCut c (c.querybuf.drop pos) = true
    | .invalid text =>
      ∀ more, restOfBulks c (c.querybuf.drop pos ++ more) = .error text
    | .found querybuf pos' len =>
      (∀ more, restOfBulks c (c.querybuf.drop pos ++ more) =
        (bulkDataOf len (querybuf.drop pos' ++ more)).bind fun arg s =>
          (bulksOf count s).map (c.argv ++ [arg] ++ ·)) ∧
        querybuf.length ≤ c.querybuf.length ∧
        restCut c (c.querybuf.drop pos) =
          cutIn (bulkDataOf len (querybuf.drop pos')) false
            fun _ s => bulksCut count s := by
  rw [bulkHeader]
  cases hlen : c.bulklen with
  | some len =>
    refine ⟨fun more => ?_, le_rfl, ?_⟩
    · rw [restOfBulks_some hlen, hcount, Nat.add_sub_cancel]
    · rw [restCut, hlen, hcount]
      rfl
  | none =>
    have hread := readBulkLen_spec c.querybuf pos
    have hrest : ∀ s, restOfBulks c s = (onLine bulkLenLine s).bind
        fun len s => (bulkDataOf len s).bind fun arg s =>
          (bulksOf count s).map (c.argv ++ [arg] ++ ·) := by
      intro s
      rw [restOfBulks_none hlen, hcount, bulksOf_succ_map]
    have hcut : restCut c (c.querybuf.drop pos) =
        bulksCut (count + 1) (c.querybuf.drop pos) := by
      rw [restCut, hlen, hcount]
    rw [bulksCut] at hcut
    dsimp only
    cases hresult : readBulkLen c.querybuf pos with
    | tooBig =>
      rw [hresult] at hread
      obtain ⟨hline, hnone, hbig⟩ := hread
      rw [hline] at hcut
      dsimp only
      rw [hrest, hline]
      exact ⟨rfl, hbig, hcut.trans hnone⟩
    | wait =>
      rw [hresult] at hread
      dsimp only at hread ⊢
      rw [hrest, hread]
      exact ⟨rfl, rfl⟩
    | invalid text =>
      rw [hresult] at hread
      intro more
      rw [hrest, (stable_onLine bulkLenLine).of_error hread]
      rfl
    | found querybuf pos' len =>
      rw [hresult] at hread
      rw [hread.1] at hcut
      refine ⟨fun more => ?_, hread.2, hcut⟩
      rw [hrest, (stable_onLine bulkLenLine).of_done hread.1]
      rfl

theorem bulkLoop_outcome {count : ℕ} {c : Client} {pos : ℕ}
    (hcount : c.multibulklen = count)
    (hidle : count = 0 → c.bulklen = none) :
    Returned (fun more => restOfBulks c (c.querybuf.drop pos ++ more)) c
      (bulkLoop count c pos).1
      ((bulkLoop count c pos).1.querybuf.drop (bulkLoop count c pos).2.1)
      (bulkLoop count c pos).2.2 restOfBulks
      (fun after => 0 < after.multibulklen ∧ after.reqtype = c.reqtype)
      (inlineMaxSize < c.querybuf.length ∧
        restCut c (c.querybuf.drop pos) = true) := by
  induction count generalizing c pos with
  | zero =>
    refine ⟨⟨fun more => ?_, rfl, rfl⟩, nofun, nofun⟩
    dsimp only
    rw [restOfBulks_none (hidle rfl), hcount, bulksOf, Parse.map_done,
      append_nil]
    rfl
  | succ count ih =>
    have hpos : 0 < c.multibulklen := by omega
    have hheader := bulkHeader_spec hcount pos
    rw [bulkLoop]
    cases hresult : bulkHeader c pos with
    | tooBig =>
      rw [hresult] at hheader
      refine ⟨trivial, nofun, fun _ => ?_⟩
      beta_reduce
      rw [append_nil]
      exact hheader
    | wait =>
      rw [hresult] at hheader
      refine ⟨⟨fun more => rfl, ?_, rfl, rfl⟩, fun _ => ⟨hpos, rfl⟩, nofun⟩
      dsimp only
      rw [append_nil]
      exact hheader.2
    | invalid text =>
      rw [hresult] at hheader
      exact ⟨⟨text, hheader, rfl, rfl⟩, nofun, nofun⟩
    | found querybuf pos' len =>
      rw [hresult] at hheader
      obtain ⟨hheader, hle, hcut⟩ := hheader
      have hdata := readBulkData_spec querybuf pos' len
      dsimp only
      cases hbytes : readBulkData querybuf pos' len with
      | none =>
        rw [hbytes] at hdata
        refine ⟨⟨fun more => ?_, ?_, rfl, rfl⟩, fun _ => ⟨hpos, rfl⟩, nofun⟩
        · dsimp only
          rw [hheader, restOfBulks_some rfl, hcount, Nat.add_sub_cancel]
        · dsimp only
          rw [hheader, append_nil, hdata]
          rfl
      | some found =>
        obtain ⟨arg, querybuf', pos''⟩ := found
        rw [hbytes] at hdata
        obtain ⟨hdata, hle'⟩ := hdata
        rw [hdata] at hcut
        dsimp only
        let c' : Client := { c with
          querybuf := querybuf'
          multibulklen := count
          bulklen := none
          argv := c.argv ++ [arg] }
        have hnext := @ih c' pos'' rfl fun _ => rfl
        have hrest : (fun more =>
            restOfBulks c (c.querybuf.drop pos ++ more)) =
            fun more => restOfBulks c' (querybuf'.drop pos'' ++ more) := by
          funext more
          rw [hheader, (stable_bulkDataOf len).of_done hdata,
            restOfBulks_none rfl]
          rfl
        rw [hrest]
        exact ⟨hnext.1, hnext.2.1, fun hbig => (hnext.2.2 hbig).imp_right
          fun h => ⟨h.1.trans_le (hle'.trans hle), hcut.trans h.2⟩⟩

end Resume

/-! ## One request from the buffer -/

section OneRequest

/-- What the fields of a client say about each other between two rounds. -/
structure Consistent (c : Client) : Prop where
  idle : c.multibulklen = 0 → c.bulklen = none ∧ c.argv = []
  reqtype : ∀ reqtype, c.reqtype = some reqtype →
    c.multibulklen = 0 → c.querybuf ≠ [] ∧
      (reqtype = .multibulk ↔ c.querybuf.head? = some 42)
  inside : 0 < c.multibulklen → c.reqtype = some .multibulk

/-- The buffer starts with an inline request that ends in a bare newline and
is not the last thing in the buffer. -/
def SkipsByte (c : Client) : Prop :=
  requestType c = .inline ∧ ∃ newline, strchr charLf c.querybuf = some newline ∧
    querylen c.querybuf newline = newline ∧ newline + 1 < c.querybuf.length

instance (c : Client) : Decidable (SkipsByte c) :=
  decidable_of_iff
    (requestType c = .inline ∧ (strchr charLf c.querybuf).any (fun newline =>
      querylen c.querybuf newline = newline ∧
        newline + 1 < c.querybuf.length) = true)
    (by simp [SkipsByte, Option.any_eq_true])

variable {c : Client}

theorem requestType_eq (hc : Consistent c) :
    requestType c = .multibulk ↔
      0 < c.multibulklen ∨ c.querybuf.head? = some 42 := by
  rw [requestType]
  cases htype : c.reqtype with
  | none =>
    have hzero : ¬ 0 < c.multibulklen := by
      intro hpos
      rw [hc.inside hpos] at htype
      cases htype
    simp [hzero]
  | some reqtype =>
    dsimp only
    by_cases hpos : 0 < c.multibulklen
    · rw [hc.inside hpos] at htype
      cases htype
      simp [hpos]
    · rw [(hc.reqtype reqtype htype (by omega)).2]
      simp [hpos]

theorem resume_of_idle (hzero : c.multibulklen = 0) (s : Bytes) :
    resume c s = requestOf s := if_pos hzero

theorem resume_of_inside (hpos : 0 < c.multibulklen) (s : Bytes) :
    resume c s = restOfBulks c s := if_neg (by omega)

theorem drop_querylen (hskip : ¬ SkipsByte c) (htype : requestType c = .inline)
    {newline : ℕ} (hfound : strchr charLf c.querybuf = some newline) :
    c.querybuf.drop (querylen c.querybuf newline + 2) =
      c.querybuf.drop (newline + 1) := by
  have hlt := strchr_lt hfound
  by_cases hbare : querylen c.querybuf newline = newline
  · have hend : c.querybuf.length ≤ newline + 1 := by
      by_contra hmore
      exact hskip ⟨htype, newline, hfound, hbare, by omega⟩
    rw [drop_eq_nil_of_le (by omega), drop_eq_nil_of_le (by omega)]
  rw [querylen] at hbare ⊢
  split_ifs at hbare ⊢ with hcr
  · congr 1
    omega
  · exact absurd rfl hbare

theorem processInlineBuffer_outcome (hskip : ¬ SkipsByte c)
    (htype : requestType c = .inline) (hzero : c.multibulklen = 0)
    (hidle : c.bulklen = none ∧ c.argv = []) (hbuf : c.querybuf ≠ [])
    (hhead : c.querybuf.head? ≠ some 42) :
    Returned (fun more => requestOf (c.querybuf ++ more)) c
      (processInlineBuffer { c with reqtype := some .inline }).1
      (processInlineBuffer { c with reqtype := some .inline }).1.querybuf
      (processInlineBuffer { c with reqtype := some .inline }).2 resume
      Consistent (Overlong c) := by
  have hrequest : ∀ more, requestOf (c.querybuf ++ more) =
      inlineOf (c.querybuf ++ more) := by
    intro more
    obtain ⟨b, s, hcons⟩ := exists_cons_of_ne_nil hbuf
    rw [hcons, List.head?_cons] at hhead
    rw [hcons, cons_append, requestOf_cons,
      if_neg fun h => hhead (congrArg some h)]
  simp only [hrequest]
  rw [processInlineBuffer]
  cases hfound : strchr charLf c.querybuf with
  | none =>
    have hnow : inlineOf (c.querybuf ++ []) = .incomplete := by
      rw [append_nil, inlineOf, hfound]
    dsimp only
    split
    · rename_i hbig
      refine ⟨trivial, nofun, fun _ => ⟨hnow, hbig, ?_⟩⟩
      rw [lineCut, if_neg (not_not.2 hzero), if_neg hhead, hfound]
      rfl
    refine ⟨⟨fun more => (hrequest more).symm.trans
      (resume_of_idle hzero _).symm, hnow, rfl, rfl⟩, fun _ => ⟨fun _ => hidle,
      ?_, fun hpos => absurd hzero hpos.ne'⟩, nofun⟩
    rintro _ ⟨⟩ _
    exact ⟨hbuf, iff_of_false nofun hhead⟩
  | some newline =>
    dsimp only
    cases hsplit : sdssplitargs
        (c.querybuf.take (querylen c.querybuf newline)) with
    | none =>
      have herror : inlineOf c.querybuf = .error unbalancedQuotes := by
        rw [inlineOf, hfound]
        dsimp only
        rw [hsplit]
      exact ⟨⟨unbalancedQuotes,
        fun more => stable_inlineOf.of_error herror more, rfl, rfl⟩,
        nofun, nofun⟩
    | some argv =>
      have hdone : inlineOf c.querybuf = .done (argv.filter (· ≠ []))
          (c.querybuf.drop (querylen c.querybuf newline + 2)) := by
        rw [inlineOf, hfound, drop_querylen hskip htype hfound]
        dsimp only
        rw [hsplit]
      exact ⟨⟨fun more => stable_inlineOf.of_done hdone more, rfl, rfl⟩,
        nofun, nofun⟩

/-- The loop over the arguments, followed by the trim. -/
theorem readBulks_outcome {pos : ℕ} (htype : c.reqtype = some .multibulk)
    (hidle : c.multibulklen = 0 → c.bulklen = none)
    {rest : Bytes → Parsed (List Bytes)}
    (hrest : ∀ more, rest more = restOfBulks c (c.querybuf.drop pos ++ more)) :
    Returned rest c (readBulks c pos).1 (readBulks c pos).1.querybuf
      (readBulks c pos).2 resume Consistent
      (inlineMaxSize < c.querybuf.length ∧
        restCut c (c.querybuf.drop pos) = true) := by
  obtain ⟨hloop, hwait, hbig⟩ := @bulkLoop_outcome _ c pos rfl hidle
  obtain rfl : rest = fun more =>
      restOfBulks c (c.querybuf.drop pos ++ more) := funext hrest
  rw [readBulks]
  generalize bulkLoop c.multibulklen c pos = result at hloop hwait hbig ⊢
  obtain ⟨after, pos', progress⟩ := result
  cases progress with
  | ok | tooBig | invalid => exact ⟨hloop, nofun, hbig⟩
  | wait =>
    obtain ⟨hmore, hnow, hevents, hclose⟩ := hloop
    obtain ⟨hpos, hsame⟩ := hwait rfl
    refine ⟨⟨fun more => (hmore more).trans (resume_of_inside (c := { after with
        querybuf := after.querybuf.drop pos' }) hpos _).symm,
      hnow, hevents, hclose⟩, fun _ => ⟨?_, ?_, fun _ => hsame.trans htype⟩,
      nofun⟩
    · exact fun h => absurd h hpos.ne'
    · exact fun _ _ h => absurd h hpos.ne'

/-- The `*<count>` line of a request. -/
theorem processMultibulkBuffer_outcome (hzero : c.multibulklen = 0)
    (hlen : c.bulklen = none) (hargv : c.argv = [])
    (hhead : c.querybuf.head? = some 42) :
    Returned (fun more => requestOf (c.querybuf ++ more)) c
      (processMultibulkBuffer { c with reqtype := some .multibulk }).1
      (processMultibulkBuffer { c with reqtype := some .multibulk }).1.querybuf
      (processMultibulkBuffer { c with reqtype := some .multibulk }).2
      resume Consistent (Overlong c) := by
  have hrequest : ∀ more, requestOf (c.querybuf ++ more) =
      (onLine mbulkCountLine (c.querybuf ++ more)).bind bulksOf := by
    intro more
    obtain ⟨s, hcons⟩ := List.head?_eq_some_iff.1 hhead
    rw [hcons, cons_append, requestOf_cons, if_pos rfl, multibulkOf]
  have hbuf : c.querybuf ≠ [] := by
    intro hnil
    rw [hnil] at hhead
    cases hhead
  have hstable := stable_onLine mbulkCountLine
  have hcut : lineCut c = cutIn (onLine mbulkCountLine c.querybuf)
      (noLineEnd c.querybuf) bulksCut := by
    rw [lineCut, if_neg (not_not.2 hzero), if_pos hhead]
  have hnow : lineOf c.querybuf = .incomplete →
      requestOf (c.querybuf ++ []) = .incomplete := by
    intro hline
    rw [hrequest, append_nil, onLine, hline]
    rfl
  have hwait : lineOf c.querybuf = .incomplete →
      Returned (fun more => requestOf (c.querybuf ++ more)) c
        { c with reqtype := some .multibulk } c.querybuf .wait resume
        Consistent (Overlong c) := by
    intro hline
    refine ⟨⟨fun more => (resume_of_idle hzero _).symm, hnow hline, rfl, rfl⟩,
      fun _ => ⟨fun _ => ⟨hlen, hargv⟩, ?_, fun _ => rfl⟩, nofun⟩
    rintro _ ⟨⟩ _
    exact ⟨hbuf, iff_of_true rfl hhead⟩
  rw [processMultibulkBuffer, if_pos hzero]
  cases hfound : strchr charCr c.querybuf with
  | none =>
    have hline : lineOf c.querybuf = .incomplete := by rw [lineOf, hfound]
    have honline : onLine mbulkCountLine c.querybuf = .incomplete := by
      rw [onLine, hline]
      rfl
    dsimp only
    split
    · rename_i hbig
      refine ⟨trivial, nofun, fun _ => ⟨hnow hline, hbig, ?_⟩⟩
      rw [hcut, honline, noLineEnd, hfound]
      rfl
    · exact hwait hline
  | some newline =>
    dsimp only
    by_cases hshort : c.querybuf.length < newline + 2
    · rw [if_pos hshort]
      refine hwait ?_
      rw [lineOf, hfound]
      exact if_pos hshort
    have hline : lineOf c.querybuf = .done (c.querybuf.take newline)
        (c.querybuf.drop (newline + 2)) := by
      rw [lineOf, hfound]
      exact if_neg hshort
    have hinvalid : mbulkCountLine (c.querybuf.take newline) =
        .error invalidMultibulkLength → ∀ more,
        requestOf (c.querybuf ++ more) = .error invalidMultibulkLength := by
      intro hread more
      rw [hrequest, hstable.of_error (onLine_of_error hline hread)]
      rfl
    have hvalid : ∀ count, mbulkCountLine (c.querybuf.take newline) =
        .ok count → ∀ more, requestOf (c.querybuf ++ more) =
          bulksOf count (c.querybuf.drop (newline + 2) ++ more) := by
      intro count hread more
      rw [hrequest, hstable.of_done (onLine_of_ok hline hread)]
      rfl
    rw [if_neg hshort]
    rw [mbulkCountLine] at hinvalid hvalid
    cases hll : string2ll ((c.querybuf.take newline).drop 1) with
    | none =>
      rw [hll] at hinvalid
      exact ⟨⟨invalidMultibulkLength, hinvalid rfl, rfl, rfl⟩, nofun, nofun⟩
    | some ll =>
      rw [hll] at hinvalid hvalid
      dsimp only at hinvalid hvalid ⊢
      by_cases hmax : maxMultibulkLen < ll
      · rw [if_pos hmax] at hinvalid ⊢
        exact ⟨⟨invalidMultibulkLength, hinvalid rfl, rfl, rfl⟩, nofun, nofun⟩
      rw [if_neg hmax] at hvalid ⊢
      by_cases hnone : ll ≤ 0
      · rw [if_pos hnone]
        refine ⟨⟨fun more => ?_, rfl, rfl⟩, nofun, nofun⟩
        dsimp only
        rw [hvalid _ rfl, Int.toNat_of_nonpos hnone, hargv, bulksOf]
      rw [if_neg hnone]
      have hcount : ll.toNat ≠ 0 := by omega
      have hread : mbulkCountLine (c.querybuf.take newline) = .ok ll.toNat := by
        rw [mbulkCountLine, hll]
        exact if_neg hmax
      rw [onLine_of_ok hline hread] at hcut
      have hbulks := @readBulks_outcome { c with
          reqtype := some .multibulk
          multibulklen := ll.toNat
          argv := [] } (newline + 2) rfl (fun h => absurd h hcount)
        (fun more => requestOf (c.querybuf ++ more)) fun more => by
          dsimp only
          rw [hvalid _ rfl, restOfBulks, hlen]
          dsimp only
          cases bulksOf ll.toNat
            (c.querybuf.drop (newline + 2) ++ more) <;> rfl
      refine ⟨hbulks.1, hbulks.2.1, fun hbig => ?_⟩
      obtain ⟨hnow, hlong, hrest⟩ := hbulks.2.2 hbig
      rw [restCut, hlen] at hrest
      exact ⟨hnow, hlong, hcut.trans hrest⟩

theorem processBuffer_outcome (hc : Consistent c) (hbuf : c.querybuf ≠ [])
    (hskip : ¬ SkipsByte c) :
    Returned (fun more => resume c (c.querybuf ++ more)) c (processBuffer c).1
      (processBuffer c).1.querybuf (processBuffer c).2 resume Consistent
      (Overlong c) := by
  have htype := requestType_eq hc
  rw [processBuffer]
  by_cases hpos : 0 < c.multibulklen
  · rw [htype.2 (Or.inl hpos)]
    dsimp only
    rw [processMultibulkBuffer, if_neg (by dsimp only; omega)]
    have hbulks := @readBulks_outcome { c with reqtype := some .multibulk } 0
      rfl (fun h => absurd h hpos.ne')
      (fun more => resume c (c.querybuf ++ more)) fun more => by
        dsimp only
        rw [resume_of_inside hpos, drop_zero]
        rfl
    refine ⟨hbulks.1, hbulks.2.1, fun hbig => ?_⟩
    obtain ⟨hnow, hlong, hrest⟩ := hbulks.2.2 hbig
    rw [drop_zero] at hrest
    exact ⟨hnow, hlong, (if_pos hpos.ne').trans hrest⟩
  have hzero : c.multibulklen = 0 := by omega
  have hidle := hc.idle hzero
  simp only [resume_of_idle hzero]
  by_cases hhead : c.querybuf.head? = some 42
  · rw [htype.2 (Or.inr hhead)]
    exact processMultibulkBuffer_outcome hzero hidle.1 hidle.2 hhead
  have hinline : requestType c = .inline := by
    cases hrequest : requestType c with
    | inline => rfl
    | multibulk =>
      obtain h | h := htype.1 hrequest
      · exact absurd h hpos
      · exact absurd h hhead
  rw [hinline]
  exact processInlineBuffer_outcome hskip hinline hzero hidle hbuf hhead

end OneRequest

/-! ## The whole input -/

section Input

variable (closes : List Bytes → Bool) (blocks : List Event → Bool)

/-- No round of `processInputBuffer` meets a byte it would skip or a buffer
over the limit that ends inside a line. -/
def CleanLoop : ℕ → Client → Prop
  | 0, _ => True
  | fuel + 1, c =>
    c.querybuf = [] ∨ c.blocked = true ∨ c.closeAfterReply = true ∨
      (¬ SkipsByte c ∧ ¬ Overlong c ∧
        ((processBuffer c).2 = .ok →
          CleanLoop fuel (execute closes blocks (processBuffer c).1)))

instance decidableCleanLoop :
    ∀ fuel c, Decidable (CleanLoop closes blocks fuel c)
  | 0, _ => isTrue trivial
  | fuel + 1, c => by
      rw [CleanLoop]
      have := decidableCleanLoop fuel (execute closes blocks (processBuffer c).1)
      infer_instance

/-- `processInputBuffer` runs on the client without such a round. -/
def Clean (c : Client) : Prop :=
  CleanLoop closes blocks (c.querybuf.length + 1) c

/-- The events of a client and what is left in its buffer make up the stream,
whatever comes next. -/
def Accounts (stream : Bytes) (c : Client) : Prop :=
  if c.closeAfterReply then ∀ more, frames closes (stream ++ more) = c.events
  else Consistent c ∧ ∀ more, frames closes (stream ++ more) =
    c.events ++ framesFrom closes (resume c) (c.querybuf ++ more)

/-- Nothing is left that could be parsed. -/
def Settled (c : Client) : Prop :=
  c.closeAfterReply = true ∨ c.blocked = true ∨
    resume c c.querybuf = .incomplete

variable {closes blocks} {stream : Bytes} {c : Client}

theorem frames_eq_framesFrom (s : Bytes) :
    frames closes s = framesFrom closes requestOf s := by
  rw [frames, readAll_eq_readFrom consuming_requestOf, framesFrom]

theorem framesFrom_of_done {first : Bytes → Parsed (List Bytes)}
    {s rest : Bytes} {argv : List Bytes} (hs : first s = .done argv rest) :
    framesFrom closes first s =
      if argv = [] then frames closes rest
      else .ok argv :: if closes argv then [] else frames closes rest := by
  rw [framesFrom, readFrom_of_done hs, frames]
  by_cases hargv : argv = []
  · subst hargv
    simp [isLast, isVisible]
  · cases hclose : closes argv <;> simp [isLast, isVisible, hargv, hclose]

theorem framesFrom_of_error {first : Bytes → Parsed (List Bytes)}
    {s text : Bytes} (hs : first s = .error text) :
    framesFrom closes first s = [.error text] := by
  rw [framesFrom, readFrom_of_error hs]
  rfl

theorem framesFrom_of_incomplete {first : Bytes → Parsed (List Bytes)}
    {s : Bytes} (hs : first s = .incomplete) :
    framesFrom closes first s = [] := by
  rw [framesFrom, readFrom_of_incomplete hs]
  rfl

theorem framesFrom_congr {first first' : Bytes → Parsed (List Bytes)}
    {s s' : Bytes} (hs : first s = first' s') :
    framesFrom closes first s = framesFrom closes first' s' := by
  rw [framesFrom, framesFrom, readFrom_congr hs]

theorem consistent_of_reset (htype : c.reqtype = none)
    (hzero : c.multibulklen = 0) (hlen : c.bulklen = none)
    (hargv : c.argv = []) : Consistent c := by
  refine ⟨fun _ => ⟨hlen, hargv⟩, fun reqtype hsome => ?_, fun hpos => ?_⟩
  · rw [htype] at hsome
    cases hsome
  · omega

theorem resume_nil (c : Client) : resume c [] = .incomplete := by
  rw [resume]
  split
  · rfl
  rename_i hpos
  cases hlen : c.bulklen with
  | some len =>
    rw [restOfBulks_some hlen, bulkDataOf, if_pos (by simp)]
    rfl
  | none =>
    rw [restOfBulks_none hlen]
    cases hcount : c.multibulklen with
    | zero => exact absurd hcount hpos
    | succ count => rfl

theorem length_lt_of_resume {s rest : Bytes} {argv : List Bytes}
    (hdone : resume c s = .done argv rest) : rest.length < s.length := by
  rw [resume] at hdone
  split at hdone
  · exact consuming_requestOf s argv rest hdone
  rename_i hpos
  cases hlen : c.bulklen with
  | none =>
    rw [restOfBulks_none hlen] at hdone
    obtain ⟨args, s1, hargs, hlast⟩ := bind_eq_done hdone
    cases hlast
    have hle := length_le_of_bulksOf hargs
    omega
  | some len =>
    rw [restOfBulks_some hlen] at hdone
    obtain ⟨arg, s1, hdata, hrest⟩ := bind_eq_done hdone
    obtain ⟨args, s2, hargs, hlast⟩ := bind_eq_done hrest
    cases hlast
    have hle := length_le_of_bulksOf hargs
    have hlt := length_le_of_bulkDataOf hdata
    omega

theorem accounts_execute {after : Client}
    (hframes : ∀ more, frames closes (stream ++ more) =
      after.events ++ (if after.argv = [] then
          frames closes (after.querybuf ++ more)
        else .ok after.argv :: if closes after.argv then []
          else frames closes (after.querybuf ++ more)))
    (hopen : after.closeAfterReply = false) :
    Accounts closes stream (execute closes blocks after) := by
  rw [execute]
  by_cases hargv : after.argv = []
  · rw [if_pos hargv, Accounts, if_neg (by rw [resetClient, hopen]; decide)]
    refine ⟨consistent_of_reset rfl rfl rfl rfl, fun more => ?_⟩
    rw [hframes, if_pos hargv, frames_eq_framesFrom]
    exact congrArg _ (framesFrom_congr (resume_of_idle rfl _).symm)
  rw [if_neg hargv]
  simp only [if_neg hargv] at hframes
  by_cases hclose : closes after.argv = true
  · simp only [if_pos hclose] at hframes ⊢
    rw [Accounts, if_pos rfl]
    exact hframes
  simp only [if_neg hclose] at hframes ⊢
  rw [Accounts, if_neg (by rw [resetClient, hopen]; decide)]
  refine ⟨consistent_of_reset rfl rfl rfl rfl, fun more => ?_⟩
  rw [hframes, frames_eq_framesFrom, append_assoc, singleton_append]
  exact congrArg (fun l => after.events ++ .ok after.argv :: l)
    (framesFrom_congr (resume_of_idle (c := resetClient after) rfl _).symm)

/-- One round of the loop: the request it takes off the buffer, the error it
replies, or the wait for more. -/
theorem accounts_round (blocks : List Event → Bool)
    (haccounts : Accounts closes stream c)
    (hopen : c.closeAfterReply = false) (hbuf : c.querybuf ≠ [])
    (hskip : ¬ SkipsByte c) (hbig : ¬ Overlong c) :
    if (processBuffer c).2 = .ok then
      Accounts closes stream (execute closes blocks (processBuffer c).1) ∧
        (processBuffer c).1.querybuf.length < c.querybuf.length
    else
      Accounts closes stream (processBuffer c).1 ∧
        Settled (processBuffer c).1 := by
  rw [Accounts, if_neg (by rw [hopen]; decide)] at haccounts
  obtain ⟨hc, hframes⟩ := haccounts
  obtain ⟨houtcome, hconsistent, hlong⟩ := processBuffer_outcome hc hbuf hskip
  generalize processBuffer c = result at houtcome hconsistent hlong ⊢
  obtain ⟨after, progress⟩ := result
  cases progress with
  | tooBig => exact absurd (hlong rfl).2 hbig
  | ok =>
    obtain ⟨hdone, hevents, hclose⟩ := houtcome
    rw [if_pos rfl]
    refine ⟨accounts_execute (fun more => ?_) (hclose.trans hopen), ?_⟩
    · rw [hframes, framesFrom_of_done (hdone more), hevents]
    have hnow := hdone []
    dsimp only at hnow
    rw [append_nil, append_nil] at hnow
    exact length_lt_of_resume hnow
  | invalid =>
    obtain ⟨text, herror, hevents, hclose⟩ := houtcome
    rw [if_neg (fun h => by cases h)]
    refine ⟨?_, Or.inl hclose⟩
    rw [Accounts, if_pos hclose]
    intro more
    rw [hframes, framesFrom_of_error (herror more), hevents]
  | wait =>
    obtain ⟨hmore, hnow, hevents, hclose⟩ := houtcome
    rw [if_neg (fun h => by cases h)]
    constructor
    · rw [Accounts, if_neg (by rw [hclose, hopen]; decide)]
      refine ⟨hconsistent rfl, fun more => ?_⟩
      rw [hframes, framesFrom_congr (hmore more), hevents]
    · have hleft := hmore []
      rw [hnow, append_nil] at hleft
      exact Or.inr (Or.inr hleft.symm)

theorem accounts_inputLoop {fuel : ℕ} (haccounts : Accounts closes stream c)
    (hclean : CleanLoop closes blocks fuel c)
    (hfuel : c.querybuf.length < fuel) :
    Accounts closes stream (inputLoop closes blocks fuel c) ∧
      Settled (inputLoop closes blocks fuel c) := by
  induction fuel generalizing c with
  | zero => cases hfuel
  | succ fuel ih =>
    rw [inputLoop]
    by_cases hstop : c.querybuf = [] ∨ c.blocked = true ∨
        c.closeAfterReply = true
    · rw [if_pos hstop]
      refine ⟨haccounts, ?_⟩
      obtain hempty | hblocked | hclose := hstop
      · rw [Settled, hempty]
        exact Or.inr (Or.inr (resume_nil c))
      · exact Or.inr (Or.inl hblocked)
      · exact Or.inl hclose
    rw [if_neg hstop]
    obtain ⟨hbuf, hrunning, hopen⟩ :
        c.querybuf ≠ [] ∧ c.blocked = false ∧ c.closeAfterReply = false := by
      simpa [not_or] using hstop
    obtain h | h | h | ⟨hskip, hbig, hrest⟩ := hclean
    · exact absurd h hbuf
    · exact absurd h (by rw [hrunning]; decide)
    · exact absurd h (by rw [hopen]; decide)
    have hround := accounts_round blocks haccounts hopen hbuf hskip hbig
    generalize processBuffer c = result at hround hrest ⊢
    obtain ⟨after, progress⟩ := result
    cases progress with
    | ok =>
      rw [if_pos rfl] at hround
      refine ih hround.1 (hrest rfl) ?_
      have hlength : (execute closes blocks after).querybuf.length =
          after.querybuf.length := by
        rw [execute]
        split
        · rfl
        · dsimp only
          split <;> rfl
      have hlt := hround.2
      dsimp only at hlt
      omega
    | wait | tooBig | invalid => exact hround

end Input

/-! ## Runs -/

section Runs

variable (closes : List Bytes → Bool) (blocks : List Event → Bool)

/-- The clients a stream can lead to, with whether they were processed after
the last thing that happened to them.  A read appends to the buffer, also
while the client is blocked; a client that is unblocked is processed later, by
its next read or by `processUnblockedClients`. -/
inductive Run : Bytes → Client → Bool → Prop
  | create : Run [] Client.create true
  | read {stream : Bytes} {c : Client} {processed : Bool} (data : Bytes)
      (hrun : Run stream c processed) (hdata : data ≠ [])
      (hlimit : (c.querybuf ++ data).length ≤ maxQuerybufLen)
      (hclean : Clean closes blocks { c with querybuf := c.querybuf ++ data }) :
      Run (stream ++ data) (readQueryFromClient closes blocks c data) true
  | unblock {stream : Bytes} {c : Client} {processed : Bool}
      (hrun : Run stream c processed) (hblocked : c.blocked = true) :
      Run stream (unblockClient c) false
  | processUnblocked {stream : Bytes} {c : Client} {processed : Bool}
      (hrun : Run stream c processed) (hclean : Clean closes blocks c) :
      Run stream (processInputBuffer closes blocks c) true

variable {closes blocks} {stream : Bytes} {c : Client} {processed : Bool}

theorem Accounts.feed (haccounts : Accounts closes stream c) (data : Bytes) :
    Accounts closes (stream ++ data)
      { c with querybuf := c.querybuf ++ data } := by
  rw [Accounts] at haccounts ⊢
  dsimp only
  split at haccounts
  · rename_i hclose
    rw [if_pos hclose]
    intro more
    rw [append_assoc]
    exact haccounts _
  rename_i hclose
  rw [if_neg hclose]
  obtain ⟨hc, hframes⟩ := haccounts
  refine ⟨⟨hc.idle, fun reqtype hsome hzero => ?_, hc.inside⟩, fun more => ?_⟩
  · obtain ⟨hbuf, hhead⟩ := hc.reqtype reqtype hsome hzero
    obtain ⟨b, s, hcons⟩ := exists_cons_of_ne_nil hbuf
    rw [hcons] at hhead ⊢
    exact ⟨cons_ne_nil _ _, hhead⟩
  · rw [append_assoc, append_assoc]
    exact hframes _

theorem Run.accounts (hrun : Run closes blocks stream c processed) :
    Accounts closes stream c ∧ (processed = true → Settled c) := by
  induction hrun with
  | create =>
    refine ⟨?_, fun _ => Or.inr (Or.inr rfl)⟩
    rw [Accounts, if_neg (by decide)]
    refine ⟨consistent_of_reset rfl rfl rfl rfl, fun more => ?_⟩
    rw [frames_eq_framesFrom]
    exact framesFrom_congr (resume_of_idle rfl _).symm
  | read data hrun hdata hlimit hclean ih =>
    obtain ⟨haccounts, hsettled⟩ := accounts_inputLoop (ih.1.feed data)
      hclean (Nat.lt_succ_self _)
    exact ⟨haccounts, fun _ => hsettled⟩
  | @unblock stream c processed hrun hblocked ih =>
    refine ⟨?_, fun h => by cases h⟩
    have haccounts := ih.1
    rw [Accounts] at haccounts ⊢
    split at haccounts
    · rename_i hclose
      exact (if_pos hclose).symm ▸ haccounts
    rename_i hclose
    rw [unblockClient, if_neg hclose]
    exact ⟨⟨haccounts.1.idle, haccounts.1.reqtype, haccounts.1.inside⟩,
      haccounts.2⟩
  | processUnblocked hrun hclean ih =>
    obtain ⟨haccounts, hsettled⟩ := accounts_inputLoop ih.1 hclean
      (Nat.lt_succ_self _)
    exact ⟨haccounts, fun _ => hsettled⟩

end Runs

/-- However a stream is cut into reads, and whether or not the client is
blocked in between, the requests and errors found are those of the stream read
from its start; all of them once the client is processed and not blocked. -/
theorem run_events_eq_frames (closes : List Bytes → Bool)
    (blocks : List Event → Bool) {stream : Bytes} {c : Client}
    {processed : Bool} (hrun : Run closes blocks stream c processed) :
    c.events <+: frames closes stream ∧
      (processed = true → c.blocked = false →
        c.events = frames closes stream) := by
  obtain ⟨haccounts, hsettled⟩ := hrun.accounts
  rw [Accounts] at haccounts
  split at haccounts
  · have hall := haccounts []
    rw [append_nil] at hall
    rw [hall]
    exact ⟨prefix_refl _, fun _ _ => rfl⟩
  rename_i hclose
  have hall := haccounts.2 []
  rw [append_nil, append_nil] at hall
  refine ⟨hall ▸ prefix_append _ _, fun hprocessed hrunning => ?_⟩
  obtain h | h | hnothing := hsettled hprocessed
  · exact absurd h hclose
  · exact absurd h (by rw [hrunning]; decide)
  · rw [hall, framesFrom_of_incomplete hnothing, append_nil]

/-- An inline request and a multi-bulk request, cut in the middle of the
second one, whose length arrives in the first read. -/
theorem run_events_eq_frames_cut :
    ∃ c, Run (fun _ => false) (fun _ => false)
        (ascii "PING\r\n*1\r\n$4\r\nEC" ++ ascii "HO\r\n") c true ∧
      c.events = frames (fun _ => false)
        (ascii "PING\r\n*1\r\n$4\r\nEC" ++ ascii "HO\r\n") := by
  have hcreate : Run (fun _ => false) (fun _ => false) [] Client.create true :=
    .create
  have hrun := (hcreate.read
      (ascii "PING\r\n*1\r\n$4\r\nEC") (by decide) (by decide)
      (by unfold Clean; decide)).read (ascii "HO\r\n") (by decide) (by decide)
      (by unfold Clean; decide)
  exact ⟨_, hrun, (run_events_eq_frames _ _ hrun).2 rfl rfl⟩

/-- Two inline requests that end in a bare newline: in one read the second
loses its first byte, in two reads it does not. -/
theorem inline_request_loses_byte :
    (readQueryFromClient (fun _ => false) (fun _ => false) Client.create
        (ascii "PING\nPING\n")).events =
      [.ok [ascii "PING"], .ok [ascii "ING"]] ∧
    (readQueryFromClient (fun _ => false) (fun _ => false)
        (readQueryFromClient (fun _ => false) (fun _ => false) Client.create
          (ascii "PING\n")) (ascii "PING\n")).events =
      [.ok [ascii "PING"], .ok [ascii "PING"]] ∧
    frames (fun _ => false) (ascii "PING\nPING\n") =
      [.ok [ascii "PING"], .ok [ascii "PING"]] :=
  ⟨rfl, rfl, rfl⟩

end RedisV8.Networking
