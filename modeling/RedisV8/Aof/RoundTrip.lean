import RedisV8.Aof.Protocol
import RedisV8.Networking.Vectors
import RedisV8.Server.Object

/-!
# Commands written and read back

The same bytes are read by two parsers: the loader of the append only file and
the request parser, through which a replica reads them.  The loader takes every
command that can be written; the request parser refuses requests with very many
or very long arguments, and a command of `2 ^ 31` bytes cannot be written.
-/

namespace RedisV8.Aof

open Util RedisV8.Server Networking Streaming List

variable {commands : List (List StringObj)}

/-! ## Writing into a string -/

/-- One round of the loop of `catAppendOnlyGenericCommand`. -/
def catArgument (dst : Bytes) (o : StringObj) : Option Bytes := do
  let s := getDecodedObject o
  let dst ← sdscatSized dst (rioWriteBulkCount 36 s.length)
  let dst ← sdscatSized dst s
  sdscatSized dst crlf

/-- `catAppendOnlyGenericCommand`, with the string it appends to. -/
def catCommand (dst : Bytes) (argv : List StringObj) : Option Bytes := do
  let dst ← sdscatSized dst (rioWriteBulkCount 42 argv.length)
  argv.foldlM catArgument dst

/-- The file that holds commands written one after the other. -/
def catCommands : List (List StringObj) → Option Bytes
  | [] => some []
  | argv :: argvs => do
      let buf ← catCommand [] argv
      let rest ← catCommands argvs
      some (buf ++ rest)

/-- The bytes of the arguments. -/
def decoded (argv : List StringObj) : List Bytes := argv.map getDecodedObject

section Writing

theorem sdscatSized_bind {s t u : Bytes} {f : Bytes → Option Bytes}
    (hf : ∀ dst, f dst =
      if dst.length + u.length < 2 ^ 31 then some (dst ++ u) else none) :
    (sdscatSized s t).bind f =
      if s.length + (t ++ u).length < 2 ^ 31 then some (s ++ (t ++ u))
      else none := by
  rw [sdscatSized, length_append]
  by_cases hshort : s.length + t.length < 2 ^ 31
  · rw [if_pos hshort, Option.bind_some, hf, length_append,
      append_assoc, Nat.add_assoc]
  · rw [if_neg hshort, if_neg (by omega)]
    rfl

theorem catArgument_eq (dst : Bytes) (o : StringObj) :
    catArgument dst o =
      if dst.length + (rioWriteBulkString (getDecodedObject o)).length < 2 ^ 31
      then some (dst ++ rioWriteBulkString (getDecodedObject o))
      else none :=
  sdscatSized_bind fun _ => sdscatSized_bind fun _ => rfl

theorem foldlM_catArgument (argv : List StringObj) (dst : Bytes)
    (hdst : dst.length < 2 ^ 31) :
    argv.foldlM catArgument dst =
      if dst.length + ((decoded argv).flatMap rioWriteBulkString).length <
          2 ^ 31 then
        some (dst ++ (decoded argv).flatMap rioWriteBulkString)
      else none := by
  induction argv generalizing dst with
  | nil => simpa [decoded] using hdst
  | cons o argv ih =>
    rw [foldlM_cons, catArgument_eq, decoded, map_cons,
      flatMap_cons, length_append, ← decoded]
    by_cases hshort : dst.length +
        (rioWriteBulkString (getDecodedObject o)).length < 2 ^ 31
    · rw [if_pos hshort, some_bind,
        ih _ (by rwa [length_append]), length_append,
        append_assoc, Nat.add_assoc]
    · rw [if_neg hshort, if_neg (by omega)]
      rfl

/-- The command is written unless it is too long for its string. -/
theorem catCommand_eq (argv : List StringObj) :
    catCommand [] argv =
      if (catAppendOnlyGenericCommand (decoded argv)).length < 2 ^ 31 then
        some (catAppendOnlyGenericCommand (decoded argv))
      else none := by
  have hargc : (decoded argv).length = argv.length := length_map _
  rw [catCommand, catAppendOnlyGenericCommand, hargc, length_append,
    sdscatSized, nil_append, length_nil, Nat.zero_add]
  by_cases hshort : (rioWriteBulkCount 42 argv.length).length < 2 ^ 31
  · rw [if_pos hshort, some_bind, foldlM_catArgument argv _ hshort]
  · rw [if_neg hshort, if_neg (by omega)]
    rfl

theorem length_lt_of_mem_args {arg : Bytes} {argv : List Bytes}
    (hmem : arg ∈ argv) :
    arg.length < (catAppendOnlyGenericCommand argv).length := by
  have hle : (rioWriteBulkString arg).length ≤
      (argv.flatMap rioWriteBulkString).length := by
    obtain ⟨before, after, rfl⟩ := append_of_mem hmem
    simp only [flatMap_append, flatMap_cons, length_append]
    omega
  rw [rioWriteBulkString, length_append, length_append] at hle
  rw [catAppendOnlyGenericCommand, length_append, rioWriteBulkCount,
    length_cons]
  omega

theorem args_lt_length (argv : List Bytes) :
    argv.length < (catAppendOnlyGenericCommand argv).length := by
  have hle := length_le_length_flatMap (f := rioWriteBulkString)
    (fun arg => cons_ne_nil _ _) argv
  rw [catAppendOnlyGenericCommand, length_append, rioWriteBulkCount,
    length_cons]
  omega

theorem writable_of_length_lt {argv : List Bytes} (hne : argv ≠ [])
    (hlength : (catAppendOnlyGenericCommand argv).length < 2 ^ 31) :
    Writable argv where
  pos := length_pos_iff.2 hne
  argc := (args_lt_length argv).trans hlength
  len arg hmem := by
    have hlt := length_lt_of_mem_args hmem
    omega

/-- The file has the form that replicas are sent, too. -/
theorem catAppendOnlyGenericCommand_eq_vector (argv : List Bytes) :
    catAppendOnlyGenericCommand argv = vector argv := by
  have hargs : argv.flatMap rioWriteBulkString =
      Reply.encodeAll (argv.map .bulk) := by
    induction argv with
    | nil => rfl
    | cons arg argv ih =>
      rw [flatMap_cons, ih, map_cons, Reply.encodeAll, Reply.encode,
        rioWriteBulkString, rioWriteBulkCount, llText_natCast, Reply.line]
      simp only [append_assoc, cons_append]
      rfl
  rw [catAppendOnlyGenericCommand, hargs, vector, Reply.encode, Reply.line,
    rioWriteBulkCount, llText_natCast, length_map]
  rfl

end Writing

/-! ## The request parser on a whole buffer -/

section Parser

/-- A client between two requests, with what it has seen so far. -/
def idleClient (querybuf : Bytes) (events : List Event) : Client :=
  { Client.create with querybuf, events }

/-- Rounds of the loop of `processInputBuffer` for a client that no command
blocks or closes. -/
def parseRounds (rounds : ℕ) (c : Client) : Client :=
  inputLoop (fun _ => false) (fun _ => false) rounds c

variable {s rest text : Bytes} {argv : List Bytes} {events : List Event}
  {rounds : ℕ}

/-- What a round makes of a buffer in which the first request is whole: after a
protocol error nothing more is read. -/
theorem parseRounds_succ (hhead : s.head? = some 42) (rounds : ℕ) :
    match requestOf s with
    | .incomplete => True
    | .error _ => (parseRounds (rounds + 1)
        (idleClient s events)).closeAfterReply = true
    | .done argv rest => argv ≠ [] →
        parseRounds (rounds + 1) (idleClient s events) =
          parseRounds rounds (idleClient rest (events ++ [.ok argv])) := by
  have htype : requestType (idleClient s events) = .multibulk := if_pos hhead
  obtain ⟨houtcome, -, hbig⟩ := processMultibulkBuffer_outcome
    (c := idleClient s events) rfl rfl rfl hhead
  rw [parseRounds, inputLoop, if_neg, processBuffer, htype]
  · dsimp only
    generalize processMultibulkBuffer
      { idleClient s events with reqtype := some .multibulk } = result
      at houtcome hbig ⊢
    obtain ⟨c, progress⟩ := result
    have hwhole : ∀ r, requestOf (s ++ []) = r → requestOf s = r := by
      intro r hr
      rwa [append_nil] at hr
    cases progress with
    | wait =>
      rw [hwhole _ houtcome.2.1]
      trivial
    | tooBig =>
      rw [hwhole _ (hbig rfl).1]
      trivial
    | invalid =>
      obtain ⟨text, herror, -, hclose⟩ := houtcome
      rw [hwhole _ (herror [])]
      exact hclose
    | ok =>
      obtain ⟨hall, hevents, hclose⟩ := houtcome
      rw [hwhole _ (hall [])]
      intro hargv
      dsimp only at hargv hevents hclose ⊢
      rw [execute, if_neg hargv, if_neg Bool.false_ne_true, idleClient,
        resetClient, hevents, hclose, append_nil]
      rfl
  · rintro (rfl | h | h)
    · cases hhead
    · cases h
    · cases h

theorem parseRounds_of_done (hhead : s.head? = some 42) (hargv : argv ≠ [])
    (hrequest : requestOf s = .done argv rest) :
    parseRounds (rounds + 1) (idleClient s events) =
      parseRounds rounds (idleClient rest (events ++ [.ok argv])) := by
  have hround := @parseRounds_succ s events hhead rounds
  rw [hrequest] at hround
  exact hround hargv

theorem parseRounds_of_error (hhead : s.head? = some 42)
    (hrequest : requestOf s = .error text) :
    (parseRounds (rounds + 1) (idleClient s events)).closeAfterReply =
      true := by
  have hround := @parseRounds_succ s events hhead rounds
  rw [hrequest] at hround
  exact hround

end Parser

/-! ## Requests that are refused -/

section Refused

/-- A command that is written but exceeds a limit is a protocol error. -/
theorem requestOf_vector_error {argv : List Bytes} (hne : argv ≠ [])
    (hlength : (vector argv).length < 2 ^ 31) (hrefused : ¬ Sendable argv)
    (rest : Bytes) : ∃ text, requestOf (vector argv ++ rest) = .error text := by
  rw [← catAppendOnlyGenericCommand_eq_vector] at hlength
  rw [requestOf_vector_eq ((args_lt_length argv).trans hlength)
    fun arg hmem => (length_lt_of_mem_args hmem).trans hlength]
  split_ifs with hcount hfits
  · exact absurd ⟨hne, hcount, hfits⟩ hrefused
  · exact ⟨_, rfl⟩
  · exact ⟨_, rfl⟩

end Refused

/-! ## Round trip -/

/-- The commands are written, and both parsers read them back and stop right
behind them, whatever follows. -/
def ReadsBack (commands : List (List StringObj)) : Prop :=
  ∃ bytes, catCommands commands = some bytes ∧ ∀ rest,
    (∀ (σ : Type) (run : σ → List Bytes → Option σ) (st : σ),
      loadAll run (bytes ++ rest) st =
        (runAll run (commands.map decoded) st).bind (loadAll run rest)) ∧
    parseRounds commands.length (idleClient (bytes ++ rest) []) =
      idleClient rest (commands.map fun argv => .ok (decoded argv))

/-- The limits of the request parser and of the string that is written. -/
structure WithinLimits (argv : List StringObj) : Prop where
  count_le : (argv.length : ℤ) ≤ maxMultibulkLen
  length_le : ∀ o ∈ argv, ((getDecodedObject o).length : ℤ) ≤ maxBulkLen
  total_lt : (catAppendOnlyGenericCommand (decoded argv)).length < 2 ^ 31

section RoundTrip

theorem sendable_decoded {argv : List StringObj} (hne : argv ≠ []) :
    Sendable (decoded argv) ↔ (argv.length : ℤ) ≤ maxMultibulkLen ∧
      ∀ o ∈ argv, ((getDecodedObject o).length : ℤ) ≤ maxBulkLen := by
  have hargc : (decoded argv).length = argv.length := length_map _
  constructor
  · intro hsendable
    refine ⟨hargc ▸ hsendable.count_le, fun o ho => ?_⟩
    exact hsendable.length_le _ (mem_map_of_mem ho)
  rintro ⟨hcount, hlengths⟩
  refine ⟨fun hnil => hne (map_eq_nil_iff.1 hnil), hargc.symm ▸ hcount, ?_⟩
  intro arg hmem
  obtain ⟨o, ho, rfl⟩ := mem_map.1 hmem
  exact hlengths o ho

theorem catCommands_eq (commands : List (List StringObj)) :
    catCommands commands =
      if ∀ argv ∈ commands,
        (catAppendOnlyGenericCommand (decoded argv)).length < 2 ^ 31 then
        some (commands.flatMap fun argv => vector (decoded argv))
      else none := by
  induction commands with
  | nil => rfl
  | cons argv commands ih =>
    rw [catCommands, catCommand_eq, ih, flatMap_cons]
    simp only [forall_mem_cons, catAppendOnlyGenericCommand_eq_vector]
    by_cases hlength : (vector (decoded argv)).length < 2 ^ 31
    · simp only [hlength, if_true, true_and, some_bind]
      split_ifs <;> rfl
    · simp only [hlength, if_false, false_and]
      rfl

theorem head?_vector (argv : List Bytes) (rest : Bytes) :
    (vector argv ++ rest).head? = some 42 := by
  rw [vector, Reply.encode, Reply.line]
  rfl

theorem parseRounds_vectors
    (hsendable : ∀ argv ∈ commands, Sendable (decoded argv)) (rest : Bytes)
    (events : List Event) (rounds : ℕ) :
    parseRounds (commands.length + rounds) (idleClient
        (commands.flatMap (fun argv => vector (decoded argv)) ++ rest) events) =
      parseRounds rounds (idleClient rest
        (events ++ commands.map fun argv => .ok (decoded argv))) := by
  induction commands generalizing events with
  | nil => simp
  | cons argv commands ih =>
    rw [forall_mem_cons] at hsendable
    rw [flatMap_cons, append_assoc, length_cons, Nat.add_right_comm,
      parseRounds_of_done (head?_vector _ _) hsendable.1.nonempty
        (requestOf_vector hsendable.1 _), ih hsendable.2, map_cons,
      append_assoc]
    rfl

/-- The first command that is refused ends the parsing. -/
theorem sendable_of_parseRounds (hne : ∀ argv ∈ commands, argv ≠ [])
    (hlengths : ∀ argv ∈ commands,
      (catAppendOnlyGenericCommand (decoded argv)).length < 2 ^ 31)
    {rest : Bytes} {events : List Event}
    (hopen : (parseRounds commands.length (idleClient
      (commands.flatMap (fun argv => vector (decoded argv)) ++ rest)
        events)).closeAfterReply = false) :
    ∀ argv ∈ commands, Sendable (decoded argv) := by
  induction commands generalizing events with
  | nil => simp
  | cons argv commands ih =>
    rw [forall_mem_cons] at hne hlengths
    rw [flatMap_cons, append_assoc, length_cons] at hopen
    have hargs : decoded argv ≠ [] := fun hnil =>
      hne.1 (map_eq_nil_iff.1 hnil)
    by_cases hsendable : Sendable (decoded argv)
    · rw [parseRounds_of_done (head?_vector _ _) hargs
        (requestOf_vector hsendable _)] at hopen
      exact forall_mem_cons.2 ⟨hsendable, ih hne.2 hlengths.2 hopen⟩
    have hlength := hlengths.1
    rw [catAppendOnlyGenericCommand_eq_vector] at hlength
    obtain ⟨text, herror⟩ := requestOf_vector_error hargs hlength hsendable
      (commands.flatMap (fun argv => vector (decoded argv)) ++ rest)
    rw [parseRounds_of_error (head?_vector _ _) herror] at hopen
    cases hopen

/-- What is appended to the file reads back, in both parsers, exactly when no
command exceeds the limits. -/
theorem commands_read_back_iff (hne : ∀ argv ∈ commands, argv ≠ []) :
    ReadsBack commands ↔ ∀ argv ∈ commands, WithinLimits argv := by
  constructor
  · rintro ⟨bytes, hcat, hreads⟩
    rw [catCommands_eq] at hcat
    split_ifs at hcat with hlengths
    cases hcat
    have hsendable := sendable_of_parseRounds hne hlengths
      (congrArg Client.closeAfterReply (hreads []).2)
    intro argv hmem
    obtain ⟨hcount, hargs⟩ :=
      (sendable_decoded (hne argv hmem)).1 (hsendable argv hmem)
    exact ⟨hcount, hargs, hlengths argv hmem⟩
  intro hlimits
  have hcat := catCommands_eq commands
  rw [if_pos fun argv hmem => (hlimits argv hmem).total_lt] at hcat
  refine ⟨_, hcat, fun rest => ⟨fun σ run st => ?_, ?_⟩⟩
  · have hwritable : ∀ argv ∈ commands.map decoded, Writable argv := by
      intro argv hmem
      obtain ⟨o, ho, rfl⟩ := mem_map.1 hmem
      refine writable_of_length_lt ?_ (hlimits o ho).total_lt
      exact fun hnil => hne o ho (map_eq_nil_iff.1 hnil)
    have hload := loadAll_flatMap run hwritable rest st
    rw [flatMap_map] at hload
    simpa only [catAppendOnlyGenericCommand_eq_vector] using hload
  · have hsendable : ∀ argv ∈ commands, Sendable (decoded argv) := by
      intro argv hmem
      exact (sendable_decoded (hne argv hmem)).2
        ⟨(hlimits argv hmem).count_le, (hlimits argv hmem).length_le⟩
    exact parseRounds_vectors hsendable rest [] 0

/-- `SET k "\r\n"` and an `INCRBY` whose increment is held as a number. -/
theorem commands_read_back_iff_set_incrby :
    ReadsBack [[.raw (ascii "SET"), .raw (ascii "k"), .raw [13, 10]],
      [.raw (ascii "INCRBY"), .raw (ascii "n"), .int 5]] :=
  (commands_read_back_iff (by simp)).2 (by
    intro argv hmem
    simp only [mem_cons, not_mem_nil, or_false] at hmem
    obtain rfl | rfl := hmem
    · exact ⟨by decide, by decide, by decide⟩
    · exact ⟨by decide, by decide, by decide⟩)

theorem catCommand_four_large {s : Bytes} (hs : 2 ^ 29 ≤ s.length) :
    catCommand [] (replicate 4 (.raw s)) = none := by
  rw [catCommand_eq, if_neg]
  rw [catAppendOnlyGenericCommand]
  simp only [decoded, replicate, map_cons, getDecodedObject,
    flatMap_cons, rioWriteBulkString, length_append]
  omega

/-- Four arguments of `2 ^ 29` bytes are each within the limit for a request,
but the command outgrows the string it is written to. -/
theorem four_large_arguments_not_written :
    (∀ o ∈ replicate 4 (StringObj.raw (replicate (2 ^ 29) 0)),
      ((getDecodedObject o).length : ℤ) ≤ maxBulkLen) ∧
    ¬ ReadsBack [replicate 4 (.raw (replicate (2 ^ 29) 0))] := by
  have hlength : (replicate (2 ^ 29) (0 : UInt8)).length = 2 ^ 29 :=
    length_replicate
  constructor
  · intro o ho
    rw [eq_of_mem_replicate ho, getDecodedObject, hlength, maxBulkLen]
    norm_num
  · rintro ⟨bytes, hcat, -⟩
    rw [catCommands, catCommand_four_large hlength.ge] at hcat
    cases hcat

end RoundTrip

end RedisV8.Aof
