import RedisV8.Util.Cstring

/-!
# The append only file as a stream of commands

`catAppendOnlyGenericCommand` and the `rioWriteBulk*` functions write one
format, and the loop of `loadAppendOnlyFile` reads it.  The reader is lax: it
accepts more than the writers produce, and it runs each command as soon as it
is read.  What it makes of a file is settled by the file alone, so a file that
has been loaded can be extended: appended bytes are read where it ended.
-/

namespace RedisV8.Aof

open Util List Option

/-! ## Writing -/

def crlf : Bytes := [13, 10]

/-- `rioWriteBulkCount`: a leading character, a count and a line end. -/
def rioWriteBulkCount (lead : UInt8) (count : ℕ) : Bytes :=
  lead :: (llText count ++ crlf)

def rioWriteBulkString (buf : Bytes) : Bytes :=
  rioWriteBulkCount 36 buf.length ++ (buf ++ crlf)

/-- The command as `catAppendOnlyGenericCommand` appends it. -/
def catAppendOnlyGenericCommand (argv : List Bytes) : Bytes :=
  rioWriteBulkCount 42 argv.length ++ argv.flatMap rioWriteBulkString

/-! ## Reading -/

/-- `fgets`, given the number of bytes its buffer has room for. -/
def fgets : ℕ → Bytes → Bytes × Bytes
  | 0, fp => ([], fp)
  | _ + 1, [] => ([], [])
  | room + 1, c :: fp =>
    if c = 10 then ([c], fp)
    else
      let (line, rest) := fgets room fp
      (c :: line, rest)

/-- One header line, read into `char buf[128]`. -/
def readHeader (lead : UInt8) (fp : Bytes) : Option (ℤ × Bytes) :=
  match fgets 127 fp with
  | ([], _) => none
  | (c :: line, rest) =>
    if c = lead then some ((strtoll line).value, rest) else none

/-- One bulk argument.  A negative length is an allocation of at least
`2 ^ 63` bytes, which aborts the server. -/
def readBulk (fp : Bytes) : Option (Bytes × Bytes) := do
  let (len, fp) ← readHeader 36 fp
  if len < 0 ∨ fp.length < len.toNat + 2 then none
  else some (fp.take len.toNat, fp.drop (len.toNat + 2))

def readArgs : ℕ → Bytes → Option (List Bytes × Bytes)
  | 0, fp => some ([], fp)
  | argc + 1, fp => do
    let (arg, fp) ← readBulk fp
    let (argv, fp) ← readArgs argc fp
    some (arg :: argv, fp)

def readCommand (fp : Bytes) : Option (List Bytes × Bytes) := do
  let (argc, fp) ← readHeader 42 fp
  if toInt argc < 1 then none else readArgs (toInt argc).toNat fp

variable {σ : Type} {fp rest : Bytes} {argv : List Bytes}

/-- The `while(1)` of `loadAppendOnlyFile` over the fake client's state. -/
def loadLoop (run : σ → List Bytes → Option σ) :
    ℕ → Bytes → σ → Option σ
  | _, [], st => some st
  | 0, _ :: _, _ => none
  | fuel + 1, c :: fp, st => do
    let (argv, rest) ← readCommand (c :: fp)
    let st ← run st argv
    loadLoop run fuel rest st

/-- Every round of the loop reads at least one byte. -/
def loadAll (run : σ → List Bytes → Option σ) (fp : Bytes) (st : σ) :
    Option σ :=
  loadLoop run fp.length fp st

section Extension

theorem fgets_append_eq (room : ℕ) (fp : Bytes) :
    (fgets room fp).1 ++ (fgets room fp).2 = fp := by
  induction room generalizing fp with
  | zero => rfl
  | succ room ih =>
    cases fp with
    | nil => rfl
    | cons c fp =>
      rw [fgets]
      split_ifs with hnewline
      · rfl
      · simp [ih fp]

/-- A line that does not reach the end of the file is complete. -/
theorem fgets_extend {room : ℕ} (hmore : (fgets room fp).2 ≠ [])
    (tail : Bytes) :
    fgets room (fp ++ tail) = ((fgets room fp).1, (fgets room fp).2 ++ tail) := by
  induction room generalizing fp with
  | zero => rfl
  | succ room ih =>
    cases fp with
    | nil => exact absurd rfl hmore
    | cons c fp =>
      simp only [fgets, cons_append] at hmore ⊢
      split_ifs with hnewline
      · rfl
      · rw [if_neg hnewline] at hmore
        rw [ih hmore]

theorem readHeader_eq_some {lead : UInt8} {count : ℤ}
    (hread : readHeader lead fp = some (count, rest)) :
    rest.length < fp.length ∧ (rest ≠ [] → ∀ tail,
      readHeader lead (fp ++ tail) = some (count, rest ++ tail)) := by
  have hsplit := fgets_append_eq 127 fp
  rw [readHeader] at hread
  split at hread
  · cases hread
  rename_i c line rest' hline
  split_ifs at hread with hlead
  cases hread
  rw [hline] at hsplit
  constructor
  · rw [← hsplit]
    simp
  · intro hmore tail
    rw [readHeader, fgets_extend (by rw [hline]; exact hmore), hline]
    simp [hlead]

theorem readBulk_eq_some {arg : Bytes}
    (hread : readBulk fp = some (arg, rest)) :
    fp ≠ [] ∧ rest.length ≤ fp.length ∧ ∀ tail,
      readBulk (fp ++ tail) = some (arg, rest ++ tail) := by
  simp only [readBulk, bind_eq_bind, bind_eq_some_iff] at hread
  obtain ⟨⟨len, body⟩, hheader, hbody⟩ := hread
  simp only at hbody
  split_ifs at hbody with hshort
  cases hbody
  have hroom : len.toNat + 2 ≤ body.length := by omega
  have hne : body ≠ [] := by
    rintro rfl
    simp at hroom
  obtain ⟨hlt, hextend⟩ := readHeader_eq_some hheader
  refine ⟨?_, ?_, fun tail => ?_⟩
  · rintro rfl
    simp at hlt
  · rw [length_drop]
    omega
  have hlonger : ¬ (len < 0 ∨ (body ++ tail).length < len.toNat + 2) := by
    rw [length_append]
    omega
  simp only [readBulk, hextend hne tail, some_bind, if_neg hlonger]
  rw [take_append_of_le_length (by omega),
    drop_append_of_le_length hroom]

theorem readArgs_eq_some {argc : ℕ}
    (hread : readArgs argc fp = some (argv, rest)) :
    (0 < argc → fp ≠ []) ∧ rest.length ≤ fp.length ∧ ∀ tail,
      readArgs argc (fp ++ tail) = some (argv, rest ++ tail) := by
  induction argc generalizing fp argv with
  | zero =>
    cases hread
    exact ⟨fun h => absurd h (lt_irrefl 0), le_rfl, fun _ => rfl⟩
  | succ argc ih =>
    simp only [readArgs, bind_eq_bind, bind_eq_some_iff]
      at hread
    obtain ⟨⟨arg, body⟩, hbulk, ⟨args, rest'⟩, hargs, heq⟩ := hread
    cases heq
    obtain ⟨hne, hle, hextend⟩ := readBulk_eq_some hbulk
    obtain ⟨_, hle', hextend'⟩ := ih hargs
    refine ⟨fun _ => hne, hle'.trans hle, fun tail => ?_⟩
    simp only [readArgs, hextend tail, some_bind, hextend' tail]

theorem readCommand_eq_some (hread : readCommand fp = some (argv, rest)) :
    rest.length < fp.length ∧ ∀ tail,
      readCommand (fp ++ tail) = some (argv, rest ++ tail) := by
  simp only [readCommand, bind_eq_bind, bind_eq_some_iff]
    at hread
  obtain ⟨⟨count, body⟩, hheader, hargs⟩ := hread
  simp only at hargs
  split_ifs at hargs with hnone
  obtain ⟨hlt, hextend⟩ := readHeader_eq_some hheader
  obtain ⟨hne, hle, hextend'⟩ := readArgs_eq_some hargs
  refine ⟨by omega, fun tail => ?_⟩
  simp only [readCommand, hextend (hne (by omega)) tail, some_bind,
    if_neg hnone, hextend' tail]

variable (run : σ → List Bytes → Option σ)

theorem loadLoop_fuel {fuel fuel' : ℕ} (st : σ) (hfuel : fp.length ≤ fuel)
    (hfuel' : fp.length ≤ fuel') :
    loadLoop run fuel fp st = loadLoop run fuel' fp st := by
  induction fuel generalizing fuel' fp st with
  | zero =>
    obtain rfl : fp = [] := length_eq_zero_iff.1 (by omega)
    simp [loadLoop]
  | succ fuel ih =>
    cases fp with
    | nil => simp [loadLoop]
    | cons c fp =>
      cases fuel' with
      | zero => simp at hfuel'
      | succ fuel' =>
        rw [loadLoop, loadLoop]
        cases hread : readCommand (c :: fp) with
        | none => rfl
        | some pair =>
          obtain ⟨argv, rest⟩ := pair
          obtain ⟨hlt, _⟩ := readCommand_eq_some hread
          simp only [some_bind]
          congr 1
          funext st'
          exact ih st' (by omega) (by omega)

@[simp]
theorem loadAll_nil (st : σ) : loadAll run [] st = some st := by
  simp [loadAll, loadLoop]

theorem loadAll_of_readCommand (hread : readCommand fp = some (argv, rest))
    (st : σ) : loadAll run fp st = (run st argv).bind (loadAll run rest) := by
  obtain ⟨hlt, _⟩ := readCommand_eq_some hread
  cases fp with
  | nil => simp at hlt
  | cons c fp =>
    rw [loadAll, length_cons, loadLoop, hread]
    simp only [some_bind]
    congr 1
    funext st'
    exact loadLoop_fuel run st' (by simpa using hlt) le_rfl

theorem loadAll_eq_none (hne : fp ≠ []) (hread : readCommand fp = none)
    (st : σ) : loadAll run fp st = none := by
  cases fp with
  | nil => exact absurd rfl hne
  | cons c fp => simp [loadAll, loadLoop, hread]

/-- Appended bytes are read in the state the file has led to. -/
theorem loadAll_append {st st' : σ} (hload : loadAll run fp st = some st')
    (tail : Bytes) : loadAll run (fp ++ tail) st = loadAll run tail st' := by
  induction hlength : fp.length using Nat.strong_induction_on
    generalizing fp st with
  | _ n ih =>
    subst hlength
    cases hread : readCommand fp with
    | none =>
      by_cases hnil : fp = []
      · subst hnil
        rw [loadAll_nil] at hload
        cases hload
        rfl
      · rw [loadAll_eq_none run hnil hread] at hload
        cases hload
    | some pair =>
      obtain ⟨argv, rest⟩ := pair
      obtain ⟨hlt, hextend⟩ := readCommand_eq_some hread
      rw [loadAll_of_readCommand run hread, bind_eq_some_iff] at hload
      obtain ⟨mid, hrun, hrest⟩ := hload
      rw [loadAll_of_readCommand run (hextend tail), hrun, bind_some]
      exact ih rest.length hlt hrest rfl

end Extension

section RoundTrip

/-- The sizes a command can have: `argc` is an `int`, an argument's length a
`long`. -/
structure Writable (argv : List Bytes) : Prop where
  pos : 0 < argv.length
  argc : argv.length < 2 ^ 31
  len : ∀ arg ∈ argv, arg.length < 2 ^ 63

theorem natText_plain (w : ℕ) :
    (natText w).length ≤ 20 ∧ ∀ c ∈ natText w, c ≠ 10 := by
  refine ⟨length_natText_le w, fun c hmem heq => ?_⟩
  have hdigit := isdigit_of_mem_natText hmem
  subst heq
  exact absurd hdigit (by decide)

theorem fgets_line {room : ℕ} {line : Bytes} (hroom : line.length < room)
    (hplain : ∀ c ∈ line, c ≠ 10) (rest : Bytes) :
    fgets room (line ++ 10 :: rest) = (line ++ [10], rest) := by
  induction line generalizing room with
  | nil =>
    cases room with
    | zero => simp at hroom
    | succ room => simp [fgets]
  | cons c line ih =>
    cases room with
    | zero => simp at hroom
    | succ room =>
      have hnext := ih (by simpa using hroom)
        fun d hd => hplain d (mem_cons_of_mem c hd)
      simp [fgets, hplain c, hnext]

theorem readHeader_rioWriteBulkCount {lead : UInt8} (hlead : lead ≠ 10)
    {count : ℕ} (hcount : count < 2 ^ 63) (rest : Bytes) :
    readHeader lead (rioWriteBulkCount lead count ++ rest) =
      some ((count : ℤ), rest) := by
  have htext : llText (count : ℤ) = natText count := by
    simp [llText]
  obtain ⟨hlength, hplain⟩ := natText_plain count
  have hplain' : ∀ c ∈ lead :: (natText count ++ [13]), c ≠ 10 := by
    intro c hmem
    simp only [mem_cons, mem_append, not_mem_nil, or_false]
      at hmem
    obtain rfl | hdigit | rfl := hmem
    · exact hlead
    · exact hplain c hdigit
    · decide
  have hroom : (lead :: (natText count ++ [13])).length < 127 := by
    simp only [length_cons, length_append, length_nil]
    omega
  have hline := fgets_line hroom hplain' rest
  have hsplit : rioWriteBulkCount lead count ++ rest =
      lead :: (natText count ++ [13]) ++ 10 :: rest := by
    simp [rioWriteBulkCount, crlf, htext]
  have hvalue : strtoll (natText count ++ [13] ++ [10]) =
      ⟨count, crlf, false⟩ := by
    rw [append_assoc, ← htext]
    apply strtoll_llText
    · simp only [llongMin]
      omega
    · simp only [llongMax]
      omega
    · decide
  rw [readHeader, hsplit, hline]
  simp only [cons_append, if_true, hvalue]

theorem readBulk_rioWriteBulkString {arg : Bytes} (harg : arg.length < 2 ^ 63)
    (rest : Bytes) :
    readBulk (rioWriteBulkString arg ++ rest) = some (arg, rest) := by
  have hroom : ¬ ((arg.length : ℤ) < 0 ∨
      (arg ++ crlf ++ rest).length < arg.length + 2) := by
    simp only [crlf, length_append, length_cons, length_nil]
    omega
  rw [rioWriteBulkString, append_assoc, readBulk,
    readHeader_rioWriteBulkCount (by decide) harg]
  simp only [some_bind, Int.toNat_natCast, if_neg hroom]
  simp [crlf, drop_append]

theorem readArgs_flatMap (hlen : ∀ arg ∈ argv, arg.length < 2 ^ 63)
    (rest : Bytes) :
    readArgs argv.length (argv.flatMap rioWriteBulkString ++ rest) =
      some (argv, rest) := by
  induction argv with
  | nil => rfl
  | cons arg argv ih =>
    rw [forall_mem_cons] at hlen
    rw [flatMap_cons, append_assoc, length_cons, readArgs,
      readBulk_rioWriteBulkString hlen.1]
    simp [ih hlen.2]

/-- The reader undoes the writer. -/
theorem readCommand_catAppendOnlyGenericCommand (hargv : Writable argv)
    (rest : Bytes) :
    readCommand (catAppendOnlyGenericCommand argv ++ rest) =
      some (argv, rest) := by
  have hargc : toInt argv.length = argv.length :=
    toInt_eq (by omega) (Int.ofNat_lt.2 hargv.argc)
  have hpos : ¬ toInt argv.length < 1 := by
    have := hargv.pos
    rw [hargc]
    omega
  have hcount : argv.length < 2 ^ 63 := by
    have := hargv.argc
    omega
  rw [catAppendOnlyGenericCommand, append_assoc, readCommand,
    readHeader_rioWriteBulkCount (by decide) hcount, some_bind]
  dsimp only
  rw [if_neg hpos, hargc, Int.toNat_natCast]
  exact readArgs_flatMap hargv.len rest

/-- Runs commands in a row, as a replayed stream of them does. -/
def runAll (run : σ → List Bytes → Option σ) :
    List (List Bytes) → σ → Option σ
  | [], st => some st
  | argv :: argvs, st => (run st argv).bind (runAll run argvs)

theorem runAll_append (run : σ → List Bytes → Option σ)
    (argvs argvs' : List (List Bytes)) (st : σ) :
    runAll run (argvs ++ argvs') st =
      (runAll run argvs st).bind (runAll run argvs') := by
  induction argvs generalizing st with
  | nil => rfl
  | cons argv argvs ih =>
    rw [cons_append, runAll, runAll, bind_assoc]
    congr 1
    funext st'
    exact ih st'

theorem loadAll_flatMap (run : σ → List Bytes → Option σ)
    {argvs : List (List Bytes)} (hargvs : ∀ argv ∈ argvs, Writable argv)
    (rest : Bytes) (st : σ) :
    loadAll run (argvs.flatMap catAppendOnlyGenericCommand ++ rest) st =
      (runAll run argvs st).bind (loadAll run rest) := by
  induction argvs generalizing st with
  | nil => rfl
  | cons argv argvs ih =>
    rw [forall_mem_cons] at hargvs
    rw [flatMap_cons, append_assoc, loadAll_of_readCommand run
      (readCommand_catAppendOnlyGenericCommand hargvs.1 _), runAll,
      bind_assoc]
    congr 1
    funext st'
    exact ih hargvs.2 st'

end RoundTrip

end RedisV8.Aof
