import RedisV8.Commands.Slices
import RedisV8.Commands.Collections

/-!
# Integer arithmetic

INCR and its relatives read two numbers from texts, add or subtract them in 64
bits and write the result back.  What they do is compared with decimal numbers
and with arithmetic over the integers.
-/

namespace RedisV8.Commands

open Util Server Keyspace Effects List Option State

variable {s : Bytes} {value : ℤ}

/-! ## Decimal numbers -/

section Decimal

/-- The number that a row of digits stands for. -/
def digitsValue (digits : Bytes) : ℕ :=
  digits.foldl (fun v c => v * 10 + (c - charZero).toNat) 0

def signedValue (negative : Bool) (v : ℕ) : ℤ := if negative then -v else v

/-- The value of a text that is, over its whole length, an optional sign and
one or more digits, if it is a number of 64 bits. -/
def decimalValue (s : Bytes) : Option ℤ :=
  let (negative, digits) := scanSign s
  let value := signedValue negative (digitsValue digits)
  if digits ≠ [] ∧ digits.all isdigit ∧ llongMin ≤ value ∧ value ≤ llongMax
  then some value
  else none

/-- A text that a C string can hold, and that is not empty. -/
def PlainText (s : Bytes) : Prop := s ≠ [] ∧ 0 ∉ s

instance (s : Bytes) : Decidable (PlainText s) :=
  inferInstanceAs (Decidable (_ ∧ _))

theorem isdigit_ne_zero {c : UInt8} (h : isdigit c = true) : c ≠ 0 := by
  rintro rfl
  exact absurd h (by decide)

theorem isspace_of_isdigit {c : UInt8} (h : isdigit c = true) :
    isspace c = false := by
  simp only [isdigit, charZero, charNine, Bool.and_eq_true,
    decide_eq_true_eq, UInt8.le_iff_toNat_le] at h
  simp only [isspace, Bool.or_eq_false_iff, beq_eq_false_iff_ne, ne_eq,
    Bool.and_eq_false_iff, decide_eq_false_iff_not, UInt8.le_iff_toNat_le,
    ← UInt8.toNat_inj]
  simp only [UInt8.reduceToNat] at h ⊢
  omega

/-- Digits are read up to the first byte that is none. -/
theorem scanDigits_append {digits rest : Bytes}
    (hdigits : digits.all isdigit = true)
    (hrest : rest.head?.any isdigit = false) (v : ℕ) :
    scanDigits v (digits ++ rest) =
      (digits.foldl (fun v c => v * 10 + (c - charZero).toNat) v, rest) := by
  induction digits generalizing v with
  | nil =>
    rw [nil_append, scanDigits_stop hrest]
    rfl
  | cons c digits ih =>
    rw [all_cons, Bool.and_eq_true] at hdigits
    rw [cons_append, scanDigits, if_pos hdigits.1, ih hdigits.2]
    rfl

/-- Every text is a row of digits and a rest that does not start with one. -/
theorem digits_split (s : Bytes) :
    ∃ digits rest, s = digits ++ rest ∧ digits.all isdigit = true ∧
      rest.head?.any isdigit = false :=
  ⟨s.takeWhile isdigit, s.dropWhile isdigit,
    (takeWhile_append_dropWhile).symm, all_takeWhile, by
      cases h : s.dropWhile isdigit with
      | nil => rfl
      | cons c rest =>
        have hhead := head_dropWhile_not isdigit (l := s)
          (by rw [h]; exact cons_ne_nil _ _)
        simpa [h] using hhead⟩

/-- A sign is one byte that is neither a space nor nul. -/
theorem scanSign_cases (s : Bytes) :
    (scanSign s).2 = s ∧ (scanSign s).1 = false ∨
      ∃ c, s = c :: (scanSign s).2 ∧ isspace c = false ∧ c ≠ 0 := by
  cases s with
  | nil => exact Or.inl ⟨rfl, rfl⟩
  | cons c rest =>
    rw [scanSign]
    split_ifs with hminus hplus
    · exact Or.inr ⟨c, rfl, by rw [hminus]; decide, by rw [hminus]; decide⟩
    · exact Or.inr ⟨c, rfl, by rw [hplus]; decide, by rw [hplus]; decide⟩
    · exact Or.inl ⟨rfl, rfl⟩

/-- `strtoll` on a text that does not start with a space. -/
theorem strtoll_eq (hspace : s.head?.any isspace = false) :
    strtoll s =
      if (scanSign s).2.head?.any isdigit then
        let value :=
          signedValue (scanSign s).1 (scanDigits 0 (scanSign s).2).1
        if value < llongMin then ⟨llongMin, (scanDigits 0 (scanSign s).2).2, true⟩
        else if llongMax < value then
          ⟨llongMax, (scanDigits 0 (scanSign s).2).2, true⟩
        else ⟨value, (scanDigits 0 (scanSign s).2).2, false⟩
      else ⟨0, s, false⟩ := by
  have hdrop : s.dropWhile isspace = s := by
    cases s with
    | nil => rfl
    | cons c rest =>
      have hc : isspace c = false := hspace
      rw [dropWhile_cons_of_neg (by rw [hc]; decide)]
  rw [strtoll, hdrop]
  rfl

/-- The parts of a decimal number. -/
theorem decimalValue_eq_some_iff :
    decimalValue s = some value ↔
      (scanSign s).2 ≠ [] ∧ (scanSign s).2.all isdigit = true ∧
        llongMin ≤ value ∧ value ≤ llongMax ∧
        value =
          signedValue (scanSign s).1 (digitsValue (scanSign s).2) := by
  rw [decimalValue]
  dsimp only
  constructor
  · intro h
    split_ifs at h with hparts
    obtain ⟨hne, hall, hmin, hmax⟩ := hparts
    rw [Option.some.injEq] at h
    rw [← h]
    exact ⟨hne, hall, hmin, hmax, rfl⟩
  · rintro ⟨hne, hall, hmin, hmax, rfl⟩
    exact if_pos ⟨hne, hall, hmin, hmax⟩

theorem PlainText.of_decimal (h : decimalValue s = some value) : PlainText s := by
  obtain ⟨hne, hall, -⟩ := decimalValue_eq_some_iff.mp h
  have hzero : 0 ∉ (scanSign s).2 := fun hmem =>
    isdigit_ne_zero (all_eq_true.mp hall 0 hmem) rfl
  obtain ⟨hsame, -⟩ | ⟨c, hc, -, hc0⟩ := scanSign_cases s
  · rw [hsame] at hne hzero
    exact ⟨hne, hzero⟩
  rw [hc]
  refine ⟨cons_ne_nil _ _, fun hmem => ?_⟩
  rcases mem_cons.mp hmem with h0 | h0
  · exact hc0 h0.symm
  · rw [hc] at hzero
    exact hzero (hc ▸ h0)

theorem head_isspace_of_decimal (h : decimalValue s = some value) :
    s.head?.any isspace = false := by
  obtain ⟨hne, hall, -⟩ := decimalValue_eq_some_iff.mp h
  obtain ⟨hsame, -⟩ | ⟨c, hc, hspace, -⟩ := scanSign_cases s
  · rw [hsame] at hne hall
    obtain ⟨c, rest, rfl⟩ := exists_cons_of_ne_nil hne
    rw [all_cons, Bool.and_eq_true] at hall
    exact isspace_of_isdigit hall.1
  · rw [hc]
    exact hspace

/-- Every decimal number is read as such. -/
theorem getLongLongFromObject_of_decimal (h : decimalValue s = some value) :
    getLongLongFromObject s = some value := by
  have hspace := head_isspace_of_decimal h
  obtain ⟨hne, hall, hmin, hmax, rfl⟩ := decimalValue_eq_some_iff.mp h
  have hscan : scanDigits 0 (scanSign s).2 =
      (digitsValue (scanSign s).2, []) := by
    have hnil : ([] : Bytes).head?.any isdigit = false := rfl
    have happend := scanDigits_append hall hnil 0
    rwa [append_nil] at happend
  have hhead : (scanSign s).2.head?.any isdigit = true := by
    obtain ⟨c, rest, hcons⟩ := exists_cons_of_ne_nil hne
    rw [hcons, all_cons, Bool.and_eq_true] at hall
    rw [hcons]
    exact hall.1
  have hread : strtoll s =
      ⟨signedValue (scanSign s).1 (digitsValue (scanSign s).2), [], false⟩ := by
    rw [strtoll_eq hspace, if_pos hhead, hscan]
    dsimp only
    rw [if_neg (not_lt.mpr hmin), if_neg (not_lt.mpr hmax)]
  rw [getLongLongFromObject, hread, hspace]
  rfl

/-- What is read as a number is one, unless it is empty or goes on behind a
nul byte. -/
theorem decimalValue_of_getLongLongFromObject
    (h : getLongLongFromObject s = some value) (hplain : PlainText s) :
    decimalValue s = some value := by
  rw [getLongLongFromObject] at h
  split_ifs at h with hbad
  rw [Option.some.injEq] at h
  simp only [Bool.or_eq_true, not_or, Bool.not_eq_true] at hbad
  obtain ⟨⟨hspace, heptr⟩, herange⟩ := hbad
  rw [strtoll_eq hspace] at h heptr herange
  by_cases hhead : (scanSign s).2.head?.any isdigit = true
  · rw [if_pos hhead] at h heptr herange
    obtain ⟨digits, rest, hsplit, hall, hstop⟩ := digits_split (scanSign s).2
    have hscan := scanDigits_append hall hstop 0
    rw [← hsplit] at hscan
    rw [hscan] at h heptr herange
    dsimp only at h heptr herange
    split_ifs at h heptr herange with hmin hmax
    rw [not_lt] at hmin hmax
    have hrest : rest = [] := by
      cases rest with
      | nil => rfl
      | cons c rest =>
        have hc : c = 0 := by simpa using heptr
        have hmem : c ∈ (scanSign s).2 := by simp [hsplit]
        obtain ⟨hsame, -⟩ | ⟨c', hc', -, -⟩ := scanSign_cases s
        · rw [hsame, hc] at hmem
          exact absurd hmem hplain.2
        · refine absurd ?_ hplain.2
          rw [hc', ← hc]
          exact mem_cons_of_mem _ hmem
    rw [hrest, append_nil] at hsplit
    have hne : (scanSign s).2 ≠ [] := fun hnil => by simp [hnil] at hhead
    rw [← hsplit] at hall hmin hmax h
    rw [decimalValue_eq_some_iff, ← h]
    exact ⟨hne, hall, hmin, hmax, rfl⟩
  · rw [if_neg hhead] at heptr
    obtain ⟨c, rest, rfl⟩ := exists_cons_of_ne_nil hplain.1
    have hc : c = 0 := by simpa using heptr
    exact absurd (hc ▸ mem_cons_self) hplain.2

end Decimal

/-! ## The commands -/

/-- The fields of a hash; a missing one has none. -/
def fieldsOf : Option Value → Fields
  | some (.hash h) => h
  | _ => ∅

inductive Arith where
  | incr | decr | incrby | decrby | hincrby
  deriving DecidableEq, Repr

namespace Arith

def proc : Arith → Client → List Bytes → Cmd Outcome
  | .incr => incrCommand
  | .decr => decrCommand
  | .incrby => incrbyCommand
  | .decrby => decrbyCommand
  | .hincrby => hincrbyCommand

def subtracts : Arith → Bool
  | .decr | .decrby => true
  | .incr | .incrby | .hincrby => false

/-- The text of the number that is added or subtracted. -/
def operand : Arith → List Bytes → Bytes
  | .incr, _ | .decr, _ => ascii "1"
  | .incrby, argv | .decrby, argv => arg argv 2
  | .hincrby, argv => arg argv 3

/-- The sum or difference over the integers. -/
def result (cmd : Arith) (a b : ℤ) : ℤ := if cmd.subtracts then a - b else a + b

/-- The text of the stored number, where what is missing counts as zero;
`none` for a key of another type. -/
def storedText : Arith → List Bytes → Option Value → Option Bytes
  | _, _, none => some (ascii "0")
  | .hincrby, argv, some (.hash h) =>
    some ((h.lookup (arg argv 2)).getD (ascii "0"))
  | .incr, _, some (.string s) | .decr, _, some (.string s)
  | .incrby, _, some (.string s) | .decrby, _, some (.string s) => some s
  | _, _, some _ => none

/-- The value of the key with the result in it. -/
def newValue : Arith → List Bytes → Option Value → ℤ → Value
  | .hincrby, argv, o, n => .hash ((fieldsOf o).insert (arg argv 2) (llText n))
  | _, _, _, n => .string (llText n)

def inRange (n : ℤ) : Prop := llongMin ≤ n ∧ n ≤ llongMax

instance (n : ℤ) : Decidable (inRange n) :=
  inferInstanceAs (Decidable (_ ∧ _))

/-- What the commands are to store and return: `none` stands for an error. -/
def exactResult (cmd : Arith) (argv : List Bytes) (o : Option Value) :
    Option ℤ :=
  (decimalValue (cmd.operand argv)).bind fun b =>
    (cmd.storedText argv o).bind fun text =>
      (decimalValue text).bind fun a =>
        if inRange (cmd.result a b) then some (cmd.result a b) else none

/-- The number that is added in 64 bits. -/
def increment (cmd : Arith) (b : ℤ) : ℤ :=
  if cmd.subtracts then toLongLong (-b) else b

/-- What the commands do store and return. -/
def codeResult (cmd : Arith) (argv : List Bytes) (o : Option Value) :
    Option ℤ :=
  (getLongLongFromObject (cmd.operand argv)).bind fun b =>
    (cmd.storedText argv o).bind fun text =>
      (getLongLongFromObject text).bind fun a => addLongLong a (cmd.increment b)

end Arith

/-- A command refuses, or stores and returns a number; `value` is what the key
holds then. -/
def Performs (env : Env) (d : Dataset) (p : Cmd Outcome) (k : Key)
    (value : ℤ → Value) : Option ℤ → Prop
  | none => Refused env d p
  | some n =>
    (run (handle env) p (init d)).1 = .reply (.integer n) ∧
      (run (handle env) p (init d)).2.data =
        ((lookedUp env (init d) k).store k (value n)).data

/-- The command does what a result says. -/
def Arith.Does (env : Env) (d : Dataset) (cmd : Arith) (c : Client)
    (argv : List Bytes) (result : Option ℤ) : Prop :=
  Performs env d (cmd.proc c argv) (keyArg c argv 1)
    (cmd.newValue argv (found env (init d) (keyArg c argv 1))) result

section Runs

variable {env : Env} {d : Dataset} {c : Client} {argv : List Bytes} {k : Key}

/-- A command has one result. -/
theorem Performs.unique {p : Cmd Outcome} {value : ℤ → Value}
    {r r' : Option ℤ} (h : Performs env d p k value r)
    (h' : Performs env d p k value r') : r = r' := by
  have hne : ∀ n, Performs env d p k value (some n) → ¬ Refused env d p := by
    intro n hn hrefused
    have herror := hrefused.1
    rw [hn.1] at herror
    cases herror
  cases r with
  | none =>
    cases r' with
    | none => rfl
    | some n => exact absurd h (hne n h')
  | some n =>
    cases r' with
    | none => exact absurd h' (hne n h)
    | some n' =>
      have hreply := h.1.symm.trans h'.1
      simp only [Outcome.reply.injEq, Reply.integer.injEq] at hreply
      rw [hreply]

theorem addLongLong_eq {a x : ℤ} (ha : Arith.inRange a) (hx : Arith.inRange x) :
    addLongLong a x = if Arith.inRange (a + x) then some (a + x) else none := by
  obtain ⟨hamin, hamax⟩ := ha
  obtain ⟨hxmin, hxmax⟩ := hx
  rw [addLongLong]
  by_cases hrange : Arith.inRange (a + x)
  · obtain ⟨hmin, hmax⟩ := hrange
    rw [if_neg (by omega), if_pos ⟨hmin, hmax⟩, toLongLong_eq hmin hmax]
  rw [if_neg hrange, if_pos]
  rw [Arith.inRange] at hrange
  simp only [llongMin, llongMax] at *
  omega

def storedString : Option Value → Option Bytes
  | none => some (ascii "0")
  | some (.string s) => some s
  | some _ => none

theorem changeOf_incrChange (incr : ℤ) (o : Option Value) :
    changeOf (incrChange incr (ascii "0")) (stringChange (incrChange incr)) o =
      (storedString o).elim (.answer Reply.wrongtypeerr) (incrChange incr) := by
  match o with
  | none | some (.string _) | some (.list _) | some (.set _) | some (.hash _)
  | some (.zset _) => rfl

/-- `incrDecrCommand`, from the text that is stored. -/
theorem performs_incrDecrCommand (env : Env) (d : Dataset) (k : Key)
    (incr : ℤ) :
    Performs env d (incrDecrCommand k incr) k (fun n => .string (llText n))
      ((storedString (found env (init d) k)).bind fun text =>
        (getLongLongFromObject text).bind fun a => addLongLong a incr) := by
  have hchange := changeOf_incrChange incr (found env (init d) k)
  cases htext : storedString (found env (init d) k) with
  | none =>
    rw [htext] at hchange
    exact refused_updateCommand rfl hchange
  | some text =>
    rw [htext] at hchange
    rw [bind_some]
    cases hparse : getLongLongFromObject text with
    | none =>
      refine refused_updateCommand (r := Reply.notAnInteger) rfl ?_
      rw [hchange, elim_some, incrChange, hparse]
    | some a =>
      rw [bind_some]
      cases hsum : addLongLong a incr with
      | none =>
        refine refused_updateCommand (r := overflowError) rfl ?_
        rw [hchange, elim_some, incrChange, hparse]
        dsimp only
        rw [hsum]
      | some n =>
        have hput : incrChange incr text =
            .put (some (.string (llText n))) 1 [(.string, "incrby")] none
              (.integer n) := by
          rw [incrChange, hparse]
          dsimp only
          rw [hsum]
        rw [Performs, incrDecrCommand, run_updateCommand, hchange,
          elim_some, hput]
        exact ⟨rfl, rfl⟩

/-- A command that reads its argument first. -/
theorem performs_withLong {text : Bytes} {f : ℤ → Cmd Outcome}
    {value : ℤ → Value} {result : ℤ → Option ℤ}
    (h : ∀ b, getLongLongFromObject text = some b →
      Performs env d (f b) k value (result b)) :
    Performs env d (withLong text f) k value
      ((getLongLongFromObject text).bind result) := by
  rw [withLong]
  cases hparse : getLongLongFromObject text with
  | none => exact refused_addReply rfl
  | some b => exact h b hparse

def storedField (field : Bytes) : Option Value → Option Bytes
  | none => some (ascii "0")
  | some (.hash h) => some ((h.lookup field).getD (ascii "0"))
  | some _ => none

/-- A new hash, whose fields count as zero, takes any number. -/
theorem addLongLong_zero {b : ℤ} (hb : Arith.inRange b) :
    addLongLong 0 b = some b := by
  rw [addLongLong_eq (by decide) hb, Int.zero_add, if_pos hb]

/-- HINCRBY on the fields of a hash. -/
theorem hincrbyChange_eq (field : Bytes) (h : Fields) (b : ℤ) {r : Option ℤ}
    (hr : ((getLongLongFromObject ((h.lookup field).getD (ascii "0"))).bind
      fun a => addLongLong a b) = r) :
    (r = none → ∃ r, isError (.reply r) = true ∧
      hincrbyChange field b h = .answer r) ∧
    ∀ n, r = some n → hincrbyChange field b h =
      .put (some (.hash (h.insert field (llText n)))) 1 [(.hash, "hincrby")]
        none (.integer n) := by
  rw [hincrbyChange]
  cases hparse : getLongLongFromObject ((h.lookup field).getD (ascii "0")) with
  | none =>
    rw [hparse] at hr
    subst hr
    exact ⟨fun _ => ⟨_, rfl, rfl⟩, fun n hn => (by cases hn)⟩
  | some a =>
    rw [hparse, bind_some] at hr
    dsimp only
    rw [hr]
    cases r with
    | none => exact ⟨fun _ => ⟨_, rfl, rfl⟩, fun n hn => (by cases hn)⟩
    | some m =>
      refine ⟨fun hm => (by cases hm), fun n hn => ?_⟩
      rw [Option.some.inj hn]

theorem performs_hincrby (env : Env) (d : Dataset) (k : Key) (field : Bytes)
    {b : ℤ} (hb : Arith.inRange b) :
    Performs env d (hashUpdate k (hincrbyChange field b)) k
      (fun n => .hash ((fieldsOf (found env (init d) k)).insert field
        (llText n)))
      ((storedField field (found env (init d) k)).bind fun text =>
        (getLongLongFromObject text).bind fun a => addLongLong a b) := by
  have hrun : run (handle env) (createCommand k (.hash ∅)
      (hashChange (hincrbyChange field b))) _ = _ :=
    run_createCommand (.hash ∅) (hashChange (hincrbyChange field b))
      (init d)
  have hkept : ∀ value, found env (init d) k = some value →
      created env (init d) k (.hash ∅) = lookedUp env (init d) k := by
    intro value hvalue
    rw [created, hvalue]
    rfl
  have hrefused : ∀ value r, found env (init d) k = some value →
      isError (.reply r) = true →
      hashChange (hincrbyChange field b) value = .answer r →
      Refused env d (hashUpdate k (hincrbyChange field b)) := by
    intro value r hvalue hr hchange
    rw [hvalue, hkept value hvalue, getD_some, hchange] at hrun
    rw [Refused, hashUpdate, hrun]
    exact ⟨hr, data_lookedUp_init env d k, dirty_lookedUp env _ k⟩
  cases hfound : found env (init d) k with
  | none =>
    have hzero : ((getLongLongFromObject (((∅ : Fields).lookup field).getD
        (ascii "0"))).bind fun a => addLongLong a b) = some b := by
      rw [Finmap.lookup_empty]
      exact addLongLong_zero hb
    have hput := (hincrbyChange_eq field ∅ b hzero).2 b rfl
    have hresult : ((storedField field none).bind fun text =>
        (getLongLongFromObject text).bind fun a => addLongLong a b) = some b :=
      addLongLong_zero hb
    rw [hresult]
    rw [hfound, getD_none, hashChange, hput] at hrun
    rw [created, hfound, elim_none] at hrun
    have hstored := congrArg data (store_store
      (lookedUp env (init d) k) k (.hash ∅)
      (.hash (Finmap.insert field (llText b) ∅)))
    rw [Performs, hashUpdate, hrun]
    exact ⟨rfl, hstored⟩
  | some value =>
    cases value with
    | hash h =>
      obtain ⟨herror, hput⟩ :=
        hincrbyChange_eq field h b rfl
      rw [storedField, bind_some]
      generalize ((getLongLongFromObject
        ((h.lookup field).getD (ascii "0"))).bind
          fun a => addLongLong a b) = result at herror hput ⊢
      cases result with
      | none =>
        obtain ⟨r, hr, hchange⟩ := herror rfl
        exact hrefused _ r hfound hr hchange
      | some n =>
        rw [hfound, hkept _ hfound, getD_some, hashChange, hput n rfl] at hrun
        rw [Performs, hashUpdate, hrun]
        exact ⟨rfl, rfl⟩
    | string | list | set | zset =>
      exact hrefused _ _ hfound rfl rfl

theorem storedText_string {cmd : Arith} (hcmd : cmd ≠ .hincrby)
    (argv : List Bytes) (o : Option Value) :
    cmd.storedText argv o = storedString o := by
  cases cmd <;>
    first
      | exact absurd rfl hcmd
      | match o with
        | none | some (.string _) | some (.list _) | some (.set _)
        | some (.hash _) | some (.zset _) => rfl

theorem storedText_hincrby (argv : List Bytes) (o : Option Value) :
    Arith.hincrby.storedText argv o = storedField (arg argv 2) o := by
  match o with
  | none | some (.string _) | some (.list _) | some (.set _)
  | some (.hash _) | some (.zset _) => rfl

/-- The results agree with what the commands do. -/
theorem does_codeResult (env : Env) (d : Dataset) (cmd : Arith) (c : Client)
    (argv : List Bytes) :
    cmd.Does env d c argv
      (cmd.codeResult argv (found env (init d) (keyArg c argv 1))) := by
  rw [Arith.Does, Arith.codeResult]
  cases cmd with
  | incr | decr =>
    rw [storedText_string (by decide)]
    exact performs_incrDecrCommand env d _ _
  | incrby | decrby =>
    rw [storedText_string (by decide)]
    exact performs_withLong fun b _ => performs_incrDecrCommand env d _ _
  | hincrby =>
    rw [storedText_hincrby]
    exact performs_withLong fun b hb =>
      performs_hincrby env d _ _ (getLongLongFromObject_bounds hb)

end Runs

/-! ## When the results are exact -/

section Exact

/-- Whatever is read as two numbers with a result in range is two numbers, and
DECRBY does not subtract the smallest number: it would have to refuse a number
that is not negative, and a negative one unless an operand is no number. -/
def Arith.OperandsExact (cmd : Arith) (argv : List Bytes) (o : Option Value) :
    Prop :=
  ∀ text a b, cmd.storedText argv o = some text →
    getLongLongFromObject text = some a →
    getLongLongFromObject (cmd.operand argv) = some b →
    if cmd = .decrby ∧ b = llongMin then
      a < 0 ∧ ¬ (PlainText text ∧ PlainText (cmd.operand argv))
    else
      Arith.inRange (cmd.result a b) →
        PlainText text ∧ PlainText (cmd.operand argv)

variable {cmd : Arith} {argv : List Bytes} {o : Option Value} {text : Bytes}
  {a b : ℤ}

theorem decimalValue_eq_none (h : getLongLongFromObject s = none) :
    decimalValue s = none := by
  cases hdecimal : decimalValue s with
  | none => rfl
  | some v =>
    rw [getLongLongFromObject_of_decimal hdecimal] at h
    cases h

/-- A text that is read as a number is one exactly when it is plain. -/
theorem decimalValue_eq {v : ℤ} (h : getLongLongFromObject s = some v) :
    decimalValue s = if PlainText s then some v else none := by
  split_ifs with hplain
  · exact decimalValue_of_getLongLongFromObject h hplain
  · cases hdecimal : decimalValue s with
    | none => rfl
    | some w => exact absurd (PlainText.of_decimal hdecimal) hplain

theorem exactResult_eq (htext : cmd.storedText argv o = some text)
    (ha : getLongLongFromObject text = some a)
    (hb : getLongLongFromObject (cmd.operand argv) = some b) :
    cmd.exactResult argv o =
      if PlainText text ∧ PlainText (cmd.operand argv) ∧
        Arith.inRange (cmd.result a b) then some (cmd.result a b)
      else none := by
  rw [Arith.exactResult, htext, decimalValue_eq hb]
  by_cases hpb : PlainText (cmd.operand argv)
  · rw [if_pos hpb, bind_some, bind_some, decimalValue_eq ha]
    by_cases hpa : PlainText text
    · rw [if_pos hpa, bind_some]
      by_cases hrange : Arith.inRange (cmd.result a b)
      · rw [if_pos hrange, if_pos ⟨hpa, hpb, hrange⟩]
      · rw [if_neg hrange, if_neg fun h => hrange h.2.2]
    · rw [if_neg hpa, bind_none, if_neg fun h => hpa h.1]
  · rw [if_neg hpb, bind_none, if_neg fun h => hpb h.2.1]

/-- The sum in 64 bits, the smallest number of DECRBY apart. -/
theorem addLongLong_increment (cmd : Arith) (ha : Arith.inRange a)
    (hb : Arith.inRange b)
    (hsmallest : ¬ (cmd.subtracts = true ∧ b = llongMin)) :
    addLongLong a (cmd.increment b) =
      if Arith.inRange (cmd.result a b) then some (cmd.result a b)
      else none := by
  rw [Arith.increment, Arith.result]
  cases hsub : cmd.subtracts with
  | false =>
    simp only [Bool.false_eq_true, if_false]
    exact addLongLong_eq ha hb
  | true =>
    have hne : b ≠ llongMin := fun h => hsmallest ⟨hsub, h⟩
    obtain ⟨hmin, hmax⟩ := hb
    have hneg : Arith.inRange (-b) := by
      rw [Arith.inRange]
      simp only [llongMin, llongMax] at *
      omega
    simp only [if_true, toLongLong_eq hneg.1 hneg.2]
    rw [addLongLong_eq ha hneg, ← Int.sub_eq_add_neg]

theorem addLongLong_smallest (ha : Arith.inRange a) :
    addLongLong a (toLongLong (-llongMin)) =
      if a < 0 then none else some (a + llongMin) := by
  have hwrap : toLongLong (-llongMin) = llongMin := by decide
  obtain ⟨hmin, hmax⟩ := ha
  rw [hwrap, addLongLong_eq ⟨hmin, hmax⟩ (by decide)]
  by_cases hneg : a < 0
  · rw [if_pos hneg, if_neg]
    rintro ⟨hlow, -⟩
    omega
  rw [if_neg hneg, if_pos]
  rw [Arith.inRange]
  simp only [llongMin, llongMax] at *
  omega

/-- The two results for operands that are read as numbers. -/
theorem addLongLong_eq_exact_iff {p q : Prop} [Decidable p] [Decidable q]
    (ha : Arith.inRange a) (hb : Arith.inRange b)
    (hdecr : cmd = .decr → b ≠ llongMin) :
    (addLongLong a (cmd.increment b) =
        if p ∧ q ∧ Arith.inRange (cmd.result a b) then some (cmd.result a b)
        else none) ↔
      if cmd = .decrby ∧ b = llongMin then a < 0 ∧ ¬ (p ∧ q)
      else Arith.inRange (cmd.result a b) → p ∧ q := by
  by_cases hsmallest : cmd = .decrby ∧ b = llongMin
  · obtain ⟨rfl, rfl⟩ := hsmallest
    have hrange : Arith.inRange (Arith.decrby.result a llongMin) ↔ a < 0 := by
      obtain ⟨hmin, hmax⟩ := ha
      simp only [Arith.inRange, Arith.result, Arith.subtracts, if_true]
      simp only [llongMin, llongMax] at *
      omega
    have hsum : addLongLong a (Arith.decrby.increment llongMin) =
        if a < 0 then none else some (a + llongMin) := addLongLong_smallest ha
    simp only [hsum, hrange, and_self, if_true]
    by_cases hneg : a < 0
    · by_cases hpq : p ∧ q
      · simp [hneg, hpq.1, hpq.2]
      · rw [if_pos hneg, if_neg fun h => hpq ⟨h.1, h.2.1⟩]
        exact iff_of_true rfl ⟨hneg, hpq⟩
    · simp [hneg]
  · rw [if_neg hsmallest]
    have hsum := addLongLong_increment cmd ha hb fun h => by
      cases cmd with
      | decr => exact hdecr rfl h.2
      | decrby => exact hsmallest ⟨rfl, h.2⟩
      | incr | incrby | hincrby => exact absurd h.1 (by decide)
    rw [hsum]
    by_cases hrange : Arith.inRange (cmd.result a b)
    · by_cases hpq : p ∧ q
      · simp [hrange, hpq.1, hpq.2]
      · rw [if_pos hrange, if_neg fun h => hpq ⟨h.1, h.2.1⟩]
        simp [hrange, hpq]
    · simp [hrange]

theorem codeResult_eq_exactResult_iff (cmd : Arith) (argv : List Bytes)
    (o : Option Value) :
    cmd.codeResult argv o = cmd.exactResult argv o ↔
      cmd.OperandsExact argv o := by
  cases hb : getLongLongFromObject (cmd.operand argv) with
  | none =>
    rw [Arith.codeResult, Arith.exactResult, hb, decimalValue_eq_none hb]
    refine iff_of_true rfl fun text a b _ _ hb' => ?_
    rw [hb] at hb'
    cases hb'
  | some b =>
    cases htext : cmd.storedText argv o with
    | none =>
      rw [Arith.codeResult, Arith.exactResult, hb, htext]
      refine iff_of_true ?_ fun text a b htext' => ?_
      · simp
      · rw [htext] at htext'
        cases htext'
    | some text =>
      cases ha : getLongLongFromObject text with
      | none =>
        rw [Arith.codeResult, Arith.exactResult, hb, htext,
          bind_some, bind_some, ha]
        refine iff_of_true ?_ fun text' a b htext' ha' => ?_
        · simp [decimalValue_eq_none ha]
        · cases htext.symm.trans htext'
          rw [ha] at ha'
          cases ha'
      | some a =>
        have hcode : cmd.codeResult argv o =
            addLongLong a (cmd.increment b) := by
          rw [Arith.codeResult, hb, htext, bind_some, bind_some, ha, bind_some]
        have hcondition : cmd.OperandsExact argv o ↔
            if cmd = .decrby ∧ b = llongMin then
              a < 0 ∧ ¬ (PlainText text ∧ PlainText (cmd.operand argv))
            else
              Arith.inRange (cmd.result a b) →
                PlainText text ∧ PlainText (cmd.operand argv) := by
          constructor
          · exact fun h => h text a b htext ha hb
          intro h text' a' b' htext' ha' hb'
          cases htext.symm.trans htext'
          cases ha.symm.trans ha'
          cases hb.symm.trans hb'
          exact h
        rw [hcode, hcondition, exactResult_eq htext ha hb]
        exact addLongLong_eq_exact_iff
          (getLongLongFromObject_bounds ha)
          (getLongLongFromObject_bounds hb) (by
            rintro rfl rfl
            have hone : getLongLongFromObject (ascii "1") ≠
                some llongMin := by decide
            exact hone hb)

/-- INCR, DECR, INCRBY, DECRBY and HINCRBY do exactly what they are to do when
their operands are what they are read as. -/
theorem arith_exact_iff (env : Env) (d : Dataset) (cmd : Arith) (c : Client)
    (argv : List Bytes) :
    cmd.Does env d c argv
        (cmd.exactResult argv (found env (init d) (keyArg c argv 1))) ↔
      cmd.OperandsExact argv
        (found env (init d) (keyArg c argv 1)) := by
  rw [← codeResult_eq_exactResult_iff]
  have hcode := does_codeResult env d cmd c argv
  constructor
  · exact fun hexact => Performs.unique hcode hexact
  · intro heq
    rw [← heq]
    exact hcode

/-- The smallest number is subtracted as if it were its own opposite, and an
empty value and one that goes on behind a nul byte count as numbers. -/
theorem arith_not_exact :
    Arith.decrby.exactResult
        [ascii "DECRBY", ascii "k", ascii "-9223372036854775808"] none = none ∧
      Arith.decrby.Does (Env.ofTime 0) (fun _ => ∅) ⟨0, false⟩
        [ascii "DECRBY", ascii "k", ascii "-9223372036854775808"]
        (some (-9223372036854775808)) ∧
      (∀ text ∈ [[], ascii "41" ++ 0 :: ascii "x"],
        Arith.incr.exactResult [ascii "INCR", ascii "k"]
            (some (.string text)) = none ∧
          (Arith.incr.codeResult [ascii "INCR", ascii "k"]
            (some (.string text))).isSome = true) := by
  refine ⟨by decide, ?_, by decide⟩
  have hcode := does_codeResult (Env.ofTime 0) (fun _ => ∅) .decrby ⟨0, false⟩
    [ascii "DECRBY", ascii "k", ascii "-9223372036854775808"]
  rw [found_init_empty] at hcode
  exact hcode

end Exact

end RedisV8.Commands
