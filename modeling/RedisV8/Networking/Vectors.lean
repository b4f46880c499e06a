import RedisV8.Networking.Framing
import RedisV8.Server.Reply

/-!
# Command vectors on a link

A command sent to another server is written as an array of strings, and read
there by the parser for requests.
-/

namespace RedisV8.Networking

open Util Server Streaming List Reply

/-- `addReplyMultiBulkLen` followed by `addReplyBulk` for every argument. -/
def vector (argv : List Bytes) : Bytes :=
  encode (.multiBulk (argv.map .bulk))

/-- The commands that a client reads from a stream. -/
def commandsOf (s : Bytes) : List (List Bytes) :=
  (frames (fun _ => false) s).filterMap Except.toOption

/-- Commands that the request parser does not refuse. -/
structure Sendable (argv : List Bytes) : Prop where
  nonempty : argv ≠ []
  count_le : (argv.length : ℤ) ≤ maxMultibulkLen
  length_le : ∀ arg ∈ argv, (arg.length : ℤ) ≤ maxBulkLen

instance (argv : List Bytes) : Decidable (Sendable argv) :=
  decidable_of_iff (argv ≠ [] ∧ (argv.length : ℤ) ≤ maxMultibulkLen ∧
      ∀ arg ∈ argv, (arg.length : ℤ) ≤ maxBulkLen)
    ⟨fun ⟨h1, h2, h3⟩ => ⟨h1, h2, h3⟩, fun ⟨h1, h2, h3⟩ => ⟨h1, h2, h3⟩⟩

/-! ## Reading back -/

section Reading

theorem lineOf_natText {kind : UInt8} (hcr : kind ≠ charCr) (hnul : kind ≠ 0)
    (n : ℕ) (rest : Bytes) :
    lineOf (kind :: natText n ++ crlf ++ rest) =
      .done (kind :: natText n) rest := by
  have htext : charCr ∉ kind :: natText n ∧ 0 ∉ kind :: natText n := by
    constructor <;> rw [mem_cons, not_or]
    · exact ⟨hcr.symm, fun hb => absurd (isdigit_of_mem_natText hb) (by decide)⟩
    · exact ⟨hnul.symm, fun hb => absurd (isdigit_of_mem_natText hb) (by decide)⟩
  have hline : strchr charCr (kind :: natText n ++ crlf ++ rest) =
      some (kind :: natText n).length := by
    rw [append_assoc]
    exact (strchr_append_cons htext.1 (charLf :: rest)).trans (if_pos htext.2)
  have hlength : (kind :: natText n ++ crlf ++ rest).length =
      (kind :: natText n).length + 2 + rest.length := by
    simp only [length_append]
    rfl
  rw [lineOf, hline]
  dsimp only
  rw [if_neg (by rw [hlength]; omega), append_assoc,
    take_left' rfl, ← drop_drop, drop_left' rfl]
  rfl

theorem string2ll_natText {n : ℕ} (hn : n < 2 ^ 31) :
    string2ll (natText n) = some (n : ℤ) := by
  have hmin : llongMin ≤ (n : ℤ) := by rw [llongMin]; omega
  have hmax : (n : ℤ) ≤ llongMax := by rw [llongMax]; omega
  rw [← llText_natCast]
  exact string2ll_llText hmin hmax

theorem onLine_bulkLenLine {n : ℕ} (hn : n < 2 ^ 31) (rest : Bytes) :
    onLine bulkLenLine (36 :: natText n ++ crlf ++ rest) =
      if (n : ℤ) ≤ maxBulkLen then .done n rest
      else .error invalidBulkLength := by
  have hline := lineOf_natText (show (36 : UInt8) ≠ charCr by decide)
    (by decide) n rest
  have hread : bulkLenLine (36 :: natText n) =
      if (n : ℤ) ≤ maxBulkLen then .ok n else .error invalidBulkLength := by
    by_cases hle : (n : ℤ) ≤ maxBulkLen <;>
      simp [bulkLenLine, string2ll_natText hn, hle, not_lt.2, not_le.1]
  split_ifs at hread ⊢
  · exact onLine_of_ok hline hread
  · exact onLine_of_error hline hread

theorem onLine_mbulkCountLine {n : ℕ} (hn : n < 2 ^ 31) (rest : Bytes) :
    onLine mbulkCountLine (42 :: natText n ++ crlf ++ rest) =
      if (n : ℤ) ≤ maxMultibulkLen then .done n rest
      else .error invalidMultibulkLength := by
  have hline := lineOf_natText (show (42 : UInt8) ≠ charCr by decide)
    (by decide) n rest
  have hread : mbulkCountLine (42 :: natText n) =
      if (n : ℤ) ≤ maxMultibulkLen then .ok n
      else .error invalidMultibulkLength := by
    by_cases hle : (n : ℤ) ≤ maxMultibulkLen <;>
      simp [mbulkCountLine, string2ll_natText hn, hle, not_lt.2, not_le.1]
  split_ifs at hread ⊢
  · exact onLine_of_ok hline hread
  · exact onLine_of_error hline hread

theorem bulkDataOf_crlf (arg rest : Bytes) :
    bulkDataOf arg.length (arg ++ crlf ++ rest) = .done arg rest := by
  have hlength : (arg ++ crlf ++ rest).length =
      arg.length + 2 + rest.length := by
    simp only [length_append]
    rfl
  rw [bulkDataOf, if_neg (by rw [hlength]; omega), append_assoc,
    take_left' rfl, ← drop_drop, drop_left' rfl]
  rfl

theorem bulksOf_encodeAll {args : List Bytes}
    (hsmall : ∀ arg ∈ args, arg.length < 2 ^ 31) (rest : Bytes) :
    bulksOf args.length (encodeAll (args.map .bulk) ++ rest) =
      if ∀ arg ∈ args, (arg.length : ℤ) ≤ maxBulkLen then .done args rest
      else .error invalidBulkLength := by
  induction args with
  | nil => rfl
  | cons arg args ih =>
    rw [forall_mem_cons] at hsmall
    have hbytes : encodeAll ((arg :: args).map .bulk) ++ rest =
        36 :: natText arg.length ++ crlf ++ (arg ++ crlf ++
          (encodeAll (args.map .bulk) ++ rest)) := by
      rw [map_cons, encodeAll, encode, line]
      simp only [append_assoc, cons_append]
      rfl
    rw [hbytes, length_cons, bulksOf, onLine_bulkLenLine hsmall.1]
    simp only [forall_mem_cons]
    by_cases hfits : (arg.length : ℤ) ≤ maxBulkLen
    · rw [if_pos hfits]
      dsimp only [Parse.bind]
      rw [bulkDataOf_crlf]
      dsimp only
      rw [ih hsmall.2]
      simp only [hfits, true_and]
      split_ifs <;> rfl
    · rw [if_neg hfits, if_neg fun hall => hfits hall.1]
      rfl

/-- What the request parser makes of a vector. -/
theorem requestOf_vector_eq {argv : List Bytes} (hargc : argv.length < 2 ^ 31)
    (hsmall : ∀ arg ∈ argv, arg.length < 2 ^ 31) (rest : Bytes) :
    requestOf (vector argv ++ rest) =
      if (argv.length : ℤ) ≤ maxMultibulkLen then
        if ∀ arg ∈ argv, (arg.length : ℤ) ≤ maxBulkLen then .done argv rest
        else .error invalidBulkLength
      else .error invalidMultibulkLength := by
  have hbytes : vector argv ++ rest = 42 :: natText argv.length ++
      crlf ++ (encodeAll (argv.map .bulk) ++ rest) := by
    rw [vector, encode, line, length_map, append_assoc]
    rfl
  rw [hbytes, cons_append, cons_append, requestOf_cons, if_pos rfl,
    multibulkOf, ← cons_append, ← cons_append, onLine_mbulkCountLine hargc]
  split
  · exact bulksOf_encodeAll hsmall rest
  · rfl

theorem requestOf_vector {argv : List Bytes} (hargv : Sendable argv)
    (rest : Bytes) : requestOf (vector argv ++ rest) = .done argv rest := by
  have hcount := hargv.count_le
  rw [maxMultibulkLen] at hcount
  rw [requestOf_vector_eq (by omega) (fun arg hmem => ?_),
    if_pos hargv.count_le, if_pos hargv.length_le]
  have hlength := hargv.length_le arg hmem
  rw [maxBulkLen] at hlength
  omega

theorem commandsOf_vector_append {argv : List Bytes} (hargv : Sendable argv)
    (rest : Bytes) :
    commandsOf (vector argv ++ rest) = argv :: commandsOf rest := by
  have hlast : isLast (fun _ => false) argv = false := by
    rw [isLast, Bool.and_false]
  have hvisible : isVisible (.ok argv) = true := by
    rw [isVisible]
    exact decide_eq_true hargv.nonempty
  rw [commandsOf, frames, readAll_eq_readFrom consuming_requestOf,
    readFrom_of_done (requestOf_vector hargv rest), hlast,
    if_neg Bool.false_ne_true, filter_cons_of_pos hvisible]
  rfl

theorem commandsOf_vectors {commands : List (List Bytes)}
    (hcommands : ∀ argv ∈ commands, Sendable argv) :
    commandsOf (commands.flatMap vector) = commands := by
  induction commands with
  | nil => rfl
  | cons argv commands ih =>
    rw [flatMap_cons, commandsOf_vector_append (hcommands argv mem_cons_self),
      ih fun a ha => hcommands a (mem_cons_of_mem _ ha)]

theorem vector_ne_nil (argv : List Bytes) : vector argv ≠ [] := by
  rw [vector, encode, line]
  exact cons_ne_nil _ _

end Reading

end RedisV8.Networking
