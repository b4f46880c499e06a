import RedisV8.Util.Cstring

/-!
# Dynamic strings

The functions of `sds.c` that the request parser rests on.  A C string ends
at its first nul, and the byte after an sds string is a nul too, so a search
past the last byte stops there.
-/

namespace RedisV8.Util

open List

variable {c : UInt8} {s token : Bytes} {fuel : ℕ}

def charLf : UInt8 := 10
def charCr : UInt8 := 13
def charSpace : UInt8 := 32
def charTab : UInt8 := 9
def charDoubleQuote : UInt8 := 34
def charSingleQuote : UInt8 := 39
def charBackslash : UInt8 := 92

/-- The offset `strchr(s,c)` finds, for a `c` other than nul. -/
def strchr (c : UInt8) : Bytes → Option ℕ
  | [] => none
  | b :: s =>
    if b = c then some 0
    else if b = 0 then none
    else (strchr c s).map (· + 1)

/-- `sdsnewlen`.  The length in the header is an `int`: of a longer text it
does not tell the length. -/
def sdsnewlen (s : Bytes) : Option Bytes :=
  if s.length < 2 ^ 31 then some s else none

/-- `sdscatlen`.  The text and its nul are written where the header says that
the string ends; the `int` there need not be able to tell the new length. -/
def sdscatlen (s t : Bytes) : Option Bytes :=
  if s.length < 2 ^ 31 then some (s ++ t) else none

/-- `sdscatlen` for a string whose length is asked for later. -/
def sdscatSized (s t : Bytes) : Option Bytes :=
  if s.length + t.length < 2 ^ 31 then some (s ++ t) else none

def isHexDigit (c : UInt8) : Bool :=
  isdigit c || (97 ≤ c && c ≤ 102) || (65 ≤ c && c ≤ 70)

def hexDigitToInt (c : UInt8) : UInt8 :=
  if isdigit c then c - charZero
  else if 97 ≤ c ∧ c ≤ 102 then c - 87
  else if 65 ≤ c ∧ c ≤ 70 then c - 55
  else 0

/-- The byte that a backslash before `c` stands for, within double quotes. -/
def unescape (c : UInt8) : UInt8 :=
  if c = 110 then charLf
  else if c = 114 then charCr
  else if c = 116 then charTab
  else if c = 98 then 8
  else if c = 97 then 7
  else c

/-- `inq` and `insq` of `sdssplitargs`. -/
inductive Quotes where
  | off
  | double
  | single
  deriving DecidableEq, Repr

/-- A closing quote must be followed by a space or by nothing at all. -/
def closesToken (rest : Bytes) : Bool :=
  rest.head?.all isspace

/-- The inner loop of `sdssplitargs`: the token, and the text after it; `none`
for unbalanced quotes.  Each round takes one byte at least. -/
def getToken : ℕ → Quotes → Bytes → Bytes → Option (Bytes × Bytes)
  | 0, _, _, _ => none
  | _ + 1, .off, current, [] => some (current, [])
  | _ + 1, .double, _, [] | _ + 1, .single, _, [] => none
  | fuel + 1, .double, current, c :: rest =>
    if c = charBackslash ∧ rest.head? = some 120 ∧
        (rest.drop 1).head?.any isHexDigit ∧
        (rest.drop 2).head?.any isHexDigit then
      let byte := hexDigitToInt ((rest.drop 1).headD 0) * 16 +
        hexDigitToInt ((rest.drop 2).headD 0)
      getToken fuel .double (current ++ [byte]) (rest.drop 3)
    else if c = charBackslash ∧ rest ≠ [] then
      getToken fuel .double (current ++ [unescape (rest.headD 0)])
        (rest.drop 1)
    else if c = charDoubleQuote then
      if closesToken rest then some (current, rest) else none
    else getToken fuel .double (current ++ [c]) rest
  | fuel + 1, .single, current, c :: rest =>
    if c = charBackslash ∧ rest.head? = some charSingleQuote then
      getToken fuel .single (current ++ [charSingleQuote]) (rest.drop 1)
    else if c = charSingleQuote then
      if closesToken rest then some (current, rest) else none
    else getToken fuel .single (current ++ [c]) rest
  | fuel + 1, .off, current, c :: rest =>
    if c = charSpace ∨ c = charLf ∨ c = charCr ∨ c = charTab then
      some (current, rest)
    else if c = charDoubleQuote then getToken fuel .double current rest
    else if c = charSingleQuote then getToken fuel .single current rest
    else getToken fuel .off (current ++ [c]) rest

def splitLoop : ℕ → Bytes → Option (List Bytes)
  | 0, _ => none
  | fuel + 1, line =>
    match line.dropWhile isspace with
    | [] => some []
    | line => do
        let (token, rest) ← getToken (line.length + 1) .off [] line
        let tokens ← splitLoop fuel rest
        some (token :: tokens)

/-- `sdssplitargs`, with `none` for unbalanced quotes. -/
def sdssplitargs (line : Bytes) : Option (List Bytes) :=
  let line := line.takeWhile (· ≠ 0)
  splitLoop (line.length + 1) line

section Search

theorem strchr_append {n : ℕ} (hfound : strchr c s = some n) (more : Bytes) :
    strchr c (s ++ more) = some n := by
  induction s generalizing n with
  | nil => cases hfound
  | cons b s ih =>
    rw [strchr] at hfound
    rw [cons_append, strchr]
    split_ifs at hfound ⊢ with hb hz
    · exact hfound
    · obtain ⟨m, hm, rfl⟩ := Option.map_eq_some_iff.1 hfound
      rw [ih hm, Option.map_some]

theorem strchr_lt {n : ℕ} (hfound : strchr c s = some n) : n < s.length := by
  induction s generalizing n with
  | nil => cases hfound
  | cons b s ih =>
    rw [strchr] at hfound
    split_ifs at hfound with hb hz
    · cases hfound
      exact Nat.succ_pos _
    · obtain ⟨m, hm, rfl⟩ := Option.map_eq_some_iff.1 hfound
      exact Nat.succ_lt_succ (ih hm)

/-- The first occurrence is found, unless a nul comes before it. -/
theorem strchr_append_cons (hc : c ∉ s) (rest : Bytes) :
    strchr c (s ++ c :: rest) = if 0 ∉ s then some s.length else none := by
  induction s with
  | nil => simp [strchr]
  | cons b s ih =>
    rw [mem_cons, not_or] at hc
    rw [cons_append, strchr, if_neg (Ne.symm hc.1), ih hc.2]
    by_cases hb : b = 0
    · simp [hb]
    · by_cases hz : 0 ∈ s <;> simp [hb, hz, Ne.symm hb]

theorem strchr_eq_none (hc : c ∉ s) : strchr c s = none := by
  induction s with
  | nil => rfl
  | cons b s ih =>
    simp only [mem_cons, not_or] at hc
    rw [strchr, if_neg (Ne.symm hc.1), ih hc.2]
    simp

end Search

/-! ## Splitting a line of plain tokens -/

section Tokens

/-- A byte that stands for itself in a line. -/
def isTokenByte (b : UInt8) : Bool :=
  !isspace b && b ≠ charDoubleQuote && b ≠ charSingleQuote && b ≠ 0

def IsToken (token : Bytes) : Prop :=
  token ≠ [] ∧ ∀ b ∈ token, isTokenByte b = true

theorem length_le_length_flatMap {α : Type*} {f : α → Bytes}
    (hf : ∀ a, f a ≠ []) (l : List α) : l.length ≤ (l.flatMap f).length := by
  induction l with
  | nil => exact Nat.le_refl 0
  | cons a l ih =>
    have ha := length_pos_of_ne_nil (hf a)
    rw [flatMap_cons, length_append, length_cons]
    omega

theorem getToken_append {separator : UInt8}
    (htoken : ∀ b ∈ token, isTokenByte b = true)
    (hseparator : separator = charSpace ∨ separator = charLf)
    (hfuel : token.length < fuel) (current rest : Bytes) :
    getToken fuel .off current (token ++ separator :: rest) =
      some (current ++ token, rest) := by
  induction token generalizing fuel current with
  | nil =>
    obtain ⟨fuel, rfl⟩ := Nat.exists_eq_succ_of_ne_zero hfuel.ne'
    rw [nil_append, getToken, if_pos (hseparator.imp_right .inl), append_nil]
  | cons b token ih =>
    obtain ⟨fuel, rfl⟩ := Nat.exists_eq_succ_of_ne_zero
      (Nat.ne_zero_of_lt hfuel)
    have hb := htoken b mem_cons_self
    simp only [isTokenByte, Bool.and_eq_true, Bool.not_eq_true',
      decide_eq_true_eq] at hb
    obtain ⟨⟨⟨hnospace, hdouble⟩, hsingle⟩, -⟩ := hb
    have hspace : ¬ (b = charSpace ∨ b = charLf ∨ b = charCr ∨
        b = charTab) := by
      rintro (rfl | rfl | rfl | rfl) <;> exact absurd hnospace (by decide)
    rw [cons_append, getToken, if_neg hspace, if_neg hdouble,
      if_neg hsingle, ih (fun c hc => htoken c (mem_cons_of_mem b hc))
        (by simpa using hfuel), append_assoc]
    rfl

theorem dropWhile_isspace_token (htoken : IsToken token) (rest : Bytes) :
    (token ++ rest).dropWhile isspace = token ++ rest := by
  obtain ⟨hne, hbytes⟩ := htoken
  cases token with
  | nil => exact absurd rfl hne
  | cons b token =>
    have hb := hbytes b mem_cons_self
    simp only [isTokenByte, Bool.and_eq_true, Bool.not_eq_true'] at hb
    simp [hb.1.1.1]

/-- One round of the outer loop. -/
theorem splitLoop_token {separator : UInt8} (htoken : IsToken token)
    (hseparator : separator = charSpace ∨ separator = charLf) (rest : Bytes) :
    splitLoop (fuel + 1) (token ++ separator :: rest) =
      (splitLoop fuel rest).map (token :: ·) := by
  have hget : getToken ((token ++ separator :: rest).length + 1) .off []
      (token ++ separator :: rest) = some ([] ++ token, rest) :=
    getToken_append htoken.2 hseparator (by simp) [] rest
  have hdrop := dropWhile_isspace_token htoken (separator :: rest)
  obtain ⟨b, token, rfl⟩ := exists_cons_of_ne_nil htoken.1
  rw [splitLoop, hdrop]
  simp only [cons_append, nil_append] at hget ⊢
  rw [hget]
  cases h : splitLoop fuel rest <;> simp [h]

theorem splitLoop_tokens {tokens : List Bytes}
    (htokens : ∀ t ∈ token :: tokens, IsToken t)
    (hfuel : tokens.length + 1 < fuel) :
    splitLoop fuel (token ++ tokens.flatMap (charSpace :: ·) ++ [charLf]) =
      some (token :: tokens) := by
  induction tokens generalizing fuel token with
  | nil =>
    obtain ⟨fuel, rfl⟩ := Nat.exists_eq_add_of_le' (show 2 ≤ fuel from hfuel)
    have htoken := htokens token mem_cons_self
    rw [flatMap_nil, append_nil, splitLoop_token htoken (.inr rfl)]
    rfl
  | cons next tokens ih =>
    obtain ⟨fuel, rfl⟩ := Nat.exists_eq_add_of_lt hfuel
    have htoken := htokens token mem_cons_self
    have hrest : splitLoop ((next :: tokens).length + 1 + fuel) _ = _ :=
      ih (fun t ht => htokens t (mem_cons_of_mem token ht))
        (by simp only [length_cons]; omega)
    simp only [flatMap_cons, cons_append, append_assoc]
      at hrest ⊢
    rw [splitLoop_token htoken (.inl rfl), hrest]
    rfl

theorem isTokenByte_ne_zero {b : UInt8} (h : isTokenByte b = true) :
    b ≠ 0 := by
  simp only [isTokenByte, Bool.and_eq_true, decide_eq_true_eq] at h
  exact h.2

/-- A line of tokens is split into them. -/
theorem sdssplitargs_tokens {tokens : List Bytes}
    (htokens : ∀ t ∈ token :: tokens, IsToken t) :
    sdssplitargs (token ++ tokens.flatMap (charSpace :: ·) ++ [charLf]) =
      some (token :: tokens) := by
  have hzero : (token ++ tokens.flatMap (charSpace :: ·) ++
      [charLf]).takeWhile (· ≠ 0) =
        token ++ tokens.flatMap (charSpace :: ·) ++ [charLf] := by
    rw [takeWhile_eq_self_iff]
    intro b hb
    simp only [mem_append, mem_flatMap, mem_cons, not_mem_nil, or_false] at hb
    have hbyte : ∀ t ∈ token :: tokens, b ∈ t → b ≠ 0 :=
      fun t ht hbt => isTokenByte_ne_zero ((htokens t ht).2 b hbt)
    rcases hb with (hb | ⟨t, ht, rfl | hb⟩) | rfl
    · simpa using hbyte token mem_cons_self hb
    · decide
    · simpa using hbyte t (mem_cons_of_mem token ht) hb
    · decide
  have hlength : tokens.length ≤ (tokens.flatMap (charSpace :: ·)).length :=
    length_le_length_flatMap (fun t => cons_ne_nil charSpace t) tokens
  simp only [sdssplitargs, hzero]
  refine splitLoop_tokens htokens ?_
  simp only [length_append, length_singleton]
  have hne := length_pos_of_ne_nil (htokens token mem_cons_self).1
  omega

end Tokens

end RedisV8.Util
