import RedisV8.Util.Sds

/-!
# Quoted strings

`sdscatrepr` prints a string within double quotes, in a form that
`sdssplitargs` reads.
-/

namespace RedisV8.Util

open List

variable {c : UInt8} {p current rest : Bytes} {fuel : ℕ}

def isprint (c : UInt8) : Bool := 32 ≤ c && c ≤ 126

/-- A digit of `%02x`. -/
def hexChar (n : ℕ) : UInt8 := if n < 10 then digitChar n else .ofNat (87 + n)

/-- What `sdscatrepr` prints for a byte. -/
def reprByte (c : UInt8) : Bytes :=
  if c = charBackslash ∨ c = charDoubleQuote then [charBackslash, c]
  else if c = charLf then [charBackslash, 110]
  else if c = charCr then [charBackslash, 114]
  else if c = charTab then [charBackslash, 116]
  else if c = 7 then [charBackslash, 97]
  else if c = 8 then [charBackslash, 98]
  else if isprint c then [c]
  else [charBackslash, 120, hexChar (c.toNat / 16), hexChar (c.toNat % 16)]

def sdscatrepr (s p : Bytes) : Option Bytes := do
  let s ← sdscatlen s [charDoubleQuote]
  let s ← p.foldlM (fun s c => sdscatlen s (reprByte c)) s
  sdscatlen s [charDoubleQuote]

/-- The strings printed one after the other, with spaces between them. -/
def printArgs (s : Bytes) : List Bytes → Option Bytes
  | [] => some s
  | p :: args => do
      let s ← sdscatrepr s p
      if args = [] then some s
      else
        let s ← sdscatlen s [charSpace]
        printArgs s args

/-! ## Printing -/

def quoted (p : Bytes) : Bytes :=
  charDoubleQuote :: (p.flatMap reprByte ++ [charDoubleQuote])

/-- The text of the line. -/
def printed : List Bytes → Bytes
  | [] => []
  | p :: args => quoted p ++ args.flatMap (charSpace :: quoted ·)

/-- Adding to a string that stays within the reach of its header until its
last byte. -/
def catWithin (s t : Bytes) : Option Bytes :=
  if s.length + t.length ≤ 2 ^ 31 then some (s ++ t) else none

theorem catWithin_append (s t u : Bytes) :
    catWithin s (t ++ u) = (catWithin s t).bind (catWithin · u) := by
  simp only [catWithin, length_append, ← Nat.add_assoc]
  by_cases ht : s.length + t.length ≤ 2 ^ 31
  · rw [if_pos ht, Option.bind_some, length_append, append_assoc]
  · rw [if_neg ht, if_neg (by omega), Option.bind_none]

/-- What comes next asks for the length. -/
theorem sdscatlen_bind {u : Bytes} (hu : u ≠ []) (s t : Bytes) :
    (sdscatlen s t).bind (catWithin · u) = catWithin s (t ++ u) := by
  have hpos := length_pos_iff.2 hu
  simp only [sdscatlen, catWithin]
  by_cases hs : s.length < 2 ^ 31
  · rw [if_pos hs, Option.bind_some, length_append, length_append,
      ← Nat.add_assoc, append_assoc]
  · rw [if_neg hs, Option.bind_none, length_append, if_neg (by omega)]

theorem foldlM_sdscatlen {u : Bytes} (hu : u ≠ []) (f : UInt8 → Bytes)
    (s : Bytes) :
    (p.foldlM (fun s c => sdscatlen s (f c)) s).bind (catWithin · u) =
      catWithin s (p.flatMap f ++ u) := by
  induction p generalizing s with
  | nil => rfl
  | cons c p ih =>
    rw [foldlM_cons, flatMap_cons, append_assoc,
      ← sdscatlen_bind (append_ne_nil_of_right_ne_nil _ hu)]
    exact (Option.bind_assoc _ _ _).trans
      (congrArg (Option.bind _) (funext ih))

theorem sdscatrepr_eq (s : Bytes) :
    sdscatrepr s p = catWithin s (quoted p) := by
  rw [quoted, ← singleton_append, ← sdscatlen_bind (by simp)]
  exact congrArg (Option.bind _)
    (funext (foldlM_sdscatlen (cons_ne_nil charDoubleQuote []) reprByte))

theorem printArgs_cons (s : Bytes) (args : List Bytes) :
    printArgs s (p :: args) = catWithin s (printed (p :: args)) := by
  induction args generalizing s p with
  | nil => simp [printArgs, printed, sdscatrepr_eq]
  | cons q args ih =>
    rw [printArgs, sdscatrepr_eq, printed, catWithin_append]
    refine congrArg (Option.bind _) (funext fun s => ?_)
    rw [if_neg (cons_ne_nil q args)]
    exact (congrArg (Option.bind _) (funext ih)).trans
      (catWithin_append s [charSpace] _).symm

/-! ## Splitting -/

theorem hexChar_reads : ∀ n < 256,
    isHexDigit (hexChar (n / 16)) ∧ isHexDigit (hexChar (n % 16)) ∧
      hexDigitToInt (hexChar (n / 16)) * 16 + hexDigitToInt (hexChar (n % 16)) =
        .ofNat n := by
  decide +kernel

/-- One round of the splitter reads back what was printed for a byte. -/
theorem getToken_reprByte (c : UInt8) :
    getToken (fuel + 1) .double current (reprByte c ++ rest) =
      getToken fuel .double (current ++ [c]) rest := by
  rw [reprByte]
  split_ifs with hself hlf hcr htab hbel hbs hprint
  · rcases hself with rfl | rfl <;> rfl
  · subst hlf; rfl
  · subst hcr; rfl
  · subst htab; rfl
  · subst hbel; rfl
  · subst hbs; rfl
  · rw [not_or] at hself
    simp [getToken, hself]
  · obtain ⟨hhigh, hlow, hbyte⟩ := hexChar_reads c.toNat c.toNat_lt
    simp [getToken, hhigh, hlow, hbyte]

theorem getToken_repr (hrest : closesToken rest) (hfuel : p.length < fuel) :
    getToken fuel .double current
      (p.flatMap reprByte ++ charDoubleQuote :: rest) =
        some (current ++ p, rest) := by
  induction p generalizing fuel current with
  | nil =>
    obtain ⟨fuel, rfl⟩ := Nat.exists_eq_add_of_lt hfuel
    simp [getToken, hrest, charBackslash, charDoubleQuote]
  | cons c p ih =>
    obtain ⟨fuel, rfl⟩ := Nat.exists_eq_add_of_lt hfuel
    rw [flatMap_cons, append_assoc, getToken_reprByte c,
      ih (by simp only [length_cons]; omega), append_assoc]
    rfl

theorem reprByte_ne_nil (c : UInt8) : reprByte c ≠ [] := by
  rw [reprByte]
  split_ifs <;> simp

theorem getToken_quoted (hrest : closesToken rest) :
    getToken ((quoted p ++ rest).length + 1) .off [] (quoted p ++ rest) =
      some (p, rest) := by
  have hlength := length_le_length_flatMap reprByte_ne_nil p
  rw [quoted, cons_append, append_assoc, singleton_append]
  refine getToken_repr hrest ?_
  rw [length_cons, length_append]
  omega

/-- One round of the outer loop. -/
theorem splitLoop_quoted (hrest : closesToken rest) :
    splitLoop (fuel + 1) (charSpace :: (quoted p ++ rest)) =
      (splitLoop fuel rest).map (p :: ·) := by
  rw [splitLoop, dropWhile_cons_of_pos rfl, show
    (quoted p ++ rest).dropWhile isspace = quoted p ++ rest from rfl]
  have hget := getToken_quoted (p := p) hrest
  simp only [quoted, cons_append] at hget ⊢
  rw [hget]
  cases h : splitLoop fuel rest <;> simp [h]

theorem splitLoop_printed {args : List Bytes} (hfuel : args.length < fuel) :
    splitLoop fuel (args.flatMap (charSpace :: quoted ·)) = some args := by
  induction args generalizing fuel with
  | nil =>
    obtain ⟨fuel, rfl⟩ := Nat.exists_eq_add_of_lt hfuel
    rfl
  | cons p args ih =>
    obtain ⟨fuel, rfl⟩ := Nat.exists_eq_add_of_lt hfuel
    have hrest : closesToken (args.flatMap (charSpace :: quoted ·)) := by
      cases args <;> rfl
    rw [flatMap_cons, cons_append, splitLoop_quoted hrest,
      ih (by simp only [length_cons]; omega), Option.map_some]

theorem reprByte_ne_zero : ∀ n < 256, 0 ∉ reprByte (.ofNat n) := by
  decide +kernel

theorem zero_notMem_printed (args : List Bytes) : 0 ∉ printed args := by
  have hquoted : ∀ p, 0 ∉ quoted p := by
    intro p hzero
    simp [quoted, charDoubleQuote] at hzero
    obtain ⟨c, -, hc⟩ := hzero
    have := reprByte_ne_zero c.toNat c.toNat_lt
    rw [UInt8.ofNat_toNat] at this
    exact this hc
  cases args with
  | nil => exact not_mem_nil
  | cons p args => simp [printed, hquoted, charSpace]

/-- A line is split into the strings it was printed from, exactly if the
`int` in its header could tell its length before the last quote. -/
theorem sdssplitargs_printArgs_iff (args : List Bytes) :
    (printArgs [] args).bind sdssplitargs = some args ↔
      (printed args).length ≤ 2 ^ 31 := by
  cases args with
  | nil => exact iff_of_true rfl (by decide)
  | cons p args =>
    rw [printArgs_cons, catWithin]
    have htext : (printed (p :: args)).takeWhile (· ≠ 0) =
        printed (p :: args) := by
      rw [takeWhile_eq_self_iff]
      rintro b hb
      simpa using ne_of_mem_of_not_mem hb (zero_notMem_printed (p :: args))
    have hfuel : (p :: args).length < (printed (p :: args)).length + 1 := by
      have := length_le_length_flatMap
        (fun p => cons_ne_nil charSpace (quoted p)) args
      simp only [printed, quoted, cons_append, length_cons,
        length_append] at this ⊢
      omega
    have hsplit : sdssplitargs (printed (p :: args)) = some (p :: args) := by
      rw [sdssplitargs, htext]
      exact splitLoop_printed hfuel
    rw [length_nil, Nat.zero_add, nil_append]
    split_ifs with h
    · exact iff_of_true hsplit h
    · exact iff_of_false (by simp) h

theorem printArgs_lost {n : ℕ} (hn : 2 ^ 29 ≤ n) :
    printArgs [] [replicate n 1] = none := by
  have hlength : (quoted (replicate n 1)).length = n * 4 + 2 := by
    rw [quoted, length_cons, length_append, flatMap_replicate, length_flatten,
      map_replicate, sum_replicate]
    rfl
  rw [printArgs_cons, printed, flatMap_nil, append_nil, catWithin, hlength,
    if_neg (by rw [length_nil]; omega)]

/-- A string of 512 megabytes, of bytes printed as four characters. -/
theorem sdssplitargs_printArgs_lost :
    (printArgs [] [replicate (2 ^ 29) 1]).bind sdssplitargs ≠
      some [replicate (2 ^ 29) 1] := by
  rw [printArgs_lost (Nat.le_refl _), Option.bind_none]
  exact nofun

end RedisV8.Util
