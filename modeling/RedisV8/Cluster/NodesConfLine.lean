import RedisV8.Cluster.SlotRanges

/-!
# The tokens of a line of the configuration file

A line is split into the tokens it was written from, each of which is read as
what it was written for.  An address with a colon of its own is cut at that
colon.
-/

namespace RedisV8.Cluster.NodesConf

open Util Aof Cluster Outcomes List

variable {cfg : Config} {links : Links} {name : Bytes} {n : Entry} {b : UInt8}
  {f : Flags}

/-- The names that `getRandomHexChars` gives. -/
structure IsName (name : Bytes) : Prop where
  length : name.length = 40
  hex : ∀ b ∈ name, isHexDigit b = true

/-! ## Tokens -/

section Tokens

theorem isTokenByte_of_isHexDigit (h : isHexDigit b = true) :
    isTokenByte b = true ∧ b ≠ charMinus := by
  have hall : ∀ c : UInt8, isHexDigit c = true →
      isTokenByte c = true ∧ c ≠ charMinus := by decide +kernel
  exact hall b h

theorem isTokenByte_of_isdigit (h : isdigit b = true) : isTokenByte b = true :=
  (isTokenByte_of_isHexDigit (by simp [isHexDigit, h])).1

theorem IsName.isToken (h : IsName name) : IsToken name :=
  ⟨fun hnil => by simpa [hnil] using h.length,
    fun b hb => (isTokenByte_of_isHexDigit (h.hex b hb)).1⟩

theorem IsName.take (h : IsName name) : name.take 40 = name :=
  take_of_length_le h.length.le

theorem IsName.head (h : IsName name) : name.head? ≠ some charMinus := by
  intro hhead
  have hmem : charMinus ∈ name := mem_of_mem_head? hhead
  exact (isTokenByte_of_isHexDigit (h.hex _ hmem)).2 rfl

theorem isTokenByte_of_mem_natText {v : ℕ} (hb : b ∈ natText v) :
    isTokenByte b = true :=
  isTokenByte_of_isdigit (isdigit_of_mem_natText hb)

theorem isTokenByte_of_mem_llText {v : ℤ} (hb : b ∈ llText v) :
    isTokenByte b = true := by
  rw [llText] at hb
  split at hb
  · rcases mem_cons.mp hb with rfl | hb
    · decide
    · exact isTokenByte_of_mem_natText hb
  · exact isTokenByte_of_mem_natText hb

theorem natText_isToken (v : ℕ) : IsToken (natText v) :=
  ⟨natText_ne_nil v, fun _ hb => isTokenByte_of_mem_natText hb⟩

theorem llText_isToken (v : ℤ) : IsToken (llText v) := by
  refine ⟨?_, fun _ hb => isTokenByte_of_mem_llText hb⟩
  rw [llText]
  split
  · simp
  · exact natText_ne_nil _

theorem rangeText_isToken (range : ℕ × ℕ) : IsToken (rangeText range) := by
  rw [rangeText]
  split
  · exact natText_isToken _
  refine ⟨by simp, fun b hb => ?_⟩
  simp only [mem_append, mem_singleton] at hb
  rcases hb with (hb | rfl) | hb
  · exact isTokenByte_of_mem_natText hb
  · decide
  · exact isTokenByte_of_mem_natText hb

end Tokens

/-! ## Flags -/

section Flags

def flagNames : List String :=
  ["noflags", "myself", "master", "slave", "fail?", "fail", "handshake",
    "noaddr"]

theorem mem_flagNames {word : String} (h : word ∈ flagWords f) :
    word ∈ flagNames := by
  simp only [flagWords, mem_append, mem_ite_nil_right, mem_singleton] at h
  simp only [flagNames, mem_cons, not_mem_nil, or_false]
  tauto

theorem flagWords_ne_nil (f : Flags) : flagWords f ≠ [] := by
  by_cases h : f = noFlags
  · simp [flagWords, h]
  intro hnil
  simp only [flagWords, append_eq_nil_iff, ite_eq_right_iff,
    cons_ne_self, imp_false, Bool.not_eq_true] at hnil
  obtain ⟨_, _, _, _, _, _, _⟩ := f
  simp_all [noFlags]

/-- The words of the flags, separated by commas. -/
def flagsToken (f : Flags) : Bytes :=
  [charComma].intercalate ((flagWords f).map ascii)

theorem dropLast_flatMap_comma {words : List Bytes} (h : words ≠ []) :
    words.flatMap (· ++ [charComma]) =
      [charComma].intercalate words ++ [charComma] := by
  induction words with
  | nil => exact absurd rfl h
  | cons word words ih =>
    cases words with
    | nil => simp [intercalate]
    | cons next words =>
      rw [flatMap_cons, ih (by simp)]
      simp [intercalate]

theorem flagsText_eq (f : Flags) :
    flagsText f = flagsToken f ++ [charSpace] := by
  have hne : (flagWords f).map ascii ≠ [] := by simpa using flagWords_ne_nil f
  have hci : (flagWords f).flatMap (fun word => ascii word ++ [charComma]) =
      flagsToken f ++ [charComma] := by
    rw [flagsToken, ← dropLast_flatMap_comma hne, flatMap_map]
  rw [flagsText, hci]
  simp

theorem flagNames_bytes : ∀ word ∈ flagNames, charComma ∉ ascii word ∧
    ∀ b ∈ ascii word, isTokenByte b = true := by
  decide +kernel

theorem mem_intercalate {words : List Bytes}
    (hb : b ∈ [charComma].intercalate words) :
    b = charComma ∨ ∃ word ∈ words, b ∈ word := by
  by_cases h : words = []
  · simp [h, intercalate] at hb
  have hmem : b ∈ words.flatMap (· ++ [charComma]) := by
    rw [dropLast_flatMap_comma h]
    exact mem_append_left _ hb
  simp only [mem_flatMap, mem_append, mem_singleton] at hmem
  obtain ⟨word, hword, hb | rfl⟩ := hmem
  · exact .inr ⟨word, hword, hb⟩
  · exact .inl rfl

theorem flagsToken_isTokenByte (hb : b ∈ flagsToken f) :
    isTokenByte b = true := by
  rcases mem_intercalate hb with rfl | ⟨word, hword, hb⟩
  · decide
  · obtain ⟨text, htext, rfl⟩ := mem_map.mp hword
    exact (flagNames_bytes text (mem_flagNames htext)).2 b hb

theorem splitOn_flagsToken (f : Flags) :
    ((flagsToken f).takeWhile (· ≠ 0)).splitOn charComma =
      (flagWords f).map ascii := by
  have hzero : (flagsToken f).takeWhile (· ≠ 0) = flagsToken f := by
    rw [takeWhile_eq_self_iff]
    intro b hb
    simpa using isTokenByte_ne_zero (flagsToken_isTokenByte hb)
  rw [hzero, flagsToken]
  refine splitOn_intercalate charComma (fun word hword => ?_)
    (by simpa using flagWords_ne_nil f)
  obtain ⟨text, htext, rfl⟩ := mem_map.mp hword
  exact (flagNames_bytes text (mem_flagNames htext)).1

/-- The words are read back as the flags. -/
theorem foldlM_readFlag {myself : Option Bytes}
    (h : f.myself = true → myself = none) :
    ((flagWords f).map ascii).foldlM (readFlag name) (noFlags, myself) =
      .ok (f, if f.myself then some name else myself) := by
  obtain ⟨me, master, slave, pfail, fail, handshake, noaddr⟩ := f
  cases me with
  | false =>
    cases master <;> cases slave <;> cases pfail <;> cases fail <;>
      cases handshake <;> cases noaddr <;> rfl
  | true =>
    obtain rfl := h rfl
    cases master <;> cases slave <;> cases pfail <;> cases fail <;>
      cases handshake <;> cases noaddr <;> rfl

theorem flagsToken_isToken (f : Flags) : IsToken (flagsToken f) := by
  refine ⟨fun hnil => ?_, fun _ hb => flagsToken_isTokenByte hb⟩
  have hsplit := splitOn_flagsToken f
  rw [hnil] at hsplit
  obtain ⟨word, words, hwords⟩ :=
    exists_cons_of_ne_nil (flagWords_ne_nil f)
  have hword : word ∈ flagNames := mem_flagNames (hwords ▸ mem_cons_self)
  have hne : ∀ w ∈ flagNames, ascii w ≠ [] := by decide
  rw [hwords, map_cons] at hsplit
  exact hne word hword (cons.inj hsplit).1.symm

end Flags

/-! ## Addresses -/

section Addresses

def addressToken (n : Entry) : Bytes := n.ip ++ charColon :: llText n.port

/-- What becomes of an address: it is cut at its first colon. -/
def restored (n : Entry) : Entry :=
  let ip := (addressToken n).takeWhile (· ≠ charColon)
  { n with ip, port := atoi ((addressToken n).drop (ip.length + 1)) }

theorem takeWhile_address {s : Bytes} (h : charColon ∉ s) (rest : Bytes) :
    (s ++ charColon :: rest).takeWhile (· ≠ charColon) = s := by
  induction s with
  | nil => simp
  | cons b s ih =>
    simp only [mem_cons, not_or] at h
    have hb : b ≠ charColon := fun heq => h.1 heq.symm
    simp only [cons_append, takeWhile_cons, hb, ne_eq,
      not_false_eq_true, decide_true, if_true, ih h.2]

theorem restored_eq_self (h : charColon ∉ n.ip) (hmin : -2 ^ 31 ≤ n.port)
    (hmax : n.port < 2 ^ 31) : restored n = n := by
  have hport : atoi (llText n.port) = n.port := by
    rw [← append_nil (llText n.port)]
    exact atoi_llText hmin hmax rfl
  obtain ⟨ip, port, flags, slaveof, configEpoch⟩ := n
  simp only [restored, addressToken, takeWhile_address h, drop_length_succ,
    hport]

/-- An address with a colon comes back shorter. -/
theorem charColon_notMem_of_restored (h : (restored n).ip = n.ip) :
    charColon ∉ n.ip := by
  intro hmem
  have hip : charColon ∈ (restored n).ip := by rwa [h]
  have hne := mem_takeWhile_imp hip
  simp at hne

theorem addressToken_isToken (hip : ∀ b ∈ n.ip, isTokenByte b = true) :
    IsToken (addressToken n) := by
  refine ⟨by simp [addressToken], fun b hb => ?_⟩
  simp only [addressToken, mem_append, mem_cons] at hb
  rcases hb with hb | rfl | hb
  · exact hip b hb
  · decide
  · exact isTokenByte_of_mem_llText hb

theorem length_restored_ip_le (n : Entry) :
    (restored n).ip.length ≤ n.ip.length := by
  by_cases h : charColon ∈ n.ip
  · obtain ⟨before, rest, hip, hbefore⟩ := eq_append_cons_of_mem h
    have hcut : (restored n).ip = before := by
      simp only [restored, addressToken, hip, append_assoc, cons_append]
      exact takeWhile_address hbefore _
    rw [hcut, hip]
    simp
  · exact (congrArg length (takeWhile_address h _)).le

theorem readAddress_eq (hip : ∀ b ∈ n.ip, isTokenByte b = true)
    (hlength : n.ip.length < 46) (cfg : Config) :
    readAddress cfg name (addressToken n) = .ok (cfg.modify name fun m =>
      { m with ip := (restored n).ip, port := (restored n).port }) := by
  have hz : (0 : UInt8) ∉ addressToken n := fun h =>
    isTokenByte_ne_zero ((addressToken_isToken hip).2 0 h) rfl
  have hc : charColon ∈ addressToken n := by simp [addressToken]
  have hle := (length_restored_ip_le n).trans_lt hlength
  obtain ⟨before, rest, haddr, hbefore⟩ := eq_append_cons_of_mem hc
  have hcut : (restored n).ip = before := by
    rw [restored, haddr]
    exact takeWhile_address hbefore rest
  have hport : (restored n).port = atoi rest := by
    simp only [restored, haddr, takeWhile_address hbefore, drop_length_succ]
  rw [hcut] at hle
  rw [hcut, hport, readAddress, haddr, strchr_append_cons hbefore,
    if_pos fun h => hz (haddr ▸ mem_append_left _ h)]
  simp only [if_neg (not_le.mpr hle), take_left, drop_length_succ]
  rfl

end Addresses

/-! ## Lines -/

section Lines

/-- The tokens of a line after the name. -/
def lineTokens (cfg : Config) (links : Links) (name : Bytes) (n : Entry) :
    List Bytes :=
  [addressToken n, flagsToken n.flags, n.slaveof.getD [charMinus],
    llText (links.pingSent name), llText (links.pongReceived name),
    natText n.configEpoch,
    if links.linked name || n.flags.myself then ascii "connected"
      else ascii "disconnected"] ++
    (slotRanges cfg name).map rangeText ++
    if n.flags.myself then allSlots.filterMap (markText cfg) else []

theorem nodeLine_eq (hname : IsName name)
    (hslaveof : ∀ master, n.slaveof = some master → IsName master) :
    nodeLine cfg links name n = name ++
      (lineTokens cfg links name n).flatMap (charSpace :: ·) ++ [charLf] := by
  have hmaster : masterText n.slaveof =
      n.slaveof.getD [charMinus] ++ [charSpace] := by
    cases h : n.slaveof with
    | none => rfl
    | some master => rw [masterText, (hslaveof master h).take]; rfl
  rw [nodeLine, hmaster, hname.take, flagsText_eq]
  cases hme : n.flags.myself <;>
    simp [lineTokens, addressToken, flatMap_append, flatMap_map, hme]

theorem markText_isToken {j : Slot} {text : Bytes}
    (hmigrating : ∀ q, cfg.migratingSlotsTo j = some q → IsName q)
    (himporting : ∀ q, cfg.importingSlotsFrom j = some q → IsName q)
    (h : markText cfg j = some text) : IsToken text := by
  have hmark : ∀ (q : Bytes) (sign : UInt8), IsName q →
      isTokenByte sign = true → IsToken ([charOpen] ++ natText j ++
        [charMinus, sign, charMinus] ++ q.take 40 ++ [charClose]) := by
    intro q sign hq hsign
    refine ⟨by simp, fun b hb => ?_⟩
    simp only [mem_append, mem_cons, not_mem_nil, or_false, hq.take] at hb
    rcases hb with (((rfl | hb) | (rfl | rfl | rfl)) | hb) | rfl
    · decide
    · exact isTokenByte_of_mem_natText hb
    · decide
    · exact hsign
    · decide
    · exact (isTokenByte_of_isHexDigit (hq.hex b hb)).1
    · decide
  cases hto : cfg.migratingSlotsTo j with
  | some q =>
    obtain rfl : _ = text := by simpa only [markText, hto, Option.some_inj]
      using h
    exact hmark q charGreater (hmigrating q hto) (by decide)
  | none =>
    cases hfrom : cfg.importingSlotsFrom j with
    | some q =>
      obtain rfl : _ = text := by
        simpa only [markText, hto, hfrom, Option.some_inj] using h
      exact hmark q charLess (himporting q hfrom) (by decide)
    | none => simp [markText, hto, hfrom] at h

theorem lineTokens_isToken
    (hip : ∀ b ∈ n.ip, isTokenByte b = true)
    (hslaveof : ∀ master, n.slaveof = some master → IsName master)
    (hmigrating : ∀ j q, cfg.migratingSlotsTo j = some q → IsName q)
    (himporting : ∀ j q, cfg.importingSlotsFrom j = some q → IsName q)
    {token : Bytes} (h : token ∈ lineTokens cfg links name n) :
    IsToken token := by
  simp only [lineTokens, mem_append, mem_cons, not_mem_nil,
    or_false, mem_map] at h
  rcases h with ((rfl | rfl | rfl | rfl | rfl | rfl | rfl) |
    ⟨range, -, rfl⟩) | h
  · exact addressToken_isToken hip
  · exact flagsToken_isToken n.flags
  · cases hmaster : n.slaveof with
    | none => exact ⟨by simp, by simp; decide⟩
    | some master => exact (hslaveof master hmaster).isToken
  · exact llText_isToken _
  · exact llText_isToken _
  · exact natText_isToken _
  · split <;> exact ⟨by decide, by decide +kernel⟩
  · exact rangeText_isToken range
  · split at h
    · obtain ⟨j, -, hj⟩ := mem_filterMap.mp h
      exact markText_isToken (hmigrating j) (himporting j) hj
    · simp at h

theorem length_flatMap_le {α : Type} {l : List α} {f : α → Bytes} {b : ℕ}
    (h : ∀ a ∈ l, (f a).length ≤ b) : (l.flatMap f).length ≤ l.length * b := by
  induction l with
  | nil => simp
  | cons a l ih =>
    have ha := h a mem_cons_self
    have hl := ih fun c hc => h c (mem_cons_of_mem a hc)
    rw [flatMap_cons, length_append, length_cons, Nat.succ_mul]
    omega

theorem length_rangeText_le (range : ℕ × ℕ) :
    (rangeText range).length ≤ 41 := by
  have hfirst := length_natText_le range.1
  have hlast := length_natText_le range.2
  rw [rangeText]
  split
  · omega
  · simp only [length_append, length_singleton]
    omega

theorem length_markText_le {j : Slot} {text : Bytes}
    (h : markText cfg j = some text) : text.length ≤ 65 := by
  have hslot := length_natText_le j
  rw [markText] at h
  split at h
  case h_3 => cases h
  all_goals
    obtain rfl := Option.some_inj.mp h
    simp only [length_append, length_cons, length_nil, length_take]
    omega

theorem length_flagsToken_le (f : Flags) : (flagsToken f).length ≤ 64 := by
  have hall : ∀ me master slave pfail fail handshake noaddr : Bool,
      (flagsToken ⟨me, master, slave, pfail, fail, handshake, noaddr⟩).length ≤
        64 := by decide +kernel
  exact hall _ _ _ _ _ _ _

theorem length_slotRanges_le (cfg : Config) (name : Bytes) :
    (slotRanges cfg name).length ≤ 16384 := by
  unfold slotRanges
  exact length_rangeLoop_le (k := 16382)

theorem length_allSlots : allSlots.length = 16384 := by
  unfold allSlots
  exact length_finRange

/-- A line fits into the buffer of `clusterLoadConfig`. -/
theorem length_nodeLine_le (hname : IsName name)
    (hip : n.ip.length < 46) :
    (nodeLine cfg links name n).length ≤ 2098175 := by
  have hranges : ((slotRanges cfg name).flatMap fun range =>
      charSpace :: rangeText range).length ≤ 16384 * 42 :=
    (length_flatMap_le fun range _ =>
      Nat.succ_le_succ (length_rangeText_le range)).trans
        (Nat.mul_le_mul_right 42 (length_slotRanges_le cfg name))
  have hmarks : ((allSlots.filterMap (markText cfg)).flatMap
      fun text => charSpace :: text).length ≤ 16384 * 66 := by
    refine (length_flatMap_le (b := 66) fun text htext => ?_).trans ?_
    · obtain ⟨j, -, hj⟩ := mem_filterMap.mp htext
      exact Nat.succ_le_succ (length_markText_le hj)
    · refine Nat.mul_le_mul_right 66 ?_
      exact (length_filterMap_le _ _).trans length_allSlots.le
  have hmaster : (masterText n.slaveof).length ≤ 41 := by
    cases h : n.slaveof with
    | none => simp [masterText]
    | some master => simp [masterText]
  have hconnected : (if links.linked name || n.flags.myself then
      ascii "connected" else ascii "disconnected").length ≤ 12 := by
    split <;> decide
  have hmyself : (if n.flags.myself then
      (allSlots.filterMap (markText cfg)).flatMap fun text =>
        charSpace :: text else []).length ≤ 16384 * 66 := by
    split
    · exact hmarks
    · simp
  have hport := length_llText_le n.port
  have hflags := length_flagsToken_le n.flags
  have hping := length_llText_le (links.pingSent name)
  have hpong := length_llText_le (links.pongReceived name)
  have hepoch := length_natText_le n.configEpoch
  rw [nodeLine, flagsText_eq]
  simp only [length_append, length_singleton, hname.take, hname.length]
  omega

end Lines

end RedisV8.Cluster.NodesConf
