import RedisV8.Commands.Strings
import RedisV8.Keyspace.Effect

/-!
# Parts of strings

GETRANGE copies a part of a string into the reply, SETRANGE, APPEND and SETBIT
write over or behind one.  The offsets come from the client and are numbers of
64 bits; that the bytes read are those of the value, and that a string stays
below its limit, depends on how they are compared with its length.
-/

namespace RedisV8.Commands

open Util Server Keyspace Effects List State

variable {o : StringObj} {offset start stop : ℤ} {r : Reply} {missing : Change}
  {n : ℕ}

/-! ## GETRANGE -/

section Getrange

/-- A copy of `len` bytes from an offset on, unless it would leave the
buffer. -/
def readBuffer (s : Bytes) (offset len : ℕ) : Option Bytes :=
  if offset + len ≤ s.length then some ((s.drop offset).take len) else none

/-- `start` and `end` as they are when the reply is built. -/
def getrangeWindow (strlen : ℕ) (start stop : ℤ) : ℤ × ℤ :=
  let start := if start < 0 then (strlen : ℤ) + start else start
  let stop := if stop < 0 then (strlen : ℤ) + stop else stop
  let start := if start < 0 then 0 else start
  let stop := if stop < 0 then 0 else stop
  (start, clampEnd strlen stop)

/-- The bytes GETRANGE copies out of an object, integer encoded or not. -/
def getrangeRead (o : StringObj) (start stop : ℤ) : Option Bytes :=
  let str := getDecodedObject o
  let window := getrangeWindow str.length start stop
  if window.2 < window.1 then some []
  else readBuffer str window.1.toNat (window.2 - window.1 + 1).toNat

/-- An index counted from the end if it is negative, and raised to zero if it
is negative still. -/
def normalIndex (strlen : ℕ) (i : ℤ) : ℤ :=
  if i < 0 then max 0 ((strlen : ℤ) + i) else i

/-- The slice that is asked for. -/
def slice (s : Bytes) (start stop : ℤ) : Bytes :=
  let first := normalIndex s.length start
  let last := min (normalIndex s.length stop) ((s.length : ℤ) - 1)
  if last < first then []
  else (s.drop first.toNat).take (last - first + 1).toNat

/-- The end lies behind the string, but its lower 32 bits do not. -/
def EndTruncated (strlen : ℕ) (start stop : ℤ) : Prop :=
  let first := normalIndex strlen start
  let last := normalIndex strlen stop
  (strlen : ℤ) ≤ last ∧ last % 2 ^ 32 < strlen ∧ first ≤ last

instance (strlen : ℕ) (start stop : ℤ) :
    Decidable (EndTruncated strlen start stop) :=
  inferInstanceAs (Decidable (_ ∧ _ ∧ _))

theorem normalIndex_nonneg (strlen : ℕ) (i : ℤ) :
    0 ≤ normalIndex strlen i := by
  rw [normalIndex]
  split
  · exact le_max_left _ _
  · omega

theorem normalIndex_eq (strlen : ℕ) (i : ℤ) :
    (if (if i < 0 then (strlen : ℤ) + i else i) < 0 then 0
      else if i < 0 then (strlen : ℤ) + i else i) = normalIndex strlen i := by
  rw [normalIndex]
  split_ifs <;> omega

theorem getrangeWindow_eq (strlen : ℕ) (start stop : ℤ) :
    getrangeWindow strlen start stop =
      (normalIndex strlen start, clampEnd strlen (normalIndex strlen stop)) := by
  simp only [getrangeWindow, normalIndex_eq]

/-- What the conversion of the end to 32 bits gives. -/
theorem clampEnd_cases (strlen : ℕ) {last : ℤ} (hlast : 0 ≤ last) :
    (clampEnd strlen last = min last ((strlen : ℤ) - 1)) ∨
      ((strlen : ℤ) ≤ last ∧ last % 2 ^ 32 < strlen ∧
        clampEnd strlen last = last) := by
  rw [clampEnd]
  have hmod : last % 2 ^ 32 ≤ last := by omega
  split
  · exact Or.inl (by omega)
  · by_cases hlen : (strlen : ℤ) ≤ last
    · exact Or.inr ⟨hlen, by omega, rfl⟩
    · exact Or.inl (by omega)

theorem length_slice_window {s : Bytes} {first last : ℤ}
    (hlast : last ≤ (s.length : ℤ) - 1) (hfirst : 0 ≤ first)
    (hle : first ≤ last) :
    first.toNat + (last - first + 1).toNat ≤ s.length := by
  omega

theorem getrangeRead_eq_slice
    (h : ¬ EndTruncated (getDecodedObject o).length start stop) :
    getrangeRead o start stop =
      some (slice (getDecodedObject o) start stop) := by
  set s := getDecodedObject o with hs
  have hfirst := normalIndex_nonneg s.length start
  simp only [getrangeRead, slice, ← hs, getrangeWindow_eq]
  obtain hclamp | ⟨hlen, hmod, hclamp⟩ :=
    clampEnd_cases s.length (normalIndex_nonneg s.length stop)
  · rw [hclamp]
    split
    · rfl
    · exact if_pos (length_slice_window (min_le_right _ _) hfirst (by omega))
  -- the end is past the string and stays there: the range must be empty
  have hempty : normalIndex s.length stop < normalIndex s.length start :=
    not_le.mp fun hle => h ⟨hlen, hmod, hle⟩
  rw [hclamp, if_pos hempty, if_pos (by omega)]

theorem getrangeRead_eq_none
    (h : EndTruncated (getDecodedObject o).length start stop) :
    getrangeRead o start stop = none := by
  obtain ⟨hlen, hmod, hle⟩ := h
  have hclamp : clampEnd (getDecodedObject o).length
      (normalIndex (getDecodedObject o).length stop) =
        normalIndex (getDecodedObject o).length stop := by
    rw [clampEnd, if_neg (by omega)]
  have hfirst := normalIndex_nonneg (getDecodedObject o).length start
  simp only [getrangeRead, getrangeWindow_eq, hclamp]
  rw [if_neg (by omega), readBuffer, if_neg (by omega)]

theorem getrangeReply_window (start stop : ℤ) (s : Bytes) :
    getrangeReply start stop s =
      let window := getrangeWindow s.length start stop
      if window.2 < window.1 then .bulk []
      else .bulk ((s.drop window.1.toNat).take
        (window.2 - window.1 + 1).toNat) := rfl

/-- The reply of the command, as far as the value reaches. -/
theorem getrangeReply_eq {b : Bytes} (h : getrangeRead o start stop = some b) :
    getrangeReply start stop (getDecodedObject o) = .bulk b := by
  rw [getrangeReply_window]
  dsimp only [getrangeRead] at h ⊢
  generalize getrangeWindow (getDecodedObject o).length start stop = window
    at h ⊢
  by_cases hlt : window.2 < window.1
  · rw [if_pos hlt] at h ⊢
    rw [← Option.some.inj h]
  rw [if_neg hlt, readBuffer] at h
  rw [if_neg hlt]
  split at h
  · rw [Option.some.inj h]
  · cases h

/-- GETRANGE on a key with a string, as an object of either encoding: it
answers the slice, and reads nothing else, exactly when the lower half of the
end is not taken for the end. -/
theorem getrange_slice_iff (env : Env) (c : Client) (argv : List Bytes)
    (d : Dataset) (o : StringObj)
    (hstart : getLongLongFromObject (arg argv 2) = some start)
    (hstop : getLongLongFromObject (arg argv 3) = some stop)
    (hvalue : found env (init d) (keyArg c argv 1) =
      some (.string (getDecodedObject o))) :
    (∃ b, getrangeRead o start stop = some b ∧
        (run (handle env) (getrangeCommand c argv) (init d)).1 =
          .reply (.bulk b) ∧
        b = slice (getDecodedObject o) start stop) ↔
      ¬ EndTruncated (getDecodedObject o).length start stop := by
  constructor
  · rintro ⟨b, hread, -, -⟩ htruncated
    rw [getrangeRead_eq_none htruncated] at hread
    cases hread
  intro h
  have hread := getrangeRead_eq_slice h
  refine ⟨_, hread, ?_, rfl⟩
  rw [getrangeCommand, withLong, hstart]
  simp only [withLong, hstop]
  rw [run_readCommand, hvalue]
  exact congrArg Outcome.reply (getrangeReply_eq hread)

theorem getrange_slice_of_number :
    ∃ b, getrangeRead (.int 1234) 1 (-1) = some b ∧
      (run (handle (Env.ofTime 0)) (getrangeCommand ⟨0, false⟩
          [ascii "GETRANGE", ascii "k", ascii "1", ascii "-1"])
        (init (Dataset.set (fun _ => ∅) (0, ascii "k")
          (some ⟨.string (getDecodedObject (.int 1234)), none⟩)))).1 =
          .reply (.bulk b) ∧
      b = slice (getDecodedObject (.int 1234)) 1 (-1) :=
  (getrange_slice_iff (Env.ofTime 0) ⟨0, false⟩
    [ascii "GETRANGE", ascii "k", ascii "1", ascii "-1"] _ (.int 1234)
    (by decide) (by decide) (found_init_set _ _ _ _)).mpr (by decide)

/-- 4294967296 is zero in 32 bits: the end stays where it is, four gigabytes
behind a value of three bytes. -/
theorem getrange_reads_past_value :
    slice (getDecodedObject (.raw (ascii "abc"))) 0 4294967296 = ascii "abc" ∧
      getrangeWindow 3 0 4294967296 = (0, 4294967296) ∧
      getrangeRead (.raw (ascii "abc")) 0 4294967296 = none := by
  decide

end Getrange

/-! ## The limit of 512 megabytes -/

section Limit

def stringLimit : ℕ := 536870912

/-- The bytes of a value that is a string; a missing one has none. -/
def stringOf : Option Value → Option Bytes
  | none => some []
  | some (.string s) => some s
  | some _ => none

def stringAt (d : Dataset) (k : Key) : Option Bytes :=
  stringOf ((d.find k).map Entry.value)

def isError : Outcome → Bool
  | .reply (.error _) => true
  | _ => false

/-- The command answers an error and leaves the data as it is, expired keys
aside. -/
def Refused (env : Env) (d : Dataset) (p : Cmd Outcome) : Prop :=
  isError (run (handle env) p (init d)).1 = true ∧
    (run (handle env) p (init d)).2.data =
      d.without (run (handle env) p (init d)).2.expired ∧
    (run (handle env) p (init d)).2.dirty = 0

/-- The command is refused, or leaves a string that keeps the limit. -/
def Limited (env : Env) (d : Dataset) (k : Key) (p : Cmd Outcome) : Prop :=
  Refused env d p ∨
    ∃ s, stringAt (run (handle env) p (init d)).2.data k = some s ∧
      s.length ≤ stringLimit

/-- The bytes of `old`, with zeros behind them, under those of `value` from
the offset on. -/
def laidOver (old : Bytes) (offset : ℕ) (value : Bytes) : Bytes :=
  (List.range (max old.length (offset + value.length))).map fun i =>
    if offset ≤ i ∧ i < offset + value.length then value.getD (i - offset) 0
    else old.getD i 0

/-- SETRANGE is refused, or leaves the old value with the given bytes laid
over it, within the limit. -/
def SetrangeRight (env : Env) (d : Dataset) (c : Client) (argv : List Bytes) :
    Prop :=
  Refused env d (setrangeCommand c argv) ∨
    ∃ offset old, getLongLongFromObject (arg argv 2) = some offset ∧
      stringOf (found env (init d) (keyArg c argv 1)) = some old ∧
      stringAt (run (handle env) (setrangeCommand c argv)
        (init d)).2.data (keyArg c argv 1) =
          some (laidOver old offset.toNat (arg argv 3)) ∧
      (laidOver old offset.toNat (arg argv 3)).length ≤ stringLimit

/-- The sum that is compared with the limit does not wrap around, and an empty
argument does not ask for zeros behind the value. -/
def SetrangeFits (env : Env) (d : Dataset) (c : Client) (argv : List Bytes) :
    Prop :=
  ∀ offset old, getLongLongFromObject (arg argv 2) = some offset →
    0 ≤ offset →
    stringOf (found env (init d) (keyArg c argv 1)) = some old →
    if arg argv 3 = [] then offset ≤ old.length
    else offset + (arg argv 3).length ≤ llongMax

@[simp]
theorem length_laidOver (old : Bytes) (offset : ℕ) (value : Bytes) :
    (laidOver old offset value).length =
      max old.length (offset + value.length) := by
  simp [laidOver]

theorem length_overlay (s : Bytes) (offset : ℕ) (value : Bytes) :
    (overlay s offset value).length =
      max s.length (offset + value.length) := by
  simp only [overlay, length_append, length_take, length_drop, length_replicate]
  omega

/-- `sdsgrowzero` and `memcpy` lay the value over the old bytes. -/
theorem overlay_eq_laidOver (s : Bytes) (offset : ℕ) (value : Bytes) :
    overlay s offset value = laidOver s offset value := by
  set grown := s ++ List.replicate (offset + value.length - s.length) 0
    with hgrown
  have hlength : grown.length = max s.length (offset + value.length) := by
    simp only [hgrown, length_append, length_replicate]
    omega
  have hget : ∀ i (hi : i < grown.length), grown[i] = s.getD i 0 := by
    intro i hi
    simp only [hgrown, getElem_append, getElem_replicate]
    split
    · rw [getD_eq_getElem]
    · rw [getD_eq_default _ _ (by omega)]
  refine ext_getElem ?_ fun i hi hi' => ?_
  · rw [length_overlay, length_laidOver]
  have hsplit : overlay s offset value =
      grown.take offset ++ value ++ grown.drop (offset + value.length) := rfl
  simp only [hsplit, laidOver, getElem_map, getElem_range,
    getElem_append, length_append, length_take,
    getElem_take, getElem_drop, hget]
  have hmin : min offset grown.length = offset := by omega
  simp only [hmin]
  split_ifs with h₁ h₂ h₃ h₄ h₅
  · omega
  · rfl
  · rw [getD_eq_getElem]
  · omega
  · omega
  · congr 1
    omega

variable {env : Env} {d : Dataset} {c : Client} {argv : List Bytes} {k : Key}

theorem refused_addReply (hr : isError (.reply r) = true) :
    Refused env d (addReply r) :=
  ⟨hr, rfl, rfl⟩

/-- A command on one key that only answers an error. -/
theorem refused_updateCommand {f : Value → Change}
    (hr : isError (.reply r) = true)
    (h : changeOf missing f (found env (init d) k) = .answer r) :
    Refused env d (updateCommand k missing f) := by
  rw [Refused, run_updateCommand, h]
  exact ⟨hr, data_lookedUp_init env d k, dirty_lookedUp env _ k⟩

theorem stringAt_store (s : State) (k : Key) (b : Bytes) :
    stringAt (s.store k (.string b)).data k = some b := by
  have hfind : (s.store k (.string b)).data.find k =
      some ⟨.string b, (s.data.find k).bind Entry.expire⟩ :=
    Dataset.find_set_self _ _ _
  rw [stringAt, hfind]
  rfl

theorem limited_of_put {f : Value → Change} {b : Bytes}
    {events : List (EventClass × String)} {vector : Option (List Bytes)}
    (h : changeOf missing f (found env (init d) k) =
      .put (some (.string b)) n events vector r) (hb : b.length ≤ stringLimit) :
    Limited env d k (updateCommand k missing f) := by
  refine Or.inr ⟨b, ?_, hb⟩
  rw [run_updateCommand, h]
  exact stringAt_store _ _ _

/-- A lookup leaves the string it finds. -/
theorem stringAt_lookedUp (env : Env) (s : State) (k : Key) :
    stringAt (lookedUp env s k).data k = stringOf (found env s k) := by
  cases h : found env s k with
  | none => rw [stringAt, find_lookedUp_of_found_none h]; rfl
  | some value =>
    obtain ⟨expire, hfind⟩ := find_of_found h
    rw [lookedUp_of_found h, stringAt, hfind]
    rfl

/-- What a change of the bytes of a string makes of a value. -/
theorem changeOf_stringChange {f : Bytes → Change} {old : Bytes}
    {o : Option Value} (h : stringOf o = some old) :
    changeOf (f []) (stringChange f) o = f old := by
  match o, h with
  | none, h | some (.string s), h => rw [← Option.some.inj h]; rfl

theorem changeOf_stringChange_none {f : Bytes → Change} {o : Option Value}
    (h : stringOf o = none) :
    changeOf missing (stringChange f) o = .answer Reply.wrongtypeerr := by
  match o, h with
  | some (.list _), _ => rfl
  | some (.set _), _ => rfl
  | some (.hash _), _ => rfl
  | some (.zset _), _ => rfl

theorem tooLong_iff (size : ℤ) : tooLong size = true ↔ (stringLimit : ℤ) < size := by
  rw [tooLong, decide_eq_true_eq, stringLimit]
  norm_num

/-- The sum of SETRANGE wraps around exactly beyond the signed range, and is
negative then. -/
theorem toLongLong_offset {len : ℕ} (hmax : offset ≤ llongMax)
    (hoffset : 0 ≤ offset) (hlen : len ≤ stringLimit) :
    toLongLong (offset + len) =
      if offset + len ≤ llongMax then offset + len
      else offset + len - 2 ^ 64 := by
  rw [llongMax] at hmax ⊢
  rw [stringLimit] at hlen
  rw [toLongLong, Int.bmod_def]
  split_ifs <;> omega

theorem setrangeCommand_eq
    (hparse : getLongLongFromObject (arg argv 2) = some offset)
    (hoffset : 0 ≤ offset) :
    setrangeCommand c argv =
      updateCommand (keyArg c argv 1) (setrangeChange offset (arg argv 3) [])
        (stringChange (setrangeChange offset (arg argv 3))) := by
  rw [setrangeCommand, withLong, hparse]
  exact if_neg (not_lt.mpr hoffset)

/-- SETRANGE with a usable offset, on a string. -/
theorem run_setrangeCommand {old : Bytes}
    (hparse : getLongLongFromObject (arg argv 2) = some offset)
    (hoffset : 0 ≤ offset)
    (hold : stringOf (found env (init d) (keyArg c argv 1)) = some old) :
    run (handle env) (setrangeCommand c argv) (init d) =
      (.reply (setrangeChange offset (arg argv 3) old).reply,
        (setrangeChange offset (arg argv 3) old).effect (keyArg c argv 1)
          (lookedUp env (init d) (keyArg c argv 1))) := by
  rw [setrangeCommand_eq hparse hoffset, run_updateCommand,
    changeOf_stringChange hold]

/-- SETRANGE that is neither refused nor a way around the limit. -/
theorem SetrangeFits.right (hfits : SetrangeFits env d c argv)
    (hvalue : ∀ old, stringOf (found env (init d) (keyArg c argv 1)) =
      some old → old.length ≤ stringLimit)
    (harg : (arg argv 3).length ≤ stringLimit) :
    SetrangeRight env d c argv := by
  cases hparse : getLongLongFromObject (arg argv 2) with
  | none =>
    refine Or.inl ?_
    rw [setrangeCommand, withLong, hparse]
    exact refused_addReply rfl
  | some offset =>
    by_cases hoffset : 0 ≤ offset
    · cases hold : stringOf (found env (init d) (keyArg c argv 1)) with
      | none =>
        refine Or.inl ?_
        rw [setrangeCommand_eq hparse hoffset]
        exact refused_updateCommand rfl (changeOf_stringChange_none hold)
      | some old =>
        have hrun := run_setrangeCommand hparse hoffset hold
        have hfit := hfits offset old hparse hoffset hold
        have hlen := hvalue old hold
        have hmax := (getLongLongFromObject_bounds hparse).2
        by_cases hempty : arg argv 3 = []
        · rw [if_pos hempty] at hfit
          have hsame : laidOver old offset.toNat (arg argv 3) = old := by
            rw [hempty, ← overlay_eq_laidOver, overlay]
            simp [show offset.toNat - old.length = 0 by omega]
          rw [setrangeChange, if_pos hempty] at hrun
          refine Or.inr ⟨offset, old, hparse, hold, ?_, ?_⟩
          · rw [hrun, hsame]
            exact (stringAt_lookedUp env _ _).trans hold
          · rwa [hsame]
        rw [if_neg hempty] at hfit
        have hsum := toLongLong_offset hmax hoffset harg
        rw [if_pos hfit] at hsum
        by_cases hlong : tooLong (offset + (arg argv 3).length) = true
        · refine Or.inl ?_
          rw [setrangeCommand_eq hparse hoffset]
          have hchange : setrangeChange offset (arg argv 3) old =
              .answer stringTooLong := by
            rw [setrangeChange, if_neg hempty, hsum, if_pos hlong]
          exact refused_updateCommand rfl
            ((changeOf_stringChange hold).trans hchange)
        rw [setrangeChange, if_neg hempty, hsum, if_neg hlong] at hrun
        refine Or.inr ⟨offset, old, hparse, hold, ?_, ?_⟩
        · rw [hrun, ← overlay_eq_laidOver]
          exact stringAt_store _ _ _
        · rw [tooLong_iff] at hlong
          rw [length_laidOver]
          omega
    · refine Or.inl ?_
      rw [setrangeCommand, withLong, hparse]
      dsimp only
      rw [if_pos (not_le.mp hoffset)]
      exact refused_addReply rfl

/-- Bytes beyond the signed range, or zeros for an empty argument: the command
answers a length all the same. -/
theorem SetrangeRight.fits (hright : SetrangeRight env d c argv)
    (harg : (arg argv 3).length ≤ stringLimit) :
    SetrangeFits env d c argv := by
  intro offset old hparse hoffset hold
  have hrun := run_setrangeCommand hparse hoffset hold
  have hmax := (getLongLongFromObject_bounds hparse).2
  have hgoal : ∀ {s : State} {n : ℤ},
      run (handle env) (setrangeCommand c argv) (init d) =
        (.reply (.integer n), s) →
      stringAt s.data (keyArg c argv 1) =
          some (laidOver old offset.toNat (arg argv 3)) ∧
        (laidOver old offset.toNat (arg argv 3)).length ≤ stringLimit := by
    intro s n hs
    obtain ⟨herror, -, -⟩ | ⟨offset', old', hparse', hold', hat, hlen⟩ := hright
    · rw [hs] at herror
      cases herror
    cases hparse'.symm.trans hparse
    cases hold'.symm.trans hold
    rw [hs] at hat
    exact ⟨hat, hlen⟩
  by_cases hempty : arg argv 3 = []
  · rw [if_pos hempty]
    rw [setrangeChange, if_pos hempty] at hrun
    have hat := (hgoal hrun).1
    rw [Change.effect, stringAt_lookedUp, hold, Option.some.injEq] at hat
    have hlength := congrArg List.length hat
    rw [length_laidOver, hempty, length_nil] at hlength
    omega
  rw [if_neg hempty]
  by_contra hwrap
  have hsum := toLongLong_offset hmax hoffset harg
  rw [if_neg hwrap] at hsum
  have hshort : tooLong (offset + (arg argv 3).length - 2 ^ 64) ≠ true := by
    rw [Ne, tooLong_iff]
    rw [stringLimit] at harg ⊢
    rw [llongMax] at hmax
    omega
  rw [setrangeChange, if_neg hempty, hsum, if_neg hshort] at hrun
  have hlen := (hgoal hrun).2
  rw [length_laidOver, stringLimit] at hlen
  rw [llongMax] at hwrap
  omega

theorem limited_appendCommand (harg : (arg argv 2).length ≤ stringLimit) :
    Limited env d (keyArg c argv 1) (appendCommand c argv) := by
  rw [appendCommand]
  cases hfound : found env (init d) (keyArg c argv 1) with
  | none => exact limited_of_put (by rw [hfound]; rfl) harg
  | some value =>
    cases value with
    | string s =>
      by_cases hlong : tooLong (s.length + (arg argv 2).length) = true
      · exact Or.inl (refused_updateCommand rfl
          ((congrArg _ hfound).trans (if_pos hlong)))
      have hlen : (s ++ arg argv 2).length ≤ stringLimit := by
        rw [tooLong_iff] at hlong
        rw [length_append]
        omega
      exact limited_of_put ((congrArg _ hfound).trans (if_neg hlong)) hlen
    | list | set | hash | zset =>
      exact Or.inl (refused_updateCommand rfl (congrArg _ hfound))

theorem bitOffset_lt {text : Bytes} (h : bitOffset text = some n) :
    n / 8 < stringLimit := by
  rw [bitOffset] at h
  split at h
  · cases h
  · split_ifs at h with hrange
    rw [← Option.some.inj h, stringLimit]
    omega

theorem limited_setbitCommand
    (hvalue : ∀ old, stringOf (found env (init d) (keyArg c argv 1)) =
      some old → old.length ≤ stringLimit) :
    Limited env d (keyArg c argv 1) (setbitCommand c argv) := by
  rw [setbitCommand]
  split
  · exact Or.inl (refused_addReply rfl)
  · exact Or.inl (refused_addReply rfl)
  rename_i bitoffset on hoffset hon
  split_ifs with hbit
  · dsimp only
    cases hold : stringOf (found env (init d) (keyArg c argv 1)) with
    | none =>
      exact Or.inl (refused_updateCommand rfl (changeOf_stringChange_none hold))
    | some old =>
      refine limited_of_put (changeOf_stringChange hold) ?_
      have hbyte := bitOffset_lt hoffset
      have hlen := hvalue old hold
      rw [setBit, length_overlay, length_singleton]
      omega
  · exact Or.inl (refused_addReply rfl)

theorem length_arg_le (hargs : ∀ a ∈ argv, a.length ≤ n) (j : ℕ) :
    (arg argv j).length ≤ n := by
  by_cases hj : j < argv.length
  · rw [arg, getD_eq_getElem _ _ hj]
    exact hargs _ (getElem_mem hj)
  · rw [arg, getD_eq_default _ _ (not_lt.mp hj)]
    exact Nat.zero_le n

/-- On a value within the limit, and with arguments within it, APPEND and
SETBIT keep the limit, and SETRANGE keeps it and lays its argument over the
value exactly when its sum does not wrap around. -/
theorem string_limit_iff (env : Env) (d : Dataset) (c : Client)
    (argv : List Bytes)
    (hvalue : ∀ old, stringOf (found env (init d) (keyArg c argv 1)) =
      some old → old.length ≤ stringLimit)
    (hargs : ∀ a ∈ argv, a.length ≤ stringLimit) :
    (SetrangeRight env d c argv ↔ SetrangeFits env d c argv) ∧
      Limited env d (keyArg c argv 1) (appendCommand c argv) ∧
      Limited env d (keyArg c argv 1) (setbitCommand c argv) :=
  ⟨⟨fun h => h.fits (length_arg_le hargs 3),
      fun h => h.right hvalue (length_arg_le hargs 3)⟩,
    limited_appendCommand (length_arg_le hargs 2),
    limited_setbitCommand hvalue⟩

/-- A key that is not there, and arguments of a few bytes. -/
theorem string_limit_new_key :
    (SetrangeRight (Env.ofTime 0) (fun _ => ∅) ⟨0, false⟩
        [ascii "SETRANGE", ascii "k", ascii "5", ascii "abc"] ↔
      SetrangeFits (Env.ofTime 0) (fun _ => ∅) ⟨0, false⟩
        [ascii "SETRANGE", ascii "k", ascii "5", ascii "abc"]) ∧
      Limited (Env.ofTime 0) (fun _ => ∅) (0, ascii "k")
        (appendCommand ⟨0, false⟩
          [ascii "SETRANGE", ascii "k", ascii "5", ascii "abc"]) ∧
      Limited (Env.ofTime 0) (fun _ => ∅) (0, ascii "k")
        (setbitCommand ⟨0, false⟩
          [ascii "SETRANGE", ascii "k", ascii "5", ascii "abc"]) :=
  string_limit_iff (Env.ofTime 0) (fun _ => ∅) ⟨0, false⟩
    [ascii "SETRANGE", ascii "k", ascii "5", ascii "abc"]
    (fun old hold => by
      rw [found_init_empty] at hold
      rw [← Option.some.inj hold]
      exact Nat.zero_le _)
    (by decide)

/-- The offset is the largest there is: with one byte behind it the sum is
negative, and passes for a short string. -/
theorem setrange_bypasses_limit :
    tooLong (toLongLong (9223372036854775807 + 1)) = false ∧
      ¬ SetrangeRight (Env.ofTime 0) (fun _ => ∅) ⟨0, false⟩
        [ascii "SETRANGE", ascii "k", ascii "9223372036854775807",
          ascii "a"] := by
  refine ⟨by decide, fun hright => ?_⟩
  have hfits := hright.fits (by decide) 9223372036854775807 []
    (by decide) (by decide) (by rw [found_init_empty]; rfl)
  exact absurd hfits (by decide)

end Limit

end RedisV8.Commands
