import RedisV8.Lib.Bytes

/-!
# LZF

`lzf_compress` and `lzf_decompress`.  The compressor looks for earlier bytes in
a table that it does not clear: what the table holds at first is a parameter.
-/

namespace RedisV8.Rdb.Lzf

open List

/-! ## The compressor -/

def maxLit : ℕ := 2 ^ 5
def maxOff : ℕ := 2 ^ 13
def maxRef : ℕ := 2 ^ 8 + 2 ^ 3

/-- The finished runs, the literals of the open one, and the table. -/
structure State where
  ip : ℕ
  out : Bytes
  run : Bytes
  hval : UInt32
  htab : UInt32 → ℕ

section Compress

variable (s : Bytes)

def byteAt (i : ℕ) : UInt8 := s.getD i 0

/-- `NEXT`. -/
def next (hval : UInt32) (p : ℕ) : UInt32 :=
  hval <<< 8 ||| (byteAt s (p + 2)).toUInt32

/-- `FRST`. -/
def first (p : ℕ) : UInt32 :=
  (byteAt s p).toUInt32 <<< 8 ||| (byteAt s (p + 1)).toUInt32

/-- `IDX`, with `VERY_FAST` and an `HLOG` of 16. -/
def slot (hval : UInt32) : UInt32 := (hval >>> 8 - hval * 5) &&& 0xffff

/-- A run without literals is undone. -/
def endRun (out run : Bytes) : Bytes :=
  if run = [] then out else out ++ UInt8.ofNat (run.length - 1) :: run

def State.literal (st : State) : State :=
  let run := st.run ++ [byteAt s st.ip]
  if run.length = maxLit then
    { st with ip := st.ip + 1, out := endRun st.out run, run := [] }
  else { st with ip := st.ip + 1, run := run }

/-- `do len++; while (len < maxlen && ref[len] == ip[len]);` -/
def extend (same : ℕ → Bool) (maxlen : ℕ) : ℕ → ℕ → ℕ
  | 0, len => len
  | fuel + 1, len =>
    if len + 1 < maxlen ∧ same (len + 1) then extend same maxlen fuel (len + 1)
    else len + 1

/-- The number of equal bytes; if there are enough left, the first sixteen
comparisons are written out. -/
def matchLen (same : ℕ → Bool) (maxlen : ℕ) : ℕ :=
  if 16 < maxlen then
    ((range' 3 16).find? fun len => !same len).getD
      (extend same maxlen maxRef 18)
  else extend same maxlen maxRef 2

/-- The token of a back reference. -/
def backref (off len : ℕ) : Bytes :=
  (if len < 7 then [UInt8.ofNat (off / 256 + len * 32)]
    else [UInt8.ofNat (off / 256 + 7 * 32), UInt8.ofNat (len - 7)]) ++
      [UInt8.ofNat off]

/-- The loop; `none` stands for the return of zero. -/
def compressLoop (outLen : ℕ) : ℕ → State → Option State
  | 0, st => some st
  | fuel + 1, st =>
    if s.length ≤ st.ip + 2 then some st
    else
      let ip := st.ip
      let hval := next s st.hval ip
      let ref := st.htab (slot hval)
      let st := { st with
        hval := hval, htab := Function.update st.htab (slot hval) ip }
      let same i := byteAt s (ref + i) == byteAt s (ip + i)
      if ref < ip ∧ ip - ref - 1 < maxOff ∧ ip + 4 < s.length ∧ 0 < ref ∧
          same 0 ∧ same 1 ∧ same 2 then
        let out := endRun st.out st.run
        if outLen ≤ out.length + 3 + 1 then none
        else
          let len := matchLen same (min (s.length - ip - 2) maxRef) - 2
          let ip := ip + len + 2
          let out := out ++ backref (st.ip - ref - 1) len
          if s.length ≤ ip + 2 then
            some { st with ip := ip, out := out, run := [] }
          else
            let hval := next s (first s (ip - 2)) (ip - 2)
            let hval' := next s hval (ip - 1)
            compressLoop outLen fuel ⟨ip, out, [], hval',
              Function.update (Function.update st.htab (slot hval) (ip - 2))
                (slot hval') (ip - 1)⟩
      else if outLen ≤ st.out.length + 1 + st.run.length then none
      else compressLoop outLen fuel (st.literal s)

/-- `lzf_compress`, with what its table happens to hold; empty for a return of
zero. -/
def compress (htab : UInt32 → ℕ) (outLen : ℕ) : Bytes :=
  if s = [] ∨ outLen = 0 then []
  else
    match compressLoop s outLen s.length ⟨0, [], [], first s 0, htab⟩ with
    | none => []
    | some st =>
      if outLen < st.out.length + 1 + st.run.length + 3 then []
      else
        let st := (State.literal s)^[s.length - st.ip] st
        endRun st.out st.run

end Compress

/-! ## The decompressor -/

/-- The copy of a back reference, which may overlap its source. -/
def copy (off : ℕ) : ℕ → Bytes → Bytes
  | 0, op => op
  | len + 1, op => copy off len (op ++ [byteAt op (op.length - off)])

def decompressLoop (outLen : ℕ) : ℕ → Bytes → Bytes → Option Bytes
  | 0, _, op => some op
  | fuel + 1, ip, op => do
    let ctrl := (← ip[0]?).toNat
    let ip := ip.tail
    if ctrl < 2 ^ 5 then
      if outLen < op.length + (ctrl + 1) ∨ ip.length < ctrl + 1 then none
      else
        let op := op ++ ip.take (ctrl + 1)
        let ip := ip.drop (ctrl + 1)
        if ip = [] then some op else decompressLoop outLen fuel ip op
    else do
      let (len, ip) ← if ctrl / 32 = 7 then
          ip[0]?.map fun b => (7 + b.toNat, ip.tail)
        else some (ctrl / 32, ip)
      let off := ctrl % 32 * 256 + (← ip[0]?).toNat + 1
      if outLen < op.length + len + 2 ∨ op.length < off then none
      else
        let op := copy off (len + 2) op
        if ip.tail = [] then some op else decompressLoop outLen fuel ip.tail op

/-- `lzf_decompress`. -/
def decompress (s : Bytes) (outLen : ℕ) : Option Bytes :=
  decompressLoop outLen s.length s []

end RedisV8.Rdb.Lzf
