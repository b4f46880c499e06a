import RedisV8.Lib.Bytes
import Mathlib.Algebra.Order.BigOperators.Group.List

/-!
# Eviction

`freeMemoryIfNeeded` of `redis.c`.  The buffers of replicas and of the AOF are
taken off the used memory, and keys are deleted until what is over the limit is
freed.  The size of the replicas' buffers is taken off with a floor at zero,
that of the AOF buffers without one, so that the counter can wrap around.
-/

namespace RedisV8.Eviction

open List

inductive Policy where
  | noEviction
  | allkeysLru
  | allkeysRandom
  | volatileLru
  | volatileRandom
  | volatileTtl
  deriving DecidableEq, Repr

/-- A key of a database: how long its value was idle, the time in `expires`,
and the memory that `dbDelete` gives back. -/
structure Entry where
  db : ℕ
  key : Bytes
  idle : ℕ
  expire : Option ℤ
  size : ℕ
  deriving DecidableEq, Repr

def sizes (entries : List Entry) : ℕ := (entries.map Entry.size).sum

/-- What the function reads.  The keys are part of the used memory.  A negative
`maxmemory-samples` is 0. -/
structure Server where
  usedMemory : ℕ
  slaveBuffers : List ℕ
  aofOn : Bool
  aofBuf : ℕ
  aofRewriteBuf : ℕ
  maxmemory : ℕ
  policy : Policy
  samples : ℕ
  dbnum : ℕ
  keys : List Entry
  usedMemory_lt : usedMemory < 2 ^ 64
  aofBuf_lt : aofBuf < 2 ^ 64
  aofRewriteBuf_lt : aofRewriteBuf < 2 ^ 64
  sizes_le : sizes keys ≤ usedMemory

inductive Status where
  | ok
  | err
  deriving DecidableEq, Repr

/-! ## The model -/

/-- Subtraction of `size_t`. -/
def sizeSub (a b : ℕ) : ℕ := (a + 2 ^ 64 - b) % 2 ^ 64

def dictGetRandomKey (dict : List Entry) (n : ℕ) : Option Entry :=
  dict[n % dict.length]?

def dbDelete (best : Entry) (keys : List Entry) : List Entry :=
  keys.filter fun entry => ¬ (entry.db = best.db ∧ entry.key = best.key)

/-- The best of the keys drawn; of equally good ones the first. -/
def best (better : Entry → Entry → Bool) : List Entry → Option Entry :=
  foldl (fun best this =>
    if best.all (better this) then some this else best) none

/-- A key the policy may delete. -/
def Policy.evicts : Policy → Entry → Bool
  | allkeysLru, _ | allkeysRandom, _ => true
  | _, entry => entry.expire.isSome

namespace Server

variable (s : Server)

/-- The used memory without the buffers of the replicas. -/
def withoutSlaves : ℕ :=
  s.slaveBuffers.foldl (fun memUsed obufBytes =>
    if memUsed < obufBytes then 0 else memUsed - obufBytes) s.usedMemory

def memUsed : ℕ :=
  if s.aofOn then
    sizeSub (sizeSub s.withoutSlaves s.aofBuf) s.aofRewriteBuf
  else s.withoutSlaves

/-- The dictionary of the database `j` that the policy draws from. -/
def candidates (keys : List Entry) (j : ℕ) : List Entry :=
  keys.filter fun entry => entry.db = j && s.policy.evicts entry

/-- How many keys are drawn; the random policies take the first one. -/
def draws : ℕ :=
  match s.policy with
  | .allkeysRandom | .volatileRandom => 1
  | _ => s.samples

/-- The key to delete from a dictionary. -/
def bestKey (draw : ℕ → ℕ) (dict : List Entry) : Option Entry :=
  let sampled := (range s.draws).filterMap fun k =>
    dictGetRandomKey dict (draw k)
  match s.policy with
  | .volatileTtl =>
    best (fun this best => this.expire.getD 0 < best.expire.getD 0) sampled
  | _ => best (fun this best => best.idle < this.idle) sampled

/-- A pass over databases, with the keys left and those evicted. -/
def evictPass (draw : ℕ → ℕ → ℕ) :
    List ℕ → List Entry → List Entry × List Entry
  | [], keys => (keys, [])
  | j :: dbs, keys =>
    match s.bestKey (draw j) (s.candidates keys j) with
    | none => evictPass draw dbs keys
    | some best =>
      let pass := evictPass draw dbs (dbDelete best keys)
      (pass.1, best :: pass.2)

/-- The loop of `freeMemoryIfNeeded`. -/
def evictLoop (draw : ℕ → ℕ → ℕ → ℕ) (memToFree : ℕ) :
    ℕ → ℕ → List Entry → Option (Status × List Entry)
  | 0, _, _ => none
  | fuel + 1, memFreed, keys =>
    if memFreed < memToFree then
      let pass := s.evictPass (draw fuel) (range s.dbnum) keys
      if pass.2 = [] then some (.err, [])
      else
        (evictLoop draw memToFree fuel
          ((memFreed + sizes pass.2) % 2 ^ 64) pass.1).map
          fun (status, later) => (status, pass.2 ++ later)
    else some (.ok, [])

/-- `freeMemoryIfNeeded`: its status, and the keys it evicted.  `draw` gives
the random numbers of a pass, a database and a sample. -/
def freeMemoryIfNeeded (draw : ℕ → ℕ → ℕ → ℕ) :
    Option (Status × List Entry) :=
  if s.memUsed ≤ s.maxmemory then some (.ok, [])
  else if s.policy = .noEviction then some (.err, [])
  else s.evictLoop draw (s.memUsed - s.maxmemory) (s.keys.length + 1) 0 s.keys

end Server

/-! ## The choice of a key -/

section Choice

variable {better : Entry → Entry → Bool} {dict keys : List Entry}
  {entry : Entry} {s : Server} {draw : ℕ → ℕ}

theorem best_mem (hbest : best better dict = some entry) : entry ∈ dict := by
  induction dict using reverseRecOn generalizing entry with
  | nil => cases hbest
  | append_singleton dict this ih =>
    rw [best, foldl_append, foldl_cons, foldl_nil, ← best] at hbest
    split at hbest
    · cases hbest
      simp
    · exact mem_append_left _ (ih hbest)

theorem best_eq_none : best better dict = none ↔ dict = [] := by
  induction dict using reverseRecOn with
  | nil => exact iff_of_true rfl rfl
  | append_singleton dict this ih =>
    rw [best, foldl_append, foldl_cons, foldl_nil, ← best]
    cases best better dict with
    | none => simp
    | some entry =>
      dsimp only [Option.all]
      split <;> simp

theorem bestKey_mem (hbest : s.bestKey draw dict = some entry) :
    entry ∈ dict := by
  rw [Server.bestKey] at hbest
  have hmem : entry ∈ (range s.draws).filterMap fun k =>
      dictGetRandomKey dict (draw k) := by
    split at hbest <;> exact best_mem hbest
  obtain ⟨k, -, hk⟩ := mem_filterMap.1 hmem
  exact mem_of_getElem? hk

/-- Whether a key is chosen does not depend on what is drawn. -/
theorem bestKey_eq_none (draw : ℕ → ℕ) :
    s.bestKey draw dict = none ↔ dict = [] ∨ s.draws = 0 := by
  have hrandom : ∀ n, dictGetRandomKey dict n = none ↔ dict = [] := fun n => by
    rw [dictGetRandomKey, getElem?_eq_none_iff]
    cases dict with
    | nil => simp
    | cons entry dict => simpa using Nat.mod_lt n (Nat.succ_pos dict.length)
  have hsampled : ((range s.draws).filterMap fun k =>
      dictGetRandomKey dict (draw k)) = [] ↔ dict = [] ∨ s.draws = 0 := by
    simp only [filterMap_eq_nil_iff, mem_range, hrandom]
    cases s.draws with
    | zero => simp
    | succ samples => simpa using ⟨fun h => h 0 (by omega), fun h _ _ => h⟩
  rw [Server.bestKey, ← hsampled]
  split <;> exact best_eq_none

theorem bestKey_evicts {j : ℕ}
    (hbest : s.bestKey draw (s.candidates keys j) = some entry) :
    entry ∈ keys ∧ s.policy.evicts entry := by
  have hmem := bestKey_mem hbest
  rw [Server.candidates, mem_filter, Bool.and_eq_true] at hmem
  exact ⟨hmem.1, hmem.2.2⟩

theorem dbDelete_subperm (hmem : entry ∈ keys) :
    (entry :: dbDelete entry keys).Subperm keys := by
  have hsplit := filter_append_perm (fun other : Entry => decide
    (¬ (other.db = entry.db ∧ other.key = entry.key))) keys
  refine Subperm.trans ?_ hsplit.subperm
  refine (perm_append_singleton entry _).symm.subperm.trans ?_
  refine ((singleton_sublist.2 ?_).append_left _).subperm
  exact mem_filter.2 ⟨hmem, by simp⟩

end Choice

/-! ## The loop -/

section Loop

variable {s : Server}

theorem evictPass_spec (draw : ℕ → ℕ → ℕ) (dbs : List ℕ) (keys : List Entry) :
    ((s.evictPass draw dbs keys).2 ++ (s.evictPass draw dbs keys).1).Subperm
        keys ∧
      ∀ entry ∈ (s.evictPass draw dbs keys).2, s.policy.evicts entry := by
  induction dbs generalizing keys with
  | nil => exact ⟨Subperm.refl _, by simp [Server.evictPass]⟩
  | cons j dbs ih =>
    rw [Server.evictPass]
    cases hbest : s.bestKey (draw j) (s.candidates keys j) with
    | none => exact ih keys
    | some best =>
      obtain ⟨hmem, hevicts⟩ := bestKey_evicts hbest
      obtain ⟨hsub, hrest⟩ := ih (dbDelete best keys)
      exact ⟨((subperm_cons best).2 hsub).trans (dbDelete_subperm hmem),
        forall_mem_cons.2 ⟨hevicts, hrest⟩⟩

theorem evictPass_eq_nil (draw : ℕ → ℕ → ℕ) (dbs : List ℕ)
    (keys : List Entry) : (s.evictPass draw dbs keys).2 = [] ↔
      ∀ j ∈ dbs, s.candidates keys j = [] ∨ s.draws = 0 := by
  induction dbs generalizing keys with
  | nil => simp [Server.evictPass]
  | cons j dbs ih =>
    rw [Server.evictPass, forall_mem_cons, ← bestKey_eq_none (draw j)]
    cases s.bestKey (draw j) (s.candidates keys j) with
    | none => simp [ih]
    | some best => simp

/-- With a pass for each key the loop ends, and it succeeds only when enough
was freed. -/
theorem evictLoop_spec (draw : ℕ → ℕ → ℕ → ℕ) (memToFree fuel memFreed : ℕ)
    (keys : List Entry) (hfuel : keys.length < fuel)
    (hsizes : memFreed + sizes keys < 2 ^ 64) :
    ∃ status evicted,
      s.evictLoop draw memToFree fuel memFreed keys = some (status, evicted) ∧
      (evicted.Subperm keys ∧ ∀ entry ∈ evicted, s.policy.evicts entry) ∧
      (status = .ok → memToFree ≤ memFreed + sizes evicted) ∧
      (memFreed < memToFree → (evicted = [] ↔ ∀ j ∈ range s.dbnum,
        s.candidates keys j = [] ∨ s.draws = 0)) := by
  induction fuel generalizing memFreed keys with
  | zero => exact absurd hfuel (Nat.not_lt_zero _)
  | succ fuel ih =>
    obtain ⟨hsub, hevicts⟩ :=
      evictPass_spec (s := s) (draw fuel) (range s.dbnum) keys
    rw [Server.evictLoop, ← evictPass_eq_nil (draw fuel)]
    generalize s.evictPass (draw fuel) (range s.dbnum) keys = pass at *
    obtain ⟨left, evicted⟩ := pass
    dsimp only at hsub hevicts ⊢
    split
    · split
      · rename_i hnil
        exact ⟨_, _, rfl, ⟨nil_subperm, by simp⟩, nofun,
          fun _ => iff_of_true rfl hnil⟩
      rename_i hsome
      have hpos := length_pos_iff.2 hsome
      have hlen := hsub.length_le
      have hweight : sizes (evicted ++ left) ≤ sizes keys := by
        obtain ⟨kept, hperm, hsublist⟩ := hsub
        rw [sizes, ← (hperm.map _).sum_eq]
        exact (hsublist.map _).sum_le_sum (by simp)
      rw [length_append] at hlen
      rw [sizes, map_append, sum_append, ← sizes, ← sizes] at hweight
      obtain ⟨status, later, hloop, ⟨hlater, hpolicy⟩, hok, -⟩ :=
        ih (memFreed + sizes evicted) left (by omega) (by omega)
      rw [Nat.mod_eq_of_lt (by omega), hloop]
      refine ⟨_, _, rfl, ⟨?_, forall_mem_append.2 ⟨hevicts, hpolicy⟩⟩,
        fun hstatus => ?_, fun _ => iff_of_false ?_ hsome⟩
      · exact ((subperm_append_left evicted).2 hlater).trans hsub
      · rw [sizes, map_append, sum_append, ← Nat.add_assoc]
        exact hok hstatus
      · exact fun hnil => hsome (append_eq_nil_iff.1 hnil).1
    · exact ⟨_, _, rfl, ⟨nil_subperm, by simp⟩, fun _ => by omega,
        fun hlt => by omega⟩

end Loop

/-! ## Pressure -/

namespace Server

variable (s : Server)

/-- The used memory without the buffers, at least zero. -/
def counted : ℕ :=
  s.usedMemory - s.slaveBuffers.sum -
    if s.aofOn then s.aofBuf + s.aofRewriteBuf else 0

/-- Keys are evicted only over the limit and as the policy allows, and success
means that what was over the limit is freed. -/
structure OnlyUnderPressure (status : Status) (evicted : List Entry) :
    Prop where
  pressure : evicted ≠ [] → s.maxmemory < s.counted
  evicts : evicted.Subperm s.keys ∧ ∀ entry ∈ evicted, s.policy.evicts entry
  freed : status = .ok → s.counted - s.maxmemory ≤ sizes evicted

theorem withoutSlaves_eq :
    s.withoutSlaves = s.usedMemory - s.slaveBuffers.sum := by
  rw [withoutSlaves]
  generalize s.usedMemory = memUsed
  induction s.slaveBuffers generalizing memUsed with
  | nil => rfl
  | cons obufBytes buffers ih =>
    rw [foldl_cons, ih, sum_cons]
    split <;> omega

/-- The AOF buffers do not wrap the counter around. -/
def AofFits : Prop :=
  s.aofOn = true → s.aofBuf + s.aofRewriteBuf ≤ s.withoutSlaves

theorem memUsed_eq (hfits : s.AofFits) : s.memUsed = s.counted := by
  have hused := s.usedMemory_lt
  have hslaves := withoutSlaves_eq s
  rw [memUsed, counted, ← hslaves]
  split
  · rename_i haof
    have hle := hfits haof
    simp only [sizeSub]
    omega
  · rfl

theorem counted_eq_zero (hfits : ¬ s.AofFits) : s.counted = 0 := by
  have hslaves := withoutSlaves_eq s
  simp only [AofFits, Classical.not_imp, not_le] at hfits
  rw [counted, if_pos hfits.1]
  omega

/-- There is no key that the policy would choose. -/
def Idle : Prop :=
  s.policy = .noEviction ∨
    ∀ j ∈ range s.dbnum, s.candidates s.keys j = [] ∨ s.draws = 0

/-- Keys are evicted only under pressure exactly if the AOF buffers are at most
what is left of the used memory, or the counter that wrapped around is under
the limit, or there is no key to evict. -/
theorem freeMemoryIfNeeded_iff (draw : ℕ → ℕ → ℕ → ℕ) :
    ∃ status evicted,
      s.freeMemoryIfNeeded draw = some (status, evicted) ∧
      (s.OnlyUnderPressure status evicted ↔
        s.AofFits ∨ s.memUsed ≤ s.maxmemory ∨ s.Idle) := by
  have hcounted : s.counted = s.memUsed ∨ s.counted = 0 :=
    (em s.AofFits).imp (fun hfits => (memUsed_eq s hfits).symm)
      (counted_eq_zero s)
  rw [freeMemoryIfNeeded]
  split
  · rename_i hle
    exact ⟨_, _, rfl, iff_of_true
      ⟨by simp, ⟨nil_subperm, by simp⟩, fun _ => by omega⟩ (.inr (.inl hle))⟩
  rename_i hover
  split
  · rename_i hpolicy
    exact ⟨_, _, rfl, iff_of_true
      ⟨by simp, ⟨nil_subperm, by simp⟩, nofun⟩ (.inr (.inr (.inl hpolicy)))⟩
  rename_i hpolicy
  have hsizes := s.sizes_le
  have hused := s.usedMemory_lt
  obtain ⟨status, evicted, hrun, hevicts, hfreed, hnil⟩ :=
    evictLoop_spec (s := s) draw (s.memUsed - s.maxmemory)
      (s.keys.length + 1) 0 s.keys (by omega) (by omega)
  have hidle : evicted = [] ↔ s.Idle := by
    rw [hnil (by omega), Idle, or_iff_right hpolicy]
  refine ⟨status, evicted, hrun, fun hunder => ?_, fun hcond => ?_⟩
  · by_cases hempty : evicted = []
    · exact .inr (.inr (hidle.1 hempty))
    have hlt := hunder.pressure hempty
    by_contra hnot
    rw [counted_eq_zero s fun hfits => hnot (.inl hfits)] at hlt
    omega
  have hpressure : evicted ≠ [] → s.maxmemory < s.counted := fun hsome => by
    obtain hfits | hle | hempty := hcond
    · rw [← memUsed_eq s hfits]
      omega
    · exact absurd hle hover
    · exact absurd (hidle.2 hempty) hsome
  refine ⟨hpressure, hevicts, fun hok => ?_⟩
  have hfree := hfreed hok
  omega

/-- A server that uses 1000 bytes, 200 of them in the AOF buffer, at a limit of
1000; the buffers of two replicas share an object that counts for both. -/
def underLimit : Server where
  usedMemory := 1000
  slaveBuffers := [600, 600]
  aofOn := true
  aofBuf := 200
  aofRewriteBuf := 0
  maxmemory := 1000
  policy := .allkeysRandom
  samples := 5
  dbnum := 1
  keys := [⟨0, [107], 0, none, 50⟩]
  usedMemory_lt := by decide
  aofBuf_lt := by decide
  aofRewriteBuf_lt := by decide
  sizes_le := by decide

/-- The only key is evicted without any need. -/
theorem evicts_under_limit :
    ∃ status evicted,
      underLimit.freeMemoryIfNeeded (fun _ _ _ => 0) = some (status, evicted) ∧
      ¬ underLimit.OnlyUnderPressure status evicted := by
  refine ⟨.err, underLimit.keys, by decide, fun hunder => ?_⟩
  exact absurd (hunder.pressure (by decide)) (by decide)

end Server

end RedisV8.Eviction
