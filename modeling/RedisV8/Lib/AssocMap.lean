import Mathlib.Data.List.Nodup
import Mathlib.Data.Set.Card
import Mathlib.Logic.Function.Basic

/-!
# Finite maps listed as pairs

A list of pairs with distinct keys lists a partial function.  The order of
the pairs is immaterial, so every change can be made at the head.
-/

namespace RedisV8.AssocMap

open List Function

variable {K V : Type*}

/-- The list holds exactly the pairs of the map, each key once. -/
structure Lists (pairs : List (K × V)) (map : K → Option V) : Prop where
  nodup : (pairs.map Prod.fst).Nodup
  mem_iff : ∀ key val, (key, val) ∈ pairs ↔ map key = some val

variable {pairs other : List (K × V)} {map : K → Option V} {key : K} {val : V}

theorem lists_nil : Lists ([] : List (K × V)) (fun _ => none) :=
  ⟨nodup_nil, by simp⟩

theorem Lists.perm (hlists : Lists pairs map) (hperm : pairs.Perm other) :
    Lists other map where
  nodup := (hperm.map Prod.fst).nodup_iff.1 hlists.nodup
  mem_iff := fun key val => by rw [← hperm.mem_iff, hlists.mem_iff]

theorem Lists.key_mem_iff (hlists : Lists pairs map) :
    key ∈ pairs.map Prod.fst ↔ (map key).isSome := by
  rw [Option.isSome_iff_exists, mem_map]
  constructor
  · rintro ⟨⟨_, val⟩, hmem, rfl⟩
    exact ⟨val, (hlists.mem_iff _ val).1 hmem⟩
  · rintro ⟨val, hval⟩
    exact ⟨(key, val), (hlists.mem_iff key val).2 hval, rfl⟩

theorem Lists.not_key_mem (hlists : Lists pairs map) (hkey : map key = none) :
    key ∉ pairs.map Prod.fst := by
  rw [hlists.key_mem_iff, hkey]
  exact Bool.false_ne_true

/-- Where the pair of a key stands. -/
theorem Lists.split (hlists : Lists pairs map) (hkey : map key = some val) :
    ∃ pre post, pairs = pre ++ (key, val) :: post ∧
      key ∉ pre.map Prod.fst := by
  obtain ⟨pre, post, rfl⟩ :=
    append_of_mem ((hlists.mem_iff key val).2 hkey)
  refine ⟨pre, post, rfl, fun hmem => ?_⟩
  have hnodup := hlists.nodup
  rw [map_append, map_cons] at hnodup
  exact (nodup_append.1 hnodup).2.2 key hmem key mem_cons_self rfl

/-- The number of pairs is the number of keys. -/
theorem Lists.ncard (hlists : Lists pairs map) :
    Set.ncard {key | (map key).isSome} = pairs.length := by
  classical
  have hset : {key | (map key).isSome} =
      ((pairs.map Prod.fst).toFinset : Set K) := by
    ext key
    simp [← hlists.key_mem_iff]
  rw [hset, Set.ncard_coe_finset, toFinset_card_of_nodup hlists.nodup,
    length_map]

variable [DecidableEq K]

theorem Lists.cons (hlists : Lists pairs map) (hnew : map key = none)
    (val : V) :
    Lists ((key, val) :: pairs) (update map key (some val)) where
  nodup := by
    rw [map_cons, nodup_cons]
    refine ⟨fun hmem => ?_, hlists.nodup⟩
    rw [hlists.key_mem_iff, hnew] at hmem
    cases hmem
  mem_iff := by
    intro key' val'
    rw [mem_cons, Prod.mk.injEq, hlists.mem_iff]
    by_cases heq : key' = key
    · subst heq
      simp [hnew, eq_comm]
    · simp [heq]

theorem Lists.tail (hlists : Lists ((key, val) :: pairs) map) :
    Lists pairs (update map key none) := by
  have hnodup := hlists.nodup
  rw [map_cons, nodup_cons] at hnodup
  refine ⟨hnodup.2, fun key' val' => ?_⟩
  have hmem := hlists.mem_iff key' val'
  rw [mem_cons, Prod.mk.injEq] at hmem
  by_cases heq : key' = key
  · subst heq
    rw [update_self]
    constructor
    · intro hpair
      exact absurd (mem_map_of_mem hpair) hnodup.1
    · intro hnone
      cases hnone
  · rw [update_of_ne heq, ← hmem]
    simp [heq]

/-- Replacing the value of a pair. -/
theorem Lists.set (hlists : Lists ((key, val) :: pairs) map) (val' : V) :
    Lists ((key, val') :: pairs) (update map key (some val')) := by
  have hset := hlists.tail.cons (update_self key none map) val'
  rwa [update_idem] at hset

/-- Replacing the value of a pair in its place. -/
theorem Lists.set_middle {pre post : List (K × V)}
    (hlists : Lists (pre ++ (key, val) :: post) map) (val' : V) :
    Lists (pre ++ (key, val') :: post)
      (update map key (some val')) :=
  ((hlists.perm perm_middle).set val').perm perm_middle.symm

theorem Lists.erase_middle {pre post : List (K × V)}
    (hlists : Lists (pre ++ (key, val) :: post) map) :
    Lists (pre ++ post) (update map key none) :=
  (hlists.perm perm_middle).tail

theorem Lists.append_new (hlists : Lists pairs map) (hnew : map key = none)
    (val : V) :
    Lists (pairs ++ [(key, val)]) (update map key (some val)) :=
  (hlists.cons hnew val).perm (perm_append_singleton _ _).symm

end RedisV8.AssocMap
