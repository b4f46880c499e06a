import Mathlib.Data.Finmap
import RedisV8.Util.Cstring

/-!
# Databases

A key holds a value of one of five types and may have an expire time.  Values
are taken at their meaning, whatever their encoding; the score of a member of a
sorted set is given by its text.  A dataset is a family of databases.
-/

namespace RedisV8.Keyspace

open Util Function

inductive Value where
  | string (s : Bytes)
  | list (l : List Bytes)
  | set (s : Finset Bytes)
  | hash (h : Finmap fun _ : Bytes => Bytes)
  | zset (z : Finmap fun _ : Bytes => Bytes)
  deriving DecidableEq

/-- `expire` is the entry of the key in the table of expires, in milliseconds
since the epoch. -/
structure Entry where
  value : Value
  expire : Option ℤ
  deriving DecidableEq

abbrev Db := Finmap fun _ : Bytes => Entry

abbrev Dataset := ℕ → Db

/-- A key of one of the databases. -/
abbrev Key := ℕ × Bytes

/-- The entry of a key replaced, or removed. -/
def Db.put (db : Db) (key : Bytes) : Option Entry → Db
  | some e => db.insert key e
  | none => db.erase key

namespace Dataset

def find (d : Dataset) (k : Key) : Option Entry := (d k.1).lookup k.2

def set (d : Dataset) (k : Key) (o : Option Entry) : Dataset :=
  update d k.1 (Db.put (d k.1) k.2 o)

def flush (d : Dataset) (db : ℕ) : Dataset := update d db ∅

/-- The dataset without the given keys. -/
def without (d : Dataset) (ks : List Key) : Dataset :=
  ks.foldl (fun d k => d.set k none) d

theorem ext_find {d d' : Dataset} (h : ∀ k, d.find k = d'.find k) :
    d = d' := by
  funext db
  exact Finmap.ext_lookup fun key => h (db, key)

@[simp]
theorem find_set_self (d : Dataset) (k : Key) (o : Option Entry) :
    (d.set k o).find k = o := by
  rw [find, set, update_self]
  cases o with
  | none => exact Finmap.lookup_erase _ _
  | some e => exact Finmap.lookup_insert _

theorem find_set_of_ne {d : Dataset} {k k' : Key} (hne : k' ≠ k)
    (o : Option Entry) : (d.set k o).find k' = d.find k' := by
  rw [find, set]
  by_cases hdb : k'.1 = k.1
  · have hkey : k'.2 ≠ k.2 := fun h => hne (Prod.ext hdb h)
    rw [hdb, update_self, find, hdb]
    cases o with
    | none => exact Finmap.lookup_erase_ne hkey
    | some e => exact Finmap.lookup_insert_of_ne _ hkey
  · rw [update_of_ne hdb, find]

theorem find_set (d : Dataset) (k k' : Key) (o : Option Entry) :
    (d.set k o).find k' = if k' = k then o else d.find k' := by
  split_ifs with h
  · rw [h, find_set_self]
  · exact find_set_of_ne h o

theorem set_set (d : Dataset) (k : Key) (o o' : Option Entry) :
    (d.set k o).set k o' = d.set k o' :=
  ext_find fun k' => by
    simp only [find_set]
    split_ifs <;> rfl

end Dataset

/-- The test of `expireIfNeeded`; a negative time stands for none. -/
def Entry.expired (now : ℤ) (e : Entry) : Bool :=
  match e.expire with
  | some time => 0 ≤ time && time < now
  | none => false

end RedisV8.Keyspace
