import RedisV8.Commands.Table
import RedisV8.Keyspace.Effect

/-!
# A key under another name or in another database

RENAME and RENAMENX carry the value and the expire of their key; an expire of
`-1` passes for none.  MOVE carries the value only.
-/

namespace RedisV8.Commands

open Util Server Keyspace Effects Dataset

/-- The commands that carry a key. -/
inductive Carrier where
  | rename
  | renamenx
  | move
  deriving DecidableEq, Repr

namespace Carrier

variable (int : Internals) (c : Client) (argv : List Bytes)

def command : Carrier → Cmd Outcome
  | rename => renameCommand c argv
  | renamenx => renamenxCommand c argv
  | move => moveCommand int c argv

/-- The key that the command carries its key to. -/
def target : Carrier → Option Key
  | rename | renamenx => some (keyArg c argv 2)
  | move =>
    (selectDb int.dbnum (strtoll (arg argv 2)).value).map fun id => (id, arg argv 1)

/-- The reply of a command that succeeds. -/
def success : Carrier → Reply
  | rename => Reply.ok
  | renamenx | move => Reply.cone

/-- The expires that go along. -/
def Carries (expire : Option ℤ) : Carrier → Prop
  | rename | renamenx => expire ≠ some (-1)
  | move => expire = none

end Carrier

/-- The entry of one key stands at another and nothing is left. -/
def carried (d : Dataset) (src dst : Key) (entry : Entry) : Dataset :=
  (d.set dst (some entry)).set src none

section Steps

variable {env : Env} {s : State} {src dst : Key} {value : Value}

theorem set_lookedUp (env : Env) (s : State) (k : Key) (o : Option Entry) :
    (lookedUp env s k).data.set k o = s.data.set k o := by
  rw [lookedUp, handle]
  split
  · exact set_set _ _ _ _
  · rfl

theorem carried_inj {d : Dataset} (hne : dst ≠ src) {entry entry' : Entry} :
    carried d src dst entry = carried d src dst entry' ↔ entry = entry' := by
  refine ⟨fun h => ?_, fun h => by rw [h]⟩
  have hfind := congrArg (find · dst) h
  simpa only [carried, find_set_of_ne hne, find_set_self,
    Option.some.injEq] using hfind

theorem data_store_of_absent (h : s.data.find dst = none) (value : Value) :
    (s.store dst value).data = s.data.set dst (some ⟨value, none⟩) := by
  rw [State.store, h]
  rfl

/-- An expire as it is after a rename. -/
def renamedExpire (expire : ℤ) : Option ℤ :=
  if expire = -1 then none else some expire

theorem data_renameTo (env : Env) (src : Key) (value : Value) (expire : ℤ)
    {overwrite : Bool} (habsent : overwrite = false → s.data.find dst = none) :
    (run (handle env) (renameTo src dst value expire overwrite) s).2.data =
      carried s.data src dst ⟨value, renamedExpire expire⟩ := by
  have hrest : ∀ s' : State, s'.data.find dst = none →
      s'.data.set dst none = s.data.set dst none →
      (run (handle env) (renameTo src dst value expire false) s').2.data =
        carried s.data src dst ⟨value, renamedExpire expire⟩ := by
    intro s' hfind hset
    have hset' : ∀ o, s'.data.set dst o = s.data.set dst o := by
      intro o
      rw [← set_set s'.data dst none, hset, set_set]
    by_cases hexpire : expire = -1 <;>
      simp [renameTo, dbAdd, dbDelete, setExpire, signalModifiedKey,
        notifyKeyspaceEvent, addDirty, handle, Prog.perform, hexpire,
        State.store, State.setExpire, State.put, hfind, carried, renamedExpire,
        set_set, hset', State.signalModifiedKey]
  cases overwrite with
  | false => exact hrest s (habsent rfl) rfl
  | true =>
    exact hrest (s.put dst none) (find_set_self _ _ _)
      (set_set _ _ _ _)

theorem renamedExpire_getD (expire : Option ℤ) :
    renamedExpire (expire.getD (-1)) = expire ↔ expire ≠ some (-1) := by
  rw [renamedExpire]
  cases expire with
  | none => simp
  | some time =>
    by_cases htime : time = -1 <;> simp [htime]

theorem run_lookupKeyWrite_bind {α : Type} (env : Env) (s : State) (k : Key)
    (f : Option Value → Cmd α) :
    run (handle env) (lookupKeyWrite k >>= f) s =
      run (handle env) (f (found env s k)) (lookedUp env s k) := rfl

theorem run_getExpire_bind {α : Type} (env : Env) (s : State) (k : Key)
    (f : ℤ → Cmd α) :
    run (handle env) (getExpire k >>= f) s =
      run (handle env) (f (getExpireOf s.data k)) s := rfl

end Steps

section Runs

variable {env : Env} {int : Internals} {c : Client} {argv : List Bytes}
  {d : Dataset}

/-- What RENAME does with a key that is there. -/
theorem rename_exact_iff (nx : Bool)
    (hsuccess : (run (handle env) (renameGenericCommand c argv nx)
      (State.init d)).1 = .reply (if nx then Reply.cone else Reply.ok)) :
    ∃ entry, d.find (keyArg c argv 1) = some entry ∧
      ((run (handle env) (renameGenericCommand c argv nx)
          (State.init d)).2.data =
        carried d (keyArg c argv 1) (keyArg c argv 2) entry ↔
          entry.expire ≠ some (-1)) := by
  have herror : ∀ {text : Bytes}, Outcome.reply (.error text) ≠
      .reply (if nx then Reply.cone else Reply.ok) := by
    cases nx <;> nofun
  by_cases hsame : arg argv 1 = arg argv 2
  · rw [renameGenericCommand, if_pos hsame] at hsuccess
    exact absurd hsuccess herror
  have hne : keyArg c argv 2 ≠ keyArg c argv 1 := fun h =>
    hsame (congrArg Prod.snd h).symm
  rw [renameGenericCommand, if_neg hsame, run_lookupKeyWrite_bind] at hsuccess ⊢
  cases hfound : found env (State.init d) (keyArg c argv 1) with
  | none =>
    rw [hfound] at hsuccess
    exact absurd hsuccess herror
  | some value =>
    obtain ⟨expire, hfind⟩ := find_of_found hfound
    have hexpire : getExpireOf d (keyArg c argv 1) = expire.getD (-1) := by
      rw [getExpireOf, show d.find _ = _ from hfind]
      rfl
    refine ⟨⟨value, expire⟩, hfind, ?_⟩
    rw [hfound] at hsuccess
    rw [lookedUp_of_found hfound] at hsuccess ⊢
    dsimp only at hsuccess ⊢
    rw [run_getExpire_bind, run_lookupKeyWrite_bind] at hsuccess ⊢
    by_cases hbusy : (found env (State.init d) (keyArg c argv 2)).isSome && nx
    · rw [if_pos hbusy] at hsuccess
      rw [Bool.and_eq_true] at hbusy
      rw [hbusy.2] at hsuccess
      cases hsuccess
    rw [if_neg hbusy, run_bind]
    have habsent : (found env (State.init d) (keyArg c argv 2)).isSome = false →
        (lookedUp env (State.init d) (keyArg c argv 2)).data.find
          (keyArg c argv 2) = none := fun h =>
      find_lookedUp_of_found_none (Option.isNone_iff_eq_none.mp (by simpa using h))
    have hdata := data_renameTo env (keyArg c argv 1) value
      (getExpireOf d (keyArg c argv 1)) habsent
    rw [carried, set_lookedUp] at hdata
    refine (Eq.congr_left hdata).trans ((carried_inj hne).trans ?_)
    rw [Entry.mk.injEq, and_iff_right rfl, hexpire]
    exact renamedExpire_getD expire

theorem move_exact_iff
    (hsuccess : (run (handle env) (moveCommand int c argv) (State.init d)).1 =
      .reply Reply.cone) :
    ∃ dst entry, Carrier.move.target int c argv = some dst ∧
      d.find (keyArg c argv 1) = some entry ∧
      ((run (handle env) (moveCommand int c argv) (State.init d)).2.data =
        carried d (keyArg c argv 1) dst entry ↔ entry.expire = none) := by
  by_cases hcluster : int.cluster
  · rw [moveCommand, if_pos hcluster] at hsuccess
    cases hsuccess
  cases hid : selectDb int.dbnum (strtoll (arg argv 2)).value with
  | none =>
    rw [moveCommand, if_neg hcluster, hid] at hsuccess
    cases hsuccess
  | some id =>
    refine ⟨(id, arg argv 1), ?_⟩
    rw [moveCommand, if_neg hcluster, hid] at hsuccess
    rw [moveCommand, if_neg hcluster, Carrier.target, hid]
    dsimp only at hsuccess ⊢
    by_cases hsame : id = c.db
    · rw [if_pos hsame] at hsuccess
      cases hsuccess
    have hne : (id, arg argv 1) ≠ keyArg c argv 1 := fun h =>
      hsame (congrArg Prod.fst h)
    rw [if_neg hsame, run_lookupKeyWrite_bind] at hsuccess ⊢
    cases hfound : found env (State.init d) (keyArg c argv 1) with
    | none =>
      rw [hfound] at hsuccess
      cases hsuccess
    | some value =>
      obtain ⟨expire, hfind⟩ := find_of_found hfound
      refine ⟨⟨value, expire⟩, rfl, hfind, ?_⟩
      rw [hfound] at hsuccess
      rw [lookedUp_of_found hfound] at hsuccess ⊢
      dsimp only at hsuccess ⊢
      rw [run_lookupKeyWrite_bind] at hsuccess ⊢
      cases htarget : found env (State.init d) (id, arg argv 1) with
      | some _ =>
        rw [htarget] at hsuccess
        cases hsuccess
      | none =>
        have hdata := data_store_of_absent (find_lookedUp_of_found_none htarget)
          value
        rw [set_lookedUp] at hdata
        refine (Eq.congr_left (congrArg (set · (keyArg c argv 1) none)
          hdata)).trans ((carried_inj hne).trans ?_)
        rw [Entry.mk.injEq, and_iff_right rfl, eq_comm]

/-- A command that succeeds carries the whole key if and only if the expire is
one that goes along. -/
theorem carried_iff (env : Env) (int : Internals) (c : Client)
    (argv : List Bytes) (d : Dataset) (cmd : Carrier)
    (hsuccess : (run (handle env) (cmd.command int c argv) (State.init d)).1 =
      .reply cmd.success) :
    ∃ dst entry, cmd.target int c argv = some dst ∧
      d.find (keyArg c argv 1) = some entry ∧
      ((run (handle env) (cmd.command int c argv) (State.init d)).2.data =
        carried d (keyArg c argv 1) dst entry ↔ cmd.Carries entry.expire) := by
  cases cmd with
  | rename =>
    obtain ⟨entry, hfind, hiff⟩ := rename_exact_iff false hsuccess
    exact ⟨_, entry, rfl, hfind, hiff⟩
  | renamenx =>
    obtain ⟨entry, hfind, hiff⟩ := rename_exact_iff true hsuccess
    exact ⟨_, entry, rfl, hfind, hiff⟩
  | move => exact move_exact_iff hsuccess

/-- A database with one key, to expire at time 9000. -/
def expiring : Dataset :=
  set (fun _ => ∅) (0, ascii "k") (some ⟨.string (ascii "v"), some 9000⟩)

theorem carried_by_rename :
    (run (handle (Env.ofTime 5000)) (Carrier.rename.command someInternals
        ⟨0, false⟩ [ascii "RENAME", ascii "k", ascii "l"])
      (State.init expiring)).2.data =
      carried expiring (0, ascii "k") (0, ascii "l")
        ⟨.string (ascii "v"), some 9000⟩ := by
  obtain ⟨dst, entry, hdst, hfind, hiff⟩ := carried_iff (Env.ofTime 5000)
    someInternals ⟨0, false⟩ [ascii "RENAME", ascii "k", ascii "l"] expiring
    .rename rfl
  cases hdst
  obtain rfl := Option.some_inj.mp
    (hfind.symm.trans (find_set_self _ _ _))
  exact hiff.mpr (by simp [Carrier.Carries])

/-- MOVE answers that the key was moved, and its expire is gone. -/
theorem move_loses_expire :
    let after := run (handle (Env.ofTime 5000)) (Carrier.move.command
      someInternals ⟨0, false⟩ [ascii "MOVE", ascii "k", ascii "1"])
      (State.init expiring)
    after.1 = .reply Carrier.move.success ∧
      expiring.find (0, ascii "k") = some ⟨.string (ascii "v"), some 9000⟩ ∧
      after.2.data.find (1, ascii "k") = some ⟨.string (ascii "v"), none⟩ := by
  refine ⟨rfl, ?_, ?_⟩ <;> decide

end Runs

end RedisV8.Commands
