import RedisV8.Commands.Table

/-!
# Commands on collections and served clients

What `handleClientsBlockedOnLists` does to the keyspace for one of the keys
that are ready, given the clients that are blocked for it in their order.  A
run is any sequence of such steps and of commands on collections.
-/

namespace RedisV8.Commands

open Util Server Keyspace Effects
open RedisV8.Lists (Side)

/-- A blocked client: the end it pops from, and the destination of
BRPOPLPUSH. -/
structure Receiver where
  side : Side
  target : Option Bytes
  deriving DecidableEq

/-- Whether the client could be served; a destination that holds another type
refuses the element. -/
def serveClientBlockedOnList (db : ℕ) (value : Bytes) :
    Option Bytes → Cmd Bool
  | none => pure true
  | some dstkey => do
      match ← lookupKeyWrite (db, dstkey) with
      | none =>
        rpoplpushHandlePush (db, dstkey) none value
        pure true
      | some (.list l) =>
        rpoplpushHandlePush (db, dstkey) (some l) value
        pure true
      | some _ => pure false

/-- The list once a client was served, which may be its own destination, or
once the pop was undone. -/
def afterServing (key : Bytes) (r : Receiver) (value : Bytes)
    (rest : List Bytes) (served : Bool) : List Bytes :=
  if served then
    if r.target = some key then value :: rest else rest
  else Lists.pushAt rest value r.side

/-- The loop over the blocked clients; it returns the elements that are
left. -/
def serveLoop (db : ℕ) (key : Bytes) :
    List Receiver → List Bytes → Cmd (List Bytes)
  | [], l => pure l
  | r :: receivers, l =>
    match popped l r.side with
    | none => pure l
    | some (value, rest) => do
        dbOverwrite (db, key) (.list rest)
        let served ← serveClientBlockedOnList db value r.target
        let l := afterServing key r value rest served
        if served then pure () else dbOverwrite (db, key) (.list l)
        serveLoop db key receivers l

def handleClientsBlockedOn (db : ℕ) (key : Bytes)
    (receivers : List Receiver) : Cmd Unit := do
  match ← lookupKeyWrite (db, key) with
  | some (.list l) =>
    let l ← serveLoop db key receivers l
    if l = [] then
      let _ ← dbDelete (db, key)
      pure ()
    else pure ()
  | _ => pure ()

/-! ## Runs -/

variable (int : Internals) (views : Views)

/-- The commands on lists, sets, hashes and sorted sets, and SORT. -/
def collectionTable : List RedisCommand :=
  listTable int ++ setTable int views ++ hashTable int views ++
    zsetTable int views ++
    [⟨"sort", .data (sortCommand int views), -2, "wm", none, 1, 1, 1⟩]

inductive Action where
  | call (cmd : RedisCommand) (c : Client) (argv : List Bytes)
  | serve (db : ℕ) (key : Bytes) (receivers : List Receiver)

def Action.Valid : Action → Prop
  | .call cmd _ argv =>
    cmd ∈ collectionTable int views ∧ cmd.arityOk argv.length = true
  | .serve _ _ _ => True

/-- The server after an action on the given data. -/
def Action.run (env : Env) : Action → Dataset → State
  | .call cmd c argv, d =>
    match cmd.proc with
    | .data proc => (Effects.run (handle env) (proc c argv) (State.init d)).2
    | _ => State.init d
  | .serve db key receivers, d =>
    (Effects.run (handle env) (handleClientsBlockedOn db key receivers)
      (State.init d)).2

def runActions : List (Env × Action) → Dataset → Dataset
  | [], d => d
  | (env, action) :: steps, d => runActions steps (action.run env d).data

end RedisV8.Commands
