import RedisV8.Commands.Table
import RedisV8.Keyspace.Effect

/-!
# Deadlines from relative times

A time to live and the timeout of a blocking command are given by the client,
in seconds or milliseconds, and kept as a time since the epoch: a product and a
sum of 64 bits.
-/

namespace RedisV8.Commands

open Util Server Keyspace Effects Reply
open RedisV8.Lists (Side)

/-- A time in milliseconds, over the integers. -/
def TimeUnit.exact : TimeUnit → ℤ → ℤ
  | .seconds, n => n * 1000
  | .milliseconds, n => n

/-- `getTimeoutFromObjectOrReply`. -/
def getTimeoutFromObjectOrReply (now : ℤ) (text : Bytes) (unit : TimeUnit) :
    Except Reply ℤ :=
  match getLongLongFromObject text with
  | none =>
    .error (errorReply "timeout is not an integer or out of range")
  | some tval =>
    if tval < 0 then .error (errorReply "timeout is negative")
    else if 0 < tval then .ok (toLongLong (unit.scale tval + now))
    else .ok tval

/-- The commands that turn a relative time into a deadline on the keyspace or
of a blocked client. -/
inductive Timed where
  | expire | pexpire | setex | psetex | set | restore
  | blpop | brpop | brpoplpush
  deriving DecidableEq, Repr

namespace Timed

/-- The argument that holds the time, and its unit. -/
def time : Timed → List Bytes → Option (Bytes × TimeUnit)
  | .expire, argv | .setex, argv => some (arg argv 2, .seconds)
  | .pexpire, argv | .psetex, argv | .restore, argv =>
    some (arg argv 2, .milliseconds)
  | .set, argv =>
    (parseSetOptions (argv.drop 3) SetOptions.none).bind SetOptions.expire
  | .blpop, argv | .brpop, argv =>
    some (arg argv (argv.length - 1), .seconds)
  | .brpoplpush, argv => some (arg argv 3, .seconds)

def proc (int : Internals) : Timed → Client → List Bytes → Cmd Outcome
  | .expire => expireCommand
  | .pexpire => pexpireCommand
  | .setex => setexCommand
  | .psetex => psetexCommand
  | .set => setCommand
  | .restore => restoreCommand int
  | .blpop => blpopCommand
  | .brpop => brpopCommand
  | .brpoplpush => brpoplpushCommand

end Timed

/-- EXPIRE looks at the clock once more, and takes a deadline that has come by
then for one in the past. -/
def Timed.InTime (env : Env) (deadline : ℤ) : Timed → Prop
  | .expire | .pexpire => env.later < deadline ∨ env.passive = true
  | _ => True

/-- The command did what it was asked to, or blocks its client. -/
def Accepted : Outcome → Prop
  | .reply r => r = ok ∨ r = cone
  | .block _ _ _ _ => True
  | .select _ => False

/-- The deadline of the blocked client, or else the expire of the key. -/
def recordedDeadline (k : Key) : Outcome × State → Option ℤ
  | (.block _ _ _ timeout, _) => some timeout
  | (_, s) => (s.data.find k).bind Entry.expire

section Arithmetic

variable {now n : ℤ}

theorem toLongLong_eq_self_iff {x : ℤ} (hx : 0 ≤ x) :
    toLongLong x = x ↔ x ≤ llongMax := by
  rw [toLongLong, llongMax]
  constructor
  · intro h
    have hlt := Int.bmod_lt (x := x) (m := 2 ^ 64) (by decide)
    omega
  · intro h
    exact Int.bmod_eq_of_le (by omega) (by omega)

theorem exact_pos (unit : TimeUnit) (hn : 0 < n) : 0 < unit.exact n := by
  cases unit with
  | seconds => exact Int.mul_pos hn (by decide)
  | milliseconds => exact hn

/-- The product may wrap around before the sum does; the result is that of one
wrapped sum. -/
theorem toLongLong_scale_add (unit : TimeUnit) (n now : ℤ) :
    toLongLong (unit.scale n + now) =
      toLongLong (now + unit.exact n) := by
  rw [Int.add_comm now]
  cases unit with
  | seconds => exact Int.bmod_add_bmod
  | milliseconds => rfl

theorem deadline_eq_iff (unit : TimeUnit) (hnow : 0 ≤ now) (hn : 0 < n) :
    toLongLong (unit.scale n + now) = now + unit.exact n ↔
      now + unit.exact n ≤ llongMax := by
  have hpos := exact_pos unit hn
  rw [toLongLong_scale_add]
  exact toLongLong_eq_self_iff (by omega)

end Arithmetic

section Runs

variable {env : Env} {s : State} {k : Key} {text : Bytes} {n : ℤ}
  {unit : TimeUnit}

/-- The expire of a key after it was set. -/
theorem expire_setExpire {s : State} {e : Entry}
    (hfind : s.data.find k = some e) (time : ℤ) :
    ((s.setExpire k time).data.find k).bind Entry.expire = some time := by
  rw [State.setExpire, State.put, Dataset.find_set_self, hfind]
  rfl

theorem deadline_expireKey {e : Entry} (hfind : s.data.find k = some e)
    (time : ℤ) :
    recordedDeadline k (run (handle env) (expireKey k time) s) =
      if time ≤ env.later ∧ env.passive = false then none else some time := by
  change recordedDeadline k (run (handle env)
    (if time ≤ env.later ∧ env.passive = false then _ else _) s) = _
  by_cases hpast : time ≤ env.later ∧ env.passive = false
  · rw [if_pos hpast, if_pos hpast]
    have hgone : ((s.put k none).data.find k).bind Entry.expire = none := by
      rw [State.put, Dataset.find_set_self]
      rfl
    exact hgone
  · rw [if_neg hpast, if_neg hpast]
    exact expire_setExpire hfind time

/-- EXPIRE and PEXPIRE. -/
theorem deadline_expireGenericCommand
    (hparse : getLongLongFromObject text = some n) (hnow : 0 ≤ env.now)
    (hn : 0 < n)
    (haccepted : Accepted (run (handle env)
      (expireGenericCommand k text env.now unit) s).1) :
    recordedDeadline k (run (handle env)
        (expireGenericCommand k text env.now unit) s) =
          some (env.now + unit.exact n) ↔
      env.now + unit.exact n ≤ llongMax ∧
        (env.later < env.now + unit.exact n ∨ env.passive = true) := by
  rw [expireGenericCommand, withLong, hparse] at haccepted ⊢
  dsimp only at haccepted ⊢
  rw [lookupKeyRead, Prog.perform_bind, run_op] at haccepted ⊢
  cases hfound : found env s k with
  | none =>
    rw [found] at hfound
    rw [hfound] at haccepted
    exact absurd haccepted (by simp [addReply, Accepted, ok, cone,
      czero])
  | some value =>
    obtain ⟨expire, hfind⟩ := find_of_found hfound
    have hsame := lookedUp_of_found hfound
    rw [found] at hfound
    rw [lookedUp] at hsame
    rw [hfound, hsame]
    dsimp only
    rw [deadline_expireKey hfind, ← deadline_eq_iff unit hnow hn]
    constructor
    · intro h
      split_ifs at h with hpast
      have htime := Option.some.inj h
      rw [htime, not_and_or, not_le, Bool.not_eq_false] at hpast
      exact ⟨htime, hpast⟩
    · rintro ⟨htime, hlater⟩
      rw [htime, if_neg]
      rwa [not_and_or, not_le, Bool.not_eq_false]

theorem find_setKey (value : Value) (s : State) :
    (run (handle env) (setKey k value) s).2.data.find k =
      some ⟨value, none⟩ := by
  have hremove : ((((lookedUp env s k).store k value).removeExpire
      k).signalModifiedKey k).data.find k = some ⟨value, none⟩ := by
    change (((lookedUp env s k).store k value).removeExpire k).data.find k = _
    rw [State.removeExpire, State.put, Dataset.find_set_self, State.store,
      State.put, Dataset.find_set_self]
    rfl
  rw [setKey, lookupKeyWrite, Prog.perform_bind, run_op]
  cases (handle env (.lookup k) s).1 with
  | none => exact hremove
  | some _ => exact hremove

/-- SET and its variants. -/
theorem deadline_setGenericCommand {o : SetOptions} {val : Bytes}
    (ho : o.expire = some (text, unit))
    (hparse : getLongLongFromObject text = some n) (hnow : 0 ≤ env.now)
    (hn : 0 < n)
    (haccepted : Accepted (run (handle env)
      (setGenericCommand o k val ok .nullBulk) s).1) :
    recordedDeadline k (run (handle env)
        (setGenericCommand o k val ok .nullBulk) s) =
          some (env.now + unit.exact n) ↔
      env.now + unit.exact n ≤ llongMax := by
  have hms : expireMilliseconds o.expire = .ok (some (unit.scale n)) := by
    rw [ho, expireMilliseconds, hparse]
    exact if_neg (not_le.mpr hn)
  rw [setGenericCommand, hms] at haccepted ⊢
  dsimp only at haccepted ⊢
  rw [run_bind] at haccepted ⊢
  generalize run (handle env) (setRefused o k) s = refused at haccepted ⊢
  obtain ⟨refused, s'⟩ := refused
  cases refused with
  | true =>
    rw [if_pos rfl] at haccepted
    exact absurd haccepted (by simp [addReply, Accepted, ok, cone])
  | false =>
    rw [if_neg Bool.false_ne_true, run_bind]
    set s'' := (run (handle env) (setKey k (.string val)) s').2 with hs''
    have hfind : s''.data.find k = some ⟨.string val, none⟩ := find_setKey _ _
    have hset : recordedDeadline k (run (handle env) (do
        addDirty 1
        setExpireIn k (some (unit.scale n))
        notifyAll k (setEvents (some (unit.scale n)))
        addReply ok) s'') =
          some (toLongLong (env.now + unit.scale n)) :=
      expire_setExpire hfind _
    rw [hset, Option.some.injEq, Int.add_comm env.now (unit.scale n)]
    exact deadline_eq_iff unit hnow hn

theorem deadline_restoreKey {value : Value} {ttl : ℤ} {replace : Bool}
    (httl : ttl ≠ 0) :
    recordedDeadline k (run (handle env) (restoreKey k value ttl replace) s) =
      some (toLongLong (env.now + ttl)) := by
  cases replace with
  | false =>
    have hfind : (s.store k value).data.find k =
        some ⟨value, (s.data.find k).bind Entry.expire⟩ :=
      Dataset.find_set_self _ _ _
    rw [restoreKey, if_neg Bool.false_ne_true, if_pos httl]
    exact expire_setExpire hfind _
  | true =>
    have hfind : ((s.put k none).store k value).data.find k =
        some ⟨value, ((s.put k none).data.find k).bind Entry.expire⟩ :=
      Dataset.find_set_self _ _ _
    rw [restoreKey, if_pos rfl, if_pos httl]
    exact expire_setExpire hfind _

/-- RESTORE once it knows whether the key is there. -/
def restoreUnlessBusy (int : Internals) (c : Client) (argv : List Bytes)
    (replace busy : Bool) : Cmd Outcome :=
  if busy then addReply (errorReply "Target key name is busy.")
  else
    withLong (arg argv 2) fun ttl =>
      if ttl < 0 then addReply (errorReply "Invalid TTL value, must be >= 0")
      else
        match int.load (arg argv 3) with
        | .error r => addReply r
        | .ok value => restoreKey (keyArg c argv 1) value ttl replace

section Restore

variable {int : Internals} {c : Client} {argv : List Bytes}

theorem restoreCommand_eq {replace : Bool}
    (h : restoreReplace (argv.drop 4) = some replace) :
    restoreCommand int c argv =
      ((if replace then pure false
        else Option.isSome <$> lookupKeyWrite (keyArg c argv 1)) >>=
          restoreUnlessBusy int c argv replace) := by
  rw [restoreCommand, h]
  cases replace <;> rfl

theorem not_accepted_error {text : Bytes} : ¬ Accepted (.reply (.error text)) := by
  simp [Accepted, ok, cone]

/-- RESTORE; what is wrong with a payload is answered as an error. -/
theorem deadline_restoreCommand
    (hload : ∀ payload r, int.load payload = .error r → ¬ Accepted (.reply r))
    (hparse : getLongLongFromObject (arg argv 2) = some n)
    (hnow : 0 ≤ env.now) (hn : 0 < n)
    (haccepted : Accepted (run (handle env) (restoreCommand int c argv) s).1) :
    recordedDeadline (keyArg c argv 1)
        (run (handle env) (restoreCommand int c argv) s) =
          some (env.now + n) ↔
      env.now + n ≤ llongMax := by
  cases hreplace : restoreReplace (argv.drop 4) with
  | none =>
    rw [restoreCommand, hreplace] at haccepted
    exact absurd haccepted not_accepted_error
  | some replace =>
    rw [restoreCommand_eq hreplace, run_bind] at haccepted ⊢
    generalize run (handle env) _ s = busy at haccepted ⊢
    obtain ⟨busy, s'⟩ := busy
    cases busy with
    | true => exact absurd haccepted not_accepted_error
    | false =>
      rw [restoreUnlessBusy, if_neg Bool.false_ne_true, withLong, hparse]
        at haccepted ⊢
      dsimp only at haccepted ⊢
      rw [if_neg (by omega)] at haccepted ⊢
      cases hpayload : int.load (arg argv 3) with
      | error r =>
        rw [hpayload] at haccepted
        exact absurd haccepted (hload _ r hpayload)
      | ok value =>
        dsimp only
        rw [deadline_restoreKey (by omega), Option.some.injEq]
        exact toLongLong_eq_self_iff (by omega)

end Restore

section Blocking

variable {c : Client} {argv : List Bytes}

/-- The timeout a blocked client is given. -/
theorem deadline_blockForKeys {side : Side} {keys : List Bytes}
    {target : Option Bytes} (hnow : 0 ≤ env.now) (hn : 0 < n) :
    recordedDeadline k (run (handle env) (blockForKeys side keys target n) s) =
        some (env.now + n * 1000) ↔
      env.now + n * 1000 ≤ llongMax := by
  rw [blockForKeys, if_neg (by omega)]
  exact Option.some_inj.trans (deadline_eq_iff .seconds hnow hn)

/-- A pop that does not block answers its client. -/
theorem blockingPopLoop_answers {side : Side} {keys : List Bytes}
    {outcome : Outcome} (s : State)
    (h : (run (handle env) (blockingPopLoop c side keys) s).1 = some outcome) :
    ¬ Accepted outcome := by
  induction keys generalizing s with
  | nil => cases h
  | cons key keys ih =>
    rw [blockingPopLoop, lookupKeyWrite, Prog.perform_bind, run_op] at h
    generalize (handle env (.lookup (c.db, key)) s).1 = value at h
    cases value with
    | none => exact ih _ h
    | some value =>
      cases value with
      | list l =>
        dsimp only at h
        split at h
        · exact ih _ h
        · rw [run_map, run_applyChange] at h
          rw [← Option.some.inj h]
          simp [servedPop, Change.reply, Accepted, ok, cone]
      | _ =>
        rw [← Option.some.inj h]
        exact not_accepted_error

/-- `withTimeout` for a time that is positive. -/
theorem withTimeout_eq {f : ℤ → Cmd Outcome}
    (hparse : getLongLongFromObject text = some n) (hn : 0 < n) :
    withTimeout text f = f n := by
  rw [withTimeout, hparse]
  exact if_neg (by omega)

/-- BLPOP and BRPOP. -/
theorem deadline_blockingPopGenericCommand {side : Side}
    (hparse : getLongLongFromObject (arg argv (argv.length - 1)) = some n)
    (hnow : 0 ≤ env.now) (hn : 0 < n)
    (haccepted : Accepted (run (handle env)
      (blockingPopGenericCommand c argv side) s).1) :
    recordedDeadline k (run (handle env)
        (blockingPopGenericCommand c argv side) s) =
          some (env.now + n * 1000) ↔
      env.now + n * 1000 ≤ llongMax := by
  rw [blockingPopGenericCommand, withTimeout_eq hparse hn, run_bind]
    at haccepted ⊢
  cases hloop : (run (handle env)
      (blockingPopLoop c side argv.tail.dropLast) s).1 with
  | some outcome =>
    rw [hloop] at haccepted
    exact absurd haccepted (blockingPopLoop_answers s hloop)
  | none =>
    rw [hloop] at haccepted
    dsimp only at haccepted ⊢
    split_ifs at haccepted ⊢
    · exact absurd haccepted (by
        simp [addReply, Accepted, ok, cone])
    · exact deadline_blockForKeys hnow hn

theorem rpoplpush_answers {src dst : Key} {l : List Bytes} {value : Bytes}
    {target : Option (List Bytes)} (s : State) :
    (run (handle env) (rpoplpush src dst l value target) s).1 =
      .reply (.bulk value) := by
  rw [rpoplpush]
  split_ifs <;> simp only [run_bind, addReply, Prog.pure_eq, run_ret]

theorem rpoplpushGeneric_answers {src dst : Key} (s : State) :
    ¬ Accepted (run (handle env) (rpoplpushGeneric src dst) s).1 := by
  have hnull : ¬ Accepted (.reply .nullBulk) := by
    simp [Accepted, ok, cone]
  have hbulk : ∀ value, ¬ Accepted (.reply (.bulk value)) := by
    simp [Accepted, ok, cone]
  rw [rpoplpushGeneric, lookupKeyWrite, Prog.perform_bind, run_op]
  generalize (handle env (.lookup src) s).1 = source
  cases source with
  | none => exact hnull
  | some value =>
    cases value with
    | list l =>
      dsimp only
      split
      · exact hnull
      rw [lookupKeyWrite, Prog.perform_bind, run_op]
      generalize (handle env (.lookup dst) _).1 = target
      rcases target with _ | _ | _
      case none | some.list =>
        dsimp only
        rw [rpoplpush_answers]
        exact hbulk _
      all_goals exact not_accepted_error
    | _ => exact not_accepted_error

theorem deadline_brpoplpushCommand
    (hparse : getLongLongFromObject (arg argv 3) = some n)
    (hnow : 0 ≤ env.now) (hn : 0 < n)
    (haccepted : Accepted (run (handle env) (brpoplpushCommand c argv) s).1) :
    recordedDeadline k (run (handle env) (brpoplpushCommand c argv) s) =
          some (env.now + n * 1000) ↔
      env.now + n * 1000 ≤ llongMax := by
  rw [brpoplpushCommand, withTimeout_eq hparse hn, lookupKeyWrite,
    Prog.perform_bind, run_op] at haccepted ⊢
  generalize (handle env (.lookup (keyArg c argv 1)) s).1 = value
    at haccepted ⊢
  cases value with
  | none =>
    dsimp only at haccepted ⊢
    split_ifs at haccepted ⊢
    · exact absurd haccepted (by
        simp [addReply, Accepted, ok, cone])
    · exact deadline_blockForKeys hnow hn
  | some value =>
    cases value with
    | list _ => exact absurd haccepted (rpoplpushGeneric_answers _)
    | _ => exact absurd haccepted not_accepted_error

end Blocking

theorem timeout_eq_iff (hparse : getLongLongFromObject text = some n)
    (hnow : 0 ≤ env.now) (hn : 0 < n) :
    getTimeoutFromObjectOrReply env.now text unit =
        .ok (env.now + unit.exact n) ↔
      env.now + unit.exact n ≤ llongMax := by
  rw [getTimeoutFromObjectOrReply, hparse]
  dsimp only
  rw [if_neg (by omega), if_pos hn, Except.ok.injEq]
  exact deadline_eq_iff unit hnow hn

/-- A positive time is added to the current time exactly when the sum is a
number of 64 bits and, for EXPIRE, has not passed at its second look at the
clock: for the expires set by EXPIRE, SETEX, SET and RESTORE, for the timeouts
of clients blocked on lists, and for what `getTimeoutFromObjectOrReply` gives
WAIT. -/
theorem relative_time_exact_iff (int : Internals)
    (hload : ∀ payload r, int.load payload = .error r → ¬ Accepted (.reply r))
    (env : Env) (hnow : 0 ≤ env.now) (cmd : Timed) (c : Client)
    (argv : List Bytes) (s : State) {text : Bytes} {unit : TimeUnit} {n : ℤ}
    (htime : cmd.time argv = some (text, unit))
    (hparse : getLongLongFromObject text = some n) (hn : 0 < n) :
    (Accepted (run (handle env) (cmd.proc int c argv) s).1 →
      (recordedDeadline (keyArg c argv 1)
          (run (handle env) (cmd.proc int c argv) s) =
            some (env.now + unit.exact n) ↔
        env.now + unit.exact n ≤ llongMax ∧
          cmd.InTime env (env.now + unit.exact n))) ∧
      (getTimeoutFromObjectOrReply env.now text unit =
          .ok (env.now + unit.exact n) ↔
        env.now + unit.exact n ≤ llongMax) := by
  refine ⟨fun haccepted => ?_, timeout_eq_iff hparse hnow hn⟩
  cases cmd with
  | expire | pexpire =>
    cases htime
    exact deadline_expireGenericCommand hparse hnow hn haccepted
  | setex | psetex =>
    cases htime
    exact (deadline_setGenericCommand rfl hparse hnow hn haccepted).trans
      (iff_of_eq (and_true _).symm)
  | set =>
    obtain ⟨o, ho, hexpire⟩ := Option.bind_eq_some_iff.mp htime
    rw [Timed.proc, setCommand, ho] at haccepted ⊢
    exact (deadline_setGenericCommand hexpire hparse hnow hn haccepted).trans
      (iff_of_eq (and_true _).symm)
  | restore =>
    cases htime
    exact (deadline_restoreCommand hload hparse hnow hn haccepted).trans
      (iff_of_eq (and_true _).symm)
  | blpop | brpop =>
    cases htime
    exact (deadline_blockingPopGenericCommand hparse hnow hn haccepted).trans
      (iff_of_eq (and_true _).symm)
  | brpoplpush =>
    cases htime
    exact (deadline_brpoplpushCommand hparse hnow hn haccepted).trans
      (iff_of_eq (and_true _).symm)

/-- SETEX of ten seconds at second five. -/
theorem relative_time_exact_setex :
    recordedDeadline (0, ascii "k") (run (handle (Env.ofTime 5000))
      (setexCommand ⟨0, false⟩
        [ascii "SETEX", ascii "k", ascii "10", ascii "v"])
      (State.init fun _ => ∅)) = some 15000 :=
  ((relative_time_exact_iff someInternals
    (fun payload r h => by cases h; exact not_accepted_error)
    (Env.ofTime 5000) (by decide) .setex ⟨0, false⟩
    [ascii "SETEX", ascii "k", ascii "10", ascii "v"] (State.init fun _ => ∅)
    (n := 10) rfl (by decide) (by decide)).1 (Or.inl rfl)).mpr
      ⟨by decide, trivial⟩

/-- EXPIRE of 9223372036854776 seconds: the product is 192 above the largest
number of 63 bits, so the time to live is taken for one in the past and the key
is deleted. -/
theorem expire_far_future_deletes :
    getLongLongFromObject (ascii "9223372036854776") =
        some 9223372036854776 ∧
      (let after := run (handle (Env.ofTime 5000)) (expireCommand ⟨0, false⟩
          [ascii "EXPIRE", ascii "k", ascii "9223372036854776"])
        (State.init (Dataset.set (fun _ => ∅) (0, ascii "k")
          (some ⟨.string (ascii "v"), none⟩)))
      Accepted after.1 ∧ after.2.data.find (0, ascii "k") = none) := by
  refine ⟨by decide, Or.inr rfl, ?_⟩
  decide

end Runs

end RedisV8.Commands
