import Mathlib.Tactic.TypeStar

/-!
# Programs that issue operations

A program is a tree: it ends with a result, or issues an operation and goes on
with the answer.  A handler runs it on a state.  What holds of a run is said by
pre- and postconditions, and follows from what the operations preserve.
-/

namespace RedisV8.Effects

/-- Programs over the operations `E`, where `R e` is the type of the answers
to `e`. -/
inductive Prog (E : Type) (R : E → Type) (α : Type) where
  | ret (a : α)
  | op (e : E) (next : R e → Prog E R α)

namespace Prog

variable {E : Type} {R : E → Type} {α β : Type}

def bind : Prog E R α → (α → Prog E R β) → Prog E R β
  | ret a, f => f a
  | op e next, f => op e fun r => (next r).bind f

instance : Monad (Prog E R) where
  pure := ret
  bind := bind

/-- A single operation. -/
def perform (e : E) : Prog E R (R e) := op e ret

@[simp]
theorem pure_eq (a : α) : (Pure.pure a : Prog E R α) = ret a := rfl

@[simp]
theorem ret_bind (a : α) (f : α → Prog E R β) : ret a >>= f = f a := rfl

@[simp]
theorem op_bind (e : E) (next : R e → Prog E R α) (f : α → Prog E R β) :
    op e next >>= f = op e fun r => next r >>= f := rfl

@[simp]
theorem perform_bind (e : E) (f : R e → Prog E R β) :
    perform e >>= f = op e f := rfl

end Prog

open Prog

variable {E : Type} {R : E → Type} {α β : Type} {σ : Type*}

/-! ## Running -/

/-- How operations are answered, and what they do to a state. -/
abbrev Handler (E : Type) (R : E → Type) (σ : Type*) :=
  (e : E) → σ → R e × σ

def run (h : Handler E R σ) : Prog E R α → σ → α × σ
  | .ret a, s => (a, s)
  | .op e next, s => run h (next (h e s).1) (h e s).2

@[simp]
theorem run_ret (h : Handler E R σ) (a : α) (s : σ) :
    run h (.ret a) s = (a, s) := rfl

@[simp]
theorem run_op (h : Handler E R σ) (e : E) (next : R e → Prog E R α)
    (s : σ) : run h (.op e next) s = run h (next (h e s).1) (h e s).2 := rfl

theorem run_bind (h : Handler E R σ) (p : Prog E R α) (f : α → Prog E R β)
    (s : σ) : run h (p >>= f) s = run h (f (run h p s).1) (run h p s).2 := by
  induction p generalizing s with
  | ret a => rfl
  | op e next ih => exact ih _ _

theorem run_map (h : Handler E R σ) (p : Prog E R α) (f : α → β) (s : σ) :
    run h (f <$> p) s = (f (run h p s).1, (run h p s).2) :=
  run_bind h p (fun a => .ret (f a)) s

/-! ## Pre- and postconditions -/

section Triples

variable {h : Handler E R σ} {P : σ → Prop} {Q : α → σ → Prop}

/-- From a state that satisfies `P` the program comes to a result and a state
that satisfy `Q`. -/
def Triple (h : Handler E R σ) (P : σ → Prop) (p : Prog E R α)
    (Q : α → σ → Prop) : Prop :=
  ∀ s, P s → Q (run h p s).1 (run h p s).2

/-- Sequencing. -/
theorem Triple.bind {p : Prog E R α} {f : α → Prog E R β} {M : α → σ → Prop}
    {Q : β → σ → Prop} (hp : Triple h P p M)
    (hf : ∀ a, Triple h (M a) (f a) Q) : Triple h P (p >>= f) Q := by
  intro s hs
  rw [run_bind]
  exact hf _ _ (hp s hs)

theorem Triple.map {p : Prog E R α} {f : α → β} {Q : β → σ → Prop}
    (hp : Triple h P p fun a => Q (f a)) : Triple h P (f <$> p) Q := by
  intro s hs
  rw [run_map]
  exact hp s hs

end Triples

/-! ## The operations of a program -/

section Issued

variable {P : E → Prop}

/-- Every operation that the program may issue satisfies `P`, whatever the
answers are. -/
def Issues (P : E → Prop) : Prog E R α → Prop
  | .ret _ => True
  | .op e next => P e ∧ ∀ r, Issues P (next r)

theorem Issues.perform {e : E} (he : P e) :
    Issues P (Prog.perform e : Prog E R (R e)) := ⟨he, fun _ => trivial⟩

theorem Issues.bind {p : Prog E R α} {f : α → Prog E R β} (hp : Issues P p)
    (hf : ∀ a, Issues P (f a)) : Issues P (p >>= f) := by
  induction p with
  | ret a => exact hf a
  | op e next ih => exact ⟨hp.1, fun r => ih r (hp.2 r)⟩

theorem Issues.map {p : Prog E R α} (hp : Issues P p) (f : α → β) :
    Issues P (f <$> p) :=
  hp.bind fun _ => trivial

theorem Issues.mono {P' : E → Prop} {p : Prog E R α} (hp : Issues P p)
    (h : ∀ e, P e → P' e) : Issues P' p := by
  induction p with
  | ret a => trivial
  | op e next ih => exact ⟨h e hp.1, fun r => ih r (hp.2 r)⟩

/-- What the allowed operations preserve holds after a run. -/
theorem Issues.triple {h : Handler E R σ} {I : σ → Prop}
    (hstep : ∀ e s, P e → I s → I (h e s).2) {p : Prog E R α}
    (hp : Issues P p) : Triple h I p fun _ => I := by
  induction p with
  | ret a => exact fun _ hs => hs
  | op e next ih => exact fun s hs => ih _ (hp.2 _) _ (hstep e s hp.1 hs)

end Issued

end RedisV8.Effects
