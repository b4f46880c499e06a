import Mathlib.Data.Set.Basic
import Mathlib.Tactic.Tauto

/-!
# Postconditions of computations that can fail

`Returns allowed x post` says that `x` fails only with an error in `allowed`
and that its result satisfies `post`.  With every error allowed it is partial
correctness, with none it says that there is a result.
-/

namespace RedisV8.Outcomes

open List

variable {ε α β : Type} {allowed allowed' : Set ε} {post post' : α → Prop}
  {a : α} {x : Except ε α}

def Returns (allowed : Set ε) (x : Except ε α) (post : α → Prop) : Prop :=
  match x with
  | .ok a => post a
  | .error e => e ∈ allowed

namespace Returns

theorem pure (h : post a) : Returns allowed (Pure.pure a) post := h

theorem ok (h : post a) : Returns allowed (Except.ok a) post := h

theorem mono (hx : Returns allowed x post) (hallowed : allowed ⊆ allowed')
    (hpost : ∀ a, post a → post' a) : Returns allowed' x post' := by
  cases x with
  | error e => exact hallowed hx
  | ok a => exact hpost a hx

theorem imp (hx : Returns allowed x post) (hpost : ∀ a, post a → post' a) :
    Returns allowed x post' :=
  hx.mono subset_rfl hpost

theorem weaken (hx : Returns ∅ x post) : Returns allowed x post :=
  hx.mono (Set.empty_subset allowed) fun _ h => h

theorem and (hx : Returns allowed x post) (hx' : Returns Set.univ x post') :
    Returns allowed x fun a => post a ∧ post' a := by
  cases x with
  | error e => exact hx
  | ok a => exact ⟨hx, hx'⟩

theorem bind {f : α → Except ε β} {mid : α → Prop} {post : β → Prop}
    (hx : Returns allowed x mid)
    (hf : ∀ a, mid a → Returns allowed (f a) post) :
    Returns allowed (x >>= f) post := by
  cases x with
  | error e => exact hx
  | ok a => exact hf a hx

theorem ok_bind {f : α → Except ε β} {post : β → Prop}
    (h : Returns allowed (f a) post) :
    Returns allowed (Except.ok a >>= f) post := h

/-- The loop rule. -/
theorem foldlM {σ : Type} {f : σ → α → Except ε σ} {inv : σ → Prop}
    {l : List α} {s : σ} (hs : inv s)
    (hstep : ∀ s, inv s → ∀ a ∈ l, Returns allowed (f s a) inv) :
    Returns allowed (l.foldlM f s) inv := by
  induction l generalizing s with
  | nil => exact pure hs
  | cons a l ih =>
    rw [foldlM_cons]
    refine bind (hstep s hs a mem_cons_self) fun s' hs' => ?_
    exact ih hs' fun t ht b hb => hstep t ht b (mem_cons_of_mem a hb)

/-- The loop rule where each round establishes what later rounds keep. -/
theorem foldlM_forall {σ : Type} {f : σ → α → Except ε σ} {inv : σ → Prop}
    {done : α → σ → Prop} {l : List α} {s : σ} (hs : inv s)
    (hstep : ∀ s, inv s → ∀ a ∈ l, Returns allowed (f s a) fun s' =>
      inv s' ∧ done a s' ∧ ∀ b, done b s → done b s') :
    Returns allowed (l.foldlM f s) fun s' => inv s' ∧ ∀ a ∈ l, done a s' := by
  suffices h : ∀ past : List α, (∀ b ∈ past, done b s) →
      Returns allowed (l.foldlM f s) fun s' =>
        inv s' ∧ ∀ a, a ∈ past ∨ a ∈ l → done a s' by
    exact (h [] (by simp)).imp fun s' h' =>
      ⟨h'.1, fun a ha => h'.2 a (.inr ha)⟩
  induction l generalizing s with
  | nil =>
    intro past hpast
    exact pure ⟨hs, by simpa using hpast⟩
  | cons a l ih =>
    intro past hpast
    rw [foldlM_cons]
    refine bind (hstep s hs a mem_cons_self) fun s' hs' => ?_
    have hnext := ih hs'.1
      (fun t ht b hb => hstep t ht b (mem_cons_of_mem a hb))
      (a :: past) fun b hb => by
        rcases mem_cons.mp hb with rfl | hb
        · exact hs'.2.1
        · exact hs'.2.2 b (hpast b hb)
    refine hnext.imp fun t ht => ⟨ht.1, fun b hb => ht.2 b ?_⟩
    simp only [mem_cons] at hb ⊢
    tauto

theorem of_eq_ok (hx : Returns allowed x post) (h : x = .ok a) : post a := by
  subst h
  exact hx

theorem exists_ok (hx : Returns ∅ x post) : ∃ a, x = .ok a ∧ post a := by
  cases x with
  | error e => exact absurd hx (Set.notMem_empty e)
  | ok a => exact ⟨a, rfl, hx⟩

end Returns

end RedisV8.Outcomes
