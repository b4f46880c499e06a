import Mathlib

/-!
# Parsers that are fed piece by piece

A parser looks at what has arrived so far and finds one item, finds an error,
or asks for more.  It is stable when more input never changes an answer it has
given.  The items of a whole stream are then the same however the stream is
cut, which is what a reader that keeps its place between pieces has to match.
-/

namespace RedisV8.Streaming

variable {τ ε α β : Type*}

/-- The outcome of looking for one item; `rest` is the input after it. -/
inductive Parse (τ ε α : Type*) where
  | incomplete
  | error (reason : ε)
  | done (item : α) (rest : List τ)

namespace Parse

def bind (r : Parse τ ε α) (f : α → List τ → Parse τ ε β) : Parse τ ε β :=
  match r with
  | incomplete => incomplete
  | error reason => error reason
  | done item rest => f item rest

def map (f : α → β) (r : Parse τ ε α) : Parse τ ε β :=
  r.bind fun item rest => done (f item) rest

/-- The outcome once `more` has arrived, if it is decided already. -/
def extend (r : Parse τ ε α) (more : List τ) : Parse τ ε α :=
  r.bind fun item rest => done item (rest ++ more)

@[simp]
theorem map_done (f : α → β) (item : α) (rest : List τ) :
    (done item rest : Parse τ ε α).map f = done (f item) rest := rfl

end Parse

open Parse

section Stable

/-- More input changes nothing about a decided outcome. -/
def Stable (p : List τ → Parse τ ε α) : Prop :=
  ∀ s more, p s ≠ incomplete → p (s ++ more) = (p s).extend more

/-- An item takes at least one token. -/
def Consuming (p : List τ → Parse τ ε α) : Prop :=
  ∀ s item rest, p s = done item rest → rest.length < s.length

theorem Stable.bind {p : List τ → Parse τ ε α}
    {q : α → List τ → Parse τ ε β} (hp : Stable p) (hq : ∀ a, Stable (q a)) :
    Stable fun s => (p s).bind q := by
  intro s more hdecided
  dsimp only at hdecided ⊢
  cases hs : p s with
  | incomplete => exact absurd (by rw [hs]; rfl) hdecided
  | error reason =>
    rw [hp s more (by rw [hs]; exact fun h => by cases h), hs]
    rfl
  | done item rest =>
    rw [hs] at hdecided
    rw [hp s more (by rw [hs]; exact fun h => by cases h), hs]
    exact hq item rest more hdecided

theorem Stable.of_done {p : List τ → Parse τ ε α} (hp : Stable p)
    {s rest : List τ} {item : α} (hs : p s = done item rest)
    (more : List τ) : p (s ++ more) = done item (rest ++ more) := by
  rw [hp s more (by rw [hs]; exact fun h => by cases h), hs]
  rfl

theorem Stable.of_error {p : List τ → Parse τ ε α} (hp : Stable p)
    {s : List τ} {reason : ε} (hs : p s = error reason) (more : List τ) :
    p (s ++ more) = error reason := by
  rw [hp s more (by rw [hs]; exact fun h => by cases h), hs]
  rfl

end Stable

section Items

variable (p : List τ → Parse τ ε α) (last : α → Bool)

/-- The items of a stream, one after the other, up to an error or to an item
after which nothing is read. -/
def readLoop : ℕ → List τ → List (Except ε α)
  | 0, _ => []
  | fuel + 1, s =>
    match p s with
    | incomplete => []
    | error reason => [.error reason]
    | done item rest =>
      .ok item :: if last item then [] else readLoop fuel rest

def readAll (s : List τ) : List (Except ε α) := readLoop p last (s.length + 1) s

/-- The items of a stream whose first item is read by another parser, one that
has seen a part of it before. -/
def readFrom (first : List τ → Parse τ ε α) (s : List τ) :
    List (Except ε α) :=
  match first s with
  | incomplete => []
  | error reason => [.error reason]
  | done item rest => .ok item :: if last item then [] else readAll p last rest

variable {p last}

theorem readLoop_fuel (hp : Consuming p) {fuel fuel' : ℕ} {s : List τ}
    (hfuel : s.length < fuel) (hfuel' : s.length < fuel') :
    readLoop p last fuel s = readLoop p last fuel' s := by
  induction fuel generalizing fuel' s with
  | zero => cases hfuel
  | succ fuel ih =>
    obtain _ | fuel' := fuel'
    · cases hfuel'
    rw [readLoop, readLoop]
    cases hs : p s with
    | incomplete => rfl
    | error reason => rfl
    | done item rest =>
      have hrest := hp s item rest hs
      dsimp only
      rw [ih (show rest.length < fuel by omega)
        (show rest.length < fuel' by omega)]

theorem readAll_eq_readFrom (hp : Consuming p) (s : List τ) :
    readAll p last s = readFrom p last p s := by
  rw [readAll, readLoop, readFrom]
  cases hs : p s with
  | incomplete => rfl
  | error reason => rfl
  | done item rest =>
    have hrest := hp s item rest hs
    dsimp only
    rw [readAll, readLoop_fuel hp (by omega) (Nat.lt_succ_self _)]

theorem readFrom_of_done {first : List τ → Parse τ ε α} {s rest : List τ}
    {item : α} (hs : first s = done item rest) :
    readFrom p last first s =
      .ok item :: if last item then [] else readAll p last rest := by
  rw [readFrom, hs]

theorem readFrom_of_error {first : List τ → Parse τ ε α} {s : List τ}
    {reason : ε} (hs : first s = error reason) :
    readFrom p last first s = [.error reason] := by
  rw [readFrom, hs]

theorem readFrom_of_incomplete {first : List τ → Parse τ ε α} {s : List τ}
    (hs : first s = incomplete) : readFrom p last first s = [] := by
  rw [readFrom, hs]

theorem readFrom_congr {first first' : List τ → Parse τ ε α} {s s' : List τ}
    (hs : first s = first' s') :
    readFrom p last first s = readFrom p last first' s' := by
  rw [readFrom, readFrom, hs]

end Items

end RedisV8.Streaming
