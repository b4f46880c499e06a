import RedisV8.Skiplist.Towers

/-!
# Searching a skiplist

The searches differ in the test that moves them forward and in the distance
they add up.  What they have in common is stated here once, for a test that
keeps an invariant of the position and never jumps a fence: a tower at which
the search stopped on a higher level.
-/

namespace RedisV8.Skiplist

open Reach List Nat

variable {S M A : Type} {b i : ℕ} {l r : List (Tower S M)} {crossed : A}

/-- What a search needs of its test: `inv` holds at each position it stands
on, and `fenced l crossed b` says that from `l` the test lets the search come
near tower number `b` but not onto it. -/
structure SearchRule (ts : List (Tower S M))
    (go : A → BitVec 32 → Node S M → Bool) (add : A → BitVec 32 → A) where
  inv : List (Tower S M) → A → Prop
  fenced : List (Tower S M) → A → ℕ → Prop
  inv_jump : ∀ l s f r crossed (node : Node S M), ts = l ++ (s ++ f :: r) →
    node.elem = some f.elem → inv l crossed →
    go crossed (BitVec.ofNat 32 (s.length + 1)) node = true →
    inv (l ++ (s ++ [f])) (add crossed (BitVec.ofNat 32 (s.length + 1)))
  fenced_stop : ∀ l s f r crossed (node : Node S M), ts = l ++ (s ++ f :: r) →
    node.elem = some f.elem → inv l crossed →
    go crossed (BitVec.ofNat 32 (s.length + 1)) node = false →
    fenced l crossed (l.length + s.length + 1)
  fenced_jump : ∀ l s f r crossed (node : Node S M) b,
    ts = l ++ (s ++ f :: r) → node.elem = some f.elem → inv l crossed →
    go crossed (BitVec.ofNat 32 (s.length + 1)) node = true →
    fenced l crossed b → l.length + s.length + 1 ≤ b →
    l.length + s.length + 1 < b ∧
      fenced (l ++ (s ++ [f])) (add crossed (BitVec.ofNat 32 (s.length + 1))) b

/-- The fence in front of a search that stands at `l`: position `b` is past
the end, or a tower of more than `i` levels that `fenced` guards. -/
structure Fence {ts : List (Tower S M)}
    {go : A → BitVec 32 → Node S M → Bool} {add : A → BitVec 32 → A}
    (rule : SearchRule ts go add) (i : ℕ) (l : List (Tower S M)) (crossed : A)
    (b : ℕ) : Prop where
  lt : l.length < b
  tower : b = ts.length + 1 ∨
    (rule.fenced l crossed b ∧ ∃ t, ts[b - 1]? = some t ∧ i < t.height)

variable {ts : List (Tower S M)} {go : A → BitVec 32 → Node S M → Bool}
  {add : A → BitVec 32 → A} {zsl : Zskiplist S M}

/-- No tower of more than `i` levels stands between `l` and the fence `b`. -/
def LowUntil (ts : List (Tower S M)) (i : ℕ) (l : List (Tower S M)) (b : ℕ) :
    Prop :=
  ∀ j t, l.length ≤ j → j + 1 < b → ts[j]? = some t → t.height ≤ i

theorem lowUntil_of_split {s : List (Tower S M)} (hts : ts = l ++ (s ++ r))
    (hlow : ∀ t ∈ s, tall i t = false) (hb : b ≤ l.length + s.length + 1) :
    LowUntil ts i l b := by
  intro j t hlj hjb htj
  have hj : j - l.length < s.length := by omega
  rw [hts, getElem?_append_right hlj, getElem?_append_left hj] at htj
  exact tall_eq_false_iff.mp (hlow t (mem_of_getElem? htj))

/-- A fence stands beyond the towers that are too low to be one. -/
theorem Fence.le_of_lowUntil {rule : SearchRule ts go add} {c : ℕ}
    (hfence : Fence rule i l crossed b) (hlow : LowUntil ts i l c)
    (hc : c ≤ ts.length + 1) : c ≤ b := by
  by_contra hlt
  have hbc : b < c := Nat.lt_of_not_le hlt
  have hpos := hfence.lt
  cases hfence.tower with
  | inl hend => omega
  | inr hguard =>
    obtain ⟨_, t, ht, hheight⟩ := hguard
    have hle := hlow (b - 1) t (by omega) (by omega) ht
    omega

theorem Fence.jump {rule : SearchRule ts go add} {s : List (Tower S M)}
    {f : Tower S M} {node : Node S M} (hfence : Fence rule i l crossed b)
    (hts : ts = l ++ (s ++ f :: r)) (helem : node.elem = some f.elem)
    (hinv : rule.inv l crossed)
    (hgo : go crossed (BitVec.ofNat 32 (s.length + 1)) node = true)
    (hb : l.length + s.length + 1 ≤ b) :
    Fence rule i (l ++ (s ++ [f]))
      (add crossed (BitVec.ofNat 32 (s.length + 1))) b := by
  have hlength : (l ++ (s ++ [f])).length = l.length + s.length + 1 := by
    simp [add_assoc]
  cases hfence.tower with
  | inl hend =>
    refine ⟨?_, Or.inl hend⟩
    rw [hlength, hend, hts]
    simp
  | inr hguard =>
    obtain ⟨hlt, hfenced⟩ :=
      rule.fenced_jump l s f r crossed node b hts helem hinv hgo hguard.1 hb
    exact ⟨by rw [hlength]; exact hlt, Or.inr ⟨hfenced, hguard.2⟩⟩

/-- One walk: it ends at a position of level `i` right before a new fence. -/
theorem walk_spec (h : Represents zsl ts) (rule : SearchRule ts go add)
    (hi : i < zsl.level) (fuel : ℕ) (l r : List (Tower S M)) (crossed : A)
    (hts : ts = l ++ r) (hfuel : r.length < fuel) (hstands : StandsOn i l)
    (hinv : rule.inv l crossed) (hfence : Fence rule i l crossed b) :
    ∃ m r' crossed' b', r = m ++ r' ∧
      walk zsl.heap go add i fuel (here l) crossed =
        some (here (l ++ m), crossed') ∧
      StandsOn i (l ++ m) ∧ rule.inv (l ++ m) crossed' ∧ b' ≤ b ∧
      Fence rule i (l ++ m) crossed' b' ∧ LowUntil ts i (l ++ m) b' := by
  induction fuel generalizing l r crossed with
  | zero => exact absurd hfuel (not_lt_zero _)
  | succ fuel ih =>
    have hlevel := h.levelAt_here hts hstands hi
    rw [walk, hlevel]
    cases reach_cases (tall i) r with
    | inl hnone =>
      -- nothing of this height is left: the old fence is the end
      obtain ⟨hfind, hreach, hlow⟩ := hnone
      have hlow' : LowUntil ts i l (ts.length + 1) := by
        apply lowUntil_of_split (r := []) (s := r)
          (by rw [append_nil]; exact hts) hlow
        rw [hts, length_append]
      have hb : ts.length + 1 ≤ b := hfence.le_of_lowUntil hlow' le_rfl
      refine ⟨[], r, crossed, ts.length + 1, rfl, ?_, ?_, ?_, hb, ?_, ?_⟩
      · simp [link, hfind]
      · simpa using hstands
      · simpa using hinv
      · refine ⟨?_, Or.inl rfl⟩
        rw [append_nil, hts, length_append]
        omega
      · simpa using hlow'
    | inr hsome =>
      obtain ⟨s, f, t, hr, hlow, htall, hfind, hreach⟩ := hsome
      have hts' : ts = l ++ (s ++ f :: t) := by rw [hts, hr]
      have hnode := h.node (l ++ s) f t (by
        rw [hts', append_assoc])
      have hb : l.length + s.length + 1 ≤ b := by
        apply hfence.le_of_lowUntil (lowUntil_of_split hts' hlow le_rfl)
        rw [hts', length_append, length_append]
        omega
      simp only [link, hfind, hreach, Option.map_some, Option.bind_eq_bind,
        Option.bind_some, hnode]
      have helem : (render ((l ++ s).getLast?.map Tower.addr) f t).elem =
        some f.elem := rfl
      cases hgo : go crossed (BitVec.ofNat 32 (s.length + 1))
          (render ((l ++ s).getLast?.map Tower.addr) f t) with
      | true =>
        have hstep := rule.inv_jump l s f t crossed _ hts' helem hinv hgo
        have hnext : Fence rule i (l ++ (s ++ [f]))
            (add crossed (BitVec.ofNat 32 (s.length + 1))) b :=
          hfence.jump hts' helem hinv hgo hb
        obtain ⟨m, r', crossed', b', ht, hwalk, hrest⟩ :=
          ih (l ++ (s ++ [f])) t _ (by rw [hts']; simp)
            (by rw [hr] at hfuel; simp at hfuel; omega)
            (by
              rw [← append_assoc, standsOn_concat]
              exact tall_iff.mp htall)
            hstep hnext
        refine ⟨s ++ [f] ++ m, r', crossed', b', ?_, ?_, ?_⟩
        · rw [hr, ht]
          simp
        · rw [← append_assoc, here_concat] at hwalk
          rw [if_pos rfl, hwalk]
          simp
        · rw [append_assoc] at hrest
          exact hrest
      | false =>
        refine ⟨[], r, crossed, l.length + s.length + 1, rfl, ?_, ?_, ?_,
          hb, ?_, ?_⟩
        · simp
        · simpa using hstands
        · simpa using hinv
        · have hguard :=
            rule.fenced_stop l s f t crossed _ hts' helem hinv hgo
          refine ⟨by rw [append_nil]; omega, Or.inr ⟨by simpa using hguard, f, ?_,
            tall_iff.mp htall⟩⟩
          rw [hts']
          simp
        · simpa using lowUntil_of_split hts' hlow le_rfl

/-- The tower at address `x` is the last one of `left` that has level `i`. -/
structure OnPath (i : ℕ) (left l : List (Tower S M)) (x : ℕ) : Prop where
  addr : x = here l
  stands : StandsOn i l
  low : ∃ m, left = l ++ m ∧ ∀ t ∈ m, t.height ≤ i

/-- Entry `i` of the path is the last tower of `left` with level `i`. -/
structure IsPath (inv : List (Tower S M) → A → Prop) (n : ℕ)
    (left : List (Tower S M)) (path : List (ℕ × A)) : Prop where
  length : path.length = n
  entry : ∀ i < n, ∃ l x crossed, path[i]? = some (x, crossed) ∧
    OnPath i left l x ∧ inv l crossed

/-- What a search leaves behind when it ends after the towers `left`. -/
structure Found (rule : SearchRule ts go add) (n : ℕ)
    (left : List (Tower S M)) (path : List (ℕ × A)) : Prop
    extends IsPath rule.inv n left path where
  bottom : 0 < n → ∃ crossed, path.head? = some (here left, crossed) ∧
    rule.inv left crossed ∧
    (ts.length = left.length ∨ rule.fenced left crossed (left.length + 1))

theorem Fence.mono {rule : SearchRule ts go add} {j : ℕ} (hij : i ≤ j)
    (h : Fence rule j l crossed b) : Fence rule i l crossed b := by
  refine ⟨h.lt, h.tower.imp_right ?_⟩
  rintro ⟨hfenced, t, ht, hheight⟩
  exact ⟨hfenced, t, ht, lt_of_le_of_lt hij hheight⟩

/-- Below the fence of a level only towers without that level were passed. -/
theorem OnPath.of_lowUntil {m : List (Tower S M)} (hts : ts = l ++ m ++ r)
    (hstands : StandsOn i l) (hlow : LowUntil ts i l b)
    (hlt : (l ++ m).length < b) : OnPath i (l ++ m) l (here l) := by
  refine ⟨rfl, hstands, m, rfl, ?_⟩
  intro t ht
  obtain ⟨j, hj, htj⟩ := getElem_of_mem ht
  apply hlow (l.length + j) t (le_add_right _ _)
  · rw [length_append] at hlt
    omega
  · rw [hts, append_assoc, getElem?_append_right (by omega),
      Nat.add_sub_cancel_left, getElem?_append_left hj,
      getElem?_eq_getElem hj, htj]

/-- On the bottom level a walk stops right before its fence. -/
theorem Fence.bottom {rule : SearchRule ts go add} (h : Represents zsl ts)
    (hts : ts = l ++ r) (hfence : Fence rule 0 l crossed b)
    (hlow : LowUntil ts 0 l b) :
    ts.length = l.length ∨ rule.fenced l crossed (l.length + 1) := by
  cases r with
  | nil =>
    left
    rw [hts, append_nil]
  | cons t r =>
    right
    have hat : ts[l.length]? = some t := by
      rw [hts, getElem?_append_right le_rfl, Nat.sub_self]
      rfl
    have hpos := h.height_pos t (by rw [hts]; simp)
    have hb : b = l.length + 1 := by
      by_contra hne
      have hlt := hfence.lt
      have hle := hlow l.length t le_rfl (by omega) hat
      omega
    cases hfence.tower with
    | inl hend =>
      rw [hts] at hend
      simp at hend
      omega
    | inr hguard => exact hb ▸ hguard.1

theorem descend_spec (h : Represents zsl ts) (rule : SearchRule ts go add)
    (fuel : ℕ) (hfuel : ts.length < fuel) (n : ℕ) (hn : n ≤ zsl.level)
    (l r : List (Tower S M)) (crossed : A) (b : ℕ) (hts : ts = l ++ r)
    (hstands : StandsOn (n - 1) l) (hinv : rule.inv l crossed)
    (hfence : Fence rule n l crossed b) :
    ∃ m right path, r = m ++ right ∧ (l ++ m).length < b ∧
      descend zsl.heap go add fuel n (here l) crossed = some path ∧
      Found rule n (l ++ m) path := by
  induction n generalizing l r crossed b with
  | zero =>
    refine ⟨[], r, [], rfl, by simpa using hfence.lt, rfl, ⟨rfl, ?_⟩, ?_⟩
    · exact fun i hi => absurd hi (Nat.not_lt_zero i)
    · exact fun hlt => absurd hlt (lt_irrefl 0)
  | succ i ih =>
    obtain ⟨m, r', crossed', b', hr, hwalk, hstands', hinv', hb', hfence',
      hlow⟩ := walk_spec h rule hn fuel l r crossed hts
        (by
          rw [hts, length_append] at hfuel
          omega)
        hstands hinv (hfence.mono (Nat.le_succ i))
    have hts' : ts = l ++ m ++ r' := by rw [hts, hr, append_assoc]
    obtain ⟨m', right, below, hr', hlt, hdescend, hfound⟩ :=
      ih (Nat.le_of_succ_le hn) (l ++ m) r' crossed' b' hts'
        (hstands'.mono (Nat.sub_le i 1)) hinv' hfence'
    refine ⟨m ++ m', right, below ++ [(here (l ++ m), crossed')], ?_, ?_, ?_,
      ?_⟩
    · rw [hr, hr', append_assoc]
    · rw [← append_assoc]
      exact hlt.trans_le hb'
    · simp [descend, hwalk, hdescend]
    rw [← append_assoc]
    have honPath : OnPath i (l ++ m ++ m') (l ++ m) (here (l ++ m)) :=
      OnPath.of_lowUntil (by rw [hts', hr', ← append_assoc]) hstands'
        hlow hlt
    refine ⟨⟨by simp [hfound.length], ?_⟩, ?_⟩
    · intro j hj
      cases Nat.lt_succ_iff_lt_or_eq.mp hj with
      | inl hlt =>
        rw [getElem?_append_left (by rw [hfound.length]; exact hlt)]
        exact hfound.entry j hlt
      | inr heq =>
        subst heq
        refine ⟨l ++ m, here (l ++ m), crossed', ?_, honPath, hinv'⟩
        rw [← hfound.length, getElem?_concat_length]
    intro _
    cases i with
    | zero =>
      have hbelow : below = [] :=
        length_eq_zero_iff.mp hfound.length
      have hm' : m' = [] := by
        obtain ⟨m₀, hm₀, hlow₀⟩ := honPath.low
        obtain rfl := append_cancel_left hm₀
        apply eq_nil_iff_forall_not_mem.mpr
        intro t ht
        have hpos := h.height_pos t (by rw [hts', hr']; simp [ht])
        exact absurd (hlow₀ t ht) (Nat.not_le.mpr hpos)
      subst hbelow hm'
      refine ⟨crossed', by simp, by simpa using hinv', ?_⟩
      rw [append_nil]
      exact hfence'.bottom h hts' hlow
    | succ i =>
      obtain ⟨c, hhead, hrest⟩ := hfound.bottom (Nat.succ_pos i)
      refine ⟨c, ?_, hrest⟩
      rw [head?_append, hhead, Option.some_or]

theorem search_spec (h : Represents zsl ts) (rule : SearchRule ts go add)
    {start : A} (hinv : rule.inv [] start) :
    ∃ left right path, ts = left ++ right ∧
      search zsl go add start = some path ∧
      Found rule zsl.level left path := by
  have hfence : Fence rule zsl.level [] start (ts.length + 1) :=
    ⟨succ_pos _, Or.inl rfl⟩
  have hfuel : ts.length < zsl.length + 1 := by
    rw [h.length]
    exact lt_succ_self _
  obtain ⟨m, right, path, hts, _, hdescend, hfound⟩ :=
    descend_spec h rule (zsl.length + 1) hfuel zsl.level le_rfl [] ts start _
      rfl (standsOn_nil _) hinv hfence
  exact ⟨m, right, path, hts, hdescend, hfound⟩

/-! ## The two kinds of test -/

/-- A test of the element alone, met by the elements up to some place. -/
def elemRule (ts : List (Tower S M)) (pred : S × M → Bool)
    (hmono : ts.Pairwise fun a b => pred b.elem = true → pred a.elem = true)
    (go : A → BitVec 32 → Node S M → Bool) (add : A → BitVec 32 → A)
    (measure : ℕ → A)
    (hgo : ∀ crossed span (node : Node S M) e, node.elem = some e →
      go crossed span node = pred e)
    (hadd : ∀ a d, add (measure a) (BitVec.ofNat 32 d) = measure (a + d)) :
    SearchRule ts go add where
  inv l crossed := crossed = measure l.length ∧ ∀ t ∈ l, pred t.elem = true
  fenced _ _ b := ∃ t, ts[b - 1]? = some t ∧ pred t.elem = false
  inv_jump l s f r crossed node hts helem hinv hjump := by
    rw [hgo crossed _ node f.elem helem] at hjump
    have hbefore : ∀ t ∈ l ++ s, pred t.elem = true := by
      intro t ht
      rw [hts, ← append_assoc] at hmono
      exact (pairwise_append.mp hmono).2.2 t ht f mem_cons_self hjump
    refine ⟨?_, ?_⟩
    · rw [hinv.1, hadd]
      simp
    intro t ht
    rw [← append_assoc] at ht
    cases mem_append.mp ht with
    | inl hmem => exact hbefore t hmem
    | inr hmem => exact mem_singleton.mp hmem ▸ hjump
  fenced_stop l s f r crossed node hts helem _ hstop := by
    rw [hgo crossed _ node f.elem helem] at hstop
    refine ⟨f, ?_, hstop⟩
    rw [hts]
    simp
  fenced_jump l s f r crossed node b hts helem _ hjump hfenced hb := by
    rw [hgo crossed _ node f.elem helem] at hjump
    refine ⟨lt_of_le_of_ne hb ?_, hfenced⟩
    rintro rfl
    obtain ⟨t, ht, hpred⟩ := hfenced
    have hf : ts[l.length + s.length + 1 - 1]? = some f := by
      rw [hts]
      simp
    obtain rfl := Option.some.inj (ht.symm.trans hf)
    exact absurd hjump (by rw [hpred]; decide)

variable (go add) in
/-- Such a search ends between the elements that meet the test and those that
do not. -/
theorem elem_search (pred : S × M → Bool) (h : Represents zsl ts)
    (hmono : ts.Pairwise fun a b => pred b.elem = true → pred a.elem = true)
    (measure : ℕ → A)
    (hgo : ∀ crossed span (node : Node S M) e, node.elem = some e →
      go crossed span node = pred e)
    (hadd : ∀ a d, add (measure a) (BitVec.ofNat 32 d) = measure (a + d)) :
    ∃ left right path, ts = left ++ right ∧
      search zsl go add (measure 0) = some path ∧
      IsPath (fun l crossed => crossed = measure l.length) zsl.level left
        path ∧
      path.head? = some (here left, measure left.length) ∧
      (∀ t ∈ left, pred t.elem = true) ∧ ∀ t ∈ right, pred t.elem = false := by
  have hinv : (elemRule ts pred hmono go add measure hgo hadd).inv []
      (measure 0) := ⟨rfl, by simp⟩
  obtain ⟨left, right, path, hts, hsearch, hfound⟩ := search_spec h _ hinv
  obtain ⟨crossed, hhead, ⟨rfl, hleft⟩, hstop⟩ := hfound.bottom h.level.pos
  refine ⟨left, right, path, hts, hsearch, ⟨hfound.length, ?_⟩, hhead, hleft, ?_⟩
  · intro i hi
    obtain ⟨l, x, crossed, hentry, hon, hinv⟩ := hfound.entry i hi
    exact ⟨l, x, crossed, hentry, hon, hinv.1⟩
  cases right with
  | nil => simp
  | cons f r =>
    have hf : pred f.elem = false := by
      cases hstop with
      | inl hend =>
        rw [hts] at hend
        simp at hend
      | inr hfenced =>
        obtain ⟨t, ht, hpred⟩ := hfenced
        rw [hts] at ht
        simp at ht
        rwa [ht]
    intro t ht
    cases mem_cons.mp ht with
    | inl heq => rwa [heq]
    | inr hmem =>
      rw [hts] at hmono
      have hcons := (pairwise_append.mp hmono).2.1
      by_contra hne
      have htrue := rel_of_pairwise_cons hcons hmem
        (Bool.eq_true_of_not_eq_false hne)
      exact absurd htrue (by rw [hf]; decide)

/-- The pieces of a distance, each taken modulo `w`, are together at least
the whole distance modulo `w`. -/
theorem add_mod_le (a b w : ℕ) : (a + b) % w ≤ a % w + b % w := by
  rw [add_mod]
  exact mod_le _ _

/-- The test of `zslDeleteRangeByRank`.  A span is only known modulo `2 ^ 32`,
so the distance crossed can fall short of the position. -/
def rankRule (ts : List (Tower S M)) (start : ℕ) :
    SearchRule ts
      (fun crossed span (_ : Node S M) =>
        decide (crossed + span.toNat < start))
      (fun crossed span => crossed + span.toNat) where
  inv l crossed := ts.length < 2 ^ 32 →
    crossed = l.length ∧ (l = [] ∨ l.length < start)
  fenced l crossed b := l.length < b ∧ start ≤ crossed + (b - l.length) % 2 ^ 32
  inv_jump l s f r crossed node hts helem hinv hjump := by
    intro hlt
    obtain ⟨hcrossed, _⟩ := hinv hlt
    have hspan : (s.length + 1) % 2 ^ 32 = s.length + 1 := by
      apply mod_eq_of_lt
      rw [hts] at hlt
      simp at hlt
      omega
    simp only [BitVec.toNat_ofNat, hspan, decide_eq_true_eq] at hjump ⊢
    simp only [length_append, length_singleton]
    omega
  fenced_stop l s f r crossed node hts helem _ hstop := by
    simp only [BitVec.toNat_ofNat, decide_eq_false_iff_not, not_lt] at hstop
    refine ⟨by omega, ?_⟩
    rwa [Nat.add_assoc, Nat.add_sub_cancel_left]
  fenced_jump l s f r crossed node b hts helem _ hjump hfenced hb := by
    obtain ⟨hlt, hstart⟩ := hfenced
    simp only [BitVec.toNat_ofNat, decide_eq_true_eq] at hjump ⊢
    have hsplit : b - l.length =
        (s.length + 1) + (b - (l.length + s.length + 1)) := by omega
    have hmod := add_mod_le (s.length + 1) (b - (l.length + s.length + 1)) (2 ^ 32)
    rw [← hsplit] at hmod
    have hne : b ≠ l.length + s.length + 1 := by
      rintro rfl
      simp only [Nat.sub_self, Nat.zero_mod] at hmod
      omega
    have hlength : (l ++ (s ++ [f])).length = l.length + s.length + 1 := by
      simp [Nat.add_assoc]
    rw [hlength]
    exact ⟨by omega, by omega, by omega⟩

end RedisV8.Skiplist
