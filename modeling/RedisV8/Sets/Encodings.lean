import RedisV8.Sets.Commands
import RedisV8.Sets.IntsetRefine

/-!
# Sets of strings

Both encodings of a set stand for a finite set of strings.  An integer set
stands for the decimal texts of its integers, and `string2ll` accepts exactly
those texts, so that no string is taken for another one.
-/

namespace RedisV8.Sets

open Util Server AssocMap List Encoding
open RedisV8.Lists (encodedArg)

/-- The dictionary of the members of a set. -/
def indicator (s : Finset Bytes) : Bytes → Option Unit :=
  fun member => if member ∈ s then some () else none

def SetObj.Holds : SetObj → Finset Bytes → Prop
  | .intset is, s =>
    ∃ vs, is.Holds vs ∧ Small vs ∧ s = (vs.map llText).toFinset
  | .ht dict, s => Lists (dict.readBack id) (indicator s)

/-- The key is there exactly when the set has a member. -/
def Stored.Holds : Stored → Finset Bytes → Prop
  | .absent, s => s = ∅
  | .set o, s => o.Holds s ∧ s ≠ ∅
  | .otherType, _ => False

/-- The sets of a keyspace. -/
def Db.Holds (db : Db) (sets : Bytes → Finset Bytes) : Prop :=
  ∀ key, (db key).Holds (sets key)

/-- `set-max-intset-entries` is so small that the size of an integer set fits
a `uint32_t`. -/
def Env.Small (env : Env) : Prop := (env.setMaxIntsetEntries + 1) * 8 < 2 ^ 32

section Texts

variable {v w : ℤ}

theorem representable_eq (o : StringObj) :
    isObjectRepresentableAsLongLong o = string2ll (getDecodedObject o) := by
  cases o with
  | raw s => rfl
  | int value =>
    have hbounds := toInt_bounds value
    rw [getDecodedObject_int, string2ll_llText hbounds.1 hbounds.2]
    rfl

theorem fits_iff_llong :
    int64.Fits v ↔ llongMin ≤ v ∧ v ≤ llongMax := by
  simp only [Encoding.Fits, size, llongMin, llongMax]
  omega

theorem fits_of_string2ll {s : Bytes} (hparse : string2ll s = some v) :
    int64.Fits v :=
  fits_iff_llong.2 (string2ll_sound hparse).2

theorem llText_inj (hv : int64.Fits v) (hw : int64.Fits w)
    (heq : llText v = llText w) : v = w := by
  rw [fits_iff_llong] at hv hw
  exact llText_injective hv.1 hv.2 hw.1 hw.2 heq

/-- The texts of integers are the strings that read as one of them. -/
theorem mem_texts_iff {vs : List ℤ} (hvs : ∀ w ∈ vs, int64.Fits w)
    {s : Bytes} : s ∈ (vs.map llText).toFinset ↔ ∃ v ∈ vs, string2ll s = v := by
  rw [mem_toFinset, mem_map]
  constructor
  · rintro ⟨v, hv, rfl⟩
    have hbounds := fits_iff_llong.1 (hvs v hv)
    exact ⟨v, hv, string2ll_llText hbounds.1 hbounds.2⟩
  · rintro ⟨v, hv, hparse⟩
    exact ⟨v, hv, (string2ll_sound hparse).1.symm⟩

theorem nodup_texts {vs : List ℤ} (hvs : ∀ w ∈ vs, int64.Fits w)
    (hsorted : vs.Pairwise (· < ·)) : (vs.map llText).Nodup := by
  refine List.Nodup.map_on ?_ (hsorted.imp fun h => h.ne)
  intro v hv w hw heq
  exact llText_inj (hvs v hv) (hvs w hw) heq

theorem Intset.Holds.fits_int64 {is : Intset} {vs : List ℤ}
    (hholds : is.Holds vs) : ∀ v ∈ vs, int64.Fits v :=
  fun v hv => RedisV8.Sets.fits_int64 (hholds.fits v hv)

end Texts

section Indicators

variable {s : Finset Bytes} {member : Bytes}

theorem isSome_indicator : (indicator s member).isSome = decide (member ∈ s) := by
  rw [indicator]
  split <;> simp_all

theorem indicator_eq_none_iff : indicator s member = none ↔ member ∉ s := by
  rw [indicator]
  split <;> simp_all

theorem indicator_insert :
    Function.update (indicator s) member (some ()) =
      indicator (insert member s) := by
  funext other
  by_cases heq : other = member <;> simp [indicator, heq]

theorem indicator_erase :
    Function.update (indicator s) member none = indicator (s.erase member) := by
  funext other
  by_cases heq : other = member <;> simp [indicator, heq]

end Indicators

/-! ## Iteration and conversion -/

section Iteration

variable {is : Intset} {vs : List ℤ}

theorem intsetIterate_eq (hholds : is.Holds vs) (hlt : vs.length < 2 ^ 31)
    {fuel ii : ℕ} (hfuel : vs.length - ii < fuel) (hii : ii ≤ vs.length) :
    intsetIterate is fuel ii = some (vs.drop ii) := by
  induction fuel generalizing ii with
  | zero => omega
  | succ fuel ih =>
    rw [intsetIterate, intsetGet, hholds.length_eq]
    by_cases hlast : ii < vs.length
    · rw [if_pos hlast, hholds.getAt hlt hlast, Option.map_some, some_bind]
      dsimp only
      rw [ih (by omega) hlast, some_bind,
        ← drop_eq_getElem_cons hlast]
    · rw [if_neg hlast, drop_eq_nil_of_le (not_lt.1 hlast)]
      rfl

theorem setTypeIterate_intset (hholds : is.Holds vs) (hlt : vs.length < 2 ^ 31) :
    setTypeIterate (.intset is) =
      some (vs.map createStringObjectFromLongLong) := by
  rw [setTypeIterate, intsetIterate_eq hholds hlt (by rw [hholds.length_eq]; omega)
    (Nat.zero_le _)]
  rfl

theorem map_createString (hvs : ∀ v ∈ vs, int64.Fits v) :
    (vs.map createStringObjectFromLongLong).map getDecodedObject =
      vs.map llText := by
  rw [map_map]
  exact map_congr_left fun v hv =>
    getDecodedObject_fromLongLong (fits_iff_llong.1 (hvs v hv))

theorem setTypeConvert_spec (hholds : is.Holds vs) (hlt : vs.length < 2 ^ 31) :
    ∃ dict, setTypeConvert is = some (.ht dict) ∧
      (SetObj.ht dict).Holds (vs.map llText).toFinset := by
  have htexts := map_createString hholds.fits_int64
  have hnodup := nodup_texts hholds.fits_int64 hholds.sorted
  rw [← htexts] at hnodup ⊢
  generalize hmembers : vs.map createStringObjectFromLongLong = members
    at hnodup ⊢
  have hfold := ObjDict.foldlM_dictAdd (·, ()) members [] (by
    simpa [Function.comp_def] using hnodup)
  rw [append_nil] at hfold
  refine ⟨(members.map (·, ())).reverse, ?_, ?_, ?_⟩
  · rw [setTypeConvert, setTypeIterate_intset hholds hlt, hmembers, some_bind]
    exact congrArg (·.bind fun dict => some (SetObj.ht dict)) hfold
  · simpa [ObjDict.readBack, Function.comp_def] using hnodup
  · simp [ObjDict.readBack, indicator]

end Iteration

/-! ## The set API -/

section Api

variable {o : SetObj} {s : Finset Bytes}

theorem setTypeIterate_spec (ho : o.Holds s) :
    ∃ members, setTypeIterate o = some members ∧
      (members.map getDecodedObject).Nodup ∧
      (members.map getDecodedObject).toFinset = s := by
  cases o with
  | intset is =>
    obtain ⟨vs, hholds, hsmall, rfl⟩ := ho
    have hlt := hsmall.lt
    refine ⟨_, setTypeIterate_intset hholds (by omega), ?_, ?_⟩
    · rw [map_createString hholds.fits_int64]
      exact nodup_texts hholds.fits_int64 hholds.sorted
    · rw [map_createString hholds.fits_int64]
  | ht dict =>
    have hkeys : (dict.map Prod.fst).map getDecodedObject =
        (dict.readBack id).map Prod.fst := by
      simp [ObjDict.readBack]
    refine ⟨_, rfl, ?_, ?_⟩
    · rw [hkeys]
      exact ho.nodup
    · ext member
      rw [hkeys, mem_toFinset, Lists.key_mem_iff ho, isSome_indicator,
        decide_eq_true_iff]

theorem setTypeSize_eq (ho : o.Holds s) : setTypeSize o = s.card := by
  obtain ⟨members, hiterate, hnodup, rfl⟩ := setTypeIterate_spec ho
  rw [toFinset_card_of_nodup hnodup, length_map]
  cases o with
  | intset is =>
    obtain ⟨vs, hholds, hsmall, -⟩ := ho
    have hlt := hsmall.lt
    rw [setTypeIterate_intset hholds (by omega), Option.some.injEq] at hiterate
    rw [setTypeSize, intsetLen, hholds.length_eq, ← hiterate, length_map]
  | ht dict =>
    rw [setTypeIterate, Option.some.injEq] at hiterate
    rw [setTypeSize, ← hiterate, length_map]

theorem setTypeIsMember_eq (ho : o.Holds s) (value : StringObj) :
    setTypeIsMember o value = some (decide (getDecodedObject value ∈ s)) := by
  cases o with
  | ht dict =>
    have hfind := ObjDict.dictFind_eq ho value
    rw [setTypeIsMember, ← isSome_indicator, ← hfind, Option.map_id, id]
  | intset is =>
    obtain ⟨vs, hholds, hsmall, rfl⟩ := ho
    rw [setTypeIsMember, representable_eq]
    have hmem := @mem_texts_iff vs hholds.fits_int64 (getDecodedObject value)
    cases hparse : string2ll (getDecodedObject value) with
    | none => simp [hmem, hparse]
    | some v =>
      dsimp only
      rw [intsetFind_eq hholds hsmall (fits_of_string2ll hparse)]
      simp [hmem, hparse]

theorem setTypeCreate_holds (value : StringObj) :
    (setTypeCreate value).Holds ∅ := by
  rw [setTypeCreate]
  cases isObjectRepresentableAsLongLong value with
  | some v => exact ⟨[], holds_intsetNew, by rw [Small]; decide, rfl⟩
  | none => exact lists_nil

/-- The texts of a set to which one integer was added. -/
theorem texts_cons {vs vs' : List ℤ} {v : ℤ} (hperm : vs'.Perm (v :: vs)) :
    (vs'.map llText).toFinset = insert (llText v) (vs.map llText).toFinset := by
  rw [toFinset_eq_of_perm _ _ (hperm.map llText), map_cons, toFinset_cons]

/-- `setTypeAdd` adds the member, and tells whether it is new. -/
theorem setTypeAdd_spec (ho : o.Holds s) {env : Env} (henv : env.Small)
    (value : StringObj) :
    ∃ o', setTypeAdd env o value =
        some (o', decide (getDecodedObject value ∉ s)) ∧
      o'.Holds (insert (getDecodedObject value) s) := by
  cases o with
  | ht dict =>
    rw [setTypeAdd]
    by_cases hmem : getDecodedObject value ∈ s
    · have hfound : indicator s (getDecodedObject value) = some () :=
        if_pos hmem
      rw [ObjDict.dictAdd_of_some ho hfound, decide_eq_false (not_not.2 hmem),
        Finset.insert_eq_of_mem hmem]
      exact ⟨_, rfl, ho⟩
    obtain ⟨hadd, hdict⟩ :=
      ObjDict.dictAdd_of_none ho (indicator_eq_none_iff.2 hmem) ()
    rw [id, indicator_insert] at hdict
    rw [hadd, decide_eq_true hmem]
    exact ⟨_, rfl, hdict⟩
  | intset is =>
    obtain ⟨vs, hholds, hsmall, rfl⟩ := ho
    have hlt := hsmall.lt
    rw [setTypeAdd, representable_eq]
    cases hparse : string2ll (getDecodedObject value) with
    | none =>
      obtain ⟨dict, hconvert, hdict⟩ :=
        setTypeConvert_spec hholds (by omega)
      have hout : getDecodedObject value ∉ (vs.map llText).toFinset := by
        simp [mem_texts_iff hholds.fits_int64, hparse]
      obtain ⟨hadd, hdict'⟩ :=
        ObjDict.dictAdd_of_none hdict (indicator_eq_none_iff.2 hout) ()
      rw [id, indicator_insert] at hdict'
      refine ⟨.ht ((value, ()) :: dict), ?_, hdict'⟩
      simp only [hconvert, hadd, some_bind]
      rw [decide_eq_true hout]
    | some v =>
      have hfits := fits_of_string2ll hparse
      have htext := (string2ll_sound hparse).1
      obtain ⟨is', vs', hadd, hholds', hvs'⟩ :=
        intsetAdd_spec hholds hsmall env.fresh hfits
      have hmem : getDecodedObject value ∈ (vs.map llText).toFinset ↔
          v ∈ vs := by
        simp [mem_texts_iff hholds.fits_int64, hparse]
      simp only [hadd, some_bind, hmem]
      by_cases hin : v ∈ vs
      · rw [if_pos hin] at hvs'
        subst hvs'
        rw [decide_eq_false (not_not.2 hin), Bool.false_and,
          Finset.insert_eq_of_mem (hmem.2 hin)]
        exact ⟨_, rfl, vs', hholds', hsmall, rfl⟩
      rw [if_neg hin] at hvs'
      have hlength : vs'.length = vs.length + 1 := hvs'.length_eq
      have hinsert : insert (getDecodedObject value)
          (vs.map llText).toFinset = (vs'.map llText).toFinset := by
        rw [texts_cons hvs', htext]
      rw [decide_eq_true hin, Bool.true_and, intsetLen,
        hholds'.length_eq, hinsert]
      split
      · obtain ⟨dict, hconvert, hdict⟩ :=
          setTypeConvert_spec hholds' (by omega)
        rw [hconvert]
        exact ⟨_, rfl, hdict⟩
      rename_i hfew
      rw [decide_eq_true_eq, not_lt] at hfew
      refine ⟨_, rfl, vs', hholds', ?_, rfl⟩
      rw [Env.Small] at henv
      rw [Small]
      omega

/-- `setTypeRemove` removes the member, and tells whether it was there. -/
theorem setTypeRemove_spec (ho : o.Holds s) (env : Env) (value : StringObj) :
    ∃ o', setTypeRemove env o value =
        some (o', decide (getDecodedObject value ∈ s)) ∧
      o'.Holds (s.erase (getDecodedObject value)) := by
  cases o with
  | ht dict =>
    have hdelete := ObjDict.dictDelete_spec ho value
    rw [setTypeRemove]
    cases hresult : dict.dictDelete value with
    | none =>
      rw [hresult] at hdelete
      have hout := indicator_eq_none_iff.1 hdelete
      rw [decide_eq_false hout, Finset.erase_eq_of_notMem hout]
      exact ⟨_, rfl, ho⟩
    | some dict' =>
      rw [hresult] at hdelete
      dsimp only at hdelete
      rw [indicator_erase, isSome_indicator, decide_eq_true_iff] at hdelete
      rw [decide_eq_true hdelete.1]
      exact ⟨_, rfl, hdelete.2⟩
  | intset is =>
    obtain ⟨vs, hholds, hsmall, rfl⟩ := ho
    rw [setTypeRemove, representable_eq]
    cases hparse : string2ll (getDecodedObject value) with
    | none =>
      have hout : getDecodedObject value ∉ (vs.map llText).toFinset := by
        simp [mem_texts_iff hholds.fits_int64, hparse]
      rw [decide_eq_false hout, Finset.erase_eq_of_notMem hout]
      exact ⟨_, rfl, vs, hholds, hsmall, rfl⟩
    | some v =>
      have hfits := fits_of_string2ll hparse
      have htext := (string2ll_sound hparse).1
      obtain ⟨is', vs', hremove, hholds', hvs'⟩ :=
        intsetRemove_spec hholds hsmall env.fresh hfits
      have hmem : getDecodedObject value ∈ (vs.map llText).toFinset ↔
          v ∈ vs := by
        simp [mem_texts_iff hholds.fits_int64, hparse]
      simp only [hremove, some_bind, hmem]
      refine ⟨_, rfl, vs', hholds', ?_, ?_⟩
      · have hle : vs'.length ≤ vs.length := by
          split at hvs'
          · have hlength := hvs'.length_eq
            rw [length_cons] at hlength
            omega
          · rw [hvs']
        rw [Small] at hsmall ⊢
        omega
      split at hvs'
      · have hnodup := nodup_texts hholds.fits_int64 hholds.sorted
        rw [(hvs'.map llText).nodup_iff, map_cons, nodup_cons] at hnodup
        rw [texts_cons hvs', htext, Finset.erase_insert]
        rw [mem_toFinset]
        exact hnodup.1
      · rename_i hout
        rw [hvs', Finset.erase_eq_of_notMem (fun h => hout (hmem.1 h))]

/-- A member drawn at random is a member. -/
theorem setTypeRandomElement_spec (ho : o.Holds s) (hs : s ≠ ∅) (env : Env) :
    ∃ ele, setTypeRandomElement env o = some ele ∧ getDecodedObject ele ∈ s := by
  obtain ⟨members, hiterate, -, rfl⟩ := setTypeIterate_spec ho
  have hne : members ≠ [] := by
    rintro rfl
    exact hs rfl
  have hpos : 0 < members.length := length_pos_iff.2 hne
  have hmember : ∀ i, (hi : i < members.length) →
      getDecodedObject members[i] ∈ (members.map getDecodedObject).toFinset :=
    fun i hi => mem_toFinset.2 (mem_map_of_mem (getElem_mem hi))
  have hlt := Nat.mod_lt env.rand hpos
  refine ⟨members[env.rand % members.length], ?_, hmember _ hlt⟩
  cases o with
  | intset is =>
    obtain ⟨vs, hholds, hsmall, -⟩ := ho
    have hsize := hsmall.lt
    rw [setTypeIterate_intset hholds (by omega), Option.some.injEq] at hiterate
    subst hiterate
    rw [length_map] at hlt
    simp only [setTypeRandomElement, intsetRandom, hholds.length_eq,
      length_map, hholds.getAt (by omega : vs.length < 2 ^ 31) hlt,
      Option.map_some, getElem_map]
  | ht dict =>
    rw [setTypeIterate, Option.some.injEq] at hiterate
    subst hiterate
    rw [length_map] at hlt
    simp only [setTypeRandomElement, length_map,
      List.getElem?_eq_getElem hlt, Option.map_some, getElem_map]

end Api

end RedisV8.Sets
