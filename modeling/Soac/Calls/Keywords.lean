import Soac.Calls.Ownership

/-!
# Keywords and the parameters that take them

A name of the compiler is compared with the name of a keyword in two ways: as a string object, or as UTF-8 text. On names
with a UTF-8 text both find the parameter of Python's rules.
-/

namespace Soac.Calls

open Fallible Option PyStr

/-! ## Strings -/

theorem PyStr.utf8?_ofString (s : String) : (ofString s).utf8? = some s := by
  rw [utf8?, map_eq_some_iff]
  refine ⟨s.toList, mapM_eq_some_iff.mpr ?_, String.ofList_toList⟩
  refine List.forall₂_map_left_iff.mpr (List.forall₂_same.mpr fun c _ => ?_)
  exact (if_pos c.valid).trans (congrArg some (Char.ofNat_toNat c))

theorem PyStr.ofString_of_utf8? {s : PyStr} {t : String} (h : s.utf8? = some t) : ofString t = s := by
  obtain ⟨chars, hchars, rfl⟩ := map_eq_some_iff.mp h
  rw [ofString, String.toList_ofList, ← List.map_id s]
  refine map_eq_of_forall₂ (fun c d hd => ?_) (mapM_eq_some_iff.mp hchars)
  split at hd
  · next hvalid =>
    cases hd
    refine Fin.ext ?_
    unfold Char.ofNat
    rw [dif_pos hvalid]
    rfl
  · cases hd

/-! ## Who takes a keyword -/

section

variable (f : Function) {strings : Strings} {kw : Keyword}

/-- The parameter that takes a keyword. -/
def taker (strings : Strings) (kw : Keyword) : Option Nat :=
  f.signature.params.findIdx? fun p => Function.Takes strings p kw

variable {i : Nat} {native : Native} {p : Param} {q : Param}

theorem index_eq_of_name_eq {sig : Signature} {j : Nat} (hi : sig.params[i]? = some p)
    (hj : sig.params[j]? = some q) (h : p.name = q.name) : i = j := by
  have hi' : (sig.params.map (·.name))[i]? = some p.name := by rw [List.getElem?_map, hi]; rfl
  have hj' : (sig.params.map (·.name))[j]? = some p.name := by rw [List.getElem?_map, hj, h]; rfl
  exact (List.getElem?_inj (List.getElem?_eq_some_iff.mp hi').1 sig.names_nodup).mp (hi'.trans hj'.symm)

theorem name_eq_of_takes (hp : Function.Takes strings p kw) (hq : Function.Takes strings q kw) : p.name = q.name := by
  have h := congrArg utf8? (Option.some.inj (hp.2.symm.trans hq.2))
  rw [utf8?_ofString, utf8?_ofString] at h
  exact Option.some.inj h

theorem taker_eq_some_iff :
    taker f strings kw = some i ↔ ∃ p, f.signature.params[i]? = some p ∧ Function.Takes strings p kw :=
  findIdx?_iff_of_unique fun hi hj hp hq => index_eq_of_name_eq hi hj (name_eq_of_takes hp hq)

theorem taker_eq_none_iff : taker f strings kw = none ↔ ∀ p ∈ f.signature.params, ¬Function.Takes strings p kw := by
  rw [taker, List.findIdx?_eq_none_iff]
  constructor
  · intro h p hp
    exact of_decide_eq_false (h p hp)
  · intro h p hp
    exact decide_eq_false (h p hp)

theorem name_of_getElem? (h : f.signature.params[i]? = some p) : f.signature.name i = p.name := by
  rw [Signature.name, h]
  rfl

theorem takes_of_mem (hi : i ∈ keywordParameterIndices f)
    (h : strings.content kw.key = some (ofString (f.signature.name i))) : taker f strings kw = some i := by
  obtain ⟨p, hp, hkind⟩ := (mem_keywordParameterIndices f).mp hi
  rw [name_of_getElem? f hp] at h
  exact (taker_eq_some_iff f).mpr ⟨p, hp, hkind, h⟩

theorem matchKeyword_eq (hnative : ∀ key, native.compares key) :
    matchKeyword f strings native kw.key = .ok (taker f strings kw) := by
  unfold matchKeyword
  split
  · next i hi =>
    have hmem := List.mem_of_find?_eq_some hi
    have hkey : kw.key = strings.intern (f.signature.name i) := by simpa using List.find?_some hi
    rw [takes_of_mem f hmem (by rw [hkey, strings.content_intern])]
  · rw [if_pos (hnative _)]
    congr 1
    cases htaker : taker f strings kw with
    | none =>
      rw [List.find?_eq_none]
      intro i hi h
      rw [takes_of_mem f hi (of_decide_eq_true h)] at htaker
      cases htaker
    | some i =>
      obtain ⟨p, hp, htakes⟩ := (taker_eq_some_iff f).mp htaker
      have hmem := (mem_keywordParameterIndices f).mpr ⟨p, hp, htakes.1⟩
      have hname : strings.content kw.key = some (ofString (f.signature.name i)) := by
        rw [name_of_getElem? f hp]
        exact htakes.2
      cases hfind : (keywordParameterIndices f).find? fun i =>
          strings.content kw.key = some (ofString (f.signature.name i)) with
      | none => exact absurd (decide_eq_true hname) (List.find?_eq_none.mp hfind i hmem)
      | some j =>
        have hj : strings.content kw.key = some (ofString (f.signature.name j)) := by
          simpa using List.find?_some hfind
        rw [← htaker, takes_of_mem f (List.mem_of_find?_eq_some hfind) hj]

/-! ## One keyword -/

/-- What one keyword does, in both binders: it goes to the parameter that takes it, or into the dictionary. -/
structure KeywordStep (strings : Strings) (step : Out → RawKeyword → Except Failure Out) (kw : Keyword) : Prop where
  bound : ∀ o i, taker f strings kw = some i → o.isAssigned i = false →
    step o ⟨kw.key, some kw.value⟩ = .ok (o.writeBorrowed i kw.value)
  twice : ∀ o i, taker f strings kw = some i → o.isAssigned i = true → ∃ e, step o ⟨kw.key, some kw.value⟩ = .error e
  inserted : ∀ o i, taker f strings kw = none → f.signature.kwargIndex = some i →
    step o ⟨kw.key, some kw.value⟩ = .ok (o.dictSet i kw)
  unexpected : ∀ o, taker f strings kw = none → f.signature.kwargIndex = none →
    ∃ e, step o ⟨kw.key, some kw.value⟩ = .error e

theorem insertVarkw_eq (hnative : native.Works) (i : Nat) (o : Out) :
    insertVarkw native i kw o = .ok (o.dictSet i kw) := by
  rw [insertVarkw, if_pos (hnative.2.2.2.2.1 _)]

theorem bindKeyword_step (hnative : native.Works) (keywords : List RawKeyword)
    (hnamed : (strings.content kw.key).isSome) : KeywordStep f strings (bindKeyword f strings native keywords) kw := by
  have hmatch : matchKeyword f strings native kw.key = .ok (taker f strings kw) := matchKeyword_eq f hnative.2.2.2.1
  have hstring : ¬(strings.content kw.key).isNone := by
    rw [isNone_iff_eq_none]
    intro hnone
    rw [hnone] at hnamed
    cases hnamed
  constructor
  · intro o i htaker hfree
    simp only [bindKeyword, if_neg hstring, hmatch, htaker, hfree]
    rfl
  · intro o i htaker hassigned
    simp only [bindKeyword, if_neg hstring, hmatch, htaker, hassigned]
    exact ⟨_, rfl⟩
  · intro o i htaker hkwarg
    simp only [bindKeyword, if_neg hstring, hmatch, htaker, hkwarg]
    exact insertVarkw_eq hnative i o
  · intro o htaker hkwarg
    simp only [bindKeyword, if_neg hstring, hmatch, htaker, hkwarg]
    split <;> exact ⟨_, rfl⟩

theorem kind_of_getElem? (h : f.signature.params[i]? = some p) : f.signature.kind i = p.kind := by
  rw [Signature.kind, h]
  rfl

variable {name : String}

/-- The parameter of a name, whether or not it can be named. -/
theorem paramIndex_eq_some_iff : paramIndex f name = some i ↔ ∃ p, f.signature.params[i]? = some p ∧ p.name = name :=
  findIdx?_iff_of_unique fun hi hj hp hq => index_eq_of_name_eq hi hj (hp.trans hq.symm)

/-- A keyword with a UTF-8 text is taken by the parameter of that name, if it can be named. -/
theorem taker_of_utf8? {key : PyStr} (hkey : strings.content kw.key = some key) (hname : key.utf8? = some name) :
    taker f strings kw = (paramIndex f name).filter fun i => keywordKind (f.signature.kind i) := by
  have htakes : ∀ p : Param, Function.Takes strings p kw ↔ keywordKind p.kind ∧ p.name = name := by
    intro p
    rw [Function.Takes, hkey, ← ofString_of_utf8? hname]
    refine and_congr_right fun _ => ⟨fun h => ?_, fun h => by rw [h]⟩
    have h := congrArg utf8? (Option.some.inj h)
    rw [utf8?_ofString, utf8?_ofString] at h
    exact (Option.some.inj h).symm
  ext i
  rw [filter_eq_some_iff, taker_eq_some_iff, paramIndex_eq_some_iff]
  constructor
  · rintro ⟨p, hp, h⟩
    obtain ⟨hkind, hpname⟩ := (htakes p).mp h
    refine ⟨⟨p, hp, hpname⟩, ?_⟩
    rw [kind_of_getElem? f hp]
    exact hkind
  · rintro ⟨⟨p, hp, hpname⟩, hkind⟩
    rw [kind_of_getElem? f hp] at hkind
    exact ⟨p, hp, (htakes p).mpr ⟨hkind, hpname⟩⟩

theorem bindEntryKeyword_step (hnative : native.Works) {key : PyStr}
    (hkey : strings.content kw.key = some key) (hname : key.utf8? = some name) :
    KeywordStep f strings (bindEntryKeyword f strings native) kw := by
  have htaker := taker_of_utf8? f hkey hname
  -- A parameter of that name that cannot be named is passed over, as if there were none.
  have hnone : taker f strings kw = none → ∀ o, bindEntryKeyword f strings native o ⟨kw.key, some kw.value⟩ =
      unnamedKeyword f native kw o := by
    intro h o
    rw [htaker] at h
    simp only [bindEntryKeyword, hkey, hname]
    cases hindex : paramIndex f name with
    | none => rfl
    | some i =>
      rw [hindex, filter_some, ite_eq_right_iff] at h
      dsimp only
      cases hkind : f.signature.kind i with
      | posOnly | varArg | kwArg => rfl
      | any | kwOnly => exact absurd (h (by rw [hkind]; rfl)) (some_ne_none i)
  have hsome : ∀ i, taker f strings kw = some i → ∀ o, bindEntryKeyword f strings native o ⟨kw.key, some kw.value⟩ =
      if o.isAssigned i then o.fail (.multipleValues kw.key) else .ok (o.writeBorrowed i kw.value) := by
    intro i h o
    rw [htaker, filter_eq_some_iff] at h
    obtain ⟨hindex, hkind⟩ := h
    simp only [bindEntryKeyword, hkey, hname, hindex]
    cases hk : f.signature.kind i with
    | any | kwOnly => rfl
    | posOnly | varArg | kwArg => rw [hk] at hkind; cases hkind
  constructor
  · intro o i h hfree
    rw [hsome i h, if_neg (by rw [hfree]; decide)]
  · intro o i h hassigned
    rw [hsome i h, if_pos hassigned]
    exact ⟨_, rfl⟩
  · intro o i h hkwarg
    rw [hnone h, unnamedKeyword, hkwarg]
    exact insertVarkw_eq hnative i o
  · intro o h hkwarg
    rw [hnone h, unnamedKeyword, hkwarg]
    exact ⟨_, rfl⟩

end

end Soac.Calls
