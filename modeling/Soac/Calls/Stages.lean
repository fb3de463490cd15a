import Soac.Calls.Keywords

/-!
# The stages of argument binding

What the slots hold after the positional arguments, after each keyword and after the defaults, in the terms of Python's
rules. Each stage decides one of the conditions under which Python accepts the call.
-/

namespace Soac.Calls

open Fallible List Option Out

section

variable (f : Function) {strings : Strings} (call : Call strings) {native : Native} {o : Out}

/-- The slots hold what is wanted of each parameter. -/
structure Holds (want : Nat → Param → Option PyValue) (o : Out) : Prop where
  length : o.slots.length = f.signature.params.length
  content : ∀ i p, f.signature.params[i]? = some p → (o.slot i).map Value.content = want i p

variable {want want' : Nat → Param → Option PyValue}

namespace Holds

variable {f}

theorem imp (h : Holds f want o) (hw : ∀ i p, f.signature.params[i]? = some p → want i p = want' i p) : Holds f want' o where
  length := h.length
  content i p hp := (h.content i p hp).trans (hw i p hp)

theorem acquire (h : Holds f want o) (value : ObjId) : Holds f want (o.acquire value) :=
  ⟨h.length, h.content⟩

theorem writeOwned (h : Holds f want o) {i : Nat} {p : Param} (hp : f.signature.params[i]? = some p) {value : Value}
    (hi : want' i p = some value.content)
    (hw : ∀ j q, j ≠ i → f.signature.params[j]? = some q → want' j q = want j q) : Holds f want' (o.writeOwned i value) := by
  have hlt : i < o.slots.length := by
    rw [h.length]
    exact (List.getElem?_eq_some_iff.mp hp).1
  constructor
  · rw [Out.writeOwned, length_set, h.length]
  · intro j q hq
    rw [Out.slot_writeOwned hlt]
    by_cases hj : j = i
    · subst hj
      rw [hp] at hq
      cases hq
      rw [if_pos rfl, hi]
      rfl
    · rw [if_neg hj, h.content j q hq, hw j q hj hq]

/-- A slot is assigned when something is wanted there. -/
theorem isAssigned (h : Holds f want o) {i : Nat} {p : Param} (hp : f.signature.params[i]? = some p) :
    o.isAssigned i = (want i p).isSome := by
  rw [← h.content i p hp, isSome_map]
  rfl

end Holds

/-! ## Positional arguments -/

theorem writePairs_some (pairs : List (Nat × ObjId)) (hnodup : (pairs.map Prod.fst).Nodup)
    (hlt : ∀ pair ∈ pairs, pair.1 < o.slots.length) :
    ∃ o', writePairs (pairs.map (Prod.map id some)) o = .ok o' ∧ o'.slots.length = o.slots.length ∧
      ∀ j, o'.slot j = ((pairs.lookup j).map Value.object).or (o.slot j) := by
  induction pairs generalizing o with
  | nil => exact ⟨o, rfl, rfl, fun j => rfl⟩
  | cons pair pairs ih =>
    obtain ⟨i, value⟩ := pair
    rw [map_cons, nodup_cons] at hnodup
    have hi : i < o.slots.length := hlt _ mem_cons_self
    have hlength : (o.writeBorrowed i value).slots.length = o.slots.length := length_set
    obtain ⟨o', ho', hlen, hslot⟩ := ih (o := o.writeBorrowed i value) hnodup.2 fun pair hpair => by
      rw [hlength]
      exact hlt pair (mem_cons_of_mem _ hpair)
    refine ⟨o', ho', hlen.trans hlength, fun j => ?_⟩
    rw [hslot, slot_writeBorrowed hi, lookup_cons]
    by_cases hj : j = i
    · subst hj
      have hnone : pairs.lookup j = none := by
        rw [lookup_eq_none_iff]
        intro pair hpair
        have hne : j ≠ pair.1 := fun h => hnodup.1 (mem_map.mpr ⟨pair, hpair, h.symm⟩)
        simpa using hne
      rw [hnone]
      simp
    · have hne : (j == i) = false := by simpa using hj
      rw [hne, if_neg hj]

/-- What the slots hold when the positional arguments have been bound. -/
def wantPositional (i : Nat) (_ : Param) : Option PyValue :=
  (f.positionalValue call i).map .object

theorem bindPositional_holds : ∃ o, bindPositional f (call.positional.map some) (.init f.signature.params.length) = .ok o ∧
    Holds f (wantPositional f call) o := by
  obtain ⟨o, ho, hlen, hslot⟩ := writePairs_some (o := .init f.signature.params.length)
    (f.signature.positionalParamIndices.zip call.positional)
    ((map_fst_zip_sublist _ _).nodup (nodup_indices _ _)) fun pair hpair => by
      rw [init, length_replicate]
      exact lt_of_mem_indices (of_mem_zip hpair).1
  refine ⟨o, ?_, ?_⟩
  · rw [bindPositional, zip_map_right, ho]
  · constructor
    · rw [hlen, init, length_replicate]
    · intro i p _
      rw [hslot, slot_init, Option.or_none, Option.map_map]
      rfl

/-! ## Containers -/

theorem index_eq_of_countP_le {α : Type} {P : α → Bool} {l : List α} (h : l.countP P ≤ 1) {i j : Nat} {a b : α}
    (hi : l[i]? = some a) (hj : l[j]? = some b) (ha : P a) (hb : P b) : i = j := by
  -- Once an element counts, nothing behind it does.
  have hpair : l.Pairwise fun a b => P a → P b = false := by
    refine pairwise_iff_forall_sublist.mpr fun {a b} hsub ha => ?_
    have hle := hsub.countP_le (p := P)
    grind
  rw [pairwise_iff_getElem] at hpair
  grind

theorem varargIndex_eq_some_iff {i : Nat} :
    f.signature.varargIndex = some i ↔ ∃ p, f.signature.params[i]? = some p ∧ p.kind = .varArg :=
  findIdx?_iff_of_unique fun hi hj hp hq =>
    index_eq_of_countP_le f.signature.varArg_le hi hj (decide_eq_true hp) (decide_eq_true hq)

theorem kwargIndex_eq_some_iff {i : Nat} :
    f.signature.kwargIndex = some i ↔ ∃ p, f.signature.params[i]? = some p ∧ p.kind = .kwArg :=
  findIdx?_iff_of_unique fun hi hj hp hq =>
    index_eq_of_countP_le f.signature.kwArg_le hi hj (decide_eq_true hp) (decide_eq_true hq)

theorem fillTuple_some (tuple : ObjId) (args items : List ObjId) (o : Out) :
    ∃ o', fillTuple tuple (args.map some) items o = .ok (items ++ args, o') ∧ o'.slots = o.slots := by
  induction args generalizing items o with
  | nil => exact ⟨o, by rw [append_nil]; rfl, rfl⟩
  | cons value args ih =>
    obtain ⟨o', ho', hslots⟩ := ih (items ++ [value]) (o.acquire value)
    refine ⟨o', ?_, hslots⟩
    rw [map_cons, fillTuple, ho', append_assoc, singleton_append]

/-- What the slots hold when the tuple has been made too. -/
def wantVarargs (i : Nat) (p : Param) : Option PyValue :=
  if p.kind = .varArg then some (.tuple (call.positional.drop f.signature.positionalCapacity)) else wantPositional f call i p

theorem bindVarargs_holds (hnative : native.Works) (h : Holds f (wantPositional f call) o) :
    ∃ o', bindVarargs f native (call.positional.map some) o = .ok o' ∧ Holds f (wantVarargs f call) o' := by
  have hother : ∀ i p, f.signature.params[i]? = some p → f.signature.varargIndex ≠ some i →
      wantVarargs f call i p = wantPositional f call i p := by
    intro i p hp hi
    rw [wantVarargs, if_neg fun hkind => hi ((varargIndex_eq_some_iff f).mpr ⟨p, hp, hkind⟩)]
  unfold bindVarargs
  cases hindex : f.signature.varargIndex with
  | none =>
    refine ⟨o, rfl, h.imp fun i p hp => (hother i p hp ?_).symm⟩
    rw [hindex]
    nofun
  | some i =>
    obtain ⟨p, hp, hkind⟩ := varargIndex_eq_some hindex
    obtain ⟨tuple, htuple⟩ := isSome_iff_exists.mp hnative.2.1
    obtain ⟨o', ho', hslots⟩ := fillTuple_some tuple (call.positional.drop f.signature.positionalCapacity) [] (o.acquire tuple)
    simp only [htuple]
    rw [← map_drop, ho']
    refine ⟨o'.writeOwned i (.tuple tuple (call.positional.drop f.signature.positionalCapacity)), rfl, ?_⟩
    have ho : Holds f (wantPositional f call) o' := by
      refine ⟨by rw [hslots]; exact h.length, fun j q hq => ?_⟩
      rw [slot, hslots]
      exact h.content j q hq
    refine ho.writeOwned hp ?_ fun j q hj hq => hother j q hq ?_
    · rw [wantVarargs, if_pos hkind]
      rfl
    · rw [hindex]
      exact fun h => hj (Option.some.inj h).symm

/-- What the slots hold when some keywords have been bound. -/
def staged (kws : List Keyword) (i : Nat) (p : Param) : Option PyValue :=
  match p.kind with
  | .varArg => some (.tuple (call.positional.drop f.signature.positionalCapacity))
  | .kwArg => some (.dict (kws.filter fun kw => ∀ p ∈ f.signature.params, ¬Function.Takes strings p kw))
  | .posOnly | .any | .kwOnly =>
    ((f.positionalValue call i).or ((kws.find? fun kw => Function.Takes strings p kw).map (·.value))).map .object

theorem bindVarkw_holds (hnative : native.Works) (h : Holds f (wantVarargs f call) o) :
    ∃ o', bindVarkw f native o = .ok o' ∧ Holds f (staged f call []) o' := by
  have hother : ∀ i p, f.signature.params[i]? = some p → f.signature.kwargIndex ≠ some i →
      staged f call [] i p = wantVarargs f call i p := by
    intro i p hp hi
    unfold staged wantVarargs
    cases hkind : p.kind with
    | kwArg => exact absurd ((kwargIndex_eq_some_iff f).mpr ⟨p, hp, hkind⟩) hi
    | varArg => rfl
    | posOnly | any | kwOnly => simp [wantPositional]
  unfold bindVarkw
  cases hindex : f.signature.kwargIndex with
  | none =>
    refine ⟨o, rfl, h.imp fun i p hp => (hother i p hp ?_).symm⟩
    rw [hindex]
    nofun
  | some i =>
    obtain ⟨p, hp, hkind⟩ := kwargIndex_eq_some hindex
    obtain ⟨dict, hdict⟩ := isSome_iff_exists.mp hnative.2.2.1
    simp only [hdict]
    refine ⟨(o.acquire dict).writeOwned i (.dict dict []), rfl, ?_⟩
    refine (h.acquire dict).writeOwned hp ?_ fun j q hj hq => hother j q hq ?_
    · simp only [staged, hkind]
      rfl
    · rw [hindex]
      exact fun h => hj (Option.some.inj h).symm

/-! ## Keywords -/

/-- A keyword can be bound: the parameter that takes it has no positional argument, or there is a dictionary for it. -/
structure Fits (kw : Keyword) : Prop where
  free : ∀ i, taker f strings kw = some i → f.positionalValue call i = none
  known : taker f strings kw = none → f.signature.kwargIndex ≠ none

variable {f call} {kws : List Keyword} {kw : Keyword} {step : Out → RawKeyword → Except Failure Out}

theorem find?_takes_eq_none {p : Param} (htakes : Function.Takes strings p kw)
    (hnew : ∀ kw' ∈ kws, strings.content kw'.key ≠ strings.content kw.key) :
    kws.find? (fun kw => Function.Takes strings p kw) = none := by
  rw [List.find?_eq_none]
  intro kw' hmem h
  exact hnew kw' hmem ((of_decide_eq_true h).2.trans htakes.2.symm)

theorem staged_single {i : Nat} {p : Param} (hkind : singleKind p.kind) : staged f call kws i p =
    ((f.positionalValue call i).or ((kws.find? fun kw => Function.Takes strings p kw).map (·.value))).map .object := by
  unfold staged
  split
  · next h => rw [h] at hkind; cases hkind
  · next h => rw [h] at hkind; cases hkind
  · rfl
  · rfl
  · rfl

theorem singleKind_of_keywordKind {kind : ParamKind} (h : keywordKind kind) : singleKind kind := by
  cases kind with
  | any | kwOnly => rfl
  | posOnly | varArg | kwArg => cases h

/-- A keyword leaves what is wanted of the parameters that do not take it. -/
theorem staged_concat_of_not_takes {i : Nat} {p : Param} (hnot : ¬Function.Takes strings p kw)
    (hdict : p.kind = .kwArg → ∃ q ∈ f.signature.params, Function.Takes strings q kw) :
    staged f call (kws ++ [kw]) i p = staged f call kws i p := by
  have hfind : (kws ++ [kw]).find? (fun kw => Function.Takes strings p kw) =
      kws.find? fun kw => Function.Takes strings p kw := by
    rw [List.find?_append, List.find?_cons_of_neg (by simpa using hnot), List.find?_nil, or_none]
  unfold staged
  rw [hfind]
  cases hkind : p.kind with
  | kwArg =>
    obtain ⟨q, hq, htakes⟩ := hdict hkind
    have hfilter : (kws ++ [kw]).filter (fun kw => ∀ p ∈ f.signature.params, ¬Function.Takes strings p kw) =
        kws.filter fun kw => ∀ p ∈ f.signature.params, ¬Function.Takes strings p kw := by
      rw [filter_append, filter_cons_of_neg (by simpa using ⟨q, hq, htakes⟩), filter_nil, append_nil]
    rw [hfilter]
  | varArg | posOnly | any | kwOnly => rfl

section

variable (hstep : KeywordStep f strings step kw)
include hstep

/-- A keyword with a parameter is bound unless a positional argument was. -/
theorem keyword_bound (h : Holds f (staged f call kws) o)
    (hnew : ∀ kw' ∈ kws, strings.content kw'.key ≠ strings.content kw.key) {i : Nat} (htaker : taker f strings kw = some i) :
    Decides (f.positionalValue call i = none) (Holds f (staged f call (kws ++ [kw])))
      (step o ⟨kw.key, some kw.value⟩) := by
  obtain ⟨p, hp, htakes⟩ := (taker_eq_some_iff f).mp htaker
  have hsingle := singleKind_of_keywordKind htakes.1
  have hassigned : o.isAssigned i = (f.positionalValue call i).isSome := by
    rw [h.isAssigned hp, staged_single hsingle, find?_takes_eq_none htakes hnew]
    simp
  cases hvalue : f.positionalValue call i with
  | some value =>
    obtain ⟨e, he⟩ := hstep.twice o i htaker (by rw [hassigned, hvalue]; rfl)
    rw [he]
    nofun
  | none =>
    rw [hstep.bound o i htaker (by rw [hassigned, hvalue]; rfl)]
    refine ⟨rfl, (h.acquire kw.value).writeOwned hp ?_ fun j q hj hq => ?_⟩
    · rw [staged_single hsingle, hvalue, List.find?_append, find?_takes_eq_none htakes hnew, none_or,
        List.find?_cons_of_pos (by simpa using htakes)]
      rfl
    · refine staged_concat_of_not_takes (fun hq' => hj ?_) fun _ => ⟨p, mem_of_getElem? hp, htakes⟩
      exact index_eq_of_name_eq hq hp (name_eq_of_takes hq' htakes)

/-- A keyword without one needs a `**` parameter. -/
theorem keyword_inserted (h : Holds f (staged f call kws) o)
    (htaker : taker f strings kw = none) : Decides (f.signature.kwargIndex ≠ none) (Holds f (staged f call (kws ++ [kw])))
      (step o ⟨kw.key, some kw.value⟩) := by
  have hnot := (taker_eq_none_iff f).mp htaker
  cases hindex : f.signature.kwargIndex with
  | none =>
    obtain ⟨e, he⟩ := hstep.unexpected o htaker hindex
    rw [he]
    exact fun h => h rfl
  | some i =>
    obtain ⟨p, hp, hkind⟩ := kwargIndex_eq_some hindex
    have hcontent := h.content i p hp
    simp only [staged, hkind] at hcontent
    obtain ⟨value, hslot, hvalue⟩ := map_eq_some_iff.mp hcontent
    rw [hstep.inserted o i htaker hindex]
    refine ⟨nofun, ?_⟩
    cases value with
    | object value | tuple self items => cases hvalue
    | dict self entries =>
      injection hvalue with hentries
      simp only [dictSet, hslot]
      refine ((h.acquire kw.key).acquire kw.value).writeOwned hp ?_ fun j q hj hq => ?_
      · simp only [staged, hkind, Value.content]
        rw [filter_append, filter_cons_of_pos (by simpa using hnot), filter_nil, hentries]
      · refine staged_concat_of_not_takes (hnot q (mem_of_getElem? hq)) fun hq' => ?_
        have := (kwargIndex_eq_some_iff f).mpr ⟨q, hq, hq'⟩
        rw [hindex] at this
        exact absurd (Option.some.inj this).symm hj

theorem keyword_decides (h : Holds f (staged f call kws) o)
    (hnew : ∀ kw' ∈ kws, strings.content kw'.key ≠ strings.content kw.key) :
    Decides (Fits f call kw) (Holds f (staged f call (kws ++ [kw]))) (step o ⟨kw.key, some kw.value⟩) := by
  cases htaker : taker f strings kw with
  | some i =>
    refine (keyword_bound hstep h hnew htaker).imp ⟨fun hfree => ⟨fun j hj => ?_, fun hnone => ?_⟩, fun hfits => ?_⟩
      fun o _ ho => ho
    · rw [htaker] at hj
      rw [← Option.some.inj hj, hfree]
    · rw [htaker] at hnone
      cases hnone
    · exact hfits.free i htaker
  | none =>
    refine (keyword_inserted hstep h htaker).imp ⟨fun hknown => ⟨fun j hj => ?_, fun _ => hknown⟩, fun hfits => ?_⟩
      fun o _ ho => ho
    · rw [htaker] at hj
      cases hj
    · exact hfits.known htaker

end

/-- The loop over the keywords, after the ones in `kws`. -/
theorem keywords_decide (rest : List Keyword) (hsteps : ∀ kw ∈ rest, KeywordStep f strings step kw)
    (hdistinct : ((kws ++ rest).map fun kw => strings.content kw.key).Nodup) (h : Holds f (staged f call kws) o) :
    Decides (∀ kw ∈ rest, Fits f call kw) (Holds f (staged f call (kws ++ rest)))
      ((rest.map fun kw => (⟨kw.key, some kw.value⟩ : RawKeyword)).foldlM step o) := by
  induction rest generalizing kws o with
  | nil =>
    rw [append_nil]
    exact ⟨nofun, h⟩
  | cons kw rest ih =>
    have hnew : ∀ kw' ∈ kws, strings.content kw'.key ≠ strings.content kw.key := by
      intro kw' hkw'
      rw [map_append, nodup_append] at hdistinct
      exact hdistinct.2.2 _ (mem_map_of_mem hkw') _ (mem_map_of_mem mem_cons_self)
    have hsplit : kws ++ kw :: rest = kws ++ [kw] ++ rest := by rw [append_assoc, singleton_append]
    rw [hsplit] at hdistinct
    rw [map_cons, hsplit]
    refine ((keyword_decides (hsteps kw mem_cons_self) h hnew).bind fun o' _ ho' =>
      ih (fun kw hkw => hsteps kw (mem_cons_of_mem _ hkw)) hdistinct ho').imp ?_ fun o _ ho => ho
    rw [forall_mem_cons]

/-! ## Defaults -/

/-- What a parameter gets is its argument, or else its default. -/
theorem pythonValue_eq (i : Nat) (p : Param) :
    f.pythonValue call i p = (staged f call call.keywords i p).or ((f.default i p).map .object) := by
  unfold Function.pythonValue staged
  cases p.kind with
  | varArg | kwArg => rfl
  | posOnly | any | kwOnly => exact map_or

/-- What the slots hold when the parameters in `done` have taken their defaults. -/
def upTo (f : Function) (call : Call strings) (done : List Nat) (i : Nat) (p : Param) : Option PyValue :=
  if i ∈ done then f.pythonValue call i p else staged f call call.keywords i p

variable {done : List Nat} {i : Nat} {p : Param}

theorem upTo_cons_of_ne {j : Nat} (hj : j ≠ i) (q : Param) : upTo f call (i :: done) j q = upTo f call done j q := by
  simp only [upTo, mem_cons, hj, false_or]

theorem upTo_cons_self : upTo f call (i :: done) i p = f.pythonValue call i p := by
  rw [upTo, if_pos mem_cons_self]

section

variable (h : Holds f (upTo f call done) o) (hp : f.signature.params[i]? = some p)
include h hp

/-- A parameter whose slot has what it should have in the end. -/
theorem Holds.upTo_cons
    (hvalue : upTo f call done i p = f.pythonValue call i p) : Holds f (upTo f call (i :: done)) o := by
  refine h.imp fun j q hq => ?_
  by_cases hj : j = i
  · subst hj
    rw [hp] at hq
    cases hq
    rw [hvalue, upTo_cons_self]
  · rw [upTo_cons_of_ne hj]

/-- An empty slot: there is no argument. -/
theorem staged_eq_none (hfree : o.isAssigned i = false) : staged f call call.keywords i p = none := by
  rw [h.isAssigned hp, isSome_eq_false_iff, isNone_iff_eq_none, upTo] at hfree
  split at hfree
  · rw [pythonValue_eq, or_eq_none_iff] at hfree
    exact hfree.1
  · exact hfree

theorem default_kept
    (hassigned : o.isAssigned i) : Holds f (upTo f call (i :: done)) o ∧ f.pythonValue call i p ≠ none := by
  rw [h.isAssigned hp, upTo] at hassigned
  have hvalue : upTo f call done i p = f.pythonValue call i p ∧ f.pythonValue call i p ≠ none := by
    rw [upTo]
    split at hassigned
    · next hi => exact ⟨if_pos hi, isSome_iff_ne_none.mp hassigned⟩
    · next hi =>
      obtain ⟨value, hv⟩ := isSome_iff_exists.mp hassigned
      rw [if_neg hi, pythonValue_eq, hv]
      exact ⟨rfl, nofun⟩
  exact ⟨h.upTo_cons hp hvalue.1, hvalue.2⟩

theorem default_written (hfree : o.isAssigned i = false) {value : ObjId} (hdefault : f.default i p = some value) :
    Holds f (upTo f call (i :: done)) (o.writeBorrowed i value) ∧ f.pythonValue call i p ≠ none := by
  have hvalue : f.pythonValue call i p = some (.object value) := by
    rw [pythonValue_eq, staged_eq_none h hp hfree, hdefault]
    rfl
  refine ⟨(h.acquire value).writeOwned hp ?_ fun j q hj _ => upTo_cons_of_ne hj q, by rw [hvalue]; nofun⟩
  rw [upTo_cons_self, hvalue]
  rfl

theorem default_missing (hfree : o.isAssigned i = false) (hdefault : f.default i p = none) :
    Holds f (upTo f call (i :: done)) o ∧ f.pythonValue call i p = none := by
  have hvalue : f.pythonValue call i p = none := by
    rw [pythonValue_eq, staged_eq_none h hp hfree, hdefault]
    rfl
  refine ⟨h.upTo_cons hp ?_, hvalue⟩
  rw [hvalue, upTo]
  split
  · exact hvalue
  · exact staged_eq_none h hp hfree

end

theorem staged_variadic (hkind : singleKind p.kind = false) : staged f call call.keywords i p ≠ none := by
  unfold staged
  cases hp : p.kind with
  | varArg | kwArg => nofun
  | posOnly | any | kwOnly => rw [hp] at hkind; cases hkind

/-- A variadic parameter has no default to take. -/
theorem upTo_variadic (hkind : singleKind p.kind = false) : upTo f call done i p = f.pythonValue call i p := by
  rw [upTo]
  split
  · rfl
  · have hne : staged f call call.keywords i p ≠ none := staged_variadic hkind
    obtain ⟨value, hvalue⟩ := ne_none_iff_exists'.mp hne
    rw [pythonValue_eq, hvalue]
    rfl

/-- When all parameters have been visited the slots hold what Python binds. -/
theorem holds_of_upTo (h : Holds f (upTo f call done) o)
    (hdone : ∀ i p, f.signature.params[i]? = some p → singleKind p.kind → i ∈ done) :
    Holds f (f.pythonValue call) o := by
  refine h.imp fun i p hp => ?_
  cases hkind : singleKind p.kind with
  | true => rw [upTo, if_pos (hdone i p hp hkind)]
  | false => exact upTo_variadic hkind

/-- Every parameter of a list of indices gets a value. -/
def Filled (f : Function) (call : Call strings) (is : List Nat) : Prop :=
  ∀ i ∈ is, ∀ p, f.signature.params[i]? = some p → f.pythonValue call i p ≠ none

theorem filled_cons {is : List Nat} (hp : f.signature.params[i]? = some p) :
    Filled f call (i :: is) ↔ f.pythonValue call i p ≠ none ∧ Filled f call is := by
  rw [Filled, forall_mem_cons]
  refine and_congr_left fun _ => ⟨fun h => h p hp, fun h q hq => ?_⟩
  rw [hp] at hq
  cases hq
  exact h

/-! ### The entry interpreter -/

theorem bindEntryDefault_decides (h : Holds f (upTo f call done) o) (hp : f.signature.params[i]? = some p) :
    Decides (f.pythonValue call i p ≠ none) (Holds f (upTo f call (i :: done))) (bindEntryDefault f o i) := by
  unfold bindEntryDefault
  cases hassigned : o.isAssigned i with
  | true =>
    exact (default_kept h hp hassigned).symm
  | false =>
    rw [hp]
    have hsingle : singleKind p.kind := by
      cases hs : singleKind p.kind with
      | true => rfl
      | false => exact absurd (staged_eq_none h hp hassigned) (staged_variadic hs)
    dsimp only
    rw [if_pos hsingle]
    cases hdefault : f.default i p with
    | some value => exact (default_written h hp hassigned hdefault).symm
    | none => exact fun hfilled => hfilled (default_missing h hp hassigned hdefault).2

theorem bindEntryDefaults_decide (is : List Nat) (his : ∀ i ∈ is, i < f.signature.params.length)
    (h : Holds f (upTo f call done) o) :
    Decides (Filled f call is) (Holds f (upTo f call (is.reverse ++ done))) (is.foldlM (bindEntryDefault f) o) := by
  induction is generalizing done o with
  | nil => exact ⟨nofun, h⟩
  | cons i is ih =>
    have hp := List.getElem?_eq_getElem (his i mem_cons_self)
    rw [reverse_cons, append_assoc, singleton_append]
    refine ((bindEntryDefault_decides h hp).bind fun o' _ ho' =>
      ih (fun i hi => his i (mem_cons_of_mem _ hi)) ho').imp ?_ fun o _ ho => ho
    rw [filled_cons hp]

/-! ### The current defaults of a function -/

theorem default_positional (hkind : positionalKind p.kind) : f.default i p =
    if f.signature.positionalCapacity ≤ f.defaults.length + f.signature.positionalParamIndices.idxOf i then
      f.defaults[f.defaults.length + f.signature.positionalParamIndices.idxOf i - f.signature.positionalCapacity]?
    else none := by
  unfold Function.default
  cases hp : p.kind with
  | posOnly | any => rfl
  | kwOnly | varArg | kwArg => rw [hp] at hkind; cases hkind

theorem idxOf_positional {position : Nat} (h : f.signature.positionalParamIndices[position]? = some i) :
    f.signature.positionalParamIndices.idxOf i = position := by
  obtain ⟨hlt, hi⟩ := List.getElem?_eq_some_iff.mp h
  rw [← hi]
  exact (nodup_indices _ _).idxOf_getElem _ hlt

/-- A parameter before the first default has to be bound already. -/
theorem bindPositionalDefault_holds {position : Nat} (h : Holds f (upTo f call done) o)
    (hp : f.signature.params[i]? = some p) (hkind : positionalKind p.kind)
    (hget : f.signature.positionalParamIndices[position]? = some i)
    (hbound : position < f.signature.positionalCapacity - f.defaults.length → staged f call call.keywords i p ≠ none) :
    Holds f (upTo f call (i :: done)) (bindPositionalDefault f o i position) ∧ f.pythonValue call i p ≠ none := by
  have hlt : position < f.signature.positionalCapacity := (List.getElem?_eq_some_iff.mp hget).1
  unfold bindPositionalDefault
  cases hassigned : o.isAssigned i with
  | true =>
    exact default_kept h hp hassigned
  | false =>
    rw [if_neg (by decide)]
    have hle : f.signature.positionalCapacity ≤ f.defaults.length + position := by
      by_contra hlt'
      exact hbound (by omega) (staged_eq_none h hp hassigned)
    have hposition : f.defaults.length - f.signature.positionalCapacity + position -
        (f.signature.positionalCapacity - f.defaults.length) =
          f.defaults.length + position - f.signature.positionalCapacity := by omega
    have hdefault := default_positional (f := f) (i := i) hkind
    rw [idxOf_positional hget, if_pos hle] at hdefault
    have hitem : f.defaults.length + position - f.signature.positionalCapacity < f.defaults.length := by omega
    rw [hposition, List.getElem?_eq_getElem hitem]
    rw [List.getElem?_eq_getElem hitem] at hdefault
    exact default_written h hp hassigned hdefault

theorem positionalDefaults_hold (pairs : List (Nat × Nat)) (h : Holds f (upTo f call done) o)
    (hpairs : ∀ pair ∈ pairs, f.signature.positionalParamIndices[pair.2]? = some pair.1)
    (hbound : ∀ pair ∈ pairs, pair.2 < f.signature.positionalCapacity - f.defaults.length →
      ∀ p, f.signature.params[pair.1]? = some p → staged f call call.keywords pair.1 p ≠ none) :
    Holds f (upTo f call ((pairs.map Prod.fst).reverse ++ done))
        (pairs.foldl (fun o (i, position) => bindPositionalDefault f o i position) o) ∧
      Filled f call (pairs.map Prod.fst) := by
  induction pairs generalizing done o with
  | nil => exact ⟨h, nofun⟩
  | cons pair pairs ih =>
    obtain ⟨i, position⟩ := pair
    have hget := hpairs _ mem_cons_self
    obtain ⟨p, hp, hkind⟩ := mem_indices.mp (mem_of_getElem? hget)
    obtain ⟨hheld, hvalue⟩ := bindPositionalDefault_holds h hp hkind hget fun hfirst =>
      hbound _ mem_cons_self hfirst p hp
    rw [map_cons, reverse_cons, append_assoc, foldl_cons, filled_cons hp]
    obtain ⟨hrest, hfilled⟩ := ih hheld (fun pair hpair => hpairs pair (mem_cons_of_mem _ hpair))
      fun pair hpair => hbound pair (mem_cons_of_mem _ hpair)
    exact ⟨hrest, hvalue, hfilled⟩

theorem default_kwOnly (hp : f.signature.params[i]? = some p) (hkind : p.kind = .kwOnly) :
    f.default i p = f.kwdefaults (f.signature.name i) := by
  rw [name_of_getElem? f hp]
  simp only [Function.default, hkind]

theorem keywordDefaults_hold (hnative : native.Works) (is missing : List Nat)
    (his : ∀ i ∈ is, ∃ p, f.signature.params[i]? = some p ∧ p.kind = .kwOnly) (h : Holds f (upTo f call done) o) :
    ∃ o' missing', is.foldlM (bindKeywordDefault f native) (o, missing) = .ok (o', missing') ∧
      Holds f (upTo f call (is.reverse ++ done)) o' ∧ (missing' = [] ↔ missing = [] ∧ Filled f call is) := by
  induction is generalizing done o missing with
  | nil => exact ⟨o, missing, rfl, h, by simp [Filled]⟩
  | cons i is ih =>
    obtain ⟨p, hp, hkind⟩ := his i mem_cons_self
    have his' := fun j hj => his j (mem_cons_of_mem i hj)
    rw [foldlM_cons, reverse_cons, append_assoc, filled_cons hp]
    -- What the step does, and that the parameter is noted exactly when it gets no value.
    have hstep : ∃ o₁ missing₁, bindKeywordDefault f native (o, missing) i = .ok (o₁, missing₁) ∧
        Holds f (upTo f call (i :: done)) o₁ ∧ (missing₁ = [] ↔ missing = [] ∧ f.pythonValue call i p ≠ none) := by
      unfold bindKeywordDefault
      rw [if_pos (hnative.2.2.2.2.2 i), ← default_kwOnly hp hkind]
      cases hassigned : o.isAssigned i with
      | true =>
        obtain ⟨hheld, hvalue⟩ := default_kept h hp hassigned
        exact ⟨o, missing, if_pos rfl, hheld, by rw [and_iff_left hvalue]⟩
      | false =>
        cases hdefault : f.default i p with
        | some value =>
          obtain ⟨hheld, hvalue⟩ := default_written h hp hassigned hdefault
          exact ⟨_, missing, rfl, hheld, by rw [and_iff_left hvalue]⟩
        | none =>
          obtain ⟨hheld, hvalue⟩ := default_missing h hp hassigned hdefault
          exact ⟨o, missing ++ [i], rfl, hheld, by simp [hvalue]⟩
    obtain ⟨o₁, missing₁, hstep, hheld, hmissing⟩ := hstep
    obtain ⟨o', missing', hrest, hheld', hmissing'⟩ := ih missing₁ his' hheld
    refine ⟨o', missing', ?_, hheld', ?_⟩
    · rw [hstep, ok_bind, hrest]
    · rw [hmissing', hmissing, and_assoc]

theorem single_cases {kind : ParamKind} (h : singleKind kind) : positionalKind kind ∨ kind = .kwOnly := by
  cases kind with
  | posOnly | any => exact .inl rfl
  | kwOnly => exact .inr rfl
  | varArg | kwArg => cases h

/-- Every single parameter is among the positional and the keyword-only ones. -/
theorem filled_iff : Filled f call (List.range f.signature.params.length) ↔
    Filled f call f.signature.positionalParamIndices ∧ Filled f call (f.signature.indices (· = .kwOnly)) := by
  constructor
  · intro h
    exact ⟨fun i hi => h i (mem_range.mpr (lt_of_mem_indices hi)),
      fun i hi => h i (mem_range.mpr (lt_of_mem_indices hi))⟩
  · rintro ⟨hpos, hkw⟩ i - p hp
    cases hkind : p.kind with
    | posOnly | any => exact hpos i (mem_indices.mpr ⟨p, hp, by rw [hkind]; rfl⟩) p hp
    | kwOnly => exact hkw i (mem_indices.mpr ⟨p, hp, by rw [hkind]; rfl⟩) p hp
    | varArg | kwArg => rw [Function.pythonValue, hkind]; nofun

/-- The defaults read at the call fill every parameter, or the call is refused. -/
theorem bindCurrentFunctionDefaults_decides (hnative : native.Works) (h : Holds f (staged f call call.keywords) o) :
    Decides (Filled f call (List.range f.signature.params.length)) (Holds f (f.pythonValue call))
      (bindCurrentFunctionDefaults f native o) := by
  have hstart : Holds f (upTo f call []) o := by
    exact h
  unfold bindCurrentFunctionDefaults
  dsimp only
  split
  · next hmissing =>
    -- A missing parameter comes before the first default.
    obtain ⟨i, hi⟩ := exists_mem_of_ne_nil _ hmissing
    rw [mem_filter, Bool.not_eq_true'] at hi
    obtain ⟨position, hposition⟩ := mem_iff_getElem?.mp hi.1
    rw [List.getElem?_take, ite_none_right_eq_some] at hposition
    obtain ⟨hlt, hget⟩ := hposition
    obtain ⟨p, hp, hkind⟩ := mem_indices.mp (mem_of_getElem? hget)
    have hdefault : f.default i p = none := by
      rw [default_positional hkind, idxOf_positional hget, if_neg (by omega)]
    intro hfilled
    refine hfilled i ?_ p hp (default_missing hstart hp hi.2 hdefault).2
    exact mem_range.mpr (List.getElem?_eq_some_iff.mp hp).1
  · next hmissing =>
    have hbound : ∀ pair ∈ f.signature.positionalParamIndices.zipIdx,
        pair.2 < f.signature.positionalCapacity - f.defaults.length →
        ∀ p, f.signature.params[pair.1]? = some p → staged f call call.keywords pair.1 p ≠ none := by
      intro pair hpair hfirst p hp hnone
      have hget : f.signature.positionalParamIndices[pair.2]? = some pair.1 := mem_zipIdx_iff_getElem?.mp hpair
      have htake : pair.1 ∈ f.signature.positionalParamIndices.take (f.signature.positionalCapacity - f.defaults.length) :=
        mem_iff_getElem?.mpr ⟨pair.2, by rw [List.getElem?_take_of_lt hfirst, hget]⟩
      have hfree : o.isAssigned pair.1 = false := by
        rw [h.isAssigned hp, hnone]
        rfl
      exact hmissing (ne_nil_of_mem (mem_filter.mpr ⟨htake, by rw [hfree]; rfl⟩))
    obtain ⟨hpositional, hfilled⟩ := positionalDefaults_hold f.signature.positionalParamIndices.zipIdx hstart
      (fun pair hpair => mem_zipIdx_iff_getElem?.mp hpair) hbound
    rw [zipIdx_map_fst, append_nil] at hpositional
    rw [zipIdx_map_fst] at hfilled
    obtain ⟨o', missing, hfold, hheld, hnone⟩ := keywordDefaults_hold hnative (f.signature.indices (· = .kwOnly)) []
      (fun i hi => by
        obtain ⟨p, hp, hkind⟩ := mem_indices.mp hi
        exact ⟨p, hp, of_decide_eq_true hkind⟩) hpositional
    rw [hfold, ok_bind]
    rw [filled_iff]
    split
    · next hmissing' => exact fun h => hmissing' (hnone.mpr ⟨rfl, h.2⟩)
    · next hmissing' =>
      have hall := hnone.mp (by simpa using hmissing')
      refine ⟨⟨hfilled, hall.2⟩, holds_of_upTo hheld fun i p hp hkind => ?_⟩
      rw [mem_append, mem_reverse, mem_reverse, Signature.positionalParamIndices, mem_indices, mem_indices]
      rcases single_cases hkind with hpositional | hkwOnly
      · exact .inr ⟨p, hp, hpositional⟩
      · exact .inl ⟨p, hp, decide_eq_true hkwOnly⟩

/-! ### Defaults left to the entry code -/

theorem missingArguments_eq_nil {kinds : ParamKind → Bool} (h : Holds f (staged f call call.keywords) o) :
    missingArguments f kinds o = [] ↔ Filled f call (f.signature.indices kinds) := by
  rw [missingArguments, filter_eq_nil_iff]
  refine forall₂_congr fun i hi => ?_
  obtain ⟨p, hp, -⟩ := mem_indices.mp hi
  have hvalue : (!o.isAssigned i && (f.signature.params[i]?.bind fun p => f.default i p).isNone) ↔
      f.pythonValue call i p = none := by
    rw [h.isAssigned hp, hp, pythonValue_eq, or_eq_none_iff, map_eq_none_iff]
    simp
  rw [hvalue]
  constructor
  · intro hne q hq
    rw [hp] at hq
    cases hq
    exact hne
  · exact fun hall => hall p hp

theorem checkDefaults_decides (h : Holds f (staged f call call.keywords) o) :
    Decides (Filled f call (List.range f.signature.params.length)) (Holds f (staged f call call.keywords))
      (checkDefaults f o) := by
  rw [filled_iff]
  unfold checkDefaults
  split
  · next hmissing => exact fun hfilled => hmissing ((missingArguments_eq_nil h).mpr hfilled.1)
  · next hpositional =>
    split
    · next hmissing => exact fun hfilled => hmissing ((missingArguments_eq_nil h).mpr hfilled.2)
    · next hkwOnly =>
      have hpos := (missingArguments_eq_nil h).mp (not_not.mp hpositional)
      have hkw := (missingArguments_eq_nil h).mp (not_not.mp hkwOnly)
      exact ⟨⟨hpos, hkw⟩, h⟩

end

end Soac.Calls
