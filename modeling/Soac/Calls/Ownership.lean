import Soac.Calls.Bind

/-!
# References of the argument binders

A binder holds exactly the references that are in its slots, and on its way those of the value it is going to put into one.
An early exit empties all slots, so it gives up each reference once.
-/

namespace Soac.Calls

open Fallible RefEvent List Out

/-- Every reference that was taken has been given up. -/
def Balanced (events : List (RefEvent ObjId)) : Prop :=
  ∀ v, held events v = 0

/-- What was taken and not given up is in the slots, or among the references at hand. -/
structure Out.OkWith (n : Nat) (refs : List ObjId) (o : Out) : Prop where
  length : o.slots.length = n
  owns : ∀ v, held o.events v = (owned o.slots).count v + refs.count v

/-- All that is held is in the slots. -/
abbrev Out.Ok (n : Nat) (o : Out) : Prop :=
  o.OkWith n []

/-- A result that holds what is in its slots, or nothing when it is a failure. -/
def Safe (n : Nat) : Except Failure Out → Prop
  | .ok o => o.Ok n
  | .error e => Balanced e.events

namespace Out

variable {n i : Nat} {o : Out} {refs : List ObjId}

theorem slot_writeOwned (hi : i < o.slots.length) (value : Value) (j : Nat) :
    (o.writeOwned i value).slot j = if j = i then some value else o.slot j := by
  unfold slot writeOwned
  by_cases hj : j = i
  · subst hj
    rw [if_pos rfl, List.getElem?_set_self hi]
    rfl
  · rw [if_neg hj, List.getElem?_set_ne (Ne.symm hj)]

@[simp]
theorem slot_acquire (o : Out) (value : ObjId) (j : Nat) : (o.acquire value).slot j = o.slot j :=
  rfl

theorem slot_writeBorrowed (hi : i < o.slots.length) (value : ObjId) (j : Nat) :
    (o.writeBorrowed i value).slot j = if j = i then some (.object value) else o.slot j :=
  slot_writeOwned (o := o.acquire value) hi (.object value) j

theorem slot_init (n i : Nat) : (init n).slot i = none := by
  rw [slot, init, List.getElem?_replicate]
  split <;> rfl

theorem owned_cons (slot : Option Value) (slots : List (Option Value)) :
    owned (slot :: slots) = (slot.map Value.refs).getD [] ++ owned slots :=
  flatMap_cons

/-- A slot that gets another value. -/
theorem count_owned_set (slots : List (Option Value)) {old : Option Value} (hi : slots[i]? = some old)
    (value : Value) (v : ObjId) :
    (owned (slots.set i (some value))).count v + ((old.map Value.refs).getD []).count v =
      (owned slots).count v + value.refs.count v := by
  induction slots generalizing i with
  | nil => cases hi
  | cons slot slots ih =>
    cases i with
    | zero =>
      cases hi
      rw [set_cons_zero, owned_cons, owned_cons, count_append, count_append]
      simp only [Option.map_some, Option.getD_some]
      omega
    | succ i =>
      rw [set_cons_succ, owned_cons, owned_cons, count_append, count_append]
      have := ih hi
      omega

theorem getElem?_of_slot (hi : i < o.slots.length) : o.slots[i]? = some (o.slot i) := by
  rw [slot, List.getElem?_eq_getElem hi]
  rfl

theorem owned_replicate (n : Nat) : owned (List.replicate n none) = [] := by
  induction n with
  | zero => rfl
  | succ n ih => rw [replicate_succ, owned_cons, ih]; rfl

theorem ok_init (n : Nat) : (init n).Ok n where
  length := length_replicate
  owns v := by rw [init, owned_replicate]; rfl

namespace OkWith

theorem acquire (h : o.OkWith n refs) (value : ObjId) : (o.acquire value).OkWith n (refs ++ [value]) where
  length := h.length
  owns v := by
    change held (o.events ++ [.acquire value]) v = (owned o.slots).count v + _
    rw [held_concat_acquire, h.owns v, count_append]
    by_cases hv : value = v
    · simp [hv]
      omega
    · simp [hv]

/-- The references at hand go into a slot, together with those that were there. -/
theorem writeOwned (h : o.OkWith n refs) (hi : i < n) {value : Value}
    (hrefs : value.refs.Perm (((o.slot i).map Value.refs).getD [] ++ refs)) : (o.writeOwned i value).Ok n where
  length := by
    rw [Out.writeOwned, length_set]
    exact h.length
  owns v := by
    have hcount := count_owned_set o.slots (getElem?_of_slot (o := o) (h.length ▸ hi)) value v
    have hv := hrefs.count_eq v
    rw [count_append] at hv
    change held o.events v = ((owned (o.slots.set i (some value))).count v : Int) + 0
    rw [h.owns v]
    omega

theorem release (h : o.OkWith n refs) : (o.release refs).Ok n where
  length := h.length
  owns v := by
    change held (o.events ++ refs.map .release) v = ((owned o.slots).count v : Int) + 0
    rw [held_append_release, h.owns v]
    omega

theorem writeBorrowed (h : o.Ok n) (hi : i < n) (hfree : o.slot i = none) (value : ObjId) :
    (o.writeBorrowed i value).Ok n := by
  refine (h.acquire value).writeOwned hi ?_
  rw [slot_acquire, hfree]
  exact .refl _

theorem dictSet (h : o.Ok n) (hi : i < n) (kw : Keyword) : (o.dictSet i kw).Ok n := by
  unfold Out.dictSet
  split
  · next self entries hslot =>
    refine ((h.acquire kw.key).acquire kw.value).writeOwned hi ?_
    rw [slot_acquire, slot_acquire, hslot]
    simp [Value.refs]
  · exact h

theorem fail (h : o.Ok n) (error : BindError) : Safe n (o.fail error) := by
  intro v
  change held (o.events ++ (owned o.slots).map .release) v = 0
  rw [held_append_release, h.owns v]
  simp

end OkWith

end Out

namespace Safe

variable {n : Nat}

theorem bind {r : Except Failure Out} {g : Out → Except Failure Out} (hr : Safe n r)
    (hg : ∀ o, r = .ok o → o.Ok n → Safe n (g o)) : Safe n (r >>= g) := by
  cases r with
  | ok o => exact hg o rfl hr
  | error e => exact hr

theorem foldlM {α : Type} {step : Out → α → Except Failure Out} (as : List α)
    (hstep : ∀ o, o.Ok n → ∀ a ∈ as, Safe n (step o a)) {o : Out} (h : o.Ok n) : Safe n (as.foldlM step o) := by
  induction as generalizing o with
  | nil => exact h
  | cons a as ih =>
    refine (hstep o h a mem_cons_self).bind fun o' _ ho' => ih ?_ ho'
    intro o'' h'' a' ha'
    exact hstep o'' h'' a' (mem_cons_of_mem _ ha')

end Safe

/-! ## The parts of the binders -/

section

variable {n : Nat} {o : Out}

/-- Arguments that are written to free slots, each to one of its own. -/
theorem writePairs_safe (pairs : List (Nat × Option ObjId)) (hnodup : (pairs.map Prod.fst).Nodup)
    (hfree : ∀ i ∈ pairs.map Prod.fst, i < n ∧ o.slot i = none) (h : o.Ok n) :
    Safe n (writePairs pairs o) ∧
      ∀ o', writePairs pairs o = .ok o' → ∀ j, j ∉ pairs.map Prod.fst → o'.slot j = o.slot j := by
  induction pairs generalizing o with
  | nil =>
    refine ⟨h, ?_⟩
    rintro o' ⟨⟩ j -
    rfl
  | cons pair pairs ih =>
    obtain ⟨i, arg⟩ := pair
    rw [map_cons, nodup_cons] at hnodup
    obtain ⟨hi, hslot⟩ := hfree i mem_cons_self
    cases arg with
    | none => exact ⟨h.fail _, nofun⟩
    | some value =>
      have hi' : i < o.slots.length := h.length ▸ hi
      have hfree' : ∀ j ∈ pairs.map Prod.fst, j < n ∧ (o.writeBorrowed i value).slot j = none := by
        intro j hj
        have hne : j ≠ i := by
          rintro rfl
          exact hnodup.1 hj
        rw [slot_writeBorrowed hi', if_neg hne]
        exact hfree j (mem_cons_of_mem _ hj)
      obtain ⟨hsafe, hother⟩ := ih hnodup.2 hfree' (h.writeBorrowed hi hslot value)
      refine ⟨hsafe, ?_⟩
      intro o' ho' j hj
      rw [map_cons, mem_cons, not_or] at hj
      rw [hother o' ho' j hj.2, slot_writeBorrowed hi', if_neg hj.1]

/-- A tuple that is not filled is released with the items it has. -/
theorem fillTuple_safe (tuple : ObjId) (args : List (Option ObjId)) (items : List ObjId)
    (h : o.OkWith n (tuple :: items)) :
    (∀ e, fillTuple tuple args items o = .error e → Balanced e.events) ∧
      ∀ items' o', fillTuple tuple args items o = .ok (items', o') →
        o'.OkWith n (tuple :: items') ∧ o'.slots = o.slots := by
  induction args generalizing items o with
  | nil =>
    refine ⟨nofun, ?_⟩
    rintro items' o' ⟨⟩
    exact ⟨h, rfl⟩
  | cons arg args ih =>
    cases arg with
    | none =>
      refine ⟨?_, nofun⟩
      rintro e ⟨⟩
      exact h.release.fail _
    | some value => exact ih (items ++ [value]) (h.acquire value)

variable (f : Function) (strings : Strings) (native : Native) {sig : Signature} {i : Nat} {kinds : ParamKind → Bool}

theorem mem_indices : i ∈ sig.indices kinds ↔ ∃ p, sig.params[i]? = some p ∧ kinds p.kind := by
  rw [Signature.indices, mem_filter, mem_range, Option.any_eq_true]
  refine and_iff_right_of_imp ?_
  rintro ⟨p, hp, -⟩
  exact (List.getElem?_eq_some_iff.mp hp).1

theorem nodup_indices (sig : Signature) (kinds : ParamKind → Bool) : (sig.indices kinds).Nodup :=
  nodup_range.filter _

theorem lt_of_mem_indices (h : i ∈ sig.indices kinds) : i < sig.params.length := by
  obtain ⟨p, hp, -⟩ := mem_indices.mp h
  exact (List.getElem?_eq_some_iff.mp hp).1

section Index

variable {α : Type} {P : α → Prop} [DecidablePred P] {as : List α}

theorem exists_of_findIdx? (h : as.findIdx? (fun a => P a) = some i) : ∃ a, as[i]? = some a ∧ P a := by
  obtain ⟨hi, hP, -⟩ := List.findIdx?_eq_some_iff_getElem.mp h
  exact ⟨_, List.getElem?_eq_getElem hi, of_decide_eq_true hP⟩

/-- An element that can be found is the one that is found, if there is only one. -/
theorem findIdx?_iff_of_unique (hone : ∀ {i j : Nat} {a b : α}, as[i]? = some a → as[j]? = some b → P a → P b → i = j) :
    as.findIdx? (fun a => P a) = some i ↔ ∃ a, as[i]? = some a ∧ P a := by
  refine ⟨exists_of_findIdx?, ?_⟩
  rintro ⟨a, ha, hP⟩
  cases hj : as.findIdx? P with
  | none => exact absurd hP (of_decide_eq_false (List.findIdx?_eq_none_iff.mp hj a (mem_of_getElem? ha)))
  | some j =>
    obtain ⟨b, hb, hQ⟩ := exists_of_findIdx? hj
    rw [hone hb ha hQ hP]

end Index

theorem varargIndex_eq_some (h : sig.varargIndex = some i) : ∃ p, sig.params[i]? = some p ∧ p.kind = .varArg :=
  exists_of_findIdx? h

theorem kwargIndex_eq_some (h : sig.kwargIndex = some i) : ∃ p, sig.params[i]? = some p ∧ p.kind = .kwArg :=
  exists_of_findIdx? h

variable (args : List (Option ObjId))

/-- The slots of the variadic parameters are free until their containers are there. -/
theorem bindPositional_safe : Safe f.signature.params.length (bindPositional f args (.init f.signature.params.length)) ∧
      ∀ o, bindPositional f args (.init f.signature.params.length) = .ok o →
        ∀ j, j ∉ f.signature.positionalParamIndices → o.slot j = none := by
  have hsub := map_fst_zip_sublist f.signature.positionalParamIndices args
  obtain ⟨hsafe, hother⟩ := writePairs_safe (n := f.signature.params.length)
    (f.signature.positionalParamIndices.zip args) (hsub.nodup (nodup_indices _ _))
    (fun i hi => ⟨lt_of_mem_indices (hsub.subset hi), slot_init _ i⟩) (ok_init _)
  refine ⟨hsafe, ?_⟩
  intro o ho j hj
  rw [hother o ho j fun hmem => hj (hsub.subset hmem), slot_init]

/-- Collecting the extra positional arguments writes no other slot. -/
theorem bindVarargs_safe (h : o.Ok f.signature.params.length)
    (hfree : ∀ i, f.signature.varargIndex = some i → o.slot i = none) :
    Safe f.signature.params.length (bindVarargs f native args o) ∧
      ∀ o', bindVarargs f native args o = .ok o' → ∀ j, f.signature.varargIndex ≠ some j → o'.slot j = o.slot j := by
  unfold bindVarargs
  split
  · refine ⟨h, ?_⟩
    rintro o' ⟨⟩ j -
    rfl
  · next i hi =>
    have hlt := (List.findIdx?_eq_some_iff_getElem.mp hi).1
    split
    · exact ⟨h.fail _, nofun⟩
    · next tuple _ =>
      obtain ⟨herr, hok⟩ := fillTuple_safe tuple (args.drop f.signature.positionalCapacity) [] (h.acquire tuple)
      cases hfill : fillTuple tuple (args.drop f.signature.positionalCapacity) [] (o.acquire tuple) with
      | error e => exact ⟨herr e hfill, nofun⟩
      | ok result =>
        obtain ⟨items, o1⟩ := result
        obtain ⟨h1, hslots⟩ := hok items o1 hfill
        have hslot : ∀ j, o1.slot j = o.slot j := fun j => by rw [slot, hslots]; rfl
        refine ⟨h1.writeOwned hlt ?_, ?_⟩
        · rw [hslot, hfree i hi]
          exact .refl _
        · rintro o' ⟨⟩ j hj
          rw [slot_writeOwned (h1.length ▸ hlt), if_neg fun heq : j = i => hj (heq ▸ hi), hslot]

theorem bindVarkw_safe (h : o.Ok f.signature.params.length)
    (hfree : ∀ i, f.signature.kwargIndex = some i → o.slot i = none) :
    Safe f.signature.params.length (bindVarkw f native o) := by
  unfold bindVarkw
  split
  · exact h
  · next i hi =>
    split
    · exact h.fail _
    · next dict _ =>
      refine (h.acquire dict).writeOwned (List.findIdx?_eq_some_iff_getElem.mp hi).1 ?_
      rw [slot_acquire, hfree i hi]
      exact .refl _

theorem isAssigned_eq_false (h : ¬o.isAssigned i) : o.slot i = none :=
  Option.not_isSome_iff_eq_none.mp h

/-- An argument goes to a slot that was found to be free. -/
theorem write_safe (h : o.Ok n) (hi : i < n) (hfree : ¬o.isAssigned i) (value : ObjId) :
    Safe n (.ok (o.writeBorrowed i value)) :=
  h.writeBorrowed hi (isAssigned_eq_false hfree) value

theorem insertVarkw_safe (h : o.Ok n) (hi : i < n) (kw : Keyword) : Safe n (insertVarkw native i kw o) := by
  unfold insertVarkw
  split
  · exact h.dictSet hi kw
  · exact h.fail _

theorem kwargIndex_lt (h : sig.kwargIndex = some i) : i < sig.params.length :=
  (List.findIdx?_eq_some_iff_getElem.mp h).1

theorem mem_keywordParameterIndices :
    i ∈ keywordParameterIndices f ↔ ∃ p, f.signature.params[i]? = some p ∧ keywordKind p.kind := by
  rw [keywordParameterIndices, mem_filter, Option.any_eq_true]
  refine and_iff_right_of_imp fun ⟨p, hp, hk⟩ => ?_
  simp only [mem_append]
  have hkind : positionalKind p.kind ∨ decide (p.kind = .kwOnly) := by
    revert hk
    cases p.kind <;> decide
  rcases hkind with hkind | hkind
  · exact .inl (.inl (.inl (mem_indices.mpr ⟨p, hp, hkind⟩)))
  · exact .inl (.inl (.inr (mem_indices.mpr ⟨p, hp, hkind⟩)))

theorem matchKeyword_mem {key : ObjId} (h : matchKeyword f strings native key = .ok (some i)) :
    i ∈ keywordParameterIndices f := by
  unfold matchKeyword at h
  split at h
  · next j hj =>
    cases h
    exact mem_of_find?_eq_some hj
  · split at h
    · exact mem_of_find?_eq_some (Except.ok.inj h)
    · cases h

/-- A keyword goes into a free slot or the `**` dictionary, or all that is held is released. -/
theorem bindKeyword_safe (keywords : List RawKeyword) (h : o.Ok f.signature.params.length) (kw : RawKeyword) :
    Safe f.signature.params.length (bindKeyword f strings native keywords o kw) := by
  unfold bindKeyword
  split
  · exact h.fail _
  · split
    · exact h.fail _
    · split
      · exact h.fail _
      · next i hi =>
        split
        · exact h.fail _
        · next hfree =>
          obtain ⟨p, hp, -⟩ := (mem_keywordParameterIndices f).mp (matchKeyword_mem f strings native hi)
          exact write_safe h (List.getElem?_eq_some_iff.mp hp).1 hfree _
      · split
        · next hi => exact insertVarkw_safe native h (kwargIndex_lt hi) _
        · split <;> exact h.fail _

/-- A keyword that no parameter takes by its name. -/
def unnamedKeyword (kw : Keyword) (o : Out) : Except Failure Out :=
  match f.signature.kwargIndex with
  | some varkw => insertVarkw native varkw kw o
  | none => o.fail (.unexpectedKeyword kw.key)

theorem bindEntryKeyword_safe (h : o.Ok f.signature.params.length) (kw : RawKeyword) :
    Safe f.signature.params.length (bindEntryKeyword f strings native o kw) := by
  have hunnamed : ∀ value, Safe f.signature.params.length (unnamedKeyword f native { key := kw.key, value } o) := by
    intro value
    unfold unnamedKeyword
    split
    · next hi => exact insertVarkw_safe native h (kwargIndex_lt hi) _
    · exact h.fail _
  unfold bindEntryKeyword
  split
  · exact h.fail _
  · split
    · exact h.fail _
    · split
      · exact h.fail _
      · dsimp only
        split
        · exact hunnamed _
        · next i hi =>
          split
          · exact hunnamed _
          · exact hunnamed _
          · exact hunnamed _
          all_goals
            split
            · exact h.fail _
            · next hfree => exact write_safe h (List.findIdx?_eq_some_iff_getElem.mp hi).1 hfree _

theorem bindPositionalDefault_ok (h : o.Ok f.signature.params.length) (hi : i < f.signature.params.length)
    (position : Nat) : (bindPositionalDefault f o i position).Ok f.signature.params.length := by
  unfold bindPositionalDefault
  dsimp only
  split
  · exact h
  · next hfree =>
    split
    · exact h.writeBorrowed hi (isAssigned_eq_false hfree) _
    · exact h

theorem foldl_positionalDefault_ok (pairs : List (Nat × Nat)) (hpairs : ∀ pair ∈ pairs, pair.1 < f.signature.params.length)
    (h : o.Ok f.signature.params.length) :
    (pairs.foldl (fun o pair => bindPositionalDefault f o pair.1 pair.2) o).Ok f.signature.params.length :=
  foldlRecOn (motive := Out.Ok _) pairs _ h fun _ h pair hp => bindPositionalDefault_ok f h (hpairs pair hp) pair.2

theorem foldlM_keywordDefault_safe (is : List Nat) (his : ∀ i ∈ is, i < f.signature.params.length)
    (h : o.Ok f.signature.params.length) (missing : List Nat) :
    (∀ e, is.foldlM (bindKeywordDefault f native) (o, missing) = .error e → Balanced e.events) ∧
      ∀ state, is.foldlM (bindKeywordDefault f native) (o, missing) = .ok state →
        state.1.Ok f.signature.params.length := by
  induction is generalizing o missing with
  | nil =>
    refine ⟨nofun, ?_⟩
    rintro state ⟨⟩
    exact h
  | cons i is ih =>
    have his' : ∀ j ∈ is, j < f.signature.params.length := fun j hj => his j (mem_cons_of_mem _ hj)
    rw [foldlM_cons]
    unfold bindKeywordDefault
    split
    · exact ih his' h missing
    · next hfree =>
      split
      · split
        · exact ih his' (h.writeBorrowed (his i mem_cons_self) (isAssigned_eq_false hfree) _) missing
        · exact ih his' h _
      · refine ⟨?_, nofun⟩
        rintro e ⟨⟩
        exact h.fail _

section

variable (h : o.Ok f.signature.params.length)
include h

theorem bindCurrentFunctionDefaults_safe : Safe f.signature.params.length (bindCurrentFunctionDefaults f native o) := by
  unfold bindCurrentFunctionDefaults
  dsimp only
  split
  · exact h.fail _
  · have hfill := foldl_positionalDefault_ok f f.signature.positionalParamIndices.zipIdx (fun pair hp =>
      lt_of_mem_indices (fst_mem_of_mem_zipIdx hp)) h
    obtain ⟨herr, hok⟩ := foldlM_keywordDefault_safe f native (f.signature.indices (· = .kwOnly))
      (fun i hi => lt_of_mem_indices hi) hfill []
    cases hfold : (f.signature.indices (· = .kwOnly)).foldlM (bindKeywordDefault f native)
      (f.signature.positionalParamIndices.zipIdx.foldl (fun o pair => bindPositionalDefault f o pair.1 pair.2) o, []) with
    | error e => exact herr e hfold
    | ok state =>
      have hstate := hok state hfold
      rw [ok_bind]
      split
      · exact hstate.fail _
      · exact hstate

theorem checkDefaults_safe : Safe f.signature.params.length (checkDefaults f o) := by
  unfold checkDefaults
  split
  · exact h.fail _
  · split
    · exact h.fail _
    · exact h

theorem bindEntryDefault_safe (hi : i < f.signature.params.length) :
    Safe f.signature.params.length (bindEntryDefault f o i) := by
  unfold bindEntryDefault
  split
  · exact h
  · next hfree =>
    split
    · exact h
    · split
      · split
        · exact write_safe h hi hfree _
        · exact h.fail _
      · exact h

end

/-- The parts that both binders begin with. -/
theorem bindContainers_safe {g : Out → Except Failure Out}
    (hg : ∀ o, o.Ok f.signature.params.length → Safe f.signature.params.length (g o)) :
    Safe f.signature.params.length (do
      let o ← bindPositional f args (.init f.signature.params.length)
      let o ← bindVarargs f native args o
      let o ← bindVarkw f native o
      g o) := by
  obtain ⟨hpos, hfree⟩ := bindPositional_safe f args
  refine hpos.bind fun o1 h1 hok1 => ?_
  have hvararg : ∀ i, f.signature.varargIndex = some i → o1.slot i = none := by
    intro i hi
    obtain ⟨p, hp, hkind⟩ := varargIndex_eq_some hi
    refine hfree o1 h1 i fun hmem => ?_
    obtain ⟨q, hq, hq'⟩ := mem_indices.mp hmem
    cases hp.symm.trans hq
    rw [hkind] at hq'
    cases hq'
  obtain ⟨hvar, hother⟩ := bindVarargs_safe f native args hok1 hvararg
  refine hvar.bind fun o2 h2 hok2 => ?_
  have hkwarg : ∀ i, f.signature.kwargIndex = some i → o2.slot i = none := by
    intro i hi
    obtain ⟨p, hp, hkind⟩ := kwargIndex_eq_some hi
    rw [hother o2 h2 i]
    · refine hfree o1 h1 i fun hmem => ?_
      obtain ⟨q, hq, hq'⟩ := mem_indices.mp hmem
      cases hp.symm.trans hq
      rw [hkind] at hq'
      cases hq'
    · intro hi'
      obtain ⟨q, hq, hq'⟩ := varargIndex_eq_some hi'
      cases hp.symm.trans hq
      rw [hkind] at hq'
      cases hq'
  exact (bindVarkw_safe f native hok2 hkwarg).bind fun o3 _ hok3 => hg o3 hok3

/-- The first binder gives up what it holds on every early exit. -/
theorem bindFunctionArgsToOutput_safe (activation : Bool) (call : RawCall) :
    Safe f.signature.params.length (bindFunctionArgsToOutput f strings native activation call) := by
  unfold bindFunctionArgsToOutput
  split
  · have hsub := map_fst_zip_sublist (List.range f.signature.params.length) call.positional
    refine (writePairs_safe _ (hsub.nodup nodup_range) ?_ (ok_init _)).1
    intro i hi
    exact ⟨mem_range.mp (hsub.subset hi), slot_init _ i⟩
  · split
    · exact fun v => rfl
    · refine bindContainers_safe f native call.positional fun o h => ?_
      refine (Safe.foldlM call.keywords (fun o h kw _ => bindKeyword_safe f strings native call.keywords h kw) h).bind ?_
      intro o' _ h'
      split
      · exact h'.fail _
      · split
        · exact bindCurrentFunctionDefaults_safe f native h'
        · exact checkDefaults_safe f h'

/-- So does the entry interpreter's own. -/
theorem bindEntryParams_safe (call : RawCall) :
    Safe f.signature.params.length (bindEntryParams f strings native call) := by
  unfold bindEntryParams
  split
  · exact fun v => rfl
  · refine bindContainers_safe f native call.positional fun o h => ?_
    refine (Safe.foldlM call.keywords (fun o h kw _ => bindEntryKeyword_safe f strings native h kw) h).bind ?_
    intro o' _ h'
    exact Safe.foldlM _ (fun o h i hi => bindEntryDefault_safe f h (mem_range.mp hi)) h'

end

end Soac.Calls
