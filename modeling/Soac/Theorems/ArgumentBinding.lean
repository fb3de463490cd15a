import Mathlib.Logic.Equiv.List
import Soac.Calls.Stages

/-!
# Argument binding follows Python

Both binders against Python's rules for calls. With an activation they accept the calls that Python accepts and bind each
parameter to the value that Python binds it to. Without one, the entry interpreter reads the names of keywords as UTF-8
text, which a string with a surrogate does not have, and the first binder leaves the defaults to the entry code. On an
early exit no reference is left behind, whatever the arguments are.
-/

namespace Soac.Calls

open Fallible List Option

/-- Where the locals of the entry interpreter come from: each parameter has one local. -/
structure EntryPlan (sig : Signature) where
  locals : List (Option Nat)
  once : ∀ i < sig.params.length, locals.count (some i) = 1

section

variable (f : Function) {strings : Strings} (call : Call strings) {native : Native}

/-- Every parameter has been bound to the value of Python's rules. -/
def BoundAsPython (o : Out) : Prop :=
  ∀ i p, f.signature.params[i]? = some p → (o.slot i).map Value.content = f.pythonValue call i p

/-- The local of every parameter holds the value of Python's rules. -/
def LocalsAsPython (plan : EntryPlan f.signature) (locals : List (Option Value)) : Prop :=
  ∀ i p, f.signature.params[i]? = some p →
    ∃ k : Nat, plan.locals[k]? = some (some i) ∧ ((locals[k]?).getD none).map Value.content = f.pythonValue call i p

/-- The names of all keywords have a UTF-8 text. -/
def NamesAreUtf8 : Prop :=
  ∀ kw ∈ call.keywords, ((strings.content kw.key).bind PyStr.utf8?).isSome

/-- No parameter is left to its default. -/
def NeedsNoDefault : Prop :=
  ∀ i p, f.signature.params[i]? = some p → singleKind p.kind = true →
    f.positionalValue call i ≠ none ∨ Function.keywordValue call p ≠ none

/-! ## The conditions of Python, in the order of the binders -/

theorem known_once_iff : (∀ kw ∈ call.keywords, Fits f call kw) ↔
    (∀ kw ∈ call.keywords, (∃ p ∈ f.signature.params, Function.Takes strings p kw) ∨
      ∃ p ∈ f.signature.params, p.kind = .kwArg) ∧
    ∀ i p, f.signature.params[i]? = some p → f.positionalValue call i = none ∨ Function.keywordValue call p = none := by
  constructor
  · intro hfits
    constructor
    · intro kw hkw
      cases htaker : taker f strings kw with
      | some i =>
        obtain ⟨p, hp, htakes⟩ := (taker_eq_some_iff f).mp htaker
        exact .inl ⟨p, mem_of_getElem? hp, htakes⟩
      | none =>
        obtain ⟨i, hi⟩ := ne_none_iff_exists'.mp ((hfits kw hkw).known htaker)
        obtain ⟨p, hp, hkind⟩ := kwargIndex_eq_some hi
        exact .inr ⟨p, mem_of_getElem? hp, hkind⟩
    · intro i p hp
      cases hfind : call.keywords.find? fun kw => Function.Takes strings p kw with
      | none => exact .inr (by rw [Function.keywordValue, hfind]; rfl)
      | some kw =>
        have htakes : Function.Takes strings p kw := by simpa using List.find?_some hfind
        exact .inl ((hfits kw (mem_of_find?_eq_some hfind)).free i ((taker_eq_some_iff f).mpr ⟨p, hp, htakes⟩))
  · rintro ⟨hknown, honce⟩ kw hkw
    constructor
    · intro i htaker
      obtain ⟨p, hp, htakes⟩ := (taker_eq_some_iff f).mp htaker
      refine (honce i p hp).resolve_right fun hnone => ?_
      rw [Function.keywordValue, map_eq_none_iff, List.find?_eq_none] at hnone
      exact hnone kw hkw (decide_eq_true htakes)
    · intro htaker
      rcases hknown kw hkw with ⟨p, hp, htakes⟩ | ⟨p, hp, hkind⟩
      · exact absurd htakes ((taker_eq_none_iff f).mp htaker p hp)
      · obtain ⟨i, hi⟩ := mem_iff_getElem?.mp hp
        rw [(kwargIndex_eq_some_iff f).mpr ⟨p, hi, hkind⟩]
        nofun

theorem room_iff : ¬(f.signature.varargIndex = none ∧ f.signature.positionalCapacity < call.positional.length) ↔
    call.positional.length ≤ f.signature.positionalCapacity ∨ ∃ p ∈ f.signature.params, p.kind = .varArg := by
  rw [not_and_or, Nat.not_lt, or_comm, ← ne_eq, ne_none_iff_exists']
  refine or_congr_right ⟨?_, ?_⟩
  · rintro ⟨i, hi⟩
    obtain ⟨p, hp, hkind⟩ := varargIndex_eq_some hi
    exact ⟨p, mem_of_getElem? hp, hkind⟩
  · rintro ⟨p, hp, hkind⟩
    obtain ⟨i, hi⟩ := mem_iff_getElem?.mp hp
    exact ⟨i, (varargIndex_eq_some_iff f).mpr ⟨p, hi, hkind⟩⟩

theorem pythonValue_ne_none {i : Nat} {p : Param} : f.pythonValue call i p ≠ none ↔ (singleKind p.kind →
    f.positionalValue call i ≠ none ∨ Function.keywordValue call p ≠ none ∨ f.default i p ≠ none) := by
  unfold Function.pythonValue
  cases p.kind with
  | varArg | kwArg => simp [singleKind]
  | posOnly | any | kwOnly => simp [singleKind, or_eq_none_iff]; tauto

theorem accepts_iff : f.Accepts call ↔ (∀ kw ∈ call.keywords, Fits f call kw) ∧
    ¬(f.signature.varargIndex = none ∧ f.signature.positionalCapacity < call.positional.length) ∧
    Filled f call (List.range f.signature.params.length) := by
  have hfilled : Filled f call (List.range f.signature.params.length) ↔
      ∀ i p, f.signature.params[i]? = some p → f.pythonValue call i p ≠ none :=
    ⟨fun h i p hp => h i (mem_range.mpr (List.getElem?_eq_some_iff.mp hp).1) p hp, fun h i _ p hp => h i p hp⟩
  rw [known_once_iff, room_iff, hfilled]
  constructor
  · intro h
    exact ⟨⟨h.known, h.once⟩, h.room, fun i p hp => (pythonValue_ne_none f call).mpr (h.filled i p hp)⟩
  · rintro ⟨⟨hknown, honce⟩, hroom, hvalue⟩
    exact ⟨hroom, hknown, honce, fun i p hp => (pythonValue_ne_none f call).mp (hvalue i p hp)⟩

/-! ## The binders -/

theorem keywords_raw (emptyNames : Bool) : (call.raw emptyNames).keywords =
    call.keywords.map fun kw => (⟨kw.key, some kw.value⟩ : RawKeyword) := by
  unfold RawCall.keywords Call.raw
  split
  · next h => rw [h.1]; rfl
  · rfl

/-- The containers are made, and the keywords are bound one after the other. -/
theorem bindContainers_decides {step : Out → RawKeyword → Except Failure Out} (hnative : native.Works)
    (hsteps : ∀ kw ∈ call.keywords, KeywordStep f strings step kw) (emptyNames : Bool) {P : Prop} {Q : Out → Prop}
    {g : Out → Except Failure Out} (hg : ∀ o, Holds f (staged f call call.keywords) o → Decides P Q (g o)) :
    Decides ((∀ kw ∈ call.keywords, Fits f call kw) ∧ P) Q (do
      let o ← bindPositional f (call.raw emptyNames).positional (.init f.signature.params.length)
      let o ← bindVarargs f native (call.raw emptyNames).positional o
      let o ← bindVarkw f native o
      let o ← (call.raw emptyNames).keywords.foldlM step o
      g o) := by
  obtain ⟨o₁, ho₁, h₁⟩ := bindPositional_holds f call
  obtain ⟨o₂, ho₂, h₂⟩ := bindVarargs_holds f call hnative h₁
  obtain ⟨o₃, ho₃, h₃⟩ := bindVarkw_holds f call hnative h₂
  rw [keywords_raw, Call.raw, ho₁, ok_bind, ho₂, ok_bind, ho₃]
  have hkeywords := keywords_decide call.keywords hsteps (by rw [nil_append]; exact call.distinct) h₃
  exact hkeywords.bind fun o _ ho => hg o ho

theorem positionalParamIndices_eq_range (h : f.signature.positionalCapacity = f.signature.params.length) :
    f.signature.positionalParamIndices = List.range f.signature.params.length := by
  refine filter_eq_self.mpr (length_filter_eq_length_iff.mp ?_)
  rw [length_range]
  exact h

variable {emptyNames : Bool}

theorem bindsExactPositional_iff (h : bindsExactPositional f (call.raw emptyNames)) :
    call.keywords = [] ∧ f.signature.varargIndex = none ∧ f.signature.kwargIndex = none ∧
      f.signature.positionalCapacity = f.signature.params.length ∧ call.positional.length = f.signature.params.length := by
  obtain ⟨hnames, habi, hlength⟩ := of_decide_eq_true h
  obtain ⟨hvararg, hkwarg, hcapacity⟩ := of_decide_eq_true habi
  rw [Call.raw, length_map] at hlength
  refine ⟨?_, hvararg, hkwarg, hcapacity, hlength⟩
  unfold Call.raw at hnames
  split at hnames
  · next hempty => exact hempty.1
  · cases hnames

theorem positionalValue_exact (hcapacity : f.signature.positionalCapacity = f.signature.params.length)
    (hlength : call.positional.length = f.signature.params.length) {i : Nat} (hi : i < f.signature.params.length) :
    f.positionalValue call i ≠ none := by
  rw [Function.positionalValue, positionalParamIndices_eq_range f hcapacity]
  intro hnone
  rw [lookup_eq_none_iff] at hnone
  have hmem : (i, call.positional.get ⟨i, by omega⟩) ∈ (List.range f.signature.params.length).zip call.positional := by
    refine mem_iff_getElem?.mpr ⟨i, ?_⟩
    rw [List.getElem?_zip_eq_some]
    exact ⟨by rw [List.getElem?_range hi], List.getElem?_eq_getElem (by omega)⟩
  simpa using hnone _ hmem

section

variable (hnative : native.Works)
include hnative

/-- One positional argument for each parameter: there is nothing else to bind. -/
theorem bindExactPositional_decides (hexact : bindsExactPositional f (call.raw emptyNames)) :
    Decides (f.Accepts call) (fun o => Holds f (f.pythonValue call) o ∧ Holds f (staged f call call.keywords) o)
      (bindExactPositional f (call.raw emptyNames).positional (.init f.signature.params.length)) := by
  obtain ⟨hkeywords, hvararg, hkwarg, hcapacity, hlength⟩ := bindsExactPositional_iff f call hexact
  obtain ⟨o, ho, h₁⟩ := bindPositional_holds f call
  obtain ⟨o₂, ho₂, h₂⟩ := bindVarargs_holds f call hnative h₁
  obtain ⟨o₃, ho₃, h₃⟩ := bindVarkw_holds f call hnative h₂
  rw [bindVarargs, hvararg] at ho₂
  cases ho₂
  rw [bindVarkw, hkwarg] at ho₃
  cases ho₃
  rw [← hkeywords] at h₃
  have hvalue : ∀ i p, f.signature.params[i]? = some p → staged f call call.keywords i p ≠ none := by
    intro i p hp
    rw [← h₃.content i p hp, h₁.content i p hp, wantPositional, ne_eq, map_eq_none_iff]
    exact positionalValue_exact f call hcapacity hlength (List.getElem?_eq_some_iff.mp hp).1
  have hsame : ∀ i p, f.signature.params[i]? = some p → staged f call call.keywords i p = f.pythonValue call i p := by
    intro i p hp
    obtain ⟨value, hv⟩ := ne_none_iff_exists'.mp (hvalue i p hp)
    rw [pythonValue_eq, hv]
    rfl
  have haccepts : f.Accepts call := by
    refine (accepts_iff f call).mpr ⟨?_, ?_, ?_⟩
    · rw [hkeywords]
      exact List.forall_mem_nil _
    · rintro ⟨-, hlt⟩
      omega
    · intro i _ p hp
      rw [← hsame i p hp]
      exact hvalue i p hp
  rw [bindExactPositional, ← positionalParamIndices_eq_range f hcapacity]
  change Decides _ _ (bindPositional f (call.positional.map some) _)
  rw [ho]
  exact ⟨haccepts, h₃.imp hsame, h₃⟩

/-- The first binder: with an activation it takes the defaults, without one it only checks that they are there. -/
theorem bindFunctionArgsToOutput_decides (emptyNames activation : Bool) :
    Decides (f.Accepts call) (Holds f (if activation then f.pythonValue call else staged f call call.keywords))
      (bindFunctionArgsToOutput f strings native activation (call.raw emptyNames)) := by
  unfold bindFunctionArgsToOutput
  by_cases hexact : bindsExactPositional f (call.raw emptyNames)
  · rw [if_pos hexact]
    refine (bindExactPositional_decides f call hnative hexact).imp Iff.rfl fun o _ ho => ?_
    cases activation with
    | true => exact ho.1
    | false => exact ho.2
  · have hnames : ¬native.names = false := by
      rw [hnative.1]
      decide
    rw [if_neg hexact, if_neg hnames]
    refine (bindContainers_decides f call hnative
      (fun kw hkw => bindKeyword_step f hnative (call.raw emptyNames).keywords (call.named kw hkw)) emptyNames
      (P := ¬(f.signature.varargIndex = none ∧ f.signature.positionalCapacity < call.positional.length) ∧
        Filled f call (List.range f.signature.params.length)) fun o ho => ?_).imp (accepts_iff f call).symm fun o _ ho => ho
    have hlength : (call.raw emptyNames).positional.length = call.positional.length := length_map ..
    by_cases hexcess : f.signature.varargIndex = none ∧ f.signature.positionalCapacity < call.positional.length
    · rw [hlength, if_pos hexcess]
      exact fun h => h.1 hexcess
    · rw [hlength, if_neg hexcess]
      cases activation with
      | true => exact (bindCurrentFunctionDefaults_decides hnative ho).imp (and_iff_right hexcess).symm fun o _ ho => ho
      | false => exact (checkDefaults_decides ho).imp (and_iff_right hexcess).symm fun o _ ho => ho

/-- The entry interpreter's own binder, when all names have a UTF-8 text. -/
theorem bindEntryParams_decides (emptyNames : Bool) (hnames : NamesAreUtf8 call) :
    Decides (f.Accepts call) (Holds f (f.pythonValue call)) (bindEntryParams f strings native (call.raw emptyNames)) := by
  have hlength : (call.raw emptyNames).positional.length = call.positional.length := length_map ..
  unfold bindEntryParams
  rw [hlength]
  split
  · next hexcess => exact fun h => ((accepts_iff f call).mp h).2.1 hexcess
  · next hroom =>
    have hsteps : ∀ kw ∈ call.keywords, KeywordStep f strings (bindEntryKeyword f strings native) kw := by
      intro kw hkw
      obtain ⟨name, hname⟩ := isSome_iff_exists.mp (hnames kw hkw)
      obtain ⟨key, hkey, hname⟩ := bind_eq_some_iff.mp hname
      exact bindEntryKeyword_step f hnative hkey hname
    refine (bindContainers_decides f call hnative hsteps emptyNames
      (P := Filled f call (List.range f.signature.params.length)) fun o ho => ?_).imp ?_ fun o _ ho => ho
    · have hstart : Holds f (upTo f call []) o := by
        exact ho
      refine (bindEntryDefaults_decide _ (fun i hi => mem_range.mp hi) hstart).imp Iff.rfl fun o' _ ho' => ?_
      refine holds_of_upTo ho' fun i p hp _ => ?_
      rw [append_nil, mem_reverse, mem_range]
      exact (List.getElem?_eq_some_iff.mp hp).1
    · rw [accepts_iff, and_iff_right hroom]

/-- A name without a UTF-8 text makes the entry interpreter fail. -/
theorem bindEntryParams_eq_error (emptyNames : Bool) (hnames : ¬NamesAreUtf8 call) :
    ∃ e, bindEntryParams f strings native (call.raw emptyNames) = .error e := by
  unfold NamesAreUtf8 at hnames
  push Not at hnames
  obtain ⟨kw, hkw, hname⟩ := hnames
  obtain ⟨key, hkey⟩ := isSome_iff_exists.mp (call.named kw hkw)
  have hnone : key.utf8? = none := by
    rw [hkey] at hname
    simpa using hname
  unfold bindEntryParams
  dsimp only
  split
  · exact ⟨_, rfl⟩
  · obtain ⟨o₁, ho₁, h₁⟩ := bindPositional_holds f call
    obtain ⟨o₂, ho₂, h₂⟩ := bindVarargs_holds f call hnative h₁
    obtain ⟨o₃, ho₃, h₃⟩ := bindVarkw_holds f call hnative h₂
    rw [keywords_raw, Call.raw, ho₁, ok_bind, ho₂, ok_bind, ho₃, ok_bind]
    have hfails : ∀ o, ∃ e, bindEntryKeyword f strings native o ⟨kw.key, some kw.value⟩ = .error e := by
      intro o
      simp only [bindEntryKeyword, hkey, hnone]
      exact ⟨_, rfl⟩
    obtain ⟨e, he⟩ := exists_foldlM_eq_error
      (mem_map_of_mem (f := fun kw : Keyword => (⟨kw.key, some kw.value⟩ : RawKeyword)) hkw) hfails o₃
    rw [he]
    exact ⟨e, rfl⟩

end

/-! ## The locals of the entry interpreter -/

variable {locals : List (Option Nat)}

theorem entryLocals_getElem? {values : List (Option Value)} {i k : Nat}
    (hk : locals[k]? = some (some i)) (honce : locals.count (some i) = 1) :
    (entryLocals locals values)[k]? = some ((values[i]?).getD none) := by
  induction locals generalizing values k with
  | nil => cases hk
  | cons l locals ih =>
    cases k with
    | zero =>
      cases hk
      rfl
    | succ k =>
      have hmem : 0 < locals.count (some i) := count_pos_iff.mpr (mem_of_getElem? hk)
      rw [count_cons] at honce
      have hrest : locals.count (some i) = 1 := by omega
      cases l with
      | none =>
        exact ih hk hrest
      | some j =>
        -- The value has not moved to an earlier local.
        have hne : j ≠ i := by
          rintro rfl
          rw [beq_self_eq_true, if_pos rfl] at honce
          omega
        rw [entryLocals, List.getElem?_cons_succ, ih hk hrest, List.getElem?_set_ne hne]

variable {plan : EntryPlan f.signature}

theorem locals_as_python {o : Out} (h : Holds f (f.pythonValue call) o) :
    LocalsAsPython f call plan (entryLocals plan.locals o.slots) := by
  intro i p hp
  have honce := plan.once i (List.getElem?_eq_some_iff.mp hp).1
  obtain ⟨k, hk⟩ := mem_iff_getElem?.mp (count_pos_iff.mp (by omega : 0 < plan.locals.count (some i)))
  refine ⟨k, hk, ?_⟩
  rw [entryLocals_getElem? hk honce]
  exact h.content i p hp

variable {activation : Bool}

theorem buildEntryLocalValues_decides (h : Decides (f.Accepts call) (Holds f (f.pythonValue call))
      (if activation then bindFunctionArgsToOutput f strings native true (call.raw emptyNames)
        else bindEntryParams f strings native (call.raw emptyNames))) :
    Decides (f.Accepts call) (LocalsAsPython f call plan)
      (buildEntryLocalValues f strings native activation plan.locals (call.raw emptyNames)) := by
  have hlocals : ∀ o, f.Accepts call → Holds f (f.pythonValue call) o → Decides True (LocalsAsPython f call plan)
      (.ok (entryLocals plan.locals o.slots) : Except Failure _) :=
    fun o _ ho => ⟨trivial, locals_as_python f call ho⟩
  cases activation with
  | true | false => exact (h.bind hlocals).imp (by rw [and_true]) fun o _ ho => ho

/-! ## Without an activation -/

theorem holds_staged_iff {o : Out} (h : Holds f (staged f call call.keywords) o) (haccepts : f.Accepts call) :
    BoundAsPython f call o ↔ NeedsNoDefault f call := by
  have hsingle : ∀ i p, f.signature.params[i]? = some p →
      (staged f call call.keywords i p = f.pythonValue call i p ↔ (singleKind p.kind →
        f.positionalValue call i ≠ none ∨ Function.keywordValue call p ≠ none)) := by
    intro i p hp
    cases hkind : singleKind p.kind with
    | false =>
      obtain ⟨value, hv⟩ := ne_none_iff_exists'.mp (staged_variadic hkind)
      rw [pythonValue_eq, hv]
      simp
    | true =>
      have hfilled := (pythonValue_ne_none f call).mpr (haccepts.filled i p hp)
      have hstaged : staged f call call.keywords i p = none ↔
          f.positionalValue call i = none ∧ Function.keywordValue call p = none := by
        rw [staged_single hkind, map_eq_none_iff, or_eq_none_iff]
        rfl
      constructor
      · intro hsame _
        rw [← hsame, ne_eq, hstaged] at hfilled
        exact not_and_or.mp hfilled
      · intro hgiven
        have hne : staged f call call.keywords i p ≠ none := by
          rw [ne_eq, hstaged, not_and_or]
          exact hgiven rfl
        obtain ⟨value, hv⟩ := ne_none_iff_exists'.mp hne
        rw [pythonValue_eq, hv]
        rfl
  constructor
  · intro hbound i p hp
    rw [← (hsingle i p hp), ← h.content i p hp, hbound i p hp]
  · intro hgiven i p hp
    rw [h.content i p hp, (hsingle i p hp).mpr (hgiven i p hp)]

theorem bindFunctionArgsToOutput_follows_iff (hnative : native.Works) (emptyNames activation : Bool) :
    Decides (f.Accepts call) (BoundAsPython f call)
        (bindFunctionArgsToOutput f strings native activation (call.raw emptyNames)) ↔
      (f.Accepts call → activation ∨ NeedsNoDefault f call) := by
  refine (bindFunctionArgsToOutput_decides f call hnative emptyNames activation).iff_imp fun o haccepts ho => ?_
  cases activation with
  | true => exact ⟨fun _ => .inl rfl, fun _ => ho.content⟩
  | false =>
    rw [holds_staged_iff f call ho haccepts]
    simp

theorem buildEntryLocalValues_follows_iff (hnative : native.Works) (emptyNames activation : Bool)
    (plan : EntryPlan f.signature) :
    Decides (f.Accepts call) (LocalsAsPython f call plan)
        (buildEntryLocalValues f strings native activation plan.locals (call.raw emptyNames)) ↔
      (f.Accepts call → activation ∨ NamesAreUtf8 call) := by
  by_cases hgood : activation ∨ NamesAreUtf8 call
  · refine iff_of_true (buildEntryLocalValues_decides f call ?_) fun _ => hgood
    cases activation with
    | true => exact bindFunctionArgsToOutput_decides f call hnative emptyNames true
    | false => exact bindEntryParams_decides f call hnative emptyNames (hgood.resolve_left (by decide))
  · rw [not_or, Bool.not_eq_true] at hgood
    obtain ⟨e, he⟩ := bindEntryParams_eq_error f call hnative emptyNames hgood.2
    have herror : buildEntryLocalValues f strings native activation plan.locals (call.raw emptyNames) = .error e := by
      rw [buildEntryLocalValues, hgood.1, he]
      rfl
    rw [herror]
    refine ⟨fun h haccepts => absurd haccepts h, fun h haccepts => ?_⟩
    rcases h haccepts with hactivation | hnames
    · rw [hgood.1] at hactivation
      cases hactivation
    · exact hgood.2 hnames

theorem bindFunctionArgsToOutput_releases {raw : RawCall} {failure : Failure}
    (h : bindFunctionArgsToOutput f strings native activation raw = .error failure) : Balanced failure.events := by
  have hsafe := bindFunctionArgsToOutput_safe f strings native activation raw
  rw [h] at hsafe
  exact hsafe

theorem buildEntryLocalValues_releases {raw : RawCall} {failure : Failure}
    (h : buildEntryLocalValues f strings native activation locals raw = .error failure) : Balanced failure.events := by
  unfold buildEntryLocalValues at h
  cases activation with
  | true =>
    cases hbind : bindFunctionArgsToOutput f strings native true raw with
    | ok o => rw [hbind] at h; cases h
    | error e =>
      rw [hbind] at h
      cases h
      exact bindFunctionArgsToOutput_releases f hbind
  | false =>
    have hsafe := bindEntryParams_safe f strings native raw
    cases hbind : bindEntryParams f strings native raw with
    | ok o => rw [hbind] at h; cases h
    | error e =>
      rw [hbind] at h hsafe
      cases h
      exact hsafe

/-- Argument binding follows Python in every call with an activation; in one without, if no name of a keyword has a
surrogate and no parameter is left to its default. No failed call keeps a reference. -/
theorem argumentBinding_follows_python (emptyNames activation : Bool) (hnative : native.Works)
    (plan : EntryPlan f.signature) :
    ((Decides (f.Accepts call) (BoundAsPython f call)
          (bindFunctionArgsToOutput f strings native activation (call.raw emptyNames)) ∧
        Decides (f.Accepts call) (LocalsAsPython f call plan)
          (buildEntryLocalValues f strings native activation plan.locals (call.raw emptyNames))) ↔
      (f.Accepts call → activation = true ∨ NamesAreUtf8 call ∧ NeedsNoDefault f call)) ∧
    ∀ (raw : RawCall) (native : Native) (failure : Failure),
      (bindFunctionArgsToOutput f strings native activation raw = .error failure → Balanced failure.events) ∧
      (buildEntryLocalValues f strings native activation plan.locals raw = .error failure → Balanced failure.events) := by
  refine ⟨?_, fun raw native failure => ⟨bindFunctionArgsToOutput_releases f, buildEntryLocalValues_releases f⟩⟩
  rw [bindFunctionArgsToOutput_follows_iff f call hnative, buildEntryLocalValues_follows_iff f call hnative, ← imp_and]
  refine imp_congr_right fun _ => ?_
  rw [← or_and_left, and_comm]

end

/-! ## A call with a surrogate in the name of a keyword -/

/-- Every string is the object of its own code. -/
def codedStrings : Strings where
  content id := Encodable.decode id
  intern s := Encodable.encode (PyStr.ofString s)
  content_intern _ := Encodable.encodek _

/-- `def f(**kw)`. -/
def varkwFunction : Function where
  signature := { params := [⟨"kw", .kwArg⟩], names_nodup := by decide, varArg_le := by decide, kwArg_le := by decide }
  defaults := []
  kwdefaults _ := none

/-- The string with one lone surrogate. -/
def surrogate : PyStr := [0xd800]

/-- A call with the surrogate for the name of its keyword. -/
def surrogateCall : Call codedStrings where
  positional := []
  keywords := [⟨Encodable.encode surrogate, 5⟩]
  named := by
    intro kw hkw
    rw [List.mem_singleton.mp hkw]
    exact Option.isSome_iff_exists.mpr ⟨surrogate, Encodable.encodek _⟩
  distinct := List.nodup_singleton _

theorem surrogateCall_accepts : varkwFunction.Accepts surrogateCall where
  room := .inl (Nat.zero_le _)
  known _ _ := .inr ⟨_, mem_singleton_self _, rfl⟩
  once _ _ _ := .inl (by rw [Function.positionalValue, surrogateCall, zip_nil_right]; rfl)
  filled i p hp hkind := by
    have hmem := mem_of_getElem? hp
    rw [mem_singleton.mp hmem] at hkind
    cases hkind

def workingNative : Native where
  names := true
  tupleNew := some 1000
  dictNew := some 1001
  compares _ := true
  inserts _ := true
  looksUp _ := true

theorem workingNative_works : workingNative.Works :=
  ⟨rfl, rfl, rfl, fun _ => rfl, fun _ => rfl, fun _ => rfl⟩

def varkwPlan : EntryPlan varkwFunction.signature where
  locals := [some 0]
  once i hi := by
    have h0 : i = 0 := Nat.lt_one_iff.mp hi
    rw [h0]
    rfl

theorem argumentBinding_follows_python_surrogate : varkwFunction.Accepts surrogateCall ∧
    Decides (varkwFunction.Accepts surrogateCall) (BoundAsPython varkwFunction surrogateCall)
      (bindFunctionArgsToOutput varkwFunction codedStrings workingNative true (surrogateCall.raw false)) ∧
    Decides (varkwFunction.Accepts surrogateCall) (LocalsAsPython varkwFunction surrogateCall varkwPlan)
      (buildEntryLocalValues varkwFunction codedStrings workingNative true varkwPlan.locals (surrogateCall.raw false)) :=
  ⟨surrogateCall_accepts, (argumentBinding_follows_python varkwFunction surrogateCall false true workingNative_works
    varkwPlan).1.mpr fun _ => .inl rfl⟩

/-- Without an activation the entry interpreter refuses the call, which Python accepts. -/
theorem buildEntryLocalValues_follows_python_false : varkwFunction.Accepts surrogateCall ∧
    ¬Decides (varkwFunction.Accepts surrogateCall) (LocalsAsPython varkwFunction surrogateCall varkwPlan)
      (buildEntryLocalValues varkwFunction codedStrings workingNative false varkwPlan.locals (surrogateCall.raw false)) := by
  refine ⟨surrogateCall_accepts, fun h => ?_⟩
  rw [buildEntryLocalValues_follows_iff varkwFunction surrogateCall workingNative_works] at h
  rcases h surrogateCall_accepts with hactivation | hnames
  · cases hactivation
  · have hsome := hnames _ (mem_singleton_self _)
    have hkey : codedStrings.content (Encodable.encode surrogate) = some surrogate := Encodable.encodek _
    rw [hkey] at hsome
    exact absurd hsome (by decide)

end Soac.Calls
