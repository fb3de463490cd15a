import Soac.Facts.Infer
import Soac.Semantics.Frame

/-!
# What facts say of a value

`PyObjFacts.Holds` is the meaning of facts, `PythonRuntime` what the inference takes for granted of the objects it runs on:
the arithmetic of exact ints, identity with the singletons, what statements used as expressions return, and the module's
constants. The declared results of the runtime helpers are not part of it: `CallsReturn` asks them of the calls that one
evaluation makes.

The facts of an expression hold of its value (`inferExprFacts_holds`, `inferExprFactsInEnv_holds`; the latter asks of the
calls among the operands only that `_index` gives an exact int), and the facts of a branch of the local its test is about
(`inferBranchLocalFact_holds`).
-/

namespace Soac

open PyObjFacts

/-! ## Attributes of values -/

def Value.exactType : Value → Option PyExactType
  | .none => some .noneType
  | .bool _ => some .bool
  | .helper _ => Option.none
  | .object o => o.exactType

def Value.truthy : Value → Bool
  | .none => false
  | .bool b => b
  | .helper _ => true
  | .object o => o.truthy

/-- Whether the reference count of the object is fixed; the singletons and the helpers live as long as the runtime. -/
def Value.immortal : Value → Bool
  | .object o => o.immortal
  | _ => true

def RuntimeSingleton.value : RuntimeSingleton → Value
  | .none => .none
  | .true => .bool Bool.true
  | .false => .bool Bool.false

/-! ## The meaning of facts -/

/-- The facts hold of a value. That it is not null goes without saying: a local without a value has no facts. -/
structure PyObjFacts.Holds (constant : Nat → Value) (p : PyObjFacts) (v : Value) : Prop where
  ty : ∀ t, p.ty = .exact t → v.exactType = some t
  alwaysTrue : p.truthiness = .alwaysTrue → v.truthy = true
  alwaysFalse : p.truthiness = .alwaysFalse → v.truthy = false
  isNone : p.noneness = .isNone → v = .none
  isNotNone : p.noneness = .isNotNone → v ≠ .none
  isTrue : p.boolSingleton = .isTrue → v = .bool true
  isFalse : p.boolSingleton = .isFalse → v = .bool false
  immortal : p.refcount = .immortal → v.immortal = true
  singleton : ∀ s, p.provenance = .runtimeSingleton s → v = s.value
  moduleConstant : ∀ i, p.provenance = .moduleConstant i → v = constant i
  callable : ∀ h, p.callable = .runtimeHelper h → v = .helper h

/-- The facts of the locals hold. -/
def EnvFacts.Holds (constant : Nat → Value) (env : EnvFacts) (locals : LocalLocation → Option Value) : Prop :=
  ∀ e ∈ env.entries, ∃ v, locals e.1 = some v ∧ e.2.Holds constant v

section

variable {constant : Nat → Value} {v : Value}

theorem PyObjFacts.holds_unknown : PyObjFacts.unknown.Holds constant v := by
  constructor <;> intros <;> contradiction

theorem PyObjFacts.holds_noneSingleton : PyObjFacts.noneSingleton.Holds constant .none := by
  constructor
  case singleton => rintro s ⟨⟩; rfl
  all_goals simp [PyObjFacts.noneSingleton, Value.exactType, Value.truthy, Value.immortal]

theorem PyObjFacts.holds_ofBool (b : Bool) : (PyObjFacts.ofBool b).Holds constant (.bool b) := by
  constructor
  case singleton => cases b <;> rintro s ⟨⟩ <;> rfl
  all_goals cases b <;> simp [PyObjFacts.ofBool, Soac.truthiness, Value.exactType, Value.truthy, Value.immortal]

theorem PyObjFacts.holds_boolObject (b : Bool) : PyObjFacts.boolObject.Holds constant (.bool b) := by
  constructor <;> simp [PyObjFacts.boolObject, Value.exactType, Value.immortal]

theorem PyObjFacts.holds_knownNotNone (h : v ≠ .none) : PyObjFacts.knownNotNone.Holds constant v := by
  constructor <;> simp_all [PyObjFacts.knownNotNone]

theorem PyObjFacts.holds_runtimeHelper (h : RuntimeHelperId) : (PyObjFacts.runtimeHelper h).Holds constant (.helper h) := by
  constructor <;> simp_all [PyObjFacts.runtimeHelper, Value.truthy]

theorem noneFact_holds {t : PyExactType} (h : v.exactType = some t) (hn : noneFactForExactType t = .isNotNone) :
    v ≠ .none := by
  rintro rfl
  obtain rfl : PyExactType.noneType = t := by simpa [Value.exactType] using h
  simp [noneFactForExactType] at hn

theorem PyObjFacts.holds_exactType {t : PyExactType} (h : v.exactType = some t) (ht : t ≠ .noneType) :
    (PyObjFacts.exactType t).Holds constant v :=
  { holds_unknown with
    ty := fun t' h' => by simp_all [PyObjFacts.exactType]
    isNone := fun h' => by cases t <;> simp_all [PyObjFacts.exactType, noneFactForExactType]
    isNotNone := fun h' => noneFact_holds h h' }

variable {p : PyObjFacts}

theorem PyObjFacts.Holds.withTruthiness (h : p.Holds constant v) {b : Bool} (hb : v.truthy = b) :
    ({ p with truthiness := Soac.truthiness b } : PyObjFacts).Holds constant v :=
  { h with
    alwaysTrue := fun h' => by cases b <;> simp_all [Soac.truthiness]
    alwaysFalse := fun h' => by cases b <;> simp_all [Soac.truthiness] }

theorem PyObjFacts.Holds.withImmortalRefcount (h : p.Holds constant v) (hi : v.immortal) :
    p.withImmortalRefcount.Holds constant v :=
  { h with immortal := fun _ => hi }

theorem PyObjFacts.Holds.withModuleConstant (h : p.Holds constant v) {i : Nat} (hi : v = constant i) :
    (p.withModuleConstant i).Holds constant v :=
  { h with
    singleton := fun s h' => by simp [PyObjFacts.withModuleConstant] at h'
    moduleConstant := fun j h' => by
      obtain rfl : i = j := by simpa [PyObjFacts.withModuleConstant] using h'
      exact hi }

theorem intersectFact_right {F : Type} [DecidableEq F] {u l r d : F} (h : PyObjFacts.intersectFact u l r = d)
    (hd : d ≠ u) : r = d := by
  unfold PyObjFacts.intersectFact at h
  split at h
  · rw [← h]; exact Eq.symm ‹_›
  · exact absurd h.symm hd

/-- What an intersection says, its second part says. -/
theorem PyObjFacts.Holds.intersect (q : PyObjFacts) (h : p.Holds constant v) : (q.intersect p).Holds constant v where
  ty t h' := h.ty t (intersectFact_right h' (by simp))
  alwaysTrue h' := h.alwaysTrue (intersectFact_right h' (by simp))
  alwaysFalse h' := h.alwaysFalse (intersectFact_right h' (by simp))
  isNone h' := h.isNone (intersectFact_right h' (by simp))
  isNotNone h' := h.isNotNone (intersectFact_right h' (by simp))
  isTrue h' := h.isTrue (intersectFact_right h' (by simp))
  isFalse h' := h.isFalse (intersectFact_right h' (by simp))
  immortal h' := h.immortal (intersectFact_right h' (by simp))
  singleton s h' := h.singleton s (intersectFact_right h' (by simp))
  moduleConstant i h' := h.moduleConstant i (intersectFact_right h' (by simp))
  callable c h' := h.callable c (intersectFact_right h' (by simp))

end

/-! ## The runtime -/

/-- Comparisons. -/
def BinOpKind.isComparison : BinOpKind → Bool
  | .eq | .ne | .lt | .le | .gt | .ge => true
  | _ => false

/-- The operations that give an int on ints. -/
def BinOpKind.isIntArithmetic : BinOpKind → Bool
  | .add | .sub | .mul | .floorDiv | .mod | .lShift | .rShift | .or | .xor | .and
  | .inplaceAdd | .inplaceSub | .inplaceMul | .inplaceFloorDiv | .inplaceMod | .inplaceLShift | .inplaceRShift
  | .inplaceOr | .inplaceXor | .inplaceAnd => true
  | _ => false

def BinOpKind.isTrueDivision : BinOpKind → Bool
  | .trueDiv | .inplaceTrueDiv => true
  | _ => false

/-- The objects of Python, as far as the inference relies on them. -/
structure PythonRuntime (constants : List ConstantExpr) extends Runtime BlockPyOp where
  constant_literal : ∀ i l, constants[i]? = some (.literal l) →
    (constant i).exactType = some l.exactType ∧ (constant i).truthy = l.isTruthy
  constant_runtimeName : ∀ i name v, constants[i]? = some (.runtimeName name) → name.value? = some v → constant i = v
  constant_immortal : ∀ i, (constant i).immortal = true
  isTrue_bool : ∀ b w, isTrue (.bool b) w = (.ok b, w)
  int_comparison : ∀ kind l r w v w', l.exactType = some .int → r.exactType = some .int → kind.isComparison = true →
    prim (.op (.binOp kind)) [l, r] w = (.ok v, w') → ∃ b, v = .bool b
  int_arithmetic : ∀ kind l r w v w', l.exactType = some .int → r.exactType = some .int →
    kind.isIntArithmetic = true → prim (.op (.binOp kind)) [l, r] w = (.ok v, w') → v.exactType = some .int
  int_trueDivision : ∀ kind l r w v w', l.exactType = some .int → r.exactType = some .int →
    kind.isTrueDivision = true → prim (.op (.binOp kind)) [l, r] w = (.ok v, w') → v.exactType = some .float
  is_identity : ∀ l r w v w', prim (.op (.binOp .is)) [l, r] w = (.ok v, w') → v = .bool (decide (l = r))
  int_unary : ∀ kind x w v w', x.exactType = some .int → kind = .pos ∨ kind = .neg ∨ kind = .invert →
    prim (.op (.unaryOp kind)) [x] w = (.ok v, w') → v.exactType = some .int
  unary_bool : ∀ kind x w v w', kind = .not ∨ kind = .truth →
    prim (.op (.unaryOp kind)) [x] w = (.ok v, w') → ∃ b, v = .bool b
  not_bool : ∀ b w v w', prim (.op (.unaryOp .not)) [.bool b] w = (.ok v, w') → v = .bool (!b)
  update_none : ∀ k vs w v w', k = .setAttr ∨ k = .setItem ∨ k = .delItem →
    prim (.op k) vs w = (.ok v, w') → v = .none
  tuple_object : ∀ vs w v w', prim (.op .tuple) vs w = (.ok v, w') → v ≠ .none

/-- Every plain call of a runtime helper returns a value that meets what is said of its results. -/
def HelpersReturn (R : Runtime BlockPyOp) (result : RuntimeHelperId → Value → Prop) : Prop :=
  ∀ (shape : CallShape) (h : RuntimeHelperId) (args : List Value) (w : R.World) (v : Value) (w' : R.World),
    shape.isPlain = true → R.prim (.op (.call shape)) (.helper h :: args) w = (.ok v, w') → result h v

section

variable {constants : List ConstantExpr} (P : PythonRuntime constants) {v : Value} {p : PyObjFacts} {name : RuntimeName}

theorem inferRuntimeNameFacts_holds (h : name.value? = some v) :
    ((inferRuntimeNameFacts name).getD .unknown).Holds P.constant v := by
  cases name with
  | none => obtain rfl := Option.some.inj h; exact holds_noneSingleton
  | true => obtain rfl := Option.some.inj h; exact holds_ofBool true
  | false => obtain rfl := Option.some.inj h; exact holds_ofBool false
  | unpackFixed | other id => cases h
  | _ => obtain rfl := Option.some.inj h; exact holds_runtimeHelper _

theorem inferRuntimeNameFacts_eq_none (h : name.value? = Option.none) : inferRuntimeNameFacts name = Option.none := by
  cases name <;> first | rfl | cases h

theorem inferLiteralFacts_holds {l : Literal} (ht : v.exactType = some l.exactType)
    (hv : v.truthy = l.isTruthy) : (inferLiteralFacts l).Holds P.constant v := by
  have hne : l.exactType ≠ .noneType := by
    cases l with
    | numberLiteral value => cases value <;> simp [Literal.exactType]
    | _ => simp [Literal.exactType]
  exact (holds_exactType ht hne).withTruthiness hv

theorem moduleConstantLoadFact_holds (i : Nat) :
    (moduleConstantLoadFact i constants).Holds P.constant (P.constant i) := by
  unfold moduleConstantLoadFact
  split
  · rename_i c hc
    refine PyObjFacts.Holds.withImmortalRefcount (PyObjFacts.Holds.withModuleConstant ?_ rfl) (P.constant_immortal i)
    cases c with
    | literal l => exact inferLiteralFacts_holds P (P.constant_literal i l hc).1 (P.constant_literal i l hc).2
    | runtimeName name =>
      simp only [inferModuleConstantFacts]
      cases hv : name.value? with
      | none => rw [inferRuntimeNameFacts_eq_none hv]; exact holds_unknown
      | some v => rw [P.constant_runtimeName i name v hc hv]; exact inferRuntimeNameFacts_holds P hv
  · exact PyObjFacts.Holds.withImmortalRefcount (holds_unknown.withModuleConstant rfl) (P.constant_immortal i)

/-- A load that is not of a local. -/
theorem inferLoadFacts_holds {owned : Nat → Option LocalLocation} {n : ResolvedName} {σ σ' : State P.World}
    (h : actLoad P.toRuntime owned n σ = (.ok v, σ')) : (inferLoadFacts constants n).Holds P.constant v := by
  obtain ⟨id, loc⟩ := n
  unfold inferLoadFacts
  cases loc with
  | constant i =>
    obtain ⟨rfl, rfl⟩ : P.constant i = v ∧ σ = σ' := by simpa [actLoad] using h
    exact moduleConstantLoadFact_holds P i
  | runtimeName name =>
    simp only
    cases hv : name.value? with
    | none => rw [inferRuntimeNameFacts_eq_none hv]; exact holds_unknown
    | some u =>
      obtain ⟨rfl, rfl⟩ : u = v ∧ σ = σ' := by simpa [actLoad, hv] using h
      exact inferRuntimeNameFacts_holds P hv
  | _ => exact holds_unknown

theorem exactType_of_isExactType (h : p.Holds P.constant v) (ht : p.isExactType .int) : v.exactType = some .int :=
  h.ty .int (by simpa [PyObjFacts.isExactType] using ht)

/-- The result of an operation on two exact ints, by the kind of the operation. -/
theorem inferBinopResultFacts_cases (kind : BinOpKind) {q : PyObjFacts} (hp : p.isExactType .int)
    (hq : q.isExactType .int) : kind.isComparison ∧ inferBinopResultFacts kind p q = some .boolObject ∨
    kind.isIntArithmetic ∧ inferBinopResultFacts kind p q = some (.exactType .int) ∨
    kind.isTrueDivision ∧ inferBinopResultFacts kind p q = some (.exactType .float) ∨
    inferBinopResultFacts kind p q = none := by
  cases kind <;> simp [inferBinopResultFacts, hp, hq, BinOpKind.isComparison, BinOpKind.isIntArithmetic,
    BinOpKind.isTrueDivision]

theorem inferBinopResultFacts_holds {kind : BinOpKind} {q : PyObjFacts} {l r : Value} {w w' : P.World}
    (hl : p.isExactType .int → l.exactType = some .int) (hr : q.isExactType .int → r.exactType = some .int)
    (h : P.prim (.op (.binOp kind)) [l, r] w = (.ok v, w')) :
    ((inferBinopResultFacts kind p q).getD .unknown).Holds P.constant v := by
  by_cases hints : p.isExactType .int ∧ q.isExactType .int
  · have hl' := hl hints.1
    have hr' := hr hints.2
    rcases inferBinopResultFacts_cases kind hints.1 hints.2 with ⟨hk, he⟩ | ⟨hk, he⟩ | ⟨hk, he⟩ | he
    · obtain ⟨b, rfl⟩ := P.int_comparison kind l r w v w' hl' hr' hk h
      rw [he]
      exact holds_boolObject b
    · rw [he]
      exact holds_exactType (P.int_arithmetic kind l r w v w' hl' hr' hk h) (by simp)
    · rw [he]
      exact holds_exactType (P.int_trueDivision kind l r w v w' hl' hr' hk h) (by simp)
    · rw [he]
      exact holds_unknown
  · have he : inferBinopResultFacts kind p q = none := by
      unfold inferBinopResultFacts
      rw [if_neg (by simpa using hints)]
    rw [he]
    exact holds_unknown

theorem inferUnaryResultFacts_holds {kind : UnaryOpKind} {x : Value} {w w' : P.World}
    (hx : p.isExactType .int → x.exactType = some .int)
    (h : P.prim (.op (.unaryOp kind)) [x] w = (.ok v, w')) :
    ((inferUnaryResultFacts kind p).getD .unknown).Holds P.constant v := by
  unfold inferUnaryResultFacts
  split
  · rename_i hint
    have hx' := hx hint
    cases kind with
    | pos | neg | invert => exact holds_exactType (P.int_unary _ x w v w' hx' (by simp) h) (by simp)
    | not | truth =>
      obtain ⟨b, rfl⟩ := P.unary_bool _ x w v w' (by simp) h
      exact holds_boolObject b
  · exact holds_unknown

end

/-! ## Facts of expressions -/

section

variable {constants : List ConstantExpr} (P : PythonRuntime constants) (owned : Nat → Option LocalLocation)
  {σ σ' : State P.World} {v : Value}

theorem actDel_ok {n : ResolvedName} {quietly : Bool}
    (h : actDel P.toRuntime owned n quietly σ = (.ok v, σ')) : v = .none := by
  unfold actDel at h
  split at h
  · split at h
    · cases h; rfl
    · split at h
      · cases h; rfl
      · cases h
  · split at h
    · obtain ⟨_, _, _, h⟩ := Outcome.andThen_eq_ok.mp h
      obtain ⟨_, _, _, h⟩ := Outcome.andThen_eq_ok.mp h
      cases h; rfl
    · obtain ⟨_, _, _, h⟩ := Outcome.andThen_eq_ok.mp h
      cases h; rfl
  · obtain ⟨_, _, _, h⟩ := Outcome.andThen_eq_ok.mp h
    cases h; rfl

/-- The helper that a plain call is known to call. -/
def calledHelper (constants : List ConstantExpr) : InstrBlockPy → Option RuntimeHelperId
  | .mk _ (.op (.call shape)) (func :: _) =>
    if shape.isPlain then
      match (inferExprFacts constants func).callable with
      | .runtimeHelper helper => some helper
      | .unknown => none
    else none
  | _ => none

variable {helper : RuntimeHelperId}

/-- What is known to be a helper is the helper: only a load is known to be one. -/
theorem eval_callable {func : InstrBlockPy} (h : eval P.toRuntime owned func σ = (.ok v, σ'))
    (hc : (inferExprFacts constants func).callable = .runtimeHelper helper) : v = .helper helper := by
  revert hc
  fun_cases inferExprFacts constants func with
  | case1 x n ops =>
    obtain ⟨_, _, _, _, _, _, ha⟩ := eval_mk_ok h
    exact (inferLoadFacts_holds P ha).callable helper
  | case2 =>
    unfold inferCallFacts
    split
    · rename_i called _
      cases called <;> exact nofun
    · exact nofun
  | case4 x kind =>
    unfold inferBinopResultFacts
    split
    · cases kind <;> exact nofun
    · exact nofun
  | case5 x kind =>
    unfold inferUnaryResultFacts
    split
    · cases kind <;> exact nofun
    · exact nofun
  | case3 | case6 | case7 | case8 | case9 | case10 | case11 => exact nofun

variable {expr : InstrBlockPy}

/-- The facts of a call of a known helper are those the helper declares, and the call is one of the helper. -/
theorem eval_calledHelper (hc : calledHelper constants expr = some helper)
    (h : eval P.toRuntime owned expr σ = (.ok v, σ')) :
    (∀ env, inferExprFactsInEnv constants env expr = helper.result) ∧ ∃ shape args w w', CallShape.isPlain shape ∧
      P.prim (.op (.call shape)) (.helper helper :: args) w = (.ok v, w') := by
  unfold calledHelper at hc
  split at hc
  · rename_i x shape func args
    split at hc
    · rename_i hplain
      split at hc
      · rename_i hf
        cases hc
        obtain ⟨values, σ₂, hv, hp, _⟩ := eval_op_ok h
        obtain ⟨u, σ₁, ws, hu, _, rfl⟩ := evalList_cons_ok hv
        obtain rfl := eval_callable P owned hu hf
        refine ⟨fun env => ?_, shape, ws, _, _, hplain, hp⟩
        simp [inferExprFactsInEnv, inferExprFacts, hplain, inferCallFacts, hf]
      · cases hc
    · cases hc
  · cases hc

/-! ### The calls of an evaluation -/

section

variable (constants : List ConstantExpr) (R : Runtime BlockPyOp) (result : RuntimeHelperId → Value → Prop)

mutual

/-- Every call of a known helper that the evaluation makes and that returns, returns what is said of the helper. -/
def CallsReturn : InstrBlockPy → State R.World → Prop
  | .mk x h ops, σ =>
    (∀ borrowed σ₁, σ.borrowAll R h.borrowedNames = (.ok borrowed, σ₁) → CallsReturnList ops σ₁) ∧
      ∀ helper v σ', calledHelper constants (.mk x h ops) = some helper → eval R owned (.mk x h ops) σ = (.ok v, σ') →
        result helper v

/-- The same for instructions that are evaluated one after the other. -/
def CallsReturnList : List InstrBlockPy → State R.World → Prop
  | [], _ => True
  | i :: is, σ => CallsReturn i σ ∧ ∀ v σ', eval R owned i σ = (.ok v, σ') → CallsReturnList is σ'

end

/-- The calls among the operands of an instruction. -/
def OperandCallsReturn : InstrBlockPy → State R.World → Prop
  | .mk _ h ops, σ =>
    ∀ borrowed σ₁, σ.borrowAll R h.borrowedNames = (.ok borrowed, σ₁) → CallsReturnList owned constants R result ops σ₁

end

/-- A helper that declares an exact int returns one. -/
def ExactInts (helper : RuntimeHelperId) (v : Value) : Prop :=
  helper = .index → v.exactType = some .int

/-- A helper returns what it declares. -/
def Declared (constant : Nat → Value) (helper : RuntimeHelperId) (v : Value) : Prop :=
  helper.result.Holds constant v

section

variable {result result' : RuntimeHelperId → Value → Prop}

theorem CallsReturn.operands {i : InstrBlockPy} (h : CallsReturn owned constants P.toRuntime result i σ) :
    OperandCallsReturn owned constants P.toRuntime result i σ := by
  obtain ⟨x, k, ops⟩ := i
  exact h.1

theorem CallsReturn.root {i : InstrBlockPy} (h : CallsReturn owned constants P.toRuntime result i σ)
    (hc : calledHelper constants i = some helper) (he : eval P.toRuntime owned i σ = (.ok v, σ')) : result helper v := by
  obtain ⟨x, k, ops⟩ := i
  exact h.2 helper v σ' hc he

mutual

theorem CallsReturn.mono (hmono : ∀ helper v, result helper v → result' helper v) {i : InstrBlockPy} {σ : State P.World}
    (h : CallsReturn owned constants P.toRuntime result i σ) : CallsReturn owned constants P.toRuntime result' i σ := by
  obtain ⟨x, k, ops⟩ := i
  refine ⟨fun borrowed σ₁ hb => CallsReturnList.mono hmono (h.1 borrowed σ₁ hb), fun helper v σ' hc he => ?_⟩
  exact hmono helper v (h.2 helper v σ' hc he)

theorem CallsReturnList.mono (hmono : ∀ helper v, result helper v → result' helper v) {is : List InstrBlockPy}
    {σ : State P.World} (h : CallsReturnList owned constants P.toRuntime result is σ) :
    CallsReturnList owned constants P.toRuntime result' is σ := by
  cases is with
  | nil => trivial
  | cons i is => exact ⟨CallsReturn.mono hmono h.1, fun v σ' he => CallsReturnList.mono hmono (h.2 v σ' he)⟩

end

mutual

/-- What all calls return, the calls of an evaluation return. -/
theorem HelpersReturn.callsReturn (h : HelpersReturn P.toRuntime result) (i : InstrBlockPy) (σ : State P.World) :
    CallsReturn owned constants P.toRuntime result i σ := by
  obtain ⟨x, k, ops⟩ := i
  refine ⟨fun _ σ₁ _ => HelpersReturn.callsReturnList h ops σ₁, fun helper v σ' hc he => ?_⟩
  obtain ⟨-, shape, args, w, w', hplain, hp⟩ := eval_calledHelper P owned hc he
  exact h shape helper args w v w' hplain hp

theorem HelpersReturn.callsReturnList (h : HelpersReturn P.toRuntime result) (is : List InstrBlockPy)
    (σ : State P.World) : CallsReturnList owned constants P.toRuntime result is σ := by
  cases is with
  | nil => trivial
  | cons i is => exact ⟨HelpersReturn.callsReturn h i σ, fun _ σ' _ => HelpersReturn.callsReturnList h is σ'⟩

end

end

theorem Declared.exactInts {constant : Nat → Value} (helper : RuntimeHelperId) (v : Value) (h : Declared constant helper v) :
    ExactInts helper v := by
  rintro rfl
  exact h.ty .int rfl

variable {env : EnvFacts} {constant : Nat → Value}

/-- Facts stay true where the locals they are about stay the same. -/
theorem EnvFacts.Holds.of_same {locals locals' : LocalLocation → Option Value}
    (h : env.Holds constant locals) (hs : ∀ e ∈ env.entries, locals' e.1 = locals e.1) : env.Holds constant locals' := by
  intro e he
  rw [hs e he]
  exact h e he

/-- None of the locals with facts is one of the given slots. -/
def EnvFacts.Avoids (env : EnvFacts) (xs : List LocalLocation) : Prop :=
  ∀ e ∈ env.entries, e.1 ∉ xs

theorem EnvFacts.Avoids.mono {xs ys : List LocalLocation} (h : env.Avoids ys) (hs : xs ⊆ ys) : env.Avoids xs :=
  fun e he hx => h e he (hs hx)

/-- Facts of locals an expression does not take hold after it. -/
theorem EnvFacts.Holds.eval
    (hσ : env.Holds P.constant σ.locals) (hw : expr.writeFree) (ha : env.Avoids expr.operandTakes)
    (h : Soac.eval P.toRuntime owned expr σ = (.ok v, σ')) : env.Holds P.constant σ'.locals := by
  refine hσ.of_same fun e he => ?_
  have := eval_keeps P.toRuntime owned e.1 expr hw (ha e he) σ
  rwa [h] at this

/-- The facts of the locals that are bound hold. -/
def EnvFacts.HoldsOfBound (constant : Nat → Value) (env : EnvFacts) (locals : LocalLocation → Option Value) : Prop :=
  ∀ e ∈ env.entries, ∀ v, locals e.1 = some v → e.2.Holds constant v

theorem EnvFacts.Holds.ofBound {locals : LocalLocation → Option Value}
    (h : env.Holds constant locals) : env.HoldsOfBound constant locals := by
  intro e he v hv
  obtain ⟨u, hu, hholds⟩ := h e he
  obtain rfl := Option.some.inj (hu.symm.trans hv)
  exact hholds

/-- What a helper declares, where the facts of its call say that the value is an exact int. -/
theorem result_holds_of_int (hcalls : CallsReturn owned constants P.toRuntime ExactInts expr σ)
    (h : eval P.toRuntime owned expr σ = (.ok v, σ')) (hint : (inferExprFactsInEnv constants env expr).isExactType .int)
    (helper : RuntimeHelperId) (hc : calledHelper constants expr = some helper) : helper.result.Holds P.constant v := by
  rw [(eval_calledHelper P owned hc h).1 env] at hint
  cases helper with
  | index => exact holds_exactType (hcalls.root P owned hc h rfl) (by simp)
  | _ => cases hint

/-- The facts of an expression, given facts of the locals it loads, hold of its value; of a call of a known helper if the
value is what the helper declares. -/
theorem inferExprFactsInEnv_holds (env : EnvFacts) (expr : InstrBlockPy)
    (hints : OperandCallsReturn owned constants P.toRuntime ExactInts expr σ) (hw : env.entries = [] ∨ writeFreeList expr.operands) (hσ : env.HoldsOfBound P.constant σ.locals)
    (h : eval P.toRuntime owned expr σ = (.ok v, σ'))
    (hroot : ∀ helper, calledHelper constants expr = some helper → helper.result.Holds P.constant v) :
    (inferExprFactsInEnv constants env expr).Holds P.constant v := by
  fun_induction inferExprFactsInEnv constants env expr generalizing σ σ' v with
  | case1 x n ops =>
    cases hg : n.localLocation.bind env.get? with
    | none =>
      obtain ⟨_, _, _, _, _, _, ha⟩ := eval_mk_ok h
      exact inferLoadFacts_holds P ha
    | some p =>
      obtain ⟨y, hy, hp⟩ := Option.bind_eq_some_iff.mp hg
      have hmem := EnvFacts.mem_of_get? hp
      have hwo := hw.resolve_left (List.ne_nil_of_mem hmem)
      exact hσ _ hmem v (eval_localLoad P.toRuntime owned y (by simpa [localLoadLocation] using hy) hwo h)
  | case2 x kind left right ihl ihr =>
    obtain ⟨l, σ₁, r, σ₂, hl, hr, hp⟩ := eval_binary_ok h
    have hσ₁ : env.HoldsOfBound P.constant σ₁.locals := by
      intro e he u hu
      have hwl := (writeFreeList_iff _).mp (hw.resolve_left (List.ne_nil_of_mem he)) left (by simp)
      exact hσ e he u (eval_locals P.toRuntime owned e.1 hwl hl hu)
    obtain ⟨hcl, hright⟩ := hints [] σ rfl
    have hcr := (hright l σ₁ hl).1
    refine inferBinopResultFacts_holds P (fun hint => ?_) (fun hint => ?_) hp
    · have hleft := ihl hcl.operands (hw.imp_right fun h => writeFreeList_operands h (by simp)) hσ hl
        (result_holds_of_int P owned hcl hl hint)
      exact exactType_of_isExactType P hleft hint
    · have hright := ihr hcr.operands (hw.imp_right fun h => writeFreeList_operands h (by simp)) hσ₁ hr
        (result_holds_of_int P owned hcr hr hint)
      exact exactType_of_isExactType P hright hint
  | case3 x kind operand ih =>
    obtain ⟨u, σ₁, hu, hp⟩ := eval_unary_ok h
    have hc := (hints [] σ rfl).1
    refine inferUnaryResultFacts_holds P (fun hint => ?_) hp
    have hoperand := ih hc.operands (hw.imp_right fun h => writeFreeList_operands h (by simp)) hσ hu
      (result_holds_of_int P owned hc hu hint)
    exact exactType_of_isExactType P hoperand hint
  | case4 expr hload hbin hun =>
    revert hroot
    fun_cases inferExprFacts constants expr with
    | case1 x n ops => exact absurd rfl (hload x n ops)
    | case2 x shape func args hplain =>
      intro hroot
      unfold inferCallFacts
      split
      · rename_i helper hc
        exact hroot helper (by simp [calledHelper, hplain, hc])
      · exact holds_unknown
    | case4 x kind left right => exact absurd rfl (hbin x kind left right)
    | case5 x kind operand => exact absurd rfl (hun x kind operand)
    | case6 | case7 | case8 =>
      obtain ⟨values, σ₂, _, hp, _⟩ := eval_op_ok h
      rw [P.update_none _ _ _ _ _ (by simp) hp]
      exact fun _ => holds_noneSingleton
    | case9 =>
      obtain ⟨_, _, _, _, _, _, ha⟩ := eval_mk_ok h
      rw [actDel_ok P owned ha]
      exact fun _ => holds_noneSingleton
    | case10 =>
      obtain ⟨values, σ₂, _, hp, _⟩ := eval_op_ok h
      exact fun _ => holds_knownNotNone (P.tuple_object _ _ _ _ hp)
    | case3 | case11 => exact fun _ => holds_unknown

theorem inferExprFactsInEnv_empty (expr : InstrBlockPy) :
    inferExprFactsInEnv constants .empty expr = inferExprFacts constants expr := by
  fun_induction inferExprFactsInEnv constants .empty expr with
  | case1 x n ops =>
    cases n.localLocation <;> rfl
  | case2 x kind left right ihl ihr => simp [inferExprFacts, ihl, ihr]
  | case3 x kind operand ih => simp [inferExprFacts, ih]
  | case4 => rfl

/-- The facts of an expression hold of its value if the calls it makes return what they declare. -/
theorem inferExprFacts_holds (expr : InstrBlockPy)
    (hcalls : CallsReturn owned constants P.toRuntime (Declared P.constant) expr σ)
    (h : eval P.toRuntime owned expr σ = (.ok v, σ')) : (inferExprFacts constants expr).Holds P.constant v := by
  rw [← inferExprFactsInEnv_empty]
  exact inferExprFactsInEnv_holds P owned .empty expr (hcalls.mono P owned Declared.exactInts).operands (.inl rfl)
    (fun e he => by cases he) h fun _ hc => hcalls.root P owned hc h

/-! ## Facts of branches -/

/-- What a comparison by identity with an expression says of the value compared with it. -/
theorem exprSingletonBranchFacts_holds (hcalls : CallsReturn owned constants P.toRuntime (Declared P.constant) expr σ)
    {facts : Option PyObjFacts × Option PyObjFacts} (hf : exprSingletonBranchFacts constants expr = some facts)
    {u : Value} {p : PyObjFacts} (h : eval P.toRuntime owned expr σ = (.ok v, σ'))
    (hp : (if u = v then facts.1 else facts.2) = some p) : p.Holds P.constant u := by
  have hv := inferExprFacts_holds P owned expr hcalls h
  unfold exprSingletonBranchFacts at hf
  simp only at hf
  split at hf
  · rename_i hn
    obtain rfl := hv.isNone (by simpa [PyObjFacts.isNone] using hn)
    cases hf
    split at hp <;> cases hp
    · exact ‹u = _› ▸ holds_noneSingleton
    · exact holds_knownNotNone ‹_›
  · split at hf
    · rename_i ht
      obtain rfl := hv.isTrue (by simpa [PyObjFacts.isTrueSingleton] using ht)
      cases hf
      split at hp <;> cases hp
      exact ‹u = _› ▸ holds_ofBool true
    · split at hf
      · rename_i ht
        obtain rfl := hv.isFalse (by simpa [PyObjFacts.isFalseSingleton] using ht)
        cases hf
        split at hp <;> cases hp
        exact ‹u = _› ▸ holds_ofBool false
      · cases hf

/-- The test of a branch about a local gives a bool, and the facts of the branch it selects hold of the local. -/
theorem inferBranchLocalFact_holds {test : InstrBlockPy} {x : LocalLocation}
    {thenFact elseFact : Option PyObjFacts} (hf : inferBranchLocalFact constants test = some (x, thenFact, elseFact))
    (hw : test.writeFree) (hcalls : CallsReturn owned constants P.toRuntime (Declared P.constant) test σ)
    (h : eval P.toRuntime owned test σ = (.ok v, σ')) : ∃ u b, v = .bool b ∧ σ.locals x = some u ∧
      ∀ p, (if b then thenFact else elseFact) = some p → p.Holds P.constant u := by
  fun_induction inferBranchLocalFact constants test generalizing thenFact elseFact σ σ' v with
  | case1 y left right =>
    obtain ⟨l, σ₁, r, σ₂, hl, hr, hp⟩ := eval_binary_ok h
    have hb := P.is_identity l r _ _ _ hp
    obtain ⟨hcl, hright⟩ := hcalls.1 [] σ rfl
    rw [writeFree_mk, Bool.and_eq_true] at hw
    unfold inferLocalIsSingletonComparison at hf
    split at hf
    · -- the right operand is a singleton, the left one the local
      rename_i facts hfacts
      obtain ⟨x', hx', hf⟩ := Option.map_eq_some_iff.mp hf
      cases hf
      have hxl := eval_localLoad P.toRuntime owned x hx' (writeFreeList_operands hw.2 (by simp)) hl
      refine ⟨l, decide (l = r), hb, hxl, fun p hpf => ?_⟩
      exact exprSingletonBranchFacts_holds P owned (hright l σ₁ hl).1 hfacts hr (by simpa using hpf)
    · split at hf
      · rename_i facts hfacts
        obtain ⟨x', hx', hf⟩ := Option.map_eq_some_iff.mp hf
        cases hf
        have hxr := eval_localLoad P.toRuntime owned x hx' (writeFreeList_operands hw.2 (by simp)) hr
        have hwl := (writeFreeList_iff _).mp hw.2 left (by simp)
        refine ⟨r, decide (l = r), hb, eval_locals P.toRuntime owned x hwl hl hxr, fun p hpf => ?_⟩
        exact exprSingletonBranchFacts_holds P owned hcl hfacts hl (by simpa [eq_comm] using hpf)
      · cases hf
  | case2 y operand ih =>
    obtain ⟨⟨x', p, q⟩, hf', hswap⟩ := Option.map_eq_some_iff.mp hf
    cases hswap
    obtain ⟨u, σ₁, hu, hp⟩ := eval_unary_ok h
    rw [writeFree_mk, Bool.and_eq_true, writeFreeList_iff] at hw
    obtain ⟨w, b, rfl, hw', hholds⟩ := ih hf' (hw.2 operand (by simp)) (hcalls.1 [] σ rfl).1 hu
    refine ⟨w, !b, P.not_bool b _ _ _ hp, hw', fun p' hp' => hholds p' ?_⟩
    cases b <;> exact hp'
  | case3 => cases hf

end

end Soac
