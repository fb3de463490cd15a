import Soac.Ir.Block

/-!
# Evaluation of instructions

How one instruction runs, after the reference interpreter of the repository (`deopt_interpreter.rs`): names an operation
only borrows are read first, then its operands run in order, then the operation acts on their values. The first exception
ends the evaluation and leaves the state as it is at that point.

What an operation does to the world outside the frame (objects, globals, cells, the generator state) is a parameter,
`Runtime`: a statement about every runtime is a statement about every sequence of such effects.
-/

namespace Soac

/-- The builtin types an exact-type fact can name. -/
inductive PyExactType where
  | noneType
  | bool
  | str
  | bytes
  | int
  | float
deriving DecidableEq, Repr

/-- The helpers of the runtime that have a declared signature. -/
inductive RuntimeHelperId where
  | globals
  | index
  | str
  | cellRef
  | tupleFromIter
  | makeFunction
  | createClass
  | import_
  | importAttr
  | classLookupGlobal
  | classLookupCell
deriving DecidableEq, Repr

/-- An object other than the singletons and the helpers: its exact type when that is a builtin one, its truth value,
whether its reference count is fixed, and its identity. -/
structure PyObject where
  exactType : Option PyExactType
  truthy : Bool
  immortal : Bool
  id : Nat
deriving DecidableEq, Repr

/-- A reference to an object. -/
inductive Value where
  | none
  | bool (b : Bool)
  | helper (h : RuntimeHelperId)
  | object (o : PyObject)
deriving DecidableEq, Repr

/-- The helper a runtime name stands for. -/
def RuntimeName.helper? : RuntimeName → Option RuntimeHelperId
  | .globals => some .globals
  | .index => some .index
  | .str => some .str
  | .cellRef => some .cellRef
  | .tupleFromIter => some .tupleFromIter
  | .makeFunction => some .makeFunction
  | .createClass => some .createClass
  | .importUnderscore => some .import_
  | .importAttr => some .importAttr
  | .classLookupGlobal => some .classLookupGlobal
  | .classLookupCell => some .classLookupCell
  | _ => Option.none

/-- The value of a runtime name that is a singleton or a helper. -/
def RuntimeName.value? : RuntimeName → Option Value
  | .none => some .none
  | .true => some (.bool Bool.true)
  | .false => some (.bool Bool.false)
  | name => name.helper?.map Value.helper

/-- The effects an instruction asks of the world outside its frame. -/
inductive Prim (K : Type) where
  | op (k : K)
  | loadName (name : ResolvedName)
  | storeName (name : ResolvedName)
  | delName (name : ResolvedName) (quietly : Bool)
  | takeName (name : ResolvedName)
  | loadCell (name : ResolvedName)
  | storeCell (name : ResolvedName)
  | delCell (name : ResolvedName) (quietly : Bool)
  | cellRef (location : CellLocation)
  | makeCell
  | iteratorStep
  | comprehensionInsert (kind : ComprehensionInsertKind)
  | callArgument (kind : CallArgumentOpKind)
deriving DecidableEq, Repr

/-- The world outside the frame: an effect returns a value or raises, and changes the world. -/
structure Runtime (K : Type) where
  World : Type
  prim : Prim K → List Value → World → Except Value Value × World
  constant : Nat → Value
  isTrue : Value → World → Except Value Bool × World
  asIndex : Value → World → Except Value Int × World
  raised : Option Value → World → Value × World
  unbound : String → Value
  abruptKind : AbruptKind → Value

/-- The state of a frame: its stack slots and the world. -/
structure State (W : Type) where
  locals : LocalLocation → Option Value
  world : W

namespace State

variable {W : Type}

def set (σ : State W) (x : LocalLocation) (v : Value) : State W :=
  { σ with locals := Function.update σ.locals x (some v) }

def clear (σ : State W) (x : LocalLocation) : State W :=
  { σ with locals := Function.update σ.locals x none }

/-- Whether a slot holds a reference. -/
def bound (σ : State W) (x : LocalLocation) : Bool :=
  (σ.locals x).isSome

end State

/-- The outcome of running a piece of a frame: a result or an exception, and the state it leaves. -/
abbrev Outcome (W α : Type) := Except Value α × State W

variable {W α β : Type}

/-- Run on after a normal outcome. -/
def Outcome.andThen (r : Outcome W α) (k : α → State W → Outcome W β) : Outcome W β :=
  match r with
  | (.ok a, σ) => k a σ
  | (.error e, σ) => (.error e, σ)

@[simp] theorem Outcome.andThen_ok (a : α) (σ : State W) (k : α → State W → Outcome W β) :
    Outcome.andThen (.ok a, σ) k = k a σ := rfl

@[simp] theorem Outcome.andThen_error (e : Value) (σ : State W) (k : α → State W → Outcome W β) :
    Outcome.andThen (.error e, σ) k = (.error e, σ) := rfl

variable {k : α → State W → Outcome W β} {r : Outcome W α} {σ' : State W}

/-- A normal outcome of two pieces: both ended normally. -/
theorem Outcome.andThen_eq_ok {b : β} : r.andThen k = (.ok b, σ') ↔ ∃ a σ₁, r = (.ok a, σ₁) ∧ k a σ₁ = (.ok b, σ') := by
  obtain ⟨e, σ⟩ := r
  cases e with
  | ok a | error e => simp

/-- An exception out of two pieces: the first one raised it, or the second one after the first ended normally. -/
theorem Outcome.andThen_eq_error {e : Value} : r.andThen k = (.error e, σ') ↔
      r = (.error e, σ') ∨ ∃ a σ₁, r = (.ok a, σ₁) ∧ k a σ₁ = (.error e, σ') := by
  obtain ⟨e', σ⟩ := r
  cases e' with
  | ok a | error e' => simp

theorem Outcome.andThen_assoc {γ : Type} {k' : β → State W → Outcome W γ} :
    (r.andThen k).andThen k' = r.andThen fun a σ => (k a σ).andThen k' := by
  obtain ⟨e, σ⟩ := r
  cases e with
  | ok a | error e => rfl

variable {X K : Type}

/-- Ask an effect of the world. -/
def State.prim (R : Runtime K) (p : Prim K) (vs : List Value) (σ : State R.World) : Outcome R.World Value :=
  ((R.prim p vs σ.world).1, { σ with world := (R.prim p vs σ.world).2 })

/-- Read a slot; an empty slot raises. -/
def State.readSlot (R : Runtime K) (x : LocalLocation) (id : String) (σ : State R.World) : Outcome R.World Value :=
  match σ.locals x with
  | some v => (.ok v, σ)
  | none => (.error (R.unbound id), σ)

/-- Read a borrowed operand. -/
def State.borrow (R : Runtime K) (n : ResolvedName) (σ : State R.World) : Outcome R.World Value :=
  match n.localLocation with
  | some x => σ.readSlot R x n.id
  | none => σ.prim R (.loadName n) []

def State.borrowAll (R : Runtime K) : List ResolvedName → State R.World → Outcome R.World (List Value)
  | [], σ => (.ok [], σ)
  | n :: ns, σ => (σ.borrow R n).andThen fun v σ => (σ.borrowAll R ns).andThen fun vs σ => (.ok (v :: vs), σ)

/-- Publish a value in the slot of an operand. -/
def State.publish (R : Runtime K) (n : ResolvedName) (v : Value) (σ : State R.World) : Outcome R.World Value :=
  match n.localLocation with
  | some x => (.ok .none, σ.set x v)
  | none => σ.prim R (.storeName n) [v]

/-- The names an operation reads before its operands run. -/
def Head.borrowedNames : Head K → List ResolvedName
  | .comprehensionInsert _ container => [container]
  | .callArgumentOp _ callable buffer => [callable, buffer]
  | .iteratorStep n => [n]
  | _ => []

variable (R : Runtime K) (owned : Nat → Option LocalLocation)

def actLoad (n : ResolvedName) (σ : State R.World) : Outcome R.World Value :=
  match n.location with
  | .local x => σ.readSlot R x n.id
  | .constant i => (.ok (R.constant i), σ)
  | .runtimeName name =>
    match name.value? with
    | some v => (.ok v, σ)
    | none => σ.prim R (.loadName n) []
  | .cell (.owned slot) =>
    match owned slot with
    | some x => (σ.readSlot R x n.id).andThen fun cell σ => σ.prim R (.loadCell n) [cell]
    | none => σ.prim R (.loadName n) []
  | _ => σ.prim R (.loadName n) []

/-- A store leaves the stored value as its own value. -/
def actStore (n : ResolvedName) (fresh : Bool) (v : Value) (σ : State R.World) : Outcome R.World Value :=
  match n.location with
  | .local x => (.ok v, σ.set x v)
  | .cell (.owned slot) =>
    match owned slot with
    | some x =>
      if fresh then (.ok v, σ.set x v)
      else (σ.readSlot R x n.id).andThen fun cell σ =>
        (σ.prim R (.storeCell n) [cell, v]).andThen fun _ σ => (.ok v, σ)
    | none => (σ.prim R (.storeName n) [v]).andThen fun _ σ => (.ok v, σ)
  | _ => (σ.prim R (.storeName n) [v]).andThen fun _ σ => (.ok v, σ)

/-- Deleting an empty slot raises unless it is done quietly. -/
def actDel (n : ResolvedName) (quietly : Bool) (σ : State R.World) : Outcome R.World Value :=
  match n.location with
  | .local x =>
    match σ.locals x with
    | some _ => (.ok .none, σ.clear x)
    | none => if quietly then (.ok .none, σ) else (.error (R.unbound n.id), σ)
  | .cell (.owned slot) =>
    match owned slot with
    | some x => (σ.readSlot R x n.id).andThen fun cell σ =>
        (σ.prim R (.delCell n quietly) [cell]).andThen fun _ σ => (.ok .none, σ)
    | none => (σ.prim R (.delName n quietly) []).andThen fun _ σ => (.ok .none, σ)
  | _ => (σ.prim R (.delName n quietly) []).andThen fun _ σ => (.ok .none, σ)

def actTake (n : ResolvedName) (σ : State R.World) : Outcome R.World Value :=
  match n.localLocation with
  | some x => (σ.readSlot R x n.id).andThen fun v σ => (.ok v, σ.clear x)
  | none => σ.prim R (.takeName n) []

/-- `FinishPositionalList` clears the buffer before its helper runs; the phases that replace the buffer publish the new
value after the helper succeeded. -/
def actCallArgument (kind : CallArgumentOpKind) (buffer : ResolvedName) (vs : List Value) (σ : State R.World) :
    Outcome R.World Value :=
  let cleared :=
    match kind.consumesBufferBeforeHelper, buffer.localLocation with
    | true, some x => σ.clear x
    | _, _ => σ
  (cleared.prim R (.callArgument kind) vs).andThen fun v σ =>
    if kind.replacesBuffer then σ.publish R buffer v else (.ok .none, σ)

def actCellRef (location : CellLocation) (σ : State R.World) : Outcome R.World Value :=
  match location with
  | .owned slot =>
    match owned slot with
    | some x => σ.readSlot R x ""
    | none => σ.prim R (.cellRef location) []
  | _ => σ.prim R (.cellRef location) []

/-- What an operation does with its borrowed names and the values of its operands. -/
def Head.act (h : Head K) (fresh : Bool) (borrowed values : List Value) (σ : State R.World) : Outcome R.World Value :=
  match h with
  | .load n => actLoad R owned n σ
  | .store n => actStore R owned n fresh (values.headD .none) σ
  | .del n quietly => actDel R owned n quietly σ
  | .takeOperand n => actTake R n σ
  | .comprehensionInsert kind _ => σ.prim R (.comprehensionInsert kind) (borrowed ++ values)
  | .callArgumentOp kind _ buffer => actCallArgument R kind buffer (borrowed ++ values) σ
  | .iteratorStep _ => σ.prim R .iteratorStep borrowed
  | .makeCell => σ.prim R .makeCell values
  | .cellRef location => actCellRef R owned location σ
  | .op k => σ.prim R (.op k) values

mutual

/-- `execute_expr_owned`: run an instruction. -/
def eval : Instr X K → State R.World → Outcome R.World Value
  | .mk _ h ops, σ =>
    (σ.borrowAll R h.borrowedNames).andThen fun borrowed σ =>
    (evalList ops σ).andThen fun values σ =>
    h.act R owned (storesFreshCell ops) borrowed values σ

/-- Run instructions in order and collect their values. -/
def evalList : List (Instr X K) → State R.World → Outcome R.World (List Value)
  | [], σ => (.ok [], σ)
  | i :: is, σ => (eval i σ).andThen fun v σ => (evalList is σ).andThen fun vs σ => (.ok (v :: vs), σ)

end

/-! ## What a normal outcome went through -/

section

variable {R : Runtime K} {owned : Nat → Option LocalLocation} {σ σ' : State R.World} {i : Instr X K} {vs : List Value}

theorem evalList_cons_ok {is : List (Instr X K)}
    (h : evalList R owned (i :: is) σ = (.ok vs, σ')) :
    ∃ v σ₁ ws, eval R owned i σ = (.ok v, σ₁) ∧ evalList R owned is σ₁ = (.ok ws, σ') ∧ vs = v :: ws := by
  obtain ⟨v, σ₁, hi, h⟩ := Outcome.andThen_eq_ok.mp h
  obtain ⟨ws, σ₂, his, h⟩ := Outcome.andThen_eq_ok.mp h
  cases h
  exact ⟨v, σ₁, ws, hi, his, rfl⟩

theorem evalList_nil_ok (h : evalList R owned ([] : List (Instr X K)) σ = (.ok vs, σ')) : vs = [] ∧ σ' = σ := by
  cases h
  exact ⟨rfl, rfl⟩

variable {v : Value} {ops : List (Instr X K)} {x : X}

/-- An instruction that ends normally has read its names, run its operands and acted. -/
theorem eval_mk_ok {h : Head K}
    (he : eval R owned (.mk x h ops) σ = (.ok v, σ')) :
    ∃ borrowed σ₁ values σ₂, σ.borrowAll R h.borrowedNames = (.ok borrowed, σ₁) ∧
      evalList R owned ops σ₁ = (.ok values, σ₂) ∧
      h.act R owned (storesFreshCell ops) borrowed values σ₂ = (.ok v, σ') := by
  obtain ⟨borrowed, σ₁, hb, he⟩ := Outcome.andThen_eq_ok.mp he
  obtain ⟨values, σ₂, hv, he⟩ := Outcome.andThen_eq_ok.mp he
  exact ⟨borrowed, σ₁, values, σ₂, hb, hv, he⟩

/-- An operation without names runs its operands and asks the world. -/
theorem eval_op_ok {k : K}
    (he : eval R owned (.mk x (.op k) ops) σ = (.ok v, σ')) :
    ∃ values σ₂, evalList R owned ops σ = (.ok values, σ₂) ∧ R.prim (.op k) values σ₂.world = (.ok v, σ'.world) ∧
      σ'.locals = σ₂.locals := by
  obtain ⟨borrowed, σ₁, values, σ₂, hb, hv, ha⟩ := eval_mk_ok he
  obtain ⟨_, rfl⟩ := hb
  simp only [Head.act, State.prim, Prod.mk.injEq] at ha
  obtain ⟨hp, rfl⟩ := ha
  exact ⟨values, σ₂, hv, Prod.ext hp rfl, rfl⟩

theorem eval_unary_ok {k : K}
    (he : eval R owned (.mk x (.op k) [i]) σ = (.ok v, σ')) :
    ∃ u σ₁, eval R owned i σ = (.ok u, σ₁) ∧ R.prim (.op k) [u] σ₁.world = (.ok v, σ'.world) := by
  obtain ⟨values, σ₂, hv, hp, _⟩ := eval_op_ok he
  obtain ⟨u, σ₁, ws, hu, hnil, rfl⟩ := evalList_cons_ok hv
  obtain ⟨rfl, rfl⟩ := evalList_nil_ok hnil
  exact ⟨u, σ₂, hu, hp⟩

theorem eval_binary_ok {k : K} {j : Instr X K}
    (he : eval R owned (.mk x (.op k) [i, j]) σ = (.ok v, σ')) :
    ∃ l σ₁ r σ₂, eval R owned i σ = (.ok l, σ₁) ∧ eval R owned j σ₁ = (.ok r, σ₂) ∧
      R.prim (.op k) [l, r] σ₂.world = (.ok v, σ'.world) := by
  obtain ⟨values, σ₂, hv, hp, _⟩ := eval_op_ok he
  obtain ⟨l, σ₁, ws, hl, hrest, rfl⟩ := evalList_cons_ok hv
  obtain ⟨r, σ₃, us, hr, hnil, rfl⟩ := evalList_cons_ok hrest
  obtain ⟨rfl, rfl⟩ := evalList_nil_ok hnil
  exact ⟨l, σ₁, r, σ₂, hl, hr, hp⟩

end

end Soac
