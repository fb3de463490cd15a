import Soac.Calls.Signature
import Soac.Lib.Ledger

/-!
# The argument binders

`bind_function_args_to_output` of `lib.rs` binds the arguments of a vectorcall to the parameters of a function;
`build_entry_local_values` of `deopt_interpreter.rs` does the same for the entry interpreter, with code of its own when the
call has no activation. Both fill an array with one slot for each parameter and give back what they hold on every early
exit. What Python code and the allocator answer is a parameter.
-/

namespace Soac.Calls

/-! ## The array of parameters -/

/-- What a slot owns: a reference to an argument, or a container of the binder's own with the references it holds. -/
inductive Value where
  | object (value : ObjId)
  | tuple (self : ObjId) (items : List ObjId)
  | dict (self : ObjId) (entries : List Keyword)
deriving DecidableEq, Repr

namespace Value

/-- The references that go with a value. -/
def refs : Value → List ObjId
  | .object value => [value]
  | .tuple self items => self :: items
  | .dict self entries => self :: entries.flatMap fun kw => [kw.key, kw.value]

def content : Value → PyValue
  | .object value => .object value
  | .tuple _ items => .tuple items
  | .dict _ entries => .dict entries

end Value

/-- What a call fails with. -/
inductive BindError where
  | nullPositional
  | nullVararg
  | nullKeyword
  | keywordNotString
  | keywordNotUtf8
  | multipleValues (key : ObjId)
  | unexpectedKeyword (key : ObjId)
  | positionalOnlyAsKeyword (conflicts : List ObjId)
  | excessPositional (given defaultCount keywordOnlyGiven : Nat)
  | missingPositional (indices : List Nat)
  | missingKeywordOnly (indices : List Nat)
  | missingRequired (index : Nat)
  | native
deriving DecidableEq, Repr

/-- A failed call: the error, and the references taken and given up on the way. -/
structure Failure where
  error : BindError
  events : List (RefEvent ObjId)

/-- The slots of the parameters, and the references taken and given up so far. -/
structure Out where
  slots : List (Option Value)
  events : List (RefEvent ObjId)

namespace Out

/-- `initialize_output_args`. -/
def init (len : Nat) : Out where
  slots := List.replicate len none
  events := []

variable (o : Out)

def slot (i : Nat) : Option Value :=
  (o.slots[i]?).getD none

/-- `output_arg_is_assigned`. -/
def isAssigned (i : Nat) : Bool :=
  (o.slot i).isSome

/-- `write_output_arg_from_owned`. -/
def writeOwned (i : Nat) (value : Value) : Out :=
  { o with slots := o.slots.set i (some value) }

def acquire (o : Out) (value : ObjId) : Out :=
  { o with events := o.events ++ [.acquire value] }

/-- `write_output_arg_from_borrowed`. -/
def writeBorrowed (i : Nat) (value : ObjId) : Out :=
  (o.acquire value).writeOwned i (.object value)

/-- The references all slots hold. -/
def owned (slots : List (Option Value)) : List ObjId :=
  slots.flatMap fun slot => (slot.map Value.refs).getD []

/-- References are given up. -/
def release (o : Out) (refs : List ObjId) : Out :=
  { o with events := o.events ++ refs.map .release }

/-- `cleanup_output_args` and `release_entry_param_values`: every slot is emptied. -/
def cleanup : Out :=
  { slots := o.slots.map fun _ => none, events := (o.release (owned o.slots)).events }

/-- An early exit. -/
def fail {α : Type} (o : Out) (error : BindError) : Except Failure α :=
  .error { error, events := o.cleanup.events }

/-- `PyDict_SetItem` on the dictionary in a slot. The keywords of a call are distinct, so the key is new. -/
def dictSet (i : Nat) (kw : Keyword) : Out :=
  match o.slot i with
  | some (.dict self entries) =>
    ((o.acquire kw.key).acquire kw.value).writeOwned i (.dict self (entries ++ [kw]))
  | _ => o

end Out

/-! ## The call -/

/-- The arguments as a vectorcall passes them: a null pointer is no argument. -/
structure RawKeyword where
  key : ObjId
  value : Option ObjId

structure RawCall where
  positional : List (Option ObjId)
  kwnames : Option (List RawKeyword)

def RawCall.keywords (call : RawCall) : List RawKeyword :=
  call.kwnames.getD []

/-- A call of Python as a vectorcall. A call without keywords may pass an empty tuple for their names. -/
def Call.raw {strings : Strings} (call : Call strings) (emptyNames : Bool) : RawCall where
  positional := call.positional.map some
  kwnames := if call.keywords = [] ∧ emptyNames = false then none
    else some (call.keywords.map fun kw => { key := kw.key, value := some kw.value })

/-- What the interpreter answers: whether the names of the parameters can be had, the containers that are allocated, and
for each keyword or parameter whether a comparison, an insertion or a lookup comes back without an error. -/
structure Native where
  names : Bool
  tupleNew : Option ObjId
  dictNew : Option ObjId
  compares : ObjId → Bool
  inserts : ObjId → Bool
  looksUp : Nat → Bool

/-- Nothing fails. -/
def Native.Works (native : Native) : Prop :=
  native.names = true ∧ native.tupleNew.isSome ∧ native.dictNew.isSome ∧ (∀ key, native.compares key = true) ∧
    (∀ key, native.inserts key = true) ∧ ∀ i, native.looksUp i = true

/-! ## Parts that both binders have -/

section

variable (f : Function) (strings : Strings) (native : Native)

/-- Arguments are written to the slots they are paired with. -/
def writePairs (pairs : List (Nat × Option ObjId)) (o : Out) : Except Failure Out :=
  pairs.foldlM (fun o pair =>
    match pair.2 with
    | none => o.fail .nullPositional
    | some value => .ok (o.writeBorrowed pair.1 value)) o

variable (args : List (Option ObjId)) (o : Out)

/-- The positional arguments, as far as there are parameters for them. -/
def bindPositional : Except Failure Out :=
  writePairs (f.signature.positionalParamIndices.zip args) o

/-- The items of the tuple for the other positional arguments. -/
def fillTuple (tuple : ObjId) : List (Option ObjId) → List ObjId → Out → Except Failure (List ObjId × Out)
  | [], items, o => .ok (items, o)
  | none :: _, items, o => (o.release (Value.tuple tuple items).refs).fail .nullVararg
  | some value :: args, items, o => fillTuple tuple args (items ++ [value]) (o.acquire value)

def bindVarargs : Except Failure Out :=
  match f.signature.varargIndex with
  | none => .ok o
  | some i =>
    match native.tupleNew with
    | none => o.fail .native
    | some tuple => do
      let (items, o) ← fillTuple tuple (args.drop f.signature.positionalCapacity) [] (o.acquire tuple)
      return o.writeOwned i (.tuple tuple items)

def bindVarkw : Except Failure Out :=
  match f.signature.kwargIndex with
  | none => .ok o
  | some i =>
    match native.dictNew with
    | none => o.fail .native
    | some dict => .ok ((o.acquire dict).writeOwned i (.dict dict []))

/-- A keyword that no parameter takes goes into the dictionary. -/
def insertVarkw (i : Nat) (kw : Keyword) (o : Out) : Except Failure Out :=
  if native.inserts kw.key then .ok (o.dictSet i kw) else o.fail .native

/-! ## `bind_function_args_to_output` -/

def hasFixedPositionalBodyAbi : Bool :=
  f.signature.varargIndex = none ∧ f.signature.kwargIndex = none ∧
    f.signature.positionalCapacity = f.signature.params.length

def bindsExactPositional (call : RawCall) : Bool :=
  call.kwnames.isNone ∧ hasFixedPositionalBodyAbi f ∧ call.positional.length = f.signature.params.length

/-- The loop for a call with one positional argument for each parameter. -/
def bindExactPositional : Except Failure Out :=
  writePairs ((List.range f.signature.params.length).zip args) o

/-- The parameters that can be named, in the order of the native code object. -/
def keywordParameterIndices : List Nat :=
  (f.signature.positionalParamIndices ++ f.signature.indices (· = .kwOnly) ++ f.signature.varargIndex.toList ++
    f.signature.kwargIndex.toList).filter fun i => f.signature.params[i]?.any fun p => keywordKind p.kind

/-- The identity of all names is tried before the equality of any. -/
def matchKeyword (key : ObjId) : Except Unit (Option Nat) :=
  match (keywordParameterIndices f).find? fun i => key = strings.intern (f.signature.name i) with
  | some i => .ok (some i)
  | none =>
    if native.compares key then
      .ok ((keywordParameterIndices f).find? fun i => strings.content key = some (PyStr.ofString (f.signature.name i)))
    else .error ()

/-- The keywords that name a positional-only parameter, for the error message. -/
def positionalOnlyConflicts (keywords : List RawKeyword) : List ObjId :=
  (f.signature.indices (· = .posOnly)).flatMap fun i =>
    (keywords.filter fun kw => strings.content kw.key = some (PyStr.ofString (f.signature.name i))).map (·.key)

/-- One keyword argument. -/
def bindKeyword (keywords : List RawKeyword) (o : Out) (kw : RawKeyword) : Except Failure Out :=
  match kw.value with
  | none => o.fail .nullKeyword
  | some value =>
    if (strings.content kw.key).isNone then o.fail .keywordNotString
    else
      match matchKeyword f strings native kw.key with
      | .error _ => o.fail .native
      | .ok (some i) =>
        if o.isAssigned i then o.fail (.multipleValues kw.key) else .ok (o.writeBorrowed i value)
      | .ok none =>
        match f.signature.kwargIndex with
        | some i => insertVarkw native i { key := kw.key, value } o
        | none =>
          match positionalOnlyConflicts f strings keywords with
          | [] => o.fail (.unexpectedKeyword kw.key)
          | conflicts => o.fail (.positionalOnlyAsKeyword conflicts)

/-- One positional parameter takes its default. -/
def bindPositionalDefault (index position : Nat) : Out :=
  let count := f.defaults.length
  let capacity := f.signature.positionalCapacity
  if o.isAssigned index then o
  else
    -- The parameters without a default have been found to be bound, so the item is always there.
    match f.defaults[count - capacity + position - (capacity - count)]? with
    | some value => o.writeBorrowed index value
    | none => o

/-- One keyword-only parameter takes its default, or is noted as missing. -/
def bindKeywordDefault (state : Out × List Nat) (i : Nat) : Except Failure (Out × List Nat) :=
  if state.1.isAssigned i then .ok state
  else if native.looksUp i then
    match f.kwdefaults (f.signature.name i) with
    | some value => .ok (state.1.writeBorrowed i value, state.2)
    | none => .ok (state.1, state.2 ++ [i])
  else state.1.fail .native

def bindCurrentFunctionDefaults : Except Failure Out := do
  let firstDefault := f.signature.positionalCapacity - f.defaults.length
  let missing := (f.signature.positionalParamIndices.take firstDefault).filter fun i => !o.isAssigned i
  if missing ≠ [] then
    o.fail (.missingPositional missing)
  else
    let o := f.signature.positionalParamIndices.zipIdx.foldl (fun o (i, position) => bindPositionalDefault f o i position) o
    let (o, missing) ← (f.signature.indices (· = .kwOnly)).foldlM (bindKeywordDefault f native) (o, [])
    if missing ≠ [] then o.fail (.missingKeywordOnly missing) else .ok o

/-- The parameters of some kinds that have neither an argument nor a default in their runtime slot. -/
def missingArguments (kinds : ParamKind → Bool) (o : Out) : List Nat :=
  (f.signature.indices kinds).filter fun i =>
    !o.isAssigned i && (f.signature.params[i]?.bind fun p => f.default i p).isNone

/-- Without an activation the defaults are left to the entry code; only their presence is checked. -/
def checkDefaults : Except Failure Out :=
  if missingArguments f positionalKind o ≠ [] then o.fail (.missingPositional (missingArguments f positionalKind o))
  else if missingArguments f (· = .kwOnly) o ≠ [] then o.fail (.missingKeywordOnly (missingArguments f (· = .kwOnly) o))
  else .ok o

variable (activation : Bool)

/-- The number of defaults that the error message for too many arguments gives. -/
def defaultCount : Nat :=
  if activation then f.defaults.length
  else f.signature.positionalParamIndices.countP fun i => (f.signature.params[i]?.bind fun p => f.default i p).isSome

def bindFunctionArgsToOutput (call : RawCall) : Except Failure Out :=
  let o := Out.init f.signature.params.length
  if bindsExactPositional f call then bindExactPositional f call.positional o
  else if native.names = false then .error { error := .native, events := [] }
  else do
    let o ← bindPositional f call.positional o
    let o ← bindVarargs f native call.positional o
    let o ← bindVarkw f native o
    let o ← call.keywords.foldlM (bindKeyword f strings native call.keywords) o
    if f.signature.varargIndex = none ∧ f.signature.positionalCapacity < call.positional.length then
      o.fail (.excessPositional call.positional.length (defaultCount f activation)
        ((f.signature.indices (· = .kwOnly)).countP o.isAssigned))
    else if activation then bindCurrentFunctionDefaults f native o
    else checkDefaults f o

/-! ## `build_entry_local_values` -/

/-- The index of a parameter by its name. -/
def paramIndex (name : String) : Option Nat :=
  f.signature.params.findIdx? (·.name = name)

/-- One keyword argument of the entry interpreter. -/
def bindEntryKeyword (kw : RawKeyword) : Except Failure Out :=
  match kw.value with
  | none => o.fail .nullKeyword
  | some value =>
    match strings.content kw.key with
    | none => o.fail .keywordNotString
    | some key =>
      match key.utf8? with
      | none => o.fail .keywordNotUtf8
      | some name =>
        let unnamed : Except Failure Out :=
          match f.signature.kwargIndex with
          | some varkw => insertVarkw native varkw { key := kw.key, value } o
          | none => o.fail (.unexpectedKeyword kw.key)
        match paramIndex f name with
        | none => unnamed
        | some i =>
          match f.signature.kind i with
          | .posOnly | .varArg | .kwArg => unnamed
          | .any | .kwOnly =>
            if o.isAssigned i then o.fail (.multipleValues kw.key) else .ok (o.writeBorrowed i value)

/-- One parameter takes its default from its runtime slot. -/
def bindEntryDefault (i : Nat) : Except Failure Out :=
  if o.isAssigned i then .ok o
  else
    match f.signature.params[i]? with
    | none => .ok o
    | some p =>
      if singleKind p.kind then
        match f.default i p with
        | some value => .ok (o.writeBorrowed i value)
        | none => o.fail (.missingRequired i)
      else .ok o

def bindEntryParams (call : RawCall) : Except Failure Out :=
  let o := Out.init f.signature.params.length
  if f.signature.varargIndex = none ∧ f.signature.positionalCapacity < call.positional.length then
    .error { error := .excessPositional call.positional.length 0 0, events := [] }
  else do
    let o ← bindPositional f call.positional o
    let o ← bindVarargs f native call.positional o
    let o ← bindVarkw f native o
    let o ← call.keywords.foldlM (bindEntryKeyword f strings native) o
    (List.range f.signature.params.length).foldlM (bindEntryDefault f) o

/-- `entry_locals_from_bound_parameters`: the values move to the locals, each to the one that the plan gives it. -/
def entryLocals : List (Option Nat) → List (Option Value) → List (Option Value)
  | [], _ => []
  | none :: locals, values => none :: entryLocals locals values
  | some i :: locals, values => (values[i]?).getD none :: entryLocals locals (values.set i none)

/-- The locals at entry. With an activation the first binder is used. -/
def buildEntryLocalValues (localParamIndices : List (Option Nat)) (call : RawCall) :
    Except Failure (List (Option Value)) := do
  let o ← if activation then bindFunctionArgsToOutput f strings native true call else bindEntryParams f strings native call
  return entryLocals localParamIndices o.slots

end

end Soac.Calls
