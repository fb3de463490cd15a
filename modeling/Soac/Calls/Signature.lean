import Soac.Ir.Block

/-!
# Calls of Python functions

The parameters of a function, the arguments of a call, and the rules of Python that say which calls a function accepts and
what each parameter gets.
-/

namespace Soac.Calls

/-- An object, by its address. -/
abbrev ObjId := Nat

/-! ## Strings -/

/-- A Python string: any code points, surrogates among them. -/
abbrev PyStr := List (Fin 0x110000)

theorem char_toNat_lt (c : Char) : c.toNat < 0x110000 := by
  rcases c.valid with h | h
  · exact Nat.lt_trans h (by decide)
  · exact h.2

def PyStr.ofString (s : String) : PyStr :=
  s.toList.map fun c => ⟨c.toNat, char_toNat_lt c⟩

/-- `PyUnicode_AsUTF8AndSize`: a string with a surrogate in it has no UTF-8 text. -/
def PyStr.utf8? (s : PyStr) : Option String :=
  (s.mapM fun c : Fin 0x110000 => if c.val.isValidChar then some (Char.ofNat c.val) else none).map String.ofList

/-- The string objects: which objects are strings, and the one that a name of the compiler is interned as. -/
structure Strings where
  content : ObjId → Option PyStr
  intern : String → ObjId
  content_intern (s : String) : content (intern s) = some (PyStr.ofString s)

/-! ## Parameters -/

def positionalKind : ParamKind → Bool
  | .posOnly | .any => true
  | _ => false

/-- The parameters that an argument can be given to by its name. -/
def keywordKind : ParamKind → Bool
  | .any | .kwOnly => true
  | _ => false

/-- The parameters that take one argument. -/
def singleKind : ParamKind → Bool
  | .varArg | .kwArg => false
  | _ => true

/-- The parameters of a function: distinct names, and at most one parameter of each variadic kind. -/
structure Signature where
  params : List Param
  names_nodup : (params.map (·.name)).Nodup
  varArg_le : params.countP (·.kind = .varArg) ≤ 1
  kwArg_le : params.countP (·.kind = .kwArg) ≤ 1

namespace Signature

variable (sig : Signature)

/-- The indices of the parameters of some kinds. -/
def indices (kinds : ParamKind → Bool) : List Nat :=
  (List.range sig.params.length).filter fun i => sig.params[i]?.any fun p => kinds p.kind

def positionalParamIndices : List Nat :=
  sig.indices positionalKind

def positionalCapacity : Nat :=
  sig.positionalParamIndices.length

def varargIndex : Option Nat :=
  sig.params.findIdx? (·.kind = .varArg)

def kwargIndex : Option Nat :=
  sig.params.findIdx? (·.kind = .kwArg)

def name (i : Nat) : String :=
  (sig.params[i]?.map (·.name)).getD ""

def kind (i : Nat) : ParamKind :=
  (sig.params[i]?.map (·.kind)).getD .any

end Signature

/-- A function: its parameters, and the values of `__defaults__` and `__kwdefaults__`. -/
structure Function where
  signature : Signature
  defaults : List ObjId
  kwdefaults : String → Option ObjId

/-! ## Arguments -/

/-- A keyword argument: the string object that names it, and its value. -/
structure Keyword where
  key : ObjId
  value : ObjId
deriving DecidableEq, Repr

/-- A call with arguments as Python passes them: the names of the keywords are strings and distinct. -/
structure Call (strings : Strings) where
  positional : List ObjId
  keywords : List Keyword
  named : ∀ kw ∈ keywords, (strings.content kw.key).isSome
  distinct : (keywords.map fun kw => strings.content kw.key).Nodup

/-! ## The rules of Python -/

/-- What a parameter is bound to. -/
inductive PyValue where
  | object (value : ObjId)
  | tuple (items : List ObjId)
  | dict (entries : List Keyword)
deriving DecidableEq, Repr

namespace Function

variable (f : Function) {strings : Strings} (call : Call strings)

/-- The positional argument of a parameter. -/
def positionalValue (i : Nat) : Option ObjId :=
  (f.signature.positionalParamIndices.zip call.positional).lookup i

/-- A keyword is for a parameter that can be named and has that name. -/
def Takes (strings : Strings) (p : Param) (kw : Keyword) : Prop :=
  keywordKind p.kind ∧ strings.content kw.key = some (PyStr.ofString p.name)

instance (p : Param) (kw : Keyword) : Decidable (Takes strings p kw) :=
  inferInstanceAs (Decidable (_ ∧ _))

/-- The keyword argument of a parameter. -/
def keywordValue (p : Param) : Option ObjId :=
  (call.keywords.find? fun kw => Takes strings p kw).map (·.value)

/-- The default of a parameter: the last values of `__defaults__` belong to the last positional parameters. -/
def default (i : Nat) (p : Param) : Option ObjId :=
  match p.kind with
  | .posOnly | .any =>
    let position := f.signature.positionalParamIndices.idxOf i
    if f.signature.positionalCapacity ≤ f.defaults.length + position then
      f.defaults[f.defaults.length + position - f.signature.positionalCapacity]?
    else none
  | .kwOnly => f.kwdefaults p.name
  | .varArg | .kwArg => none

/-- Python's rules accept the call. -/
structure Accepts : Prop where
  room : call.positional.length ≤ f.signature.positionalCapacity ∨ ∃ p ∈ f.signature.params, p.kind = .varArg
  known : ∀ kw ∈ call.keywords,
    (∃ p ∈ f.signature.params, Takes strings p kw) ∨ ∃ p ∈ f.signature.params, p.kind = .kwArg
  once : ∀ i p, f.signature.params[i]? = some p → f.positionalValue call i = none ∨ keywordValue call p = none
  filled : ∀ i p, f.signature.params[i]? = some p → singleKind p.kind →
    f.positionalValue call i ≠ none ∨ keywordValue call p ≠ none ∨ f.default i p ≠ none

/-- What Python binds a parameter to. -/
def pythonValue (i : Nat) (p : Param) : Option PyValue :=
  match p.kind with
  | .varArg => some (.tuple (call.positional.drop f.signature.positionalCapacity))
  | .kwArg => some (.dict (call.keywords.filter fun kw => ∀ p ∈ f.signature.params, ¬Takes strings p kw))
  | .posOnly | .any | .kwOnly =>
    (((f.positionalValue call i).or (keywordValue call p)).or (f.default i p)).map .object

end Function

end Soac.Calls
