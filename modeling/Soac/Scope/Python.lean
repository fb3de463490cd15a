import Soac.Scope.Semantic

/-!
# Python's scoping rules

The kind Python gives a name in a scope: its declaration if it has one, else local if the scope binds it, else what the scopes
around make of it. Of those the nearest function that declares or binds the name decides; class scopes are passed over, except
that the functions of a class see its implicit `__class__`.
-/

namespace Soac

namespace NameEvent

def global? : NameEvent → Option String
  | declareGlobal o => some o.name
  | _ => none

def nonlocal? : NameEvent → Option String
  | declareNonlocal o => some o.name
  | _ => none

def bound? : NameEvent → Option String
  | bind o | typeParam o => some o.name
  | _ => none

def load? : NameEvent → Option String
  | load o => some o.name
  | _ => none

end NameEvent

namespace ScopeBody

variable (s : ScopeBody)

/-- The names declared `global`. -/
def globals : List String := s.events.filterMap NameEvent.global?

/-- The names declared `nonlocal`. -/
def nonlocals : List String := s.events.filterMap NameEvent.nonlocal?

/-- The names that a parameter or a statement of the scope binds. -/
def boundNames : List String := s.parameters.map (·.name) ++ s.events.filterMap NameEvent.bound?

/-- The names that the statements of the scope read. -/
def loadNames : List String := s.events.filterMap NameEvent.load?

variable (x : String)

/-- A name that the scope reads, or the class cell of a function that needs it. -/
def reads : Bool :=
  s.loadNames.contains x || (s.kind == .function && s.usesClassCell && x == "__class__")

/-- A name that is used in the scope. -/
def uses : Bool :=
  s.globals.contains x || s.nonlocals.contains x || s.boundNames.contains x || s.reads x

/-- A name that the scope binds without a declaration. -/
def defines : Bool :=
  s.boundNames.contains x && !s.globals.contains x && !s.nonlocals.contains x

/-- The kind that the scope itself gives a name. -/
def ownKind : Option SemanticBindingKind :=
  if s.globals.contains x then some .global
  else if s.nonlocals.contains x then some .nonlocal
  else if s.boundNames.contains x then some .local
  else none

theorem defines_eq : s.defines x = (s.ownKind x == some .local) := by
  unfold ownKind defines
  cases s.globals.contains x <;> cases s.nonlocals.contains x <;> cases s.boundNames.contains x <;> rfl

end ScopeBody

/-- What the scopes around, the nearest first, make of a name that a function uses and does not bind. -/
def enclosingKind (x : String) : List ScopeBody → SemanticBindingKind
  | [] => .global
  | p :: outer =>
    match p.kind with
    | .function =>
      match p.ownKind x with
      | some .global => .global
      | some _ => .nonlocal
      | none => enclosingKind x outer
    | .classScope => if x == "__class__" then .nonlocal else enclosingKind x outer
    | .module => .global

/-- The kind of a name in a function with the given scopes around. -/
def pythonKind (s : ScopeBody) (outer : List ScopeBody) (x : String) : SemanticBindingKind :=
  (s.ownKind x).getD (enclosingKind x outer)

theorem enclosingKind_ne_local (x : String) (outer : List ScopeBody) : enclosingKind x outer ≠ .local := by
  induction outer with
  | nil => simp [enclosingKind]
  | cons p outer ih =>
    unfold enclosingKind
    split
    · split
      · simp
      · simp
      · exact ih
    · split_ifs
      · simp
      · exact ih
    · simp

/-! ## Where a name is bound -/

/-- A function around binds the name, or has it as nonlocal. -/
def boundOutside (x : String) : List ScopeBody → Bool
  | [] => false
  | p :: outer =>
    match p.kind with
    | .function => p.ownKind x == some .local || p.ownKind x == some .nonlocal || boundOutside x outer
    | .classScope => boundOutside x outer
    | .module => false

/-- The nearest function around that has the name as its own declares it global, and one further out binds it. -/
def hiddenByGlobal (x : String) : List ScopeBody → Bool
  | [] => false
  | p :: outer =>
    match p.kind with
    | .function =>
      match p.ownKind x with
      | some .global => boundOutside x outer
      | some _ => false
      | none => hiddenByGlobal x outer
    | .classScope => hiddenByGlobal x outer
    | .module => false

/-- A scope inside a function that binds the name takes the name from outside itself. -/
def ScopeBody.captures (s : ScopeBody) (outer : List ScopeBody) (x : String) : Bool :=
  match s.ownKind x with
  | some k => k == .nonlocal
  | none => s.reads x && (x != "__class__" || s.kind != .function || enclosingKind x outer == .nonlocal)

mutual

/-- The captures of a name in a scope and inside it, less one for each function that binds the name and has one inside. -/
def escapingCaptures (x : String) (outer : List ScopeBody) : ScopeTree → Nat
  | .node s inner =>
    (if s.captures outer x then 1 else 0) +
      (innerCaptures x (s :: outer) inner - if s.kind == .function && s.defines x then 1 else 0)

def innerCaptures (x : String) (outer : List ScopeBody) : List ScopeTree → Nat
  | [] => 0
  | t :: ts => escapingCaptures x outer t + innerCaptures x outer ts

end

/-! ## How the rules follow from it -/

theorem boundOutside_of_enclosingKind {x : String} (hx : x ≠ "__class__") {outer : List ScopeBody}
    (h : enclosingKind x outer = .nonlocal) : boundOutside x outer := by
  have hbeq : (x == "__class__") = false := beq_false_of_ne hx
  induction outer with
  | nil => cases h
  | cons p outer ih =>
    unfold enclosingKind at h
    unfold boundOutside
    cases hk : p.kind with
    | function =>
      simp only [hk] at h
      cases ho : p.ownKind x with
      | none =>
        rw [ho] at h
        simp [ih h]
      | some k => cases k <;> simp [ho] at h ⊢
    | classScope =>
      simp only [hk, hbeq] at h
      exact ih h
    | module => simp [hk] at h

/-- Python's rule differs from what is bound outside just where a `global` declaration hides it. -/
theorem hiddenByGlobal_iff {x : String} (hx : x ≠ "__class__") (outer : List ScopeBody) :
    hiddenByGlobal x outer ↔ boundOutside x outer ∧ enclosingKind x outer = .global := by
  have hbeq : (x == "__class__") = false := beq_false_of_ne hx
  induction outer with
  | nil => simp [hiddenByGlobal, boundOutside]
  | cons p outer ih =>
    simp only [hiddenByGlobal, boundOutside, enclosingKind]
    cases hk : p.kind with
    | function =>
      cases ho : p.ownKind x with
      | none => simpa using ih
      | some k => cases k <;> simp
    | classScope => simpa [hbeq] using ih
    | module => simp

end Soac
