import Mathlib.Data.List.Dedup
import Soac.Lib.Rose

/-!
# The scope analysis

`semantic/mod.rs`: for every scope of a module (the module, its functions and lambdas, its classes) which names are local,
nonlocal or global in it. The names of a scope are collected by a walk over its statements; a scope is prepared when it is
opened, from what the scopes around it hold by then, and pushed; its inner scopes follow. When all scopes are there, the local
names that an inner scope uses are made nonlocal where they are bound (`propagate_nonlocal_roots`).

A scope is here what the two walks see of it: the occurrences of names in its own statements, in order, and the scopes opened
inside it, in order. Decorators, defaults, and the headers of classes belong to the scope around. The tables that find the
scope of a syntax node are left out: a scope is found by its number.
-/

namespace Soac

inductive SemanticBindingKind where
  | local
  | nonlocal
  | global
deriving DecidableEq, Repr

inductive SemanticScopeKind where
  | function
  | classScope
  | module
deriving DecidableEq, Repr

def isInternalSymbol (name : String) : Bool :=
  "_dp_".toList.isPrefixOf name.toList || name == "__soac__"

/-! ## Scopes as the walks see them -/

/-- A name at a place of the syntax; `original` when the catalog of source names has it there. -/
structure Occurrence where
  name : String
  original : Bool := true
deriving DecidableEq, Repr

/-- What the collector meets in the statements of one scope. Binding covers assignment, deletion, `for`, `with`, `import`,
`except` and pattern targets, and the names of functions and classes. -/
inductive NameEvent where
  | load (o : Occurrence)
  | bind (o : Occurrence)
  | typeParam (o : Occurrence)
  | declareGlobal (o : Occurrence)
  | declareNonlocal (o : Occurrence)
deriving DecidableEq, Repr

def NameEvent.occurrence : NameEvent → Occurrence
  | load o | bind o | typeParam o | declareGlobal o | declareNonlocal o => o

/-- A scope without the scopes inside it. A lambda is a function; `usesClassCell` is what `uses_implicit_class_cell` answers
for its body. -/
structure ScopeBody where
  kind : SemanticScopeKind
  name : String := ""
  usesClassCell : Bool := false
  parameters : List Occurrence := []
  events : List NameEvent := []
deriving DecidableEq, Repr

/-- A scope with the scopes inside it, in the order in which they are opened. -/
abbrev ScopeTree := Rose ScopeBody

/-! ## Collecting the names of a scope -/

/-- `RuffScopeBindingCollector`. -/
structure ScopeBindingCollector where
  sourceNames : List String := []
  boundNames : List String := []
  typeParamNames : List String := []
  explicitGlobals : List String := []
  explicitNonlocals : List String := []
  loadNames : List String := []
deriving Repr

namespace ScopeBindingCollector

variable (c : ScopeBindingCollector)

def recordSourceName (o : Occurrence) : ScopeBindingCollector :=
  if o.original then { c with sourceNames := o.name :: c.sourceNames } else c

/-- `record_loaded_name`: a generated name is not recorded. -/
def recordLoadedName (name : String) : ScopeBindingCollector :=
  if !isInternalSymbol name || c.sourceNames.contains name then { c with loadNames := name :: c.loadNames } else c

def record : NameEvent → ScopeBindingCollector
  | .load o => c.recordLoadedName o.name
  | .bind o => { c with boundNames := o.name :: c.boundNames }
  | .typeParam o => { c with boundNames := o.name :: c.boundNames, typeParamNames := o.name :: c.typeParamNames }
  | .declareGlobal o => { c with explicitGlobals := o.name :: c.explicitGlobals }
  | .declareNonlocal o => { c with explicitNonlocals := o.name :: c.explicitNonlocals }

/-- `visit_stmt`, `visit_expr`. -/
def visit (e : NameEvent) : ScopeBindingCollector :=
  (c.recordSourceName e.occurrence).record e

end ScopeBindingCollector

def collectScopeBindings (events : List NameEvent) : ScopeBindingCollector :=
  events.foldl ScopeBindingCollector.visit {}

/-! ## Bindings -/

/-- The kinds of the names of a scope; a later entry stands before the one it replaces. -/
abbrev SemanticBindings := List (String × SemanticBindingKind)

def mergeSemanticBinding : SemanticBindingKind → SemanticBindingKind → SemanticBindingKind
  | .global, .local => .global
  | .nonlocal, .local => .nonlocal
  | .local, .global => .global
  | .local, .nonlocal => .nonlocal
  | existing, _ => existing

def setSemanticBinding (bindings : SemanticBindings) (name : String) (binding : SemanticBindingKind) (sourceName : Bool) :
    SemanticBindings :=
  let binding := if isInternalSymbol name && !sourceName then .local else binding
  match bindings.lookup name with
  | some existing =>
    let merged := mergeSemanticBinding existing binding
    if merged ≠ existing then (name, merged) :: bindings else bindings
  | none => (name, binding) :: bindings

inductive EnclosingBinding where
  | function (cellStorageName : Option String)
  | classCell
  | global
deriving DecidableEq, Repr

def EnclosingBinding.bindingKind : EnclosingBinding → SemanticBindingKind
  | function _ | classCell => .nonlocal
  | global => .global

/-- `into_cell_storage_name`. -/
def EnclosingBinding.cellStorageName : EnclosingBinding → Option String
  | function cellStorageName => cellStorageName
  | classCell => some "_dp_classcell"
  | global => none

structure SemanticScopeData where
  sourceNames : List String := []
  kind : SemanticScopeKind
  bindings : SemanticBindings := []
  localDefs : List String := []
  typeParamNames : List String := []
  cellStorageNames : List (String × String) := []
  parent : Option Nat := none
  qualname : String := ""
deriving Repr

abbrev SemanticSnapshot := List SemanticScopeData

/-- The numbers of the scopes from one outward, along their parents. -/
def SemanticSnapshot.outward (scopes : SemanticSnapshot) : Nat → Option Nat → List Nat
  | 0, _ | _, none => []
  | fuel + 1, some id =>
    match scopes[id]? with
    | some scope => id :: outward scopes fuel scope.parent
    | none => []

variable (scopes : SemanticSnapshot)

/-- The scopes from one outward. -/
def SemanticSnapshot.enclosing (current : Nat) : List SemanticScopeData :=
  (scopes.outward scopes.length (some current)).filterMap fun id => scopes[id]?

/-- `enclosing_binding_owner`, over the scopes from the current one outward; the scope that asks is a function when
`isFunction`. Class scopes own no names, but the class cell of a function. -/
def enclosingBindingOwner (isFunction : Bool) (name : String) : List SemanticScopeData → Option EnclosingBinding
  | [] => none
  | scope :: outer =>
    let classCell := isFunction && name == "__class__"
    match scope.kind with
    | .function =>
      if classCell && scope.bindings.lookup name == some .global then some .global
      else if scope.localDefs.contains name || scope.bindings.lookup name == some .nonlocal then
        some (.function (scope.cellStorageNames.lookup name))
      else enclosingBindingOwner isFunction name outer
    | .classScope => if classCell then some .classCell else enclosingBindingOwner isFunction name outer
    | .module => none

/-! ## Preparing a scope -/

structure ScopePreparation where
  sourceNames : List String
  bindings : SemanticBindings
  localDefs : List String
  typeParamNames : List String
  cellStorageNames : List (String × String)
deriving Repr

/-- The bindings of a name that is resolved outward, with the cell it is stored in. -/
def bindToOwner (bindings : SemanticBindings) (cellStorageNames : List (String × String)) (name : String) (sourceName : Bool)
    (owner : EnclosingBinding) : SemanticBindings × List (String × String) :=
  (setSemanticBinding bindings name owner.bindingKind sourceName,
    match owner.cellStorageName with
    | some storageName => (name, storageName) :: cellStorageNames
    | none => cellStorageNames)

/-- The loop over the names a scope loads: those without a binding yet are resolved outward. -/
def bindLoads (owner : String → Option EnclosingBinding) (sourceName : String → Bool) (loads : List String)
    (start : SemanticBindings × List (String × String)) : SemanticBindings × List (String × String) :=
  loads.foldl (fun (bindings, cells) name =>
    if (bindings.lookup name).isSome then (bindings, cells)
    else match owner name with
      | some owner => bindToOwner bindings cells name (sourceName name) owner
      | none => (bindings, cells)) start

/-- Give a list of names one kind. -/
def bindNames (sourceName : String → Bool) (kind : SemanticBindingKind) (names : List String) (bindings : SemanticBindings) :
    SemanticBindings :=
  names.foldl (fun bindings name => setSemanticBinding bindings name kind (sourceName name)) bindings

/-- The names a scope declares, its parameters, and the names its statements bind. -/
def ownBindings (sourceName : String → Bool) (collector : ScopeBindingCollector) (parameterNames : List String) :
    SemanticBindings :=
  let bindings := bindNames sourceName .global collector.explicitGlobals []
  let bindings := bindNames sourceName .nonlocal collector.explicitNonlocals bindings
  let bindings := bindNames sourceName .local parameterNames bindings
  bindNames sourceName .local collector.boundNames bindings

/-- The class cell of a function that needs it, unless the function has the name as its own. -/
def bindClassCell (needed : Bool) (owner : Option EnclosingBinding) (sourceName : Bool) (bindings : SemanticBindings) :
    SemanticBindings × List (String × String) :=
  if needed && bindings.lookup "__class__" != some .local && bindings.lookup "__class__" != some .global then
    match owner with
    | some owner => bindToOwner bindings [] "__class__" sourceName owner
    | none => (bindings, [])
  else (bindings, [])

/-- `prepare_scope_from_collector`, with the scopes around the new one. -/
def prepareScopeFromCollector (enclosing : List SemanticScopeData) (kind : SemanticScopeKind)
    (collector : ScopeBindingCollector) (usesClassCell : Bool) (parameters : List Occurrence) : ScopePreparation :=
  let sourceNames := (parameters.filter (·.original)).map (·.name) ++ collector.sourceNames
  let sourceName := fun name => sourceNames.contains name
  let parameterNames := parameters.map (·.name)
  let isFunction := kind == .function
  let owner := fun name => enclosingBindingOwner isFunction name enclosing
  let localDefs := (parameterNames ++ collector.boundNames).filter fun name =>
    !collector.explicitGlobals.contains name && !collector.explicitNonlocals.contains name
  let bindings := bindLoads owner sourceName collector.loadNames
    (bindClassCell (isFunction && usesClassCell) (owner "__class__") (sourceName "__class__")
      (ownBindings sourceName collector parameterNames))
  { sourceNames := sourceNames
    bindings := bindings.1
    localDefs := localDefs
    typeParamNames := collector.typeParamNames
    cellStorageNames := bindings.2 }

/-! ## Building the snapshot -/

def childQualname (parent : SemanticScopeData) (name : String) : String :=
  if parent.bindings.lookup name == some .global then name
  else match parent.kind with
    | .module => name
    | .function => parent.qualname ++ ".<locals>." ++ name
    | .classScope => parent.qualname ++ "." ++ name

/-- `push_snapshot_scope`: the new scope is numbered by its place. -/
def pushSnapshotScope (parentId : Nat) (kind : SemanticScopeKind) (name : String)
    (preparation : ScopePreparation) : SemanticSnapshot :=
  scopes ++ [{
    sourceNames := preparation.sourceNames
    kind := kind
    bindings := preparation.bindings
    localDefs := preparation.localDefs
    typeParamNames := preparation.typeParamNames
    cellStorageNames := preparation.cellStorageNames
    parent := some parentId
    qualname := (scopes[parentId]?.map fun parent => childQualname parent name).getD name }]

mutual

/-- `visit_stmt`, `visit_expr` at a definition: the scope is prepared and pushed, then its body is visited. -/
def visitScope (scopes : SemanticSnapshot) (current : Nat) : ScopeTree → SemanticSnapshot
  | .node s inner =>
    let preparation := prepareScopeFromCollector (scopes.enclosing current) s.kind (collectScopeBindings s.events)
      s.usesClassCell s.parameters
    visitScopes (pushSnapshotScope scopes current s.kind s.name preparation) scopes.length inner

def visitScopes (scopes : SemanticSnapshot) (current : Nat) : List ScopeTree → SemanticSnapshot
  | [] => scopes
  | t :: ts => visitScopes (visitScope scopes current t) current ts

end

/-! ## The roots of nonlocal names -/

/-- The walk of `propagate_nonlocal_roots` outward: the first function where the name is local gets it as nonlocal. -/
def markRoot (scopes : SemanticSnapshot) (name : String) : List Nat → SemanticSnapshot
  | [] => scopes
  | id :: outer =>
    match scopes[id]? with
    | some scope =>
      if scope.kind == .function && scope.bindings.lookup name == some .local then
        scopes.set id { scope with
          bindings := setSemanticBinding scope.bindings name .nonlocal (scope.sourceNames.contains name) }
      else markRoot scopes name outer
    | none => scopes

/-- The names a scope has as nonlocal. -/
def SemanticScopeData.nonlocals (scope : SemanticScopeData) : List String :=
  (scope.bindings.map Prod.fst).dedup.filter fun name => scope.bindings.lookup name == some .nonlocal

def markRoots (id : Nat) : SemanticSnapshot :=
  match scopes[id]? with
  | some scope =>
    scope.nonlocals.foldl (fun scopes name => markRoot scopes name (scopes.outward scopes.length scope.parent)) scopes
  | none => scopes

def propagateNonlocalRoots : SemanticSnapshot :=
  (List.range scopes.length).foldl markRoots scopes

/-- The scopes of a module when they are all prepared. -/
def preparedSnapshot : ScopeTree → SemanticSnapshot
  | .node s inner =>
    let preparation := prepareScopeFromCollector [{ kind := .module }] .module (collectScopeBindings s.events)
      s.usesClassCell s.parameters
    visitScopes [{
      sourceNames := preparation.sourceNames
      kind := .module
      bindings := preparation.bindings
      localDefs := preparation.localDefs
      typeParamNames := preparation.typeParamNames
      cellStorageNames := preparation.cellStorageNames }] 0 inner

/-- `RuffSemanticSnapshotBuilder::build`. -/
def buildSnapshot (m : ScopeTree) : SemanticSnapshot :=
  propagateNonlocalRoots (preparedSnapshot m)

/-! ## Asking for a name -/

/-- The walk of `resolved_load_binding` outward. -/
def resolveOutward (name : String) : List SemanticScopeData → SemanticBindingKind
  | [] => .global
  | scope :: outer =>
    match scope.kind with
    | .function =>
      if scope.localDefs.contains name || scope.bindings.lookup name == some .nonlocal then .nonlocal
      else resolveOutward name outer
    | .module => .global
    | .classScope => resolveOutward name outer

/-- `resolved_load_binding`, for the scope with a number. -/
def resolvedLoadBinding (id : Nat) (name : String) : Option SemanticBindingKind :=
  scopes[id]?.map fun scope =>
    match scope.bindings.lookup name with
    | some binding => binding
    | none =>
      if isInternalSymbol name && !scope.sourceNames.contains name then .local
      else resolveOutward name
        ((scopes.outward scopes.length scope.parent).filterMap fun id => scopes[id]?)

end Soac
