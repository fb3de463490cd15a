import Mathlib.Logic.Function.Basic

/-!
# `except*` handlers

`rewrite_try_stmt` replaces the `except*` handlers of a `try` by one handler that takes what is left of the exception apart:
it splits it at the type of each handler in turn, runs the handler on the part that matches, and raises the rest. The code
of the program is a parameter, and so are the exceptions; `split` is `BaseExceptionGroup.split`.
-/

namespace Soac.TryStar

variable {E T B W : Type}

/-- Exceptions and their types: a group has leaves, which splitting at a type partitions. -/
structure Exceptions (E T : Type) where
  isGroup : E → Bool
  leaves : E → List E
  isInstance : E → T → Bool
  split : E → T → Option E × Option E
  baseException : T
  leaves_plain : ∀ e, isGroup e = false → leaves e = [e]
  leaves_ne_nil : ∀ e, leaves e ≠ []
  split_match : ∀ e t, isGroup e = true → (split e t).1.elim [] leaves = (leaves e).filter (isInstance · t)
  split_rest : ∀ e t, isGroup e = true → (split e t).2.elim [] leaves = (leaves e).filter (!isInstance · t)
  split_group : ∀ e t part, isGroup e = true → (split e t).1 = some part ∨ (split e t).2 = some part → isGroup part = true

variable (X : Exceptions E T)

/-- `exceptiongroup_split`; `none` is `None`. -/
def exceptiongroupSplit (exc : Option E) (excType : T) : Option E × Option E :=
  match exc with
  | none => (none, none)
  | some e =>
    if X.isGroup e then X.split e excType else if X.isInstance e excType then (some e, none) else (none, some e)

/-! ## The rewriting -/

/-- The statements of the rewritten `try`; `source` is code of the program. -/
inductive Stmt (T B : Type) where
  | source (code : B)
  | pass
  | assignCurrent (target : String)
  | assign (target value : String)
  | assignSplit (target rest : String) (excType : T)
  | ifNotNone (name : String) (body : List (Stmt T B))
  | raise (name : String)
  | delQuietly (name : String)
  | tryFinally (body final : List (Stmt T B))
  | tryExcept (body handler orelse final : List (Stmt T B))

structure Handler (T B : Type) where
  type : Option T
  name : Option String
  body : B

structure StmtTry (T B : Type) where
  body : B
  handlers : List (Handler T B)
  orelse : B
  finalbody : B

def wrapHandlerBodyWithCleanup (name : String) (body : List (Stmt T B)) : List (Stmt T B) :=
  [.tryFinally body [.delQuietly name]]

/-- The type of a handler. -/
def Handler.typ (h : Handler T B) : T :=
  h.type.getD X.baseException

/-- What a handler does when something matches. -/
def Handler.onMatch (h : Handler T B) : List (Stmt T B) :=
  match h.name with
  | some target => .assign target "_dp_match" :: wrapHandlerBodyWithCleanup target [.source h.body]
  | none => [.pass, .source h.body]

/-- What the handlers do with what is left, which is raised at the end. -/
def handlerChain (X : Exceptions E T) : List (Handler T B) → List (Stmt T B)
  | [] => [.ifNotNone "_dp_rest" [.raise "_dp_rest"]]
  | h :: handlers =>
    .assignSplit "_dp_match" "_dp_rest" (h.typ X) :: .ifNotNone "_dp_match" h.onMatch :: handlerChain X handlers

def handlerBody (handlers : List (Handler T B)) : List (Stmt T B) :=
  .assignCurrent "_dp_exc" :: .assign "_dp_rest" "_dp_exc" :: handlerChain X handlers

/-- `rewrite_try_stmt` for a statement with `except*` handlers. -/
def rewriteTryStmt (stmt : StmtTry T B) : Stmt T B :=
  .tryExcept [.source stmt.body] (handlerBody X stmt.handlers) [.source stmt.orelse] [.source stmt.finalbody]

/-! ## Running it -/

/-- The variables that hold an exception, and the exception that is being handled. -/
structure Frame (E W : Type) where
  vars : String → Option E
  current : Option E
  world : W

/-- A piece of the program has run: the variables it found, and the exception it raised. -/
structure Event (E B : Type) where
  code : B
  vars : String → Option E
  raised : Option E

structure State (E B W : Type) extends Frame E W where
  log : List (Event E B)

def State.set (σ : State E B W) (name : String) (value : Option E) : State E B W :=
  { σ with vars := Function.update σ.vars name value }

/-- The exceptions, and what the code of the program does. -/
structure Python (E T B W : Type) extends Exceptions E T where
  run : B → Frame E W → Option E × Frame E W

mutual

/-- A statement raises an exception, or ends normally. -/
def Stmt.exec (P : Python E T B W) : Stmt T B → State E B W → Option E × State E B W
  | .source code, σ =>
    let r := P.run code σ.toFrame
    (r.1, { toFrame := r.2, log := σ.log ++ [⟨code, σ.vars, r.1⟩] })
  | .pass, σ => (none, σ)
  | .assignCurrent target, σ => (none, σ.set target σ.current)
  | .assign target value, σ => (none, σ.set target (σ.vars value))
  | .assignSplit target rest excType, σ =>
    let s := exceptiongroupSplit P.toExceptions (σ.vars rest) excType
    (none, (σ.set target s.1).set rest s.2)
  | .ifNotNone name body, σ => if (σ.vars name).isSome then execList P body σ else (none, σ)
  | .raise name, σ => (σ.vars name, σ)
  | .delQuietly name, σ => (none, σ.set name none)
  | .tryFinally body final, σ =>
    let r := execList P body σ
    let f := execList P final r.2
    (f.1.or r.1, f.2)
  | .tryExcept body handler orelse final, σ =>
    let b := execList P body σ
    let r := match b.1 with
      | none => execList P orelse b.2
      | some e =>
        let h := execList P handler { b.2 with current := some e }
        (h.1, { h.2 with current := b.2.current })
    let f := execList P final r.2
    (f.1.or r.1, f.2)

def execList (P : Python E T B W) : List (Stmt T B) → State E B W → Option E × State E B W
  | [], σ => (none, σ)
  | s :: ss, σ =>
    match s.exec P σ with
    | (none, σ') => execList P ss σ'
    | (some e, σ') => (some e, σ')

end

end Soac.TryStar
