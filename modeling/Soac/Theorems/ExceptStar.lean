import Soac.Passes.TryStar

/-!
# What `except*` handlers do

`exceptStar_follows_iff`: in a run whose handlers leave the variable `_dp_rest` alone, the handlers do what Python prescribes
exactly if a plain exception meets no handler with a name, and a handler that raises leaves nothing for those behind it. A
handler that raises ends the statement, and a plain exception is bound as it is; `exceptStar_false` is the second of these.
-/

namespace Soac.TryStar

open List Exceptions Stmt

variable {E T B W : Type} (X : Exceptions E T)

/-- The leaves of what a variable holds. -/
def Exceptions.leavesOf (exc : Option E) : List E :=
  exc.elim [] X.leaves

/-- The leaves that a handler is for. -/
def Exceptions.matching (h : Handler T B) (leaves : List E) : List E :=
  leaves.filter (X.isInstance · (h.typ X))

/-- The leaves that a handler leaves. -/
def Exceptions.remaining (h : Handler T B) (leaves : List E) : List E :=
  leaves.filter (!X.isInstance · (h.typ X))

/-- The statement ends with these leaves: normally if there are none. -/
def Exceptions.Ends (leaves : List E) : Option E → Prop
  | none => leaves = []
  | some e => (X.leaves e).Perm leaves

/-- What Python prescribes, for the leaves that remain, the handlers that ran and the leaves that they raised: each handler
in turn runs if a leaf matches its type, with a group of the matching leaves as its name, and the others remain. -/
def Exceptions.Follows (X : Exceptions E T) :
    List (Handler T B) → List E → List (Event E B) → List E → Option E → Prop
  | [], rest, log, raised, result => log = [] ∧ X.Ends (rest ++ raised) result
  | h :: hs, rest, log, raised, result =>
    if X.matching h rest = [] then X.Follows hs rest log raised result
    else match log with
      | [] => False
      | event :: later => event.code = h.body ∧
        (∀ name, h.name = some name → ∃ group, event.vars name = some group ∧ X.isGroup group = true ∧
          X.leaves group = X.matching h rest) ∧
        X.Follows hs (X.remaining h rest) later (raised ++ X.leavesOf event.raised) result

/-- Of the handlers that match, only one without a name meets a plain exception, and one that raises leaves nothing. -/
def Exceptions.Suits (X : Exceptions E T) (grouped : Bool) : List (Handler T B) → List E → List (Event E B) → Prop
  | [], _, _ => True
  | h :: hs, rest, log =>
    if X.matching h rest = [] then X.Suits grouped hs rest log
    else (h.name = none ∨ grouped = true) ∧ match log with
      | [] => True
      | event :: later =>
        (event.raised ≠ none → X.remaining h rest = []) ∧ X.Suits grouped hs (X.remaining h rest) later

/-- The state in which the first handler is tried. -/
def State.handling (σ : State E B W) (exc : E) : State E B W :=
  ((({ σ with current := some exc } : State E B W).set "_dp_exc" (some exc)).set "_dp_rest" (some exc))

/-- In the run of the handlers from a state, none that runs and does not raise changes `_dp_rest`. -/
def Python.KeepsRest (P : Python E T B W) : List (Handler T B) → State E B W → Prop
  | [], _ => True
  | h :: hs, σ =>
    let s := exceptiongroupSplit P.toExceptions (σ.vars "_dp_rest") (h.typ P.toExceptions)
    let r := (ifNotNone "_dp_match" h.onMatch).exec P ((σ.set "_dp_match" s.1).set "_dp_rest" s.2)
    r.1 = none → r.2.vars "_dp_rest" = s.2 ∧ P.KeepsRest hs r.2

/-! ## Splitting what is left -/

section

variable (X : Exceptions E T)

/-- A split partitions the leaves; the parts of a group are groups, and those of a plain exception are plain. -/
theorem split_spec {o : Option E} (h : Handler T B) {grouped : Bool} (ho : ∀ e, o = some e → X.isGroup e = grouped) :
    let s := exceptiongroupSplit X o (h.typ X)
    X.leavesOf s.1 = X.matching h (X.leavesOf o) ∧ X.leavesOf s.2 = X.remaining h (X.leavesOf o) ∧
      ∀ part, s.1 = some part ∨ s.2 = some part → X.isGroup part = grouped := by
  cases o with
  | none => exact ⟨rfl, rfl, by rintro part (hp | hp) <;> cases hp⟩
  | some e =>
    obtain rfl := ho e rfl
    cases hg : X.isGroup e with
    | true =>
      rw [exceptiongroupSplit, if_pos hg]
      exact ⟨X.split_match e _ hg, X.split_rest e _ hg, fun part hp => X.split_group e _ part hg hp⟩
    | false =>
      have hleaves : X.leaves e = [e] := X.leaves_plain e hg
      cases hi : X.isInstance e (h.typ X) <;> simp [exceptiongroupSplit, leavesOf, matching,
        remaining, hg, hi, hleaves]

/-- If the statement ends with the exception of a handler, nothing may be left. -/
theorem follows_stopped (handlers : List (Handler T B)) (rest : List E) (e : E) :
    X.Follows handlers rest [] (X.leaves e) (some e) ↔ rest = [] := by
  induction handlers with
  | nil =>
    simp only [Exceptions.Follows, Exceptions.Ends, true_and]
    constructor
    · intro h
      have := h.length_eq
      rw [length_append] at this
      exact eq_nil_of_length_eq_zero (by omega)
    · rintro rfl
      exact List.Perm.refl _
  | cons h handlers ih =>
    rw [Exceptions.Follows]
    split
    · exact ih
    · next hf =>
      refine ⟨False.elim, ?_⟩
      rintro rfl
      exact hf rfl

theorem suits_nil (grouped : Bool) (handlers : List (Handler T B)) : X.Suits grouped handlers [] [] := by
  induction handlers with
  | nil => trivial
  | cons h handlers ih =>
    exact ih

end

/-! ## Running the handlers -/

section

variable (P : Python E T B W)

theorem execList_cons_none {s : Stmt T B} {σ : State E B W} (σ' : State E B W) (h : s.exec P σ = (none, σ'))
    (ss : List (Stmt T B)) : execList P (s :: ss) σ = execList P ss σ' := by
  rw [execList, h]

theorem execList_singleton (s : Stmt T B) (σ : State E B W) : execList P [s] σ = s.exec P σ := by
  rw [execList]
  split
  · next heq => rw [execList, heq]
  · next heq => exact heq.symm

/-- A handler runs its body once, with what matched as its name. -/
theorem exec_onMatch {h : Handler T B} {σ : State E B W} {group : E}
    (hm : σ.vars "_dp_match" = some group) : ∃ event σ', execList P h.onMatch σ = (event.raised, σ') ∧
      event.code = h.body ∧ (∀ name, h.name = some name → event.vars name = some group) ∧
      σ'.log = σ.log ++ [event] := by
  obtain ⟨type, name, body⟩ := h
  cases name with
  | none =>
    refine ⟨⟨body, σ.vars, (P.run body σ.toFrame).1⟩, ((source body).exec P σ).2, ?_, rfl, nofun, rfl⟩
    rw [Handler.onMatch, execList_cons_none P σ (by rw [exec]), execList_singleton, exec]
  | some name =>
    refine ⟨⟨body, (σ.set name (some group)).vars, (P.run body (σ.set name (some group)).toFrame).1⟩,
      ((source body).exec P (σ.set name (some group))).2.set name none, ?_, rfl, ?_, rfl⟩
    · rw [Handler.onMatch, execList_cons_none P (σ.set name (some group)) (by rw [exec, hm]),
        wrapHandlerBodyWithCleanup]
      simp only [execList_singleton, exec]
      rfl
    · rintro _ ⟨⟩
      exact Function.update_self _ _ _

/-- The handlers on what is left of an exception. -/
theorem exec_handlerChain (grouped : Bool) (handlers : List (Handler T B)) (σ : State E B W) (hk : P.KeepsRest handlers σ)
    (hg : ∀ e, σ.vars "_dp_rest" = some e → P.isGroup e = grouped) :
    ∃ result σ' log, execList P (handlerChain P.toExceptions handlers) σ = (result, σ') ∧ σ'.log = σ.log ++ log ∧
      (P.Follows handlers (P.leavesOf (σ.vars "_dp_rest")) log [] result ↔
        P.Suits grouped handlers (P.leavesOf (σ.vars "_dp_rest")) log) := by
  induction handlers generalizing σ with
  | nil =>
    refine ⟨σ.vars "_dp_rest", σ, [], ?_, (append_nil _).symm, ?_⟩
    · rw [handlerChain, execList_singleton, exec]
      cases hv : σ.vars "_dp_rest" with
      | none => rfl
      | some e => simp [execList_singleton, exec, hv]
    · cases σ.vars "_dp_rest" <;>
        simp [Exceptions.Follows, Exceptions.Suits, Exceptions.Ends, leavesOf]
  | cons h handlers ih =>
    rw [Python.KeepsRest] at hk
    obtain ⟨hmatch, hrest, hparts⟩ := split_spec P.toExceptions h hg
    generalize hs : exceptiongroupSplit P.toExceptions (σ.vars "_dp_rest") (h.typ P.toExceptions) = s
      at hk hmatch hrest hparts
    rw [handlerChain, execList_cons_none P ((σ.set "_dp_match" s.1).set "_dp_rest" s.2) (by rw [exec, hs])]
    have hm : ((σ.set "_dp_match" s.1).set "_dp_rest" s.2).vars "_dp_match" = s.1 := by simp [State.set]
    have hr : ((σ.set "_dp_match" s.1).set "_dp_rest" s.2).vars "_dp_rest" = s.2 := by simp [State.set]
    have hlog : ((σ.set "_dp_match" s.1).set "_dp_rest" s.2).log = σ.log := rfl
    generalize (σ.set "_dp_match" s.1).set "_dp_rest" s.2 = σ₁ at hk hm hr hlog
    rw [← hr] at hk
    generalize P.leavesOf (σ.vars "_dp_rest") = leaves at hmatch hrest
    rw [← hr] at hrest hparts
    rw [← hlog]
    obtain ⟨_ | group, rest⟩ := s
    · have hnone : P.matching h leaves = [] := hmatch.symm
      have hall : P.remaining h leaves = leaves := by
        rw [remaining, filter_eq_self]
        intro leaf hleaf
        simpa using filter_eq_nil_iff.mp hnone leaf hleaf
      have hif : (ifNotNone "_dp_match" h.onMatch).exec P σ₁ = (none, σ₁) := by
        rw [exec, hm]
        rfl
      rw [hif] at hk
      obtain ⟨result, σ', log, hrun, hlog', hiff⟩ := ih σ₁ (hk rfl).2 fun e he => hparts e (.inr he)
      rw [hrest, hall] at hiff
      refine ⟨result, σ', log, ?_, hlog', ?_⟩
      · rw [execList_cons_none P σ₁ hif, hrun]
      · cases log <;> rw [Exceptions.Follows, Exceptions.Suits, if_pos hnone, if_pos hnone] <;> exact hiff
    · have hleaves : P.leaves group = P.matching h leaves := hmatch
      have hf : P.matching h leaves ≠ [] := hleaves ▸ P.leaves_ne_nil group
      obtain ⟨event, σ₂, hexec, hcode, hvars, hlog₂⟩ := exec_onMatch P hm
      have hif : (ifNotNone "_dp_match" h.onMatch).exec P σ₁ = (event.raised, σ₂) := by
        rw [exec, hm]
        exact hexec
      have hnamed : (∀ name, h.name = some name → ∃ group, event.vars name = some group ∧ P.isGroup group ∧
          P.leaves group = P.matching h leaves) ↔ (h.name = none ∨ grouped) := by
        rw [← hparts group (.inl rfl)]
        constructor
        · intro hall
          cases hn : h.name with
          | none => exact .inl rfl
          | some name =>
            obtain ⟨group', hv, hg', -⟩ := hall name hn
            obtain rfl := Option.some.inj ((hvars name hn).symm.trans hv)
            exact .inr hg'
        · rintro (hn | hg') name hname
          · cases hn.symm.trans hname
          · exact ⟨group, hvars name hname, hg', hleaves⟩
      cases hraised : event.raised with
      | some e =>
        refine ⟨some e, σ₂, [event], ?_, hlog₂, ?_⟩
        · rw [execList, hif, hraised]
        · rw [Exceptions.Follows, Exceptions.Suits, if_neg hf, if_neg hf, hraised]
          refine (and_iff_right hcode).trans (and_congr hnamed ((follows_stopped _ handlers _ e).trans ?_))
          exact ⟨fun hnil => ⟨fun _ => hnil, hnil ▸ suits_nil _ grouped handlers⟩, fun hnil => hnil.1 (Option.some_ne_none e)⟩
      | none =>
        rw [hif] at hk
        obtain ⟨hkeep, hlater⟩ := hk hraised
        obtain ⟨result, σ', log, hrun, hlog', hiff⟩ := ih σ₂ hlater fun e he => hparts e (.inr (hkeep.symm.trans he))
        rw [hkeep, hrest] at hiff
        refine ⟨result, σ', event :: log, ?_, ?_, ?_⟩
        · rw [execList_cons_none P σ₂ (hif.trans (by rw [hraised])), hrun]
        · rw [hlog', hlog₂, append_assoc, singleton_append]
        · rw [Exceptions.Follows, Exceptions.Suits, if_neg hf, if_neg hf, hraised]
          refine (and_iff_right hcode).trans (and_congr hnamed (hiff.trans ?_))
          exact ⟨fun hlater => ⟨(absurd rfl ·), hlater⟩, And.right⟩

end

/-- What `finally` makes of the end of the handlers. -/
def Python.finish (P : Python E T B W) (finalbody : B) (result : Option E) (σ : State E B W) : Option E × State E B W :=
  let f := (source finalbody).exec P σ
  (f.1.or result, f.2)

/-- The rewritten statement runs the handlers on the exception of its body, then `finally`. The handlers do what Python
prescribes exactly if a plain exception meets no handler with a name, and a handler that raises leaves nothing. -/
theorem exceptStar_follows_iff (P : Python E T B W) (stmt : StmtTry T B) (σ : State E B W) {σ₁ : State E B W} {exc : E}
    (hbody : (source stmt.body).exec P σ = (some exc, σ₁)) (hk : P.KeepsRest stmt.handlers (σ₁.handling exc)) :
    ∃ result σ₂, execList P (handlerBody P.toExceptions stmt.handlers) { σ₁ with current := some exc } = (result, σ₂) ∧
      (rewriteTryStmt P.toExceptions stmt).exec P σ =
        P.finish stmt.finalbody result { σ₂ with current := σ₁.current } ∧
      ∃ log, σ₂.log = σ₁.log ++ log ∧ (P.Follows stmt.handlers (P.leaves exc) log [] result ↔
        P.Suits (P.isGroup exc) stmt.handlers (P.leaves exc) log) := by
  let σ₀ : State E B W := { σ₁ with current := some exc }
  have hstart : (σ₁.handling exc).vars "_dp_rest" = some exc := by simp [State.handling, State.set]
  obtain ⟨result, σ₂, log, hchain, hlog, hiff⟩ := exec_handlerChain P (P.isGroup exc) stmt.handlers _ hk
    fun e he => by rw [Option.some.inj (hstart.symm.trans he)]
  rw [hstart] at hiff
  have hrun : execList P (handlerBody P.toExceptions stmt.handlers) σ₀ = (result, σ₂) := by
    rw [handlerBody, execList_cons_none P (σ₀.set "_dp_exc" (some exc)) (by rw [exec]),
      execList_cons_none P (σ₁.handling exc) (by simp [exec, State.handling, State.set, σ₀]), hchain]
  refine ⟨result, σ₂, hrun, ?_, log, hlog, hiff⟩
  rw [rewriteTryStmt, exec]
  simp only [execList_singleton, hbody]
  rw [hrun]
  rfl

/-! ## Two handlers -/

namespace ExceptStarExample

/-- Two plain exceptions, and the groups of them. -/
inductive Exc where
  | valueError
  | typeError
  | values
  | types
  | both

inductive ExcType where
  | baseException
  | valueError
  | typeError

def exceptions : Exceptions Exc ExcType where
  isGroup
    | .valueError | .typeError => false
    | _ => true
  leaves
    | .valueError | .values => [.valueError]
    | .typeError | .types => [.typeError]
    | .both => [.valueError, .typeError]
  isInstance
    | _, .baseException | .valueError, .valueError | .typeError, .typeError => true
    | _, _ => false
  split
    | .both, .valueError => (some .values, some .types)
    | .both, .typeError => (some .types, some .values)
    | .values, .typeError => (none, some .values)
    | .types, .valueError => (none, some .types)
    | e, _ => (some e, none)
  baseException := .baseException
  leaves_plain := by rintro (_ | _) h <;> first | rfl | cases h
  leaves_ne_nil := by rintro (_ | _) <;> simp
  split_match := by rintro (_ | _) (_ | _) h <;> first | rfl | cases h
  split_rest := by rintro (_ | _) (_ | _) h <;> first | rfl | cases h
  split_group := by rintro (_ | _) (_ | _) part hg (h | h) <;> cases hg <;> cases h <;> rfl

/-- The body of the statement raises, and the handlers do not. -/
def python : Python Exc ExcType (Option Exc) Unit where
  toExceptions := exceptions
  run code frame := (code, frame)

/-- `try: raise exc except* ValueError as e: pass except* TypeError as e: pass` -/
def stmt (exc : Exc) : StmtTry ExcType (Option Exc) where
  body := some exc
  handlers := [⟨some .valueError, some "e", none⟩, ⟨some .typeError, some "e", none⟩]
  orelse := none
  finalbody := none

def start (current : Option Exc) : State Exc (Option Exc) Unit where
  vars _ := none
  current
  world := ()
  log := []

end ExceptStarExample

open ExceptStarExample in
/-- A plain exception is bound as it is, and not as a group. -/
theorem exceptStar_false :
    let run := execList python (handlerBody exceptions (stmt .valueError).handlers) (start (some .valueError))
    run.1 = none ∧ ¬python.Follows (stmt .valueError).handlers (python.leaves .valueError) run.2.log [] run.1 := by
  refine ⟨rfl, ?_⟩
  rintro ⟨-, hbound, -⟩
  obtain ⟨group, hv, hg, -⟩ := hbound "e" rfl
  cases hv
  cases hg

open ExceptStarExample in
/-- Of a group of both each handler gets its part. -/
theorem exceptStar_follows_group :
    ∃ log result, log.length = 2 ∧ python.Follows (stmt .both).handlers (python.leaves .both) log [] result := by
  obtain ⟨result, σ₂, hrun, -, log, hlog, hiff⟩ := exceptStar_follows_iff python (stmt .both) (start none) rfl
    (fun _ => ⟨rfl, fun _ => ⟨rfl, trivial⟩⟩)
  have hran : ∃ vars vars', σ₂.log =
      [⟨some .both, fun _ => none, some .both⟩] ++ [⟨none, vars, none⟩, ⟨none, vars', none⟩] := by
    obtain rfl : _ = σ₂ := congrArg Prod.snd hrun
    exact ⟨_, _, rfl⟩
  obtain ⟨vars, vars', hran⟩ := hran
  obtain rfl := append_cancel_left (hlog.symm.trans hran)
  exact ⟨_, result, rfl, hiff.mpr ⟨.inr rfl, (absurd rfl ·), .inr rfl, (absurd rfl ·), trivial⟩⟩

end Soac.TryStar
