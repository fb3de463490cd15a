import Soac.Semantics.Access

/-!
# Runs of a function

A frame moves from block entry to block entry. A block runs its body and its terminator; an edge evaluates its arguments
in the block it leaves, binds the parameters they are aligned with, and leaves the other parameters of its target as they
are. A block with an exception edge may be left by it before any of its instructions, and by every exception its own
instructions raise.

`BoundRun` is the abstract level: only which slots hold a reference is kept, every edge may be taken, and the exception
edge after any first part of the block's accesses. `Run.boundRun` says that a run of a frame is such a run.
-/

namespace Soac

open List Outcome

variable {X K : Type}

/-! ## Running a block -/

section

variable (R : Runtime K) (owned : Nat → Option LocalLocation)

def execBody : List (Instr X K) → State R.World → Outcome R.World Unit
  | [], σ => (.ok (), σ)
  | i :: is, σ => (eval R owned i σ).andThen fun _ σ => execBody is σ

/-- Where a terminator leads. -/
inductive TermOutcome where
  | goto (edge : BlockEdge)
  | ret (v : Value)
  | generatorReturn (v : Value)
deriving DecidableEq, Repr

/-- The truth value of an object, asked of the world. -/
def State.isTrue (v : Value) (σ : State R.World) : Outcome R.World Bool :=
  ((R.isTrue v σ.world).1, { σ with world := (R.isTrue v σ.world).2 })

/-- The index a branch table is entered with, asked of the world. -/
def State.asIndex (v : Value) (σ : State R.World) : Outcome R.World Int :=
  ((R.asIndex v σ.world).1, { σ with world := (R.asIndex v σ.world).2 })

/-- The exception a `raise` ends with. -/
def State.raised (v : Option Value) (σ : State R.World) : Outcome R.World TermOutcome :=
  (.error (R.raised v σ.world).1, { σ with world := (R.raised v σ.world).2 })

/-- A branch table takes its default for an index that is negative or past its targets. -/
def branchTarget (targets : List BlockLabel) (default : BlockLabel) (i : Int) : BlockLabel :=
  if i < 0 then default else targets[i.toNat]?.getD default

def execTerm : BlockTerm (Instr X K) → State R.World → Outcome R.World TermOutcome
  | .jump edge, σ => (.ok (.goto edge), σ)
  | .ifTerm test t e, σ =>
    (eval R owned test σ).andThen fun v σ =>
    (σ.isTrue R v).andThen fun b σ => (.ok (.goto ⟨if b then t else e, []⟩), σ)
  | .branchTable index targets default, σ =>
    (eval R owned index σ).andThen fun v σ =>
    (σ.asIndex R v).andThen fun i σ => (.ok (.goto ⟨branchTarget targets default i, []⟩), σ)
  | .raise none, σ => σ.raised R none
  | .raise (some exc), σ => (eval R owned exc σ).andThen fun v σ => σ.raised R (some v)
  | .ret value, σ => (eval R owned value σ).andThen fun v σ => (.ok (.ret v), σ)
  | .generatorReturn value, σ => (eval R owned value σ).andThen fun v σ => (.ok (.generatorReturn v), σ)

def execBlock (b : Block (Instr X K)) (σ : State R.World) : Outcome R.World TermOutcome :=
  (execBody R owned b.body σ).andThen fun _ σ => execTerm R owned b.term σ

/-- An exception leaves the block in a state, some of its statements completed: before one of its instructions or its
terminator, or raised by one of them. -/
inductive Leaves (b : Block (Instr X K)) (σ : State R.World) : Nat → Value → State R.World → Prop where
  | before {σ' : State R.World} (k : Nat) (exn : Value) :
      execBody R owned (b.body.take k) σ = (.ok (), σ') → Leaves b σ k exn σ'
  | raised {σ₁ σ' : State R.World} {k : Nat} {exn : Value} {i : Instr X K} :
      execBody R owned (b.body.take k) σ = (.ok (), σ₁) → b.body[k]? = some i → eval R owned i σ₁ = (.error exn, σ') →
      Leaves b σ k exn σ'
  | raisedTerm {σ₁ σ' : State R.World} {exn : Value} :
      execBody R owned b.body σ = (.ok (), σ₁) → execTerm R owned b.term σ₁ = (.error exn, σ') →
      Leaves b σ b.body.length exn σ'

end

/-! ## Edges -/

section

variable (f : BlockPyFunction (Instr X K)) (R : Runtime K) (σ : State R.World)

/-- The value an edge passes. A name whose slot is empty raises outside the block, so the edge is not taken. -/
def argValue (exn : Option Value) : BlockArg → Option Value
  | .name n => (f.locationByName n).bind σ.locals
  | .none => some .none
  | .currentException => exn
  | .abruptKind kind => some (R.abruptKind kind)

/-- The slots an edge fills, with their values: all arguments are evaluated before any parameter is bound. -/
def edgeValues (exn : Option Value) (params : List BlockParam) (args : List BlockArg) :
    Option (List (LocalLocation × Value)) :=
  (explicitParams params args).mapM fun pa =>
    (f.locationByName pa.1.name).bind fun x => (argValue f R σ exn pa.2).map fun v => (x, v)

variable {f R σ} in
theorem edgeValues_eq_some_iff {exn : Option Value} {params : List BlockParam} {args : List BlockArg}
    {vs : List (LocalLocation × Value)} : edgeValues f R σ exn params args = some vs ↔
      List.Forall₂ (fun pa xv => f.locationByName pa.1.name = some xv.1 ∧ argValue f R σ exn pa.2 = some xv.2)
        (explicitParams params args) vs := by
  simp [edgeValues, Fallible.mapM_eq_some_iff, Option.bind_eq_some_iff, Prod.ext_iff]

/-- Enter a block along an edge. -/
def enterEdge (exn : Option Value) (params : List BlockParam) (args : List BlockArg) : Option (State R.World) :=
  (edgeValues f R σ exn params args).map fun vs => vs.foldl (fun σ xv => σ.set xv.1 xv.2) σ

end

/-! ## Moves -/

/-- A move from block entry to block entry: the edge taken, the exception it carries, how many statements of the block
were completed, and the state at the entry of the block, when control leaves it, and at the entry of the next block, its
parameters bound. -/
structure Move (X K W : Type) where
  source : Block (Instr X K)
  target : Block (Instr X K)
  edge : BlockEdge
  exn : Option Value
  completed : Nat
  before : State W
  left : State W
  after : State W

/-- The moves of a frame: by a normal edge, or by the exception edge. -/
inductive Moves (f : ValidFunction X K) (R : Runtime K) : Move X K R.World → Prop where
  | normal {b c : Block (Instr X K)} {σ σ₁ σ₂ : State R.World} {edge : BlockEdge} :
      b ∈ f.blocks → c ∈ f.blocks → c.label = edge.target →
      execBlock R f.ownedCell b σ = (.ok (.goto edge), σ₁) →
      enterEdge f.toBlockPyFunction R σ₁ none c.params edge.args = some σ₂ →
      Moves f R ⟨b, c, edge, none, b.body.length, σ, σ₁, σ₂⟩
  | exceptional {b c : Block (Instr X K)} {σ σ₁ σ₂ : State R.World} {edge : BlockEdge} {k : Nat} {exn : Value} :
      b ∈ f.blocks → c ∈ f.blocks → c.label = edge.target → b.excEdge = some edge →
      Leaves R f.ownedCell b σ k exn σ₁ →
      enterEdge f.toBlockPyFunction R σ₁ (some exn) c.params edge.args = some σ₂ →
      Moves f R ⟨b, c, edge, some exn, k, σ, σ₁, σ₂⟩

/-- The block entries a frame reaches from the entry of its function, every move on the way being `safe`. -/
inductive Run (f : ValidFunction X K) (R : Runtime K) (safe : Move X K R.World → Prop) (σ₀ : State R.World) :
    BlockLabel → State R.World → Prop where
  | start : Run f R safe σ₀ f.entryBlock.label σ₀
  | step {m : Move X K R.World} :
      Run f R safe σ₀ m.source.label m.before → Moves f R m → safe m → Run f R safe σ₀ m.target.label m.after

/-! ## The abstract level -/

/-- The slot accesses of a block, in order: its body and the operands of its terminator. -/
def Block.accesses (owned : Nat → Option LocalLocation) (b : Block (Instr X K)) : List Access :=
  accessesList owned b.body ++ accessesList owned b.term.operands

/-- The slots an edge binds. -/
def BlockPyFunction.edgeBinds {I : Type} (f : BlockPyFunction I) (params : List BlockParam) (args : List BlockArg) :
    List LocalLocation :=
  (explicitParams params args).filterMap fun pa => f.locationByName pa.1.name

/-- Which slots hold a reference after some of them are bound. -/
def bindAll (xs : List LocalLocation) (β : LocalLocation → Bool) : LocalLocation → Bool :=
  fun x => decide (x ∈ xs) || β x

/-- Control leaves a block: where it comes from and goes to, by which edge, which accesses of the block have been done
and which are left undone. -/
structure Departure (X K : Type) where
  source : Block (Instr X K)
  target : Block (Instr X K)
  edge : BlockEdge
  exceptional : Bool
  done : List Access
  rest : List Access

/-- The departures of a function: by a normal edge after the whole block, by the exception edge after any part of it. -/
inductive Departs (f : ValidFunction X K) : Departure X K → Prop where
  | normal {b c : Block (Instr X K)} {edge : BlockEdge} :
      b ∈ f.blocks → c ∈ f.blocks → c.label = edge.target → edge ∈ b.term.edges →
      Departs f ⟨b, c, edge, false, b.accesses f.ownedCell, []⟩
  | exceptional {b c : Block (Instr X K)} {edge : BlockEdge} {done rest : List Access} :
      b ∈ f.blocks → c ∈ f.blocks → c.label = edge.target → b.excEdge = some edge →
      b.accesses f.ownedCell = done ++ rest → Departs f ⟨b, c, edge, true, done, rest⟩

section

variable {f : ValidFunction X K} {d : Departure X K}

theorem Departs.source_mem (h : Departs f d) : d.source ∈ f.blocks := by
  cases h <;> assumption

theorem Departs.target_mem (h : Departs f d) : d.target ∈ f.blocks := by
  cases h <;> assumption

/-- The edge of a departure leads to a successor of its block. -/
theorem Departs.mem_successors (h : Departs f d) : d.target.label ∈ d.source.successors := by
  cases h with
  | normal _ _ hl he => rw [hl]; exact mem_append_right _ (mem_map_of_mem he)
  | exceptional _ _ hl he _ => rw [hl]; simp [Block.successors, he]

/-- What is done and what is left undone make up the block. -/
theorem Departs.accesses_eq (h : Departs f d) : d.source.accesses f.ownedCell = d.done ++ d.rest := by
  cases h with
  | normal _ _ _ _ => simp
  | exceptional _ _ _ _ hr => exact hr

end

/-- Which slots hold a reference where a departure leads. -/
def Departure.boundAfter {I : Type} (f : BlockPyFunction I) (d : Departure X K) (β : LocalLocation → Bool) :
    LocalLocation → Bool :=
  bindAll (f.edgeBinds d.target.params d.edge.args) (applyAccesses d.done β)

/-- A run that keeps only which slots hold a reference, every departure being `safe` in the state it starts from. -/
inductive BoundRun (f : ValidFunction X K) (safe : Departure X K → (LocalLocation → Bool) → Prop)
    (β₀ : LocalLocation → Bool) : BlockLabel → (LocalLocation → Bool) → Prop where
  | start : BoundRun f safe β₀ f.entryBlock.label β₀
  | step {d : Departure X K} {β : LocalLocation → Bool} :
      BoundRun f safe β₀ d.source.label β → Departs f d → safe d β →
      BoundRun f safe β₀ d.target.label (d.boundAfter f.toBlockPyFunction β)

section

variable {R : Runtime K} {owned : Nat → Option LocalLocation}

theorem execBody_effects (is : List (Instr X K)) : Effects (accessesList owned is) (execBody R owned is) := by
  induction is with
  | nil =>
    exact .value _
  | cons i is ih =>
    exact (eval_effects R owned i).andThen fun _ => ih

/-- Evaluating the operand of a terminator and acting on its value. -/
theorem effects_termOperand {α : Type} (i : Instr X K) {k : Value → State R.World → Outcome R.World α}
    (hk : ∀ v, Effects [] (k v)) : Effects (accessesList owned [i]) fun σ => (eval R owned i σ).andThen k := by
  exact (eval_effects R owned i).andThen hk

theorem execTerm_effects (t : BlockTerm (Instr X K)) : Effects (accessesList owned t.operands) (execTerm R owned t) := by
  cases t with
  | jump edge => exact .value _
  | ifTerm test t e =>
    exact effects_termOperand test fun v => (Effects.world (R.isTrue v)).andThen (q := []) fun _ => .value _
  | branchTable index targets default =>
    exact effects_termOperand index fun v => (Effects.world (R.asIndex v)).andThen (q := []) fun _ => .value _
  | raise exc =>
    have hraised : ∀ v, Effects [] fun σ : State R.World => σ.raised R v := fun v =>
      Effects.world fun w => (.error (R.raised v w).1, (R.raised v w).2)
    cases exc with
    | none => exact hraised none
    | some exc => exact effects_termOperand exc fun v => hraised (some v)
  | ret value | generatorReturn value => exact effects_termOperand value fun v => .value _

theorem execBlock_effects (b : Block (Instr X K)) : Effects (b.accesses owned) (execBlock R owned b) :=
  (execBody_effects b.body).andThen fun _ => execTerm_effects b.term

/-- The target of a branch table is one of its targets or its default. -/
theorem branchTarget_mem (targets : List BlockLabel) (default : BlockLabel) (i : Int) :
    branchTarget targets default i ∈ targets ++ [default] := by
  unfold branchTarget
  split
  · simp
  · cases ht : targets[i.toNat]? with
    | none => simp
    | some t => simp [mem_of_getElem? ht]

variable {σ σ' : State R.World} {b : Block (Instr X K)} {edge : BlockEdge}

/-- The edge a terminator leads to is one of its edges. -/
theorem execTerm_goto {t : BlockTerm (Instr X K)}
    (h : execTerm R owned t σ = (.ok (.goto edge), σ')) : edge ∈ t.edges := by
  cases t with
  | jump e =>
    simp only [execTerm, Prod.mk.injEq, Except.ok.injEq, TermOutcome.goto.injEq] at h
    simp [BlockTerm.edges, h.1]
  | ifTerm test t e =>
    simp only [execTerm, andThen_eq_ok] at h
    obtain ⟨_, _, _, b, _, _, h⟩ := h
    cases h
    cases b <;> simp [BlockTerm.edges]
  | branchTable index targets default =>
    simp only [execTerm, andThen_eq_ok] at h
    obtain ⟨_, _, _, i, _, _, h⟩ := h
    cases h
    have := branchTarget_mem targets default i
    simpa [BlockTerm.edges, eq_comm] using this
  | raise exc =>
    cases exc with
    | none => cases h
    | some exc =>
      simp only [execTerm, andThen_eq_ok] at h
      obtain ⟨_, _, _, h⟩ := h
      cases h
  | ret value | generatorReturn value =>
    simp only [execTerm, andThen_eq_ok] at h
    obtain ⟨_, _, _, h⟩ := h
    cases h

theorem execBlock_goto (h : execBlock R owned b σ = (.ok (.goto edge), σ')) : edge ∈ b.term.edges := by
  simp only [execBlock, andThen_eq_ok] at h
  obtain ⟨_, _, _, h⟩ := h
  exact execTerm_goto h

variable {exn : Value}

/-- An exception out of a body is raised by one of its statements, the ones before it completed. -/
theorem execBody_error {is : List (Instr X K)} (h : execBody R owned is σ = (.error exn, σ')) :
    ∃ k i σ₁, is[k]? = some i ∧ execBody R owned (is.take k) σ = (.ok (), σ₁) ∧
      eval R owned i σ₁ = (.error exn, σ') := by
  induction is generalizing σ with
  | nil => cases h
  | cons i is ih =>
    rcases andThen_eq_error.mp h with hi | ⟨v, σ₁, hi, hrest⟩
    · exact ⟨0, i, σ, rfl, rfl, hi⟩
    · obtain ⟨k, j, σ₂, hj, hk, hraise⟩ := ih hrest
      refine ⟨k + 1, j, σ₂, hj, ?_, hraise⟩
      rw [take_succ_cons, execBody, hi]
      exact hk

/-- Every exception of a block leaves it. -/
theorem leaves_of_execBlock_error (h : execBlock R owned b σ = (.error exn, σ')) : ∃ k, Leaves R owned b σ k exn σ' := by
  rcases andThen_eq_error.mp h with hb | ⟨_, σ₁, hb, ht⟩
  · obtain ⟨k, i, σ₁, hi, hk, hraise⟩ := execBody_error hb
    exact ⟨k, .raised hk hi hraise⟩
  · exact ⟨_, .raisedTerm hb ht⟩

/-- The accesses of a block, split where one of its statements begins. -/
theorem Block.accesses_split (b : Block (Instr X K)) (k : Nat) :
    b.accesses owned = accessesList owned (b.body.take k) ++
      (accessesList owned (b.body.drop k) ++ accessesList owned b.term.operands) := by
  have hsplit : accessesList owned b.body =
      accessesList owned (b.body.take k) ++ accessesList owned (b.body.drop k) := by
    rw [← accessesList_append, take_append_drop]
  rw [Block.accesses, hsplit, append_assoc]

/-- An exception that leaves a block has performed a first part of the block's accesses. -/
theorem Leaves.accesses {k : Nat} (h : Leaves R owned b σ k exn σ') :
    ∃ pre rest, b.accesses owned = pre ++ rest ∧ σ'.bound = applyAccesses pre σ.bound := by
  cases h with
  | before k exn h =>
    have hp : Performs _ σ (execBody R owned (b.body.take k) σ) := (execBody_effects _).performs σ
    rw [h] at hp
    exact ⟨_, _, b.accesses_split k, hp⟩
  | @raised σ₁ _ _ _ i hk hi hraise =>
    have hp : Performs _ σ (execBody R owned (b.body.take k) σ) := (execBody_effects _).performs σ
    have hq : Performs _ σ₁ (eval R owned i σ₁) := (eval_effects R owned i).performs σ₁
    rw [hk] at hp
    rw [hraise] at hq
    obtain ⟨pre, ⟨rest, hr⟩, hb⟩ := hq
    have hdrop : b.body.drop k = i :: b.body.drop (k + 1) := by
      rw [drop_eq_getElem?_toList_append, hi]
      rfl
    refine ⟨accessesList owned (b.body.take k) ++ pre,
      rest ++ (accessesList owned (b.body.drop (k + 1)) ++ accessesList owned b.term.operands), ?_, ?_⟩
    · rw [b.accesses_split k, hdrop, accessesList_cons, ← hr]
      simp only [append_assoc]
    · rw [hb, applyAccesses_append, show σ₁.bound = _ from hp]
  | @raisedTerm σ₁ _ _ hbody ht =>
    have hp : Performs _ σ (execBlock R owned b σ) := (execBlock_effects b).performs σ
    have hblock : execBlock R owned b σ = (.error exn, σ') := by
      rw [execBlock, hbody]
      exact ht
    rw [hblock] at hp
    obtain ⟨pre, ⟨rest, hr⟩, hb⟩ := hp
    exact ⟨pre, rest, hr.symm, hb⟩

end

/-- The slots that hold a reference after filling some of them. -/
theorem bound_foldl_set {W : Type} (vs : List (LocalLocation × Value)) (σ : State W) :
    (vs.foldl (fun σ xv => σ.set xv.1 xv.2) σ).bound = bindAll (vs.map (·.1)) σ.bound := by
  induction vs generalizing σ with
  | nil => funext x; simp [bindAll]
  | cons xv vs ih =>
    rw [foldl_cons, ih]
    funext x
    by_cases hx : x = xv.1
    · subst hx; simp [bindAll]
    · simp only [State.bound_set, bindAll, map_cons, mem_cons, hx, false_or, Function.update_of_ne,
        ne_eq, not_false_eq_true]

variable {R : Runtime K}

/-- Entering a block along an edge binds the parameters the edge's arguments are aligned with. -/
theorem enterEdge_bound {f : BlockPyFunction (Instr X K)} {σ σ' : State R.World} {exn : Option Value}
    {params : List BlockParam} {args : List BlockArg} (h : enterEdge f R σ exn params args = some σ') :
    σ'.bound = bindAll (f.edgeBinds params args) σ.bound := by
  simp only [enterEdge, Option.map_eq_some_iff] at h
  obtain ⟨vs, hvs, rfl⟩ := h
  rw [bound_foldl_set]
  congr 1
  unfold BlockPyFunction.edgeBinds
  rw [edgeValues_eq_some_iff] at hvs
  generalize explicitParams params args = pas at hvs ⊢
  induction hvs with
  | nil => rfl
  | cons h _ ih => rw [map_cons, ih, filterMap_cons, h.1]

variable {f : ValidFunction X K}

/-- A move of a frame is a departure of the abstract level. -/
theorem Moves.departs {m : Move X K R.World} (h : Moves f R m) :
    ∃ d, Departs f d ∧ d.source = m.source ∧ d.target = m.target ∧ d.edge = m.edge ∧
      m.left.bound = applyAccesses d.done m.before.bound ∧
      m.after.bound = d.boundAfter f.toBlockPyFunction m.before.bound := by
  cases h with
  | @normal b c σ σ₁ σ₂ edge hb hc hl hx he =>
    have hp : Performs _ σ (execBlock R f.ownedCell b σ) := (execBlock_effects b).performs σ
    rw [hx] at hp
    have hσ : σ₁.bound = applyAccesses (b.accesses f.ownedCell) σ.bound := hp
    refine ⟨_, .normal hb hc hl (execBlock_goto hx), rfl, rfl, rfl, hσ, ?_⟩
    simp only [enterEdge_bound he, hσ]
    rfl
  | @exceptional b c σ σ₁ σ₂ edge k exn hb hc hl hex hlv he =>
    obtain ⟨done, rest, hr, hσ⟩ := hlv.accesses
    refine ⟨_, .exceptional hb hc hl hex hr, rfl, rfl, rfl, hσ, ?_⟩
    simp only [enterEdge_bound he, hσ]
    rfl

/-- A run of a frame is a run of the abstract level. -/
theorem Run.boundRun {safe : Move X K R.World → Prop} {σ₀ σ : State R.World}
    {l : BlockLabel} (h : Run f R safe σ₀ l σ) : BoundRun f (fun _ _ => True) σ₀.bound l σ.bound := by
  induction h with
  | start => exact .start
  | step _ hm _ ih =>
    obtain ⟨d, hd, hsrc, htgt, _, _, hb⟩ := hm.departs
    rw [← htgt, hb]
    rw [← hsrc] at ih
    exact .step ih hd trivial

end Soac
