import Soac.Facts.EntryFacts
import Soac.Facts.Meaning

/-!
# What the value facts cover

`valueFacts_sound`: in every run whose moves are followed by the inference, the facts reported for a block hold whenever
the block is entered. The inference follows the normal edges from the entry block only, keeps the facts of a parameter
when an edge argument rebinds it, keeps the facts of a slot a fresh cell is stored to, and trusts the declared results of
the runtime helpers that the function calls. `valueFacts_false` is a handler that rejoins the normal path.
-/

namespace Soac

open EnvFacts Instr

section

variable {constants : List ConstantExpr} (P : PythonRuntime constants) {env : EnvFacts} (xs : List LocalLocation)

/-! ## Statements -/

theorem mem_foldl_remove {e : LocalLocation × PyObjFacts} :
    e ∈ (xs.foldl remove env).entries ↔ e ∈ env.entries ∧ e.1 ∉ xs := by
  induction xs generalizing env with
  | nil => simp
  | cons x xs ih => simp [ih, mem_remove, and_assoc]

variable {constant : Nat → Value} {locals : LocalLocation → Option Value} {ops : List InstrBlockPy}
  {σ σ' : State P.World} {v : Value}

theorem EnvFacts.Holds.foldl_remove
    (h : env.Holds constant locals) (xs : List LocalLocation) : (xs.foldl remove env).Holds constant locals :=
  fun e he => h e ((mem_foldl_remove xs).mp he).1

theorem avoids_foldl_remove : (xs.foldl remove env).Avoids xs :=
  fun _ he => ((mem_foldl_remove xs).mp he).2

/-- The slot a fresh cell is stored to. -/
def freshCellSlot (owned : Nat → Option LocalLocation) : InstrBlockPy → Option LocalLocation
  | .mk _ (.store n) ops =>
    match n.location with
    | .cell (.owned slot) => if storesFreshCell ops then owned slot else none
    | _ => none
  | _ => none

variable (owned : Nat → Option LocalLocation)

/-- The facts of the first operand hold of its value. -/
theorem headFacts_holds (hcalls : CallsReturnList owned constants P.toRuntime (Declared P.constant) ops σ)
    (hw : writeFreeList ops) {values : List Value} (hσ : env.Holds P.constant σ.locals) (hv : evalList P.toRuntime owned ops σ = (.ok values, σ')) :
    ((ops.head?.map (inferExprFactsInEnv constants env)).getD .unknown).Holds P.constant (values.headD .none) := by
  cases ops with
  | nil => exact PyObjFacts.holds_unknown
  | cons i is =>
    obtain ⟨u, σ₁, ws, hu, _, rfl⟩ := evalList_cons_ok hv
    exact inferExprFactsInEnv_holds P owned env i (hcalls.1.mono P owned Declared.exactInts).operands
      (.inr (writeFreeList_operands hw (by simp))) hσ.ofBound hu fun _ hc => hcalls.1.root P owned hc hu

variable {locals' : LocalLocation → Option Value} {x : LocalLocation}

/-- Storing a value with some facts. -/
theorem EnvFacts.Holds.set (h : env.Holds constant locals) {p : PyObjFacts} (hp : p.Holds constant v)
    (hx : locals' x = some v) (hs : ∀ e ∈ env.entries, e.1 ≠ x → locals' e.1 = locals e.1) :
    (env.set x p).Holds constant locals' := by
  intro e he
  rcases mem_set he with rfl | ⟨he, hne⟩
  · exact ⟨v, hx, hp⟩
  · rw [hs e he hne]
    exact h e he

theorem EnvFacts.Holds.remove
    (h : env.Holds constant locals) (hs : ∀ e ∈ env.entries, e.1 ≠ x → locals' e.1 = locals e.1) :
    (env.remove x).Holds constant locals' := by
  intro e he
  obtain ⟨he, hne⟩ := mem_remove.mp he
  rw [hs e he hne]
  exact h e he

/-- The root of a statement, its operands having run: the facts it leaves hold. -/
theorem transferRootEnv_holds {x : Unit} {h : Head BlockPyOp}
    (hcalls : CallsReturn owned constants P.toRuntime (Declared P.constant) (.mk x h ops) σ) (hw : writeFreeList ops) (ha : env.Avoids (Instr.mk x h ops).operandTakes)
    (hfresh : ∀ y, freshCellSlot owned (.mk x h ops) = some y → env.Avoids [y])
    (hσ : env.Holds P.constant σ.locals) (he : eval P.toRuntime owned (.mk x h ops) σ = (.ok v, σ')) :
    (transferRootEnv constants env (.mk x h ops)).Holds P.constant σ'.locals := by
  -- a local with facts that the root does not write is as it was
  have hroot : ∀ e ∈ env.entries, (Instr.mk x h ops).rootWrite owned ≠ some e.1 → σ'.locals e.1 = σ.locals e.1 := by
    intro e hmem hr
    have hk := eval_statement_keeps P.toRuntime owned e.1 (.mk x h ops) hw (ha e hmem) hr σ
    rwa [he] at hk
  cases h with
  | store n =>
    obtain ⟨borrowed, σ₁, values, σ₂, hb, hv, hact⟩ := eval_mk_ok he
    obtain ⟨-, rfl⟩ : [] = borrowed ∧ σ = σ₁ := by simpa [Head.borrowedNames, State.borrowAll] using hb
    have hfacts := headFacts_holds P owned (hcalls.1 [] σ rfl) hw hσ hv
    obtain ⟨id, loc⟩ := n
    cases loc with
    | «local» z =>
      obtain rfl : σ₂.set z _ = σ' := congrArg Prod.snd hact
      refine hσ.set hfacts (σ₂.set_locals_self z _) fun e hmem hne => hroot e hmem fun hr => hne ?_
      simpa [rootWrite, storeBindingLocation, eq_comm] using hr
    | cell c =>
      refine hσ.of_same fun e hmem => hroot e hmem fun hr => ?_
      have hslot : freshCellSlot owned (.mk x (.store ⟨id, .cell c⟩) ops) = some e.1 := by
        rw [← hr]
        cases c <;> rfl
      exact hfresh e.1 hslot e hmem List.mem_cons_self
    | _ => exact hσ.of_same fun e hmem => hroot e hmem (by simp [rootWrite, storeBindingLocation])
  | del n quietly =>
    simp only [transferRootEnv]
    split
    · rename_i y hy
      exact hσ.remove fun e hmem hne => hroot e hmem (by simpa [rootWrite, hy] using Ne.symm hne)
    · rename_i hy
      exact hσ.of_same fun e hmem => hroot e hmem (by simp [rootWrite, hy])
  | callArgumentOp kind callable buffer =>
    simp only [transferRootEnv]
    split
    · rename_i y hk hy
      exact hσ.remove fun e hmem hne => hroot e hmem (by simpa [rootWrite, hk, hy] using Ne.symm hne)
    · rename_i hnot
      refine hσ.of_same fun e hmem => hroot e hmem fun hr => ?_
      obtain ⟨hk, hb⟩ : kind.replacesBuffer = true ∧ buffer.localLocation = some e.1 := by simpa [rootWrite] using hr
      exact hnot e.1 hk hb
  | load _ | takeOperand _ | cellRef _ | comprehensionInsert _ _ | iteratorStep _ | makeCell | op _ =>
    exact hσ.of_same fun e hmem => hroot e hmem (by simp [rootWrite])

variable {slots : List LocalLocation}

theorem transferInstrEnv_holds (hon : env.On slots) {i : InstrBlockPy}
    (hcalls : CallsReturn owned constants P.toRuntime (Declared P.constant) i σ) (hw : writeFreeList i.operands) (hfresh : ∀ y, freshCellSlot owned i = some y → y ∉ slots)
    (hσ : env.Holds P.constant σ.locals) (he : eval P.toRuntime owned i σ = (.ok v, σ')) :
    (transferInstrEnv constants env i).Holds P.constant σ'.locals := by
  obtain ⟨x, h, ops⟩ := i
  refine transferRootEnv_holds P owned hcalls hw (avoids_foldl_remove _) ?_ (hσ.foldl_remove _) he
  intro y hy e hmem hey
  obtain rfl : e.1 = y := by simpa using hey
  exact hfresh _ hy (hon e ((mem_foldl_remove _).mp hmem).1)

theorem transferBody_holds {is : List InstrBlockPy}
    (hcalls : CallsReturnList owned constants P.toRuntime (Declared P.constant) is σ)
    (hw : ∀ i ∈ is, writeFreeList i.operands) (hslots : ∀ i ∈ is, ∀ x, storedSlot i = some x → x ∈ slots)
    (hfresh : ∀ i ∈ is, ∀ y, freshCellSlot owned i = some y → y ∉ slots) (hon : env.On slots)
    (hσ : env.Holds P.constant σ.locals) (he : execBody P.toRuntime owned is σ = (.ok (), σ')) :
    (is.foldl (transferInstrEnv constants) env).Holds P.constant σ'.locals := by
  induction is generalizing env σ with
  | nil => cases he; exact hσ
  | cons i is ih =>
    obtain ⟨v, σ₁, hi, his⟩ := Outcome.andThen_eq_ok.mp he
    have hstep := transferInstrEnv_holds P owned hon hcalls.1 (hw i (by simp)) (hfresh i (by simp)) hσ hi
    exact ih (hcalls.2 v σ₁ hi) (fun j hj => hw j (by simp [hj])) (fun j hj => hslots j (by simp [hj])) (fun j hj => hfresh j (by simp [hj]))
      (transferInstrEnv_on constants hon (hslots i (by simp))) hstep his

/-- The calls of statements and of what is evaluated after them. -/
theorem callsReturnList_append {result : RuntimeHelperId → Value → Prop} {is js : List InstrBlockPy}
    (h : CallsReturnList owned constants P.toRuntime result (is ++ js) σ) :
    CallsReturnList owned constants P.toRuntime result is σ ∧
      ∀ σ', execBody P.toRuntime owned is σ = (.ok (), σ') → CallsReturnList owned constants P.toRuntime result js σ' := by
  induction is generalizing σ with
  | nil =>
    refine ⟨trivial, fun σ' he => ?_⟩
    cases he
    exact h
  | cons i is ih =>
    refine ⟨⟨h.1, fun v σ₁ hi => (ih (h.2 v σ₁ hi)).1⟩, fun σ' he => ?_⟩
    obtain ⟨v, σ₁, hi, his⟩ := Outcome.andThen_eq_ok.mp he
    exact (ih (h.2 v σ₁ hi)).2 σ' his

/-! ## Terminators -/

theorem isTrue_ok {b : Bool} (h : σ.isTrue P.toRuntime v = (.ok b, σ')) :
    P.isTrue v σ.world = (.ok b, σ'.world) ∧ σ'.locals = σ.locals := by
  simp only [State.isTrue, Prod.mk.injEq] at h
  obtain ⟨h, rfl⟩ := h
  exact ⟨Prod.ext h rfl, rfl⟩

/-- The facts a terminator sends along the edge it takes hold when control leaves the block. -/
theorem successorEnvs_holds {b : Block InstrBlockPy}
    (hcalls : CallsReturnList owned constants P.toRuntime (Declared P.constant) b.term.operands σ) (hw : writeFreeList b.term.operands) (hn : ∀ x, narrowedSlot constants b = some x → x ∉ b.term.operandTakes)
    {edge : BlockEdge} (hσ : env.Holds P.constant σ.locals)
    (he : execTerm P.toRuntime owned b.term σ = (.ok (.goto edge), σ')) :
    ∃ inc, (edge.target, inc) ∈ successorEnvs constants b (b.term.operandTakes.foldl EnvFacts.remove env) ∧
      inc.Holds P.constant σ'.locals := by
  have hexit := hσ.foldl_remove b.term.operandTakes
  have havoid : (b.term.operandTakes.foldl EnvFacts.remove env).Avoids b.term.operandTakes := avoids_foldl_remove _
  generalize b.term.operandTakes.foldl EnvFacts.remove env = exit at hexit havoid ⊢
  unfold successorEnvs
  unfold narrowedSlot at hn
  simp only [BlockTerm.operandTakes] at hn havoid
  cases ht : b.term with
  | jump e =>
    rw [ht] at he
    cases he
    exact ⟨exit, by simp, hexit⟩
  | ifTerm test thenLabel elseLabel =>
    rw [ht] at he hw hn havoid hcalls
    obtain ⟨v, σ₁, hv, he⟩ := Outcome.andThen_eq_ok.mp he
    obtain ⟨c, σ₂, hc, he⟩ := Outcome.andThen_eq_ok.mp he
    cases he
    have hwt : test.writeFree = true := (writeFreeList_iff _).mp hw test (by simp [BlockTerm.operands])
    have htakes : test.operandTakes ⊆ operandTakesList (BlockTerm.ifTerm test thenLabel elseLabel).operands := by
      simp [BlockTerm.operands]
    obtain ⟨htrue, hloc⟩ := isTrue_ok P hc
    have hexit' : exit.Holds P.constant σ'.locals := by
      rw [hloc]
      exact hexit.eval P owned hwt (havoid.mono htakes) hv
    simp only [inferIfEdgeFacts]
    cases hf : inferBranchLocalFact constants test with
    | none => exact ⟨exit, by cases c <;> simp, hexit'⟩
    | some t =>
      obtain ⟨x, thenFact, elseFact⟩ := t
      have hx : x ∉ test.operandTakes := fun h => hn x (by simp [hf]) (htakes h)
      obtain ⟨u, b, rfl, hu, hholds⟩ := inferBranchLocalFact_holds P owned hf hwt hcalls.1 hv
      rw [P.isTrue_bool b] at htrue
      obtain rfl : b = c := by simpa using congrArg Prod.fst htrue
      have hkeep := eval_keeps P.toRuntime owned x test hwt hx σ
      rw [hv] at hkeep
      have hu' : σ'.locals x = some u := by
        rw [hloc]
        exact Eq.trans hkeep hu
      have hnarrow : ∀ fact, (∀ p, fact = some p → p.Holds P.constant u) →
          (narrow exit x fact).Holds P.constant σ'.locals := by
        intro fact hfact
        cases fact with
        | none => exact hexit'
        | some p => exact hexit'.set (hfact p rfl) hu' fun _ _ _ => rfl
      cases b with
      | true => exact ⟨narrow exit x thenFact, by simp, hnarrow thenFact fun p hp => hholds p hp⟩
      | false => exact ⟨narrow exit x elseFact, by simp, hnarrow elseFact fun p hp => hholds p hp⟩
  | branchTable index targets default =>
    rw [ht] at he hw havoid
    obtain ⟨v, σ₁, hv, he⟩ := Outcome.andThen_eq_ok.mp he
    obtain ⟨c, σ₂, hc, he⟩ := Outcome.andThen_eq_ok.mp he
    cases he
    have hwt : index.writeFree = true := (writeFreeList_iff _).mp hw index (by simp [BlockTerm.operands])
    have hexit' : exit.Holds P.constant σ'.locals := by
      have h1 := hexit.eval P owned hwt (havoid.mono (by simp [BlockTerm.operands])) hv
      simp only [State.asIndex, Prod.mk.injEq] at hc
      obtain ⟨_, rfl⟩ := hc
      exact h1
    refine ⟨exit, ?_, hexit'⟩
    have := branchTarget_mem targets default c
    simpa [eq_comm] using this
  | raise exc | ret value | generatorReturn value => exact absurd (execTerm_goto he) (by simp [ht, BlockTerm.edges])

end

/-! ## Soundness -/

/-- The known helpers that the block of the move calls on the way return what they declare. -/
def Move.HelpersDeclared (f : ValidFunction Unit BlockPyOp) (constants : List ConstantExpr) (R : Runtime BlockPyOp)
    (m : Move Unit BlockPyOp R.World) : Prop :=
  CallsReturnList f.ownedCell constants R (Declared R.constant) (m.source.body ++ m.source.term.operands) m.before

/-- The inference follows the move: a normal one, out of a block that normal edges reach, that hands no other value to a
local with facts, out of a block that stores no fresh cell in the slot of such a local, whose test does not take the
local it is about, and whose calls of known helpers return what these declare. -/
structure Move.Followed (f : ValidFunction Unit BlockPyOp) (constants : List ConstantExpr) (R : Runtime BlockPyOp)
    (m : Move Unit BlockPyOp R.World) : Prop where
  normal : m.exn = none
  source : NormalReach f m.source.label
  args : ∀ pa ∈ explicitParams m.target.params m.edge.args, ∀ x ∈ factSlots constants f,
    f.locationByName pa.1.name = some x → argValue f.toBlockPyFunction R m.left none pa.2 = m.left.locals x
  cells : ∀ i ∈ m.source.body, ∀ x, freshCellSlot f.ownedCell i = some x →
    x ∉ factSlots constants f
  test : ∀ x, narrowedSlot constants m.source = some x → x ∉ m.source.term.operandTakes
  helpers : m.HelpersDeclared f constants R

section

variable {f : ValidFunction Unit BlockPyOp} {constants : List ConstantExpr} {P : PythonRuntime constants}

/-- The facts at the entry of a block hold in a state. -/
def FactsHoldAt (f : ValidFunction Unit BlockPyOp) (P : PythonRuntime constants) (l : BlockLabel) (σ : State P.World) :
    Prop :=
  ∀ env, inferBlockEntryFacts constants f l = some env → env.Holds P.constant σ.locals

/-- A move the inference follows carries the facts of its source to its target. -/
theorem Moves.facts_target {m : Move Unit BlockPyOp P.World}
    (hm : Moves f P.toRuntime m) (hf : m.Followed f constants P.toRuntime)
    (hfacts : FactsHoldAt f P m.source.label m.before) : FactsHoldAt f P m.target.label m.after := by
  obtain ⟨entry, hentry⟩ := entryFacts_of_reach f constants hf.source
  have hon := ((entryFacts_stable f constants).1.reach _ _ hentry).2
  have hσ := hfacts entry hentry
  cases hm with
  | exceptional => cases hf.normal
  | @normal b c σ σ₁ σ₂ edge hb hc hl hx he =>
    obtain ⟨_, σ', hbody, hterm⟩ := Outcome.andThen_eq_ok.mp hx
    have hw := f.statementWrites b hb
    obtain ⟨hcalls, hafter⟩ := callsReturnList_append P f.ownedCell hf.helpers
    have hexit := transferBody_holds P f.ownedCell hcalls hw.1 (fun i hi x h => storedSlot_mem_factSlots hb hi h) hf.cells
      hon hσ hbody
    obtain ⟨inc, hinc, hleft⟩ := successorEnvs_holds P f.ownedCell (hafter σ' hbody) hw.2 hf.test hexit hterm
    obtain ⟨e, he', hmeet⟩ := entryFacts_covers f constants hb hentry hinc
    have hone := ((entryFacts_stable f constants).1.reach _ _ he').2
    intro env henv
    simp only [hl] at henv
    obtain rfl : e = env := Option.some.inj (he'.symm.trans henv)
    rintro ⟨x, p⟩ hp
    -- the entry of the target says no more than the edge brings, and the edge hands `x` the value it has
    rw [← hmeet] at hp
    obtain ⟨q, r, hq, hr, rfl⟩ := mem_intersectWith hp
    obtain ⟨v, hv, hholds⟩ := hleft _ hr
    have hkeep := enterEdge_keeps he (x := x) fun pa hpa hloc => hf.args pa hpa x (hone (x, q) hq) hloc
    exact ⟨v, hkeep.trans hv, hholds.intersect q⟩

/-- In a run whose moves into blocks that normal edges reach are followed by the inference, the facts reported for a block
hold whenever the block is entered. -/
theorem valueFacts_sound {σ₀ σ : State P.World} {l : BlockLabel}
    (h : Run f P.toRuntime (fun m => NormalReach f m.target.label → m.Followed f constants P.toRuntime) σ₀ l σ)
    {env : EnvFacts} (henv : inferBlockEntryFacts constants f l = some env) {x : LocalLocation}
    {p : PyObjFacts} (hp : (x, p) ∈ env.entries) : ∃ v, σ.locals x = some v ∧ p.Holds P.constant v := by
  have hall : FactsHoldAt f P l σ := by
    clear henv hp
    induction h with
    | start =>
      intro env henv
      rw [(entryFacts_stable f constants).1.entry] at henv
      obtain rfl := Option.some.inj henv
      exact fun e he => absurd he List.not_mem_nil
    | @step m _ hm hsafe ih =>
      intro env henv
      have hreach := ((entryFacts_stable f constants).1.reach _ _ henv).1
      exact hm.facts_target (hsafe hreach) ih env henv
  exact hall env henv _ hp

end

/-! ## A handler that rejoins the normal path -/

namespace ValueFactsExample

open InstrBlockPy

def x : ResolvedName := localName "x" 0

def start : Block InstrBlockPy :=
  { label := 0, body := [store x (load ⟨"1", .constant 0⟩)], term := .jump ⟨1, []⟩ }

def tryBlock : Block InstrBlockPy :=
  { label := 1, body := [store x constantNone], term := .jump ⟨2, []⟩, excEdge := some ⟨2, []⟩ }

def join : Block InstrBlockPy :=
  { label := 2, body := [], term := .ret (load x) }

/-- `x = 1; try: x = None; except: pass; return x`, the handler and the code after it in one block. -/
def tryNone : ValidFunction Unit BlockPyOp where
  params := []
  stackSlots := ["x"]
  blocks := [start, tryBlock, join]
  nonempty := by decide
  labelsNodup := by decide
  targetsKnown := by decide
  slotsNodup := List.nodup_singleton "x"
  statementWrites := by decide

def constants : List ConstantExpr := [.literal (.numberLiteral (.int 1))]

/-- The object of the constant. -/
def one : Value := .object { exactType := some .int, truthy := true, immortal := true, id := 0 }

theorem python_isTrue_bool (b : Bool) (w : Unit) : ((.ok (Value.bool b).truthy, w) : Except Value Bool × Unit) = (.ok b, w) :=
  rfl

/-- A runtime for functions that only move values around: every effect on the world raises. -/
def python : PythonRuntime constants where
  World := Unit
  prim _ _ w := (.error .none, w)
  constant _ := one
  isTrue v w := (.ok v.truthy, w)
  asIndex _ w := (.ok 0, w)
  raised v w := (v.getD .none, w)
  unbound _ := .none
  abruptKind _ := .none
  constant_literal i l h := by
    cases i with
    | zero =>
      obtain rfl : Literal.numberLiteral (.int 1) = l := by simpa [constants] using h
      exact ⟨rfl, rfl⟩
    | succ i => simp [constants] at h
  constant_runtimeName i name v h := by
    cases i with
    | zero => simp [constants] at h
    | succ i => simp [constants] at h
  constant_immortal _ := rfl
  isTrue_bool := python_isTrue_bool
  int_comparison _ _ _ _ _ _ _ _ _ h := by cases h
  int_arithmetic _ _ _ _ _ _ _ _ _ h := by cases h
  int_trueDivision _ _ _ _ _ _ _ _ _ h := by cases h
  is_identity _ _ _ _ _ h := by cases h
  int_unary _ _ _ _ _ _ _ h := by cases h
  unary_bool _ _ _ _ _ _ h := by cases h
  not_bool _ _ _ _ h := by cases h
  update_none _ _ _ _ _ _ h := by cases h
  tuple_object _ _ _ _ h := by cases h

theorem helpers : HelpersReturn python.toRuntime (Declared python.constant) := by
  intro shape h args w v w' _ hp
  cases hp

def entryState : State Unit := { locals := fun _ => none, world := () }

/-- The state after `x = 1`. -/
def oneState : State Unit := entryState.set 0 one

def toTry : Move Unit BlockPyOp Unit :=
  ⟨start, tryBlock, ⟨1, []⟩, none, 1, entryState, oneState, oneState⟩

/-- An exception leaves block 1 before `x = None`. -/
def byException : Move Unit BlockPyOp Unit :=
  ⟨tryBlock, join, ⟨2, []⟩, some .none, 0, oneState, oneState, oneState⟩

def byJump : Move Unit BlockPyOp Unit :=
  ⟨tryBlock, join, ⟨2, []⟩, none, 1, oneState, oneState.set 0 .none, oneState.set 0 .none⟩

theorem mem_blocks : start ∈ tryNone.blocks ∧ tryBlock ∈ tryNone.blocks ∧ join ∈ tryNone.blocks := by
  simp [tryNone]

theorem moves_toTry : Moves tryNone python.toRuntime toTry :=
  .normal mem_blocks.1 mem_blocks.2.1 rfl rfl rfl

theorem moves_byException : Moves tryNone python.toRuntime byException :=
  .exceptional mem_blocks.2.1 mem_blocks.2.2 rfl rfl (.before 0 .none rfl) rfl

theorem moves_byJump : Moves tryNone python.toRuntime byJump :=
  .normal mem_blocks.2.1 mem_blocks.2.2 rfl rfl rfl

theorem noneFact_reported : ∃ env, inferBlockEntryFacts constants tryNone 2 = some env ∧
    (0, PyObjFacts.noneSingleton) ∈ env.entries := by
  have h : (inferBlockEntryFacts constants tryNone 2).map (·.entries) = some [(0, .noneSingleton)] := by
    decide +kernel
  obtain ⟨env, he, hes⟩ := Option.map_eq_some_iff.mp h
  exact ⟨env, he, by simp [hes]⟩

end ValueFactsExample

open ValueFactsExample in
/-- The exception leaves block 1 before `x = None`, and block 2 is entered with `1` in `x`; the fact reported for it there,
which only the normal edge brings, is that it is `None`. -/
theorem valueFacts_false : HelpersReturn python.toRuntime (Declared python.constant) ∧
    ∃ env σ, inferBlockEntryFacts constants tryNone 2 = some env ∧
      (0, PyObjFacts.noneSingleton) ∈ env.entries ∧ Run tryNone python.toRuntime (fun _ => True) entryState 2 σ ∧
      ¬∃ v, σ.locals 0 = some v ∧ PyObjFacts.noneSingleton.Holds python.constant v := by
  obtain ⟨env, he, hmem⟩ := noneFact_reported
  refine ⟨helpers, env, oneState, he, hmem, ?_, ?_⟩
  · have h1 : Run tryNone python.toRuntime (fun _ => True) entryState 1 oneState :=
      Run.step Run.start moves_toTry trivial
    exact Run.step h1 moves_byException trivial
  · rintro ⟨v, hv, hholds⟩
    obtain rfl : one = v := by simpa [oneState] using hv
    exact absurd (hholds.isNone rfl) (by decide)

open ValueFactsExample in
/-- By the normal edge block 2 is entered with `None` in `x`, as the fact says. -/
theorem valueFacts_sound_tryNone : ∃ v, (oneState.set 0 .none).locals 0 = some v ∧
    PyObjFacts.noneSingleton.Holds python.constant v := by
  have r0 : NormalReach tryNone 0 := Relation.ReflTransGen.refl
  have r1 : NormalReach tryNone 1 := r0.tail ⟨start, by simp [tryNone], rfl, by decide⟩
  have s1 : toTry.Followed tryNone constants python.toRuntime :=
    ⟨rfl, r0, by simp [toTry, tryBlock, explicitParams], by decide, fun y hy => (by cases hy),
      helpers.callsReturnList python _ _ _⟩
  have s2 : byJump.Followed tryNone constants python.toRuntime :=
    ⟨rfl, r1, by simp [byJump, join, explicitParams], by decide, fun y hy => (by cases hy),
      helpers.callsReturnList python _ _ _⟩
  have h1 : Run tryNone python.toRuntime
      (fun m => NormalReach tryNone m.target.label → m.Followed tryNone constants python.toRuntime) entryState 1 oneState :=
    Run.step Run.start moves_toTry fun _ => s1
  have h2 := Run.step h1 moves_byJump fun _ => s2
  obtain ⟨env, he, hmem⟩ := noneFact_reported
  exact valueFacts_sound (f := tryNone) h2 he hmem

end Soac
