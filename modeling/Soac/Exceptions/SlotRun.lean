import Soac.Exceptions.OperandCleanup
import Soac.Semantics.Eval

/-!
# Runs over operand slots

What an execution does to the operand slots of a frame, with everything else left open: the events of an instruction in the
order they happen, and the steps between blocks. An instruction may raise before any of its events, so an exception edge can
be taken from every prefix of a block. A read of an empty operand slot raises, so no run goes past it.
-/

namespace Soac

open List

variable {K : Type}

/-- What happens to a slot. -/
inductive SlotEvent where
  | read (x : NameLocation)
  | acquire (x : NameLocation)
  | release (x : NameLocation)
deriving DecidableEq, Repr

/-- The slots an operation reads before its operands run. -/
def Head.borrowEvents (h : Head K) : List SlotEvent :=
  h.borrowedNames.map fun n => .read n.location

/-- What an operation does itself once its operands are there. -/
def Head.actEvents : Head K → List SlotEvent
  | .load n => [.read n.location]
  | .store n => [.acquire n.location]
  | .del n _ => [.release n.location]
  | .takeOperand n => [.read n.location, .release n.location]
  | .callArgumentOp kind _ buffer =>
    (if kind.consumesBufferBeforeHelper then [.release buffer.location] else []) ++
      if kind.replacesBuffer then [.acquire buffer.location] else []
  | _ => []

mutual

/-- The events of an instruction in execution order. -/
def Instr.slotEvents : InstrResolved K → List SlotEvent
  | .mk _ h ops => h.borrowEvents ++ (slotEventsList ops ++ h.actEvents)

def slotEventsList : List (InstrResolved K) → List SlotEvent
  | [] => []
  | i :: is => i.slotEvents ++ slotEventsList is

end

variable (b : Block (InstrResolved K))

def Block.slotEvents : List SlotEvent :=
  slotEventsList b.body ++ slotEventsList b.term.operands

/-- One event, from the slots that hold an operand. -/
def runEvent (locs : LiveSet) (held : LiveSet) : SlotEvent → Option LiveSet
  | .read x => if x ∈ locs ∧ x ∉ held then none else some held
  | .acquire x => some (if x ∈ locs then insert x held else held)
  | .release x => some (held.erase x)

def runEvents (locs : LiveSet) : List SlotEvent → LiveSet → Option LiveSet
  | [], held => some held
  | e :: es, held => (runEvent locs held e).bind (runEvents locs es)

/-- The operand an event releases. -/
def releasedBy (held : LiveSet) : SlotEvent → Option NameLocation
  | .release x => if x ∈ held then some x else none
  | _ => none

/-! ## Steps -/

/-- An edge binds the slot to something else. -/
def OverwrittenBy (operands : List Operand) (edge : BlockEdge) (t : Block (InstrResolved K)) (x : NameLocation) : Prop :=
  ∃ pa ∈ explicitParams t.params edge.args, ∃ o ∈ operands, o.location = x ∧ o.name.id = pa.1.name ∧
    pa.2 ≠ .name pa.1.name

instance (operands : List Operand) (edge : BlockEdge) (t : Block (InstrResolved K)) (x : NameLocation) :
    Decidable (OverwrittenBy operands edge t x) :=
  inferInstanceAs (Decidable (∃ pa ∈ explicitParams t.params edge.args, ∃ o ∈ operands, _))

/-- The operands held at the start of the block an edge goes to. -/
def bindEdge (operands : List Operand) (edge : BlockEdge) (t : Block (InstrResolved K)) (held : LiveSet) : LiveSet :=
  held.filter fun x => ¬OverwrittenBy operands edge t x

/-- A point of a run: the block, its events that are still to come, and the operands held. -/
structure SlotConfig where
  label : BlockLabel
  rest : List SlotEvent
  held : LiveSet
deriving DecidableEq

/-- The start of a block. -/
def SlotConfig.start (held : LiveSet) : SlotConfig :=
  ⟨b.label, b.slotEvents, held⟩

/-- An exceptional transfer, from any point of a block. -/
inductive Fails (blocks : List (Block (InstrResolved K))) (operands : List Operand) : SlotConfig → SlotConfig → Prop
  | mk {b t : Block (InstrResolved K)} {edge : BlockEdge} {rest : List SlotEvent} {held : LiveSet} : b ∈ blocks →
      b.excEdge = some edge → t ∈ blocks → t.label = edge.target →
      Fails blocks operands ⟨b.label, rest, held⟩ (.start t (bindEdge operands edge t held))

/-- A step, with the operand it releases. -/
inductive SlotStep (blocks : List (Block (InstrResolved K))) (operands : List Operand) :
    SlotConfig → Option NameLocation → SlotConfig → Prop
  | event {l : BlockLabel} {e : SlotEvent} {rest : List SlotEvent} {held held' : LiveSet} :
      runEvent (locations operands) held e = some held' →
      SlotStep blocks operands ⟨l, e :: rest, held⟩ (releasedBy held e) ⟨l, rest, held'⟩
  | next {b t : Block (InstrResolved K)} {edge : BlockEdge} {held : LiveSet} : b ∈ blocks → edge ∈ b.term.edges →
      t ∈ blocks → t.label = edge.target →
      SlotStep blocks operands ⟨b.label, [], held⟩ none (.start t (bindEdge operands edge t held))
  | fail {c d : SlotConfig} : Fails blocks operands c d → SlotStep blocks operands c none d

/-- The points a run comes to. It starts at the first block, and when it resumes it may hold preserved operands. -/
inductive SlotReachable (blocks : List (Block (InstrResolved K))) (operands : List Operand) : SlotConfig → Prop
  | start {b : Block (InstrResolved K)} {held : LiveSet} : blocks.head? = some b →
      held ⊆ (locations operands).filter (fun x => x.isPreserved) → SlotReachable blocks operands (.start b held)
  | step {c d : SlotConfig} {r : Option NameLocation} : SlotReachable blocks operands c →
      SlotStep blocks operands c r d → SlotReachable blocks operands d

/-- A run from a point up to the first block with one of the labels, with the operands released on the way. -/
inductive Unwinds (blocks : List (Block (InstrResolved K))) (operands : List Operand) (labels : List BlockLabel) :
    SlotConfig → List NameLocation → SlotConfig → Prop
  | arrived {c : SlotConfig} : c.label ∈ labels → Unwinds blocks operands labels c [] c
  | step {c d e : SlotConfig} {r : Option NameLocation} {rs : List NameLocation} : c.label ∉ labels →
      SlotStep blocks operands c r d → Unwinds blocks operands labels d rs e →
      Unwinds blocks operands labels c (r.toList ++ rs) e

/-! ## Reads to come -/

/-- The first thing that happens to the slot is a read. -/
def slotReadFirst (x : NameLocation) : List SlotEvent → Bool
  | [] => false
  | .read y :: es => y = x || slotReadFirst x es
  | .acquire y :: es => y ≠ x && slotReadFirst x es
  | .release y :: es => y ≠ x && slotReadFirst x es

def SlotEvent.kills (x : NameLocation) : SlotEvent → Bool
  | .read _ => false
  | .acquire y | .release y => y = x

/-- The slot gets another value or loses its value. -/
def killed (x : NameLocation) (es : List SlotEvent) : Bool :=
  es.any (SlotEvent.kills x)

/-- Control leaves a block along an edge after these events: a normal edge after all of them, the exception edge after any
prefix. -/
def Block.Leaves (es : List SlotEvent) (edge : BlockEdge) : Prop :=
  (edge ∈ b.term.edges ∧ es = b.slotEvents) ∨ (b.excEdge = some edge ∧ es <+: b.slotEvents)

/-- On some path from the start of a block the slot is read, or passed on by name, before its value changes. -/
inductive ReadsLater (blocks : List (Block (InstrResolved K))) (operands : List Operand) (x : NameLocation) :
    BlockLabel → Prop
  | read {b : Block (InstrResolved K)} : b ∈ blocks → slotReadFirst x b.slotEvents = true →
      ReadsLater blocks operands x b.label
  | passed {b : Block (InstrResolved K)} {es : List SlotEvent} {edge : BlockEdge} : b ∈ blocks → b.Leaves es edge →
      killed x es = false → x ∈ passedOperands operands edge → ReadsLater blocks operands x b.label
  | later {b : Block (InstrResolved K)} {es : List SlotEvent} {edge : BlockEdge} : b ∈ blocks → b.Leaves es edge →
      killed x es = false → ReadsLater blocks operands x edge.target → ReadsLater blocks operands x b.label

/-- The slot is passed on the edge, or read later by what the edge goes to. -/
def StillRead (blocks : List (Block (InstrResolved K))) (operands : List Operand) (edge : BlockEdge) (x : NameLocation) :
    Prop :=
  x ∈ passedOperands operands edge ∨ ReadsLater blocks operands x edge.target

/-! ## Events in sequence -/

variable (x : NameLocation)

theorem killed_append (es fs : List SlotEvent) : killed x (es ++ fs) = (killed x es || killed x fs) :=
  any_append

theorem slotReadFirst_append (es fs : List SlotEvent) :
    slotReadFirst x (es ++ fs) = (slotReadFirst x es || (!killed x es && slotReadFirst x fs)) := by
  induction es with
  | nil => simp [slotReadFirst, killed]
  | cons e es ih =>
    cases e with
    | read y =>
      rw [cons_append, slotReadFirst, slotReadFirst, ih, Bool.or_assoc]
      rfl
    | acquire y | release y =>
      rw [cons_append, slotReadFirst, slotReadFirst, ih]
      by_cases h : y = x <;> simp [killed, SlotEvent.kills, h]

theorem runEvents_append (locs : LiveSet) (es fs : List SlotEvent) (held : LiveSet) :
    runEvents locs (es ++ fs) held = (runEvents locs es held).bind (runEvents locs fs) := by
  induction es generalizing held with
  | nil => rfl
  | cons e es ih =>
    simp only [cons_append, runEvents]
    cases runEvent locs held e with
    | none => rfl
    | some held' => exact ih held'

/-- A proper prefix of two lists of events ends in the first or in the second. -/
theorem isPrefix_append_cases {es fs gs : List SlotEvent} (h : gs <+: es ++ fs) :
    gs <+: es ∨ ∃ hs, gs = es ++ hs ∧ hs <+: fs := by
  rcases prefix_or_prefix_of_prefix h (prefix_append es fs) with h' | h'
  · exact .inl h'
  · obtain ⟨hs, rfl⟩ := h'
    exact .inr ⟨hs, rfl, (prefix_append_right_inj es).1 h⟩

end Soac
