import Soac.Generator.NativeStep
import Mathlib.Data.List.Count

/-!
# Admission to the body

What the operations on a generator come to, without the data they carry: the phase of the binding and the step that its
pending exception is from, a mark for each frame of the stack that takes part in the protocol, and the events. `Effect`
says what one move can do to that; `View.Inv` is what every effect keeps: at most one step is under its guard, the call
that holds its permit stands above it on the stack, and the phase of the binding tells which of the two goes on.
-/

namespace Soac.Generator

open List

/-- The step an event belongs to. -/
def Event.step : Event → Nat
  | permitted i | consumed i | entered i | acquired i | delivered i | released i => i

/-- How far a step has come: it has nothing to inject yet, it holds an exception, or its permit is out or no longer wanted. -/
inductive Stage where
  | opened
  | holding
  | spent
deriving DecidableEq

/-- A frame's part in the protocol: a step under its guard or past it, a call that has consumed a permit on its way to the
body or in the body, a clear that has taken a pending exception, and a body without a permit. -/
inductive Mark where
  | step (i : Nat) (stage : Stage)
  | settled (i : Nat)
  | admitting (i : Nat)
  | body (i : Nat)
  | taken (i : Nat)
  | stray
deriving DecidableEq

/-- `closing` counts the frames that only a terminal state has. -/
structure View where
  binding : Option (Phase × Option Nat)
  permit : Nat
  terminal : Bool
  closing : Nat
  marks : List Mark
  next : Nat
  log : List Event

namespace View

/-- The step that the pending exception is from. -/
def pending (v : View) : Option Nat :=
  v.binding.bind (·.2)

end View

/-- The phase after the guard is dropped. -/
def Phase.settled : Phase → Phase
  | .retired => .retired
  | _ => .idle

/-- What one move can do. -/
inductive Effect : View → View → Prop where
  | quiet (v : View) : Effect v v
  | bind {v : View} {p : Option Nat} (hb : v.binding = some (.prepared, p)) :
    Effect v { v with binding := some (.idle, p) }
  | openStep {v : View} {p : Option Nat} (hb : v.binding = some (.idle, p)) :
    Effect v { v with
      binding := some (.protocol, p), marks := .step v.next .opened :: v.marks, next := v.next + 1 }
  | acquire {v : View} {i : Nat} {ms : List Mark} (hm : v.marks = .step i .opened :: ms) :
    Effect v { v with marks := .step i .holding :: ms, log := v.log ++ [.acquired i] }
  | giveUp {v : View} {i : Nat} {ms : List Mark} (hm : v.marks = .step i .opened :: ms) :
    Effect v { v with marks := .step i .spent :: ms }
  | discard {v : View} {i : Nat} {ms : List Mark} (hm : v.marks = .step i .holding :: ms) :
    Effect v { v with marks := .step i .spent :: ms, log := v.log ++ [.released i] }
  | permit {v : View} {i : Nat} {ms : List Mark} (hm : v.marks = .step i .opened :: ms)
      (hb : v.binding = some (.protocol, none)) :
    Effect v { v with
      binding := some (.permitted, none), permit := i, marks := .step i .spent :: ms, log := v.log ++ [.permitted i] }
  | permitHolding {v : View} {i : Nat} {ms : List Mark} (hm : v.marks = .step i .holding :: ms)
      (hb : v.binding = some (.protocol, none)) :
    Effect v { v with
      binding := some (.permitted, some i), permit := i, marks := .step i .spent :: ms, log := v.log ++ [.permitted i] }
  | consume {v : View} {p : Option Nat} (hb : v.binding = some (.permitted, p)) :
    Effect v { v with
      binding := some (.admitting, p), marks := .admitting v.permit :: v.marks, log := v.log ++ [.consumed v.permit] }
  | enter {v : View} {i : Nat} {ms : List Mark} {p : Option Nat} (hm : v.marks = .admitting i :: ms)
      (hb : v.binding = some (.admitting, p)) :
    Effect v { v with binding := some (.body, p), marks := .body i :: ms, log := v.log ++ [.entered i] }
  | abandon {v : View} {i : Nat} {ms : List Mark} (hm : v.marks = .admitting i :: ms) : Effect v { v with marks := ms }
  | exit {v : View} {i : Nat} {ms : List Mark} (hm : v.marks = .body i :: ms) : Effect v { v with marks := ms }
  | inject {v : View} {i : Nat} {e : Event} (hb : v.binding = some (.body, some i)) (he : e = .delivered i ∨ e = .released i) :
    Effect v { v with binding := some (.body, none), log := v.log ++ [e] }
  | startClear (v : View) : Effect v { v with terminal := true, closing := v.closing + 1 }
  | take {v : View} {n : Nat} (hc : v.closing = n + 1) :
    Effect v { v with binding := none, closing := n, marks := v.pending.toList.map .taken ++ v.marks }
  | dropTaken {v : View} {i : Nat} {ms : List Mark} (hm : v.marks = .taken i :: ms) :
    Effect v { v with marks := ms, log := v.log ++ [.released i] }
  | settle {v : View} {i : Nat} {ms : List Mark} (hm : v.marks = .step i .spent :: ms) :
    Effect v { v with
      binding := v.binding.map fun b => (b.1.settled, none)
      marks := .settled i :: ms
      log := v.log ++ v.pending.toList.map .released }
  | finish {v : View} {i : Nat} {ms : List Mark} (hm : v.marks = .settled i :: ms) : Effect v { v with marks := ms }
  | terminate (v : View) : Effect v { v with terminal := true }
  | startUnmanaged {v : View} (hb : v.binding = none) : Effect v { v with closing := v.closing + 1 }
  | endUnmanaged {v : View} {n : Nat} (hc : v.closing = n + 1) : Effect v { v with closing := n }
  | activateUnmanaged {v v' : View} (hc : 0 < v.closing) (ht : v.terminal = false) : Effect v v'
  | stray {v v' : View} {ms : List Mark} (hm : v.marks = .stray :: ms) : Effect v v'

/-! ## The invariant -/

/-- How far the call that holds the permit of a step has come. -/
inductive Inner where
  | none
  | admitting
  | body
deriving DecidableEq

def Inner.marks (i : Nat) : Inner → List Mark
  | none => []
  | admitting => [.admitting i]
  | body => [.body i]

/-- The step that is under its guard, and what stands above it on the stack. -/
structure Active where
  step : Nat
  stage : Stage
  inner : Inner
  taken : Bool

def Active.marks (a : Active) : List Mark :=
  (if a.taken then [.taken a.step] else []) ++ (a.inner.marks a.step ++ [.step a.step a.stage])

def activeMarks : Option Active → List Mark
  | none => []
  | some a => a.marks

/-- The marks of the active step, if there is one, and of the steps past their guard. -/
def marksOf (active : Option Active) (settled : List Nat) : List Mark :=
  activeMarks active ++ settled.map .settled

/-- The references to the exception of a step that the step itself holds, or a clear above it. -/
def activeHeld (i : Nat) : Option Active → Nat
  | none => 0
  | some a => if a.step = i then (if a.stage = .holding then 1 else 0) + (if a.taken then 1 else 0) else 0

/-- How many references to the exception of a step are held in all: in the binding, by the step, by a clear. -/
def View.held (v : View) (active : Option Active) (i : Nat) : Nat :=
  (if v.pending = some i then 1 else 0) + activeHeld i active

/-- The phase of the binding goes with the active step. -/
def Active.PhaseOk (a : Active) (v : View) : Phase → Prop
  | .protocol => a.inner = .none ∧ v.pending = none
  | .permitted => a.inner = .none ∧ a.stage = .spent ∧ v.permit = a.step ∧
    v.log.count (.consumed a.step) = 0 ∧ v.log.count (.permitted a.step) = 1
  | .admitting => (a.inner = .none ∨ a.inner = .admitting) ∧ a.stage = .spent
  | .body => (a.inner = .none ∨ a.inner = .body) ∧ a.stage = .spent
  | _ => False

structure Active.Ok (a : Active) (v : View) : Prop where
  lt : a.step < v.next
  unissued : a.stage ≠ .spent → v.log.count (.permitted a.step) = 0 ∧ a.inner = .none ∧ a.taken = false
  unacquired : a.stage = .opened → v.log.count (.acquired a.step) = 0
  issued : a.inner ≠ .none → v.log.count (.permitted a.step) = 1
  admitting : a.inner = .admitting → v.log.count (.entered a.step) = 0 ∧ v.log.count (.consumed a.step) = 1
  bound : ∀ ph p, v.binding = some (ph, p) → a.taken = false ∧ (p = none ∨ p = some a.step) ∧ a.PhaseOk v ph

/-- Between steps the binding has nothing pending, and it is bound once a step was admitted. -/
def QuietBinding (v : View) (settled : List Nat) : Prop :=
  ∀ ph p, v.binding = some (ph, p) → (ph = .prepared ∧ settled = [] ∨ ph = .idle ∨ ph = .retired) ∧ p = none

structure View.Good (v : View) (active : Option Active) (settled : List Nat) : Prop where
  marks : v.marks = marksOf active settled
  terminal : 0 < v.closing ∨ v.binding = none → v.terminal = true
  fresh : ∀ e ∈ v.log, e.step < v.next
  running : ∀ a, active = some a → a.Ok v
  quiet : active = none → QuietBinding v settled
  permits : ∀ i, v.log.count (.entered i) ≤ v.log.count (.consumed i) ∧
    v.log.count (.consumed i) ≤ v.log.count (.permitted i) ∧ v.log.count (.permitted i) ≤ 1
  exceptions : ∀ i, v.log.count (.acquired i) =
    v.log.count (.delivered i) + v.log.count (.released i) + v.held active i ∧ v.log.count (.acquired i) ≤ 1

def View.Inv (v : View) : Prop :=
  ∃ active settled, v.Good active settled

/-! ## Every effect keeps it -/

theorem count_concat (log : List Event) (e e' : Event) :
    (log ++ [e]).count e' = log.count e' + if e = e' then 1 else 0 := by
  rw [count_append, count_singleton]
  simp only [beq_iff_eq]

attribute [grind =] View.pending View.held activeHeld count_concat

theorem fresh_concat {v : View} (h : ∀ e ∈ v.log, e.step < v.next) {e : Event} (he : e.step < v.next) :
    ∀ e' ∈ v.log ++ [e], e'.step < v.next :=
  forall_mem_append.mpr ⟨h, forall_mem_singleton.mpr he⟩

/-- No event belongs to a step that is still to come. -/
theorem count_eq_zero_of_fresh {v : View} (h : ∀ e ∈ v.log, e.step < v.next) {e : Event} (he : v.next ≤ e.step) :
    v.log.count e = 0 := by
  rw [count_eq_zero]
  intro hmem
  have := h e hmem
  omega

/-- What a mark on top of the stack says about the steps. -/
def Mark.Tells (ms : List Mark) (active : Option Active) (past : List Nat) : Mark → Prop
  | step i st => active = some ⟨i, st, .none, false⟩ ∧ ms = past.map .settled
  | admitting i => ∃ st, active = some ⟨i, st, .admitting, false⟩ ∧ ms = .step i st :: past.map .settled
  | body i => ∃ st, active = some ⟨i, st, .body, false⟩ ∧ ms = .step i st :: past.map .settled
  | taken i => ∃ st inner, active = some ⟨i, st, inner, true⟩ ∧ ms = marksOf (some ⟨i, st, inner, false⟩) past
  | settled i => active = none ∧ ∃ rest, past = i :: rest ∧ ms = rest.map .settled
  | stray => False

namespace View.Good

variable {v : View} {active : Option Active} {settled : List Nat}
  {i : Nat} {ms : List Mark} {p : Option Nat} (h : v.Good active settled)

include h

/-- The topmost mark tells which step is active and what stands above it. -/
theorem of_marks {m : Mark} (hm : v.marks = m :: ms) : m.Tells ms active settled := by
  have hmarks := h.marks.symm.trans hm
  cases active with
  | none =>
    cases settled with
    | nil => cases hmarks
    | cons j rest =>
      cases hmarks
      exact ⟨rfl, rest, rfl, rfl⟩
  | some a =>
    rcases a with ⟨j, stage, inner, taken⟩
    cases taken <;> cases inner <;> cases hmarks
    · exact ⟨rfl, rfl⟩
    · exact ⟨stage, rfl, rfl⟩
    · exact ⟨stage, rfl, rfl⟩
    all_goals exact ⟨stage, _, rfl, rfl⟩

/-- No step is active while the binding is prepared or idle. -/
theorem inactive {ph : Phase} (hb : v.binding = some (ph, p)) (hph : ph = .prepared ∨ ph = .idle) :
    active = none ∧ p = none := by
  cases active with
  | none => exact ⟨rfl, (h.quiet rfl _ _ hb).2⟩
  | some a => rcases hph with rfl | rfl <;> exact ((h.running a rfl).bound _ _ hb).2.2.elim

theorem bind (hb : v.binding = some (.prepared, p)) :
    View.Good { v with binding := some (.idle, p) } active settled := by
  obtain ⟨rfl, rfl⟩ := h.inactive hb (by decide)
  refine ⟨h.marks, ?_, h.fresh, nofun, ?_, h.permits, ?_⟩
  · have := h.terminal
    grind
  · rintro - ph p hbind
    cases hbind
    exact ⟨.inr (.inl rfl), rfl⟩
  · intro i
    have := h.exceptions i
    grind

theorem openStep (hb : v.binding = some (.idle, p)) :
    View.Good { v with binding := some (.protocol, p), marks := .step v.next .opened :: v.marks, next := v.next + 1 }
      (some ⟨v.next, .opened, .none, false⟩) settled := by
  obtain ⟨rfl, rfl⟩ := h.inactive hb (by decide)
  refine ⟨?_, ?_, ?_, ?_, nofun, h.permits, ?_⟩
  · rw [h.marks]
    rfl
  · have := h.terminal
    grind
  · intro e he
    exact Nat.lt_succ_of_lt (h.fresh e he)
  · rintro a ⟨⟩
    have hp := count_eq_zero_of_fresh h.fresh (e := .permitted v.next) (Nat.le_refl _)
    have ha := count_eq_zero_of_fresh h.fresh (e := .acquired v.next) (Nat.le_refl _)
    refine ⟨Nat.lt_succ_self _, fun _ => ⟨hp, rfl, rfl⟩, fun _ => ha, nofun, nofun, ?_⟩
    rintro ph p ⟨⟩
    exact ⟨rfl, .inl rfl, rfl, rfl⟩
  · intro i
    have := h.exceptions i
    grind

/-- A step that has not issued its permit acquires an exception, gives up, or discards the exception it holds. -/
theorem restage {st : Stage} (st' : Stage) (es : List Event) (hm : v.marks = .step i st :: ms)
    (hst : st = .opened ∧ (st' = .holding ∧ es = [.acquired i] ∨ st' = .spent ∧ es = []) ∨
      st = .holding ∧ st' = .spent ∧ es = [.released i]) :
    View.Good { v with marks := .step i st' :: ms, log := v.log ++ es } (some ⟨i, st', .none, false⟩) settled := by
  obtain ⟨rfl, rfl⟩ := h.of_marks hm
  have hok := h.running _ rfl
  have hcount : ∀ e, (∀ j, e ≠ .acquired j ∧ e ≠ .released j) → (v.log ++ es).count e = v.log.count e := by
    rcases hst with ⟨-, ⟨-, rfl⟩ | ⟨-, rfl⟩⟩ | ⟨-, -, rfl⟩ <;> grind
  have hissued := hok.unissued (by grind)
  refine ⟨rfl, h.terminal, ?_, ?_, nofun, ?_, ?_⟩
  · intro e he
    rcases mem_append.mp he with he | he
    · exact h.fresh e he
    · have hi : e.step = i := by grind [Event.step]
      exact hi ▸ hok.lt
  · rintro a ⟨⟩
    refine ⟨hok.lt, fun _ => ⟨(hcount _ (by simp)).trans hissued.1, rfl, rfl⟩, by grind, nofun, nofun, ?_⟩
    intro ph p hb
    have := hok.bound ph p hb
    cases ph <;> grind [Active.PhaseOk]
  · intro j
    rw [hcount _ (by simp), hcount _ (by simp), hcount _ (by simp)]
    exact h.permits j
  · intro j
    have := h.exceptions j
    have := hok.unacquired
    rcases hst with ⟨rfl, ⟨rfl, rfl⟩ | ⟨rfl, rfl⟩⟩ | ⟨rfl, rfl, rfl⟩ <;>
      grind

/-- A step issues its permit, with the exception it holds or without one. -/
theorem permit {st : Stage} (hm : v.marks = .step i st :: ms)
    (hst : st ≠ .spent) (hb : v.binding = some (.protocol, none)) (hp : p = if st = .holding then some i else none) :
    View.Good { v with
      binding := some (.permitted, p), permit := i, marks := .step i .spent :: ms, log := v.log ++ [.permitted i] }
      (some ⟨i, .spent, .none, false⟩) settled := by
  obtain ⟨rfl, rfl⟩ := h.of_marks hm
  have hok := h.running _ rfl
  have hzero := hok.unissued hst
  have hpermits := h.permits i
  refine ⟨rfl, ?_, fresh_concat h.fresh hok.lt, ?_, nofun, ?_, ?_⟩
  · have := h.terminal
    grind
  · rintro a ⟨⟩
    refine ⟨hok.lt, (absurd rfl ·), nofun, nofun, nofun, ?_⟩
    rintro ph p ⟨⟩
    refine ⟨rfl, ?_, rfl, rfl, rfl, ?_, ?_⟩
    · grind
    · grind
    · grind
  · intro j
    have := h.permits j
    grind
  · intro j
    have := h.exceptions j
    cases st <;> grind

/-- The binding of an active step is in one of the phases of a step. -/
theorem active_of_phase {ph : Phase} (hb : v.binding = some (ph, p))
    (hph : ¬(ph = .prepared ∨ ph = .idle ∨ ph = .retired)) : ∃ a, active = some a ∧ a.Ok v := by
  cases active with
  | none =>
    rcases (h.quiet rfl ph p hb).1 with ⟨hprepared, -⟩ | hbound
    · exact absurd (.inl hprepared) hph
    · exact absurd (.inr hbound) hph
  | some a => exact ⟨a, rfl, h.running a rfl⟩

theorem consume (hb : v.binding = some (.permitted, p)) : View.Good { v with
      binding := some (.admitting, p), marks := .admitting v.permit :: v.marks, log := v.log ++ [.consumed v.permit] }
      (some ⟨v.permit, .spent, .admitting, false⟩) settled := by
  obtain ⟨⟨i, stage, inner, taken⟩, rfl, hok⟩ := h.active_of_phase hb (by decide)
  obtain ⟨htaken, hp, hinner, hstage, hpermit, hconsumed, hpermitted⟩ := hok.bound _ _ hb
  subst htaken hinner hstage hpermit
  have hpermits := h.permits v.permit
  refine ⟨?_, ?_, fresh_concat h.fresh hok.lt, ?_, nofun, ?_, ?_⟩
  · rw [h.marks]
    rfl
  · have := h.terminal
    grind
  · rintro a ⟨⟩
    refine ⟨hok.lt, (absurd rfl ·), nofun, fun _ => ?_, fun _ => ?_, ?_⟩
    · grind
    · grind
    · rintro ph p ⟨⟩
      exact ⟨rfl, hp, .inr rfl, rfl⟩
  · intro j
    have := h.permits j
    grind
  · intro j
    have := h.exceptions j
    grind

theorem enter (hm : v.marks = .admitting i :: ms) (hb : v.binding = some (.admitting, p)) :
    View.Good { v with binding := some (.body, p), marks := .body i :: ms, log := v.log ++ [.entered i] }
      (some ⟨i, .spent, .body, false⟩) settled := by
  obtain ⟨st, rfl, rfl⟩ := h.of_marks hm
  have hok := h.running _ rfl
  obtain ⟨-, hp, -, rfl⟩ := hok.bound _ _ hb
  obtain ⟨hentered, hconsumed⟩ := hok.admitting rfl
  have hissued := hok.issued nofun
  refine ⟨rfl, ?_, fresh_concat h.fresh hok.lt, ?_, nofun, ?_, ?_⟩
  · have := h.terminal
    grind
  · rintro a ⟨⟩
    refine ⟨hok.lt, (absurd rfl ·), nofun, fun _ => ?_, nofun, ?_⟩
    · grind
    · rintro ph p ⟨⟩
      exact ⟨rfl, hp, .inr rfl, rfl⟩
  · intro j
    have := h.permits j
    grind
  · intro j
    have := h.exceptions j
    grind

/-- The call that holds the permit ends, in the body or before it. -/
theorem leave {st : Stage} {inner : Inner} (ha : active = some ⟨i, st, inner, false⟩) :
    View.Good { v with marks := .step i st :: settled.map .settled } (some ⟨i, st, .none, false⟩) settled := by
  subst ha
  have hok := h.running _ rfl
  refine ⟨rfl, h.terminal, h.fresh, ?_, nofun, h.permits, ?_⟩
  · rintro a ⟨⟩
    refine ⟨hok.lt, fun hst => ⟨(hok.unissued hst).1, rfl, rfl⟩, hok.unacquired, nofun, nofun, ?_⟩
    intro ph p hb
    obtain ⟨-, hp, hphase⟩ := hok.bound ph p hb
    refine ⟨rfl, hp, ?_⟩
    cases ph <;> grind [Active.PhaseOk]
  · intro j
    have := h.exceptions j
    grind

theorem inject {e : Event} (hb : v.binding = some (.body, some i))
    (he : e = .delivered i ∨ e = .released i) :
    View.Good { v with binding := some (.body, none), log := v.log ++ [e] } active settled := by
  obtain ⟨a, rfl, hok⟩ := h.active_of_phase hb (by decide)
  obtain ⟨htaken, hp, hphase⟩ := hok.bound _ _ hb
  have hi : i = a.step := by
    rcases hp with hp | hp
    · cases hp
    · exact Option.some.inj hp
  subst hi
  refine ⟨h.marks, ?_, fresh_concat h.fresh ?_, ?_, nofun, ?_, ?_⟩
  · have := h.terminal
    grind
  · rcases he with rfl | rfl <;> exact hok.lt
  · rintro a ⟨⟩
    have hcount : ∀ e', (∀ j, e' ≠ .delivered j ∧ e' ≠ .released j) → (v.log ++ [e]).count e' = v.log.count e' := by
      grind
    refine ⟨hok.lt, ?_, ?_, ?_, ?_, ?_⟩
    · rw [hcount _ (by simp)]
      exact hok.unissued
    · rw [hcount _ (by simp)]
      exact hok.unacquired
    · rw [hcount _ (by simp)]
      exact hok.issued
    · rw [hcount _ (by simp), hcount _ (by simp)]
      exact hok.admitting
    · rintro ph p ⟨⟩
      exact ⟨htaken, .inl rfl, hphase⟩
  · intro j
    have := h.permits j
    grind
  · intro j
    have := h.exceptions j
    grind

/-- Whether the state is terminal says nothing about the active step. -/
theorem setTerminal {terminal : Bool} {closing : Nat}
    (ht : 0 < closing ∨ v.binding = none → terminal) : View.Good { v with terminal, closing } active settled := by
  refine ⟨h.marks, ht, h.fresh, ?_, h.quiet, h.permits, h.exceptions⟩
  intro a ha
  have hok := h.running a ha
  exact ⟨hok.lt, hok.unissued, hok.unacquired, hok.issued, hok.admitting, hok.bound⟩

/-- The binding is taken out of the state, and its pending exception with it. -/
theorem take {n : Nat} (hc : v.closing = n + 1) :
    ∃ active', View.Good { v with binding := none, closing := n, marks := v.pending.toList.map .taken ++ v.marks }
      active' settled := by
  have hterminal : v.terminal := h.terminal (.inl (by omega))
  cases hp : v.pending with
  | none =>
    refine ⟨active, h.marks, fun _ => hterminal, h.fresh, ?_, fun _ => nofun, h.permits, ?_⟩
    · intro a ha
      have hok := h.running a ha
      exact ⟨hok.lt, hok.unissued, hok.unacquired, hok.issued, hok.admitting, nofun⟩
    · intro j
      have := h.exceptions j
      cases active <;> grind
  | some i =>
    obtain ⟨⟨ph, p⟩, hb, rfl⟩ : ∃ b, v.binding = some b ∧ b.2 = some i := by
      rwa [View.pending, Option.bind_eq_some_iff] at hp
    have hph : ¬(ph = .prepared ∨ ph = .idle ∨ ph = .retired) := by
      intro hph
      cases active with
      | none => cases (h.quiet rfl _ _ hb).2
      | some a =>
        rcases hph with rfl | rfl | rfl
        all_goals exact ((h.running a rfl).bound _ _ hb).2.2
    obtain ⟨⟨j, stage, inner, taken⟩, rfl, hok⟩ := h.active_of_phase hb hph
    obtain ⟨htaken, hstep, hphase⟩ := hok.bound _ _ hb
    have hspent : stage = .spent := by
      cases ph <;> grind [Active.PhaseOk]
    have hj : i = j := by
      rcases hstep with hstep | hstep
      · cases hstep
      · exact Option.some.inj hstep
    subst htaken hspent hj
    refine ⟨some ⟨i, .spent, inner, true⟩, ?_, fun _ => hterminal, h.fresh, ?_, nofun, h.permits, ?_⟩
    · rw [h.marks]
      rfl
    · rintro a ⟨⟩
      exact ⟨hok.lt, (absurd rfl ·), nofun, hok.issued, hok.admitting, nofun⟩
    · intro k
      have := h.exceptions k
      grind

theorem dropTaken (hm : v.marks = .taken i :: ms) :
    ∃ active', View.Good { v with marks := ms, log := v.log ++ [.released i] } active' settled := by
  obtain ⟨st, inner, rfl, rfl⟩ := h.of_marks hm
  have hok := h.running _ rfl
  have hspent : st = .spent := by
    by_contra hst
    cases (hok.unissued hst).2.2
  have hcount : ∀ e', (∀ j, e' ≠ .released j) → (v.log ++ [Event.released i]).count e' = v.log.count e' := by
    grind
  subst hspent
  refine ⟨some ⟨i, .spent, inner, false⟩, rfl, h.terminal, fresh_concat h.fresh hok.lt, ?_, nofun, ?_, ?_⟩
  · rintro a ⟨⟩
    refine ⟨hok.lt, (absurd rfl ·), nofun, ?_, ?_, ?_⟩
    · rw [hcount _ (by simp)]
      exact hok.issued
    · rw [hcount _ (by simp), hcount _ (by simp)]
      exact hok.admitting
    · intro ph p hb
      cases (hok.bound ph p hb).1
  · intro j
    have := h.permits j
    grind
  · intro j
    have := h.exceptions j
    grind

/-- The guard of the active step is dropped. -/
theorem settle (hm : v.marks = .step i .spent :: ms) : View.Good { v with
      binding := v.binding.map fun b => (b.1.settled, none)
      marks := .settled i :: ms
      log := v.log ++ v.pending.toList.map .released } none (i :: settled) := by
  obtain ⟨rfl, rfl⟩ := h.of_marks hm
  have hok := h.running _ rfl
  have hquiet : ∀ ph : Phase, ph.settled = .idle ∨ ph.settled = .retired := by
    intro ph
    cases ph <;> simp [Phase.settled]
  have hpending : v.pending = none ∨ v.pending = some i := by
    cases hb : v.binding with
    | none => exact .inl (by rw [View.pending, hb]; rfl)
    | some b =>
      have := (hok.bound b.1 b.2 hb).2.1
      rwa [View.pending, hb]
  have hlater : View.pending { v with
      binding := v.binding.map fun b => (b.1.settled, none)
      marks := .settled i :: settled.map .settled
      log := v.log ++ v.pending.toList.map .released } = none := by
    cases v.binding <;> simp [View.pending]
  refine ⟨rfl, ?_, ?_, nofun, ?_, ?_, ?_⟩
  · rintro (hc | hb)
    · exact h.terminal (.inl hc)
    · exact h.terminal (.inr (Option.map_eq_none_iff.mp hb))
  · rcases hpending with hp | hp
    · rw [hp, Option.toList_none, map_nil, append_nil]
      exact h.fresh
    · rw [hp]
      exact fresh_concat h.fresh hok.lt
  · intro _ ph p hb
    cases hv : v.binding with
    | none =>
      rw [hv] at hb
      cases hb
    | some b =>
      rw [hv] at hb
      cases hb
      exact ⟨.inr (hquiet b.1), rfl⟩
  · intro j
    have := h.permits j
    rcases hpending with hp | hp <;> grind
  · intro j
    have := h.exceptions j
    rcases hpending with hp | hp <;> grind

theorem finish (hm : v.marks = .settled i :: ms) :
    ∃ rest, View.Good { v with marks := ms } none rest := by
  obtain ⟨rfl, rest, rfl, rfl⟩ := h.of_marks hm
  refine ⟨rest, rfl, h.terminal, h.fresh, nofun, ?_, h.permits, h.exceptions⟩
  intro _ ph p hb
  obtain ⟨⟨-, hnil⟩ | hbound, hp⟩ := h.quiet rfl ph p hb
  · cases hnil
  · exact ⟨.inr hbound, hp⟩

end View.Good

/-- Every effect keeps the invariant. -/
theorem Effect.inv {v v' : View} (he : Effect v v') (h : v.Inv) : v'.Inv := by
  obtain ⟨active, settled, h⟩ := h
  cases he with
  | quiet => exact ⟨active, settled, h⟩
  | bind hb => exact ⟨_, _, h.bind hb⟩
  | openStep hb => exact ⟨_, _, h.openStep hb⟩
  | acquire hm | discard hm => exact ⟨_, _, h.restage _ _ hm (by simp)⟩
  | giveUp hm => exact ⟨_, _, by simpa using h.restage .spent [] hm (by simp)⟩
  | permit hm hb | permitHolding hm hb => exact ⟨_, _, h.permit hm (by decide) hb rfl⟩
  | consume hb => exact ⟨_, _, h.consume hb⟩
  | enter hm hb => exact ⟨_, _, h.enter hm hb⟩
  | abandon hm | exit hm =>
    obtain ⟨st, ha, rfl⟩ := h.of_marks hm
    exact ⟨_, _, h.leave ha⟩
  | inject hb he => exact ⟨_, _, h.inject hb he⟩
  | startClear | terminate => exact ⟨_, _, h.setTerminal fun _ => rfl⟩
  | take hc =>
    obtain ⟨active', h'⟩ := h.take hc
    exact ⟨_, _, h'⟩
  | dropTaken hm =>
    obtain ⟨active', h'⟩ := h.dropTaken hm
    exact ⟨_, _, h'⟩
  | settle hm => exact ⟨_, _, h.settle hm⟩
  | finish hm =>
    obtain ⟨rest, h'⟩ := h.finish hm
    exact ⟨_, _, h'⟩
  | startUnmanaged hb => exact ⟨_, _, h.setTerminal fun _ => h.terminal (.inr hb)⟩
  | endUnmanaged hc => exact ⟨_, _, h.setTerminal fun _ => h.terminal (.inl (by omega))⟩
  | activateUnmanaged hc ht => rw [h.terminal (.inl hc)] at ht; cases ht
  | stray hm => exact (h.of_marks hm).elim

/-! ## What the invariant says -/

/-- The step under its guard that a mark is for. -/
def Mark.guarded : Mark → Option Nat
  | step i _ => some i
  | _ => none

/-- A body that is running, with a permit or without one. -/
def Mark.isBody : Mark → Bool
  | body _ | stray => true
  | _ => false

namespace View.Good

variable {v : View} {active : Option Active} {settled : List Nat}

section

variable (h : v.Good active settled)
include h

/-- At most one step is under its guard. -/
theorem guarded_marks : v.marks.filterMap Mark.guarded = (active.map (·.step)).toList := by
  rw [h.marks, marksOf, filterMap_append, filterMap_map, (filterMap_eq_nil_iff (f := Mark.guarded ∘ _)).mpr fun _ _ => rfl]
  cases active with
  | none => rfl
  | some a =>
    rcases a with ⟨i, stage, inner, taken⟩
    cases taken <;> cases inner <;> rfl

theorem countP_body_le : v.marks.countP Mark.isBody ≤ 1 := by
  have hsettled : (settled.map Mark.settled).countP Mark.isBody = 0 := by
    rw [countP_map, countP_eq_zero]
    intro i _
    exact nofun
  rw [h.marks, marksOf, countP_append, hsettled]
  cases active with
  | none => exact Nat.zero_le _
  | some a =>
    rcases a with ⟨i, stage, inner, taken⟩
    cases taken <;> cases inner <;> simp [activeMarks, Active.marks, Inner.marks, Mark.isBody, countP_cons]

/-- A mark of the body or without a permit can only be the one of the active step. -/
theorem active_of_body_mem {m : Mark} (hm : m ∈ v.marks) (hbody : m.isBody) :
    ∃ a, active = some a ∧ a.inner = .body ∧ m = .body a.step := by
  rw [h.marks, marksOf, mem_append] at hm
  rcases hm with hm | hm
  · cases active with
    | none => cases hm
    | some a =>
      refine ⟨a, rfl, ?_⟩
      rcases a with ⟨i, stage, inner, taken⟩
      cases taken <;> cases inner <;> simp [activeMarks, Active.marks, Inner.marks] at hm
      all_goals rcases hm with rfl | rfl | rfl <;> simp_all [Mark.isBody]
  · obtain ⟨i, -, rfl⟩ := mem_map.mp hm
    cases hbody

/-- The step that an exception is held for is still under its guard. -/
theorem held_eq_zero {i : Nat} (hi : ∀ a, active = some a → a.step ≠ i) : v.held active i = 0 := by
  have hpending : v.pending ≠ some i := by
    intro hp
    obtain ⟨⟨ph, p⟩, hb, rfl⟩ := Option.bind_eq_some_iff.mp hp
    cases active with
    | none => cases (h.quiet rfl _ _ hb).2
    | some a =>
      rcases ((h.running a rfl).bound _ _ hb).2.1 with hnone | hsome
      · cases hnone
      · exact hi a rfl (Option.some.inj hsome).symm
  rw [View.held, if_neg hpending]
  cases active with
  | none => rfl
  | some a => simp [activeHeld, hi a rfl]

end

end View.Good

/-- A binding that was taken out is not put back, and no body is entered. -/
theorem Effect.retired {v v' : View} (he : Effect v v') (h : v.Inv) (hb : v.binding = none) :
    v'.binding = none ∧ ∀ i, v'.log.count (.entered i) = v.log.count (.entered i) := by
  obtain ⟨active, settled, h⟩ := h
  have hlog : ∀ (e : Event), (∀ i, e ≠ .entered i) → ∀ i, (v.log ++ [e]).count (.entered i) = v.log.count (.entered i) := by
    intro e he i
    rw [count_concat, if_neg (he i), Nat.add_zero]
  cases he with
  | quiet | giveUp | abandon | exit | startClear | finish | terminate | startUnmanaged | endUnmanaged =>
    exact ⟨hb, fun _ => rfl⟩
  | bind hb' | openStep hb' | permit _ hb' | permitHolding _ hb' | consume hb' | enter _ hb' | inject hb' =>
    rw [hb] at hb'; cases hb'
  | acquire | discard | dropTaken => exact ⟨hb, hlog _ nofun⟩
  | take => exact ⟨rfl, fun _ => rfl⟩
  | settle =>
    have hpending : v.pending = none := by rw [View.pending, hb]; rfl
    rw [hpending]
    exact ⟨by rw [hb]; rfl, fun i => by rw [Option.toList_none, map_nil, append_nil]⟩
  | activateUnmanaged hc ht =>
    rw [h.terminal (.inl hc)] at ht
    cases ht
  | stray hm => exact (h.of_marks hm).elim

end Soac.Generator
