import Mathlib.Data.List.Count
import Mathlib.Algebra.Ring.Int.Defs

/-!
# Ledgers of references

The references a component takes and gives up, in order, and how many of each object it holds after a sequence of such
events.
-/

namespace Soac

/-- A reference taken or given up. -/
inductive RefEvent (α : Type) where
  | acquire (a : α)
  | release (a : α)
deriving DecidableEq, Repr

namespace RefEvent

variable {α : Type} [DecidableEq α]

/-- By how much an event changes the number of references held to an object. -/
def change (a : α) : RefEvent α → Int
  | acquire b => if b = a then 1 else 0
  | release b => if b = a then -1 else 0

/-- The number of references held to an object after the events. -/
def held (events : List (RefEvent α)) (a : α) : Int :=
  (events.map (change a)).sum

variable (events : List (RefEvent α))

@[simp]
theorem held_concat_acquire (b a : α) : held (events ++ [acquire b]) a = held events a + if b = a then 1 else 0 := by
  simp [held, change]

@[simp]
theorem held_concat_release (b a : α) : held (events ++ [release b]) a = held events a + if b = a then -1 else 0 := by
  simp [held, change]

/-- References given up all at once. -/
theorem held_append_release (refs : List α) (a : α) :
    held (events ++ refs.map release) a = held events a - refs.count a := by
  induction refs generalizing events with
  | nil => simp
  | cons b refs ih =>
    have hcons : events ++ (b :: refs).map release = events ++ [release b] ++ refs.map release := by simp
    rw [hcons, ih, List.count_cons]
    by_cases h : b = a
    · simp [h]
      omega
    · simp [h]

end RefEvent

end Soac
