import Soac.Semantics.Frame

/-!
# Execution of a frame

`execBlock` decides how a block ends, so a frame without interruptions from outside moves in one way only: it enters the
block an edge leads to, or ends. `Config.step` is that function, and `execFrame` its iteration; every step of it from one
block entry to another is a move of the frame (`Moves`).
-/

namespace Soac

variable {X K W : Type}

/-- Where a frame is: at the entry of a block, ended, or stopped because an edge cannot be taken. -/
inductive Config (W : Type) where
  | enter (label : BlockLabel) (σ : State W)
  | returned (v : Value) (σ : State W)
  | generatorReturned (v : Value) (σ : State W)
  | raised (e : Value) (σ : State W)
  | stuck

/-- The world of a frame that is not stuck. -/
def Config.world? : Config W → Option W
  | .enter _ σ | .returned _ σ | .generatorReturned _ σ | .raised _ σ => some σ.world
  | .stuck => none

/-- A world that records the operands of every call. -/
def callLog (isCall : K → Bool) : Runtime K where
  World := List (List Value)
  prim p vs w :=
    match p with
    | .op k => (.ok .none, if isCall k then w ++ [vs] else w)
    | _ => (.ok .none, w)
  constant i := .object ⟨none, true, true, i⟩
  isTrue _ w := (.ok true, w)
  asIndex _ w := (.ok 0, w)
  raised _ w := (.none, w)
  unbound _ := .none
  abruptKind _ := .none

section

variable (f : BlockPyFunction (Instr X K)) (R : Runtime K)

/-- Take an edge. -/
def takeEdge (σ : State R.World) (exn : Option Value) (edge : BlockEdge) : Config R.World :=
  match f.block? edge.target with
  | none => .stuck
  | some c =>
    match enterEdge f R σ exn c.params edge.args with
    | some σ' => .enter c.label σ'
    | none => .stuck

/-- Run a block from its entry. -/
def stepBlock (b : Block (Instr X K)) (σ : State R.World) : Config R.World :=
  match execBlock R f.ownedCell b σ with
  | (.ok (.goto edge), σ') => takeEdge f R σ' none edge
  | (.ok (.ret v), σ') => .returned v σ'
  | (.ok (.generatorReturn v), σ') => .generatorReturned v σ'
  | (.error e, σ') =>
    match b.excEdge with
    | some edge => takeEdge f R σ' (some e) edge
    | none => .raised e σ'

/-- One step of a frame; a frame that has ended stays as it is. -/
def Config.step : Config R.World → Config R.World
  | .enter l σ =>
    match f.block? l with
    | some b => stepBlock f R b σ
    | none => .stuck
  | c => c

/-- A number of steps. -/
def execFrame : Nat → Config R.World → Config R.World
  | 0, c => c
  | n + 1, c => execFrame n (c.step f R)

end

variable {f : ValidFunction X K} {R : Runtime K}

/-- The edge a configuration was entered by. -/
theorem takeEdge_enter {σ σ' : State R.World} {exn : Option Value}
    {edge : BlockEdge} {l : BlockLabel} (h : takeEdge f.toBlockPyFunction R σ exn edge = .enter l σ') :
    ∃ c ∈ f.blocks, c.label = edge.target ∧ c.label = l ∧
      enterEdge f.toBlockPyFunction R σ exn c.params edge.args = some σ' := by
  unfold takeEdge at h
  split at h
  · cases h
  · rename_i c hc
    obtain ⟨hmem, hlabel⟩ := f.block?_mem hc
    split at h
    · rename_i τ hτ
      cases h
      exact ⟨c, hmem, hlabel, rfl, hτ⟩
    · cases h

/-- A step from one block entry to another is a move. -/
theorem step_moves {l l' : BlockLabel} {σ σ' : State R.World}
    (h : (Config.enter l σ).step f.toBlockPyFunction R = .enter l' σ') :
    ∃ m, Moves f R m ∧ m.source.label = l ∧ m.before = σ ∧ m.target.label = l' ∧ m.after = σ' := by
  simp only [Config.step] at h
  split at h
  · rename_i b hb
    obtain ⟨hmem, hlabel⟩ := f.block?_mem hb
    unfold stepBlock at h
    split at h
    · rename_i edge τ hx
      obtain ⟨c, hc, ht, hl, he⟩ := takeEdge_enter h
      exact ⟨_, Moves.normal hmem hc ht hx he, hlabel, rfl, hl, rfl⟩
    · cases h
    · cases h
    · rename_i e τ hx
      split at h
      · rename_i edge hexc
        obtain ⟨c, hc, ht, hl, he⟩ := takeEdge_enter h
        obtain ⟨k, hk⟩ := leaves_of_execBlock_error hx
        exact ⟨_, Moves.exceptional hmem hc ht hexc hk he, hlabel, rfl, hl, rfl⟩
      · cases h
  · cases h

end Soac
