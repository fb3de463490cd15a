import Soac.Semantics.Exec
import Soac.Semantics.Staged

/-!
# Frames that run in step

A function and the same function with its blocks rewritten in place and more slots: when every block does the same from
states that agree below `n`, and the names of edges and parameters stand for the same slots, their frames run in step.
-/

namespace Soac

open List

variable {X K W : Type}

/-- Two frames at the same place, in states that agree below `n`. -/
inductive ConfigAgrees (n : Nat) : Config W → Config W → Prop where
  | enter {σ σ' : State W} (l : BlockLabel) : Agree n σ σ' → ConfigAgrees n (.enter l σ) (.enter l σ')
  | returned {σ σ' : State W} (v : Value) : Agree n σ σ' → ConfigAgrees n (.returned v σ) (.returned v σ')
  | generatorReturned {σ σ' : State W} (v : Value) :
      Agree n σ σ' → ConfigAgrees n (.generatorReturned v σ) (.generatorReturned v σ')
  | raised {σ σ' : State W} (e : Value) : Agree n σ σ' → ConfigAgrees n (.raised e σ) (.raised e σ')
  | stuck : ConfigAgrees n .stuck .stuck

/-- The name an edge passes. -/
def BlockArg.name? : BlockArg → Option String
  | .name n => some n
  | _ => Option.none

/-- The edges of a block. -/
def Block.edges {I : Type} (b : Block I) : List BlockEdge :=
  b.excEdge.toList ++ b.term.edges

/-- The names the parameters of a block bind and its edges pass. -/
def Block.edgeNames {I : Type} (b : Block I) : List String :=
  b.params.map (·.name) ++ b.edges.flatMap fun edge => edge.args.filterMap BlockArg.name?

/-- A block that was rewritten in place. -/
structure BlockAgrees (R : Runtime K) (n : Nat) (owned : Nat → Option LocalLocation) (b b' : Block (Instr X K)) : Prop where
  label : b'.label = b.label
  params : b'.params = b.params
  excEdge : b'.excEdge = b.excEdge
  exec : ∀ σ σ' : State R.World, Agree n σ σ' → (execBlock R owned b σ).Agrees n (execBlock R owned b' σ')

section

variable {f f' : BlockPyFunction (Instr X K)} {R : Runtime K} {n : Nat} {σ σ' : State R.World}

theorem locationByName_lt {s : String} {x : LocalLocation} (h : f.locationByName s = some x) : x < f.stackSlots.length :=
  (List.idxOf?_eq_some_iff.mp h).1

theorem argValue_agree (hn : f.stackSlots.length ≤ n) (hσ : Agree n σ σ') (exn : Option Value) {arg : BlockArg}
    (harg : ∀ s, arg.name? = some s → f'.locationByName s = f.locationByName s) :
    argValue f' R σ' exn arg = argValue f R σ exn arg := by
  cases arg with
  | name s =>
    rw [argValue, argValue, harg s rfl]
    cases hx : f.locationByName s with
    | none => rfl
    | some x => exact hσ.locals x (Nat.lt_of_lt_of_le (locationByName_lt hx) hn)
  | none | currentException | abruptKind kind => rfl

theorem mapM_congr_mem {α β : Type} {g g' : α → Option β} {as : List α} (h : ∀ a ∈ as, g' a = g a) :
    as.mapM g' = as.mapM g := by
  induction as with
  | nil => rfl
  | cons a as ih =>
    rw [mapM_cons, mapM_cons, h a mem_cons_self, ih fun b hb => h b (mem_cons_of_mem _ hb)]

/-- An edge fills the same slots with the same values. -/
theorem edgeValues_agree (hn : f.stackSlots.length ≤ n) (hσ : Agree n σ σ') (exn : Option Value)
    {params : List BlockParam} {args : List BlockArg}
    (hparams : ∀ p ∈ params, f'.locationByName p.name = f.locationByName p.name)
    (hargs : ∀ arg ∈ args, ∀ s, arg.name? = some s → f'.locationByName s = f.locationByName s) :
    edgeValues f' R σ' exn params args = edgeValues f R σ exn params args := by
  refine mapM_congr_mem fun pa hpa => ?_
  have hp : pa.1 ∈ params := mem_params_of_explicit hpa
  have ha : pa.2 ∈ args := (of_mem_zip hpa).2
  rw [hparams pa.1 hp, argValue_agree hn hσ exn (hargs pa.2 ha)]

theorem Agree.foldl_set (hσ : Agree n σ σ') (vs : List (LocalLocation × Value)) :
    Agree n (vs.foldl (fun σ xv => σ.set xv.1 xv.2) σ) (vs.foldl (fun σ xv => σ.set xv.1 xv.2) σ') := by
  induction vs generalizing σ σ' with
  | nil => exact hσ
  | cons xv vs ih => exact ih (hσ.set xv.1 xv.2)

/-- The block a label leads to, before and after the rewriting. -/
theorem block?_agrees {owned : Nat → Option LocalLocation} {l : BlockLabel}
    (hblocks : List.Forall₂ (BlockAgrees R n owned) f.blocks f'.blocks) :
    (f.block? l = none ∧ f'.block? l = none) ∨
      ∃ b b', f.block? l = some b ∧ f'.block? l = some b' ∧ b ∈ f.blocks ∧ BlockAgrees R n owned b b' := by
  unfold BlockPyFunction.block?
  generalize f.blocks = blocks, f'.blocks = blocks' at hblocks ⊢
  induction hblocks with
  | nil => exact .inl ⟨rfl, rfl⟩
  | @cons b b' bs bs' hb _ ih =>
    by_cases hl : b.label = l
    · refine .inr ⟨b, b', ?_, ?_, mem_cons_self, hb⟩
      · exact List.find?_cons_of_pos (by simpa using hl)
      · exact List.find?_cons_of_pos (by simpa [hb.label] using hl)
    · rw [List.find?_cons_of_neg (by simpa using hl), List.find?_cons_of_neg (by simpa [hb.label] using hl)]
      rcases ih with ih | ⟨c, c', hc, hc', hmem, hcc'⟩
      · exact .inl ih
      · exact .inr ⟨c, c', hc, hc', mem_cons_of_mem _ hmem, hcc'⟩

variable (hn : f.stackSlots.length ≤ n) (hblocks : List.Forall₂ (BlockAgrees R n f.ownedCell) f.blocks f'.blocks)
  (hnames : ∀ b ∈ f.blocks, ∀ s ∈ b.edgeNames, f'.locationByName s = f.locationByName s)
  (hcells : f'.ownedCell = f.ownedCell)

include hn hblocks hnames

theorem takeEdge_agrees (hσ : Agree n σ σ') (exn : Option Value) {b : Block (Instr X K)} (hb : b ∈ f.blocks)
    {edge : BlockEdge} (hedge : edge ∈ b.edges) :
    ConfigAgrees n (takeEdge f R σ exn edge) (takeEdge f' R σ' exn edge) := by
  unfold takeEdge
  rcases block?_agrees hblocks (l := edge.target) with ⟨h, h'⟩ | ⟨c, c', hc, hc', hmem, hcc'⟩
  · rw [h, h']
    exact .stuck
  · rw [hc, hc']
    have hvalues : edgeValues f' R σ' exn c'.params edge.args = edgeValues f R σ exn c.params edge.args := by
      rw [hcc'.params]
      refine edgeValues_agree hn hσ exn (fun p hp => ?_) fun arg harg s hs => ?_
      · exact hnames c hmem p.name (mem_append_left _ (mem_map_of_mem hp))
      · refine hnames b hb s (mem_append_right _ (mem_flatMap.mpr ⟨edge, hedge, ?_⟩))
        exact mem_filterMap.mpr ⟨arg, harg, hs⟩
    simp only [enterEdge, hvalues, hcc'.label]
    cases edgeValues f R σ exn c.params edge.args with
    | none => exact .stuck
    | some vs => exact .enter _ (hσ.foldl_set vs)

include hcells

theorem stepBlock_agrees (hσ : Agree n σ σ') {b b' : Block (Instr X K)} (hb : b ∈ f.blocks)
    (hbb' : BlockAgrees R n f.ownedCell b b') : ConfigAgrees n (stepBlock f R b σ) (stepBlock f' R b' σ') := by
  have hexec := hbb'.exec σ σ' hσ
  have hgoto : ∀ edge τ, execBlock R f.ownedCell b σ = (.ok (.goto edge), τ) → edge ∈ b.edges :=
    fun edge τ h => mem_append_right _ (execBlock_goto h)
  unfold stepBlock
  rw [hcells, hbb'.excEdge]
  generalize execBlock R f.ownedCell b σ = r at hexec hgoto ⊢
  generalize execBlock R f.ownedCell b' σ' = r' at hexec ⊢
  obtain ⟨e, τ⟩ := r
  obtain ⟨e', τ'⟩ := r'
  obtain rfl : e' = e := hexec.result
  have hτ : Agree n τ τ' := hexec.agree
  cases e' with
  | ok outcome =>
    cases outcome with
    | goto edge => exact takeEdge_agrees hn hblocks hnames hτ none hb (hgoto edge τ rfl)
    | ret v => exact .returned v hτ
    | generatorReturn v => exact .generatorReturned v hτ
  | error e =>
    cases hexc : b.excEdge with
    | none => exact .raised e hτ
    | some edge =>
      have hedge : edge ∈ b.edges := mem_append_left _ (by simp [hexc])
      exact takeEdge_agrees hn hblocks hnames hτ (some e) hb hedge

/-- One step of both frames. -/
theorem step_agrees (c c' : Config R.World) (hc : ConfigAgrees n c c') : ConfigAgrees n (c.step f R) (c'.step f' R) := by
  cases hc with
  | enter l hσ =>
    simp only [Config.step]
    rcases block?_agrees hblocks (l := l) with ⟨h, h'⟩ | ⟨b, b', hb, hb', hmem, hbb'⟩
    · rw [h, h']
      exact .stuck
    · rw [hb, hb']
      exact stepBlock_agrees hn hblocks hnames hcells hσ hmem hbb'
  | returned v hσ => exact .returned v hσ
  | generatorReturned v hσ => exact .generatorReturned v hσ
  | raised e hσ => exact .raised e hσ
  | stuck => exact .stuck

/-- Every number of steps of both frames. -/
theorem execFrame_agrees (steps : Nat) {c c' : Config R.World} (hc : ConfigAgrees n c c') :
    ConfigAgrees n (execFrame f R steps c) (execFrame f' R steps c') := by
  induction steps generalizing c c' with
  | zero => exact hc
  | succ steps ih => exact ih (step_agrees hn hblocks hnames hcells c c' hc)

end

end Soac
