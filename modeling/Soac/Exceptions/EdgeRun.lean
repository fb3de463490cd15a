import Soac.Exceptions.PendingCleanup

/-!
# What an edge delivers

The values of a frame's storage along an edge. An edge binds the parameters of its target, all at once, and a block that
only clears storage and jumps on passes control to the next edge. `Routes` follows such blocks up to a block that is named
beforehand and lists the storage cleared on the way.
-/

namespace Soac

variable {K V : Type}

/-- The values an edge can pass besides those of the frame. -/
structure PassedValues (V : Type) where
  none : V
  unbound : V
  currentException : V
  abruptKind : AbruptKind → V

variable (c : PassedValues V) (slots : List String)

/-- The value of a name of the frame. -/
def nameValue (σ : NameLocation → V) (name : String) : V :=
  match slots.idxOf? name with
  | some x => σ (.local x)
  | none => c.unbound

def passedValue (σ : NameLocation → V) : BlockArg → V
  | .name name => nameValue c slots σ name
  | .none => c.none
  | .currentException => c.currentException
  | .abruptKind kind => c.abruptKind kind

/-- The parameter that is stored at a location. -/
def IsStoredAt (loc : NameLocation) (param : BlockParam) : Prop :=
  (slots.idxOf? param.name).map NameLocation.local = some loc

instance (slots : List String) (loc : NameLocation) (param : BlockParam) : Decidable (IsStoredAt slots loc param) :=
  inferInstanceAs (Decidable (_ = _))

/-- The frame at the start of the block an edge goes to. -/
def bindParams (params : List BlockParam) (args : List BlockArg) (σ : NameLocation → V) (loc : NameLocation) : V :=
  match (explicitParams params args).find? fun pa => IsStoredAt slots loc pa.1 with
  | some pa => passedValue c slots σ pa.2
  | none => σ loc

def clearSlots (locs : List NameLocation) (σ : NameLocation → V) (loc : NameLocation) : V :=
  if loc ∈ locs then c.none else σ loc

/-- The storage an instruction clears, if that is all it does. -/
def Instr.clearedLocation : InstrResolved K → Option NameLocation
  | .mk _ (.store name) [.mk _ (.load ⟨_, .runtimeName .none⟩) []] => some name.location
  | _ => none

/-- The storage a block clears, if that is all its body does. -/
def Block.clearedLocations (b : Block (InstrResolved K)) : Option (List NameLocation) :=
  b.body.mapM Instr.clearedLocation

/-- From an edge to the block `goal`, through blocks that clear storage: what they clear in order, and the frame at the
start of `goal`. -/
inductive Routes (blocks : List (Block (InstrResolved K))) (c : PassedValues V) (slots : List String) (goal : BlockLabel) :
    BlockEdge → (NameLocation → V) → List NameLocation → (NameLocation → V) → Prop
  | arrive {edge : BlockEdge} {t : Block (InstrResolved K)} {σ : NameLocation → V} : edge.target = goal → t ∈ blocks →
      t.label = goal → Routes blocks c slots goal edge σ [] (bindParams c slots t.params edge.args σ)
  | through {edge next : BlockEdge} {b : Block (InstrResolved K)} {σ τ : NameLocation → V}
      {locs log : List NameLocation} : edge.target ≠ goal → b ∈ blocks → b.label = edge.target → b.term = .jump next →
      b.clearedLocations = some locs →
      Routes blocks c slots goal next (clearSlots c locs (bindParams c slots b.params edge.args σ)) log τ →
      Routes blocks c slots goal edge σ (locs ++ log) τ

variable {c : PassedValues V} {slots : List String} (params : List BlockParam) (σ : NameLocation → V)

/-! ## Binding and clearing -/

@[simp] theorem bindParams_nil_args : bindParams c slots params [] σ = σ := by
  funext loc
  simp [bindParams, explicitParams]

theorem nameValue_of_storedAt {param : BlockParam} {loc : NameLocation} (h : IsStoredAt slots loc param)
    (σ : NameLocation → V) : nameValue c slots σ param.name = σ loc := by
  obtain ⟨x, hx, rfl⟩ := Option.map_eq_some_iff.mp h
  simp [nameValue, hx]

theorem mem_zip_namedArgs {params : List BlockParam} {pa : BlockParam × BlockArg} (h : pa ∈ params.zip (namedArgs params)) :
    pa.2 = .name pa.1.name := by
  rw [namedArgs, ← List.map_prod_left_eq_zip] at h
  obtain ⟨_, _, rfl⟩ := List.mem_map.mp h
  rfl

/-- A list of bindings of which the later ones bind names to themselves. -/
theorem find_append_named (bound : List (BlockParam × BlockArg)) {named : List (BlockParam × BlockArg)}
    (hn : ∀ pa ∈ named, pa.2 = .name pa.1.name) (σ : NameLocation → V) (loc : NameLocation) :
    (match (bound ++ named).find? fun pa => IsStoredAt slots loc pa.1 with
      | some pa => passedValue c slots σ pa.2
      | none => σ loc) =
    match bound.find? fun pa => IsStoredAt slots loc pa.1 with
      | some pa => passedValue c slots σ pa.2
      | none => σ loc := by
  rw [List.find?_append]
  cases hb : bound.find? fun pa => IsStoredAt slots loc pa.1 with
  | some pa => rfl
  | none =>
    rw [Option.none_or]
    cases hf : named.find? fun pa => IsStoredAt slots loc pa.1 with
    | none => rfl
    | some pa =>
      have hstored : IsStoredAt slots loc pa.1 := by simpa using List.find?_some hf
      simp only [hn pa (List.mem_of_find?_eq_some hf), passedValue]
      exact nameValue_of_storedAt hstored σ

theorem explicitParams_of_le {params : List BlockParam} {args : List BlockArg} (h : params.length ≤ args.length) :
    explicitParams params args = params.zip args := by
  rw [explicitParams, Nat.sub_eq_zero_of_le h, List.drop_zero]

/-- Parameters bound to themselves change nothing. -/
@[simp] theorem bindParams_namedArgs : bindParams c slots params (namedArgs params) σ = σ := by
  funext loc
  rw [bindParams, explicitParams_of_le (by simp [namedArgs])]
  exact find_append_named [] (fun _ h => mem_zip_namedArgs h) σ loc

@[simp] theorem clearSlots_nil : clearSlots c [] σ = σ := by
  funext loc
  simp [clearSlots]

theorem clearSlots_append (locs locs' : List NameLocation) (σ : NameLocation → V) :
    clearSlots c locs' (clearSlots c locs σ) = clearSlots c (locs ++ locs') σ := by
  funext loc
  by_cases h : loc ∈ locs' <;> by_cases h' : loc ∈ locs <;> simp [clearSlots, h, h']

/-! ## Routes in a list of blocks with distinct labels -/

section Routes

variable {blocks : List (Block (InstrResolved K))} (hl : (blocks.map (·.label)).Nodup) {goal : BlockLabel}
  {edge : BlockEdge} {b : Block (InstrResolved K)} {σ τ : NameLocation → V} {log : List NameLocation}
include hl

theorem routes_arrive_iff (hb : b ∈ blocks) (hlabel : b.label = goal) (hgoal : edge.target = goal) :
    Routes blocks c slots goal edge σ log τ ↔ log = [] ∧ τ = bindParams c slots b.params edge.args σ := by
  constructor
  · intro h
    cases h with
    | arrive _ ht htl =>
      rw [List.inj_on_of_nodup_map hl ht hb (htl.trans hlabel.symm)]
      exact ⟨rfl, rfl⟩
    | through hne => exact absurd hgoal hne
  · rintro ⟨rfl, rfl⟩
    exact .arrive hgoal hb hlabel

theorem routes_through_iff (hb : b ∈ blocks) (hlabel : b.label = edge.target) (hgoal : edge.target ≠ goal)
    {next : BlockEdge} (hterm : b.term = .jump next) {locs : List NameLocation}
    (hclear : b.clearedLocations = some locs) :
    Routes blocks c slots goal edge σ log τ ↔ ∃ rest, log = locs ++ rest ∧
      Routes blocks c slots goal next (clearSlots c locs (bindParams c slots b.params edge.args σ)) rest τ := by
  constructor
  · intro h
    cases h with
    | arrive heq => exact absurd heq hgoal
    | @through _ next' b' _ _ locs' log' _ hb' hbl hterm' hclear' h =>
      obtain rfl : b' = b := List.inj_on_of_nodup_map hl hb' hb (hbl.trans hlabel.symm)
      obtain rfl : next' = next := by
        rw [hterm] at hterm'
        exact (BlockTerm.jump.inj hterm').symm
      obtain rfl : locs' = locs := by
        rw [hclear] at hclear'
        exact (Option.some.inj hclear').symm
      exact ⟨log', rfl, h⟩
  · rintro ⟨rest, rfl, h⟩
    exact .through hgoal hb hlabel hterm hclear h

end Routes

end Soac
