import Soac.Semantics.Eval

/-!
# Facts about values

What the optimizer can know of the object in a local: `PyObjFacts`, one field per kind of fact, each of them unknown or
definite. `EnvFacts` maps locals to their facts and keeps no entry that says nothing. Facts of two paths are intersected
field by field. Only facts about objects occur here; the facts about machine integers are made by later passes.
-/

namespace Soac

open List

inductive TruthinessFact where
  | unknown | alwaysTrue | alwaysFalse
deriving DecidableEq, Repr

inductive TypeFact where
  | unknown | exact (t : PyExactType)
deriving DecidableEq, Repr

inductive RuntimeSingleton where
  | none | true | false
deriving DecidableEq, Repr

inductive NoneFact where
  | unknown | isNone | isNotNone
deriving DecidableEq, Repr

inductive PyObjectNullabilityFact where
  | unknown | nonNull
deriving DecidableEq, Repr

inductive BoolSingletonFact where
  | unknown | isTrue | isFalse
deriving DecidableEq, Repr

inductive RefcountFact where
  | unknown | immortal
deriving DecidableEq, Repr

inductive ProvenanceFact where
  | unknown | runtimeSingleton (s : RuntimeSingleton) | moduleConstant (index : Nat)
deriving DecidableEq, Repr

inductive CallableFact where
  | unknown | runtimeHelper (helper : RuntimeHelperId)
deriving DecidableEq, Repr

structure PyObjFacts where
  ty : TypeFact := .unknown
  truthiness : TruthinessFact := .unknown
  noneness : NoneFact := .unknown
  nullability : PyObjectNullabilityFact := .unknown
  boolSingleton : BoolSingletonFact := .unknown
  refcount : RefcountFact := .unknown
  provenance : ProvenanceFact := .unknown
  callable : CallableFact := .unknown
deriving DecidableEq, Repr

/-! ## The facts of particular values -/

def truthiness (isTruthy : Bool) : TruthinessFact :=
  if isTruthy then .alwaysTrue else .alwaysFalse

def noneFactForExactType : PyExactType → NoneFact
  | .noneType => .isNone
  | _ => .isNotNone

namespace PyObjFacts

def unknown : PyObjFacts := {}

def noneSingleton : PyObjFacts where
  ty := .exact .noneType
  truthiness := .alwaysFalse
  noneness := .isNone
  nullability := .nonNull
  refcount := .immortal
  provenance := .runtimeSingleton .none

/-- `bool_singleton`. -/
def ofBool (value : Bool) : PyObjFacts where
  ty := .exact .bool
  truthiness := Soac.truthiness value
  noneness := .isNotNone
  nullability := .nonNull
  boolSingleton := if value then .isTrue else .isFalse
  refcount := .immortal
  provenance := .runtimeSingleton (if value then .true else .false)

def boolObject : PyObjFacts where
  ty := .exact .bool
  noneness := .isNotNone
  nullability := .nonNull
  refcount := .immortal

def exactType (t : PyExactType) : PyObjFacts where
  ty := .exact t
  noneness := noneFactForExactType t
  nullability := .nonNull

def exactTypeWithTruthiness (t : PyExactType) (truth : TruthinessFact) : PyObjFacts :=
  { exactType t with truthiness := truth }

def moduleConstant (index : Nat) : PyObjFacts where
  provenance := .moduleConstant index

variable (facts : PyObjFacts)

def withModuleConstant (index : Nat) : PyObjFacts :=
  { facts with provenance := .moduleConstant index }

def withImmortalRefcount : PyObjFacts :=
  { facts with refcount := .immortal }

def runtimeHelper (helper : RuntimeHelperId) : PyObjFacts where
  truthiness := .alwaysTrue
  noneness := .isNotNone
  nullability := .nonNull
  callable := .runtimeHelper helper

def knownNotNone : PyObjFacts where
  noneness := .isNotNone
  nullability := .nonNull

def isNone (facts : PyObjFacts) : Bool := facts.noneness == .isNone

def isTrueSingleton : Bool := facts.boolSingleton == .isTrue

def isFalseSingleton : Bool := facts.boolSingleton == .isFalse

def isExactType (expected : PyExactType) : Bool := facts.ty == .exact expected

def isImmortal : Bool := facts.refcount == .immortal

/-- Where an object comes from is not worth an entry by itself. -/
def isUninformativeForLocalEnv : Bool :=
  facts.ty == .unknown && facts.truthiness == .unknown && facts.noneness == .unknown &&
    facts.nullability == .unknown && facts.boolSingleton == .unknown && facts.refcount == .unknown &&
    facts.callable == .unknown

/-- One field of an intersection: what both sides say, unknown where they differ. -/
def intersectFact {F : Type} [DecidableEq F] (unknown left right : F) : F :=
  if left = right then left else unknown

def intersect (other : PyObjFacts) : PyObjFacts where
  ty := intersectFact .unknown facts.ty other.ty
  truthiness := intersectFact .unknown facts.truthiness other.truthiness
  noneness := intersectFact .unknown facts.noneness other.noneness
  nullability := intersectFact .unknown facts.nullability other.nullability
  boolSingleton := intersectFact .unknown facts.boolSingleton other.boolSingleton
  refcount := intersectFact .unknown facts.refcount other.refcount
  provenance := intersectFact .unknown facts.provenance other.provenance
  callable := intersectFact .unknown facts.callable other.callable

end PyObjFacts

/-- `runtime_helper_result`: what a helper is declared to return. -/
def RuntimeHelperId.result : RuntimeHelperId → PyObjFacts
  | .index => .exactType .int
  | .str => .exactType .str
  | _ => .knownNotNone

/-! ## Facts of locals -/

/-- The facts of the locals, at most one entry for each. -/
structure EnvFacts where
  entries : List (LocalLocation × PyObjFacts)
  nodup : (entries.map (·.1)).Nodup
deriving DecidableEq

namespace EnvFacts

def empty : EnvFacts := ⟨[], List.nodup_nil⟩

/-- `local_pyobj_fact`. -/
def get? (env : EnvFacts) (x : LocalLocation) : Option PyObjFacts :=
  (env.entries.find? (·.1 = x)).map (·.2)

/-- `remove_local_pyobj_fact`. -/
def remove (env : EnvFacts) (x : LocalLocation) : EnvFacts where
  entries := env.entries.filter (·.1 ≠ x)
  nodup := env.nodup.sublist (List.Sublist.map _ List.filter_sublist)

/-- `set_local_pyobj_fact`: facts that say nothing are not kept. -/
def set (env : EnvFacts) (x : LocalLocation) (facts : PyObjFacts) : EnvFacts where
  entries := if facts.isUninformativeForLocalEnv then (env.remove x).entries else (x, facts) :: (env.remove x).entries
  nodup := by
    split
    · exact (env.remove x).nodup
    · rw [List.map_cons, List.nodup_cons]
      refine ⟨?_, (env.remove x).nodup⟩
      simp [remove]

/-- What is kept of one entry by an intersection. -/
def intersectEntry (other : EnvFacts) (entry : LocalLocation × PyObjFacts) : Option (LocalLocation × PyObjFacts) :=
  match other.get? entry.1 with
  | none => none
  | some facts =>
    let both := entry.2.intersect facts
    if both.isUninformativeForLocalEnv then none else some (entry.1, both)

variable {entry : LocalLocation × PyObjFacts} {env : EnvFacts} {x : LocalLocation} {facts : PyObjFacts}

theorem intersectEntry_fst {other : EnvFacts} {entry' : LocalLocation × PyObjFacts}
    (h : other.intersectEntry entry = some entry') : entry'.1 = entry.1 := by
  unfold intersectEntry at h
  split at h
  · cases h
  · simp only at h
    split at h
    · cases h
    · rw [← Option.some.inj h]

theorem map_fst_filterMap_sublist (other : EnvFacts) (es : List (LocalLocation × PyObjFacts)) :
    ((es.filterMap other.intersectEntry).map (·.1)).Sublist (es.map (·.1)) := by
  induction es with
  | nil => exact List.Sublist.refl _
  | cons e es ih =>
    cases he : other.intersectEntry e with
    | none => simpa [filterMap_cons, he] using ih.trans (sublist_cons_self _ _)
    | some e' => simpa [filterMap_cons, he, intersectEntry_fst he] using ih

def intersectWith (env other : EnvFacts) : EnvFacts where
  entries := env.entries.filterMap other.intersectEntry
  nodup := env.nodup.sublist (map_fst_filterMap_sublist other env.entries)

/-! ### Entries -/

theorem mem_of_get? (h : env.get? x = some facts) : (x, facts) ∈ env.entries := by
  rw [get?, Option.map_eq_some_iff] at h
  obtain ⟨⟨y, g⟩, hfind, rfl⟩ := h
  have hy : y = x := by simpa using List.find?_some hfind
  rw [← hy]
  exact mem_of_find?_eq_some hfind

theorem mem_remove : entry ∈ (env.remove x).entries ↔ entry ∈ env.entries ∧ entry.1 ≠ x := by
  simp [remove]

theorem mem_set (h : entry ∈ (env.set x facts).entries) : entry = (x, facts) ∨ entry ∈ env.entries ∧ entry.1 ≠ x := by
  simp only [set] at h
  split at h
  · exact .inr (mem_remove.mp h)
  · exact (mem_cons.mp h).imp id mem_remove.mp

theorem mem_intersectWith {other : EnvFacts} (h : (x, facts) ∈ (env.intersectWith other).entries) :
    ∃ f g, (x, f) ∈ env.entries ∧ (x, g) ∈ other.entries ∧ facts = f.intersect g := by
  obtain ⟨⟨y, f⟩, hmem, he⟩ := mem_filterMap.mp h
  have hy : x = y := intersectEntry_fst he
  subst hy
  unfold intersectEntry at he
  split at he
  · cases he
  · rename_i g hg
    simp only at he
    split at he
    · cases he
    · refine ⟨f, g, hmem, mem_of_get? hg, ?_⟩
      exact (congrArg Prod.snd (Option.some.inj he)).symm

end EnvFacts

end Soac
