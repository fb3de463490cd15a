import Mathlib.Data.List.Perm.Subperm
import Soac.Facts.Infer

/-!
# The entry facts are closed

The loop of `infer_block_entry_facts` ends: an intersection that changes an entry makes some fact of it unknown. In its
result exactly the blocks that normal edges reach have an entry, the entry block has an empty one, and what an edge brings
to its target is covered by the entry there.
-/

namespace Soac

open List Function EnvFacts PyObjFacts

/-! ## An intersection loses facts -/

section

variable {F : Type} [DecidableEq F]

/-- One for a definite field, nothing for an unknown one. -/
def definite (unknown fact : F) : Nat := if fact = unknown then 0 else 1

theorem definite_le_one (u fact : F) : definite u fact ≤ 1 := by
  unfold definite
  split <;> omega

/-- A field does not get definite, and one that stays definite stays the same. -/
theorem definite_intersect (u l r : F) : definite u (intersectFact u l r) ≤ definite u l ∧
    (definite u l ≤ definite u (intersectFact u l r) → intersectFact u l r = l) := by
  unfold definite intersectFact
  split <;> split <;> simp_all

end

/-- The number of definite fields. -/
def PyObjFacts.weight (p : PyObjFacts) : Nat :=
  definite .unknown p.ty + definite .unknown p.truthiness + definite .unknown p.noneness +
    definite .unknown p.nullability + definite .unknown p.boolSingleton + definite .unknown p.refcount +
    definite .unknown p.provenance + definite .unknown p.callable

theorem PyObjFacts.weight_le (p : PyObjFacts) : p.weight ≤ 8 := by
  unfold weight
  have h1 := definite_le_one .unknown p.ty
  have h2 := definite_le_one .unknown p.truthiness
  have h3 := definite_le_one .unknown p.noneness
  have h4 := definite_le_one .unknown p.nullability
  have h5 := definite_le_one .unknown p.boolSingleton
  have h6 := definite_le_one .unknown p.refcount
  have h7 := definite_le_one .unknown p.provenance
  have h8 := definite_le_one .unknown p.callable
  omega

/-- An intersection has no more definite fields, and as many only if it changes nothing. -/
theorem PyObjFacts.weight_intersect (p q : PyObjFacts) :
    (p.intersect q).weight ≤ p.weight ∧ (p.weight ≤ (p.intersect q).weight → p.intersect q = p) := by
  obtain ⟨h1, e1⟩ := definite_intersect .unknown p.ty q.ty
  obtain ⟨h2, e2⟩ := definite_intersect .unknown p.truthiness q.truthiness
  obtain ⟨h3, e3⟩ := definite_intersect .unknown p.noneness q.noneness
  obtain ⟨h4, e4⟩ := definite_intersect .unknown p.nullability q.nullability
  obtain ⟨h5, e5⟩ := definite_intersect .unknown p.boolSingleton q.boolSingleton
  obtain ⟨h6, e6⟩ := definite_intersect .unknown p.refcount q.refcount
  obtain ⟨h7, e7⟩ := definite_intersect .unknown p.provenance q.provenance
  obtain ⟨h8, e8⟩ := definite_intersect .unknown p.callable q.callable
  simp only [weight, intersect]
  refine ⟨by omega, fun h => ?_⟩
  rw [e1 (by omega), e2 (by omega), e3 (by omega), e4 (by omega), e5 (by omega), e6 (by omega), e7 (by omega), e8 (by omega)]

/-- The entries and their definite fields. -/
def entriesWeight (es : List (LocalLocation × PyObjFacts)) : Nat :=
  (es.map fun e => e.2.weight + 1).sum

theorem entriesWeight_intersect (other : EnvFacts) (es : List (LocalLocation × PyObjFacts)) :
    entriesWeight (es.filterMap other.intersectEntry) ≤ entriesWeight es ∧
      (entriesWeight es ≤ entriesWeight (es.filterMap other.intersectEntry) → es.filterMap other.intersectEntry = es) := by
  induction es with
  | nil => simp
  | cons e es ih =>
    cases he : other.intersectEntry e with
    | none =>
      simp only [filterMap_cons, he, entriesWeight, map_cons, sum_cons] at ih ⊢
      exact ⟨by omega, fun h => by omega⟩
    | some e' =>
      have hw : e'.2.weight ≤ e.2.weight ∧ (e.2.weight ≤ e'.2.weight → e' = e) := by
        obtain ⟨x, p⟩ := e
        unfold intersectEntry at he
        split at he
        · cases he
        · rename_i q hq
          simp only at he
          split at he
          · cases he
          · obtain rfl := Option.some.inj he
            obtain ⟨h1, h2⟩ := p.weight_intersect q
            exact ⟨h1, fun h => by rw [h2 h]⟩
      simp only [filterMap_cons, he, entriesWeight, map_cons, sum_cons] at ih ⊢
      refine ⟨by omega, fun h => ?_⟩
      rw [hw.2 (by omega), ih.2 (by omega)]

def EnvFacts.weight (env : EnvFacts) : Nat := entriesWeight env.entries

/-- An intersection that changes the facts is lighter. -/
theorem EnvFacts.weight_intersectWith_lt {env other : EnvFacts} (h : env.intersectWith other ≠ env) :
    (env.intersectWith other).weight < env.weight := by
  obtain ⟨h1, h2⟩ := entriesWeight_intersect other env.entries
  by_contra hge
  apply h
  have := h2 (Nat.le_of_not_lt hge)
  cases env
  simp only [intersectWith, EnvFacts.mk.injEq]
  exact this

/-- All the facts are about the given slots. -/
def EnvFacts.On (slots : List LocalLocation) (env : EnvFacts) : Prop :=
  ∀ e ∈ env.entries, e.1 ∈ slots

/-- Facts about some slots only weigh at most nine for each. -/
theorem EnvFacts.weight_le {env : EnvFacts} {slots : List LocalLocation} (h : env.On slots) :
    env.weight ≤ 9 * slots.length := by
  have hlen : env.entries.length ≤ slots.length := by
    have hsub : env.entries.map (·.1) ⊆ slots := by
      exact forall_mem_map.mpr h
    simpa using (env.nodup.subperm hsub).length_le
  have hsum := RoundRobin.sum_map_le (l := env.entries) fun e => Nat.add_le_add_right e.2.weight_le 1
  unfold weight entriesWeight
  omega

/-! ## Facts stay on the slots that can have facts -/

section

variable {slots : List LocalLocation} {env : EnvFacts}

theorem EnvFacts.On.remove (h : env.On slots) (x : LocalLocation) : (env.remove x).On slots :=
  fun e he => h e (mem_remove.mp he).1

theorem EnvFacts.On.foldl_remove (h : env.On slots) (xs : List LocalLocation) :
    (xs.foldl EnvFacts.remove env).On slots :=
  foldlRecOn (motive := EnvFacts.On slots) xs _ h fun _ h x _ => h.remove x

theorem EnvFacts.On.set (h : env.On slots) {x : LocalLocation} (hx : x ∈ slots) (facts : PyObjFacts) :
    (env.set x facts).On slots := by
  intro e he
  rcases mem_set he with rfl | ⟨he, _⟩
  · exact hx
  · exact h e he

theorem EnvFacts.On.intersectWith (h : env.On slots) (other : EnvFacts) : (env.intersectWith other).On slots := by
  rintro ⟨x, p⟩ he
  obtain ⟨q, _, hq, _, _⟩ := mem_intersectWith he
  exact h (x, q) hq

variable (constants : List ConstantExpr)

theorem transferInstrEnv_on (h : env.On slots) {i : InstrBlockPy} (hi : ∀ x, storedSlot i = some x → x ∈ slots) :
    (transferInstrEnv constants env i).On slots := by
  have h' := h.foldl_remove i.operandTakes
  unfold transferInstrEnv transferRootEnv
  split
  · split
    · rename_i x hx
      exact h'.set (hi x hx) _
    · exact h'
  · split
    · exact h'.remove _
    · exact h'
  · split
    · exact h'.remove _
    · exact h'
  · exact h'

variable {b : Block InstrBlockPy}

theorem transferBlockEnv_on (h : env.On slots)
    (hb : ∀ i ∈ b.body, ∀ x, storedSlot i = some x → x ∈ slots) : (transferBlockEnv constants b env).On slots := by
  have hbody : (b.body.foldl (transferInstrEnv constants) env).On slots :=
    foldlRecOn (motive := EnvFacts.On slots) b.body _ h fun _ h i hi => transferInstrEnv_on constants h (hb i hi)
  exact hbody.foldl_remove _

theorem narrow_on (h : env.On slots) {x : LocalLocation} (hx : x ∈ slots) (facts : Option PyObjFacts) :
    (narrow env x facts).On slots := by
  cases facts with
  | none => exact h
  | some p => exact h.set hx p

theorem successorEnvs_on (h : env.On slots) (hb : ∀ x, narrowedSlot constants b = some x → x ∈ slots) :
    ∀ c ∈ successorEnvs constants b env, c.2.On slots := by
  unfold successorEnvs
  split
  · exact forall_mem_singleton.mpr h
  · rename_i test t e hterm
    have hif : (inferIfEdgeFacts constants test env).1.On slots ∧ (inferIfEdgeFacts constants test env).2.On slots := by
      unfold inferIfEdgeFacts
      split
      · exact ⟨h, h⟩
      · rename_i x p q hx
        have hmem := hb x (by simp [narrowedSlot, hterm, hx])
        exact ⟨narrow_on h hmem p, narrow_on h hmem q⟩
    exact forall_mem_cons.mpr ⟨hif.1, forall_mem_singleton.mpr hif.2⟩
  · exact forall_mem_append.mpr ⟨forall_mem_map.mpr fun _ _ => h, forall_mem_singleton.mpr h⟩
  all_goals exact forall_mem_nil _

/-- The targets of the normal edges, in order. -/
theorem map_fst_successorEnvs (b : Block InstrBlockPy) (env : EnvFacts) :
    (successorEnvs constants b env).map (·.1) = b.term.edges.map (·.target) := by
  unfold successorEnvs
  cases b.term <;> simp [BlockTerm.edges, comp_def]

end

/-! ## The loop -/

/-- A normal edge between two blocks. -/
def NormalEdge {I : Type} (f : BlockPyFunction I) (l l' : BlockLabel) : Prop :=
  ∃ b ∈ f.blocks, b.label = l ∧ l' ∈ b.term.edges.map (·.target)

/-- The blocks that normal edges reach from the entry block. -/
def NormalReach {X K : Type} (f : ValidFunction X K) (l : BlockLabel) : Prop :=
  Relation.ReflTransGen (NormalEdge f.toBlockPyFunction) f.entryBlock.label l

/-- What an entry has left to lose: to be reached first, or its facts. -/
def entryRank (slots : List LocalLocation) : Option EnvFacts → Nat
  | none => 9 * slots.length + 1
  | some env => env.weight

section

variable (f : ValidFunction Unit BlockPyOp) (constants : List ConstantExpr)

/-- What the loop keeps true of the entries. -/
structure EntriesInv (m : BlockLabel → Option EnvFacts) : Prop where
  entry : m f.entryBlock.label = some .empty
  reach : ∀ l env, m l = some env → NormalReach f l ∧ env.On (factSlots constants f)

/-- What is left to lose. -/
def entriesRank (m : BlockLabel → Option EnvFacts) : Nat :=
  (f.blocks.map fun b => entryRank (factSlots constants f) (m b.label)).sum

/-- What a block may bring to another one. -/
def Brings (c : BlockLabel × Option EnvFacts) : Prop :=
  c.1 ∈ f.blocks.map (·.label) ∧ NormalReach f c.1 ∧
    ∃ env, c.2 = some env ∧ env.On (factSlots constants f)

variable {f constants} {b : Block InstrBlockPy} {m : BlockLabel → Option EnvFacts} {x : LocalLocation}

theorem storedSlot_mem_factSlots (hb : b ∈ f.blocks) {i : InstrBlockPy} (hi : i ∈ b.body)
    (hx : storedSlot i = some x) : x ∈ factSlots constants f :=
  mem_flatMap.mpr ⟨b, hb, mem_append_left _ (mem_filterMap.mpr ⟨i, hi, hx⟩)⟩

variable {c : BlockLabel × Option EnvFacts}

theorem brings_of_mem (hm : EntriesInv f constants m)
    (hb : b ∈ f.blocks) (hc : c ∈ entryContributions constants b m) : Brings f constants c := by
  unfold entryContributions at hc
  split at hc
  · simp at hc
  · rename_i entry hentry
    obtain ⟨⟨l, env⟩, hmem, rfl⟩ := mem_map.mp hc
    obtain ⟨hreach, hon⟩ := hm.reach _ _ hentry
    have hl : l ∈ b.term.edges.map (·.target) := by
      rw [← map_fst_successorEnvs constants b (transferBlockEnv constants b entry)]
      exact mem_map_of_mem hmem
    refine ⟨f.targetsKnown b hb l (mem_append_right _ hl), hreach.tail ⟨b, hb, rfl, hl⟩, env, rfl, ?_⟩
    refine successorEnvs_on constants ?_ (fun x hx => mem_flatMap.mpr ⟨b, hb, mem_append_right _ (by simp [hx])⟩) _ hmem
    exact transferBlockEnv_on constants hon fun i hi x hx => storedSlot_mem_factSlots hb hi hx

/-- An entry that changes is reached first or loses a fact. -/
theorem joinEntry_rank {old : Option EnvFacts} {env : EnvFacts} {slots : List LocalLocation} (henv : env.On slots)
    (hold : ∀ e, old = some e → e.On slots) (hne : joinEntry old (some env) ≠ old) :
    ∃ new, joinEntry old (some env) = some new ∧ new.On slots ∧ new.weight < entryRank slots old := by
  cases old with
  | none => exact ⟨env, rfl, henv, Nat.lt_succ_of_le (weight_le henv)⟩
  | some e =>
    have hne' : e.intersectWith env ≠ e := fun h => hne (congrArg some h)
    exact ⟨_, rfl, (hold e rfl).intersectWith env, weight_intersectWith_lt hne'⟩

theorem entries_step (hm : EntriesInv f constants m) (hc : Brings f constants c) (hne : joinEntry (m c.1) c.2 ≠ m c.1) :
    EntriesInv f constants (Function.update m c.1 (joinEntry (m c.1) c.2)) ∧
      entriesRank f constants (Function.update m c.1 (joinEntry (m c.1) c.2)) < entriesRank f constants m := by
  obtain ⟨l, s⟩ := c
  obtain ⟨hl, hreach, env, henv, hon⟩ := hc
  subst henv
  obtain ⟨new, hnew, hnewOn, hlt⟩ := joinEntry_rank hon (fun e he => (hm.reach l e he).2) hne
  refine ⟨⟨?_, ?_⟩, ?_⟩
  · -- the entry block is never weakened: it has no facts
    have hentry : l ≠ f.entryBlock.label := by
      rintro rfl
      rw [hm.entry] at hne
      exact hne rfl
    rw [update_of_ne (Ne.symm hentry)]
    exact hm.entry
  · rw [hnew]
    refine (forall_update_iff m fun l s => ∀ env, s = some env → NormalReach f l ∧ env.On (factSlots constants f)).mpr
      ⟨?_, fun l' _ => hm.reach l'⟩
    rintro _ ⟨⟩
    exact ⟨hreach, hnewOn⟩
  · rw [hnew]
    exact RoundRobin.sum_update_lt m hl hlt

theorem entries_converges : RoundRobin.Converges joinEntry (entryContributions constants) f.blocks
    (EntriesInv f constants) (entriesRank f constants) :=
  RoundRobin.Converges.of_absorb (fun _ hm _ hb _ hc => brings_of_mem hm hb hc)
    (fun _ _ hm hc hne => entries_step hm hc hne)

variable (f constants)

theorem initialEntries_inv : EntriesInv f constants
    (fun l => if f.blocks.head?.map (·.label) = some l then some .empty else none) := by
  have hhead : f.blocks.head?.map (·.label) = some f.entryBlock.label := by
    rw [List.head?_eq_some_head f.nonempty]
    rfl
  constructor
  · simp [hhead]
  · intro l env h
    simp only [hhead] at h
    split at h
    · rename_i hl
      obtain rfl := Option.some.inj hl
      obtain rfl := Option.some.inj h
      exact ⟨Relation.ReflTransGen.refl, fun e he => absurd he not_mem_nil⟩
    · cases h

theorem entriesRank_le (hm : EntriesInv f constants m) :
    entriesRank f constants m ≤ f.blocks.length * (9 * (factSlots constants f).length + 1) := by
  refine RoundRobin.sum_map_le fun b => ?_
  cases hb : m b.label with
  | none => exact Nat.le_refl _
  | some env => exact Nat.le_succ_of_le (weight_le (hm.reach _ _ hb).2)

/-- The result of the loop keeps the invariant, and covers what every block brings. -/
theorem entryFacts_stable :
    EntriesInv f constants (inferBlockEntryFacts constants f) ∧
      ∀ b ∈ f.blocks, ∀ c ∈ entryContributions constants b (inferBlockEntryFacts constants f),
        joinEntry (inferBlockEntryFacts constants f c.1) c.2 =
          inferBlockEntryFacts constants f c.1 :=
  entries_converges.loop_stable _ _ (initialEntries_inv f constants)
    (Nat.lt_succ_of_le (entriesRank_le f constants (initialEntries_inv f constants)))

/-- What a normal edge brings to its target is covered by the entry there. -/
theorem entryFacts_covers (hb : b ∈ f.blocks) {entry : EnvFacts}
    (he : inferBlockEntryFacts constants f b.label = some entry) {l : BlockLabel} {env : EnvFacts}
    (hs : (l, env) ∈ successorEnvs constants b (transferBlockEnv constants b entry)) :
    ∃ e, inferBlockEntryFacts constants f l = some e ∧ e.intersectWith env = e := by
  have hmem : (l, some env) ∈ entryContributions constants b (inferBlockEntryFacts constants f) := by
    rw [entryContributions, he]
    exact mem_map.mpr ⟨(l, env), hs, rfl⟩
  have hjoin := (entryFacts_stable f constants).2 b hb _ hmem
  cases hl : inferBlockEntryFacts constants f l with
  | none => rw [hl] at hjoin; cases hjoin
  | some e =>
    rw [hl] at hjoin
    exact ⟨e, rfl, Option.some.inj hjoin⟩

/-- Every block that normal edges reach has an entry. -/
theorem entryFacts_of_reach {l : BlockLabel} (h : NormalReach f l) :
    ∃ e, inferBlockEntryFacts constants f l = some e := by
  induction h with
  | refl => exact ⟨_, (entryFacts_stable f constants).1.entry⟩
  | tail _ hedge ih =>
    obtain ⟨e, he⟩ := ih
    obtain ⟨b, hb, rfl, hl⟩ := hedge
    rw [← map_fst_successorEnvs constants b (transferBlockEnv constants b e)] at hl
    obtain ⟨⟨l, env⟩, hmem, rfl⟩ := mem_map.mp hl
    obtain ⟨e', he', _⟩ := entryFacts_covers f constants hb he hmem
    exact ⟨e', he'⟩

end

end Soac
