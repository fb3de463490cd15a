import Soac.Theorems.ReferenceClosure

/-!
# The catalog of classes

Inheritance in a catalog is checked by a search with an explicit stack. It fails exactly if classes inherit from each other in
a circle. The owner of a method is the first class without a scope between; where scopes are nested or disjoint, that is the
innermost scope.
-/

namespace Soac.Contracts

open List Relation

/-! ## Inheritance without cycles -/

section

variable (keys : List SourceIdentity) (bases : SourceIdentity → List SourceIdentity)

/-- What holds between two turns of the loop. -/
structure Visiting (s : VisitState) (stack : List Visit) : Prop where
  inKeys : ∀ v ∈ stack, v.identity ∈ keys
  /-- A class that is being visited inherits from all that stands above it. -/
  inherits : stack.Pairwise fun w u => u.exiting → TransGen (fun a b => b ∈ bases a) u.identity w.identity
  known : ∀ id ∈ keys, id ∈ s.fresh ∨ id ∈ s.left ∨ ∃ u ∈ stack, u.exiting ∧ u.identity = id
  /-- Its bases are done or stand above it. -/
  pushed : ∀ above u rest, stack = above ++ u :: rest → u.exiting → ∀ b ∈ bases u.identity,
    b ∈ s.left ∨ b ∈ above.map Visit.identity
  left : ∀ id ∈ s.left, Acc (fun b a => b ∈ bases a) id

/-- What the loop makes of the state: a cycle for an error, and otherwise everything on the stack is left. -/
def VisitOutcome (start : List SourceIdentity) : Except ContractError VisitState → Prop
  | .error _ => ∃ a, TransGen (fun a b => b ∈ bases a) a a
  | .ok s => Visiting keys bases s [] ∧ ∀ id ∈ start, id ∈ s.left

variable {keys bases} {s : VisitState} {stack : List Visit} {v : Visit}

theorem VisitOutcome.mono {start start' : List SourceIdentity} {r : Except ContractError VisitState}
    (h : VisitOutcome keys bases start r) (hs : ∀ id ∈ start', id ∈ start) : VisitOutcome keys bases start' r := by
  cases r with
  | error e => exact h
  | ok s => exact ⟨h.1, fun id hid => h.2 id (hs id hid)⟩

namespace Visiting

/-- The top is taken off once its class is left. -/
theorem pop (h : Visiting keys bases s (v :: stack)) {left : List SourceIdentity} (hv : v.identity ∈ left)
    (hs : ∀ id ∈ s.left, id ∈ left) (hleft : ∀ id ∈ left, Acc (fun b a => b ∈ bases a) id) :
    Visiting keys bases { s with left } stack where
  inKeys := (forall_mem_cons.mp h.inKeys).2
  inherits := h.inherits.of_cons
  known id hid := by
    have := h.known id hid
    grind
  pushed above u rest hstack hu b hb := by
    have := h.pushed (v :: above) u rest (congrArg (v :: ·) hstack) hu b hb
    grind
  left := hleft

/-- All bases of a class whose visit ends are left. -/
theorem exit (h : Visiting keys bases s (v :: stack)) (hv : v.exiting) :
    Visiting keys bases { s with left := v.identity :: s.left } stack := by
  refine h.pop mem_cons_self (fun _ => mem_cons_of_mem _) (forall_mem_cons.mpr ⟨.intro _ fun b hb => ?_, h.left⟩)
  have hpushed := h.pushed [] v stack rfl hv b hb
  exact h.left b (by simpa using hpushed)

/-- A class that is neither fresh nor left stands below itself. -/
theorem cycle (h : Visiting keys bases s (v :: stack)) (hv : ¬v.exiting) (hl : v.identity ∉ s.left)
    (hf : v.identity ∉ s.fresh) : TransGen (fun a b => b ∈ bases a) v.identity v.identity := by
  rcases h.known _ (h.inKeys v mem_cons_self) with hfresh | hleft | ⟨u, hu, hexiting, hid⟩
  · exact absurd hfresh hf
  · exact absurd hleft hl
  · rcases mem_cons.mp hu with rfl | hu
    · exact absurd hexiting hv
    · have hinherits := (pairwise_cons.mp h.inherits).1 u hu hexiting
      rwa [hid] at hinherits

/-- A fresh class is entered, with its bases above it. -/
theorem enter (h : Visiting keys bases s (v :: stack)) (hkeys : ∀ a, ∀ b ∈ bases a, b ∈ keys) (hv : ¬v.exiting) :
    Visiting keys bases { s with fresh := s.fresh.erase v.identity }
      ((bases v.identity).map (⟨·, false⟩) ++ ⟨v.identity, true⟩ :: stack) where
  inKeys := by
    have := h.inKeys
    have := hkeys v.identity
    grind
  inherits := by
    obtain ⟨htop, hrest⟩ := pairwise_cons.mp h.inherits
    refine pairwise_append.mpr ⟨pairwise_map.mpr (pairwise_of_forall fun _ _ => nofun), ?_, ?_⟩
    · exact pairwise_cons.mpr ⟨htop, hrest⟩
    · intro w hw u hu hexiting
      obtain ⟨b, hb, rfl⟩ := mem_map.mp hw
      rcases mem_cons.mp hu with rfl | hu
      · exact .single hb
      · exact .tail (htop u hu hexiting) hb
  known id hid := by
    by_cases hv : id = v.identity
    · exact .inr (.inr ⟨⟨v.identity, true⟩, by simp, rfl, hv.symm⟩)
    · have := h.known id hid
      grind
  pushed above u rest hstack hu b hb := by
    rcases append_eq_append_iff.mp hstack with ⟨above', rfl, hrest⟩ | ⟨above', habove, hrest⟩
    · cases above' with
      | nil =>
        cases hrest
        exact .inr (by simpa using hb)
      | cons w above' =>
        cases hrest
        have := h.pushed (v :: above') u rest rfl hu b hb
        grind
    · cases above' with
      | nil =>
        cases hrest
        rw [append_nil] at habove
        exact .inr (by simpa [← habove] using hb)
      | cons w above' =>
        cases hrest
        have hw : u ∈ (bases v.identity).map (⟨·, false⟩) := by simp [habove]
        obtain ⟨_, _, rfl⟩ := mem_map.mp hw
        cases hu
  left := h.left

end Visiting

variable (hkeys : ∀ a, ∀ b ∈ bases a, b ∈ keys)

include hkeys

theorem visitBases_outcome {fuel : Nat} {r : Except ContractError VisitState} (h : Visiting keys bases s stack)
    (hr : visitBases bases fuel s stack = some r) : VisitOutcome keys bases (s.left ++ stack.map Visit.identity) r := by
  fun_induction visitBases bases fuel s stack with
  | case1 => cases hr
  | case2 =>
    cases hr
    exact ⟨h, fun id hid => by simpa using hid⟩
  | case3 s fuel v stack hv ih => exact (ih (h.exit hv) hr).mono (by grind)
  | case4 s fuel v stack hv hl ih => exact (ih (h.pop hl (fun _ => id) h.left) hr).mono (by grind)
  | case5 s fuel v stack hv hl hf =>
    cases hr
    exact ⟨_, h.cycle hv hl hf⟩
  | case6 s fuel v stack hv hl hf ih => exact (ih (h.enter hkeys hv) hr).mono (by grind)

/-- The loop over the classes. -/
theorem visitClasses_outcome {ids : List SourceIdentity} (h : Visiting keys bases s []) (hids : ∀ id ∈ ids, id ∈ keys) :
    VisitOutcome keys bases (s.left ++ ids) (ids.foldlM (fun s id =>
      if id ∈ s.left then .ok s
      else (visitBases bases (visitBound bases s [⟨id, false⟩] + 1) s [⟨id, false⟩]).getD (.ok s)) s) := by
  induction ids generalizing s with
  | nil => exact ⟨h, fun id hid => by simpa using hid⟩
  | cons id ids ih =>
    obtain ⟨hid, hids⟩ := forall_mem_cons.mp hids
    rw [foldlM_cons]
    split
    · next hl => exact (ih h hids).mono (by grind)
    · have hstart : Visiting keys bases s [⟨id, false⟩] := by
        refine ⟨by simpa using hid, pairwise_singleton _ _, fun id' hid' => ?_, fun above u rest hstack hu => ?_, h.left⟩
        · have := h.known id' hid'
          grind
        · have hmem : u ∈ [⟨id, false⟩] := by simp [hstack]
          cases mem_singleton.mp hmem
          cases hu
      obtain ⟨r, hr⟩ := Option.ne_none_iff_exists'.mp (visitBases_ne_none (Nat.lt_succ_self (visitBound bases s _)))
      have houtcome := visitBases_outcome hkeys hstart hr
      rw [hr]
      cases r with
      | error e => exact houtcome
      | ok s' => exact (ih houtcome.1 hids).mono (by have := houtcome.2; grind)

end

namespace Context

variable (ctx : Context)

/-- The class lists another class of the catalog among its direct bases. -/
def Inherits (a b : SourceIdentity) : Prop :=
  ∃ c ∈ ctx.facts.classes, c.identity = a ∧ (∃ base ∈ c.bases.filterMap BaseReference.asClass, base.definition = b) ∧
    ∃ d ∈ ctx.facts.classes, d.identity = b

variable {ctx}

theorem mem_localBases (h : (ctx.facts.classes.map (·.identity)).Nodup) {a b : SourceIdentity} :
    b ∈ ctx.localBases a ↔ ctx.Inherits a b := by
  simp only [localBases, Inherits, mem_filter, mem_flatMap, mem_map, Option.mem_toList, Option.isSome_iff_exists,
    class?, Fallible.find?_key_eq_some_iff h]
  grind

/-- The check fails exactly if there is a cycle. -/
theorem inheritanceGraph_error_iff (h : (ctx.facts.classes.map (·.identity)).Nodup) :
    (∃ e, ctx.inheritanceGraph = .error e) ↔ ∃ a, TransGen ctx.Inherits a a := by
  have hinherits : ctx.Inherits = fun a b => b ∈ ctx.localBases a := by
    ext a b
    exact (mem_localBases h).symm
  have hkeys : ∀ a, ∀ b ∈ ctx.localBases a, b ∈ ctx.classKeys :=
    fun a b hb => mem_sortBy.mpr (mem_map.mpr ((mem_localBases h).mp hb).choose_spec.2.2.2)
  have hstart : Visiting ctx.classKeys ctx.localBases { fresh := ctx.classKeys, left := [] } [] :=
    ⟨nofun, .nil, fun _ => .inl, by simp, nofun⟩
  obtain ⟨r, hgraph, houtcome⟩ : ∃ r, ctx.inheritanceGraph = r >>= (fun _ => .ok ()) ∧
      VisitOutcome ctx.classKeys ctx.localBases ctx.classKeys r :=
    ⟨_, rfl, visitClasses_outcome hkeys hstart fun _ => id⟩
  rw [hgraph, hinherits]
  cases r with
  | error e => exact ⟨fun _ => houtcome, fun _ => ⟨e, rfl⟩⟩
  | ok s =>
    obtain ⟨hvisiting, hall⟩ := houtcome
    refine ⟨fun ⟨e, he⟩ => (by cases he), fun ⟨a, ha⟩ => ?_⟩
    -- A class on a cycle is in the catalog, and so it was left.
    obtain ⟨c, -, hc⟩ := TransGen.tail'_iff.mp ha
    have hacc := (hvisiting.left a (hall a (hkeys c a hc))).transGen
    rw [← transGen_swap] at ha
    induction hacc with
    | intro a _ ih => exact ih a ha ha hc

/-- Classes of one module by their number, with the numbers of their bases. -/
def hierarchy (classes : List (Nat × List Nat)) : Context where
  facts := { sampleFacts with
    classes := sampleFacts.classes.flatMap fun c => classes.map fun (n, bases) => { c with
      identity := { sampleClass with sourceRange := ⟨n, n + 1⟩ }
      bases := bases.map fun b => .ofClass ⟨{ sampleClass with sourceRange := ⟨b, b + 1⟩ }, 7⟩ } }
  source := none

/-- A diamond, in which `0` is pending twice, is accepted and has no cycle; the check finds the cycle of three classes. -/
theorem inheritanceGraph_error_iff_sample :
    (hierarchy [(3, [1, 2]), (1, [0]), (2, [0]), (0, [])]).inheritanceGraph = .ok () ∧
    (¬∃ a, TransGen (hierarchy [(3, [1, 2]), (1, [0]), (2, [0]), (0, [])]).Inherits a a) ∧
    ∃ a, TransGen (hierarchy [(0, [2, 3]), (1, [0]), (2, [1]), (3, [])]).Inherits a a := by
  have hdiamond : (hierarchy [(3, [1, 2]), (1, [0]), (2, [0]), (0, [])]).inheritanceGraph = .ok () := by decide +kernel
  have hcycle : (hierarchy [(0, [2, 3]), (1, [0]), (2, [1]), (3, [])]).inheritanceGraph =
      .error (structure_ "cyclic logical class inheritance") := by decide +kernel
  refine ⟨hdiamond, fun h => ?_, (inheritanceGraph_error_iff (by decide +kernel)).mp ⟨_, hcycle⟩⟩
  obtain ⟨e, he⟩ := (inheritanceGraph_error_iff (by decide +kernel)).mpr h
  cases hdiamond.symm.trans he

end Context

/-! ## Lexical owners -/

/-- The scope lies between the class and the source. -/
def interveningScope (class_ source scope : SourceIdentity) : Bool :=
  scope.module_ = source.module_ && scope.sourceRange ≠ class_.sourceRange && scope.sourceRange ≠ source.sourceRange &&
    class_.sourceRange.contains scope.sourceRange && scope.sourceRange.contains source.sourceRange

namespace ModuleTypeFacts

variable (facts : ModuleTypeFacts) (source : SourceIdentity)

/-- The functions and lambdas of the module that the catalog has. -/
def hasFunction : Bool :=
  source.module_ = facts.module_ && (source.definitionKind = .function || source.definitionKind = .lambda) &&
    facts.functions.any (·.identity = source)

/-- The class contains the source, and no scope lies between. -/
def owns (c : SourceIdentity) : Bool :=
  c.module_ = source.module_ && c.definitionKind = .class_ && c.sourceRange ≠ source.sourceRange &&
    c.sourceRange.contains source.sourceRange && !facts.classes.any (interveningScope c source ·.identity) &&
    !facts.functions.any (interveningScope c source ·.identity)

def sourceClassOwner : Option ClassTypeFact :=
  if !facts.hasFunction source then none else facts.classes.find? (facts.owns source ·.identity)

/-- The classes and functions of the module. -/
def scopes : List SourceIdentity :=
  (facts.classes.map (·.identity) ++ facts.functions.map (·.identity)).filter (·.module_ = facts.module_)

/-- The ranges of the scopes are distinct, and any two are nested or disjoint. -/
structure Laminar : Prop where
  distinct : (facts.scopes.map (·.sourceRange)).Nodup
  nested : ∀ a ∈ facts.scopes, ∀ b ∈ facts.scopes, a.sourceRange.contains b.sourceRange ∨
    b.sourceRange.contains a.sourceRange ∨ a.sourceRange.stop ≤ b.sourceRange.start ∨ b.sourceRange.stop ≤ a.sourceRange.start

/-- The scope contains the source and is not the source itself. -/
def Encloses (scope : SourceIdentity) : Prop :=
  scope ∈ facts.scopes ∧ scope.sourceRange ≠ source.sourceRange ∧ scope.sourceRange.contains source.sourceRange

/-- Every other scope around the source is around this one. -/
def Innermost (scope : SourceIdentity) : Prop :=
  facts.Encloses source scope ∧ ∀ other, facts.Encloses source other → other.sourceRange.contains scope.sourceRange

/-- A function of the catalog has a class as its innermost scope. -/
def IsOwner (c : ClassTypeFact) : Prop :=
  facts.hasFunction source ∧ c ∈ facts.classes ∧ c.identity.definitionKind = .class_ ∧ facts.Innermost source c.identity

variable {facts source}

theorem mem_scopes {scope : SourceIdentity} : scope ∈ facts.scopes ↔ scope.module_ = facts.module_ ∧
    ((∃ c ∈ facts.classes, c.identity = scope) ∨ ∃ f ∈ facts.functions, f.identity = scope) := by
  simp only [scopes, mem_filter, mem_append, mem_map, decide_eq_true_eq]
  exact and_comm

theorem contains_iff {r other : SourceRange} : r.contains other ↔ r.start ≤ other.start ∧ other.stop ≤ r.stop := by
  simp [SourceRange.contains]

theorem contains_antisymm {a b : SourceRange} (hab : a.contains b) (hba : b.contains a) : a = b := by
  rw [contains_iff] at hab hba
  cases a
  cases b
  simp only [SourceRange.mk.injEq] at *
  omega

theorem owns_iff (hmodule : source.module_ = facts.module_) {c : ClassTypeFact} (hc : c ∈ facts.classes) :
    facts.owns source c.identity ↔ c.identity.definitionKind = .class_ ∧ facts.Encloses source c.identity ∧
      ∀ other, facts.Encloses source other → c.identity.sourceRange.contains other.sourceRange →
        other.sourceRange = c.identity.sourceRange := by
  simp only [owns, Encloses, mem_scopes, interveningScope, hmodule, Bool.and_eq_true, Bool.not_eq_true', any_eq_false,
    decide_eq_true_eq, ne_eq]
  grind

variable (h : facts.Laminar) (hsource : source.sourceRange.start < source.sourceRange.stop)

include h

theorem Innermost.unique {a b : SourceIdentity} (ha : facts.Innermost source a) (hb : facts.Innermost source b) : a = b :=
  inj_on_of_nodup_map h.distinct ha.1.1 hb.1.1 (contains_antisymm (ha.2 b hb.1) (hb.2 a ha.1)).symm

include hsource

/-- Around a source that is not empty the scopes are nested. -/
theorem innermost_iff {scope : SourceIdentity} : facts.Innermost source scope ↔ facts.Encloses source scope ∧
    ∀ other, facts.Encloses source other → scope.sourceRange.contains other.sourceRange →
      other.sourceRange = scope.sourceRange := by
  refine and_congr_right fun hscope => forall_congr' fun other => forall_congr' fun hother => ?_
  constructor
  · exact fun houter hinner => contains_antisymm houter hinner
  · intro hinner
    rcases h.nested scope hscope.1 other hother.1 with hin | hout | hdisjoint
    · rw [hinner hin]
      exact contains_iff.mpr ⟨Nat.le_refl _, Nat.le_refl _⟩
    · exact hout
    · have hcontains := contains_iff.mp hscope.2.2
      have hcontains' := contains_iff.mp hother.2.2
      omega

theorem sourceClassOwner_eq_some_iff {c : ClassTypeFact} : facts.sourceClassOwner source = some c ↔
    facts.IsOwner source c := by
  unfold IsOwner
  cases hf : facts.hasFunction source with
  | false => simp [sourceClassOwner, hf]
  | true =>
    simp only [hasFunction, Bool.and_eq_true, decide_eq_true_eq] at hf
    have howns : ∀ c ∈ facts.classes, facts.owns source c.identity ↔
        c.identity.definitionKind = .class_ ∧ facts.Innermost source c.identity := by
      intro c hc
      rw [owns_iff hf.1.1 hc, innermost_iff h hsource]
    have hdistinct : ((facts.classes.filter (·.identity.module_ = facts.module_)).map (·.identity.sourceRange)).Nodup := by
      have hdistinct := h.distinct
      rw [scopes, filter_append, map_append, filter_map, List.map_map] at hdistinct
      exact hdistinct.of_append_left
    have hunique : ∀ a ∈ facts.classes, facts.owns source a.identity → ∀ b ∈ facts.classes, facts.owns source b.identity →
        a = b := by
      intro a ha hpa b hb hpb
      have hina := ((howns a ha).mp hpa).2
      have hinb := ((howns b hb).mp hpb).2
      refine inj_on_of_nodup_map hdistinct ?_ ?_ (congrArg SourceIdentity.sourceRange (hina.unique h hinb))
      · exact mem_filter.mpr ⟨ha, decide_eq_true (mem_scopes.mp hina.1.1).1⟩
      · exact mem_filter.mpr ⟨hb, decide_eq_true (mem_scopes.mp hinb.1.1).1⟩
    rw [sourceClassOwner, if_neg (by simp [hasFunction, hf]), Fallible.find?_eq_some_iff_of_unique hunique]
    simp only [true_and]
    exact and_congr_right fun hc => howns c hc

omit h hsource in
theorem Laminar.perm {facts' : ModuleTypeFacts} (h : facts.Laminar) (hs : facts'.scopes ~ facts.scopes) : facts'.Laminar :=
  ⟨(hs.map _).nodup_iff.mpr h.distinct, fun a ha b hb => h.nested a (hs.mem_iff.mp ha) b (hs.mem_iff.mp hb)⟩

/-- The owner is the innermost scope if that is a class; there is at most one, in whatever order the catalogs are. -/
theorem sourceClassOwner_innermost :
    (∀ c, facts.sourceClassOwner source = some c ↔ facts.IsOwner source c) ∧
      (∀ a b, facts.Innermost source a → facts.Innermost source b → a = b) ∧
      ∀ facts' : ModuleTypeFacts, facts'.module_ = facts.module_ → facts'.classes ~ facts.classes →
        facts'.functions ~ facts.functions → facts'.sourceClassOwner source = facts.sourceClassOwner source := by
  refine ⟨fun c => sourceClassOwner_eq_some_iff h hsource, fun a b ha hb => ha.unique h hb, ?_⟩
  intro facts' hmodule hclasses hfunctions
  have hscopes : facts'.scopes ~ facts.scopes := by
    rw [scopes, scopes, hmodule]
    exact ((hclasses.map _).append (hfunctions.map _)).filter _
  have hfunction : facts'.hasFunction source = facts.hasFunction source := by
    rw [hasFunction, hasFunction, hmodule, hfunctions.any_eq]
  ext c
  rw [sourceClassOwner_eq_some_iff (h.perm hscopes) hsource, sourceClassOwner_eq_some_iff h hsource]
  simp only [IsOwner, hfunction, hclasses.mem_iff, Innermost, Encloses, hscopes.mem_iff]

end ModuleTypeFacts

open ModuleTypeFacts

/-- A scope of the sample module. -/
def scopeAt (start stop : Nat) (kind : DefinitionKind) : SourceIdentity :=
  ⟨⟨"m", 1⟩, "", ⟨start, stop⟩, kind⟩

/-- A class with a function in which there are a class with a method and another function. -/
def nestedFacts : ModuleTypeFacts :=
  { sampleFacts with
    classes := sampleFacts.classes.flatMap fun c =>
      [{ c with identity := scopeAt 20 60 .class_ }, { c with identity := scopeAt 0 90 .class_ }]
    functions := (sampleFacts.functions.take 1).flatMap fun f =>
      [(10, 80), (30, 40), (65, 70)].map fun (start, stop) => { f with identity := scopeAt start stop .function } }

/-- The method belongs to the inner class, the function around that class to the outer one, and the other function to
none: a function is around it first. -/
theorem sourceClassOwner_innermost_sample :
    (nestedFacts.sourceClassOwner (scopeAt 30 40 .function)).map (·.identity) = some (scopeAt 20 60 .class_) ∧
    (nestedFacts.sourceClassOwner (scopeAt 10 80 .function)).map (·.identity) = some (scopeAt 0 90 .class_) ∧
    nestedFacts.sourceClassOwner (scopeAt 65 70 .function) = none ∧
    (∀ c, nestedFacts.sourceClassOwner (scopeAt 30 40 .function) = some c ↔
      nestedFacts.IsOwner (scopeAt 30 40 .function) c) ∧
    ∀ c, ¬nestedFacts.IsOwner (scopeAt 65 70 .function) c := by
  have hlaminar : nestedFacts.Laminar := ⟨by decide +kernel, by decide +kernel⟩
  have hnone : nestedFacts.sourceClassOwner (scopeAt 65 70 .function) = none := by decide +kernel
  refine ⟨by decide +kernel, by decide +kernel, hnone, (sourceClassOwner_innermost hlaminar (by decide)).1, fun c hc => ?_⟩
  cases hnone.symm.trans (((sourceClassOwner_innermost hlaminar (by decide)).1 c).mpr hc)

/-- A function without text at the end of a class, where the next class begins. -/
def emptySource : SourceIdentity := { sampleMethod with sourceRange := ⟨5, 5⟩ }

def emptySourceFacts : ModuleTypeFacts :=
  { sampleFacts with
    classes := sampleFacts.classes.flatMap fun c =>
      [{ c with identity := { sampleClass with sourceRange := ⟨0, 5⟩ } },
        { c with identity := { sampleClass with sourceRange := ⟨5, 9⟩ } }]
    functions := (sampleFacts.functions.take 1).map ({ · with identity := emptySource }) }

/-- Both classes contain it, and neither is around the other. -/
theorem sourceClassOwner_innermost_false : ¬∀ facts : ModuleTypeFacts, facts.Laminar → ∀ source c,
    facts.sourceClassOwner source = some c ↔ facts.IsOwner source c := by
  intro h
  have hlaminar : emptySourceFacts.Laminar := ⟨by decide +kernel, by decide +kernel⟩
  have howner : (emptySourceFacts.sourceClassOwner emptySource).map (·.identity) =
      some { sampleClass with sourceRange := ⟨0, 5⟩ } := by decide +kernel
  obtain ⟨c, hc, hid⟩ := Option.map_eq_some_iff.mp howner
  have hinner := ((h _ hlaminar emptySource c).mp hc).2.2.2.2 { sampleClass with sourceRange := ⟨5, 9⟩ }
    ⟨by decide +kernel, by decide, by decide⟩
  rw [hid] at hinner
  exact absurd hinner (by decide)

end Soac.Contracts
