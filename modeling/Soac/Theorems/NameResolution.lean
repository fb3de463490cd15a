import Soac.Lib.Escalate
import Soac.Scope.Python

/-!
# The scope analysis and Python's scoping rules

The analysis and Python agree on a name that a function takes from outside unless a function around declares it global and
one further out binds it: `enclosing_binding_owner` walks past the declaration (only for `__class__` it stops there), as in
`hiddenModule`. A name that a function binds is local until `propagate_nonlocal_roots` marks it as the root of a nonlocal name.
Marking does not stop at a root that is marked already, so that the second of two captures marks the next function outward that
binds the name too. `resolvedLoadBinding_eq_pythonKind_iff` says exactly when the kind in the end is Python's.
-/

namespace Soac

open List Rose SemanticSnapshot ScopeBindingCollector NameEvent ScopeBody SemanticScopeData Escalate

/-! ## What the collector holds -/

namespace ScopeBindingCollector

variable (c : ScopeBindingCollector) (e : NameEvent)

theorem recordSourceName_eq (o : Occurrence) :
    c.recordSourceName o = { c with sourceNames := (if o.original then [o.name] else []) ++ c.sourceNames } := by
  unfold recordSourceName
  split <;> rfl

theorem recordLoadedName_eq (n : String) :
    c.recordLoadedName n =
      { c with loadNames := (if !isInternalSymbol n || c.sourceNames.contains n then [n] else []) ++ c.loadNames } := by
  unfold recordLoadedName
  split <;> rfl

theorem visit_explicitGlobals : (c.visit e).explicitGlobals = e.global?.toList ++ c.explicitGlobals := by
  cases e <;> simp [visit, record, recordSourceName_eq, recordLoadedName_eq, global?]

theorem visit_explicitNonlocals : (c.visit e).explicitNonlocals = e.nonlocal?.toList ++ c.explicitNonlocals := by
  cases e <;> simp [visit, record, recordSourceName_eq, recordLoadedName_eq, nonlocal?]

theorem visit_boundNames : (c.visit e).boundNames = e.bound?.toList ++ c.boundNames := by
  cases e <;> simp [visit, record, recordSourceName_eq, recordLoadedName_eq, bound?]

theorem visit_sourceNames :
    (c.visit e).sourceNames = (if e.occurrence.original then [e.occurrence.name] else []) ++ c.sourceNames := by
  cases e <;> simp only [visit, record, recordSourceName_eq, recordLoadedName_eq, occurrence] <;> rfl

theorem visit_loadNames (h : isInternalSymbol e.occurrence.name → e.occurrence.original) :
    (c.visit e).loadNames = e.load?.toList ++ c.loadNames := by
  cases e with
  | load o =>
    have hrecorded : (!isInternalSymbol o.name || (c.recordSourceName o).sourceNames.contains o.name) := by
      cases hi : isInternalSymbol o.name with
      | false => rfl
      | true =>
        have ho : o.original := h hi
        simp [recordSourceName_eq, ho]
    simp only [visit, record, recordLoadedName_eq, occurrence, load?, hrecorded, if_true]
    simp [recordSourceName_eq]
  | _ => simp [visit, record, recordSourceName_eq, load?]

/-- A list of the collector to which each event adds what it names. -/
theorem mem_foldl_visit {proj : ScopeBindingCollector → List String} {names : NameEvent → List String}
    {events : List NameEvent} (h : ∀ c, ∀ e ∈ events, proj (visit c e) = names e ++ proj c) (c : ScopeBindingCollector)
    (x : String) : x ∈ proj (events.foldl visit c) ↔ (∃ e ∈ events, x ∈ names e) ∨ x ∈ proj c := by
  induction events generalizing c with
  | nil => simp
  | cons e events ih =>
    rw [foldl_cons, ih (fun c e he => h c e (mem_cons_of_mem _ he)), h c e mem_cons_self, mem_append]
    simp only [mem_cons, exists_eq_or_imp]
    rw [or_left_comm, or_assoc]

end ScopeBindingCollector

variable (s : ScopeBody)

/-- A scope in which the generated names are the compiler's own: what is written under such a name is in the catalog. -/
def ScopeBody.Written : Prop :=
  ∀ o ∈ s.parameters ++ s.events.map occurrence, isInternalSymbol o.name = true → o.original = true

/-- A name that is written somewhere in a scope. -/
def ScopeBody.Occurs (x : String) : Prop :=
  ∃ o ∈ s.parameters ++ s.events.map occurrence, o.name = x

section

variable {s : ScopeBody} {x : String}

theorem ScopeBody.occurs_of_mem_filterMap {g : NameEvent → Option String}
    (hg : ∀ e y, g e = some y → e.occurrence.name = y) (hx : x ∈ s.events.filterMap g) : s.Occurs x := by
  obtain ⟨e, he, hge⟩ := mem_filterMap.mp hx
  exact ⟨e.occurrence, mem_append_right _ (mem_map_of_mem he), hg e x hge⟩

theorem ScopeBody.occurs_of_mem_globals (hx : x ∈ s.globals) : s.Occurs x :=
  occurs_of_mem_filterMap (fun e y h => by cases e <;> cases h; rfl) hx

theorem ScopeBody.occurs_of_mem_nonlocals (hx : x ∈ s.nonlocals) : s.Occurs x :=
  occurs_of_mem_filterMap (fun e y h => by cases e <;> cases h; rfl) hx

theorem ScopeBody.occurs_of_mem_loadNames (hx : x ∈ s.loadNames) : s.Occurs x :=
  occurs_of_mem_filterMap (fun e y h => by cases e <;> cases h; rfl) hx

theorem ScopeBody.occurs_of_mem_boundNames (hx : x ∈ s.boundNames) : s.Occurs x := by
  rcases mem_append.mp hx with hp | he
  · obtain ⟨o, ho, rfl⟩ := mem_map.mp hp
    exact ⟨o, mem_append_left _ ho, rfl⟩
  · exact occurs_of_mem_filterMap (fun e y h => by cases e <;> cases h <;> rfl) he

theorem mem_collect_explicitGlobals : x ∈ (collectScopeBindings s.events).explicitGlobals ↔ x ∈ s.globals := by
  rw [collectScopeBindings, mem_foldl_visit fun c e _ => c.visit_explicitGlobals e]
  simp [globals, mem_filterMap]

theorem mem_collect_explicitNonlocals : x ∈ (collectScopeBindings s.events).explicitNonlocals ↔ x ∈ s.nonlocals := by
  rw [collectScopeBindings, mem_foldl_visit fun c e _ => c.visit_explicitNonlocals e]
  simp [ScopeBody.nonlocals, mem_filterMap]

theorem mem_collect_boundNames :
    x ∈ s.parameters.map (·.name) ++ (collectScopeBindings s.events).boundNames ↔ x ∈ s.boundNames := by
  rw [mem_append, collectScopeBindings, mem_foldl_visit fun c e _ => c.visit_boundNames e]
  simp [ScopeBody.boundNames, mem_filterMap]

theorem mem_collect_loadNames (hs : s.Written) : x ∈ (collectScopeBindings s.events).loadNames ↔ x ∈ s.loadNames := by
  rw [collectScopeBindings, mem_foldl_visit fun c e he =>
    c.visit_loadNames e (hs _ (mem_append_right _ (mem_map_of_mem he)))]
  simp [ScopeBody.loadNames, mem_filterMap]

/-- A name written in a scope is not taken for a generated one. -/
theorem not_generated (hs : s.Written) (hx : s.Occurs x) :
    (isInternalSymbol x && !((s.parameters.filter (·.original)).map (·.name) ++
      (collectScopeBindings s.events).sourceNames).contains x) = false := by
  cases hi : isInternalSymbol x with
  | false => rfl
  | true =>
    obtain ⟨o, ho, rfl⟩ := hx
    have horiginal : o.original := hs o ho hi
    have hmem : o.name ∈ (s.parameters.filter (·.original)).map (·.name) ++ (collectScopeBindings s.events).sourceNames := by
      rcases mem_append.mp ho with hp | he
      · exact mem_append_left _ (mem_map_of_mem (mem_filter.mpr ⟨hp, horiginal⟩))
      · obtain ⟨e, hmem, rfl⟩ := mem_map.mp he
        refine mem_append_right _ ?_
        rw [collectScopeBindings, mem_foldl_visit fun c e _ => c.visit_sourceNames e]
        exact .inl ⟨e, hmem, by simp [horiginal]⟩
    simp only [contains_iff_mem.mpr hmem, Bool.not_true, Bool.and_false]

end

/-! ## Bindings of a name -/

theorem mergeSemanticBinding_self (k : SemanticBindingKind) : mergeSemanticBinding k k = k := by
  cases k <;> rfl

theorem mergeSemanticBinding_idem (e k : SemanticBindingKind) :
    mergeSemanticBinding (mergeSemanticBinding e k) k = mergeSemanticBinding e k := by
  cases e <;> cases k <;> rfl

section

variable {bindings : SemanticBindings} {x n : String} {k : SemanticBindingKind} {src : Bool}

theorem lookup_setSemanticBinding_self (hx : (isInternalSymbol x && !src) = false) :
    (setSemanticBinding bindings x k src).lookup x =
      some (((bindings.lookup x).map (mergeSemanticBinding · k)).getD k) := by
  unfold setSemanticBinding
  simp only [hx, Bool.false_eq_true, if_false]
  cases h : bindings.lookup x with
  | none => exact lookup_cons_self
  | some e =>
    simp only [Option.map_some, Option.getD_some]
    split_ifs with hne
    · exact lookup_cons_self
    · rw [h, not_not.mp hne]

theorem lookup_setSemanticBinding_of_ne (h : n ≠ x) :
    (setSemanticBinding bindings n k src).lookup x = bindings.lookup x := by
  have hcons : ∀ k', List.lookup x ((n, k') :: bindings) = bindings.lookup x := by
    intro k'
    rw [lookup_cons, beq_false_of_ne (Ne.symm h)]
  unfold setSemanticBinding
  dsimp only
  generalize (if isInternalSymbol n && !src then SemanticBindingKind.local else k) = k'
  split
  · split_ifs
    · exact hcons _
    · rfl
  · exact hcons _

variable {sourceName : String → Bool}

theorem lookup_bindNames {names : List String}
    (hx : x ∈ names → (isInternalSymbol x && !sourceName x) = false) (bindings : SemanticBindings) :
    (bindNames sourceName k names bindings).lookup x =
      if x ∈ names then some (((bindings.lookup x).map (mergeSemanticBinding · k)).getD k) else bindings.lookup x := by
  induction names generalizing bindings with
  | nil => rfl
  | cons n names ih =>
    have hstep : bindNames sourceName k (n :: names) bindings =
        bindNames sourceName k names (setSemanticBinding bindings n k (sourceName n)) := rfl
    rw [hstep, ih fun h => hx (mem_cons_of_mem _ h)]
    by_cases hn : n = x
    · subst hn
      rw [lookup_setSemanticBinding_self (hx mem_cons_self), if_pos mem_cons_self]
      split_ifs
      · cases bindings.lookup n with
        | none => simp [mergeSemanticBinding_self]
        | some e => simp [mergeSemanticBinding_idem]
      · rfl
    · rw [lookup_setSemanticBinding_of_ne hn]
      simp only [mem_cons, Ne.symm hn, false_or]

variable {cells : List (String × String)} {owner : EnclosingBinding}

theorem lookup_bindToOwner (hx : (isInternalSymbol x && !src) = false) (hnone : bindings.lookup x = none) :
    (bindToOwner bindings cells x src owner).1.lookup x = some owner.bindingKind := by
  rw [bindToOwner, lookup_setSemanticBinding_self hx, hnone]
  rfl

theorem lookup_bindLoads {owner : String → Option EnclosingBinding} {loads : List String}
    (hx : x ∈ loads → (isInternalSymbol x && !sourceName x) = false)
    (start : SemanticBindings × List (String × String)) :
    (bindLoads owner sourceName loads start).1.lookup x =
      (start.1.lookup x).or (if x ∈ loads then (owner x).map EnclosingBinding.bindingKind else none) := by
  induction loads generalizing start with
  | nil =>
    change start.1.lookup x = _
    cases start.1.lookup x <;> rfl
  | cons n loads ih =>
    obtain ⟨bindings, cells⟩ := start
    have hstep : bindLoads owner sourceName (n :: loads) (bindings, cells) = bindLoads owner sourceName loads
        (if (bindings.lookup n).isSome then (bindings, cells)
          else (owner n).elim (bindings, cells) (bindToOwner bindings cells n (sourceName n))) := by
      simp only [bindLoads, foldl_cons]
      cases owner n <;> rfl
    rw [hstep, ih fun h => hx (mem_cons_of_mem _ h)]
    by_cases hn : n = x
    · subst hn
      rw [if_pos mem_cons_self]
      cases hlookup : bindings.lookup n with
      | some e => simp [hlookup]
      | none =>
        simp only [Option.isSome_none, Bool.false_eq_true, if_false]
        cases howner : owner n with
        | none => simp [hlookup]
        | some o =>
          rw [Option.elim_some, lookup_bindToOwner (hx mem_cons_self) hlookup]
          rfl
    · have hkeep : (if (bindings.lookup n).isSome then (bindings, cells)
          else (owner n).elim (bindings, cells) (bindToOwner bindings cells n (sourceName n))).1.lookup x = bindings.lookup x := by
        split_ifs
        · rfl
        · cases owner n with
          | some owner => exact lookup_setSemanticBinding_of_ne hn
          | none => rfl
      rw [hkeep]
      simp only [mem_cons, Ne.symm hn, false_or]

end

/-! ## What a prepared scope gives a name -/

/-- The kind a scope has for a name when it is prepared, if the scopes around give it `owner`. -/
def ScopeBody.binding (owner : Option SemanticBindingKind) (x : String) : Option SemanticBindingKind :=
  (s.ownKind x).or (if s.reads x then owner else none)

section

variable {s : ScopeBody} {x : String}

/-- The names a scope declares and binds. -/
theorem lookup_ownBindings {sourceName : String → Bool}
    (hx : s.Occurs x → (isInternalSymbol x && !sourceName x) = false) :
    (ownBindings sourceName (collectScopeBindings s.events) (s.parameters.map (·.name))).lookup x = s.ownKind x := by
  have hbound : ∀ h : x ∈ s.parameters.map (·.name) ++ (collectScopeBindings s.events).boundNames,
      (isInternalSymbol x && !sourceName x) = false :=
    fun h => hx (occurs_of_mem_boundNames (mem_collect_boundNames.mp h))
  unfold ownBindings
  rw [lookup_bindNames fun h => hbound (mem_append_right _ h),
    lookup_bindNames fun h => hbound (mem_append_left _ h),
    lookup_bindNames fun h => hx (occurs_of_mem_nonlocals (mem_collect_explicitNonlocals.mp h)),
    lookup_bindNames fun h => hx (occurs_of_mem_globals (mem_collect_explicitGlobals.mp h))]
  unfold ownKind
  simp only [contains_iff_mem, ← mem_collect_boundNames, mem_append, mem_collect_explicitNonlocals,
    mem_collect_explicitGlobals, lookup_nil, Option.map_none, Option.getD_none]
  by_cases hg : x ∈ s.globals <;> by_cases hn : x ∈ s.nonlocals <;> by_cases hp : x ∈ s.parameters.map (·.name) <;>
    by_cases hb : x ∈ (collectScopeBindings s.events).boundNames <;>
    simp only [hg, hn, hp, hb, or_self, or_true, true_or, if_true, if_false] <;> rfl

/-- The class cell of a function that needs it. -/
theorem lookup_bindClassCell {bindings : SemanticBindings} {src needed : Bool} {owner : Option EnclosingBinding}
    (hbindings : bindings.lookup x = s.ownKind x) :
    (bindClassCell needed owner src bindings).1.lookup x =
      (s.ownKind x).or (if needed && x == "__class__" then owner.map EnclosingBinding.bindingKind else none) := by
  unfold bindClassCell
  by_cases hx : x = "__class__"
  · subst hx
    have hplain : ∀ src, (isInternalSymbol "__class__" && !src) = false := fun _ => rfl
    rw [hbindings]
    cases needed with
    | false => simp [hbindings]
    | true =>
      cases hown : s.ownKind "__class__" with
      | none =>
        cases owner with
        | none => simp [hbindings, hown]
        | some owner => simp [lookup_bindToOwner (hplain _) (hbindings.trans hown)]
      | some k =>
        cases k with
        | «local» | global => simp [hbindings, hown]
        | «nonlocal» =>
          cases owner with
          | none => simp [hbindings, hown]
          | some owner =>
            change (setSemanticBinding bindings "__class__" owner.bindingKind _).lookup "__class__" = some .nonlocal
            rw [lookup_setSemanticBinding_self (hplain _), hbindings, hown]
            cases owner <;> rfl
  · simp only [beq_false_of_ne hx, Bool.and_false, Bool.false_eq_true, if_false, Option.or_none]
    split_ifs
    · split
      · exact (lookup_setSemanticBinding_of_ne (Ne.symm hx)).trans hbindings
      · exact hbindings
    · exact hbindings

/-- The kind a prepared scope has for a name: its own, or for a name it reads the kind of the owner around. -/
theorem lookup_prepareScopeFromCollector (hs : s.Written) (enclosing : List SemanticScopeData) (x : String) :
    (prepareScopeFromCollector enclosing s.kind (collectScopeBindings s.events) s.usesClassCell
      s.parameters).bindings.lookup x =
      s.binding ((enclosingBindingOwner (s.kind == .function) x enclosing).map EnclosingBinding.bindingKind) x := by
  have hgen := @not_generated s x hs
  unfold prepareScopeFromCollector
  rw [lookup_bindLoads fun h => hgen (ScopeBody.occurs_of_mem_loadNames ((mem_collect_loadNames hs).mp h)),
    lookup_bindClassCell (lookup_ownBindings hgen)]
  unfold ScopeBody.binding ScopeBody.reads
  simp only [mem_collect_loadNames hs, contains_iff_mem, Bool.or_eq_true]
  cases s.ownKind x with
  | some k => simp
  | none =>
    by_cases hx : x = "__class__"
    · subst hx
      generalize (enclosingBindingOwner (s.kind == SemanticScopeKind.function) "__class__" enclosing).map
        EnclosingBinding.bindingKind = owner
      cases s.kind == SemanticScopeKind.function && s.usesClassCell <;> cases owner <;> simp
    · simp [beq_false_of_ne hx]

theorem contains_localDefs (enclosing : List SemanticScopeData) (x : String) :
    (prepareScopeFromCollector enclosing s.kind (collectScopeBindings s.events) s.usesClassCell
      s.parameters).localDefs.contains x = s.defines x := by
  have hmem : ∀ {xs ys : List String}, (x ∈ xs ↔ x ∈ ys) → xs.contains x = ys.contains x := by
    intro xs ys h
    rw [Bool.eq_iff_iff, contains_iff_mem, contains_iff_mem]
    exact h
  have hfilter : ∀ (p : String → Bool) (xs : List String), (xs.filter p).contains x = (xs.contains x && p x) := by
    intro p xs
    rw [Bool.eq_iff_iff, contains_iff_mem, mem_filter, Bool.and_eq_true, contains_iff_mem]
  unfold prepareScopeFromCollector defines
  rw [hfilter, hmem mem_collect_boundNames, hmem mem_collect_explicitGlobals, hmem mem_collect_explicitNonlocals,
    Bool.and_assoc]

end

/-! ## The snapshot and the tree -/

/-- The kind that the owner of a name gives it, from the scopes around. -/
def ownerKind (isFunction : Bool) (x : String) : List ScopeBody → Option SemanticBindingKind
  | [] => none
  | p :: outer =>
    let classCell := isFunction && x == "__class__"
    match p.kind with
    | .function =>
      let binding := p.binding (ownerKind true x outer) x
      if classCell && binding == some .global then some .global
      else if p.defines x || binding == some .nonlocal then some .nonlocal
      else ownerKind isFunction x outer
    | .classScope => if classCell then some .nonlocal else ownerKind isFunction x outer
    | .module => none

/-- The kind that a scope has for a name when it is prepared. -/
def preparedKind (outer : List ScopeBody) (x : String) : Option SemanticBindingKind :=
  s.binding (ownerKind (s.kind == .function) x outer) x

/-- The data of a scope as it was prepared. -/
structure Prepared (d : SemanticScopeData) (s : ScopeBody) (outer : List ScopeBody) : Prop where
  kind : d.kind = s.kind
  bindings : ∀ x, d.bindings.lookup x = preparedKind s outer x
  localDefs : ∀ x, d.localDefs.contains x = s.defines x
  source : ∀ x, s.Occurs x → (isInternalSymbol x && !d.sourceNames.contains x) = false

/-- Data of the scopes around, the nearest first. -/
inductive Enclosed : List SemanticScopeData → List ScopeBody → Prop where
  | nil : Enclosed [] []
  | cons {d : SemanticScopeData} {p : ScopeBody} {ds : List SemanticScopeData} {outer : List ScopeBody} :
      Prepared d p outer → Enclosed ds outer → Enclosed (d :: ds) (p :: outer)

theorem enclosingBindingOwner_kind {ds : List SemanticScopeData} {outer : List ScopeBody} (h : Enclosed ds outer)
    (isFunction : Bool) (x : String) :
    (enclosingBindingOwner isFunction x ds).map EnclosingBinding.bindingKind = ownerKind isFunction x outer := by
  induction h with
  | nil => rfl
  | @cons d p ds outer hd _ ih =>
    unfold enclosingBindingOwner ownerKind
    rw [hd.kind, hd.bindings, hd.localDefs]
    cases hk : p.kind with
    | function =>
      simp only [preparedKind, hk, beq_self_eq_true]
      split_ifs
      · rfl
      · rfl
      · exact ih
    | classScope =>
      dsimp only
      split_ifs
      · rfl
      · exact ih
    | module => rfl

/-- Scopes that stand in the snapshot under their numbers, each with the next one as its parent. -/
def Placed (scopes : SemanticSnapshot) : List (Nat × ScopeBody) → Prop
  | [] => True
  | (i, s) :: outer =>
    (∃ d, scopes[i]? = some d ∧ Prepared d s (outer.map Prod.snd) ∧ d.parent = outer.head?.map Prod.fst ∧
      ∀ o ∈ outer.head?, o.1 < i) ∧ Placed scopes outer

variable {l : List (Nat × ScopeBody)}

theorem Placed.append {scopes : SemanticSnapshot} (h : Placed scopes l)
    (more : SemanticSnapshot) : Placed (scopes ++ more) l := by
  induction l with
  | nil => trivial
  | cons p outer ih =>
    obtain ⟨⟨d, hd, hrest⟩, houter⟩ := h
    have hlt : p.1 < scopes.length := (List.getElem?_eq_some_iff.mp hd).1
    exact ⟨⟨d, (List.getElem?_append_left hlt).trans hd, hrest⟩, ih houter⟩

theorem Placed.outward {scopes : SemanticSnapshot} {i : Nat} {s : ScopeBody} {outer : List (Nat × ScopeBody)}
    (h : Placed scopes ((i, s) :: outer)) {fuel : Nat} (hfuel : i < fuel) :
    scopes.outward fuel (some i) = i :: outer.map Prod.fst := by
  induction outer generalizing i s fuel with
  | nil =>
    obtain ⟨⟨d, hd, _, hparent, _⟩, _⟩ := h
    cases fuel with
    | zero => cases hfuel
    | succ fuel =>
      simp only [SemanticSnapshot.outward, hd, hparent]
      cases fuel <;> rfl
  | cons o outer ih =>
    obtain ⟨⟨d, hd, _, hparent, hlt⟩, houter⟩ := h
    cases fuel with
    | zero => cases hfuel
    | succ fuel =>
      have ho : o.1 < i := hlt o rfl
      simp only [SemanticSnapshot.outward, hd, hparent]
      exact congrArg (i :: ·) (ih houter (by omega))

theorem Placed.enclosed {scopes : SemanticSnapshot} (h : Placed scopes l) :
    Enclosed ((l.map Prod.fst).filterMap fun id => scopes[id]?) (l.map Prod.snd) := by
  induction l with
  | nil => exact Enclosed.nil
  | cons p outer ih =>
    obtain ⟨⟨d, hd, hprepared, _⟩, houter⟩ := h
    rw [map_cons, filterMap_cons_some hd]
    exact Enclosed.cons hprepared (ih houter)

theorem Placed.prepared {scopes : SemanticSnapshot} (h : Placed scopes l)
    {o : Nat × ScopeBody} (ho : o ∈ l) : ∃ d outer, scopes[o.1]? = some d ∧ Prepared d o.2 outer := by
  induction l with
  | nil => cases ho
  | cons p outer ih =>
    obtain ⟨⟨d, hd, hprepared, _⟩, houter⟩ := h
    rcases mem_cons.mp ho with rfl | ho
    · exact ⟨d, _, hd, hprepared⟩
    · exact ih houter ho

/-- The way outward from the parent of a scope. -/
theorem Placed.outward_parent {scopes : SemanticSnapshot} (h : Placed scopes l) :
    scopes.outward scopes.length (l.head?.map Prod.fst) = l.map Prod.fst := by
  cases l with
  | nil => cases scopes.length <;> rfl
  | cons o outer =>
    obtain ⟨⟨d, hd, _⟩, _⟩ := id h
    exact h.outward (List.getElem?_eq_some_iff.mp hd).1

mutual

/-- The scopes of a subtree are pushed in preorder, each prepared from the scopes around it. -/
theorem placed_visitScope (t : ScopeTree) (ht : ∀ s ∈ t.labels, s.Written) {scopes : SemanticSnapshot}
    {o : Nat × ScopeBody} {outer : List (Nat × ScopeBody)} (houter : Placed scopes (o :: outer)) :
    (∃ more, visitScope scopes o.1 t = scopes ++ more ∧ more.length = t.size) ∧
      ∀ p ∈ (t.number scopes.length).walk (o :: outer), Placed (visitScope scopes o.1 t) (p.1.label :: p.2) := by
  cases t with
  | node s inner =>
    have hs : s.Written := ht s mem_cons_self
    have ho : o.1 < scopes.length := by
      obtain ⟨⟨d, hd, _⟩, _⟩ := houter
      exact (List.getElem?_eq_some_iff.mp hd).1
    have henclosed : Enclosed (scopes.enclosing o.1) ((o :: outer).map Prod.snd) := by
      rw [SemanticSnapshot.enclosing, houter.outward ho]
      exact houter.enclosed
    let preparation := prepareScopeFromCollector (scopes.enclosing o.1) s.kind (collectScopeBindings s.events)
      s.usesClassCell s.parameters
    let pushed := pushSnapshotScope scopes o.1 s.kind s.name preparation
    have hpushed : Placed pushed ((scopes.length, s) :: o :: outer) := by
      refine ⟨⟨_, List.getElem?_concat_length, ⟨rfl, fun x => ?_, fun x => contains_localDefs (scopes.enclosing o.1) x, fun x hx => ?_⟩, rfl, ?_⟩,
        houter.append _⟩
      · rw [preparedKind, ← enclosingBindingOwner_kind henclosed]
        exact lookup_prepareScopeFromCollector hs _ x
      · exact not_generated hs hx
      · intro o' ho'
        cases ho'
        exact ho
    have hlength : pushed.length = scopes.length + 1 := length_append
    obtain ⟨⟨more, hmore, hsize⟩, hinner⟩ :=
      placed_visitScopes inner (fun s' hs' => ht s' (mem_cons_of_mem _ hs')) hpushed
    have hvisit : visitScope scopes o.1 (.node s inner) = visitScopes pushed scopes.length inner := rfl
    obtain ⟨d, hd⟩ : ∃ d, pushed = scopes ++ [d] := ⟨_, rfl⟩
    refine ⟨⟨d :: more, ?_, ?_⟩, ?_⟩
    · rw [hvisit, hmore, hd, append_assoc, singleton_append]
    · rw [length_cons, hsize, Rose.size, Nat.add_comm]
    · rw [hvisit]
      rw [hlength] at hinner
      rintro p (_ | ⟨_, hp⟩)
      · rw [hmore]
        exact hpushed.append more
      · exact hinner p hp

theorem placed_visitScopes (ts : List ScopeTree) (hts : ∀ s ∈ Rose.labelsList ts, s.Written) {scopes : SemanticSnapshot}
    {o : Nat × ScopeBody} {outer : List (Nat × ScopeBody)} (houter : Placed scopes (o :: outer)) :
    (∃ more, visitScopes scopes o.1 ts = scopes ++ more ∧ more.length = Rose.sizeList ts) ∧
      ∀ p ∈ Rose.walkList (o :: outer) (Rose.numberList scopes.length ts),
        Placed (visitScopes scopes o.1 ts) (p.1.label :: p.2) := by
  cases ts with
  | nil => exact ⟨⟨[], (append_nil _).symm, rfl⟩, nofun⟩
  | cons t ts =>
    obtain ⟨⟨more, hmore, hsize⟩, hfirst⟩ :=
      placed_visitScope t (fun s hs => hts s (mem_append_left _ hs)) houter
    have houter' : Placed (visitScope scopes o.1 t) (o :: outer) := hmore ▸ houter.append more
    have hlength : (visitScope scopes o.1 t).length = scopes.length + t.size := by
      rw [hmore, length_append, hsize]
    obtain ⟨⟨more', hmore', hsize'⟩, hrest⟩ :=
      placed_visitScopes ts (fun s hs => hts s (mem_append_right _ hs)) houter'
    have hvisit : visitScopes scopes o.1 (t :: ts) = visitScopes (visitScope scopes o.1 t) o.1 ts := rfl
    rw [hlength] at hrest
    refine ⟨⟨more ++ more', ?_, ?_⟩, fun p hp => ?_⟩
    · rw [hvisit, hmore', hmore, append_assoc]
    · rw [length_append, hsize, hsize', Rose.sizeList]
    · rw [hvisit]
      rcases mem_append.mp hp with hp | hp
      · rw [hmore']
        exact (hfirst p hp).append more'
      · exact hrest p hp

end

/-- A module as it is written. -/
structure SourceModule where
  tree : ScopeTree
  isModule : tree.label.kind = .module
  inner : ∀ s ∈ Rose.labelsList tree.children, s.kind ≠ .module
  written : ∀ s ∈ tree.labels, s.Written

/-- The scopes of a module with their numbers, each with what encloses it. -/
def SourceModule.scopes (m : SourceModule) : List (Rose (Nat × ScopeBody) × List (Nat × ScopeBody)) :=
  (m.tree.number 0).walk []

/-- Every scope of a module stands in the snapshot under its number. -/
theorem SourceModule.placed (m : SourceModule) :
    (preparedSnapshot m.tree).length = m.tree.size ∧
      ∀ p ∈ m.scopes, Placed (preparedSnapshot m.tree) (p.1.label :: p.2) := by
  obtain ⟨⟨s, inner⟩, hkind, _, hwritten⟩ := m
  have hkind : s.kind = .module := hkind
  have hs : s.Written := hwritten s mem_cons_self
  have hroot : ∃ d, Placed [d] [(0, s)] ∧ preparedSnapshot (.node s inner) = visitScopes [d] 0 inner := by
    refine ⟨_, ⟨⟨_, rfl, ⟨hkind.symm, fun x => ?_, fun x => ?_, fun x hx => ?_⟩, rfl, nofun⟩, trivial⟩, rfl⟩
    · have hlookup := lookup_prepareScopeFromCollector hs [{ kind := .module }] x
      rw [hkind] at hlookup
      exact hlookup
    · have hdefs := contains_localDefs (s := s) [{ kind := .module }] x
      exact hdefs
    · exact not_generated hs hx
  obtain ⟨d, hd, hsnapshot⟩ := hroot
  obtain ⟨⟨more, hmore, hsize⟩, hinner⟩ := placed_visitScopes inner (fun s' hs' => hwritten s' (mem_cons_of_mem _ hs')) hd
  refine ⟨?_, ?_⟩
  · rw [hsnapshot, hmore, length_append, hsize]
    rfl
  · rw [hsnapshot]
    rintro p (_ | ⟨_, hp⟩)
    · rw [hmore]
      exact hd.append more
    · exact hinner p hp

/-! ## The roots of a name -/

variable (scopes : SemanticSnapshot)

/-- The kind a scope of a snapshot has for a name. -/
def SemanticSnapshot.kindAt (x : String) (i : Nat) : Option SemanticBindingKind :=
  scopes[i]?.bind fun d => d.bindings.lookup x

/-- A function that has a name as local. -/
def SemanticSnapshot.isRoot (x : String) (i : Nat) : Bool :=
  scopes[i]?.any fun d => d.kind == .function && d.bindings.lookup x == some .local

/-- A scope that has a name as nonlocal. -/
def SemanticSnapshot.isNonlocal (x : String) (i : Nat) : Bool :=
  scopes.kindAt x i == some .nonlocal

/-- A scope that has a name as local has it written in its text. -/
def SemanticSnapshot.LocalWritten (x : String) (i : Nat) : Prop :=
  ∃ d, scopes[i]? = some d ∧
    (d.bindings.lookup x = some .local → (isInternalSymbol x && !d.sourceNames.contains x) = false)

/-- The data of a scope apart from its bindings. -/
def SemanticScopeData.unbound (d : SemanticScopeData) : SemanticScopeData :=
  { d with bindings := [] }

/-- A snapshot in which the scopes of `marked`, functions that had a name as local, have it as nonlocal. -/
structure Marked (x : String) (before scopes : SemanticSnapshot) (marked : Nat → Bool) : Prop where
  same : scopes.map unbound = before.map unbound
  roots : ∀ i, marked i = true → before.isRoot x i = true
  kinds : ∀ i, scopes.kindAt x i = if marked i then some .nonlocal else before.kindAt x i

section

variable {x : String} {before scopes : SemanticSnapshot} {marked : Nat → Bool} {d : SemanticScopeData}

theorem SemanticSnapshot.kindAt_of_get? {i : Nat} (hd : scopes[i]? = some d) :
    scopes.kindAt x i = d.bindings.lookup x := by
  rw [kindAt, hd]
  rfl

theorem SemanticSnapshot.kindAt_set {i j : Nat} (hj : j < scopes.length) :
    SemanticSnapshot.kindAt (scopes.set j d) x i = if i = j then d.bindings.lookup x else scopes.kindAt x i := by
  unfold kindAt
  by_cases h : i = j
  · subst h
    rw [List.getElem?_set_self hj, if_pos rfl]
    rfl
  · rw [List.getElem?_set_ne (Ne.symm h), if_neg h]

theorem map_unbound_set {j : Nat} {d' : SemanticScopeData} (hd : scopes[j]? = some d) (h : d'.unbound = d.unbound) :
    (scopes.set j d').map unbound = scopes.map unbound := by
  obtain ⟨hj, rfl⟩ := List.getElem?_eq_some_iff.mp hd
  rw [map_set, h, ← List.getElem_map unbound (h := by simpa using hj)]
  exact set_getElem_self _

namespace Marked

theorem refl (x : String) (scopes : SemanticSnapshot) : Marked x scopes scopes fun _ => false :=
  ⟨rfl, nofun, fun _ => rfl⟩

section

variable (h : Marked x before scopes marked)
include h

theorem get? {i : Nat} (hd : before[i]? = some d) :
    ∃ b, scopes[i]? = some { d with bindings := b } ∧
      b.lookup x = if marked i then some .nonlocal else d.bindings.lookup x := by
  have hsame := congrArg (·[i]?) h.same
  simp only [List.getElem?_map, hd, Option.map_some] at hsame
  obtain ⟨d', hd', heq⟩ := Option.map_eq_some_iff.mp hsame
  have hrebound : d' = { d with bindings := d'.bindings } :=
    congrArg (fun e : SemanticScopeData => { e with bindings := d'.bindings }) heq
  refine ⟨d'.bindings, hd'.trans (congrArg some hrebound), ?_⟩
  rw [← kindAt_of_get? hd', h.kinds i, kindAt_of_get? hd]

theorem length_eq : scopes.length = before.length := by
  have hsame := congrArg List.length h.same
  rwa [length_map, length_map] at hsame

theorem outward (fuel : Nat) (o : Option Nat) : scopes.outward fuel o = before.outward fuel o := by
  induction fuel generalizing o with
  | zero => cases o <;> rfl
  | succ fuel ih =>
    cases o with
    | none => rfl
    | some i =>
      unfold SemanticSnapshot.outward
      cases hd : before[i]? with
      | none =>
        have hlen : scopes[i]? = none := by
          rw [List.getElem?_eq_none_iff, h.length_eq]
          exact List.getElem?_eq_none_iff.mp hd
        rw [hlen]
      | some d =>
        obtain ⟨b, hd', _⟩ := h.get? hd
        simp only [hd', ih]

end

/-- Marking the root of another name. -/
theorem markRoot_of_ne {n : String} (hn : n ≠ x) (h : Marked x before scopes marked) (chain : List Nat) :
    Marked x before (markRoot scopes n chain) marked := by
  induction chain with
  | nil => exact h
  | cons j chain ih =>
    unfold markRoot
    cases hd : scopes[j]? with
    | none => exact h
    | some d =>
      dsimp only
      split_ifs
      · have hj : j < scopes.length := (List.getElem?_eq_some_iff.mp hd).1
        refine ⟨?_, h.roots, fun i => ?_⟩
        · rw [map_unbound_set hd]
          · exact h.same
          · rfl
        · rw [kindAt_set hj, ← h.kinds i, lookup_setSemanticBinding_of_ne hn]
          split_ifs with hij
          · rw [hij, kindAt_of_get? hd]
          · rfl
      · exact ih

section

variable (h : Marked x before scopes marked)
include h

/-- Marking the root of the name itself. -/
theorem markRoot_self {chain : List Nat} (hchain : ∀ j ∈ chain, before.LocalWritten x j) :
    Marked x before (markRoot scopes x chain) (raise (before.isRoot x) chain marked) := by
  induction chain with
  | nil => exact h
  | cons j chain ih =>
    obtain ⟨d, hd, hsource⟩ := hchain j mem_cons_self
    obtain ⟨b, hd', hlookup⟩ := h.get? hd
    have hroot : before.isRoot x j = (d.kind == .function && d.bindings.lookup x == some .local) := by
      rw [SemanticSnapshot.isRoot, hd]
      rfl
    have htaken : (d.kind == .function && b.lookup x == some .local) = (before.isRoot x j && !marked j) := by
      rw [hroot, hlookup]
      cases marked j <;> simp
    unfold markRoot
    rw [hd']
    dsimp only
    rw [htaken]
    cases hfree : before.isRoot x j && !marked j with
    | false =>
      rw [raise_cons_of_passed hfree]
      exact ih fun i hi => hchain i (mem_cons_of_mem _ hi)
    | true =>
      rw [raise_cons_of_free hfree, if_pos rfl]
      have hj : j < scopes.length := (List.getElem?_eq_some_iff.mp hd').1
      rw [hfree, Bool.and_eq_true, beq_iff_eq, beq_iff_eq] at htaken
      have hlocal : b.lookup x = some .local := htaken.2
      have hbefore : d.bindings.lookup x = some .local := by
        rw [hroot] at hfree
        simp only [Bool.and_eq_true, beq_iff_eq] at hfree
        exact hfree.1.2
      refine ⟨?_, fun i hi => ?_, fun i => ?_⟩
      · rw [map_unbound_set hd']
        · exact h.same
        · rfl
      · by_cases hij : i = j
        · subst hij
          exact (Bool.and_eq_true_iff.mp hfree).1
        · rw [Function.update_of_ne hij] at hi
          exact h.roots i hi
      · rw [kindAt_set hj]
        by_cases hij : i = j
        · subst hij
          rw [Function.update_self, if_pos rfl, lookup_setSemanticBinding_self (hsource hbefore), hlocal]
          rfl
        · rw [if_neg hij, Function.update_of_ne hij]
          exact h.kinds i

/-- The names that a scope has as nonlocal, once each. -/
theorem foldl_markRoot {parent : Option Nat}
    (hchain : ∀ j ∈ before.outward before.length parent, before.LocalWritten x j)
    {names : List String} (hnames : names.Nodup) :
    Marked x before
      (names.foldl (fun scopes name => markRoot scopes name (scopes.outward scopes.length parent)) scopes)
      (if x ∈ names then Escalate.raise (before.isRoot x) (before.outward before.length parent) marked else marked) := by
  induction names generalizing scopes marked with
  | nil => exact h
  | cons n names ih =>
    obtain ⟨hn, hnames⟩ := nodup_cons.mp hnames
    rw [foldl_cons, h.length_eq, h.outward]
    by_cases hx : n = x
    · subst hx
      have hrest := ih (h.markRoot_self hchain) hnames
      rw [if_neg hn] at hrest
      rw [if_pos mem_cons_self]
      exact hrest
    · have hrest := ih (h.markRoot_of_ne hx (before.outward before.length parent)) hnames
      simpa only [mem_cons, Ne.symm hx, false_or] using hrest

/-- The visit of a scope. -/
theorem markRoots {t : Rose Nat} (hd : before[t.label]? = some d)
    (hchain : ∀ j ∈ before.outward before.length d.parent, before.LocalWritten x j) :
    Marked x before (Soac.markRoots scopes t.label)
      (Escalate.visit (before.isNonlocal x) (before.isRoot x) marked (t, before.outward before.length d.parent)) := by
  obtain ⟨b, hd', hlookup⟩ := h.get? hd
  have hmem : x ∈ { d with bindings := b }.nonlocals ↔ (before.isNonlocal x t.label || marked t.label) := by
    have hkey : b.lookup x = some .nonlocal → x ∈ b.map Prod.fst := by
      intro hx
      obtain ⟨_, _, hsplit, _⟩ := lookup_eq_some_iff.mp hx
      rw [hsplit]
      simp
    rw [SemanticScopeData.nonlocals, mem_filter, mem_dedup, beq_iff_eq, and_iff_right_of_imp hkey, hlookup,
      SemanticSnapshot.isNonlocal, kindAt_of_get? hd]
    cases marked t.label <;> simp
  have hnodup : { d with bindings := b }.nonlocals.Nodup := (nodup_dedup _).filter _
  have hfold := h.foldl_markRoot hchain hnodup
  unfold Soac.markRoots Escalate.visit
  rw [hd']
  simp only [hmem] at hfold
  exact hfold

end

end Marked

end

/-! ## The owner of a name -/

variable {x : String}

/-- The owner of an ordinary name: any function around that has it, past the functions that declare it global. -/
theorem ownerKind_of_ne (hx : x ≠ "__class__") (isFunction : Bool) (outer : List ScopeBody) :
    ownerKind isFunction x outer = if boundOutside x outer then some .nonlocal else none := by
  have hbeq : (x == "__class__") = false := beq_false_of_ne hx
  induction outer generalizing isFunction with
  | nil => rfl
  | cons p outer ih =>
    cases hk : p.kind with
    | function =>
      simp only [ownerKind, boundOutside, hk, hbeq, Bool.and_false, Bool.false_and, binding, ih,
        p.defines_eq, Bool.false_eq_true, if_false]
      cases ho : p.ownKind x with
      | some k => cases k <;> simp
      | none => cases p.reads x <;> cases boundOutside x outer <;> simp
    | classScope => simpa [ownerKind, boundOutside, hk, hbeq] using ih isFunction
    | module => simp [ownerKind, boundOutside, hk]

/-- The owner of the class cell of a function is the one Python names. -/
theorem ownerKind_classCell (outer : List ScopeBody) :
    (ownerKind true "__class__" outer).getD .global = enclosingKind "__class__" outer ∧
      ownerKind true "__class__" outer ≠ some .local := by
  induction outer with
  | nil => exact ⟨rfl, by simp [ownerKind]⟩
  | cons p outer ih =>
    cases hk : p.kind with
    | function =>
      simp only [ownerKind, enclosingKind, hk, beq_self_eq_true, Bool.and_true, binding, p.defines_eq]
      cases ho : p.ownKind "__class__" with
      | some k => cases k <;> simp
      | none =>
        generalize ownerKind true "__class__" outer = owner at ih
        cases p.reads "__class__" with
        | false => simpa using ih
        | true =>
          cases owner with
          | none => simpa using ih
          | some k =>
            cases k with
            | «local» => exact absurd rfl ih.2
            | «nonlocal» | global => simpa using ih
    | classScope | module => simp [ownerKind, enclosingKind, hk]

/-- A class body finds the name as well where a function around it binds it. -/
theorem ownerKind_of_defines {isFunction : Bool} (hcell : (isFunction && x == "__class__") = false)
    {inner outer : List ScopeBody} {s : ScopeBody} (hinner : ∀ p ∈ inner, p.kind ≠ .module) (hs : s.kind = .function)
    (hx : s.defines x) : ownerKind isFunction x (inner ++ s :: outer) = some .nonlocal := by
  induction inner with
  | nil => simp [ownerKind, hs, hx, hcell]
  | cons p inner ih =>
    have ih := ih fun q hq => hinner q (mem_cons_of_mem _ hq)
    rw [cons_append, ownerKind]
    cases hk : p.kind with
    | function =>
      simp only [hcell, Bool.false_and, Bool.false_eq_true, if_false]
      split_ifs
      · rfl
      · exact ih
    | classScope => simpa only [hcell, Bool.false_eq_true, if_false] using ih
    | module => exact absurd hk (hinner p mem_cons_self)

/-- A scope inside a function that binds the name has it as nonlocal just when it takes it from outside itself. -/
theorem preparedKind_eq_nonlocal_iff {inner outer : List ScopeBody} {s t : ScopeBody}
    (hinner : ∀ p ∈ inner, p.kind ≠ .module) (hs : s.kind = .function) (hx : s.defines x) :
    (preparedKind t (inner ++ s :: outer) x == some .nonlocal) = t.captures (inner ++ s :: outer) x := by
  unfold preparedKind ScopeBody.binding ScopeBody.captures
  cases t.ownKind x with
  | some k => cases k <;> rfl
  | none =>
    cases t.reads x with
    | false => rfl
    | true =>
      cases hcell : t.kind == .function && x == "__class__" with
      | false =>
        rw [ownerKind_of_defines hcell hinner hs hx]
        cases hk : t.kind == SemanticScopeKind.function <;> cases hb : x == "__class__" <;> simp_all
      | true =>
        obtain ⟨hfunction, hclass⟩ := Bool.and_eq_true_iff.mp hcell
        obtain rfl := beq_iff_eq.mp hclass
        obtain ⟨howner, hlocal⟩ := ownerKind_classCell (inner ++ s :: outer)
        rw [← howner, bne, bne, hfunction, beq_self_eq_true]
        generalize ownerKind true "__class__" (inner ++ s :: outer) = owner at hlocal
        cases owner with
        | none => rfl
        | some k => cases k <;> rfl

/-! ## The marks of a module -/

mutual

/-- The requests of a numbered tree are the captures of the tree. -/
theorem escapes_number {x : String} {requests absorbs : Nat → Bool} {outer : List (Nat × ScopeBody)}
    (t : Rose (Nat × ScopeBody))
    (h : ∀ p ∈ t.walk outer, requests p.1.label.1 = p.1.label.2.captures (p.2.map Prod.snd) x ∧
      absorbs p.1.label.1 = (p.1.label.2.kind == .function && p.1.label.2.defines x)) :
    escapes requests absorbs (t.map Prod.fst) = escapingCaptures x (outer.map Prod.snd) (t.map Prod.snd) := by
  cases t with
  | node a ts =>
    obtain ⟨hrequests, habsorbs⟩ := h _ mem_cons_self
    have hrequests : requests a.1 = a.2.captures (outer.map Prod.snd) x := hrequests
    have habsorbs : absorbs a.1 = (a.2.kind == .function && a.2.defines x) := habsorbs
    rw [Rose.map, Rose.map, escapes, escapingCaptures, hrequests, habsorbs,
      arrivals_number ts fun p hp => h p (mem_cons_of_mem _ hp)]
    rfl

theorem arrivals_number {x : String} {requests absorbs : Nat → Bool} {outer : List (Nat × ScopeBody)}
    (ts : List (Rose (Nat × ScopeBody)))
    (h : ∀ p ∈ Rose.walkList outer ts, requests p.1.label.1 = p.1.label.2.captures (p.2.map Prod.snd) x ∧
      absorbs p.1.label.1 = (p.1.label.2.kind == .function && p.1.label.2.defines x)) :
    arrivals requests absorbs (Rose.mapList Prod.fst ts) =
      innerCaptures x (outer.map Prod.snd) (Rose.mapList Prod.snd ts) := by
  cases ts with
  | nil => rfl
  | cons t ts =>
    rw [Rose.mapList, Rose.mapList, arrivals, innerCaptures,
      escapes_number t fun p hp => h p (mem_append_left _ hp),
      arrivals_number ts fun p hp => h p (mem_append_right _ hp)]

end

theorem preparedKind_eq_local_iff (s : ScopeBody) (outer : List ScopeBody) (x : String) :
    (preparedKind s outer x == some .local) = s.defines x := by
  have hne : ownerKind (s.kind == .function) x outer ≠ some .local := by
    generalize (s.kind == SemanticScopeKind.function) = isFunction
    induction outer generalizing isFunction with
    | nil => simp [ownerKind]
    | cons p outer ih =>
      unfold ownerKind
      dsimp only
      split
      · split_ifs
        · simp
        · simp
        · exact ih isFunction
      · split_ifs
        · simp
        · exact ih isFunction
      · simp
  rw [s.defines_eq, preparedKind, ScopeBody.binding]
  generalize ownerKind (s.kind == SemanticScopeKind.function) x outer = owner at hne
  cases s.ownKind x with
  | some k => rfl
  | none =>
    cases s.reads x with
    | false => rfl
    | true =>
      cases owner with
      | none => rfl
      | some k =>
        cases k with
        | «local» => exact absurd rfl hne
        | _ => rfl

namespace SourceModule

variable (m : SourceModule) {p : Rose (Nat × ScopeBody) × List (Nat × ScopeBody)} {outer : List ScopeBody}

/-- A scope that is enclosed by another is not the module. -/
theorem kind_ne_module (hp : p ∈ m.scopes) (houter : p.2 ≠ []) : p.1.label.2.kind ≠ .module := by
  obtain ⟨⟨s, ts⟩, _, hinner, _⟩ := m
  rcases mem_cons.mp hp with rfl | hp
  · exact absurd rfl houter
  · have hlabel : p.1.label ∈ Rose.labelsList (Rose.numberList 1 ts) :=
      labelsList_walk _ _ ▸ mem_map_of_mem hp
    refine hinner _ ?_
    have hsnd := mem_map_of_mem (f := Prod.snd) hlabel
    rwa [← labelsList_map, mapList_snd_number] at hsnd

/-- The data of a scope before the roots are marked. -/
theorem prepared (hp : p ∈ m.scopes) :
    ∃ d, (preparedSnapshot m.tree)[p.1.label.1]? = some d ∧ Prepared d p.1.label.2 (p.2.map Prod.snd) ∧
      (preparedSnapshot m.tree).outward (preparedSnapshot m.tree).length d.parent = p.2.map Prod.fst := by
  obtain ⟨⟨d, hd, hprepared, hparent, _⟩, houter⟩ := m.placed.2 p hp
  exact ⟨d, hd, hprepared, hparent ▸ houter.outward_parent⟩

/-- A name that a scope around has as local is written there. -/
theorem source_outward (hp : p ∈ m.scopes) (x : String) :
    ∀ j ∈ p.2.map Prod.fst, (preparedSnapshot m.tree).LocalWritten x j := by
  intro j hj
  obtain ⟨o, ho, rfl⟩ := mem_map.mp hj
  obtain ⟨d, outer, hd, hprepared⟩ := (m.placed.2 p hp).2.prepared ho
  refine ⟨d, hd, fun hlocal => hprepared.source x ?_⟩
  have hdefines : o.2.defines x := by
    rw [← preparedKind_eq_local_iff o.2 outer, ← hprepared.bindings, hlocal]
    rfl
  unfold defines at hdefines
  rw [Bool.and_eq_true, Bool.and_eq_true, contains_iff_mem] at hdefines
  exact occurs_of_mem_boundNames hdefines.1.1

/-- The marks that the snapshot of a module ends with. -/
def marks (x : String) : Nat → Bool :=
  run ((preparedSnapshot m.tree).isNonlocal x) ((preparedSnapshot m.tree).isRoot x)
    (((m.tree.number 0).map Prod.fst).walk []) fun _ => false

theorem ids_walk : ((m.tree.number 0).map Prod.fst).walk [] =
    m.scopes.map fun p => (p.1.map Prod.fst, p.2.map Prod.fst) :=
  walk_map Prod.fst [] (m.tree.number 0)

theorem marked (x : String) : Marked x (preparedSnapshot m.tree) (buildSnapshot m.tree) (m.marks x) := by
  have hrange : List.range (preparedSnapshot m.tree).length =
      (((m.tree.number 0).map Prod.fst).walk []).map fun p => p.1.label := by
    rw [labels_walk, labels_number, m.placed.1, range_eq_range']
  have hrun : ∀ (nodes : List (Rose Nat × List Nat)) (scopes : SemanticSnapshot) (marked : Nat → Bool),
      (∀ p ∈ nodes, p ∈ ((m.tree.number 0).map Prod.fst).walk []) → Marked x (preparedSnapshot m.tree) scopes marked →
      Marked x (preparedSnapshot m.tree) (nodes.foldl (fun scopes p => Soac.markRoots scopes p.1.label) scopes)
        (run ((preparedSnapshot m.tree).isNonlocal x) ((preparedSnapshot m.tree).isRoot x) nodes marked) := by
    intro nodes
    induction nodes with
    | nil => exact fun _ _ _ h => h
    | cons p nodes ih =>
      intro scopes marked hnodes h
      refine ih _ _ (fun q hq => hnodes q (mem_cons_of_mem _ hq)) ?_
      have hp := hnodes p mem_cons_self
      rw [m.ids_walk] at hp
      obtain ⟨q, hq, rfl⟩ := mem_map.mp hp
      obtain ⟨d, hd, _, houtward⟩ := m.prepared hq
      have hvisit := h.markRoots (t := q.1.map Prod.fst) (by rw [label_map]; exact hd)
        (houtward ▸ m.source_outward hq x)
      rw [houtward] at hvisit
      exact hvisit
  have hfinal := hrun _ _ _ (fun p hp => hp) (Marked.refl x _)
  rw [buildSnapshot, propagateNonlocalRoots, hrange, foldl_map]
  exact hfinal

theorem isRoot_eq (hp : p ∈ m.scopes) (x : String) :
    (preparedSnapshot m.tree).isRoot x p.1.label.1 = (p.1.label.2.kind == .function && p.1.label.2.defines x) := by
  obtain ⟨d, hd, hprepared, _⟩ := m.prepared hp
  rw [SemanticSnapshot.isRoot, hd, Option.any_some, hprepared.kind, hprepared.bindings, preparedKind_eq_local_iff]

theorem isNonlocal_eq (hp : p ∈ m.scopes) (x : String) : (preparedSnapshot m.tree).isNonlocal x p.1.label.1 =
      (preparedKind p.1.label.2 (p.2.map Prod.snd) x == some .nonlocal) := by
  obtain ⟨d, hd, hprepared, _⟩ := m.prepared hp
  rw [SemanticSnapshot.isNonlocal, kindAt_of_get? hd, hprepared.bindings]

/-- The captures inside a function that binds the name. -/
theorem arrivals_eq (hp : p ∈ m.scopes) (hfunction : p.1.label.2.kind = .function) (hx : p.1.label.2.defines x) :
    arrivals ((preparedSnapshot m.tree).isNonlocal x) ((preparedSnapshot m.tree).isRoot x)
        (Rose.mapList Prod.fst p.1.children) =
      innerCaptures x (p.1.label.2 :: p.2.map Prod.snd) (Rose.mapList Prod.snd p.1.children) := by
  change _ = innerCaptures x ((p.1.label :: p.2).map Prod.snd) _
  refine arrivals_number p.1.children fun q hq => ?_
  have hscope : ∀ r ∈ Rose.walkList (p.1.label :: p.2) p.1.children, r ∈ m.scopes :=
    walkList_children_subset _ hp
  refine ⟨?_, m.isRoot_eq (hscope q hq) x⟩
  obtain ⟨inner, houter, hinner⟩ := outer_of_mem_walkList _ hq
  rw [m.isNonlocal_eq (hscope q hq), houter, map_append]
  refine preparedKind_eq_nonlocal_iff (fun s hs => ?_) hfunction hx
  -- the scopes between are enclosed, so none of them is the module
  obtain ⟨a, ha, rfl⟩ := mem_map.mp hs
  have hlabel := hinner a ha
  rw [← labelsList_walk (p.1.label :: p.2)] at hlabel
  obtain ⟨r, hr, rfl⟩ := mem_map.mp hlabel
  obtain ⟨between, hbetween, _⟩ := outer_of_mem_walkList _ hr
  exact m.kind_ne_module (hscope r hr) (by simp [hbetween])

/-- A function's own name is marked just when a scope inside it captures the name and no function between takes it. -/
theorem marks_eq (hp : p ∈ m.scopes) (x : String) :
    m.marks x p.1.label.1 = (p.1.label.2.kind == .function && p.1.label.2.defines x &&
      decide (0 < innerCaptures x (p.1.label.2 :: p.2.map Prod.snd) (Rose.mapList Prod.snd p.1.children))) := by
  have hnodup : ((m.tree.number 0).map Prod.fst).labels.Nodup := by
    rw [labels_number]
    exact nodup_range'
  have hmem : (p.1.map Prod.fst, p.2.map Prod.fst) ∈ ((m.tree.number 0).map Prod.fst).walk [] :=
    m.ids_walk ▸ mem_map_of_mem hp
  have hrun : m.marks x (p.1.map Prod.fst).label = _ :=
    (run_walk _ hnodup (fun _ h => absurd h not_mem_nil) fun _ _ => rfl).2 _ hmem
  rw [label_map, children_map, m.isRoot_eq hp] at hrun
  rw [hrun]
  cases hroot : p.1.label.2.kind == .function && p.1.label.2.defines x with
  | false => rfl
  | true =>
    rw [Bool.and_eq_true, beq_iff_eq] at hroot
    rw [m.arrivals_eq hp hroot.1 hroot.2]

/-- A scope by its place in the walk over the module is the scope with that number. -/
theorem scope_of_walk {i : Nat} {t : ScopeTree} (h : (m.tree.walk [])[i]? = some (t, outer)) :
    ∃ p ∈ m.scopes, p.1.label = (i, t.label) ∧ p.2.map Prod.snd = outer ∧ Rose.mapList Prod.snd p.1.children = t.children := by
  have hwalk : m.tree.walk [] = m.scopes.map fun p => (p.1.map Prod.snd, p.2.map Prod.snd) := by
    have := walk_map Prod.snd [] (m.tree.number 0)
    rwa [map_snd_number] at this
  have hnumbers : m.scopes.map (fun p => p.1.label.1) = List.range' 0 m.tree.size := by
    have := labels_number 0 m.tree
    rw [labels_map, ← labels_walk [], map_map] at this
    exact this
  rw [hwalk, List.getElem?_map, Option.map_eq_some_iff] at h
  obtain ⟨p, hp, heq⟩ := h
  obtain ⟨ht, houter⟩ := Prod.mk.inj heq
  refine ⟨p, mem_of_getElem? hp, ?_, houter, ?_⟩
  · have hnumber : (m.scopes.map fun p => p.1.label.1)[i]? = some p.1.label.1 := by
      rw [List.getElem?_map, hp]
      rfl
    rw [hnumbers] at hnumber
    obtain ⟨hlt, hget⟩ := List.getElem?_eq_some_iff.mp hnumber
    rw [getElem_range', Nat.zero_add, Nat.one_mul] at hget
    rw [← ht, label_map, hget]
  · rw [← ht, children_map]

/-- The data of a scope when the roots are marked. -/
theorem built {i : Nat} {d : SemanticScopeData} {s : ScopeBody} (hd : (preparedSnapshot m.tree)[i]? = some d)
    (hprepared : Prepared d s outer) (x : String) : ∃ b, (buildSnapshot m.tree)[i]? = some { d with bindings := b } ∧
      b.lookup x = (if m.marks x i then some .nonlocal else preparedKind s outer x) ∧
      (m.marks x i → s.defines x) := by
  obtain ⟨b, hd', hlookup⟩ := (m.marked x).get? hd
  rw [hprepared.bindings] at hlookup
  refine ⟨b, hd', hlookup, fun hmark => ?_⟩
  have hroot := (m.marked x).roots i hmark
  rw [SemanticSnapshot.isRoot, hd, Option.any_some, hprepared.bindings, preparedKind_eq_local_iff, Bool.and_eq_true] at hroot
  exact hroot.2

/-- Asking outward for a name that no owner was found for. -/
theorem resolveOutward_eq_global {l : List (Nat × ScopeBody)} (hplaced : Placed (preparedSnapshot m.tree) l)
    (h : ownerKind true x (l.map Prod.snd) = none) :
    resolveOutward x ((l.map Prod.fst).filterMap fun id => (buildSnapshot m.tree)[id]?) = .global := by
  induction l with
  | nil => rfl
  | cons o l ih =>
    obtain ⟨⟨d, hd, hprepared, _⟩, houter⟩ := hplaced
    obtain ⟨b, hd', hlookup, hmarks⟩ := m.built hd hprepared x
    rw [map_cons, filterMap_cons_some hd']
    rw [map_cons, ownerKind] at h
    unfold resolveOutward
    simp only [hprepared.kind, hprepared.localDefs, hlookup]
    cases hk : o.2.kind with
    | function =>
      simp only [hk] at h
      split_ifs at h with hglobal hbound
      have hdefines : o.2.defines x = false := by
        cases hx : o.2.defines x with
        | false => rfl
        | true => rw [hx] at hbound; exact absurd rfl hbound
      have hmark : m.marks x o.1 = false := by
        cases hx : m.marks x o.1 with
        | false => rfl
        | true => rw [hmarks hx] at hdefines; cases hdefines
      rw [hmark]
      simp only [Bool.false_eq_true, if_false, preparedKind, hk, beq_self_eq_true]
      rw [if_neg hbound]
      exact ih houter h
    | classScope =>
      simp only [hk] at h
      split_ifs at h
      exact ih houter h
    | module => rfl

/-- The kind that the analysis gives a name used in a function. -/
theorem resolvedLoadBinding_eq {i : Nat} {t : ScopeTree} (hscope : (m.tree.walk [])[i]? = some (t, outer))
    (hfunction : t.label.kind = .function) (hx : t.label.uses x) :
    resolvedLoadBinding (buildSnapshot m.tree) i x = some
      (if t.label.defines x && decide (0 < innerCaptures x (t.label :: outer) t.children) then .nonlocal
        else (t.label.ownKind x).getD ((ownerKind true x outer).getD .global)) := by
  obtain ⟨p, hp, hlabel, houter, hchildren⟩ := m.scope_of_walk hscope
  obtain ⟨d, hd, hprepared, houtward⟩ := m.prepared hp
  obtain ⟨b, hd', hlookup, _⟩ := m.built hd hprepared x
  have hmark := m.marks_eq hp x
  rw [hlabel, houter, hchildren, hfunction] at hmark
  rw [hlabel] at hd' hlookup hprepared
  rw [houter] at hlookup hprepared
  simp only [beq_self_eq_true, Bool.true_and] at hmark
  rw [resolvedLoadBinding, hd', Option.map_some, Option.some.injEq, hlookup, hmark]
  cases hcaptured : t.label.defines x && decide (0 < innerCaptures x (t.label :: outer) t.children) with
  | true => rfl
  | false =>
    simp only [Bool.false_eq_true, if_false, preparedKind, binding, hfunction, beq_self_eq_true]
    cases hown : t.label.ownKind x with
    | some k => rfl
    | none =>
      have hreads : t.label.reads x := by
        unfold uses at hx
        unfold ownKind at hown
        split_ifs at hown with hg hn hb
        rw [Bool.not_eq_true] at hg hn hb
        rw [hg, hn, hb] at hx
        exact hx
      simp only [hreads, if_true, Option.none_or, Option.getD_none]
      cases howner : ownerKind true x outer with
      | some k => rfl
      | none =>
        have hwritten : (isInternalSymbol x && !d.sourceNames.contains x) = false := by
          unfold reads at hreads
          rw [Bool.or_eq_true, contains_iff_mem] at hreads
          rcases hreads with hload | hcell
          · exact hprepared.source x (occurs_of_mem_loadNames hload)
          · obtain rfl : x = "__class__" := by simpa using (Bool.and_eq_true_iff.mp hcell).2
            rfl
        have hlength := (m.marked x).length_eq
        simp only [hwritten, Bool.false_eq_true, if_false, (m.marked x).outward, hlength, houtward]
        exact m.resolveOutward_eq_global (m.placed.2 p hp).2 (houter ▸ howner)

end SourceModule

/-- The kind that the analysis gives a name in a function is the one Python gives it just when, for a name that the function
binds, no scope inside it captures the name past the functions between; and, for a name that it takes from outside, no
`global` declaration of a function around hides a binding further out. -/
theorem resolvedLoadBinding_eq_pythonKind_iff (m : SourceModule) {i : Nat} {t : ScopeTree} {outer : List ScopeBody}
    (hscope : (m.tree.walk [])[i]? = some (t, outer)) (hfunction : t.label.kind = .function) {x : String}
    (hx : t.label.uses x = true) :
    resolvedLoadBinding (buildSnapshot m.tree) i x = some (pythonKind t.label outer x) ↔
      (t.label.defines x = true → innerCaptures x (t.label :: outer) t.children = 0) ∧
        (t.label.ownKind x = none → x ≠ "__class__" → hiddenByGlobal x outer = false) := by
  rw [m.resolvedLoadBinding_eq hscope hfunction hx, pythonKind]
  have hdefines := t.label.defines_eq x
  cases hown : t.label.ownKind x with
  | some k =>
    cases k with
    | «local» =>
      by_cases hcaptures : innerCaptures x (t.label :: outer) t.children = 0
      · simp [hdefines, hcaptures]
      · have hpos : 0 < innerCaptures x (t.label :: outer) t.children := by omega
        simp [hdefines, hcaptures, hpos]
    | «nonlocal» | global => simp [hdefines, hown]
  | none =>
    rw [hown] at hdefines
    have hdefines : t.label.defines x = false := hdefines
    simp only [hdefines, Bool.false_and, Bool.false_eq_true, if_false, Option.getD_none, false_implies, true_and,
      forall_const]
    by_cases hclass : x = "__class__"
    · subst hclass
      simpa using (ownerKind_classCell outer).1
    · rw [ownerKind_of_ne hclass]
      have hhidden := hiddenByGlobal_iff hclass outer
      have hbound := @boundOutside_of_enclosingKind x hclass outer
      cases hkind : enclosingKind x outer with
      | «local» => exact absurd hkind (enclosingKind_ne_local x outer)
      | «nonlocal» =>
        rw [hkind] at hhidden hbound
        simp [hbound rfl, hclass, Bool.eq_false_iff, hhidden]
      | global =>
        rw [hkind] at hhidden
        cases hout : boundOutside x outer with
        | true => simp [hclass, hhidden.mpr ⟨hout, rfl⟩]
        | false =>
          have hnot : hiddenByGlobal x outer = false := by
            rw [Bool.eq_false_iff, Ne, hhidden, hout]
            simp
          simp [hnot]

/-- `def outer(): x = 1; def mid(): global x; def inner(): return x`. -/
def hiddenModule : SourceModule where
  tree := .node { kind := .module, events := [.bind ⟨"outer", true⟩] }
    [.node { kind := .function, name := "outer", events := [.bind ⟨"x", true⟩, .bind ⟨"mid", true⟩] }
      [.node { kind := .function, name := "mid", events := [.declareGlobal ⟨"x", true⟩, .bind ⟨"inner", true⟩] }
        [.node { kind := .function, name := "inner", events := [.load ⟨"x", true⟩] } []]]]
  isModule := rfl
  inner := by decide
  written := by
    unfold ScopeBody.Written
    decide

/-- The analysis does not always agree with Python: in `inner` of `hiddenModule` the name is `outer`'s, past the declaration
of `mid` that makes it global. -/
theorem resolvedLoadBinding_eq_pythonKind_false :
    ¬ ∀ (m : SourceModule) (i : Nat) (t : ScopeTree) (outer : List ScopeBody),
        (m.tree.walk [])[i]? = some (t, outer) → t.label.kind = .function → ∀ x, t.label.uses x = true →
          resolvedLoadBinding (buildSnapshot m.tree) i x = some (pythonKind t.label outer x) := by
  intro h
  have hinner := h hiddenModule 3 _ _ rfl rfl "x" (by decide)
  exact absurd hinner (by decide)

/-- `def outer(): x = 1; def inner(): return x`. -/
def closureModule : SourceModule where
  tree := .node { kind := .module, events := [.bind ⟨"outer", true⟩] }
    [.node { kind := .function, name := "outer", events := [.bind ⟨"x", true⟩, .bind ⟨"inner", true⟩] }
      [.node { kind := .function, name := "inner", events := [.load ⟨"x", true⟩] } []]]
  isModule := rfl
  inner := by decide
  written := by
    unfold ScopeBody.Written
    decide

/-- In `inner` the name `x` is free and no declaration hides it: it is `outer`'s, as in Python. In `outer` the name `inner`,
which nothing captures, is local. -/
theorem resolvedLoadBinding_eq_pythonKind_closure :
    (∃ t outer, (closureModule.tree.walk [])[2]? = some (t, outer) ∧ t.label.ownKind "x" = none ∧
      pythonKind t.label outer "x" = .nonlocal ∧
      resolvedLoadBinding (buildSnapshot closureModule.tree) 2 "x" = some (pythonKind t.label outer "x")) ∧
    ∃ t outer, (closureModule.tree.walk [])[1]? = some (t, outer) ∧ t.label.defines "inner" = true ∧
      pythonKind t.label outer "inner" = .local ∧
      resolvedLoadBinding (buildSnapshot closureModule.tree) 1 "inner" = some (pythonKind t.label outer "inner") := by
  refine ⟨⟨_, _, rfl, by decide, by decide, ?_⟩, ⟨_, _, rfl, by decide, by decide, ?_⟩⟩
  · exact (resolvedLoadBinding_eq_pythonKind_iff closureModule rfl rfl (by decide)).mpr ⟨by decide, by decide⟩
  · exact (resolvedLoadBinding_eq_pythonKind_iff closureModule rfl rfl (by decide)).mpr ⟨by decide, by decide⟩

end Soac
