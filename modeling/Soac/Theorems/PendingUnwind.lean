import Soac.Exceptions.EdgeRun

/-!
# Pending payloads are cleared on the way out

Every edge out of a block with pending payloads is led through blocks that clear the payloads it leaves, the innermost
first. An edge that passes all arguments or none then binds the parameters of the original target as the original edge does;
one that passes only some does not, because the cleanup takes the arguments by their position from the first parameter on.
-/

namespace Soac

open List

variable {K V : Type}

/-! ## One cleanup -/

/-- The storage of a list of payloads. -/
def PendingOwners.locations (owners : PendingOwners) (names : List String) : List NameLocation :=
  names.flatMap fun name => (owners.owner name).values.map (·.location)

variable (owners : PendingOwners)

variable (params : List BlockParam)

theorem dropBlock_clearedLocations (owner : PendingOwner) (label : BlockLabel) (next : BlockEdge) :
    (dropBlock params owner label next : Block (InstrResolved K)).clearedLocations =
      some (owner.values.map (·.location)) := by
  unfold Block.clearedLocations dropBlock
  induction owner.values with
  | nil => rfl
  | cons value values ih =>
    simp only [map_cons, mapM_cons, ih]
    rfl

/-- The handlers of the payloads are among the first of a block. -/
def NestIn (owners : PendingOwners) (names : List String) (b : Block (InstrResolved K)) : Prop :=
  ∀ name ∈ names, (owners.owner name).handlers.map (·.name) <+: b.handledExceptionParams.map (·.name)

section Chain

variable {owners : PendingOwners} {source : Block (InstrResolved K)}

/-- What the asserted prefix of the handlers gives: the blocks, under consecutive labels. -/
theorem dropChain_eq_some (params : List BlockParam) (names : List String) (next : BlockEdge) (label : BlockLabel)
    (hd : NestIn owners names source) :
    ∃ entry blocks, dropChain owners source params names next label = some (entry, blocks, label + names.length) ∧
      blocks.map (·.label) = List.range' label names.length ∧ (entry = next ∨ entry.target ∈ blocks.map (·.label)) ∧
      (∀ b ∈ blocks, ∀ l ∈ b.successors, l = next.target ∨ l ∈ blocks.map (·.label)) := by
  induction names generalizing next label with
  | nil => exact ⟨next, [], rfl, rfl, .inl rfl, by simp⟩
  | cons name names ih =>
    have hname := hd name mem_cons_self
    obtain ⟨entry, blocks, heq, hlabels, hentry, hsucc⟩ := ih
      ⟨label, namedArgs (dropBlock params (owners.owner name) label next : Block (InstrResolved K)).params⟩ (label + 1)
      fun n hn => hd n (mem_cons_of_mem _ hn)
    refine ⟨entry, dropBlock params (owners.owner name) label next :: blocks, ?_, ?_, ?_, ?_⟩
    · rw [dropChain, if_pos hname]
      simp only [heq, Option.map_some, length_cons]
      rw [Nat.add_right_comm, Nat.add_assoc]
    · rw [map_cons, hlabels, length_cons]
      rfl
    · right
      rcases hentry with rfl | h
      · exact mem_cons_self
      · exact mem_cons_of_mem _ h
    · intro b hb l hl
      rcases mem_cons.mp hb with rfl | hb
      · have : l = next.target := by simpa [Block.successors, dropBlock, BlockTerm.edges] using hl
        exact .inl this
      · right
        rcases hsucc b hb l hl with rfl | h
        · exact mem_cons_self
        · exact mem_cons_of_mem _ h

/-- The drop blocks of a chain clear their payloads from the last one to the first, and go on to `next`. -/
theorem routes_dropChain {params : List BlockParam} {names : List String} {next entry : BlockEdge} {label label' : BlockLabel}
    {blocks all : List (Block (InstrResolved K))}
    (h : dropChain owners source params names next label = some (entry, blocks, label')) (hsub : blocks ⊆ all)
    (hl : (all.map (·.label)).Nodup) {goal : BlockLabel} (hgoal : goal < label) {c : PassedValues V} {slots : List String}
    {σ τ : NameLocation → V} {log : List NameLocation} :
    Routes all c slots goal entry σ log τ ↔ ∃ rest, log = owners.locations names.reverse ++ rest ∧
      Routes all c slots goal next (clearSlots c (owners.locations names.reverse) σ) rest τ := by
  induction names generalizing next label blocks σ log with
  | nil =>
    obtain ⟨rfl, rfl, rfl⟩ : next = entry ∧ [] = blocks ∧ label = label' := by simpa [dropChain] using h
    simp [PendingOwners.locations]
  | cons name names ih =>
    rw [dropChain] at h
    split at h
    case isFalse => cases h
    obtain ⟨⟨entry', blocks', l'⟩, hchain, heq⟩ := Option.map_eq_some_iff.mp h
    obtain ⟨rfl, rfl, rfl⟩ : entry' = entry ∧ _ :: blocks' = blocks ∧ l' = label' := by simpa using heq
    have hmem : dropBlock params (owners.owner name) label next ∈ all := hsub mem_cons_self
    rw [ih hchain (fun b hb => hsub (mem_cons_of_mem _ hb)) (Nat.lt_succ_of_lt hgoal)]
    have hthrough : ∀ σ log, Routes all c slots goal
        ⟨label, namedArgs (dropBlock params (owners.owner name) label next : Block (InstrResolved K)).params⟩ σ log τ ↔
        ∃ rest, log = (owners.owner name).values.map (·.location) ++ rest ∧
          Routes all c slots goal next (clearSlots c ((owners.owner name).values.map (·.location)) σ) rest τ := by
      intro σ log
      rw [routes_through_iff hl hmem rfl (Nat.ne_of_gt hgoal) rfl (dropBlock_clearedLocations _ _ _ _),
        bindParams_namedArgs]
    have hlocs : owners.locations (name :: names).reverse =
        owners.locations names.reverse ++ (owners.owner name).values.map (·.location) := by
      simp [PendingOwners.locations]
    simp only [hthrough, hlocs, clearSlots_append]
    constructor
    · rintro ⟨_, rfl, rest, rfl, h⟩
      exact ⟨rest, by rw [append_assoc], h⟩
    · rintro ⟨rest, rfl, h⟩
      exact ⟨_, by rw [append_assoc], rest, rfl, h⟩

end Chain

/-- A parameter list goes on with names that it does not have. -/
def GoesOn (params params' : List BlockParam) : Prop :=
  ∃ extra, params' = params ++ extra ∧ ∀ param ∈ extra, param.name ∉ params.map (·.name)

theorem GoesOn.refl : GoesOn params params :=
  ⟨[], by simp, by simp⟩

theorem GoesOn.trans {params params' params'' : List BlockParam} (h : GoesOn params params')
    (h' : GoesOn params' params'') : GoesOn params params'' := by
  obtain ⟨extra, rfl, he⟩ := h
  obtain ⟨extra', rfl, he'⟩ := h'
  refine ⟨extra ++ extra', append_assoc _ _ _, fun param hp => ?_⟩
  rcases mem_append.mp hp with hp | hp
  · exact he param hp
  · intro hmem
    exact he' param hp (by rw [map_append]; exact mem_append_left _ hmem)

theorem GoesOn.foldl {α : Type} {step : List BlockParam → α → List BlockParam} (hs : ∀ ps a, GoesOn ps (step ps a))
    (as : List α) (params : List BlockParam) : GoesOn params (as.foldl step params) :=
  foldlRecOn as step (.refl params) fun ps h a _ => h.trans (hs ps a)

theorem goesOn_keepParam (name : String) (role : BlockParamRole) : GoesOn params (keepParam params name role) := by
  unfold keepParam
  split
  · exact .refl params
  · rename_i h
    refine ⟨[⟨name, role⟩], rfl, forall_mem_singleton.mpr ?_⟩
    simpa using h

theorem goesOn_cleanupParams (targetParams : List BlockParam) (leaving : List String) :
    GoesOn targetParams (cleanupParams owners targetParams leaving) :=
  .foldl (fun ps name => (goesOn_keepParam ps name _).trans (.foldl (fun ps _ => goesOn_keepParam ps _ _) _ _)) _ _

/-- An edge passes all arguments of its target or none. -/
def AllOrNone (edge : BlockEdge) (params : List BlockParam) : Prop :=
  edge.args = [] ∨ params.length ≤ edge.args.length

instance (edge : BlockEdge) (params : List BlockParam) : Decidable (AllOrNone edge params) :=
  inferInstanceAs (Decidable (_ ∨ _))

section Carrier

variable {target : BlockEdge} {targetParams : List BlockParam}

theorem carrierArgs_append {extra : List BlockParam}
    (he : ∀ param ∈ extra, param.name ∉ targetParams.map (·.name)) :
    carrierArgs target targetParams (targetParams ++ extra) =
      carrierArgs target targetParams targetParams ++ namedArgs extra := by
  rw [carrierArgs, map_append]
  refine congrArg _ (map_congr_left fun param hp => ?_)
  have hnone : targetParams.findIdx? (·.name = param.name) = none := by
    rw [List.findIdx?_eq_none_iff]
    intro p hmem
    rw [decide_eq_false_iff_not]
    intro heq
    exact he param hp (mem_map.mpr ⟨p, hmem, heq⟩)
  rw [hnone]
  rfl

theorem carrierArgs_of_nil (h : target.args = []) (params : List BlockParam) :
    carrierArgs target targetParams params = namedArgs params := by
  refine map_congr_left fun param _ => ?_
  rw [h]
  cases targetParams.findIdx? (·.name = param.name) <;> rfl

theorem carrierArgs_of_le (hn : (targetParams.map (·.name)).Nodup) (h : targetParams.length ≤ target.args.length) :
    carrierArgs target targetParams targetParams = target.args.take targetParams.length := by
  apply ext_getElem
  · simp [carrierArgs, h]
  intro i hi hi'
  have hlt : i < targetParams.length := by simpa [carrierArgs] using hi
  have hidx : targetParams.findIdx? (·.name = targetParams[i].name) = some i := by
    rw [List.findIdx?_eq_some_iff_getElem]
    refine ⟨hlt, by simp, fun j hj => ?_⟩
    rw [decide_eq_true_eq]
    intro heq
    have hsame := inj_on_of_nodup_map hn (getElem_mem _) (getElem_mem _) heq
    exact Nat.ne_of_lt hj ((List.Nodup.of_map _ hn).getElem_inj_iff.mp hsame)
  simp only [carrierArgs, getElem_map, hidx, Option.bind_some, getElem_take]
  rw [List.getElem?_eq_getElem (Nat.lt_of_lt_of_le hlt h), Option.getD_some]

/-- The first block of a cleanup binds what the original edge binds. -/
theorem bindParams_carrier {params : List BlockParam} (hp : GoesOn targetParams params)
    (hn : (targetParams.map (·.name)).Nodup) (ha : AllOrNone target targetParams) (c : PassedValues V)
    (slots : List String) (σ : NameLocation → V) :
    bindParams c slots params (carrierArgs target targetParams params) σ =
      bindParams c slots targetParams target.args σ := by
  rcases ha with ha | ha
  · rw [carrierArgs_of_nil ha, ha, bindParams_namedArgs, bindParams_nil_args]
  · obtain ⟨extra, rfl, he⟩ := hp
    funext loc
    have hlen : (target.args.take targetParams.length).length = targetParams.length := by simpa using ha
    have hzip : targetParams.zip (target.args.take targetParams.length) = targetParams.zip target.args := by
      conv_rhs => rw [← take_append_drop targetParams.length target.args, ← append_nil targetParams,
        zip_append (by simpa using hlen.symm)]
      simp
    rw [bindParams, carrierArgs_append he, carrierArgs_of_le hn ha,
      explicitParams_of_le (by simp [namedArgs, hlen]), zip_append hlen.symm, hzip,
      find_append_named _ (fun _ h => mem_zip_namedArgs h), bindParams, explicitParams_of_le ha]

end Carrier

/-- Among blocks that have those of `gen` and distinct labels, the edge `e'` clears `locs` in order on the way to the target
of `e`, whose parameters are `params`. Before that it binds what `e` binds, if `e` passes all arguments or none. -/
def RoutedWithin (gen : List (Block (InstrResolved K))) (params : List BlockParam) (locs : List NameLocation)
    (e e' : BlockEdge) : Prop :=
  ∀ all : List (Block (InstrResolved K)), gen ⊆ all → (all.map (·.label)).Nodup →
    ∀ t ∈ all, t.label = e.target → t.params = params →
    ∀ (V : Type) (c : PassedValues V) (slots : List String) (σ : NameLocation → V), ∃ bound,
      (AllOrNone e params → bound = bindParams c slots params e.args σ) ∧
      ∀ log τ, Routes all c slots e.target e' σ log τ ↔ log = locs ∧ τ = clearSlots c locs bound

theorem RoutedWithin.mono {gen gen' : List (Block (InstrResolved K))} (hg : gen ⊆ gen') {params : List BlockParam}
    {locs : List NameLocation} {e e' : BlockEdge} (h : RoutedWithin gen params locs e e') :
    RoutedWithin gen' params locs e e' :=
  fun all hsub => h all (List.Subset.trans hg hsub)

/-- An edge that leaves no payload stays. -/
theorem RoutedWithin.refl (gen : List (Block (InstrResolved K))) (params : List BlockParam) (e : BlockEdge) :
    RoutedWithin gen params [] e e := by
  rintro all - hl t ht hlabel rfl V c slots σ
  refine ⟨_, fun _ => rfl, fun log τ => ?_⟩
  rw [routes_arrive_iff hl ht hlabel rfl, clearSlots_nil]

/-- `cleanup_chain` succeeds where the payloads are declared within the handlers of the source. Its blocks have consecutive
labels, and the edge into them clears the payloads and delivers what the original edge delivers. -/
theorem cleanupChain_spec {owners : PendingOwners} {source : Block (InstrResolved K)} {target : BlockEdge}
    {targetParams : List BlockParam} {leaving : List String} {label : BlockLabel}
    (hd : NestIn owners leaving source) (hn : (targetParams.map (·.name)).Nodup) (hlt : target.target < label) :
    ∃ entry blocks, cleanupChain owners source target targetParams leaving label =
        some (entry, blocks, label + blocks.length) ∧
      blocks.map (·.label) = List.range' label blocks.length ∧ entry.target ∈ blocks.map (·.label) ∧
      (∀ b ∈ blocks, ∀ l ∈ b.successors, l = target.target ∨ l ∈ blocks.map (·.label)) ∧
      RoutedWithin blocks targetParams (owners.locations leaving) target entry ∧
      (target.args = [] →
        RoutedWithin blocks targetParams (owners.locations leaving) target ⟨entry.target, []⟩) := by
  have hd' : NestIn owners leaving.reverse source := fun name h => hd name (mem_reverse.mp h)
  generalize hparams : cleanupParams owners targetParams leaving = params
  have hon : GoesOn targetParams params := hparams ▸ goesOn_cleanupParams owners targetParams leaving
  obtain ⟨first, drops, hchain, hlabels, hfirst, hsucc⟩ :=
    dropChain_eq_some params leaving.reverse ⟨target.target, namedArgs targetParams⟩ label hd'
  rw [length_reverse] at hchain hlabels
  have hlen : drops.length = leaving.length := by
    rw [← length_map (f := (·.label)), hlabels, length_range']
  have hclear : (carrierBlock params (label + leaving.length) first : Block (InstrResolved K)).clearedLocations =
      some [] := rfl
  have hroutes : ∀ all : List (Block (InstrResolved K)), drops ++ [carrierBlock params (label + leaving.length) first] ⊆ all → (all.map (·.label)).Nodup →
      ∀ t ∈ all, t.label = target.target → t.params = targetParams →
      ∀ (V : Type) (c : PassedValues V) (slots : List String) (args : List BlockArg) (σ : NameLocation → V)
        (log : List NameLocation) (τ : NameLocation → V),
        Routes all c slots target.target ⟨label + leaving.length, args⟩ σ log τ ↔
          log = owners.locations leaving ∧
            τ = clearSlots c (owners.locations leaving) (bindParams c slots params args σ) := by
    rintro all hsub hl t ht htl rfl V c slots args σ log τ
    have hmem := hsub (mem_append_right drops (mem_singleton_self _))
    have hne : label + leaving.length ≠ target.target :=
      Nat.ne_of_gt (Nat.lt_of_lt_of_le hlt (Nat.le_add_right _ _))
    have harrive : ∀ σ log τ, Routes all c slots target.target ⟨target.target, namedArgs t.params⟩ σ log τ ↔
        log = [] ∧ τ = σ := by
      intro σ log τ
      rw [routes_arrive_iff hl ht htl (by rfl), bindParams_namedArgs]
    rw [routes_through_iff hl hmem rfl hne rfl hclear]
    simp only [nil_append, exists_eq_left', carrierBlock, clearSlots_nil]
    rw [routes_dropChain hchain (fun b hb => hsub (mem_append_left _ hb)) hl hlt, reverse_reverse]
    simp only [harrive]
    constructor
    · rintro ⟨_, rfl, rfl, rfl⟩
      exact ⟨append_nil _, rfl⟩
    · rintro ⟨rfl, rfl⟩
      exact ⟨[], (append_nil _).symm, rfl, rfl⟩
  refine ⟨⟨label + leaving.length, carrierArgs target targetParams params⟩,
    drops ++ [carrierBlock params (label + leaving.length) first], ?_, ?_, ?_, ?_, ?_, ?_⟩
  · simp only [cleanupChain, hparams, hchain, Option.map_some, length_append, hlen, length_singleton]
    rfl
  · rw [map_append, hlabels, length_append, hlen, length_singleton, List.range'_concat]
    simp [carrierBlock]
  · rw [map_append]
    exact mem_append_right _ mem_cons_self
  · intro b hb l hl
    rw [map_append, mem_append]
    rcases mem_append.mp hb with hb | hb
    · exact (hsucc b hb l hl).imp id Or.inl
    · rw [mem_singleton] at hb
      have hfirst' : l = first.target := by simpa [hb, carrierBlock, Block.successors, BlockTerm.edges] using hl
      subst hfirst'
      rcases hfirst with rfl | h
      · exact .inl rfl
      · exact .inr (.inl h)
  · intro all hsub hl t ht htl htp V c slots σ
    exact ⟨_, fun ha => bindParams_carrier hon hn ha c slots σ, hroutes all hsub hl t ht htl htp V c slots _ σ⟩
  · intro hargs all hsub hl t ht htl htp V c slots σ
    refine ⟨_, fun _ => ?_, hroutes all hsub hl t ht htl htp V c slots [] σ⟩
    rw [hargs, bindParams_nil_args, bindParams_nil_args]

/-! ## What the pass keeps -/

section Pass

variable {f : TransportFunction K} {owners : PendingOwners}

/-- The local the generator gives out with a number. -/
def TransportFunction.tmp (f : TransportFunction K) (k : Nat) : ResolvedName :=
  ⟨f.tmpName k, .local (f.stackSlots.length + k)⟩

/-- A block that raises the exception it gets. -/
def IsEscape (f : TransportFunction K) (k : Nat) (b : Block (InstrResolved K)) : Prop :=
  b.params = [⟨(f.tmp k).id, .exception⟩] ∧ b.body = [] ∧ b.term = .raise (some (.mk .frame (.load (f.tmp k)) []))

/-- A block that returns what it gets. -/
def IsReturn (f : TransportFunction K) (k : Nat) (b : Block (InstrResolved K)) : Prop :=
  b.params = [⟨(f.tmp k).id, .value⟩] ∧ b.body = [] ∧ b.term = .ret (.mk .frame (.load (f.tmp k)) [])

/-- What the pass has made is consistent: the new blocks have the labels and the new locals the names given out so far, an
edge between blocks has a target, and the parameters of a target can be found. -/
structure PendingState.Ok (f : TransportFunction K) (st : PendingState K) : Prop where
  next : st.nextBlockName = f.nextBlockName + st.generated.length
  labels : st.generated.map (·.label) = List.range' f.nextBlockName st.generated.length
  closed : ∀ b ∈ st.generated, ∀ l ∈ b.successors, l ∈ f.labels ∨ l ∈ st.generated.map (·.label)
  params : ∀ b ∈ f.blocks, st.targetParams.lookup b.label = some b.params
  slots : st.stackSlots = f.stackSlots ++ (List.range st.nextTmp).map f.tmpName
  escape : ∀ l, st.escaping = some l → ∃ k < st.nextTmp, ∃ b ∈ st.generated, b.label = l ∧ IsEscape f k b ∧
    st.targetParams.lookup l = some b.params

/-- The pass only adds. -/
structure PendingState.Grows (st st' : PendingState K) : Prop where
  generated : st.generated ⊆ st'.generated
  nextTmp : st.nextTmp ≤ st'.nextTmp

theorem PendingState.Grows.refl (st : PendingState K) : st.Grows st :=
  ⟨List.Subset.refl _, Nat.le_refl _⟩

variable {st st' : PendingState K} {b : Block (InstrResolved K)} {blocks : List (Block (InstrResolved K))}
  {b' : Block (InstrResolved K)} {I : Type} {R : BlockEdge → BlockEdge → Prop} {t : BlockTerm I}

theorem PendingState.Grows.trans {st'' : PendingState K} (h : st.Grows st') (h' : st'.Grows st'') : st.Grows st'' :=
  ⟨List.Subset.trans h.generated h'.generated, Nat.le_trans h.nextTmp h'.nextTmp⟩

/-- A label of the function, or of a block the pass has made. -/
def PendingState.Defines (f : TransportFunction K) (st : PendingState K) (l : BlockLabel) : Prop :=
  l ∈ f.labels ∨ l ∈ st.generated.map (·.label)

variable {l : BlockLabel}

theorem PendingState.Grows.defines (h : st.Grows st') (hl : st.Defines f l) : st'.Defines f l :=
  hl.imp id fun hl => map_subset _ h.generated hl

theorem PendingState.Ok.label_lt (h : st.Ok f) (hl : st.Defines f l) : l < st.nextBlockName := by
  rw [h.next]
  rcases hl with hl | hl
  · obtain ⟨b, hb, rfl⟩ := mem_map.mp hl
    exact Nat.lt_of_lt_of_le (f.labelsBelow b hb) (Nat.le_add_right _ _)
  · rw [h.labels, mem_range'_1] at hl
    exact hl.2

theorem PendingState.Ok.label_ge (h : st.Ok f) (hb : b ∈ st.generated) : f.nextBlockName ≤ b.label := by
  have hl : b.label ∈ st.generated.map (·.label) := mem_map_of_mem hb
  rw [h.labels, mem_range'_1] at hl
  exact hl.1

/-- A new label is none of the function. -/
theorem not_mem_labels (h : f.nextBlockName ≤ l) : l ∉ f.labels := by
  intro hl
  obtain ⟨b, hb, rfl⟩ := mem_map.mp hl
  exact absurd (f.labelsBelow b hb) (Nat.not_lt_of_le h)

/-- Blocks under the next labels keep the rest. -/
theorem PendingState.Ok.append (h : st.Ok f) (hlabels : blocks.map (·.label) = List.range' st.nextBlockName blocks.length)
    (hclosed : ∀ b ∈ blocks, ∀ l ∈ b.successors, st.Defines f l ∨ l ∈ blocks.map (·.label)) : PendingState.Ok f { st with
      nextBlockName := st.nextBlockName + blocks.length, generated := st.generated ++ blocks } where
  next := by
    rw [h.next, length_append]
    exact Nat.add_assoc _ _ _
  labels := by
    rw [map_append, h.labels, hlabels, h.next, length_append, List.range'_append_1]
  closed := by
    intro b hb l hl
    rw [map_append, mem_append]
    rcases mem_append.mp hb with hb | hb
    · exact (h.closed b hb l hl).imp id Or.inl
    · rcases hclosed b hb l hl with (h | h) | h
      · exact .inl h
      · exact .inr (.inl h)
      · exact .inr (.inr h)
  params := h.params
  slots := h.slots
  escape := by
    intro l hl
    obtain ⟨k, hk, b, hb, hrest⟩ := h.escape l hl
    exact ⟨k, hk, b, mem_append_left _ hb, hrest⟩

variable {edge : BlockEdge} {params : List BlockParam}

/-- One edge: it is led to its target, and where it leaves a payload its new target is a new block. -/
theorem routeEdge_spec {source : Block (InstrResolved K)} (hok : st.Ok f) (hdef : st.Defines f edge.target)
    (hlookup : st.targetParams.lookup edge.target = some params) (hn : (params.map (·.name)).Nodup)
    (hd : NestIn owners (edgeLeaving f owners source edge) source) :
    ∃ e' st', routeEdge f owners source edge st = some (e', st') ∧ st'.Ok f ∧ st.Grows st' ∧ st'.Defines f e'.target ∧
      (edgeLeaving f owners source edge = [] → e' = edge) ∧
      (edgeLeaving f owners source edge ≠ [] → f.nextBlockName ≤ e'.target) ∧
      RoutedWithin st'.generated params (owners.locations (edgeLeaving f owners source edge)) edge e' ∧
      (edge.args = [] →
        RoutedWithin st'.generated params (owners.locations (edgeLeaving f owners source edge)) edge ⟨e'.target, []⟩) := by
  generalize hleaving : edgeLeaving f owners source edge = leaving at hd ⊢
  by_cases hnil : leaving = []
  · subst hnil
    refine ⟨edge, st, by rw [routeEdge, if_pos hleaving], hok, .refl st, hdef, fun _ => rfl, by simp, .refl _ _ _, ?_⟩
    rintro hargs
    have hedge : edge = ⟨edge.target, []⟩ := by rw [← hargs]
    rw [← hedge]
    exact .refl _ _ _
  · obtain ⟨entry, blocks, heq, hlabels, hentry, hsucc, hroute, hroute'⟩ :=
      cleanupChain_spec hd hn (hok.label_lt hdef)
    have hclosed : ∀ b ∈ blocks, ∀ l ∈ b.successors, st.Defines f l ∨ l ∈ blocks.map (·.label) := by
      intro b hb l hl
      rcases hsucc b hb l hl with rfl | h
      · exact .inl hdef
      · exact .inr h
    have hok' := hok.append hlabels hclosed
    have hsub : blocks ⊆ st.generated ++ blocks := subset_append_right _ _
    refine ⟨entry, _, ?_, hok', ⟨subset_append_left _ _, Nat.le_refl _⟩, ?_, fun h => absurd h hnil, fun _ => ?_,
      hroute.mono hsub, fun hargs => (hroute' hargs).mono hsub⟩
    · rw [routeEdge, if_neg (hleaving ▸ hnil), hlookup, Option.bind_some, hleaving, heq, Option.map_some]
    · right
      rw [map_append]
      exact mem_append_right _ hentry
    · obtain ⟨b, hb, hbl⟩ := mem_map.mp hentry
      rw [← hbl]
      exact hok'.label_ge (mem_append_right _ hb)

theorem dropChain_congr {source source' : Block (InstrResolved K)}
    (h : source.handledExceptionParams = source'.handledExceptionParams) (params : List BlockParam) (names : List String)
    (next : BlockEdge) (label : BlockLabel) :
    dropChain owners source params names next label = dropChain owners source' params names next label := by
  induction names generalizing next label with
  | nil => rfl
  | cons name names ih => simp only [dropChain, h, ih]

/-- Two blocks with the same parameters, under the same handlers. -/
structure SameFrame (b b' : Block (InstrResolved K)) : Prop where
  params : b'.params = b.params
  handled : b'.handledException = b.handledException

theorem SameFrame.edgeLeaving (h : SameFrame b b') (edge : BlockEdge) :
    edgeLeaving f owners b' edge = edgeLeaving f owners b edge := by
  simp only [Soac.edgeLeaving, pendingStack, Block.pendingAbruptPayloadParams, h.params, h.handled]

/-- Only the parameters of the source matter. -/
theorem SameFrame.routeEdge (h : SameFrame b b') (edge : BlockEdge)
    (st : PendingState K) : routeEdge f owners b' edge st = routeEdge f owners b edge st := by
  have hhandled : b'.handledExceptionParams = b.handledExceptionParams := by
    simp only [Block.handledExceptionParams, h.params, h.handled]
  simp only [Soac.routeEdge, cleanupChain, h.edgeLeaving, dropChain_congr hhandled]

theorem sameFrame_term (b : Block (InstrResolved K)) (term : BlockTerm (InstrResolved K)) : SameFrame b { b with term } :=
  ⟨rfl, rfl⟩

/-! ## Normal edges -/

/-- Two terminators that differ in their edges only. -/
inductive TermRouted {I : Type} (R : BlockEdge → BlockEdge → Prop) : BlockTerm I → BlockTerm I → Prop
  | jump {e e' : BlockEdge} : R e e' → TermRouted R (.jump e) (.jump e')
  | ifTerm {test : I} {t e t' e' : BlockLabel} : R ⟨t, []⟩ ⟨t', []⟩ → R ⟨e, []⟩ ⟨e', []⟩ →
      TermRouted R (.ifTerm test t e) (.ifTerm test t' e')
  | branchTable {index : I} {targets targets' : List BlockLabel} {d d' : BlockLabel} :
      List.Forall₂ (fun l l' => R ⟨l, []⟩ ⟨l', []⟩) targets targets' → R ⟨d, []⟩ ⟨d', []⟩ →
      TermRouted R (.branchTable index targets d) (.branchTable index targets' d')
  | raise {exc : Option I} : TermRouted R (.raise exc) (.raise exc)
  | ret {value : I} : TermRouted R (.ret value) (.ret value)
  | generatorReturn {value : I} : TermRouted R (.generatorReturn value) (.generatorReturn value)

theorem TermRouted.mono {R' : BlockEdge → BlockEdge → Prop} (hr : ∀ e e', R e e' → R' e e')
    {t' : BlockTerm I} (h : TermRouted R t t') : TermRouted R' t t' := by
  cases h with
  | jump h => exact .jump (hr _ _ h)
  | ifTerm h h' => exact .ifTerm (hr _ _ h) (hr _ _ h')
  | branchTable h h' => exact .branchTable (h.imp fun _ _ => hr _ _) (hr _ _ h')
  | raise => exact .raise
  | ret => exact .ret
  | generatorReturn => exact .generatorReturn

/-- The targets of a terminator. -/
theorem TermRouted.targets {P : BlockLabel → Prop}
    (hr : ∀ e e', R e e' → P e'.target) {t' : BlockTerm I} (h : TermRouted R t t') : ∀ e ∈ t'.edges, P e.target := by
  cases h with
  | jump h => exact forall_mem_singleton.mpr (hr _ _ h)
  | ifTerm h h' => exact forall_mem_cons.mpr ⟨hr _ _ h, forall_mem_singleton.mpr (hr _ _ h')⟩
  | branchTable h h' =>
    refine forall_mem_append.mpr ⟨forall_mem_map.mpr fun l hl => ?_, forall_mem_singleton.mpr (hr _ _ h')⟩
    obtain ⟨l', -, hl'⟩ := forall₂_mem_right h hl
    exact hr _ _ hl'
  | _ => exact forall_mem_nil _

/-- A terminator other than a jump, under other labels. -/
def BlockTerm.mapLabels (g : BlockLabel → BlockLabel) : BlockTerm I → BlockTerm I
  | .ifTerm test t e => .ifTerm test (g t) (g e)
  | .branchTable index targets d => .branchTable index (targets.map g) (g d)
  | term => term

@[simp] theorem BlockTerm.mapLabels_id (t : BlockTerm I) : t.mapLabels id = t := by
  cases t <;> simp [BlockTerm.mapLabels]

theorem BlockTerm.replaceTarget_mapLabels (ht : ∀ e, t ≠ .jump e) (g : BlockLabel → BlockLabel)
    (l m : BlockLabel) : (t.mapLabels g).replaceTarget l m = t.mapLabels fun x => if g x = l then m else g x := by
  cases t with
  | jump e => exact absurd rfl (ht e)
  | _ => simp [BlockTerm.mapLabels, BlockTerm.replaceTarget, Function.comp_def]

theorem BlockTerm.mapLabels_ne_jump (ht : ∀ e, t ≠ .jump e) (g : BlockLabel → BlockLabel)
    (e : BlockEdge) : t.mapLabels g ≠ .jump e := by
  cases t with
  | jump e' => exact absurd rfl (ht e')
  | _ => simp [BlockTerm.mapLabels]

theorem TermRouted.mapLabels (ht : ∀ e, t ≠ .jump e)
    {g : BlockLabel → BlockLabel} (h : ∀ e ∈ t.edges, R ⟨e.target, []⟩ ⟨g e.target, []⟩) :
    TermRouted R t (t.mapLabels g) := by
  cases t with
  | jump e => exact absurd rfl (ht e)
  | ifTerm test l m => exact .ifTerm (h ⟨l, []⟩ (by simp [BlockTerm.edges])) (h ⟨m, []⟩ (by simp [BlockTerm.edges]))
  | branchTable index targets d =>
    refine .branchTable (List.forall₂_map_right_iff.mpr (List.forall₂_same.mpr fun l hl => ?_)) ?_
    · exact h ⟨l, []⟩ (by simp [BlockTerm.edges, hl])
    · exact h ⟨d, []⟩ (by simp [BlockTerm.edges])
  | raise exc => exact .raise
  | ret value => exact .ret
  | generatorReturn value => exact .generatorReturn

/-- The edge is led to its target from a block of the function. -/
def EdgeOk (f : TransportFunction K) (owners : PendingOwners) (b : Block (InstrResolved K)) (st : PendingState K)
    (e e' : BlockEdge) : Prop :=
  st.Defines f e'.target ∧ ∀ t ∈ f.blocks, t.label = e.target →
    RoutedWithin st.generated t.params (owners.locations (edgeLeaving f owners b e)) e e'

theorem EdgeOk.mono (hg : st.Grows st') {e e' : BlockEdge} (h : EdgeOk f owners b st e e') : EdgeOk f owners b st' e e' :=
  ⟨hg.defines h.1, fun t ht htl => (h.2 t ht htl).mono hg.generated⟩

/-- The handlers of the payloads an edge leaves are among the first of the source, as asserted. -/
def EdgeNests (f : TransportFunction K) (owners : PendingOwners) (b : Block (InstrResolved K)) (e : BlockEdge) : Prop :=
  ∀ name ∈ edgeLeaving f owners b e,
    (owners.owner name).handlers.map (·.name) <+: b.handledExceptionParams.map (·.name)

/-- One edge to a block of the function. -/
theorem routeEdge_ok (hok : st.Ok f) (htarget : edge.target ∈ f.labels) (hd : EdgeNests f owners b edge) :
    ∃ e' st', routeEdge f owners b edge st = some (e', st') ∧ st'.Ok f ∧ st.Grows st' ∧ EdgeOk f owners b st' edge e' ∧
      (edge.args = [] → EdgeOk f owners b st' edge ⟨e'.target, []⟩) ∧
      (edgeLeaving f owners b edge = [] → e' = edge) ∧
      (edgeLeaving f owners b edge ≠ [] → f.nextBlockName ≤ e'.target) := by
  obtain ⟨t, ht, htl⟩ := mem_map.mp htarget
  obtain ⟨e', st', heq, hok', hg, hdef, hnil, hne, hroute, hroute'⟩ :=
    routeEdge_spec hok (.inl htarget) (htl ▸ hok.params t ht) (f.paramsNodup t ht) hd
  have honly : ∀ t' ∈ f.blocks, t'.label = edge.target → t' = t := fun t' ht' htl' =>
    f.eq_of_label ht' ht (htl'.trans htl.symm)
  refine ⟨e', st', heq, hok', hg, ⟨hdef, fun t' ht' htl' => ?_⟩, fun hargs => ⟨hdef, fun t' ht' htl' => ?_⟩, hnil, hne⟩
  · rw [honly t' ht' htl']
    exact hroute
  · rw [honly t' ht' htl']
    exact hroute' hargs

/-- The loop over the edges of a branch. `g` is what the labels have become: a label is as it was or leads to its block
through new ones, and after the loop every label of the list does. -/
theorem routeNormalEdges_branch {t : BlockTerm (InstrResolved K)} (ht : ∀ e, t ≠ .jump e) :
    ∀ (ls : List BlockLabel) (g : BlockLabel → BlockLabel) (st : PendingState K), st.Ok f → (∀ l ∈ ls, l ∈ f.labels) →
    (∀ l ∈ ls, EdgeNests f owners b ⟨l, []⟩) →
    (∀ x, g x = x ∨ f.nextBlockName ≤ g x ∧ EdgeOk f owners b st ⟨x, []⟩ ⟨g x, []⟩) →
    ∃ g' st', routeNormalEdges f owners (ls.map fun l => ⟨l, []⟩) { b with term := t.mapLabels g } st =
        some ({ b with term := t.mapLabels g' }, st') ∧ st'.Ok f ∧ st.Grows st' ∧
      (∀ x, EdgeOk f owners b st ⟨x, []⟩ ⟨g x, []⟩ → EdgeOk f owners b st' ⟨x, []⟩ ⟨g' x, []⟩) ∧
      ∀ l ∈ ls, EdgeOk f owners b st' ⟨l, []⟩ ⟨g' l, []⟩ := by
  intro ls
  induction ls with
  | nil =>
    intro g st hok _ _ _
    exact ⟨g, st, rfl, hok, .refl st, fun _ h => h, by simp⟩
  | cons l ls ih =>
    intro g st hok hlabels hd hinv
    have hl : l ∈ f.labels := hlabels l mem_cons_self
    obtain ⟨e', st₁, heq, hok₁, hg₁, hedge, hedge', hnil, hne⟩ := routeEdge_ok hok (by exact hl) (hd l mem_cons_self)
    have hlt : l < f.nextBlockName := Nat.lt_of_not_le fun hle => not_mem_labels hle hl
    -- only the label itself can have become `l`
    have hself : ∀ x, g x = l → x = l := by
      intro x hx
      rcases hinv x with h | ⟨h, -⟩
      · exact h.symm.trans hx
      · rw [hx] at h
        exact absurd hlt (Nat.not_lt_of_le h)
    obtain ⟨g₁, hstep, hchanged, hl₁⟩ : ∃ g₁, (∀ st' r, routeNormalEdges f owners (ls.map fun l => ⟨l, []⟩)
          { b with term := t.mapLabels g₁ } st₁ = some (r, st') →
        routeNormalEdges f owners ((l :: ls).map fun l => ⟨l, []⟩) { b with term := t.mapLabels g } st = some (r, st')) ∧
        (∀ x, g₁ x = g x ∨ x = l ∧ f.nextBlockName ≤ g₁ x) ∧ EdgeOk f owners b st₁ ⟨l, []⟩ ⟨g₁ l, []⟩ := by
      simp only [map_cons, routeNormalEdges, (sameFrame_term b _).routeEdge, heq, Option.bind_some,
        (sameFrame_term b _).edgeLeaving]
      by_cases hleave : edgeLeaving f owners b ⟨l, []⟩ = []
      · obtain rfl := hnil hleave
        refine ⟨g, fun st' r h => by rwa [if_pos hleave], fun x => .inl rfl, ?_⟩
        rcases hinv l with h | h
        · rw [h]
          exact hedge
        · exact h.2.mono hg₁
      · have hterm : (t.mapLabels g).replaceEdge ⟨l, []⟩ e' = t.mapLabels fun x => if g x = l then e'.target else g x := by
          rw [← BlockTerm.replaceTarget_mapLabels ht]
          cases hm : t.mapLabels g with
          | jump e => exact absurd hm (BlockTerm.mapLabels_ne_jump ht g e)
          | _ => rfl
        refine ⟨fun x => if g x = l then e'.target else g x, fun st' r h => by rwa [if_neg hleave, hterm], fun x => ?_, ?_⟩
        · dsimp only
          split
          · next hx => exact .inr ⟨hself x hx, hne hleave⟩
          · exact .inl rfl
        · dsimp only
          split
          · exact hedge' rfl
          · next hgl =>
            rcases hinv l with h | h
            · exact absurd h hgl
            · exact h.2.mono hg₁
    have hkeep₁ : ∀ x, EdgeOk f owners b st ⟨x, []⟩ ⟨g x, []⟩ → EdgeOk f owners b st₁ ⟨x, []⟩ ⟨g₁ x, []⟩ := by
      intro x hx
      rcases hchanged x with h | ⟨rfl, -⟩
      · rw [h]
        exact hx.mono hg₁
      · exact hl₁
    have hinv₁ : ∀ x, g₁ x = x ∨ f.nextBlockName ≤ g₁ x ∧ EdgeOk f owners b st₁ ⟨x, []⟩ ⟨g₁ x, []⟩ := by
      intro x
      rcases hchanged x with h | ⟨rfl, hge⟩
      · rw [h]
        exact (hinv x).imp id fun h => ⟨h.1, h.2.mono hg₁⟩
      · exact .inr ⟨hge, hl₁⟩
    obtain ⟨g', st', heq', hok', hg', hkeep, hall⟩ := ih g₁ st₁ hok₁ (fun x hx => hlabels x (mem_cons_of_mem _ hx))
      (fun x hx => hd x (mem_cons_of_mem _ hx)) hinv₁
    refine ⟨g', st', hstep _ _ heq', hok', hg₁.trans hg', fun x hx => hkeep x (hkeep₁ x hx), ?_⟩
    exact forall_mem_cons.mpr ⟨hkeep l hl₁, hall⟩

/-- The normal edges of a block. -/
theorem routeNormalEdges_spec (hok : st.Ok f)
    (htargets : ∀ e ∈ b.term.edges, e.target ∈ f.labels) (hd : ∀ e ∈ b.term.edges, EdgeNests f owners b e) :
    ∃ term' st', routeNormalEdges f owners b.term.edges b st = some ({ b with term := term' }, st') ∧ st'.Ok f ∧
      st.Grows st' ∧ TermRouted (EdgeOk f owners b st') b.term term' := by
  by_cases hjump : ∃ e, b.term = .jump e
  · obtain ⟨e, he⟩ := hjump
    have hmem : e ∈ b.term.edges := by rw [he]; exact mem_singleton_self e
    obtain ⟨e', st', heq, hok', hg, hedge, -, hnil, -⟩ := routeEdge_ok hok (htargets e hmem) (hd e hmem)
    refine ⟨.jump e', st', ?_, hok', hg, ?_⟩
    · rw [he]
      simp only [BlockTerm.edges, routeNormalEdges, heq, Option.bind_some]
      split
      · rename_i hl
        rw [hnil hl, ← he]
      · rw [he]
        rfl
    · rw [he]
      exact .jump hedge
  · have ht : ∀ e, b.term ≠ .jump e := fun e he => hjump ⟨e, he⟩
    have hedges : b.term.edges = (b.term.edges.map (·.target)).map fun l => ⟨l, []⟩ := by
      cases hb : b.term with
      | jump e => exact absurd hb (ht e)
      | _ => simp [BlockTerm.edges, Function.comp_def]
    rw [hedges, forall_mem_map] at hd
    obtain ⟨g', st', heq, hok', hg, -, hall⟩ :=
      routeNormalEdges_branch ht (b.term.edges.map (·.target)) id st hok (forall_mem_map.mpr htargets) hd fun x => .inl rfl
    refine ⟨b.term.mapLabels g', st', ?_, hok', hg, .mapLabels ht fun e he => hall _ (mem_map_of_mem he)⟩
    rw [BlockTerm.mapLabels_id, ← hedges] at heq
    exact heq

/-! ## Return and escape -/

variable {exit : Block (InstrResolved K)}

/-- A block without successors that gets one new local. -/
theorem PendingState.Ok.addExit (h : st.Ok f)
    (hlabel : exit.label = st.nextBlockName) (hsucc : exit.successors = []) (order : Nat) {escaping : Option BlockLabel}
    (he : escaping = st.escaping ∨ escaping = some exit.label ∧ IsEscape f st.nextTmp exit) : PendingState.Ok f
      { nextBlockName := st.nextBlockName + 1
        nextTmp := st.nextTmp + 1
        stackSlots := st.stackSlots ++ [f.tmpName st.nextTmp]
        order
        targetParams := (st.nextBlockName, exit.params) :: st.targetParams
        generated := st.generated ++ [exit]
        escaping } := by
  have hlabels : [exit].map (·.label) = List.range' st.nextBlockName [exit].length := by simp [hlabel]
  have happend := h.append hlabels (by simp [hsucc])
  have hlookup : ∀ l, st.Defines f l →
      ((st.nextBlockName, exit.params) :: st.targetParams).lookup l = st.targetParams.lookup l := by
    intro l hl
    rw [lookup_cons, beq_eq_false_iff_ne.mpr (Nat.ne_of_lt (h.label_lt hl))]
  refine ⟨happend.next, happend.labels, happend.closed, fun b hb => ?_, ?_, fun l hl => ?_⟩
  · rw [hlookup b.label (.inl (mem_map_of_mem hb))]
    exact h.params b hb
  · simp only [h.slots, range_succ, map_append, append_assoc, map_cons, map_nil]
  · rcases he with rfl | ⟨rfl, hexit⟩
    · obtain ⟨k, hk, b, hb, hbl, hesc, hparams⟩ := h.escape l hl
      refine ⟨k, Nat.lt_succ_of_lt hk, b, mem_append_left _ hb, hbl, hesc, ?_⟩
      rw [hlookup l (.inr (hbl ▸ mem_map_of_mem hb))]
      exact hparams
    · obtain rfl : exit.label = l := Option.some.inj hl
      exact ⟨st.nextTmp, Nat.lt_succ_self _, exit, mem_append_right _ (mem_singleton_self _), rfl, hexit,
        by simp [hlabel]⟩

theorem PendingState.Ok.freshLocal_eq (h : st.Ok f) : (freshLocal f st).1 = f.tmp st.nextTmp := by
  simp [freshLocal, TransportFunction.tmp, h.slots]

/-- Outside the function nothing is pending. -/
theorem edgeLeaving_of_new (h : f.nextBlockName ≤ edge.target) :
    edgeLeaving f owners b edge = (pendingStack owners b).reverse := by
  have hnone : f.block? edge.target = none := by
    refine Option.eq_none_iff_forall_ne_some.mpr fun t hb => ?_
    obtain ⟨ht, htl⟩ := f.block?_mem hb
    exact not_mem_labels h (mem_map.mpr ⟨t, ht, htl⟩)
  simp [edgeLeaving, targetStack, hnone, leavingPayloads]

/-- An edge to a new block that nothing is pending in. -/
theorem routeEdge_exit (args : List BlockArg) (hok : st.Ok f)
    (hexit : exit ∈ st.generated) (hlookup : st.targetParams.lookup exit.label = some exit.params)
    (hn : (exit.params.map (·.name)).Nodup) (hd : NestIn owners (pendingStack owners b) b) :
    ∃ e' st', routeEdge f owners b ⟨exit.label, args⟩ st = some (e', st') ∧ st'.Ok f ∧ st.Grows st' ∧
      st'.Defines f e'.target ∧
      RoutedWithin st'.generated exit.params (owners.locations (pendingStack owners b).reverse) ⟨exit.label, args⟩ e' := by
  have hleaving : edgeLeaving f owners b ⟨exit.label, args⟩ = (pendingStack owners b).reverse :=
    edgeLeaving_of_new (hok.label_ge hexit)
  have hdef : st.Defines f exit.label := .inr (mem_map_of_mem hexit)
  have hnests : EdgeNests f owners b ⟨exit.label, args⟩ := by
    intro name hname
    rw [hleaving] at hname
    exact hd name (mem_reverse.mp hname)
  obtain ⟨e', st', heq, hok', hg, hdef', -, -, hroute, -⟩ := routeEdge_spec hok (by exact hdef) (by exact hlookup) hn hnests
  rw [hleaving] at hroute
  exact ⟨e', st', heq, hok', hg, hdef', hroute⟩

/-- The way out of a function for an exception of the block. -/
def EscapeOk (f : TransportFunction K) (owners : PendingOwners) (b : Block (InstrResolved K)) (st : PendingState K)
    (e' : BlockEdge) : Prop :=
  st.Defines f e'.target ∧ ∃ k < st.nextTmp, ∃ exit ∈ st.generated, IsEscape f k exit ∧
    RoutedWithin st.generated exit.params (owners.locations (pendingStack owners b).reverse)
      ⟨exit.label, [.currentException]⟩ e'

/-- What has become of the return of the block: the value is stored first and returned after the cleanup. -/
def ReturnOk (f : TransportFunction K) (owners : PendingOwners) (b : Block (InstrResolved K)) (value : InstrResolved K)
    (st : PendingState K) (b' : Block (InstrResolved K)) : Prop :=
  ∃ e', st.Defines f e'.target ∧ b'.term = .jump e' ∧ ∃ k < st.nextTmp, ∃ exit ∈ st.generated, IsReturn f k exit ∧
    (∃ order, b'.body = b.body ++ [.mk (.operand order) (.store (f.tmp k)) [value]]) ∧
    RoutedWithin st.generated exit.params (owners.locations (pendingStack owners b).reverse) ⟨exit.label, []⟩ e'

/-- The exception edge of the block. -/
def ExceptionOk (f : TransportFunction K) (owners : PendingOwners) (b : Block (InstrResolved K)) (st : PendingState K)
    (e' : BlockEdge) : Prop :=
  (∀ e, b.excEdge = some e → EdgeOk f owners b st e e') ∧ (b.excEdge = none → EscapeOk f owners b st e')

/-- A return of a plain function, which the pass leads through a cleanup. -/
def IsPlainReturn (f : TransportFunction K) (b : Block (InstrResolved K)) (value : InstrResolved K) : Prop :=
  f.kind = .function ∧ b.term = .ret value

/-- What has become of a block with pending payloads. -/
structure BlockOk (f : TransportFunction K) (owners : PendingOwners) (st : PendingState K)
    (b b' : Block (InstrResolved K)) : Prop where
  label : b'.label = b.label
  frame : SameFrame b b'
  returned : ∀ value, IsPlainReturn f b value → ReturnOk f owners b value st b'
  normal : (∀ value, ¬IsPlainReturn f b value) → b'.body = b.body ∧ TermRouted (EdgeOk f owners b st) b.term b'.term
  exception : ∃ e', b'.excEdge = some e' ∧ ExceptionOk f owners b st e'

theorem ReturnOk.mono {value : InstrResolved K}
    (hg : st.Grows st') (h : ReturnOk f owners b value st b') : ReturnOk f owners b value st' b' := by
  obtain ⟨e', hdef, hterm, k, hk, exit, hexit, hret, hbody, hroute⟩ := h
  exact ⟨e', hg.defines hdef, hterm, k, Nat.lt_of_lt_of_le hk hg.nextTmp, exit, hg.generated hexit, hret, hbody,
    hroute.mono hg.generated⟩

theorem ExceptionOk.mono (hg : st.Grows st') {e' : BlockEdge}
    (h : ExceptionOk f owners b st e') : ExceptionOk f owners b st' e' := by
  refine ⟨fun e he => (h.1 e he).mono hg, fun hnone => ?_⟩
  obtain ⟨hdef, k, hk, exit, hexit, hesc, hroute⟩ := h.2 hnone
  exact ⟨hg.defines hdef, k, Nat.lt_of_lt_of_le hk hg.nextTmp, exit, hg.generated hexit, hesc, hroute.mono hg.generated⟩

theorem BlockOk.mono (hg : st.Grows st') (h : BlockOk f owners st b b') : BlockOk f owners st' b b' where
  label := h.label
  frame := h.frame
  returned := fun value hv => (h.returned value hv).mono hg
  normal := fun hv => ⟨(h.normal hv).1, (h.normal hv).2.mono fun _ _ he => he.mono hg⟩
  exception := by
    obtain ⟨e', heq, he⟩ := h.exception
    exact ⟨e', heq, he.mono hg⟩

/-- The edges of a block with pending payloads lead to blocks that are there. -/
theorem BlockOk.successors (h : BlockOk f owners st b b') : ∀ l ∈ b'.successors, st.Defines f l := by
  intro l hl
  rw [Block.successors, mem_append] at hl
  rcases hl with hl | hl
  · obtain ⟨e', heq, he⟩ := h.exception
    obtain rfl : l = e'.target := by simpa [heq] using hl
    cases hexc : b.excEdge with
    | none => exact (he.2 hexc).1
    | some e => exact (he.1 e hexc).1
  · obtain ⟨e, hmem, rfl⟩ := mem_map.mp hl
    by_cases hv : ∃ value, IsPlainReturn f b value
    · obtain ⟨value, hv⟩ := hv
      obtain ⟨e', hdef, hterm, -⟩ := h.returned value hv
      rw [hterm] at hmem
      obtain rfl := mem_singleton.mp hmem
      exact hdef
    · exact (h.normal fun value hval => hv ⟨value, hval⟩).2.targets (fun _ _ he => he.1) e hmem

/-- The payloads left by some edge of a block. -/
def leftPayloads (f : TransportFunction K) (owners : PendingOwners) (b : Block (InstrResolved K)) : List String :=
  b.term.edges.flatMap (edgeLeaving f owners b) ++
    (match f.kind, b.term with
      | .function, .ret _ => pendingStack owners b
      | _, _ => []) ++
    match b.excEdge with
      | some edge => edgeLeaving f owners b edge
      | none => pendingStack owners b

/-- Every payload is left within its declaring handlers, as `cleanup_chain` asserts. -/
def HandlersNest (f : TransportFunction K) (owners : PendingOwners) : Prop :=
  ∀ b ∈ f.blocks, b.handledException = .regions → ∀ name ∈ leftPayloads f owners b,
    (owners.owner name).handlers.map (·.name) <+: b.handledExceptionParams.map (·.name)

instance (f : TransportFunction K) (owners : PendingOwners) : Decidable (HandlersNest f owners) :=
  inferInstanceAs (Decidable (∀ b ∈ f.blocks, b.handledException = .regions → _))

/-- The escape edge goes to a block that raises what it gets. -/
theorem escapeEdge_spec (hok : st.Ok f) :
    ∃ k exit st', escapeEdge f st = (⟨exit.label, [.currentException]⟩, st') ∧ st'.Ok f ∧ st.Grows st' ∧ k < st'.nextTmp ∧
      exit ∈ st'.generated ∧ IsEscape f k exit ∧ st'.targetParams.lookup exit.label = some exit.params := by
  unfold escapeEdge
  cases hesc : st.escaping with
  | some l =>
    obtain ⟨k, hk, exit, hexit, rfl, hraise, hlookup⟩ := hok.escape l hesc
    exact ⟨k, exit, st, rfl, hok, .refl st, hk, hexit, hraise, hlookup⟩
  | none =>
    let exit : Block (InstrResolved K) :=
      { label := st.nextBlockName, params := [⟨(f.tmp st.nextTmp).id, .exception⟩], body := []
        term := .raise (some (.mk .frame (.load (f.tmp st.nextTmp)) []))
        handledException := if f.kind = .function then .unwind else .terminal }
    have hraise : IsEscape f st.nextTmp exit := ⟨rfl, rfl, rfl⟩
    have hsucc : exit.successors = [] := rfl
    have hok' := hok.addExit rfl hsucc st.order (.inr ⟨rfl, hraise⟩)
    refine ⟨st.nextTmp, exit, _, ?_, hok', ⟨subset_append_left _ _, Nat.le_succ _⟩, Nat.lt_succ_self _,
      mem_append_right _ (mem_singleton_self _), hraise, by simp [exit]⟩
    have hfresh := hok.freshLocal_eq
    simp only [hfresh, exit]
    rfl

theorem routeException_spec {b₀ : Block (InstrResolved K)} (hframe : SameFrame b₀ b) (hexc : b.excEdge = b₀.excEdge)
    (hok : st.Ok f) (htarget : ∀ e, b₀.excEdge = some e → e.target ∈ f.labels)
    (hd : ∀ e, b₀.excEdge = some e → EdgeNests f owners b₀ e)
    (hd' : b₀.excEdge = none → NestIn owners (pendingStack owners b₀) b₀) (hpending : pendingStack owners b₀ ≠ []) :
    ∃ e' st', routeException f owners b st = some ({ b with excEdge := some e' }, st') ∧ st'.Ok f ∧ st.Grows st' ∧
      ExceptionOk f owners b₀ st' e' := by
  unfold routeException
  rw [hexc]
  cases he : b₀.excEdge with
  | some e =>
    obtain ⟨e', st', heq, hok', hg, hedge, -, hnil, -⟩ := routeEdge_ok hok (htarget e he) (hd e he)
    refine ⟨e', st', ?_, hok', hg, fun e₁ he₁ => ?_, fun hnone => ?_⟩
    · simp only [hframe.routeEdge, hframe.edgeLeaving, heq, Option.map_some]
      split
      · rename_i hl
        rw [hnil hl, ← he, ← hexc]
      · rfl
    · rw [he] at he₁
      obtain rfl := Option.some.inj he₁
      exact hedge
    · rw [he] at hnone
      cases hnone
  | none =>
    obtain ⟨k, exit, st₁, heq, hok₁, hg₁, hk, hexit, hraise, hlookup⟩ := escapeEdge_spec hok
    have hn : (exit.params.map (·.name)).Nodup := by simp [hraise.1]
    obtain ⟨e', st', heq', hok', hg', hdef, hroute⟩ :=
      routeEdge_exit [.currentException] hok₁ hexit hlookup hn (hd' he)
    have hleaving : edgeLeaving f owners b₀ ⟨exit.label, [.currentException]⟩ ≠ [] := by
      rw [edgeLeaving_of_new (hok₁.label_ge hexit)]
      simpa using hpending
    refine ⟨e', st', ?_, hok', hg₁.trans hg', fun e he' => ?_, fun _ => ⟨hdef, k, Nat.lt_of_lt_of_le hk hg'.nextTmp, exit,
      hg'.generated hexit, hraise, hroute⟩⟩
    · simp only [heq, hframe.routeEdge, hframe.edgeLeaving, heq', Option.map_some, if_neg hleaving]
    · rw [he] at he'
      cases he'

/-! ## The blocks -/

/-- The normal edges of a block, or its return. -/
theorem ownReturn_routes (hok : st.Ok f)
    (htargets : ∀ e ∈ b.term.edges, e.target ∈ f.labels) (hd : ∀ e ∈ b.term.edges, EdgeNests f owners b e)
    (hd' : ∀ value, IsPlainReturn f b value → NestIn owners (pendingStack owners b) b) (hpending : pendingStack owners b ≠ []) :
    ∃ body term st', routeNormalEdges f owners (ownReturn f b st).1.term.edges (ownReturn f b st).1 (ownReturn f b st).2 =
        some ({ b with body, term }, st') ∧ st'.Ok f ∧ st.Grows st' ∧
      (∀ value, IsPlainReturn f b value → ReturnOk f owners b value st' { b with body, term }) ∧
      ((∀ value, ¬IsPlainReturn f b value) → body = b.body ∧ TermRouted (EdgeOk f owners b st') b.term term) := by
  by_cases hv : ∃ value, IsPlainReturn f b value
  · obtain ⟨value, hkind, hterm⟩ := hv
    let exit : Block (InstrResolved K) :=
      { label := st.nextBlockName, params := [⟨(f.tmp st.nextTmp).id, .value⟩], body := []
        term := .ret (.mk .frame (.load (f.tmp st.nextTmp)) []) }
    have hsucc : exit.successors = [] := rfl
    have hok₁ := hok.addExit rfl hsucc (st.order + 1) (.inl rfl)
    generalize hst₁ : ({ nextBlockName := st.nextBlockName + 1, nextTmp := st.nextTmp + 1
                         stackSlots := st.stackSlots ++ [f.tmpName st.nextTmp], order := st.order + 1
                         targetParams := (exit.label, exit.params) :: st.targetParams
                         generated := st.generated ++ [exit], escaping := st.escaping } : PendingState K) = st₁ at hok₁
    have hgen : exit ∈ st₁.generated := by simp [← hst₁]
    have hg₁ : st.Grows st₁ := by
      rw [← hst₁]
      exact ⟨subset_append_left _ _, Nat.le_succ _⟩
    have hlookup : st₁.targetParams.lookup exit.label = some exit.params := by simp [← hst₁]
    obtain ⟨e', st', heq, hok', hg', hdef, hroute⟩ :=
      routeEdge_exit [] hok₁ hgen hlookup (by simp [exit]) (hd' value ⟨hkind, hterm⟩)
    have hown : ownReturn f b st =
        ({ b with
           body := b.body ++ [.mk (.operand st.order) (.store (f.tmp st.nextTmp)) [value]]
           term := .jump ⟨exit.label, []⟩ }, st₁) := by
      have hfresh := hok.freshLocal_eq
      simp only [freshLocal] at hfresh
      simp only [ownReturn, hkind, hterm, freshLocal, hfresh, ← hst₁, exit]
    have hframe : SameFrame b { b with
        body := b.body ++ [.mk (.operand st.order) (.store (f.tmp st.nextTmp)) [value]]
        term := .jump ⟨exit.label, []⟩ } := ⟨rfl, rfl⟩
    have hleaving : edgeLeaving f owners b ⟨exit.label, []⟩ ≠ [] := by
      rw [edgeLeaving_of_new (hok₁.label_ge hgen)]
      simpa using hpending
    refine ⟨b.body ++ [.mk (.operand st.order) (.store (f.tmp st.nextTmp)) [value]], .jump e', st', ?_, hok',
      hg₁.trans hg', fun value' hv' => ?_, fun hno => absurd ⟨hkind, hterm⟩ (hno value)⟩
    · rw [hown]
      simp only [BlockTerm.edges, routeNormalEdges, hframe.routeEdge, hframe.edgeLeaving, heq, Option.bind_some,
        if_neg hleaving]
      rfl
    · obtain rfl : value = value' := by
        have := hterm.symm.trans hv'.2
        exact BlockTerm.ret.inj this
      refine ⟨e', hdef, rfl, st.nextTmp, ?_, exit, hg'.generated hgen, ⟨rfl, rfl, rfl⟩, ⟨st.order, rfl⟩, hroute⟩
      refine Nat.lt_of_lt_of_le ?_ hg'.nextTmp
      rw [← hst₁]
      exact Nat.lt_succ_self _
  · have hown : ownReturn f b st = (b, st) := by
      unfold ownReturn
      split
      · rename_i value hkind hterm
        exact absurd ⟨value, hkind, hterm⟩ hv
      · rfl
    obtain ⟨term, st', heq, hok', hg, hroute⟩ := routeNormalEdges_spec hok htargets hd
    rw [hown]
    exact ⟨b.body, term, st', heq, hok', hg, fun value hval => absurd ⟨value, hval⟩ hv, fun _ => ⟨rfl, hroute⟩⟩

/-- A block is led out, or left as it is when nothing is pending in it. -/
def PendingUnwound (f : TransportFunction K) (owners : PendingOwners) (st : PendingState K)
    (b b' : Block (InstrResolved K)) : Prop :=
  if pendingStack owners b = [] ∨ b.handledException ≠ .regions then b' = b else BlockOk f owners st b b'

theorem PendingUnwound.mono (hg : st.Grows st')
    (h : PendingUnwound f owners st b b') : PendingUnwound f owners st' b b' := by
  unfold PendingUnwound at h ⊢
  split
  · rename_i hskip
    rwa [if_pos hskip] at h
  · rename_i hskip
    rw [if_neg hskip] at h
    exact h.mono hg

theorem PendingUnwound.label_params (h : PendingUnwound f owners st b b') :
    b'.label = b.label ∧ b'.params = b.params := by
  unfold PendingUnwound at h
  split at h
  · rw [h]
    exact ⟨rfl, rfl⟩
  · exact ⟨h.label, h.frame.params⟩

theorem PendingUnwound.successors (h : PendingUnwound f owners st b b')
    (hb : b ∈ f.blocks) : ∀ l ∈ b'.successors, st.Defines f l := by
  unfold PendingUnwound at h
  split at h
  · rw [h]
    exact fun l hl => .inl (f.targetsKnown b hb l hl)
  · exact h.successors

theorem unwindPending_spec (hd : HandlersNest f owners) (hb : b ∈ f.blocks) (hok : st.Ok f) :
    ∃ b' st', unwindPending f owners b st = some (b', st') ∧ st'.Ok f ∧ st.Grows st' ∧ PendingUnwound f owners st' b b' := by
  by_cases hskip : pendingStack owners b = [] ∨ b.handledException ≠ .regions
  · exact ⟨b, st, by rw [unwindPending, if_pos hskip], hok, .refl st, by rw [PendingUnwound, if_pos hskip]⟩
  · obtain ⟨hpending, hregions⟩ : pendingStack owners b ≠ [] ∧ b.handledException = .regions := by simpa using hskip
    have hleft := hd b hb hregions
    simp only [leftPayloads, mem_append, mem_flatMap] at hleft
    have htargets : ∀ e ∈ b.term.edges, e.target ∈ f.labels := fun e he =>
      f.targetsKnown b hb _ (mem_append_right _ (mem_map_of_mem he))
    have hexc : ∀ e, b.excEdge = some e → e.target ∈ f.labels := fun e he =>
      f.targetsKnown b hb _ (mem_append_left _ (by simp [he]))
    have hnests : ∀ e ∈ b.term.edges, EdgeNests f owners b e := fun e he name hname =>
      hleft name (.inl (.inl ⟨e, he, hname⟩))
    have hnestsExc : ∀ e, b.excEdge = some e → EdgeNests f owners b e := fun e he name hname =>
      hleft name (.inr (by simpa [he] using hname))
    obtain ⟨body, term, st₁, heq, hok₁, hg₁, hret, hnormal⟩ := ownReturn_routes hok htargets hnests
      (fun value hv name hname => hleft name (.inl (.inr (by simpa [hv.1, hv.2] using hname)))) hpending
    have hframe : SameFrame b { b with body, term } := ⟨rfl, rfl⟩
    obtain ⟨e', st₂, heq₂, hok₂, hg₂, hexcOk⟩ := routeException_spec hframe rfl hok₁ hexc hnestsExc
      (fun he name hname => hleft name (.inr (by simpa [he] using hname))) hpending
    refine ⟨{ b with body, term, excEdge := some e' }, st₂, ?_, hok₂, hg₁.trans hg₂, ?_⟩
    · rw [unwindPending, if_neg hskip]
      simp only [heq, Option.bind_some]
      exact heq₂
    · rw [PendingUnwound, if_neg hskip]
      refine ⟨rfl, ⟨rfl, rfl⟩, fun value hv => ?_, fun hno => ?_, e', rfl, hexcOk⟩
      · obtain ⟨e₁, hrest⟩ := (hret value hv).mono hg₂
        exact ⟨e₁, hrest⟩
      · obtain ⟨hbody, hterm⟩ := hnormal hno
        exact ⟨hbody, hterm.mono fun _ _ he => he.mono hg₂⟩

theorem unwindPendingAll_spec (hd : HandlersNest f owners) (bs : List (Block (InstrResolved K))) (hbs : bs ⊆ f.blocks)
    (hok : st.Ok f) : ∃ bs' st', unwindPendingAll f owners bs st = some (bs', st') ∧ st'.Ok f ∧ st.Grows st' ∧
      List.Forall₂ (PendingUnwound f owners st') bs bs' := by
  induction bs generalizing st with
  | nil => exact ⟨[], st, rfl, hok, .refl st, .nil⟩
  | cons b bs ih =>
    obtain ⟨b', st₁, heq₁, hok₁, hg₁, h₁⟩ := unwindPending_spec hd (hbs mem_cons_self) hok
    obtain ⟨bs', st₂, heq₂, hok₂, hg₂, h₂⟩ := ih (fun x hx => hbs (mem_cons_of_mem _ hx)) hok₁
    refine ⟨b' :: bs', st₂, ?_, hok₂, hg₁.trans hg₂, .cons (h₁.mono hg₂) h₂⟩
    rw [unwindPendingAll, heq₁, Option.bind_some, heq₂, Option.map_some]

/-! ## The storage of the payloads -/

theorem insertOwner_values {owners' : PendingOwners} {param : BlockParam}
    (h : insertOwner f b owners param = some owners') (hv : ∀ no ∈ owners, no.2.values = f.transportOwners no.1) :
    ∀ no ∈ owners', no.2.values = f.transportOwners no.1 := by
  unfold insertOwner at h
  simp only at h
  split at h
  · cases h
  · split at h
    · split at h
      · cases h
        exact hv
      · cases h
    · cases h
      exact forall_mem_append.mpr ⟨hv, forall_mem_singleton.mpr rfl⟩

theorem pendingOwners_values (ho : pendingOwners f = some owners) :
    ∀ no ∈ owners, no.2.values = f.transportOwners no.1 := by
  refine Fallible.foldlM_keeps (P := fun owners : PendingOwners => ∀ no ∈ owners, no.2.values = f.transportOwners no.1) ?_
    (by simp) ho
  intro owners b owners' hv h
  split at h
  · exact Fallible.foldlM_keeps (fun _ _ _ hv h => insertOwner_values h hv) hv h
  · cases h
    exact hv

/-- No payload is stored in a local the pass adds. -/
theorem tmp_not_mem_locations (ho : pendingOwners f = some owners) (names : List String) (k : Nat) :
    (f.tmp k).location ∉ owners.locations names := by
  intro hmem
  obtain ⟨name, -, hmem⟩ := mem_flatMap.mp hmem
  obtain ⟨value, hvalue, hloc⟩ := mem_map.mp hmem
  unfold PendingOwners.owner at hvalue
  cases hl : owners.lookup name with
  | none => simp [hl] at hvalue
  | some owner =>
    rw [hl, Option.getD_some] at hvalue
    obtain ⟨l₁, l₂, rfl, -⟩ := lookup_eq_some_iff.mp hl
    have hv := pendingOwners_values ho (name, owner) (by simp)
    rw [hv] at hvalue
    have hlt := f.ownersInFrame name value hvalue (f.stackSlots.length + k) hloc
    exact absurd hlt (Nat.not_lt_of_le (Nat.le_add_right _ _))

/-! ## The pass -/

theorem lookup_params (f : TransportFunction K) (hb : b ∈ f.blocks) :
    (f.blocks.map fun b => (b.label, b.params)).lookup b.label = some b.params := by
  obtain ⟨before, after, heq⟩ := append_of_mem hb
  have hn := f.labelsNodup
  rw [heq, map_append, nodup_append] at hn
  rw [heq, map_append, lookup_eq_some_iff]
  refine ⟨_, _, rfl, fun p hp => ?_⟩
  obtain ⟨b', hb', rfl⟩ := mem_map.mp hp
  rw [bne_iff_ne]
  exact (hn.2.2 b'.label (mem_map_of_mem hb') b.label mem_cons_self).symm

theorem initial_ok (f : TransportFunction K) (order : Nat) :
    PendingState.Ok f { nextBlockName := f.nextBlockName, stackSlots := f.stackSlots, order
                        targetParams := f.blocks.map fun b => (b.label, b.params) } where
  next := rfl
  labels := rfl
  closed := by simp
  params := fun _ hb => lookup_params f hb
  slots := by simp
  escape := by simp

/-- On every way to the target of `e`, and there is one, the edge `e'` clears `locs`, in this order and nothing else; there
they are clear. -/
def Clears (blocks : List (Block (InstrResolved K))) (slots : List String) (locs : List NameLocation)
    (e e' : BlockEdge) : Prop :=
  ∀ (V : Type) (c : PassedValues V) (σ : NameLocation → V),
    (∃ τ, Routes blocks c slots e.target e' σ locs τ) ∧
    ∀ log τ, Routes blocks c slots e.target e' σ log τ → log = locs ∧ ∀ loc ∈ locs, τ loc = c.none

/-- A parameter of the target has what `e` delivers, if it is not in storage that is cleared on the way. -/
def Delivers (blocks : List (Block (InstrResolved K))) (slots : List String) (params : List BlockParam)
    (locs : List NameLocation) (e e' : BlockEdge) : Prop :=
  ∀ (V : Type) (c : PassedValues V) (σ τ : NameLocation → V) (log : List NameLocation),
    Routes blocks c slots e.target e' σ log τ → ∀ param ∈ params, (∀ loc ∈ locs, ¬IsStoredAt slots loc param) →
      nameValue c slots τ param.name = nameValue c slots (bindParams c slots params e.args σ) param.name

/-- The payloads of a stack beyond the longest part it begins with in common with another, the innermost first. -/
def LeftBehind (source target left : List String) : Prop :=
  ∃ common, source = common ++ left.reverse ∧ common <+: target ∧
    ∀ shared, shared <+: source → shared <+: target → shared <+: common

/-- What `zip` and `take_while` find is the longest common part. -/
theorem leavingPayloads_leftBehind (source target : List String) :
    LeftBehind source target (leavingPayloads source target) := by
  induction source generalizing target with
  | nil => exact ⟨[], by simp [leavingPayloads], nil_prefix, fun _ h _ => h⟩
  | cons name source ih =>
    cases target with
    | nil => exact ⟨[], by simp [leavingPayloads], nil_prefix, fun _ _ h => h⟩
    | cons name' target =>
      by_cases hname : name = name'
      · subst hname
        obtain ⟨common, hsource, htarget, hlongest⟩ := ih target
        refine ⟨name :: common, ?_, cons_prefix_cons.mpr ⟨rfl, htarget⟩, fun shared hs ht => ?_⟩
        · simpa [leavingPayloads] using hsource
        · cases shared with
          | nil => exact nil_prefix
          | cons first shared =>
            obtain ⟨rfl, hshared⟩ := cons_prefix_cons.mp hs
            exact cons_prefix_cons.mpr ⟨rfl, hlongest shared hshared (cons_prefix_cons.mp ht).2⟩
      · refine ⟨[], by simp [leavingPayloads, hname], nil_prefix, fun shared hs ht => ?_⟩
        cases shared with
        | nil => exact nil_prefix
        | cons first shared =>
          exact absurd ((cons_prefix_cons.mp hs).1.symm.trans (cons_prefix_cons.mp ht).1) hname

/-- An edge to a block of the function leaves what is left behind. -/
theorem edgeLeaving_leftBehind {t : Block (InstrResolved K)} {e : BlockEdge} (ht : t ∈ f.blocks)
    (htl : t.label = e.target) :
    LeftBehind (pendingStack owners b) (pendingStack owners t) (edgeLeaving f owners b e) := by
  have hstack : targetStack f owners e.target = pendingStack owners t := by
    simp [targetStack, ← htl, BlockPyFunction.block?_of_mem f.labelsNodup ht]
  rw [edgeLeaving, hstack]
  exact leavingPayloads_leftBehind _ _

variable {slots : List String}

section

variable {gen : List (Block (InstrResolved K))} {locs : List NameLocation} {e e' : BlockEdge}
  (h : RoutedWithin gen params locs e e') (hsub : gen ⊆ blocks) (hl : (blocks.map (·.label)).Nodup)
  {t : Block (InstrResolved K)} (ht : t ∈ blocks) (htl : t.label = e.target) (htp : t.params = params)
include h hsub hl ht htl htp

theorem RoutedWithin.clears : Clears blocks slots locs e e' := by
  intro V c σ
  obtain ⟨bound, -, hiff⟩ := h blocks hsub hl t ht htl htp V c slots σ
  refine ⟨⟨_, (hiff _ _).mpr ⟨rfl, rfl⟩⟩, fun log τ hr => ?_⟩
  obtain ⟨rfl, rfl⟩ := (hiff log τ).mp hr
  exact ⟨rfl, fun loc hloc => if_pos hloc⟩

theorem RoutedWithin.delivers (ha : AllOrNone e params) : Delivers blocks slots params locs e e' := by
  intro V c σ τ log hr param _ hfree
  obtain ⟨bound, hbound, hiff⟩ := h blocks hsub hl t ht htl htp V c slots σ
  obtain ⟨rfl, rfl⟩ := (hiff log τ).mp hr
  unfold nameValue
  cases hx : slots.idxOf? param.name with
  | none => rfl
  | some x =>
    have hnot : NameLocation.local x ∉ log := fun hmem => hfree _ hmem (by simp [IsStoredAt, hx])
    simp [clearSlots, hnot, hbound ha]

end

/-- An edge from `b` to `t` is led out of the payloads of `b` that are not also pending in `t`. If it passes all arguments or
none, the target gets what it would have got. -/
def EdgeLedOut (owners : PendingOwners) (blocks : List (Block (InstrResolved K))) (slots : List String)
    (b t : Block (InstrResolved K)) (e e' : BlockEdge) : Prop :=
  ∃ left, LeftBehind (pendingStack owners b) (pendingStack owners t) left ∧
    Clears blocks slots (owners.locations left) e e' ∧
    (AllOrNone e t.params → Delivers blocks slots t.params (owners.locations left) e e')

/-- The block `b'` leads every edge of `b` out of the payloads it leaves. -/
structure LeadsOut (f : TransportFunction K) (owners : PendingOwners) (blocks : List (Block (InstrResolved K)))
    (slots : List String) (b b' : Block (InstrResolved K)) : Prop where
  label : b'.label = b.label
  params : b'.params = b.params
  normal : (∀ value, ¬IsPlainReturn f b value) → b'.body = b.body ∧
    TermRouted (fun e e' => ∀ t ∈ f.blocks, t.label = e.target → EdgeLedOut owners blocks slots b t e e') b.term b'.term
  returned : ∀ value, IsPlainReturn f b value → ∃ k, ∃ exit ∈ blocks, IsReturn f k exit ∧
    (∃ order, b'.body = b.body ++ [.mk (.operand order) (.store (f.tmp k)) [value]]) ∧
    (∀ param ∈ exit.params, IsStoredAt slots (f.tmp k).location param) ∧
    (f.tmp k).location ∉ owners.locations (pendingStack owners b).reverse ∧
    ∃ e', b'.term = .jump e' ∧ Clears blocks slots (owners.locations (pendingStack owners b).reverse) ⟨exit.label, []⟩ e' ∧
      Delivers blocks slots exit.params (owners.locations (pendingStack owners b).reverse) ⟨exit.label, []⟩ e'
  raised : ∀ e, b.excEdge = some e → ∃ e', b'.excEdge = some e' ∧ ∀ t ∈ f.blocks, t.label = e.target →
    EdgeLedOut owners blocks slots b t e e'
  escapes : b.excEdge = none → ∃ k, ∃ exit ∈ blocks, IsEscape f k exit ∧
    (∀ param ∈ exit.params, IsStoredAt slots (f.tmp k).location param) ∧
    (f.tmp k).location ∉ owners.locations (pendingStack owners b).reverse ∧
    ∃ e', b'.excEdge = some e' ∧
      Clears blocks slots (owners.locations (pendingStack owners b).reverse) ⟨exit.label, [.currentException]⟩ e' ∧
      Delivers blocks slots exit.params (owners.locations (pendingStack owners b).reverse)
        ⟨exit.label, [.currentException]⟩ e'

theorem tmp_storedAt {n k : Nat} (hs : slots = f.stackSlots ++ (List.range n).map f.tmpName)
    (hk : k < n) {role : BlockParamRole} (hp : params = [⟨(f.tmp k).id, role⟩]) :
    ∀ param ∈ params, IsStoredAt slots (f.tmp k).location param := by
  have hnodup : slots.Nodup := by
    rw [hs, nodup_append]
    refine ⟨f.slotsNodup, nodup_range.map f.tmpDistinct, fun name hname name' hname' => ?_⟩
    obtain ⟨j, -, rfl⟩ := mem_map.mp hname'
    rintro rfl
    exact f.tmpFresh j hname
  have hget : slots[f.stackSlots.length + k]? = some (f.tmpName k) := by
    rw [hs, List.getElem?_append_right (Nat.le_add_right _ _)]
    simp [hk]
  obtain ⟨hlt, hget⟩ := List.getElem?_eq_some_iff.mp hget
  have hidx : slots.idxOf? (f.tmpName k) = some (f.stackSlots.length + k) := by
    rw [List.idxOf?_eq_some_iff]
    refine ⟨hlt, hget, fun j hj heq => ?_⟩
    exact Nat.ne_of_lt hj (hnodup.getElem_inj_iff.mp (heq.trans hget.symm))
  simp [hp, IsStoredAt, TransportFunction.tmp, hidx]

/-- What the blocks of the state promise holds among all blocks the pass leaves. -/
theorem BlockOk.leadsOut (ho : pendingOwners f = some owners) (hok : st.Ok f)
    (hsub : st.generated ⊆ blocks) (hl : (blocks.map (·.label)).Nodup)
    (himage : ∀ t ∈ f.blocks, ∃ t' ∈ blocks, t'.label = t.label ∧ t'.params = t.params)
    (h : BlockOk f owners st b b') : LeadsOut f owners blocks st.stackSlots b b' := by
  have hedge : ∀ e e', EdgeOk f owners b st e e' → ∀ t ∈ f.blocks, t.label = e.target →
      EdgeLedOut owners blocks st.stackSlots b t e e' := by
    intro e e' he t ht htl
    obtain ⟨t', ht', htl', htp'⟩ := himage t ht
    have hroute := he.2 t ht htl
    exact ⟨_, edgeLeaving_leftBehind ht htl, hroute.clears hsub hl ht' (htl'.trans htl) htp',
      hroute.delivers hsub hl ht' (htl'.trans htl) htp'⟩
  refine ⟨h.label, h.frame.params, fun hno => ?_, fun value hv => ?_, fun e he => ?_, fun hnone => ?_⟩
  · obtain ⟨hbody, hterm⟩ := h.normal hno
    exact ⟨hbody, hterm.mono hedge⟩
  · obtain ⟨e', -, hterm, k, hk, exit, hexit, hret, hbody, hroute⟩ := h.returned value hv
    exact ⟨k, exit, hsub hexit, hret, hbody, tmp_storedAt hok.slots hk hret.1, tmp_not_mem_locations ho _ k, e', hterm,
      hroute.clears hsub hl (hsub hexit) rfl rfl, hroute.delivers hsub hl (hsub hexit) rfl rfl (.inl rfl)⟩
  · obtain ⟨e', heq, hexc⟩ := h.exception
    exact ⟨e', heq, hedge e e' (hexc.1 e he)⟩
  · obtain ⟨e', heq, hexc⟩ := h.exception
    obtain ⟨-, k, hk, exit, hexit, hraise, hroute⟩ := hexc.2 hnone
    exact ⟨k, exit, hsub hexit, hraise, tmp_storedAt hok.slots hk hraise.1, tmp_not_mem_locations ho _ k, e', heq,
      hroute.clears hsub hl (hsub hexit) rfl rfl,
      hroute.delivers hsub hl (hsub hexit) rfl rfl (.inr (by simp [hraise.1]))⟩

end Pass

/-- `materialize_pending_payload_unwinds` leads every edge out of a block with pending payloads through blocks that clear
the payloads which are not also pending in the target, the innermost first; an edge that passes all arguments or none then
delivers what it did before. The pass succeeds where the payloads have storage and are left within their declaring handlers,
and every label it leaves is defined. -/
theorem materializePendingPayloadUnwinds_leadsOut (f : TransportFunction K) (owners : PendingOwners)
    (ho : pendingOwners f = some owners) (hd : HandlersNest f owners) :
    ∃ blocks slots, materializePendingPayloadUnwinds f = some (blocks, slots) ∧ f.stackSlots <+: slots ∧
      (blocks.map (·.label)).Nodup ∧ (∀ b ∈ blocks, ∀ l ∈ b.successors, l ∈ blocks.map (·.label)) ∧
      ∀ b ∈ f.blocks, b.handledException = .regions → pendingStack owners b ≠ [] →
        ∃ b' ∈ blocks, LeadsOut f owners blocks slots b b' := by
  by_cases hnil : owners = []
  · subst hnil
    refine ⟨f.blocks, f.stackSlots, ?_, prefix_refl _, f.labelsNodup, f.targetsKnown, fun b _ _ hb => ?_⟩
    · rw [materializePendingPayloadUnwinds, ho, Option.bind_some, if_pos rfl]
    · exact absurd (by simp [pendingStack]) hb
  · obtain ⟨bs', st, heq, hok, -, hunwound⟩ :=
      unwindPendingAll_spec hd f.blocks (List.Subset.refl _) (initial_ok f (nextOperandOrder f.blocks))
    have hlabels : bs'.map (·.label) = f.labels := map_eq_of_forall₂ (fun _ _ h => h.label_params.1) hunwound
    have hall : (bs' ++ st.generated).map (·.label) =
        f.labels ++ List.range' f.nextBlockName st.generated.length := by
      rw [map_append, hlabels, hok.labels]
    have hnodup : ((bs' ++ st.generated).map (·.label)).Nodup := by
      rw [hall, nodup_append]
      refine ⟨f.labelsNodup, nodup_range', fun l hl l' hl' => ?_⟩
      rintro rfl
      exact not_mem_labels (mem_range'_1.mp hl').1 hl
    have hdefined : ∀ l, st.Defines f l → l ∈ (bs' ++ st.generated).map (·.label) := by
      intro l hl
      rw [map_append, hlabels, mem_append]
      exact hl
    refine ⟨bs' ++ st.generated, st.stackSlots, ?_, hok.slots ▸ prefix_append _ _, hnodup, fun b hb l hl => ?_,
      fun b hb hregions hpending => ?_⟩
    · rw [materializePendingPayloadUnwinds, ho, Option.bind_some, if_neg hnil, heq, Option.map_some]
    · rcases mem_append.mp hb with hb | hb
      · obtain ⟨b₀, hb₀, h⟩ := forall₂_mem_right hunwound hb
        exact hdefined l (h.successors hb₀ l hl)
      · exact hdefined l (hok.closed b hb l hl)
    · have himage : ∀ t ∈ f.blocks, ∃ t' ∈ bs' ++ st.generated, t'.label = t.label ∧ t'.params = t.params := by
        intro t ht
        obtain ⟨t', ht', h⟩ := forall₂_mem_left hunwound ht
        exact ⟨t', mem_append_left _ ht', h.label_params⟩
      obtain ⟨b', hb', h⟩ := forall₂_mem_left hunwound hb
      have hskip : ¬(pendingStack owners b = [] ∨ b.handledException ≠ .regions) := by
        simp [hpending, hregions]
      rw [PendingUnwound, if_neg hskip] at h
      exact ⟨b', mem_append_left _ hb', h.leadsOut ho hok (subset_append_right _ _) hnodup himage⟩

/-! ## Two nested payloads -/

/-- Names of underscores, longer than one. -/
def underscores (k : Nat) : String :=
  String.ofList (List.replicate (k + 2) '_')

theorem underscores_length (k : Nat) : (underscores k).length = k + 2 := by
  simp [underscores]

/-- A `finally` body within another one. The inner one is left by a jump to a block with two parameters, which passes both
arguments or only the last, and by an exception that the outer one goes on with. -/
def nestedFinally (both : Bool) : TransportFunction Empty where
  params := []
  stackSlots := ["k", "q", "p", "v", "a", "b"]
  blocks :=
    [ { label := 0, body := [], term := .jump ⟨1, [.abruptKind .fallthrough, .none]⟩ },
      { label := 1, params := [⟨"k", .abruptKind⟩, ⟨"q", .abruptPayload⟩], body := []
        term := .jump ⟨2, [.name "q", .abruptKind .fallthrough, .none]⟩ },
      { label := 2, params := [⟨"q", .enclosingAbruptPayload⟩, ⟨"k", .abruptKind⟩, ⟨"p", .abruptPayload⟩], body := []
        term := .jump ⟨3, if both then [.name "a", .name "v"] else [.name "v"]⟩, excEdge := some ⟨4, [.name "q"]⟩ },
      { label := 3, params := [⟨"a", .value⟩, ⟨"b", .value⟩], body := []
        term := .ret (.mk .frame (.load ⟨"b", .local 5⟩) []) },
      { label := 4, params := [⟨"q", .abruptPayload⟩], body := [], term := .jump ⟨3, [.name "a", .name "v"]⟩ } ]
  nonempty := by simp
  labelsNodup := by cases both <;> decide
  targetsKnown := by cases both <;> decide
  slotsNodup := by decide
  statementWrites := by cases both <;> decide
  kind := .function
  transportOwners := fun name =>
    if name = "q" then [⟨"q", .local 1⟩] else if name = "p" then [⟨"p", .local 2⟩] else []
  ownersInFrame := by
    intro name value hvalue x hx
    split at hvalue
    · obtain rfl := List.mem_singleton.mp hvalue
      cases hx
      decide
    · split at hvalue
      · obtain rfl := List.mem_singleton.mp hvalue
        cases hx
        decide
      · cases hvalue
  nextBlockName := 5
  labelsBelow := by cases both <;> decide
  tmpName := underscores
  tmpFresh := by
    intro k hmem
    have hlen : ∀ name ∈ ["k", "q", "p", "v", "a", "b"], name.length = 1 := by decide
    have := hlen _ hmem
    rw [underscores_length] at this
    omega
  tmpDistinct := by
    intro j k h
    have := congrArg String.length h
    rw [underscores_length, underscores_length] at this
    omega
  paramsNodup := by cases both <;> decide

def nestedOwners : PendingOwners :=
  [("q", ⟨[⟨"q", .local 1⟩], []⟩), ("p", ⟨[⟨"p", .local 2⟩], []⟩)]

/-- Both payloads are left within their handlers, so every edge of the two bodies is led out: the jump out of the inner one
clears both, the exception into the outer one only that of the inner. -/
theorem materializePendingPayloadUnwinds_nested :
    HandlersNest (nestedFinally true) nestedOwners ∧
    (nestedFinally true).blocks.map (pendingStack nestedOwners) = [[], ["q"], ["q", "p"], [], ["q"]] ∧
    LeftBehind ["q", "p"] [] ["p", "q"] ∧ LeftBehind ["q", "p"] ["q"] ["p"] ∧
    ∃ blocks slots, materializePendingPayloadUnwinds (nestedFinally true) = some (blocks, slots) ∧
      ∀ b ∈ (nestedFinally true).blocks, b.handledException = .regions → pendingStack nestedOwners b ≠ [] →
        ∃ b' ∈ blocks, LeadsOut (nestedFinally true) nestedOwners blocks slots b b' := by
  have hd : HandlersNest (nestedFinally true) nestedOwners := by decide +kernel
  obtain ⟨blocks, slots, heq, -, -, -, hout⟩ :=
    materializePendingPayloadUnwinds_leadsOut (nestedFinally true) nestedOwners (by rfl) hd
  exact ⟨hd, by decide +kernel, leavingPayloads_leftBehind _ _, leavingPayloads_leftBehind _ _, blocks, slots, heq, hout⟩

/-- With only the last argument, the cleanup gives it to the first parameter: the last one keeps what its local had. -/
theorem materializePendingPayloadUnwinds_delivers_false :
    ∃ blocks slots b', materializePendingPayloadUnwinds (nestedFinally false) = some (blocks, slots) ∧ b' ∈ blocks ∧
      b'.label = 2 ∧ ∃ e', b'.term = .jump e' ∧
      ¬Delivers blocks slots [⟨"a", .value⟩, ⟨"b", .value⟩] [.local 2, .local 1] ⟨3, [.name "v"]⟩ e' := by
  refine ⟨_, _, _, rfl, mem_of_getElem? (i := 2) rfl, rfl, _, rfl, fun h => ?_⟩
  -- only `v` holds a one
  let c : PassedValues Nat := ⟨0, 0, 0, fun _ => 0⟩
  -- the entry of the cleanup, the inner payload, the outer payload, and the target
  have hdeliver := h Nat c (fun loc => if loc = .local 3 then 1 else 0) _ _
    (.through (by decide) (mem_of_getElem? (i := 10) rfl) rfl rfl rfl
      (.through (by decide) (mem_of_getElem? (i := 9) rfl) rfl rfl rfl
        (.through (by decide) (mem_of_getElem? (i := 8) rfl) rfl rfl rfl
          (.arrive rfl (mem_of_getElem? (i := 3) rfl) rfl))))
  have hb := hdeliver ⟨"b", .value⟩ (by simp) (by decide +kernel)
  revert hb
  decide +kernel

end Soac
