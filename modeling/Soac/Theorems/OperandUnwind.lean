import Soac.Exceptions.SlotRun

/-!
# Operands are unwound exactly

The backward analysis finds exactly the operands that some path from a handler still reads, and the forward analysis finds
every operand that a run may hold when a block raises. The cleanup blocks release what is in the second and not in the
first, so on every exceptional transfer the operands that are held and not read any more are released, once and the most
recent first, and no other.
-/

namespace Soac

open List Operand

variable {K : Type}

/-! ## The operands still read -/

variable {locs live : LiveSet} {x : NameLocation} {es fs : List SlotEvent} {is : List (InstrResolved K)}
  {operands : List Operand} {b : Block (InstrResolved K)} {held prefixes active : LiveSet}
  {blocks : List (Block (InstrResolved K))} {n : ResolvedName}

@[simp] theorem mem_readSlot : x ∈ readSlot locs n live ↔ (x ∈ locs ∧ x = n.location) ∨ x ∈ live := by
  unfold readSlot
  split
  · rename_i hn
    rw [Finset.mem_insert, and_iff_right_of_imp fun hx => hx ▸ hn]
  · rename_i hn
    rw [or_iff_right fun ⟨hx, heq⟩ => hn (heq ▸ hx)]

/-- What the events make of the slots read later: a slot is read first, or its value survives and was read later. -/
def ReadsThrough (locs : LiveSet) (es : List SlotEvent) (live : LiveSet) (x : NameLocation) : Prop :=
  (x ∈ locs ∧ slotReadFirst x es = true) ∨ (x ∈ live ∧ killed x es = false)

/-- A slot only loses its value where it is read: expressions take operands and write nothing. -/
def TakesOnly (es : List SlotEvent) : Prop :=
  ∀ x, killed x es = true → slotReadFirst x es = true

theorem TakesOnly.append (h : TakesOnly es) (h' : TakesOnly fs) : TakesOnly (es ++ fs) := by
  intro x hx
  rw [killed_append, Bool.or_eq_true] at hx
  rw [slotReadFirst_append]
  cases hes : killed x es with
  | true => simp [h x hes]
  | false =>
    have hfs := h' x (hx.resolve_left (by simp [hes]))
    simp [hfs]

variable (ns : List ResolvedName)

theorem takesOnly_reads : TakesOnly (ns.map fun n => .read n.location) := by
  intro x hx
  simp [killed, SlotEvent.kills] at hx

theorem takesOnly_act {h : Head K} (hw : h.writes = false) : TakesOnly h.actEvents := by
  intro x hx
  cases h with
  | takeOperand n =>
    simp only [Head.actEvents, killed, any_cons, SlotEvent.kills, any_nil, Bool.or_false, Bool.false_or,
      decide_eq_true_eq] at hx
    simp [Head.actEvents, slotReadFirst, hx]
  | store n | del n quietly => cases hw
  | callArgumentOp kind callable buffer =>
    have hreplaces : kind.replacesBuffer = false := hw
    simp [Head.actEvents, hreplaces, consumesBuffer_of_replacesBuffer hreplaces, killed] at hx
  | _ => simp [Head.actEvents, killed, SlotEvent.kills] at hx

theorem takesOnly_eventsList (h : ∀ i ∈ is, TakesOnly i.slotEvents) : TakesOnly (slotEventsList is) := by
  induction is with
  | nil => intro x hx; simp [slotEventsList, killed] at hx
  | cons i is ih =>
    exact (h i mem_cons_self).append (ih fun j hj => h j (mem_cons_of_mem _ hj))

variable (i : InstrResolved K)

theorem takesOnly_of_writeFree : i.writeFree → TakesOnly i.slotEvents := by
  induction i using Instr.induct with
  | mk lifetime h ops ih =>
    intro hw
    rw [writeFree_mk, Bool.and_eq_true, Bool.not_eq_true', writeFreeList_iff] at hw
    exact (takesOnly_reads _).append ((takesOnly_eventsList fun j hj => ih j hj (hw.2 j hj)).append (takesOnly_act hw.1))

theorem takesOnly_of_writeFreeList (h : writeFreeList is) : TakesOnly (slotEventsList is) :=
  takesOnly_eventsList fun i hi => takesOnly_of_writeFree i ((writeFreeList_iff is).1 h i hi)

/-- The visitor may walk the operands of an expression in either direction. -/
theorem mem_transferOperands_of (ht : ∀ i ∈ is, TakesOnly i.slotEvents)
    (hi : ∀ i ∈ is, ∀ live x, x ∈ transferBackwards locs i live ↔ ReadsThrough locs i.slotEvents live x) :
    ∀ live x, x ∈ transferOperands locs is live ↔ ReadsThrough locs (slotEventsList is) live x := by
  induction is with
  | nil => intro live x; simp [transferOperands, slotEventsList, ReadsThrough, slotReadFirst, killed]
  | cons i is ih =>
    intro live x
    have htake := ht i mem_cons_self x
    have htakes : killed x (slotEventsList is) → slotReadFirst x (slotEventsList is) :=
      takesOnly_eventsList (fun j hj => ht j (mem_cons_of_mem _ hj)) x
    rw [transferOperands, ih (fun j hj => ht j (mem_cons_of_mem _ hj)) (fun j hj => hi j (mem_cons_of_mem _ hj)),
      slotEventsList]
    simp only [ReadsThrough, hi i mem_cons_self live x, slotReadFirst_append, killed_append]
    cases hk : killed x i.slotEvents <;> cases hks : killed x (slotEventsList is) <;> grind

theorem readsThrough_append {live' : LiveSet} (h : x ∈ live' ↔ ReadsThrough locs fs live x) :
    ReadsThrough locs (es ++ fs) live x ↔ ReadsThrough locs es live' x := by
  simp only [ReadsThrough, slotReadFirst_append, killed_append] at h ⊢
  rw [h]
  cases killed x es <;> simp [and_or_left, or_assoc]

/-- Slots read before anything else. -/
theorem readsThrough_borrow : ReadsThrough locs ((ns.map fun n => .read n.location) ++ es) live x ↔
      (x ∈ locs ∧ ∃ n ∈ ns, x = n.location) ∨ ReadsThrough locs es live x := by
  have hkilled : killed x (ns.map fun n => .read n.location) = false := by
    simp [killed, SlotEvent.kills]
  have hreads : slotReadFirst x (ns.map fun n => .read n.location) ↔ ∃ n ∈ ns, x = n.location := by
    induction ns with
    | nil => simp [slotReadFirst]
    | cons n ns ih =>
      rw [map_cons, slotReadFirst, Bool.or_eq_true, ih (by simp [killed, SlotEvent.kills])]
      simp [eq_comm]
  simp only [ReadsThrough, slotReadFirst_append, killed_append, hkilled, Bool.or_eq_true, hreads]
  simp [and_or_left, or_assoc]

theorem readsThrough_read : ReadsThrough locs [.read n.location] live x ↔ x ∈ readSlot locs n live := by
  simp [ReadsThrough, slotReadFirst, killed, SlotEvent.kills, eq_comm]

theorem readsThrough_nil : ReadsThrough locs [] live x ↔ x ∈ live := by
  simp [ReadsThrough, slotReadFirst, killed]

theorem readsThrough_acquire {y : NameLocation} : ReadsThrough locs [.acquire y] live x ↔ x ∈ live.erase y := by
  simp [ReadsThrough, slotReadFirst, killed, SlotEvent.kills, and_comm, eq_comm]

theorem readsThrough_release {y : NameLocation} : ReadsThrough locs [.release y] live x ↔ x ∈ live.erase y := by
  simp [ReadsThrough, slotReadFirst, killed, SlotEvent.kills, and_comm, eq_comm]

/-- The slots read later before an operation acts, from those read later after it. -/
def Head.actLive (locs : LiveSet) : Head K → LiveSet → LiveSet
  | .load n, live => readSlot locs n live
  | .store n, live | .del n _, live => live.erase n.location
  | .takeOperand n, live => readSlot locs n (live.erase n.location)
  | .callArgumentOp kind _ buffer, live => if kind.replacesBuffer then live.erase buffer.location else live
  | _, live => live

theorem mem_actLive (h : Head K) : x ∈ h.actLive locs live ↔ ReadsThrough locs h.actEvents live x := by
  cases h with
  | load n => exact readsThrough_read.symm
  | store n => exact readsThrough_acquire.symm
  | del n quietly => exact readsThrough_release.symm
  | takeOperand n =>
    change _ ↔ ReadsThrough locs ([SlotEvent.read n.location] ++ [SlotEvent.release n.location]) live x
    rw [readsThrough_append readsThrough_release.symm, readsThrough_read]
    rfl
  | callArgumentOp kind callable buffer =>
    cases kind with
    | extendPositional | mergeKeywords => exact readsThrough_nil.symm
    | normalizeSingletonStar => exact readsThrough_acquire.symm
    | finishPositionalList =>
      change _ ↔ ReadsThrough locs ([SlotEvent.release buffer.location] ++ [SlotEvent.acquire buffer.location]) live x
      rw [readsThrough_append readsThrough_acquire.symm, readsThrough_release]
      simp [Head.actLive, CallArgumentOpKind.replacesBuffer]
  | _ => exact readsThrough_nil.symm

/-- A slot that is read anyway, whatever the events do with it. -/
theorem readsThrough_readSlot (ht : TakesOnly es) (n : ResolvedName) :
    ReadsThrough locs es (readSlot locs n live) x ↔ (x ∈ locs ∧ x = n.location) ∨ ReadsThrough locs es live x := by
  have htake := ht x
  simp only [ReadsThrough, mem_readSlot]
  cases hk : killed x es with
  | false => tauto
  | true =>
    have hreads := htake hk
    simp [hreads]
    tauto

/-- One operation: what its operands make of the slots read later, and what it does itself. -/
theorem mem_transferBackwards_of {lifetime : StoreLifetime} {h : Head K} {ops : List (InstrResolved K)}
    (ht : TakesOnly (slotEventsList ops))
    (hops : ∀ live x, x ∈ transferOperands locs ops live ↔ ReadsThrough locs (slotEventsList ops) live x)
    (live : LiveSet) (x : NameLocation) : x ∈ transferBackwards locs (.mk lifetime h ops) live ↔
      ReadsThrough locs (Instr.slotEvents (.mk lifetime h ops)) live x := by
  rw [Instr.slotEvents, Head.borrowEvents, readsThrough_borrow, readsThrough_append (mem_actLive h)]
  cases h with
  | iteratorStep n | comprehensionInsert kind container =>
    simp [transferBackwards, hops, Head.borrowedNames, Head.actLive, readsThrough_readSlot ht]
  | callArgumentOp kind callable buffer =>
    simp only [transferBackwards, mem_readSlot, hops, Head.borrowedNames, Head.actLive, mem_cons, not_mem_nil,
      or_false, exists_eq_or_imp, exists_eq_left, and_or_left]
    grind
  | _ => simp [transferBackwards, hops, Head.borrowedNames, Head.actLive]

theorem mem_transferBackwards_of_writeFree : i.writeFree →
    ∀ live x, x ∈ transferBackwards locs i live ↔ ReadsThrough locs i.slotEvents live x := by
  induction i using Instr.induct with
  | mk lifetime h ops ih =>
    intro hw
    rw [writeFree_mk, Bool.and_eq_true, writeFreeList_iff] at hw
    exact mem_transferBackwards_of (takesOnly_of_writeFreeList ((writeFreeList_iff ops).2 hw.2))
      (mem_transferOperands_of (fun j hj => takesOnly_of_writeFree j (hw.2 j hj)) fun j hj => ih j hj (hw.2 j hj))

theorem mem_transferOperands (h : writeFreeList is) :
    ∀ live x, x ∈ transferOperands locs is live ↔ ReadsThrough locs (slotEventsList is) live x := by
  rw [writeFreeList_iff] at h
  exact mem_transferOperands_of (fun i hi => takesOnly_of_writeFree i (h i hi))
    fun i hi => mem_transferBackwards_of_writeFree i (h i hi)

/-- One statement: only its operation itself may write. -/
theorem mem_transferBackwards {i : InstrResolved K} (h : writeFreeList i.operands) (live : LiveSet)
    (x : NameLocation) : x ∈ transferBackwards locs i live ↔ ReadsThrough locs i.slotEvents live x := by
  cases i with
  | mk lifetime head ops => exact mem_transferBackwards_of (takesOnly_of_writeFreeList h) (mem_transferOperands h) live x

/-- The statements of a block, each of which may raise before it does anything. -/
theorem mem_bodyLive {exceptional : LiveSet}
    (h : ∀ i ∈ is, writeFreeList i.operands) {out : LiveSet} (hout : exceptional ⊆ out) (x : NameLocation) :
    x ∈ is.foldr (fun i live => transferBackwards locs i live ∪ exceptional) out ↔
      ReadsThrough locs (slotEventsList is) out x ∨ x ∈ exceptional := by
  induction is with
  | nil =>
    rw [slotEventsList, readsThrough_nil]
    exact ⟨.inl, fun h => h.elim id (hout ·)⟩
  | cons i is ih =>
    have hrest := ih fun j hj => h j (mem_cons_of_mem _ hj)
    rw [foldr_cons, Finset.mem_union, mem_transferBackwards (h i mem_cons_self), slotEventsList]
    simp only [ReadsThrough, slotReadFirst_append, killed_append] at hrest ⊢
    cases killed x i.slotEvents with
    | false => simp; grind
    | true => simp

/-- The elements of a recomputed entry. -/
theorem mem_liveInput (hb : b.StatementWrites) {live : BlockLabel → LiveSet} : x ∈ liveInput operands b live ↔
      (x ∈ locations operands ∧ slotReadFirst x b.slotEvents) ∨
      (killed x b.slotEvents = false ∧ ∃ edge ∈ b.term.edges, x ∈ edgeLive operands live edge) ∨
      ∃ edge, b.excEdge = some edge ∧ x ∈ edgeLive operands live edge := by
  have hexc : x ∈ (b.excEdge.map (edgeLive operands live)).getD ∅ ↔
      ∃ edge, b.excEdge = some edge ∧ x ∈ edgeLive operands live edge := by
    cases b.excEdge <;> simp
  unfold liveInput
  rw [mem_bodyLive hb.1 Finset.subset_union_right, ← hexc]
  simp only [ReadsThrough, Finset.mem_union, mem_transferOperands hb.2, RoundRobin.mem_foldl_union, Finset.notMem_empty, false_or,
    Block.slotEvents, slotReadFirst_append, killed_append]
  generalize (∃ edge ∈ b.term.edges, x ∈ edgeLive operands live edge) = leaves
  cases killed x (slotEventsList b.body) with
  | false => simp; grind
  | true => simp

/-- Where an operand gets into the entry of a block. -/
def readsInBlock (operands : List Operand) (b : Block (InstrResolved K)) (x : NameLocation) : Prop :=
  (x ∈ locations operands ∧ slotReadFirst x b.slotEvents = true) ∨
  ∃ es edge, b.Leaves es edge ∧ killed x es = false ∧ x ∈ passedOperands operands edge

/-- The blocks an operand is still read from. -/
def readsFrom (b : Block (InstrResolved K)) (x : NameLocation) (l : BlockLabel) : Prop :=
  ∃ es edge, b.Leaves es edge ∧ killed x es = false ∧ edge.target = l

theorem passedOperands_subset (operands : List Operand) (edge : BlockEdge) :
    passedOperands operands edge ⊆ locations operands := by
  intro x hx
  simp only [passedOperands, locations, mem_toFinset, mem_map, mem_filter] at hx ⊢
  obtain ⟨o, ⟨ho, -⟩, rfl⟩ := hx
  exact ⟨o, ho, rfl⟩

/-- An edge left at some point, for an operand that survives up to there. -/
theorem exists_leaves_iff {P : BlockEdge → Prop} : (∃ es edge, b.Leaves es edge ∧ killed x es = false ∧ P edge) ↔
      (killed x b.slotEvents = false ∧ ∃ edge ∈ b.term.edges, P edge) ∨ ∃ edge, b.excEdge = some edge ∧ P edge := by
  constructor
  · rintro ⟨es, edge, ⟨hedge, rfl⟩ | ⟨hedge, -⟩, hkilled, hP⟩
    · exact .inl ⟨hkilled, edge, hedge, hP⟩
    · exact .inr ⟨edge, hedge, hP⟩
  · rintro (⟨hkilled, edge, hedge, hP⟩ | ⟨edge, hedge, hP⟩)
    · exact ⟨_, edge, .inl ⟨hedge, rfl⟩, hkilled, hP⟩
    · exact ⟨[], edge, .inr ⟨hedge, nil_prefix⟩, rfl, hP⟩

theorem liveInput_flows (f : ValidFunction StoreLifetime K) (operands : List Operand) :
    RoundRobin.Flows (fun b : Block (InstrResolved K) => b.label) (liveInput operands) f.blocks.reverse
      (readsInBlock operands) readsFrom (locations operands) where
  labels b hb c hc h := f.eq_of_label (by simpa using hb) (by simpa using hc) h
  mem b hb live x := by
    rw [mem_liveInput (f.statementWrites b (by simpa using hb))]
    simp only [readsInBlock, readsFrom, edgeLive, Finset.mem_union, exists_leaves_iff]
    constructor
    · rintro (h | ⟨hk, edge, hedge, h | h⟩ | ⟨edge, hedge, h | h⟩)
      · exact .inl (.inl h)
      · exact .inr ⟨edge.target, .inl ⟨hk, edge, hedge, rfl⟩, h⟩
      · exact .inl (.inr (.inl ⟨hk, edge, hedge, h⟩))
      · exact .inr ⟨edge.target, .inr ⟨edge, hedge, rfl⟩, h⟩
      · exact .inl (.inr (.inr ⟨edge, hedge, h⟩))
    · rintro ((h | ⟨hk, edge, hedge, h⟩ | ⟨edge, hedge, h⟩) | ⟨_, ⟨hk, edge, hedge, rfl⟩ | ⟨edge, hedge, rfl⟩, h⟩)
      · exact .inl h
      · exact .inr (.inl ⟨hk, edge, hedge, .inr h⟩)
      · exact .inr (.inr ⟨edge, hedge, .inr h⟩)
      · exact .inr (.inl ⟨hk, edge, hedge, .inl h⟩)
      · exact .inr (.inr ⟨edge, hedge, .inl h⟩)
  bounded b _ x h := by
    rcases h with ⟨h, -⟩ | ⟨_, edge, -, -, h⟩
    · exact h
    · exact passedOperands_subset operands edge h

/-- **The backward analysis is exact**: an operand is in the entry of a label when some path from there reads it. -/
theorem mem_liveInputs_iff (f : ValidFunction StoreLifetime K) (hx : x ∈ locations operands) (l : BlockLabel) :
    x ∈ liveInputs f.blocks operands l ↔ ReadsLater f.blocks operands x l := by
  rw [liveInputs, (liveInput_flows f operands).mem_loop_iff (by rw [length_reverse]; omega)]
  constructor
  · intro h
    induction h with
    | gen hb h =>
      rw [mem_reverse] at hb
      rcases h with ⟨-, h⟩ | ⟨es, edge, hleaves, hkilled, h⟩
      · exact .read hb h
      · exact .passed hb hleaves hkilled h
    | flow hb h _ ih =>
      rw [mem_reverse] at hb
      obtain ⟨es, edge, hleaves, hkilled, rfl⟩ := h
      exact .later hb hleaves hkilled ih
  · intro h
    induction h with
    | read hb h => exact .gen (mem_reverse.2 hb) (.inl ⟨hx, h⟩)
    | passed hb hleaves hkilled h => exact .gen (mem_reverse.2 hb) (.inr ⟨_, _, hleaves, hkilled, h⟩)
    | later hb hleaves hkilled _ ih => exact .flow (mem_reverse.2 hb) ⟨_, _, hleaves, hkilled, rfl⟩ ih

/-! ## The operands acquired -/

/-- Every operand held at some point of the events is in `prefixes`, and every operand held at their end in `active`. -/
def Tracks (locs : LiveSet) (es : List SlotEvent) (held prefixes active : LiveSet) : Prop :=
  (∀ fs, fs <+: es → ∀ held', runEvents locs fs held = some held' → held' ⊆ prefixes) ∧
  ∀ held', runEvents locs es held = some held' → held' ⊆ active

theorem Tracks.append {prefixes' active' : LiveSet}
    (h : Tracks locs es held prefixes active) (hprefixes : prefixes ⊆ prefixes')
    (h' : ∀ held', runEvents locs es held = some held' → Tracks locs fs held' prefixes' active') :
    Tracks locs (es ++ fs) held prefixes' active' := by
  constructor
  · intro gs hgs held' hrun
    rcases isPrefix_append_cases hgs with hgs | ⟨hs, rfl, hhs⟩
    · exact (h.1 gs hgs held' hrun).trans hprefixes
    · rw [runEvents_append, Option.bind_eq_some_iff] at hrun
      obtain ⟨mid, hmid, hrun⟩ := hrun
      exact (h' mid hmid).1 hs hhs held' hrun
  · intro held' hrun
    rw [runEvents_append, Option.bind_eq_some_iff] at hrun
    obtain ⟨mid, hmid, hrun⟩ := hrun
    exact (h' mid hmid).2 held' hrun

theorem tracks_nil (hp : held ⊆ prefixes) (ha : held ⊆ active) : Tracks locs [] held prefixes active := by
  constructor
  · intro fs hfs held' hrun
    rw [prefix_nil.1 hfs] at hrun
    cases hrun
    exact hp
  · intro held' hrun
    cases hrun
    exact ha

theorem tracks_cons {e : SlotEvent} (hp : held ⊆ prefixes)
    (h : ∀ held', runEvent locs held e = some held' → Tracks locs es held' prefixes active) :
    Tracks locs (e :: es) held prefixes active := by
  constructor
  · intro fs hfs held' hrun
    rcases prefix_cons_iff.1 hfs with rfl | ⟨gs, rfl, hgs⟩
    · cases hrun
      exact hp
    · rw [runEvents, Option.bind_eq_some_iff] at hrun
      obtain ⟨mid, hmid, hrun⟩ := hrun
      exact (h mid hmid).1 gs hgs held' hrun
  · intro held' hrun
    rw [runEvents, Option.bind_eq_some_iff] at hrun
    obtain ⟨mid, hmid, hrun⟩ := hrun
    exact (h mid hmid).2 held' hrun

theorem runEvent_read {held' : LiveSet} (h : runEvent locs held (.read x) = some held') :
    held' = held ∧ (x ∈ locs → x ∈ held) := by
  simp only [runEvent] at h
  split at h
  · cases h
  · rename_i hx
    cases h
    exact ⟨rfl, fun hloc => by_contra fun hheld => hx ⟨hloc, hheld⟩⟩

/-- Reads leave the operands alone, and end only if all of them are there. -/
theorem runEvents_reads : ∀ {held held' : LiveSet}, runEvents locs (ns.map fun n => .read n.location) held = some held' →
      held' = held ∧ ∀ n ∈ ns, n.location ∈ locs → n.location ∈ held := by
  induction ns with
  | nil =>
    intro held held' h
    cases h
    exact ⟨rfl, nofun⟩
  | cons n ns ih =>
    intro held held' h
    rw [map_cons, runEvents, Option.bind_eq_some_iff] at h
    obtain ⟨mid, hmid, h⟩ := h
    obtain ⟨rfl, hn⟩ := runEvent_read hmid
    obtain ⟨rfl, hns⟩ := ih h
    exact ⟨rfl, forall_mem_cons.mpr ⟨hn, hns⟩⟩

theorem tracks_reads (hp : held ⊆ prefixes)
    (ha : held ⊆ active) : Tracks locs (ns.map fun n => .read n.location) held prefixes active := by
  induction ns with
  | nil => exact tracks_nil hp ha
  | cons n ns ih =>
    refine tracks_cons hp ?_
    intro held' h
    obtain ⟨rfl, -⟩ := runEvent_read h
    exact ih

theorem prefixes_subset_acquire (locs : LiveSet) (h : Head K) (st : AcquireState) :
    st.prefixes ⊆ (h.acquire locs st).prefixes := by
  unfold Head.acquire
  split <;> try exact subset_rfl
  · split
    · exact Finset.subset_insert _ _
    · exact subset_rfl
  · split <;> exact subset_rfl

/-- What an operation does itself. A phase that replaces its buffer has read it before. -/
theorem tracks_act {st : AcquireState} (h : Head K) (hp : held ⊆ st.prefixes)
    (ha : held ⊆ st.active) (hborrowed : ∀ n ∈ h.borrowedNames, n.location ∈ locs → n.location ∈ st.prefixes) :
    Tracks locs h.actEvents held (h.acquire locs st).prefixes (h.acquire locs st).active := by
  have herase : ∀ x, held.erase x ⊆ st.active.erase x := fun x => Finset.erase_subset_erase x ha
  have hbefore : ∀ x, held.erase x ⊆ st.prefixes := fun x => (Finset.erase_subset x held).trans hp
  cases h with
  | load n =>
    refine tracks_cons hp ?_
    intro held' hrun
    obtain ⟨rfl, -⟩ := runEvent_read hrun
    exact tracks_nil hp ha
  | store n =>
    refine tracks_cons (hp.trans (prefixes_subset_acquire locs _ st)) ?_
    intro held' hrun
    cases hrun
    simp only [Head.acquire]
    split
    · exact tracks_nil (Finset.insert_subset_insert _ hp) (Finset.insert_subset_insert _ ha)
    · exact tracks_nil hp ha
  | del n quietly =>
    refine tracks_cons hp ?_
    intro held' hrun
    cases hrun
    exact tracks_nil (hbefore _) (herase _)
  | takeOperand n =>
    refine tracks_cons hp ?_
    intro held' hrun
    obtain ⟨rfl, -⟩ := runEvent_read hrun
    refine tracks_cons hp ?_
    intro held' hrun
    cases hrun
    exact tracks_nil (hbefore _) (herase _)
  | callArgumentOp kind callable buffer =>
    have hbuffer : buffer.location ∈ locs → buffer.location ∈ st.prefixes :=
      hborrowed buffer (by simp [Head.borrowedNames])
    -- the new value goes into a slot that held one in this block already
    have hacquire : ∀ held : LiveSet, held ⊆ st.prefixes → held ⊆ st.active →
        Tracks locs [.acquire buffer.location] held st.prefixes
          (if buffer.location ∈ locs then insert buffer.location st.active else st.active) := by
      intro held hp ha
      refine tracks_cons hp ?_
      intro held' hrun
      cases hrun
      split
      · rename_i hloc
        exact tracks_nil (Finset.insert_subset (hbuffer hloc) hp) (Finset.insert_subset_insert _ ha)
      · exact tracks_nil hp ha
    have hstate : kind.replacesBuffer → (Head.acquire (K := K) locs (.callArgumentOp kind callable buffer) st) =
        { st with active := if buffer.location ∈ locs then insert buffer.location st.active else st.active } := by
      intro hreplaces
      simp only [Head.acquire, hreplaces, true_and]
      split <;> rfl
    cases kind with
    | extendPositional | mergeKeywords => exact tracks_nil hp ha
    | normalizeSingletonStar =>
      rw [hstate rfl]
      exact hacquire held hp ha
    | finishPositionalList =>
      rw [hstate rfl]
      refine tracks_cons hp ?_
      intro held' hrun
      cases hrun
      exact hacquire _ (hbefore _) ((Finset.erase_subset _ _).trans ha)
  | _ => exact tracks_nil hp ha

/-- A step of the analysis for the events: the state has all that is held before and while they run. -/
def Acquires (locs : LiveSet) (es : List SlotEvent) (step : AcquireState → AcquireState) : Prop :=
  ∀ (st : AcquireState) (held : LiveSet), held ⊆ st.prefixes → held ⊆ st.active →
    st.prefixes ⊆ (step st).prefixes ∧ Tracks locs es held (step st).prefixes (step st).active

theorem Acquires.append {step step' : AcquireState → AcquireState} (h : Acquires locs es step)
    (h' : Acquires locs fs step') : Acquires locs (es ++ fs) fun st => step' (step st) := by
  intro st held hp ha
  obtain ⟨hgrows, htracks⟩ := h st held hp ha
  have hgrows' := (h' (step st) ∅ (Finset.empty_subset _) (Finset.empty_subset _)).1
  refine ⟨hgrows.trans hgrows', htracks.append hgrows' ?_⟩
  intro held' hrun
  exact (h' _ held' (htracks.1 _ (prefix_refl _) held' hrun) (htracks.2 held' hrun)).2

theorem tracks_list (hi : ∀ i ∈ is, Acquires locs i.slotEvents (i.acquire locs)) :
    Acquires locs (slotEventsList is) (acquireList locs is) := by
  induction is with
  | nil => exact fun st held hp ha => ⟨subset_rfl, tracks_nil hp ha⟩
  | cons i is ih =>
    rw [forall_mem_cons] at hi
    exact hi.1.append (ih hi.2)

theorem tracks_instr : Acquires locs i.slotEvents (i.acquire locs) := by
  induction i using Instr.induct with
  | mk lifetime h ops ih =>
    intro st held hp ha
    obtain ⟨hgrows, hops⟩ := tracks_list ih st held hp ha
    have hgrows' := prefixes_subset_acquire locs h (acquireList locs ops st)
    refine ⟨hgrows.trans hgrows', (tracks_reads h.borrowedNames hp ha).append (hgrows.trans hgrows') ?_⟩
    intro held' hrun
    obtain ⟨rfl, hborrowed⟩ := runEvents_reads h.borrowedNames hrun
    refine hops.append hgrows' ?_
    intro mid hmid
    exact tracks_act h (hops.1 _ (prefix_refl _) mid hmid) (hops.2 mid hmid)
      fun n hn hloc => hgrows (hp (hborrowed n hn hloc))

/-- A block entered with operands of `incoming`. -/
theorem tracks_block {incoming : LiveSet} (b : Block (InstrResolved K)) (h : held ⊆ incoming) :
    Tracks locs b.slotEvents held (b.acquire locs incoming).prefixes (b.acquire locs incoming).active := by
  have hlist : ∀ is : List (InstrResolved K), Acquires locs (slotEventsList is) (acquireList locs is) :=
    fun is => tracks_list fun i _ => tracks_instr i
  exact ((hlist b.body).append (hlist b.term.operands) ⟨incoming, incoming⟩ held h h).2

/-- Only operand slots are tracked. -/
structure AcquireState.Within (locs : LiveSet) (st : AcquireState) : Prop where
  active : st.active ⊆ locs
  prefixes : st.prefixes ⊆ locs

theorem AcquireState.Within.act {st : AcquireState} (hst : st.Within locs) (h : Head K) :
    (h.acquire locs st).Within locs := by
  unfold Head.acquire
  split
  · split
    · rename_i hn
      exact ⟨Finset.insert_subset hn hst.active, Finset.insert_subset hn hst.prefixes⟩
    · exact hst
  · exact ⟨(Finset.erase_subset _ _).trans hst.active, hst.prefixes⟩
  · split
    · rename_i hn
      exact ⟨Finset.insert_subset hn.2 hst.active, hst.prefixes⟩
    · exact hst
  · exact ⟨(Finset.erase_subset _ _).trans hst.active, hst.prefixes⟩
  · exact hst

theorem AcquireState.Within.list (hi : ∀ i ∈ is, ∀ st : AcquireState, st.Within locs → (i.acquire locs st).Within locs) :
    ∀ {st : AcquireState}, st.Within locs → (acquireList locs is st).Within locs := by
  induction is with
  | nil => exact fun h => h
  | cons i is ih =>
    intro st h
    rw [forall_mem_cons] at hi
    exact ih hi.2 (hi.1 st h)

theorem AcquireState.Within.instr : ∀ st : AcquireState, st.Within locs → (i.acquire locs st).Within locs := by
  induction i using Instr.induct with
  | mk lifetime h ops ih =>
    intro st hst
    exact (AcquireState.Within.list ih hst).act h

section

variable {f : ValidFunction StoreLifetime K} {edge : BlockEdge}

theorem excTarget_mem (hb : b ∈ f.blocks) (h : b.excEdge = some edge) : edge.target ∈ f.blocks.map (·.label) := by
  apply f.targetsKnown b hb
  rw [Block.successors, h]
  exact mem_append_left _ (mem_singleton_self _)

theorem target_mem_labels (hb : b ∈ f.blocks) (h : edge ∈ b.term.edges) : edge.target ∈ f.blocks.map (·.label) :=
  f.targetsKnown b hb _ (mem_append_right _ (mem_map_of_mem h))

variable (f) (locs : LiveSet)

theorem acquired_sends : RoundRobin.Sends (acquiredSends (K := K) locs) f.blocks (f.blocks.map (·.label)) locs := by
  intro incoming hincoming b hb c hc
  have hwithin : (b.acquire locs (incoming b.label)).Within locs :=
    .list (fun i _ => .instr i) (.list (fun i _ => .instr i) ⟨hincoming b.label, hincoming b.label⟩)
  simp only [acquiredSends, mem_append, mem_map, Option.mem_toList, Option.map_eq_some_iff] at hc
  rcases hc with ⟨edge, hedge, rfl⟩ | ⟨edge, hedge, rfl⟩
  · exact ⟨target_mem_labels hb hedge, hwithin.active⟩
  · exact ⟨excTarget_mem hb hedge, hwithin.prefixes⟩

theorem resumedOperands_subset (l : BlockLabel) : resumedOperands f.blocks locs l ⊆ locs := by
  unfold resumedOperands
  split
  · exact Finset.filter_subset _ _
  · exact Finset.empty_subset _

/-- **The forward analysis is closed**: it has the operands a resumed function starts with, and what a block holds at its
end or where it raises it has at the block control goes to. -/
theorem acquiredIncoming_closed :
    (∀ l, resumedOperands f.blocks locs l ⊆ acquiredIncoming f.blocks locs l) ∧
    ∀ b ∈ f.blocks,
      (∀ edge ∈ b.term.edges, (b.acquire locs (acquiredIncoming f.blocks locs b.label)).active ⊆
        acquiredIncoming f.blocks locs edge.target) ∧
      ∀ edge, b.excEdge = some edge → acquiredPrefixes locs f.blocks b ⊆ acquiredIncoming f.blocks locs edge.target := by
  obtain ⟨hinit, hclosed⟩ := (acquired_sends f locs).loop_closed (resumedOperands_subset f locs)
    (show (f.blocks.map (·.label)).length * locs.card < f.blocks.length * locs.card + 1 by
      rw [length_map]; omega)
  refine ⟨hinit, fun b hb => ⟨fun edge hedge => ?_, fun edge hedge => ?_⟩⟩
  · exact hclosed b hb (edge.target, _) (mem_append_left _ (mem_map.2 ⟨edge, hedge, rfl⟩))
  · exact hclosed b hb (edge.target, _) (mem_append_right _ (by simp [hedge]; rfl))

end

/-! ## The cleanup blocks -/

/-- What became of a block: it is unchanged and there is nothing to release, or its exception edge leads through a cleanup
block. -/
structure Unwound (blocks : List (Block (InstrResolved K))) (operands : List Operand) (next : BlockLabel)
    (b b' : Block (InstrResolved K)) (cleanups : List (Block (InstrResolved K))) : Prop where
  label : b'.label = b.label
  params : b'.params = b.params
  events : b'.slotEvents = b.slotEvents
  edges : b'.term.edges = b.term.edges
  exception : (b'.excEdge = b.excEdge ∧ ∀ edge, b.excEdge = some edge → releasedOperands blocks operands b edge = []) ∨
    ∃ edge target n, b.excEdge = some edge ∧ target ∈ blocks ∧ target.label = edge.target ∧ next ≤ n ∧
      b'.excEdge = some ⟨n, edge.args⟩ ∧ cleanupBlock n (releasedOperands blocks operands b edge) target ∈ cleanups

variable {next : BlockLabel}

theorem unwindBlock_spec (hknown : ∀ edge, b.excEdge = some edge → edge.target ∈ blocks.map (·.label))
    {r : Block (InstrResolved K) × Option (Block (InstrResolved K))} (h : unwindBlock blocks operands next b = some r) :
    Unwound blocks operands next b r.1 r.2.toList ∧
      ∀ c ∈ r.2, c.label = next ∧ ∃ edge target, b.excEdge = some edge ∧ target ∈ blocks ∧ target.label = edge.target ∧
        c = cleanupBlock next (releasedOperands blocks operands b edge) target := by
  unfold unwindBlock at h
  cases hexc : b.excEdge with
  | none =>
    simp only [hexc, Option.some.injEq] at h
    subst h
    exact ⟨⟨rfl, rfl, rfl, rfl, .inl ⟨rfl, fun edge hedge => by rw [hexc] at hedge; cases hedge⟩⟩, nofun⟩
  | some edge =>
    simp only [hexc] at h
    split at h
    · rename_i hnone
      cases h
      refine ⟨⟨rfl, rfl, rfl, rfl, .inl ⟨rfl, ?_⟩⟩, nofun⟩
      intro edge' hedge'
      rw [hexc, Option.some.injEq] at hedge'
      rw [← hedge', hnone]
    · obtain ⟨t, ht, hlabel⟩ := mem_map.1 (hknown edge hexc)
      split at h
      · rename_i hfind
        exact absurd hlabel (by simpa using List.find?_eq_none.1 hfind t ht)
      · rename_i target hfind
        have hmem := mem_of_find?_eq_some hfind
        have htarget : target.label = edge.target := by simpa using List.find?_some hfind
        split at h
        · cases h
          refine ⟨⟨rfl, rfl, rfl, rfl, .inr ⟨edge, target, next, hexc, hmem, htarget, Nat.le_refl _, rfl, ?_⟩⟩, ?_⟩
          · exact mem_singleton_self _
          · intro c hc
            cases hc
            exact ⟨rfl, edge, target, rfl, hmem, htarget, rfl⟩
        · cases h

theorem Unwound.mono {next' : BlockLabel}
    {b' : Block (InstrResolved K)} {cleanups cleanups' : List (Block (InstrResolved K))}
    (h : Unwound blocks operands next b b' cleanups) (hnext : next' ≤ next) (hsub : cleanups ⊆ cleanups') :
    Unwound blocks operands next' b b' cleanups' := by
  refine ⟨h.label, h.params, h.events, h.edges, h.exception.imp id ?_⟩
  rintro ⟨edge, target, n, hexc, hmem, hlabel, hn, hexc', hcleanup⟩
  exact ⟨edge, target, n, hexc, hmem, hlabel, Nat.le_trans hnext hn, hexc', hsub hcleanup⟩

/-- All blocks: each is unwound, the cleanup blocks have labels of their own, and there are no others. -/
theorem unwindBlocks_spec : ∀ {bs : List (Block (InstrResolved K))} {next : BlockLabel},
    (∀ b ∈ bs, ∀ edge, b.excEdge = some edge → edge.target ∈ blocks.map (·.label)) →
    ∀ {r : List (Block (InstrResolved K)) × List (Block (InstrResolved K))}, unwindBlocks blocks operands next bs = some r →
      List.Forall₂ (fun b b' => Unwound blocks operands next b b' r.2) bs r.1 ∧
      (∀ c ∈ r.2, next ≤ c.label) ∧ (r.2.map (·.label)).Nodup ∧
      ∀ c ∈ r.2, ∃ b ∈ bs, ∃ edge target, b.excEdge = some edge ∧ target ∈ blocks ∧ target.label = edge.target ∧
        c = cleanupBlock c.label (releasedOperands blocks operands b edge) target := by
  intro bs
  induction bs with
  | nil =>
    intro next _ r h
    cases h
    exact ⟨.nil, nofun, nodup_nil, nofun⟩
  | cons b bs ih =>
    intro next hknown r h
    rw [unwindBlocks, Option.bind_eq_some_iff] at h
    obtain ⟨first, hfirst, h⟩ := h
    obtain ⟨rest, hrest, rfl⟩ := Option.map_eq_some_iff.1 h
    obtain ⟨hb, hcleanup⟩ := unwindBlock_spec (hknown b mem_cons_self) hfirst
    obtain ⟨hbs, hlabels, hnodup, hall⟩ := ih (fun c hc => hknown c (mem_cons_of_mem _ hc)) hrest
    have hlabel : ∀ c ∈ first.2.toList, c.label = next := fun c hc => (hcleanup c (Option.mem_toList.1 hc)).1
    refine ⟨.cons (hb.mono (Nat.le_refl _) (subset_append_left _ _)) ?_, ?_, ?_, ?_⟩
    · exact hbs.imp fun _ _ h => h.mono (Nat.le_add_right _ _) (subset_append_right _ _)
    · refine forall_mem_append.2 ⟨fun c hc => (hlabel c hc).ge, fun c hc => ?_⟩
      exact Nat.le_trans (Nat.le_add_right _ _) (hlabels c hc)
    · rw [map_append, nodup_append]
      refine ⟨by cases first.2 <;> simp, hnodup, forall_mem_map.2 fun c hc => forall_mem_map.2 fun d hd => ?_⟩
      have hlen : 1 ≤ first.2.toList.length := length_pos_of_mem hc
      have hge := hlabels d hd
      rw [hlabel c hc]
      exact Nat.ne_of_lt (Nat.lt_of_lt_of_le (Nat.lt_add_of_pos_right hlen) hge)
    · refine forall_mem_append.2 ⟨fun c hc => ?_, fun c hc => ?_⟩
      · obtain ⟨hnext, edge, target, hexc, hmem, htarget, heq⟩ := hcleanup c (Option.mem_toList.1 hc)
        exact ⟨b, mem_cons_self, edge, target, hexc, hmem, htarget, by rw [hnext]; exact heq⟩
      · obtain ⟨d, hd, h⟩ := hall c hc
        exact ⟨d, mem_cons_of_mem _ hd, h⟩

/-- What the pass makes of a function: its blocks, each unwound, and the cleanup blocks. -/
structure Materialized (f : ResolvedFunction K) (operands : List Operand) (blocks' : List (Block (InstrResolved K))) :
    Prop where
  entry : ∀ b', blocks'.head? = some b' → b'.label = f.entryBlock.label
  unwound : ∀ b ∈ f.blocks, ∃ b' ∈ blocks', Unwound f.blocks operands f.nextBlockName b b' blocks'
  origin : ∀ b' ∈ blocks', (∃ b ∈ f.blocks, Unwound f.blocks operands f.nextBlockName b b' blocks') ∨
    (f.nextBlockName ≤ b'.label ∧ ∃ b ∈ f.blocks, ∃ edge target, b.excEdge = some edge ∧ target ∈ f.blocks ∧
      target.label = edge.target ∧ b' = cleanupBlock b'.label (releasedOperands f.blocks operands b edge) target)
  nodup : (blocks'.map (·.label)).Nodup

variable (f : ResolvedFunction K)

theorem unwound_self (blocks' : List (Block (InstrResolved K))) : Unwound f.blocks [] f.nextBlockName b b blocks' :=
  ⟨rfl, rfl, rfl, rfl, .inl ⟨rfl, fun _ _ => rfl⟩⟩

theorem materialized_nil : Materialized f [] f.blocks where
  entry b' h := by
    rw [List.head?_eq_some_head f.nonempty, Option.some.injEq] at h
    rw [← h]
    rfl
  unwound b hb := ⟨b, hb, unwound_self f _⟩
  origin b hb := .inl ⟨b, hb, unwound_self f _⟩
  nodup := f.labelsNodup

/-- The pass in one statement. -/
theorem materialized_of_eq_some
    (hoperands : collectOperands f.blocks = some operands) {blocks' : List (Block (InstrResolved K))}
    (h : materializeOperandUnwinds f = some blocks') : Materialized f operands blocks' := by
  rw [materializeOperandUnwinds, hoperands, Option.bind_some] at h
  split at h
  · rename_i hnil
    cases h
    rw [hnil]
    exact materialized_nil f
  · obtain ⟨r, hr, rfl⟩ := Option.map_eq_some_iff.1 h
    obtain ⟨hbs, hlabels, hnodup, hcleanup⟩ := unwindBlocks_spec (fun b hb _ => excTarget_mem hb) hr
    have hmono : ∀ {b b' : Block (InstrResolved K)}, Unwound f.blocks operands f.nextBlockName b b' r.2 →
        Unwound f.blocks operands f.nextBlockName b b' (r.1 ++ r.2) :=
      fun h => h.mono (Nat.le_refl _) (subset_append_right _ _)
    have hsame : r.1.map (·.label) = f.blocks.map (·.label) := map_eq_of_forall₂ (fun _ _ h => h.label) hbs
    refine ⟨?_, ?_, ?_, ?_⟩
    · intro b' hb'
      have hlabels : (r.1.map (·.label)).head? = some f.entryBlock.label := by
        rw [hsame, List.head?_map, List.head?_eq_some_head f.nonempty]
        rfl
      cases hr1 : r.1 with
      | nil => rw [hr1] at hlabels; cases hlabels
      | cons c cs =>
        rw [hr1] at hlabels hb'
        cases hb'
        simpa using hlabels
    · intro b hb
      obtain ⟨b', hb', hu⟩ := forall₂_mem_left hbs hb
      exact ⟨b', mem_append_left _ hb', hmono hu⟩
    · refine forall_mem_append.2 ⟨fun b' hb' => ?_, fun b' hb' => .inr ⟨hlabels b' hb', hcleanup b' hb'⟩⟩
      obtain ⟨b, hb, hu⟩ := forall₂_mem_right hbs hb'
      exact .inl ⟨b, hb, hmono hu⟩
    · rw [map_append, nodup_append, hsame]
      refine ⟨f.labelsNodup, hnodup, forall_mem_map.2 fun b hb => forall_mem_map.2 fun c hc => ?_⟩
      exact Nat.ne_of_lt (Nat.lt_of_lt_of_le (f.labelsBelow b hb) (hlabels c hc))

/-! ## The table of operands -/

instance : Std.Total Operand.UnwindsBefore :=
  ⟨fun o p => Nat.le_total p.unwindOrder o.unwindOrder⟩

instance : IsTrans Operand Operand.UnwindsBefore :=
  ⟨fun _ _ _ h h' => Nat.le_trans h' h⟩

/-- Entering a store keeps one entry for each slot, all of them stores. -/
theorem insertOperand_spec {table table' stores : List Operand} {o : Operand} (h : insertOperand table o = some table')
    (hnodup : (table.map location).Nodup) (hstores : ∀ p ∈ table, p ∈ stores) :
    (table'.map location).Nodup ∧ (∀ p ∈ table', p ∈ stores ∨ p = o) ∧
      ∀ x, x ∈ table'.map location ↔ x ∈ table.map location ∨ x = o.location := by
  unfold insertOperand at h
  split at h
  · split at h
    · rename_i previous hfind
      split at h
      · cases h
        have hmap : (table.map fun p => if p.location = o.location then o else p).map location =
            table.map location := by
          rw [map_map]
          apply map_congr_left
          intro p _
          simp only [Function.comp]
          split
          · rename_i hp
            exact hp.symm
          · rfl
        rw [hmap]
        refine ⟨hnodup, ?_, ?_⟩
        · refine forall_mem_map.2 fun q hq => ?_
          split
          · exact .inr rfl
          · exact .inl (hstores q hq)
        · refine fun x => (or_iff_left_of_imp ?_).symm
          rintro rfl
          have hprevious : previous.location = o.location := by simpa using List.find?_some hfind
          exact mem_map.2 ⟨previous, mem_of_find?_eq_some hfind, hprevious⟩
      · cases h
    · rename_i hfind
      cases h
      have hfresh : o.location ∉ table.map location := by
        intro hmem
        obtain ⟨p, hp, hlocation⟩ := mem_map.1 hmem
        exact absurd hlocation (by simpa using List.find?_eq_none.1 hfind p hp)
      refine ⟨?_, ?_, ?_⟩
      · rw [map_append]
        exact hnodup.append (nodup_singleton _) (disjoint_singleton.mpr hfresh)
      · exact forall_mem_append.2 ⟨fun p hp => .inl (hstores p hp), forall_mem_singleton.2 (.inr rfl)⟩
      · intro x
        simp
  · cases h

theorem foldlM_insertOperand {os : List Operand} : ∀ {table table' stores : List Operand},
    os.foldlM insertOperand table = some table' → (table.map location).Nodup → (∀ p ∈ table, p ∈ stores) →
    (table'.map location).Nodup ∧ (∀ p ∈ table', p ∈ stores ++ os) ∧
      ∀ x, x ∈ table'.map location ↔ x ∈ table.map location ∨ x ∈ os.map location := by
  induction os with
  | nil =>
    intro table table' stores h hnodup hstores
    cases h
    exact ⟨hnodup, (fun p hp => mem_append_left _ (hstores p hp)), fun x => by simp⟩
  | cons o os ih =>
    intro table table' stores h hnodup hstores
    obtain ⟨mid, hmid, h⟩ := Option.bind_eq_some_iff.1 h
    obtain ⟨hnodup', hstores', hlocations⟩ := insertOperand_spec hmid hnodup hstores
    have hmem : ∀ p ∈ mid, p ∈ stores ++ [o] := by simpa using hstores'
    obtain ⟨hnodup'', hstores'', hlocations'⟩ := ih h hnodup' hmem
    refine ⟨hnodup'', by simpa using hstores'', fun x => ?_⟩
    rw [hlocations', hlocations, map_cons, mem_cons, or_assoc]

/-- The table has one entry for the slot of every operand store, and is in decreasing unwind order. -/
theorem collectOperands_spec (h : collectOperands blocks = some operands) :
    (operands.map Operand.location).Nodup ∧ operands.Pairwise Operand.UnwindsBefore ∧
      (∀ o ∈ operands, o ∈ blocks.flatMap Block.operandStores) ∧
      ∀ o ∈ blocks.flatMap Block.operandStores, o.location ∈ locations operands := by
  obtain ⟨table, htable, rfl⟩ := Option.map_eq_some_iff.1 h
  obtain ⟨hnodup, hstores, hlocations⟩ :=
    foldlM_insertOperand htable nodup_nil (fun p h => (nomatch h : p ∈ ([] : List Operand)))
  have hperm := perm_insertionSort Operand.UnwindsBefore table
  refine ⟨(hperm.map _).nodup_iff.2 hnodup, pairwise_insertionSort _ _, ?_, ?_⟩
  · intro o ho
    simpa using hstores o (hperm.subset ho)
  · intro o ho
    rw [locations, mem_toFinset, (hperm.map _).mem_iff, hlocations]
    exact .inr (mem_map_of_mem ho)

/-! ## Runs -/

section

variable {f : ResolvedFunction K} {operands : List Operand} {blocks' : List (Block (InstrResolved K))}
  {t : Block (InstrResolved K)} {c : SlotConfig} {edge : BlockEdge} {target : Block (InstrResolved K)}

/-- The block of a label of the function is the unwound one. -/
theorem Materialized.unwound_of_label (h : Materialized f operands blocks') {b' : Block (InstrResolved K)} (hb' : b' ∈ blocks')
    (hb : b ∈ f.blocks) (hlabel : b'.label = b.label) : Unwound f.blocks operands f.nextBlockName b b' blocks' := by
  obtain ⟨c, hc, hu⟩ := h.unwound b hb
  rwa [inj_on_of_nodup_map h.nodup hb' hc (hlabel.trans hu.label.symm)]

variable (f operands blocks') in
/-- Where a run can be: inside a block of the function, with the operands the events so far leave, or inside a cleanup
block. -/
inductive AtPoint : SlotConfig → Prop
  | block {c : SlotConfig} {b : Block (InstrResolved K)} {es : List SlotEvent} {held : LiveSet} : b ∈ f.blocks →
      c.label = b.label → b.slotEvents = es ++ c.rest →
      held ⊆ acquiredIncoming f.blocks (locations operands) b.label →
      runEvents (locations operands) es held = some c.held → AtPoint c
  | cleanup {c : SlotConfig} {n : BlockLabel} {released : List Operand} {target : Block (InstrResolved K)} :
      cleanupBlock n released target ∈ blocks' → c.label = n → f.nextBlockName ≤ n → target ∈ f.blocks →
      (∀ e ∈ c.rest, ∃ x, e = .release x) →
      c.held ⊆ acquiredIncoming f.blocks (locations operands) target.label → AtPoint c

theorem cleanupBlock_events (n : BlockLabel) (released : List Operand) (target : Block (InstrResolved K)) :
    (cleanupBlock n released target).slotEvents = released.map fun o => .release o.location := by
  have hbody : slotEventsList (cleanupBlock n released target).body = released.map fun o => .release o.location := by
    rw [cleanupBlock]
    induction released with
    | nil => rfl
    | cons o os ih =>
      simp only [map_cons, slotEventsList, Instr.slotEvents, Head.borrowEvents, Head.borrowedNames, Head.actEvents, ih]
      rfl
  rw [Block.slotEvents, hbody]
  exact append_nil _

/-- The start of a block of the function, with operands the analysis has there. -/
theorem AtPoint.start (h : Materialized f operands blocks') (ht : t ∈ blocks') (hlabel : t.label ∈ f.blocks.map (·.label))
    (hheld : held ⊆ acquiredIncoming f.blocks (locations operands) t.label) :
    AtPoint f operands blocks' (.start t held) := by
  obtain ⟨b, hb, heq⟩ := mem_map.1 hlabel
  have heq := heq.symm
  have hevents : b.slotEvents = [] ++ t.slotEvents := (h.unwound_of_label ht hb heq).events.symm
  exact .block hb heq hevents (heq ▸ hheld) rfl

/-- Inside a block of the function every operand held is one that the analysis finds for where the block raises. -/
theorem AtPoint.held_subset (h : AtPoint f operands blocks' c)
    (hb : b ∈ f.blocks) (hlabel : c.label = b.label) : c.held ⊆ acquiredPrefixes (locations operands) f.blocks b ∧
      (c.rest = [] → c.held ⊆ (b.acquire (locations operands)
        (acquiredIncoming f.blocks (locations operands) b.label)).active) := by
  cases h with
  | @block b₀ es held hb₀ hlabel₀ hevents hheld hrun =>
    have hsame : b₀ = b := f.eq_of_label hb₀ hb (hlabel₀.symm.trans hlabel)
    subst hsame
    have htracks : Tracks (locations operands) b₀.slotEvents held _ _ := tracks_block b₀ hheld
    refine ⟨htracks.1 es (hevents ▸ prefix_append es c.rest) c.held hrun, ?_⟩
    intro hrest
    rw [hrest, append_nil] at hevents
    exact htracks.2 c.held (hevents ▸ hrun)
  | cleanup _ hn hnext =>
    have hlt := f.labelsBelow b hb
    rw [← hlabel, hn] at hlt
    exact absurd hnext (Nat.not_le_of_lt hlt)

section

variable (h : Materialized f operands blocks')
include h

/-- An exceptional transfer: into the handler, or into the cleanup block in front of it. -/
theorem AtPoint.fails {d : SlotConfig} (hc : AtPoint f operands blocks' c)
    (hstep : Fails blocks' operands c d) : AtPoint f operands blocks' d := by
  cases hstep with
  | @mk b' t edge rest held hb' hexc ht htarget =>
    have hheld' : bindEdge operands edge t held ⊆ held := Finset.filter_subset _ _
    rcases h.origin b' hb' with ⟨b, hb, hu⟩ | ⟨-, b, -, edge', target, -, -, -, heq⟩
    · have hheld := (hc.held_subset hb hu.label).1
      have hincoming := ((acquiredIncoming_closed f.toValidFunction (locations operands)).2 b hb).2
      rcases hu.exception with ⟨hsame, -⟩ | ⟨edge₀, target, n, hexc₀, htarget₀, hlabel₀, hn, hexc', hcleanup⟩
      · rw [hsame] at hexc
        refine .start h ht (htarget ▸ excTarget_mem hb hexc) ?_
        rw [htarget]
        exact hheld'.trans (hheld.trans (hincoming edge hexc))
      · rw [hexc'] at hexc
        cases hexc
        have hsame : t = cleanupBlock n (releasedOperands f.blocks operands b edge₀) target :=
          inj_on_of_nodup_map h.nodup ht hcleanup htarget
        refine .cleanup hcleanup htarget hn htarget₀ ?_ ?_
        · rw [SlotConfig.start, hsame, cleanupBlock_events]
          exact forall_mem_map.2 fun o _ => ⟨o.location, rfl⟩
        · rw [hlabel₀]
          exact hheld'.trans (hheld.trans (hincoming edge₀ hexc₀))
    · rw [heq] at hexc
      cases hexc

/-- Every step keeps the run at such a point. -/
theorem AtPoint.step {d : SlotConfig} {r : Option NameLocation}
    (hc : AtPoint f operands blocks' c) (hstep : SlotStep blocks' operands c r d) : AtPoint f operands blocks' d := by
  cases hstep with
  | @event l e rest held held' hrun =>
    cases hc with
    | @block b es held₀ hb hlabel hevents hheld hrun₀ =>
      have hevents' : b.slotEvents = (es ++ [e]) ++ rest := by rw [hevents, append_assoc]; rfl
      refine .block hb hlabel hevents' hheld ?_
      rw [runEvents_append, hrun₀]
      simp [runEvents, hrun]
    | cleanup hmem hn hnext htarget hrest hheld =>
      refine .cleanup hmem hn hnext htarget (fun e he => hrest e (mem_cons_of_mem _ he)) ?_
      obtain ⟨x, rfl⟩ := hrest e mem_cons_self
      cases hrun
      exact (Finset.erase_subset _ _).trans hheld
  | @next b' t edge held hb' hedge ht htarget =>
    have hheld' : bindEdge operands edge t held ⊆ held := Finset.filter_subset _ _
    rcases h.origin b' hb' with ⟨b, hb, hu⟩ | ⟨hnext, b, -, edge', target, -, htarget', -, heq⟩
    · have hheld := (hc.held_subset hb hu.label).2 rfl
      rw [hu.edges] at hedge
      have hincoming := ((acquiredIncoming_closed f.toValidFunction (locations operands)).2 b hb).1 edge hedge
      refine .start h ht (htarget ▸ target_mem_labels hb hedge) ?_
      rw [htarget]
      exact hheld'.trans (hheld.trans hincoming)
    · cases hc with
      | block hb₀ hlabel =>
        have hlt := f.labelsBelow _ hb₀
        rw [← hlabel] at hlt
        exact absurd hnext (Nat.not_le_of_lt hlt)
      | @cleanup n released target₀ hmem hn _ htarget₀ _ hheld =>
        have hsame : b' = cleanupBlock n released target₀ := inj_on_of_nodup_map h.nodup hb' hmem hn
        rw [hsame] at hedge
        have hto : edge.target = target₀.label := by rw [mem_singleton.1 hedge]
        refine .start h ht ?_ ?_
        · rw [htarget, hto]
          exact mem_map_of_mem htarget₀
        · rw [htarget, hto]
          exact hheld'.trans hheld
  | fail hfails => exact hc.fails h hfails

/-- **Every run stays at such a point.** -/
theorem SlotReachable.atPoint (hc : SlotReachable blocks' operands c) : AtPoint f operands blocks' c := by
  induction hc with
  | @start b' held hentry hheld =>
    have hlabel := h.entry b' hentry
    have hmem : b'.label ∈ f.blocks.map (·.label) := hlabel ▸ mem_map_of_mem f.entryBlock_mem
    refine .start h (mem_of_head? hentry) hmem (hheld.trans ?_)
    have hresumed := (acquiredIncoming_closed f.toValidFunction (locations operands)).1 b'.label
    have hhead : f.blocks.head?.map (·.label) = some b'.label := by
      rw [List.head?_eq_some_head f.nonempty, hlabel]
      rfl
    rwa [resumedOperands, if_pos hhead] at hresumed
  | step _ hstep ih => exact ih.step h hstep

end

/-! ## The transfer -/

theorem bindEdge_eq_self (held : LiveSet)
    (h : ∀ pa ∈ explicitParams t.params edge.args, ∀ o ∈ operands, o.name.id = pa.1.name → pa.2 = .name pa.1.name) :
    bindEdge operands edge t held = held := by
  apply Finset.filter_true_of_mem
  rintro x - ⟨pa, hpa, o, ho, -, hname, hne⟩
  exact hne (h pa hpa o ho hname)

/-- Operand slots are private: an edge of the function leaves them as they are. -/
theorem bindEdge_private (hoperands : collectOperands f.blocks = some operands)
    (hb : b ∈ f.blocks) (hexc : b.excEdge = some edge) (htarget : target ∈ f.blocks)
    (hlabel : target.label = edge.target) (hparams : t.params = target.params) {args : List BlockArg} {n : BlockLabel}
    (hargs : args = edge.args) (held : LiveSet) : bindEdge operands ⟨n, args⟩ t held = held := by
  apply bindEdge_eq_self
  intro pa hpa o ho hname
  rw [hparams, hargs] at hpa
  exact f.operandsPrivate b hb edge (mem_append_left _ (Option.mem_toList.2 hexc)) target htarget hlabel pa hpa o
    ((collectOperands_spec hoperands).2.2.1 o ho) hname

/-- The cleanup block passes its parameters on as they are. -/
theorem bindEdge_forwarded (hparams : t.params = target.params) (held : LiveSet) :
    bindEdge operands ⟨target.label, target.params.map fun p => .name p.name⟩ t held = held := by
  apply bindEdge_eq_self
  intro pa hpa o _ _
  rw [hparams] at hpa
  simp only [explicitParams, length_map, Nat.sub_self, drop_zero] at hpa
  rw [← map_prod_left_eq_zip, mem_map] at hpa
  obtain ⟨_, _, rfl⟩ := hpa
  rfl

/-- Through a cleanup block there is one way, and it releases what is held of its operands in their order. -/
theorem unwinds_cleanup (h : Materialized f operands blocks') {n : BlockLabel} {all : List Operand}
    (hcleanup : cleanupBlock n all target ∈ blocks') (hn : f.nextBlockName ≤ n)
    (htarget : target ∈ f.blocks) (ht : t ∈ blocks') (hlabel : t.label = target.label)
    (hparams : t.params = target.params) :
    ∀ (os : List Operand), (os.map location).Nodup → ∀ (held : LiveSet) (rs : List NameLocation) (d : SlotConfig),
      Unwinds blocks' operands f.labels ⟨n, os.map fun o => .release o.location, held⟩ rs d ↔
        rs = (os.filter fun o => o.location ∈ held).map location ∧
        d = .start t (held \ (os.map location).toFinset) := by
  have houtside : n ∉ f.labels := by
    intro hmem
    obtain ⟨b, hb, rfl⟩ := mem_map.1 hmem
    exact absurd hn (Nat.not_le_of_lt (f.labelsBelow b hb))
  have hinside : t.label ∈ f.labels := hlabel ▸ mem_map_of_mem htarget
  have hblock : ∀ b' ∈ blocks', b'.label = n → b' = cleanupBlock n all target := fun b' hb' heq =>
    inj_on_of_nodup_map h.nodup hb' hcleanup heq
  -- the exception edge is empty, so nothing can fail on the way
  have hnofail : ∀ {rest : List SlotEvent} {held : LiveSet} {d : SlotConfig}, ¬Fails blocks' operands ⟨n, rest, held⟩ d := by
    intro rest held d hfails
    generalize hc : (⟨n, rest, held⟩ : SlotConfig) = c at hfails
    cases hfails with
    | @mk b' t' edge rest' held' hb' hexc ht' htarget' =>
      cases hc
      rw [hblock b' hb' rfl] at hexc
      cases hexc
  intro os
  induction os with
  | nil =>
    intro _ held rs d
    have hbind : bindEdge operands ⟨target.label, target.params.map fun p => .name p.name⟩ t held = held :=
      bindEdge_forwarded hparams held
    constructor
    · intro hunwinds
      generalize hc : (⟨n, _, held⟩ : SlotConfig) = c at hunwinds
      cases hunwinds with
      | arrived hmem =>
        subst hc
        exact absurd hmem houtside
      | step _ hstep hrest =>
        cases hstep with
        | event => cases hc
        | fail hfails => exact absurd (hc ▸ hfails) hnofail
        | @next b' t' edge held' hb' hedge ht' htarget' =>
          cases hc
          rw [hblock b' hb' rfl] at hedge
          cases mem_singleton.1 hedge
          have hsame : t' = t := inj_on_of_nodup_map h.nodup ht' ht (htarget'.trans hlabel.symm)
          subst hsame
          rw [hbind] at hrest
          cases hrest with
          | arrived => exact ⟨rfl, by simp⟩
          | step hout => exact absurd hinside hout
    · rintro ⟨rfl, rfl⟩
      have hstep : SlotStep blocks' operands ⟨n, [], held⟩ none (.start t held) := by
        have hnext : SlotStep blocks' operands ⟨n, [], held⟩ none (.start t (bindEdge operands _ t held)) :=
          .next hcleanup (mem_singleton_self _) ht hlabel
        rwa [hbind] at hnext
      simp only [map_nil, filter_nil, toFinset_nil, Finset.sdiff_empty]
      exact .step houtside hstep (.arrived hinside)
  | cons o os ih =>
    intro hnodup held rs d
    rw [map_cons, nodup_cons] at hnodup
    -- the slot just released is not released again
    have hfilter : os.filter (fun p => p.location ∈ held.erase o.location) = os.filter fun p => p.location ∈ held := by
      apply filter_congr
      intro p hp
      have hne : p.location ≠ o.location := fun heq => hnodup.1 (heq ▸ mem_map_of_mem hp)
      simp [hne]
    have hdiff : held.erase o.location \ (os.map location).toFinset =
        held \ ((o :: os).map location).toFinset := by
      ext x
      simp only [Finset.mem_sdiff, Finset.mem_erase, map_cons, toFinset_cons, Finset.mem_insert, not_or]
      tauto
    have hreleased : (releasedBy held (.release o.location)).toList ++
        (os.filter fun p => p.location ∈ held).map location =
        ((o :: os).filter fun p => p.location ∈ held).map location := by
      by_cases ho : o.location ∈ held <;> simp [releasedBy, ho]
    have hih := ih hnodup.2 (held.erase o.location)
    rw [hfilter, hdiff] at hih
    constructor
    · intro hunwinds
      generalize hc : (⟨n, _, held⟩ : SlotConfig) = c at hunwinds
      cases hunwinds with
      | arrived hmem =>
        subst hc
        exact absurd hmem houtside
      | step _ hstep hrest =>
        cases hstep with
        | next => cases hc
        | fail hfails => exact absurd (hc ▸ hfails) hnofail
        | event hrun =>
          cases hc
          cases hrun
          obtain ⟨rfl, rfl⟩ := (hih _ _).1 hrest
          exact ⟨hreleased, rfl⟩
    · rintro ⟨rfl, rfl⟩
      rw [← hreleased]
      exact .step houtside (.event rfl) ((hih _ _).2 ⟨rfl, rfl⟩)

/-- An exceptional transfer from a block of the function: to the handler, and on the way the operands of the block's cleanup
are released as far as they are held. -/
theorem unwinds_of_fails (h : Materialized f operands blocks') (hoperands : collectOperands f.blocks = some operands)
    {c' : SlotConfig} (hb : b ∈ f.blocks) (hlabel : c.label = b.label)
    (hexc : b.excEdge = some edge) (hfails : Fails blocks' operands c c') :
    ∃ handler ∈ blocks', handler.label = edge.target ∧ ∀ rs d, Unwinds blocks' operands f.labels c' rs d ↔
      rs = ((releasedOperands f.blocks operands b edge).filter fun o => o.location ∈ c.held).map location ∧
      d = .start handler (c.held \ ((releasedOperands f.blocks operands b edge).map location).toFinset) := by
  cases hfails with
  | @mk b' t edge' rest held hb' hexc' ht htarget =>
    rcases (h.unwound_of_label hb' hb hlabel).exception with
      ⟨hsame, hnone⟩ | ⟨edge₀, target, n, hexc₀, htargetMem, htargetLabel, hn, hexc'', hcleanup⟩
    · -- the edge goes to the handler, and there is nothing to release
      obtain rfl : edge' = edge := Option.some.inj (hexc'.symm.trans (hsame.trans hexc))
      obtain ⟨target, htargetMem, htargetLabel⟩ := mem_map.1 (excTarget_mem hb hexc)
      have hut := h.unwound_of_label ht htargetMem (htarget.trans htargetLabel.symm)
      have hbind : bindEdge operands edge' t held = held :=
        bindEdge_private hoperands hb hexc htargetMem htargetLabel hut.params rfl held
      have hinside : t.label ∈ f.labels := by
        rw [htarget]
        exact excTarget_mem hb hexc
      refine ⟨t, ht, htarget, ?_⟩
      intro rs d
      simp only [hnone edge' hexc, filter_nil, map_nil, toFinset_nil, Finset.sdiff_empty, hbind]
      constructor
      · intro hunwinds
        cases hunwinds with
        | arrived => exact ⟨rfl, rfl⟩
        | step hout => exact absurd hinside hout
      · rintro ⟨rfl, rfl⟩
        exact .arrived hinside
    · -- the edge goes through the cleanup block
      obtain rfl : edge₀ = edge := Option.some.inj (hexc₀.symm.trans hexc)
      rw [hexc''] at hexc'
      cases hexc'
      obtain ⟨handler, hhandler, huh⟩ := h.unwound target htargetMem
      have hsame : t = cleanupBlock n (releasedOperands f.blocks operands b edge₀) target :=
        inj_on_of_nodup_map h.nodup ht hcleanup htarget
      have hbind : bindEdge operands ⟨n, edge₀.args⟩ t held = held :=
        bindEdge_private hoperands hb hexc htargetMem htargetLabel (by rw [hsame]; rfl) rfl held
      have hstart : SlotConfig.start t held =
          ⟨n, (releasedOperands f.blocks operands b edge₀).map fun o => .release o.location, held⟩ := by
        rw [SlotConfig.start, hsame, cleanupBlock_events]
        rfl
      have hnodup : ((releasedOperands f.blocks operands b edge₀).map location).Nodup :=
        (filter_sublist.map _).nodup (collectOperands_spec hoperands).1
      refine ⟨handler, hhandler, huh.label.trans htargetLabel, ?_⟩
      intro rs d
      rw [hbind, hstart]
      exact unwinds_cleanup h hcleanup hn htargetMem hhandler huh.label huh.params _ hnodup held rs d

/-- **Operand unwinding is exact.** On every exceptional transfer, from any point of a block, there is one way to the
handler, and on it the operands that are held and neither passed nor read any more are released, each once and in
decreasing unwind order, and no others; the handler starts with the rest. -/
theorem materializeOperandUnwinds_exact (f : ResolvedFunction K) {operands : List Operand}
    (hoperands : collectOperands f.blocks = some operands) {blocks' : List (Block (InstrResolved K))}
    (h : materializeOperandUnwinds f = some blocks') {c c' : SlotConfig} (hreach : SlotReachable blocks' operands c)
    {b : Block (InstrResolved K)} (hb : b ∈ f.blocks) (hlabel : c.label = b.label) {edge : BlockEdge}
    (hexc : b.excEdge = some edge) (hfails : Fails blocks' operands c c') :
    (∀ o ∈ f.blocks.flatMap Block.operandStores, o.location ∈ locations operands) ∧
    ∃ released : List Operand, ∃ handler ∈ blocks', handler.label = edge.target ∧
      (∀ o, o ∈ released ↔ o ∈ operands ∧ o.location ∈ c.held ∧ ¬StillRead f.blocks operands edge o.location) ∧
      (released.map Operand.location).Nodup ∧ released.Pairwise Operand.UnwindsBefore ∧
      ∀ rs d, Unwinds blocks' operands f.labels c' rs d ↔
        rs = released.map Operand.location ∧ d = .start handler (c.held \ (released.map Operand.location).toFinset) := by
  have hmat := materialized_of_eq_some f hoperands h
  obtain ⟨hnodup, hsorted, hstores, hlocations⟩ := collectOperands_spec hoperands
  have hheld := ((hreach.atPoint hmat).held_subset hb hlabel).1
  obtain ⟨handler, hhandler, htarget, hunwinds⟩ := unwinds_of_fails hmat hoperands hb hlabel hexc hfails
  have hlive : ∀ o ∈ operands, o.location ∈ edgeLive operands (liveInputs f.blocks operands) edge ↔
      StillRead f.blocks operands edge o.location := by
    intro o ho
    rw [edgeLive, Finset.mem_union, mem_liveInputs_iff f.toValidFunction (mem_toFinset.2 (mem_map_of_mem ho)),
      or_comm]
    rfl
  have hsub : ((releasedOperands f.blocks operands b edge).filter fun o => o.location ∈ c.held).Sublist operands :=
    filter_sublist.trans filter_sublist
  refine ⟨hlocations, (releasedOperands f.blocks operands b edge).filter fun o => o.location ∈ c.held, handler, hhandler,
    htarget, ?_, (hsub.map _).nodup hnodup, hsorted.sublist hsub, ?_⟩
  · intro o
    simp only [releasedOperands, mem_filter, decide_eq_true_eq]
    constructor
    · rintro ⟨⟨ho, -, hdead⟩, hmem⟩
      exact ⟨ho, hmem, fun hread => hdead ((hlive o ho).2 hread)⟩
    · rintro ⟨ho, hmem, hdead⟩
      exact ⟨⟨ho, hheld hmem, fun hread => hdead ((hlive o ho).1 hread)⟩, hmem⟩
  · -- the other operands of the cleanup block are not held
    have hdiff : c.held \ ((releasedOperands f.blocks operands b edge).map Operand.location).toFinset =
        c.held \ (((releasedOperands f.blocks operands b edge).filter fun o => o.location ∈ c.held).map
          Operand.location).toFinset := by
      ext x
      simp only [Finset.mem_sdiff, mem_toFinset, mem_map, mem_filter, decide_eq_true_eq]
      constructor
      · rintro ⟨hx, hnot⟩
        exact ⟨hx, fun ⟨o, ⟨ho, _⟩, heq⟩ => hnot ⟨o, ho, heq⟩⟩
      · rintro ⟨hx, hnot⟩
        exact ⟨hx, fun ⟨o, ho, heq⟩ => hnot ⟨o, ⟨ho, heq ▸ hx⟩, heq⟩⟩
    intro rs d
    rw [← hdiff]
    exact hunwinds rs d

end

/-! ## Three operands, one of which the handler reads -/

def firstOperand : Operand :=
  ⟨⟨"first", .local 0⟩, 0⟩

def secondOperand : Operand :=
  ⟨⟨"second", .local 1⟩, 1⟩

def thirdOperand : Operand :=
  ⟨⟨"third", .local 2⟩, 2⟩

/-- The operands of the function below, the last one first. -/
def storedOperands : List Operand :=
  [thirdOperand, secondOperand, firstOperand]

/-- A block that stores the operands and then does something that may raise. -/
def storingBlock (handler : BlockLabel) : Block (InstrResolved Unit) where
  label := 0
  body :=
    [.mk (.operand 0) (.store firstOperand.name) [.mk .frame (.op ()) []],
     .mk (.operand 1) (.store secondOperand.name) [.mk .frame (.op ()) []],
     .mk (.operand 2) (.store thirdOperand.name) [.mk .frame (.op ()) []], .mk .frame (.op ()) []]
  term := .ret (.mk .frame (.op ()) [])
  excEdge := some ⟨handler, []⟩

/-- A handler that takes the first of them. -/
def takingBlock : Block (InstrResolved Unit) where
  label := 1
  body := []
  term := .ret (.mk .frame (.takeOperand firstOperand.name) [])

/-- A function of the two. -/
def storeThenRaise : ResolvedFunction Unit where
  params := []
  stackSlots := ["first", "second", "third"]
  blocks := [storingBlock 1, takingBlock]
  nonempty := by decide
  labelsNodup := by decide
  targetsKnown := by decide
  slotsNodup := by decide
  statementWrites := by decide
  nextBlockName := 2
  labelsBelow := by decide
  operandsPrivate := by simp [storingBlock, takingBlock, BlockTerm.edges, explicitParams]

/-- The blocks the pass leaves of it: the exception edge leads through a block that deletes the other two. -/
def storeUnwound : List (Block (InstrResolved Unit)) :=
  [storingBlock 2, takingBlock, cleanupBlock 2 [thirdOperand, secondOperand] takingBlock]

/-- All operands are held when the last instruction raises. On the way to the handler the third and then the second are
released, and the handler starts with the first. -/
theorem materializeOperandUnwinds_exact_store :
    materializeOperandUnwinds storeThenRaise = some storeUnwound ∧
    Fails storeUnwound storedOperands ⟨0, [], {.local 2, .local 1, .local 0}⟩
      ⟨2, [.release (.local 2), .release (.local 1)], {.local 2, .local 1, .local 0}⟩ ∧
    ∀ rs d, Unwinds storeUnwound storedOperands storeThenRaise.labels
      ⟨2, [.release (.local 2), .release (.local 1)], {.local 2, .local 1, .local 0}⟩ rs d ↔
        rs = [.local 2, .local 1] ∧ d = .start takingBlock {.local 0} := by
  have hunwound : materializeOperandUnwinds storeThenRaise = some storeUnwound := rfl
  have hoperands : collectOperands storeThenRaise.blocks = some storedOperands := by decide
  have hreach : SlotReachable storeUnwound storedOperands ⟨0, [], {.local 2, .local 1, .local 0}⟩ :=
    .step (.step (.step (.start rfl (Finset.empty_subset _)) (.event rfl)) (.event rfl)) (.event rfl)
  have hstart : SlotConfig.start (cleanupBlock 2 [thirdOperand, secondOperand] takingBlock)
      (bindEdge storedOperands ⟨2, []⟩ (cleanupBlock 2 [thirdOperand, secondOperand] takingBlock)
        {.local 2, .local 1, .local 0}) =
      ⟨2, [.release (.local 2), .release (.local 1)], {.local 2, .local 1, .local 0}⟩ := by decide
  have hfails : Fails storeUnwound storedOperands ⟨0, [], {.local 2, .local 1, .local 0}⟩
      ⟨2, [.release (.local 2), .release (.local 1)], {.local 2, .local 1, .local 0}⟩ := by
    have hmk : Fails storeUnwound storedOperands ⟨(storingBlock 2).label, [], {.local 2, .local 1, .local 0}⟩ _ :=
      .mk mem_cons_self rfl (mem_cons_of_mem _ (mem_cons_of_mem _ mem_cons_self)) rfl
    exact hstart ▸ hmk
  obtain ⟨-, released, handler, hhandler, hlabel, -, -, -, hunwinds⟩ :=
    materializeOperandUnwinds_exact storeThenRaise hoperands hunwound hreach mem_cons_self rfl rfl hfails
  -- the way there is, through the cleanup block
  have hway : Unwinds storeUnwound storedOperands storeThenRaise.labels
      ⟨2, [.release (.local 2), .release (.local 1)], {.local 2, .local 1, .local 0}⟩ [.local 2, .local 1]
      (.start takingBlock {.local 0}) := by
    have hjump : SlotStep storeUnwound storedOperands ⟨2, [], {.local 0}⟩ none (.start takingBlock {.local 0}) :=
      .next (b := cleanupBlock 2 [thirdOperand, secondOperand] takingBlock)
        (mem_cons_of_mem _ (mem_cons_of_mem _ mem_cons_self)) mem_cons_self (mem_cons_of_mem _ mem_cons_self) rfl
    have hthird : SlotStep storeUnwound storedOperands
        ⟨2, [.release (.local 2), .release (.local 1)], {.local 2, .local 1, .local 0}⟩ (some (.local 2))
        ⟨2, [.release (.local 1)], {.local 1, .local 0}⟩ := .event (by decide)
    have hsecond : SlotStep storeUnwound storedOperands ⟨2, [.release (.local 1)], {.local 1, .local 0}⟩ (some (.local 1))
        ⟨2, [], {.local 0}⟩ := .event (by decide)
    exact .step (show 2 ∉ [0, 1] by decide) hthird (.step (show 2 ∉ [0, 1] by decide) hsecond
      (.step (show 2 ∉ [0, 1] by decide) hjump (.arrived (show 1 ∈ [0, 1] by decide))))
  obtain ⟨hreleased, hhandled⟩ := (hunwinds _ _).mp hway
  refine ⟨hunwound, hfails, fun rs d => ?_⟩
  rw [hunwinds rs d, ← hhandled, ← hreleased]

end Soac
