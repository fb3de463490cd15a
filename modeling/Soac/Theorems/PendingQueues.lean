import Mathlib.Data.List.InsertIdx
import Soac.Theorems.StrictNamespace

/-!
# Nothing that is registered gets lost

A ledger says what the two queues are for: what waits, and what became of everything that was registered. The registry, with
its records, recycled edges and weak references, follows the ledger of each queue through every sequence of operations.
-/

namespace Soac.Strict

open List Function

/-- A registration; its object is what the edge of its record refers to. -/
structure Pending where
  kind : StrictPendingKind
  object : Option ObjId
  invocation : Option Nat
deriving DecidableEq, Repr

/-- What waits in a queue, and what became of the registrations that do not wait any more. -/
structure Ledger where
  waiting : List Pending := []
  registered : List Pending := []
  handedOut : List Pending := []
  removed : List Pending := []
  expired : List Pending := []
deriving DecidableEq, Repr

namespace Pending

/-- The object, if it is alive. -/
def target (alive : ObjId → Bool) (pending : Pending) : Option ObjId :=
  pending.object.filter alive

def selects (kinds : StrictPendingKind → Bool) (invocation : Option Nat) (pending : Pending) : Bool :=
  kinds pending.kind && (invocation.isNone || pending.invocation == invocation)

/-- The first live selected registration is handed out, the dead selected ones before it expire, all others stay in place. -/
def handOut (alive : ObjId → Bool) (selected : Pending → Bool) : List Pending → Ledger
  | [] => {}
  | pending :: rest =>
    let later := handOut alive selected rest
    if !selected pending then { later with waiting := pending :: later.waiting }
    else if (pending.target alive).isSome then { waiting := rest, handedOut := [pending] }
    else { later with expired := pending :: later.expired }

theorem handOut_append (alive : ObjId → Bool) {selected : Pending → Bool} {earlier : List Pending}
    (h : ∀ pending ∈ earlier, ¬selected pending) (rest : List Pending) :
    handOut alive selected (earlier ++ rest) =
      { handOut alive selected rest with waiting := earlier ++ (handOut alive selected rest).waiting } := by
  induction earlier with
  | nil => rfl
  | cons pending earlier ih =>
    rw [forall_mem_cons] at h
    simp only [cons_append, handOut, ih h.2, h.1, Bool.not_false, if_true]

end Pending

/-- The operations on the registry of a live owner, each with the objects that are alive when it runs. -/
inductive PendingOp where
  | register (phase : PendingPhase) (kind : StrictPendingKind) (object : ObjId) (invocation : Option Nat)
  | registerBefore (alive : ObjId → Bool) (kind : StrictPendingKind) (object before : ObjId)
  | next (alive : ObjId → Bool) (phase : PendingPhase) (invocation : Option Nat) (kinds : StrictPendingKind → Bool)
  | remove (alive : ObjId → Bool) (kind : StrictPendingKind) (invocation : Option Nat) (selected : ObjId → Bool)

namespace PendingOp

/-- The queue that an operation works on. -/
def phase : PendingOp → PendingPhase
  | .register phase _ _ _ | .next _ phase _ _ => phase
  | .registerBefore _ _ _ _ | .remove _ _ _ _ => .finalize

def alive : PendingOp → ObjId → Bool
  | .register _ _ _ _ => fun _ => true
  | .registerBefore alive _ _ _ | .next alive _ _ _ | .remove alive _ _ _ => alive

/-- What an operation does to the registrations of its queue. -/
def change (waiting : List Pending) : PendingOp → Ledger
  | .register _ kind object invocation =>
    let new := ⟨kind, some object, invocation⟩
    { waiting := waiting ++ [new], registered := [new] }
  | .registerBefore alive kind object before =>
    let isOriginal := fun pending => pending.kind == kind && pending.target alive == some before
    match waiting.find? isOriginal with
    | none => { waiting }
    | some original =>
      let new := ⟨kind, some object, original.invocation⟩
      { waiting := waiting.insertIdx (waiting.findIdx isOriginal) new, registered := [new] }
  | .next alive _ invocation kinds => Pending.handOut alive (·.selects kinds invocation) waiting
  | .remove alive kind invocation selected =>
    let isRemoved := fun pending => pending.selects (· == kind) invocation && (pending.target alive).any selected
    { waiting := waiting.filter (!isRemoved ·), removed := waiting.filter isRemoved }

end PendingOp

namespace Ledger

/-- A ledger after a change of its queue. -/
def followedBy (ledger change : Ledger) : Ledger where
  waiting := change.waiting
  registered := ledger.registered ++ change.registered
  handedOut := ledger.handedOut ++ change.handedOut
  removed := ledger.removed ++ change.removed
  expired := ledger.expired ++ change.expired

/-- The ledgers of the two queues after a sequence of operations. -/
def run (ops : List PendingOp) : PendingPhase → Ledger :=
  ops.foldl (fun ledgers op => update ledgers op.phase
    ((ledgers op.phase).followedBy (op.change (ledgers op.phase).waiting))) fun _ => {}

/-- Each registration that waited before or was added waits, was handed out, was removed, or expired. -/
def Balanced (before : List Pending) (ledger : Ledger) : Prop :=
  ∀ pending, before.count pending + ledger.registered.count pending = ledger.handedOut.count pending +
    ledger.removed.count pending + ledger.expired.count pending + ledger.waiting.count pending

variable {ledger change : Ledger}

theorem Balanced.followedBy (h : ledger.Balanced []) (hchange : change.Balanced ledger.waiting) :
    (ledger.followedBy change).Balanced [] := by
  intro pending
  have hbefore := h pending
  have hafter := hchange pending
  simp only [Ledger.followedBy, count_append, count_nil] at hbefore hafter ⊢
  omega

theorem Balanced.cons {before : List Pending} (h : ledger.Balanced before) (first : Pending) :
    ({ ledger with waiting := first :: ledger.waiting } : Ledger).Balanced (first :: before) := by
  intro pending
  have hbefore := h pending
  simp only [count_cons]
  omega

variable (alive : ObjId → Bool) (waiting : List Pending)

theorem balanced_handOut (selected : Pending → Bool) : (Pending.handOut alive selected waiting).Balanced waiting ∧
    ∀ pending ∈ (Pending.handOut alive selected waiting).expired, pending.target alive = none := by
  induction waiting with
  | nil => exact ⟨fun _ => rfl, nofun⟩
  | cons first waiting ih =>
    obtain ⟨hcount, hexpired⟩ := ih
    rw [Pending.handOut]
    split
    · exact ⟨hcount.cons first, hexpired⟩
    · split
      · refine ⟨fun pending => ?_, nofun⟩
        simp only [count_cons, count_nil]
        omega
      · next hdead =>
        refine ⟨fun pending => ?_, forall_mem_cons.mpr ⟨Option.not_isSome_iff_eq_none.mp hdead, hexpired⟩⟩
        have hlater := hcount pending
        simp only [count_cons]
        omega

/-- Every operation conserves the registrations, and only what is dead expires. -/
theorem balanced_change (op : PendingOp) : (op.change waiting).Balanced waiting ∧
    ∀ pending ∈ (op.change waiting).expired, pending.target op.alive = none := by
  cases op with
  | register phase kind object invocation =>
    refine ⟨fun pending => ?_, nofun⟩
    simp only [PendingOp.change, count_append, count_nil]
    omega
  | registerBefore alive kind object before =>
    rw [PendingOp.change]
    split
    · exact ⟨fun pending => by simp, nofun⟩
    · refine ⟨fun pending => ?_, nofun⟩
      simp only [(perm_insertIdx _ waiting findIdx_le_length).count_eq, count_cons, count_nil]
      omega
  | next alive phase invocation kinds => exact balanced_handOut alive waiting _
  | remove alive kind invocation selected =>
    refine ⟨fun pending => ?_, nofun⟩
    simp only [PendingOp.change, List.count, countP_nil, countP_eq_countP_filter_add waiting _ fun pending =>
      pending.selects (· == kind) invocation && (pending.target alive).any selected]
    omega

end Ledger

/-! ## The registry -/

namespace PendingRegistry

/-- What an operation hands out, and the registry after it. -/
def act (registry : PendingRegistry) : PendingOp → Option (StrictPendingKind × ObjId) × PendingRegistry
  | .register phase kind object invocation =>
    (none, (registry.register phase kind object none invocation).toOption.getD registry)
  | .registerBefore alive kind object before =>
    (none, (registry.registerBefore alive kind object before).toOption.getD registry)
  | .next alive phase invocation kinds =>
    let selected := fun record => kinds record.kind && matchesInvocation invocation record
    registry.next alive selected phase (registry.queue phase).length
  | .remove alive kind invocation selected =>
    (none, registry.remove alive (fun record => record.kind == kind && matchesInvocation invocation record) selected)

/-- What is handed out of the two queues over a sequence of operations, and the registry after them. -/
def run (ops : List PendingOp) : (PendingPhase → List (StrictPendingKind × ObjId)) × PendingRegistry :=
  ops.foldl (fun state op => (update state.1 op.phase (state.1 op.phase ++ (state.2.act op).1.toList),
    (state.2.act op).2)) (fun _ => [], {})

def entry (registry : PendingRegistry) (record : PendingRecord) : Pending :=
  ⟨record.kind, (registry.references[record.edge]?).join, record.interpreterInvocation⟩

/-- The registrations of a queue, in its order. -/
def waiting (registry : PendingRegistry) (phase : PendingPhase) : List Pending :=
  (registry.queue phase).map registry.entry

variable {registry : PendingRegistry} {record : PendingRecord}

theorem waiting_withQueue (registry : PendingRegistry) (phase : PendingPhase) (records : List PendingRecord) :
    (registry.withQueue phase records).waiting = update registry.waiting phase (records.map registry.entry) := by
  funext phase'
  cases phase <;> cases phase' <;> rfl

/-- The registrations stay as they are while the edges of the records refer to the same objects. -/
theorem waiting_congr {registry' : PendingRegistry} (hqueue : ∀ phase, registry'.queue phase = registry.queue phase)
    (hreferences : ∀ phase, ∀ record ∈ registry.queue phase,
      registry'.references[record.edge]? = registry.references[record.edge]?) : registry'.waiting = registry.waiting := by
  funext phase
  rw [waiting, hqueue]
  refine map_congr_left fun record hmem => ?_
  rw [entry, entry, hreferences phase record hmem]

theorem edge_mem_edges {phase : PendingPhase} (h : record ∈ registry.queue phase) :
    record.edge ∈ registry.records.map (·.edge) ++ registry.capabilities.map (·.edge) := by
  cases phase with
  | finalize => exact mem_append_left _ (mem_map_of_mem h)
  | publishCapabilities => exact mem_append_right _ (mem_map_of_mem h)

section

variable (h : registry.Valid)
include h

/-- A record that is taken out of its place leaves every other registration as it was. -/
theorem Valid.waiting_take (phase : PendingPhase) {earlier later : List PendingRecord}
    (hqueue : registry.queue phase = earlier ++ record :: later) (hearlier : record ∉ earlier) :
    (registry.queue phase).erase record = earlier ++ later ∧
      ((registry.withQueue phase (earlier ++ later)).releaseEdge record.edge).Valid ∧
      ((registry.withQueue phase (earlier ++ later)).releaseEdge record.edge).waiting =
        update registry.waiting phase (earlier.map registry.entry ++ later.map registry.entry) := by
  have hmem : record ∈ registry.queue phase := hqueue ▸ mem_append_right _ mem_cons_self
  have herase : (registry.queue phase).erase record = earlier ++ later := by
    rw [hqueue, erase_append_right _ hearlier, erase_cons_head]
  have hvalid := h.take phase hmem
  rw [herase] at hvalid
  refine ⟨herase, hvalid, ?_⟩
  rw [← map_append, ← waiting_withQueue]
  refine waiting_congr (fun phase' => by cases phase' <;> rfl) fun phase' other hother => ?_
  have hne : other.edge ≠ record.edge :=
    (nodup_append.mp hvalid.nodup).2.2 _ (edge_mem_edges hother) _ mem_cons_self
  exact List.getElem?_set_ne hne.symm

/-- The edge that is taken refers to the object, and every other edge to what it referred to. -/
theorem Valid.takeEdge_references (object : ObjId) :
    (registry.takeEdge object).2.references[(registry.takeEdge object).1]? = some (some object) ∧
      ∀ edge ≠ (registry.takeEdge object).1,
        (registry.takeEdge object).2.references[edge]? = registry.references[edge]? := by
  obtain ⟨records, capabilities, freeEdges, references⟩ := registry
  cases freeEdges with
  | nil =>
    refine ⟨List.getElem?_concat_length, fun edge hne => ?_⟩
    rcases Nat.lt_or_gt_of_ne hne with hlt | hgt
    · exact List.getElem?_append_left hlt
    · rw [List.getElem?_eq_none (Nat.le_of_lt hgt)]
      exact List.getElem?_eq_none (Nat.le_trans (Nat.le_of_eq length_append) hgt)
  | cons free freeEdges =>
    refine ⟨List.getElem?_set_self (h.bounded free ?_), fun edge hne => List.getElem?_set_ne hne.symm⟩
    exact mem_append_right _ mem_cons_self

/-- A registration goes to its place and leaves every other one as it was. -/
theorem Valid.waiting_insert (phase : PendingPhase) (position : Nat) (kind : StrictPendingKind) (object : ObjId)
    (invocation : Option Nat) :
    ((registry.takeEdge object).2.withQueue phase
        ((registry.queue phase).insertIdx position ⟨kind, (registry.takeEdge object).1, invocation⟩)).waiting =
      update registry.waiting phase
        ((registry.waiting phase).insertIdx position ⟨kind, some object, invocation⟩) := by
  obtain ⟨hnodup, -, hqueue⟩ := h.takeEdge object
  obtain ⟨hself, hother⟩ := h.takeEdge_references object
  have hkeep : (registry.takeEdge object).2.waiting = registry.waiting := by
    refine waiting_congr hqueue fun phase record hmem => hother _ fun heq => ?_
    rw [← hqueue] at hmem
    exact (nodup_cons.mp hnodup).1 (heq ▸ mem_append_left _ (edge_mem_edges hmem))
  have hnew : (registry.takeEdge object).2.entry ⟨kind, (registry.takeEdge object).1, invocation⟩ =
      ⟨kind, some object, invocation⟩ := by
    rw [entry, hself]
    rfl
  rw [waiting_withQueue, map_insertIdx, hnew, ← hqueue, ← waiting, hkeep]

/-- No earlier record has the edge of a record. -/
theorem Valid.edge_unique {earlier later : List PendingRecord} (hrecords : registry.records = earlier ++ record :: later) :
    ∀ other ∈ earlier, other.edge ≠ record.edge := by
  have hnodup := (nodup_append.mp (nodup_append.mp h.nodup).1).1
  rw [hrecords, map_append] at hnodup
  intro other hother
  exact (nodup_append.mp hnodup).2.2 _ (mem_map_of_mem hother) _ mem_cons_self

end

/-- What is handed out and what then waits are as the change of a queue says. -/
structure Follows (registry : PendingRegistry) (phase : PendingPhase) (change : Ledger)
    (after : Option (StrictPendingKind × ObjId) × PendingRegistry) : Prop where
  valid : after.2.Valid
  handedOut : after.1.toList.map (fun out => (out.1, some out.2)) =
    change.handedOut.map fun pending => (pending.kind, pending.object)
  waiting : after.2.waiting = update registry.waiting phase change.waiting

/-- `next` takes out of its queue what the ledger hands out and what expires. -/
theorem Valid.next_follows (h : registry.Valid) (alive : ObjId → Bool) {selects : PendingRecord → Bool}
    {selected : Pending → Bool}
    (hselects : ∀ (registry : PendingRegistry) record, selected (registry.entry record) = selects record)
    (phase : PendingPhase) {fuel : Nat} (hfuel : (registry.queue phase).length ≤ fuel) :
    registry.Follows phase (Pending.handOut alive selected (registry.waiting phase))
      (registry.next alive selects phase fuel) := by
  induction fuel generalizing registry with
  | zero =>
    have hnil : registry.waiting phase = [] := by simpa [waiting] using hfuel
    rw [hnil]
    exact ⟨h, rfl, (update_eq_self phase _).symm.trans (congrArg _ hnil)⟩
  | succ fuel ih =>
    rw [PendingRegistry.next]
    cases hfind : (registry.queue phase).find? selects with
    | none =>
      have hskipped : ∀ pending ∈ registry.waiting phase, ¬selected pending := by
        simpa [waiting, hselects] using hfind
      have hnone := Pending.handOut_append alive hskipped []
      rw [append_nil] at hnone
      exact ⟨h, by simp [hnone, Pending.handOut], by simp [hnone, Pending.handOut]⟩
    | some record =>
      obtain ⟨hselected, earlier, later, hqueue, hearlier⟩ := List.find?_eq_some_iff_append.mp hfind
      have hskipped : ∀ pending ∈ earlier.map registry.entry, ¬selected pending := by simpa [hselects] using hearlier
      obtain ⟨herase, hvalid, htake⟩ := h.waiting_take phase hqueue fun hmem => by simpa [hselected] using hearlier record hmem
      have hwaiting : registry.waiting phase = earlier.map registry.entry ++ (record :: later).map registry.entry := by
        rw [waiting, hqueue, map_append]
      rw [hwaiting, Pending.handOut_append alive hskipped, map_cons, Pending.handOut, hselects, hselected]
      dsimp only
      rw [herase]
      have htarget : (registry.entry record).target alive = registry.target alive record.edge := rfl
      rw [htarget]
      cases hobject : registry.target alive record.edge with
      | some object =>
        have hobj : (registry.entry record).object = some object := (Option.filter_eq_some_iff.mp hobject).1
        exact ⟨hvalid, congrArg (fun object => [(record.kind, object)]) hobj.symm, htake⟩
      | none =>
        have hle : (earlier ++ later).length ≤ fuel := by
          simp only [hqueue, length_append, length_cons] at hfuel ⊢
          omega
        have hrec := ih hvalid (by cases phase <;> exact hle)
        rw [htake, update_self, Pending.handOut_append alive hskipped] at hrec
        have hafter := hrec.waiting
        rw [htake, update_idem] at hafter
        exact ⟨hrec.valid, hrec.handedOut, hafter⟩

/-- The original that is found is the one the ledger finds, and no other record has its edge. -/
theorem Valid.registerBefore_waiting (h : registry.Valid) (alive : ObjId → Bool) (kind : StrictPendingKind)
    (object before : ObjId) :
    (registry.act (.registerBefore alive kind object before)).2.waiting = update registry.waiting .finalize
      ((PendingOp.registerBefore alive kind object before).change (registry.waiting .finalize)).waiting := by
  have hlookup : (registry.waiting .finalize).find?
      (fun pending => pending.kind == kind && pending.target alive == some before) =
        (registry.records.find? fun record =>
          record.kind == kind && registry.target alive record.edge == some before).map registry.entry := List.find?_map
  rw [act, PendingRegistry.registerBefore, PendingOp.change, hlookup]
  cases hfind : registry.records.find? fun record =>
      record.kind == kind && registry.target alive record.edge == some before with
  | none => exact (update_eq_self _ _).symm
  | some record =>
    obtain ⟨horiginal, earlier, later, hrecords, hearlier⟩ := List.find?_eq_some_iff_append.mp hfind
    have hposition : (registry.waiting .finalize).findIdx
        (fun pending => pending.kind == kind && pending.target alive == some before) = earlier.length := by
      rw [waiting, findIdx_map, queue, hrecords, findIdx_append, findIdx_eq_length_of_false,
        if_neg (Nat.lt_irrefl _), findIdx_cons]
      · exact (congrArg (fun found => (bif found then 0 else _) + earlier.length) horiginal).trans (Nat.zero_add _)
      · exact fun other hother => (Bool.not_eq_true' _).mp (hearlier other hother)
    have hedge : registry.records.findIdx? (fun other => other.edge == record.edge) = some earlier.length := by
      rw [hrecords, List.findIdx?_append, List.findIdx?_eq_none_iff.mpr]
      · simp [List.findIdx?_cons]
      · exact fun other hother => beq_false_of_ne (h.edge_unique hrecords other hother)
    dsimp only [Option.map_some]
    rw [hposition, PendingRegistry.register, queue, hedge]
    exact h.waiting_insert .finalize earlier.length kind object record.interpreterInvocation

/-- The rounds of `remove` over the records that are left take out what the ledger removes. -/
theorem Valid.remove_waiting (h : registry.Valid) (alive : ObjId → Bool) {isMatch : PendingRecord → Bool}
    {selected : ObjId → Bool} {removed : Pending → Bool}
    (hremoved : ∀ (registry : PendingRegistry) record, removed (registry.entry record) =
      (isMatch record && (registry.target alive record.edge).any selected)) (kept : List PendingRecord)
    {left : List PendingRecord} (hrecords : registry.records = kept ++ left) :
    (((left.filter isMatch).map (·.edge)).foldl (PendingRegistry.removeEdge alive isMatch selected) registry).waiting =
      update registry.waiting .finalize
        (kept.map registry.entry ++ (left.map registry.entry).filter (!removed ·)) := by
  induction left generalizing registry kept with
  | nil =>
    have hwaiting : kept.map registry.entry ++ [] = registry.waiting .finalize := by
      rw [waiting, queue, hrecords, append_nil, append_nil]
    exact (update_eq_self _ _).symm.trans (congrArg _ hwaiting.symm)
  | cons record left ih =>
    have hkeep := ih h (kept ++ [record]) (by rw [hrecords, append_assoc]; rfl)
    have hentry := hremoved registry record
    by_cases hmatch : isMatch record = true
    · have hfind : registry.records.find? (fun other => other.edge == record.edge && isMatch other) = some record := by
        rw [hrecords, List.find?_append, List.find?_eq_none.mpr, List.find?_cons_of_pos]
        · rfl
        · simp [hmatch]
        · intro other hother
          simp [h.edge_unique hrecords other hother]
      rw [filter_cons_of_pos hmatch, map_cons, foldl_cons, PendingRegistry.removeEdge, hfind]
      rw [hmatch] at hentry
      cases htarget : registry.target alive record.edge with
      | none =>
        rw [htarget] at hentry
        simpa [hentry] using hkeep
      | some object =>
        rw [htarget] at hentry
        dsimp only
        split
        · next hselected =>
          obtain ⟨herase, hvalid, htake⟩ := h.waiting_take .finalize hrecords
            fun hin => h.edge_unique hrecords record hin rfl
          have hentries := congrFun htake .finalize
          obtain ⟨hkept, hleft⟩ := append_inj (map_append.symm.trans hentries) (by simp)
          rw [show registry.records.erase record = kept ++ left from herase]
          refine (ih hvalid kept rfl).trans ?_
          rw [hkept, hleft, htake, update_idem, map_cons, filter_cons_of_neg]
          rw [hentry]
          simp [hselected]
        · next hselected =>
          simpa [hentry, hselected] using hkeep
    · simpa [hentry, hmatch] using hkeep

/-- Every operation does to the registrations of its queue what the ledger says, and nothing to those of the other. -/
theorem Valid.act_follows (h : registry.Valid) (op : PendingOp) :
    registry.Follows op.phase (op.change (registry.waiting op.phase)) (registry.act op) := by
  cases op with
  | register phase kind object invocation =>
    have hinsert := h.waiting_insert phase (registry.waiting phase).length kind object invocation
    rw [insertIdx_length_self] at hinsert
    have hlast : registry.register phase kind object none invocation = .ok ((registry.takeEdge object).2.withQueue phase
        ((registry.queue phase).insertIdx (registry.waiting phase).length
          ⟨kind, (registry.takeEdge object).1, invocation⟩)) := by
      rw [waiting, length_map]
      rfl
    rw [act, hlast]
    exact ⟨h.register hlast, rfl, hinsert⟩
  | registerBefore alive kind object before =>
    refine ⟨?_, ?_, h.registerBefore_waiting alive kind object before⟩
    · rw [act, PendingRegistry.registerBefore]
      split
      · exact h
      · cases hok : registry.register .finalize kind object _ _ with
        | error => exact h
        | ok registry' => exact h.register hok
    · rw [PendingOp.change]
      split <;> rfl
  | next alive phase invocation kinds => exact h.next_follows alive (fun _ _ => rfl) phase (Nat.le_refl _)
  | remove alive kind invocation selected =>
    exact ⟨h.remove _ _ _, rfl, h.remove_waiting alive (fun _ _ => rfl) [] rfl⟩

/-- Over every sequence of operations no edge is in use twice or in use and free, the queues hold what the ledgers say in
their order, `next` hands out what the ledgers hand out, and each registration waits or was handed out, removed or expired
once; only what was dead expired. -/
theorem run_conserves (ops : List PendingOp) :
    (run ops).2.Valid ∧ ∀ phase, (run ops).2.waiting phase = (Ledger.run ops phase).waiting ∧
      ((run ops).1 phase).map (fun out => (out.1, some out.2)) =
        (Ledger.run ops phase).handedOut.map (fun pending => (pending.kind, pending.object)) ∧
      (Ledger.run ops phase).Balanced [] ∧
      ∀ pending ∈ (Ledger.run ops phase).expired, ∃ op ∈ ops, pending.target op.alive = none := by
  induction ops using List.reverseRecOn with
  | nil =>
    refine ⟨⟨nodup_nil, nofun⟩, fun phase => ?_⟩
    cases phase <;> exact ⟨rfl, rfl, fun _ => rfl, nofun⟩
  | append_singleton ops op ih =>
    obtain ⟨hvalid, hphases⟩ := ih
    have hop := hvalid.act_follows op
    rw [run, foldl_concat, ← run, Ledger.run, foldl_concat, ← Ledger.run]
    refine ⟨hop.valid, fun phase => ?_⟩
    obtain ⟨hwaiting, hhanded, hbalanced, hexpired⟩ := hphases phase
    have hearlier : ∀ pending ∈ (Ledger.run ops phase).expired, ∃ op' ∈ ops ++ [op], pending.target op'.alive = none := by
      intro pending hmem
      obtain ⟨op', hop', hdead⟩ := hexpired pending hmem
      exact ⟨op', mem_append_left _ hop', hdead⟩
    rw [hop.waiting]
    by_cases hphase : phase = op.phase
    · subst hphase
      simp only [update_self, Ledger.followedBy, map_append, hop.handedOut, hhanded, hwaiting]
      refine ⟨trivial, trivial, hbalanced.followedBy (Ledger.balanced_change _ op).1, ?_⟩
      refine forall_mem_append.mpr ⟨hearlier, fun pending hmem => ?_⟩
      exact ⟨op, mem_append_right _ mem_cons_self, (Ledger.balanced_change _ op).2 pending hmem⟩
    · simp only [update_of_ne hphase]
      exact ⟨hwaiting, hhanded, hbalanced, hearlier⟩

end PendingRegistry

end Soac.Strict
