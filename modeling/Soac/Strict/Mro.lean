import Soac.Lib.OrderMerge

/-!
# The prospective resolution order of a dataclass

`prospective_mro` merges the resolution orders of the bases before the class exists. It gives up on a base that is no
type, that comes twice, or whose resolution order is no tuple of types that starts with the base itself.
-/

namespace Soac.Strict

open List OrderMerge

variable {O : Type} [DecidableEq O]

/-- The first head that no sequence has behind its position. -/
def nextClass (sequences : List (List O × Nat)) : Option O :=
  (sequences.filterMap fun (sequence, position) => sequence[position]?).find? fun head =>
    sequences.all fun (other, start) => !(other.drop (start + 1)).contains head

/-- The positions move over the class where they are at it. -/
def moveOver (next : O) (sequences : List (List O × Nat)) : List (List O × Nat) :=
  sequences.map fun (sequence, position) =>
    (sequence, if sequence[position]? = some next then position + 1 else position)

/-! ## The loop on what is left of the sequences -/

/-- What a sequence has from its position on. -/
def rest (s : List O × Nat) : List O :=
  s.1.drop s.2

section

variable {sequences : List (List O × Nat)}

theorem firstReady_rest : firstReady (sequences.map rest) = nextClass sequences := by
  have hheads : (sequences.map rest).filterMap head? = sequences.filterMap fun s => s.1[s.2]? := by
    rw [filterMap_map]
    exact congrArg (sequences.filterMap ·) (funext fun s => head?_drop)
  rw [firstReady, hheads]
  congr 1
  funext head
  rw [all_map]
  refine congrArg sequences.all (funext fun s => ?_)
  simp [rest, tail_drop]

theorem advance_rest (next : O) : advance next (sequences.map rest) = (moveOver next sequences).map rest := by
  rw [advance, moveOver, List.map_map, List.map_map]
  refine map_congr_left fun s _ => ?_
  simp only [Function.comp_apply, rest, head?_drop]
  split
  · exact tail_drop
  · rfl

/-- A round of the loop leaves less. -/
theorem length_rest_moveOver_lt {next : O} (h : nextClass sequences = some next) :
    ((moveOver next sequences).map rest).flatten.length < (sequences.map rest).flatten.length := by
  rw [← advance_rest]
  exact length_advance_lt (firstReady_rest.trans h)

omit [DecidableEq O] in
theorem all_rest : (sequences.all fun s => s.1[s.2]?.isNone) = true ↔ ∀ r ∈ sequences.map rest, r = [] := by
  rw [forall_mem_map]
  simp [rest]

omit [DecidableEq O] in
theorem map_rest_start (orders : List (List O)) : (orders.map (·, 0)).map rest = orders := by
  rw [List.map_map]
  exact map_id orders

/-- The loop of `prospective_mro`, on the sequences with their positions. It ends: every round leaves less. -/
def mergeSequences (sequences : List (List O × Nat)) : Option (List O) :=
  match _h : nextClass sequences with
  | none => if sequences.all fun (sequence, position) => sequence[position]?.isNone then some [] else none
  | some next => (mergeSequences (moveOver next sequences)).map (next :: ·)
termination_by (sequences.map rest).flatten.length
decreasing_by exact length_rest_moveOver_lt _h

theorem mergeSequences_of_none (h : nextClass sequences = none) :
    mergeSequences sequences = if sequences.all fun s => s.1[s.2]?.isNone then some [] else none := by
  rw [mergeSequences]
  split
  · rfl
  · next h' => cases h.symm.trans h'

theorem mergeSequences_of_some {next : O} (h : nextClass sequences = some next) :
    mergeSequences sequences = (mergeSequences (moveOver next sequences)).map (next :: ·) := by
  rw [mergeSequences]
  split
  · next h' => cases h.symm.trans h'
  · next h' => cases h.symm.trans h'; rfl

/-- The loop computes the merge of C3. -/
theorem mergeSequences_iff {result : List O} :
    mergeSequences sequences = some result ↔ Merges (sequences.map rest) result := by
  induction sequences using mergeSequences.induct generalizing result with
  | case1 sequences hnext _ | case2 sequences hnext _ =>
    rw [mergeSequences_of_none hnext, Option.ite_none_right_eq_some]
    constructor
    · rintro ⟨hempty, ⟨⟩⟩
      exact .done (all_rest.mp hempty)
    · intro h
      cases h with
      | done h => exact ⟨all_rest.mpr h, rfl⟩
      | next hc _ => cases hnext.symm.trans (firstReady_rest.symm.trans hc)
  | case3 sequences c hnext ih =>
    have hready := firstReady_rest.trans hnext
    rw [mergeSequences_of_some hnext]
    simp only [Option.map_eq_some_iff, ih, ← advance_rest]
    constructor
    · rintro ⟨result, h, rfl⟩
      exact .next hready h
    · intro h
      cases h with
      | done h =>
        obtain ⟨t, ht⟩ := (firstReady_eq_some hready).1
        cases h _ ht
      | next hc h =>
        cases hready.symm.trans hc
        exact ⟨_, h, rfl⟩

/-- Orders without a cycle have a merge. -/
theorem exists_mergeSequences (h : Acyclic (sequences.map rest)) : ∃ result, mergeSequences sequences = some result := by
  induction sequences using mergeSequences.induct with
  | case1 sequences hnext _ | case2 sequences hnext _ =>
    have hempty : ∀ r ∈ sequences.map rest, r = [] := by
      by_contra hne
      push Not at hne
      exact h.firstReady_ne_none hne (firstReady_rest.trans hnext)
    rw [mergeSequences_of_none hnext]
    exact ⟨[], if_pos (all_rest.mpr hempty)⟩
  | case3 sequences c hnext ih =>
    obtain ⟨result, hresult⟩ := ih (advance_rest c ▸ h.advance c)
    rw [mergeSequences_of_some hnext]
    exact ⟨c :: result, congrArg (Option.map (c :: ·)) hresult⟩

end

variable (isType : O → Bool) (tpMro : O → Option (List O))

/-- The sequences to merge, of which the bases themselves are the last. -/
def baseSequences : List O → List O → Option (List (List O))
  | direct, [] => some [direct]
  | direct, base :: bases =>
    if !isType base || direct.contains base then none
    else match tpMro base with
      | none => none
      | some sequence =>
        if sequence.all isType && sequence.head? = some base then
          (baseSequences (direct ++ [base]) bases).map (sequence :: ·)
        else none

/-- `prospective_mro`; `tpMro` is `none` where `tp_mro` is no tuple. -/
def prospectiveMro (bases : List O) : Option (List O) :=
  (baseSequences isType tpMro [] bases).bind fun sequences =>
    mergeSequences (sequences.map (·, 0))

/-- A tuple of distinct classes, each with a resolution order that starts with the class itself. -/
structure ClassBases (mro : O → List O) (bases : List O) : Prop where
  distinct : bases.Nodup
  types : ∀ b ∈ bases, isType b = true
  orders : ∀ b ∈ bases, tpMro b = some (mro b) ∧ (mro b).all isType = true ∧ (mro b).head? = some b

variable {isType tpMro} {mro : O → List O} {bases : List O}

theorem baseSequences_eq (direct : List O) (h : ClassBases isType tpMro mro bases) (hdirect : ∀ b ∈ bases, b ∉ direct) :
    baseSequences isType tpMro direct bases = some (bases.map mro ++ [direct ++ bases]) := by
  induction bases generalizing direct with
  | nil => rw [baseSequences, map_nil, append_nil, nil_append]
  | cons base bases ih =>
    obtain ⟨hnew, hdistinct⟩ := nodup_cons.mp h.distinct
    have htail : ClassBases isType tpMro mro bases :=
      ⟨hdistinct, fun b hb => h.types b (mem_cons_of_mem _ hb), fun b hb => h.orders b (mem_cons_of_mem _ hb)⟩
    have hdirect' : ∀ b ∈ bases, b ∉ direct ++ [base] := by
      intro b hb hmem
      rcases mem_append.mp hmem with hmem | hmem
      · exact hdirect b (mem_cons_of_mem _ hb) hmem
      · exact hnew (mem_singleton.mp hmem ▸ hb)
    obtain ⟨hmro, hall, hhead⟩ := h.orders base mem_cons_self
    simp [baseSequences, h.types base mem_cons_self, hdirect base mem_cons_self, hmro, hall, hhead, ih _ htail hdirect']

/-- For distinct classes as bases the result is the C3 merge of their resolution orders and the bases. There is one
exactly if these orders have no cycle together; it has every class once and extends each of them. -/
theorem prospectiveMro_merges (h : ClassBases isType tpMro mro bases) :
    ((prospectiveMro isType tpMro bases).isSome ↔ Acyclic (bases.map mro ++ [bases])) ∧
      ∀ result, (prospectiveMro isType tpMro bases = some result ↔ Merges (bases.map mro ++ [bases]) result) ∧
        (prospectiveMro isType tpMro bases = some result → result.Nodup ∧
          (∀ c, c ∈ result ↔ ∃ order ∈ bases.map mro ++ [bases], c ∈ order) ∧
          ∀ order ∈ bases.map mro ++ [bases], order <+ result) := by
  have hiff := @mergeSequences_iff O _ ((bases.map mro ++ [bases]).map (·, 0))
  have hexists := @exists_mergeSequences O _ ((bases.map mro ++ [bases]).map (·, 0))
  rw [map_rest_start] at hiff hexists
  rw [prospectiveMro, baseSequences_eq [] h fun _ _ => not_mem_nil, Option.bind_some]
  refine ⟨⟨fun hsome => ?_, fun hacyclic => ?_⟩, fun result => ⟨hiff, fun hr => ?_⟩⟩
  · obtain ⟨result, hr⟩ := Option.isSome_iff_exists.mp hsome
    have hextends := (hiff.mp hr).extends
    exact acyclic_of_sublist hextends.1 hextends.2.2
  · exact Option.isSome_iff_exists.mpr (hexists hacyclic)
  · exact (hiff.mp hr).extends

/-- The bases `1` and `2` over `0`. -/
theorem prospectiveMro_diamond :
    Merges ([1, 2].map (fun b => if b = 0 then [0] else [b, 0]) ++ [[1, 2]]) [1, 2, 0] := by
  have h : ClassBases (fun _ => true) (fun b => some (if b = 0 then [0] else [b, 0]))
      (fun b : Nat => if b = 0 then [0] else [b, 0]) [1, 2] := ⟨by decide, by decide, by decide⟩
  exact ((prospectiveMro_merges h).2 [1, 2, 0]).1.mp (by decide +kernel)

theorem classBases_of_baseSequences {direct : List O} {sequences : List (List O)}
    (h : baseSequences isType tpMro direct bases = some sequences) :
    ClassBases isType tpMro (fun b => (tpMro b).getD []) bases ∧ ∀ b ∈ bases, b ∉ direct := by
  induction bases generalizing direct sequences with
  | nil => exact ⟨⟨nodup_nil, by simp, by simp⟩, by simp⟩
  | cons base bases ih =>
    simp only [baseSequences] at h
    split at h
    · cases h
    · split at h
      · cases h
      · split at h
        · obtain ⟨_, hrest, -⟩ := Option.map_eq_some_iff.mp h
          obtain ⟨⟨hdistinct, htypes, horders⟩, hdirect⟩ := ih hrest
          exact ⟨⟨by grind, by grind, by grind⟩, by grind⟩
        · cases h

/-- Whatever the bases, a result is the merge for distinct classes with resolution orders. -/
theorem prospectiveMro_eq_some_iff {result : List O} : prospectiveMro isType tpMro bases = some result ↔
    ∃ mro, ClassBases isType tpMro mro bases ∧ Merges (bases.map mro ++ [bases]) result := by
  have hmerge : ∀ mro : O → List O, ClassBases isType tpMro mro bases →
      (prospectiveMro isType tpMro bases = some result ↔ Merges (bases.map mro ++ [bases]) result) := by
    intro mro h
    rw [prospectiveMro, baseSequences_eq [] h fun _ _ => not_mem_nil, Option.bind_some, mergeSequences_iff, map_rest_start]
    rfl
  constructor
  · intro h
    obtain ⟨_, hsequences, -⟩ := Option.bind_eq_some_iff.mp h
    have hbases := (classBases_of_baseSequences hsequences).1
    exact ⟨_, hbases, (hmerge _ hbases).mp h⟩
  · rintro ⟨mro, hbases, h⟩
    exact (hmerge mro hbases).mpr h

end Soac.Strict
