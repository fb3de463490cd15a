import Soac.Lib.Fallible
import Soac.Strict.Namespace

/-!
# The life of a strict namespace

Over every run: the phase only moves forward, the body starts once at most, a namespace is sealed only after sealing began
with a started body and with nothing left in the queues, and from the beginning of sealing on the final names keep their
values.
-/

namespace Soac.Strict

open List Phase NamespacePolicy PendingRegistry

/-! ## What a call is -/

/-- The start of the body. -/
def Call.starts (c : Call) : Prop :=
  (∃ handle identity, c.op = .startExecution handle identity) ∧ c.result = .ok ()

/-- The beginning of sealing: the call that moves the phase. -/
def Call.beginsSealing (c : Call) : Prop :=
  (∃ handle identity sealsNatively, c.op = .beginSealing handle identity sealsNatively) ∧ c.after.phase ≠ c.before.phase

def Call.finishesSealing (c : Call) : Prop :=
  (∃ handle identity, c.op = .finishSealing handle identity) ∧ c.result = .ok ()

def Call.writes (c : Call) : Prop :=
  ∃ provenance write commits, c.op = .write provenance write commits

/-- The operations on the queues. -/
def Op.onQueues : Op → Bool
  | .register _ _ _ _ _ | .next _ _ _ | .remove _ _ _ => true
  | _ => false

/-- The call of an operation on a namespace. -/
def Namespace.call (ns : Namespace) (op : Op) : Call :=
  ⟨ns, op, (ns.step op).1, (ns.step op).2⟩

/-! ## What a call can do -/

/-- What a call can do to the phase and to the start flag. -/
structure Call.Moves (c : Call) : Prop where
  policy : c.after.policy = c.before.policy
  forward : c.before.phase.toNat ≤ c.after.phase.toNat
  unstarted : c.starts → c.before.executionStarted = false
  started : c.after.executionStarted = true ↔ c.before.executionStarted = true ∨ c.starts
  sealing : c.before.phase ≠ .sealing → c.after.phase = .sealing →
    c.beginsSealing ∧ c.before.executionStarted = true
  sealed : c.before.phase ≠ .sealed → c.after.phase = .sealed →
    c.finishesSealing ∧ c.before.phase = .sealing ∧ c.before.pending.records = [] ∧ c.before.pending.capabilities = []
  begun : c.beginsSealing → toNat .sealing ≤ c.after.phase.toNat

/-- A call that leaves the queues alone. -/
structure Call.QuietMoves (c : Call) : Prop extends c.Moves where
  pending : c.after.pending = c.before.pending

namespace Call.Moves

variable {c : Call}

/-- A call that leaves phase and start flag alone. -/
theorem stay (hpolicy : c.after.policy = c.before.policy) (hphase : c.after.phase = c.before.phase)
    (hstarted : c.after.executionStarted = c.before.executionStarted) (hstarts : ¬c.starts) : c.Moves where
  policy := hpolicy
  forward := Nat.le_of_eq (by rw [hphase])
  unstarted h := absurd h hstarts
  started := by simp [hstarted, hstarts]
  sealing h h' := absurd (hphase.symm.trans h') h
  sealed h h' := absurd (hphase.symm.trans h') h
  begun h := absurd hphase h.2

/-- A call that ends the life of the namespace. -/
theorem ends (hpolicy : c.after.policy = c.before.policy) (hend : c.after.phase = .failed ∨ c.after.phase = .terminal)
    (hforward : c.before.phase.toNat ≤ c.after.phase.toNat)
    (hstarted : c.after.executionStarted = c.before.executionStarted) (hstarts : ¬c.starts) : c.Moves where
  policy := hpolicy
  forward := hforward
  unstarted h := absurd h hstarts
  started := by simp [hstarted, hstarts]
  sealing h h' := by rcases hend with hend | hend <;> rw [hend] at h' <;> cases h'
  sealed h h' := by rcases hend with hend | hend <;> rw [hend] at h' <;> cases h'
  begun h := by rcases hend with hend | hend <;> rw [hend] <;> decide

end Call.Moves

/-- A refused call that changes nothing. -/
theorem Call.QuietMoves.refused {ns : Namespace} {op : Op} {e : StrictError} (h : ns.step op = (.error e, ns)) : (ns.call op).QuietMoves := by
  refine ⟨.stay (congrArg (·.2.policy) h) (congrArg (·.2.phase) h) (congrArg (·.2.executionStarted) h) ?_,
    congrArg (·.2.pending) h⟩
  rintro ⟨_, hok⟩
  cases (congrArg (·.1) h).symm.trans hok

namespace Namespace

variable (ns : Namespace)

/-- A checked call is refused, or is the call itself. -/
theorem guarded_cases (handle : Handle) (identity : Except StrictError Unit) (call : Except StrictError Unit × Namespace) :
    (∃ e, ns.guarded handle identity call = (.error e, ns)) ∨ ns.guarded handle identity call = call := by
  unfold guarded
  split
  · next e _ => exact .inl ⟨e, rfl⟩
  · exact .inr rfl

theorem transition_eq_some {source target : Phase} {ns' : Namespace} (h : ns.transition source target = some ns') :
    ns.phase = source ∧ ns' = { ns with phase := target } := by
  unfold transition at h
  split at h
  · next hphase =>
    cases h
    exact ⟨hphase, rfl⟩
  · cases h

variable {op : Op}

section

variable (hop : ∀ handle identity, op ≠ .startExecution handle identity)
include hop

/-- No other operation starts the body. -/
theorem not_starts : ¬(ns.call op).starts := by
  rintro ⟨⟨handle, identity, heq⟩, _⟩
  exact hop handle identity heq

variable {result : Except StrictError Unit}

/-- A call that cannot start the body, and keeps policy, phase and start flag. -/
theorem kept_moves (hkept : (ns.step op).2.policy = ns.policy ∧ (ns.step op).2.phase = ns.phase ∧
      (ns.step op).2.executionStarted = ns.executionStarted) : (ns.call op).Moves :=
  .stay hkept.1 hkept.2.1 hkept.2.2 (ns.not_starts hop)

theorem terminal_moves (hpolicy : (ns.step op).2.policy = ns.policy) (hphase : (ns.step op).2.phase = .terminal)
    (hstarted : (ns.step op).2.executionStarted = ns.executionStarted) : (ns.call op).Moves := by
  refine .ends hpolicy (.inr hphase) ?_ hstarted (ns.not_starts hop)
  show ns.phase.toNat ≤ (ns.step op).2.phase.toNat
  rw [hphase]
  cases ns.phase <;> decide

theorem release_moves (h : ns.step op = (result, ns.release)) : (ns.call op).QuietMoves := by
  unfold release at h
  split at h
  · exact ⟨ns.kept_moves hop (by rw [h]; exact ⟨rfl, rfl, rfl⟩), by rw [call, h]⟩
  · exact ⟨ns.terminal_moves hop (by rw [h]; rfl) (by rw [h]; rfl) (by rw [h]; rfl), by rw [call, h]; rfl⟩

/-- A call that only moves the phase on. -/
theorem phase_moves {p : Phase} (h : ns.step op = (result, { ns with phase := p }))
    (hforward : ns.phase.toNat ≤ p.toNat)
    (hsealing : p = .sealing → (ns.call op).beginsSealing ∧ ns.executionStarted)
    (hsealed : p = .sealed → (ns.call op).finishesSealing ∧ ns.phase = .sealing ∧ ns.pending.records = [] ∧
      ns.pending.capabilities = [])
    (hbegun : (ns.call op).beginsSealing → toNat .sealing ≤ p.toNat) : (ns.call op).QuietMoves := by
  have hafter : (ns.call op).after = { ns with phase := p } := by rw [call, h]
  have hstarts := ns.not_starts hop
  exact {
    policy := by rw [hafter]; rfl
    forward := by rw [hafter]; exact hforward
    unstarted := fun h => absurd h hstarts
    started := by rw [hafter]; exact ⟨.inl, fun h => h.resolve_right hstarts⟩
    sealing := fun _ hp => hsealing (by rwa [hafter] at hp)
    sealed := fun _ hp => hsealed (by rwa [hafter] at hp)
    begun := fun h => by rw [hafter]; exact hbegun h
    pending := by rw [hafter]; rfl }

theorem failed_moves (h : ns.step op = (result, { ns with phase := .failed }))
    (hphase : ns.phase = .discovered ∨ ns.phase = .initializing ∨ ns.phase = .sealing) : (ns.call op).QuietMoves := by
  refine ns.phase_moves hop h ?_ nofun nofun fun _ => by decide
  rcases hphase with h | h | h <;> rw [h] <;> decide

end

theorem install_moves (native : Bool) : (ns.call (.install native)).QuietMoves := by
  cases native with
  | false => exact ns.release_moves nofun rfl
  | true =>
    cases htransition : ns.transition .discovered .initializing with
    | none =>
      have hstep : ns.step (.install true) =
          (.error (.runtimeUnavailable "strict module became terminal during installation"), ns.release) := by
        simp only [step, install, htransition, Bool.not_true, Bool.false_eq_true, if_false]
      exact ns.release_moves nofun hstep
    | some ns' =>
      obtain ⟨hphase, rfl⟩ := ns.transition_eq_some htransition
      have hstep : ns.step (.install true) = (.ok (), { ns with phase := .initializing }) := by
        simp only [step, install, htransition, Bool.not_true, Bool.false_eq_true, if_false]
      refine ns.phase_moves nofun hstep (by rw [hphase]; decide) nofun nofun ?_
      rintro ⟨⟨_, _, _, h⟩, _⟩
      cases h

theorem startExecution_moves (handle : Handle) (identity : Except StrictError Unit) :
    (ns.call (.startExecution handle identity)).QuietMoves := by
  rcases ns.guarded_cases handle identity ns.startExecution with ⟨e, h⟩ | h
  · exact .refused h
  · by_cases hcan : ns.phase = .initializing ∧ ns.executionStarted = false
    · have hstep : ns.step (.startExecution handle identity) = (.ok (), { ns with executionStarted := true }) := by
        rw [step, h, startExecution, if_pos hcan]
      have hcall : ns.call (.startExecution handle identity) =
          ⟨ns, .startExecution handle identity, .ok (), { ns with executionStarted := true }⟩ := by
        rw [call, hstep]
      rw [hcall]
      exact {
        policy := rfl
        forward := Nat.le_refl _
        unstarted := fun _ => hcan.2
        started := ⟨fun _ => .inr ⟨⟨handle, identity, rfl⟩, rfl⟩, fun _ => rfl⟩
        sealing := fun h h' => absurd h' h
        sealed := fun h h' => absurd h' h
        begun := fun h => absurd rfl h.2
        pending := rfl }
    · refine .refused (e := .runtimeUnavailable "strict module body execution is single-use") ?_
      rw [step, h, startExecution, if_neg hcan]

theorem beginSealing_moves (handle : Handle) (identity : Except StrictError Unit) (sealsNatively : Bool) :
    (ns.call (.beginSealing handle identity sealsNatively)).QuietMoves := by
  rcases ns.guarded_cases handle identity (ns.beginNamespaceSealing sealsNatively) with ⟨e, h⟩ | h
  · exact .refused h
  · have hstep : ns.step (.beginSealing handle identity sealsNatively) = ns.beginNamespaceSealing sealsNatively := h
    unfold beginNamespaceSealing at hstep
    split at hstep
    · exact .refused hstep
    · next hstarted =>
      split at hstep
      · exact .refused hstep
      · next ns' htransition =>
        obtain ⟨hphase, rfl⟩ := ns.transition_eq_some htransition
        split at hstep
        · exact ns.failed_moves nofun hstep (.inr (.inl hphase))
        · have hmoved : (ns.call (.beginSealing handle identity sealsNatively)).after.phase ≠ ns.phase := by
            rw [call, hstep, hphase]
            nofun
          refine ns.phase_moves nofun hstep (by rw [hphase]; decide) (fun _ => ⟨⟨⟨handle, identity, sealsNatively, rfl⟩, hmoved⟩, ?_⟩)
            nofun fun _ => Nat.le_refl _
          exact (Bool.not_eq_false _).mp hstarted

theorem finishSealing_moves (handle : Handle) (identity : Except StrictError Unit) :
    (ns.call (.finishSealing handle identity)).QuietMoves := by
  rcases ns.guarded_cases handle identity ns.finishNamespaceSealing with ⟨e, h⟩ | h
  · exact .refused h
  · have hstep : ns.step (.finishSealing handle identity) = ns.finishNamespaceSealing := h
    unfold finishNamespaceSealing at hstep
    split at hstep
    · exact .refused hstep
    · split at hstep
      · exact .refused hstep
      · next hempty =>
        split at hstep
        · exact .refused hstep
        · next ns' htransition =>
          obtain ⟨hphase, rfl⟩ := ns.transition_eq_some htransition
          have hok : (ns.call (.finishSealing handle identity)).result = .ok () := by rw [call, hstep]
          simp only [Bool.or_eq_true, Bool.not_eq_true', isEmpty_eq_false_iff, not_or, Decidable.not_not] at hempty
          refine ns.phase_moves nofun hstep (by rw [hphase]; decide) nofun
            (fun _ => ⟨⟨⟨handle, identity, rfl⟩, hok⟩, hphase, hempty.1, hempty.2⟩) ?_
          rintro ⟨⟨_, _, _, h⟩, _⟩
          cases h

theorem fail_moves (identity : Except StrictError Unit) : (ns.call (.fail identity)).QuietMoves := by
  rcases ns.guarded_cases .moduleState identity ns.fail with ⟨e, h⟩ | h
  · exact .refused h
  · have hstep : ns.step (.fail identity) = ns.fail := h
    unfold fail at hstep
    split at hstep
    · next hphase => exact ns.failed_moves nofun hstep (.inl hphase)
    · next hphase => exact ns.failed_moves nofun hstep (.inr (.inl hphase))
    · next hphase => exact ns.failed_moves nofun hstep (.inr (.inr hphase))
    · exact .refused hstep

theorem failUnfinished_moves : (ns.call .failUnfinished).QuietMoves := by
  have hstep : ns.step .failUnfinished = (.ok (), ns.failUnfinished) := rfl
  unfold failUnfinished at hstep
  split at hstep
  · next hphase => exact ns.failed_moves nofun hstep (.inl hphase)
  · next hphase => exact ns.failed_moves nofun hstep (.inr (.inl hphase))
  · next hphase => exact ns.failed_moves nofun hstep (.inr (.inr hphase))
  · exact ⟨ns.kept_moves nofun (by rw [hstep]; exact ⟨rfl, rfl, rfl⟩), by rw [call, hstep]⟩

theorem changePending_kept (change : PendingRegistry → Except StrictError PendingRegistry) :
    (ns.changePending change).2.policy = ns.policy ∧ (ns.changePending change).2.phase = ns.phase ∧
      (ns.changePending change).2.executionStarted = ns.executionStarted := by
  unfold changePending
  split
  · exact ⟨rfl, rfl, rfl⟩
  · split <;> exact ⟨rfl, rfl, rfl⟩

theorem write_moves (provenance : Provenance) (write : Write) (commits : Bool) :
    (ns.call (.write provenance write commits)).QuietMoves := by
  have hstep : ns.step (.write provenance write commits) = ns.attempt provenance write commits := rfl
  unfold attempt at hstep
  split at hstep
  · exact .refused hstep
  · cases commits <;> exact ⟨ns.kept_moves nofun (by rw [hstep]; exact ⟨rfl, rfl, rfl⟩), by rw [call, hstep]; rfl⟩

/-- The entry points of the life cycle and the writes leave the queues alone. -/
theorem quiet_step (hop : op.onQueues = false) : (ns.call op).QuietMoves := by
  cases op with
  | install native => exact ns.install_moves native
  | startExecution handle identity => exact ns.startExecution_moves handle identity
  | beginSealing handle identity sealsNatively => exact ns.beginSealing_moves handle identity sealsNatively
  | finishSealing handle identity => exact ns.finishSealing_moves handle identity
  | fail identity => exact ns.fail_moves identity
  | failUnfinished => exact ns.failUnfinished_moves
  | release => exact ns.release_moves nofun rfl
  | ownerCleared | teardown => exact ⟨ns.terminal_moves nofun rfl rfl rfl, rfl⟩
  | register phase kind object beforeEdge invocation | next alive selected phase | remove alive isMatch selected => cases hop
  | write provenance write commits => exact ns.write_moves provenance write commits

/-- Every call moves phase and start flag in the ways of the life cycle. -/
theorem step_moves (op : Op) : (ns.call op).Moves := by
  cases op with
  | register phase kind object beforeEdge invocation | next alive selected phase | remove alive isMatch selected =>
    exact ns.kept_moves nofun (ns.changePending_kept _)
  | _ => exact (ns.quiet_step rfl).toMoves

/-! ## Writes -/

variable {operation : Operation} {provenance : Provenance}

theorem validateNamespace_ok {key : Option Key} (h : ns.validateNamespace provenance key operation = .ok ()) :
    (operation ≠ .cacheInsert ∧ operation ≠ .cacheReplace) ∧ (ns.phase ≠ .failed ∧ ns.phase ≠ .terminal) ∧
      (ns.policy.strictAssign → ns.admitsKey key operation) := by
  unfold validateNamespace at h
  split at h
  · cases h
  · split at h
    · cases h
    · split at h
      · cases h
      · next hcache =>
        split at h
        · cases h
        · next hphase =>
          simp only [not_or] at hcache hphase
          refine ⟨⟨hcache.2.1, hcache.2.2⟩, hphase, ?_⟩
          intro hstrict
          rw [hstrict] at h
          split at h
          · next hordinary => simp at hordinary
          · split at h
            · assumption
            · cases h

section

variable (hstrict : ns.policy.strictAssign) (hphase : toNat .sealing ≤ ns.phase.toNat)
include hstrict hphase

/-- From the beginning of sealing on, a strict-assign module lets nothing but the mutable names change. -/
theorem permits_final
    {name : Option String} (h : ns.permits operation name) : operation = .terminalTeardown ∨ operation = .set ∨
      (operation = .setExisting ∨ operation = .delete) ∧ ∃ n, name = some n ∧ n ∈ ns.policy.mutableNames := by
  unfold permits at h
  split at h
  · exact .inl (by assumption)
  · right
    cases hp : ns.phase with
    | discovered | initializing => rw [hp] at hphase; exact absurd hphase (by decide)
    | failed | terminal => rw [hp] at h; cases h
    | sealing | sealed =>
      cases operation <;> simp_all [Option.any_eq_true]

/-- The slot of an update or a deletion that is admitted then is a mutable name. -/
theorem admitsKey_final {key : Key} (hop : operation = .setExisting ∨ operation = .delete)
    (h : ns.admitsKey (some key) operation) : ∃ n ∈ ns.policy.mutableNames, key.slot = .name n := by
  have hmutable : ∀ {name : Option String}, ns.permits operation name →
      ∃ n, name = some n ∧ n ∈ ns.policy.mutableNames := by
    intro name hpermits
    rcases ns.permits_final hstrict hphase hpermits with h | h | ⟨_, h⟩
    · rcases hop with hop | hop <;> rw [hop] at h <;> cases h
    · rcases hop with hop | hop <;> rw [hop] at h <;> cases h
    · exact h
  unfold admitsKey at h
  split at h
  · next hclear => rcases hop with hop | hop <;> rw [hop] at hclear <;> cases hclear
  · cases key with
    | str name =>
      obtain ⟨n, hn, hmem⟩ := hmutable h
      cases hn
      exact ⟨name, hmem, rfl⟩
    | surrogateStr id =>
      obtain ⟨n, hn, _⟩ := hmutable h
      cases hn
    | other slot => cases h

theorem admitsKey_clear (key : Option Key) : ns.admitsKey key .clear = false := by
  have hclear : ns.admitsKey key .clear = ns.permits .clear none := if_pos rfl
  rw [hclear, ← Bool.not_eq_true]
  intro h
  rcases ns.permits_final hstrict hphase h with h | h | ⟨h | h, _⟩ <;> cases h

/-- An admitted write keeps the value of every name that is not mutable. -/
theorem attempt_final {write : Write} {commits : Bool} (hok : (ns.attempt provenance write commits).1 = .ok ())
    {slot : Slot} {v : ObjId} (hbound : ns.dictionary slot = some v)
    (hfinal : ∀ n ∈ ns.policy.mutableNames, slot ≠ .name n) :
    (ns.attempt provenance write commits).2.dictionary slot = some v := by
  unfold attempt at hok ⊢
  split at hok
  · cases hok
  · next hvalid =>
    obtain ⟨⟨hinsert, hreplace⟩, _, hadmits⟩ := ns.validateNamespace_ok hvalid
    replace hadmits := hadmits hstrict
    cases commits with
    | false => exact hbound
    | true =>
      cases write with
      | validateInitial key | clone | other code key => exact hbound
      | cacheInsert key value => exact absurd rfl hinsert
      | cacheReplace key value => exact absurd rfl hreplace
      | clear =>
        rw [Write.operation, ns.admitsKey_clear hstrict hphase] at hadmits
        cases hadmits
      | delete key =>
        obtain ⟨n, hn, hslot⟩ := ns.admitsKey_final hstrict hphase (.inr rfl) hadmits
        have hne : slot ≠ key.slot := by
          rw [hslot]
          exact hfinal n hn
        exact (Function.update_of_ne hne _ _).trans hbound
      | assign key value =>
        have hne : slot ≠ key.slot := by
          intro heq
          have hop : Write.operation ns.dictionary (.assign key value) = .setExisting := by
            rw [Write.operation, ← heq, hbound]
            rfl
          obtain ⟨n, hn, hslot⟩ := ns.admitsKey_final hstrict hphase (.inl hop) hadmits
          exact hfinal n hn (heq.trans hslot)
        exact (Function.update_of_ne hne _ _).trans hbound

end

theorem attempt_failed (hphase : toNat .failed ≤ ns.phase.toNat) (provenance : Provenance) (write : Write)
    (commits : Bool) : (ns.attempt provenance write commits).1 ≠ .ok () := by
  intro hok
  unfold attempt at hok
  split at hok
  · cases hok
  · next hvalid =>
    obtain ⟨_, ⟨hfailed, hterminal⟩, _⟩ := ns.validateNamespace_ok hvalid
    cases hp : ns.phase with
    | failed => exact hfailed hp
    | terminal => exact hterminal hp
    | discovered | initializing | sealing | sealed =>
      rw [hp] at hphase
      exact absurd hphase (by decide)

end Namespace

/-! ## Runs -/

/-- What the calls so far tell about the namespace. -/
structure History (policy : NamespacePolicy) (past : List Call) (ns : Namespace) : Prop where
  policy : ns.policy = policy
  unstarted : ns.executionStarted = false → ∀ c ∈ past, ¬c.starts
  once : past.Pairwise fun c d => ¬(c.starts ∧ d.starts)
  begun : (∃ b ∈ past, b.beginsSealing) → toNat .sealing ≤ ns.phase.toNat
  failed : (∃ b ∈ past, b.after.phase = .failed) → toNat .failed ≤ ns.phase.toNat
  sealing : ns.phase = .sealing → ∃ b ∈ past, b.beginsSealing ∧ b.before.executionStarted = true

theorem History.new (policy : NamespacePolicy) (dictionary : Slot → Option ObjId) :
    History policy [] { policy, dictionary } where
  policy := rfl
  unstarted := by
    intro _ c hc
    cases hc
  once := .nil
  begun := by
    rintro ⟨b, hb, _⟩
    cases hb
  failed := by
    rintro ⟨b, hb, _⟩
    cases hb
  sealing := by
    intro h
    cases h

variable {policy : NamespacePolicy} {ns : Namespace} {past : List Call}

theorem History.step (h : History policy past ns) (op : Op) : History policy (past ++ [ns.call op]) (ns.step op).2 := by
  have hmoves := ns.step_moves op
  have hforward : ns.phase.toNat ≤ (ns.step op).2.phase.toNat := hmoves.forward
  exact {
    policy := hmoves.policy.trans h.policy
    unstarted := by
      intro hstarted c hc
      have hnow : ¬(ns.executionStarted ∨ (ns.call op).starts) := by
        intro hstarts
        have hafter : (ns.step op).2.executionStarted := hmoves.started.mpr hstarts
        rw [hstarted] at hafter
        cases hafter
      rw [not_or, Bool.not_eq_true] at hnow
      rcases mem_append.mp hc with hc | hc
      · exact h.unstarted hnow.1 c hc
      · rw [mem_singleton.mp hc]
        exact hnow.2
    once := by
      rw [pairwise_append]
      refine ⟨h.once, pairwise_singleton _ _, ?_⟩
      intro c hc d hd
      rw [mem_singleton.mp hd]
      rintro ⟨hcs, hds⟩
      exact h.unstarted (hmoves.unstarted hds) c hc hcs
    begun := by
      rintro ⟨b, hb, hbegins⟩
      rcases mem_append.mp hb with hb | hb
      · exact Nat.le_trans (h.begun ⟨b, hb, hbegins⟩) hforward
      · rw [mem_singleton.mp hb] at hbegins
        exact hmoves.begun hbegins
    failed := by
      rintro ⟨b, hb, hfailed⟩
      rcases mem_append.mp hb with hb | hb
      · exact Nat.le_trans (h.failed ⟨b, hb, hfailed⟩) hforward
      · rw [mem_singleton.mp hb] at hfailed
        exact Nat.le_of_eq (congrArg toNat hfailed.symm)
    sealing := by
      intro hsealing
      by_cases hbefore : ns.phase = .sealing
      · obtain ⟨b, hb, hbegins⟩ := h.sealing hbefore
        exact ⟨b, mem_append_left _ hb, hbegins⟩
      · exact ⟨ns.call op, mem_append_right _ mem_cons_self, hmoves.sealing hbefore hsealing⟩ }

/-- Before each call of a run its namespace has the history of the calls before it. -/
theorem History.calls (h : History policy past ns)
    {ops : List Op} {pre post : List Call} {c : Call} (hrun : calls ns ops = pre ++ c :: post) :
    History policy (past ++ pre) c.before ∧ c = c.before.call c.op := by
  induction ops generalizing past ns pre with
  | nil => simp [Strict.calls] at hrun
  | cons op ops ih =>
    rw [Strict.calls] at hrun
    cases pre with
    | nil =>
      cases hrun
      rw [append_nil]
      exact ⟨h, rfl⟩
    | cons d pre =>
      rw [cons_append, List.cons.injEq] at hrun
      obtain ⟨rfl, hrun⟩ := hrun
      have hnext := ih (h.step op) hrun
      rw [append_assoc] at hnext
      exact hnext

theorem History.pairwise (h : History policy past ns)
    (ops : List Op) : (past ++ Strict.calls ns ops).Pairwise fun c d => ¬(c.starts ∧ d.starts) := by
  induction ops generalizing past ns with
  | nil =>
    rw [Strict.calls, append_nil]
    exact h.once
  | cons op ops ih =>
    have hnext := ih (h.step op)
    rw [append_assoc] at hnext
    exact hnext

/-! ## The policy of the facts -/

/-- A name that the facts declare mutable. -/
def ModuleFacts.ExplicitlyMutable (facts : ModuleFacts) (slot : Slot) : Prop :=
  ∃ binding ∈ facts.globalBindings, binding.mutability = .explicitlyMutable ∧ slot = .name binding.name

variable {policy' : NamespacePolicy}

theorem addBinding_ok {binding : GlobalBinding}
    (h : policy.addBinding binding = .ok policy') : policy'.strictAssign = policy.strictAssign ∧
      ∀ n ∈ policy'.mutableNames, n ∈ policy.mutableNames ∨ binding.mutability = .explicitlyMutable ∧ n = binding.name := by
  unfold addBinding at h
  split at h
  · cases h
  · cases hm : binding.mutability with
    | explicitlyMutable =>
      rw [hm] at h
      cases h
      refine ⟨rfl, fun n hn => ?_⟩
      rcases mem_cons.mp hn with rfl | hn
      · exact .inr ⟨rfl, rfl⟩
      · exact .inl hn
    | finalAfterSeal | lateAppendOnly =>
      rw [hm] at h
      cases h
      exact ⟨rfl, fun n hn => .inl hn⟩
    | unknown =>
      simp only [hm] at h
      split at h
      · cases h
      · cases h
        exact ⟨rfl, fun n hn => .inl hn⟩

theorem addBindings_ok {bindings : List GlobalBinding}
    (h : bindings.foldlM addBinding policy = .ok policy') :
    policy'.strictAssign = policy.strictAssign ∧ ∀ n ∈ policy'.mutableNames, n ∈ policy.mutableNames ∨
      ∃ binding ∈ bindings, binding.mutability = .explicitlyMutable ∧ n = binding.name := by
  induction bindings generalizing policy with
  | nil =>
    cases h
    exact ⟨rfl, fun n hn => .inl hn⟩
  | cons binding bindings ih =>
    obtain ⟨policy₁, h₁, h⟩ := Fallible.bind_eq_ok.mp h
    obtain ⟨hstrict₁, hnames₁⟩ := addBinding_ok h₁
    obtain ⟨hstrict, hnames⟩ := ih h
    refine ⟨hstrict.trans hstrict₁, fun n hn => ?_⟩
    rcases hnames n hn with hn | ⟨b, hb, hbn⟩
    · rcases hnames₁ n hn with hn | hbn
      · exact .inl hn
      · exact .inr ⟨binding, mem_cons_self, hbn⟩
    · exact .inr ⟨b, mem_cons_of_mem _ hb, hbn⟩

theorem fromFacts_ok {interpreterId : Int} {dictionaryIdentity : ObjId} {facts : ModuleFacts}
    (h : fromFacts interpreterId dictionaryIdentity facts = .ok policy) :
    policy.strictAssign = facts.strictAssign ∧ ∀ n ∈ policy.mutableNames, facts.ExplicitlyMutable (.name n) := by
  unfold fromFacts at h
  split at h
  · cases h
  · obtain ⟨hstrict, hnames⟩ := addBindings_ok h
    refine ⟨hstrict, fun n hn => ?_⟩
    rcases hnames n hn with hn | ⟨b, hb, hm, rfl⟩
    · cases hn
    · exact ⟨b, hb, hm, rfl⟩

/-- The life of a strict namespace, over every run of calls on it. The phase never moves back. The body starts once at
most. A namespace becomes sealed by a finish of the sealing that finds both queues empty, after a call that began the
sealing with a started body. Once sealing of a strict-assign module has begun, no admitted write changes or removes the
value of a bound name that is not explicitly mutable. After a failure no write is admitted. -/
theorem strictNamespace_lifecycle {interpreterId : Int} {dictionaryIdentity : ObjId} {facts : ModuleFacts}
    {policy : NamespacePolicy} (hpolicy : fromFacts interpreterId dictionaryIdentity facts = .ok policy)
    (dictionary : Slot → Option ObjId) (ops : List Op) :
    let run := calls { policy, dictionary } ops
    run.Pairwise (fun c d => ¬(c.starts ∧ d.starts)) ∧
    ∀ pre c post, run = pre ++ c :: post →
      c.before.phase.toNat ≤ c.after.phase.toNat ∧
      (c.before.phase ≠ .sealed → c.after.phase = .sealed →
        c.finishesSealing ∧ c.before.pending.records = [] ∧ c.before.pending.capabilities = [] ∧
          ∃ b ∈ pre, b.beginsSealing ∧ b.before.executionStarted = true) ∧
      (facts.strictAssign = true → (∃ b ∈ pre, b.beginsSealing) → c.writes → c.result = .ok () →
        ∀ slot v, c.before.dictionary slot = some v → ¬facts.ExplicitlyMutable slot → c.after.dictionary slot = some v) ∧
      ((∃ b ∈ pre, b.after.phase = .failed) → c.writes → c.result ≠ .ok ()) := by
  intro run
  have hnew := History.new policy dictionary
  refine ⟨hnew.pairwise ops, ?_⟩
  intro pre c post hrun
  obtain ⟨hpast, hcall⟩ := hnew.calls hrun
  have hmoves : c.Moves := hcall ▸ c.before.step_moves c.op
  obtain ⟨hstrict, hmutable⟩ := fromFacts_ok hpolicy
  refine ⟨hmoves.forward, ?_, ?_, ?_⟩
  · intro hbefore hafter
    obtain ⟨hfinish, hsealing, hrecords, hcapabilities⟩ := hmoves.sealed hbefore hafter
    exact ⟨hfinish, hrecords, hcapabilities, hpast.sealing hsealing⟩
  · rintro hassign hbegun ⟨provenance, write, commits, hop⟩ hok slot v hbound hfinal
    rw [hcall, hop] at hok ⊢
    refine c.before.attempt_final ?_ (hpast.begun hbegun) hok hbound ?_
    · rw [hpast.policy, hstrict, hassign]
    · intro n hn heq
      rw [hpast.policy] at hn
      exact hfinal (heq ▸ hmutable n hn)
  · rintro hfailed ⟨provenance, write, commits, hop⟩
    rw [hcall, hop]
    exact c.before.attempt_failed (hpast.failed hfailed) provenance write commits

/-! ## Pending edges -/

namespace PendingRegistry

/-- The edges of the pending records, and the free ones. -/
def edges (registry : PendingRegistry) : List Nat :=
  registry.records.map (·.edge) ++ registry.capabilities.map (·.edge) ++ registry.freeEdges

/-- Every edge of the owner that is in use belongs to one record, or is free. -/
structure Valid (registry : PendingRegistry) : Prop where
  nodup : registry.edges.Nodup
  bounded : ∀ edge ∈ registry.edges, edge < registry.references.length

variable {registry registry' : PendingRegistry}

theorem Valid.perm (h : registry.Valid) (hedges : registry'.edges.Perm registry.edges)
    (hlen : registry'.references.length = registry.references.length) : registry'.Valid where
  nodup := hedges.nodup_iff.mpr h.nodup
  bounded edge he := by
    rw [hlen]
    exact h.bounded edge (hedges.mem_iff.mp he)

/-- A queue with one record more has its edge more. -/
theorem edges_withQueue_insert (registry : PendingRegistry) (phase : PendingPhase) (position : Nat) (record : PendingRecord)
    (h : position ≤ (registry.queue phase).length) :
    (registry.withQueue phase ((registry.queue phase).insertIdx position record)).edges.Perm
      (record.edge :: registry.edges) := by
  have hperm := (perm_insertIdx record (registry.queue phase) h).map (·.edge)
  cases phase with
  | finalize => exact (hperm.append_right _).append_right _
  | publishCapabilities =>
    refine ((hperm.append_left _).append_right _).trans ?_
    exact (perm_middle.append_right _)

variable {record : PendingRecord}

/-- A record that is taken out of its queue leaves its edge free. -/
theorem edges_take (registry : PendingRegistry) (phase : PendingPhase) (h : record ∈ registry.queue phase) :
    ((registry.withQueue phase ((registry.queue phase).erase record)).releaseEdge record.edge).edges.Perm registry.edges := by
  have hperm := ((perm_cons_erase h).map (·.edge)).symm
  cases phase with
  | finalize =>
    refine perm_middle.trans ?_
    exact (hperm.append_right _).append_right _
  | publishCapabilities =>
    refine perm_middle.trans ?_
    refine (perm_middle.symm.append_right registry.freeEdges).trans ?_
    exact (hperm.append_left _).append_right _

section

variable (h : registry.Valid)
include h

theorem Valid.take (phase : PendingPhase) (hmem : record ∈ registry.queue phase) :
    ((registry.withQueue phase ((registry.queue phase).erase record)).releaseEdge record.edge).Valid := by
  refine h.perm (registry.edges_take phase hmem) ?_
  cases phase <;> exact length_set

theorem Valid.removeEdge (alive : ObjId → Bool) (isMatch : PendingRecord → Bool)
    (selected : ObjId → Bool) (edge : Nat) : (registry.removeEdge alive isMatch selected edge).Valid := by
  unfold PendingRegistry.removeEdge
  split
  · exact h
  · next record hfind =>
    split
    · exact h
    · split
      · have hedge := List.find?_some hfind
        rw [Bool.and_eq_true, beq_iff_eq] at hedge
        rw [← hedge.1]
        exact h.take .finalize (mem_of_find?_eq_some hfind)
      · exact h

theorem Valid.remove (alive : ObjId → Bool) (isMatch : PendingRecord → Bool)
    (selected : ObjId → Bool) : (registry.remove alive isMatch selected).Valid := by
  unfold PendingRegistry.remove
  generalize (registry.records.filter isMatch).map (·.edge) = candidates
  induction candidates generalizing registry with
  | nil => exact h
  | cons edge candidates ih => exact ih (h.removeEdge alive isMatch selected edge)

/-- An edge that is taken into use is in the list of no record. -/
theorem Valid.takeEdge (object : ObjId) : ((registry.takeEdge object).1 :: (registry.takeEdge object).2.edges).Nodup ∧
      (∀ edge ∈ (registry.takeEdge object).1 :: (registry.takeEdge object).2.edges,
        edge < (registry.takeEdge object).2.references.length) ∧
      ∀ phase, (registry.takeEdge object).2.queue phase = registry.queue phase := by
  obtain ⟨records, capabilities, freeEdges, references⟩ := registry
  cases freeEdges with
  | nil =>
    refine ⟨nodup_cons.mpr ⟨?_, h.nodup⟩, ?_, ?_⟩
    · intro hmem
      exact Nat.lt_irrefl _ (h.bounded _ hmem)
    · simp only [takeEdge, length_append, length_singleton]
      exact forall_mem_cons.mpr ⟨Nat.lt_succ_self _, fun edge he => Nat.lt_succ_of_lt (h.bounded edge he)⟩
    · intro phase
      cases phase <;> rfl
  | cons free freeEdges =>
    have hperm : (free :: edges ⟨records, capabilities, freeEdges, references.set free (some object)⟩).Perm
        (edges ⟨records, capabilities, free :: freeEdges, references⟩) := perm_middle.symm
    refine ⟨hperm.nodup_iff.mpr h.nodup, ?_, ?_⟩
    · intro edge he
      have hlt := h.bounded edge (hperm.mem_iff.mp he)
      simpa only [takeEdge, length_set] using hlt
    · intro phase
      cases phase <;> rfl

end

theorem Valid.register (h : registry.Valid) {phase : PendingPhase} {kind : StrictPendingKind} {object : ObjId}
    {beforeEdge invocation : Option Nat} (hok : registry.register phase kind object beforeEdge invocation = .ok registry') :
    registry'.Valid := by
  obtain ⟨hnodup, hbounded, hqueue⟩ := h.takeEdge object
  unfold PendingRegistry.register at hok
  dsimp only at hok
  split at hok
  · cases hok
  · next position hposition =>
    cases hok
    have hle : position ≤ ((registry.takeEdge object).2.queue phase).length := by
      rw [hqueue]
      cases beforeEdge with
      | none =>
        cases hposition
        exact Nat.le_refl _
      | some before => exact Nat.le_of_lt (List.findIdx?_eq_some_iff_getElem.mp hposition).1
    have hperm := edges_withQueue_insert (registry.takeEdge object).2 phase position
      ⟨kind, (registry.takeEdge object).1, invocation⟩ hle
    rw [hqueue] at hperm
    refine ⟨hperm.nodup_iff.mpr hnodup, fun edge he => ?_⟩
    cases phase <;> exact hbounded edge (hperm.mem_iff.mp he)

end PendingRegistry

/-! ## A module with one mutable name -/

def counterFacts : ModuleFacts where
  moduleName := "counter"
  strictSource := true
  policySelected := true
  strictAssign := true
  globalBindings := [⟨"limit", .finalAfterSeal⟩, ⟨"count", .explicitlyMutable⟩]

def counterPolicy : NamespacePolicy where
  interpreterId := 0
  dictionaryIdentity := 7
  moduleName := "counter"
  strictAssign := true
  mutableNames := ["count"]
  reservedNames := ["count", "limit"]

/-- The body binds both names and makes a function, which is finished while the module is sealed; then `count` is set. -/
def counterOps : List Op := [
  .install true, .startExecution .moduleState (.ok ()),
  .write ⟨7, 0, false⟩ (.assign (.str "limit") 10) true, .write ⟨7, 0, false⟩ (.assign (.str "count") 11) true,
  .register .finalize (.function 1) 20 none none, .beginSealing .moduleState (.ok ()) true,
  .next (fun _ => true) (fun _ => true) .finalize, .finishSealing .moduleState (.ok ()),
  .write ⟨7, 0, false⟩ (.assign (.str "count") 12) true]

def counterRun : List Call :=
  calls { policy := counterPolicy, dictionary := fun _ => none } counterOps

theorem strictNamespace_lifecycle_counter :
    fromFacts 0 7 counterFacts = .ok counterPolicy ∧
    ∃ pre c post, counterRun = pre ++ c :: post ∧ c.before.phase = .sealed ∧ c.writes ∧ c.result = .ok () ∧
      c.before.dictionary (.name "limit") = some 10 ∧ c.after.dictionary (.name "limit") = some 10 ∧
      c.after.dictionary (.name "count") = some 12 := by
  have hpolicy : fromFacts 0 7 counterFacts = .ok counterPolicy := rfl
  have hrun : counterRun = counterRun.take 8 ++ counterRun.get ⟨8, by decide⟩ :: [] := rfl
  have hbegun : ∃ b ∈ counterRun.take 8, b.beginsSealing := by
    refine ⟨counterRun.get ⟨5, by decide⟩, mem_of_getElem? (i := 5) rfl, ⟨_, _, _, rfl⟩, ?_⟩
    decide
  have hfinal : ¬counterFacts.ExplicitlyMutable (.name "limit") := by
    rintro ⟨binding, hb, hm, hname⟩
    simp only [counterFacts, mem_cons, not_mem_nil, or_false] at hb
    rcases hb with rfl | rfl
    · cases hm
    · exact absurd hname (by decide)
  obtain ⟨_, _, hkeeps, _⟩ :=
    (strictNamespace_lifecycle hpolicy (fun _ => none) counterOps).2 (counterRun.take 8) _ [] hrun
  exact ⟨hpolicy, _, _, _, hrun, rfl, ⟨_, _, _, rfl⟩, rfl, rfl,
    hkeeps rfl hbegun ⟨_, _, _, rfl⟩ rfl (.name "limit") 10 rfl hfinal, rfl⟩

end Soac.Strict
