import Soac.Lib.Fallible

/-!
# Checks

A check succeeds without a result or fails with an error. How the checks of a validator are put together, and what it means
that such a check succeeds.
-/

namespace Soac.Checks

open List

variable {ε α κ : Type}

/-- Fails when the condition holds. -/
def reject (bad : Bool) (e : ε) : Except ε Unit :=
  if bad then .error e else .ok ()

/-- Every element of a list is checked, in order. -/
def each (f : α → Except ε Unit) : List α → Except ε Unit
  | [] => .ok ()
  | a :: as => do
    f a
    each f as

/-- What may be absent is checked when it is there. -/
def ifSome (f : α → Except ε Unit) : Option α → Except ε Unit
  | none => .ok ()
  | some a => f a

/-- The elements of a list with a key each that none of the earlier ones has: what is checked before the key, and after. -/
def eachUnique [DecidableEq κ] (key : α → κ) (before : α → Except ε Unit) (duplicate : α → ε) (after : α → Except ε Unit) :
    List κ → List α → Except ε Unit
  | _, [] => .ok ()
  | seen, a :: as => do
    before a
    reject (key a ∈ seen) (duplicate a)
    after a
    eachUnique key before duplicate after (key a :: seen) as

@[simp]
theorem reject_eq_ok {bad : Bool} {e : ε} : reject bad e = .ok () ↔ bad = false := by
  cases bad with
  | false => exact ⟨fun _ => rfl, fun _ => rfl⟩
  | true => exact ⟨nofun, nofun⟩

theorem reject_not_eq_ok {p : Prop} [Decidable (¬p)] {e : ε} : reject (decide ¬p) e = .ok () ↔ p := by
  rw [reject_eq_ok, decide_eq_false_iff_not, not_not]

/-- One check after the other. -/
theorem seq_eq_ok {x y : Except ε Unit} : (x >>= fun _ => y) = .ok () ↔ x = .ok () ∧ y = .ok () := by
  rw [Fallible.bind_eq_ok]
  exact ⟨fun ⟨_, hx, hy⟩ => ⟨hx, hy⟩, fun ⟨hx, hy⟩ => ⟨(), hx, hy⟩⟩

variable {as : List α} {f : α → Except ε Unit}

theorem each_eq_ok : each f as = .ok () ↔ ∀ a ∈ as, f a = .ok () := by
  induction as with
  | nil => exact ⟨fun _ => nofun, fun _ => rfl⟩
  | cons a as ih => rw [each, seq_eq_ok, ih, forall_mem_cons]

theorem ifSome_eq_ok {a : Option α} : ifSome f a = .ok () ↔ ∀ b, a = some b → f b = .ok () := by
  cases a with
  | none => exact ⟨fun _ => nofun, fun _ => rfl⟩
  | some a => exact ⟨fun h b hb => Option.some.inj hb ▸ h, fun h => h a rfl⟩

variable {duplicate : α → ε} {key : α → κ}

theorem eachUnique_eq_ok_of_seen [DecidableEq κ] {before after : α → Except ε Unit}
    {seen : List κ} : eachUnique key before duplicate after seen as = .ok () ↔
      (as.map key).Nodup ∧ (∀ a ∈ as, key a ∉ seen) ∧ ∀ a ∈ as, before a = .ok () ∧ after a = .ok () := by
  induction as generalizing seen with
  | nil => exact ⟨fun _ => ⟨nodup_nil, nofun, nofun⟩, fun _ => rfl⟩
  | cons a as ih =>
    rw [eachUnique, seq_eq_ok, seq_eq_ok, seq_eq_ok, reject_eq_ok, decide_eq_false_iff_not, ih, map_cons,
      nodup_cons, forall_mem_cons, forall_mem_cons]
    -- The key of the head is new for the tail exactly when no element of the tail has it.
    have hkeys : (∀ b ∈ as, key b ∉ key a :: seen) ↔ key a ∉ as.map key ∧ ∀ b ∈ as, key b ∉ seen := by
      simp only [mem_cons, not_or, mem_map, not_exists, not_and]
      exact ⟨fun h => ⟨fun b hb => (h b hb).1, fun b hb => (h b hb).2⟩, fun h b hb => ⟨h.1 b hb, h.2 b hb⟩⟩
    tauto

theorem eachUnique_eq_ok [DecidableEq κ] {before after : α → Except ε Unit} :
    eachUnique key before duplicate after [] as = .ok () ↔
      (as.map key).Nodup ∧ ∀ a ∈ as, before a = .ok () ∧ after a = .ok () := by
  rw [eachUnique_eq_ok_of_seen]
  exact ⟨fun h => ⟨h.1, h.2.2⟩, fun h => ⟨h.1, fun _ _ => not_mem_nil, h.2⟩⟩

end Soac.Checks
