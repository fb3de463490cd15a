import Mathlib.Data.List.Sort
import Mathlib.Data.List.Dedup
import Soac.Lib.Fallible

/-!
# Orders by tokens

A value is ordered by the tokens that spell it out: the place of its variant, then its fields one after the other. A text or
a list ends with a token that is smaller than any that could go on with it, so the tokens of two values compare the way the
values do, field by field.
-/

namespace Soac

open List

/-- The tokens that spell out a value. -/
class Tokens (α : Type) where
  tokens : α → List Nat

namespace Tokens

/-- The lexicographic order of tokens. -/
def le : List Nat → List Nat → Bool
  | [], _ => true
  | _ :: _, [] => false
  | a :: as, b :: bs => a < b || (a == b && le as bs)

theorem le_iff (as bs : List Nat) : le as bs = true ↔ List.le as bs := by
  induction as generalizing bs with
  | nil => exact iff_of_true rfl (List.nil_le bs)
  | cons a as ih =>
    cases bs with
    | nil => exact iff_of_false nofun (fun h => nomatch List.le_nil.mp h)
    | cons b bs =>
      have hcons : List.le (a :: as) (b :: bs) ↔ a < b ∨ a = b ∧ List.le as bs := List.cons_le_cons_iff
      simp [le, ih, hcons]

/-! ## Tokens of the basic types -/

instance : Tokens Nat := ⟨fun n => [n]⟩

instance : Tokens Bool := ⟨fun b => [b.toNat]⟩

instance : Tokens UInt8 := ⟨fun n => [n.toNat]⟩

instance : Tokens UInt64 := ⟨fun n => [n.toNat]⟩

instance : Tokens String := ⟨fun s => s.toList.map (fun c => c.toNat + 1) ++ [0]⟩

theorem tokens_string_injective {s t : String} (h : tokens s = tokens t) : s = t := by
  have hchars := append_cancel_right h
  refine String.toList_injective (map_injective_iff.mpr ?_ hchars)
  intro c d hcd
  exact Char.toNat_inj.mp (Nat.succ.inj hcd)

instance {α : Type} [Tokens α] : Tokens (Option α) :=
  ⟨fun
    | none => [0]
    | some a => 1 :: tokens a⟩

instance {α : Type} [Tokens α] : Tokens (List α) := ⟨fun as => as.flatMap (fun a => 1 :: tokens a) ++ [0]⟩

end Tokens

/-! ## Sorting -/

section

variable {α β : Type} [Tokens β]

/-- The order of the keys. -/
def KeyLe (key : α → β) (a b : α) : Prop :=
  Tokens.le (Tokens.tokens (key a)) (Tokens.tokens (key b)) = true

instance (key : α → β) : DecidableRel (KeyLe key) := fun _ _ => inferInstanceAs (Decidable (_ = true))

theorem keyLe_iff {key : α → β} {a b : α} : KeyLe key a b ↔ List.le (Tokens.tokens (key a)) (Tokens.tokens (key b)) :=
  Tokens.le_iff _ _

instance (key : α → β) : Std.Total (KeyLe key) := by
  constructor
  intro a b
  rw [keyLe_iff, keyLe_iff]
  exact List.le_total _ _

instance (key : α → β) : IsTrans α (KeyLe key) :=
  ⟨fun _ _ _ hab hbc => keyLe_iff.mpr (List.le_trans (keyLe_iff.mp hab) (keyLe_iff.mp hbc))⟩

/-- A catalog in the order of its keys; records of one key stay in their order. -/
def sortBy (key : α → β) (as : List α) : List α :=
  as.insertionSort (KeyLe key)

def SortedBy (key : α → β) (as : List α) : Prop :=
  as.Pairwise (KeyLe key)

variable {key : α → β} {as : List α}

theorem sortBy_perm (key : α → β) (as : List α) : (sortBy key as).Perm as :=
  perm_insertionSort _ _

@[simp]
theorem mem_sortBy {a : α} : a ∈ sortBy key as ↔ a ∈ as :=
  (sortBy_perm key as).mem_iff

theorem sortedBy_sortBy (key : α → β) (as : List α) : SortedBy key (sortBy key as) :=
  pairwise_insertionSort _ _

theorem SortedBy.sortBy_eq (h : SortedBy key as) : sortBy key as = as :=
  List.Pairwise.insertionSort_eq h

/-- With distinct keys the sorted catalog does not depend on the order it is given in. -/
theorem sortBy_eq_of_perm (hinj : ∀ k k' : β, Tokens.tokens k = Tokens.tokens k' → k = k') (hnodup : (as.map key).Nodup)
    {bs : List α} (hperm : bs.Perm as) : sortBy key bs = sortBy key as := by
  refine List.Perm.eq_of_pairwise ?_ (sortedBy_sortBy key bs) (sortedBy_sortBy key as)
    ((sortBy_perm key bs).trans (hperm.trans (sortBy_perm key as).symm))
  intro a b ha hb hab hba
  have hkeys : key a = key b := hinj _ _ (List.le_antisymm (keyLe_iff.mp hab) (keyLe_iff.mp hba))
  exact inj_on_of_nodup_map hnodup (hperm.mem_iff.mp (mem_sortBy.mp ha)) (mem_sortBy.mp hb) hkeys

/-- Records that keep their keys keep their order. -/
theorem SortedBy.of_forall₂ {γ : Type} {key' : γ → β} {cs : List γ} {R : α → γ → Prop} (h : SortedBy key as)
    (hall : List.Forall₂ R as cs) (hkey : ∀ a c, R a c → key' c = key a) : SortedBy key' cs := by
  induction hall with
  | nil => exact .nil
  | @cons a c as cs hr hall ih =>
    obtain ⟨hfirst, hrest⟩ := pairwise_cons.mp h
    refine List.Pairwise.cons ?_ (ih hrest)
    intro c' hc'
    obtain ⟨a', ha', hr'⟩ := forall₂_mem_right hall hc'
    unfold KeyLe
    rw [hkey a c hr, hkey a' c' hr']
    exact hfirst a' ha'

end

/-! ## Collected sets -/

section

variable {α : Type} [DecidableEq α] [Tokens α] {as : List α}

/-- The elements in order, each once. -/
def collectSet (as : List α) : List α :=
  sortBy id as.dedup

@[simp]
theorem mem_collectSet {a : α} : a ∈ collectSet as ↔ a ∈ as := by
  rw [collectSet, mem_sortBy, mem_dedup]

theorem collectSet_singleton (a : α) : collectSet [a] = [a] :=
  perm_singleton.mp (sortBy_perm id [a])

theorem collectSet_collectSet (as : List α) : collectSet (collectSet as) = collectSet as := by
  have hset : collectSet (collectSet as) = sortBy id (collectSet as) := by
    rw [collectSet, Nodup.dedup (l := collectSet as) ((sortBy_perm id _).nodup_iff.mpr as.nodup_dedup)]
  rw [hset]
  exact (sortedBy_sortBy id as.dedup).sortBy_eq

end

/-! ## Catalogs that a pass leaves as they are -/

section

variable {α β ε : Type} [Tokens β] {key : α → β} {f : α → Except ε α} {as : List α}

/-- A sorted catalog whose records a pass leaves as they are. -/
structure StableCatalog (key : α → β) (f : α → Except ε α) (as : List α) : Prop where
  sorted : SortedBy key as
  stable : ∀ a ∈ as, f a = .ok a

theorem StableCatalog.mapM_sortBy (h : StableCatalog key f as) : (sortBy key as).mapM f = .ok as := by
  rw [h.sorted.sortBy_eq]
  exact Fallible.mapM_eq_self h.stable

/-- A pass that keeps the keys, and leaves its own results as they are. -/
theorem StableCatalog.of_mapM {bs : List α} (h : (sortBy key as).mapM f = .ok bs)
    (hf : ∀ a b, f a = .ok b → key b = key a ∧ f b = .ok b) : StableCatalog key f bs := by
  have hall := Fallible.mapM_eq_ok_iff.mp h
  refine ⟨(sortedBy_sortBy key as).of_forall₂ hall fun a b hab => (hf a b hab).1, fun b hb => ?_⟩
  obtain ⟨a, _, hab⟩ := forall₂_mem_right hall hb
  exact (hf a b hab).2

theorem StableCatalog.map {g : α → α} (h : StableCatalog key f as) (hkey : ∀ a, key (g a) = key a)
    (hg : ∀ a, f a = .ok a → f (g a) = .ok (g a)) : StableCatalog key f (as.map g) := by
  constructor
  · refine h.sorted.of_forall₂ (R := fun a b => b = g a) ?_ fun a b hb => hb ▸ hkey a
    exact List.forall₂_map_right_iff.mpr (List.forall₂_same.mpr fun _ _ => rfl)
  · exact forall_mem_map.mpr fun a ha => hg a (h.stable a ha)

end

end Soac
