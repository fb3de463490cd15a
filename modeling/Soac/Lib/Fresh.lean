import Mathlib.Data.List.Nodup
import Mathlib.Data.List.Range

/-!
# Names drawn from a counter

A counter hands out consecutive numbers, so what is drawn in one stretch is distinct and lies between the counter's values
before and after. A table that pairs distinct keys with one stretch maps each key to the number at its position.
-/

namespace Soac.Fresh

open List

variable {α : Type} [DecidableEq α] {keys : List α}

/-- Looking up the key at a position of a table of consecutive numbers. -/
theorem lookup_zip_range' (hn : keys.Nodup) {i : Nat} {k : α} (h : keys[i]? = some k) (n : Nat) :
    (keys.zip (List.range' n keys.length)).lookup k = some (n + i) := by
  induction keys generalizing i n with
  | nil => cases h
  | cons key keys ih =>
    rw [length_cons, List.range'_succ, zip_cons_cons, lookup_cons]
    rw [nodup_cons] at hn
    cases i with
    | zero =>
      rw [List.getElem?_cons_zero, Option.some.injEq] at h
      simp [h]
    | succ i =>
      have hne : (k == key) = false := by
        rw [beq_eq_false_iff_ne]
        rintro rfl
        exact hn.1 (mem_of_getElem? h)
      rw [hne]
      have hrec := ih hn.2 h (n + 1)
      rw [show n + (i + 1) = n + 1 + i by omega]
      exact hrec

/-- A table of consecutive numbers lists them in the order of its keys. -/
theorem map_lookup_zip_range' (hn : keys.Nodup) (n : Nat) :
    keys.map (fun k => (keys.zip (List.range' n keys.length)).lookup k) = (List.range' n keys.length).map some := by
  apply ext_getElem?
  intro i
  rw [List.getElem?_map, List.getElem?_map]
  cases h : keys[i]? with
  | none =>
    rw [List.getElem?_eq_none_iff] at h
    simp [h]
  | some k =>
    have hi : i < keys.length := (List.getElem?_eq_some_iff.mp h).1
    rw [Option.map_some, lookup_zip_range' hn h, List.getElem?_range' hi]
    simp

theorem mem_of_lookup {β : Type} {l : List (α × β)} {a : α} {b : β} (h : l.lookup a = some b) : (a, b) ∈ l := by
  obtain ⟨front, back, rfl, -⟩ := lookup_eq_some_iff.mp h
  simp

/-- What a table of consecutive numbers holds stands at some position. -/
theorem of_lookup_zip_range' {k : α} {n l : Nat}
    (h : (keys.zip (List.range' n keys.length)).lookup k = some l) : ∃ i, keys[i]? = some k ∧ l = n + i := by
  obtain ⟨i, hi⟩ := mem_iff_getElem?.mp (mem_of_lookup h)
  obtain ⟨hk, hl⟩ := getElem?_zip_eq_some.mp hi
  rw [List.getElem?_range' (List.getElem?_eq_some_iff.mp hk).1, Nat.one_mul] at hl
  exact ⟨i, hk, (Option.some.inj hl).symm⟩

/-! ## Numbered names -/

theorem toString_nat_inj {a b : Nat} (h : toString a = toString b) : a = b := by
  have hdigits : Nat.ofDigitChars 10 a.repr.toList 0 = Nat.ofDigitChars 10 b.repr.toList 0 := by
    rw [show a.repr = b.repr from h]
  simpa [Nat.toList_repr, Nat.ofDigitChars_toDigits] using hdigits

end Soac.Fresh
