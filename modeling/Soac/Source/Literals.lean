import Mathlib.Data.List.Basic

/-!
# Surrogate escapes in literals

The parser replaces an escape for a surrogate by U+FFFD, so a source is searched for such escapes first. The search goes
over the bytes of a literal and finds what Python's decoding of the literal has. Bytes are ASCII codes: `0x5C` is the
backslash, `0x75` and `0x55` are `u` and `U`, `0x4E` is `N`, `0x78` is `x`, `0x7B` and `0x7D` are braces.
-/

namespace Soac.Literals

open List

structure TextRange where
  start : Nat
  stop : Nat

structure UnsupportedSurrogateEscape where
  range : TextRange
  codePoint : Nat

def hexDigit (digit : UInt8) : Option Nat :=
  if 0x30 ≤ digit ∧ digit ≤ 0x39 then some (digit.toNat - 0x30)
  else if 0x61 ≤ digit ∧ digit ≤ 0x66 then some (digit.toNat - 0x61 + 10)
  else if 0x41 ≤ digit ∧ digit ≤ 0x46 then some (digit.toNat - 0x41 + 10)
  else none

/-- The `try_fold` over the digits; eight of them fit in 32 bits. -/
def hexValue (digits : List UInt8) : Option Nat :=
  digits.foldlM (fun value digit => (hexDigit digit).map fun digit => value <<< 4 ||| digit) 0

def isSurrogate (value : Nat) : Bool :=
  0xD800 ≤ value && value ≤ 0xDFFF

/-- One turn of the loop: how many bytes the cursor advances, and the value of a `u` or `U` escape. -/
def readUnit : List UInt8 → Nat × Option Nat
  | 0x5C :: escape :: rest =>
    if escape = 0x75 ∨ escape = 0x55 then
      let width := if escape = 0x75 then 4 else 8
      if rest.length < width then (2, none)
      else match hexValue (rest.take width) with
        | some value => (2 + width, some value)
        | none => (2, none)
    else if escape = 0x4E ∧ rest.head? = some 0x7B then
      -- a name ends with the brace, or with the literal
      let name := rest.tail.takeWhile (· != 0x7D)
      (3 + name.length + (if name.length < rest.tail.length then 1 else 0), none)
    else if escape = 0x0D ∧ rest.head? = some 0x0A then (3, none)
    else (2, none)
  | _ => (1, none)

theorem readUnit_pos (bytes : List UInt8) : 0 < (readUnit bytes).1 := by
  unfold readUnit
  grind

def scanEscapes (offset cursor : Nat) (bytes : List UInt8) : Except UnsupportedSurrogateEscape Unit :=
  if bytes = [] then .ok ()
  else
    let read := (readUnit bytes).1
    match (readUnit bytes).2.filter isSurrogate with
    | some value => .error ⟨⟨offset + cursor, offset + (cursor + read)⟩, value⟩
    | none => scanEscapes offset (cursor + read) (bytes.drop read)
termination_by bytes.length
decreasing_by
  have hpos := readUnit_pos bytes
  have hlen := length_pos_of_ne_nil (by assumption : bytes ≠ [])
  simp only [length_drop]
  omega

def validateEscapeUnits (contents : List UInt8) (offset : Nat) : Except UnsupportedSurrogateEscape Unit :=
  scanEscapes offset 0 contents

/-! ## What Python decodes -/

def octalDigit (digit : UInt8) : Bool :=
  0x30 ≤ digit && digit ≤ 0x37

def hexNumber (digits : List UInt8) : Option Nat :=
  (digits.mapM hexDigit).map fun ds => ds.foldl (fun v d => 16 * v + d) 0

/-- What Python accepts at the front of a literal as one unit, its length, and the number of a `u` or `U` escape. `isName` knows
the names of characters. A byte of a longer character is a unit of its own, and the part of an f-string before a brace may end
with a backslash. -/
inductive UnitAt (isName : List UInt8 → Bool) : List UInt8 → Nat → Option Nat → Prop where
  | plain {byte rest} : byte ≠ 0x5C → UnitAt isName (byte :: rest) 1 none
  | ending : UnitAt isName [0x5C] 1 none
  | short {rest v} : 4 ≤ rest.length → hexNumber (rest.take 4) = some v → UnitAt isName (0x5C :: 0x75 :: rest) 6 (some v)
  | long {rest v} : 8 ≤ rest.length → hexNumber (rest.take 8) = some v → v ≤ 0x10FFFF →
      UnitAt isName (0x5C :: 0x55 :: rest) 10 (some v)
  | byte {a b rest} : (hexDigit a).isSome → (hexDigit b).isSome → UnitAt isName (0x5C :: 0x78 :: a :: b :: rest) 4 none
  | octal {digit rest} : octalDigit digit →
      UnitAt isName (0x5C :: digit :: rest) (2 + ((rest.take 2).takeWhile octalDigit).length) none
  | name {name rest} : 0x7D ∉ name → isName name →
      UnitAt isName (0x5C :: 0x4E :: 0x7B :: (name ++ 0x7D :: rest)) (4 + name.length) none
  | crlf {rest} : UnitAt isName (0x5C :: 0x0D :: 0x0A :: rest) 3 none
  | single {escape rest} : escape ∉ [0x75, 0x55, 0x78, 0x4E] → octalDigit escape = false →
      (escape = 0x0D → rest.head? ≠ some 0x0A) → UnitAt isName (0x5C :: escape :: rest) 2 none

structure EscapeUnit where
  range : TextRange
  codePoint : Option Nat

def EscapeUnit.isSurrogate (u : EscapeUnit) : Bool :=
  u.codePoint.any Literals.isSurrogate

inductive Decodes (isName : List UInt8 → Bool) : Nat → List UInt8 → List EscapeUnit → Prop where
  | nil {i} : Decodes isName i [] []
  | cons {i bytes n v us} : UnitAt isName bytes n v → Decodes isName (i + n) (bytes.drop n) us →
      Decodes isName i bytes (⟨⟨i, i + n⟩, v⟩ :: us)

/-! ## The search is exact -/

variable {isName : List UInt8 → Bool} {offset cursor n : Nat} {bytes : List UInt8} {v : Option Nat} {us : List EscapeUnit}

theorem hexDigit_lt {digit : UInt8} {d : Nat} (h : hexDigit digit = some d) : d < 16 := by
  simp only [hexDigit, UInt8.le_iff_toNat_le, UInt8.reduceToNat] at h
  grind

theorem hexValue_eq (digits : List UInt8) : hexValue digits = hexNumber digits := by
  unfold hexValue hexNumber
  generalize 0 = acc
  induction digits generalizing acc with
  | nil => rfl
  | cons digit digits ih =>
    cases hd : hexDigit digit with
    | none => simp [hd]
    | some d =>
      have step : acc <<< 4 ||| d = 16 * acc + d := by
        rw [← Nat.shiftLeft_add_eq_or_of_lt (hexDigit_lt hd), Nat.shiftLeft_eq, Nat.mul_comm]
      cases hds : digits.mapM hexDigit <;> simp [hd, ih, step, hds]

theorem readUnit_plain {byte : UInt8} (h : byte ≠ 0x5C) (rest : List UInt8) : readUnit (byte :: rest) = (1, none) := by
  unfold readUnit
  grind

theorem scanEscapes_skip (hne : bytes ≠ []) (h : readUnit bytes = (n, v)) (hv : v.filter isSurrogate = none) :
    scanEscapes offset cursor bytes = scanEscapes offset (cursor + n) (bytes.drop n) := by
  rw [scanEscapes, if_neg hne]
  simp [h, hv]

theorem scanEscapes_plain (skipped rest : List UInt8) (h : ∀ b ∈ skipped, b ≠ 0x5C) :
    scanEscapes offset cursor (skipped ++ rest) = scanEscapes offset (cursor + skipped.length) rest := by
  induction skipped generalizing cursor with
  | nil => rfl
  | cons b skipped ih =>
    obtain ⟨hb, h⟩ := forall_mem_cons.mp h
    rw [cons_append, scanEscapes_skip (cons_ne_nil _ _) (readUnit_plain hb _) rfl, drop_one, tail_cons, ih h, length_cons,
      Nat.add_assoc, Nat.add_comm 1]

theorem hexDigit_ne {b : UInt8} (h : (hexDigit b).isSome) : b ≠ 0x5C := by
  rintro rfl
  contradiction

theorem UnitAt.ne_nil (h : UnitAt isName bytes n v) : bytes ≠ [] := by
  cases h <;> exact cons_ne_nil _ _

/-- The search stops inside a unit only where the rest of the unit is plain. -/
theorem UnitAt.readUnit_eq (h : UnitAt isName bytes n v) :
    readUnit bytes = (n, v) ∨ v = none ∧ readUnit bytes = (2, none) ∧ ∃ skipped rest, bytes.drop 2 = skipped ++ rest ∧
      n = 2 + skipped.length ∧ ∀ b ∈ skipped, b ≠ 0x5C := by
  cases h with
  | plain hb => exact .inl (readUnit_plain hb _)
  | ending => exact .inl rfl
  | short hl hv | long hl hv => exact .inl (by simp [readUnit, Nat.not_lt.mpr hl, hexValue_eq, hv])
  | @byte a b rest ha hb =>
    exact .inr ⟨rfl, rfl, [a, b], rest, rfl, rfl, by simp [hexDigit_ne ha, hexDigit_ne hb]⟩
  | @octal digit rest hd =>
    obtain ⟨rest', hrest⟩ := ( takeWhile_prefix octalDigit).trans ( take_prefix 2 rest)
    refine .inr ⟨rfl, by grind [readUnit, octalDigit], _, rest', hrest.symm, rfl, ?_⟩
    rintro _ hb rfl
    exact absurd (all_eq_true.mp all_takeWhile _ hb) (by decide)
  | @name name rest hn _ =>
    have hw : (name ++ 0x7D :: rest).takeWhile (· != 0x7D) = name := by
      rw [takeWhile_append_of_pos (by grind), takeWhile_cons_of_neg (by decide), append_nil]
    refine .inl ?_
    simp [readUnit, hw]
    omega
  | crlf => exact .inl rfl
  | single he hd hr => exact .inl (by grind [readUnit])

theorem scanEscapes_decodes (h : Decodes isName cursor bytes us) : scanEscapes offset cursor bytes =
    match us.find? (·.isSurrogate) with
    | some u => .error ⟨⟨offset + u.range.start, offset + u.range.stop⟩, u.codePoint.getD 0⟩
    | none => .ok () := by
  induction h with
  | nil => rw [scanEscapes, if_pos rfl, find?_nil]
  | @cons i bytes n v us hu _ ih =>
    obtain hr | ⟨rfl, hr, skipped, rest, hs, rfl, hp⟩ := hu.readUnit_eq
    · cases hv : v.filter isSurrogate with
      | some w =>
        obtain ⟨rfl, hw⟩ := Option.filter_eq_some_iff.mp hv
        rw [scanEscapes, if_neg hu.ne_nil]
        simp [hr, hv, hw, EscapeUnit.isSurrogate]
      | none =>
        rw [scanEscapes_skip hu.ne_nil hr hv, ih, find?_cons_of_neg]
        cases v <;> simp_all [EscapeUnit.isSurrogate, Option.filter]
    · rw [scanEscapes_skip hu.ne_nil hr rfl, hs, scanEscapes_plain _ _ hp, Nat.add_assoc]
      rw [← drop_drop, hs, drop_left] at ih
      exact ih

/-- The search fails exactly on a literal with a surrogate escape, and names the first one. -/
theorem validateEscapeUnits_exact {body : List UInt8} (h : Decodes isName 0 body us) (offset : Nat) :
    ((∃ e, validateEscapeUnits body offset = .error e) ↔ ∃ u ∈ us, u.isSurrogate) ∧
      ∀ e, validateEscapeUnits body offset = .error e ↔ ∃ u, us.find? (·.isSurrogate) = some u ∧
        u.codePoint = some e.codePoint ∧ e.range = ⟨offset + u.range.start, offset + u.range.stop⟩ := by
  rw [validateEscapeUnits, scanEscapes_decodes h]
  cases hf : us.find? (·.isSurrogate) with
  | none => simpa using hf
  | some u =>
    have hu : u.isSurrogate := find?_some hf
    obtain ⟨v, hv, -⟩ := (Option.any_eq_true _ _).mp hu
    refine ⟨⟨fun _ => ⟨u, mem_of_find?_eq_some hf, hu⟩, fun _ => ⟨_, rfl⟩⟩, fun ⟨range, w⟩ => ?_⟩
    simp [hv, and_comm, eq_comm]

/-- An escaped backslash and then `\ud800`. -/
theorem validateEscapeUnits_escapedBackslash :
    validateEscapeUnits [0x5C, 0x5C, 0x5C, 0x75, 0x64, 0x38, 0x30, 0x30] 1 = .error ⟨⟨3, 9⟩, 0xD800⟩ := by
  have h : Decodes (fun _ => false) 0 [0x5C, 0x5C, 0x5C, 0x75, 0x64, 0x38, 0x30, 0x30]
      [⟨⟨0, 2⟩, none⟩, ⟨⟨2, 8⟩, some 0xD800⟩] :=
    .cons (.single (by decide) (by decide) (by decide)) (.cons (.short (by decide) (by decide)) .nil)
  exact ((validateEscapeUnits_exact h 1).2 _).mpr ⟨_, rfl, rfl, rfl⟩

end Soac.Literals
