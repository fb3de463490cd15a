import Mathlib.Data.List.Basic
import Mathlib.Algebra.GroupWithZero.Nat

/-!
# Byte buffers

Little-endian numbers of a fixed width, slices, writes into a buffer at an offset and sizes rounded up to an alignment.
-/

namespace Soac.Bytes

open List

/-- The `width` low bytes of `n`, the lowest first. -/
def leBytes : Nat → Nat → List UInt8
  | 0, _ => []
  | width + 1, n => UInt8.ofNat n :: leBytes width (n / 256)

/-- The number whose bytes are `bytes`, the lowest first. -/
def fromLe : List UInt8 → Nat
  | [] => 0
  | b :: bytes => b.toNat + 256 * fromLe bytes

@[simp]
theorem leBytes_length (width n : Nat) : (leBytes width n).length = width := by
  induction width generalizing n with
  | zero => rfl
  | succ width ih => rw [leBytes, length_cons, ih]

theorem fromLe_leBytes {width n : Nat} (h : n < 256 ^ width) : fromLe (leBytes width n) = n := by
  induction width generalizing n with
  | zero =>
    rw [Nat.pow_zero, Nat.lt_one_iff] at h
    rw [h]
    rfl
  | succ width ih =>
    have hdiv : n / 256 < 256 ^ width := by omega
    rw [leBytes, fromLe, ih hdiv, UInt8.toNat_ofNat']
    omega

/-- The bytes from `start` up to `stop`, if they are all there. -/
def slice (buffer : List UInt8) (start stop : Nat) : Option (List UInt8) :=
  if start ≤ stop ∧ stop ≤ buffer.length then some ((buffer.drop start).take (stop - start)) else none

/-- The slice that the buffer starts with. -/
theorem slice_front {mid post : List UInt8} {stop : Nat} (h : mid.length = stop) :
    slice (mid ++ post) 0 stop = some mid := by
  have hbounds : 0 ≤ stop ∧ stop ≤ (mid ++ post).length := by
    rw [length_append]
    omega
  rw [slice, if_pos hbounds, drop_zero, Nat.sub_zero, take_left' h]

/-- A slice past the first part of a buffer. -/
theorem slice_append_right {pre post : List UInt8} {start stop : Nat} (hp : pre.length ≤ start) (hs : start ≤ stop) :
    slice (pre ++ post) start stop = slice post (start - pre.length) (stop - pre.length) := by
  have hiff : (start ≤ stop ∧ stop ≤ (pre ++ post).length) ↔
      (start - pre.length ≤ stop - pre.length ∧ stop - pre.length ≤ post.length) := by
    rw [length_append]
    omega
  have hwidth : stop - pre.length - (start - pre.length) = stop - start := by omega
  simp only [slice, hiff, hwidth, drop_append, drop_eq_nil_of_le hp, nil_append]

/-- The buffer with `data` in place of what stood at the offset. -/
def writeAt (buffer : List UInt8) (offset : Nat) (data : List UInt8) : List UInt8 :=
  buffer.take offset ++ (data ++ buffer.drop (offset + data.length))

/-- A write over the part the buffer starts with. -/
theorem writeAt_front {mid post data : List UInt8} (h : data.length = mid.length) :
    writeAt (mid ++ post) 0 data = data ++ post := by
  rw [writeAt, take_zero, nil_append, Nat.zero_add, drop_left' h.symm]

/-- A write past the first part of a buffer. -/
theorem writeAt_append_right {pre post data : List UInt8} {offset : Nat} (h : pre.length ≤ offset) :
    writeAt (pre ++ post) offset data = pre ++ writeAt post (offset - pre.length) data := by
  have hdrop : offset + data.length - pre.length = offset - pre.length + data.length := by omega
  have hpre : pre.length ≤ offset + data.length := by omega
  rw [writeAt, writeAt, take_append, take_of_length_le h, drop_append, drop_eq_nil_of_le hpre,
    nil_append, hdrop, append_assoc]

/-- The next multiple of the alignment. -/
def alignUp (offset align : Nat) : Nat :=
  if offset % align = 0 then offset else offset + (align - offset % align)

theorem le_alignUp (offset align : Nat) : offset ≤ alignUp offset align := by
  rw [alignUp]
  split <;> omega

theorem alignUp_lt {align : Nat} (h : 0 < align) (offset : Nat) : alignUp offset align < offset + align := by
  rw [alignUp]
  split <;> omega

theorem alignUp_mod {align : Nat} (h : 0 < align) (offset : Nat) : alignUp offset align % align = 0 := by
  rw [alignUp]
  split
  · assumption
  · have hlt : offset % align < align := Nat.mod_lt _ h
    have hsum : offset + (align - offset % align) = align * (offset / align + 1) := by
      have hdiv := Nat.div_add_mod offset align
      rw [Nat.mul_add]
      omega
    rw [hsum, Nat.mul_mod_right]

end Soac.Bytes
