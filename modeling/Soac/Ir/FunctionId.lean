import Mathlib.Data.Nat.Bitwise

/-!
# Packed function ids

A function id at run time is one 64-bit number: the id of its module in the high half, its number within the module in the
low half. The largest number stands for the functions of no module.
-/

namespace Soac

/-- A function id as the run time packs it. -/
structure PackedFunctionId where
  packed : UInt64
deriving DecidableEq, Repr

namespace PackedFunctionId

/-- The id of the functions that belong to no module. -/
def global : PackedFunctionId := ⟨UInt64.ofNat (2 ^ 64 - 1)⟩

def new (moduleId functionId : UInt32) : PackedFunctionId :=
  ⟨(moduleId.toUInt64 <<< 32) ||| functionId.toUInt64⟩

def moduleId (id : PackedFunctionId) : UInt32 :=
  (id.packed >>> 32).toUInt32

def localFunctionId (id : PackedFunctionId) : UInt32 :=
  id.packed.toUInt32

theorem new_toNat (moduleId functionId : UInt32) :
    (new moduleId functionId).packed.toNat = moduleId.toNat * 2 ^ 32 + functionId.toNat := by
  have hm := moduleId.toNat_lt
  have hf := functionId.toNat_lt
  have hshift : moduleId.toNat <<< 32 % 2 ^ 64 = moduleId.toNat <<< 32 := by
    omega
  simp only [new, UInt64.toNat_or, UInt64.toNat_shiftLeft, UInt32.toNat_toUInt64]
  rw [show (32 : UInt64).toNat % 64 = 32 from rfl, hshift, ← Nat.shiftLeft_add_eq_or_of_lt (by omega), Nat.shiftLeft_eq]

@[simp]
theorem new_moduleId (moduleId functionId : UInt32) : (new moduleId functionId).moduleId = moduleId := by
  apply UInt32.toNat_inj.mp
  have hm := moduleId.toNat_lt
  have hf := functionId.toNat_lt
  have h := new_toNat moduleId functionId
  rw [PackedFunctionId.moduleId, UInt64.toNat_toUInt32, UInt64.toNat_shiftRight, show (32 : UInt64).toNat % 64 = 32 from rfl,
    Nat.shiftRight_eq_div_pow, h]
  omega

@[simp]
theorem new_localFunctionId (moduleId functionId : UInt32) :
    (new moduleId functionId).localFunctionId = functionId := by
  apply UInt32.toNat_inj.mp
  have hf := functionId.toNat_lt
  rw [PackedFunctionId.localFunctionId, UInt64.toNat_toUInt32, new_toNat]
  omega

end PackedFunctionId

end Soac
