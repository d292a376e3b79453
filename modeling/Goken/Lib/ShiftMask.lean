import Mathlib.Data.List.Basic
import Mathlib.Tactic.Common
import Mathlib.Tactic.Ring

/-! Shifts and masks of words. The mask comes from a word that may be wider, as it
is when a compiler keeps constants in larger integers than the target has. -/

namespace Goken.Lib.ShiftMask

variable {w v : Nat} (x : BitVec w) (m : BitVec v) {a b : Nat}

/-- Two shifts to the left around a mask. -/
theorem shl_and_shl : ((x <<< a) &&& m.setWidth w) <<< b = (x &&& (m >>> a).setWidth w) <<< (b + a) := by
  ext i bound
  simp only [BitVec.getElem_shiftLeft, BitVec.getElem_and, BitVec.getElem_setWidth, BitVec.getLsbD_ushiftRight]
  grind

/-- A mask whose high bits are clear does not see the sign that a shift brings in. -/
theorem sshr_and (clear : ∀ i, w - a ≤ i → m.getLsbD i = false) :
    x.sshiftRight a &&& m.setWidth w = (x >>> a) &&& m.setWidth w := by
  ext i bound
  simp only [BitVec.getElem_and, BitVec.getElem_sshiftRight, BitVec.getElem_ushiftRight, BitVec.getElem_setWidth]
  grind

/-- A masked word without a sign is shifted the same way by both right shifts. -/
theorem and_sshr (y : BitVec w) (clear : y.getLsbD (w - 1) = false ∨ m.getLsbD (w - 1) = false) :
    (y &&& m.setWidth w).sshiftRight b = (y &&& m.setWidth w) >>> b := by
  apply BitVec.sshiftRight_eq_of_msb_false
  rw [BitVec.msb_eq_getLsbD_last, BitVec.getLsbD_and, BitVec.getLsbD_setWidth]
  rcases clear with clear | clear <;> simp [clear]

section Wider

variable (wider : w ≤ v)
include wider

theorem shr_and_shl_of_lt (less : a < b) : ((x >>> a) &&& m.setWidth w) <<< b = (x &&& (m <<< a).setWidth w) <<< (b - a) := by
  ext i bound
  simp only [BitVec.getElem_shiftLeft, BitVec.getElem_and, BitVec.getElem_setWidth, BitVec.getLsbD_shiftLeft, BitVec.getElem_ushiftRight]
  grind

theorem shr_and_shl_self : ((x >>> a) &&& m.setWidth w) <<< a = x &&& (m <<< a).setWidth w := by
  ext i bound
  simp only [BitVec.getElem_shiftLeft, BitVec.getElem_and, BitVec.getElem_setWidth, BitVec.getLsbD_shiftLeft, BitVec.getElem_ushiftRight]
  grind

theorem shr_and_shl_of_gt (more : b < a) : ((x >>> a) &&& m.setWidth w) <<< b = (x >>> (a - b)) &&& (m <<< b).setWidth w := by
  ext i bound
  simp only [BitVec.getElem_shiftLeft, BitVec.getElem_and, BitVec.getElem_setWidth, BitVec.getLsbD_shiftLeft, BitVec.getElem_ushiftRight]
  grind

theorem shr_and_shr : ((x >>> a) &&& m.setWidth w) >>> b = (x &&& (m <<< a).setWidth w) >>> (b + a) := by
  ext i bound
  simp only [BitVec.getElem_ushiftRight, BitVec.getLsbD_and, BitVec.getLsbD_setWidth, BitVec.getLsbD_shiftLeft, BitVec.getLsbD_ushiftRight]
  grind

end Wider

/-- A shift to the left, a mask and a shift to the right, in the wider word. -/
def wide (x : BitVec w) (m : BitVec v) (a b : Nat) : BitVec w := (((x.setWidth v <<< a) &&& m) >>> b).setWidth w

section Wide

variable (wider : w ≤ v)
include wider

theorem and_wide : x &&& (m >>> a).setWidth w = wide x m a a := by
  ext i bound
  simp only [wide, BitVec.getElem_and, BitVec.getElem_setWidth, BitVec.getLsbD_ushiftRight, BitVec.getLsbD_and, BitVec.getLsbD_shiftLeft,
    BitVec.getLsbD_setWidth]
  grind

omit wider in
theorem shr_and_wide (less : a < b) : (x >>> (b - a)) &&& (m >>> b).setWidth w = wide x m a b := by
  ext i bound
  simp only [wide, BitVec.getElem_and, BitVec.getElem_setWidth, BitVec.getElem_ushiftRight, BitVec.getLsbD_ushiftRight,
    BitVec.getLsbD_and, BitVec.getLsbD_shiftLeft, BitVec.getLsbD_setWidth]
  grind

theorem shl_and_wide (more : b < a) : (x <<< (a - b)) &&& (m >>> b).setWidth w = wide x m a b := by
  ext i bound
  simp only [wide, BitVec.getElem_and, BitVec.getElem_setWidth, BitVec.getElem_shiftLeft, BitVec.getLsbD_ushiftRight,
    BitVec.getLsbD_and, BitVec.getLsbD_shiftLeft, BitVec.getLsbD_setWidth]
  grind

theorem shl_setWidth : x <<< a = (x.setWidth v <<< a).setWidth w := by
  ext i bound
  simp only [BitVec.getElem_shiftLeft, BitVec.getElem_setWidth, BitVec.getLsbD_shiftLeft, BitVec.getLsbD_setWidth]
  grind

end Wide

/-- The bits above a cut that a shift to the right brings back. -/
theorem div_mod_parts (y : Nat) (inside : b ≤ w) :
    y / 2 ^ b % 2 ^ w = y / 2 ^ w % 2 ^ b * 2 ^ (w - b) + y % 2 ^ w / 2 ^ b := by
  have power : 2 ^ w = 2 ^ b * 2 ^ (w - b) := by rw [← Nat.pow_add, Nat.add_sub_cancel' inside]
  have low : y % 2 ^ w / 2 ^ b < 2 ^ (w - b) := by
    rw [Nat.div_lt_iff_lt_mul (Nat.two_pow_pos b), Nat.mul_comm, ← power]
    exact Nat.mod_lt _ (Nat.two_pow_pos w)
  have parts : y / 2 ^ b = 2 ^ (w - b) * (y / 2 ^ w) + y % 2 ^ w / 2 ^ b := by
    conv_lhs => rw [← Nat.div_add_mod y (2 ^ w), power, Nat.mul_assoc, Nat.mul_add_div (Nat.two_pow_pos b), ← power]
  have small : y / 2 ^ w % 2 ^ b * 2 ^ (w - b) + y % 2 ^ w / 2 ^ b < 2 ^ w := by
    have bound : (y / 2 ^ w % 2 ^ b + 1) * 2 ^ (w - b) ≤ 2 ^ b * 2 ^ (w - b) :=
      Nat.mul_le_mul_right _ (Nat.mod_lt _ (Nat.two_pow_pos b))
    rw [Nat.add_mul, Nat.one_mul, ← power] at bound
    omega
  have product (q : Nat) : 2 ^ (w - b) * q = q % 2 ^ b * 2 ^ (w - b) + 2 ^ w * (q / 2 ^ b) := by
    calc 2 ^ (w - b) * q = 2 ^ (w - b) * (2 ^ b * (q / 2 ^ b) + q % 2 ^ b) := by rw [Nat.div_add_mod]
      _ = q % 2 ^ b * 2 ^ (w - b) + 2 ^ w * (q / 2 ^ b) := by
        rw [power]
        ring
  calc y / 2 ^ b % 2 ^ w = (y / 2 ^ w % 2 ^ b * 2 ^ (w - b) + y % 2 ^ w / 2 ^ b + 2 ^ w * (y / 2 ^ w / 2 ^ b)) % 2 ^ w := by
        rw [parts, product, Nat.add_right_comm]
    _ = (y / 2 ^ w % 2 ^ b * 2 ^ (w - b) + y % 2 ^ w / 2 ^ b) % 2 ^ w := Nat.add_mul_mod_self_left _ _ _
    _ = y / 2 ^ w % 2 ^ b * 2 ^ (w - b) + y % 2 ^ w / 2 ^ b := Nat.mod_eq_of_lt small

/-- Cutting a word and shifting it to the right commute when no bit comes back in. -/
theorem setWidth_shr_iff (y : BitVec v) (inside : b ≤ w) :
    (y >>> b).setWidth w = y.setWidth w >>> b ↔ (y >>> w).toNat % 2 ^ b = 0 := by
  rw [← BitVec.toNat_inj]
  simp only [BitVec.toNat_setWidth, BitVec.toNat_ushiftRight, Nat.shiftRight_eq_div_pow]
  rw [div_mod_parts y.toNat inside]
  have positive := Nat.two_pow_pos (w - b)
  constructor
  · intro same
    have zero : y.toNat / 2 ^ w % 2 ^ b * 2 ^ (w - b) = 0 := by omega
    exact (Nat.mul_eq_zero.mp zero).resolve_right (by omega)
  · intro zero
    rw [zero, Nat.zero_mul, Nat.zero_add]

end Goken.Lib.ShiftMask
