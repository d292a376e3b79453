import Mathlib.Tactic.Common
import Mathlib.Algebra.Group.Nat.Defs

/-! Words held in wider ones, with or without a sign. An operation on the wider words
that is cut to the narrow width is the operation on the narrow words: always for those
that work from the low bits up, and for the others when the operands were extended
the way the operation reads them. -/

namespace Goken.Lib.Words

variable {w v : Nat}

/-- A word in a wider one. -/
def extend (unsigned : Bool) (v : Nat) (x : BitVec w) : BitVec v := if unsigned then x.setWidth v else x.signExtend v

section

variable (inside : w ≤ v)
include inside

theorem setWidth_extend (unsigned : Bool) (x : BitVec w) : (extend unsigned v x).setWidth w = x := by
  cases unsigned
  · simp only [extend, Bool.false_eq_true, ↓reduceIte]
    ext i bound
    simp only [BitVec.getElem_setWidth, BitVec.getLsbD_signExtend]
    grind
  · simp only [extend, ↓reduceIte]
    exact BitVec.setWidth_setWidth_of_le x inside |>.trans (BitVec.setWidth_eq x)

theorem extend_inj (unsigned : Bool) {x y : BitVec w} : extend unsigned v x = extend unsigned v y ↔ x = y := by
  constructor
  · intro same
    rw [← setWidth_extend inside unsigned x, same, setWidth_extend inside unsigned y]
  · rintro rfl
    rfl

theorem extend_zero (unsigned : Bool) : extend unsigned v (0 : BitVec w) = 0 := by
  cases unsigned
  · apply BitVec.eq_of_toInt_eq
    rw [extend, if_neg (by decide), BitVec.toInt_signExtend_of_le inside]
    exact BitVec.toInt_zero.trans BitVec.toInt_zero.symm
  · simp [extend]

theorem setWidth_neg (x : BitVec v) : (-x).setWidth w = -x.setWidth w := by
  have one : (1 : BitVec v).setWidth w = 1 := by
    apply BitVec.eq_of_toNat_eq
    simp only [BitVec.toNat_setWidth, BitVec.ofNat_eq_ofNat, BitVec.toNat_ofNat]
    exact Nat.mod_mod_of_dvd 1 (Nat.pow_dvd_pow 2 inside)
  have complement (u : Nat) (y : BitVec u) : -y = ~~~ y + 1 := BitVec.neg_eq_not_add y
  rw [complement, complement, BitVec.setWidth_add _ _ inside, BitVec.setWidth_not inside, one]

theorem setWidth_sub (x y : BitVec v) : (x - y).setWidth w = x.setWidth w - y.setWidth w := by
  rw [BitVec.sub_eq_add_neg, BitVec.setWidth_add _ _ inside, setWidth_neg inside, BitVec.sub_eq_add_neg]

theorem setWidth_shl (x : BitVec v) (k : Nat) : (x <<< k).setWidth w = x.setWidth w <<< k := by
  ext i bound
  simp only [BitVec.getElem_setWidth, BitVec.getLsbD_shiftLeft, BitVec.getElem_shiftLeft]
  grind

theorem setWidth_shr (x : BitVec w) (k : Nat) : (x.setWidth v >>> k).setWidth w = x >>> k := by
  ext i bound
  simp only [BitVec.getElem_setWidth, BitVec.getLsbD_ushiftRight, BitVec.getElem_ushiftRight, BitVec.getLsbD_setWidth]
  grind

theorem setWidth_sshr (x : BitVec w) (k : Nat) : ((x.signExtend v).sshiftRight k).setWidth w = x.sshiftRight k := by
  ext i bound
  simp only [BitVec.getElem_setWidth, BitVec.getLsbD_sshiftRight, BitVec.getElem_sshiftRight, BitVec.getLsbD_signExtend,
    BitVec.msb_signExtend]
  grind

theorem toNat_widen (x : BitVec w) : (x.setWidth v).toNat = x.toNat := by
  rw [BitVec.toNat_setWidth]
  exact Nat.mod_eq_of_lt (Nat.lt_of_lt_of_le x.isLt (Nat.pow_le_pow_right (by decide) inside))

theorem toInt_cut (x : BitVec v) : (x.setWidth w).toInt = x.toInt.bmod (2 ^ w) := by
  rw [BitVec.toInt_setWidth, BitVec.toInt_eq_toNat_bmod, Int.bmod_bmod_of_dvd (Nat.pow_dvd_pow 2 inside)]

theorem setWidth_udiv (x y : BitVec w) : (x.setWidth v / y.setWidth v).setWidth w = x / y := by
  apply BitVec.eq_of_toNat_eq
  rw [BitVec.toNat_setWidth, BitVec.toNat_udiv, toNat_widen inside, toNat_widen inside, ← BitVec.toNat_udiv]
  exact Nat.mod_eq_of_lt (x / y).isLt

theorem setWidth_umod (x y : BitVec w) : (x.setWidth v % y.setWidth v).setWidth w = x % y := by
  apply BitVec.eq_of_toNat_eq
  rw [BitVec.toNat_setWidth, BitVec.toNat_umod, toNat_widen inside, toNat_widen inside, ← BitVec.toNat_umod]
  exact Nat.mod_eq_of_lt (x % y).isLt

theorem setWidth_sdiv (x y : BitVec w) : ((x.signExtend v).sdiv (y.signExtend v)).setWidth w = x.sdiv y := by
  apply BitVec.eq_of_toInt_eq
  rw [toInt_cut inside, BitVec.toInt_sdiv, BitVec.toInt_sdiv, BitVec.toInt_signExtend_of_le inside,
    BitVec.toInt_signExtend_of_le inside, Int.bmod_bmod_of_dvd (Nat.pow_dvd_pow 2 inside)]

theorem setWidth_srem (x y : BitVec w) : ((x.signExtend v).srem (y.signExtend v)).setWidth w = x.srem y := by
  apply BitVec.eq_of_toInt_eq
  rw [toInt_cut inside, BitVec.toInt_srem, BitVec.toInt_signExtend_of_le inside, BitVec.toInt_signExtend_of_le inside,
    ← BitVec.toInt_srem, BitVec.toInt_bmod_cancel]

theorem slt_signExtend (x y : BitVec w) : (x.signExtend v).slt (y.signExtend v) = x.slt y := by
  rw [BitVec.slt, BitVec.slt, BitVec.toInt_signExtend_of_le inside, BitVec.toInt_signExtend_of_le inside]

theorem sle_signExtend (x y : BitVec w) : (x.signExtend v).sle (y.signExtend v) = x.sle y := by
  rw [BitVec.sle, BitVec.sle, BitVec.toInt_signExtend_of_le inside, BitVec.toInt_signExtend_of_le inside]

theorem ult_setWidth (x y : BitVec w) : (x.setWidth v).ult (y.setWidth v) = x.ult y := by
  rw [BitVec.ult, BitVec.ult, toNat_widen inside, toNat_widen inside]

theorem ule_setWidth (x y : BitVec w) : (x.setWidth v).ule (y.setWidth v) = x.ule y := by
  rw [BitVec.ule, BitVec.ule, toNat_widen inside, toNat_widen inside]

end

end Goken.Lib.Words
