import Mathlib.Tactic.Common
import Mathlib.Algebra.Group.Nat.Defs

/-! Condition codes of the 32-bit arm. A comparison sets the four flags from a
subtraction (`CMP`) or an addition (`CMN`); a condition reads them back. The
lemmas say what each condition means right after a comparison, so a proof about
emitted code never has to look at the flags themselves. -/

namespace Goken.Lib.Arm

structure Flags where
  n : Bool
  z : Bool
  c : Bool
  v : Bool
  deriving DecidableEq, Repr

/-- Flags of `x - y`; the carry is set when there is no borrow. -/
def cmpFlags (x y : BitVec 32) : Flags where
  n := (x - y).msb
  z := x - y == 0#32
  c := y.toNat ≤ x.toNat
  v := x.toInt - y.toInt != (x - y).toInt

/-- Flags of `x + y`. -/
def cmnFlags (x y : BitVec 32) : Flags where
  n := (x + y).msb
  z := x + y == 0#32
  c := 2 ^ 32 ≤ x.toNat + y.toNat
  v := x.toInt + y.toInt != (x + y).toInt

inductive Cond where
  | EQ | NE | HS | LO | MI | PL | VS | VC | HI | LS | GE | LT | GT | LE
  deriving DecidableEq, Repr

def Cond.holds : Cond → Flags → Bool
  | EQ, f => f.z
  | NE, f => !f.z
  | HS, f => f.c
  | LO, f => !f.c
  | MI, f => f.n
  | PL, f => !f.n
  | VS, f => f.v
  | VC, f => !f.v
  | HI, f => f.c && !f.z
  | LS, f => !(f.c && !f.z)
  | GE, f => f.n == f.v
  | LT, f => !(f.n == f.v)
  | GT, f => !f.z && f.n == f.v
  | LE, f => !(!f.z && f.n == f.v)

/-- The condition with the opposite meaning. -/
def Cond.inv : Cond → Cond
  | EQ => NE | NE => EQ | HS => LO | LO => HS | MI => PL | PL => MI | VS => VC | VC => VS
  | HI => LS | LS => HI | GE => LT | LT => GE | GT => LE | LE => GT

theorem Cond.inv_holds (cond : Cond) (flags : Flags) : cond.inv.holds flags = !cond.holds flags := by
  cases cond <;> first | rfl | exact (Bool.not_not _).symm

private theorem sub_eq_zero_iff (x y : BitVec 32) : x - y = 0#32 ↔ x = y := by
  constructor
  · intro same
    bv_omega
  · rintro rfl
    exact BitVec.sub_self x

private theorem signed_ge (x y : BitVec 32) :
    ((x - y).msb == (x.toInt - y.toInt != (x - y).toInt)) = decide (y.toInt ≤ x.toInt) := by
  have low := BitVec.le_toInt x
  have high := BitVec.toInt_lt (x := x)
  have low' := BitVec.le_toInt y
  have high' := BitVec.toInt_lt (x := y)
  have wrap : (x - y).toInt = Int.bmod (x.toInt - y.toInt) (2 ^ 32) := by simp
  rw [BitVec.msb_eq_toInt, wrap, Int.bmod_def, Bool.eq_iff_iff]
  simp only [beq_iff_eq, decide_eq_true_eq]
  rw [Bool.eq_iff_iff]
  simp only [decide_eq_true_eq, bne_iff_ne, ne_eq]
  split <;> omega

@[simp] theorem eq_cmp (x y : BitVec 32) : Cond.EQ.holds (cmpFlags x y) = decide (x = y) := by
  change (x - y == 0#32) = _
  rw [Bool.eq_iff_iff]
  simp only [beq_iff_eq, decide_eq_true_eq]
  exact sub_eq_zero_iff x y

@[simp] theorem gt_cmp (x y : BitVec 32) : Cond.GT.holds (cmpFlags x y) = decide (y.toInt < x.toInt) := by
  have same : (x = y) ↔ (x.toInt = y.toInt) := ⟨fun h => h ▸ rfl, BitVec.eq_of_toInt_eq⟩
  have zero : (x - y == 0#32) = decide (x = y) := eq_cmp x y
  have sign : ((x - y).msb == (x.toInt - y.toInt != (x - y).toInt)) = decide (y.toInt ≤ x.toInt) := signed_ge x y
  change (!(x - y == 0#32) && (x - y).msb == (x.toInt - y.toInt != (x - y).toInt)) = _
  rw [zero, sign, Bool.eq_iff_iff]
  simp only [Bool.and_eq_true, Bool.not_eq_true', decide_eq_false_iff_not, decide_eq_true_eq, same]
  omega

@[simp] theorem hi_cmp (x y : BitVec 32) : Cond.HI.holds (cmpFlags x y) = decide (y.toNat < x.toNat) := by
  have same : (x = y) ↔ (x.toNat = y.toNat) := ⟨fun h => h ▸ rfl, BitVec.eq_of_toNat_eq⟩
  have zero : (x - y == 0#32) = decide (x = y) := eq_cmp x y
  change (decide (y.toNat ≤ x.toNat) && !(x - y == 0#32)) = _
  rw [zero, Bool.eq_iff_iff]
  simp only [Bool.and_eq_true, Bool.not_eq_true', decide_eq_false_iff_not, decide_eq_true_eq, same]
  omega

@[simp] theorem ls_cmp (x y : BitVec 32) : Cond.LS.holds (cmpFlags x y) = decide (x.toNat ≤ y.toNat) := by
  have opposite : Cond.LS.holds (cmpFlags x y) = !Cond.HI.holds (cmpFlags x y) := Cond.inv_holds .HI _
  rw [opposite, hi_cmp, Bool.eq_iff_iff]
  simp

/-- Comparing with a negative constant may add its negation instead, as long as
the negation exists and is not zero. -/
theorem cmn_neg (x : BitVec 32) {y : BitVec 32} (nonzero : y ≠ 0#32) (negates : y ≠ BitVec.intMin 32) :
    cmnFlags x (-y) = cmpFlags x y := by
  have sum : x + -y = x - y := (BitVec.sub_eq_add_neg x y).symm
  have opposite : (-y).toInt = -y.toInt := BitVec.toInt_neg_of_ne_intMin negates
  have natural : (-y).toNat = 2 ^ 32 - y.toNat := by
    have positive : 0 < y.toNat := by
      rcases Nat.eq_zero_or_pos y.toNat with zero | positive
      · exact absurd (BitVec.eq_of_toNat_eq (by simpa using zero)) nonzero
      · exact positive
    have small := y.isLt
    rw [BitVec.toNat_neg]
    exact Nat.mod_eq_of_lt (by omega)
  have small := y.isLt
  simp only [cmnFlags, cmpFlags, sum, opposite, natural, Flags.mk.injEq, true_and, decide_eq_decide,
    ← Int.sub_eq_add_neg, and_true]
  omega

end Goken.Lib.Arm
