import Mathlib.Algebra.Order.Group.Int
import Mathlib.Tactic.Common

/-! Division that truncates toward zero, computed on magnitudes: the quotient's
sign is that of the operands together, the remainder's that of the dividend. -/

namespace Goken.Lib.Truncate

/-- A sign put on a magnitude. -/
def withSign (negative : Bool) (magnitude : Nat) : Int := if negative then -(magnitude : Int) else magnitude

theorem withSign_natAbs (n : Int) : withSign (n < 0) n.natAbs = n := by
  by_cases negative : n < 0
  · simp only [withSign, negative, decide_true, if_true]
    omega
  · simp only [withSign, negative, decide_false, Bool.false_eq_true, if_false]
    omega

theorem tdiv_withSign (n d : Nat) (s t : Bool) : (withSign s n).tdiv (withSign t d) = withSign (s != t) (n / d) := by
  cases s <;> cases t <;> simp [withSign]

theorem tmod_withSign (n d : Nat) (s t : Bool) : (withSign s n).tmod (withSign t d) = withSign s (n % d) := by
  cases s <;> cases t <;> simp [withSign, Int.tmod_eq_emod_of_nonneg]

theorem tdiv_eq (n d : Int) : n.tdiv d = withSign (decide (n < 0) != decide (d < 0)) (n.natAbs / d.natAbs) := by
  rw [← tdiv_withSign, withSign_natAbs, withSign_natAbs]

theorem tmod_eq (n d : Int) : n.tmod d = withSign (n < 0) (n.natAbs % d.natAbs) := by
  rw [← tmod_withSign n.natAbs d.natAbs (n < 0) (d < 0), withSign_natAbs, withSign_natAbs]

/-- The dividend's distance from the multiple toward zero, before a division that
rounds down. -/
def bias (n d : Int) : Int := if n < 0 then d - 1 else 0

theorem tdiv_eq_bias (n : Int) {d : Int} (positive : 0 < d) : n.tdiv d = (n + bias n d) / d := by
  unfold bias
  split
  next negative =>
    have split := Int.mul_ediv_add_emod n d
    have least := Int.emod_nonneg n (by omega : d ≠ 0)
    have most := Int.emod_lt_of_pos n positive
    rw [Int.tdiv_eq_ediv, Int.sign_eq_one_of_pos positive]
    symm
    by_cases whole : d ∣ n
    · have none := Int.emod_eq_zero_of_dvd whole
      rw [if_pos (.inr whole), Int.add_zero]
      exact ((Int.ediv_emod_unique positive (r := d - 1)).mpr ⟨by omega, by omega, by omega⟩).1
    · have some : n % d ≠ 0 := fun zero => whole (Int.dvd_of_emod_eq_zero zero)
      rw [if_neg (by omega)]
      refine ((Int.ediv_emod_unique positive (r := n % d - 1)).mpr ⟨?_, by omega, by omega⟩).1
      rw [Int.mul_add]
      omega
  next =>
    rw [Int.add_zero, Int.tdiv_eq_ediv_of_nonneg (by omega)]

theorem tmod_eq_bias (n : Int) {d : Int} (positive : 0 < d) : n.tmod d = (n + bias n d) % d - bias n d := by
  have quotient := tdiv_eq_bias n positive
  rw [Int.tmod_def, quotient, Int.emod_def]
  omega

end Goken.Lib.Truncate
