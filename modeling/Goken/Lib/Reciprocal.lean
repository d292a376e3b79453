import Mathlib.Algebra.Order.Group.Int
import Mathlib.Tactic.Linarith
import Mathlib.Tactic.Ring

/-! Division by an invariant divisor as a multiplication. A multiplier that lies
a little above a power of two over the divisor gives the quotient of every
dividend of limited size, as the high part of one product. -/

namespace Goken.Lib.Reciprocal

variable {m d N p : Nat}

/-- `m` over `2 ^ N` is above one over `d`, by at most one part in `2 ^ p`. -/
structure Approximates (m d N p : Nat) : Prop where
  wide : p ≤ N
  above : 2 ^ N < m * d
  near : m * d ≤ 2 ^ N + 2 ^ (N - p)

/-- The product in terms of the quotient: `excess` is below `2 ^ N`, or reaches
it only for the dividend `2 ^ p`. -/
theorem Approximates.product (approximates : Approximates m d N p) {n : Nat} (bound : n ≤ 2 ^ p) :
    ∃ excess, m * n = n / d * 2 ^ N + excess ∧ excess ≤ 2 ^ N ∧ (0 < n → 0 < excess) ∧ (n < 2 ^ p → excess < 2 ^ N) := by
  obtain ⟨e, value⟩ := Nat.exists_eq_add_of_lt approximates.above
  have positive : 0 < d := by
    rcases Nat.eq_zero_or_pos d with zero | positive
    · have := approximates.above
      simp [zero] at this
    · exact positive
  have split := Nat.div_add_mod n d
  have rest := Nat.mod_lt n positive
  have power : 2 ^ (N - p) * 2 ^ p = 2 ^ N := by rw [← Nat.pow_add, Nat.sub_add_cancel approximates.wide]
  have small : e + 1 ≤ 2 ^ (N - p) := by
    have := approximates.near
    omega
  -- the excess over the quotient's share, and `d` times it
  have whole : (n / d * (e + 1) + m * (n % d)) * d = (e + 1) * n + n % d * 2 ^ N := by
    calc (n / d * (e + 1) + m * (n % d)) * d = n / d * (e + 1) * d + m * d * (n % d) := by ring
      _ = n / d * (e + 1) * d + (2 ^ N + (e + 1)) * (n % d) := by rw [value]; ring
      _ = (e + 1) * (d * (n / d) + n % d) + n % d * 2 ^ N := by ring
      _ = (e + 1) * n + n % d * 2 ^ N := by rw [split]
  have limit : (e + 1) * n ≤ 2 ^ N := power ▸ Nat.mul_le_mul small bound
  have others : (n % d + 1) * 2 ^ N ≤ d * 2 ^ N := Nat.mul_le_mul_right _ rest
  refine ⟨n / d * (e + 1) + m * (n % d), ?_, ?_, ?_, ?_⟩
  · calc m * n = m * (d * (n / d) + n % d) := by rw [split]
      _ = m * d * (n / d) + m * (n % d) := by ring
      _ = n / d * 2 ^ N + (n / d * (e + 1) + m * (n % d)) := by rw [value]; ring
  · apply Nat.le_of_mul_le_mul_right _ positive
    rw [whole]
    linarith
  · intro some
    apply Nat.pos_of_ne_zero
    intro none
    rw [none, Nat.zero_mul] at whole
    have : 0 < (e + 1) * n := Nat.mul_pos (Nat.succ_pos e) some
    omega
  · intro less
    have : (e + 1) * n < 2 ^ N := power ▸ Nat.mul_lt_mul_of_le_of_lt small less (Nat.two_pow_pos _)
    apply Nat.lt_of_mul_lt_mul_right (a := d)
    rw [whole]
    linarith

/-- The quotient is the high part of the product. -/
theorem Approximates.div_eq (approximates : Approximates m d N p) {n : Nat} (less : n < 2 ^ p) : m * n / 2 ^ N = n / d := by
  obtain ⟨excess, product, _, _, small⟩ := approximates.product (Nat.le_of_lt less)
  rw [product, Nat.mul_comm, Nat.mul_add_div (Nat.two_pow_pos N), Nat.div_eq_of_lt (small less), Nat.add_zero]

/-- For a negative dividend the high part is one below the quotient toward zero. -/
theorem Approximates.neg_div_eq (approximates : Approximates m d N p) {n : Nat} (positive : 0 < n) (bound : n ≤ 2 ^ p) :
    (m * -(n : Int)) / 2 ^ N = -(n / d : Nat) - 1 := by
  obtain ⟨excess, product, most, least, _⟩ := approximates.product bound
  have some := least positive
  have cast : (m * n : Int) = (n / d : Nat) * 2 ^ N + excess := by exact_mod_cast product
  have bounded : (excess : Int) ≤ 2 ^ N := by exact_mod_cast most
  have unique := (Int.ediv_emod_unique (Int.pow_pos (by decide) : (0 : Int) < 2 ^ N)
    (a := m * -(n : Int)) (q := -(n / d : Nat) - 1) (r := 2 ^ N - excess)).mpr
  refine (unique ⟨?_, by omega, by omega⟩).1
  linarith

/-- The quotient toward zero: the high part, and one more for a negative dividend. -/
theorem Approximates.tdiv_eq (approximates : Approximates m d N p) {n : Int} (low : -2 ^ p ≤ n) (high : n < 2 ^ p) :
    m * n / 2 ^ N + (if n < 0 then 1 else 0) = n.tdiv d := by
  have power : ((2 ^ p : Nat) : Int) = 2 ^ p := by push_cast; rfl
  rcases Int.lt_or_le n 0 with negative | positive
  · obtain ⟨a, rfl⟩ : ∃ a : Nat, n = -a := ⟨n.natAbs, by omega⟩
    have result := approximates.neg_div_eq (by omega : 0 < a) (by omega)
    rw [if_pos negative, result, Int.neg_tdiv, ← Int.ofNat_tdiv]
    omega
  · obtain ⟨a, rfl⟩ : ∃ a : Nat, n = a := ⟨n.toNat, by omega⟩
    have result := approximates.div_eq (by omega : a < 2 ^ p)
    rw [if_neg (by omega), Int.add_zero, ← Int.ofNat_tdiv, ← result]
    push_cast
    rfl

end Goken.Lib.Reciprocal
