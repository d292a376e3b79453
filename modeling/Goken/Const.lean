import Mathlib.Algebra.Order.Group.Int
import Mathlib.Tactic.Common
import Mathlib.Algebra.Group.Nat.Defs

/-! Bit positions in constants (libcc/sub.c): `log2` and `topbit` on the host's
unsigned integers of 64 bits. -/

namespace Goken.Const

/-- The loop of `log2`: `m` is narrowed by each count, and low bits that are all
zero are shifted out and counted. -/
def stripZeros : List Nat → Nat → Nat → Nat → Nat × Nat
  | [], _, v, s => (v, s)
  | i :: rest, m, v, s =>
    let m := m >>> i
    if v &&& m = 0 then stripZeros rest m (v >>> i) (s + i) else stripZeros rest m v s

/-- The exponent of a power of two, -1 for any other number. -/
def log2 (v : Nat) : Int :=
  let (v, s) := stripZeros [32, 16, 8, 4, 2, 1] (2 ^ 64 - 1) v 0
  if v = 1 then s else -1

/-- The position of the highest bit, -1 for zero. -/
def topbit (v : Nat) : Int := if v = 0 then -1 else topbit (v / 2) + 1

/-- The halvings of a count: 2^k down to 1. -/
def counts : Nat → List Nat
  | 0 => [1]
  | k + 1 => 2 ^ (k + 1) :: counts k

theorem mask_shiftRight (a b : Nat) : (2 ^ (a + b) - 1) >>> a = 2 ^ b - 1 := by
  have := Nat.two_pow_pos a
  rw [Nat.shiftRight_eq_div_pow, Nat.pow_add]
  apply Nat.div_eq_of_lt_le
  · rw [Nat.sub_mul, Nat.mul_comm]
    omega
  · rw [Nat.sub_add_cancel (Nat.two_pow_pos b), Nat.mul_comm]
    exact Nat.sub_lt (Nat.mul_pos (Nat.two_pow_pos b) this) Nat.one_pos

/-- The zeros that are stripped are low zeros, and if one of the bits looked at
is set they are all of them. -/
theorem stripZeros_counts (k v s : Nat) : ∃ z, stripZeros (counts k) (2 ^ 2 ^ (k + 1) - 1) v s = (v / 2 ^ z, s + z) ∧
    2 ^ z ∣ v ∧ z < 2 ^ (k + 1) ∧ (¬ 2 ^ 2 ^ (k + 1) ∣ v → ¬ 2 ∣ v / 2 ^ z) := by
  induction k generalizing v s with
  | zero =>
    simp only [counts, stripZeros]
    by_cases even : v % 2 = 0
    · refine ⟨1, ?_, Nat.dvd_of_mod_eq_zero (by simpa using even), by decide, ?_⟩
      · simp [even, Nat.shiftRight_eq_div_pow]
      · simp
        omega
    · refine ⟨0, ?_, by simp, by decide, ?_⟩
      · simp [even]
      · simp
        omega
  | succ k ih =>
    have twice : 2 ^ (k + 2) = 2 ^ (k + 1) + 2 ^ (k + 1) := by
      rw [Nat.pow_succ 2 (k + 1)]
      omega
    simp only [counts, stripZeros, twice, mask_shiftRight, Nat.and_two_pow_sub_one_eq_mod]
    by_cases zeros : v % 2 ^ 2 ^ (k + 1) = 0
    · have whole := Nat.dvd_of_mod_eq_zero zeros
      obtain ⟨z, strip, divides, less, odd⟩ := ih (v / 2 ^ 2 ^ (k + 1)) (s + 2 ^ (k + 1))
      refine ⟨2 ^ (k + 1) + z, ?_, ?_, by omega, ?_⟩
      · rw [if_pos zeros, Nat.shiftRight_eq_div_pow, strip, Nat.div_div_eq_div_mul, ← Nat.pow_add, Nat.add_assoc]
      · rw [Nat.pow_add]
        exact Nat.mul_dvd_of_dvd_div whole divides
      · intro some
        rw [Nat.pow_add, ← Nat.div_div_eq_div_mul]
        apply odd
        intro divides'
        apply some
        rw [Nat.pow_add]
        exact Nat.mul_dvd_of_dvd_div whole divides'
    · obtain ⟨z, strip, divides, less, odd⟩ := ih v s
      refine ⟨z, by rw [if_neg zeros, strip], divides, by omega, fun _ => odd ?_⟩
      exact fun whole => zeros (Nat.mod_eq_zero_of_dvd whole)

theorem log2_eq_iff {v : Nat} (small : v < 2 ^ 64) (k : Nat) : log2 v = k ↔ v = 2 ^ k := by
  obtain ⟨z, strip, divides, _, odd⟩ := stripZeros_counts 5 v 0
  have unfolded : log2 v = if v / 2 ^ z = 1 then (z : Int) else -1 := by
    have same : stripZeros [32, 16, 8, 4, 2, 1] (2 ^ 64 - 1) v 0 = (v / 2 ^ z, z) := by simpa [counts] using strip
    simp only [log2, same]
  rw [unfolded]
  constructor
  · intro result
    split at result
    next one =>
      rw [← Nat.div_mul_cancel divides, one, Nat.one_mul, Int.ofNat_inj.mp result]
    next => omega
  · rintro rfl
    have bits : k < 64 := (Nat.pow_lt_pow_iff_right (by decide)).mp small
    have below : z ≤ k := (Nat.pow_dvd_pow_iff_le_right (by decide)).mp divides
    have few : ¬ 2 ^ 2 ^ (5 + 1) ∣ 2 ^ k := by
      rw [Nat.pow_dvd_pow_iff_le_right (by decide)]
      omega
    have last := odd few
    rw [Nat.pow_div below (by decide)] at last ⊢
    have same : k - z = 0 := by
      rcases Nat.eq_zero_or_pos (k - z) with none | more
      · exact none
      · exact absurd (Nat.pow_dvd_pow 2 more) last
    rw [same, if_pos rfl]
    omega

theorem log2_neg {v : Nat} (small : v < 2 ^ 64) : log2 v < 0 ↔ ∀ k, v ≠ 2 ^ k := by
  constructor
  · intro negative k power
    rw [(log2_eq_iff small k).mpr power] at negative
    omega
  · intro none
    by_contra positive
    obtain ⟨k, value⟩ := Int.eq_ofNat_of_zero_le (Int.not_lt.mp positive)
    exact none k ((log2_eq_iff small k).mp value)

/-- The highest bit by itself. -/
theorem topbit_bounds {v : Nat} (nonzero : v ≠ 0) : ∃ t : Nat, topbit v = t ∧ 2 ^ t ≤ v ∧ v < 2 ^ (t + 1) := by
  induction v using Nat.strongRecOn with
  | ind v ih =>
    rw [topbit, if_neg nonzero]
    by_cases one : v = 1
    · exact ⟨0, by subst one; simp [topbit], by omega, by omega⟩
    · obtain ⟨t, result, low, high⟩ := ih (v / 2) (by omega) (by omega)
      refine ⟨t + 1, by rw [result]; rfl, ?_, ?_⟩
      · rw [Nat.pow_succ]
        omega
      · rw [Nat.pow_succ]
        omega

end Goken.Const
