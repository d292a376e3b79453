import Mathlib.Data.Nat.Bitwise
import Mathlib.Tactic.Common
import Mathlib.Tactic.Ring

/-! Bit strings as numbers. A register holds its first bit lowest; `rev n` reads
the first `n` bits of it with the first one highest, which is how prefix codes
are compared. -/

namespace Goken.Lib.Bits

/-- The low `n` bits of `x` in the opposite order. -/
def rev : Nat → Nat → Nat
  | 0, _ => 0
  | n + 1, x => x % 2 * 2 ^ n + rev n (x / 2)

theorem rev_nil (x : Nat) : rev 0 x = 0 := rfl

theorem rev_succ (n x : Nat) : rev (n + 1) x = x % 2 * 2 ^ n + rev n (x / 2) := rfl

theorem rev_lt (n x : Nat) : rev n x < 2 ^ n := by
  induction n generalizing x with
  | zero => simp [rev_nil]
  | succ n ih =>
    have rest := ih (x / 2)
    have bit : x % 2 * 2 ^ n ≤ 1 * 2 ^ n := Nat.mul_le_mul_right _ (by omega)
    rw [rev_succ, Nat.pow_succ]
    omega

/-- Reading more bits extends what was read. -/
theorem rev_add (n k x : Nat) : rev (n + k) x = rev n x * 2 ^ k + rev k (x / 2 ^ n) := by
  induction n generalizing x with
  | zero => simp [rev_nil]
  | succ n ih =>
    rw [Nat.add_right_comm, rev_succ, rev_succ, ih, Nat.div_div_eq_div_mul, ← Nat.pow_succ', Nat.pow_add]
    ring

theorem rev_zero (n : Nat) : rev n 0 = 0 := by
  induction n with
  | zero => rfl
  | succ n ih => simp [rev_succ, ih]

theorem rev_mod (n x : Nat) : rev n (x % 2 ^ n) = rev n x := by
  induction n generalizing x with
  | zero => rfl
  | succ n ih =>
    have low : x % 2 ^ (n + 1) % 2 = x % 2 := Nat.mod_mod_of_dvd x (Dvd.intro_left (2 ^ n) rfl)
    have high : x % 2 ^ (n + 1) / 2 = x / 2 % 2 ^ n := by
      rw [Nat.pow_succ', Nat.mod_mul_right_div_self]
    rw [rev_succ, rev_succ, low, high, ih]

theorem rev_shorter {n m : Nat} (shorter : n ≤ m) (x : Nat) : rev m x / 2 ^ (m - n) = rev n x := by
  obtain ⟨k, rfl⟩ := Nat.exists_eq_add_of_le shorter
  rw [rev_add, Nat.add_sub_cancel_left, Nat.mul_comm, Nat.mul_add_div (Nat.two_pow_pos k), Nat.div_eq_of_lt (rev_lt k _),
    Nat.add_zero]

/-- Bits that are not there yet count as zeros. -/
theorem rev_of_lt {n m x : Nat} (shorter : n ≤ m) (small : x < 2 ^ n) : rev m x = rev n x * 2 ^ (m - n) := by
  obtain ⟨k, rfl⟩ := Nat.exists_eq_add_of_le shorter
  rw [rev_add, Nat.div_eq_of_lt small, rev_zero, Nat.add_zero, Nat.add_sub_cancel_left]

/-- Reading the same bits with more behind them. -/
theorem rev_congr {n m x y : Nat} (shorter : n ≤ m) (same : x % 2 ^ m = y % 2 ^ m) : rev n x = rev n y := by
  rw [← rev_mod n x, ← rev_mod n y, ← Nat.mod_mod_of_dvd x (Nat.pow_dvd_pow 2 shorter), same,
    Nat.mod_mod_of_dvd y (Nat.pow_dvd_pow 2 shorter)]

theorem rev_succ_last (n x : Nat) : rev (n + 1) x = rev n x * 2 + x / 2 ^ n % 2 := by
  have one : rev 1 (x / 2 ^ n) = x / 2 ^ n % 2 * 2 ^ 0 + 0 := rfl
  rw [rev_add, one, Nat.pow_one, Nat.pow_zero, Nat.mul_one, Nat.add_zero]

theorem rev_rev (n x : Nat) : rev n (rev n x) = x % 2 ^ n := by
  induction n generalizing x with
  | zero => simp [rev_nil, Nat.mod_one]
  | succ n ih =>
    have parity : (rev n x * 2 + x / 2 ^ n % 2) % 2 = x / 2 ^ n % 2 := by omega
    have half : (rev n x * 2 + x / 2 ^ n % 2) / 2 = rev n x := by omega
    have split : x % 2 ^ (n + 1) = x % 2 ^ n + 2 ^ n * (x / 2 ^ n % 2) := by rw [Nat.pow_succ, Nat.mod_mul]
    have step : ∀ y, rev (n + 1) y = y % 2 * 2 ^ n + rev n (y / 2) := fun y => rfl
    rw [step (rev (n + 1) x), rev_succ_last, parity, half, ih, split]
    ring

theorem rev_mul (k b c : Nat) : rev (k + b) (c * 2 ^ k) = rev b c := by
  have none : rev k (c * 2 ^ k) = 0 := by
    rw [← rev_mod, Nat.mul_mod_left, rev_zero]
  rw [rev_add, none, Nat.zero_mul, Nat.zero_add, Nat.mul_div_cancel _ (Nat.two_pow_pos k)]

/-- Appending a byte to a register. -/
theorem or_shiftLeft {x n : Nat} (small : x < 2 ^ n) (c : Nat) : x ||| c <<< n = c * 2 ^ n + x := by
  rw [Nat.or_comm, ← Nat.shiftLeft_add_eq_or_of_lt small, Nat.shiftLeft_eq]

end Goken.Lib.Bits
