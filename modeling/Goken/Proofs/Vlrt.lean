import Goken.Lib.Truncate
import Goken.Vlrt
import Mathlib.Tactic.Linarith
import Mathlib.Tactic.Ring

/-! The run-time division divides. The set-up loop doubles the divisor without a
loss until twice it is above the dividend; the other loop keeps the division
equation for the divisor's powers and ends at the divisor itself. The signed
functions are right but for one pair of operands, which takes the short path to
a machine quotient that does not fit. -/

namespace Goken.Proofs.Vlrt
open Goken.Vlrt Lib.Steps Lib.Truncate

/-! The halves of a value. -/

theorem unsigned_lt (v : Vlong) : v.unsigned < 2 ^ 64 := by
  have := v.hi.isLt
  have := v.lo.isLt
  unfold Vlong.unsigned
  omega

theorem less_iff (a b : Vlong) : less a b ↔ a.unsigned < b.unsigned := by
  have := a.lo.isLt
  have := b.lo.isLt
  simp only [less, Bool.or_eq_true, Bool.and_eq_true, decide_eq_true_eq, beq_iff_eq, BitVec.lt_def, ← BitVec.toNat_inj, Vlong.unsigned]
  omega

private theorem or_below {low high : Nat} {shift : Nat} (small : low < 2 ^ shift) : high * 2 ^ shift ||| low = high * 2 ^ shift + low := by
  rw [← Nat.shiftLeft_eq, Nat.shiftLeft_add_eq_or_of_lt small]

theorem double_unsigned (v : Vlong) : (double v).unsigned = 2 * v.unsigned % 2 ^ 64 := by
  have hi := v.hi.isLt
  have lo := v.lo.isLt
  have shifted : v.hi.toNat * 2 ^ 1 % 2 ^ 32 = v.hi.toNat % 2 ^ 31 * 2 ^ 1 := by omega
  have carry : v.lo.toNat / 2 ^ 31 < 2 ^ 1 := by omega
  simp only [double, Vlong.unsigned, BitVec.toNat_or, BitVec.toNat_shiftLeft, BitVec.toNat_ushiftRight, Nat.shiftLeft_eq,
    Nat.shiftRight_eq_div_pow]
  rw [shifted, or_below carry]
  omega

theorem halve_unsigned (v : Vlong) : (halve v).unsigned = v.unsigned / 2 := by
  have hi := v.hi.isLt
  have lo := v.lo.isLt
  have shifted : v.hi.toNat * 2 ^ 31 % 2 ^ 32 = v.hi.toNat % 2 * 2 ^ 31 := by omega
  have carry : v.lo.toNat / 2 ^ 1 < 2 ^ 31 := by omega
  simp only [halve, Vlong.unsigned, BitVec.toNat_or, BitVec.toNat_shiftLeft, BitVec.toNat_ushiftRight, Nat.shiftLeft_eq,
    Nat.shiftRight_eq_div_pow]
  rw [shifted, Nat.or_comm, or_below carry]
  omega

theorem subtract_unsigned {a b : Vlong} (enough : b.unsigned ≤ a.unsigned) : (subtract a b).unsigned = a.unsigned - b.unsigned := by
  have := a.hi.isLt
  have := a.lo.isLt
  have := b.hi.isLt
  have := b.lo.isLt
  unfold Vlong.unsigned at enough
  simp only [subtract, Vlong.unsigned]
  split
  next borrow =>
    rw [gt_iff_lt, BitVec.lt_def, BitVec.toNat_sub] at borrow
    simp only [BitVec.toNat_sub, BitVec.ofNat_eq_ofNat, BitVec.toNat_ofNat]
    omega
  next same =>
    rw [gt_iff_lt, BitVec.lt_def, BitVec.toNat_sub] at same
    simp only [BitVec.toNat_sub]
    omega

theorem setBit_unsigned {v : Vlong} (even : v.unsigned % 2 = 0) : (Vlong.mk v.hi (v.lo ||| 1)).unsigned = v.unsigned + 1 := by
  have half : v.lo.toNat = v.lo.toNat / 2 * 2 ^ 1 := by
    unfold Vlong.unsigned at even
    omega
  have set : v.lo.toNat ||| 1 = v.lo.toNat + 1 := by
    rw [half, or_below (by decide)]
  simp only [Vlong.unsigned, BitVec.toNat_or, BitVec.ofNat_eq_ofNat, BitVec.toNat_ofNat, Nat.reducePow, Nat.reduceMod, set]
  omega

theorem zero_unsigned {v : Vlong} : v.unsigned = 0 ↔ v.lo = 0 ∧ v.hi = 0 := by
  simp only [Vlong.unsigned, ← BitVec.toNat_inj, BitVec.ofNat_eq_ofNat, BitVec.toNat_ofNat]
  omega

/-! The first loop. -/

/-- The divisor has been doubled `k` times. -/
def Doubled (num den : Vlong) (s : Dodiv) : Prop :=
  s.num = num ∧ s.quo = (begin num den).quo ∧ ∃ k : Nat, s.i = k ∧ s.den.unsigned = den.unsigned * 2 ^ k

theorem begin_doubled (num den : Vlong) : Doubled num den (begin num den) := ⟨rfl, rfl, 0, rfl, by simp [begin]⟩

/-- What the divisor has to reach is at most 2^63, and is enough. -/
theorem begin_bound (num den : Vlong) : (begin num den).quo.unsigned ≤ 2 ^ 63 ∧
    ∀ v : Vlong, (begin num den).quo.unsigned ≤ v.unsigned → 0 < v.unsigned → num.unsigned < 2 * v.unsigned := by
  have := num.lo.isLt
  by_cases large : num.hi ≥ SIGN 32
  · have value : (Vlong.mk (SIGN 32) 0).unsigned = 2 ^ 63 := by decide
    have := unsigned_lt num
    simp only [begin, if_pos large, value]
    exact ⟨Nat.le_refl _, fun v reached _ => by omega⟩
  · have small : num.hi.toNat < 2 ^ 31 := by simpa [SIGN, BitVec.lt_def] using large
    simp only [begin, if_neg large]
    refine ⟨?_, fun v reached positive => by omega⟩
    unfold Vlong.unsigned
    omega

/-- No doubling loses a bit. -/
theorem setUp_doubles {num den : Vlong} {s t : Dodiv} (before : Doubled num den s) (moves : setUp s = some t) :
    t = { s with den := double s.den, i := s.i + 1 } ∧ t.den.unsigned = 2 * s.den.unsigned := by
  obtain ⟨_, quo, _⟩ := before
  have bound := (begin_bound num den).1
  unfold setUp at moves
  split at moves
  next less =>
    rw [less_iff, quo] at less
    cases moves
    refine ⟨rfl, ?_⟩
    simp only [double_unsigned]
    omega
  next => cases moves

theorem setUp_kept {num den : Vlong} {s t : Dodiv} (before : Doubled num den s) (moves : setUp s = some t) : Doubled num den t := by
  obtain ⟨shape, value⟩ := setUp_doubles before moves
  obtain ⟨num, quo, k, counted, den⟩ := before
  refine ⟨by rw [shape, num], by rw [shape, quo], k + 1, by rw [shape]; simp [counted], ?_⟩
  rw [value, den, Nat.pow_succ]
  ring

/-- Doublings are counted by `i`, and there are fewer than 64. -/
theorem doubled_few {num den : Vlong} {s : Dodiv} (nonzero : 0 < den.unsigned) (doubled : Doubled num den s) : 0 ≤ s.i ∧ s.i < 64 := by
  obtain ⟨_, _, k, counted, value⟩ := doubled
  have bound := unsigned_lt s.den
  have power : 2 ^ k < 2 ^ 64 := by
    apply Nat.lt_of_le_of_lt _ bound
    rw [value]
    exact Nat.le_mul_of_pos_left _ nonzero
  have few := (Nat.pow_lt_pow_iff_right (by decide)).mp power
  omega

theorem setUp_ends {fuel : Nat} {num den : Vlong} (nonzero : 0 < den.unsigned) (enough : 64 < fuel) :
    ∃ s, loop setUp fuel (begin num den) = some s ∧ setUp s = none ∧ Doubled num den s := by
  apply loop_ends (Doubled num den) (fun s => (64 - s.i).toNat) (begin_doubled num den)
  · simpa [begin] using enough
  · intro before after doubled moves
    have next := setUp_kept doubled moves
    have shape := (setUp_doubles doubled moves).1
    have few := doubled_few nonzero doubled
    refine ⟨next, ?_⟩
    rw [shape]
    simp only
    omega

theorem setUp_reached {num den : Vlong} {s : Dodiv} (nonzero : 0 < den.unsigned) (doubled : Doubled num den s)
    (stopped : setUp s = none) : num.unsigned < 2 * s.den.unsigned := by
  obtain ⟨_, quo, k, _, value⟩ := doubled
  have positive : 0 < s.den.unsigned := by
    rw [value]
    exact Nat.mul_pos nonzero (Nat.two_pow_pos k)
  apply (begin_bound num den).2 s.den _ positive
  unfold setUp at stopped
  split at stopped
  next => cases stopped
  next notLess => rwa [less_iff, quo, Nat.not_lt] at notLess

/-! The second loop. -/

/-- The division equation with `k` iterations to go: the divisor is at the power
that the next one uses. -/
def Developed (num den : Vlong) (s : Dodiv) : Prop :=
  ∃ k : Nat, s.i = k - 1 ∧ num.unsigned = s.quo.unsigned * (den.unsigned * 2 ^ k) + s.num.unsigned ∧
    s.num.unsigned < den.unsigned * 2 ^ k ∧ (0 < k → s.den.unsigned = den.unsigned * 2 ^ (k - 1))

theorem restart_developed {num den : Vlong} {s : Dodiv} (nonzero : 0 < den.unsigned) (doubled : Doubled num den s)
    (stopped : setUp s = none) : Developed num den (restart s) := by
  have reached := setUp_reached nonzero doubled stopped
  obtain ⟨same, _, k, counted, value⟩ := doubled
  have zero : (Vlong.mk 0 0).unsigned = 0 := rfl
  refine ⟨k + 1, by simp [restart, counted], by simp only [restart, zero, same, Nat.zero_mul, Nat.zero_add], ?_,
    fun _ => value⟩
  rw [Nat.pow_succ, ← Nat.mul_assoc, ← value, Nat.mul_comm]
  simpa only [restart, same] using reached

/-- The quotient has room for one more bit. -/
theorem developed_room {num den : Vlong} {s : Dodiv} {k : Nat} (nonzero : 0 < den.unsigned)
    (equation : num.unsigned = s.quo.unsigned * (den.unsigned * 2 ^ (k + 1)) + s.num.unsigned) : 2 * s.quo.unsigned < 2 ^ 64 := by
  have bound := unsigned_lt num
  have power : 2 ≤ den.unsigned * 2 ^ (k + 1) := by
    have := Nat.mul_le_mul nonzero (Nat.two_pow_pos k)
    rw [Nat.pow_succ]
    linarith
  have := Nat.mul_le_mul_left s.quo.unsigned power
  omega

/-- The values after one iteration. -/
theorem develop_values {num den : Vlong} {s t : Dodiv} (nonzero : 0 < den.unsigned) (before : Developed num den s)
    (moves : develop s = some t) : t.i = s.i - 1 ∧ t.den.unsigned = s.den.unsigned / 2 ∧ (double s.quo).unsigned = 2 * s.quo.unsigned ∧
    (s.num.unsigned < s.den.unsigned ∧ t.num.unsigned = s.num.unsigned ∧ t.quo.unsigned = 2 * s.quo.unsigned ∨
      s.den.unsigned ≤ s.num.unsigned ∧ t.num.unsigned = s.num.unsigned - s.den.unsigned ∧
        t.quo.unsigned = 2 * s.quo.unsigned + 1) := by
  obtain ⟨k, counted, equation, _, _⟩ := before
  unfold develop at moves
  split at moves
  next more =>
    obtain ⟨k, rfl⟩ : ∃ j, k = j + 1 := ⟨k - 1, by omega⟩
    have doubled : (double s.quo).unsigned = 2 * s.quo.unsigned := by
      rw [double_unsigned, Nat.mod_eq_of_lt (developed_room nonzero equation)]
    simp only at moves
    split at moves
    next smaller =>
      cases moves
      exact ⟨rfl, halve_unsigned _, doubled, .inl ⟨(less_iff _ _).mp smaller, rfl, doubled⟩⟩
    next notLess =>
      rw [less_iff, Nat.not_lt] at notLess
      cases moves
      refine ⟨rfl, halve_unsigned _, doubled, .inr ⟨notLess, subtract_unsigned notLess, ?_⟩⟩
      rw [← doubled]
      exact setBit_unsigned (by omega)
  next => cases moves

theorem develop_kept {num den : Vlong} {s t : Dodiv} (nonzero : 0 < den.unsigned) (before : Developed num den s)
    (moves : develop s = some t) : Developed num den t ∧ t.i = s.i - 1 ∧ 0 ≤ s.i := by
  obtain ⟨counter, divisor, _, values⟩ := develop_values nonzero before moves
  have more : 0 ≤ s.i := by
    unfold develop at moves
    split at moves
    next more => exact more
    next => cases moves
  obtain ⟨k, counted, equation, below, power⟩ := before
  obtain ⟨k, rfl⟩ : ∃ j, k = j + 1 := ⟨k - 1, by omega⟩
  have den_eq : s.den.unsigned = den.unsigned * 2 ^ k := power (Nat.succ_pos k)
  have twice : den.unsigned * 2 ^ (k + 1) = 2 * (den.unsigned * 2 ^ k) := by
    rw [Nat.pow_succ]
    ring
  rw [twice] at equation below
  have halved : 0 < k → t.den.unsigned = den.unsigned * 2 ^ (k - 1) := by
    intro positive
    obtain ⟨j, rfl⟩ : ∃ j, k = j + 1 := ⟨k - 1, by omega⟩
    rw [divisor, den_eq, Nat.pow_succ, ← Nat.mul_assoc, Nat.mul_div_cancel _ (by decide), Nat.add_sub_cancel]
  refine ⟨⟨k, by omega, ?_, ?_, halved⟩, counter, more⟩
  · rcases values with ⟨_, num', quo'⟩ | ⟨enough, num', quo'⟩
    · rw [num', quo', equation]
      ring
    · rw [num', quo', equation, Nat.add_mul, den_eq, Nat.one_mul, Nat.add_assoc, Nat.add_sub_cancel' (den_eq ▸ enough)]
      ring
  · rcases values with ⟨smaller, num', _⟩ | ⟨enough, num', _⟩ <;> omega

theorem develop_ends {fuel : Nat} {num den : Vlong} {s : Dodiv} (nonzero : 0 < den.unsigned) (before : Developed num den s)
    (enough : s.i + 1 < fuel) : ∃ t, loop develop fuel s = some t ∧ develop t = none ∧ Developed num den t := by
  apply loop_ends (Developed num den) (fun s => (s.i + 1).toNat) before
  · obtain ⟨k, counted, _⟩ := before
    omega
  · intro before after developed moves
    have next := develop_kept nonzero developed moves
    exact ⟨next.1, by omega⟩

/-- With no iteration to go the equation is that of the division. -/
theorem developed_last {num den : Vlong} {s : Dodiv} (nonzero : 0 < den.unsigned) (developed : Developed num den s)
    (stopped : develop s = none) :
    s.quo.unsigned = num.unsigned / den.unsigned ∧ s.num.unsigned = num.unsigned % den.unsigned := by
  obtain ⟨k, counted, equation, below, _⟩ := developed
  have last : k = 0 := by
    unfold develop at stopped
    split at stopped
    next => simp only at stopped; split at stopped <;> cases stopped
    next => omega
  subst last
  rw [Nat.pow_zero, Nat.mul_one] at equation below
  rw [equation]
  constructor
  · rw [Nat.add_comm, Nat.add_mul_div_right _ _ nonzero, Nat.div_eq_of_lt below, Nat.zero_add]
  · rw [Nat.add_comm, Nat.add_mul_mod_self_right, Nat.mod_eq_of_lt below]

theorem dodiv_divides {fuel : Nat} (num : Vlong) {den : Vlong} (nonzero : 0 < den.unsigned) (enough : 66 ≤ fuel) :
    ∃ q r, dodiv fuel num den = some (q, r) ∧ q.unsigned = num.unsigned / den.unsigned ∧ r.unsigned = num.unsigned % den.unsigned := by
  obtain ⟨s, first, stopped, doubled⟩ := setUp_ends nonzero (by omega : 64 < fuel)
  have few := doubled_few nonzero doubled
  have developed := restart_developed nonzero doubled stopped
  obtain ⟨t, second, stopped', developed'⟩ := develop_ends nonzero developed (by simp only [restart]; omega : _ < (fuel : Int))
  have notZero : ¬ (den.lo = 0 ∧ den.hi = 0) := by
    rw [← zero_unsigned]
    omega
  refine ⟨t.quo, t.num, ?_, developed_last nonzero developed' stopped'⟩
  simp only [dodiv, if_neg notZero, first, Option.bind_eq_bind, Option.bind_some, second]
  rfl

/-- The run of `dodiv`: it ends, the remainder is below the divisor, and no shift
loses a bit. The last halving of the divisor is left out: nothing reads it. -/
structure Exact (num den : Vlong) : Prop where
  ends : ∀ fuel ≥ 66, ∃ q r, dodiv fuel num den = some (q, r) ∧ r.unsigned < den.unsigned
  setUp : ∀ s t, Reaches setUp (begin num den) s → setUp s = some t → t.den.unsigned = 2 * s.den.unsigned
  develop : ∀ m s t, Reaches Vlrt.setUp (begin num den) m → Vlrt.setUp m = none → Reaches develop (restart m) s → develop s = some t →
    (double s.quo).unsigned = 2 * s.quo.unsigned ∧ (0 < s.i → s.den.unsigned = 2 * t.den.unsigned)

theorem dodiv_exact {num den : Vlong} (nonzero : 0 < den.unsigned) : Exact num den where
  ends := by
    intro fuel enough
    obtain ⟨q, r, result, _, remainder⟩ := dodiv_divides _ nonzero enough
    refine ⟨q, r, result, ?_⟩
    rw [remainder]
    exact Nat.mod_lt _ nonzero
  setUp := by
    intro s t run moves
    have doubled := run.invariant (begin_doubled num den) setUp_kept
    exact (setUp_doubles doubled moves).2
  develop := by
    intro m s t first stopped run moves
    have doubled := first.invariant (begin_doubled num den) setUp_kept
    have developed := run.invariant (restart_developed nonzero doubled stopped) fun before moves =>
      (develop_kept nonzero before moves).1
    obtain ⟨counter, divisor, quotient, _⟩ := develop_values nonzero developed moves
    refine ⟨quotient, fun more => ?_⟩
    obtain ⟨k, counted, _, _, power⟩ := developed
    obtain ⟨k, rfl⟩ : ∃ j, k = j + 2 := ⟨k - 2, by omega⟩
    have even : s.den.unsigned = den.unsigned * 2 ^ k * 2 := by
      rw [power (by omega), Nat.mul_assoc, ← Nat.pow_succ]
      rfl
    omega

/-! The unsigned functions. -/

theorem divvu_divides {fuel : Nat} {n d : Vlong} (nonzero : 0 < d.unsigned) (enough : 66 ≤ fuel) :
    ∃ q, _divvu fuel n d = some q ∧ q.unsigned = n.unsigned / d.unsigned := by
  obtain ⟨q, r, result, quotient, _⟩ := dodiv_divides _ nonzero enough
  unfold _divvu
  split
  next short =>
    have lo : d.lo ≠ 0 := fun zero => by simp [zero_unsigned.mpr ⟨zero, short.2⟩] at nonzero
    exact ⟨_, if_neg lo, by simp [Vlong.unsigned, short]⟩
  next => exact ⟨q, by rw [result]; rfl, quotient⟩

theorem modvu_divides {fuel : Nat} {n d : Vlong} (nonzero : 0 < d.unsigned) (enough : 66 ≤ fuel) :
    ∃ r, _modvu fuel n d = some r ∧ r.unsigned = n.unsigned % d.unsigned := by
  obtain ⟨q, r, result, _, remainder⟩ := dodiv_divides _ nonzero enough
  unfold _modvu
  split
  next short =>
    have lo : d.lo ≠ 0 := fun zero => by simp [zero_unsigned.mpr ⟨zero, short.2⟩] at nonzero
    exact ⟨_, if_neg lo, by simp [Vlong.unsigned, short]⟩
  next => exact ⟨r, by rw [result]; rfl, remainder⟩

/-! Signs. -/

theorem signed_cases (v : Vlong) :
    v.unsigned < 2 ^ 63 ∧ v.signed = v.unsigned ∨ 2 ^ 63 ≤ v.unsigned ∧ v.signed = v.unsigned - 2 ^ 64 := by
  have := v.hi.isLt
  have := v.lo.isLt
  rw [Vlong.signed, BitVec.toInt_eq_toNat_cond, Vlong.unsigned]
  split <;> omega

theorem signed_bmod (v : Vlong) : v.signed = Int.bmod v.unsigned (2 ^ 64) := by
  have := unsigned_lt v
  have := signed_cases v
  simp only [Int.bmod_def]
  omega

theorem negative_iff (v : Vlong) : negative v ↔ v.signed < 0 := by
  have := v.hi.isLt
  have := v.lo.isLt
  have cases := signed_cases v
  simp only [Vlong.unsigned] at cases
  rw [negative, bne_iff_ne, ne_eq, ← BitVec.toNat_inj]
  simp only [BitVec.toNat_ushiftRight, Nat.shiftRight_eq_div_pow, BitVec.ofNat_eq_ofNat, BitVec.toNat_ofNat]
  omega

theorem vneg_unsigned (v : Vlong) : (vneg v).unsigned = (2 ^ 64 - v.unsigned) % 2 ^ 64 := by
  have := v.hi.isLt
  have := v.lo.isLt
  unfold vneg
  split
  next zero =>
    simp only [Vlong.unsigned, zero, BitVec.toNat_neg, BitVec.ofNat_eq_ofNat, BitVec.toNat_ofNat]
    omega
  next nonzero =>
    rw [← BitVec.toNat_inj] at nonzero
    simp only [BitVec.ofNat_eq_ofNat, BitVec.toNat_ofNat] at nonzero
    simp only [Vlong.unsigned, BitVec.toNat_not, BitVec.toNat_neg]
    omega

theorem magnitude_unsigned (v : Vlong) : (magnitude v).unsigned = v.signed.natAbs := by
  have := signed_cases v
  have := unsigned_lt v
  unfold magnitude
  split
  next negative =>
    rw [negative_iff] at negative
    rw [vneg_unsigned]
    omega
  next positive =>
    rw [negative_iff] at positive
    omega

theorem negative_eq (v : Vlong) : negative v = decide (v.signed < 0) := by
  rw [Bool.eq_iff_iff, negative_iff, decide_eq_true_eq]

/-- A magnitude with a sign put on it. -/
theorem sign_signed (v : Vlong) (flip : Bool) : (if flip then vneg v else v).signed = (withSign flip v.unsigned).bmod (2 ^ 64) := by
  cases flip with
  | false => exact signed_bmod v
  | true =>
    have := unsigned_lt v
    simp only [if_true, withSign, signed_bmod (vneg v), vneg_unsigned, Int.bmod_def]
    omega

/-! The short path. -/

theorem extend_signed (lo : ulong) : (Vlong.mk (extend lo) lo).signed = lo.toInt := by
  have bound := lo.isLt
  rw [Vlong.signed, extend, BitVec.toInt_sshiftRight, Int.shiftRight_eq_div_pow]
  simp only [BitVec.toInt_eq_toNat_cond]
  split <;> omega

theorem short_signed {v : Vlong} (short : short v) : v.signed = v.lo.toInt := by
  rw [← extend_signed, ← short]

/-- Values in the range of `long` take the short path. -/
theorem short_of_signed {v : Vlong} {n : Int} (value : v.signed = n) (low : -2 ^ 31 ≤ n) (high : n < 2 ^ 31) : short v := by
  have := v.hi.isLt
  have := v.lo.isLt
  rw [short, extend, ← BitVec.toInt_inj, BitVec.toInt_sshiftRight, Int.shiftRight_eq_div_pow]
  rw [Vlong.signed] at value
  have hi := BitVec.toInt_eq_toNat_cond v.hi
  have lo := BitVec.toInt_eq_toNat_cond v.lo
  split at hi <;> split at lo <;> omega

theorem toInt_range (w : ulong) : -2 ^ 31 ≤ w.toInt ∧ w.toInt < 2 ^ 31 := by
  have := w.isLt
  rw [BitVec.toInt_eq_toNat_cond]
  split <;> omega

/-- A quotient or remainder that the machine's word holds. -/
theorem small_bmod {n : Int} (low : -2 ^ 31 ≤ n) (high : n < 2 ^ 31) : n.bmod (2 ^ 64) = n ∧ n.bmod (2 ^ 32) = n := by
  rw [Int.bmod_def, Int.bmod_def]
  omega

theorem nonzero_signed {v : Vlong} (nonzero : v.unsigned ≠ 0) : v.signed ≠ 0 := by
  have := signed_cases v
  have := unsigned_lt v
  omega

/-- The low halves of two short values are divided as they are. -/
theorem overflows_iff {n d : Vlong} (first : short n) (second : short d) :
    Native.overflows n.lo d.lo ↔ n.signed = -2 ^ 31 ∧ d.signed = -1 := by
  rw [short_signed first, short_signed second, Native.overflows, ← BitVec.toInt_inj, ← BitVec.toInt_inj]
  rfl

theorem lo_nonzero {d : Vlong} (second : short d) (nonzero : d.unsigned ≠ 0) : d.lo ≠ 0 := by
  intro zero
  apply nonzero_signed nonzero
  rw [short_signed second, zero]
  rfl

section Signed

variable {native : Native} {fuel : Nat} {n d : Vlong}

/-- The long path of the signed functions. -/
theorem dodiv_magnitudes (nonzero : d.unsigned ≠ 0) (enough : 66 ≤ fuel) :
    ∃ q r, dodiv fuel (magnitude n) (magnitude d) = some (q, r) ∧ q.unsigned = n.signed.natAbs / d.signed.natAbs ∧
      r.unsigned = n.signed.natAbs % d.signed.natAbs := by
  have positive : 0 < (magnitude d).unsigned := by
    rw [magnitude_unsigned]
    exact Int.natAbs_pos.mpr (nonzero_signed nonzero)
  obtain ⟨q, r, result, quotient, remainder⟩ := dodiv_divides (magnitude n) positive enough
  rw [magnitude_unsigned, magnitude_unsigned] at quotient remainder
  exact ⟨q, r, result, quotient, remainder⟩

theorem divv_divides (nonzero : d.unsigned ≠ 0) (enough : 66 ≤ fuel) (fits : ¬ (n.signed = -2 ^ 31 ∧ d.signed = -1)) :
    ∃ q, _divv native fuel n d = some q ∧ q.signed = (n.signed.tdiv d.signed).bmod (2 ^ 64) := by
  unfold _divv
  split
  next both =>
    have fits' : ¬ Native.overflows n.lo d.lo := by rwa [overflows_iff both.1 both.2]
    have value : (n.lo.sdiv d.lo).toInt = n.signed.tdiv d.signed := by
      rw [BitVec.toInt_sdiv_of_ne_or_ne _ _ (not_and_or.mp fits'), short_signed both.1, short_signed both.2]
    have range := toInt_range (n.lo.sdiv d.lo)
    refine ⟨⟨extend (n.lo.sdiv d.lo), n.lo.sdiv d.lo⟩, ?_, ?_⟩
    · rw [Native.div, if_neg (lo_nonzero both.2 nonzero), if_neg fits']
      rfl
    · rw [extend_signed, ← value, (small_bmod range.1 range.2).1]
  next =>
    obtain ⟨q, r, result, quotient, _⟩ := dodiv_magnitudes (n := n) nonzero enough
    refine ⟨if negative n != negative d then vneg q else q, by rw [result]; rfl, ?_⟩
    rw [sign_signed, quotient, tdiv_eq, negative_eq, negative_eq]

theorem modv_divides (nonzero : d.unsigned ≠ 0) (enough : 66 ≤ fuel) (fits : ¬ (n.signed = -2 ^ 31 ∧ d.signed = -1)) :
    ∃ r, _modv native fuel n d = some r ∧ r.signed = (n.signed.tmod d.signed).bmod (2 ^ 64) := by
  unfold _modv
  split
  next both =>
    have fits' : ¬ Native.overflows n.lo d.lo := by rwa [overflows_iff both.1 both.2]
    have value : (n.lo.srem d.lo).toInt = n.signed.tmod d.signed := by
      rw [BitVec.toInt_srem, short_signed both.1, short_signed both.2]
    have range := toInt_range (n.lo.srem d.lo)
    refine ⟨⟨extend (n.lo.srem d.lo), n.lo.srem d.lo⟩, ?_, ?_⟩
    · rw [Native.mod, if_neg (lo_nonzero both.2 nonzero), if_neg fits']
      rfl
    · rw [extend_signed, ← value, (small_bmod range.1 range.2).1]
  next =>
    obtain ⟨q, r, result, _, remainder⟩ := dodiv_magnitudes (n := n) nonzero enough
    refine ⟨if negative n then vneg r else r, by rw [result]; rfl, ?_⟩
    rw [sign_signed, remainder, tmod_eq, negative_eq]

/-- Whatever the machine gives, its extension is not 2^31. -/
theorem divv_overflow (first : n.signed = -2 ^ 31) (second : d.signed = -1) {q : Vlong}
    (result : _divv native fuel n d = some q) : q.signed ≠ (n.signed.tdiv d.signed).bmod (2 ^ 64) := by
  have both : short n ∧ short d := ⟨short_of_signed first (by decide) (by decide), short_of_signed second (by decide) (by decide)⟩
  rw [_divv, if_pos both, Option.map_eq_some_iff] at result
  obtain ⟨lo, _, rfl⟩ := result
  rw [extend_signed, first, second]
  have range := toInt_range lo
  have expected : Int.bmod (Int.tdiv (-2 ^ 31) (-1)) (2 ^ 64) = 2 ^ 31 := by decide
  omega

end Signed

/-- All that is asked of the division of `n` by `d`. -/
structure Divides (native : Native) (n d : Vlong) : Prop where
  divvu : ∀ fuel ≥ 66, ∃ q, _divvu fuel n d = some q ∧ q.unsigned = n.unsigned / d.unsigned
  modvu : ∀ fuel ≥ 66, ∃ r, _modvu fuel n d = some r ∧ r.unsigned = n.unsigned % d.unsigned
  divv : ∀ fuel ≥ 66, ∃ q, _divv native fuel n d = some q ∧ q.signed = (n.signed.tdiv d.signed).bmod (2 ^ 64)
  modv : ∀ fuel ≥ 66, ∃ r, _modv native fuel n d = some r ∧ r.signed = (n.signed.tmod d.signed).bmod (2 ^ 64)
  unsigned : Exact n d
  magnitudes : Exact (magnitude n) (magnitude d)

/-- The division is right, on any machine, just when it is not -2^31 by -1. -/
theorem divides_iff (native : Native) (n d : Vlong) (nonzero : d.unsigned ≠ 0) :
    Divides native n d ↔ ¬ (n.signed = -2 ^ 31 ∧ d.signed = -1) := by
  have positive : 0 < d.unsigned := Nat.pos_of_ne_zero nonzero
  have positive' : 0 < (magnitude d).unsigned := by
    rw [magnitude_unsigned]
    exact Int.natAbs_pos.mpr (nonzero_signed nonzero)
  constructor
  · rintro divides ⟨first, second⟩
    obtain ⟨q, result, value⟩ := divides.divv 66 (Nat.le_refl _)
    exact divv_overflow first second result value
  · intro fits
    exact {
      divvu := fun _ enough => divvu_divides positive enough
      modvu := fun _ enough => modvu_divides positive enough
      divv := fun _ enough => divv_divides nonzero enough fits
      modv := fun _ enough => modv_divides nonzero enough fits
      unsigned := dodiv_exact positive
      magnitudes := dodiv_exact positive' }

theorem divides_least_by_two : Divides ⟨none, none⟩ ⟨0x80000000, 0⟩ ⟨0, 2⟩ :=
  (divides_iff ⟨none, none⟩ ⟨0x80000000, 0⟩ ⟨0, 2⟩ (by decide)).mpr (by decide)

theorem divides_not_least_long : ¬ ∃ native, Divides native ⟨0xffffffff, 0x80000000⟩ ⟨0xffffffff, 0xffffffff⟩ := by
  rintro ⟨native, divides⟩
  obtain ⟨q, result, value⟩ := divides.divv 66 (Nat.le_refl _)
  exact divv_overflow (by decide) (by decide) result value

end Goken.Proofs.Vlrt
