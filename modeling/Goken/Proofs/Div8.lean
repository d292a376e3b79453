import Mathlib.Data.Nat.Bitwise
import Goken.Div8
import Goken.Lib.Reciprocal

/-! The multipliers of the x86 back end approximate the reciprocal of the divisor,
from a bound that is a halving too many above the word size: where the multiplier
has 33 bits the code adds the dividend and rotates the carry in. -/

namespace Goken.Proofs.Div8
open Goken.Div8 Goken.Const Lib.X86 Lib.Reciprocal

/-! The two bounds on the multiplier for a shift of `l`. -/

def lower (d l : Nat) : Nat := 2 ^ (32 + l) / d

def upper (d p l : Nat) : Nat := (2 ^ (32 + l) + 2 ^ (32 + l - p)) / d

section Bounds

variable {d p l : Nat}

theorem lower_half : lower d (l + 1) / 2 = lower d l := by
  rw [lower, Nat.div_div_eq_div_mul, Nat.mul_comm, ← Nat.div_div_eq_div_mul, ← Nat.add_assoc, Nat.pow_succ,
    Nat.mul_div_cancel _ (by decide)]
  rfl

theorem upper_half (word : p ≤ 32) : upper d p (l + 1) / 2 = upper d p l := by
  have exponent : 32 + (l + 1) - p = 32 + l - p + 1 := by omega
  rw [upper, exponent, Nat.div_div_eq_div_mul, Nat.mul_comm, ← Nat.div_div_eq_div_mul, ← Nat.add_assoc, Nat.pow_succ, Nat.pow_succ,
    ← Nat.add_mul, Nat.mul_div_cancel _ (by decide)]
  rfl

/-- The bounds differ by what the divisor goes into the tolerance. -/
theorem lower_add_le {k : Nat} (tolerance : k * d ≤ 2 ^ (32 + l - p)) (positive : 0 < d) : lower d l + k ≤ upper d p l := by
  rw [upper, Nat.le_div_iff_mul_le positive, Nat.add_mul]
  exact Nat.add_le_add (Nat.div_mul_le_self _ _) tolerance

theorem upper_approximates (word : p ≤ 32) (positive : 0 < d) (differ : lower d l < upper d p l) :
    Approximates (upper d p l) d (32 + l) p where
  wide := by omega
  above := by
    have := Nat.lt_div_mul_add positive (a := 2 ^ (32 + l))
    have := Nat.mul_le_mul_right d differ
    rw [lower, Nat.succ_mul] at this
    omega
  near := Nat.div_mul_le_self _ _

/-- The loop keeps to the bounds, and takes a first step when they are not next
to each other. -/
theorem reduce_spec (word : p ≤ 32) (differ : lower d l < upper d p l) :
    ∃ l' ≤ l, reduce l (lower d l) (upper d p l) = (l', upper d p l') ∧ lower d l' < upper d p l' ∧
      (0 < l → lower d l + 2 ≤ upper d p l → l' < l) := by
  induction l with
  | zero => exact ⟨0, Nat.le_refl _, rfl, differ, fun none => absurd none (Nat.lt_irrefl 0)⟩
  | succ l ih =>
    rw [reduce, lower_half, upper_half word]
    split
    next same =>
      have low : lower d (l + 1) / 2 = lower d l := lower_half
      have high : upper d p (l + 1) / 2 = upper d p l := upper_half word
      exact ⟨l + 1, Nat.le_refl _, rfl, differ, fun _ apart => by omega⟩
    next different =>
      have low : lower d (l + 1) / 2 = lower d l := lower_half
      have high : upper d p (l + 1) / 2 = upper d p l := upper_half word
      obtain ⟨l', less, result, differ', _⟩ := ih (by omega)
      exact ⟨l', by omega, result, differ', fun _ _ => by omega⟩

end Bounds

theorem uvlong_of_lt {v : Nat} (small : v < 2 ^ 64) : uvlong v = v := by
  rw [uvlong]
  omega

/-- The divisor's place between powers of two. -/
structure Between (d t : Nat) : Prop where
  above : 2 ^ t < d
  most : d ≤ 2 ^ (t + 1)
  small : t ≤ 30

theorem between_exists {d : Nat} (some : 2 ≤ d) (small : d < 2 ^ 31) : ∃ t, Between d t ∧ topbit (uvlong (d - 1)) = t := by
  have nonzero : d - 1 ≠ 0 := by omega
  obtain ⟨t, result, low, high⟩ := topbit_bounds nonzero
  have less : 2 ^ t < 2 ^ 31 := by omega
  refine ⟨t, ⟨by omega, by omega, ?_⟩, ?_⟩
  · have := (Nat.pow_lt_pow_iff_right (by decide)).mp less
    omega
  · rw [← result, show (d : Int) - 1 = (d - 1 : Nat) by omega, uvlong_of_lt (by omega)]

theorem ok_bind {α β : Type} (a : α) (f : α → Except Fault β) : (Except.ok a >>= f) = f a := rfl

theorem quotient_ok {d : Nat} (positive : 0 < d) (n : Nat) : quotient n d = .ok (n / d) := if_neg (Nat.ne_of_gt positive)

theorem TN_ok {n : Int} {k : Nat} (value : n = k) (few : k < 64) : TN n = .ok (2 ^ k) := by
  rw [TN, if_pos (by omega), value, Int.toNat_natCast]

/-- The lower bound as the compiler computes it. -/
theorem lower_host {d t : Nat} (between : Between d t) :
    uvlong ((uvlong (uvlong ((2 ^ (t + 1) : Nat) - d) * 2 ^ 32) / d : Nat) + T32) = lower d (t + 1) := by
  obtain ⟨above, most, small⟩ := between
  have positive : 0 < d := by omega
  have power : 2 ^ (t + 1) ≤ 2 ^ 31 := Nat.pow_le_pow_right (by decide) (by omega)
  have split : 2 ^ (32 + (t + 1)) = 2 ^ (t + 1) * 2 ^ 32 := by rw [Nat.pow_add, Nat.mul_comm]
  have cast : ((2 ^ (t + 1) - d : Nat) : Int) * 2 ^ 32 = ((2 ^ (t + 1) - d) * 2 ^ 32 : Nat) := by push_cast; rfl
  have enough : 2 ^ 32 ≤ 2 ^ (32 + (t + 1)) / d := by
    rw [Nat.le_div_iff_mul_le positive, split, Nat.mul_comm]
    exact Nat.mul_le_mul_right _ most
  have less : 2 ^ (32 + (t + 1)) / d ≤ 2 ^ (32 + (t + 1)) := Nat.div_le_self _ _
  rw [← Int.ofNat_sub most, uvlong_of_lt (by omega), cast, uvlong_of_lt (by omega), Nat.sub_mul, ← split, Nat.sub_mul_div, T32,
    ← Int.natCast_add, Nat.sub_add_cancel enough, uvlong_of_lt (by omega), lower]

theorem upper_host {d t p : Nat} (small : t ≤ 30) (word : p ≤ 32) (some : 1 ≤ p) :
    uvlong ((2 ^ (32 + (t + 1)) : Nat) + (2 ^ (32 + (t + 1) - p) : Nat)) / d = upper d p (t + 1) := by
  have wide : 2 ^ (32 + (t + 1)) ≤ 2 ^ 63 := Nat.pow_le_pow_right (by decide) (by omega)
  have tolerance : 2 ^ (32 + (t + 1) - p) ≤ 2 ^ 62 := Nat.pow_le_pow_right (by decide) (by omega)
  rw [← Int.natCast_add, uvlong_of_lt (by omega), upper]

theorem bounds_differ {d t p : Nat} (between : Between d t) (word : p ≤ 32) : lower d (t + 1) < upper d p (t + 1) := by
  have most := between.most
  have above := between.above
  have tolerance : 1 * d ≤ 2 ^ (32 + (t + 1) - p) := by
    rw [Nat.one_mul]
    exact Nat.le_trans most (Nat.pow_le_pow_right (by decide) (by omega))
  exact Nat.lt_of_succ_le (lower_add_le tolerance (by omega))

/-- No fault, and no wrap-around, before the loop. -/
theorem multiplier_eq {d t p : Nat} (between : Between d t) (top : topbit (uvlong (d - 1)) = t) (word : p ≤ 32) (some : 1 ≤ p) :
    multiplier d p = .ok (reduce (t + 1) (lower d (t + 1)) (upper d p (t + 1))) := by
  have small := between.small
  have above := between.above
  have most := between.most
  have positive : 0 < d := by omega
  have differ : lower d (t + 1) < upper d p (t + 1) := bounds_differ between word
  have tl : TN (t + 1) = .ok (2 ^ (t + 1)) := TN_ok (by omega) (by omega)
  have high : TN (32 + (t + 1)) = .ok (2 ^ (32 + (t + 1))) := TN_ok (by omega) (by omega)
  have excess : TN (32 + (t + 1) - p) = .ok (2 ^ (32 + (t + 1) - p)) := TN_ok (by omega) (by omega)
  have notWhole : ¬ (t : Int) + 1 + p = 64 := by omega
  rw [multiplier]
  simp only [top, tl, ok_bind]
  rw [quotient_ok positive, ok_bind, if_neg notWhole, high, ok_bind, excess, ok_bind, quotient_ok positive, ok_bind,
    lower_host between, upper_host small word some, show ((t : Int) + 1).toNat = t + 1 by omega, assert, decide_eq_true differ, if_pos rfl]
  rfl

theorem upper_lt {d t p l e : Nat} (above : 2 ^ t < d) (shift : l ≤ t + e) (tolerance : l < p + e) : upper d p l < 2 ^ (32 + e) := by
  have positive : 0 < d := Nat.lt_of_le_of_lt (Nat.zero_le _) above
  rw [upper, Nat.div_lt_iff_lt_mul positive]
  have first : 2 ^ (32 + l) ≤ 2 ^ (32 + e) * 2 ^ t := by
    rw [← Nat.pow_add]
    exact Nat.pow_le_pow_right (by decide) (by omega)
  have second : 2 ^ (32 + l - p) < 2 ^ (32 + e) := Nat.pow_lt_pow_right (by decide) (by omega)
  have third := Nat.mul_le_mul_left (2 ^ (32 + e)) above
  rw [Nat.mul_succ] at third
  omega

/-- What `multiplier` returns for a divisor that is neither 0 nor 1. -/
structure Multiplies (d p t l m : Nat) : Prop where
  between : Between d t
  result : multiplier d p = .ok (l, m)
  value : m = upper d p l
  shift : l ≤ t + 1
  shorter : p ≤ 31 → l ≤ t
  approximates : Approximates m d (32 + l) p

theorem multiplier_multiplies {d p : Nat} (two : 2 ≤ d) (small : d < 2 ^ 31) (word : p ≤ 32) (some : 1 ≤ p) :
    ∃ t l m, Multiplies d p t l m := by
  obtain ⟨t, between, top⟩ := between_exists two small
  obtain ⟨l, less, result, differ, first⟩ := reduce_spec word (bounds_differ between word)
  refine ⟨t, l, upper d p l, between, ?_, rfl, less, ?_, upper_approximates word (by omega) differ⟩
  · rw [multiplier_eq between top word some, result]
  · intro narrow
    have most := between.most
    have apart : 2 * d ≤ 2 ^ (32 + (t + 1) - p) := by
      have : 2 ^ (t + 1 + 1) ≤ 2 ^ (32 + (t + 1) - p) := Nat.pow_le_pow_right (by decide) (by omega)
      rw [Nat.pow_succ] at this
      omega
    have := first (Nat.succ_pos t) (lower_add_le apart (by omega))
    omega

theorem makeOdd_spec {d : Nat} (p : Nat) (positive : 0 < d) :
    ∃ odd k, makeOdd d p = (odd, p + k) ∧ d = odd * 2 ^ k ∧ odd % 2 = 1 := by
  induction d using Nat.strongRecOn generalizing p with
  | ind d ih =>
    rw [makeOdd]
    split
    next even =>
      obtain ⟨odd, k, result, value, parity⟩ := ih (d / 2) (by omega) (p + 1) (by omega)
      refine ⟨odd, k + 1, by rw [result, Nat.add_assoc, Nat.add_comm 1], ?_, parity⟩
      rw [Nat.pow_succ, ← Nat.mul_assoc, ← value]
      omega
    next odd =>
      exact ⟨d, 0, rfl, by simp, by omega⟩

/-- The parameters of an unsigned division that has no fault. -/
inductive Udivides (d : Nat) : Udiv → Prop where
  | plain {m l : Nat} (small : m < 2 ^ 32) (shift : l < 32) (approximates : Approximates m d (32 + l) 32) :
      Udivides d ⟨m, l, 0, false⟩
  | carry {m l : Nat} (least : 2 ^ 32 ≤ m) (most : m < 2 ^ 33) (shift : l < 31) (approximates : Approximates m d (33 + l) 32) :
      Udivides d ⟨m, l, 0, true⟩
  | even {m l k odd : Nat} (small : m < 2 ^ 32) (shift : l < 32) (places : k < 32) (some : 0 < k) (value : d = odd * 2 ^ k)
      (approximates : Approximates m odd (32 + l) (32 - k)) : Udivides d ⟨m, l, k, false⟩

/-- A multiplier of 33 bits for an odd divisor. -/
theorem udivides_carry {d t l m : Nat} (two : 2 ≤ d) (first : Multiplies d 32 t l m) (long : 2 ^ 32 ≤ m) :
    Udivides d ⟨m, l - 1, 0, true⟩ := by
  have few := first.between.small
  have shift := first.shift
  have most : m < 2 ^ 33 := first.value ▸ upper_lt first.between.above shift (by omega)
  have some : l ≠ 0 := by
    rintro rfl
    have value := first.value
    have half : (2 ^ (32 + 0) + 2 ^ (32 + 0 - 32)) / d ≤ (2 ^ (32 + 0) + 2 ^ (32 + 0 - 32)) / 2 := Nat.div_le_div_left two (by decide)
    rw [upper] at value
    omega
  obtain ⟨l, rfl⟩ : ∃ j, l = j + 1 := ⟨l - 1, by omega⟩
  have exponent : 32 + (l + 1) = 33 + l := by omega
  have approximates := first.approximates
  rw [exponent] at approximates
  rw [show ((l + 1 : Nat) : Int) - 1 = l by omega]
  exact .carry long most (by omega) approximates

/-- The odd part of an even divisor has a multiplier of 32 bits. -/
theorem udivides_even {odd k : Nat} (two : 2 ≤ odd) (some : 0 < k) (small : odd * 2 ^ k < 2 ^ 31) :
    ∃ l m, multiplier odd ((32 : Nat) - k) = .ok (l, m) ∧ m < 2 ^ 32 ∧ Udivides (odd * 2 ^ k) ⟨m, l, k, false⟩ := by
  have small' : odd < 2 ^ 31 := Nat.lt_of_le_of_lt (Nat.le_mul_of_pos_right _ (Nat.two_pow_pos k)) small
  have places : k < 31 := by
    have : 2 ^ k < 2 ^ 31 := Nat.lt_of_le_of_lt (Nat.le_mul_of_pos_left _ (by omega)) small
    exact (Nat.pow_lt_pow_iff_right (by decide)).mp this
  obtain ⟨t, l, m, second⟩ := multiplier_multiplies two small' (by omega : 32 - k ≤ 32) (by omega)
  have shift := second.shorter (by omega)
  have room : t + k < 31 := by
    have : 2 ^ (t + k) < 2 ^ 31 := by
      rw [Nat.pow_add]
      exact Nat.lt_of_le_of_lt (Nat.mul_le_mul_right _ (Nat.le_of_lt second.between.above)) small
    exact (Nat.pow_lt_pow_iff_right (by decide)).mp this
  have word : m < 2 ^ 32 := second.value ▸ upper_lt (e := 0) second.between.above shift (by omega)
  refine ⟨l, m, ?_, word, .even word (by omega) (by omega) some rfl second.approximates⟩
  rw [← Int.ofNat_sub (by omega : k ≤ 32)]
  exact second.result

theorem udiv_udivides {d : Nat} (two : 2 ≤ d) (small : d < 2 ^ 31) (notPower : ∀ k, d ≠ 2 ^ k) :
    ∃ u, udiv d = .ok u ∧ Udivides d u := by
  obtain ⟨t, l, m, first⟩ := multiplier_multiplies two small (Nat.le_refl 32) (by decide)
  have few := first.between.small
  have shift := first.shift
  have result : multiplier d 32 = .ok (l, m) := first.result
  rw [udiv, result, ok_bind]
  by_cases word : m < 2 ^ 32
  · have notLong : ¬ m ≥ T32 := Nat.not_le.mpr word
    refine ⟨⟨m, l, 0, false⟩, ?_, .plain word (by omega) first.approximates⟩
    simp only [pure, Except.pure, ok_bind, if_neg notLong]
  · have long : m ≥ T32 := Nat.not_lt.mp word
    obtain ⟨odd, k, made, value, parity⟩ := makeOdd_spec 0 (by omega : 0 < d)
    rw [Nat.zero_add] at made
    simp only [if_pos long, made]
    rcases Nat.eq_zero_or_pos k with rfl | some
    · rw [Nat.pow_zero, Nat.mul_one] at value
      subst value
      refine ⟨⟨m, l - 1, 0, true⟩, ?_, udivides_carry two first long⟩
      have again : multiplier d (32 - (0 : Nat)) = .ok (l, m) := first.result
      rw [again, ok_bind]
      simp only [pure, Except.pure, ok_bind, if_pos long]
      rfl
    · have two' : 2 ≤ odd := by
        have : odd ≠ 1 := by
          rintro rfl
          exact notPower k (by rw [value, Nat.one_mul])
        omega
      obtain ⟨l', m', second, word', divides⟩ := udivides_even two' some (value ▸ small)
      have notLong : ¬ m' ≥ T32 := Nat.not_le.mpr word'
      refine ⟨⟨m', l', k, false⟩, ?_, value ▸ divides⟩
      have second' : multiplier odd (32 - k) = .ok (l', m') := second
      rw [second', ok_bind]
      simp only [pure, Except.pure, ok_bind, if_neg notLong]

/-! The code. -/

theorem nodconst_toNat (v : Nat) : (nodconst v).toNat = v % 2 ^ 32 := by
  rw [nodconst, BitVec.toNat_ofInt]
  omega

theorem count_eq {k : Nat} (places : k < 32) : (nodconst k).toNat % 32 = k := by
  rw [nodconst_toNat]
  omega

/-- The last shift, if there is one. -/
theorem run_shift {code : List Inst} {s s' : State} {k : Nat} (ran : run code s = some s') (places : k < 32) :
    ∃ last, run (code ++ if (k : Int) ≠ 0 then [.SHRL (nodconst k) .DX] else []) s = some last ∧
      (last.reg .DX).toNat = (s'.reg .DX).toNat / 2 ^ k := by
  rw [run_append, ran]
  split
  next => exact ⟨_, rfl, by simp [count_eq places, Nat.shiftRight_eq_div_pow]⟩
  next zero =>
    have none : k = 0 := by omega
    exact ⟨s', rfl, by simp [none]⟩

section Run

variable {s : State} {l : Operand} {m : Nat}

theorem run_product (notAX : l ≠ .reg .AX) (small : m < 2 ^ 32) :
    ∃ s', run [.MOVL (.imm (nodconst m)) .AX, .MULL l] s = some s' ∧ (s'.reg .DX).toNat = m * (s.read l).toNat / 2 ^ 32 := by
  have bound := (s.read l).isLt
  have product : m * (s.read l).toNat < 2 ^ 32 * 2 ^ 32 := Nat.mul_lt_mul'' small bound
  refine ⟨_, rfl, ?_⟩
  simp only [State.read_imm, State.write_same, State.read_write s _ notAX, State.flag_reg, nodconst_toNat, Nat.mod_eq_of_lt small]
  exact highHalf_natCast product

/-- The dividend is added for bit 32 of the multiplier, and the rotation takes the
carry in. -/
theorem run_carry (notAX : l ≠ .reg .AX) (notDX : l ≠ .reg .DX) (least : 2 ^ 32 ≤ m) (most : m < 2 ^ 33) :
    ∃ s', run [.MOVL (.imm (nodconst m)) .AX, .MULL l, .ADDL l .DX, .RCRL (nodconst 1) .DX] s = some s' ∧
      (s'.reg .DX).toNat = m * (s.read l).toNat / 2 ^ 33 := by
  obtain ⟨q, rfl⟩ := Nat.exists_eq_add_of_le least
  have bound := (s.read l).isLt
  have low : (nodconst (2 ^ 32 + q : Nat)).toNat = q := by
    rw [nodconst_toNat]
    omega
  have product : q * (s.read l).toNat < 2 ^ 32 * 2 ^ 32 := Nat.mul_lt_mul'' (by omega) bound
  have high := highHalf_natCast product
  have once : (nodconst 1).toNat % 32 = 1 := rfl
  refine ⟨_, rfl, ?_⟩
  simp only [State.read_imm, State.write_same, State.read_write _ _ notAX, State.read_write _ _ notDX, State.flag_reg, State.read_flag,
    State.flag_carry, low, once, rotates, rotate_toNat, ← Int.natCast_mul, BitVec.toNat_add, high]
  rw [Nat.add_mul]
  generalize q * (s.read l).toNat = x at *
  split <;> simp only [decide_eq_true_eq] at * <;> omega

theorem run_odd {k : Nat} (places : k < 32) (small : m < 2 ^ 32) :
    ∃ s', run [.MOVL l .AX, .SHRL (nodconst k) .AX, .MOVL (.imm (nodconst m)) .DX, .MULL (.reg .DX)] s = some s' ∧
      (s'.reg .DX).toNat = m * ((s.read l).toNat / 2 ^ k) / 2 ^ 32 := by
  have bound := (s.read l).isLt
  have quotient : (s.read l).toNat / 2 ^ k < 2 ^ 32 := Nat.lt_of_le_of_lt (Nat.div_le_self _ _) bound
  have product : (s.read l).toNat / 2 ^ k * m < 2 ^ 32 * 2 ^ 32 := Nat.mul_lt_mul'' quotient small
  refine ⟨_, rfl, ?_⟩
  have different : Reg.AX ≠ Reg.DX := by decide
  simp only [State.read_imm, State.read_reg, State.write_same, State.write_other _ _ different, State.flag_reg, count_eq places,
    nodconst_toNat m, Nat.mod_eq_of_lt small, BitVec.toNat_ushiftRight, Nat.shiftRight_eq_div_pow]
  rw [← Int.natCast_mul, highHalf_natCast product, Nat.mul_comm]

end Run

/-- The code for a divisor: it is produced without a fault, its shifts are in
range, and it leaves the quotient of any dividend in DX. -/
def Divides (l : Operand) (nod : Reg) (d : Nat) : Prop :=
  ∃ code, udivgen l nod d = .ok code ∧ (∀ i ∈ code, i.inRange) ∧
    ∀ s, ∃ s', run code s = some s' ∧ (s'.reg .DX).toNat = (s.read l).toNat / d

theorem shift_inRange {k : Nat} (places : k < 32) (r : Reg) : (Inst.SHRL (nodconst k) r).inRange := by
  rw [Inst.inRange, nodconst_toNat]
  omega

/-- The shift that follows the product keeps to what was said of it. -/
theorem divides_shift {l : Operand} {nod : Reg} {d k : Nat} (product : List Inst) (places : k < 32)
    (code : udivgen l nod d = .ok (product ++ if (k : Int) ≠ 0 then [.SHRL (nodconst k) .DX] else []))
    (inRange : ∀ i ∈ product, i.inRange)
    (runs : ∀ s, ∃ s', run product s = some s' ∧ (s'.reg .DX).toNat / 2 ^ k = (s.read l).toNat / d) : Divides l nod d := by
  refine ⟨_, code, ?_, ?_⟩
  · intro i member
    rcases List.mem_append.mp member with first | last
    · exact inRange i first
    · split at last
      next => exact List.mem_singleton.mp last ▸ shift_inRange places .DX
      next => cases last
  · intro s
    obtain ⟨s', ran, value⟩ := runs s
    obtain ⟨last, ran', value'⟩ := run_shift ran places
    exact ⟨last, ran', by rw [value', value]⟩

theorem udivgen_divides {l : Operand} {nod : Reg} {d : Nat} {u : Udiv} (notAX : l ≠ .reg .AX) (notDX : l ≠ .reg .DX)
    (nodAX : nod ≠ .AX) (nodDX : nod ≠ .DX) (chosen : udiv d = .ok u) (divides : Udivides d u) : Divides l nod d := by
  cases divides with
  | @plain m k small shift approximates =>
    apply divides_shift [.MOVL (.imm (nodconst m)) .AX, .MULL l] shift
    · rw [udivgen, chosen, ok_bind]
      rfl
    · simp [Inst.inRange]
    · intro s
      obtain ⟨s', ran, value⟩ := run_product (s := s) notAX small
      refine ⟨s', ran, ?_⟩
      rw [value, Nat.div_div_eq_div_mul, ← Nat.pow_add, approximates.div_eq (s.read l).isLt]
  | @carry m k least most shift approximates =>
    have quotient : ∀ n : Word, m * n.toNat / 2 ^ 33 / 2 ^ k = n.toNat / d := by
      intro n
      rw [Nat.div_div_eq_div_mul, ← Nat.pow_add, approximates.div_eq n.isLt]
    have few : k < 32 := by omega
    cases register : isRegister l with
    | true =>
      apply divides_shift [.MOVL (.imm (nodconst m)) .AX, .MULL l, .ADDL l .DX, .RCRL (nodconst 1) .DX] few
      · rw [udivgen, chosen, ok_bind]
        simp only [register]
        rfl
      · simp [Inst.inRange, nodconst]
      · intro s
        obtain ⟨s', ran, value⟩ := run_carry (s := s) notAX notDX least most
        exact ⟨s', ran, by rw [value, quotient]⟩
    | false =>
      have copyAX : Operand.reg nod ≠ .reg .AX := fun same => nodAX (Operand.reg.inj same)
      have copyDX : Operand.reg nod ≠ .reg .DX := fun same => nodDX (Operand.reg.inj same)
      apply divides_shift
        [.MOVL l nod, .MOVL (.imm (nodconst m)) .AX, .MULL (.reg nod), .ADDL (.reg nod) .DX, .RCRL (nodconst 1) .DX] few
      · rw [udivgen, chosen, ok_bind]
        simp only [register]
        rfl
      · simp [Inst.inRange, nodconst]
      · intro s
        obtain ⟨s', ran, value⟩ := run_carry (s := s.write nod (s.read l)) copyAX copyDX least most
        refine ⟨s', ran, ?_⟩
        rw [value, State.read_reg, State.write_same, quotient]
  | @even m k places odd small shift few some value approximates =>
    apply divides_shift [.MOVL l .AX, .SHRL (nodconst places) .AX, .MOVL (.imm (nodconst m)) .DX, .MULL (.reg .DX)] shift
    · rw [udivgen, chosen, ok_bind]
      simp only [if_pos (Nat.ne_of_gt some)]
      rfl
    · simp [Inst.inRange, nodconst_toNat]
      omega
    · intro s
      obtain ⟨s', ran, high⟩ := run_odd (s := s) few small
      refine ⟨s', ran, ?_⟩
      have bound : (s.read l).toNat / 2 ^ places < 2 ^ (32 - places) := by
        rw [Nat.div_lt_iff_lt_mul (Nat.two_pow_pos places), ← Nat.pow_add, Nat.sub_add_cancel (by omega)]
        exact (s.read l).isLt
      rw [high, Nat.div_div_eq_div_mul, ← Nat.pow_add, approximates.div_eq bound, value, Nat.div_div_eq_div_mul, Nat.mul_comm]

/-- No code without the reciprocal: the compiler divides by the divisor, or shifts
by the size of its integers before it gets there. -/
theorem udivgen_zero (l : Operand) (nod : Reg) : ¬ Divides l nod 0 := by
  rintro ⟨code, result, _⟩
  have stopped : multiplier 0 32 = .error .shift := by
    have top : topbit (uvlong ((0 : Nat) - 1)) = 63 := by decide +kernel
    rw [multiplier, top]
    rfl
  rw [udivgen, udiv, stopped] at result
  cases result

/-- Of the divisors that get there, the code is right for all but zero. -/
theorem udivgen_divides_iff (o : Unsigned) (l : Operand) (nod : Reg) (d : Nat) (word : d < 2 ^ 32) (passed : Passed o d)
    (operand : l ≠ .reg .AX ∧ l ≠ .reg .DX) (register : nod ≠ .AX ∧ nod ≠ .DX) : Divides l nod d ↔ d ≠ 0 := by
  obtain ⟨_, notPower, bit⟩ := passed
  constructor
  · rintro divides rfl
    exact udivgen_zero l nod divides
  · intro nonzero
    have small : d < 2 ^ 31 := by
      by_contra large
      have top : d.testBit 31 := by
        rw [Nat.testBit_eq_decide_div_mod_eq, Nat.div_eq_of_lt_le (k := 1) (by omega) (by omega)]
        rfl
      have mask := Nat.and_two_pow d 31
      rw [top, show 2 ^ 31 = 0x80000000 from rfl, bit] at mask
      cases mask
    rw [xcomKeeps, log2_neg (by omega)] at notPower
    have two : 2 ≤ d := by
      have := notPower 0
      omega
    obtain ⟨u, chosen, divides⟩ := udiv_udivides two small notPower
    exact udivgen_divides operand.1 operand.2 register.1 register.2 chosen divides

theorem udivgen_divides_seven : Passed .OLDIV 7 ∧ Divides (.mem 0) .BX 7 := by
  have passed : Passed .OLDIV 7 := ⟨⟨by decide, by decide⟩, by unfold xcomKeeps; decide, by decide⟩
  exact ⟨passed, (udivgen_divides_iff .OLDIV (.mem 0) .BX 7 (by decide) passed (by decide) (by decide)).mpr (by decide)⟩

theorem udivgen_divide_check : Passed .OASLDIV 0 ∧ ¬ Divides (.mem 0) .BX 0 :=
  ⟨⟨trivial, by unfold xcomKeeps; decide, by decide⟩, udivgen_zero (.mem 0) .BX⟩

end Goken.Proofs.Div8
