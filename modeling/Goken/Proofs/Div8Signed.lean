import Goken.Lib.Truncate
import Goken.Proofs.Div8

/-! Signed division and remainder by constants on the x86: the multiplication, the
shifts with a bias for negative dividends, and the machine's own division all
round toward zero. -/

namespace Goken.Proofs.Div8Signed
open Goken.Div8 Goken.Const Lib.X86 Lib.Reciprocal Lib.Truncate Goken.Proofs.Div8

/-! Words as the integers they stand for. -/

theorem toInt_range (w : Word) : -2 ^ 31 ≤ w.toInt ∧ w.toInt < 2 ^ 31 := by
  have := w.isLt
  rw [BitVec.toInt_eq_toNat_cond]
  split <;> omega

theorem toInt_ofInt_range {x : Int} (low : -2 ^ 31 ≤ x) (high : x < 2 ^ 31) : (BitVec.ofInt 32 x).toInt = x := by
  rw [BitVec.toInt_ofInt, Int.bmod_def]
  omega

theorem sshiftRight_eq (w : Word) (k : Nat) : w.sshiftRight k = BitVec.ofInt 32 (w.toInt / 2 ^ k) := by
  have value : w.toInt / 2 ^ k = (w.sshiftRight k).toInt := by
    rw [BitVec.toInt_sshiftRight, Int.shiftRight_eq_div_pow]
    push_cast
    rfl
  rw [value, BitVec.ofInt_toInt]

/-- The sign of a word, in all bits and in the lowest. -/
theorem sign_eq (w : Word) : w.sshiftRight 31 = BitVec.ofInt 32 (if w.toInt < 0 then -1 else 0) := by
  have range := toInt_range w
  rw [sshiftRight_eq]
  congr 1
  split <;> omega

theorem signBit_eq (w : Word) : w >>> 31 = BitVec.ofInt 32 (if w.toInt < 0 then 1 else 0) := by
  have bound := w.isLt
  rw [BitVec.toInt_eq_toNat_cond]
  apply BitVec.eq_of_toNat_eq
  rw [BitVec.toNat_ushiftRight, Nat.shiftRight_eq_div_pow, BitVec.toNat_ofInt]
  split <;> split <;> omega

/-! The multiplication. -/

theorem sdiv_multiplies {d : Nat} (two : 2 ≤ d) (small : d < 2 ^ 31) :
    ∃ k m, Goken.Div8.sdiv d = .ok (m, k, decide (m ≥ T31)) ∧ m < 2 ^ 32 ∧ k < 32 ∧ Approximates m d (32 + k) 31 := by
  obtain ⟨t, k, m, multiplies⟩ := multiplier_multiplies two small (by decide : 31 ≤ 32) (by decide)
  have few := multiplies.between.small
  have shift := multiplies.shorter (Nat.le_refl 31)
  have word : m < 2 ^ 32 := multiplies.value ▸ upper_lt (e := 0) multiplies.between.above shift (by omega)
  have result : multiplier d (32 - 1) = .ok (k, m) := multiplies.result
  refine ⟨k, m, ?_, word, by omega, multiplies.approximates⟩
  rw [Goken.Div8.sdiv, result, ok_bind]
  rfl

section Multiplication

variable {s : State} {l : Operand} {m k : Nat}

theorem run_imull (notAX : l ≠ .reg .AX) (notDX : l ≠ .reg .DX) :
    ∃ s', run [.MOVL (.imm (nodconst m)) .AX, .IMULL l, .MOVL l .AX] s = some s' ∧ s'.reg .AX = s.read l ∧
      s'.reg .DX = BitVec.ofInt 32 ((nodconst m).toInt * (s.read l).toInt / 2 ^ 32) := by
  have other : Reg.DX ≠ Reg.AX := by decide
  refine ⟨_, rfl, ?_, ?_⟩
  · simp only [State.write_same, State.read_flag, State.read_write _ _ notDX, State.read_write _ _ notAX]
  · simp only [State.write_other _ _ other, State.flag_reg, State.write_same, State.read_imm, State.read_write _ _ notAX, highHalf]

/-- The high half of the product, with the dividend added where the multiplier
counts as negative. -/
theorem run_high (notAX : l ≠ .reg .AX) (notDX : l ≠ .reg .DX) (small : m < 2 ^ 32) :
    ∃ s', run ([.MOVL (.imm (nodconst m)) .AX, .IMULL l, .MOVL l .AX] ++ if decide (m ≥ T31) then [.ADDL (.reg .AX) .DX] else []) s = some s' ∧
      s'.reg .AX = s.read l ∧ s'.reg .DX = BitVec.ofInt 32 (m * (s.read l).toInt / 2 ^ 32) := by
  obtain ⟨s', ran, ax, dx⟩ := run_imull (s := s) (m := m) notAX notDX
  have different : Reg.AX ≠ Reg.DX := by decide
  rw [run_append, ran]
  by_cases large : m ≥ T31
  · have multiplier : (nodconst m).toInt = m + -1 * 2 ^ 32 := by
      rw [nodconst, BitVec.toInt_ofInt, Int.bmod_def]
      rw [T31] at large
      omega
    have added : (nodconst m).toInt * (s.read l).toInt / 2 ^ 32 + (s.read l).toInt = m * (s.read l).toInt / 2 ^ 32 := by
      rw [multiplier, Int.add_mul, show -1 * 2 ^ 32 * (s.read l).toInt = -(s.read l).toInt * 2 ^ 32 by ring]
      omega
    rw [if_pos (decide_eq_true large)]
    refine ⟨_, rfl, ?_, ?_⟩
    · rw [State.flag_reg, State.write_other _ _ different, ax]
    · rw [State.flag_reg, State.write_same, State.read_reg, ax, dx, ← added, BitVec.ofInt_add, BitVec.ofInt_toInt]
  · have multiplier : (nodconst m).toInt = m := by
      rw [nodconst, BitVec.toInt_ofInt, Int.bmod_def]
      rw [T31] at large
      omega
    rw [if_neg (by simpa using large)]
    exact ⟨s', rfl, ax, by rw [dx, multiplier]⟩

/-- The code of `sdivgen` but for the sign of the divisor. -/
theorem run_quotient {d : Nat} (notAX : l ≠ .reg .AX) (notDX : l ≠ .reg .DX) (small : m < 2 ^ 32) (places : k < 32)
    (approximates : Approximates m d (32 + k) 31) :
    ∃ s', run ([.MOVL (.imm (nodconst m)) .AX, .IMULL l, .MOVL l .AX] ++ (if decide (m ≥ T31) then [.ADDL (.reg .AX) .DX] else [])
        ++ [.SHRL (nodconst 31) .AX, .SARL (nodconst k) .DX, .ADDL (.reg .AX) .DX]) s = some s' ∧
      s'.reg .DX = BitVec.ofInt 32 ((s.read l).toInt.tdiv d) := by
  obtain ⟨s', ran, ax, dx⟩ := run_high (s := s) notAX notDX small
  have range := toInt_range (s.read l)
  have different : Reg.AX ≠ Reg.DX := by decide
  have other : Reg.DX ≠ Reg.AX := by decide
  have last : (nodconst 31).toNat % 32 = 31 := rfl
  have high : (BitVec.ofInt 32 (m * (s.read l).toInt / 2 ^ 32)).toInt = m * (s.read l).toInt / 2 ^ 32 := by
    apply toInt_ofInt_range
    · apply Int.le_ediv_of_mul_le (by decide)
      nlinarith
    · apply Int.ediv_lt_of_lt_mul (by decide)
      nlinarith
  have quotient := approximates.tdiv_eq range.1 range.2
  rw [run_append, ran]
  refine ⟨_, rfl, ?_⟩
  simp only [State.flag_reg, State.write_same, State.read_reg, State.write_other _ _ different, State.write_other _ _ other, ax, dx, last,
    count_eq places, signBit_eq, sshiftRight_eq, high]
  rw [← BitVec.ofInt_add, ← quotient, Int.pow_add, ← Int.ediv_ediv_of_nonneg (by decide)]

end Multiplication

/-- The last instruction where the divisor is negative. -/
theorem run_neg {code : List Inst} {s s' : State} {r : Reg} {c x : Int} (ran : run code s = some s')
    (value : s'.reg r = BitVec.ofInt 32 x) :
    ∃ last, run (code ++ if c < 0 then [.NEGL r] else []) s = some last ∧ last.reg r = BitVec.ofInt 32 (if c < 0 then -x else x) := by
  rw [run_append, ran]
  split
  next => exact ⟨_, rfl, by rw [State.flag_reg, State.write_same, value, BitVec.ofInt_neg]⟩
  next => exact ⟨s', rfl, value⟩

theorem magnitude_eq (c : Int) : (if c < 0 then -c else c) = c.natAbs := by
  split <;> omega

/-- The quotient by a constant from that by its magnitude. -/
theorem tdiv_magnitude (n c : Int) : (if c < 0 then -n.tdiv c.natAbs else n.tdiv c.natAbs) = n.tdiv c := by
  rw [← magnitude_eq]
  split <;> simp

theorem sdivgen_divides {l : Operand} {c : Int} (notAX : l ≠ .reg .AX) (notDX : l ≠ .reg .DX) (two : 2 ≤ c.natAbs)
    (small : c.natAbs < 2 ^ 31) : ∃ code, sdivgen l c = .ok code ∧
      ∀ s, ∃ s', run code s = some s' ∧ s'.reg .DX = BitVec.ofInt 32 ((s.read l).toInt.tdiv c) := by
  obtain ⟨k, m, result, word, places, approximates⟩ := sdiv_multiplies two small
  rw [sdivgen, magnitude_eq, uvlong_of_lt (by omega), result, ok_bind]
  refine ⟨_, rfl, fun s => ?_⟩
  obtain ⟨s', ran, value⟩ := run_quotient (s := s) notAX notDX word places approximates
  obtain ⟨last, ran', value'⟩ := run_neg (c := c) ran value
  exact ⟨last, ran', by rw [value', tdiv_magnitude]⟩

/-! The shifts. -/

theorem nodconst_lowMask (v : Nat) : nodconst (lowMask v) = BitVec.ofInt 32 (2 ^ v - 1) := by
  have wrapped : Int.bmod (lowMask v) (2 ^ 32) = Int.bmod (2 ^ v - 1) (2 ^ 32) := by
    unfold lowMask
    generalize (2 : Int) ^ v = x
    rw [Int.bmod_bmod, Int.bmod_sub_bmod]
  apply BitVec.eq_of_toInt_eq
  rw [nodconst, BitVec.toInt_ofInt, BitVec.toInt_ofInt]
  exact wrapped

/-- Low bits of a word. -/
theorem and_lowMask (w : Word) {v : Nat} (places : v < 32) :
    w &&& BitVec.ofInt 32 (2 ^ v - 1) = BitVec.ofInt 32 (w.toInt % 2 ^ v) := by
  have positive := Nat.two_pow_pos v
  have less : 2 ^ v < 2 ^ 32 := Nat.pow_lt_pow_right (by decide) places
  have mask : (BitVec.ofInt 32 (2 ^ v - 1)).toNat = 2 ^ v - 1 := by
    have cast : (2 : Int) ^ v - 1 = (2 ^ v - 1 : Nat) := by
      rw [Int.ofNat_sub positive]
      push_cast
      rfl
    rw [cast, BitVec.toNat_ofInt]
    omega
  have low : w.toInt % 2 ^ v = (w.toNat % 2 ^ v : Nat) := by
    have split : (2 : Int) ^ 32 = 2 ^ (32 - v) * 2 ^ v := by rw [← Int.pow_add, Nat.sub_add_cancel (by omega)]
    have power : ((2 ^ v : Nat) : Int) = 2 ^ v := by push_cast; rfl
    rw [BitVec.toInt_eq_toNat_cond, Int.natCast_emod, power]
    split
    · rfl
    · rw [show ((2 ^ 32 : Nat) : Int) = 2 ^ 32 from rfl, split, Int.sub_mul_emod_self_right]
  have small := Nat.mod_lt w.toNat positive
  apply BitVec.eq_of_toNat_eq
  rw [BitVec.toNat_and, mask, Nat.and_two_pow_sub_one_eq_mod, low, BitVec.toNat_ofInt]
  omega

theorem run_sext {s : State} {ext n : Reg} (apart : ext ≠ n) :
    ∃ s', run (sext ext n) s = some s' ∧ s'.reg n = s.reg n ∧ s'.reg ext = BitVec.ofInt 32 (if (s.reg n).toInt < 0 then -1 else 0) := by
  have last : (nodconst 31).toNat % 32 = 31 := rfl
  unfold sext
  split
  next both =>
    obtain ⟨rfl, rfl⟩ := both
    exact ⟨_, rfl, State.write_other _ _ (by decide), by rw [State.write_same, sign_eq]⟩
  next =>
    refine ⟨_, rfl, ?_, ?_⟩
    · rw [State.flag_reg, State.write_other _ _ apart.symm, State.write_other _ _ apart.symm]
    · rw [State.flag_reg, State.write_same, last, State.write_same, State.read_reg, sign_eq]

section Shifts

variable {s : State} {ext n : Reg} {v : Nat}

theorem power_bounds (places : v < 32) : (1 : Int) ≤ 2 ^ v ∧ (2 : Int) ^ v ≤ 2 ^ 31 := by
  have least : 1 ≤ 2 ^ v := Nat.two_pow_pos v
  have most : 2 ^ v ≤ 2 ^ 31 := Nat.pow_le_pow_right (by decide) (by omega)
  exact ⟨by exact_mod_cast least, by exact_mod_cast most⟩

/-- A biased dividend is still a word. -/
theorem biased_toInt (places : v < 32) (w : Word) :
    (BitVec.ofInt 32 (w.toInt + bias w.toInt (2 ^ v))).toInt = w.toInt + bias w.toInt (2 ^ v) := by
  have range := toInt_range w
  have bounds := power_bounds places
  unfold bias
  apply toInt_ofInt_range <;> split <;> omega

theorem run_bias (apart : ext ≠ n) (places : v < 32) :
    ∃ s', run (sext ext n ++ [.ANDL (.imm (nodconst (lowMask v))) ext, .ADDL (.reg ext) n]) s = some s' ∧
      s'.reg ext = BitVec.ofInt 32 (bias (s.reg n).toInt (2 ^ v)) ∧
      s'.reg n = BitVec.ofInt 32 ((s.reg n).toInt + bias (s.reg n).toInt (2 ^ v)) := by
  obtain ⟨s', ran, same, sign⟩ := run_sext (s := s) apart
  have bounds := power_bounds places
  have masked : s'.reg ext &&& BitVec.ofInt 32 (2 ^ v - 1) = BitVec.ofInt 32 (bias (s.reg n).toInt (2 ^ v)) := by
    rw [and_lowMask _ places, sign]
    unfold bias
    split
    · rw [toInt_ofInt_range (by decide) (by decide), ← Int.add_emod_right]
      rw [Int.emod_eq_of_lt (by omega) (by omega), Int.add_comm]
      rfl
    · simp
  rw [run_append, ran]
  refine ⟨_, rfl, ?_, ?_⟩
  · simp only [State.flag_reg, State.write_same, State.read_imm, State.write_other _ _ apart, nodconst_lowMask, masked]
  · simp only [State.flag_reg, State.write_same, State.read_imm, State.read_reg, State.write_other _ _ apart.symm, nodconst_lowMask, masked,
      same]
    rw [BitVec.ofInt_add, BitVec.ofInt_toInt]

/-- Two needs no mask: the carry of a comparison is the sign. -/
theorem run_half : ∃ s', run [.CMPL (.reg n) (.imm (nodconst 0x80000000)), .SBBL (.imm (nodconst (-1))) n] s = some s' ∧
    s'.reg n = BitVec.ofInt 32 ((s.reg n).toInt + bias (s.reg n).toInt (2 ^ 1)) := by
  refine ⟨_, rfl, ?_⟩
  have bound := (s.reg n).isLt
  have least : (nodconst 0x80000000).toNat = 2 ^ 31 := rfl
  have minus : (nodconst (-1)).toNat = 2 ^ 32 - 1 := rfl
  have value := BitVec.toInt_eq_toNat_cond (s.reg n)
  simp only [State.flag_reg, State.write_same, State.read_reg, State.read_imm, carryBit, State.flag_carry, BitVec.lt_def, least,
    decide_eq_true_eq]
  apply BitVec.eq_of_toNat_eq
  rw [BitVec.toNat_ofInt, bias]
  split
  · simp only [BitVec.toNat_sub, minus, BitVec.ofNat_eq_ofNat, BitVec.toNat_ofNat]
    split at value <;> split <;> omega
  · simp only [BitVec.toNat_sub, minus, BitVec.ofNat_eq_ofNat, BitVec.toNat_ofNat]
    split at value <;> split <;> omega

/-- The shift of a biased dividend rounds toward zero. -/
theorem run_shifted {code : List Inst} {s' : State} (ran : run code s = some s') (places : v < 32)
    (value : s'.reg n = BitVec.ofInt 32 ((s.reg n).toInt + bias (s.reg n).toInt (2 ^ v))) :
    ∃ last, run (code ++ [.SARL (nodconst v) n]) s = some last ∧ last.reg n = BitVec.ofInt 32 ((s.reg n).toInt.tdiv (2 ^ v)) := by
  have positive := (power_bounds places).1
  rw [run_append, ran]
  refine ⟨_, rfl, ?_⟩
  rw [State.flag_reg, State.write_same, count_eq places, sshiftRight_eq, value, biased_toInt places, ← tdiv_eq_bias _ (by omega)]

theorem run_sdiv2 (c : Int) (apart : ext ≠ n) (places : v < 32) :
    ∃ s', run (sdiv2 c v ext n) s = some s' ∧
      s'.reg n = BitVec.ofInt 32 (if c < 0 then -(s.reg n).toInt.tdiv (2 ^ v) else (s.reg n).toInt.tdiv (2 ^ v)) := by
  unfold sdiv2
  split
  next some =>
    split
    next many =>
      obtain ⟨s', ran, _, biased⟩ := run_bias (s := s) apart places
      obtain ⟨s'', ran', shifted⟩ := run_shifted ran places biased
      exact run_neg ran' shifted
    next =>
      have one : v = 1 := by omega
      subst one
      obtain ⟨s', ran, biased⟩ := run_half (s := s) (n := n)
      obtain ⟨s'', ran', shifted⟩ := run_shifted ran places biased
      exact run_neg ran' shifted
  next none =>
    have zero : v = 0 := by omega
    subst zero
    have same : s.reg n = BitVec.ofInt 32 ((s.reg n).toInt.tdiv (2 ^ 0)) := by simp
    exact run_neg (rfl : run [] s = some s) same

theorem tmod_natAbs (x c : Int) : x.tmod c.natAbs = x.tmod c := by
  rcases Int.natAbs_eq c with same | opposite
  · rw [← same]
  · rw [opposite, Int.tmod_neg, Int.natAbs_neg, Int.natAbs_natCast]

/-- A word with the sign put on it by an exclusive or and a subtraction. -/
theorem xor_sub_sign (w sign : Word) (negative : Bool) (value : sign = BitVec.ofInt 32 (if negative then -1 else 0)) :
    (w ^^^ sign) - sign = if negative then -w else w := by
  subst value
  cases negative with
  | false => simp
  | true =>
    have ones : BitVec.ofInt 32 (if true then -1 else 0) = BitVec.allOnes 32 := rfl
    rw [ones, BitVec.xor_allOnes, if_pos rfl, BitVec.neg_eq_not_add, ← BitVec.neg_one_eq_allOnes, BitVec.sub_neg]

theorem run_smod2 {c : Int} (apart : ext ≠ n) (places : v < 32) (power : c.natAbs = 2 ^ v) :
    ∃ s', run (smod2 c v ext n) s = some s' ∧ s'.reg n = BitVec.ofInt 32 ((s.reg n).toInt.tmod (2 ^ v)) := by
  have positive := (power_bounds places).1
  have other : ∀ (t : State) (w : Word), (t.write n w).reg ext = t.reg ext := fun t w => State.write_other t w apart
  unfold smod2
  split
  next one =>
    have zero : v = 0 := by
      rcases v with _ | v
      · rfl
      · rw [one, Nat.pow_succ] at power
        omega
    subst zero
    exact ⟨_, rfl, by simp [nodconst]⟩
  next =>
    obtain ⟨s', ran, same, sign⟩ := run_sext (s := s) apart
    split
    next zero =>
      subst zero
      rw [run_append, ran]
      refine ⟨_, rfl, ?_⟩
      simp [other, nodconst]
    next =>
      split
      next many =>
        obtain ⟨s'', ran', ext_eq, biased⟩ := run_bias (s := s) apart places
        have regroup : ∀ a b c d : Inst, sext ext n ++ [a, b, c, d] = (sext ext n ++ [a, b]) ++ [c, d] := by simp
        rw [regroup, run_append, ran']
        refine ⟨_, rfl, ?_⟩
        simp only [State.flag_reg, State.write_same, State.read_imm, State.read_reg, other, nodconst_lowMask, ext_eq, biased,
          and_lowMask _ places, biased_toInt places]
        rw [BitVec.sub_eq_add_neg, ← BitVec.ofInt_neg, ← BitVec.ofInt_add, ← Int.sub_eq_add_neg, ← tmod_eq_bias _ (by omega)]
      next =>
        have one : v = 1 := by omega
        subst one
        have low := and_lowMask (s.reg n) places
        rw [run_append, ran]
        refine ⟨_, rfl, ?_⟩
        simp only [State.flag_reg, State.write_same, State.read_imm, State.read_reg, other, same]
        rw [xor_sub_sign _ _ (decide ((s.reg n).toInt < 0)) (by simpa using sign), show nodconst 1 = BitVec.ofInt 32 (2 ^ 1 - 1) from rfl, low,
          tmod_eq_bias _ (by decide), bias]
        by_cases negative : (s.reg n).toInt < 0
        · rw [if_pos (decide_eq_true negative), if_pos negative, ← BitVec.ofInt_neg]
          congr 1
          omega
        · rw [if_neg (by simpa using negative), if_neg negative]
          congr 1
          omega

end Shifts

/-! The machine's division. -/

theorem run_idivl {s : State} {l : Operand} {c : Int} {word : Nat} (two : 2 ≤ c.natAbs) (low : -2 ^ 31 ≤ c) (high : c < 2 ^ 31) :
    ∃ s', run [.MOVL l .AX, .CDQ, .MOVLM (.imm (nodconst c)) word, .IDIVL (.mem word)] s = some s' ∧
      s'.reg .DX = BitVec.ofInt 32 ((s.read l).toInt.tmod c) := by
  have range := toInt_range (s.read l)
  have divisor : (nodconst c).toInt = c := toInt_ofInt_range low high
  have dividend : ((s.read l).sshiftRight 31).toInt * 2 ^ 32 + (s.read l).toNat = (s.read l).toInt := by
    have bound := (s.read l).isLt
    have value := BitVec.toInt_eq_toNat_cond (s.read l)
    rw [sign_eq, toInt_ofInt_range (by split <;> decide) (by split <;> decide)]
    split at value <;> split <;> omega
  have small : ((s.read l).toInt.tdiv c).natAbs ≤ 2 ^ 30 := by
    rw [Int.natAbs_tdiv]
    refine Nat.le_trans (Nat.div_le_div_left two (by decide)) ?_
    rw [Nat.div_le_iff_le_mul_add_pred (by decide)]
    omega
  have fits : ¬ (c = 0 ∨ ¬ (-2 ^ 31 ≤ (s.read l).toInt.tdiv c ∧ (s.read l).toInt.tdiv c < 2 ^ 31)) := by omega
  have different : Reg.AX ≠ Reg.DX := by decide
  simp only [run, exec, Option.bind_some, State.read_imm, State.read_mem, State.store_same, State.store_reg, State.write_same,
    State.write_other _ _ different, divisor, dividend, if_neg fits]
  exact ⟨_, rfl, State.write_same _ _ _⟩

/-! All of it. -/

/-- What the two operators compute, on integers. -/
def value : Signed → Int → Int → Int
  | .ODIV => Int.tdiv
  | .OMOD => Int.tmod

/-- The code for a nonzero constant leaves the truncated quotient or remainder,
for every dividend. -/
theorem cgenSigned_value (o : Signed) (l : Operand) (c : Int) (places : Places) (low : -2 ^ 31 ≤ c) (high : c < 2 ^ 31)
    (nonzero : c ≠ 0) (operand : l ≠ .reg .AX ∧ l ≠ .reg .DX) (apart : places.ext ≠ places.nod) :
    ∃ code r, cgenSigned o l c places = .ok (code, r) ∧
      ∀ s, ∃ s', run code s = some s' ∧ s'.reg r = BitVec.ofInt 32 (value o (s.read l).toInt c) := by
  have small : c.natAbs < 2 ^ 64 := by omega
  unfold cgenSigned
  rw [magnitude_eq, uvlong_of_lt small]
  by_cases positive : log2 c.natAbs ≥ 0
  · obtain ⟨v, log⟩ := Int.eq_ofNat_of_zero_le positive
    have power := (log2_eq_iff small v).mp log
    have few : v < 32 := by
      have : 2 ^ v < 2 ^ 32 := by omega
      exact (Nat.pow_lt_pow_iff_right (by decide)).mp this
    have cast : ((c.natAbs : Nat) : Int) = 2 ^ v := by
      rw [power]
      push_cast
      rfl
    rw [log, if_pos (by omega)]
    cases o with
    | ODIV =>
      refine ⟨_, _, rfl, fun s => ?_⟩
      obtain ⟨s', ran, result⟩ := run_sdiv2 (s := s.write places.nod (s.read l)) c apart few
      refine ⟨s', ran, ?_⟩
      rw [result, State.write_same, ← cast, tdiv_magnitude]
      rfl
    | OMOD =>
      refine ⟨_, _, rfl, fun s => ?_⟩
      obtain ⟨s', ran, result⟩ := run_smod2 (s := s.write places.nod (s.read l)) apart few power
      refine ⟨s', ran, ?_⟩
      rw [result, State.write_same, ← cast, tmod_natAbs]
      rfl
  · have notPower := (log2_neg small).mp (by omega)
    have two : 2 ≤ c.natAbs := by
      have := notPower 0
      omega
    have less : c.natAbs < 2 ^ 31 := by
      have := notPower 31
      omega
    rw [if_neg positive]
    cases o with
    | ODIV =>
      obtain ⟨code, result, runs⟩ := sdivgen_divides operand.1 operand.2 two less
      exact ⟨code, .DX, by rw [result]; rfl, runs⟩
    | OMOD => exact ⟨_, _, rfl, fun s => run_idivl two low high⟩

theorem cgenSigned_value_least : ∃ code r, cgenSigned .ODIV (.mem 0) (-2 ^ 31) ⟨.AX, .DX, 1⟩ = .ok (code, r) ∧
    ∀ s, ∃ s', run code s = some s' ∧ s'.reg r = BitVec.ofInt 32 (value .ODIV (s.read (.mem 0)).toInt (-2 ^ 31)) :=
  cgenSigned_value .ODIV (.mem 0) (-2 ^ 31) ⟨.AX, .DX, 1⟩ (by decide) (by decide) (by decide) (by decide) (by decide)

end Goken.Proofs.Div8Signed
