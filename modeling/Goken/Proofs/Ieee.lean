import Goken.Lib.Bits
import Goken.Ieee

/-! Which doubles survive `ieeedtod`: zero and the normal numbers. -/

namespace Goken.Proofs.Ieee
open Goken

/-- Zero, or a number that is neither subnormal nor infinite nor a NaN. -/
def Plain (d : Double) : Prop := d = 0 ∨ 1 ≤ d.exponent ∧ d.exponent ≤ 2046

instance (d : Double) : Decidable (Plain d) := inferInstanceAs (Decidable (_ ∨ _))

/-- The high word: the exponent above 20 bits of the fraction. -/
private theorem high_word (ho : Nat) (exp : Int) :
    (BitVec.ofNat 32 ho &&& 0xfffff#32 ||| BitVec.ofInt 32 (exp * 2 ^ 20)).toNat = (exp % 4096).toNat * 2 ^ 20 + ho % 2 ^ 20 := by
  have mask : (0xfffff#32).toNat = 2 ^ 20 - 1 := rfl
  have field : (BitVec.ofInt 32 (exp * 2 ^ 20)).toNat = (exp % 4096).toNat <<< 20 := by
    rw [BitVec.toNat_ofInt, Nat.shiftLeft_eq]
    omega
  rw [BitVec.toNat_or, BitVec.toNat_and, BitVec.toNat_ofNat, mask, Nat.and_two_pow_sub_one_eq_mod, field,
    Lib.Bits.or_shiftLeft (Nat.mod_lt _ (by decide)), Nat.mod_mod_of_dvd _ (by decide)]

private theorem low_word {ho fr : Nat} (small : ho < 2 ^ 16) (rest : fr < 2 ^ 16) :
    (BitVec.ofNat 32 ho <<< 16 ||| BitVec.ofNat 32 fr).toNat = ho * 2 ^ 16 + fr := by
  have shifted : (BitVec.ofNat 32 ho <<< 16).toNat = ho <<< 16 := by
    rw [BitVec.toNat_shiftLeft, BitVec.toNat_ofNat, Nat.shiftLeft_eq, Nat.shiftLeft_eq]
    omega
  have plain : (BitVec.ofNat 32 fr).toNat = fr := by
    rw [BitVec.toNat_ofNat]
    omega
  rw [BitVec.toNat_or, shifted, plain, Nat.or_comm, Lib.Bits.or_shiftLeft rest]

private theorem ieeeOfPositive_eq (d : Double) :
    ieeeOfPositive d =
      ⟨BitVec.ofNat 32 ((frexp d).1 % 2 ^ 32 / 2 ^ 16) <<< 16 ||| BitVec.ofNat 32 ((frexp d).1 % 2 ^ 32 % 2 ^ 16),
        BitVec.ofNat 32 ((frexp d).1 / 2 ^ 32) &&& 0xfffff#32 ||| BitVec.ofInt 32 (((frexp d).2 + 1022) * 2 ^ 20)⟩ := by
  have first : 2 ^ 53 / 2 ^ 21 = 2 ^ 32 := by decide
  have second : 2 ^ 32 / 2 ^ 16 = 2 ^ 16 := by decide
  simp only [ieeeOfPositive, modf, first, second]

theorem ieeeOfPositive_words (d : Double) :
    (ieeeOfPositive d).h.toNat = (((frexp d).2 + 1022) % 4096).toNat * 2 ^ 20 + (frexp d).1 / 2 ^ 32 % 2 ^ 20 ∧
      (ieeeOfPositive d).l.toNat = (frexp d).1 % 2 ^ 32 := by
  rw [ieeeOfPositive_eq]
  constructor
  · exact high_word _ _
  · rw [low_word (by omega) (by omega)]
    omega

/-- The two words together. -/
theorem ieeeOfPositive_value (d : Double) :
    (ieeeOfPositive d).h.toNat * 2 ^ 32 + (ieeeOfPositive d).l.toNat =
      (((frexp d).2 + 1022) % 4096).toNat * 2 ^ 52 + (frexp d).1 % 2 ^ 52 := by
  obtain ⟨high, low⟩ := ieeeOfPositive_words d
  rw [high, low]
  omega

theorem normal_value {d : Double} (low : 1 ≤ d.exponent) (high : d.exponent ≤ 2046) (positive : d.toNat < 2 ^ 63) :
    (ieeeOfPositive d).h.toNat * 2 ^ 32 + (ieeeOfPositive d).l.toNat = d.toNat := by
  have frexp_eq : frexp d = (2 ^ 52 + d.fraction, (d.exponent : Int) - 1022) := by
    rw [frexp, if_neg (by omega)]
  rw [ieeeOfPositive_value, frexp_eq]
  unfold Double.exponent Double.fraction at *
  omega

/-- A subnormal number comes out with another exponent or without its highest bit. -/
theorem subnormal_value {d : Double} (zero : d.exponent = 0) (nonzero : d.fraction ≠ 0) :
    ((ieeeOfPositive d).h.toNat * 2 ^ 32 + (ieeeOfPositive d).l.toNat) % 2 ^ 63 ≠ d.fraction := by
  have small : d.fraction < 2 ^ 52 := Nat.mod_lt _ (by decide)
  have below : 2 ^ Nat.log2 d.fraction ≤ d.fraction := Nat.log2_self_le nonzero
  have bits : Nat.log2 d.fraction < 52 := (Nat.log2_lt nonzero).mpr small
  have frexp_eq : frexp d =
      (d.fraction * 2 ^ (53 - (Nat.log2 d.fraction + 1)), ((Nat.log2 d.fraction + 1 : Nat) : Int) - 1074) := by
    rw [frexp, if_pos zero]
  rw [ieeeOfPositive_value, frexp_eq]
  by_cases top : Nat.log2 d.fraction = 51
  · rw [top] at below ⊢
    omega
  · have shifted : (((Nat.log2 d.fraction + 1 : Nat) : Int) - 1074 + 1022) % 4096 = 4096 - (51 - Nat.log2 d.fraction) := by
      omega
    rw [shifted]
    generalize d.fraction * 2 ^ (53 - (Nat.log2 d.fraction + 1)) = fr
    omega

private theorem sign_word (x : BitVec 32) : (x ||| 0x80000000#32).toNat = 2 ^ 31 + x.toNat % 2 ^ 31 := by
  have bound := x.isLt
  have parts : x.toNat = x.toNat % 2 ^ 31 ||| (x.toNat / 2 ^ 31) <<< 31 := by
    rw [Lib.Bits.or_shiftLeft (Nat.mod_lt _ (by decide))]
    omega
  have bit : x.toNat / 2 ^ 31 ||| 1 = 1 := by
    have which : x.toNat / 2 ^ 31 = 0 ∨ x.toNat / 2 ^ 31 = 1 := by omega
    obtain zero | one := which
    · rw [zero]
      rfl
    · rw [one]
      rfl
  have sign : (0x80000000#32).toNat = 1 <<< 31 := rfl
  rw [BitVec.toNat_or, sign]
  nth_rewrite 1 [parts]
  rw [Nat.or_assoc, ← Nat.shiftLeft_or_distrib, bit, Lib.Bits.or_shiftLeft (Nat.mod_lt _ (by decide))]
  omega

theorem double_toNat (e : Goken.Ieee) : e.double.toNat = e.h.toNat * 2 ^ 32 + e.l.toNat := by
  have high := e.h.isLt
  have low := e.l.isLt
  rw [Ieee.double, UInt64.toNat_ofNat']
  omega

private theorem magnitude_toNat (d : Double) : (UInt64.ofNat d.magnitude).toNat = d.magnitude := by
  have small : d.magnitude < 2 ^ 63 := Nat.mod_lt _ (by decide)
  rw [UInt64.toNat_ofNat']
  omega

private theorem magnitude_value (d : Double) (nonzero : d.magnitude ≠ 0) (finite : d.exponent < 2047) :
    (1 ≤ d.exponent → (ieeeOfPositive (.ofNat d.magnitude)).h.toNat * 2 ^ 32 +
      (ieeeOfPositive (.ofNat d.magnitude)).l.toNat = d.magnitude) ∧
    (d.exponent = 0 → ((ieeeOfPositive (.ofNat d.magnitude)).h.toNat * 2 ^ 32 +
      (ieeeOfPositive (.ofNat d.magnitude)).l.toNat) % 2 ^ 63 ≠ d.magnitude) := by
  have toNat := magnitude_toNat d
  have exponent : Double.exponent (UInt64.ofNat d.magnitude) = d.exponent := by
    rw [Double.exponent, toNat, Double.magnitude, Double.exponent]
    omega
  have fraction : Double.fraction (UInt64.ofNat d.magnitude) = d.fraction := by
    rw [Double.fraction, toNat, Double.magnitude, Double.fraction]
    omega
  have small : d.magnitude < 2 ^ 63 := Nat.mod_lt _ (by decide)
  constructor
  · intro normal
    rw [normal_value (by omega) (by omega) (by omega), toNat]
  · intro subnormal
    have field : d.magnitude = d.fraction := by
      unfold Double.exponent Double.magnitude Double.fraction at *
      omega
    have changed := subnormal_value (exponent.trans subnormal) (by omega)
    rw [fraction] at changed
    rw [field] at changed ⊢
    exact changed

theorem ieeedtod_iff (d : Double) : (∃ e, ieeedtod d = some e ∧ e.double = d) ↔ Plain d := by
  have bound : d.toNat < 2 ^ 64 := d.toNat_lt
  have same : ∀ e : Goken.Ieee, e.double = d ↔ e.h.toNat * 2 ^ 32 + e.l.toNat = d.toNat := fun e => by
    rw [← double_toNat, UInt64.toNat_inj]
  have whole : d = 0 ↔ d.toNat = 0 := UInt64.toNat_inj.symm
  unfold Plain ieeedtod
  rw [whole]
  by_cases finite : d.finite
  swap
  · have large : ¬ d.exponent < 2047 := by simpa [Double.finite] using finite
    have zero : d.toNat ≠ 0 := by
      unfold Double.exponent at large
      omega
    simp [finite, zero]
    omega
  have small : d.exponent < 2047 := by simpa [Double.finite] using finite
  by_cases zero : d.magnitude = 0
  · have empty : d.exponent = 0 := by
      unfold Double.exponent Double.magnitude at *
      omega
    simp [finite, zero, same, empty, eq_comm]
  have nonzero : d.toNat ≠ 0 := by
    unfold Double.magnitude at zero
    omega
  -- the absolute value has the same fields, and is all that the words depend on
  have value := magnitude_value d zero small
  by_cases negative : d.negative
  · have sign : 2 ^ 63 ≤ d.toNat := by simpa [Double.negative] using negative
    have words := sign_word (ieeeOfPositive (.ofNat d.magnitude)).h
    have low := (ieeeOfPositive (.ofNat d.magnitude)).l.isLt
    simp only [finite, negative, zero, same, nonzero, words, Bool.not_true, Bool.false_eq_true, if_false, ne_eq,
      not_false_eq_true, decide_true, Bool.and_self, if_true, Option.some.injEq, exists_eq_left', false_or]
    have field : d.magnitude = d.toNat % 2 ^ 63 := rfl
    omega
  · have positive : ¬ 2 ^ 63 ≤ d.toNat := by simpa [Double.negative] using negative
    have itself : UInt64.ofNat d.magnitude = d := by
      apply UInt64.toNat_inj.mp
      rw [magnitude_toNat, Double.magnitude]
      omega
    rw [itself] at value
    simp only [finite, negative, zero, same, nonzero, Bool.not_true, Bool.false_eq_true, if_false, Bool.false_and,
      Option.some.injEq, exists_eq_left', false_or]
    unfold Double.magnitude at value
    omega

end Goken.Proofs.Ieee
