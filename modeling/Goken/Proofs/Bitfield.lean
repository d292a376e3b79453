import Goken.Bitfield
import Goken.Lib.Words

/-! What the code for bit-fields computes, bit by bit. -/

namespace Goken.Proofs.Bitfield
open Goken.Bitfield NodeKind Lib.Words

/-- The value of a field that holds `v`. -/
def value (b : Field) (v : BitVec 32) : BitVec 32 := extend b.unsigned 32 (v.setWidth b.nbits)

section Mask

variable (b : Field) (i : Nat)

theorem ones_bit : (ones b).getLsbD i = decide (i < b.nbits) := by
  have inside := b.inside
  have small : 2 ^ b.nbits ≤ 2 ^ 32 := Nat.pow_le_pow_right (by decide) (by omega)
  have positive := Nat.two_pow_pos b.nbits
  have number : (ones b).toNat = 2 ^ b.nbits - 1 := by
    rw [ones, BitVec.toNat_add, BitVec.toNat_shiftLeft, Nat.shiftLeft_eq]
    simp only [BitVec.ofNat_eq_ofNat, BitVec.toNat_not, BitVec.toNat_ofNat, Nat.zero_mod, Nat.one_mod]
    omega
  rw [BitVec.getLsbD, number, Nat.testBit_two_pow_sub_one]

theorem mask_bit : ((ones b).setWidth 32).getLsbD i = decide (i < b.nbits) := by
  have inside := b.inside
  rw [BitVec.getLsbD_setWidth, ones_bit]
  by_cases low : i < b.nbits <;> simp [low]
  omega

theorem field_bit : ((ones b <<< b.shift).setWidth 32).getLsbD i = decide (b.shift ≤ i ∧ i < b.shift + b.nbits) := by
  have inside := b.inside
  rw [BitVec.getLsbD_setWidth, BitVec.getLsbD_shiftLeft, ones_bit]
  by_cases low : b.shift ≤ i ∧ i < b.shift + b.nbits
  · simp only [low, and_self, decide_true]
    simp
    omega
  · simp only [low, decide_false]
    simp
    omega

end Mask

section Store

variable (b : Field) (s : State)

/-- The cell gets the low bits of `n1`, and keeps its other bits from `n3`. -/
theorem bitstore_cell (wanted : Bool) : (run (bitstore b wanted) s).cell =
    (s.regs .n1 &&& (ones b).setWidth 32) <<< b.shift ||| (s.regs .n3 &&& (~~~ (ones b <<< b.shift)).setWidth 32) := by
  have inside := b.inside
  have positive := b.positive
  have count : (BitVec.ofNat 64 b.shift).setWidth 32 = BitVec.ofNat 32 b.shift := by
    apply BitVec.eq_of_toNat_eq
    simp
  have number : (BitVec.ofNat 32 b.shift).toNat = b.shift := by
    simp
    omega
  by_cases shifted : b.shift > 0
  · cases wanted <;> simp [run, bitstore, exec, State.set, compute, shifted, count, number]
  · have zero : b.shift = 0 := by omega
    cases wanted <;> simp [run, bitstore, exec, State.set, compute, zero]

theorem bitstore_cell_bit (wanted : Bool) {i : Nat} (low : i < 32) : (run (bitstore b wanted) s).cell.getLsbD i =
    if b.shift ≤ i ∧ i < b.shift + b.nbits then (s.regs .n1).getLsbD (i - b.shift) else (s.regs .n3).getLsbD i := by
  have inside := b.inside
  have field : ((~~~ (ones b <<< b.shift)).setWidth 32).getLsbD i = !decide (b.shift ≤ i ∧ i < b.shift + b.nbits) := by
    rw [← field_bit b i, BitVec.getLsbD_setWidth, BitVec.getLsbD_setWidth, BitVec.getLsbD_not]
    have inner : i < 64 := by omega
    simp [low, inner]
  rw [bitstore_cell, BitVec.getLsbD_or, BitVec.getLsbD_shiftLeft, BitVec.getLsbD_and, BitVec.getLsbD_and, mask_bit, field]
  grind

theorem bitstore_value : (run (bitstore b true) s).regs .nn = s.regs .n1 &&& (ones b).setWidth 32 := by
  by_cases shifted : b.shift > 0
  · simp [run, bitstore, exec, State.set, compute, shifted]
  · simp [run, bitstore, exec, State.set, compute, shifted]

end Store

section Load

variable (b : Field) (s : State)

/-- The two shifts, or the mask. -/
theorem adjust_value : (run (adjust b) s).regs .n1 =
    if b.shift = 0 ∧ b.unsigned then s.regs .n1 &&& (ones b).setWidth 32
    else if b.unsigned then (s.regs .n1 <<< (32 - b.shift - b.nbits)) >>> (32 - b.nbits)
    else (s.regs .n1 <<< (32 - b.shift - b.nbits)).sshiftRight (32 - b.nbits) := by
  have inside := b.inside
  have positive := b.positive
  have sum : 32 - b.shift - b.nbits + b.shift = 32 - b.nbits := by omega
  have count : ∀ k < 32, ((BitVec.ofNat 64 k).setWidth 32).toNat = k := by
    intro k small
    simp
    omega
  have first := count (32 - b.shift - b.nbits) (by omega)
  have second := count (32 - b.nbits) (by omega)
  unfold adjust
  split
  · simp [run, exec, State.set, compute]
  · simp only [sum]
    by_cases left : 32 - b.shift - b.nbits > 0
    · have right : 32 - b.nbits > 0 := by omega
      cases b.unsigned <;>
        simp only [left, right, ↓reduceIte, Bool.false_eq_true, List.cons_append, List.nil_append, run, List.foldl_cons, List.foldl_nil,
          exec, State.set, compute, first, second]
    · have zero : 32 - b.shift - b.nbits = 0 := by omega
      by_cases right : 32 - b.nbits > 0
      · cases b.unsigned <;>
          simp only [zero, right, ↓reduceIte, Bool.false_eq_true, List.nil_append, run, List.foldl_cons, List.foldl_nil,
            exec, State.set, compute, second, BitVec.shiftLeft_zero, gt_iff_lt, Nat.lt_irrefl]
      · have whole : 32 - b.nbits = 0 := by omega
        cases b.unsigned <;> simp [zero, whole, run]

/-- A load yields the bits of the field, and copies of its sign or zeros above. -/
theorem bitload_bit (kept : Bool) {i : Nat} (low : i < 32) : ((run (bitload b kept) s).regs .n1).getLsbD i =
    if i < b.nbits then s.cell.getLsbD (i + b.shift) else !b.unsigned && s.cell.getLsbD (b.shift + b.nbits - 1) := by
  have inside := b.inside
  have positive := b.positive
  have loaded : (run (bitload b kept) s).regs .n1 = (run (adjust b) (s.set .n1 s.cell)).regs .n1 := by
    rw [adjust_value]
    cases kept <;> simp only [bitload, run, List.foldl_append] <;> rw [← run, adjust_value] <;> rfl
  rw [loaded, adjust_value]
  have start : (s.set .n1 s.cell).regs .n1 = s.cell := rfl
  rw [start]
  split
  · next plain =>
    rw [BitVec.getLsbD_and, mask_bit, plain.1, plain.2]
    by_cases field : i < b.nbits <;> simp [field]
  · next other =>
    cases sign : b.unsigned with
    | true =>
      rw [if_pos rfl, BitVec.getLsbD_ushiftRight, BitVec.getLsbD_shiftLeft]
      grind
    | false =>
      rw [if_neg (by decide), BitVec.getLsbD_sshiftRight, BitVec.getLsbD_shiftLeft, BitVec.msb_eq_getLsbD_last,
        BitVec.getLsbD_shiftLeft]
      grind

end Load

theorem value_bit (b : Field) (v : BitVec 32) {i : Nat} (low : i < 32) :
    (value b v).getLsbD i = if i < b.nbits then v.getLsbD i else !b.unsigned && v.getLsbD (b.nbits - 1) := by
  have inside := b.inside
  have positive := b.positive
  unfold value extend
  cases b.unsigned with
  | true =>
    rw [if_pos rfl, BitVec.getLsbD_setWidth, BitVec.getLsbD_setWidth]
    grind
  | false =>
    rw [if_neg (by decide), BitVec.getLsbD_signExtend, BitVec.getLsbD_setWidth, BitVec.msb_setWidth]
    grind

/-- A store of `v` followed by a load, where `n3` has the contents of the cell. -/
structure Coherent (b : Field) (s : State) : Prop where
  others : ∀ i < 32, ¬ (b.shift ≤ i ∧ i < b.shift + b.nbits) →
    (run (bitstore b true) s).cell.getLsbD i = s.cell.getLsbD i
  loads : ∀ kept (t : State), t.cell = (run (bitstore b true) s).cell → (run (bitload b kept) t).regs .n1 = value b (s.regs .n1)
  delivers : ∀ kept (t : State), t.cell = (run (bitstore b true) s).cell →
    (run (bitstore b true) s).regs .nn = (run (bitload b kept) t).regs .n1

section Coherence

variable (b : Field) (s : State)

theorem loads_stored (kept : Bool) (t : State) (same : t.cell = (run (bitstore b true) s).cell) :
    (run (bitload b kept) t).regs .n1 = value b (s.regs .n1) := by
  have inside := b.inside
  have positive := b.positive
  apply BitVec.eq_of_getLsbD_eq
  intro i low
  rw [bitload_bit b t kept low, value_bit b _ low, same]
  have sign : (run (bitstore b true) s).cell.getLsbD (b.shift + b.nbits - 1) = (s.regs .n1).getLsbD (b.nbits - 1) := by
    rw [bitstore_cell_bit b s true (by omega), if_pos (by omega)]
    congr 1
    omega
  rw [sign]
  by_cases field : i < b.nbits
  · rw [if_pos field, if_pos field, bitstore_cell_bit b s true (by omega), if_pos (by omega)]
    congr 1
    omega
  · rw [if_neg field, if_neg field]

/-- The value delivered is the field without its sign. -/
theorem delivers_iff : (run (bitstore b true) s).regs .nn = value b (s.regs .n1) ↔
    b.unsigned = true ∨ b.nbits = 32 ∨ (s.regs .n1).getLsbD (b.nbits - 1) = false := by
  have inside := b.inside
  have positive := b.positive
  rw [bitstore_value]
  constructor
  · intro equal
    by_contra! signed
    have bit := congrArg (fun x => x.getLsbD b.nbits) equal
    simp only [BitVec.getLsbD_and, mask_bit] at bit
    rw [value_bit b _ (by omega)] at bit
    simp_all
  · intro condition
    apply BitVec.eq_of_getLsbD_eq
    intro i low
    rw [BitVec.getLsbD_and, mask_bit, value_bit b _ low]
    grind

/-- The three agree exactly if the field has no sign, fills its cell or gets a value
with the sign bit of the field clear. -/
theorem bitfield_coherent_iff (contents : s.regs .n3 = s.cell) : Coherent b s ↔
    b.unsigned = true ∨ b.nbits = 32 ∨ (s.regs .n1).getLsbD (b.nbits - 1) = false := by
  rw [← delivers_iff]
  constructor
  · intro coherent
    have delivered := coherent.delivers true _ rfl
    rw [loads_stored b s true _ rfl] at delivered
    exact delivered
  · intro delivered
    refine ⟨fun i low outside => ?_, loads_stored b s, fun kept t same => ?_⟩
    · rw [bitstore_cell_bit b s true low, if_neg outside, contents]
    · rw [loads_stored b s kept t same]
      exact delivered

/-- A field of three bits at bit 4. -/
def threeBits (unsigned : Bool) : Field := ⟨4, 3, unsigned, by decide, by decide⟩

def assigning (v cell : BitVec 32) : State := ⟨fun r => if r = .n1 then v else cell, cell⟩

end Coherence

theorem bitfield_coherent_unsigned : Coherent (threeBits true) (assigning 7 0) :=
  (bitfield_coherent_iff (threeBits true) (assigning 7 0) rfl).mpr (.inl rfl)

theorem bitfield_not_coherent : (run (bitstore (threeBits false) true) (assigning 7 0)).regs .nn = 7 ∧
    (run (bitload (threeBits false) true) (run (bitstore (threeBits false) true) (assigning 7 0))).regs .n1 = -1 ∧
    ¬ Coherent (threeBits false) (assigning 7 0) := by
  have delivered : (run (bitstore (threeBits false) true) (assigning 7 0)).regs .nn = 7 := by decide
  have loaded : (run (bitload (threeBits false) true) (run (bitstore (threeBits false) true) (assigning 7 0))).regs .n1 = -1 := by
    decide
  refine ⟨delivered, loaded, fun coherent => ?_⟩
  have same := coherent.delivers true _ rfl
  rw [delivered, loaded] at same
  exact absurd same (by decide)

end Goken.Proofs.Bitfield
