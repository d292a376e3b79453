import Goken.Scon
import Goken.Lib.Words
import Mathlib.Data.Nat.Bitwise
import Mathlib.Data.BitVec

/-! Constant folding agrees with the arithmetic of the target. The target computes on
words of the width of a type; the compiler keeps a constant as such a word extended
to 64 bits, with or without a sign as the type says. -/

namespace Goken.Proofs.Evconst
open Goken.Scon Node NodeKind Etype Lib.Words

/-- The bits of a word of a type. -/
def bits (et : Etype) : Nat := (8 * et.ewidth).toNat

/-- The integer types, with the pointers. -/
def isInteger (et : Etype) : Prop := et.typei = true ∨ et = TIND

theorem bits_bounds {et : Etype} (integer : isInteger et) : 8 * et.ewidth = bits et ∧ 1 ≤ bits et ∧ bits et ≤ 64 := by
  cases et <;> simp_all [isInteger, typei, bits, ewidth]

theorem not_typefd {et : Etype} (integer : isInteger et) : et.typefd = false := by
  cases et <;> simp_all [isInteger, typei, typefd]

section Conversion

variable {n : Nat} (low : 1 ≤ n) (high : n ≤ 64)
include low high

theorem SIGN_toNat : (SIGN n).toNat = 2 ^ (n - 1) := by
  have small : 2 ^ (n - 1) < 2 ^ 64 := Nat.pow_lt_pow_right (by decide) (by omega)
  have count : ((n : Int) - 1).toNat = n - 1 := by omega
  rw [SIGN, count, BitVec.toNat_shiftLeft, Nat.shiftLeft_eq]
  simpa using Nat.mod_eq_of_lt small

theorem SIGN_bit (i : Nat) : (SIGN n).getLsbD i = decide (n - 1 = i) := by
  rw [BitVec.getLsbD, SIGN_toNat low high, Nat.testBit_two_pow]

theorem MASK_bit (i : Nat) : (MASK n).getLsbD i = decide (i < n) := by
  have below : (SIGN n - 1).toNat = 2 ^ (n - 1) - 1 := by
    have positive := Nat.two_pow_pos (n - 1)
    have small : 2 ^ (n - 1) < 2 ^ 64 := Nat.pow_lt_pow_right (by decide) (by omega)
    rw [BitVec.toNat_sub, SIGN_toNat low high]
    simp only [BitVec.ofNat_eq_ofNat, BitVec.toNat_ofNat]
    omega
  rw [MASK, BitVec.getLsbD_or, SIGN_bit low high, BitVec.getLsbD, below, Nat.testBit_two_pow_sub_one, ← Bool.decide_or]
  congr 1
  simp only [eq_iff_iff]
  omega

theorem and_MASK (c : BitVec 64) : c &&& MASK n = (c.setWidth n).setWidth 64 := by
  apply BitVec.eq_of_getLsbD_eq
  intro i _
  simp only [BitVec.getLsbD_and, MASK_bit low high, BitVec.getLsbD_setWidth]
  grind

theorem and_SIGN (c : BitVec 64) : (c &&& MASK n) &&& SIGN n ≠ 0 ↔ c.getLsbD (n - 1) = true := by
  constructor
  · intro nonzero
    by_contra clear
    apply nonzero
    apply BitVec.eq_of_getLsbD_eq
    intro i _
    simp only [BitVec.getLsbD_and, MASK_bit low high, SIGN_bit low high]
    grind
  · intro set zero
    have bit := congrArg (fun x => x.getLsbD (n - 1)) zero
    simp only [BitVec.getLsbD_and, MASK_bit low high, SIGN_bit low high, set] at bit
    simp at bit
    omega

theorem or_MASK (c : BitVec 64) (set : c.getLsbD (n - 1) = true) : (c &&& MASK n) ||| ~~~ MASK n = (c.setWidth n).signExtend 64 := by
  apply BitVec.eq_of_getLsbD_eq
  intro i bound
  simp only [BitVec.getLsbD_or, BitVec.getLsbD_and, BitVec.getLsbD_not, MASK_bit low high, BitVec.getLsbD_signExtend,
    BitVec.getLsbD_setWidth, BitVec.msb_setWidth]
  grind

theorem and_MASK_clear (c : BitVec 64) (clear : c.getLsbD (n - 1) = false) : c &&& MASK n = (c.setWidth n).signExtend 64 := by
  apply BitVec.eq_of_getLsbD_eq
  intro i bound
  simp only [BitVec.getLsbD_and, MASK_bit low high, BitVec.getLsbD_signExtend, BitVec.getLsbD_setWidth, BitVec.msb_setWidth]
  grind

end Conversion

/-- `convvtox` cuts a constant to its type and extends it again. -/
theorem convvtox_eq {et : Etype} (integer : isInteger et) (c : BitVec 64) :
    convvtox c et = extend et.typeu 64 (c.setWidth (bits et)) := by
  obtain ⟨width, low, high⟩ := bits_bounds integer
  unfold convvtox extend
  simp only [width]
  cases unsigned : et.typeu with
  | true =>
    rw [if_neg (by simp), if_pos rfl]
    exact and_MASK low high c
  | false =>
    rw [if_neg (by simp : ¬ false = true)]
    by_cases set : c.getLsbD (bits et - 1) = true
    · rw [if_pos ⟨rfl, (and_SIGN low high c).mpr set⟩]
      exact or_MASK low high c set
    · rw [if_neg (fun both => set ((and_SIGN low high c).mp both.2))]
      exact and_MASK_clear low high c (by simpa using set)

/-- A constant as it is kept in its type. -/
def Canonical (c : BitVec 64) (et : Etype) : Prop := convvtox c et = c

theorem Canonical.eq_extend {c : BitVec 64} {et : Etype} (canonical : Canonical c et) (integer : isInteger et) :
    c = extend et.typeu 64 (c.setWidth (bits et)) := by
  rw [← convvtox_eq integer]
  exact canonical.symm

/-- A truth value as a word. -/
def truth {w : Nat} (b : Bool) : BitVec w := if b then 1 else 0

/-- The word that the target computes for an operation on constants: arithmetic on
words of the node's type, comparisons on words of the operands' type. -/
def compute (n : Node) : BitVec (bits n.etype) :=
  let l := n.left.vconst.setWidth (bits n.etype)
  let r := n.right.vconst.setWidth (bits n.etype)
  let l' := n.left.vconst.setWidth (bits n.left.etype)
  let r' := n.right.vconst.setWidth (bits n.left.etype)
  match n.op with
  | OCAST => l
  | OADD => l + r
  | OSUB => l - r
  | OMUL | OLMUL => l * r
  | ODIV => l.sdiv r
  | OMOD => l.srem r
  | OLDIV => l / r
  | OLMOD => l % r
  | ONEG => -l
  | OCOM => ~~~ l
  | OAND => l &&& r
  | OOR => l ||| r
  | OXOR => l ^^^ r
  | OASHL => l <<< n.right.vconst.toNat
  | OLSHR => l >>> n.right.vconst.toNat
  | OASHR => l.sshiftRight n.right.vconst.toNat
  | OLT => truth (l'.slt r')
  | OGT => truth (r'.slt l')
  | OLE => truth (l'.sle r')
  | OGE => truth (r'.sle l')
  | OLO => truth (l'.ult r')
  | OHI => truth (r'.ult l')
  | OLS => truth (l'.ule r')
  | OHS => truth (r'.ule l')
  | OEQ => truth (l' == r')
  | ONE => truth (l' != r')
  | OANDAND => truth (l' != 0 && n.right.vconst.setWidth (bits n.right.etype) != 0)
  | OOROR => truth (l' != 0 || n.right.vconst.setWidth (bits n.right.etype) != 0)
  | ONOT => truth (l' == 0)
  | _ => 0

/-- The constant that stands for what the target computes. -/
def target (n : Node) : BitVec 64 := extend n.etype.typeu 64 (compute n)

/-- An integer constant in canonical form. -/
structure Operand (n : Node) : Prop where
  constant : n.op = OCONST
  integer : isInteger n.etype
  canonical : Canonical n.vconst n.etype

/-- What `tcom` makes sure of: the operands of a division and the left operand of a
shift to the right have the node's type, the operands of a comparison have one type,
and the operation is the signed or the unsigned one as that type says. -/
inductive Matches (n : Node) : Prop where
  | unary (op : n.op ∈ [OCAST, ONEG, OCOM]) (left : Operand n.left)
  | binary (op : n.op ∈ [OADD, OSUB, OMUL, OLMUL, OAND, OOR, OXOR]) (left : Operand n.left) (right : Operand n.right)
  | sdiv (op : n.op ∈ [ODIV, OMOD]) (left : Operand n.left) (right : Operand n.right) (first : n.left.etype = n.etype)
      (second : n.right.etype = n.etype) (signed : n.etype.typeu = false)
  | udiv (op : n.op ∈ [OLDIV, OLMOD]) (left : Operand n.left) (right : Operand n.right) (first : n.left.etype = n.etype)
      (second : n.right.etype = n.etype) (unsigned : n.etype.typeu = true)
  | ashl (op : n.op = OASHL) (left : Operand n.left) (right : Operand n.right)
  | ashr (op : n.op = OASHR) (left : Operand n.left) (right : Operand n.right) (first : n.left.etype = n.etype)
      (signed : n.etype.typeu = false)
  | lshr (op : n.op = OLSHR) (left : Operand n.left) (right : Operand n.right) (first : n.left.etype = n.etype)
      (unsigned : n.etype.typeu = true)
  | signed (op : n.op ∈ [OLT, OGT, OLE, OGE]) (left : Operand n.left) (right : Operand n.right)
      (same : n.right.etype = n.left.etype) (signed : n.left.etype.typeu = false)
  | unsigned (op : n.op ∈ [OLO, OHI, OLS, OHS]) (left : Operand n.left) (right : Operand n.right)
      (same : n.right.etype = n.left.etype) (unsigned : n.left.etype.typeu = true)
  | equal (op : n.op ∈ [OEQ, ONE]) (left : Operand n.left) (right : Operand n.right) (same : n.right.etype = n.left.etype)
  | logical (op : n.op ∈ [OANDAND, OOROR]) (left : Operand n.left) (right : Operand n.right)
  | not (op : n.op = ONOT) (left : Operand n.left)

/-- The host does only what it defines, and a constant that takes the place of the
node is the target's. -/
def Agrees (n : Node) : Prop := ∃ folded, evconst n = some folded ∧ (folded.op = OCONST → folded.vconst = target n)

/-- The host defines the operation. -/
def Defined (n : Node) : Prop :=
  (n.op ∈ [ODIV, OMOD] → ¬ (n.left.vconst = BitVec.intMin 64 ∧ n.right.vconst = -1)) ∧
  (n.op ∈ [OASHL, OASHR, OLSHR] → 0 ≤ n.right.vconst.toInt ∧ n.right.vconst.toInt < 64)

theorem defined_division {n : Node} (op : n.op ∈ [ODIV, OMOD]) :
    Defined n ↔ ¬ (n.left.vconst = BitVec.intMin 64 ∧ n.right.vconst = -1) := by
  have notShift : n.op ∉ [OASHL, OASHR, OLSHR] := by
    simp only [List.mem_cons, List.not_mem_nil, or_false] at op
    rcases op with op | op <;> rw [op] <;> decide
  simp only [Defined, op, notShift, forall_const, false_implies, and_true]

theorem defined_shift {n : Node} (op : n.op ∈ [OASHL, OASHR, OLSHR]) :
    Defined n ↔ 0 ≤ n.right.vconst.toInt ∧ n.right.vconst.toInt < 64 := by
  have notDivision : n.op ∉ [ODIV, OMOD] := by
    simp only [List.mem_cons, List.not_mem_nil, or_false] at op
    rcases op with op | op | op <;> rw [op] <;> decide
  simp only [Defined, op, notDivision, forall_const, false_implies, true_and]

theorem defined_other {n : Node} {ops : List NodeKind} (op : n.op ∈ ops) (other : ∀ o ∈ ops, o ∉ [ODIV, OMOD, OASHL, OASHR, OLSHR]) :
    Defined n := by
  have outside := other n.op op
  simp only [List.mem_cons, List.not_mem_nil, or_false, not_or] at outside
  simp only [Defined, List.mem_cons, List.not_mem_nil, or_false]
  tauto

section Fold

variable {n : Node} (integer : isInteger n.etype)
include integer

theorem agrees_folds {v : BitVec 64} {d : Float} (folds : foldop n = .folds v d) (same : v.setWidth (bits n.etype) = compute n) :
    Agrees n := by
  cases n with
  | Z => cases folds
  | node head l r =>
    have typed : head.type ≠ none := by
      intro none
      simp [isInteger, Node.etype, Node.type, none, typei] at integer
    refine ⟨node { head with vconst := convvtox v (node head l r).etype, oldop := head.op, op := OCONST } l r, ?_, fun _ => ?_⟩
    · simp only [evconst, typed, folds, not_typefd integer, ↓reduceIte]
      rfl
    · rw [target, ← same]
      exact convvtox_eq integer v

theorem agrees_stays (stays : foldop n = .stays) (operation : n.op ≠ OCONST) : Agrees n := by
  cases n with
  | Z => exact ⟨Z, rfl, fun op => absurd op (by decide)⟩
  | node head l r =>
    refine ⟨node head l r, ?_, fun op => absurd op operation⟩
    simp only [evconst, stays]
    split <;> rfl

theorem not_agrees_undefined (undefined : foldop n = .undefined) : ¬ Agrees n := by
  cases n with
  | Z => cases undefined
  | node head l r =>
    have typed : head.type ≠ none := by
      intro none
      simp [isInteger, Node.etype, Node.type, none, typei] at integer
    rintro ⟨folded, returns, _⟩
    simp only [evconst, typed, undefined, ↓reduceIte] at returns
    cases returns

end Fold

theorem truth_setWidth {w : Nat} (inside : w ≤ 64) (b : Bool) : (truth b : BitVec 64).setWidth w = truth b := by
  cases b
  · simp [truth]
  · apply BitVec.eq_of_toNat_eq
    simp only [truth, ↓reduceIte, BitVec.toNat_setWidth, BitVec.ofNat_eq_ofNat, BitVec.toNat_ofNat,
      Nat.mod_mod_of_dvd 1 (Nat.pow_dvd_pow 2 inside)]

theorem relation_eq {l r : Node} (integer : isInteger l.etype) (double : Float → Float → Bool) (vlong : BitVec 64 → BitVec 64 → Bool) :
    relation l r double vlong = .folds (truth (vlong l.vconst r.vconst)) 0 := by
  rw [relation, not_typefd integer]
  rfl

/-- The test for a zero divisor finds it. -/
theorem vconst_eq_zero {n : Node} (constant : n.op = OCONST) (integer : isInteger n.etype) : Scon.vconst n = 0 ↔ n.vconst = 0 := by
  have plain : Scon.vconst n = if BitVec.ofInt 64 (Sub.int n.vconst) ≠ n.vconst then uninteresting else Sub.int n.vconst := by
    unfold Scon.vconst
    rw [if_neg (not_not.mpr constant)]
    cases et : n.etype <;> simp_all [isInteger, typei]
  rw [plain]
  constructor
  · intro zero
    split at zero
    · cases zero
    · next same =>
      rw [not_not, zero] at same
      exact same.symm
  · intro zero
    rw [zero]
    decide

section Operands

variable {n : Node}

theorem Operand.signed (operand : Operand n) (signed : n.etype.typeu = false) :
    n.vconst = (n.vconst.setWidth (bits n.etype)).signExtend 64 := by
  have extended := operand.canonical.eq_extend operand.integer
  rw [signed] at extended
  exact extended

theorem Operand.unsigned (operand : Operand n) (unsigned : n.etype.typeu = true) :
    n.vconst = (n.vconst.setWidth (bits n.etype)).setWidth 64 := by
  have extended := operand.canonical.eq_extend operand.integer
  rw [unsigned] at extended
  exact extended

/-- Whether a constant is zero is the same for its word. -/
theorem Operand.eq_zero (operand : Operand n) : (n.vconst == 0) = (n.vconst.setWidth (bits n.etype) == 0) := by
  obtain ⟨_, _, high⟩ := bits_bounds operand.integer
  rw [Bool.eq_iff_iff, beq_iff_eq, beq_iff_eq]
  constructor
  · intro zero
    rw [zero]
    exact BitVec.setWidth_zero _ _
  · intro zero
    rw [operand.canonical.eq_extend operand.integer, zero]
    exact extend_zero high _

theorem Operand.eq_iff {l r : Node} (left : Operand l) (right : Operand r) (same : r.etype = l.etype) :
    (l.vconst == r.vconst) = (l.vconst.setWidth (bits l.etype) == r.vconst.setWidth (bits l.etype)) := by
  obtain ⟨_, _, high⟩ := bits_bounds left.integer
  have extended := right.canonical.eq_extend right.integer
  rw [same] at extended
  rw [Bool.eq_iff_iff, beq_iff_eq, beq_iff_eq, ← extend_inj high l.etype.typeu, ← extended,
    ← left.canonical.eq_extend left.integer]

end Operands

section Cases

variable {n : Node} (integer : isInteger n.etype)
include integer

/-- Operations that work from the low bits up: the types of the operands do not matter. -/
theorem agrees_arithmetic (op : n.op ∈ [OCAST, OADD, OSUB, OMUL, OLMUL, ONEG, OCOM, OAND, OOR, OXOR])
    (constant : isInteger n.left.etype) : Agrees n := by
  obtain ⟨_, _, high⟩ := bits_bounds integer
  have float := not_typefd integer
  have float' := not_typefd constant
  have notVoid : n.etype ≠ TVOID := by
    intro void
    rw [void] at integer
    cases integer <;> contradiction
  have cut : (convvtox n.left.vconst n.etype).setWidth (bits n.etype) = n.left.vconst.setWidth (bits n.etype) := by
    rw [convvtox_eq integer, setWidth_extend high]
  simp only [List.mem_cons, List.not_mem_nil, or_false] at op
  rcases op with op | op | op | op | op | op | op | op | op | op
  all_goals
    refine agrees_folds integer (by simp only [foldop, op, float, float', notVoid, Bool.false_eq_true, ↓reduceIte]; rfl) ?_
    simp only [compute, op]
  · exact cut
  · exact BitVec.setWidth_add _ _ high
  · exact setWidth_sub high _ _
  · exact BitVec.setWidth_mul _ _ high
  · exact BitVec.setWidth_mul _ _ high
  · exact setWidth_neg high _
  · exact BitVec.setWidth_not high
  · exact BitVec.setWidth_and
  · exact BitVec.setWidth_or
  · exact BitVec.setWidth_xor

/-- A comparison whose operands are read as their words are. -/
theorem agrees_truth {b : Bool} (folds : foldop n = .folds (truth b) 0) (same : compute n = truth b) : Agrees n := by
  obtain ⟨_, _, high⟩ := bits_bounds integer
  apply agrees_folds integer folds
  rw [same, truth_setWidth high]

theorem agrees_signed (op : n.op ∈ [OLT, OGT, OLE, OGE]) (left : Operand n.left) (right : Operand n.right)
    (same : n.right.etype = n.left.etype) (signed : n.left.etype.typeu = false) : Agrees n := by
  obtain ⟨_, _, high⟩ := bits_bounds left.integer
  have l := left.signed signed
  have r := right.signed (same ▸ signed)
  rw [same] at r
  simp only [List.mem_cons, List.not_mem_nil, or_false] at op
  rcases op with op | op | op | op
  all_goals
    refine agrees_truth integer (by simp only [foldop, op]; exact relation_eq left.integer _ _) ?_
    simp only [compute, op]
  · rw [← slt_signExtend high, ← l, ← r]
  · rw [← slt_signExtend high, ← l, ← r]
  · rw [← sle_signExtend high, ← l, ← r]
  · rw [← sle_signExtend high, ← l, ← r]

theorem agrees_unsigned (op : n.op ∈ [OLO, OHI, OLS, OHS]) (left : Operand n.left) (right : Operand n.right)
    (same : n.right.etype = n.left.etype) (unsigned : n.left.etype.typeu = true) : Agrees n := by
  obtain ⟨_, _, high⟩ := bits_bounds left.integer
  have l := left.unsigned unsigned
  have r := right.unsigned (same ▸ unsigned)
  rw [same] at r
  simp only [List.mem_cons, List.not_mem_nil, or_false] at op
  rcases op with op | op | op | op
  all_goals
    refine agrees_truth integer (by simp only [foldop, op]; rfl) ?_
    simp only [compute, op]
  · rw [← ult_setWidth high, ← l, ← r]
  · rw [← ult_setWidth high, ← l, ← r]
  · rw [← ule_setWidth high, ← l, ← r]
  · rw [← ule_setWidth high, ← l, ← r]

theorem agrees_equal (op : n.op ∈ [OEQ, ONE]) (left : Operand n.left) (right : Operand n.right)
    (same : n.right.etype = n.left.etype) : Agrees n := by
  have equal := left.eq_iff right same
  simp only [List.mem_cons, List.not_mem_nil, or_false] at op
  rcases op with op | op
  all_goals
    refine agrees_truth integer (by simp only [foldop, op]; exact relation_eq left.integer _ _) ?_
    simp only [compute, op]
  · rw [equal]
  · rw [bne, bne, equal]

theorem agrees_logical (op : n.op ∈ [OANDAND, OOROR]) (left : Operand n.left) (right : Operand n.right) : Agrees n := by
  have first := left.eq_zero
  have second := right.eq_zero
  simp only [List.mem_cons, List.not_mem_nil, or_false] at op
  rcases op with op | op
  all_goals
    refine agrees_truth integer (by simp only [foldop, op]; exact relation_eq left.integer _ _) ?_
    simp only [compute, op]
    rw [bne, bne, bne, bne, first, second]

theorem agrees_not (op : n.op = ONOT) (left : Operand n.left) : Agrees n := by
  refine agrees_truth integer (by simp only [foldop, op]; exact relation_eq left.integer _ _) ?_
  simp only [compute, op]
  rw [left.eq_zero]

/-- A shift is folded for the counts that the host defines. -/
theorem agrees_shift {f : BitVec 64 → Nat → BitVec 64} (folds : foldop n = .ofHost (hostShift f n.left.vconst n.right.vconst))
    (same : (f n.left.vconst n.right.vconst.toNat).setWidth (bits n.etype) = compute n) :
    Agrees n ↔ 0 ≤ n.right.vconst.toInt ∧ n.right.vconst.toInt < 64 := by
  by_cases defined : 0 ≤ n.right.vconst.toInt ∧ n.right.vconst.toInt < 64
  · refine iff_of_true (agrees_folds (d := 0) integer ?_ same) defined
    rw [folds, hostShift, if_neg (by omega)]
    rfl
  · refine iff_of_false (not_agrees_undefined integer ?_) defined
    rw [folds, hostShift, if_pos (by omega)]
    rfl

/-- A division is folded when the divisor is not zero, if the host defines it. -/
theorem agrees_divide {result : Option (BitVec 64)} {quotient : BitVec 64} {overflow : Prop} [Decidable overflow]
    (right : Operand n.right) (operation : n.op ≠ OCONST) (folds : foldop n = divide n.right (.ofHost result))
    (host : result = if n.right.vconst = 0 ∨ overflow then none else some quotient) (nonzero : overflow → n.right.vconst ≠ 0)
    (same : quotient.setWidth (bits n.etype) = compute n) : Agrees n ↔ ¬ overflow := by
  by_cases zero : n.right.vconst = 0
  · refine iff_of_true (agrees_stays integer ?_ operation) (fun overflowed => nonzero overflowed zero)
    rw [folds, divide, if_pos ((vconst_eq_zero right.constant right.integer).mpr zero)]
  · have passes : Scon.vconst n.right ≠ 0 := fun test => zero ((vconst_eq_zero right.constant right.integer).mp test)
    rw [divide, if_neg passes, host] at folds
    by_cases overflowed : overflow
    · refine iff_of_false (not_agrees_undefined integer ?_) (not_not.mpr overflowed)
      rw [folds, if_pos (.inr overflowed)]
      rfl
    · refine iff_of_true (agrees_folds (d := 0) integer ?_ same) overflowed
      rw [folds, if_neg (by tauto)]
      rfl

theorem agrees_sdiv (op : n.op ∈ [ODIV, OMOD]) (left : Operand n.left) (right : Operand n.right) (first : n.left.etype = n.etype)
    (second : n.right.etype = n.etype) (signed : n.etype.typeu = false) :
    Agrees n ↔ ¬ (n.left.vconst = BitVec.intMin 64 ∧ n.right.vconst = -1) := by
  obtain ⟨_, _, high⟩ := bits_bounds integer
  have float := not_typefd integer
  have l := left.signed (first ▸ signed)
  have r := right.signed (second ▸ signed)
  rw [first] at l
  rw [second] at r
  have nonzero : n.left.vconst = BitVec.intMin 64 ∧ n.right.vconst = -1 → n.right.vconst ≠ 0 := by
    rintro ⟨_, one⟩
    rw [one]
    decide
  simp only [List.mem_cons, List.not_mem_nil, or_false] at op
  rcases op with op | op
  · refine agrees_divide integer right (by rw [op]; decide) (by simp only [foldop, op, float, Bool.false_eq_true, ↓reduceIte]; rfl)
      rfl nonzero ?_
    simp only [compute, op]
    rw [← setWidth_sdiv high, ← l, ← r]
  · refine agrees_divide integer right (by rw [op]; decide) (by simp only [foldop, op]; rfl) rfl nonzero ?_
    simp only [compute, op]
    rw [← setWidth_srem high, ← l, ← r]

theorem agrees_udiv (op : n.op ∈ [OLDIV, OLMOD]) (left : Operand n.left) (right : Operand n.right) (first : n.left.etype = n.etype)
    (second : n.right.etype = n.etype) (unsigned : n.etype.typeu = true) : Agrees n := by
  obtain ⟨_, _, high⟩ := bits_bounds integer
  have l := left.unsigned (first ▸ unsigned)
  have r := right.unsigned (second ▸ unsigned)
  rw [first] at l
  rw [second] at r
  simp only [List.mem_cons, List.not_mem_nil, or_false] at op
  rcases op with op | op
  · refine (agrees_divide integer right (by rw [op]; decide) (by simp only [foldop, op]; rfl)
      (by simp only [hostUdiv, or_false]; rfl) False.elim ?_).mpr not_false
    simp only [compute, op]
    rw [← setWidth_udiv high, ← l, ← r]
  · refine (agrees_divide integer right (by rw [op]; decide) (by simp only [foldop, op]; rfl)
      (by simp only [hostUmod, or_false]; rfl) False.elim ?_).mpr not_false
    simp only [compute, op]
    rw [← setWidth_umod high, ← l, ← r]

theorem agrees_ashl (op : n.op = OASHL) : Agrees n ↔ 0 ≤ n.right.vconst.toInt ∧ n.right.vconst.toInt < 64 := by
  obtain ⟨_, _, high⟩ := bits_bounds integer
  apply agrees_shift integer (by simp only [foldop, op]; rfl)
  simp only [compute, op]
  exact setWidth_shl high _ _

theorem agrees_lshr (op : n.op = OLSHR) (left : Operand n.left) (first : n.left.etype = n.etype) (unsigned : n.etype.typeu = true) :
    Agrees n ↔ 0 ≤ n.right.vconst.toInt ∧ n.right.vconst.toInt < 64 := by
  obtain ⟨_, _, high⟩ := bits_bounds integer
  have l := left.unsigned (first ▸ unsigned)
  rw [first] at l
  apply agrees_shift integer (by simp only [foldop, op]; rfl)
  simp only [compute, op]
  rw [← setWidth_shr high, ← l]

theorem agrees_ashr (op : n.op = OASHR) (left : Operand n.left) (first : n.left.etype = n.etype) (signed : n.etype.typeu = false) :
    Agrees n ↔ 0 ≤ n.right.vconst.toInt ∧ n.right.vconst.toInt < 64 := by
  obtain ⟨_, _, high⟩ := bits_bounds integer
  have l := left.signed (first ▸ signed)
  rw [first] at l
  apply agrees_shift integer (by simp only [foldop, op]; rfl)
  simp only [compute, op]
  rw [← setWidth_sshr high, ← l]

end Cases

/-- For every operation and every integer type, a constant that takes the place of the
node is the target's, and the host does only what it defines, except for the division
that overflows and for counts of shifts below zero or from 64 on. -/
theorem evconst_agrees_iff (n : Node) (integer : isInteger n.etype) (typed : Matches n) : Agrees n ↔ Defined n := by
  cases typed with
  | unary op left =>
    have listed : n.op ∈ [OCAST, OADD, OSUB, OMUL, OLMUL, ONEG, OCOM, OAND, OOR, OXOR] := by
      simp only [List.mem_cons, List.not_mem_nil, or_false] at op ⊢
      tauto
    exact iff_of_true (agrees_arithmetic integer listed left.integer) (defined_other op (by decide))
  | binary op left right =>
    have listed : n.op ∈ [OCAST, OADD, OSUB, OMUL, OLMUL, ONEG, OCOM, OAND, OOR, OXOR] := by
      simp only [List.mem_cons, List.not_mem_nil, or_false] at op ⊢
      tauto
    exact iff_of_true (agrees_arithmetic integer listed left.integer) (defined_other op (by decide))
  | sdiv op left right first second signed =>
    exact (agrees_sdiv integer op left right first second signed).trans (defined_division op).symm
  | udiv op left right first second unsigned =>
    exact iff_of_true (agrees_udiv integer op left right first second unsigned) (defined_other op (by decide))
  | ashl op _ _ => exact (agrees_ashl integer op).trans (defined_shift (by rw [op]; decide)).symm
  | ashr op left _ first signed => exact (agrees_ashr integer op left first signed).trans (defined_shift (by rw [op]; decide)).symm
  | lshr op left _ first unsigned => exact (agrees_lshr integer op left first unsigned).trans (defined_shift (by rw [op]; decide)).symm
  | signed op left right same signed =>
    exact iff_of_true (agrees_signed integer op left right same signed) (defined_other op (by decide))
  | unsigned op left right same unsigned =>
    exact iff_of_true (agrees_unsigned integer op left right same unsigned) (defined_other op (by decide))
  | equal op left right same => exact iff_of_true (agrees_equal integer op left right same) (defined_other op (by decide))
  | logical op left right => exact iff_of_true (agrees_logical integer op left right) (defined_other op (by decide))
  | not op left => exact iff_of_true (agrees_not integer op left) (defined_other (List.mem_singleton.mpr op) (by decide))

/-- An operation on two constants of one type. -/
def constants (o : NodeKind) (et : Etype) (width : Int) (l r : BitVec 64) : Node :=
  let type := some ⟨et, width, 0⟩
  node ⟨o, type, 0, 0, OXXX⟩ (node ⟨OCONST, type, l, 0, OXXX⟩ Z Z) (node ⟨OCONST, type, r, 0, OXXX⟩ Z Z)

theorem evconst_agrees_least : Agrees (constants ODIV TINT 4 (-2 ^ 31) (-1)) ↔ Defined (constants ODIV TINT 4 (-2 ^ 31) (-1)) :=
  evconst_agrees_iff _ (.inl rfl) (.sdiv (by decide) ⟨rfl, .inl rfl, by unfold Canonical; decide⟩
    ⟨rfl, .inl rfl, by unfold Canonical; decide⟩ rfl rfl rfl)

theorem evconst_traps : isInteger TVLONG ∧ Matches (constants ODIV TVLONG 8 (BitVec.intMin 64) (-1)) ∧
    evconst (constants ODIV TVLONG 8 (BitVec.intMin 64) (-1)) = none ∧
    ¬ Agrees (constants ODIV TVLONG 8 (BitVec.intMin 64) (-1)) := by
  have traps : evconst (constants ODIV TVLONG 8 (BitVec.intMin 64) (-1)) = none := rfl
  refine ⟨.inl rfl, .sdiv (by decide) ⟨rfl, .inl rfl, by unfold Canonical; decide⟩
    ⟨rfl, .inl rfl, by unfold Canonical; decide⟩ rfl rfl rfl, traps, ?_⟩
  rintro ⟨folded, returns, _⟩
  rw [traps] at returns
  cases returns

end Goken.Proofs.Evconst
