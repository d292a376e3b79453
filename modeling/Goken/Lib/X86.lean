import Mathlib.Tactic.Common
import Mathlib.Algebra.Group.Int.Defs
import Mathlib.Algebra.Group.Nat.Defs

/-! A 32-bit x86 as straight-line code sees it: the general registers, words in
memory, and the carry. Operands come in source, destination order; `CMPL x, y`
compares `x` with `y`. -/

namespace Goken.Lib.X86

abbrev Word := BitVec 32

inductive Reg where
  | AX | CX | DX | BX | SP | BP | SI | DI
  deriving DecidableEq, Repr

inductive Operand where
  | reg (r : Reg)
  | imm (value : Word)
  | mem (address : Nat)
  deriving DecidableEq, Repr

structure State where
  reg : Reg → Word
  mem : Nat → Word
  carry : Bool

namespace State

def read (s : State) : Operand → Word
  | .reg r => s.reg r
  | .imm value => value
  | .mem address => s.mem address

def write (s : State) (r : Reg) (value : Word) : State := { s with reg := fun other => if other = r then value else s.reg other }

def store (s : State) (address : Nat) (value : Word) : State :=
  { s with mem := fun other => if other = address then value else s.mem other }

def flag (s : State) (carry : Bool) : State := { s with carry }

@[simp] theorem write_same (s : State) (r : Reg) (value : Word) : (s.write r value).reg r = value := by simp [write]

@[simp] theorem write_other {r other : Reg} (s : State) (value : Word) (different : other ≠ r) :
    (s.write r value).reg other = s.reg other := by simp [write, different]

@[simp] theorem write_mem (s : State) (r : Reg) (value : Word) : (s.write r value).mem = s.mem := rfl

@[simp] theorem write_carry (s : State) (r : Reg) (value : Word) : (s.write r value).carry = s.carry := rfl

@[simp] theorem store_reg (s : State) (address : Nat) (value : Word) : (s.store address value).reg = s.reg := rfl

@[simp] theorem store_same (s : State) (address : Nat) (value : Word) : (s.store address value).mem address = value := by simp [store]

@[simp] theorem flag_reg (s : State) (carry : Bool) : (s.flag carry).reg = s.reg := rfl

@[simp] theorem flag_mem (s : State) (carry : Bool) : (s.flag carry).mem = s.mem := rfl

@[simp] theorem flag_carry (s : State) (carry : Bool) : (s.flag carry).carry = carry := rfl

@[simp] theorem read_reg (s : State) (r : Reg) : s.read (.reg r) = s.reg r := rfl

@[simp] theorem read_imm (s : State) (value : Word) : s.read (.imm value) = value := rfl

@[simp] theorem read_mem (s : State) (address : Nat) : s.read (.mem address) = s.mem address := rfl

@[simp] theorem read_write {o : Operand} {r : Reg} (s : State) (value : Word) (different : o ≠ .reg r) :
    (s.write r value).read o = s.read o := by
  cases o with
  | reg other => exact write_other s value fun same => different (by rw [same])
  | imm _ => rfl
  | mem _ => rfl

@[simp] theorem read_flag (s : State) (carry : Bool) (o : Operand) : (s.flag carry).read o = s.read o := by
  cases o <;> rfl

end State

/-- The instructions, by the kind of their destination. A shift takes its count
from the low five bits of a constant. -/
inductive Inst where
  | MOVL (src : Operand) (dst : Reg)
  | MOVLM (src : Operand) (address : Nat)
  | ADDL (src : Operand) (dst : Reg)
  | SUBL (src : Operand) (dst : Reg)
  | SBBL (src : Operand) (dst : Reg)
  | ANDL (src : Operand) (dst : Reg)
  | XORL (src : Operand) (dst : Reg)
  | CMPL (x y : Operand)
  | NEGL (dst : Reg)
  | SHLL (count : Word) (dst : Reg)
  | SHRL (count : Word) (dst : Reg)
  | SARL (count : Word) (dst : Reg)
  | RCRL (count : Word) (dst : Reg)
  | CDQ
  | MULL (src : Operand)
  | IMULL (src : Operand)
  | IMULLR (src : Operand) (dst : Reg)
  | IDIVL (src : Operand)
  | LEAL (base : Operand) (index : Reg) (scale : Word) (dst : Reg)
  deriving DecidableEq, Repr

def carryBit (s : State) : Word := if s.carry then 1 else 0

/-- The bit that a right shift puts into the carry; no shift leaves it. -/
def shiftedOut (s : State) (value : Word) (count : Nat) : Bool := if count = 0 then s.carry else value.getLsbD (count - 1)

/-- One place of a rotation to the right through the carry. -/
def rotate (value : Word) (carry : Bool) : Word × Bool := (value >>> 1 ||| (if carry then 0x80000000 else 0), value.getLsbD 0)

def rotates : Nat → Word → Bool → Word × Bool
  | 0, value, carry => (value, carry)
  | n + 1, value, carry => let next := rotate value carry; rotates n next.1 next.2

/-- The high half of a 64-bit product. -/
def highHalf (product : Int) : Word := BitVec.ofInt 32 (product / 2 ^ 32)

theorem highHalf_natCast {product : Nat} (bound : product < 2 ^ 64) : (highHalf product).toNat = product / 2 ^ 32 := by
  rw [highHalf, BitVec.toNat_ofInt]
  omega

theorem rotate_toNat (value : Word) (carry : Bool) :
    (rotate value carry).1.toNat = (value.toNat + if carry then 2 ^ 32 else 0) / 2 := by
  have bound := value.isLt
  cases carry with
  | false => simp [rotate, Nat.shiftRight_eq_div_pow]
  | true =>
    have apart : value.toNat / 2 ||| 2 ^ 31 = value.toNat / 2 + 2 ^ 31 := by
      rw [Nat.or_comm, ← Nat.one_shiftLeft, ← Nat.shiftLeft_add_eq_or_of_lt (by omega), Nat.add_comm]
    have set : (0x80000000 : Word).toNat = 2 ^ 31 := rfl
    simp only [rotate, if_true, BitVec.toNat_or, BitVec.toNat_ushiftRight, Nat.shiftRight_eq_div_pow, Nat.pow_one, set, apart]
    omega

/-- `none` when the machine traps, as `IDIVL` does on a quotient that does not fit. -/
def exec : Inst → State → Option State
  | .MOVL src dst, s => some (s.write dst (s.read src))
  | .MOVLM src address, s => some (s.store address (s.read src))
  | .ADDL src dst, s => some ((s.write dst (s.reg dst + s.read src)).flag (2 ^ 32 ≤ (s.reg dst).toNat + (s.read src).toNat))
  | .SUBL src dst, s => some ((s.write dst (s.reg dst - s.read src)).flag (s.reg dst < s.read src))
  | .SBBL src dst, s =>
    some ((s.write dst (s.reg dst - s.read src - carryBit s)).flag ((s.reg dst).toNat < (s.read src).toNat + (carryBit s).toNat))
  | .ANDL src dst, s => some ((s.write dst (s.reg dst &&& s.read src)).flag false)
  | .XORL src dst, s => some ((s.write dst (s.reg dst ^^^ s.read src)).flag false)
  | .CMPL x y, s => some (s.flag (s.read x < s.read y))
  | .NEGL dst, s => some ((s.write dst (-s.reg dst)).flag (s.reg dst ≠ 0))
  | .SHLL count dst, s =>
    let n := count.toNat % 32
    some ((s.write dst (s.reg dst <<< n)).flag (if n = 0 then s.carry else (s.reg dst).getLsbD (32 - n)))
  | .SHRL count dst, s =>
    let n := count.toNat % 32
    some ((s.write dst (s.reg dst >>> n)).flag (shiftedOut s (s.reg dst) n))
  | .SARL count dst, s =>
    let n := count.toNat % 32
    some ((s.write dst ((s.reg dst).sshiftRight n)).flag (shiftedOut s (s.reg dst) n))
  | .RCRL count dst, s =>
    let result := rotates (count.toNat % 32) (s.reg dst) s.carry
    some ((s.write dst result.1).flag result.2)
  | .CDQ, s => some (s.write .DX ((s.reg .AX).sshiftRight 31))
  | .MULL src, s =>
    let product := ((s.reg .AX).toNat * (s.read src).toNat : Int)
    some (((s.write .AX (BitVec.ofInt 32 product)).write .DX (highHalf product)).flag (highHalf product ≠ 0))
  | .IMULL src, s =>
    let product := (s.reg .AX).toInt * (s.read src).toInt
    some (((s.write .AX (BitVec.ofInt 32 product)).write .DX (highHalf product)).flag ((BitVec.ofInt 32 product).toInt ≠ product))
  | .IMULLR src dst, s =>
    let product := (s.reg dst).toInt * (s.read src).toInt
    some ((s.write dst (BitVec.ofInt 32 product)).flag ((BitVec.ofInt 32 product).toInt ≠ product))
  | .IDIVL src, s =>
    let dividend := (s.reg .DX).toInt * 2 ^ 32 + (s.reg .AX).toNat
    let divisor := (s.read src).toInt
    let quotient := dividend.tdiv divisor
    if divisor = 0 ∨ ¬ (-2 ^ 31 ≤ quotient ∧ quotient < 2 ^ 31) then none
    else some ((s.write .AX (BitVec.ofInt 32 quotient)).write .DX (BitVec.ofInt 32 (dividend.tmod divisor)))
  | .LEAL base index scale dst, s => some (s.write dst (s.read base + s.reg index * scale))

def run : List Inst → State → Option State
  | [], s => some s
  | i :: rest, s => (exec i s).bind (run rest)

theorem run_append (first second : List Inst) (s : State) : run (first ++ second) s = (run first s).bind (run second) := by
  induction first generalizing s with
  | nil => rfl
  | cons i first ih =>
    simp only [List.cons_append, run]
    cases exec i s with
    | none => rfl
    | some t => exact ih t

/-- Counts that the five bits hold. -/
def Inst.inRange : Inst → Prop
  | .SHLL count _ | .SHRL count _ | .SARL count _ | .RCRL count _ => count.toNat < 32
  | _ => True

instance (i : Inst) : Decidable i.inRange := by cases i <;> unfold Inst.inRange <;> infer_instance

end Goken.Lib.X86
