import Mathlib.Tactic.Common
import Mathlib.Algebra.Group.Nat.Defs

/-! Rotated immediates of the ARM linker (5l/span.c, 5l/codegen.c). A `long` of the host
has `w` bits: 32 under the Plan 9 compilers, 64 under those of most Unix hosts. -/

namespace Goken.Immrot

/-- The loop of `immrot`, with the rounds left. -/
def immrotFrom {w : Nat} : Nat → Nat → BitVec w → BitVec w
  | 0, _, _ => 0
  | rounds + 1, i, v =>
    if v &&& ~~~ 0xff = 0 then (1 : BitVec w) <<< 25 ||| BitVec.ofNat w i <<< 8 ||| v
    else immrotFrom rounds (i + 1) (v <<< 2 ||| v >>> 30)

/-- Zero if there is no encoding. -/
def immrot {w : Nat} (v : BitVec w) : BitVec w := immrotFrom 16 0 v

inductive Class where
  | C_RCON | C_NCON | C_LCON
  deriving DecidableEq, Repr

/-- The case of a constant in `aclass`. -/
def aclass {w : Nat} (instoffset : BitVec w) : Class :=
  if immrot instoffset ≠ 0 then .C_RCON
  else if immrot (~~~ instoffset) ≠ 0 then .C_NCON
  else .C_LCON

/-- The operand field of the instruction that `asmout` emits for a class: of the
operation itself, or of the `MVN` of `omvl`; none for the "missing literal". -/
def operand {w : Nat} (class' : Class) (instoffset : BitVec w) : Option (BitVec w) :=
  match class' with
  | .C_RCON => some (immrot instoffset)
  | .C_NCON => if immrot (~~~ instoffset) = 0 then none else some (immrot (~~~ instoffset))
  | .C_LCON => none

/-- The number that the processor reads from an operand field: eight bits, rotated to
the right by twice the next four. -/
def decode {w : Nat} (field : BitVec w) : BitVec 32 :=
  ((field &&& 0xff).setWidth 32).rotateRight (2 * (field >>> 8 &&& 15).toNat)

end Goken.Immrot
