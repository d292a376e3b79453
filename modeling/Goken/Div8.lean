import Goken.Const
import Goken.Lib.X86

/-! Division by constants in the x86 back end (8c/div.c, and the cases of 8c/cgen.c
and 8c/sgen.c that lead to it). The compiler's own arithmetic is on 64-bit host
integers; what is undefined there is a fault. -/

namespace Goken.Div8
open Goken.Const Lib.X86

/-- What stops the compiler: a shift count out of range, a division by zero, a
failed assertion. -/
inductive Fault where
  | shift | divide | assert
  deriving DecidableEq, Repr

/-- A `uvlong` or `ulong` of the host. -/
def uvlong (v : Int) : Nat := (v % 2 ^ 64).toNat

def TN (n : Int) : Except Fault Nat := if 0 ≤ n ∧ n < 64 then .ok (2 ^ n.toNat) else .error .shift

def T31 : Nat := 2 ^ 31

def T32 : Nat := 2 ^ 32

/-- The host's unsigned division. -/
def quotient (n d : Nat) : Except Fault Nat := if d = 0 then .error .divide else .ok (n / d)

def assert (holds : Bool) : Except Fault Unit := if holds then .ok () else .error .assert

/-- The loop of `multiplier`: both bounds are halved as long as they differ. -/
def reduce : Nat → Nat → Nat → Nat × Nat
  | 0, _, mhi => (0, mhi)
  | l + 1, mlo, mhi => if mlo / 2 = mhi / 2 then (l + 1, mhi) else reduce l (mlo / 2) (mhi / 2)

/-- The shift and the multiplier for dividends of `p` bits. -/
def multiplier (d : Nat) (p : Int) : Except Fault (Nat × Nat) := do
  let l := topbit (uvlong (d - 1)) + 1
  let tl ← TN l
  let q ← quotient (uvlong (uvlong (tl - d) * 2 ^ 32)) d
  let mlo := uvlong (q + T32)
  let mhi ← if l + p = 64 then do
      let q ← quotient (uvlong (uvlong (tl + 1 - d) * 2 ^ 32)) d
      pure (uvlong (q + T32))
    else do
      let a ← TN (32 + l)
      let b ← TN (32 + l - p)
      quotient (uvlong (a + b)) d
  assert (mlo < mhi)
  return reduce l.toNat mlo mhi

/-- The multiplier and the shift of a signed division; the last component says
that the multiplier does not fit a signed word. -/
def sdiv (d : Nat) : Except Fault (Nat × Nat × Bool) := do
  let (s, m) ← multiplier d (32 - 1)
  return (m, s, m ≥ T31)

/-- The loop of `udiv` that makes the divisor odd. -/
def makeOdd (d : Nat) (p : Nat) : Nat × Nat := if d ≠ 0 ∧ d % 2 = 0 then makeOdd (d / 2) (p + 1) else (d, p)

structure Udiv where
  m : Nat
  s : Int
  p : Nat
  add : Bool
  deriving DecidableEq, Repr

/-- The loop on an even divisor does not end for zero: the first `multiplier`
has stopped the compiler there. -/
def udiv (d : Nat) : Except Fault Udiv := do
  let (s, m) ← multiplier d 32
  let (s, m, p) ← if m ≥ T32 then do
      let (d, p) := makeOdd d 0
      let (s, m) ← multiplier d (32 - p)
      pure (s, m, p)
    else pure (s, m, 0)
  if m ≥ T32 then do
    assert (p = 0)
    return { m, s := s - 1, p, add := true }
  else return { m, s, p, add := false }

def nodconst (v : Int) : Word := BitVec.ofInt 32 v

/-- `l` is the dividend, `nod` the register allocated for it when it is in memory. -/
def sdivgen (l : Operand) (c : Int) : Except Fault (List Inst) := do
  let (m, s, a) ← sdiv (uvlong (if c < 0 then -c else c))
  return [.MOVL (.imm (nodconst m)) .AX, .IMULL l, .MOVL l .AX]
    ++ (if a then [.ADDL (.reg .AX) .DX] else [])
    ++ [.SHRL (nodconst 31) .AX, .SARL (nodconst s) .DX, .ADDL (.reg .AX) .DX]
    ++ (if c < 0 then [.NEGL .DX] else [])

def isRegister : Operand → Bool
  | .reg _ => true
  | _ => false

def udivgen (l : Operand) (nod : Reg) (c : Nat) : Except Fault (List Inst) := do
  let u ← udiv c
  let product : List Inst :=
    if u.p ≠ 0 then
      [.MOVL l .AX, .SHRL (nodconst u.p) .AX, .MOVL (.imm (nodconst u.m)) .DX, .MULL (.reg .DX)]
    else if u.add then
      let dividend := if isRegister l then l else .reg nod
      (if isRegister l then [] else [.MOVL l nod])
        ++ [.MOVL (.imm (nodconst u.m)) .AX, .MULL dividend, .ADDL dividend .DX, .RCRL (nodconst 1) .DX]
    else [.MOVL (.imm (nodconst u.m)) .AX, .MULL l]
  return product ++ (if u.s ≠ 0 then [.SHRL (nodconst u.s) .DX] else [])

/-- The sign of `s` in `d`: with `CDQ` when they are AX and DX. -/
def sext (d s : Reg) : List Inst :=
  if s = .AX ∧ d = .DX then [.CDQ] else [.MOVL (.reg s) d, .SARL (nodconst 31) d]

/-- `(1 << v) - 1` in the host's `int`. -/
def lowMask (v : Nat) : Int := Int.bmod (Int.bmod (2 ^ v) (2 ^ 32) - 1) (2 ^ 32)

def sdiv2 (c : Int) (v : Nat) (nod n : Reg) : List Inst :=
  (if v > 0 then
    (if v > 1 then sext nod n ++ [.ANDL (.imm (nodconst (lowMask v))) nod, .ADDL (.reg nod) n]
      else [.CMPL (.reg n) (.imm (nodconst 0x80000000)), .SBBL (.imm (nodconst (-1))) n])
      ++ [.SARL (nodconst v) n]
    else [])
    ++ (if c < 0 then [.NEGL n] else [])

def zeroregm (n : Reg) : List Inst := [.MOVL (.imm (nodconst 0)) n]

def smod2 (c : Int) (v : Nat) (nod n : Reg) : List Inst :=
  if c = 1 then zeroregm n
  else sext nod n ++
    (if v = 0 then zeroregm n ++ [.XORL (.reg nod) n, .SUBL (.reg nod) n]
      else if v > 1 then
        [.ANDL (.imm (nodconst (lowMask v))) nod, .ADDL (.reg nod) n, .ANDL (.imm (nodconst (lowMask v))) n, .SUBL (.reg nod) n]
      else [.ANDL (.imm (nodconst 1)) n, .XORL (.reg nod) n, .SUBL (.reg nod) n])

/-- The signed operators of the case, whose right operand is a constant. -/
inductive Signed where
  | ODIV | OMOD
  deriving DecidableEq, Repr

/-- The registers and the stack word that the allocator hands out: `nod` for the
left operand, `ext` for its sign, `word` for a constant that has to be in memory. -/
structure Places where
  nod : Reg
  ext : Reg
  word : Nat
  deriving DecidableEq, Repr

/-- `cgen` of a division or remainder by a constant: the code, and the register
that has the result. -/
def cgenSigned (o : Signed) (l : Operand) (c : Int) (places : Places) : Except Fault (List Inst × Reg) :=
  let v := log2 (uvlong (if c < 0 then -c else c))
  if v ≥ 0 then
    match o with
    | .ODIV => .ok (.MOVL l places.nod :: sdiv2 c v.toNat places.ext places.nod, places.nod)
    | .OMOD => .ok (.MOVL l places.nod :: smod2 c v.toNat places.ext places.nod, places.nod)
  else
    match o with
    | .ODIV => (sdivgen l c).map (·, .DX)
    | .OMOD => .ok ([.MOVL l .AX, .CDQ, .MOVLM (.imm (nodconst c)) places.word, .IDIVL (.mem places.word)], .DX)

/-- The unsigned operators that `cgen` hands to `udivgen`. -/
inductive Unsigned where
  | OLDIV | OASLDIV
  deriving DecidableEq, Repr

/-- `ccom` replaces a division by 0, with a diagnostic, and by 1; it has no such
case for the assignment. -/
def ccomKeeps : Unsigned → Nat → Prop
  | .OLDIV, c => c ≠ 0 ∧ c ≠ 1
  | .OASLDIV, _ => True

/-- `xcom` makes a shift of a division by a power of two. -/
def xcomKeeps (c : Nat) : Prop := log2 c < 0

/-- The divisors that `udivgen` is called with: `cgen` has a comparison for
those with bit 31. -/
def Passed (o : Unsigned) (c : Nat) : Prop := ccomKeeps o c ∧ xcomKeeps c ∧ c &&& 0x80000000 = 0

end Goken.Div8
