import Goken.Lib.Steps
import Mathlib.Logic.Basic
import Mathlib.Algebra.Group.Int.Defs
import Mathlib.Algebra.Group.Nat.Defs

/-! The run-time division of 64-bit values on 32-bit machines (libc/port/vlrt.c).
`long` is 32 bits here, as for every compiler of the repository. -/

namespace Goken.Vlrt
open Lib.Steps

abbrev ulong := BitVec 32

structure Vlong where
  hi : ulong
  lo : ulong
  deriving DecidableEq, Repr

namespace Vlong

def unsigned (v : Vlong) : Nat := v.hi.toNat * 2 ^ 32 + v.lo.toNat

def signed (v : Vlong) : Int := v.hi.toInt * 2 ^ 32 + v.lo.toNat

end Vlong

/-- The comparison of two pairs of halves, high halves first. -/
def less (a b : Vlong) : Bool := a.hi < b.hi || (a.hi == b.hi && a.lo < b.lo)

/-- `hi = (hi<<1) | (lo>>31); lo <<= 1` -/
def double (v : Vlong) : Vlong := ⟨v.hi <<< 1 ||| v.lo >>> 31, v.lo <<< 1⟩

/-- `lo = (lo>>1) | (hi<<31); hi >>= 1` -/
def halve (v : Vlong) : Vlong := ⟨v.hi >>> 1, v.lo >>> 1 ||| v.hi <<< 31⟩

/-- The subtraction with its borrow: `t` is the low half before it. -/
def subtract (num den : Vlong) : Vlong :=
  let t := num.lo
  let numlo := num.lo - den.lo
  let numhi := if numlo > t then num.hi - 1 else num.hi
  ⟨numhi - den.hi, numlo⟩

/-- The variables of `dodiv`. -/
structure Dodiv where
  num : Vlong
  den : Vlong
  quo : Vlong
  i : Int
  deriving DecidableEq, Repr

/-- One iteration of the loop that sets up the divisor. -/
def setUp (s : Dodiv) : Option Dodiv :=
  if less s.den s.quo then some { s with den := double s.den, i := s.i + 1 } else none

/-- One iteration of the loop that develops the quotient. -/
def develop (s : Dodiv) : Option Dodiv :=
  if s.i ≥ 0 then
    let quo := double s.quo
    if less s.num s.den then some { s with quo, den := halve s.den, i := s.i - 1 }
    else some { num := subtract s.num s.den, quo := { quo with lo := quo.lo ||| 1 }, den := halve s.den, i := s.i - 1 }
  else none

def SIGN (n : Nat) : ulong := (1 : ulong) <<< (n - 1)

/-- The state before the first loop: `quo` holds what the divisor has to reach. -/
def begin (num den : Vlong) : Dodiv :=
  { num, den, quo := if num.hi ≥ SIGN 32 then ⟨SIGN 32, 0⟩ else num, i := 0 }

/-- The state before the second loop. -/
def restart (s : Dodiv) : Dodiv := { s with quo := ⟨0, 0⟩ }

/-- The quotient and the remainder. `none` stands for the divide by zero and for
a loop that has not ended after `fuel` tests. -/
def dodiv (fuel : Nat) (num den : Vlong) : Option (Vlong × Vlong) :=
  if den.lo = 0 ∧ den.hi = 0 then none
  else do
    let s ← loop setUp fuel (begin num den)
    let s ← loop develop fuel (restart s)
    return (s.quo, s.num)

/-- What the machine's signed 32-bit division gives for -2^31 and -1, whose
quotient does not fit: a word, or nothing when it traps. -/
structure Native where
  quotient : Option ulong
  remainder : Option ulong

namespace Native

def overflows (n d : ulong) : Prop := n = BitVec.intMin 32 ∧ d = -1

instance (n d : ulong) : Decidable (overflows n d) := inferInstanceAs (Decidable (_ ∧ _))

/-- `(long)n / (long)d` -/
def div (native : Native) (n d : ulong) : Option ulong :=
  if d = 0 then none else if overflows n d then native.quotient else some (n.sdiv d)

/-- `(long)n % (long)d` -/
def mod (native : Native) (n d : ulong) : Option ulong :=
  if d = 0 then none else if overflows n d then native.remainder else some (n.srem d)

end Native

def _divvu (fuel : Nat) (n d : Vlong) : Option Vlong :=
  if n.hi = 0 ∧ d.hi = 0 then if d.lo = 0 then none else some ⟨0, n.lo / d.lo⟩
  else (dodiv fuel n d).map Prod.fst

def _modvu (fuel : Nat) (n d : Vlong) : Option Vlong :=
  if n.hi = 0 ∧ d.hi = 0 then if d.lo = 0 then none else some ⟨0, n.lo % d.lo⟩
  else (dodiv fuel n d).map Prod.snd

def vneg (v : Vlong) : Vlong := if v.lo = 0 then { v with hi := -v.hi } else ⟨~~~v.hi, -v.lo⟩

/-- `((long)lo) >> 31` -/
def extend (lo : ulong) : ulong := lo.sshiftRight 31

/-- The 64-bit value is the extension of its low half. -/
def short (v : Vlong) : Prop := v.hi = extend v.lo

instance (v : Vlong) : Decidable (short v) := inferInstanceAs (Decidable (_ = _))

def negative (v : Vlong) : Bool := v.hi >>> 31 != 0

def magnitude (v : Vlong) : Vlong := if negative v then vneg v else v

def _divv (native : Native) (fuel : Nat) (n d : Vlong) : Option Vlong :=
  if short n ∧ short d then (native.div n.lo d.lo).map fun lo => ⟨extend lo, lo⟩
  else (dodiv fuel (magnitude n) (magnitude d)).map fun (q, _) => if negative n != negative d then vneg q else q

def _modv (native : Native) (fuel : Nat) (n d : Vlong) : Option Vlong :=
  if short n ∧ short d then (native.mod n.lo d.lo).map fun lo => ⟨extend lo, lo⟩
  else (dodiv fuel (magnitude n) (magnitude d)).map fun (_, r) => if negative n then vneg r else r

end Goken.Vlrt
