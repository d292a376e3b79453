import Mathlib.Data.Nat.Log
import Goken.Types

/-! Doubles in object files: `ieeedtod` of the compilers (cc2/pswt.c,
cck/pswt.c). A double is its IEEE 754 bit pattern; `frexp`, `modf` and the
multiplications by powers of two are exact on finite numbers, so the function
computes with integers. -/

namespace Goken

abbrev Double := UInt64

namespace Double

def negative (d : Double) : Bool := 2 ^ 63 ≤ d.toNat

def exponent (d : Double) : Nat := d.toNat / 2 ^ 52 % 2 ^ 11

def fraction (d : Double) : Nat := d.toNat % 2 ^ 52

/-- The absolute value. -/
def magnitude (d : Double) : Nat := d.toNat % 2 ^ 63

def finite (d : Double) : Bool := d.exponent < 2047

end Double

structure Ieee where
  l : BitVec 32
  h : BitVec 32
  deriving DecidableEq, Repr

/-- `frexp` of a finite positive number: the fraction, as a number of 53 bits, and the exponent. -/
def frexp (d : Double) : Nat × Int :=
  if d.exponent = 0 then
    let bits := Nat.log2 d.fraction + 1
    (d.fraction * 2 ^ (53 - bits), (bits : Int) - 1074)
  else (2 ^ 52 + d.fraction, (d.exponent : Int) - 1022)

/-- `modf(fr*f, &ho)` for `fr` in units of `1/unit`: what is left, in units of `f/unit`, and `ho`. -/
def modf (fr f unit : Nat) : Nat × Nat := (fr % (unit / f), fr / (unit / f))

/-- `ieeedtod` behind its two tests. -/
def ieeeOfPositive (d : Double) : Ieee :=
  let (fr, exp) := frexp d
  let (fr, ho) := modf fr (2 ^ 21) (2 ^ 53)
  let h := BitVec.ofNat 32 ho &&& 0xfffff#32 ||| BitVec.ofInt 32 ((exp + 1022) * 2 ^ 20)
  let (fr, ho) := modf fr (2 ^ 16) (2 ^ 32)
  ⟨BitVec.ofNat 32 ho <<< 16 ||| BitVec.ofNat 32 fr, h⟩

/-- Converting an infinity or a NaN to an `int32` is undefined. -/
def ieeedtod (native : Double) : Option Ieee :=
  if !native.finite then none
  else if native.negative && native.magnitude ≠ 0 then
    let e := ieeeOfPositive (.ofNat native.magnitude)
    some { e with h := e.h ||| 0x80000000#32 }
  else if native.magnitude = 0 then some ⟨0, 0⟩
  else some (ieeeOfPositive native)

/-- The number with these words. -/
def Ieee.double (e : Ieee) : Double := .ofNat (e.h.toNat * 2 ^ 32 + e.l.toNat)

end Goken
