import Goken.Types

/-! The conversion of strings to 64-bit numbers (`strtoll.c`, `strtoull.c`). A
string ends before its NUL; an end pointer is the number of bytes before it. -/

namespace Goken.Strtoll

def isspace (c : UInt8) : Bool := [0x20, 0x09, 0x0A, 0x0C, 0x0D, 0x0B].contains c

def minus : UInt8 := 0x2D
def plus : UInt8 := 0x2B
def zero : UInt8 := 0x30

/-- `*p=='x' || *p=='X'`. -/
def isx (c : UInt8) : Bool := c = 0x78 || c = 0x58

/-- `v`, which is at least the base if `c` is no digit. -/
def digit (base : Int) (c : UInt8) : Int :=
  if 0x30 ≤ c && c ≤ 0x39 then c.toNat - 0x30
  else if 0x61 ≤ c && c ≤ 0x7A then c.toNat - 0x61 + 10
  else if 0x41 ≤ c && c ≤ 0x5A then c.toNat - 0x41 + 10
  else base

/-- What the code before the digits leaves: `neg`, `base` and `p`, or a base that
is refused. -/
structure Start where
  neg : Bool
  base : Int
  p : List UInt8
  refused : Bool
  deriving DecidableEq, Repr

def hexadecimal (p : List UInt8) : Bool := p.head? = some zero && (p[1]?).any isx

def start (nptr : List UInt8) (base : Int) : Start :=
  let p := nptr.dropWhile isspace
  let neg := p.head? = some minus
  let p := if p.head? = some minus || p.head? = some plus then p.drop 1 else p
  if base = 0 then
    if hexadecimal p then ⟨neg, 16, p.drop 2, false⟩ else if p.head? = some zero then ⟨neg, 8, p, false⟩ else ⟨neg, 10, p, false⟩
  else if base = 16 && p.head? = some zero then ⟨neg, base, if hexadecimal p then p.drop 2 else p, false⟩
  else ⟨neg, base, p, base < 0 || 36 < base⟩

/-- `vlong` arithmetic wraps. -/
def vlong (v : Int) : Int := Int.bmod v (2 ^ 64)

def uvlong (v : Int) : Int := v % 2 ^ 64

def VLONG_MAX : Int := 2 ^ 63 - 1
def VLONG_MIN : Int := -2 ^ 63

/-- `1LL<<63`, a `vlong`. -/
def UVLONG_MAX : Int := -2 ^ 63

/-- The variables of the loop over the digits. -/
structure Digits where
  n : Int
  ovfl : Bool
  ndig : Int
  deriving DecidableEq, Repr

/-- The loop over the digits, with what is left of the string; `wrap` is the
arithmetic of the type of `n`. -/
def digits (wrap : Int → Int) (base m : Int) : Digits → List UInt8 → Digits × List UInt8
  | st, [] => (st, [])
  | st, c :: p =>
      let v := digit base c
      if base ≤ v then (st, c :: p)
      else
        let nn := wrap (st.n * base + v)
        digits wrap base m ⟨nn, st.ovfl || m < st.n || nn < st.n, int32 (st.ndig + 1)⟩ p

/-- Where `*endptr` is. -/
def endptr (nptr p : List UInt8) (ndig : Int) : Nat := if ndig = 0 then 0 else nptr.length - p.length

def strtoll (nptr : List UInt8) (base : Int) : Int × Nat :=
  let s := start nptr base
  if s.refused then (0, 0)
  else
    let (st, p) := digits vlong s.base (VLONG_MAX.tdiv s.base) ⟨0, false, 0⟩ s.p
    let value := if st.ovfl then if s.neg then VLONG_MIN else VLONG_MAX else if s.neg then vlong (-st.n) else st.n
    (value, endptr nptr p st.ndig)

/-- The quotient is of the signed type, and is converted. -/
def strtoull (nptr : List UInt8) (base : Int) : Int × Nat :=
  let s := start nptr base
  if s.refused then (0, 0)
  else
    let (st, p) := digits uvlong s.base (uvlong (UVLONG_MAX.tdiv s.base)) ⟨0, false, 0⟩ s.p
    let value := if st.ovfl then uvlong UVLONG_MAX else if s.neg then uvlong (-st.n) else st.n
    (value, endptr nptr p st.ndig)

end Goken.Strtoll
