import Mathlib.Algebra.Group.Int.Defs
import Mathlib.Algebra.Group.Nat.Defs

/-! The type kinds of the C front end (cc.h) and the tables over them. Widths are
those of the arm back end (5c/txt.c); the sets are the ones `tinit` fills in
from the `type*init` arrays of sub.c. -/

namespace Goken

/-- `enum type_kind`, in declaration order: signed kinds are odd. -/
inductive Etype where
  | TXXX | TCHAR | TUCHAR | TSHORT | TUSHORT | TINT | TUINT | TLONG | TULONG | TVLONG | TUVLONG
  | TFLOAT | TDOUBLE | TVOID | TIND | TARRAY | TFUNC | TSTRUCT | TUNION | TENUM | TDOT
  deriving DecidableEq, Repr

namespace Etype

def ewidth : Etype → Int
  | TXXX => -1
  | TCHAR | TUCHAR => 1
  | TSHORT | TUSHORT => 2
  | TINT | TUINT | TLONG | TULONG | TFLOAT | TIND | TENUM => 4
  | TVLONG | TUVLONG | TDOUBLE => 8
  | TFUNC | TVOID => 0
  | TARRAY | TSTRUCT | TUNION => -1
  | TDOT => 0

def typei : Etype → Bool
  | TCHAR | TUCHAR | TSHORT | TUSHORT | TINT | TUINT | TLONG | TULONG | TVLONG | TUVLONG => true
  | _ => false

def typeu : Etype → Bool
  | TUCHAR | TUSHORT | TUINT | TULONG | TUVLONG | TIND => true
  | _ => false

def typechl : Etype → Bool
  | TCHAR | TUCHAR | TSHORT | TUSHORT | TINT | TUINT | TLONG | TULONG => true
  | _ => false

def typev : Etype → Bool
  | TVLONG | TUVLONG => true
  | _ => false

def typechlv (et : Etype) : Bool := typechl et || typev et

def typechlp (et : Etype) : Bool := typechl et || et == TIND

def typefd : Etype → Bool
  | TFLOAT | TDOUBLE => true
  | _ => false

def typesu : Etype → Bool
  | TSTRUCT | TUNION => true
  | _ => false

end Etype

/-- The C conversion to `int32`, and likewise for any width. -/
def int32 (v : Int) : Int := Int.bmod v (2 ^ 32)

theorem int32_bounds (v : Int) : -2 ^ 31 ≤ int32 v ∧ int32 v < 2 ^ 31 := by
  unfold int32
  constructor
  · have := Int.le_bmod (x := v) (m := 2 ^ 32) (by decide)
    omega
  · have := Int.bmod_lt (x := v) (m := 2 ^ 32) (by decide)
    omega

theorem int32_eq_emod (v : Int) : int32 v = (v + 2 ^ 31) % 2 ^ 32 - 2 ^ 31 := by
  rw [int32, Int.bmod_def]
  split <;> omega

theorem ofInt_int32 (v : Int) : BitVec.ofInt 32 (int32 v) = BitVec.ofInt 32 v := by
  apply BitVec.eq_of_toInt_eq
  simp [int32]

theorem toInt_ofInt_of_bounds {v : Int} (low : -2 ^ 31 ≤ v) (high : v < 2 ^ 31) :
    (BitVec.ofInt 32 v).toInt = v := by
  rw [BitVec.toInt_ofInt, Int.bmod_def]
  split <;> omega

end Goken
