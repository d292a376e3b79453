import Goken.Node
import Goken.Const

/-! Rewrites of expression trees (libcc/sub.c): `simplifyshift`. -/

namespace Goken.Sub
open Node NodeKind Goken.Const

/-- An `int` that is set from a `vlong`. -/
def int (v : BitVec 64) : Int := (v.setWidth 32).toInt

/-- The ends of `simplifyshift`: to get rid of both shifts, of the lower or of the
upper one. -/
inductive Rewrite where
  | rewrite0 (c3 : BitVec 64)
  | rewrite1 (o : NodeKind) (c1 : Int) (c3 : BitVec 64)
  | rewrite2 (o : NodeKind) (c1 : Int) (c3 : BitVec 64)
  deriving DecidableEq, Repr

/-- `(((e >>u c2) & c3) <<u c1)` -/
def shrShl (c1 c2 : Int) (c3 : BitVec 64) : Rewrite :=
  if c1 > c2 then .rewrite1 OASHL (c1 - c2) (c3 <<< c2.toNat)
  else if c1 = c2 then .rewrite0 (c3 <<< c1.toNat)
  else .rewrite2 OLSHR (c2 - c1) (c3 <<< c1.toNat)

/-- `(((e >>u c2) & c3) >>u c1)` -/
def shrShr (c1 c2 : Int) (c3 : BitVec 64) : Option Rewrite :=
  if c1 + c2 ≥ 32 then none else some (.rewrite1 OLSHR (c1 + c2) (c3 <<< c2.toNat))

/-- `(((e <<u c2) & c3) >>u c1)`; `o` is the upper operation. -/
def shlShr (o : NodeKind) (c1 c2 : Int) (c3 : BitVec 64) : Rewrite :=
  if c1 = c2 then .rewrite0 (c3 >>> c1.toNat)
  else if c1 > c2 then .rewrite2 o (c1 - c2) (c3 >>> c1.toNat)
  else .rewrite2 OASHL (c2 - c1) (c3 >>> c1.toNat)

/-- The nine cases: `o` is the upper shift, by `c1`, and `s` the lower one, by `c2`. The
mask `c3` is a `ulong`, of 64 bits on the host. -/
def combine (o s : NodeKind) (c1 c2 : Int) (c3 : BitVec 64) : Option Rewrite :=
  match o, s with
  | OASHL, OASHL => if c1 + c2 ≥ 32 then none else some (.rewrite1 o (c1 + c2) (c3 >>> c2.toNat))
  | OASHL, OASHR => if topbit c3.toNat ≥ 32 - c2 then none else some (shrShl c1 c2 c3)
  | OASHL, OLSHR => some (shrShl c1 c2 c3)
  | OASHR, OASHR => if c2 ≤ 0 then none else if topbit c3.toNat ≥ 32 - c2 then none else shrShr c1 c2 c3
  | OLSHR, OASHR => if topbit c3.toNat ≥ 32 - c2 then none else shrShr c1 c2 c3
  | OASHR, OLSHR => if topbit c3.toNat ≥ 31 ∧ c2 ≤ 0 then none else shrShr c1 c2 c3
  | OLSHR, OLSHR => shrShr c1 c2 c3
  | OASHR, OASHL => if topbit c3.toNat ≥ 31 then none else some (shlShr o c1 c2 c3)
  | OLSHR, OASHL => some (shlShr o c1 c2 c3)
  | _, _ => none

def Rewrite.apply (n : Node) : Rewrite → Node
  | .rewrite0 c3 => (n.left.setLeft n.left.left.left).setRight (n.left.right.setVconst c3)
  | .rewrite1 o c1 c3 =>
    ((n.setLeft ((n.left.setLeft n.left.left.left).setRight (n.left.right.setVconst c3))).setRight
      (n.right.setVconst (BitVec.ofInt 64 c1))).setOp o
  | .rewrite2 o c1 c3 =>
    (n.left.setRight (n.left.right.setVconst c3)).setLeft
      ((n.left.left.setRight (n.left.left.right.setVconst (BitVec.ofInt 64 c1))).setOp o)

/-- A shift by a constant of a shift by a constant under a constant mask. -/
def masked (n : Node) : Prop :=
  n.etype.typechlp = true ∧ n.right.op = OCONST ∧ n.left.op = OAND ∧ n.left.right.op = OCONST ∧ n.left.left.right.op = OCONST

instance (n : Node) : Decidable (masked n) := inferInstanceAs (Decidable (_ ∧ _))

/-- Try to rewrite shift & mask. -/
def simplifyshift (n : Node) : Node :=
  if masked n then
    match combine n.op n.left.left.op (int n.right.vconst) (int n.left.left.right.vconst) n.left.right.vconst with
    | some rewrite => rewrite.apply n
    | none => n
  else n

end Goken.Sub
