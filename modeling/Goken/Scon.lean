import Goken.Sub

/-! Constant folding: `convvtox` (libcc/com64.c), `vconst` (libcc/sub.c) and
`evconst` (libcc/scon.c). A `vlong` of the host is a word of 64 bits; its arithmetic
wraps around. -/

namespace Goken.Scon
open Node NodeKind Etype Goken.Sub

def SIGN (n : Int) : BitVec 64 := (1 : BitVec 64) <<< (n - 1).toNat

def MASK (n : Int) : BitVec 64 := SIGN n ||| (SIGN n - 1)

def convvtox (c : BitVec 64) (et : Etype) : BitVec 64 :=
  let n := 8 * et.ewidth
  let c := c &&& MASK n
  if et.typeu = false ∧ c &&& SIGN n ≠ 0 then c ||| ~~~ MASK n else c

/-- The first uninteresting constant. -/
def uninteresting : Int := -159

/-- A small constant, or the first uninteresting one. -/
def vconst (n : Node) : Int :=
  if n.op ≠ OCONST then uninteresting
  else match n.etype with
    | TFLOAT | TDOUBLE =>
      if n.fconst > 100 || n.fconst < -100 then uninteresting
      else if Float.ofInt n.fconst.toInt32.toInt != n.fconst then uninteresting else n.fconst.toInt32.toInt
    | TVLONG | TUVLONG | TCHAR | TUCHAR | TSHORT | TUSHORT | TINT | TUINT | TLONG | TULONG | TIND =>
      if BitVec.ofInt 64 (int n.vconst) ≠ n.vconst then uninteresting else int n.vconst
    | _ => uninteresting

/-- The host's `/` and `%` on `vlong`; none where they trap. -/
def hostDiv (l r : BitVec 64) : Option (BitVec 64) := if r = 0 ∨ l = BitVec.intMin 64 ∧ r = -1 then none else some (l.sdiv r)

def hostMod (l r : BitVec 64) : Option (BitVec 64) := if r = 0 ∨ l = BitVec.intMin 64 ∧ r = -1 then none else some (l.srem r)

/-- The same on `uvlong`. -/
def hostUdiv (l r : BitVec 64) : Option (BitVec 64) := if r = 0 then none else some (l / r)

def hostUmod (l r : BitVec 64) : Option (BitVec 64) := if r = 0 then none else some (l % r)

/-- A shift of the host; none for a count that it does not define. -/
def hostShift (f : BitVec 64 → Nat → BitVec 64) (l r : BitVec 64) : Option (BitVec 64) :=
  if r.toInt < 0 ∨ 64 ≤ r.toInt then none else some (f l r.toNat)

/-- The ways out of the switch: a return, an operation that the host does not define,
and the new constant, as `v` or as `d`. -/
inductive Fold where
  | stays
  | undefined
  | folds (v : BitVec 64) (d : Float)

def Fold.ofHost : Option (BitVec 64) → Fold
  | some v => .folds v 0
  | none => .undefined

def Fold.ofBool (b : Bool) : Fold := .folds (if b then 1 else 0) 0

/-- A division with its warning for zero. -/
def divide (r : Node) (fold : Fold) : Fold := if vconst r = 0 then .stays else fold

/-- A comparison of operands that may be floating. -/
def relation (l r : Node) (double : Float → Float → Bool) (vlong : BitVec 64 → BitVec 64 → Bool) : Fold :=
  .ofBool (if l.etype.typefd then double l.fconst r.fconst else vlong l.vconst r.vconst)

/-- The switch of `evconst`. -/
def foldop (n : Node) : Fold :=
  let l := n.left
  let r := n.right
  let isf := n.etype.typefd
  match n.op with
  | OCONST => .folds 0 0
  | OCAST =>
    if n.etype = TVOID then .stays
    else if isf then .folds 0 (if l.etype.typefd then l.fconst else Float.ofInt l.vconst.toInt)
    else .folds (if l.etype.typefd then l.fconst.toInt64.toBitVec else convvtox l.vconst n.etype) 0
  | OADD => if isf then .folds 0 (l.fconst + r.fconst) else .folds (l.vconst + r.vconst) 0
  | OSUB => if isf then .folds 0 (l.fconst - r.fconst) else .folds (l.vconst - r.vconst) 0
  | OMUL => if isf then .folds 0 (l.fconst * r.fconst) else .folds (l.vconst * r.vconst) 0
  | ODIV => divide r (if isf then .folds 0 (l.fconst / r.fconst) else .ofHost (hostDiv l.vconst r.vconst))
  | OMOD => divide r (.ofHost (hostMod l.vconst r.vconst))
  | OLMUL => .folds (l.vconst * r.vconst) 0
  | OLDIV => divide r (.ofHost (hostUdiv l.vconst r.vconst))
  | OLMOD => divide r (.ofHost (hostUmod l.vconst r.vconst))
  | ONEG => if isf then .folds 0 (-l.fconst) else .folds (-l.vconst) 0
  | OCOM => .folds (~~~ l.vconst) 0
  | OAND => .folds (l.vconst &&& r.vconst) 0
  | OOR => .folds (l.vconst ||| r.vconst) 0
  | OXOR => .folds (l.vconst ^^^ r.vconst) 0
  | OLSHR => .ofHost (hostShift (fun x k => x >>> k) l.vconst r.vconst)
  | OASHR => .ofHost (hostShift (fun x k => x.sshiftRight k) l.vconst r.vconst)
  | OASHL => .ofHost (hostShift (fun x k => x <<< k) l.vconst r.vconst)
  | OLT => relation l r (fun x y => x < y) BitVec.slt
  | OGT => relation l r (fun x y => x > y) (fun x y => y.slt x)
  | OLE => relation l r (fun x y => x ≤ y) BitVec.sle
  | OGE => relation l r (fun x y => x ≥ y) (fun x y => y.sle x)
  | OLO => .ofBool (l.vconst.ult r.vconst)
  | OHI => .ofBool (r.vconst.ult l.vconst)
  | OLS => .ofBool (l.vconst.ule r.vconst)
  | OHS => .ofBool (r.vconst.ule l.vconst)
  | OEQ => relation l r (fun x y => x == y) (fun x y => x == y)
  | ONE => relation l r (fun x y => x != y) (fun x y => x != y)
  | OANDAND => relation l r (fun x y => x != 0 && y != 0) (fun x y => x != 0 && y != 0)
  | OOROR => relation l r (fun x y => x != 0 || y != 0) (fun x y => x != 0 || y != 0)
  | ONOT => relation l r (fun x _ => x == 0) (fun x _ => x == 0)
  | _ => .stays

/-- The node with its new constant; none where the host has no defined result. -/
def evconst (n : Node) : Option Node :=
  match n with
  | Z => some Z
  | node head l r =>
    if head.type = none then some n
    else match foldop n with
      | .stays => some n
      | .undefined => none
      | .folds v d =>
        let head := if n.etype.typefd then { head with fconst := d } else { head with vconst := convvtox v n.etype }
        some (node { head with oldop := head.op, op := OCONST } l r)

end Goken.Scon
