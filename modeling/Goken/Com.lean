import Goken.Scon
import Goken.Lib.Logged

/-! Rewrites of expressions before code generation (libcc/com.c), with the tests on
casts and constants that they use (libcc/sub.c). -/

namespace Goken.Com
open Node NodeKind Etype Scon

/-- A cast that has a noop semantic (small to large, convert). -/
def nilcast (t1 t2 : Option Ty) : Bool :=
  match t1, t2 with
  | some t1, some t2 =>
    if t1.nbits ≠ 0 then false
    else if t1.etype = t2.etype then true
    else if t1.etype.typefd && t2.etype.typefd then decide (t1.etype.ewidth < t2.etype.ewidth)
    else if t1.etype.typechlp && t2.etype.typechlp then decide (t1.etype.ewidth < t2.etype.ewidth)
    else false
  | _, _ => false

/-- Try to cast a constant down rather than cast a variable up. Both nodes change. -/
def relcon (l r : Node) : Node × Node :=
  if l.op ≠ OCONST ∨ r.op ≠ OCAST ∨ nilcast r.left.type r.type = false then (l, r)
  else match r.etype with
    | TCHAR | TUCHAR | TSHORT | TUSHORT =>
      if convvtox l.vconst r.etype ≠ l.vconst then (l, r) else (l.setType r.left.type, r.left)
    | _ => (l, r)

/-- What `ccom` does to the operands of a comparison. -/
def relcons (n : Node) : Node :=
  let (l, r) := relcon n.left n.right
  let (r, l) := relcon r l
  (n.setLeft l).setRight r

/-- The types that a type is moved to without code (`ncast` of 5c). -/
def ncast : Etype → List Etype
  | TCHAR | TUCHAR => [TCHAR, TUCHAR]
  | TSHORT | TUSHORT => [TSHORT, TUSHORT]
  | TINT | TUINT | TLONG | TULONG => [TINT, TUINT, TLONG, TULONG, TIND]
  | TVLONG | TUVLONG => [TVLONG, TUVLONG]
  | TFLOAT => [TFLOAT]
  | TDOUBLE => [TDOUBLE]
  | TIND => [TLONG, TULONG, TIND]
  | TSTRUCT => [TSTRUCT]
  | TUNION => [TUNION]
  | _ => []

/-- A cast that generates no code (same size move). -/
def nocast (t1 t2 : Option Ty) : Bool :=
  match t1 with
  | some t1 => if t1.nbits ≠ 0 then false else decide ((t2.map Ty.etype).getD TXXX ∈ ncast t1.etype)
  | none => false

/-- Whether an expression may have a side effect. -/
def side : Node → Bool
  | Z => true
  | node head l r =>
    match head.op with
    | OCAST | ONOT | OADDR | OIND => side l
    | OCOND =>
      if side l then true
      else match r with
        | Z => true
        | node _ rl rr => if side rl then true else side rr
    | OEQ | ONE | OLT | OGE | OGT | OLE | OADD | OSUB | OMUL | OLMUL | ODIV | OLDIV | OLSHR | OASHL | OASHR | OAND | OOR | OXOR
    | OMOD | OLMOD | OANDAND | OOROR | OCOMMA | ODOT => if side l then true else side r
    | OSIGN | OSIZE | OCONST | OSTRING | OLSTRING | ONAME => false
    | _ => true

/-- The log has the nodes that `ccom` is called on and what it leaves in them. -/
abbrev Run := Lib.Logged.Computation (Node × Node)

def isZ : Node → Bool
  | Z => true
  | node .. => false

section Ccom

-- `ccom` on an operand, or on the node again after a `goto loop`; after `*n = *m` the result is `m`
variable (again : Node → Run Node)

def ccomOperands (n : Node) : Run Node := do
  let l ← again n.left
  let r ← again n.right
  pure ((n.setLeft l).setRight r)

def common (n : Node) : Run Node :=
  if (isZ n.left ∨ n.left.op = OCONST) ∧ (isZ n.right ∨ n.right.op = OCONST) then liftM (evconst n) else pure n

/-- Look for a commutative constant. -/
def commute (n : Node) : Run Node :=
  let l := n.left
  let r := n.right
  if r.op = OCONST ∧ l.op = n.op ∧ l.left.op = OCONST then again ((n.setLeft (l.setRight r)).setRight l.right)
  else if r.op = OCONST ∧ l.op = n.op ∧ l.right.op = OCONST then again ((n.setLeft (l.setLeft r)).setRight l.left)
  else if l.op = OCONST ∧ r.op = n.op ∧ r.left.op = OCONST then again ((n.setLeft r.right).setRight (r.setRight l))
  else if l.op = OCONST ∧ r.op = n.op ∧ r.right.op = OCONST then again ((n.setLeft r.left).setRight (r.setLeft l))
  else common n

/-- Remove a cast of `l` that does nothing. -/
def dropCast (l n : Node) : Node :=
  if n.op = OCONST then n
  else if nocast l.type n.type ∧ (l.etype.typefd = false ∨ l.etype.typeu ∧ n.etype.typeu) then l.setType n.type
  else n

def ccomCast (n : Node) : Run Node := do
  let l ← again n.left
  let n := n.setLeft l
  if l.op = OCONST then do
    let n ← liftM (evconst n)
    pure (dropCast l n)
  else pure (dropCast l n)

/-- `OADDR` of an `OIND`, and `OIND` of an `OADDR`. -/
def ccomCancel (other : NodeKind) (n : Node) : Run Node := do
  let l ← again n.left
  if l.op = other then pure (l.left.setType n.type) else common (n.setLeft l)

def ccomAdd (n : Node) : Run Node := do
  let l ← again n.left
  let n := n.setLeft l
  if Scon.vconst l = 0 then again n.right
  else
    let r ← again n.right
    let n := n.setRight r
    if Scon.vconst r = 0 then pure l else commute again n

def ccomAnd (n : Node) : Run Node := do
  let n ← ccomOperands again n
  if Scon.vconst n.left = 0 ∧ side n.right = false then pure n.left
  else if Scon.vconst n.right = 0 ∧ side n.left = false then pure n.right
  else commute again n

/-- `OASHR`, `OASHL` and `OLSHR`. -/
def ccomShift (n : Node) : Run Node := do
  let l ← again n.left
  let n := n.setLeft l
  if Scon.vconst l = 0 ∧ side n.right = false then pure l
  else
    let r ← again n.right
    let n := n.setRight r
    if Scon.vconst r = 0 then pure l else common n

/-- `OMUL` and `OLMUL`. -/
def ccomMul (n : Node) : Run Node := do
  let l ← again n.left
  let n := n.setLeft l
  if Scon.vconst l = 0 ∧ side n.right = false then pure l
  else if Scon.vconst l = 1 then again n.right
  else
    let r ← again n.right
    let n := n.setRight r
    if Scon.vconst r = 0 ∧ side l = false then pure r
    else if Scon.vconst r = 1 then pure l
    else common n

/-- `ODIV` and `OLDIV`. A division by zero is an error, after which the tree is kept. -/
def ccomDiv (n : Node) : Run Node := do
  let l ← again n.left
  let n := n.setLeft l
  if Scon.vconst l = 0 ∧ side n.right = false then pure l
  else
    let r ← again n.right
    let n := n.setRight r
    if Scon.vconst r = 0 then pure r
    else if Scon.vconst r = 1 then pure l
    else common n

def negated (r : Node) : Node := if r.etype.typefd then r.setFconst (-r.fconst) else r.setVconst (-r.vconst)

def ccomSub (n : Node) : Run Node := do
  let r ← again n.right
  let n := n.setRight r
  if r.op = OCONST then again ((n.setOp OADD).setRight (negated r))
  else
    let l ← again n.left
    common (n.setLeft l)

def ccomAndand (n : Node) : Run Node := do
  let l ← again n.left
  let n := n.setLeft l
  if Scon.vconst l = 0 then pure l
  else
    let r ← again n.right
    common (n.setRight r)

def ccomOror (n : Node) : Run Node := do
  let l ← again n.left
  let n := n.setLeft l
  if l.op = OCONST ∧ l.vconst ≠ 0 then pure (l.setVconst 1)
  else
    let r ← again n.right
    common (n.setRight r)

def ccomCond (n : Node) : Run Node := do
  let n ← ccomOperands again n
  if n.left.op = OCONST then
    if Scon.vconst n.left = 0 then pure n.right.right else pure n.right.left
  else pure n

/-- The switch of `ccom`. The tests of `compar` and for stupid shifts only warn. -/
def ccomNode (n : Node) : Run Node :=
  match n.op with
  | OAS | OASADD | OASSUB | OASMUL | OASLMUL | OASDIV | OASLDIV | OASMOD | OASLMOD | OASASHR | OASASHL | OASLSHR | OASAND
  | OASOR | OASXOR => ccomOperands again n
  | OCONST | ONAME | OREGISTER | OINDREG => pure n
  | OCAST => ccomCast again n
  | OADDR => ccomCancel again OIND n
  | OIND => ccomCancel again OADDR n
  | OADD | OOR | OXOR => ccomAdd again n
  | OAND => ccomAnd again n
  | OASHR | OASHL | OLSHR => ccomShift again n
  | OMUL | OLMUL => ccomMul again n
  | ODIV | OLDIV => ccomDiv again n
  | OSUB => ccomSub again n
  | OEQ | ONE | OLE | OGE | OLT | OGT | OLS | OHS | OLO | OHI => do
    let n ← ccomOperands again n
    common (relcons n)
  | OANDAND => ccomAndand again n
  | OOROR => ccomOror again n
  | OCOND => ccomCond again n
  | _ => do
    let n ← ccomOperands again n
    common n

end Ccom

/-- The general rewrite, for at most so many calls and rounds deep. -/
def ccom : Nat → Node → Run Node
  | 0, _ => WriterT.mk none
  | _ + 1, Z => pure Z
  | fuel + 1, n => do
    let m ← ccomNode (ccom fuel) n
    tell [(n, m)]
    pure m

end Goken.Com
