import Goken.Types
import Mathlib.Tactic.Common

/-! Syntax trees of the C front end (cc.h), with the fields that the passes over
expressions read. `vlong` has 64 bits. -/

namespace Goken

/-- `enum Node_kind`. -/
inductive NodeKind where
  | OXXX | ONAME | OCOMMA | OCONST | OSTRING | OLSTRING | OADD | OSUB | OMUL | ODIV | OMOD | OPOS | ONEG | OAND | OOR
  | OXOR | OASHL | OASHR | OANDAND | OOROR | ONOT | OCOM | OEQ | ONE | OLT | OGT | OLE | OGE | OAS | OASADD | OASSUB
  | OASMUL | OASMOD | OASDIV | OASAND | OASOR | OASXOR | OASASHL | OASASHR | OIND | OADDR | ODOT | OFUNC | OCAST
  | OCOND | OPREDEC | OPREINC | OPOSTINC | OPOSTDEC | OSIZE | OARRAY | OASI | OSTRUCT | OUNION | OSIGN | OIF | OWHILE
  | ODWHILE | OFOR | ORETURN | OBREAK | OCONTINUE | OLABEL | OGOTO | OSWITCH | OCASE | OUSED | OSET | OINIT | OELEM
  | OPROTO | ODOTDOT | OBIT | OLIST | OINDEX | OREGPAIR | OREGISTER | OLSHR | OLMUL | OLDIV | OLMOD | OASLSHR | OASLMUL
  | OASLDIV | OASLMOD | OINDREG | OHI | OHS | OLO | OLS | OEXREG
  deriving DecidableEq, Repr

/-- `struct Type`. -/
structure Ty where
  etype : Etype
  width : Int
  nbits : Nat
  deriving DecidableEq, Repr

/-- The fields of a `struct Node` besides its operands. -/
structure Head where
  op : NodeKind
  type : Option Ty
  vconst : BitVec 64
  fconst : Float
  oldop : NodeKind

/-- A tree; `Z` is the null pointer. -/
inductive Node where
  | Z
  | node (head : Head) (left right : Node)

namespace Node
open NodeKind

def op : Node → NodeKind
  | Z => OXXX
  | node head _ _ => head.op

def type : Node → Option Ty
  | Z => none
  | node head _ _ => head.type

/-- The kind of the type, `TXXX` without one. -/
def etype (n : Node) : Etype := (n.type.map Ty.etype).getD .TXXX

def vconst : Node → BitVec 64
  | Z => 0
  | node head _ _ => head.vconst

def fconst : Node → Float
  | Z => 0
  | node head _ _ => head.fconst

def left : Node → Node
  | Z => Z
  | node _ l _ => l

def right : Node → Node
  | Z => Z
  | node _ _ r => r

def setOp (n : Node) (o : NodeKind) : Node :=
  match n with
  | Z => Z
  | node head l r => node { head with op := o } l r

def setType (n : Node) (t : Option Ty) : Node :=
  match n with
  | Z => Z
  | node head l r => node { head with type := t } l r

def setVconst (n : Node) (v : BitVec 64) : Node :=
  match n with
  | Z => Z
  | node head l r => node { head with vconst := v } l r

def setFconst (n : Node) (d : Float) : Node :=
  match n with
  | Z => Z
  | node head l r => node { head with fconst := d } l r

def setLeft (n l : Node) : Node :=
  match n with
  | Z => Z
  | node head _ r => node head l r

def setRight (n r : Node) : Node :=
  match n with
  | Z => Z
  | node head l _ => node head l r

section Updates

variable (n l r : Node) (o : NodeKind) (t : Option Ty) (v : BitVec 64) (d : Float)

@[simp] theorem op_setLeft : (n.setLeft l).op = n.op := by cases n <;> rfl
@[simp] theorem op_setRight : (n.setRight r).op = n.op := by cases n <;> rfl
@[simp] theorem op_setFconst : (n.setFconst d).op = n.op := by cases n <;> rfl
@[simp] theorem type_setLeft : (n.setLeft l).type = n.type := by cases n <;> rfl
@[simp] theorem type_setRight : (n.setRight r).type = n.type := by cases n <;> rfl
@[simp] theorem type_setOp : (n.setOp o).type = n.type := by cases n <;> rfl
@[simp] theorem type_setVconst : (n.setVconst v).type = n.type := by cases n <;> rfl
@[simp] theorem type_setFconst : (n.setFconst d).type = n.type := by cases n <;> rfl
@[simp] theorem left_setType : (n.setType t).left = n.left := by cases n <;> rfl
@[simp] theorem right_setType : (n.setType t).right = n.right := by cases n <;> rfl
@[simp] theorem left_setVconst : (n.setVconst v).left = n.left := by cases n <;> rfl
@[simp] theorem right_setVconst : (n.setVconst v).right = n.right := by cases n <;> rfl
@[simp] theorem left_setFconst : (n.setFconst d).left = n.left := by cases n <;> rfl
@[simp] theorem right_setFconst : (n.setFconst d).right = n.right := by cases n <;> rfl
@[simp] theorem op_setType : (n.setType t).op = n.op := by cases n <;> rfl
@[simp] theorem vconst_setType : (n.setType t).vconst = n.vconst := by cases n <;> rfl
@[simp] theorem op_setVconst : (n.setVconst v).op = n.op := by cases n <;> rfl
@[simp] theorem left_setRight : (n.setRight r).left = n.left := by cases n <;> rfl
@[simp] theorem left_setOp : (n.setOp o).left = n.left := by cases n <;> rfl
@[simp] theorem right_setLeft : (n.setLeft l).right = n.right := by cases n <;> rfl
@[simp] theorem right_setOp : (n.setOp o).right = n.right := by cases n <;> rfl

theorem setRight_setLeft : (n.setRight r).setLeft l = (n.setLeft l).setRight r := by cases n <;> rfl
theorem setRight_right : n.setRight n.right = n := by cases n <;> rfl
theorem setLeft_left : n.setLeft n.left = n := by cases n <;> rfl

variable {n} (real : n.op ≠ OXXX)
include real

theorem op_setOp : (n.setOp o).op = o := by
  cases n with
  | Z => exact absurd rfl real
  | node => rfl

theorem type_setType : (n.setType t).type = t := by
  cases n with
  | Z => exact absurd rfl real
  | node => rfl

theorem left_setLeft : (n.setLeft l).left = l := by
  cases n with
  | Z => exact absurd rfl real
  | node => rfl

theorem right_setRight : (n.setRight r).right = r := by
  cases n with
  | Z => exact absurd rfl real
  | node => rfl

theorem vconst_setVconst : (n.setVconst v).vconst = v := by
  cases n with
  | Z => exact absurd rfl real
  | node => rfl

end Updates

end Node

end Goken
