import Goken.Node

/-! Loads and stores of bit-fields (5c/swt.c): the code that is emitted, and the words
that it computes on. The cell of a field is a `long` of 32 bits; a `long` of the
compiler has 64. -/

namespace Goken.Bitfield
open NodeKind

/-- The field's part of `struct Type`. A field does not leave its cell (`dodecl`). -/
structure Field where
  shift : Nat
  nbits : Nat
  unsigned : Bool
  positive : 0 < nbits
  inside : shift + nbits ≤ 32
  deriving DecidableEq, Repr

/-- The nodes that are registers. -/
inductive Reg where
  | n1 | n3 | nod | nn
  deriving DecidableEq, Repr

/-- What `gopcode` emits here; `n2` has the address of the cell. -/
inductive Ins where
  | const (o : NodeKind) (c : BitVec 64) (t : Reg)
  | op (o : NodeKind) (f t : Reg)
  | load (t : Reg)
  | store (f : Reg)

/-- `~0 + (1L << nbits)`. -/
def ones (b : Field) : BitVec 64 := ~~~0 + (1 : BitVec 64) <<< b.nbits

/-- The last part of `bitload`. -/
def adjust (b : Field) : List Ins :=
  if b.shift = 0 ∧ b.unsigned then [.const OAND (ones b) .n1]
  else
    let sh := 32 - b.shift - b.nbits
    let left := if sh > 0 then [.const OASHL (BitVec.ofNat 64 sh) .n1] else []
    let sh := sh + b.shift
    let right := if sh > 0 then [.const (if b.unsigned then OLSHR else OASHR) (BitVec.ofNat 64 sh) .n1] else []
    left ++ right

/-- With or without the address of the cell kept for a store. -/
def bitload (b : Field) (kept : Bool) : List Ins :=
  (if kept then [.load .n3, .op OAS .n3 .n1] else [.load .n1]) ++ adjust b

/-- The value is delivered in `nn` if that is wanted. -/
def bitstore (b : Field) (wanted : Bool) : List Ins :=
  let v := ones b
  [.const OAND v .n1, .op OAS .n1 .nod] ++ (if wanted then [.op OAS .n1 .nn] else []) ++
    (if b.shift > 0 then [.const OASHL (BitVec.ofNat 64 b.shift) .nod] else []) ++
    [.const OAND (~~~ (v <<< b.shift)) .n3, .op OOR .n3 .nod, .store .nod]

structure State where
  regs : Reg → BitVec 32
  cell : BitVec 32

def State.set (s : State) (t : Reg) (v : BitVec 32) : State := { s with regs := fun r => if r = t then v else s.regs r }

/-- The operation `t = t o f` on registers. -/
def compute (o : NodeKind) (f t : BitVec 32) : BitVec 32 :=
  match o with
  | OAND => t &&& f
  | OOR => t ||| f
  | OASHL => t <<< f.toNat
  | OLSHR => t >>> f.toNat
  | OASHR => t.sshiftRight f.toNat
  | _ => f

def exec (s : State) : Ins → State
  | .const o c t => s.set t (compute o (c.setWidth 32) (s.regs t))
  | .op o f t => s.set t (compute o (s.regs f) (s.regs t))
  | .load t => s.set t s.cell
  | .store f => { s with cell := s.regs f }

def run (code : List Ins) (s : State) : State := code.foldl exec s

end Goken.Bitfield
