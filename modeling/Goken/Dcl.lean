import Mathlib.Logic.Function.Basic
import Goken.Layout
import Goken.Lib.Steps

/-! Scopes of the C front end (libcc/dcl.c): one stack of declarations holds
the marks of the open blocks and, above each, what the block has changed in the
symbol table. The grammar calls `markdcl` and `revertdcl` around every block
and `adecl`, `doenum`, `dotag` and `dcllabel` inside; automatics are laid out by
the arm `align` (5c/swt.c). -/

namespace Goken.Dcl
open Goken.Layout (Ctype SZ_LONG round align)

/-- `enum Storage_class`. -/
inductive Class where
  | CXXX | CAUTO | CPARAM | CEXTERN | CGLOBL | CSTATIC | CTYPEDEF | CLOCAL | CEXREG | CTYPESTR
  deriving DecidableEq, Repr

def Class.cname : Class → String
  | CXXX => "CXXX"
  | CAUTO => "AUTO"
  | CPARAM => "PARAM"
  | CEXTERN => "EXTERN"
  | CGLOBL => "GLOBL"
  | CSTATIC => "STATIC"
  | CTYPEDEF => "TYPEDEF"
  | CLOCAL => "LOCAL"
  | CEXREG => "EXREG"
  | CTYPESTR => "TYPESTR"

/-- The C conversion to `ushort`. -/
def ushort (v : Int) : Int := v % 65536

/-- The identifier fields of `Sym`. -/
structure Ident where
  type : Option Ctype
  storage : Class
  offset : Int
  block : Int
  varlineno : Int
  aused : Bool
  deriving DecidableEq, Repr

/-- The tag fields of `Sym`; a type is a position in `State.types`. -/
structure Tag where
  suetag : Option Nat
  sueblock : Int
  deriving DecidableEq, Repr

/-- The node of a label: `complex` when declared, `addable` when used. -/
structure Label where
  complex : Bool
  addable : Bool
  deriving DecidableEq, Repr

/-- What `dotag` reads of the type of a tag. -/
structure Tagged where
  etype : Etype
  tag : Option String
  deriving DecidableEq, Repr

inductive Decl where
  | DMARK (block offset : Int)
  | DAUTO (sym : String) (saved : Ident)
  | DSUE (sym : String) (saved : Tag)
  | DLABEL (sym : String)
  deriving DecidableEq, Repr

/-- The symbol table, by namespace, and the globals. `firstdcl` points at the
mark of the function; it is kept as the height of that mark in `dclstack`. -/
@[ext]
structure State where
  ident : String → Ident
  tag : String → Tag
  label : String → Option Label
  types : List Tagged
  blockno : Int
  autobn : Int
  autoffset : Int
  stkoff : Int
  dclstack : List Decl
  firstdcl : Nat
  packflg : Int
  diags : List String

namespace State

def diag (message : String) (st : State) : State := { st with diags := st.diags ++ [message] }

def diagIf (condition : Bool) (message : String) (st : State) : State := if condition then st.diag message else st

variable (condition : Bool) (message : String) (st : State)

@[simp] theorem diagIf_ident : (st.diagIf condition message).ident = st.ident := by cases condition <;> rfl

@[simp] theorem diagIf_tag : (st.diagIf condition message).tag = st.tag := by cases condition <;> rfl

@[simp] theorem diagIf_label : (st.diagIf condition message).label = st.label := by cases condition <;> rfl

@[simp] theorem diagIf_types : (st.diagIf condition message).types = st.types := by cases condition <;> rfl

@[simp] theorem diagIf_blockno : (st.diagIf condition message).blockno = st.blockno := by cases condition <;> rfl

@[simp] theorem diagIf_autobn : (st.diagIf condition message).autobn = st.autobn := by cases condition <;> rfl

@[simp] theorem diagIf_autoffset : (st.diagIf condition message).autoffset = st.autoffset := by cases condition <;> rfl

@[simp] theorem diagIf_stkoff : (st.diagIf condition message).stkoff = st.stkoff := by cases condition <;> rfl

@[simp] theorem diagIf_dclstack : (st.diagIf condition message).dclstack = st.dclstack := by cases condition <;> rfl

@[simp] theorem diagIf_firstdcl : (st.diagIf condition message).firstdcl = st.firstdcl := by cases condition <;> rfl

@[simp] theorem diagIf_packflg : (st.diagIf condition message).packflg = st.packflg := by cases condition <;> rfl

def setIdent (s : String) (value : Ident) (st : State) : State := { st with ident := Function.update st.ident s value }

def setTag (s : String) (value : Tag) (st : State) : State := { st with tag := Function.update st.tag s value }

def push (d : Decl) (st : State) : State := { st with dclstack := d :: st.dclstack }

end State

def tind : Ctype := .typ .TIND (Etype.ewidth .TIND)

def typesuv (et : Etype) : Bool := et.typesu || et.typev

/-- `align` with `Aarg1`: the initial alignment of a parameter. -/
def alignArg1 (i : Int) (t : Ctype) : Int :=
  let w := t.etype.ewidth
  int32 (round (int32 i) (if w ≤ 0 ∨ SZ_LONG ≤ w then SZ_LONG else 1))

/-- `align` with `Aarg2`: the width of a parameter. -/
def alignArg2 (i : Int) (t : Ctype) : Int := int32 (round (int32 (int32 i + t.width)) SZ_LONG)

/-- `align` with `Aarg0`: the hidden pointer to a result that is returned in memory. -/
def alignArg0 (i : Int) (t : Ctype) : Int :=
  let o := int32 i
  int32 (round (if typesuv t.etype then alignArg2 (alignArg1 o tind) tind else o) 1)

/-- `align` with `Aaut3`: the total alignment of an automatic. -/
def alignAut3 (packflg i : Int) (t : Ctype) : Int :=
  int32 (round (align packflg (align packflg i t .Ael2) t .Ael1) SZ_LONG)

def maxround (max v : Int) : Int :=
  let v := int32 (round (int32 v) SZ_LONG)
  if v > int32 max then v else int32 max

def markdcl (st : State) : State :=
  let blockno := int32 (st.blockno + 1)
  let st := st.push (.DMARK (ushort st.autobn) st.autoffset)
  { st with blockno := blockno, autobn := blockno }

def push1 (s : String) (st : State) : State := st.push (.DAUTO s (st.ident s))

/-- The loop of `revertdcl`, which pops up to and including a mark. -/
def revert : List Decl → State → State
  | [], st => State.diag "pop off dcl stack" { st with dclstack := [] }
  | .DMARK block offset :: link, st => { st with dclstack := link, autobn := block, autoffset := offset }
  | .DSUE s saved :: link, st => revert link (st.setTag s saved)
  | .DLABEL s :: link, st =>
    let unused := match st.label s with
      | some label => !label.addable
      | none => false
    let st := st.diagIf unused ("label declared and not used \"" ++ s ++ "\"")
    revert link { st with label := Function.update st.label s none }
  | .DAUTO s saved :: link, st =>
    let unused (c : Class) := !(st.ident s).aused && (st.ident s).storage = c
    let st := st.diagIf (unused .CAUTO) ("auto declared and not used: " ++ s)
    let st := st.diagIf (unused .CPARAM) ("param declared and not used: " ++ s)
    revert link (st.setIdent s saved)

def revertdcl (st : State) : State := revert st.dclstack st

def dotag (s : String) (et : Etype) (bn : Int) (st : State) : State :=
  let st :=
    if bn ≠ 0 ∧ bn ≠ (st.tag s).sueblock then
      let st := st.push (.DSUE s (st.tag s))
      st.setTag s { st.tag s with suetag := none }
    else st
  let st :=
    match (st.tag s).suetag with
    | none =>
      let fresh := { st with types := st.types ++ [Tagged.mk et none] }
      fresh.setTag s ⟨some st.types.length, ushort st.autobn⟩
    | some _ => st
  match (st.tag s).suetag with
  | none => st
  | some ty =>
    let st := st.diagIf ((st.types[ty]?.map Tagged.etype) != some et) ("tag used for more than one type: " ++ s)
    { st with types := st.types.modify ty fun t => if t.tag = none then { t with tag := some s } else t }

/-- The label goes on the stack right above the mark of the function: the two
cells swap their contents, and `firstdcl` still points at the mark. -/
def dcllabel (s : String) (defcontext : Bool) (st : State) : State :=
  match st.label s with
  | some n =>
    if defcontext then
      let st := st.diagIf n.complex ("label reused: " ++ s)
      { st with label := Function.update st.label s (some { n with complex := true }) }
    else { st with label := Function.update st.label s (some { n with addable := true }) }
  | none =>
    let above := st.dclstack.length - st.firstdcl
    { st with
      dclstack := st.dclstack.take above ++ .DLABEL s :: st.dclstack.drop above
      label := Function.update st.label s (some ⟨defcontext, !defcontext⟩) }

def paramconv (t : Ctype) (f : Bool) : Ctype :=
  match t.etype with
  | .TFUNC | .TARRAY => tind
  | .TFLOAT => if f then t else .typ .TDOUBLE (Etype.ewidth .TDOUBLE)
  | .TCHAR | .TSHORT => if f then t else .typ .TINT (Etype.ewidth .TINT)
  | .TUCHAR | .TUSHORT => if f then t else .typ .TUINT (Etype.ewidth .TUINT)
  | _ => t

/-- The adjustments that `adecl` makes to the storage class before it looks at the symbol. -/
def adeclClass (c : Class) (t : Ctype) : Class :=
  let c := if c = .CSTATIC then .CLOCAL else c
  let c := if t.etype = .TFUNC ∧ c = .CXXX then .CEXTERN else c
  let c := if t.etype = .TFUNC ∧ c = .CLOCAL then .CSTATIC else c
  if c = .CXXX then .CAUTO else c

/-- The switch at the end of `adecl`, on the class of a declared symbol. -/
def adeclPlace (c : Class) (t : Ctype) (s : String) (st : State) : State :=
  match c with
  | .CPARAM =>
    let o := alignArg1 st.autoffset t
    { st.setIdent s { st.ident s with offset := o } with autoffset := alignArg2 o t }
  | .CAUTO =>
    let o := alignAut3 st.packflg st.autoffset t
    { st.setIdent s { st.ident s with offset := -o } with autoffset := o, stkoff := maxround st.stkoff o }
  | _ => st

def adeclSym (c : Class) (t : Ctype) (s : String) (st : State) : State :=
  let old := st.ident s
  let overspecified : Bool := old.storage = .CSTATIC ∧ (c = .CEXTERN ∨ c = .CGLOBL)
  let st := st.diagIf overspecified ("just say static: " ++ s)
  let c := if overspecified then .CSTATIC else c
  let inner : Bool := old.storage = .CAUTO ∨ old.storage = .CPARAM ∨ old.storage = .CLOCAL
  let st := st.diagIf (inner ∧ old.block = st.autobn) ("auto redeclaration of: " ++ s)
  let st := if c ≠ .CPARAM then push1 s st else st
  let st := st.setIdent s
    { old with block := ushort st.autobn, type := some t, storage := c, offset := 0, aused := false }
  adeclPlace c t s st

def adecl (c : Class) (t : Ctype) (s : Option String) (st : State) : State :=
  let c := adeclClass c t
  let st := st.diagIf (t.etype = .TFUNC ∧ (c = .CAUTO ∨ c = .CEXREG))
    ("function cannot be " ++ c.cname ++ " " ++ s.getD "")
  match s with
  | some s => adeclSym c t s st
  | none => if c = .CPARAM then { st with autoffset := alignArg2 (alignArg1 st.autoffset t) t } else st

def pdecl (c : Class) (t : Ctype) (s : Option String) (st : State) : State :=
  let known : Bool := match s with
    | some s => (st.ident s).offset ≠ -1
    | none => false
  if known then st.diag ("not a parameter: " ++ s.getD "")
  else
    let t := paramconv t (c = .CPARAM)
    let st := st.diagIf (c ≠ .CXXX ∧ c ≠ .CPARAM) ("parameter cannot have class: " ++ s.getD "")
    let st := st.diagIf (t.etype.typesu ∧ t.width ≤ 0) "incomplete structure: "
    adecl .CPARAM t s st

/-- The name case of `dodecl` after `adecl` or `pdecl`. The line of a local static
goes to the symbol that `mkstatic` makes for it, which no scope holds. -/
def dodecl (s : String) (lineno : Int) (st : State) : State :=
  if (st.ident s).storage = .CLOCAL then st else st.setIdent s { st.ident s with varlineno := lineno }

/-- `doenum`, with `xdecl` for the class `CXXX`. -/
def doenum (s : String) (st : State) : State :=
  let st := if st.dclstack = [] then st else push1 s st
  let old := st.ident s
  let c := if old.storage = .CSTATIC then .CSTATIC else .CGLOBL
  let st := st.diagIf old.type.isSome ("external redeclaration of: " ++ s)
  st.setIdent s { old with type := some (.typ .TENUM (Etype.ewidth .TENUM)), storage := c, block := 0, offset := 0 }

/-- `walkparam`, first pass, on a name. -/
def walkparam0 (s : String) (st : State) : State :=
  let st := push1 s st
  st.setIdent s { st.ident s with offset := -1 }

/-- `walkparam`, second pass, on a name of an old-style list. -/
def walkparam1 (s : String) (lineno : Int) (st : State) : State :=
  let old := st.ident s
  if old.offset ≠ -1 then
    let t := old.type.getD (.typ .TINT (Etype.ewidth .TINT))
    let o := alignArg1 st.autoffset t
    { st.setIdent s { old with offset := o } with autoffset := alignArg2 o t }
  else dodecl s lineno (pdecl .CXXX (.typ .TINT (Etype.ewidth .TINT)) (some s) st)

/-- The calls the grammar makes while it parses a function. -/
inductive Op where
  | function
  | argmark (result : Ctype)
  | argdone
  | walkparam0 (s : String)
  | walkparam1 (s : String) (lineno : Int)
  | pdecl (c : Class) (t : Ctype) (s : Option String) (lineno : Int)
  | markdcl
  | revertdcl
  | adecl (c : Class) (t : Ctype) (s : String) (lineno : Int)
  | doenum (s : String)
  | dotag (s : String) (et : Etype) (body : Bool)
  | dcllabel (s : String) (defcontext : Bool)
  | pragma (packflg : Int)
  deriving DecidableEq, Repr

/-- The block number `dotag` is given: the current one where a body follows the
tag, and 0 where the tag is only named. -/
def tagBlock (body : Bool) (st : State) : Int := if body then st.autobn else 0

def step : Op → State → State
  | .function, st =>
    let st := Dcl.markdcl st
    { st with firstdcl := st.dclstack.length }
  | .argmark result, st => { st with autoffset := alignArg0 0 result, stkoff := 0 }
  | .argdone, st => { st with autoffset := 0, stkoff := 0 }
  | .walkparam0 s, st => Dcl.walkparam0 s st
  | .walkparam1 s lineno, st => Dcl.walkparam1 s lineno st
  | .pdecl c t (some s) lineno, st => dodecl s lineno (Dcl.pdecl c t (some s) st)
  | .pdecl c t none _, st => Dcl.pdecl c t none st
  | .markdcl, st => Dcl.markdcl st
  | .revertdcl, st => Dcl.revertdcl st
  | .adecl c t s lineno, st => dodecl s lineno (Dcl.adecl c t (some s) st)
  | .doenum s, st => Dcl.doenum s st
  | .dotag s et body, st => Dcl.dotag s et (tagBlock body st) st
  | .dcllabel s defcontext, st => Dcl.dcllabel s defcontext st
  | .pragma packflg, st => { st with packflg := packflg }

/-- The globals as `cinit` leaves them, with an empty symbol table. -/
def cinit : State where
  ident _ := ⟨none, .CXXX, 0, 0, 0, false⟩
  tag _ := ⟨none, 0⟩
  label _ := none
  types := []
  blockno := 0
  autobn := 0
  autoffset := 0
  stkoff := 0
  dclstack := []
  firstdcl := 0
  packflg := 0
  diags := []

def run (st : State) (ops : List Op) : State := Lib.Steps.execute step st ops

end Goken.Dcl
