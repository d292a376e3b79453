import Goken.Lib.Bytes
import Goken.Lib.Ring
import Goken.Ieee

/-! Object files of the wasm toolchain: `outcode` of ec (ec/swt.c) and `readobj`
of el (el/obj.c). The compiler announces a symbol with an ANAME record when its
slot does not hold the symbol; the linker reads a file up to its AEND record and
hands each decoded record to the switch over opcodes. -/

namespace Goken.WasmObj
open Lib

def NSYM : Nat := 50
def NSNAME : Nat := 8

/-- The D_ enumeration, for the type of an operand and for its name. -/
inductive D where
  | D_GOK | D_NONE | D_EXTERN | D_STATIC | D_AUTO | D_PARAM | D_BRANCH | D_OREG | D_CONST | D_VCONST | D_FCONST
  | D_SCONST | D_LOCAL | D_GLOBAL | D_FILE | D_FILE1
  deriving DecidableEq, Repr

def D.all : List D :=
  [.D_GOK, .D_NONE, .D_EXTERN, .D_STATIC, .D_AUTO, .D_PARAM, .D_BRANCH, .D_OREG, .D_CONST, .D_VCONST, .D_FCONST,
   .D_SCONST, .D_LOCAL, .D_GLOBAL, .D_FILE, .D_FILE1]

def D.code (d : D) : UInt8 := .ofNat (D.all.idxOf d)

/-! Opcodes are bytes; these are the ones that the linker looks at. -/

def AXXX : UInt8 := 0
def ATEXT : UInt8 := 171
def AGLOBL : UInt8 := 172
def ADATA : UInt8 := 173
def ANAME : UInt8 := 175
def AHISTORY : UInt8 := 176
def AEND : UInt8 := 177
def ASIGNATURE : UInt8 := 182
def ALAST : UInt8 := 183

abbrev Name := Bytes.CString

/-! The compiler. There is one `Sym` for a name. -/

structure Adr where
  type : D
  name : D
  sym : Option Name
  offset : Int64
  vval : Int64
  dval : Double
  sval : { text : List UInt8 // text.length = NSNAME }
  deriving DecidableEq

structure Prog where
  as : UInt8
  reg : UInt8
  lineno : Int32
  source : Adr
  dest : Adr
  deriving DecidableEq

/-- `h[]`, the `sym` field of every symbol, and `symcounter`. -/
abbrev Writer := Ring.Slots Name Name

def zname (n : Name) (name : D) (symidx : Nat) : List UInt8 :=
  ANAME :: name.code :: UInt8.ofNat symidx :: (n.val ++ [0])

/-- The index, and the record that announces it. -/
def symidx_of_symopt (w : Writer) (sym : Option Name) (name : D) : Nat × Writer × List UInt8 :=
  match sym with
  | none => (0, w, [])
  | some s =>
    let idx := Ring.seek NSYM id w s
    if w.slots idx ≠ some s then (w.next, Ring.push NSYM id w s, zname s name w.next) else (idx, w, [])

/-- The operand's own bytes; an unknown type is diagnosed. -/
def outval (a : Adr) : Option (List UInt8) :=
  match a.type with
  | .D_NONE | .D_LOCAL | .D_GLOBAL | .D_BRANCH | .D_OREG | .D_CONST => some (Bytes.put4 a.offset.toInt)
  | .D_VCONST => some (Bytes.split 8 a.vval.toInt)
  | .D_SCONST => some a.sval.val
  | .D_FCONST => do
    let e ← ieeedtod a.dval
    return Bytes.put4 e.l.toInt ++ Bytes.put4 e.h.toInt
  | _ => none

def outopd (a : Adr) (symidx : Nat) : Option (List UInt8) := do
  let val ← outval a
  return a.type.code :: 0 :: UInt8.ofNat symidx :: a.name.code :: val

def outprog (w : Writer) (q : Prog) : Option (Writer × List UInt8) := do
  let (sf, w, first) := symidx_of_symopt w q.source.sym q.source.name
  let (st, w, second) := symidx_of_symopt w q.dest.sym q.dest.name
  let source ← outopd q.source sf
  let dest ← outopd q.dest st
  return (w, first ++ second ++ (q.as :: q.reg :: Bytes.put4 q.lineno.toInt) ++ source ++ dest)

/-- The loop of `outcode`. -/
def outprogs : Writer → List Prog → Option (List UInt8)
  | _, [] => some []
  | w, q :: rest => do
    let (w, bytes) ← outprog w q
    let more ← outprogs w rest
    return bytes ++ more

def outcode (firstp : List Prog) : Option (List UInt8) := outprogs Ring.empty firstp

/-! The linker. -/

/-- `errorexit`, or a read outside the file or of a field that was not set. -/
inductive Stop where
  | opcodeRange | truncatedName | unknownOperand | noSymbol | noText | signature
  | fault
  deriving DecidableEq, Repr

structure Sym where
  name : Name
  version : Nat
  deriving DecidableEq

/-- The field of an `Adr` that its type selects. -/
inductive Value where
  | offset (l : Int64)
  | vval (v : Int64)
  | sval (text : List UInt8)
  | dval (d : Double)
  deriving DecidableEq

structure Operand where
  type : D
  name : UInt8
  sym : Option Sym
  value : Value
  deriving DecidableEq

structure Record where
  as : UInt8
  reg : UInt8
  source : Operand
  dest : Operand
  deriving DecidableEq

/-- `h[]`. -/
abbrev Table := Nat → Option Sym

/-- The switch of `inopd`. The loop for a `vlong` goes down from the last of its eight bytes. -/
def inval (type : D) (p : List UInt8) : Except Stop (Value × List UInt8) :=
  match type with
  | .D_NONE | .D_LOCAL | .D_GLOBAL | .D_BRANCH | .D_OREG | .D_CONST => do
    let (l, p) ← Bytes.get4 .fault p
    return (.offset (Int64.ofInt l), p)
  | .D_VCONST => do
    let (bytes, p) ← Bytes.take .fault 8 p
    return (.vval (Int64.ofInt (bytes.foldr (fun b v => v <<< 8 ||| b.toNat) 0 : Nat)), p)
  | .D_SCONST => do
    let (text, p) ← Bytes.take .fault NSNAME p
    return (.sval text, p)
  | .D_FCONST => do
    let (l, p) ← Bytes.get4 .fault p
    let (h, p) ← Bytes.get4 .fault p
    return (.dval (Ieee.double ⟨BitVec.ofInt 32 l, BitVec.ofInt 32 h⟩), p)
  | _ => .error .unknownOperand

/-- An index out of range is reported and read as 0. -/
def inopd (p : List UInt8) (h : Table) : Except Stop (Operand × List UInt8) :=
  match p with
  | type :: _ :: symidx :: name :: p =>
    match D.all[type.toNat]? with
    | none => .error .unknownOperand
    | some type => do
      let (value, p) ← inval type p
      return (⟨type, name, h (if symidx.toNat ≥ NSYM then 0 else symidx.toNat), value⟩, p)
  | _ => .error .fault

/-- What the switch over opcodes does with the loop. -/
inductive Next (σ : Type) where
  | loop (s : σ)
  | finish (s : σ)

/-- The loop of `readobj` over the bytes from `p` to `end`, with the switch over
opcodes as a parameter. Every round takes at least one byte, so `fuel` is the
number of bytes left. -/
def scan {σ : Type} (obey : σ → Record → Except Stop (Next σ)) (version : Nat) :
    Nat → List UInt8 → Table → σ → Except Stop σ
  | _, [], _, s => .ok s
  | 0, _ :: _, _, _ => .error .fault
  | fuel + 1, op :: p, h, s =>
    if op ≤ AXXX ∨ op ≥ ALAST then .error .opcodeRange
    else if op = ANAME then
      match p with
      | name :: symidx :: text =>
        match Bytes.cstring text with
        | none => .error .truncatedName
        | some (n, p) =>
          let sym : Sym := ⟨n, if name = D.D_STATIC.code then version else 0⟩
          scan obey version fuel p (if symidx.toNat < NSYM then Function.update h symidx.toNat (some sym) else h) s
      | _ => .error .truncatedName
    else
      match p with
      | reg :: p => do
        let (_, p) ← Bytes.get4 .fault p
        let (source, p) ← inopd p h
        let (dest, p) ← inopd p h
        match ← obey s ⟨op, reg, source, dest⟩ with
        | .finish s => .ok s
        | .loop s => scan obey version fuel p h s
      | _ => .error .fault

def readwith {σ : Type} (obey : σ → Record → Except Stop (Next σ)) (version : Nat) (file : List UInt8) (s : σ) :
    Except Stop σ :=
  scan obey version file.length file (fun _ => none) s

/-! The switch of `readobj`. -/

inductive Section where
  | SNONE | STEXT | SBSS | SIMPORT | SXREF
  deriving DecidableEq, Repr

structure Text where
  sym : Sym
  framesize : Int64
  sig : List UInt8
  instrs : List (UInt8 × Operand × Operand)

structure DataReloc where
  targetsym : Sym
  targetoff : Int
  width : Nat
  refsym : Sym
  addend : Int64

/-- `texts` and `datarelocs` have the newest first; bytes of `data` never written are 0. -/
structure Link where
  type : Sym → Section
  data : Sym → Int → UInt8
  datasize : Sym → Int
  texts : List Text
  datarelocs : List DataReloc
  nerrors : Nat

def Operand.offset (a : Operand) : Except Stop Int64 :=
  match a.value with
  | .offset l => .ok l
  | _ => .error .fault

def growdata (s : Link) (sym : Sym) (need : Int) : Link :=
  { s with datasize := Function.update s.datasize sym (max (s.datasize sym) need) }

/-- Bytes stored at `off` of a symbol's data. -/
def store (s : Link) (sym : Sym) (off : Int) (bytes : List UInt8) : Except Stop Link :=
  if off < 0 ∧ bytes ≠ [] then .error .fault
  else .ok { s with data := Function.update s.data sym fun i =>
    match bytes[(i - off).toNat]? with
    | some b => if off ≤ i then b else s.data sym i
    | none => s.data sym i }

def adata (s : Link) (sym : Sym) (r : Record) : Except Stop Link := do
  let off := (← r.source.offset).toInt
  let reg := r.reg.toNat
  let s := if s.type sym = .SNONE then { s with type := Function.update s.type sym .SBSS } else s
  let s := growdata s sym (off + reg)
  match r.dest.type, r.dest.value, r.dest.sym with
  | .D_SCONST, .sval text, _ => if text.length < reg then .error .fault else store s sym off (text.take reg)
  | .D_CONST, .offset v, none => store s sym off (Bytes.split reg v.toInt)
  | .D_CONST, .offset v, some refsym => .ok { s with datarelocs := ⟨sym, off, reg, refsym, v⟩ :: s.datarelocs }
  | _, _, _ => .ok { s with nerrors := s.nerrors + 1 }

def obey (s : Link) (r : Record) : Except Stop (Next Link) :=
  if r.as = AEND then .ok (.finish s)
  else if r.as = AHISTORY then .ok (.loop s)
  else if r.as = ATEXT then
    match r.source.sym with
    | none => .error .noSymbol
    | some sym => do
      let framesize ← r.dest.offset
      let nerrors := if s.type sym ≠ .SNONE ∧ s.type sym ≠ .SXREF then s.nerrors + 1 else s.nerrors
      return .loop { s with
        type := Function.update s.type sym .STEXT, nerrors,
        texts := ⟨sym, framesize, 86 :: List.replicate (NSNAME - 1) 0, []⟩ :: s.texts }
  else if r.as = ASIGNATURE then
    match s.texts, r.dest.value with
    | t :: texts, .sval text =>
      if r.source.sym = some t.sym then .ok (.loop { s with texts := { t with sig := text } :: texts })
      else .error .signature
    | _ :: _, _ => .error .fault
    | [], _ => .error .signature
  else if r.as = AGLOBL then
    match r.source.sym with
    | none => .error .noSymbol
    | some sym => do
      let size ← r.dest.offset
      let s := if s.type sym = .SNONE ∨ s.type sym = .SXREF then
        { s with type := Function.update s.type sym .SBSS } else s
      return .loop (growdata s sym size.toInt)
  else if r.as = ADATA then
    match r.source.sym with
    | none => .error .noSymbol
    | some sym => (adata s sym r).map .loop
  else
    match s.texts with
    | [] => .error .noText
    | t :: texts =>
      .ok (.loop { s with texts := { t with instrs := t.instrs ++ [(r.as, r.source, r.dest)] } :: texts })

def readobj (version : Nat) (file : List UInt8) (s : Link) : Except Stop Link := readwith obey version file s

end Goken.WasmObj
