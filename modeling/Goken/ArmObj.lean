import Goken.Lib.Bytes
import Goken.Lib.Ring
import Goken.Ieee

/-! Object files of the ARM toolchain: `outcode` of 5c (5c/swt.c) and `ldobj` of
5l (5l/obj.c). The refilling of the linker's buffer is left out: a file is the
list of its bytes. What `ldobj` does with a name or with an instruction once it
has been decoded is a parameter. -/

namespace Goken.ArmObj
open Lib

def NSYM : Nat := 50
def NSNAME : Nat := 8
def NREG : Nat := 16

inductive Operand_kind where
  | D_NONE | D_CONST | D_SCONST | D_FCONST | D_REG | D_OREG | D_ADDR | D_SHIFT | D_BRANCH | D_FREG | D_FPCR | D_REGREG
  | D_PSR
  deriving DecidableEq, Repr

def Operand_kind.all : List Operand_kind :=
  [.D_NONE, .D_CONST, .D_SCONST, .D_FCONST, .D_REG, .D_OREG, .D_ADDR, .D_SHIFT, .D_BRANCH, .D_FREG, .D_FPCR, .D_REGREG,
   .D_PSR]

def Operand_kind.code (d : Operand_kind) : UInt8 := .ofNat (Operand_kind.all.idxOf d)

inductive Sym_kind where
  | N_NONE | N_EXTERN | N_LOCAL | N_PARAM | N_INTERN | N_FILE | N_LINE
  deriving DecidableEq, Repr

def Sym_kind.all : List Sym_kind := [.N_NONE, .N_EXTERN, .N_LOCAL, .N_PARAM, .N_INTERN, .N_FILE, .N_LINE]

def Sym_kind.code (k : Sym_kind) : UInt8 := .ofNat (Sym_kind.all.idxOf k)

/-! Opcodes are bytes; these are the ones that decoding looks at. -/

def AXXX : UInt8 := 0
def AEND : UInt8 := 82
def ANAME : UInt8 := 83
def AHISTORY : UInt8 := 84
def ASIGNAME : UInt8 := 87
def ALAST : UInt8 := 89

abbrev Name := Bytes.CString

/-! The compiler. -/

structure Adr where
  type : Operand_kind
  reg : UInt8
  sym : Option Name
  symkind : Sym_kind
  offset : Int32
  sval : { text : List UInt8 // text.length = NSNAME }
  dval : Double
  deriving DecidableEq

structure Prog where
  as : UInt8
  scond : UInt8
  reg : UInt8
  lineno : Int64
  source : Adr
  dest : Adr
  deriving DecidableEq

/-- What `zname` looks at beside its arguments: `debug['T']`, whether a symbol is
one that gets a signature (neither an enumeration nor `.rathole`), and `sign`. -/
structure Signatures where
  debug : Bool
  takes : Name → Bool
  sign : Name → Int32

/-- `h[]`, the `symidx` field of every symbol and `sym`, and the symbols with `sig == SIGDONE`. -/
structure Writer where
  ring : Ring.Slots Name (Name × Sym_kind)
  done : Name → Bool

def Writer.empty : Writer := ⟨Ring.empty, fun _ => false⟩

section write
variable (sigs : Signatures)

/-- The record, and the symbols that have their signature written. -/
def zname (done : Name → Bool) (s : Name) (t : Sym_kind) (symidx : Nat) : List UInt8 × (Name → Bool) :=
  if sigs.debug ∧ t = .N_EXTERN ∧ ¬ done s ∧ sigs.takes s then
    (ASIGNAME :: (Bytes.put4 (sigs.sign s).toInt ++ t.code :: UInt8.ofNat symidx :: (s.val ++ [0])),
      Function.update done s true)
  else (ANAME :: t.code :: UInt8.ofNat symidx :: (s.val ++ [0]), done)

/-- One of the two `while` loops of `outcode`: the slot of the operand's symbol,
the record that announces it, and whether it is new. -/
def symslot (w : Writer) (sym : Option Name) (t : Sym_kind) : Nat × Writer × List UInt8 × Bool :=
  match sym with
  | none => (0, w, [], false)
  | some s =>
    let sf := Ring.seek NSYM Prod.fst w.ring (s, t)
    if w.ring.slots sf = some (s, t) then (sf, w, [], false)
    else
      let (bytes, done) := zname sigs w.done s t w.ring.next
      (w.ring.next, ⟨Ring.push NSYM Prod.fst w.ring (s, t), done⟩, bytes, true)

/-- From `jackpot` on; `fuel` bounds the number of rounds. -/
def jackpot : Nat → Writer → Prog → Option (Nat × Nat × Writer × List UInt8)
  | 0, _, _ => none
  | fuel + 1, w, p =>
    let (sf, w, first, _) := symslot sigs w p.source.sym p.source.symkind
    let (st, w, second, new) := symslot sigs w p.dest.sym p.dest.symkind
    if new ∧ st = sf then
      (jackpot fuel w p).map fun (sf, st, w, more) => (sf, st, w, first ++ second ++ more)
    else some (sf, st, w, first ++ second)

/-- The switch of `zaddr`; an unknown type is diagnosed. -/
def zvalue (a : Adr) : Option (List UInt8) :=
  match a.type with
  | .D_NONE | .D_REG | .D_FREG | .D_PSR => some []
  | .D_OREG | .D_CONST | .D_ADDR | .D_BRANCH | .D_SHIFT => some (Bytes.put4 a.offset.toInt)
  | .D_SCONST => some a.sval.val
  | .D_FCONST => do
    let e ← ieeedtod a.dval
    return Bytes.put4 e.l.toInt ++ Bytes.put4 e.h.toInt
  | _ => none

def zaddr (a : Adr) (s : Nat) : Option (List UInt8) := do
  let value ← zvalue a
  return a.type.code :: a.reg :: UInt8.ofNat s :: a.symkind.code :: value

def zwrite (p : Prog) (sf st : Nat) : Option (List UInt8) := do
  let source ← zaddr p.source sf
  let dest ← zaddr p.dest st
  return (p.as :: p.scond :: p.reg :: Bytes.put4 p.lineno.toInt) ++ source ++ dest

/-- The loop of `outcode`. No instruction needs more than two rounds of `jackpot`. -/
def outprogs : Writer → List Prog → Option (List UInt8)
  | _, [] => some []
  | w, p :: rest => do
    let (sf, st, w, names) ← jackpot sigs 2 w p
    let bytes ← zwrite p sf st
    let more ← outprogs w rest
    return names ++ bytes ++ more

end write

/-- A line of the history: the components of the file's path, the line where it
starts, and the offset of a `#line`. -/
structure Hist where
  path : List Name
  line : Int64
  offset : Int32

def zprogAdr : Adr := ⟨.D_NONE, .ofNat NREG, none, .N_NONE, 0, ⟨List.replicate NSNAME 0, rfl⟩, 0⟩

/-- `pg` in `outhist`; `scond` is that of `zprog`. -/
def histprog (scond : UInt8) (h : Hist) : Prog where
  as := AHISTORY
  scond := scond
  reg := .ofNat NREG
  lineno := h.line
  source := zprogAdr
  dest := { zprogAdr with type := if h.offset ≠ 0 then .D_CONST else .D_NONE, offset := h.offset }

/-- A component of a path, as a name that starts with `<`. -/
def component (n : Name) : Name := ⟨60 :: n.val, by simpa using n.property⟩

def outpath (path : List Name) : List UInt8 :=
  path.flatMap fun n => ANAME :: Sym_kind.N_FILE.code :: 1 :: ((component n).val ++ [0])

def outhist (scond : UInt8) : List Hist → Option (List UInt8)
  | [] => some []
  | h :: rest => do
    let bytes ← zwrite (histprog scond h) 0 0
    let more ← outhist scond rest
    return outpath h.path ++ bytes ++ more

def outcode (sigs : Signatures) (scond : UInt8) (hist : List Hist) (firstp : List Prog) : Option (List UInt8) := do
  let history ← outhist scond hist
  let code ← outprogs sigs Writer.empty firstp
  return history ++ code

/-! The linker. -/

inductive Stop where
  | opcodeRange | registerRange | symbolRange | unknownOperand | truncated
  | fault
  deriving DecidableEq, Repr

structure Sym where
  name : Name
  version : Nat
  deriving DecidableEq

inductive Value where
  | none
  | offset (l : Int)
  | sval (text : List UInt8)
  | ieee (e : Ieee)
  deriving DecidableEq

structure Operand where
  type : Operand_kind
  reg : UInt8
  sym : Option Sym
  symkind : UInt8
  value : Value
  deriving DecidableEq

structure Record where
  as : UInt8
  scond : UInt8
  reg : UInt8
  line : Int
  source : Operand
  dest : Operand
  deriving DecidableEq

abbrev Table := Nat → Option Sym

/-- The switch of `inopd`. -/
def invalue (type : Operand_kind) (p : List UInt8) : Except Stop (Value × List UInt8) :=
  match type with
  | .D_NONE | .D_REG | .D_PSR | .D_FREG | .D_FPCR => .ok (.none, p)
  | .D_REGREG =>
    match p with
    | b :: p => .ok (.offset b.toNat, p)
    | [] => .error .fault
  | .D_CONST | .D_ADDR | .D_SHIFT | .D_OREG | .D_BRANCH => do
    let (l, p) ← Bytes.get4 .fault p
    return (.offset l, p)
  | .D_SCONST => do
    let (text, p) ← Bytes.take .fault NSNAME p
    return (.sval text, p)
  | .D_FCONST => do
    let (l, p) ← Bytes.get4 .fault p
    let (h, p) ← Bytes.get4 .fault p
    return (.ieee ⟨BitVec.ofInt 32 l, BitVec.ofInt 32 h⟩, p)

/-- A `D_CONST` that has a symbol is a `D_ADDR`. -/
def readdress (type : Operand_kind) (symkind : UInt8) : Operand_kind :=
  if type = .D_CONST ∧ symkind ≠ Sym_kind.N_NONE.code then .D_ADDR else type

def inopd (p : List UInt8) (h : Table) : Except Stop (Operand × List UInt8) :=
  match p with
  | type :: reg :: symidx :: symkind :: p =>
    if reg.toNat > NREG then .error .registerRange
    else if symidx.toNat > NSYM then .error .symbolRange
    else if symidx.toNat = NSYM then .error .fault
    else
      match Operand_kind.all[type.toNat]? with
      | none => .error .unknownOperand
      | some type => do
        let (value, p) ← invalue (readdress type symkind) p
        return (⟨readdress type symkind, reg, h symidx.toNat, symkind, value⟩, p)
  | _ => .error .fault

/-- What `ldobj` decodes. -/
inductive Event where
  | name (k : UInt8) (s : Sym) (sig : Int)
  | instruction (p : Record)
  deriving DecidableEq

/-- From `loop` on, with `obey` for what follows the decoding. `AEND` ends the
file, or starts over with the next object in it. -/
def scan {σ : Type} (obey : σ → Event → Except Stop σ) : Nat → Nat → List UInt8 → Table → σ → Except Stop σ
  | _, _, [], _, _ => .error .truncated
  | 0, _, _ :: _, _, _ => .error .fault
  | fuel + 1, version, o :: p, h, s =>
    if o ≤ AXXX ∨ o ≥ ALAST then .error .opcodeRange
    else if o = ANAME ∨ o = ASIGNAME then do
      let (sig, p) ← if o = ASIGNAME then Bytes.get4 .fault p else .ok (0, p)
      match p with
      | k :: symidx :: text =>
        match Bytes.cstring text with
        | none => .error .truncated
        | some (n, p) =>
          let sym : Sym := ⟨n, if k = Sym_kind.N_INTERN.code then version else 0⟩
          if symidx.toNat ≥ NSYM then .error .fault
          else do
            let s ← obey s (.name k sym sig)
            scan obey fuel version p (Function.update h symidx.toNat (some sym)) s
      | _ => .error .truncated
    else
      match p with
      | scond :: reg :: p => do
        let (line, p) ← Bytes.get4 .fault p
        let (source, p) ← inopd p h
        let (dest, p) ← inopd p h
        let s ← obey s (.instruction ⟨o, scond, reg, line, source, dest⟩)
        if o = AEND then
          if p = [] then .ok s else scan obey fuel (version + 1) p (fun _ => none) s
        else scan obey fuel version p h s
      | _ => .error .fault

def ldobj {σ : Type} (obey : σ → Event → Except Stop σ) (version : Nat) (file : List UInt8) (s : σ) : Except Stop σ :=
  scan obey file.length (version + 1) file (fun _ => none) s

end Goken.ArmObj
