import Goken.WasmObj

/-! The wasm linker: `lookup` and `addimport` of el (el/obj.c), its table of opcodes
(el/optab.c) and what it writes (el/asm.c). The object files are read by `readobj`. -/

namespace Goken.WasmLink
open Lib WasmObj

def NHASH : Nat := 1009
def MAXSIG : Nat := 64
def ARENABASE : Int := 8
def WASMPAGESIZE : Int := 65536

inductive As where
  | AXXX | ANOP | AUNREACHABLE | ABLOCK | ALOOP | AIF | AELSE | AENDCTL | ABR | ABRIF | ABRTABLE | ARET | ACALL
  | ACALLIND | ADROP | ASELECT | ALOCALGET | ALOCALSET | ALOCALTEE | AGLOBALGET | AGLOBALSET | AMEMSIZE | AMEMGROW
  | ACONSTW | ACONSTQ | ACONSTF | ACONSTD | ALOADB | ALOADBU | ALOADH | ALOADHU | ALOADW | ALOADQ | ALOADBQ
  | ALOADBUQ | ALOADHQ | ALOADHUQ | ALOADWQ | ALOADWUQ | ALOADF | ALOADD | ASTOREB | ASTOREH | ASTOREW | ASTOREWQ
  | ASTOREQ | ASTOREF | ASTORED | AADDW | ASUBW | AMULW | ADIVW | ADIVWU | AREMW | AREMWU | AANDW | AORW | AXORW
  | ASHLW | ASHRW | ASHRWU | AROLW | ARORW | ACLZW | ACTZW | APOPCNTW | ATESTW | ACMPEQW | ACMPNEW | ACMPLTW
  | ACMPLTWU | ACMPGTW | ACMPGTWU | ACMPLEW | ACMPLEWU | ACMPGEW | ACMPGEWU | AADDQ | ASUBQ | AMULQ | ADIVQ | ADIVQU
  | AREMQ | AREMQU | AANDQ | AORQ | AXORQ | ASHLQ | ASHRQ | ASHRQU | AROLQ | ARORQ | ACLZQ | ACTZQ | APOPCNTQ
  | ATESTQ | ACMPEQQ | ACMPNEQ | ACMPLTQ | ACMPLTQU | ACMPGTQ | ACMPGTQU | ACMPLEQ | ACMPLEQU | ACMPGEQ | ACMPGEQU
  | AADDF | ASUBF | AMULF | ADIVF | AMINF | AMAXF | ACOPYSGNF | AABSF | ANEGF | ASQRTF | ACEILF | AFLOORF | ATRUNCF
  | ANEARF | ACMPEQF | ACMPNEF | ACMPLTF | ACMPGTF | ACMPLEF | ACMPGEF | AADDD | ASUBD | AMULD | ADIVD | AMIND
  | AMAXD | ACOPYSGND | AABSD | ANEGD | ASQRTD | ACEILD | AFLOORD | ATRUNCD | ANEARD | ACMPEQD | ACMPNED | ACMPLTD
  | ACMPGTD | ACMPLED | ACMPGED | AWRAPQ | AEXTW | AEXTWU | ACONVWF | ACONVWUF | ACONVWD | ACONVWUD | ACONVQF
  | ACONVQUF | ACONVQD | ACONVQUD | ATRUNCFW | ATRUNCFWU | ATRUNCFQ | ATRUNCFQU | ATRUNCDW | ATRUNCDWU | ATRUNCDQ
  | ATRUNCDQU | APROMOTE | ADEMOTE | AREINTWF | AREINTFW | AREINTQD | AREINTDQ | ATEXT | AGLOBL | ADATA | AWORD
  | ANAME | AHISTORY | AEND | ADYNT | AINIT | ASIGNAME | AGOK | ASIGNATURE | ALAST
  deriving DecidableEq, Repr

def As.code (as : As) : UInt8 := .ofNat as.ctorIdx

inductive Kind where
  | OSIMPLE | OSIMPLE2 | OBR | OCALL | OLOCAL | OGLOBAL | OCONSTI | OCONSTF | OMEM
  deriving DecidableEq, Repr

structure Optab where
  as : As
  kind : Kind
  op : UInt8
  op2 : UInt8
  fsize : Nat
  deriving DecidableEq, Repr

def optab : List Optab :=
  [⟨.ANOP, .OSIMPLE, 0x01, 0, 0⟩, ⟨.AUNREACHABLE, .OSIMPLE, 0x00, 0, 0⟩, ⟨.ABLOCK, .OSIMPLE2, 0x02, 0x40, 0⟩,
   ⟨.ALOOP, .OSIMPLE2, 0x03, 0x40, 0⟩, ⟨.AIF, .OSIMPLE2, 0x04, 0x40, 0⟩, ⟨.AELSE, .OSIMPLE, 0x05, 0, 0⟩,
   ⟨.AENDCTL, .OSIMPLE, 0x0B, 0, 0⟩, ⟨.ABR, .OBR, 0x0C, 0, 0⟩, ⟨.ABRIF, .OBR, 0x0D, 0, 0⟩,
   ⟨.ARET, .OSIMPLE, 0x0F, 0, 0⟩, ⟨.ACALL, .OCALL, 0x10, 0, 0⟩, ⟨.ADROP, .OSIMPLE, 0x1A, 0, 0⟩,
   ⟨.ASELECT, .OSIMPLE, 0x1B, 0, 0⟩, ⟨.AMEMSIZE, .OSIMPLE2, 0x3F, 0x00, 0⟩, ⟨.AMEMGROW, .OSIMPLE2, 0x40, 0x00, 0⟩,
   ⟨.ALOCALGET, .OLOCAL, 0x20, 0, 0⟩, ⟨.ALOCALSET, .OLOCAL, 0x21, 0, 0⟩, ⟨.ALOCALTEE, .OLOCAL, 0x22, 0, 0⟩,
   ⟨.AGLOBALGET, .OGLOBAL, 0x23, 0, 0⟩, ⟨.AGLOBALSET, .OGLOBAL, 0x24, 0, 0⟩, ⟨.ACONSTW, .OCONSTI, 0x41, 0, 0⟩,
   ⟨.ACONSTQ, .OCONSTI, 0x42, 0, 0⟩, ⟨.ACONSTF, .OCONSTF, 0x43, 0, 4⟩, ⟨.ACONSTD, .OCONSTF, 0x44, 0, 8⟩,
   ⟨.ALOADB, .OMEM, 0x2C, 0, 0⟩, ⟨.ALOADBU, .OMEM, 0x2D, 0, 0⟩, ⟨.ALOADH, .OMEM, 0x2E, 0, 0⟩,
   ⟨.ALOADHU, .OMEM, 0x2F, 0, 0⟩, ⟨.ALOADW, .OMEM, 0x28, 0, 0⟩, ⟨.ALOADQ, .OMEM, 0x29, 0, 0⟩,
   ⟨.ALOADBQ, .OMEM, 0x30, 0, 0⟩, ⟨.ALOADBUQ, .OMEM, 0x31, 0, 0⟩, ⟨.ALOADHQ, .OMEM, 0x32, 0, 0⟩,
   ⟨.ALOADHUQ, .OMEM, 0x33, 0, 0⟩, ⟨.ALOADWQ, .OMEM, 0x34, 0, 0⟩, ⟨.ALOADWUQ, .OMEM, 0x35, 0, 0⟩,
   ⟨.ALOADF, .OMEM, 0x2A, 0, 0⟩, ⟨.ALOADD, .OMEM, 0x2B, 0, 0⟩, ⟨.ASTOREB, .OMEM, 0x3A, 0, 0⟩,
   ⟨.ASTOREH, .OMEM, 0x3B, 0, 0⟩, ⟨.ASTOREW, .OMEM, 0x36, 0, 0⟩, ⟨.ASTOREWQ, .OMEM, 0x3E, 0, 0⟩,
   ⟨.ASTOREQ, .OMEM, 0x37, 0, 0⟩, ⟨.ASTOREF, .OMEM, 0x38, 0, 0⟩, ⟨.ASTORED, .OMEM, 0x39, 0, 0⟩,
   ⟨.AADDW, .OSIMPLE, 0x6A, 0, 0⟩, ⟨.ASUBW, .OSIMPLE, 0x6B, 0, 0⟩, ⟨.AMULW, .OSIMPLE, 0x6C, 0, 0⟩,
   ⟨.ADIVW, .OSIMPLE, 0x6D, 0, 0⟩, ⟨.ADIVWU, .OSIMPLE, 0x6E, 0, 0⟩, ⟨.AREMW, .OSIMPLE, 0x6F, 0, 0⟩,
   ⟨.AREMWU, .OSIMPLE, 0x70, 0, 0⟩, ⟨.AANDW, .OSIMPLE, 0x71, 0, 0⟩, ⟨.AORW, .OSIMPLE, 0x72, 0, 0⟩,
   ⟨.AXORW, .OSIMPLE, 0x73, 0, 0⟩, ⟨.ASHLW, .OSIMPLE, 0x74, 0, 0⟩, ⟨.ASHRW, .OSIMPLE, 0x75, 0, 0⟩,
   ⟨.ASHRWU, .OSIMPLE, 0x76, 0, 0⟩, ⟨.AROLW, .OSIMPLE, 0x77, 0, 0⟩, ⟨.ARORW, .OSIMPLE, 0x78, 0, 0⟩,
   ⟨.ACLZW, .OSIMPLE, 0x67, 0, 0⟩, ⟨.ACTZW, .OSIMPLE, 0x68, 0, 0⟩, ⟨.APOPCNTW, .OSIMPLE, 0x69, 0, 0⟩,
   ⟨.ATESTW, .OSIMPLE, 0x45, 0, 0⟩, ⟨.ACMPEQW, .OSIMPLE, 0x46, 0, 0⟩, ⟨.ACMPNEW, .OSIMPLE, 0x47, 0, 0⟩,
   ⟨.ACMPLTW, .OSIMPLE, 0x48, 0, 0⟩, ⟨.ACMPLTWU, .OSIMPLE, 0x49, 0, 0⟩, ⟨.ACMPGTW, .OSIMPLE, 0x4A, 0, 0⟩,
   ⟨.ACMPGTWU, .OSIMPLE, 0x4B, 0, 0⟩, ⟨.ACMPLEW, .OSIMPLE, 0x4C, 0, 0⟩, ⟨.ACMPLEWU, .OSIMPLE, 0x4D, 0, 0⟩,
   ⟨.ACMPGEW, .OSIMPLE, 0x4E, 0, 0⟩, ⟨.ACMPGEWU, .OSIMPLE, 0x4F, 0, 0⟩, ⟨.AADDQ, .OSIMPLE, 0x7C, 0, 0⟩,
   ⟨.ASUBQ, .OSIMPLE, 0x7D, 0, 0⟩, ⟨.AMULQ, .OSIMPLE, 0x7E, 0, 0⟩, ⟨.ADIVQ, .OSIMPLE, 0x7F, 0, 0⟩,
   ⟨.ADIVQU, .OSIMPLE, 0x80, 0, 0⟩, ⟨.AREMQ, .OSIMPLE, 0x81, 0, 0⟩, ⟨.AREMQU, .OSIMPLE, 0x82, 0, 0⟩,
   ⟨.AANDQ, .OSIMPLE, 0x83, 0, 0⟩, ⟨.AORQ, .OSIMPLE, 0x84, 0, 0⟩, ⟨.AXORQ, .OSIMPLE, 0x85, 0, 0⟩,
   ⟨.ASHLQ, .OSIMPLE, 0x86, 0, 0⟩, ⟨.ASHRQ, .OSIMPLE, 0x87, 0, 0⟩, ⟨.ASHRQU, .OSIMPLE, 0x88, 0, 0⟩,
   ⟨.AROLQ, .OSIMPLE, 0x89, 0, 0⟩, ⟨.ARORQ, .OSIMPLE, 0x8A, 0, 0⟩, ⟨.ACLZQ, .OSIMPLE, 0x79, 0, 0⟩,
   ⟨.ACTZQ, .OSIMPLE, 0x7A, 0, 0⟩, ⟨.APOPCNTQ, .OSIMPLE, 0x7B, 0, 0⟩, ⟨.ATESTQ, .OSIMPLE, 0x50, 0, 0⟩,
   ⟨.ACMPEQQ, .OSIMPLE, 0x51, 0, 0⟩, ⟨.ACMPNEQ, .OSIMPLE, 0x52, 0, 0⟩, ⟨.ACMPLTQ, .OSIMPLE, 0x53, 0, 0⟩,
   ⟨.ACMPLTQU, .OSIMPLE, 0x54, 0, 0⟩, ⟨.ACMPGTQ, .OSIMPLE, 0x55, 0, 0⟩, ⟨.ACMPGTQU, .OSIMPLE, 0x56, 0, 0⟩,
   ⟨.ACMPLEQ, .OSIMPLE, 0x57, 0, 0⟩, ⟨.ACMPLEQU, .OSIMPLE, 0x58, 0, 0⟩, ⟨.ACMPGEQ, .OSIMPLE, 0x59, 0, 0⟩,
   ⟨.ACMPGEQU, .OSIMPLE, 0x5A, 0, 0⟩, ⟨.AADDF, .OSIMPLE, 0x92, 0, 0⟩, ⟨.ASUBF, .OSIMPLE, 0x93, 0, 0⟩,
   ⟨.AMULF, .OSIMPLE, 0x94, 0, 0⟩, ⟨.ADIVF, .OSIMPLE, 0x95, 0, 0⟩, ⟨.AMINF, .OSIMPLE, 0x96, 0, 0⟩,
   ⟨.AMAXF, .OSIMPLE, 0x97, 0, 0⟩, ⟨.ACOPYSGNF, .OSIMPLE, 0x98, 0, 0⟩, ⟨.AABSF, .OSIMPLE, 0x8B, 0, 0⟩,
   ⟨.ANEGF, .OSIMPLE, 0x8C, 0, 0⟩, ⟨.ASQRTF, .OSIMPLE, 0x91, 0, 0⟩, ⟨.ACEILF, .OSIMPLE, 0x8D, 0, 0⟩,
   ⟨.AFLOORF, .OSIMPLE, 0x8E, 0, 0⟩, ⟨.ATRUNCF, .OSIMPLE, 0x8F, 0, 0⟩, ⟨.ANEARF, .OSIMPLE, 0x90, 0, 0⟩,
   ⟨.ACMPEQF, .OSIMPLE, 0x5B, 0, 0⟩, ⟨.ACMPNEF, .OSIMPLE, 0x5C, 0, 0⟩, ⟨.ACMPLTF, .OSIMPLE, 0x5D, 0, 0⟩,
   ⟨.ACMPGTF, .OSIMPLE, 0x5E, 0, 0⟩, ⟨.ACMPLEF, .OSIMPLE, 0x5F, 0, 0⟩, ⟨.ACMPGEF, .OSIMPLE, 0x60, 0, 0⟩,
   ⟨.AADDD, .OSIMPLE, 0xA0, 0, 0⟩, ⟨.ASUBD, .OSIMPLE, 0xA1, 0, 0⟩, ⟨.AMULD, .OSIMPLE, 0xA2, 0, 0⟩,
   ⟨.ADIVD, .OSIMPLE, 0xA3, 0, 0⟩, ⟨.AMIND, .OSIMPLE, 0xA4, 0, 0⟩, ⟨.AMAXD, .OSIMPLE, 0xA5, 0, 0⟩,
   ⟨.ACOPYSGND, .OSIMPLE, 0xA6, 0, 0⟩, ⟨.AABSD, .OSIMPLE, 0x99, 0, 0⟩, ⟨.ANEGD, .OSIMPLE, 0x9A, 0, 0⟩,
   ⟨.ASQRTD, .OSIMPLE, 0x9F, 0, 0⟩, ⟨.ACEILD, .OSIMPLE, 0x9B, 0, 0⟩, ⟨.AFLOORD, .OSIMPLE, 0x9C, 0, 0⟩,
   ⟨.ATRUNCD, .OSIMPLE, 0x9D, 0, 0⟩, ⟨.ANEARD, .OSIMPLE, 0x9E, 0, 0⟩, ⟨.ACMPEQD, .OSIMPLE, 0x61, 0, 0⟩,
   ⟨.ACMPNED, .OSIMPLE, 0x62, 0, 0⟩, ⟨.ACMPLTD, .OSIMPLE, 0x63, 0, 0⟩, ⟨.ACMPGTD, .OSIMPLE, 0x64, 0, 0⟩,
   ⟨.ACMPLED, .OSIMPLE, 0x65, 0, 0⟩, ⟨.ACMPGED, .OSIMPLE, 0x66, 0, 0⟩, ⟨.AWRAPQ, .OSIMPLE, 0xA7, 0, 0⟩,
   ⟨.AEXTW, .OSIMPLE, 0xAC, 0, 0⟩, ⟨.AEXTWU, .OSIMPLE, 0xAD, 0, 0⟩, ⟨.ACONVWF, .OSIMPLE, 0xB2, 0, 0⟩,
   ⟨.ACONVWUF, .OSIMPLE, 0xB3, 0, 0⟩, ⟨.ACONVWD, .OSIMPLE, 0xB7, 0, 0⟩, ⟨.ACONVWUD, .OSIMPLE, 0xB8, 0, 0⟩,
   ⟨.ACONVQF, .OSIMPLE, 0xB4, 0, 0⟩, ⟨.ACONVQUF, .OSIMPLE, 0xB5, 0, 0⟩, ⟨.ACONVQD, .OSIMPLE, 0xB9, 0, 0⟩,
   ⟨.ACONVQUD, .OSIMPLE, 0xBA, 0, 0⟩, ⟨.ATRUNCFW, .OSIMPLE, 0xA8, 0, 0⟩, ⟨.ATRUNCFWU, .OSIMPLE, 0xA9, 0, 0⟩,
   ⟨.ATRUNCFQ, .OSIMPLE, 0xAE, 0, 0⟩, ⟨.ATRUNCFQU, .OSIMPLE, 0xAF, 0, 0⟩, ⟨.ATRUNCDW, .OSIMPLE, 0xAA, 0, 0⟩,
   ⟨.ATRUNCDWU, .OSIMPLE, 0xAB, 0, 0⟩, ⟨.ATRUNCDQ, .OSIMPLE, 0xB0, 0, 0⟩, ⟨.ATRUNCDQU, .OSIMPLE, 0xB1, 0, 0⟩,
   ⟨.APROMOTE, .OSIMPLE, 0xBB, 0, 0⟩, ⟨.ADEMOTE, .OSIMPLE, 0xB6, 0, 0⟩, ⟨.AREINTWF, .OSIMPLE, 0xBE, 0, 0⟩,
   ⟨.AREINTFW, .OSIMPLE, 0xBC, 0, 0⟩, ⟨.AREINTQD, .OSIMPLE, 0xBF, 0, 0⟩, ⟨.AREINTDQ, .OSIMPLE, 0xBD, 0, 0⟩]

/-- What ends a run without output: a stop while reading, errors reported while reading,
a diagnosis of el/asm.c or el/optab.c, or a read outside an object. -/
inductive Stop where
  | reading (stop : WasmObj.Stop)
  | errors
  | opcode | signatureChar | signatures | undefined | relocation | addressOf
  | fault
  deriving DecidableEq

def oplook (as : UInt8) : Except Stop Optab :=
  match optab.find? fun o => o.as.code = as with
  | some o => .ok o
  | none => .error .opcode

/-! Numbers and buffers. -/

/-- Seven bits a byte; the last byte has its high bit clear. -/
def ulebfrom : Nat → Nat → List UInt8
  | 0, _ => []
  | fuel + 1, v =>
    let byte := UInt8.ofNat (v % 128)
    if v / 128 ≠ 0 then (byte ||| 0x80) :: ulebfrom fuel (v / 128) else [byte]

def bbuleb (v : Nat) : List UInt8 := ulebfrom (v + 1) v

def slebfrom : Nat → Int → List UInt8
  | 0, _ => []
  | fuel + 1, v =>
    let byte := UInt8.ofNat (v % 128).toNat
    if v / 128 = 0 ∧ byte &&& 0x40 = 0 ∨ v / 128 = -1 ∧ byte &&& 0x40 ≠ 0 then [byte]
    else (byte ||| 0x80) :: slebfrom fuel (v / 128)

def bbsleb (v : Int) : List UInt8 := slebfrom (v.natAbs + 1) v

/-- A `long` that is passed on as a `uvlong`. -/
def widen (l : Int64) : Nat := l.toUInt64.toNat

def bbname (s : List UInt8) : List UInt8 := bbuleb s.length ++ s

def emitsection (id : UInt8) (bb : List UInt8) : List UInt8 := id :: (bbuleb bb.length ++ bb)

/-! Signatures. -/

def valtype (c : UInt8) : Except Stop UInt8 :=
  match c with
  | 87 => .ok 0x7F
  | 81 => .ok 0x7E
  | 70 => .ok 0x7D
  | 68 => .ok 0x7C
  | _ => .error .signatureChar

/-- Whether two arrays of characters hold the same string. -/
def strcmp : List UInt8 → List UInt8 → Except Stop Bool
  | a :: as, b :: bs => if a ≠ b then .ok false else if a = 0 then .ok true else strcmp as bs
  | _, _ => .error .fault

/-- An array of `n` characters, from an array of as many or from a string. -/
def strncpy (n : Nat) (s : List UInt8) : List UInt8 :=
  let text := (s.takeWhile (· ≠ 0)).take n
  text ++ List.replicate (n - text.length) 0

/-- The loop of `sigindex` over the rows of `sigtab[]` from row `i` on. -/
def sigfind (sig : List UInt8) : Nat → List (List UInt8) → Except Stop (Option Nat)
  | _, [] => .ok none
  | i, row :: rows => do
    if ← strcmp row sig then return some i
    sigfind sig (i + 1) rows

/-- The first `nsigs` rows of `sigtab[]` are kept. -/
def sigindex (sigtab : List (List UInt8)) (sig : List UInt8) : Except Stop (Nat × List (List UInt8)) := do
  match ← sigfind sig 0 sigtab with
  | some i => return (i, sigtab)
  | none => if sigtab.length ≥ MAXSIG then .error .signatures else return (sigtab.length, sigtab ++ [strncpy NSNAME sig])

def sigindexes : List (List UInt8) → List (List UInt8) → Except Stop (List Nat × List (List UInt8))
  | sigtab, [] => .ok ([], sigtab)
  | sigtab, sig :: sigs => do
    let (i, sigtab) ← sigindex sigtab sig
    let (is, sigtab) ← sigindexes sigtab sigs
    return (i :: is, sigtab)

def emitresult (c : UInt8) : Except Stop (List UInt8) :=
  if c = 86 then .ok (bbuleb 0) else do return bbuleb 1 ++ [← valtype c]

/-- `back` is the byte in front of the signature, which an empty one reads as its result. -/
def emittype (back : Option UInt8) (sig : List UInt8) : Except Stop (List UInt8) := do
  if 0 ∉ sig then throw .fault
  let text := sig.takeWhile (· ≠ 0)
  let nparam : Int := text.length - 1
  let params ← text.dropLast.mapM valtype
  match text.getLast?.or back with
  | none => throw .fault
  | some c =>
    let results ← emitresult c
    return 0x60 :: (bbuleb (nparam % 2 ^ 64).toNat ++ params ++ results)

def emittypes : Option UInt8 → List (List UInt8) → Except Stop (List (List UInt8))
  | _, [] => .ok []
  | back, sig :: sigtab => do
    let entry ← emittype back sig
    let entries ← emittypes sig.getLast? sigtab
    return entry :: entries

/-! Symbols. `hash[]` is kept as the list of its symbols, the newest first: a bucket has its own in this order. -/

/-- `h` of `lookup`: a `ulong`, with the characters signed. -/
def hashname (s : Sym) : Nat :=
  (s.name.val.foldl (fun h c => h * 37 + c.toInt8.toInt64.toUInt64) (UInt64.ofNat s.version)).toNat % NHASH

def lookup (table : List Sym) (s : Sym) : List Sym := if s ∈ table then table else s :: table

/-- Whether `inopd` reports the index of the operand at `p`. -/
def stray : List UInt8 → Bool
  | _ :: _ :: symidx :: _ => NSYM ≤ symidx.toNat
  | _ => false

/-- What the loop of `readobj` enters in `hash[]`, and how many indices it reports. -/
def entries (version : Nat) : Nat → List UInt8 → List Sym → Except WasmObj.Stop (List Sym × Nat)
  | _, [], table => .ok (table, 0)
  | 0, _ :: _, _ => .error .fault
  | fuel + 1, op :: p, table =>
    if op = ANAME then
      match p with
      | name :: _ :: text =>
        match Bytes.cstring text with
        | none => .error .truncatedName
        | some (n, p) => entries version fuel p (lookup table ⟨n, if name = D.D_STATIC.code then version else 0⟩)
      | _ => .error .truncatedName
    else
      match p with
      | _ :: p => do
        let (_, p) ← Bytes.get4 .fault p
        let (_, q) ← inopd p fun _ => none
        let (_, r) ← inopd q fun _ => none
        let strays := (stray p).toNat + (stray q).toNat
        if op = AEND then return (table, strays)
        let (table, more) ← entries version fuel r table
        return (table, strays + more)
      | _ => .error .fault

def empty : Link where
  type _ := .SNONE
  data _ _ := 0
  datasize _ := 0
  texts := []
  datarelocs := []
  nerrors := 0

/-- The loop of `main` over the files, and the symbols in `hash[]`. -/
def readobjs : Nat → List (List UInt8) → Link → List Sym → Except WasmObj.Stop (Link × List Sym)
  | _, [], s, table => .ok (s, table)
  | version, file :: files, s, table => do
    let s ← readobj (version + 1) file s
    let (table, strays) ← entries (version + 1) file.length file table
    readobjs (version + 1) files { s with nerrors := s.nerrors + strays } table

/-- A `-I` flag, taken apart. -/
structure Flag where
  symname : Name
  module : Name
  field : Name
  sig : Option Name

def DEFAULTIMPORTSIG : Name := ⟨[87, 87, 87, 87, 87], by decide⟩

structure Import where
  symname : Name
  module : Name
  field : Name
  sig : List UInt8

def addimport (f : Flag) : Import := ⟨f.symname, f.module, f.field, strncpy (NSNAME - 1) (f.sig.getD DEFAULTIMPORTSIG).val ++ [0]⟩

/-! Layout. -/

def collectsyms (s : Link) (table : List Sym) : List Sym :=
  (((List.range NHASH).flatMap fun i => table.filter fun sym => hashname sym = i).filter fun sym => s.type sym = .SBSS).reverse

/-- `(size + 3) & ~3`. -/
def align4 (size : Int) : Int := (size + 3) / 4 * 4

/-- Each symbol's `value`, and `arenaend`. -/
def place (s : Link) : Int → List Sym → (Sym → Int) → (Sym → Int) × Int
  | off, [], value => (value, off)
  | off, sym :: rest, value => place s (off + align4 (s.datasize sym)) rest (Function.update value sym off)

def relocate (value : Sym → Int) (s : Link) (dr : DataReloc) : Except Stop Link :=
  if s.type dr.refsym ≠ .SBSS then .error .relocation
  else
    match store s dr.targetsym dr.targetoff (Bytes.split dr.width (value dr.refsym + dr.addend.toInt)) with
    | .ok s => .ok s
    | .error _ => .error .fault

/-! Functions. -/

def resolvecall (imports : List Import) (texts : List Text) : Option Sym → Except Stop Nat
  | none => .error .fault
  | some s =>
    match texts.findIdx? fun t => t.sym = s with
    | some k => .ok (imports.length + k)
    | none =>
      match imports.findIdx? fun im => im.symname = s.name with
      | some k => .ok k
      | none => .error .undefined

def offset (a : Operand) : Except Stop Int64 :=
  match a.value with
  | .offset l => .ok l
  | _ => .error .fault

def symaddr (s : Link) (value : Sym → Int) (sym : Sym) (a : Operand) : Except Stop Int :=
  if a.name = D.D_EXTERN.code ∨ a.name = D.D_STATIC.code then
    if s.type sym ≠ .SBSS then .error .addressOf
    else do return value sym + (← offset a).toInt
  else .error .addressOf

/-- What `emitinstr` goes by: the conversion of a `double` to a `float`, and what was linked. -/
structure Env where
  float : Double → UInt32
  s : Link
  value : Sym → Int
  imports : List Import
  texts : List Text

/-- The number of an integer constant. -/
def intconst (e : Env) (a : Operand) : Except Stop Int :=
  match a.type, a.value, a.sym with
  | .D_VCONST, .vval v, _ => .ok v.toInt
  | .D_VCONST, _, _ => .error .fault
  | _, _, some sym => symaddr e.s e.value sym a
  | _, _, none => do return (← offset a).toInt

/-- The bytes of a floating point constant. -/
def floatconst (e : Env) (o : Optab) (a : Operand) : Except Stop (List UInt8) :=
  match a.value with
  | .dval d => .ok (if o.fsize = 4 then Bytes.split 4 (e.float d).toNat else Bytes.split 8 d.toNat)
  | _ => .error .fault

/-- What is written behind the opcode. -/
def emitoperand (e : Env) (o : Optab) (a : Operand) : Except Stop (List UInt8) :=
  match o.kind with
  | .OSIMPLE => .ok []
  | .OSIMPLE2 => .ok [o.op2]
  | .OBR | .OLOCAL | .OGLOBAL => do return bbuleb (widen (← offset a))
  | .OCALL => do return bbuleb (← resolvecall e.imports e.texts a.sym)
  | .OCONSTI => do return bbsleb (← intconst e a)
  | .OCONSTF => floatconst e o a
  | .OMEM => do return bbuleb 0 ++ bbuleb (widen (← offset a))

def emitinstr (e : Env) (ip : UInt8 × Operand × Operand) : Except Stop (List UInt8) := do
  let o ← oplook ip.1
  return o.op :: (← emitoperand e o ip.2.2)

/-! `asmb`. -/

/-- "_start" -/
def start : Sym := ⟨⟨[95, 115, 116, 97, 114, 116], by decide⟩, 0⟩

/-- "memory" -/
def memory : List UInt8 := [109, 101, 109, 111, 114, 121]

def importentry (im : Import) (type : Nat) : List UInt8 := bbname im.module.val ++ bbname im.field.val ++ 0x00 :: bbuleb type

def exportentry (name : List UInt8) (kind : UInt8) (index : Nat) : List UInt8 := bbname name ++ kind :: bbuleb index

def startexport (e : Env) : Except Stop (List (List UInt8)) :=
  if e.s.type start = .STEXT then do return [exportentry start.name.val 0x00 (← resolvecall e.imports e.texts (some start))]
  else .ok []

/-- The loop over the texts, with the index of the first. -/
def textexports (s : Link) : Nat → List Text → List (List UInt8)
  | _, [] => []
  | idx, t :: texts =>
    if s.type start = .STEXT ∧ t.sym = start then textexports s (idx + 1) texts
    else exportentry t.sym.name.val 0x00 idx :: textexports s (idx + 1) texts

def locals (t : Text) : List UInt8 :=
  if 0 < t.framesize then bbuleb 1 ++ (bbuleb (widen t.framesize) ++ [0x7F]) else bbuleb 0

def emitbody (e : Env) (t : Text) : Except Stop (List UInt8) := do
  let instrs ← t.instrs.mapM (emitinstr e)
  let body := locals t ++ (instrs.flatten ++ [0x0B])
  return bbuleb body.length ++ body

/-- `memmove` of a symbol's data to its place in the arena. -/
def movedata (s : Link) (value : Sym → Int) (arena : Int → UInt8) (sym : Sym) : Int → UInt8 := fun i =>
  if value sym - ARENABASE ≤ i ∧ i < value sym - ARENABASE + s.datasize sym then s.data sym (i - (value sym - ARENABASE)) else arena i

def arena (s : Link) (value : Sym → Int) (allsyms : List Sym) (arenaend : Int) : List UInt8 :=
  (List.range (arenaend - ARENABASE).toNat).map fun i : Nat => allsyms.foldl (movedata s value) (fun _ => 0) i

/-- A constant expression for an offset. -/
def constant (v : Int) : List UInt8 := 0x41 :: (bbsleb v ++ [0x0B])

def asmb (e : Env) (allsyms : List Sym) (arenaend : Int) : Except Stop (List UInt8) := do
  let (_, sigtab) ← sigindexes [] (e.texts.map Text.sig ++ e.imports.map Import.sig)
  let types ← emittypes none sigtab
  let (importtypes, later) ← sigindexes sigtab (e.imports.map Import.sig)
  let (texttypes, _) ← sigindexes later (e.texts.map Text.sig)
  let first ← startexport e
  let bodies ← e.texts.mapM (emitbody e)
  let imports := List.zipWith importentry e.imports importtypes
  let exports := exportentry memory 0x02 0 :: (first ++ textexports e.s e.imports.length e.texts)
  let bytes := arena e.s e.value allsyms arenaend
  return [0x00, 0x61, 0x73, 0x6D, 1, 0, 0, 0]
    ++ emitsection 1 (bbuleb sigtab.length ++ types.flatten)
    ++ (if e.imports.length > 0 then emitsection 2 (bbuleb e.imports.length ++ imports.flatten) else [])
    ++ emitsection 3 (bbuleb e.texts.length ++ (texttypes.map bbuleb).flatten)
    ++ emitsection 5 (bbuleb 1 ++ 0x00 :: bbuleb 1)
    ++ emitsection 6 (bbuleb 1 ++ 0x7F :: 0x01 :: constant WASMPAGESIZE)
    ++ emitsection 7 (bbuleb (1 + e.texts.length) ++ exports.flatten)
    ++ emitsection 10 (bbuleb e.texts.length ++ bodies.flatten)
    ++ emitsection 11 (bbuleb 1 ++ 0x00 :: (constant ARENABASE ++ (bbuleb bytes.length ++ bytes)))

/-- What was linked, laid out and written. -/
structure Output where
  s : Link
  imports : List Import
  allsyms : List Sym
  value : Sym → Int
  arenaend : Int
  bytes : List UInt8

def Output.texts (o : Output) : List Text := o.s.texts.reverse

/-- `main`. A symbol's `version` is a short, so this is for fewer than 2^15 files. -/
def link (float : Double → UInt32) (flags : List Flag) (files : List (List UInt8)) : Except Stop Output := do
  match readobjs 0 files empty [] with
  | .error stop => throw (.reading stop)
  | .ok (s, table) =>
    if s.nerrors ≠ 0 then throw .errors
    let imports := (flags.map addimport).reverse
    let allsyms := collectsyms s table
    let (value, arenaend) := place s ARENABASE allsyms fun _ => 0
    let s ← s.datarelocs.foldlM (relocate value) s
    let bytes ← asmb ⟨float, s, value, imports, s.texts.reverse⟩ allsyms arenaend
    return ⟨s, imports, allsyms, value, arenaend, bytes⟩

end Goken.WasmLink
