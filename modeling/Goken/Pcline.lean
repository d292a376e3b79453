import Goken.Lib.Bytes

/-! The table of source lines in an executable. The linkers 5l and il write it from the
final list of instructions, one byte for a run of instruction words and one or five
for a change of line; libmach reads it back to find the line of an address and the
address of a line. -/

namespace Goken.Pcline
open Lib.Bytes

inductive As where
  | text
  | nop
  | other
deriving DecidableEq, Repr

structure Prog where
  as : As
  pc : Int
  line : Int
deriving DecidableEq, Repr

def Prog.instruction (p : Prog) : Bool := p.as ≠ .text ∧ p.as ≠ .nop

/-! The writer. -/

def minlc : Int := 4

def cput (c : Int) : UInt8 := low c

/-- The loop over the distance, which each turn brings closer to zero. -/
def quanta : Nat → Int → List UInt8
  | 0, _ => []
  | left + 1, v =>
      if v = 0 then [] else
        let s := if v < 127 then v else 127
        cput (s + 128) :: quanta left (v - s)

def linechange (s : Int) : List UInt8 :=
  if s > 64 ∨ s < -64 then
    [cput 0, cput (s >>> (24 : Nat)), cput (s >>> (16 : Nat)), cput (s >>> (8 : Nat)), cput s]
  else if s > 0 then [cput (0 + s)]
  else [cput (64 - s)]

def asmlcFrom (oldpc oldlc : Int) : List Prog → List UInt8
  | [] => []
  | p :: ps =>
      if p.line = oldlc ∨ p.as = .text ∨ p.as = .nop then asmlcFrom oldpc oldlc ps
      else
        let v := (p.pc - oldpc).tdiv minlc
        quanta v.natAbs v ++ linechange (p.line - oldlc) ++ asmlcFrom (p.pc + minlc) p.line ps

/-- Padded to an even number of bytes. -/
def padding (table : List UInt8) : List UInt8 := if table.length % 2 = 1 then table ++ [cput 129] else table

/-- The two linkers: il with or without compressed instructions. -/
inductive Linker where
  | five
  | il (compressed : Bool)
deriving DecidableEq, Repr

/-- Where the writer starts: 5l counts addresses, il offsets into the text. -/
def Linker.oldpc (l : Linker) (inittext : Int) : Int :=
  match l with
  | .five => inittext
  | .il _ => 0

def Linker.address (l : Linker) (inittext : Int) (p : Prog) : Int :=
  match l with
  | .five => p.pc
  | .il _ => p.pc + inittext

/-- The smallest instruction. -/
def Linker.unit (l : Linker) : Int :=
  match l with
  | .il true => 2
  | _ => 4

def asmlc (l : Linker) (inittext : Int) (ps : List Prog) : List UInt8 := padding (asmlcFrom (l.oldpc inittext) 0 ps)

/-! The reader. -/

def uvlong (x : Int) : Int := x % 2 ^ 64

def int32 (x : Int) : Int := (x + 2 ^ 31) % 2 ^ 32 - 2 ^ 31

def pcquant : Int := 4

structure Image where
  txtstart : Int
  txtend : Int
  firstinstr : Int
  pcline : List UInt8

structure Place where
  currpc : Int
  currline : Int
deriving DecidableEq, Repr

def Place.short (s : Place) (u : UInt8) : Place :=
  if u < 65 then ⟨uvlong (s.currpc + pcquant), int32 (s.currline + u.toNat)⟩
  else if u < 129 then ⟨uvlong (s.currpc + pcquant), int32 (s.currline - (u.toNat - 64))⟩
  else ⟨uvlong (uvlong (s.currpc + pcquant * (u.toNat - 129)) + pcquant), s.currline⟩

def Place.long (s : Place) (c1 c2 c3 c4 : UInt8) : Place :=
  ⟨uvlong (s.currpc + pcquant),
    int32 (s.currline + int32 (c1.toNat * 2 ^ 24 + c2.toNat * 2 ^ 16 + c3.toNat * 2 ^ 8 + c4.toNat))⟩

/-- The loop of `pc2line`; nothing when it would read past the table. -/
def walk (pc : Int) (s : Place) : List UInt8 → Option Int
  | [] => some s.currline
  | u :: c =>
      if s.currpc < pc then
        if u = 0 then
          match c with
          | c1 :: c2 :: c3 :: c4 :: c => walk pc (s.long c1 c2 c3 c4) c
          | _ => none
        else walk pc (s.short u) c
      else some s.currline

def pc2line (im : Image) (pc : Int) : Option Int :=
  if im.pcline = [] then some (-1) else
    let currpc := uvlong (if im.firstinstr ≠ 0 then im.firstinstr - pcquant else im.txtstart - pcquant)
    if pc < currpc ∨ pc > im.txtend then some (-1)
    else walk pc ⟨currpc, 0⟩ im.pcline

structure Search where
  pc : Int
  delta : Int
  found : Bool
deriving DecidableEq, Repr

def Search.consider (line basepc : Int) (r : Search) (s : Place) : Search :=
  if s.currpc ≥ basepc then
    let d := if s.currline ≥ line then int32 (s.currline - line) else int32 (line - s.currline)
    let found := if s.currline ≥ line then true else r.found
    if d < r.delta then ⟨s.currpc, d, found⟩ else { r with found }
  else r

def scan (line basepc endpc : Int) (r : Search) (s : Place) : List UInt8 → Option Search
  | [] => some r
  | u :: c =>
      if endpc ≠ 0 ∧ s.currpc ≥ endpc then some r
      else if u = 0 then
        match c with
        | c1 :: c2 :: c3 :: c4 :: c => scan line basepc endpc (r.consider line basepc s) (s.long c1 c2 c3 c4) c
        | _ => none
      else scan line basepc endpc (r.consider line basepc s) (s.short u) c

/-- The address that stands for none. -/
def noaddr : Int := 2 ^ 64 - 1

def hugeint : Int := 0x7fffffff

def line2addr (im : Image) (line basepc endpc : Int) : Option Int :=
  if im.pcline = [] ∨ line = 0 then some noaddr
  else (scan line basepc endpc ⟨noaddr, hugeint, false⟩ ⟨uvlong (im.txtstart - pcquant), 0⟩ im.pcline).map fun r =>
    if r.found then r.pc else noaddr

end Goken.Pcline
