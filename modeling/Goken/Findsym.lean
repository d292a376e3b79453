import Goken.Qsort

/-! The symbol tables of libmach: the text and the data symbols of an executable, sorted
by address, and the binary searches for the symbol that holds an address. -/

namespace Goken.Findsym
open Qsort

structure Sym where
  value : UInt64
  type : Char
  name : List UInt8
deriving DecidableEq, Repr

/-- A 64-bit difference returned as an `int`. -/
def int (x : UInt64) : Int := ((x.toNat : Int) + 2 ^ 31) % 2 ^ 32 - 2 ^ 31

def strcmp : List UInt8 → List UInt8 → Int
  | [], [] => 0
  | _ :: _, [] => 1
  | [], _ :: _ => -1
  | c1 :: s1, c2 :: s2 => if c1 ≠ c2 then if c1 > c2 then 1 else -1 else strcmp s1 s2

def symcomp (a b : Sym) : Int :=
  let i := int (a.value - b.value)
  if i ≠ 0 then i else strcmp a.name b.name

def txtcomp (a b : Sym) : Int := int (a.value - b.value)

def Sym.istext (p : Sym) : Bool := p.type = 'T' ∨ p.type = 't' ∨ p.type = 'L' ∨ p.type = 'l'

def Sym.isglobal (p : Sym) : Bool := p.type = 'D' ∨ p.type = 'd' ∨ p.type = 'B' ∨ p.type = 'b'

structure Tables where
  txt : List Sym
  globals : List Sym
deriving DecidableEq, Repr

def buildtbls (symbols : List Sym) : Tables where
  txt := qsort txtcomp (symbols.filter Sym.istext)
  globals := qsort symcomp (symbols.filter Sym.isglobal)

/-- The loop of the two searches, which differ in how they test for the last index.
Nothing when the loop does not end, or looks outside the table. -/
def search (more : Int → Int → Bool) (table : List Sym) (val : UInt64) : Nat → Nat → Nat → Option Int
  | 0, _, _ => none
  | turns + 1, bot, top =>
      let mid := (bot + top) / 2
      if mid < top then
        table[mid]?.bind fun sp =>
          if val < sp.value then search more table val turns bot mid
          else if more mid table.length then
            table[mid + 1]?.bind fun next =>
              if val ≥ next.value then search more table val turns mid top else some (mid : Int)
          else some (mid : Int)
      else some (-1)

def srchtext (t : Tables) (addr : UInt64) : Option Int :=
  search (fun mid n => mid ≠ n - 1) t.txt addr (t.txt.length + 1) 0 t.txt.length

def srchdata (t : Tables) (addr : UInt64) : Option Int :=
  search (fun mid n => mid < n - 1) t.globals addr (t.globals.length + 1) 0 t.globals.length

inductive SymClass where
  | ctext
  | cdata
  | cany
  | other
deriving DecidableEq, Repr

def findtextsym (t : Tables) (val : UInt64) (type : SymClass) : Option (Option (Sym × Int)) :=
  if type = .ctext ∨ type = .cany then
    (srchtext t val).map fun (i : Int) =>
      if i ≥ 0 ∧ (type = .ctext ∨ i ≠ t.txt.length - 1) then (t.txt[i.toNat]?).map fun s => (s, i) else none
  else some none

def finddatasym (t : Tables) (val : UInt64) (type : SymClass) : Option (Option (Sym × Int)) :=
  if type = .cdata ∨ type = .cany then
    (srchdata t val).map fun (i : Int) => if i ≥ 0 then (t.globals[i.toNat]?).map fun s => (s, i) else none
  else some none

/-- The symbol and its index in its table. -/
def findsym (t : Tables) (val : UInt64) (type : SymClass) : Option (Option (Sym × Int)) :=
  (findtextsym t val type).bind fun
    | some found => some (some found)
    | none => finddatasym t val type

def fnbound (t : Tables) (addr : UInt64) : Option (Option (UInt64 × UInt64)) :=
  (srchtext t addr).map fun (i : Int) =>
    if 0 ≤ i ∧ i < t.txt.length - 1 then
      (t.txt[i.toNat]?).bind fun first => (t.txt[i.toNat + 1]?).map fun next => (first.value, next.value)
    else none

end Goken.Findsym
