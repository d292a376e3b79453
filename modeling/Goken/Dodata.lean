import Goken.Lib.Sweep

/-! Data layout of the ARM linker: `dodata` (5l/layout.c). The symbols stand in the order
in which the loops over the hash table meet them. Sums of sizes are taken to fit in a
`long`. -/

namespace Goken.Dodata
open Lib.Sweep

/-- `enum Section`. -/
inductive Section where
  | SNONE | STEXT | SDATA | SBSS | SXREF | SFILE | SIMPORT | SEXPORT | SUNDEF | SDATA1 | SSTRING
  deriving DecidableEq, Repr

structure Sym where
  name : String
  version : Nat
  type : Section
  value : Int
  deriving DecidableEq, Repr

/-- A `DATA` instruction: the place of its symbol, the offset and the size in `reg`, and
whether it has a string. -/
structure Data where
  sym : Nat
  offset : Int
  reg : Int
  string : Bool
  deriving DecidableEq, Repr

/-- "initialize non-data", "initialize bounds" and "no size". -/
inductive Diag where
  | nonData (sym : Nat)
  | bounds (sym : Nat)
  | noSize (name : String)
  deriving DecidableEq, Repr

def MINSIZ : Int := 64

def rnd (v r : Int) : Int :=
  if r ≤ 0 then v
  else
    let v := v + (r - 1)
    let c := v.tmod r
    let c := if c < 0 then c + r else c
    v - c

/-- The loop over the `DATA` instructions: its body, and the loop. -/
def data (symbols : List Sym) (p : Data) : List Sym × List Diag :=
  match symbols[p.sym]? with
  | none => (symbols, [])
  | some s =>
    let s := if s.type = .SBSS then { s with type := .SDATA } else s
    (symbols.set p.sym s,
      (if s.type ≠ .SDATA then [.nonData p.sym] else []) ++ (if p.offset + p.reg > s.value then [.bounds p.sym] else []))

def datas : List Sym → List Data → List Sym × List Diag
  | symbols, [] => (symbols, [])
  | symbols, p :: ps =>
    let (symbols, diags) := data symbols p
    let (symbols, more) := datas symbols ps
    (symbols, diags ++ more)

/-- Pull out string constants. -/
def strings (symbols : List Sym) (datap : List Data) : List Sym :=
  datap.foldl (fun symbols p => if p.string then symbols.modify p.sym (fun s => { s with type := .SSTRING }) else symbols) symbols

def sized (s : Sym) : Int := rnd (if s.value = 0 then 1 else s.value) 4

/-- Align, and assign small variables to the data segment. -/
def pass1 (orig : Int) (s : Sym) : Sym × Int :=
  if s.type = .SDATA ∨ s.type = .SBSS then
    if sized s ≤ MINSIZ then ({ s with value := orig, type := .SDATA1 }, orig + sized s)
    else ({ s with value := sized s }, orig)
  else (s, orig)

/-- Assign large data variables to the data segment. -/
def pass2 (orig : Int) (s : Sym) : Sym × Int :=
  if s.type = .SDATA then ({ s with value := orig }, orig + s.value)
  else if s.type = .SDATA1 then ({ s with type := .SDATA }, orig)
  else (s, orig)

/-- Everything else to the bss segment. -/
def pass3 (orig : Int) (s : Sym) : Sym × Int :=
  if s.type = .SBSS then ({ s with value := orig }, orig + s.value) else (s, orig)

def noSizes (symbols : List Sym) : List Diag :=
  symbols.flatMap fun s => if (s.type = .SDATA ∨ s.type = .SBSS) ∧ s.value = 0 then [.noSize s.name] else []

/-- A symbol that is defined unless the program has defined it. -/
def xdefine (symbols : List Sym) (name : String) (t : Section) (v : Int) : List Sym :=
  if symbols.any (fun s => s.name = name ∧ s.version = 0) then
    symbols.map fun s =>
      if s.name = name ∧ s.version = 0 ∧ (s.type = .SNONE ∨ s.type = .SXREF) then { s with type := t, value := v } else s
  else symbols ++ [⟨name, 0, t, v⟩]

structure Laid where
  symbols : List Sym
  datsize : Int
  bsssize : Int
  diags : List Diag
  deriving DecidableEq, Repr

/-- `BIG` of 5l. -/
def BIG : Int := 4096 - 4

/-- The symbols before the passes. -/
def prepared (t : Bool) (symbols : List Sym) (datap : List Data) : List Sym :=
  if t then strings (datas symbols datap).1 datap else (datas symbols datap).1

/-- The three passes and the sizes. -/
def assigned (symbols : List Sym) : List Sym × Int × Int :=
  let (symbols, orig) := sweep pass1 0 symbols
  let (symbols, orig) := sweep pass2 orig symbols
  let datsize := rnd orig 8
  let (symbols, orig) := sweep pass3 datsize symbols
  (symbols, datsize, rnd orig 8 - datsize)

/-- With the option `-t` strings go to the text segment. -/
def dodata (t : Bool) (symbols : List Sym) (datap : List Data) : Laid :=
  let ready := prepared t symbols datap
  let (placed, datsize, bsssize) := assigned ready
  let placed := xdefine placed "bdata" .SDATA 0
  let placed := xdefine placed "edata" .SDATA datsize
  let placed := xdefine placed "end" .SBSS (datsize + bsssize)
  let placed := xdefine placed "etext" .STEXT 0
  let placed := xdefine placed "setR12" .SDATA BIG
  ⟨placed, datsize, bsssize, (datas symbols datap).2 ++ noSizes ready⟩

end Goken.Dodata
