import Goken.Findsym
import Goken.Lib.Slots

/-! libmach's symbol tables: `syminit`, which reads the records of an executable's symbol
table and counts their kinds, and `buildtbls`, which makes the sorted tables of arrays
that are sized by the counts. An access outside an array, or through a pointer that was
never set, is a fault. Pointers are 64 bits wide. -/

namespace Goken.Syminit
open Findsym Qsort Lib.Slots

def NNAME : Nat := 20
def HDR_MAGIC : UInt32 := 0x8000
def FNONE : Nat := 0

/-- The largest line that a buffer holds. -/
def Bsize : Nat := 8 * 1024

structure Fhdr where
  type : Nat
  _magic : UInt8
  magic : UInt32
  txtaddr : UInt64
  txtsz : Int
  symoff : Nat
  sppcoff : Nat
  lnpcoff : Nat
  symsz : Int
  sppcsz : Int
  lnpcsz : Int

/-- What is allocated; `name` is that of the record. -/
inductive Block where
  | symbols
  | name (record : Nat)
  | spoff
  | pcline
  | globals
  | txt
  | fnames
  | files
  | hist
  | autos
deriving DecidableEq, Repr

/-- Whether the memory has room for so many elements of the block. -/
abbrev Room := Block → Int → Bool

/-- The size of a negative number of elements is beyond any memory. -/
def malloc (room : Room) (b : Block) (n : Int) : Bool := 0 ≤ n ∧ room b n

def int32 (x : Int) : Int := (x + 2 ^ 31) % 2 ^ 32 - 2 ^ 31

def vlong (v : UInt64) : Int := if v.toNat < 2 ^ 63 then v.toNat else (v.toNat : Int) - 2 ^ 64

structure Statics where
  symbols : List Sym := []
  nglob : Nat := 0
  ntxt : Nat := 0
  nauto : Nat := 0
  nhist : Nat := 0
  nfiles : Nat := 0
  fmaxi : Int := 0
  isbuilt : Bool := false
  spoff : Option (List UInt8) := none
  pcline : Option (List UInt8) := none
  txtstart : UInt64 := 0
  txtend : UInt64 := 0
deriving DecidableEq, Repr

inductive Outcome where
  | fails (st : Statics)
  | fault
  | returns (st : Statics)
deriving DecidableEq, Repr

/-! The records. -/

def bread (n : Nat) (bytes : List UInt8) : Option (List UInt8 × List UInt8) :=
  if bytes.length < n then none else some (bytes.take n, bytes.drop n)

/-- The bytes up to and with the first zero one, which must be in the first `Bsize`. -/
def brdline (bytes : List UInt8) : Option (List UInt8 × List UInt8) :=
  let n := bytes.findIdx (· = 0)
  if n < bytes.length ∧ n < Bsize then some (bytes.take (n + 1), bytes.drop (n + 1)) else none

/-- The length of the pairs of bytes up to and with the first that is zero. -/
def pairs : List UInt8 → Option Nat
  | c1 :: c2 :: bytes => if c1 = 0 ∧ c2 = 0 then some 2 else (pairs bytes).map (· + 2)
  | _ => none

/-- The type without its flag, the name as it is stored, what the name counts for, and
what is behind it. -/
def decodename (room : Room) (record : Nat) (type : UInt8) (bytes : List UInt8) :
    Option (Char × List UInt8 × Int × List UInt8) :=
  let c := Char.ofNat (type &&& 0x7f).toNat
  if type &&& 0x80 = 0 then
    if malloc room (.name record) NNAME then
      (bread NNAME bytes).map fun (name, bytes) => (c, name, NNAME + 3, bytes.drop 3)
    else none
  else if c = 'z' ∨ c = 'Z' then
    (pairs bytes.tail).bind fun length =>
      let n := int32 (length + 1)
      if malloc room (.name record) n then
        let name := (bytes.take (length + 1)).drop (length + 1 - n.toNat)
        some (c, name, n, bytes.drop (length + 1))
      else none
  else
    (brdline bytes).bind fun (line, bytes) =>
      if malloc room (.name record) line.length then some (c, line, line.length, bytes) else none

def Fhdr.wide (fp : Fhdr) : Bool := fp._magic ≠ 0 ∧ fp.magic &&& HDR_MAGIC ≠ 0

def Fhdr.svalsz (fp : Fhdr) : Nat := if fp.wide then 8 else 4

def beswav (bytes : List UInt8) : UInt64 := bytes.foldl (fun v b => v <<< 8 ||| b.toUInt64) 0

/-- The rest of a record whose value has been read. -/
def symbol (room : Room) (record : Nat) (value : List UInt8) (bytes : List UInt8) : Option (Sym × Int × List UInt8) :=
  match bytes with
  | [] => none
  | type :: bytes =>
      (decodename room record type bytes).map fun (c, name, n, bytes) => (⟨beswav value, c, name⟩, n, bytes)

/-- A name as `strcmp` sees it. -/
def cstring (name : List UInt8) : List UInt8 := name.takeWhile (· ≠ 0)

def frame : List UInt8 := [46, 102, 114, 97, 109, 101]

def Sym.isframe (p : Sym) : Bool := p.type = 'f' ∧ cstring p.name = frame

/-- A frame size becomes one of the automatics. -/
def renamed (p : Sym) : Sym := if Sym.isframe p then { p with type := 'm' } else p

def count (st : Statics) (p : Sym) : Statics :=
  let st := { st with symbols := st.symbols ++ [renamed p] }
  if p.istext then { st with ntxt := st.ntxt + 1 }
  else if p.isglobal then { st with nglob := st.nglob + 1 }
  else if p.type = 'f' then
    if cstring p.name = frame then { st with nauto := st.nauto + 1 }
    else if vlong p.value > st.fmaxi then { st with fmaxi := int32 (vlong p.value) }
    else st
  else if p.type = 'a' ∨ p.type = 'p' ∨ p.type = 'm' then { st with nauto := st.nauto + 1 }
  else if p.type = 'z' then
    if p.value = 1 then { st with nhist := st.nhist + 2, nfiles := st.nfiles + 1 }
    else { st with nhist := st.nhist + 1 }
  else st

/-- The loop over the records, with the cells that are left in the array. -/
def load (room : Room) (fp : Fhdr) (left : Nat) (size : Int) (bytes : List UInt8) (st : Statics) : Outcome :=
  if size < fp.symsz then
    match bread fp.svalsz bytes with
    | none => .fails st
    | some (value, bytes) =>
        match left with
        | 0 => .fault
        | left + 1 =>
            match symbol room st.symbols.length value bytes with
            | none => .fails st
            | some (p, n, bytes) => load room fp left (int32 (size + n + fp.svalsz + 1)) bytes (count st p)
  else .returns st

/-- One of the two tables behind the symbols. -/
def offsets (room : Room) (b : Block) (size : Int) (bytes : List UInt8) : Option (Option (List UInt8)) :=
  if size ≠ 0 then
    if malloc room b size then (bread size.toNat bytes).map fun (table, _) => some table else none
  else some none

/-- The cells of the symbols array. -/
def Fhdr.slots (fp : Fhdr) : Int := fp.symsz.tdiv (4 + 1 + 2) + 1

def textseg (base : UInt64) (fp : Fhdr) (st : Statics) : Statics :=
  { st with txtstart := base, txtend := base + UInt64.ofInt fp.txtsz }

def cleansyms : Statics := {}

def readOffsets (room : Room) (fp : Fhdr) (file : List UInt8) (st : Statics) : Outcome :=
  match offsets room .spoff fp.sppcsz (file.drop fp.sppcoff) with
  | none => .fails st
  | some spoff =>
      let st := { st with spoff := spoff }
      match offsets room .pcline fp.lnpcsz (file.drop fp.lnpcoff) with
      | none => .fails st
      | some pcline => .returns { st with pcline := pcline }

def syminit (room : Room) (fp : Fhdr) (file : List UInt8) (st : Statics) : Outcome :=
  if fp.symsz = 0 ∨ fp.type = FNONE then .returns st
  else
    let st := textseg fp.txtaddr fp cleansyms
    if malloc room .symbols fp.slots then
      match load room fp fp.slots.toNat 0 (file.drop fp.symoff) st with
      | .returns st => readOffsets room fp file st
      | other => other
    else .fails st

/-! The tables. -/

/-- A pointer into the symbols. -/
structure Ptr where
  index : Nat
  sym : Sym
deriving DecidableEq, Repr

structure Txtsym where
  n : Nat
  locals : Nat
  sym : Ptr
deriving DecidableEq, Repr

structure Hist where
  name : Option (List UInt8)
  line : Int
  offset : Int
deriving DecidableEq, Repr

/-- `sym` is used while the tables are made, and `txt` after that. -/
structure File where
  addr : UInt64
  sym : Option Ptr
  txt : Option Nat
  n : Option Nat
  hist : Nat
deriving DecidableEq, Repr

structure Build where
  globals : Row Ptr
  ng : Nat
  txt : Row Txtsym
  nt : Nat
  fnames : Row Ptr
  files : Row File
  hist : Row Hist
  autos : Row Ptr
  f : Option Nat
  tp : Option Nat
  hp : Nat
  ap : Nat
  nh : Nat
  firstinstr : UInt64
deriving DecidableEq, Repr

def Build.start (b : Build) (f : Nat) : Option Build := do
  let files ← b.files.store f ⟨0, none, none, none, b.hp⟩
  some { b with files := files, f := some f, nh := 0 }

def Build.newFile (b : Build) : Option Build :=
  match b.f with
  | none => b.start 0
  | some f => do
      let file ← b.files.load f
      let files ← b.files.store f { file with n := some b.nh }
      let hist ← b.hist.store (file.hist + b.nh) ⟨none, 0, 0⟩
      { b with files := files, hist := hist, hp := b.hp + b.nh + 1 }.start (f + 1)

def Build.entry (b : Build) (p : Ptr) : Option Build := do
  let file ← b.files.load (← b.f)
  let hist ← b.hist.store (file.hist + b.nh) ⟨some p.sym.name, int p.sym.value, 0⟩
  some { b with hist := hist, nh := b.nh + 1 }

def Build.history (b : Build) (p : Ptr) : Option Build := do
  let b ← if p.sym.value = 1 then b.newFile else some b
  b.entry p

def Build.line (b : Build) (p : Ptr) : Option Build :=
  match b.f with
  | some f =>
      if b.nh > 0 then do
        let file ← b.files.load f
        let last ← b.hist.load (file.hist + b.nh - 1)
        let hist ← b.hist.store (file.hist + b.nh - 1) { last with offset := int p.sym.value }
        some { b with hist := hist }
      else some b
  | none => some b

def Build.text (b : Build) (p : Ptr) : Option Build := do
  let txt ← b.txt.store b.nt ⟨0, b.ap, p⟩
  let first := if b.firstinstr = 0 ∨ p.sym.value < b.firstinstr then p.sym.value else b.firstinstr
  let b := { b with txt := txt, tp := some b.nt, nt := b.nt + 1, firstinstr := first }
  match b.f with
  | some f => do
      let file ← b.files.load f
      if file.sym.isNone then
        let files ← b.files.store f { file with sym := some p, addr := p.sym.value }
        some { b with files := files }
      else some b
  | none => some b

/-- A local variable before any text is left out. -/
def Build.auto (b : Build) (p : Ptr) : Option Build :=
  match b.tp with
  | none => some b
  | some tp => do
      let t ← b.txt.load tp
      let autos ← b.autos.store (t.locals + t.n) p
      let txt ← b.txt.store tp { t with n := t.n + 1 }
      some { b with autos := autos, txt := txt, ap := b.ap + 1 }

def Build.step (b : Build) (p : Ptr) : Option Build :=
  if p.sym.isglobal then do
    let globals ← b.globals.store b.ng p
    some { b with globals := globals, ng := b.ng + 1 }
  else if p.sym.type = 'z' then b.history p
  else if p.sym.type = 'Z' then b.line p
  else if p.sym.istext then b.text p
  else if p.sym.type = 'a' ∨ p.sym.type = 'p' ∨ p.sym.type = 'm' then b.auto p
  else if p.sym.type = 'f' then do
    let fnames ← b.fnames.store p.sym.value.toNat p
    some { b with fnames := fnames }
  else some b

/-- The search for a file's text, with the texts still to be looked at. -/
def find (txt : List Txtsym) (f : File) : Nat → Nat → Option (Option Nat × Nat)
  | 0, tp => some (none, tp)
  | j + 1, tp => do
      let t ← txt[tp]?
      if f.sym.map Ptr.index = some t.sym.index then some (some tp, tp + 1)
      else find txt f j (if tp + 1 ≥ txt.length then 0 else tp + 1)

/-- The files with their texts. -/
def link (txt : List Txtsym) : List File → Nat → Option (List File)
  | [], _ => some []
  | f :: files, tp => do
      let (found, tp) ← find txt f txt.length tp
      let rest ← link txt files tp
      some ((match found with | some t => { f with txt := some t } | none => f) :: rest)

structure Tables where
  globals : List Ptr
  txt : List Txtsym
  fnames : Row Ptr
  files : List File
  hist : Row Hist
  autos : Row Ptr
  firstinstr : UInt64
deriving DecidableEq, Repr

inductive Built where
  | already
  | fails
  | fault
  | tables (t : Tables)
deriving DecidableEq, Repr

def named (p : Ptr) : Sym := { p.sym with name := cstring p.sym.name }

def globalcomp (a b : Ptr) : Int := symcomp (named a) (named b)

def textcomp (a b : Txtsym) : Int := txtcomp a.sym.sym b.sym.sym

def filecomp (a b : File) : Int := int (a.addr - b.addr)

def allocated (room : Room) (st : Statics) : Bool :=
  (st.nglob = 0 ∨ malloc room .globals st.nglob) ∧ (st.ntxt = 0 ∨ malloc room .txt st.ntxt) ∧
    malloc room .fnames (int32 (st.fmaxi + 1)) ∧ malloc room .files st.nfiles ∧ malloc room .hist st.nhist ∧
    malloc room .autos st.nauto

def pointers (symbols : List Sym) : List Ptr := symbols.zipIdx.map fun (p, i) => ⟨i, p⟩

def Statics.blank (st : Statics) : Build where
  globals := .new st.nglob
  ng := 0
  txt := .new st.ntxt
  nt := 0
  fnames := .new (int32 (st.fmaxi + 1)).toNat
  files := .new st.nfiles
  hist := .new st.nhist
  autos := .new st.nauto
  f := none
  tp := none
  hp := 0
  ap := 0
  nh := 0
  firstinstr := 0

def Build.finish (b : Build) : Option Tables := do
  let txt := qsort textcomp b.txt.written
  let files ← link txt (qsort filecomp b.files.written) 0
  some ⟨qsort globalcomp b.globals.written, txt, b.fnames, files, b.hist, b.autos, b.firstinstr⟩

def buildtbls (room : Room) (st : Statics) : Built :=
  if st.isbuilt then .already
  else if allocated room st then
    match (pointers st.symbols).foldlM Build.step st.blank >>= Build.finish with
    | some t => .tables t
    | none => .fault
  else .fails

end Goken.Syminit
