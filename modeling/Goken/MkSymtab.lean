import Goken.Ieee
import Goken.Lib.Chains
import Goken.Rune

/-! The symbol table of mk (`mk/symtab.c`) and the times kept in it, of files
(`file.c`) and of the members of archives (`archive.c`). The union of a symbol
is a word: a pointer, a number, or the pattern of a double. Names are UTF-8. -/

namespace Goken.MkSymtab
open Lib

abbrev Name := List UInt8

/-- `enum Namespace`. -/
inductive Space where
  | S_VAR | S_INTERNAL | S_TARGET | S_OVERRIDE | S_NODE | S_WESET | S_OUTOFDATE | S_NOEXPORT | S_AGG | S_BITCH | S_TIME | S_BULKED
  deriving DecidableEq, Repr

structure Symtab where
  name : Name
  space : Space
  u : UInt64
  deriving DecidableEq, Repr

def Symtab.key (s : Symtab) : Name × Space := (s.name, s.space)

def NHASH : Nat := 4099
def HASHMUL : Int := 79

/-- The conversion to a `long`. -/
def int64 (v : Int) : Int := Int.bmod v (2 ^ 64)

/-- The bucket of a symbol; a `char` has a sign. -/
def bucket (key : Name × Space) : Nat :=
  let h := key.1.foldl (fun h p => int64 (int64 (h * HASHMUL) + Int.bmod p.toNat 256)) (key.2.ctorIdx : Int)
  ((if h < 0 then -h - 1 else h) % NHASH).toNat

abbrev Hash := Chains.Table Symtab

def find (hash : Hash) (sym : Name) (space : Space) : Option Symtab := Chains.find Symtab.key bucket hash (sym, space)

/-- `s->u = u`, for the symbol that `symlook` gave. -/
def assign (hash : Hash) (sym : Name) (space : Space) (u : UInt64) : Hash :=
  Chains.assign Symtab.key bucket hash (sym, space) fun s => { s with u := u }

/-- The words that a pointer may read. -/
abbrev Memory := UInt64 → Option UInt64

/-- A read of memory that is not there, or `Exit`. -/
inductive Stop where
  | fault
  | exit
  deriving DecidableEq, Repr

def symlook (memory : Memory) (hash : Hash) (sym : Name) (space : Space) (install : UInt64) : Except Stop (Option Symtab × Hash) :=
  match find hash sym space with
  | some s => .ok (some s, hash)
  | none =>
      if install = 0 then .ok (none, hash)
      else do
        let s : Symtab := ⟨sym, space, 0⟩
        let s ← (if space = .S_TIME then
            match memory install with
            | some time => .ok { s with u := time }
            | none => .error .fault
          else .ok s)
        -- the case of S_TIME has no `break`
        let s := { s with u := install }
        .ok (some s, Chains.install Symtab.key bucket hash s)

/-- A number divided by a power of two, to the nearest. -/
def roundEven (n k : Nat) : Nat :=
  let q := n / 2 ^ k
  let r := n % 2 ^ k
  if 2 ^ k < 2 * r ∨ 2 ^ k = 2 * r ∧ q % 2 = 1 then q + 1 else q

/-- The conversion of a `ulong` to a double. -/
def ofUlong (t : UInt64) : Double :=
  let n := t.toNat
  if n = 0 then 0
  else
    let e := n.log2
    .ofNat ((e + 1022) * 2 ^ 52 + if e ≤ 52 then n * 2 ^ (52 - e) else roundEven n (e - 52))

/-- The conversion of a double to a `ulong`. -/
def toUlong (d : Double) : UInt64 :=
  let n := 2 ^ 52 + d.fraction
  if d.exponent < 1023 then 0
  else if d.exponent < 1075 then .ofNat (n / 2 ^ (1075 - d.exponent))
  else .ofNat (n * 2 ^ (d.exponent - 1075))

/-- The header of a member: the bytes of its name, and what `strtoul` reads
from its date. -/
structure Header where
  name : List UInt8
  date : UInt64
  deriving DecidableEq, Repr

/-- The file system: the `mtime` of a file; whether it starts with ARMAG, when
it can be opened; and the `mtime` of an archive with its headers. -/
structure Files where
  mtime : Name → Option UInt64
  magic : Name → Option Bool
  archive : Name → Option (UInt64 × List Header)

/-- The memory of mk, the address of a local `t`, and of some text. -/
structure Process where
  memory : Memory
  t : UInt64
  text : UInt64

def mkmtime (files : Files) (name : Name) : Double :=
  match files.mtime name with
  | none => 0
  | some t => ofUlong t

def SARNAME : Nat := 64
def BIGBLOCK : Nat := 20000

/-- `snprint(buf, size, "%s(%s)", archive, member)`. -/
def sprint (size : Nat) (archive member : Name) : Name := (archive ++ [0x28] ++ member ++ [0x29]).take (size - 1)

/-- The bytes of the runes that `utfnlen` counts. -/
def clip : Nat → Name → Int → Name
  | 0, _, _ => []
  | fuel + 1, s, left =>
      if left ≤ 0 then []
      else
        match s with
        | [] => []
        | c :: rest =>
            if c.toNat < 0x80 then c :: clip fuel rest (left - 1)
            else if Rune.fullrune (s ++ [0]) left = some true then
              match Rune.chartorune (s ++ [0]) with
              | some (_, n) => s.take n ++ clip fuel (s.drop n) (left - n)
              | none => []
            else []

/-- The name in a header, without the blanks and the slash after it. -/
def memberName (name : List UInt8) : Name :=
  let i := (name.drop 1).reverse.dropWhile (· = 0x20) |>.length
  let i := if name.getD i 0 = 0x2F then i else i + 1
  (name.take i).takeWhile (· ≠ 0)

/-- The date that is kept of a member. -/
def memberDate (mtime date : UInt64) : UInt64 :=
  let t := if mtime ≤ date then mtime - 1 else date
  if t = 0 then 1 else t

/-- One turn of the loop of `atimes`. -/
def record (process : Process) (ar : Name) (mtime : UInt64) (hash : Hash) (h : Header) : Except Stop Hash := do
  let t := memberDate mtime h.date
  let buf := sprint BIGBLOCK ar (memberName h.name)
  let (_, hash) ← symlook process.memory hash buf .S_TIME t
  .ok (assign hash buf .S_TIME (ofUlong t))

def atimes (files : Files) (process : Process) (hash : Hash) (ar : Name) : Except Stop Hash :=
  match files.archive ar with
  | none => .ok hash
  | some (mtime, headers) => headers.foldlM (record process ar mtime) hash

/-- `type`, whether it is an archive. -/
def type (files : Files) (process : Process) (hash : Hash) (file : Name) : Except Stop (Bool × Hash) :=
  match files.magic file with
  | some archive => .ok (archive, hash)
  | none => do
      let (sym, hash) ← symlook process.memory hash file .S_BITCH 0
      let (_, hash) ← (if sym.isNone then symlook process.memory hash file .S_BITCH process.text else .ok (sym, hash))
      .ok (true, hash)

def split (files : Files) (process : Process) (hash : Hash) (name : Name) : Except Stop (Option (Name × Name) × Hash) :=
  if name.contains 0x28 then do
    let p := name.takeWhile (· ≠ 0x28)
    let q := ((name.dropWhile (· ≠ 0x28)).drop 1).takeWhile (· ≠ 0x29)
    let (archive, hash) ← type files process hash p
    .ok (if archive then some (p, q) else none, hash)
  else .ok (none, hash)

def atimeof (files : Files) (process : Process) (hash : Hash) (force : Bool) (name : Name) : Except Stop (UInt64 × Hash) := do
  let (parts, hash) ← split files process hash name
  match parts with
  | none => .error .exit
  | some (archive, member) =>
      let t := toUlong (mkmtime files archive)
      let (sym, hash) ← symlook process.memory hash archive .S_AGG 0
      let hash ← (match sym with
        | some sym =>
            if force || sym.u < t then do
              let hash ← atimes files process hash archive
              .ok (assign hash archive .S_AGG t)
            else .ok hash
        | none => do
            let hash ← atimes files process hash archive
            let (_, hash) ← symlook process.memory hash archive .S_AGG process.text
            .ok (assign hash archive .S_AGG t))
      let buf := sprint 512 archive (clip (member.length + 1) member SARNAME)
      let (sym, hash) ← symlook process.memory hash buf .S_TIME 0
      .ok (match sym with | some sym => sym.u | none => 0, hash)

def timeof (files : Files) (process : Process) (hash : Hash) (name : Name) (force : Bool) : Except Stop (Double × Hash) :=
  if name.contains 0x28 then do
    let (t, hash) ← atimeof files process hash force name
    .ok (ofUlong t, hash)
  else if force then .ok (mkmtime files name, hash)
  else do
    let (sym, hash) ← symlook process.memory hash name .S_TIME 0
    match sym with
    | some sym => .ok (sym.u, hash)
    | none =>
        let t := mkmtime files name
        if t = 0 then .ok (0, hash)
        else do
          let (_, hash) ← symlook (Function.update process.memory process.t (some t)) hash name .S_TIME process.t
          .ok (t, hash)

end Goken.MkSymtab
