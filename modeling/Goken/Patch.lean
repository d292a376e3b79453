import Goken.Lib.Steps
import Mathlib.Logic.Function.Basic

/-! Branch targets of the ARM linker: `mkfwd`, `brloop` and `patch` (5l/pass.c). A `Prog`
is named by its place on the list of links; its address, which `brloop` compares, is a
field of its own. Running out of fuel is `none`. -/

namespace Goken.Patch
open Lib.Steps

inductive As where
  | AB | ABL | AOTHER
  deriving DecidableEq, Repr

inductive Operand where
  | D_NONE | D_BRANCH | D_OTHER
  deriving DecidableEq, Repr

/-- Where a branch goes: `UP`, or a `Prog`. -/
inductive Target where
  | UP
  | prog (i : Nat)
  deriving DecidableEq, Repr

/-- `type`, `offset` and `sym` are those of the operand `to`. -/
structure Prog where
  as : As
  address : Nat
  pc : Int
  type : Operand
  offset : Int
  sym : Option Nat
  cond : Option Target
  deriving DecidableEq, Repr

inductive Section where
  | STEXT | SUNDEF | SOTHER
  deriving DecidableEq, Repr

structure Sym where
  type : Section
  value : Int
  deriving DecidableEq, Repr

inductive Diag where
  | undefined (sym : Nat) (prog : Nat)
  | help (prog : Nat)
  | range (offset : Int) (prog : Nat)
  deriving DecidableEq, Repr

def LOG : Nat := 5

/-- The variables of `mkfwd`. -/
structure Levels where
  i : Nat
  dwn : Nat → Int
  lst : Nat → Option Nat
  forwd : Nat → Option Nat

/-- `cnt`. -/
def cnt : Nat → Int
  | 0 => 1
  | i + 1 => LOG * cnt i

def Levels.start : Levels := ⟨0, fun _ => 1, fun _ => none, fun _ => none⟩

/-- The body of the loop, for the `Prog` in a place. -/
def Levels.visit (s : Levels) (p : Nat) : Levels :=
  let i := if s.i = 0 then LOG - 1 else s.i - 1
  let down := s.dwn i - 1
  if down ≤ 0 then
    { i
      dwn := Function.update s.dwn i (cnt i)
      lst := Function.update s.lst i (some p)
      forwd := match s.lst i with
        | some l => Function.update (Function.update s.forwd p none) l (some p)
        | none => Function.update s.forwd p none }
  else { s with i, dwn := Function.update s.dwn i down, forwd := Function.update s.forwd p none }

def mkfwd (count : Nat) : Nat → Option Nat := ((List.range count).foldl Levels.visit Levels.start).forwd

/-- Every dereference of the code is inside the program. -/
def deref (program : List Prog) (i : Nat) : Prog := program.getD i ⟨.AOTHER, 0, 0, .D_NONE, 0, none, none⟩

def link (program : List Prog) (i : Nat) : Option Nat := if i + 1 < program.length then some (i + 1) else none

def firstp (program : List Prog) : Option Nat := if 0 < program.length then some 0 else none

/-- One test of the search for the `Prog` with a program counter. -/
def probe (program : List Prog) (c : Int) : Option Nat → Option (Option Nat)
  | none => none
  | some q =>
    match mkfwd program.length q with
    | some f => if c ≥ (deref program f).pc then some (some f) else if c = (deref program q).pc then none else some (link program q)
    | none => if c = (deref program q).pc then none else some (link program q)

def search (program : List Prog) (c : Int) : Option (Option Nat) := loop (probe program c) (program.length + 1) (firstp program)

section Brloop

variable (undefp : Nat) (program : List Prog)

/-- The opcode at a target; `undefp` is a `Prog` of zeros. -/
def opcode : Target → As
  | .UP => .AOTHER
  | .prog i => (deref program i).as

def address : Option Target → Nat
  | none => 0
  | some .UP => undefp
  | some (.prog i) => (deref program i).address

def cond : Target → Option Target
  | .UP => none
  | .prog i => (deref program i).cond

def brloop : Nat → Nat → Option Target → Option (Option Target)
  | 0, _, _ => none
  | _ + 1, _, none => some none
  | fuel + 1, c, some p =>
    if opcode program p ≠ .AB then some (some p)
    else
      let q := cond program p
      if address undefp program q ≤ address undefp program (some p) then
        if q = some p ∨ c + 1 > 5000 then some none else brloop fuel (c + 1) q
      else brloop fuel c q

end Brloop

structure State where
  progs : List Prog
  syms : List Sym
  diags : List Diag
  deriving DecidableEq, Repr

/-- A branch to a symbol gets its offset. -/
def resolve (s : State) (i : Nat) : State :=
  let p := deref s.progs i
  match p.sym with
  | none => s
  | some sym =>
    if (p.as = .ABL ∨ p.as = .AB) ∧ p.type ≠ .D_BRANCH then
      match s.syms[sym]? with
      | none => s
      | some ⟨.STEXT, value⟩ => { s with progs := s.progs.set i { p with offset := value, type := .D_BRANCH } }
      | some ⟨.SUNDEF, _⟩ =>
        { s with
          progs := s.progs.set i { p with offset := 0, type := .D_BRANCH, cond := some .UP }
          diags := if p.as ≠ .ABL then s.diags ++ [.help i] else s.diags }
      | some ⟨.SOTHER, _⟩ => { s with syms := s.syms.set sym ⟨.STEXT, 0⟩, diags := s.diags ++ [.undefined sym i] }
    else s

/-- The body of the first loop of `patch`. -/
def target (s : State) (i : Nat) : Option State :=
  let s := resolve s i
  let p := deref s.progs i
  if p.type = .D_BRANCH ∧ p.cond ≠ some .UP then
    match search s.progs p.offset with
    | none => none
    | some (some q) => some { s with progs := s.progs.set i { p with cond := some (.prog q) } }
    | some none => some { s with progs := s.progs.set i { p with type := .D_NONE, cond := none }, diags := s.diags ++ [.range p.offset i] }
  else some s

/-- The body of the second loop. -/
def shorten (undefp fuel : Nat) (s : State) (i : Nat) : Option State :=
  let p := deref s.progs i
  if p.cond ≠ none ∧ p.cond ≠ some .UP then
    match brloop undefp s.progs fuel 0 p.cond with
    | none => none
    | some none => some { s with progs := s.progs.set i { p with cond := none } }
    | some (some q) =>
      let pc := match q with
        | .UP => 0
        | .prog j => (deref s.progs j).pc
      some { s with progs := s.progs.set i { p with cond := some q, offset := if p.type = .D_BRANCH then pc else p.offset } }
  else some s

def patch (undefp fuel : Nat) (s : State) : Option State :=
  let places := List.range s.progs.length
  (places.foldlM target s).bind fun s => places.foldlM (shorten undefp fuel) s

end Goken.Patch
