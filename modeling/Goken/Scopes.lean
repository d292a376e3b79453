import Mathlib.Logic.Function.Basic
import Goken.WasmObj

/-! The scopes of the wasm compiler (`compilers/ec/reg.c`, from `safeopen` on): the
blocks and loops for the branches of a function, the widening of blocks until they
nest, and the sweep that puts ABLOCK, ALOOP and AENDCTL among the instructions. Of
an instruction there is what these functions read or write. -/

namespace Goken.Scopes
open WasmObj (D)

def MAXDEPTH : Nat := 128

inductive Opcode where
  | ABR | ABRIF | ABLOCK | ALOOP | AENDCTL
  | other (as : UInt8)
  deriving DecidableEq, Repr

/-- `type` and `offset` are those of `to`. -/
structure Prog where
  as : Opcode
  height : Int
  type : D
  offset : Int
  deriving DecidableEq, Repr

def AGOK : UInt8 := 181

def zprog : Prog := ⟨.other AGOK, 0, .D_NONE, 0⟩

def newprog (as : Opcode) : Prog := { zprog with as := as }

/-- The live index that a branch goes to. -/
def Prog.target (p : Prog) : Option Nat := if p.as = .ABR ∨ p.as = .ABRIF then some p.offset.toNat else none

/-- The live instructions of a function: no control instruction yet, and branches to live instructions. -/
structure Live where
  progs : List Prog
  inside : ∀ p ∈ progs, p.as = .ABR ∨ p.as = .ABRIF → 0 ≤ p.offset ∧ p.offset < progs.length

inductive Kind where
  | SBLOCK | SLOOP
  deriving DecidableEq, Repr

structure Scope where
  kind : Kind
  opening : Nat
  close : Nat
  deriving DecidableEq, Repr

/-- The nearest position without an operand on the stack. -/
def safeopen (live : List Prog) : Nat → Nat
  | 0 => 0
  | j + 1 => if (live[j + 1]?).any fun p => p.height = 0 then j + 1 else safeopen live j

/-- `blockopen` and `loopclose`; `none` is -1. -/
structure Marks where
  blockopen : Nat → Option Nat
  loopclose : Nat → Option Nat

/-- A candidate against what a slot holds. -/
def keep (better : Nat → Nat → Bool) (slot : Option Nat) (cand : Nat) : Option Nat :=
  match slot with
  | none => some cand
  | some old => if better cand old then some cand else some old

def mark (live : List Prog) (marks : Marks) (srck : Nat) : Marks :=
  match (live[srck]?).bind Prog.target with
  | none => marks
  | some dstk =>
      if dstk > srck then
        { marks with
          blockopen := Function.update marks.blockopen dstk (keep (· < ·) (marks.blockopen dstk) (safeopen live srck)) }
      else
        { marks with loopclose := Function.update marks.loopclose dstk (keep (· > ·) (marks.loopclose dstk) srck) }

def marks (live : List Prog) : Marks := (List.range live.length).foldl (mark live) ⟨fun _ => none, fun _ => none⟩

/-- `scope`, `nscope`, `blockid` and `loopid`. -/
structure Built where
  nscope : Nat
  scope : Nat → Scope
  blockid : Nat → Option Nat
  loopid : Nat → Option Nat

def addBlock (k : Nat) (opening : Option Nat) (b : Built) : Built :=
  match opening with
  | none => b
  | some o =>
      { b with
        nscope := b.nscope + 1
        scope := Function.update b.scope b.nscope ⟨.SBLOCK, o, k⟩
        blockid := Function.update b.blockid k (some b.nscope) }

def addLoop (k : Nat) (close : Option Nat) (b : Built) : Built :=
  match close with
  | none => b
  | some c =>
      { b with
        nscope := b.nscope + 1
        scope := Function.update b.scope b.nscope ⟨.SLOOP, k, c + 1⟩
        loopid := Function.update b.loopid k (some b.nscope) }

def buildscopes (live : List Prog) : Built :=
  (List.range live.length).foldl
    (fun b k => addLoop k ((marks live).loopclose k) (addBlock k ((marks live).blockopen k) b))
    ⟨0, fun _ => ⟨.SBLOCK, 0, 0⟩, fun _ => none, fun _ => none⟩

/-- The body of the two loops of `extendscopes`, with `changed`. -/
def widen (state : (Nat → Scope) × Bool) (ij : Nat × Nat) : (Nat → Scope) × Bool :=
  let (scope, changed) := state
  let (i, j) := ij
  if i = j ∨ (scope j).kind ≠ .SBLOCK then (scope, changed)
  else if (scope i).opening ≤ (scope j).opening ∧ (scope j).opening < (scope i).close ∧
      (scope j).close > (scope i).close ∧ (scope j).opening > (scope i).opening then
    (Function.update scope j { scope j with opening := (scope i).opening }, true)
  else (scope, changed)

def pairs (nscope : Nat) : List (Nat × Nat) := (List.range nscope).flatMap fun i => (List.range nscope).map fun j => (i, j)

def extendscopes (nscope : Nat) : Nat → (Nat → Scope) → Option (Nat → Scope)
  | 0, _ => none
  | fuel + 1, scope =>
      let (scope, changed) := (pairs nscope).foldl widen (scope, false)
      if changed then extendscopes nscope fuel scope else some scope

/-- Whether there is a diagnostic. -/
def validatescopes (nscope : Nat) (scope : Nat → Scope) : Bool :=
  (List.range nscope).any fun i => (scope i).kind = .SLOOP && (List.range nscope).any fun j =>
    (scope j).kind = .SBLOCK && decide ((scope j).opening < (scope i).opening ∧ (scope i).opening < (scope j).close ∧
      (scope j).close < (scope i).close)

def scopecmp (a b : Scope) : Int :=
  if a.opening ≠ b.opening then a.opening - b.opening
  else if a.close ≠ b.close then b.close - a.close
  else if a.kind ≠ b.kind then if a.kind = .SBLOCK then -1 else 1
  else 0

/-- One insertion of `sortscopes`. -/
def place (scope : Nat → Scope) (order : List Nat) (t : Nat) : List Nat :=
  (order.reverse.dropWhile fun s => scopecmp (scope s) (scope t) > 0).reverse ++
    t :: (order.reverse.takeWhile fun s => scopecmp (scope s) (scope t) > 0).reverse

def sortscopes (nscope : Nat) (scope : Nat → Scope) : List Nat := (List.range nscope).foldl (place scope) []

inductive Diag where
  | tooDeep | noScope | notOnStack
  deriving DecidableEq, Repr

def Diag.text : Diag → String
  | tooDeep => "ec: control-flow nesting too deep"
  | noScope => "ec: branch has no matching scope"
  | notOnStack => "ec: branch target scope not on stack"

section emit
variable (scope : Nat → Scope)

/-- The scopes that end here: the stack, and the instructions. -/
def closing (pos : Nat) : List Nat → List Nat × List Prog
  | [] => ([], [])
  | sid :: stack =>
      if (scope sid).close = pos then
        let (stack, out) := closing pos stack
        (stack, newprog .AENDCTL :: out)
      else (sid :: stack, [])

def control : Kind → Opcode
  | .SLOOP => .ALOOP
  | .SBLOCK => .ABLOCK

/-- The scopes that start here: the stack, the scopes to come, the instructions and the diagnostics. -/
def openings (pos : Nat) : List Nat → List Nat → List Nat × List Nat × List Prog × List Diag
  | stack, [] => (stack, [], [], [])
  | stack, sid :: order =>
      if (scope sid).opening = pos then
        let deep := stack.length ≥ MAXDEPTH
        let (stack, order, out, diags) := openings pos (if deep then stack else sid :: stack) order
        (stack, order, newprog (control (scope sid).kind) :: out, if deep then .tooDeep :: diags else diags)
      else (stack, sid :: order, [], [])

/-- The depth of a branch. -/
def depth (blockid loopid : Nat → Option Nat) (stack : List Nat) (pos k : Nat) : Int × List Diag :=
  match if k > pos then blockid k else loopid k with
  | none => (-1, [.noScope])
  | some sid =>
      match stack.idxOf? sid with
      | none => (-1, [.notOnStack])
      | some d => (d, [])

def resolve (blockid loopid : Nat → Option Nat) (stack : List Nat) (pos : Nat) (p : Prog) : Prog × List Diag :=
  match p.target with
  | none => (p, [])
  | some k =>
      let (d, diags) := depth blockid loopid stack pos k
      ({ p with offset := d, type := .D_BRANCH }, diags)

def sweep (blockid loopid : Nat → Option Nat) : Nat → List Prog → List Nat → List Nat → List Prog × List Diag
  | _, [], stack, _ => (stack.map fun _ => newprog .AENDCTL, [])
  | pos, p :: live, stack, order =>
      let (stack, ends) := closing scope pos stack
      let (stack, order, starts, deep) := openings scope pos stack order
      let (p, failed) := resolve blockid loopid stack pos p
      let (out, diags) := sweep blockid loopid (pos + 1) live stack order
      (ends ++ starts ++ p :: out, deep ++ failed ++ diags)

def emit (live : List Prog) (nscope : Nat) (blockid loopid : Nat → Option Nat) : List Prog × List Diag :=
  sweep scope blockid loopid 0 live [] (sortscopes nscope scope)

end emit

/-- The message of `validatescopes`. -/
def unsupported : String :=
  "ec: unsupported control flow -- a branch lands inside a loop body from outside it " ++
    "(C for/do-while entry is not implemented yet, see docs/notes_wasm.txt)"

/-- The end of `regopt`: what is emitted, and the messages. -/
def regopt (fuel : Nat) (live : Live) : Option (List Prog × List String) := do
  let built := buildscopes live.progs
  let scope ← extendscopes built.nscope fuel built.scope
  let (out, diags) := emit scope live.progs built.nscope built.blockid built.loopid
  return (out, (if validatescopes built.nscope scope then [unsupported] else []) ++ diags.map Diag.text)

end Goken.Scopes
