import Goken.Types
import Goken.Lib.Arm
import Goken.Lib.Steps
import Mathlib.Data.List.Sort

/-! Switch statements: the `OSWITCH` and `OCASE` cases of `gen` (cc2/pgen.c),
`doswit` and `swcmp` (cc2/pswt.c), and the dispatch code that 5c's `swit1`,
`swit2` and `gopcode` emit for them (5c/swt.c, 5c/txt.c). Emission is state
passing over the instruction list; a jump is emitted first and patched later,
as in the source. -/

namespace Goken.Switch
open Lib.Arm Lib.Steps

/-- `struct Case`; `isdef` is the source's `def`. -/
structure Case where
  val : Int
  label : Nat
  isdef : Bool
  isv : Bool
  deriving DecidableEq, Repr

structure C1 where
  val : Int
  label : Nat
  deriving DecidableEq, Repr

/-- The instructions a dispatch is made of. `ACASE` carries the suffix `.LS`. -/
inductive Instr where
  | ACMP (offset : BitVec 32) (reg : Nat)
  | ACMN (offset : BitVec 32) (reg : Nat)
  | ASUB (offset : BitVec 32) (reg : Nat)
  | AB (dest : Nat)
  | ABcc (cond : Cond) (dest : Nat)
  | ACASE (reg : Nat)
  | ABCASE (dest : Nat)
  deriving DecidableEq, Repr

def Instr.patched (dest : Nat) : Instr → Instr
  | .AB _ => .AB dest
  | .ABcc cond _ => .ABcc cond dest
  | .ABCASE _ => .ABCASE dest
  | other => other

/-- Emitted code: `prog` starts at pc `base`. -/
structure Text where
  base : Nat
  prog : List Instr
  deriving DecidableEq, Repr

namespace Text

def pc (t : Text) : Nat := t.base + t.prog.length

/-- `nextpc` followed by the assignment of the fields of `p`. -/
def gins (i : Instr) (t : Text) : Text := { t with prog := t.prog ++ [i] }

def patch (site dest : Nat) (t : Text) : Text :=
  { t with prog := t.prog.modify (site - t.base) (Instr.patched dest) }

/-- `patch(p, dest)` for the instruction emitted last. -/
def patchp (dest : Nat) (t : Text) : Text := t.patch (t.pc - 1) dest

/-- `gbranch(OGOTO)`. -/
def gbranch (t : Text) : Text := t.gins (.AB 0)

end Text

/-- The comparison of `gopcode`: a negative constant turns `CMP` into `CMN`
unless it has no negation. -/
def gcmp (c : Int) (reg : Nat) : Instr :=
  let offset := BitVec.ofInt 32 c
  if offset.toInt < 0 ∧ offset ≠ BitVec.intMin 32 then .ACMN (-offset) reg else .ACMP offset reg

inductive Op where
  | OEQ | OGT | OCASE | OSUB
  deriving DecidableEq, Repr

/-- `gopcode(o, nodconst(c), n, Z)`, and `gopcode(OSUB, nodconst(c), Z, n)`. -/
def gopcode (o : Op) (c : Int) (reg : Nat) (t : Text) : Text :=
  match o with
  | .OEQ => (t.gins (gcmp c reg)).gins (.ABcc .EQ 0)
  | .OGT => (t.gins (gcmp c reg)).gins (.ABcc .GT 0)
  | .OCASE => ((t.gins (gcmp c reg)).gins (.ACASE reg)).gins (.ABcc .HI 0)
  | .OSUB => t.gins (.ASUB (BitVec.ofInt 32 c) reg)

def firstVal (q : List C1) : Int := (q.head?.map C1.val).getD 0
def lastVal (q : List C1) : Int := (q.getLast?.map C1.val).getD 0

/-- The density test of `swit2`; `i` is an `int`. -/
def isDirect (q : List C1) : Bool :=
  let i := int32 (lastVal q - firstVal q)
  3 ≤ q.length && 0 < i && i < q.length * 2

/-- The table after `direct:`. The inner loop stops because `q` is sorted. -/
def bcases (dflt : Nat) : Int → List C1 → Text → Text
  | _, [], t => t
  | v, c :: q, t =>
    let holes := (List.range (c.val - v).toNat).foldl (fun t _ => (t.gins (.ABCASE 0)).patchp dflt) t
    bcases dflt (c.val + 1) q ((holes.gins (.ABCASE 0)).patchp c.label)

def switDirect (q : List C1) (dflt reg : Nat) (t : Text) : Text :=
  let v := firstVal q
  let t := if v ≠ 0 then gopcode .OSUB v reg t else t
  let t := (gopcode .OCASE (lastVal q - v) reg t).patchp dflt
  let t := bcases dflt v q t
  t.gbranch.patchp dflt

def switLinear (q : List C1) (dflt reg : Nat) (t : Text) : Text :=
  (q.foldl (fun t c => (gopcode .OEQ c.val reg t).patchp c.label) t).gbranch.patchp dflt

def swit2 (q : List C1) (dflt reg : Nat) (t : Text) : Text :=
  if isDirect q then switDirect q dflt reg t
  else if q.length < 5 then switLinear q dflt reg t
  else
    match h : q.drop (q.length / 2) with
    | [] => t
    | r :: rest =>
      let t := gopcode .OGT r.val reg t
      let sp := t.pc - 1
      -- only the branch of the second comparison is of interest
      let t := (gopcode .OEQ r.val reg t).patchp r.label
      let t := swit2 (q.take (q.length / 2)) dflt reg t
      let t := t.patch sp t.pc
      swit2 rest dflt reg t
termination_by q.length
decreasing_by
  · rw [List.length_take]
    omega
  · have := congrArg List.length h
    rw [List.length_drop, List.length_cons] at this
    omega

/-- `swit1` only allocates a scratch register around `swit2`, which arm ignores. -/
def swit1 (q : List C1) (dflt reg : Nat) (t : Text) : Text := swit2 q dflt reg t

def swcmp (p1 p2 : C1) : Int :=
  if p1.val < p2.val then -1 else if p1.val > p2.val then 1 else 0

/-- `qsort(q, nc, sizeof(C1), swcmp)`. -/
def qsort (q : List C1) : List C1 := q.insertionSort (fun p1 p2 => swcmp p1 p2 ≤ 0)

/-- The operand that holds the switch value, as `regalloc` returned it. -/
inductive Node where
  | OREGISTER (reg : Nat)
  | OREGPAIR (left right : Nat)
  deriving DecidableEq, Repr

/-- What compiling a piece of source did: it was accepted if there is no `diag`. -/
structure Result where
  diags : List String
  warns : List String
  text : Text
  deriving DecidableEq, Repr

/-- The label of the last default in `cases`, 0 if there is none. -/
def defaultLabel (cases : List Case) : Nat :=
  cases.foldl (fun dflt c => if c.isdef then c.label else dflt) 0

def defaultDiags : Nat → List Case → List String
  | _, [] => []
  | dflt, c :: cases =>
    if c.isdef then
      (if dflt ≠ 0 then ["more than one default in switch"] else []) ++ defaultDiags c.label cases
    else defaultDiags dflt cases

/-- The array `iq`: every case that is not a default was counted, but the ones
the second loop skips leave their zeroed entries at the end. -/
def entries (isv : Bool) (cases : List Case) : List C1 :=
  let counted := cases.filter (fun c => !c.isdef)
  let kept := counted.filter (fun c => !(c.isv && !isv))
  kept.map (fun c => ⟨if isv then c.val else int32 c.val, c.label⟩) ++
    List.replicate (counted.length - kept.length) ⟨0, 0⟩

def duplicateDiags : List C1 → List String
  | p :: r :: q =>
    (if p.val = r.val then ["duplicate cases in switch " ++ toString p.val] else []) ++ duplicateDiags (r :: q)
  | _ => []

/-- The loop over equal high words: one dispatch on the low word for each, and
the table `iqh` of the pcs where they start. -/
def lowSwitches (dflt low : Nat) : List C1 → Text → List C1 × Text
  | [], t => ([], t)
  | c :: q, t =>
    let same := fun (d : C1) => d.val / 2 ^ 32 == c.val / 2 ^ 32
    let iql := qsort ((c :: q.takeWhile same).map fun d => ⟨int32 d.val, d.label⟩)
    let rest := lowSwitches dflt low (q.dropWhile same) (swit1 iql dflt low t)
    (⟨c.val / 2 ^ 32, t.pc⟩ :: rest.1, rest.2)
termination_by q => q.length
decreasing_by
  have shorter := (List.dropWhile_suffix (l := q) fun d : C1 => d.val / 2 ^ 32 == c.val / 2 ^ 32).length_le
  rw [List.length_cons]
  omega

/-- A vlong switch on a 32-bit machine: high words first, then low words. -/
def switPair (iq : List C1) (dflt left right : Nat) (t : Text) : Text :=
  let t := t.gbranch
  let hsb := t.pc - 1
  let lows := lowSwitches dflt right iq t
  let t := lows.2.patch hsb lows.2.pc
  swit1 lows.1 dflt left t

/-- `doswit`; `etype` is the type of the switch expression. -/
def doswit (n : Node) (etype : Etype) (cases : List Case) (breakpc : Nat) (t : Text) : Result :=
  let wide := cases.any (fun c => !c.isdef && c.isv)
  let isv := etype.typev
  let warns := if !isv && wide then ["32-bit switch expression with 64-bit case constant"] else []
  let iq := qsort (entries isv cases)
  let diags := defaultDiags 0 cases
  let dups := duplicateDiags iq
  if dups ≠ [] then ⟨diags ++ dups, warns, t⟩
  else
    let dflt := if defaultLabel cases = 0 then breakpc else defaultLabel cases
    match n with
    | .OREGISTER reg => ⟨diags, warns, swit1 iq dflt reg t⟩
    | .OREGPAIR left right =>
      if isv then ⟨diags, warns, switPair iq dflt left right t⟩ else ⟨diags, warns, swit1 iq dflt left t⟩

/-- A `case` or `default` label as `gen` meets it in the switch body: the type
and value of the constant, if any, and the pc of the code after it. -/
structure Item where
  const : Option (Etype × Int)
  label : Nat
  deriving DecidableEq, Repr

/-- The `OCASE` case of `gen`, on top of `casf`: cases are pushed in front. -/
def ocase (typeswitch : Etype → Bool) (state : List Case × List String) (item : Item) : List Case × List String :=
  match item.const with
  | none => (⟨0, item.label, true, false⟩ :: state.1, state.2)
  | some (et, vconst) =>
    if typeswitch et then (⟨vconst, item.label, false, et.typev⟩ :: state.1, state.2)
    else (state.1, state.2 ++ ["case expression must be integer constant"])

/-- `regalloc` for the switch value: a vlong takes a register pair. -/
def regalloc (etype : Etype) (left right : Nat) : Node :=
  if etype.typev then .OREGPAIR left right else .OREGISTER left

/-- The `OSWITCH` case of `gen`, after the body has been generated. -/
def oswitch (typeswitch : Etype → Bool) (etype : Etype) (items : List Item) (breakpc left right : Nat) (t : Text) :
    Result :=
  if typeswitch etype then
    let state := items.foldl (ocase typeswitch) ([], [])
    let result := doswit (regalloc etype left right) etype state.1 breakpc t
    { result with diags := state.2 ++ result.diags }
  else ⟨["switch expression must be integer"], [], t⟩

/-! The machine that runs the emitted code. -/

structure State where
  pc : Nat
  regs : Nat → BitVec 32
  flags : Flags

def fetch (t : Text) (pc : Nat) : Option Instr :=
  if pc < t.base then none else t.prog[pc - t.base]?

def exec (s : State) : Instr → State
  | .ACMP offset reg => { s with pc := s.pc + 1, flags := cmpFlags (s.regs reg) offset }
  | .ACMN offset reg => { s with pc := s.pc + 1, flags := cmnFlags (s.regs reg) offset }
  | .ASUB offset reg => { s with pc := s.pc + 1, regs := Function.update s.regs reg (s.regs reg - offset) }
  | .AB dest => { s with pc := dest }
  | .ABcc cond dest => { s with pc := if cond.holds s.flags then dest else s.pc + 1 }
  | .ACASE reg =>
    -- pc reads two instructions ahead, and the table starts there
    { s with pc := if Cond.LS.holds s.flags then s.pc + 2 + (s.regs reg).toNat else s.pc + 1 }
  | .ABCASE dest => { s with pc := dest }

/-- One step; the machine stops when it leaves the dispatch code. -/
def step (t : Text) (s : State) : Option State := (fetch t s.pc).map (exec s)

/-- A switch statement at the point where `gen` has generated its body: labels
were pcs of code emitted after the function's `TEXT` and before the dispatch. -/
structure Stmt where
  etype : Etype
  items : List Item
  breakpc : Nat
  pc : Nat
  left : Nat
  right : Nat
  label_pos : ∀ item ∈ items, 0 < item.label
  label_before : ∀ item ∈ items, item.label < pc
  break_pos : 0 < breakpc
  break_before : breakpc < pc
  distinct : left ≠ right
  const_low : ∀ item ∈ items, ∀ et v, item.const = some (et, v) → -2 ^ 63 ≤ v
  const_high : ∀ item ∈ items, ∀ et v, item.const = some (et, v) → v < 2 ^ 63

namespace Stmt

def compiled (typeswitch : Etype → Bool) (s : Stmt) : Result :=
  oswitch typeswitch s.etype s.items s.breakpc s.left s.right ⟨s.pc, []⟩

/-- No error was reported; the warning about wide constants is not one. -/
def Accepted (typeswitch : Etype → Bool) (s : Stmt) : Prop := (s.compiled typeswitch).diags = []

instance (typeswitch : Etype → Bool) (s : Stmt) : Decidable (s.Accepted typeswitch) :=
  inferInstanceAs (Decidable ((s.compiled typeswitch).diags = []))

/-- The values the switch expression can have: it is evaluated as a signed long
or vlong. -/
def InRange (s : Stmt) (x : Int) : Prop :=
  if s.etype.typev then -2 ^ 63 ≤ x ∧ x < 2 ^ 63 else -2 ^ 31 ≤ x ∧ x < 2 ^ 31

/-- The registers that `regalloc` returned hold `x`. -/
def Holds (s : Stmt) (x : Int) (regs : Nat → BitVec 32) : Prop :=
  if s.etype.typev then regs s.right = BitVec.ofInt 32 x ∧ regs s.left = BitVec.ofInt 32 (x / 2 ^ 32)
  else regs s.left = BitVec.ofInt 32 x

/-- The constant equals the value. A constant of the width of the expression is
converted to its type; a wider one is compared as it is. -/
def Equals (s : Stmt) (x : Int) (et : Etype) (v : Int) : Prop :=
  if s.etype.typev || et.typev then v = x else int32 v = x

/-- The label a switch on `x` has to continue at. -/
def Selects (s : Stmt) (x : Int) (label : Nat) : Prop :=
  (∃ item ∈ s.items, ∃ et v, item.const = some (et, v) ∧ s.Equals x et v ∧ item.label = label) ∨
  ((∀ item ∈ s.items, ∀ et v, item.const = some (et, v) → ¬ s.Equals x et v) ∧
    ((∃ item ∈ s.items, item.const = none ∧ item.label = label) ∨
      (∀ item ∈ s.items, item.const ≠ none) ∧ s.breakpc = label))

/-- Running the dispatch code on `x` leaves it at the one label selected. -/
def Dispatches (typeswitch : Etype → Bool) (s : Stmt) (x : Int) : Prop :=
  ∀ regs flags, s.Holds x regs → ∃ final, Reaches (step (s.compiled typeswitch).text) ⟨s.pc, regs, flags⟩ final ∧
    step (s.compiled typeswitch).text final = none ∧ ∀ label, s.Selects x label ↔ final.pc = label

end Stmt

end Goken.Switch
