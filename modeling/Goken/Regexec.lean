import Goken.Lib.Steps
import Goken.Rune
import Mathlib.Logic.Function.Basic

/-! Execution of compiled regular expressions: `regexec` (libregexp/regexec.c) with
the lists of threads of libregexp/regaux.c. A pointer into the string is an offset from
`bol`, a nil pointer `none`; `mp` is empty if it is nil or `ms` is not positive. The
machine takes one step for each turn of the outer loop, each entry of a list and each
instruction. -/

namespace Goken.Regexec
open Lib.Steps Rune

def Runeself : Nat := 0x80
def newline : Nat := 10
def NSUBEXP : Nat := 32
def LISTSIZE : Nat := 10
def BIGLISTSIZE : Nat := 10 * LISTSIZE

/-- `Reinst`; an instruction is named by its place in the program. -/
inductive Inst where
  | RUNE (r : Nat) (next : Nat)
  | LBRA (subid : Nat) (next : Nat)
  | RBRA (subid : Nat) (next : Nat)
  | ANY (next : Nat)
  | ANYNL (next : Nat)
  | NOP (next : Nat)
  | BOL (next : Nat)
  | EOL (next : Nat)
  | CCLASS (spans : List (Nat × Nat)) (next : Nat)
  | NCCLASS (spans : List (Nat × Nat)) (next : Nat)
  | OR (right left : Nat)
  | END
  deriving DecidableEq, Repr

/-- The places an instruction refers to. -/
def Inst.targets : Inst → List Nat
  | .RUNE _ next | .LBRA _ next | .RBRA _ next | .ANY next | .ANYNL next | .NOP next | .BOL next | .EOL next
  | .CCLASS _ next | .NCCLASS _ next => [next]
  | .OR right left => [right, left]
  | .END => []

structure Reprog where
  insts : List Inst
  startinst : Nat
  starts : startinst < insts.length
  inside : ∀ inst ∈ insts, ∀ i ∈ inst.targets, i < insts.length

structure Resub where
  s : Option Nat
  e : Option Nat
  deriving DecidableEq, Repr

/-- The elements of `Resublist`. -/
abbrev Resublist := Nat → Resub

structure Relist where
  inst : Nat
  se : Resublist

inductive Start where
  | zero | RUNE | BOL
  deriving DecidableEq, Repr

/-- `Reljunk`, with the number of elements of each list. -/
structure Reljunk where
  size : Nat
  starttype : Start
  startchar : Nat
  starts : Nat
  eol : Option Nat
  deriving DecidableEq, Repr

/-- Pointers as they compare: nil is below all others. -/
def ptr : Option Nat → Nat
  | none => 0
  | some p => p + 1

def renewmatch (mp : List Resub) (sp : Resublist) : List Resub :=
  match mp with
  | [] => []
  | m :: _ =>
    if m.s = none ∨ ptr (sp 0).s < ptr m.s ∨ ((sp 0).s = m.s ∧ ptr (sp 0).e > ptr m.e) then
      (List.range mp.length).map fun i => if i < NSUBEXP then sp i else ⟨none, none⟩
    else mp

/-- The list from `lp` on, and whether an entry has been added at its end. -/
def renewthread : List Relist → Nat → Resublist → List Relist × Bool
  | [], ip, sep => ([⟨ip, sep⟩], true)
  | p :: rest, ip, sep =>
    if p.inst = ip then ((if ptr (sep 0).s < ptr (p.se 0).s then ⟨ip, sep⟩ else p) :: rest, false)
    else
      let (rest, grown) := renewthread rest ip sep
      (p :: rest, grown)

def renewemptythread (lp : List Relist) (ip : Nat) (sp : Nat) : List Relist :=
  (renewthread lp ip (Function.update (fun _ => ⟨none, none⟩) 0 ⟨some sp, none⟩)).1

/-- `*(uchar*)s`; the string ends with a NUL. -/
def uchar (text : List UInt8) (s : Nat) : Nat := ((text.getD s 0).toNat)

/-- `r` and `n`: the character at `s` and its length. -/
def char (text : List UInt8) (s : Nat) : Nat × Nat :=
  if uchar text s < Runeself then (uchar text s, 1)
  else match chartorune ((text ++ [0]).drop s) with
    | some (r, n) => (r.toNat, n)
    | none => (Runeerror, 1)

def strchr (c : Nat) : List UInt8 → Option Nat
  | [] => if c = 0 then some 0 else none
  | b :: rest => if b.toNat = c then some 0 else if b = 0 then none else (strchr c rest).map (· + 1)

/-- `utfrune` of a character below `Runesync`. -/
def utfrune (text : List UInt8) (s : Nat) (c : Nat) : Option Nat := (strchr c (text.drop s)).map (· + s)

inductive Phase where
  | turn
  | list
  | inst (i : Nat)
  | returned (rv : Int)
  | overrun
  deriving DecidableEq, Repr

/-- The variables of `regexec1`; `t` is `tlp - tl`. -/
structure Config where
  phase : Phase
  s : Nat
  checkstart : Bool
  r : Nat
  n : Nat
  matched : Bool
  mp : List Resub
  tl : List Relist
  nl : List Relist
  t : Nat

section Machine

variable (prog : Reprog) (text : List UInt8) (j : Reljunk)

/-- What the fast check looks for. -/
def sought (c : Config) : Option Nat :=
  if c.checkstart then
    match j.starttype with
    | .zero => none
    | .RUNE => some j.startchar
    | .BOL => if c.s = 0 then none else some newline
  else none

/-- Where the fast check goes on, or `none` if it returns. -/
def skip (c : Config) : Option Nat :=
  match sought j c with
  | none => some c.s
  | some ch =>
    match utfrune text c.s ch with
    | none => none
    | some p => if some c.s = j.eol then none else some p

def Config.result (c : Config) : Config := { c with phase := .returned (if c.matched then 1 else 0) }

/-- A turn of the outer loop up to the execution of the list. -/
def turn (c : Config) : Config :=
  match skip text j c with
  | none => c.result
  | some s =>
    let tl := if c.matched then c.nl else renewemptythread c.nl prog.startinst s
    { c with
      phase := if j.size ≤ tl.length then .overrun else .list
      s, r := (char text s).1, n := (char text s).2, tl, nl := [], t := 0 }

/-- The end of a turn. -/
def bottom (c : Config) : Config :=
  if some c.s = j.eol then c.result
  else
    let c := { c with checkstart := decide (j.starttype ≠ Start.zero) && c.nl.isEmpty, s := c.s + c.n }
    if c.r ≠ 0 then { c with phase := .turn } else c.result

/-- The next entry of the list. -/
def Config.advance (c : Config) : Config := { c with phase := .list, t := c.t + 1 }

/-- An entry for the next character. -/
def push (c : Config) (next : Nat) (se : Resublist) : Config :=
  let (nl, grown) := renewthread c.nl next se
  let c := { c with nl }
  if grown = true ∧ nl.length = j.size - 2 then { c with phase := .returned (-1) } else c.advance

/-- The right choice of an alternation, to be evaluated later. -/
def postpone (c : Config) (right left : Nat) (se : Resublist) : Config :=
  let (tlp, grown) := renewthread (c.tl.drop c.t) right se
  let c := { c with tl := c.tl.take c.t ++ tlp }
  if grown = true ∧ c.tl.length = j.size - 2 then { c with phase := .returned (-1) }
  else if j.size ≤ c.tl.length then { c with phase := .overrun }
  else { c with phase := .inst left }

def within (spans : List (Nat × Nat)) (r : Nat) : Bool := spans.any fun span => span.1 ≤ r && r ≤ span.2

/-- The subexpressions of the entry that is executed. -/
def Config.setSe (c : Config) (se : Resublist) : Config := { c with tl := c.tl.modify c.t fun p => { p with se } }

/-- `switch(inst->type)`. -/
def execute (c : Config) (se : Resublist) : Inst → Config
  | .RUNE r next => if r = c.r then push j c next se else c.advance
  | .LBRA subid next => { c.setSe (Function.update se subid { se subid with s := some c.s }) with phase := .inst next }
  | .RBRA subid next => { c.setSe (Function.update se subid { se subid with e := some c.s }) with phase := .inst next }
  | .ANY next => if c.r ≠ newline then push j c next se else c.advance
  | .ANYNL next => push j c next se
  | .BOL next => if c.s = 0 ∨ uchar text (c.s - 1) = newline then { c with phase := .inst next } else c.advance
  | .EOL next => if some c.s = j.eol ∨ c.r = 0 ∨ c.r = newline then { c with phase := .inst next } else c.advance
  | .CCLASS spans next => if within spans c.r then push j c next se else c.advance
  | .NCCLASS spans next => if within spans c.r then c.advance else push j c next se
  | .OR right left => postpone j c right left se
  | .END =>
    let se := Function.update se 0 { se 0 with e := some c.s }
    { c.setSe se with matched := true, mp := renewmatch c.mp se }.advance
  | .NOP _ => c.advance

def step (c : Config) : Option Config :=
  match c.phase with
  | .turn => some (turn prog text j c)
  | .list =>
    match c.tl[c.t]? with
    | some tlp => some { c with phase := .inst tlp.inst }
    | none => some (bottom j c)
  | .inst i =>
    match c.tl[c.t]?, prog.insts[i]? with
    | some tlp, some inst => some (execute text j c tlp.se inst)
    | _, _ => none
  | .returned _ | .overrun => none

/-- The variables before the outer loop. -/
def start (ms : Nat) : Config :=
  ⟨.turn, j.starts, decide (j.starttype ≠ Start.zero), 0, 0, false, List.replicate ms ⟨none, none⟩, [], [], 0⟩

end Machine

def starttype (prog : Reprog) : Start × Nat :=
  match prog.insts[prog.startinst]? with
  | some (.RUNE r _) => if r < Runeself then (.RUNE, r) else (.zero, 0)
  | some (.BOL _) => (.BOL, 0)
  | _ => (.zero, 0)

/-- What `regexec` puts in `j`. -/
def junk (prog : Reprog) (mp : List Resub) (size : Nat) : Reljunk :=
  let bounds := mp.headD ⟨none, none⟩
  ⟨size, (starttype prog).1, (starttype prog).2, bounds.s.getD 0, bounds.e⟩

/-- A call of `regexec1` comes to a configuration. -/
def Runs (prog : Reprog) (text : List UInt8) (mp : List Resub) (size : Nat) (c : Config) : Prop :=
  Reaches (step prog text (junk prog mp size)) (start (junk prog mp size) mp.length) c

/-- `regexec` returns a value and leaves `mp`: the lists are tried in two sizes. -/
inductive Returns (prog : Reprog) (text : List UInt8) (mp : List Resub) : Int → List Resub → Prop where
  | small {c : Config} {rv : Int} (run : Runs prog text mp LISTSIZE c) (returns : c.phase = .returned rv) (fits : 0 ≤ rv) :
      Returns prog text mp rv c.mp
  | big {c c' : Config} {rv rv' : Int} (run : Runs prog text mp LISTSIZE c) (returns : c.phase = .returned rv) (full : rv < 0)
      (again : Runs prog text mp BIGLISTSIZE c') (returns' : c'.phase = .returned rv') : Returns prog text mp rv' c'.mp

end Goken.Regexec
