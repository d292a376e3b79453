import Goken.Regexec

/-! Execution of compiled regular expressions on strings of runes: `rregexec`
(libregexp/rregexec.c). The variables, the lists and what an instruction does to them are
those of `regexec`; a pointer is the number of runes from `bol`. -/

namespace Goken.Rregexec
open Regexec Lib.Steps

/-- `5*LISTSIZE`. -/
def BIGLISTSIZE : Nat := 5 * LISTSIZE

section Machine

variable (prog : Reprog) (runes : List Nat) (j : Reljunk)

/-- `*s`; the string ends with a zero. -/
def rune (s : Nat) : Nat := runes.getD s 0

/-- The loop of the fast check, on the runes from `s` on. -/
def scan (sought : Nat) : List Nat → Nat → Option Nat
  | [], s => if sought = 0 then some s else none
  | r :: rest, s => if r = sought then some s else if r = 0 ∨ some s = j.eol then none else scan sought rest (s + 1)

/-- Where the fast check goes on, or `none` if it returns. -/
def skip (c : Config) : Option Nat :=
  if c.checkstart then
    match j.starttype with
    | .zero => some c.s
    | .RUNE => scan j j.startchar (runes.drop c.s) c.s
    | .BOL => if c.s = 0 then some c.s else scan j newline (runes.drop c.s) c.s
  else some c.s

/-- A turn of the outer loop up to the execution of the list. -/
def turn (c : Config) : Config :=
  match skip runes j c with
  | none => c.result
  | some s =>
    let tl := renewemptythread c.nl prog.startinst s
    { c with
      phase := if j.size ≤ tl.length then .overrun else .list
      s, r := rune runes s, n := 1, tl, nl := [], t := 0 }

/-- The end of a turn. -/
def bottom (c : Config) : Config :=
  if some c.s = j.eol then c.result
  else
    let c := { c with checkstart := decide (j.startchar ≠ 0) && c.nl.isEmpty, s := c.s + c.n }
    if c.r ≠ 0 then { c with phase := .turn } else c.result

/-- `switch(inst->type)`. -/
def execute (c : Config) (se : Resublist) : Inst → Config
  | .RUNE r next => if r = c.r then push j c next se else c.advance
  | .LBRA subid next => { c.setSe (Function.update se subid { se subid with s := some c.s }) with phase := .inst next }
  | .RBRA subid next => { c.setSe (Function.update se subid { se subid with e := some c.s }) with phase := .inst next }
  | .ANY next => if c.r ≠ newline then push j c next se else c.advance
  | .ANYNL next => push j c next se
  | .BOL next => if c.s = 0 ∨ rune runes (c.s - 1) = newline then { c with phase := .inst next } else c.advance
  | .EOL next => if some c.s = j.eol ∨ c.r = 0 ∨ c.r = newline then { c with phase := .inst next } else c.advance
  | .CCLASS spans next => if within spans c.r then push j c next se else c.advance
  | .NCCLASS spans next => if within spans c.r then c.advance else push j c next se
  | .OR right left => postpone j c right left se
  | .END =>
    let se := Function.update se 0 { se 0 with e := some c.s }
    { c.setSe se with matched := true, mp := renewmatch c.mp se }.advance
  | .NOP _ => c.advance

def step (c : Config) : Option Config :=
  match c.phase with
  | .turn => some (turn prog runes j c)
  | .list =>
    match c.tl[c.t]? with
    | some tlp => some { c with phase := .inst tlp.inst }
    | none => some (bottom j c)
  | .inst i =>
    match c.tl[c.t]?, prog.insts[i]? with
    | some tlp, some inst => some (execute runes j c tlp.se inst)
    | _, _ => none
  | .returned _ | .overrun => none

/-- The variables before the outer loop. -/
def start (ms : Nat) : Config :=
  ⟨.turn, j.starts, decide (j.startchar ≠ 0), 0, 0, false, List.replicate ms ⟨none, none⟩, [], [], 0⟩

end Machine

/-- A call of `rregexec1` comes to a configuration. -/
def Runs (prog : Reprog) (runes : List Nat) (mp : List Resub) (size : Nat) (c : Config) : Prop :=
  Reaches (step prog runes (junk prog mp size)) (start (junk prog mp size) mp.length) c

/-- `rregexec` returns a value and leaves `mp`: the lists are tried in two sizes. -/
inductive Returns (prog : Reprog) (runes : List Nat) (mp : List Resub) : Int → List Resub → Prop where
  | small {c : Config} {rv : Int} (run : Runs prog runes mp LISTSIZE c) (returns : c.phase = .returned rv) (fits : 0 ≤ rv) :
      Returns prog runes mp rv c.mp
  | big {c c' : Config} {rv rv' : Int} (run : Runs prog runes mp LISTSIZE c) (returns : c.phase = .returned rv) (full : rv < 0)
      (again : Runs prog runes mp BIGLISTSIZE c') (returns' : c'.phase = .returned rv') : Returns prog runes mp rv' c'.mp

end Goken.Rregexec
