import Mathlib.Data.List.Basic
import Mathlib.Algebra.Group.Int.Defs
import Mathlib.Algebra.Group.Nat.Defs

/-! The history of a composite source file in an executable, and libmach's two ways
through it: from a line of the composite file to a file and a line in it, and back. -/

namespace Goken.Fline

/-- An entry of the history. The name is the list of the indices of its path
components, two bytes each; an end marker has none. The offset is that of a `#line`
directive. -/
structure Hist where
  name : List UInt16
  line : Int
  offset : Int
deriving DecidableEq, Repr

/-! From the composite line. The history is an array, the pointers into it are indices;
the terminating entry without a name is the one past the end. -/

inductive Answer where
  /-- An included file ended at the entry. -/
  | ended (h : Nat)
  | eof
  | found (name : List UInt16) (line : Int)
deriving DecidableEq, Repr

def lineAt (hist : List Hist) (h : Nat) : Int := (hist[h]?.map Hist.line).getD 0

def nameAt (hist : List Hist) (h : Nat) : List UInt16 := (hist[h]?.map Hist.name).getD []

/-- What is printed where the loop stops. -/
def answer (hist : List Hist) (line : Int) (base start h : Nat) (delta : Int) : Answer :=
  match hist[h]? with
  | none => .eof
  | some _ => .found (nameAt hist start) (if start ≠ base then line - lineAt hist start + 1 else line - delta + 1)

/-- The loop of `fline`; `ret` says that the caller wants to know where the file ended. -/
def flineLoop (hist : List Hist) (line : Int) : Nat → Bool → Nat → Nat → Nat → Int → Option Answer
  | 0, _, _, _, _, _ => none
  | turns + 1, ret, base, start, h, delta =>
      match hist[h]? with
      | none => some (answer hist line base start h delta)
      | some e =>
          if line > e.line then
            if e.name ≠ [] then
              if e.offset ≠ 0 then flineLoop hist line turns ret h h (h + 1) (e.line - e.offset + 1)
              else if start = base then flineLoop hist line turns ret base h (h + 1) delta
              else
                match flineLoop hist line turns true start start start (lineAt hist start) with
                | some (.ended h) => flineLoop hist line turns ret base start h delta
                | other => other
            else if start = base ∧ ret then some (.ended h)
            else flineLoop hist line turns ret base base (h + 1) (delta + (e.line - lineAt hist start))
          else some (answer hist line base start h delta)

def fline (hist : List Hist) (line : Int) : Option Answer :=
  flineLoop hist line (3 * hist.length + 3) false 0 0 0 (lineAt hist 0)

/-! From the file and its line. A wanted name is a list of signed 16-bit numbers. -/

def short (j : UInt16) : Int := if j.toNat < 2 ^ 15 then j.toNat else (j.toNat : Int) - 2 ^ 16

/-- What is left of the wanted name when the entry's components have been compared;
after a mismatch the comparison starts over with the next component. -/
def hcompLoop (sp : List Int) : List Int → List UInt16 → List Int
  | s, [] => s
  | [], _ :: js => hcompLoop sp sp js
  | c :: s, j :: js => if c = j.toNat then hcompLoop sp s js else hcompLoop sp sp js

def hcomp (hp : Hist) (sp : List Int) : Bool := sp ≠ [] ∧ hcompLoop sp sp hp.name = []

def matching (name : List Int) (hp : Hist) : Bool := hp.name ≠ [] ∧ hcomp hp name

def unwind (name : List Int) (line : Int) : List Hist → Int → Int → Nat → Int
  | [], ln, offset, _ => ln + offset
  | hp :: rest, ln, offset, depth =>
      if depth = 0 then ln + offset
      else if hp.name ≠ [] then
        if hp.offset ≠ 0 then
          if hcomp hp name then
            if line ≤ hp.offset then ln
            else unwind name line rest (line + hp.line - hp.offset) 0 1
          else unwind name line rest ln 0 2
        else if depth = 1 ∧ ln < hp.line - offset then ln + offset
        else unwind name line rest ln (if depth = 1 then offset - hp.line else offset) (depth + 1)
      else unwind name line rest ln (if depth - 1 = 1 then offset + hp.line else offset) (depth - 1)

/-- The composite line, if the name is found. -/
def hline (hist : List Hist) (name : List Int) (line : Int) : Option Int :=
  match hist.dropWhile fun hp => !matching name hp with
  | [] => none
  | hp :: rest => some (unwind name line rest line (hp.line - 1) 1)

end Goken.Fline
