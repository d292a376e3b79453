import Mathlib.Tactic.Common
import Mathlib.Algebra.Group.Nat.Defs
import Mathlib.Algebra.GroupWithZero.Nat

/-! Integer constants: how `yylex` collects the characters of one and how `mpatov`
converts them (libcc/lex.c). A `vlong` is a word of 64 bits whose arithmetic wraps
around. -/

namespace Goken.Lex

/-- The characters from one code to another. -/
def between (first last : Char) (c : Char) : Bool := decide (first.toNat ≤ c.toNat) && decide (c.toNat ≤ last.toNat)

def isdigit : Char → Bool := between '0' '9'

def isoctal : Char → Bool := between '0' '7'

def ishex (c : Char) : Bool := isdigit c || between 'a' 'f' c || between 'A' 'F' c

/-- The label `dc`: a dot or an exponent makes the constant a floating one. -/
def dc (symb rest : List Char) : Option (List Char) :=
  match rest with
  | '.' :: _ | 'e' :: _ | 'E' :: _ => none
  | _ => some symb

/-- The label `tnum`, at a first character that is a digit: what is passed to `mpatov`.
None for a floating constant. The hexadecimal constant without digits is passed too,
after a diagnostic. -/
def tnum (c : Char) (input : List Char) : Option (List Char) :=
  if c ≠ '0' then dc (c :: input.takeWhile isdigit) (input.dropWhile isdigit)
  else match input with
    | [] => some [c]
    | x :: rest =>
      if x = 'x' ∨ x = 'X' then some (c :: x :: rest.takeWhile ishex)
      else if isoctal x then some (c :: input.takeWhile isoctal)
      else dc [c] input

/-- A character as a number of the host. -/
def code (c : Char) : BitVec 64 := BitVec.ofNat 64 c.toNat

/-- The loops of `mpatov`; a digit is none where the loop goes to `bad`. -/
def accumulate (radix : BitVec 64) (digit : Char → Option (BitVec 64)) : BitVec 64 → List Char → Option (BitVec 64)
  | n, [] => some n
  | n, c :: s =>
    match digit c with
    | none => none
    | some d =>
      let nn := n * radix + d
      if n.slt 0 ∧ ¬ nn.slt 0 then none else accumulate radix digit nn s

def decimal (c : Char) : Option (BitVec 64) := if isdigit c then some (code c - code '0') else none

/-- The test of the octal loop, `c >= '0' || c <= '7'`, holds of every character. -/
def octal (c : Char) : Option (BitVec 64) :=
  if '0'.toNat ≤ c.toNat ∨ c.toNat ≤ '7'.toNat then some (code c - code '0') else none

def hexadecimal (c : Char) : Option (BitVec 64) :=
  if isdigit c then some (code c + (0 - code '0'))
  else if between 'a' 'f' c then some (code c + (10 - code 'a'))
  else if between 'A' 'F' c then some (code c + (10 - code 'A'))
  else none

/-- The loop for a constant: after the label `oct` or `hex`, or without either. -/
def convert (s : List Char) : Option (BitVec 64) :=
  match s with
  | [] => accumulate 10 decimal 0 []
  | c :: s' =>
    if c = '0' then
      match s' with
      | [] => accumulate 8 octal 0 []
      | x :: s'' => if x = 'x' ∨ x = 'X' then accumulate 16 hexadecimal 0 s'' else accumulate 8 octal 0 s'
    else accumulate 10 decimal 0 s

/-- Whether there is an overflow, and what is stored. -/
def mpatov (s : List Char) : Bool × BitVec 64 :=
  match convert s with
  | some n => (false, n)
  | none => (true, ~~~ 0)

end Goken.Lex
