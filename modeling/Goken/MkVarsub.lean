import Goken.MkGraph

/-! Pattern substitution in mk, `${v:A%B=C%D}` (`varsub.c`). `stow`, which makes
words of the four texts, is an argument here. -/

namespace Goken.MkVarsub
open MkGraph

/-- `charin`, with the rest of the string from the character found on. -/
def charinRest (pat : Str) : Nat → Str → Bool → Option Str
  | 0, _, _ => none
  | fuel + 1, cp, vargen =>
      if cp.isEmpty then none else
      let (r, n) := rune cp
      let found := pat.any fun b => b.toNat = r
      if r = quote then
        match squote fuel (cp.drop 1) with
        | none => none
        | some cp => charinRest pat fuel (cp.drop n) vargen
      else if r = dollar then charinRest pat fuel (cp.drop n) (vargen || cp[1]? = some lbrace)
      else if r = rbrace then
        if vargen then charinRest pat fuel (cp.drop n) false
        else if found then some cp else charinRest pat fuel (cp.drop n) vargen
      else if found && !vargen then some cp else charinRest pat fuel (cp.drop n) vargen

def equals : UInt8 := 0x3D

/-- The words of a text up to one of the terminators, and the rest from there.
No words are made of a text that is empty because a terminator comes first. -/
def extractpat (stow : Str → List Str) (s term : Str) : List Str × Str :=
  match charinRest term (s.length + 1) s false with
  | some cp =>
      let before := s.take (s.length - cp.length)
      (if before.isEmpty then [] else stow before, cp)
  | none => (stow s, [])

/-- The word lists of a pattern, and whether its right side has the pattern
character. -/
structure Pattern where
  a : List Str
  b : List Str
  c : List Str
  d : List Str
  percent : Bool
  deriving Repr, DecidableEq

def startsWild (cp : Str) : Bool := cp.head?.any fun b => PERCENT b.toNat

/-- The first part of `subsub`. -/
def pattern (stow : Str → List Str) (s : Str) : Pattern :=
  let (a, cp) := extractpat stow s [equals, percent, ampersand]
  let (b, cp) := if startsWild cp then extractpat stow (cp.drop 1) [equals] else ([], cp)
  let (c, cp) := if cp.head? = some equals then extractpat stow (cp.drop 1) [ampersand, percent] else ([], cp)
  let d := if startsWild cp then stow (cp.drop 1) else if cp.isEmpty then [] else stow cp
  ⟨a, b, c, d, startsWild cp⟩

/-- The loop over the suffixes. There is no result when `end-n` is before the
start of the string. -/
def suffix (s : Str) : List Str → Option (Option Nat)
  | [] => some none
  | w :: rest =>
      if s.length < w.length then none
      else if w = s.drop (s.length - w.length) then some (some w.length)
      else suffix s rest

/-- `submatch`: `*nmid`, and `*enda` as an offset, when it succeeds. -/
def submatch (s : Str) (a b : List Str) : Option (Option (Int × Nat)) :=
  let w := a.find? fun w => w.isPrefixOf s
  if !a.isEmpty && w.isNone then some none
  else
    let n := (w.map List.length).getD 0
    match suffix s b with
    | none => none
    | some none => if b.isEmpty then some (some ((s.length : Int) - n, n)) else some none
    | some (some m) => some (some ((s.length : Int) - n - m, n))

/-- Write a text behind the last word, or make a word of it. -/
def appendLast : List Str → Str → List Str
  | [], text => [text]
  | [w], text => [w ++ text]
  | w :: next :: rest, text => w :: appendLast (next :: rest) text

/-- Write the first of the words behind the last one, the others after it. -/
def appendWords (w : List Str) : List Str → List Str
  | [] => w
  | first :: rest => if first.isEmpty then w else appendLast w first ++ rest

/-- The body of the loop of `subsub`: the words put in the place of one. -/
def subword (p : Pattern) (s : Str) : Option (List Str) :=
  match submatch s p.a p.b with
  | none => none
  | some none => some [s]
  | some (some (nmid, enda)) =>
      let w := p.c
      let w := if p.percent && 0 < nmid then appendLast w ((s.drop enda).take nmid.toNat) else w
      let w := appendWords w p.d
      some (if w.isEmpty then [s] else w)

def subsub (stow : Str → List Str) (v : List Str) (s : Str) : Option (List Str) :=
  (v.mapM (subword (pattern stow s))).map List.flatten

end Goken.MkVarsub
