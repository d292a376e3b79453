import Goken.Regexec

/-! The compiler of regular expressions: `regcomp` (libregexp/regcomp.c). Instructions are
added to the program as the operators are evaluated; `rcerror` ends the compilation. -/

namespace Goken.Regcomp
open Regexec Rune

/-- The types of instructions and tokens. -/
inductive Kind where
  | MARK | RUNE | START | RBRA | LBRA | OR | CAT | STAR | PLUS | QUEST | ANY | ANYNL | NOP | BOL | EOL | CCLASS | NCCLASS | END
  deriving DecidableEq, Repr

/-- The precedence of an operator; `MARK` is `START-1`. -/
def Kind.precedence : Kind → Nat
  | .MARK => 0o177
  | .START => 0o200
  | .RBRA => 0o201
  | .LBRA => 0o202
  | .OR => 0o203
  | .CAT => 0o204
  | .STAR => 0o205
  | .PLUS => 0o206
  | .QUEST => 0o207
  | .RUNE => 0o177
  | .ANY => 0o300
  | .ANYNL => 0o301
  | .NOP => 0o302
  | .BOL => 0o303
  | .EOL => 0o304
  | .CCLASS => 0o305
  | .NCCLASS => 0o306
  | .END => 0o377

/-- `u1` of a `Reinst`. -/
inductive Union where
  | nil
  | cp (spans : List (Nat × Nat))
  | r (rune : Nat)
  | subid (id : Nat)
  | right (i : Nat)
  deriving DecidableEq, Repr

structure Reinst where
  type : Kind
  u1 : Union
  next : Option Nat
  deriving DecidableEq, Repr

def NSTACK : Nat := 20
def NCLASS : Nat := 16

/-- The runes in a `Reclass`: a pointer and 64 runes of four bytes. -/
def NCCRUNE : Nat := 66

/-- The static variables of the compiler; the stacks have their top first. -/
structure State where
  code : List Reinst
  andstack : List (Nat × Nat)
  atorstack : List (Kind × Nat)
  cursubid : Nat
  lastwasand : Bool
  nbra : Int
  exprp : List UInt8
  lexdone : Bool
  nclass : Nat
  yyrune : Nat
  yyclassp : List (Nat × Nat)
  deriving DecidableEq, Repr

/-- The compilation, or the message of `rcerror`. -/
abbrev Comp := Except String

def newinst (s : State) (t : Kind) (u1 : Union) (next : Option Nat) : Nat × State :=
  (s.code.length, { s with code := s.code ++ [⟨t, u1, next⟩] })

def setNext (s : State) (i next : Nat) : State := { s with code := s.code.modify i fun inst => { inst with next := some next } }

def pushand (s : State) (first last : Nat) : Comp State :=
  if NSTACK ≤ s.andstack.length then .error "can't happen: operand stack overflow"
  else .ok { s with andstack := (first, last) :: s.andstack }

def pushator (s : State) (t : Kind) : Comp State :=
  if NSTACK ≤ s.atorstack.length then .error "can't happen: operator stack overflow"
  else .ok { s with atorstack := (t, s.cursubid) :: s.atorstack }

def popand (s : State) (op : String) : Comp ((Nat × Nat) × State) :=
  match s.andstack with
  | [] => .error ("missing operand for " ++ op)
  | node :: rest => .ok (node, { s with andstack := rest })

/-- One operator of `evaluntil`; the state has it off the stack. -/
def evaluate (s : State) (subid : Nat) : Kind → Comp State
  | .LBRA => do
    let (op1, s) ← popand s "("
    let (inst2, s) := newinst s .RBRA (.subid subid) none
    let s := setNext s op1.2 inst2
    let (inst1, s) := newinst s .LBRA (.subid subid) (some op1.1)
    pushand s inst1 inst2
  | .OR => do
    let (op2, s) ← popand s "|"
    let (op1, s) ← popand s "|"
    let (inst2, s) := newinst s .NOP .nil none
    let s := setNext (setNext s op2.2 inst2) op1.2 inst2
    let (inst1, s) := newinst s .OR (.right op1.1) (some op2.1)
    pushand s inst1 inst2
  | .CAT => do
    let (op2, s) ← popand s ""
    let (op1, s) ← popand s ""
    pushand (setNext s op1.2 op2.1) op1.1 op2.2
  | .STAR => do
    let (op2, s) ← popand s "*"
    let (inst1, s) := newinst s .OR (.right op2.1) none
    pushand (setNext s op2.2 inst1) inst1 inst1
  | .PLUS => do
    let (op2, s) ← popand s "+"
    let (inst1, s) := newinst s .OR (.right op2.1) none
    pushand (setNext s op2.2 inst1) op2.1 inst1
  | .QUEST => do
    let (op2, s) ← popand s "?"
    let inst2 := s.code.length + 1
    let (inst1, s) := newinst s .OR (.right op2.1) (some inst2)
    let (inst2, s) := newinst s .NOP .nil none
    pushand (setNext s op2.2 inst2) inst1 inst2
  | _ => .error "unknown operator in evaluntil"

/-- `evaluntil` on the operators that are on the stack. -/
def evaluntil (pri : Kind) : List (Kind × Nat) → State → Comp State
  | [], s => .ok s
  | (t, subid) :: rest, s =>
    if pri = .RBRA ∨ pri.precedence ≤ t.precedence then do
      let s ← evaluate { s with atorstack := rest } subid t
      if t = .LBRA then .ok s else evaluntil pri rest s
    else .ok s

/-- `operator` for all but a left parenthesis. -/
def operate (s : State) (t : Kind) : Comp State := do
  let s := if t = .RBRA then { s with nbra := s.nbra - 1 } else s
  if t = .RBRA ∧ s.nbra < 0 then .error "unmatched right paren"
  else do
    let s ← evaluntil t s.atorstack s
    let s ← (if t ≠ .RBRA then pushator s t else .ok s)
    .ok { s with lastwasand := t = .STAR || t = .QUEST || t = .PLUS || t = .RBRA }

def operator (s : State) (t : Kind) : Comp State :=
  if t = .LBRA then
    if NSUBEXP ≤ s.cursubid + 1 then .error "too many subexpressions"
    else do
      let s := { s with cursubid := s.cursubid + 1, nbra := s.nbra + 1 }
      let s ← (if s.lastwasand then operate s .CAT else .ok s)
      let s ← pushator s t
      .ok { s with lastwasand := false }
  else operate s t

def operand (s : State) (t : Kind) : Comp State := do
  let s ← (if s.lastwasand then operator s .CAT else .ok s)
  let u1 := if t = .CCLASS ∨ t = .NCCLASS then Union.cp s.yyclassp else if t = .RUNE then Union.r s.yyrune else Union.nil
  let (i, s) := newinst s t u1 none
  let s ← pushand s i i
  .ok { s with lastwasand := true }

/-- A character of the expression, and what is left. -/
def take (exprp : List UInt8) : Nat × List UInt8 :=
  match chartorune (exprp ++ [0]) with
  | some (r, n) => (r.toNat, exprp.drop n)
  | none => (0, [])

/-- `nextc`: whether the character is quoted, and the character. -/
def nextc (s : State) : Bool × Nat × State :=
  if s.lexdone then (true, 0, s)
  else
    let (r, rest) := take s.exprp
    if r = 92 then
      let (r, rest) := take rest
      (true, r, { s with exprp := rest })
    else (false, r, { s with exprp := rest, lexdone := r = 0 })

/-- The loop of `bldcclass` over the characters of a class; the spans so far have the last one
first. -/
def spans : Nat → List (Nat × Nat) → Bool → Nat → State → Comp (List (Nat × Nat) × State)
  | 0, ep, _, _, s => .ok (ep, s)
  | fuel + 1, ep, quoted, rune, s =>
    if NCCRUNE ≤ 2 * ep.length then .ok (ep, s)
    else if rune = 0 then .error "malformed '[]'"
    else if ¬quoted ∧ rune = 93 then .ok (ep, s)
    else if ¬quoted ∧ rune = 45 then
      match ep with
      | [] => .error "malformed '[]'"
      | last :: ep =>
        let (quoted, rune, s) := nextc s
        if ¬quoted ∧ rune = 93 ∨ rune = 0 then .error "malformed '[]'"
        else
          let (quoted, next, s) := nextc s
          spans fuel ((last.1, rune) :: ep) quoted next s
    else
      let (quoted, next, s) := nextc s
      spans fuel ((rune, rune) :: ep) quoted next s

/-- Sort on span start. -/
def sort : Nat → List (Nat × Nat) → List (Nat × Nat)
  | 0, l => l
  | _ + 1, [] => []
  | fuel + 1, p :: rest =>
    let (p, rest) := rest.foldl (fun (p, done) np => if np.1 < p.1 then (np, done ++ [p]) else (p, done ++ [np])) (p, [])
    p :: sort fuel rest

def merge : List (Nat × Nat) → List (Nat × Nat)
  | [] => []
  | p :: rest => rest.foldl (fun np q =>
      match np with
      | [] => [q]
      | last :: np => if q.1 ≤ last.2 then (last.1, max last.2 q.2) :: np else q :: last :: np) [p] |>.reverse

def bldcclass (s : State) : Comp (Kind × State) :=
  if NCLASS ≤ s.nclass then .error "too many character classes; limit@"
  else do
    let s := { s with nclass := s.nclass + 1 }
    let (quoted, rune, s) := nextc s
    let negated := ¬quoted ∧ rune = 94
    let (quoted, rune, s) := if negated then nextc s else (quoted, rune, s)
    let (ep, s) ← spans (s.exprp.length + 2) (if negated then [(newline, newline)] else []) quoted rune s
    .ok (if negated then .NCCLASS else .CCLASS, { s with yyclassp := merge (sort ep.length ep.reverse) })

def lex (s : State) (literal : Bool) (dot : Kind) : Comp (Kind × State) :=
  let (quoted, rune, s) := nextc s
  let s := { s with yyrune := rune }
  if literal ∨ quoted then .ok (if rune = 0 then .END else .RUNE, s)
  else if rune = 0 then .ok (.END, s)
  else if rune = 42 then .ok (.STAR, s)
  else if rune = 63 then .ok (.QUEST, s)
  else if rune = 43 then .ok (.PLUS, s)
  else if rune = 124 then .ok (.OR, s)
  else if rune = 46 then .ok (dot, s)
  else if rune = 40 then .ok (.LBRA, s)
  else if rune = 41 then .ok (.RBRA, s)
  else if rune = 94 then .ok (.BOL, s)
  else if rune = 36 then .ok (.EOL, s)
  else if rune = 91 then bldcclass s
  else .ok (.RUNE, s)

def isOperator : Kind → Bool
  | .START | .RBRA | .LBRA | .OR | .CAT | .STAR | .PLUS | .QUEST => true
  | _ => false

/-- The loop over the tokens. -/
def tokens (literal : Bool) (dot : Kind) : Nat → State → Comp State
  | 0, s => .ok s
  | fuel + 1, s => do
    let (token, s) ← lex s literal dot
    if token = .END then .ok s
    else do
      let s ← (if isOperator token then operator s token else operand s token)
      tokens literal dot fuel s

/-- The end of a chain of `NOP`s. -/
def target (code : List Reinst) : Nat → Nat → Nat
  | 0, i => i
  | fuel + 1, i =>
    match code[i]? with
    | some ⟨.NOP, _, some next⟩ => target code fuel next
    | _ => i

def inst (code : List Reinst) (i : Reinst) : Inst :=
  let next := target code code.length (i.next.getD code.length)
  match i.type, i.u1 with
  | .RUNE, .r r => .RUNE r next
  | .LBRA, .subid id => .LBRA id next
  | .RBRA, .subid id => .RBRA id next
  | .ANY, _ => .ANY next
  | .ANYNL, _ => .ANYNL next
  | .BOL, _ => .BOL next
  | .EOL, _ => .EOL next
  | .CCLASS, .cp spans => .CCLASS spans next
  | .NCCLASS, .cp spans => .NCCLASS spans next
  | .OR, .right i => .OR i next
  | .END, _ => .END
  | _, _ => .NOP next

/-- Get rid of the chains of `NOP`s. -/
def optimize (code : List Reinst) : List Inst := code.map (inst code)

def regcomp1 (str : List UInt8) (literal : Bool) (dot : Kind) : Comp (List Inst × Nat) := do
  let s : State := ⟨[], [], [], 0, false, 0, str, false, 0, 0, []⟩
  let s ← pushator s .MARK
  let s ← tokens literal dot (str.length + 1) s
  let s ← evaluntil .START s.atorstack s
  let s ← operand s .END
  let s ← evaluntil .START s.atorstack s
  if s.nbra ≠ 0 then .error "unmatched left paren"
  else
    match s.andstack with
    | [] => .error "unmatched left paren"
    | node :: _ => .ok (optimize s.code, node.1)

def regcomp (str : List UInt8) : Comp (List Inst × Nat) := regcomp1 str false .ANY

def regcomplit (str : List UInt8) : Comp (List Inst × Nat) := regcomp1 str true .ANY

def regcompnl (str : List UInt8) : Comp (List Inst × Nat) := regcomp1 str false .ANYNL

end Goken.Regcomp
