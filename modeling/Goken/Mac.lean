import Goken.Lex

/-! Macros of the preprocessor: `macdef` and `macexpand` (libcc/mac.c), and how `yylex`
passes over a comment (libcc/lex.c). A text is what is still to be read, a character a byte
other than 0; its head is what `unget` puts back or, in the loops, the current character `c`. -/

namespace Goken.Mac
open Goken.Lex

def NARG : Nat := 25

def NSYMB : Nat := 1500

def BUFSIZ : Nat := 8192

section Characters

def isalpha (c : Char) : Bool := between 'a' 'z' c || between 'A' 'Z' c

def isalnum (c : Char) : Bool := isalpha c || isdigit c

def isspace (c : Char) : Bool := c = ' ' || between '\t' '\r' c

/-- From `Runeself` on. -/
def beyond (c : Char) : Bool := decide (0x80 ≤ c.toNat)

def letter (c : Char) : Bool := isalpha c || c = '_'

def wordChar (c : Char) : Bool := isalnum c || c = '_'

def symbolChar (c : Char) : Bool := isalnum c || c = '_' || beyond c

/-- What `getnsc` passes over. -/
def blank (c : Char) : Bool := isspace c && c ≠ '\n'

end Characters

abbrev Name := List Char

/-- What `yyerror` is called with, and a byte written behind `symb`, `arg` or the buffer of
the text. -/
inductive Error where
  | overrun
  | endOfFile
  | symbolTooLarge (symb : Name)
  | badDots
  | redefined (s : Name)
  | tooManyArguments (s : Name)
  | commentAndNewline (s : Name)
  | eofInMacro (s : Name)
  | badDefine (s : Option Name)
  | badExpansion (s : Name)
  | argumentMismatch (s : Name)
  | tooMuchText (s : Name)
  deriving DecidableEq, Repr

/-- What `s->macro` points to: the first byte, as `n + 1` and `VARMAC`, and the body. -/
structure Macro where
  count : Nat
  dots : Bool
  body : List Char
  deriving DecidableEq, Repr

section Reading

/-- `c = getc()`; the end of the file ends the compiler. -/
def getc : List Char → Except Error (List Char)
  | [] => .error .endOfFile
  | c :: rest => .ok (c :: rest)

def getnsc (text : List Char) : Option (Char × List Char) :=
  match text.dropWhile blank with
  | [] => none
  | c :: rest => some (c, rest)

/-- The name, or `S`; then what is still to be read and the errors that do not stop. -/
def getsym (text : List Char) : Except Error (Option Name × List Char × List Error) :=
  match getnsc text with
  | none => .ok (none, [], [])
  | some (c, rest) =>
    if letter c || beyond c then do
      let symb := c :: rest.takeWhile symbolChar
      let rest ← getc (rest.dropWhile symbolChar)
      .ok (some (symb.take (NSYMB - 3)), rest, if symb.length < NSYMB - 3 then [] else [.symbolTooLarge (symb.take (NSYMB - 3))])
    else .ok (none, c :: rest, [])

def getsymdots (text : List Char) : Except Error (Option Name × Bool × List Char × List Error) := do
  let (s, text, errors) ← getsym text
  match s with
  | some s => .ok (some s, false, text, errors)
  | none =>
    match getnsc text with
    | some ('.', rest) =>
      match rest with
      | '.' :: '.' :: rest => .ok (some "__VA_ARGS__".toList, true, rest, errors)
      | [] | ['.'] => .error .endOfFile
      | '.' :: _ :: rest => .ok (some "__VA_ARGS__".toList, true, rest, errors ++ [.badDots])
      | _ :: rest => .ok (some "__VA_ARGS__".toList, true, rest, errors ++ [.badDots])
    | some (c, rest) => .ok (none, false, c :: rest, errors)
    | none => .ok (none, false, [], errors)

end Reading

section Definition

/-- The loop over the parameters. -/
def parameters (s : Name) : Nat → List Name → List Char → List Error → Except Error (List Name × Bool × List Char × List Error)
  | 0, _, _, _ => .error .endOfFile
  | fuel + 1, args, text, errors => do
    let (a, dots, text, more) ← getsymdots text
    match a with
    | none => .error (.badDefine (some s))
    | some a =>
      if args.length ≥ NARG then .error (.tooManyArguments s)
      else
        match getnsc text with
        | none => .error (.badDefine (some s))
        | some (c, text) =>
          if c = ')' then .ok (args ++ [a], dots, text, errors ++ more)
          else if c ≠ ',' ∨ dots then .error (.badDefine (some s))
          else parameters s fuel (args ++ [a]) text (errors ++ more)

/-- The loop over a comment in a body, and whether it stopped at a newline. -/
def bodyComment : List Char → Except Error (List Char × Bool)
  | [] => .error .endOfFile
  | '*' :: '/' :: rest => do
    let rest ← getc rest
    .ok (rest, false)
  | '\n' :: rest => .ok ('\n' :: rest, true)
  | _ :: rest => bodyComment rest

/-- One turn of the loop over a body: what it appends, then where the loop goes on. -/
inductive Turn where
  | more (out : List Char) (ischr : Option Char) (text : List Char) (errors : List Error)
  | done (out : List Char) (text : List Char) (errors : List Error)

variable (s : Name) (args : List Name)

/-- The turn from the test for a backslash outside a string on. -/
def plain (out : List Char) (ischr : Option Char) (c : Char) (rest : List Char) (errors : List Error) : Except Error Turn :=
  if c = '\\' then
    match rest with
    | [] => .error .endOfFile
    | '\n' :: rest => do
      let text ← getc rest
      .ok (.more out ischr text errors)
    | _ => .ok (.more (out ++ ['\\']) ischr rest errors)
  else if c = '\n' then .ok (.done out rest errors)
  else
    let out := out ++ if c = '#' ∧ args ≠ [] then ['#', c] else [c]
    if rest = [] then .ok (.done out [] (errors ++ [.eofInMacro s])) else .ok (.more out ischr rest errors)

def turn (ischr : Option Char) (c : Char) (rest : List Char) (errors : List Error) : Except Error Turn :=
  match ischr with
  | none =>
    if letter c then
      let symb := c :: rest.takeWhile wordChar
      if NSYMB < symb.length then .error .overrun
      else do
        let text ← getc (rest.dropWhile wordChar)
        if symb.length = NSYMB then .error .overrun -- the NUL
        else
          match args.idxOf? symb with
          | some i => .ok (.more ['#', Char.ofNat ('a'.toNat + i)] none text errors)
          | none => .ok (.more symb none text errors)
    else if c = '"' ∨ c = '\'' then do
      let text ← getc rest
      .ok (.more [c] (some c) text errors)
    else if c = '/' then
      match rest with
      | [] => .error .endOfFile
      | '/' :: line => do
        let text ← getc (line.dropWhile (· ≠ '\n'))
        .ok (.more [] none text errors)
      | '*' :: comment => do
        let (text, newline) ← bodyComment comment
        .ok (.more [] none text (errors ++ if newline then [.commentAndNewline s] else []))
      | _ => .ok (.more ['/'] none rest errors)
    else plain s args [] none c rest errors
  | some quote =>
    if c = '\\' then
      match rest with
      | [] => .error .endOfFile
      | c :: rest => plain s args ['\\'] ischr c rest errors
    else plain s args [] (if c = quote then none else ischr) c rest errors

/-- A newline ends the body. -/
example (rest : List Char) (errors : List Error) : turn s args none '\n' rest errors = .ok (.done [] rest errors) := by
  simp only [turn]
  rfl

/-- The loop over a body. -/
def body : Nat → Option Char → List Char → List Error → Except Error (List Char × List Char × List Error)
  | 0, _, _, _ => .error .endOfFile
  | _ + 1, _, [], _ => .error .endOfFile
  | fuel + 1, ischr, c :: rest, errors => do
    match ← turn s args ischr c rest errors with
    | .done out text errors => .ok (out, text, errors)
    | .more out ischr text errors =>
      let (base, text, errors) ← body fuel ischr text errors
      .ok (out ++ base, text, errors)

/-- The parameters after the name: the first byte, the names and what follows. -/
def heading (text : List Char) (errors : List Error) : Except Error (Nat × Bool × List Name × List Char × List Error) :=
  match text with
  | '(' :: text =>
    match getnsc text with
    | none => .error (.badDefine (some s))
    | some (c, rest) => do
      if c = ')' then
        let text ← getc rest
        .ok (1, false, [], text, errors)
      else
        let (args, dots, text, errors) ← parameters s (rest.length + 1) [] (c :: rest) errors
        let text ← getc text
        .ok (args.length + 1, dots, args, text, errors)
  | text => .ok (0, false, [], text, errors)

/-- `macdef`, after `#define`; `again` says that the name is that of a macro. Then what is
still to be read and the errors that do not stop. -/
def macdef (again : Name → Bool) (text : List Char) : Except Error (Name × Macro × List Char × List Error) := do
  let (s, text, errors) ← getsym text
  match s with
  | none => .error (.badDefine none)
  | some s =>
    let (count, dots, args, text, errors) ← heading s text (errors ++ if again s then [.redefined s] else [])
    let text ← getc (text.dropWhile blank)
    let (base, text, errors) ← body s args (text.length + 1) none text errors
    .ok (s, ⟨count, dots, base⟩, text, errors)

end Definition

section Expansion

/-- The loop over a comment in an argument. -/
def argComment : List Char → Except Error (List Char)
  | '*' :: '/' :: rest => .ok rest
  | '*' :: _ :: rest => argComment rest
  | _ :: rest => argComment rest
  | [] => .error .endOfFile

/-- The loop over a comment in `yylex`. -/
def lexComment : List Char → Except Error (List Char)
  | '*' :: '/' :: rest => .ok rest
  | _ :: rest => lexComment rest
  | [] => .error .endOfFile

/-- How far `cp` is from `buf`. -/
def used (arg : List (List Char)) (cur : List Char) : Nat := (arg.map fun a => a.length + 1).sum + cur.length

/-- `sizeof(buf)-4`. -/
def room : Nat := 2000 - 4

variable (s : Name)

/-- The loop over a string or a character in an argument. -/
def quoted (quote : Char) (arg : List (List Char)) : Char → List Char → List Char → Except Error (List Char × List Char)
  | c, cur, text =>
    if used arg cur ≥ room then .error (.tooMuchText s)
    else
      match text with
      | [] => .error .endOfFile
      | c' :: rest =>
        if c' = '\\' then
          match rest with
          | [] => .error .endOfFile
          | c'' :: rest => quoted quote arg c'' (cur ++ [c, c']) rest
        else if c' = '\n' then .error (.badExpansion s)
        else if c' = quote then .ok (cur ++ [c], rest)
        else quoted quote arg c' (cur ++ [c]) rest

/-- The loop over the arguments; `l` is the depth. -/
def arguments (nargs : Nat) (dots : Bool) :
    Nat → Nat → List (List Char) → List Char → List Char → Except Error (List (List Char) × List Char)
  | 0, _, _, _, _ => .error .endOfFile
  | fuel + 1, l, arg, cur, text =>
    if used arg cur ≥ room then .error (.tooMuchText s)
    else
      match text with
      | [] => .error .endOfFile
      | c :: rest =>
        if c = '"' ∨ c = '\'' then do
          let (cur, rest) ← quoted s c arg c cur rest
          arguments nargs dots fuel l arg (cur ++ [c]) rest
        else if c = '/' then
          match rest with
          | [] => .error .endOfFile
          | '*' :: rest => do
            let rest ← argComment rest
            arguments nargs dots fuel l arg (cur ++ [' ']) rest
          | '/' :: rest =>
            match rest.dropWhile (· ≠ '\n') with
            | [] => .error .endOfFile
            | _ :: rest => arguments nargs dots fuel l arg (cur ++ [' ']) rest
          | _ => arguments nargs dots fuel l arg (cur ++ ['/']) rest
        else if l = 0 ∧ c = ',' then
          if arg.length + 1 = nargs ∧ dots then arguments nargs dots fuel l arg (cur ++ [',']) rest
          else if arg.length + 1 ≥ NARG then .error .overrun
          else if arg.length + 2 > nargs then .ok (arg ++ [cur, []], rest)
          else arguments nargs dots fuel l (arg ++ [cur]) [] rest
        else if l = 0 ∧ c = ')' then .ok (arg ++ [cur], rest)
        else
          arguments nargs dots fuel (if c = '(' then l + 1 else if c = ')' then l - 1 else l) arg
            (cur ++ [if c = '\n' then ' ' else c]) rest

/-- The loop over the body of the macro: what it writes, and whether it comes to the end. -/
def substitute (arg : List (List Char)) : List Char → List Char × Bool
  | [] => ([], true)
  | ['#'] => ([], false)
  | '#' :: c :: rest =>
    let (text, whole) := substitute arg rest
    if c = '#' then (c :: text, whole)
    else if c.toNat < 'a'.toNat then (text, whole)
    else ((arg[c.toNat - 'a'.toNat]?).getD [] ++ text, whole)
  | c :: rest =>
    let (text, whole) := substitute arg rest
    ((if c = '\n' then ' ' else c) :: text, whole)

/-- `macexpand`: the text in `b` and what is still to be read. -/
def macexpand (m : Macro) (text : List Char) : Except Error (List Char × List Char) :=
  if m.count = 0 ∧ m.dots = false then
    if BUFSIZ ≤ m.body.length then .error .overrun else .ok (m.body, text)
  else
    let nargs := m.count - 1
    match getnsc text with
    | some ('(', text) => do
      let (arg, text) ← match text with
        | [] => .error .endOfFile
        | ')' :: text => .ok ([], text)
        | _ => arguments s nargs m.dots (text.length + 1) 0 [] [] text
      if arg.length ≠ nargs then .error (.argumentMismatch s)
      else
        let (b, whole) := substitute arg m.body
        if BUFSIZ ≤ b.length then .error .overrun
        else if whole then .ok (b, text)
        else .error (.badExpansion s)
    | _ => .error (.badExpansion s)

end Expansion

end Goken.Mac
