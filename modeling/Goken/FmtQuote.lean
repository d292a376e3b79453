import Goken.Rune

/-! Quoted formatting, the verbs q and Q of libc (`fmtquote.c`, `dofmt.c`).
Strings are what stands before the NUL or the zero rune. The output is the list
of bytes, or of runes, that is written; a format that can flush its buffer, or
has room enough in it, writes all of them. -/

namespace Goken.FmtQuote
open Goken.Rune

def FmtWidth : Nat := 1
def FmtLeft : Nat := 2
def FmtPrec : Nat := 4
def FmtSharp : Nat := 8

def Runeself : Nat := 0x80

/-- The fields of `Fmt` that are read here. `room` is from `to` to `stop`. -/
structure Fmt where
  runes : Bool
  flush : Bool
  room : Int
  width : Int
  prec : Int
  flags : Nat
  deriving Repr, DecidableEq

def Fmt.has (f : Fmt) (flag : Nat) : Bool := f.flags &&& flag ≠ 0

structure Quoteinfo where
  quoted : Bool
  nrunesin : Nat
  nbytesin : Nat
  nrunesout : Nat
  nbytesout : Nat
  deriving Repr, DecidableEq

def space : Nat := 0x20
def quote : Nat := 0x27

/-- The runes that `chartorune` finds up to the NUL, with their lengths. -/
def chars : Nat → List UInt8 → List (Rune × Nat)
  | 0, _ => []
  | fuel + 1, s =>
      match chartorune (s ++ [0]) with
      | none => []
      | some (c, w) => if c = 0 then [] else (c, w) :: chars fuel (s.drop w)

/-- The argument of a verb: UTF, or runes. -/
inductive Input where
  | bytes (s : List UInt8)
  | runes (r : List Rune)
  deriving Repr, DecidableEq

def Input.chars : Input → List (Rune × Nat)
  | .bytes s => FmtQuote.chars (s.length + 1) s
  | .runes r => r.map fun c => (c, runelen c)

/-- Whether a character of `w` bytes does not fit with `extra` quotes. -/
def noRoom (nout : Int) (runesout : Bool) (q : Quoteinfo) (extra w : Nat) : Bool :=
  if runesout then nout < extra + q.nrunesout + 1 else nout < extra + q.nbytesout + w

def needsQuotes (fmtdoquote : Rune → Bool) (c : Rune) : Bool := c.toNat ≤ space || c.toNat = quote || fmtdoquote c

def addQuotes (q : Quoteinfo) : Quoteinfo :=
  { q with quoted := true, nrunesout := q.nrunesout + 2, nbytesout := q.nbytesout + 2 }

/-- Quotes reproduce as two characters. -/
def addChar (q : Quoteinfo) (c : Rune) (w : Nat) : Quoteinfo :=
  let twice := if c.toNat = quote then 1 else 0
  { q with
    nrunesin := q.nrunesin + 1
    nbytesin := q.nbytesin + w
    nrunesout := q.nrunesout + twice + 1
    nbytesout := q.nbytesout + twice + w }

/-- The loop of `__quotesetup`. -/
def setupLoop (fmtdoquote : Rune → Bool) (nout : Int) (runesout : Bool) : List (Rune × Nat) → Int → Quoteinfo → Quoteinfo
  | [], _, q => q
  | (c, w) :: rest, nin, q =>
      if nin = 0 || noRoom nout runesout q 0 w then q else
      let opens := needsQuotes fmtdoquote c && !q.quoted
      if opens && noRoom nout runesout q 2 w then q else
      let q := if opens then addQuotes q else q
      if c.toNat = quote && noRoom nout runesout q 1 w then q else
      setupLoop fmtdoquote nout runesout rest (nin - (w - 1) - 1) (addChar q c w)

/-- `__quotesetup`. Its counters are `int`: above 0x7FFFFFFF they overflow, and here they do not. -/
def quotesetup (fmtdoquote : Rune → Bool) (input : Input) (nin nout : Int) (sharp runesout : Bool) : Quoteinfo :=
  if sharp || nin = 0 || input.chars.isEmpty then
    if nout < 2 then ⟨false, 0, 0, 0, 0⟩
    else setupLoop fmtdoquote nout runesout input.chars nin ⟨true, 0, 0, 2, 2⟩
  else setupLoop fmtdoquote nout runesout input.chars nin ⟨false, 0, 0, 0, 0⟩

/-- FMTRCHAR and FMTRUNE. -/
def put (runes : Bool) (r : Rune) : List Nat := if runes then [r.toNat] else (runetochar r).map UInt8.toNat

/-- A rune inside of quotes. -/
def putQuoted (runes : Bool) (r : Rune) : List Nat := put runes r ++ if r.toNat = quote then put runes r else []

def pad (n : Int) : List Nat := List.replicate n.toNat space

/-- The loop over at most `nc` runes of the bytes from `m` on, of which `left`
belong to the string. -/
def copyBytes (emit : Rune → List Nat) : Nat → List UInt8 → Int → List Nat
  | 0, _, _ => []
  | nc + 1, m, left =>
      let r := m.headD 0
      if r.toNat < Runeself then emit (.ofNat r.toNat) ++ copyBytes emit nc m.tail (left - 1)
      else if UTFmax ≤ left || fullrune (m ++ [0]) left = some true then
        match chartorune (m ++ [0]) with
        | none => []
        | some (r, n) => emit r ++ copyBytes emit nc (m.drop n) (left - n)
      else []

/-- The field around what is written. -/
def Fmt.justify (f : Fmt) (n : Int) (body : List Nat) : List Nat :=
  let w := if f.has FmtWidth then f.width else 0
  (if f.has FmtLeft then [] else pad (w - n)) ++ body ++ (if f.has FmtLeft then pad (w - n) else [])

def fmtcpy (f : Fmt) (m : List UInt8) (n sz : Int) : List Nat :=
  let n := if f.has FmtPrec && f.prec < n then f.prec else n
  f.justify n (copyBytes (put f.runes) n.toNat m sz)

def fmtrcpy (f : Fmt) (m : List Rune) (n : Int) : List Nat :=
  let n := if f.has FmtPrec && f.prec < n then f.prec else n
  f.justify n ((m.take n.toNat).flatMap (put f.runes))

/-- `*(uchar*)rm`, on a machine that stores the low byte first. -/
def lowByte (r : Rune) : Rune := .ofNat (r.toNat % 256)

/-- The text between the quotes. -/
def quotedText (runes : Bool) (input : Input) (q : Quoteinfo) : List Nat :=
  match input with
  | .bytes m => copyBytes (putQuoted runes) q.nrunesin m q.nbytesin
  | .runes rm => (rm.take q.nrunesin).flatMap fun r => putQuoted runes (lowByte r)

def qstrfmt (input : Input) (q : Quoteinfo) (f : Fmt) : List Nat :=
  f.justify (if f.runes then q.nrunesout else q.nbytesout) (put f.runes (.ofNat quote) ++ quotedText f.runes input q ++ put f.runes (.ofNat quote))

/-- `outlen`. -/
def Fmt.outlen (f : Fmt) : Int := if f.flush then 0x7FFFFFFF else f.room

def Fmt.nin (f : Fmt) : Int := if f.has FmtPrec then f.prec else -1

def nilText : List UInt8 := [0x3C, 0x6E, 0x69, 0x6C, 0x3E]

/-- `__quotestrfmt`; the argument of the verb may be a nil pointer. -/
def quotestrfmt (fmtdoquote : Rune → Bool) (f : Fmt) : Option Input → List Nat
  | none => fmtcpy f nilText 5 5
  | some input =>
      let q := quotesetup fmtdoquote input f.nin f.outlen (f.has FmtSharp) f.runes
      if q.quoted then qstrfmt input q f
      else
        match input with
        | .runes r => fmtrcpy f r q.nrunesin
        | .bytes s => fmtcpy f s q.nrunesin q.nbytesin

end Goken.FmtQuote
