import Goken.Types

/-! The UTF-8 routines of libc (utf/rune.c). A string is the memory a pointer
may read: reading past its last byte is no result at all. -/

namespace Goken.Rune

/-- `unsigned int`. -/
abbrev Rune := UInt32

def Runeerror : Nat := 0xFFFD
def Runemax : Nat := 0x10FFFF
def UTFmax : Nat := 4

def Bit1 : Nat := 7
def Bitx : Nat := 6
def Bit2 : Nat := 5
def Bit3 : Nat := 4
def Bit4 : Nat := 3
def Bit5 : Nat := 2

def Tx : Nat := (1 <<< (Bitx + 1) - 1) ^^^ 0xFF
def T2 : Nat := (1 <<< (Bit2 + 1) - 1) ^^^ 0xFF
def T3 : Nat := (1 <<< (Bit3 + 1) - 1) ^^^ 0xFF
def T4 : Nat := (1 <<< (Bit4 + 1) - 1) ^^^ 0xFF
def T5 : Nat := (1 <<< (Bit5 + 1) - 1) ^^^ 0xFF

def Rune1 : Nat := 1 <<< (Bit1 + 0 * Bitx) - 1
def Rune2 : Nat := 1 <<< (Bit2 + 1 * Bitx) - 1
def Rune3 : Nat := 1 <<< (Bit3 + 2 * Bitx) - 1
def Rune4 : Nat := 1 <<< (Bit4 + 3 * Bitx) - 1

def Maskx : Nat := 1 <<< Bitx - 1
def Testx : Nat := Maskx ^^^ 0xFF

def Bad : Nat := Runeerror

/-- `*(uchar*)(str+i)`. -/
def byte (str : List UInt8) (i : Nat) : Option Nat := str[i]?.map UInt8.toNat

/-- `*rune = l; return n`. -/
def give (l n : Nat) : Option (Rune × Nat) := some (UInt32.ofNat l, n)

def charntorune (str : List UInt8) (length : Int) : Option (Rune × Nat) :=
  if length ≤ 0 then give Bad 0 else do
  let c ← byte str 0
  if c < Tx then give c 1 else
  if length ≤ 1 then give Bad 0 else do
  let c1 := (← byte str 1) ^^^ Tx
  if c1 &&& Testx ≠ 0 then give Bad 1 else
  if c < T3 then
    if c < T2 then give Bad 1 else
    let l := (c <<< Bitx ||| c1) &&& Rune2
    if l ≤ Rune1 then give Bad 1 else give l 2
  else
  if length ≤ 2 then give Bad 0 else do
  let c2 := (← byte str 2) ^^^ Tx
  if c2 &&& Testx ≠ 0 then give Bad 1 else
  if c < T4 then
    let l := ((c <<< Bitx ||| c1) <<< Bitx ||| c2) &&& Rune3
    if l ≤ Rune2 then give Bad 1 else give l 3
  else
  if length ≤ 3 then give Bad 0 else do
  let c3 := (← byte str 3) ^^^ Tx
  if c3 &&& Testx ≠ 0 then give Bad 1 else
  if c < T5 then
    let l := (((c <<< Bitx ||| c1) <<< Bitx ||| c2) <<< Bitx ||| c3) &&& Rune4
    if l ≤ Rune3 then give Bad 1 else give l 4
  else give Bad 1

def chartorune (str : List UInt8) : Option (Rune × Nat) := do
  let c ← byte str 0
  if c < Tx then give c 1 else do
  let c1 := (← byte str 1) ^^^ Tx
  if c1 &&& Testx ≠ 0 then give Bad 1 else
  if c < T3 then
    if c < T2 then give Bad 1 else
    let l := (c <<< Bitx ||| c1) &&& Rune2
    if l ≤ Rune1 then give Bad 1 else give l 2
  else do
  let c2 := (← byte str 2) ^^^ Tx
  if c2 &&& Testx ≠ 0 then give Bad 1 else
  if c < T4 then
    let l := ((c <<< Bitx ||| c1) <<< Bitx ||| c2) &&& Rune3
    if l ≤ Rune2 then give Bad 1 else give l 3
  else do
  let c3 := (← byte str 3) ^^^ Tx
  if c3 &&& Testx ≠ 0 then give Bad 1 else
  if c < T5 then
    let l := (((c <<< Bitx ||| c1) <<< Bitx ||| c2) <<< Bitx ||| c3) &&& Rune4
    if l ≤ Rune3 then give Bad 1 else give l 4
  else give Bad 1

/-- The bytes `runetochar` stores; it returns their number. -/
def runetochar (rune : Rune) : List UInt8 :=
  let c := rune.toNat
  if c ≤ Rune1 then [.ofNat c]
  else if c ≤ Rune2 then [.ofNat (T2 ||| c >>> (1 * Bitx)), .ofNat (Tx ||| c &&& Maskx)]
  else
  let c := if c > Runemax then Runeerror else c
  if c ≤ Rune3 then
    [.ofNat (T3 ||| c >>> (2 * Bitx)), .ofNat (Tx ||| c >>> (1 * Bitx) &&& Maskx), .ofNat (Tx ||| c &&& Maskx)]
  else
    [.ofNat (T4 ||| c >>> (3 * Bitx)), .ofNat (Tx ||| c >>> (2 * Bitx) &&& Maskx),
      .ofNat (Tx ||| c >>> (1 * Bitx) &&& Maskx), .ofNat (Tx ||| c &&& Maskx)]

def runelen (rune : Rune) : Nat := (runetochar rune).length

/-- The loop of `runenlen` over the runes still to count; `nb` and `c` are `int`. -/
def countBytes : List Rune → Int → Int
  | [], nb => nb
  | r :: rest, nb =>
    let c := int32 r.toNat
    if c ≤ Rune1 then countBytes rest (int32 (nb + 1))
    else if c ≤ Rune2 then countBytes rest (int32 (nb + 2))
    else if c ≤ Rune3 then countBytes rest (int32 (nb + 3))
    else countBytes rest (int32 (nb + 4))

def runenlen (r : List Rune) : Int := countBytes r 0

def fullrune (str : List UInt8) (n : Int) : Option Bool :=
  if n > 0 then do
    let c ← byte str 0
    if c < Tx then some true else
    if n > 1 then
      if c < T3 then some true else
      if n > 2 then some (c < T4 || n > 3) else some false
    else some false
  else some false

end Goken.Rune
