import Goken.Lib.Bits
import Goken.Lib.Steps
import Goken.Lib.Canonical
import Mathlib.Logic.Function.Basic

/-! `inflate` (libflate/inflate.c). Memory remembers which cells have been
written, so that reading one that was not, leaving an array and shifting by a
negative amount are outcomes of the model. The loops of `inflate`, `uncblock`,
`dynamicblock` and `decode` are one machine with a state for each loop head. -/

namespace Goken.Inflate

inductive Code where
  | FlateOk | FlateNoMem | FlateInputFail | FlateOutputFail | FlateCorrupted | FlateInternal
  deriving DecidableEq, Repr

/-- Why a run stops: `inflate` returns, or it does what C leaves undefined. -/
inductive Stop where
  | ret (code : Code)
  | fault
  deriving DecidableEq, Repr

/-- An array; `none` is a cell that has not been written. -/
abbrev Cells (α : Type) := Nat → Option α

def Cells.empty {α : Type} : Cells α := fun _ => none

def load {α : Type} (size : Nat) (a : Cells α) (i : Int) : Except Stop α :=
  if 0 ≤ i ∧ i < size then
    match a i.toNat with
    | some v => .ok v
    | none => .error .fault
  else .error .fault

def store {α : Type} (size : Nat) (a : Cells α) (i : Nat) (v : α) : Except Stop (Cells α) :=
  if i < size then .ok (Function.update a i (some v)) else .error .fault

/-- An entry of a static table. -/
def entry (table : List Nat) (i : Nat) : Except Stop Nat :=
  match table[i]? with
  | some v => .ok v
  | none => .error .fault

def shl (x : Nat) (n : Int) : Except Stop Nat := if n < 0 then .error .fault else .ok (x <<< n.toNat)

def shr (x : Nat) (n : Int) : Except Stop Nat := if n < 0 then .error .fault else .ok (x >>> n.toNat)

def HistorySize : Nat := 32 * 1024
def MaxHuffBits : Nat := 17
def Nlitlen : Nat := 288
def Noff : Nat := 32
def Nclen : Nat := 19
def LitlenBits : Nat := 7
def OffBits : Nat := 6
def ClenBits : Nat := 6
def MaxFlatBits : Nat := LitlenBits
def MaxLeaf : Nat := Nlitlen

def litlenextra : List Nat :=
  [0, 0, 0,
   0, 0, 0, 0, 0, 1, 1, 1, 1, 2,
   2, 2, 2, 3, 3, 3, 3, 4, 4, 4,
   4, 5, 5, 5, 5, 0, 0, 0]

def offextra : List Nat :=
  [0, 0, 0, 0, 1, 1, 2, 2, 3, 3,
   4, 4, 5, 5, 6, 6, 7, 7, 8, 8,
   9, 9, 10, 10, 11, 11, 12, 12, 13, 13,
   0, 0]

def clenorder : List Nat := [16, 17, 18, 0, 8, 7, 9, 6, 10, 5, 11, 4, 12, 3, 13, 2, 14, 1, 15]

/-- The loops of `inflateinit` that add up the sizes of the code words' ranges. -/
def bases : Nat → List Nat → List Nat
  | _, [] => []
  | base, extra :: rest => base :: bases (base + 1 <<< extra) rest

def litlenbase : List Nat := (bases 3 litlenextra).modify (285 - 257) (· - 1)

def offbase : List Nat := bases 1 offextra

def revtab (i : Nat) : Nat := (List.range 8).foldl (fun r j => if i &&& 1 <<< j ≠ 0 then r ||| 0x80 >>> j else r) 0

/-! The input register. -/

structure Input where
  sreg : Nat
  nbits : Nat
  rest : List UInt8
  deriving DecidableEq, Repr

/-- The loop of `sregfill`; `get` gives the bytes of `rest` and then -1. -/
def fill (n : Nat) : List UInt8 → Nat → Nat → Except Stop Input
  | [], sreg, nbits => if n > nbits then .error (.ret .FlateInputFail) else .ok ⟨sreg, nbits, []⟩
  | c :: rest, sreg, nbits =>
    if n > nbits then fill n rest (sreg ||| c.toNat <<< nbits) (nbits + 8) else .ok ⟨sreg, nbits, c :: rest⟩

def sregfill (n : Nat) (i : Input) : Except Stop Input := fill n i.rest i.sreg i.nbits

/-- `in->sreg >>= n; in->nbits -= n`. -/
def Input.drop (n : Nat) (i : Input) : Input := { i with sreg := i.sreg >>> n, nbits := i.nbits - n }

/-- `n` bits as a number: `sregfill`, a mask and the two updates. -/
def bits (n : Nat) (i : Input) : Except Stop (Nat × Input) := do
  let i ← sregfill n i
  return (i.sreg &&& (1 <<< n - 1), i.drop n)

def sregunget (i : Input) : Except Stop Input :=
  if i.nbits ≥ 8 then .error (.ret .FlateInternal) else .ok ⟨0, 0, i.rest⟩

/-- `(*in->get)(in->getr)`. -/
def Input.get (i : Input) : Int × Input :=
  match i.rest with
  | [] => (-1, i)
  | c :: rest => (c.toNat, { i with rest := rest })

/-! Decoding tables. `U` is the number of bits of a `ulong`. -/

structure Huff where
  maxbits : Nat
  minbits : Nat
  flatmask : Nat
  flat : Cells Int
  maxcode : Cells Nat
  last : Cells Nat
  decode : Cells Nat

def revcode (c : Nat) (b : Int) : Except Stop Nat := do
  let c ← shl c (16 - b)
  return revtab (c >>> 8) ||| revtab (c &&& 0xff) <<< 8

structure Tally where
  bitcount : Nat → Nat
  minbits : Nat
  maxbits : Int

/-- The first loop of `hufftab`. -/
def tally : List Nat → Tally → Except Stop Tally
  | [], t => .ok t
  | b :: hb, t =>
    if b = 0 then tally hb t
    else if b < MaxHuffBits then
      tally hb ⟨Function.update t.bitcount b (t.bitcount b + 1), if b < t.minbits then b else t.minbits,
        if b > t.maxbits then b else t.maxbits⟩
    else .error .fault

/-- Arithmetic of `ulong`. -/
def wrap (U : Nat) (x : Int) : Nat := (x % 2 ^ U).toNat

structure Ranges where
  nc : Nat → Nat
  maxcode : Cells Nat
  last : Cells Nat

/-- The loop over the lengths from `b` on; `none` is `return 0`. -/
def ranges (U : Nat) (bitcount : Nat → Nat) : Nat → Nat → Nat → Nat → Ranges → Except Stop (Option Ranges)
  | 0, _, _, _, r => .ok (some r)
  | n + 1, b, code, c, r => do
    let mincode := code <<< 1
    let code := mincode + bitcount b
    if code > 1 <<< b then return none
    let maxcode ← store MaxHuffBits r.maxcode b (wrap U (code - 1))
    let last ← store MaxHuffBits r.last b (wrap U (c + (code - 1)))
    ranges U bitcount n (b + 1) code (c + bitcount b) ⟨Function.update r.nc b mincode, maxcode, last⟩

/-- `flat[revcode(c, flatbits)] = v` for `n` codes from `c` on. -/
def stores (flatbits : Nat) (v : Int) : Nat → Nat → Cells Int → Except Stop (Cells Int)
  | 0, _, flat => .ok flat
  | n + 1, c, flat => do
    let i ← revcode c flatbits
    let flat ← store (1 <<< MaxFlatBits) flat i v
    stores flatbits v n (c + 1) flat

/-- `flat[i] = ~0` for `n` entries from `i` on. -/
def clears : Nat → Nat → Cells Int → Except Stop (Cells Int)
  | 0, _, flat => .ok flat
  | n + 1, i, flat => do
    let flat ← store (1 <<< MaxFlatBits) flat i (-1)
    clears n (i + 1) flat

/-- The loop that enters the minimum length for prefixes of longer codes, from
`flatbits + n` down. -/
def prefixes (U : Nat) (bitcount : Nat → Nat) (maxcode : Cells Nat) (flatbits : Nat) : Nat → Cells Int → Except Stop (Cells Int)
  | 0, flat => .ok flat
  | n + 1, flat => do
    let b := flatbits + (n + 1)
    let code ← load MaxHuffBits maxcode b
    if code = wrap U (-1) then return flat
    let mincode ← shr (code + 1 - bitcount b) (b - flatbits)
    let code ← shr code (b - flatbits)
    let flat ← stores flatbits (b * 256 + 0xff) (code + 1 - mincode) mincode flat
    prefixes U bitcount maxcode flatbits n flat

/-- The loop over the symbols, from `i` on; `none` is `return 0`. -/
def symbols (U flatbits minbits maxleaf : Nat) (last : Cells Nat) :
    List Nat → Nat → (Nat → Nat) → Cells Int → Cells Nat → Except Stop (Option (Cells Int × Cells Nat))
  | [], _, _, flat, decode => .ok (some (flat, decode))
  | b :: hb, i, nc, flat, decode =>
    if b = 0 then symbols U flatbits minbits maxleaf last hb (i + 1) nc flat decode
    else do
      let c := nc b
      let nc := Function.update nc b (c + 1)
      let flat ← if b ≤ flatbits then do
          let ec ← shl (c + 1) (flatbits - b)
          if ec > 1 <<< flatbits then return none
          let fc ← shl c (flatbits - b)
          stores flatbits (i * 256 + b) (ec - fc) fc flat
        else pure flat
      if b > minbits then
        let l ← load MaxHuffBits last b
        let c := wrap U (l - c)
        if c ≥ maxleaf then return none
        let decode ← store MaxLeaf decode c i
        symbols U flatbits minbits maxleaf last hb (i + 1) nc flat decode
      else symbols U flatbits minbits maxleaf last hb (i + 1) nc flat decode

/-- `hufftab`; the table starts out unwritten, and `none` is `return 0`. -/
def hufftab (U : Nat) (hb : List Nat) (flatbits : Nat) : Except Stop (Option Huff) := do
  let t ← tally hb ⟨fun _ => 0, MaxHuffBits + 1, -1⟩
  if t.maxbits ≤ 0 then return some ⟨0, 0, 0, .empty, .empty, .empty, .empty⟩
  let maxbits := t.maxbits.toNat
  match ← ranges U t.bitcount (maxbits + 1) 0 0 0 ⟨fun _ => 0, .empty, .empty⟩ with
  | none => return none
  | some r =>
    let flatbits := if flatbits > maxbits then maxbits else flatbits
    let minbits := if t.minbits > flatbits then flatbits else t.minbits
    let flat ← clears (1 <<< flatbits) 0 .empty
    let flat ← prefixes U t.bitcount r.maxcode flatbits (maxbits - flatbits) flat
    match ← symbols U flatbits minbits hb.length r.last hb 0 r.nc flat .empty with
    | none => return none
    | some (flat, decode) => return some ⟨maxbits, minbits, 1 <<< flatbits - 1, flat, r.maxcode, r.last, decode⟩

/-- The loop of `hdecsym`, over `n` lengths from `nb` on. -/
def hdecloop (U : Nat) (h : Huff) : Nat → Int → Input → Except Stop (Nat × Input)
  | 0, _, _ => .error (.ret .FlateCorrupted)
  | n + 1, nb, i => do
    let i ← sregfill nb.toNat i
    let c := revtab (i.sreg &&& 0xff) <<< 8 ||| revtab (i.sreg >>> 8 &&& 0xff)
    let c ← shr c (16 - nb)
    let maxcode ← load MaxHuffBits h.maxcode nb
    if c ≤ maxcode then
      let sreg ← shr i.sreg nb
      let last ← load MaxHuffBits h.last nb
      let symbol ← load MaxLeaf h.decode (wrap U (last - c))
      return (symbol, { i with sreg := sreg, nbits := i.nbits - nb.toNat })
    else hdecloop U h n (nb + 1) i

def hdecsym (U : Nat) (i : Input) (h : Huff) (nb : Int) : Except Stop (Nat × Input) :=
  let nb := if nb % 256 = 0xff then nb / 256 else nb % 256
  hdecloop U h (h.maxbits + 1 - nb).toNat nb i

/-- One turn of the loop that looks up a symbol. -/
inductive Looked where
  | again (nb : Nat) (i : Input)
  | symbol (c : Nat) (i : Input)

def lookup (U : Nat) (h : Huff) (nb : Nat) (i : Input) : Except Stop Looked := do
  let i ← sregfill nb i
  let c ← load (1 <<< MaxFlatBits) h.flat (i.sreg &&& h.flatmask : Nat)
  let nb := (c % 256).toNat
  if nb > i.nbits then
    if nb ≠ 0xff then return .again nb i
    let (c, i) ← hdecsym U i h c
    return .symbol c i
  else return .symbol (c / 256).toNat (i.drop nb)

/-- A table that `hufftab` has built, with what it was built from. -/
structure Tab (U : Nat) where
  hb : List Nat
  flatbits : Nat
  huff : Huff
  built : hufftab U hb flatbits = .ok (some huff)

def table (U : Nat) (hb : List Nat) (flatbits : Nat) : Except Stop (Option (Tab U)) :=
  match built : hufftab U hb flatbits with
  | .ok (some huff) => .ok (some ⟨hb, flatbits, huff, built⟩)
  | .ok none => .ok none
  | .error stop => .error stop

def litlens : List Nat := List.replicate 144 8 ++ List.replicate 112 9 ++ List.replicate 24 7 ++ List.replicate 8 8

def offlens : List Nat := List.replicate Noff 5

/-! The machine. -/

/-- What is outside of the library: the writer, given what it has written and the
next chunk, `malloc` in `dynamicblock`, given the input left, and `ulong`. -/
structure Env where
  w : List UInt8 → List UInt8 → Bool
  malloc : List UInt8 → Bool
  ulong : Nat
  wide : 32 ≤ ulong

structure History where
  his : Cells UInt8
  cp : Nat
  full : Bool

/-- The heads of the loops, with the variables of each. -/
inductive Ctl (U : Nat) where
  | block
  | stored (len : Nat)
  | clen (nb : Nat) (lentab : Tab U) (len : List Nat) (nlit ndist : Nat)
  | litlen (nb : Nat) (litlentab offtab : Tab U)
  | off (nb : Nat) (litlentab offtab : Tab U) (len : Nat)
  | fini

structure State (U : Nat) where
  ctl : Ctl U
  final : Bool
  input : Input
  history : History
  out : List UInt8

/-- The first `n` bytes of the history. -/
def dump (his : Cells UInt8) (n : Nat) : Except Stop (List UInt8) := (List.range n).mapM fun (i : Nat) => load HistorySize his i

variable (E : Env)

/-- `*hp++ = c`, and writing out a full history. -/
def put (c : UInt8) (s : State E.ulong) : Except Stop (State E.ulong) := do
  let his ← store HistorySize s.history.his s.history.cp c
  if s.history.cp + 1 = HistorySize then
    let chunk ← dump his HistorySize
    if E.w s.out chunk then return { s with history := ⟨his, 0, true⟩, out := s.out ++ chunk }
    else .error (.ret .FlateOutputFail)
  else return { s with history := ⟨his, s.history.cp + 1, s.history.full⟩ }

/-- The end of a block. -/
def endblock (s : State E.ulong) : Except Stop (State E.ulong) :=
  if s.final then do
    let chunk ← dump s.history.his s.history.cp
    if s.history.cp ≠ 0 ∧ ¬ E.w s.out chunk then .error (.ret .FlateOutputFail)
    let i ← sregunget s.input
    return { s with ctl := .fini, input := i, out := s.out ++ chunk }
  else return { s with ctl := .block }

/-- `lo | hi<<8`, where either may be -1. -/
def short (lo hi : Int) : Int := if lo < 0 then -1 else if hi < 0 then lo - 256 else lo + hi * 256

def uncblock (s : State E.ulong) : Except Stop (State E.ulong) := do
  let i ← sregunget s.input
  let (len, i) := i.get
  let (len', i) := i.get
  let (nlen, i) := i.get
  let (nlen', i) := i.get
  let len := short len len'
  if len ≠ (-1 - short nlen nlen') % 65536 then .error (.ret .FlateCorrupted)
  return { s with ctl := .stored len.toNat, input := i }

def fixedblock (s : State E.ulong) : Except Stop (State E.ulong) := do
  match ← table E.ulong litlens MaxFlatBits, ← table E.ulong offlens MaxFlatBits with
  | some litlentab, some offtab => return { s with ctl := .litlen litlentab.huff.minbits litlentab offtab }
  | _, _ => .error (.ret .FlateInternal)

/-- The loop that reads the lengths of the code length codes. -/
def clens : List Nat → List Nat → Input → Except Stop (List Nat × Input)
  | [], len, i => .ok (len, i)
  | o :: order, len, i => do
    let (v, i) ← bits 3 i
    clens order (len.set o v) i

/-- `dynamicblock` up to its second loop. -/
def dynamicblock (s : State E.ulong) : Except Stop (State E.ulong) := do
  let (v, i) ← bits 14 s.input
  let nlit := (v &&& 0x1f) + 257
  let ndist := (v >>> 5 &&& 0x1f) + 1
  let nclen := (v >>> 10 &&& 0xf) + 4
  if nlit > Nlitlen ∨ ndist > Noff ∨ nlit < 257 then .error (.ret .FlateCorrupted)
  if ¬ E.malloc i.rest then .error (.ret .FlateNoMem)
  let (len, i) ← clens (clenorder.take nclen) (List.replicate Nclen 0) i
  match ← table E.ulong len ClenBits with
  | none => .error (.ret .FlateCorrupted)
  | some lentab => return { s with ctl := .clen lentab.huff.minbits lentab [] nlit ndist, input := i }

/-- The code lengths that one symbol stands for. -/
def lengths (c : Nat) (len : List Nat) (i : Input) : Except Stop (List Nat × Input) :=
  if c < 16 then .ok ([c], i)
  else if c = 16 then do
    let (j, i) ← bits 2 i
    match len.getLast? with
    | none => .error (.ret .FlateCorrupted)
    | some c => return (List.replicate (j + 3) c, i)
  else if c = 17 then do
    let (j, i) ← bits 3 i
    return (List.replicate (j + 3) 0, i)
  else if c = 18 then do
    let (j, i) ← bits 7 i
    return (List.replicate (j + 11) 0, i)
  else .error (.ret .FlateCorrupted)

/-- The rest of the second loop of `dynamicblock`, and what comes behind it. -/
def clensym (lentab : Tab E.ulong) (len : List Nat) (nlit ndist c : Nat) (s : State E.ulong) :
    Except Stop (State E.ulong) := do
  let (more, i) ← lengths c len s.input
  let len := len ++ more
  if len.length > nlit + ndist then .error (.ret .FlateCorrupted)
  if len.length < nlit + ndist then
    return { s with ctl := .clen lentab.huff.minbits lentab len nlit ndist, input := i }
  match ← table E.ulong (len.take nlit) LitlenBits with
  | none => .error (.ret .FlateCorrupted)
  | some litlentab =>
    match ← table E.ulong (len.drop nlit) OffBits with
    | none => .error (.ret .FlateCorrupted)
    | some offtab => return { s with ctl := .litlen litlentab.huff.minbits litlentab offtab, input := i }

/-- The loop of `decode` behind the lookup in `litlentab`. -/
def litlensym (litlentab offtab : Tab E.ulong) (c : Nat) (s : State E.ulong) : Except Stop (State E.ulong) := do
  if c < 256 then
    let s ← put E (UInt8.ofNat c) s
    return { s with ctl := .litlen litlentab.huff.minbits litlentab offtab }
  if c = 256 then return ← endblock E s
  if c > 285 then .error (.ret .FlateCorrupted)
  let nb ← entry litlenextra (c - 257)
  let (v, i) ← bits nb s.input
  let base ← entry litlenbase (c - 257)
  return { s with ctl := .off offtab.huff.minbits litlentab offtab (base + v), input := i }

/-- The copying loop of `decode`. -/
def copy : Nat → Int → State E.ulong → Except Stop (State E.ulong)
  | 0, _, s => .ok s
  | len + 1, hq, s => do
    let c ← load HistorySize s.history.his hq
    let s ← put E c s
    copy len (if hq + 1 ≥ HistorySize then 0 else hq + 1) s

/-- The loop of `decode` behind the lookup in `offtab`. -/
def offsym (litlentab offtab : Tab E.ulong) (len c : Nat) (s : State E.ulong) : Except Stop (State E.ulong) := do
  if c > 29 then .error (.ret .FlateCorrupted)
  let nb ← entry offextra c
  let (v, i) ← bits nb s.input
  let base ← entry offbase c
  let hq : Int := s.history.cp - (base + v : Nat)
  if hq < 0 ∧ ¬ s.history.full then .error (.ret .FlateCorrupted)
  let s ← copy E len (if hq < 0 then hq + HistorySize else hq) { s with input := i }
  return { s with ctl := .litlen litlentab.huff.minbits litlentab offtab }

def step (s : State E.ulong) : Except Stop (State E.ulong) :=
  match s.ctl with
  | .block => do
    let (v, i) ← bits 3 s.input
    let s := { s with final := v &&& 1 = 1, input := i }
    match v >>> 1 with
    | 0 => uncblock E s
    | 1 => fixedblock E s
    | 2 => dynamicblock E s
    | _ => .error (.ret .FlateCorrupted)
  | .stored 0 => endblock E s
  | .stored (len + 1) =>
    let (c, i) := s.input.get
    if c < 0 then .error (.ret .FlateInternal) else put E (UInt8.ofNat c.toNat) { s with ctl := .stored len, input := i }
  | .clen nb lentab len nlit ndist => do
    match ← lookup E.ulong lentab.huff nb s.input with
    | .again nb i => return { s with ctl := .clen nb lentab len nlit ndist, input := i }
    | .symbol c i => clensym E lentab len nlit ndist c { s with input := i }
  | .litlen nb litlentab offtab => do
    match ← lookup E.ulong litlentab.huff nb s.input with
    | .again nb i => return { s with ctl := .litlen nb litlentab offtab, input := i }
    | .symbol c i => litlensym E litlentab offtab c { s with input := i }
  | .off nb litlentab offtab len => do
    match ← lookup E.ulong offtab.huff nb s.input with
    | .again nb i => return { s with ctl := .off nb litlentab offtab len, input := i }
    | .symbol c i => offsym E litlentab offtab len c { s with input := i }
  | .fini => .error (.ret .FlateOk)

def start (input : List UInt8) : State E.ulong := ⟨.block, false, ⟨0, 0, input⟩, ⟨.empty, 0, false⟩, []⟩

/-! What `inflate` promises, and when it keeps it. -/

open Lib.Bits Lib.Canonical Lib.Steps

/-- The bits that the next lookup sees, as a fraction, are below the Kraft sum of
the code, both in units of `2 ^ -16`: some code starts like them. -/
def Assigned {U : Nat} (tab : Tab U) (i : Input) : Prop :=
  rev 16 (i.sreg % 2 ^ min tab.flatbits (longest tab.hb)) < kraft tab.hb 16

/-- No lookup that starts here goes outside of the code. -/
def State.Covered {U : Nat} (s : State U) : Prop :=
  match s.ctl with
  | .clen nb tab _ _ _ | .litlen nb tab _ | .off nb _ tab _ => ∀ i, sregfill nb s.input = .ok i → Assigned tab i
  | _ => True

def Runs (input : List UInt8) (s : State E.ulong) : Prop := Reaches (fun s => (step E s).toOption) (start E input) s

/-- `inflate` returns; a run that faults does not. -/
def Returns (input : List UInt8) : Prop := ∃ s code, Runs E input s ∧ step E s = .error (.ret code)

end Goken.Inflate
