import Goken.Lib.Matches
import Mathlib.Data.List.Basic
import Mathlib.Logic.Function.Basic
import Mathlib.Algebra.Group.Int.Defs
import Mathlib.Algebra.Group.Nat.Defs

/-! The parse of `deflate` (libflate/deflate.c): `lzcomp` and `lzmatch`, the loop of
`deflateb` that reads and calls `lzcomp`, and what it does with the parse after
that. `U` is the number of bits of a `ulong`. An access outside an array, or to a
byte of the history that was never written, is a fault. -/

namespace Goken.Deflate
open Lib

def DeflateMaxBlock : Nat := 65535
def MaxOff : Nat := 32768
def MinMatch : Nat := 3
def MaxMatch : Nat := 258
def LenFlag : Nat := 8
def LenShift : Nat := 4
def MaxLitRun : Nat := 7
def BlockSize : Nat := 8192
def DeflateBlock : Nat := 57344
def MinMatchMaxOff : Nat := 4096
def HistSlop : Nat := 512
def HistBlock : Nat := 65536
def HistSize : Nat := HistBlock + HistSlop
def HashSize : Nat := 8192
def MaxOffCode : Nat := 256
def LenStart : Nat := 257
def Nlitlen : Nat := 288
def Noff : Nat := 30

/-- `nelem(lzb->parse)` -/
def nparse : Nat := DeflateMaxBlock / 2 + 1

def litlenextra : List Nat :=
  [0, 0, 0,
   0, 0, 0, 0, 0, 1, 1, 1, 1, 2,
   2, 2, 2, 3, 3, 3, 3, 4, 4, 4,
   4, 5, 5, 5, 5, 0, 0, 0]

def offextra : List Nat :=
  [0, 0, 0, 0, 1, 1, 2, 2, 3, 3,
   4, 4, 5, 5, 6, 6, 7, 7, 8, 8,
   9, 9, 10, 10, 11, 11, 12, 12, 13, 13,
   0, 0]

/-! The tables that `deflateinit` fills, one code after the other. -/

def ranges (code : Nat) : List Nat → List Nat
  | [] => []
  | size :: rest => List.replicate size code ++ ranges (code + 1) rest

def lencode : List Nat := (ranges LenStart ((litlenextra.take 29).map (1 <<< ·))).set (MaxMatch - MinMatch) 285

def offcode : List Nat := ranges 0 ((offextra.take 16).map (1 <<< ·))

/-- The first two entries are never set. -/
def bigoffcode : List Nat := [0, 0] ++ ranges 16 (((offextra.take 30).drop 16).map fun extra => 1 <<< (extra - 7))

inductive Stop where
  | fault
  deriving DecidableEq, Repr

abbrev Hist := Nat → Option UInt8

def load (hist : Hist) (i : Nat) : Except Stop UInt8 :=
  if i < HistSize then
    match hist i with
    | some b => .ok b
    | none => .error .fault
  else .error .fault

def entry (table : List Nat) (i : Nat) : Except Stop Nat :=
  match table[i]? with
  | some v => .ok v
  | none => .error .fault

/-- `count[i]++` -/
def bump (size : Nat) (count : Nat → Nat) (i : Nat) : Except Stop (Nat → Nat) :=
  if i < size then .ok (Function.update count i (count i + 1)) else .error .fault

def ushort (x : Int) : Nat := (x % 65536).toNat

def int32 (x : Int) : Int := (x + 2 ^ 31) % 2 ^ 32 - 2 ^ 31

/-- `x & (HistBlock-1)` -/
def wrap (x : Int) : Nat := (x % 65536).toNat

/-- `*parse++ = x` -/
def put (parse : List Nat) (x : Nat) : Except Stop (List Nat) :=
  if parse.length < nparse then .ok (parse ++ [ushort x]) else .error .fault

/-- The macro's value as the `int` it is stored in. -/
def hashit (U c : Nat) : Int := int32 (((c % 2 ^ 24 * 0x6b43a9b5 % 2 ^ U) >>> 19 : Nat))

/-- The index of `hash[h]`. -/
def slot (h : Int) : Except Stop Nat := if 0 ≤ h ∧ h < HashSize then .ok h.toNat else .error .fault

/-- `cont = (cont << 8) | c` -/
def shift (U cont : Nat) (c : UInt8) : Nat := cont <<< 8 % 2 ^ U ||| c.toNat

structure LZstate where
  hist : Hist
  pos : Nat
  avail : Nat
  eof : Bool
  hash : Nat → Nat
  nexts : Nat → Nat
  now : Int
  dot : Int
  prevlen : Nat
  prevoff : Nat
  maxcheck : Nat
  rbad : Bool
  totr : Nat

/-- `parse` has the entries up to `eparse`. -/
structure LZblock where
  parse : List Nat
  lastv : Nat
  litlencount : Nat → Nat
  offcount : Nat → Nat
  bytes : Nat
  excost : Nat

/-- `shifted` is what the machine makes of `1 << level`. -/
def maxcheck (shifted : Int) : Nat :=
  let c := shifted - shifted / 4
  if c < 2 then 2 else if c > 1024 then 1024 else c.toNat

def deflatereset (shifted : Int) : LZstate where
  hist _ := none
  pos := 0
  avail := 0
  eof := false
  hash _ := 0
  nexts _ := 0
  now := MaxOff + 1
  dot := MaxOff + 1
  prevlen := MinMatch - 1
  prevoff := 0
  maxcheck := maxcheck shifted
  rbad := false
  totr := 0

/-! `lzmatch`. Indices into `nexts` are masked. -/

/-- The loop down from `s = p + k` and `t + k`: whether two bytes differ. -/
def differs (hist : Hist) (p t : Nat) : Nat → Except Stop Bool
  | 0 => do
    let s ← load hist p
    let t ← load hist t
    return s ≠ t
  | k + 1 => do
    let c ← load hist (p + (k + 1))
    let d ← load hist (t + (k + 1))
    if c ≠ d then return true
    differs hist p t k

/-- The loop up to `es`, with `es - s` rounds left: where `s` ends. -/
def extend (hist : Hist) : Nat → Nat → Nat → Except Stop Nat
  | 0, s, _ => return s
  | rounds + 1, s, t => do
    let c ← load hist s
    let d ← load hist t
    if c ≠ d then return s
    extend hist rounds (s + 1) (t + 1)

/-- The loop along the chain, with `check` rounds left: `runlen` and `*m`. -/
def chain (now : Int) (p es ml : Nat) (nexts : Nat → Nat) (hist : Hist) : Nat → Nat → Nat → Nat → Nat → Except Stop (Nat × Nat)
  | 0, _, _, runlen, m => return (runlen, m)
  | check + 1, thn, last, runlen, m => do
    let off := ushort (now - thn)
    if off ≤ last ∨ off > MaxOff then return (runlen, m)
    let t := wrap (p - off)
    if ← differs hist p t runlen then
      chain now p es ml nexts hist check (nexts (thn % MaxOff)) off runlen m
    else
      let s ← extend hist (es - (p + runlen + 1)) (p + runlen + 1) (t + runlen + 1)
      let runlen := s - p
      if s = es ∨ runlen > ml then return (runlen, off - 1)
      chain now p es ml nexts hist check (nexts (thn % MaxOff)) off runlen (off - 1)

def lzmatch (now : Int) (thn p es : Nat) (nexts : Nat → Nat) (hist : Hist) (runlen check : Nat) : Except Stop (Nat × Nat) :=
  let ml := check
  let check := if runlen ≥ 8 then check / 4 else check
  if p + runlen ≥ es then .ok (runlen, 0) else chain now p es ml nexts hist check thn 0 runlen 0

/-! `lzcomp`. -/

/-- The variables of its loop. -/
structure Locals where
  p : Nat
  cont : Nat
  now : Int
  prevlen : Nat
  prevoff : Nat
  v : Nat
  excost : Nat
  parse : List Nat
  hash : Nat → Nat
  nexts : Nat → Nat
  litlencount : Nat → Nat
  offcount : Nat → Nat

def putentries (parse : List Nat) (v n off : Nat) : Except Stop (List Nat) :=
  if v ≠ 0 ∨ n ≠ 0 then do
    let parse ← put parse (v ||| LenFlag ||| n <<< LenShift)
    put parse off
  else put parse (off <<< LenShift)

/-- The conversion from an offset to its code word. -/
def offword (off : Nat) : Except Stop Nat := if off < MaxOffCode then entry offcode off else entry bigoffcode (off >>> 7)

/-- The match recorded: the statements are there twice. -/
def putmatch (l : Locals) (len off : Nat) : Except Stop Locals := do
  let n := len - MinMatch
  let parse ← putentries l.parse l.v n off
  let n ← entry lencode n
  let litlencount ← bump Nlitlen l.litlencount n
  let lenextra ← entry litlenextra (n - LenStart)
  let c ← offword off
  let offcount ← bump Noff l.offcount c
  let extra ← entry offextra c
  return { l with parse, v := 0, litlencount, offcount, excost := l.excost + lenextra + extra }

/-- `++v`, and an entry when the run is full. -/
def putrun (parse : List Nat) (v : Nat) : Except Stop (List Nat × Nat) :=
  if v + 1 = MaxLitRun then do
    let parse ← put parse (v + 1)
    return (parse, 0)
  else return (parse, v + 1)

/-- The literal at `i` recorded. -/
def putliteral (hist : Hist) (l : Locals) (i : Nat) : Except Stop Locals := do
  let (parse, v) ← putrun l.parse l.v
  let c ← load hist i
  let litlencount ← bump Nlitlen l.litlencount c.toNat
  return { l with parse, v, litlencount }

/-- The literal before `p`, where an old match is given up for a longer one. -/
def giveup (hist : Hist) (l : Locals) : Except Stop Locals :=
  if l.prevlen ≠ MinMatch - 1 then putliteral hist l (l.p - 1) else return l

/-- The encoding recorded for what `lzmatch` found, and how far to move on. -/
def encode (hist : Hist) (maxdefer : Nat) (l : Locals) (runlen m : Nat) : Except Stop (Locals × Nat) :=
  if l.prevlen ≥ runlen ∧ l.prevlen ≠ MinMatch - 1 then do
    let runlen := l.prevlen - 1
    let l ← putmatch l l.prevlen l.prevoff
    return ({ l with prevlen := MinMatch - 1 }, runlen)
  else if runlen = MinMatch - 1 then do
    let l ← putliteral hist l l.p
    return (l, 1)
  else do
    let l ← giveup hist l
    if runlen < maxdefer then return ({ l with prevoff := m, prevlen := runlen }, 1)
    else do
      let l ← putmatch l runlen m
      return ({ l with prevoff := m, prevlen := MinMatch - 1 }, runlen)

/-- `cont` for the position after `p`. -/
def advance (U : Nat) (hist : Hist) (ep p cont : Nat) : Except Stop Nat :=
  if p + MinMatch < ep then do
    let c ← load hist (p + MinMatch)
    return shift U cont c
  else return cont

/-- The position `p` added to its hash chain, if there is hash data for it. -/
def link (U : Nat) (hist : Hist) (ep : Nat) (l : Locals) : Except Stop Locals :=
  if l.p + MinMatch ≤ ep then do
    let h ← slot (hashit U l.cont)
    let cont ← advance U hist ep l.p l.cont
    return { l with
      nexts := Function.update l.nexts (l.now % MaxOff).toNat (l.hash h)
      hash := Function.update l.hash h (ushort l.now)
      cont }
  else return l

/-- The loop that updates the hash for `runlen` bytes. -/
def rehash (U : Nat) (hist : Hist) (ep : Nat) : Nat → Locals → Except Stop Locals
  | 0, l => return l
  | runlen + 1, l => do
    let l ← link U hist ep l
    rehash U hist ep runlen { l with p := l.p + 1, now := int32 (l.now + 1) }

/-- The loop of `lzcomp`, which does not take more rounds than there are bytes. -/
def lzloop (U : Nat) (hist : Hist) (maxcheck ep : Nat) (finish : Bool) : Nat → Locals → Except Stop Locals
  | 0, _ => .error .fault
  | rounds + 1, l => do
    let es := l.p + MaxMatch
    if es > ep ∧ (¬ finish ∨ l.p ≥ ep) then return l
    else do
    let es := if es > ep then ep else es
    let h ← slot (hashit U l.cont)
    let (runlen, m) ← lzmatch l.now (l.hash h) l.p es l.nexts hist l.prevlen maxcheck
    let (runlen, m) := if runlen = MinMatch ∧ m ≥ MinMatchMaxOff then (MinMatch - 1, 0) else (runlen, m)
    let (l, runlen) ← encode hist (maxcheck / 4) l runlen m
    let l ← rehash U hist ep runlen l
    lzloop U hist maxcheck ep finish rounds l

/-- The loop that looks for a link at distance `back` on its chain; it goes up to
`back` in the differences, so it ends within that many rounds. -/
def seek (now : Int) (nexts : Nat → Nat) (back : Nat) : Nat → Nat → Nat → Except Stop Nat
  | 0, _, _ => .error .fault
  | rounds + 1, thn, prevoff =>
    let v := ushort (now - thn)
    if v ≤ prevoff ∨ v ≥ back then .ok thn else seek now nexts back rounds (nexts (thn % MaxOff)) v

/-- One round of the loop over hanging link positions, `back` bytes before `p`. -/
def hang (U : Nat) (hist : Hist) (dot : Int) (back : Nat) (l : Locals) : Except Stop Locals := do
  let m := int32 (l.now - back)
  if m < dot then return l
  else do
  let s := wrap (l.p - int32 (l.now - m))
  let b0 ← load hist s
  let b1 ← load hist (s + 1)
  let b2 ← load hist (s + 2)
  let cont := b0.toNat <<< 16 ||| b1.toNat <<< 8 ||| b2.toNat
  let h ← slot (hashit U cont)
  let thn ← seek l.now l.nexts back (back + 1) (l.hash h) 0
  if thn = ushort m then return { l with cont }
  else return { l with
    cont
    nexts := Function.update l.nexts (m % MaxOff).toNat (l.hash h)
    hash := Function.update l.hash h (ushort m) }

/-- The loop over `i < n`, which has at most two rounds. -/
def hangs (U : Nat) (hist : Hist) (dot : Int) : Nat → Locals → Except Stop Locals
  | 0, l => return l
  | 1, l => hang U hist dot 2 l
  | _, l => do
    let l ← hang U hist dot 2 l
    hang U hist dot 1 l

/-- The loop `cont = (cont << 8) | p[i]`. -/
def gather (U : Nat) (hist : Hist) (p n : Nat) (cont : Nat) : Except Stop Nat :=
  (List.range n).foldlM (fun cont i => return shift U cont (← load hist (p + i))) cont

/-- The part before the loop. -/
def lzstart (U : Nat) (lz : LZstate) (lzb : LZblock) (ep : Nat) : Except Stop Locals := do
  let p := if lz.prevlen ≠ MinMatch - 1 then lz.pos + 1 else lz.pos
  let n := min MinMatch (ep - p)
  let l : Locals := ⟨p, 0, lz.now, lz.prevlen, lz.prevoff, lzb.lastv, 0, lzb.parse, lz.hash, lz.nexts, lzb.litlencount, lzb.offcount⟩
  let l ← hangs U lz.hist lz.dot (n - 1) l
  let cont ← gather U lz.hist p n l.cont
  return { l with cont }

def lzcomp (U : Nat) (lz : LZstate) (lzb : LZblock) (ep : Nat) (finish : Bool) : Except Stop (LZstate × LZblock × Nat) := do
  let l ← lzstart U lz lzb ep
  let l ← lzloop U lz.hist lz.maxcheck ep finish (ep + 1 - l.p) l
  let p := if l.prevlen ≠ MinMatch - 1 then l.p - 1 else l.p
  return ({ lz with hash := l.hash, nexts := l.nexts, now := l.now, prevlen := l.prevlen, prevoff := l.prevoff },
    { lzb with
      parse := l.parse, lastv := l.v, litlencount := l.litlencount, offcount := l.offcount
      excost := lzb.excost + l.excost },
    p - lz.pos)

/-! `deflateb` and `deflate`, as a machine. -/

/-- What the reader does with a buffer of `m` bytes: it writes to it and tells how
many bytes it has read, or 0 at the end, or a negative number for an error. -/
structure Reply (m : Nat) where
  buf : List UInt8
  fits : buf.length ≤ m
  mm : Int
  told : mm ≤ buf.length

/-- How `deflateb` ends, which depends on the cost of the codes: it fails, writes the
block as it is or with the parse, or writes it as literals only. -/
inductive Verdict where
  | internal | encoded | huffman

/-- What the outside does: the reader, and the codes. -/
structure Turn where
  r : (m : Nat) → Reply m
  verdict : Verdict

/-- The heads of the loops of `deflate` and `deflateb`, the call of `lzcomp`, and the
end of `deflateb`. -/
inductive Stage where
  | next | head | comp | tail | stop
  deriving DecidableEq, Repr

/-- `input` is what the reader has read. -/
structure State where
  lz : LZstate
  lzb : LZblock
  n : Nat
  slop : Nat
  input : List UInt8
  stage : Stage

def block : LZblock := ⟨[], 0, Function.update (fun _ => 0) 256 1, fun _ => 0, 0, 0⟩

def start (shifted : Int) : State := ⟨deflatereset shifted, block, 0, 0, [], .next⟩

/-- The number of bytes to ask for; `m` is an `int`, compared with a `ulong` in one place. -/
def room (U : Nat) (lz : LZstate) (n ep : Nat) : Int :=
  let m : Int := (HistBlock : Int) - MaxOff - lz.avail
  let m := if m > (HistBlock : Int) - n then (HistBlock : Int) - n else m
  let m := if m % 2 ^ U > (HistSize : Int) - ep then (HistSize : Int) - ep else m
  if m / BlockSize ≠ 0 then m / BlockSize * BlockSize else m

def memmove (hist : Hist) (dst src len : Nat) : Except Stop Hist :=
  if dst + len ≤ HistSize ∧ src + len ≤ HistSize then
    .ok fun i => if dst ≤ i ∧ i < dst + len then hist (src + (i - dst)) else hist i
  else .error .fault

/-- The reader's bytes in the buffer that it was given, of `m` bytes at `ep`. -/
def fill (hist : Hist) (ep m : Nat) (buf : List UInt8) : Except Stop Hist :=
  if ep + m ≤ HistSize then .ok fun i => if ep ≤ i ∧ i < ep + buf.length then buf[i - ep]? else hist i
  else .error .fault

/-- The bytes that were read at the start are there again behind the history, and
those read behind it again at the start. -/
def mirror (hist : Hist) (ep mm : Nat) : Except Stop Hist :=
  if ep < HistSlop then memmove hist (ep + HistBlock) ep (HistSlop - ep)
  else if ep + mm > HistBlock then memmove hist 0 HistBlock (ep + mm - HistBlock)
  else return hist

/-- The branch of the loop that reads. -/
def refill (U : Nat) (s : State) (turn : Turn) : Except Stop State :=
  let ep := s.lz.pos + s.lz.avail
  let ep := if ep ≥ HistBlock then ep - HistBlock else ep
  let m := room U s.lz s.n ep
  if m < HistSlop then
    if m = 0 ∨ s.lzb.bytes = 0 then return { s with stage := .stop } else return { s with stage := .tail }
  else
    let reply := turn.r m.toNat
    let mm := reply.mm.toNat
    if reply.mm > 0 then do
      let hist ← fill s.lz.hist ep m.toNat reply.buf
      let hist ← mirror hist ep mm
      return { s with
        lz := { s.lz with hist, totr := s.lz.totr + mm, avail := s.lz.avail + mm }
        n := s.n + mm
        input := s.input ++ reply.buf.take mm
        stage := .comp }
    else do
      let hist ← fill s.lz.hist ep m.toNat reply.buf
      return { s with lz := { s.lz with hist, rbad := s.lz.rbad || reply.mm < 0, eof := true }, stage := .comp }

/-- `ep` as it is passed to `lzcomp`. -/
def limit (lz : LZstate) (lzb : LZblock) : Nat :=
  let ep := lz.pos + lz.avail
  let ep := if ep > HistSize then HistSize else ep
  if lzb.bytes + ep - lz.pos > DeflateMaxBlock then lz.pos + DeflateMaxBlock - lzb.bytes else ep

def compress (U : Nat) (s : State) : Except Stop State := do
  let (lz, lzb, m) ← lzcomp U s.lz s.lzb (limit s.lz s.lzb) s.lz.eof
  return { s with
    lz := { lz with pos := wrap (lz.pos + m), avail := lz.avail - m }
    lzb := { lzb with bytes := lzb.bytes + m }
    stage := .head }

/-- The runs of literals that replace the parse where they are cheaper; the parse has
no further use then. -/
def runs : Nat → Nat → List Nat → Except Stop (List Nat)
  | 0, _, _ => .error .fault
  | rounds + 1, i, parse =>
    if i > MaxLitRun then do
      let parse ← put parse MaxLitRun
      runs rounds (i - MaxLitRun) parse
    else put parse i

/-- `litcount[slop[i]]++` for `len` bytes. -/
def tally (hist : Hist) (slop len : Nat) (litcount : Nat → Nat) : Except Stop (Nat → Nat) :=
  (List.range len).foldlM (fun count i => do bump Nlitlen count (← load hist (slop + i)).toNat) litcount

/-- `*lzb->eparse++ = lzb->lastv` -/
def lastrun (lzb : LZblock) : Except Stop (List Nat) :=
  if lzb.lastv ≠ 0 then put lzb.parse lzb.lastv else return lzb.parse

/-- After the loop. The literals are counted, or written, from `slop` on and then
from the start of the mirrored part. -/
def ending (s : State) (turn : Turn) : Except Stop State := do
  let parse ← lastrun s.lzb
  if parse.length > nparse then return { s with stage := .stop }
  else do
  let nunc := s.lzb.bytes
  let nslop := min nunc (HistSize - s.slop)
  let litcount ← tally s.lz.hist s.slop nslop (fun _ => 0)
  let _ ← tally s.lz.hist HistSlop (nunc - nslop) litcount
  match turn.verdict with
  | .internal => return { s with lzb := { s.lzb with parse }, stage := .stop }
  | .encoded => return { s with lzb := { s.lzb with parse }, stage := .next }
  | .huffman =>
    let _ ← runs (nunc + 1) nunc []
    return { s with lzb := { s.lzb with parse }, stage := .next }

def step (U : Nat) (s : State) (turn : Turn) : Except Stop State :=
  match s.stage with
  | .next =>
    if ¬ s.lz.eof ∨ s.lz.avail ≠ 0 then .ok { s with lzb := block, slop := s.lz.pos, n := s.lz.avail, stage := .head }
    else .ok { s with stage := .stop }
  | .head =>
    if s.n < DeflateBlock ∧ (¬ s.lz.eof ∨ s.lz.avail ≠ 0) then
      if ¬ s.lz.eof then refill U s turn else .ok { s with stage := .comp }
    else .ok { s with stage := .tail }
  | .comp => compress U s
  | .tail => ending s turn
  | .stop => .ok s

/-! The parse as `wrblock` takes it apart. -/

def tokens : List Nat → Option (List Matches.Item)
  | [] => some []
  | offset :: rest =>
    let run := offset &&& MaxLitRun
    let literals : List Matches.Item := if run ≠ 0 then [.literals run] else []
    if offset &&& LenFlag ≠ 0 then
      match rest with
      | [] => none
      | off :: rest => (tokens rest).map (literals ++ .copy ((offset >>> LenShift) + MinMatch) (off + 1) :: ·)
    else if run ≠ 0 then (tokens rest).map (literals ++ ·)
    else (tokens rest).map (.copy MinMatch ((offset >>> LenShift) + 1) :: ·)

end Goken.Deflate
