import Goken.Deflate
import Goken.Inflate
import Goken.Qsort

/-! The prefix codes of `deflate` (libflate/deflate.c): `mkprecode` with `leafsort` and
`nextchain`, `mkgzprecode` and `hufftabinit`. A pointer to a chain is an index into the
pool `chains`, whose cells hold anything at first; the loops that need not end by
themselves have a number of rounds and stop with a fault. `U` is the number of bits of a
`ulong`. -/

namespace Goken.Precode
open Deflate

def MaxLeaf : Nat := Nlitlen
def MaxHuffBits : Nat := 16
def ChainMem : Nat := 2 * (MaxHuffBits - 1) * MaxHuffBits

def ulong (U : Nat) (x : Int) : Nat := (x % 2 ^ U).toNat

structure Huff where
  bits : Int
  encode : Nat
  deriving DecidableEq, Repr

/-! `leafsort`. -/

structure Leaf where
  leafcount : Nat
  leafmap : Nat
  deriving DecidableEq, Repr

/-- The comparison in `pivot`. -/
def countcmp (x y : Leaf) : Int := if x.leafcount < y.leafcount then -1 else 0

/-- The comparisons in the two scans. -/
def leafcmp (x y : Leaf) : Int :=
  if x.leafcount < y.leafcount ∨ x.leafcount = y.leafcount ∧ x.leafmap > y.leafmap then -1
  else if x.leafcount > y.leafcount ∨ x.leafcount = y.leafcount ∧ x.leafmap < y.leafmap then 1
  else 0

def partition (a : List Leaf) : List Leaf × List Leaf × List Leaf :=
  let n := a.length
  let pi := if n > 10 then Qsort.pivot countcmp a n else n / 2
  let (a, pj) := Qsort.scans leafcmp n (Qsort.swap a 0 pi) 0 n
  let a := Qsort.swap a 0 pj
  (a.take pj, (a.drop pj).take 1, a.drop (pj + 1))

def leafsorts : Nat → List Leaf → List Leaf
  | 0, a => a
  | depth + 1, a =>
      if a.length > 1 then
        let (before, p, after) := partition a
        leafsorts depth before ++ p ++ leafsorts depth after
      else a

def leafsort (a : List Leaf) : List Leaf := leafsorts a.length a

/-! The chains. -/

structure Chain where
  count : Nat
  leaf : Nat
  col : UInt8
  gen : Bool
  up : Option (Fin ChainMem)
  deriving DecidableEq, Repr

structure Chains where
  lists : Nat → Option (Fin ChainMem)
  leafcount : List Nat
  chains : Fin ChainMem → Chain
  free : Nat
  col : UInt8
  nlists : Nat

def Chains.nleaf (cs : Chains) : Nat := cs.leafcount.length

/-- `cs->lists[i] = c` -/
def Chains.setlist (cs : Chains) (i : Nat) (c : Option (Fin ChainMem)) : Chains :=
  { cs with lists := Function.update cs.lists i c }

/-- `*p = c` -/
def Chains.setchain (cs : Chains) (p : Fin ChainMem) (c : Chain) : Chains :=
  { cs with chains := Function.update cs.chains p c }

/-- The loop that gives the colour to a chain and those above it, which are no more than
there are chains. -/
def mark (col : UInt8) : Nat → (Fin ChainMem → Chain) → Option (Fin ChainMem) → Except Stop (Fin ChainMem → Chain)
  | _, chains, none => .ok chains
  | 0, _, some _ => .error .fault
  | rounds + 1, chains, some c =>
    mark col rounds (Function.update chains c { chains c with col }) (chains c).up

def marks (col : UInt8) (lists : Nat → Option (Fin ChainMem)) : Nat → (Fin ChainMem → Chain) → Except Stop (Fin ChainMem → Chain)
  | 0, chains => .ok chains
  | i + 1, chains => do
    let chains ← marks col lists i chains
    mark col ChainMem chains (lists i)

def collect (cs : Chains) : Except Stop Chains := do
  let col := cs.col + 1
  let chains ← marks col cs.lists cs.nlists cs.chains
  return { cs with chains, col }

/-- The loop that picks up a chain that is not in use. -/
def search : Nat → Nat → Chains → Except Stop (Chains × Fin ChainMem)
  | 0, _, _ => .error .fault
  | rounds + 1, c, cs =>
    if inside : c < ChainMem then
      if (cs.chains ⟨c, inside⟩).col ≠ cs.col then .ok (cs, ⟨c, inside⟩) else search rounds (c + 1) cs
    else do
      let cs ← collect cs
      search rounds 0 cs

/-- The next package from the previous list, as the `int` it is kept in. -/
def sumc (U : Nat) (cs : Chains) : Nat → Except Stop Int
  | 0 => .ok 0
  | level + 1 =>
    match cs.lists (2 * level + 1) with
    | none => .ok 0
    | some second =>
      match cs.lists (2 * level) with
      | none => .error .fault
      | some first => .ok (int32 (((cs.chains first).count + (cs.chains second).count) % 2 ^ U : Nat))

/-- The cheapest of the next package and the next leaf, behind `oc`, in the chain `c`. -/
def pick (U level : Nat) (oc c : Fin ChainMem) (cs : Chains) : Except Stop Chains := do
  let nleaf := (cs.chains oc).leaf
  let sum ← sumc U cs level
  if sum ≠ 0 ∧ (nleaf ≥ cs.nleaf ∨ cs.leafcount.getD nleaf 0 > ulong U sum) then
    let chain := ⟨ulong U sum, (cs.chains oc).leaf, cs.col, true, cs.lists (2 * level - 1)⟩
    return { (cs.setchain c chain).setlist (2 * level + 1) (some c) with free := c + 1 }
  else if nleaf ≥ cs.nleaf then
    return cs.setlist (2 * level + 1) none
  else
    let chain := ⟨cs.leafcount.getD nleaf 0, nleaf + 1, cs.col, false, (cs.chains oc).up⟩
    return { (cs.setchain c chain).setlist (2 * level + 1) (some c) with free := c + 1 }

/-- The chains needed to make `sumc`. -/
def generate (below : Chains → Except Stop Chains) (oc : Fin ChainMem) (cs : Chains) : Except Stop Chains :=
  if (cs.chains oc).gen then do
    let cs ← below cs
    let cs ← below cs
    return cs.setchain oc { cs.chains oc with gen := false }
  else return cs

/-- `nextchain` for the list of a level, with what it does for the level below. -/
def nextof (U : Nat) (below : Chains → Except Stop Chains) (level : Nat) (cs : Chains) : Except Stop Chains :=
  match cs.lists (2 * level + 1) with
  | none => .ok (cs.setlist (2 * level) none)
  | some oc => do
    let cs ← generate below oc (cs.setlist (2 * level) (some oc))
    let (cs, c) ← search (3 * (ChainMem + 1)) cs.free cs
    pick U level oc c cs

/-- `nextchain(cs, 2 * level)`; there is no list below the first. -/
def nextchain (U : Nat) : Nat → Chains → Except Stop Chains
  | 0 => nextof U (fun _ => .error .fault) 0
  | level + 1 => nextof U (nextchain U level) (level + 1)

def nextchains (U level : Nat) : Nat → Chains → Except Stop Chains
  | 0, cs => .ok cs
  | rounds + 1, cs => do
    let cs ← nextchain U level cs
    nextchains U level rounds cs

/-! `mkprecode`. -/

/-- The loop that sets up the list of leaves, from symbol `i` on. -/
def gather : List Nat → Nat → List Leaf
  | [], _ => []
  | c :: count, i => if c ≠ 0 then ⟨c, ushort i⟩ :: gather count (i + 1) else gather count (i + 1)

/-- `cs.leafcount[i] = count[cs.leafmap[i]]` -/
def recount (count : List Nat) : List Leaf → Except Stop (List Nat)
  | [] => .ok []
  | leaf :: rest => do
    let c ← entry count leaf.leafmap
    let rest ← recount count rest
    return c :: rest

def chain0 : Fin ChainMem := ⟨0, by decide⟩
def chain1 : Fin ChainMem := ⟨1, by decide⟩

/-- The chains before the first call of `nextchain`. -/
def chains0 (stack : Fin ChainMem → Chain) (leafcount : List Nat) (maxbits : Nat) : Chains where
  lists i := if i < 2 * (maxbits - 1) then some (if i % 2 = 0 then chain0 else chain1) else none
  leafcount
  chains := Function.update (Function.update stack chain0 ⟨leafcount.getD 0 0, 1, 1, false, none⟩)
    chain1 ⟨leafcount.getD 1 0, 2, 1, false, none⟩
  free := 2
  col := 1
  nlists := 2 * (maxbits - 1)

/-- The loop over the last chain and those above it. -/
def tally (U : Nat) (chains : Fin ChainMem → Chain) : Nat → Option (Fin ChainMem) → (Nat → Nat) → Nat →
    Except Stop ((Nat → Nat) × Nat)
  | _, none, bitcount, bits => .ok (bitcount, bits)
  | 0, some _, _, _ => .error .fault
  | rounds + 1, some c, bitcount, bits =>
    if bits + 1 < MaxHuffBits then
      let m := (chains c).leaf
      tally U chains rounds (chains c).up
        (Function.update (Function.update bitcount bits (ulong U (bitcount bits - m))) (bits + 1) m) (bits + 1)
    else .error .fault

def setbits (tab : List Huff) (s i : Nat) : Except Stop (List Huff) :=
  match tab[s]? with
  | some h => .ok (tab.set s { h with bits := i })
  | none => .error .fault

/-- The code length `i` for so many leaves from `m` on. -/
def assign (leafmap : List Nat) (i : Nat) : Nat → Nat → List Huff → Except Stop (List Huff)
  | 0, _, tab => .ok tab
  | k + 1, m, tab => do
    let s ← entry leafmap m
    let tab ← setbits tab s i
    assign leafmap i k (m + 1) tab

/-- The code lengths from `i` down. -/
def assigns (leafmap : List Nat) (bitcount : Nat → Nat) : Nat → Nat → List Huff → Except Stop (List Huff)
  | 0, m, tab => assign leafmap 0 (bitcount 0) m tab
  | i + 1, m, tab => do
    let tab ← assign leafmap (i + 1) (bitcount (i + 1)) m tab
    assigns leafmap bitcount i (m + bitcount (i + 1)) tab

/-- The table, `bitcount` and the result. -/
structure Lengths where
  tab : List Huff
  bitcount : Nat → Nat
  bits : Nat

/-- The part for two leaves and more. -/
def mkleaves (U : Nat) (stack : Fin ChainMem → Chain) (leaves : List Leaf) (tab : List Huff) (count : List Nat) (maxbits : Nat)
    (bitcount : Nat → Nat) : Except Stop Lengths := do
  let leaves := leafsort leaves
  let leafmap := leaves.map Leaf.leafmap
  let leafcount ← recount count leaves
  let cs ← nextchains U (maxbits - 2) (2 * leaves.length - 2 - 2) (chains0 stack leafcount maxbits)
  let (bitcount, bits) ← tally U cs.chains ChainMem (cs.lists (cs.nlists - 1)) (Function.update bitcount 0 leaves.length) 0
  let tab ← assigns leafmap bitcount bits 0 tab
  return ⟨tab, bitcount, bits⟩

/-- The lists of leaves and of chains have places for `MaxLeaf` leaves and for
`MaxHuffBits - 1` levels, and there is a first level. -/
def mkprecode (U : Nat) (stack : Fin ChainMem → Chain) (count : List Nat) (maxbits : Nat) (bitcount : Nat → Nat) :
    Except Stop Lengths :=
  let tab := count.map fun _ => ⟨-1, 0⟩
  match gather count 0 with
  | [] => .ok ⟨tab, Function.update bitcount 0 0, 0⟩
  | [leaf] => do
    let tab ← setbits tab leaf.leafmap 0
    return ⟨tab, Function.update bitcount 0 1, 0⟩
  | leaves =>
    if leaves.length ≤ MaxLeaf ∧ 2 ≤ maxbits ∧ maxbits ≤ MaxHuffBits then mkleaves U stack leaves tab count maxbits bitcount
    else .error .fault

/-! `hufftabinit`; a result of zero is `none`. -/

/-- The loop that sets `nc`, from `bits` on. -/
def firsts (U : Nat) (bitcount : Nat → Nat) : Nat → Nat → Nat → (Nat → Option Nat) → Except Stop (Nat → Option Nat)
  | 0, _, _, nc => .ok nc
  | rounds + 1, bits, code, nc =>
    if bits < MaxHuffBits then
      let code := (code + bitcount (bits - 1)) <<< 1 % 2 ^ U
      firsts U bitcount rounds (bits + 1) code (Function.update nc bits (some code))
    else .error .fault

/-- `nc[bits]` -/
def next (nc : Nat → Option Nat) (bits : Int) : Except Stop Nat :=
  match (if 0 ≤ bits then nc bits.toNat else none) with
  | some code => .ok code
  | none => .error .fault

/-- `revtab[code >> 8] | (revtab[code & 0xff] << 8)` -/
def reversed (code : Nat) : Nat := Inflate.revtab (code >>> 8) ||| Inflate.revtab (code &&& 0xff) <<< 8

def encodes (U : Nat) : List Huff → (Nat → Option Nat) → Except Stop (Option (List Huff))
  | [], _ => .ok (some [])
  | h :: tab, nc =>
    if h.bits ≠ 0 then do
      let first ← next nc h.bits
      let code := first <<< (16 - h.bits).toNat % 2 ^ U
      if code >>> 16 ≠ 0 then return none
      else do
      let rest ← encodes U tab (Function.update nc h.bits.toNat (some ((first + 1) % 2 ^ U)))
      return rest.map ({ h with encode := reversed code } :: ·)
    else do
      let rest ← encodes U tab nc
      return rest.map (h :: ·)

def hufftabinit (U : Nat) (tab : List Huff) (bitcount : Nat → Nat) (nbits : Nat) : Except Stop (Option (List Huff)) := do
  let nc ← firsts U bitcount nbits 1 0 fun _ => none
  encodes U tab nc

/-! `mkgzprecode`. -/

/-- The loop over the table: no code for the symbols that are not used, and a code of
one bit for a single symbol. -/
def normal : List Huff → (Nat → Nat) → Nat → Option (List Huff × (Nat → Nat) × Nat)
  | [], bitcount, nbits => some ([], bitcount, nbits)
  | h :: tab, bitcount, nbits =>
    if h.bits = -1 then
      (normal tab bitcount nbits).map fun (tab, rest) => ({ h with bits := 0 } :: tab, rest)
    else if h.bits = 0 then
      if nbits ≠ 0 ∨ bitcount 0 ≠ 1 then none
      else (normal tab (Function.update (Function.update bitcount 1 1) 0 0) 1).map
        fun (tab, rest) => ({ h with bits := 1 } :: tab, rest)
    else (normal tab bitcount nbits).map fun (tab, rest) => (h :: tab, rest)

def mkgzprecode (U : Nat) (stack : Fin ChainMem → Chain) (count : List Nat) (maxbits : Nat) (bitcount : Nat → Nat) :
    Except Stop (Option (List Huff)) := do
  let l ← mkprecode U stack count maxbits bitcount
  match normal l.tab l.bitcount l.bits with
  | none => return none
  | some (tab, bitcount, nbits) => if bitcount 0 ≠ 0 then return none else hufftabinit U tab bitcount nbits

end Goken.Precode
