import Goken.Div8

/-! Multiplication by constants in the x86 back end (8c/mul.c). The search runs on
the host's 64-bit integers; its result is kept in a table of 32 entries that is
filled in turn. -/

namespace Goken.Mul8
open Goken.Const Lib.X86 Div8

structure Mparam where
  value : Nat
  alg : Int
  neg : Bool
  shift : Nat
  arg : Int
  off : Int
  deriving DecidableEq, Repr

/-- The entries of the table before the first use. -/
def Mparam.zero : Mparam := { value := 0, alg := 0, neg := false, shift := 0, arg := 0, off := 0 }

/-- `malgs`, with the index of each row: the offsets that each algorithm adds. -/
def malgs : List (Nat × List Int) := [
  (0, [0]),
  (1, [-1, 1]),
  (2, [-9, -5, -3, 3, 5, 9]),
  (3, [6, 10, 12, 18, 20, 24, 36, 40, 72]),
  (4, [-8, -4, -2, 2, 4, 8])]

/-- The position of the lowest 1 among 32 bits. -/
def lowbit (v : Nat) : Nat := (stripZeros [16, 8, 4, 2, 1] 0xFFFFFFFF v 0).2

/-- The cost `c` and the quality `q` of an algorithm. -/
def cost (i : Nat) (s : Bool) (n t : Nat) : Nat × Nat :=
  match i with
  | 0 =>
    if t = 1 then (s.toNat + 1, 0)
    else if t = 3 ∨ t = 5 ∨ t = 9 then (if n ≠ 0 then s.toNat + 2 else s.toNat + 1, 0)
    else if s then (10, 10)
    else if t = 15 ∨ t = 25 ∨ t = 27 ∨ t = 45 ∨ t = 81 then (if n ≠ 0 then 3 else 2, 1)
    else (10, 10)
  | 1 => if t = 1 then (3, 3) else if t = 3 ∨ t = 5 ∨ t = 9 then (3, 2) else (10, 10)
  | 2 => if t = 1 then (3, 2) else (10, 10)
  | 3 => if s then (10, 10) else if t = 1 then (3, 1) else (10, 10)
  | _ => if t = 1 then (3, 0) else (10, 10)

/-- The best so far: the variables `bc` to `bt`. -/
structure Best where
  c : Nat
  q : Nat
  i : Nat
  n : Nat
  o : Int
  s : Bool
  t : Nat
  deriving DecidableEq, Repr

/-- The body of the innermost loop. -/
def consider (m : Nat) (best : Best) (i : Nat) (o : Int) (s : Bool) : Best :=
  let u := uvlong (m - o)
  if u = 0 then best
  else
    let o := if s then -o else o
    if s ∧ o > 0 then best
    else
      let u := if s then uvlong (-u) else u
      let n := lowbit u
      let t := u >>> n
      let (c, q) := cost i s n t
      if c < best.c ∨ (c = best.c ∧ q > best.q) then ⟨c, q, i, n, o, s, t⟩ else best

def considerBoth (m i : Nat) (best : Best) (o : Int) : Best := consider m (consider m best i o false) i o true

def considerRow (m : Nat) (best : Best) (row : Nat × List Int) : Best := row.2.foldl (considerBoth m row.1) best

def search (m : Nat) : Best := malgs.foldl (considerRow m) ⟨10, 10, 0, 0, 0, false, 0⟩

/-- An `int` stored in a `char`. -/
def char (v : Int) : Int := Int.bmod v (2 ^ 8)

/-- `old` is what the table entry held: without an algorithm only two fields are set. -/
def mulparam (m : Nat) (old : Mparam) : Mparam :=
  let b := search m
  if b.c ≤ 3 then { value := m, alg := b.i, shift := b.n, off := b.o, neg := b.s, arg := char b.t }
  else { old with value := m, alg := -1 }

/-- The scale for an addition that gives 3, 5 or 9 times a register, as the first
or only step of a multiplication by `a`. The diagnostic for any other is `none`. -/
def m0 (a : Int) : Option Nat :=
  if a ∈ [-2, 2, -3, 3, 6, 12, 15, 24, 27] then some 2
  else if a ∈ [-4, 4, -5, 5, 10, 20, 25, 40, 45] then some 4
  else if a ∈ [-8, 8, -9, 9, 18, 36, 72, 81] then some 8
  else none

def m1 (a : Int) : Option Nat :=
  if a ∈ [15, 25] then some 4 else if a ∈ [27, 45, 81] then some 8 else none

def m2 (a : Int) : Option Nat :=
  if a ∈ [6, 10, 18] then some 2 else if a ∈ [12, 20, 36] then some 4 else if a ∈ [24, 40, 72] then some 8 else none

/-- `d = s * m + a` -/
def genmuladd (d s : Reg) (m : Nat) (a : Operand) : List Inst := [.LEAL a s (nodconst m) d]

def shiftit (shift : Nat) (d : Reg) : List Inst :=
  match shift % 32 with
  | 0 => []
  | 1 => [.ADDL (.reg d) d]
  | _ => [.SHLL (nodconst shift) d]

/-- `gopcode` of `OSUB` when the offset is negative, of `OADD` otherwise. -/
def addsub (off : Int) (src dst : Reg) : List Inst := if off < 0 then [.SUBL (.reg src) dst] else [.ADDL (.reg src) dst]

/-- The end of two algorithms: `nod` and `n` together, into `n`. -/
def comop (p : Mparam) (n nod : Reg) : List Inst :=
  if p.neg then addsub p.off n nod ++ [.MOVL (.reg nod) n] else addsub p.off nod n

/-- The code for an entry of the table, with `nod` the register that is allocated.
`none` stands for the diagnostics. -/
def emit (p : Mparam) (n nod : Reg) : Option (List Inst) :=
  match p.alg with
  | 0 => do
    let code ←
      if p.arg = 1 then pure (shiftit p.shift n)
      else if p.arg ∈ [15, 25, 27, 45, 81] then do
        pure (genmuladd n n (← m1 p.arg) (.reg n) ++ genmuladd n n (← m0 p.arg) (.reg n) ++ shiftit p.shift n)
      else if p.arg ∈ [3, 5, 9] then do
        pure (genmuladd n n (← m0 p.arg) (.reg n) ++ shiftit p.shift n)
      else none
    pure (code ++ if p.neg then [.NEGL n] else [])
  | 1 => do
    let code ←
      if p.arg = 1 then pure (.MOVL (.reg n) nod :: shiftit p.shift nod)
      else if p.arg ∈ [3, 5, 9] then do
        pure (genmuladd nod n (← m0 p.arg) (.reg n) ++ shiftit p.shift nod)
      else none
    pure (code ++ if p.neg then addsub p.off nod n else addsub p.off n nod ++ [.MOVL (.reg nod) n])
  | 2 => do
    pure (genmuladd nod n (← m0 p.off) (.reg n) ++ shiftit p.shift n ++ comop p n nod)
  | 3 => do
    pure (genmuladd nod n (← m0 p.off) (.reg n) ++ shiftit p.shift n ++ genmuladd n nod (← m2 p.off) (.reg n))
  | 4 => do
    pure (genmuladd nod n (← m0 p.off) (.imm (nodconst 0)) ++ shiftit p.shift n ++ comop p n nod)
  | _ => none

/-- `multab` and `mulptr`. -/
structure Cache where
  multab : Vector Mparam 32
  mulptr : Fin 32
  deriving DecidableEq, Repr

def Cache.initial : Cache := { multab := Vector.replicate 32 .zero, mulptr := 0 }

/-- The entry for a multiplier, found or made. -/
def Cache.entry (cache : Cache) (v : Nat) : Mparam × Cache :=
  match cache.multab.toList.find? (·.value == v) with
  | some p => (p, cache)
  | none =>
    let p := mulparam v cache.multab[cache.mulptr]
    (p, { multab := cache.multab.set cache.mulptr p, mulptr := cache.mulptr + 1 })

/-- The code of `mulgen`: what `mulgen1` emits, or a multiplication when it has no
algorithm. -/
def mulgen (cache : Cache) (v : Nat) (n nod : Reg) : Option (List Inst) × Cache :=
  if v = 0 then (some (zeroregm n), cache)
  else
    let (p, cache) := cache.entry v
    (if p.alg < 0 then some [.IMULLR (.imm (nodconst v)) n] else emit p n nod, cache)

end Goken.Mul8
