import Mathlib.Algebra.Group.Nat.Defs
import Mathlib.Algebra.GroupWithZero.Nat
import Mathlib.Algebra.Order.Group.Unbundled.Int
import Mathlib.Data.List.Dedup

/-! Text layout in 5l: `dotext`, `addpool`, `checkpool` and `flushpool`
(5l/layout.c). The loop assigns addresses while it collects the literals that
instructions load relative to pc, and drops the collected pool into the
instruction list. -/

namespace Goken.Dotext

/-- The opcodes that head a range of `optab`; `buildop` gives the others the
range of one of these. -/
inductive As where
  | ATEXT | AWORD | AADD | AMOVW | AMVN | ACMP | ASLL | AMOVB | AMOVBU | AMOVH | AMOVHU | AMUL | AB | ABL | ABEQ
  | ASWPW | ASWI | ARFE | AMOVF | AADDF | ACMPF | AMOVFW | ADIV | AMULL | AMOVM | ACASE | ABCASE
  deriving DecidableEq, Repr

/-- The flags of `Optab` about literal pools. -/
inductive Flag where
  | LFROM | LTO | LPOOL
  deriving DecidableEq, Repr

structure Optab where
  as : As
  type : Nat
  size : Nat
  flag : Option Flag
  deriving DecidableEq, Repr

/-- `optab` (5l/optab.c) without the columns of operand classes; rows that
differ in these only are written once. -/
def optab : List Optab :=
  [⟨.ATEXT, 0, 0, none⟩, ⟨.AWORD, 11, 4, none⟩, ⟨.AADD, 1, 4, none⟩, ⟨.AMOVW, 1, 4, none⟩, ⟨.AMVN, 1, 4, none⟩,
   ⟨.ACMP, 1, 4, none⟩, ⟨.AADD, 2, 4, none⟩, ⟨.AMOVW, 2, 4, none⟩, ⟨.AMVN, 2, 4, none⟩, ⟨.ACMP, 2, 4, none⟩,
   ⟨.AADD, 3, 4, none⟩, ⟨.AMVN, 3, 4, none⟩, ⟨.ACMP, 3, 4, none⟩, ⟨.ASLL, 8, 4, none⟩, ⟨.ASLL, 9, 4, none⟩,
   ⟨.AMOVB, 14, 8, none⟩, ⟨.AMOVBU, 58, 4, none⟩, ⟨.AMOVH, 14, 8, none⟩, ⟨.AMOVHU, 14, 8, none⟩,
   ⟨.AMUL, 15, 4, none⟩, ⟨.AADD, 13, 8, none⟩, ⟨.AMVN, 13, 8, none⟩, ⟨.ACMP, 13, 8, none⟩,
   ⟨.AADD, 13, 8, some .LFROM⟩, ⟨.AMVN, 13, 8, some .LFROM⟩, ⟨.ACMP, 13, 8, some .LFROM⟩, ⟨.AMOVW, 12, 4, none⟩,
   ⟨.AMOVW, 12, 4, some .LFROM⟩, ⟨.AB, 5, 4, some .LPOOL⟩, ⟨.ABL, 5, 4, none⟩, ⟨.ABEQ, 5, 4, none⟩,
   ⟨.AB, 6, 4, some .LPOOL⟩, ⟨.ABL, 7, 8, none⟩, ⟨.AMOVW, 21, 4, none⟩, ⟨.AMOVBU, 21, 4, none⟩,
   ⟨.AMOVW, 31, 8, some .LFROM⟩, ⟨.AMOVBU, 31, 8, some .LFROM⟩, ⟨.AMOVW, 20, 4, none⟩, ⟨.AMOVBU, 20, 4, none⟩,
   ⟨.AMOVW, 30, 8, some .LTO⟩, ⟨.AMOVBU, 30, 8, some .LTO⟩, ⟨.AMOVB, 20, 4, none⟩, ⟨.AMOVB, 30, 8, some .LTO⟩,
   ⟨.ASWPW, 40, 4, none⟩, ⟨.AMOVW, 4, 4, none⟩, ⟨.AMOVW, 34, 8, some .LFROM⟩, ⟨.AMOVH, 22, 12, none⟩,
   ⟨.AMOVHU, 22, 12, none⟩, ⟨.AMOVB, 22, 12, none⟩, ⟨.AMOVH, 32, 16, some .LFROM⟩, ⟨.AMOVHU, 32, 16, some .LFROM⟩,
   ⟨.AMOVB, 32, 16, some .LFROM⟩, ⟨.AMOVH, 23, 12, none⟩, ⟨.AMOVHU, 23, 12, none⟩, ⟨.AMOVH, 33, 24, some .LTO⟩,
   ⟨.AMOVHU, 33, 24, some .LTO⟩, ⟨.ASWI, 10, 4, none⟩, ⟨.ARFE, 41, 4, none⟩, ⟨.AMOVW, 64, 8, some .LTO⟩,
   ⟨.AMOVB, 64, 8, some .LTO⟩, ⟨.AMOVBU, 64, 8, some .LTO⟩, ⟨.AMOVW, 65, 8, some .LFROM⟩,
   ⟨.AMOVBU, 65, 8, some .LFROM⟩, ⟨.AMOVB, 66, 16, some .LFROM⟩, ⟨.AMOVH, 66, 16, some .LFROM⟩,
   ⟨.AMOVHU, 66, 16, some .LFROM⟩, ⟨.AMOVH, 67, 24, some .LTO⟩, ⟨.AMOVHU, 67, 24, some .LTO⟩, ⟨.AMOVF, 50, 4, none⟩,
   ⟨.AMOVF, 51, 4, none⟩, ⟨.AMOVF, 52, 12, some .LTO⟩, ⟨.AMOVF, 53, 12, some .LFROM⟩, ⟨.AMOVF, 68, 8, some .LTO⟩,
   ⟨.AMOVF, 69, 8, some .LFROM⟩, ⟨.AADDF, 54, 4, none⟩, ⟨.AMOVF, 54, 4, none⟩, ⟨.ACMPF, 54, 4, none⟩,
   ⟨.AMOVFW, 55, 4, none⟩, ⟨.AMOVW, 56, 4, none⟩, ⟨.AMOVW, 57, 4, none⟩, ⟨.AADDF, 74, 4, none⟩,
   ⟨.AMOVF, 74, 4, none⟩, ⟨.ACMPF, 75, 8, none⟩, ⟨.AMOVFW, 76, 8, none⟩, ⟨.ADIV, 16, 4, none⟩, ⟨.AMULL, 17, 4, none⟩,
   ⟨.AMOVM, 38, 4, none⟩, ⟨.AMOVM, 39, 4, none⟩, ⟨.AMOVW, 35, 4, none⟩, ⟨.AMOVW, 36, 4, none⟩, ⟨.AMOVW, 37, 4, none⟩,
   ⟨.AMOVH, 70, 4, none⟩, ⟨.AMOVHU, 70, 4, none⟩, ⟨.AMOVB, 71, 4, none⟩, ⟨.AMOVH, 71, 4, none⟩,
   ⟨.AMOVHU, 71, 4, none⟩, ⟨.AMOVH, 72, 8, some .LTO⟩, ⟨.AMOVHU, 72, 8, some .LTO⟩, ⟨.AMOVB, 73, 8, some .LFROM⟩,
   ⟨.AMOVH, 73, 8, some .LFROM⟩, ⟨.AMOVHU, 73, 8, some .LFROM⟩, ⟨.AMOVW, 59, 4, none⟩, ⟨.AMOVBU, 59, 4, none⟩,
   ⟨.AMOVB, 60, 4, none⟩, ⟨.AMOVW, 61, 4, none⟩, ⟨.AMOVB, 61, 4, none⟩, ⟨.AMOVBU, 61, 4, none⟩,
   ⟨.ACASE, 62, 4, none⟩, ⟨.ABCASE, 63, 4, none⟩]

/-- An instruction as `dotext` sees it. `fromLit` and `toLit` are the words that
`addpool` makes of the two operands, which are compared with `memcmp`. -/
structure Prog (α : Type) where
  o : Optab
  listed : o ∈ optab
  always : Bool
  toPc : Bool
  fromLit : α
  toLit : α

namespace Prog

variable {α : Type}

def as (p : Prog α) : As := p.o.as
def size (p : Prog α) : Nat := p.o.size

/-- The operand that goes to the pool. -/
def literal (p : Prog α) : Option α :=
  match p.o.flag with
  | some .LFROM => some p.fromLit
  | some .LTO => some p.toLit
  | _ => none

/-- The two cases in which `dotext` flushes after `p` without a branch. -/
def leaves (p : Prog α) : Bool :=
  (p.o.flag == some .LPOOL && p.always) || (p.as == .AMOVW && p.toPc && p.always)

end Prog

/-- An `AWORD` of the pool. -/
structure Word (α : Type) where
  id : Nat
  lit : α
  deriving DecidableEq, Repr

/-- What ends up in the text: an instruction with its pool literal, the branch
around a pool, or a word of one. -/
inductive Item (α : Type) where
  | prog (p : Prog α) (cond : Option Nat)
  | skip
  | word (w : Word α)

structure Laid (α : Type) where
  pc : Nat
  item : Item α

/-- The address counter, the pool from `blitrl` to `elitrl`, and `prg`'s supply
of new instructions. -/
structure State (α : Type) where
  c : Nat
  blitrl : List (Word α)
  size : Nat
  start : Nat
  fresh : Nat

variable {α : Type} [DecidableEq α]

def addpool (pc : Nat) (lit : α) (s : State α) : Nat × State α :=
  match s.blitrl.find? (fun q => q.lit == lit) with
  | some q => (q.id, s)
  | none =>
    (s.fresh, { s with
      blitrl := s.blitrl ++ [⟨s.fresh, lit⟩]
      start := if s.blitrl.isEmpty then pc else s.start
      size := s.size + 4
      fresh := s.fresh + 1 })

/-- The loop visits what `flushpool` inserted next, with an empty pool; every
inserted instruction takes four bytes. -/
def place (c : Nat) : List (Item α) → List (Laid α)
  | [] => []
  | i :: items => ⟨c, i⟩ :: place (c + 4) items

def flush (skip : Bool) (s : State α) : List (Laid α) × State α :=
  let items := (if skip then [.skip] else []) ++ s.blitrl.map .word
  (place s.c items, { s with c := s.c + 4 * items.length, blitrl := [], size := 0, start := 0 })

def flushpool (pc : Nat) (skip : Bool) (s : State α) : List (Laid α) × State α :=
  if s.blitrl = [] then ([], s)
  else if skip = false ∧ (pc + s.size - s.start : Int) < 2048 then ([], s)
  else flush skip s

def immaddr (v : Int) : Bool := (0 ≤ v && v ≤ 0xfff) || (v < 0 && v ≥ -0xfff)

/-- The test of `checkpool`; `last` is `p->link == P`. -/
def threatens (pc : Nat) (last : Bool) (s : State α) : Bool :=
  last || 0xffc ≤ s.size || !immaddr ((pc + 4 : Int) + 4 + s.size - s.start + 8)

def checkpool (pc : Nat) (last : Bool) (s : State α) : List (Laid α) × State α :=
  if threatens pc last s then flushpool pc true s else ([], s)

/-- The start of an iteration: the address is taken and a literal is pooled. -/
def load (p : Prog α) (s : State α) : Option Nat × State α :=
  let t := { s with c := s.c + p.size }
  match p.literal with
  | some lit => (some (addpool s.c lit t).1, (addpool s.c lit t).2)
  | none => (none, t)

/-- One iteration of the loop of `dotext`. -/
def step (p : Prog α) (last : Bool) (s : State α) : List (Laid α) × State α :=
  if p.size = 0 then ([⟨s.c, .prog p none⟩], s)
  else
    let loaded := load p s
    let plain := if p.leaves then flushpool s.c false loaded.2 else ([], loaded.2)
    let forced := checkpool s.c last plain.2
    (⟨s.c, .prog p loaded.1⟩ :: plain.1 ++ forced.1, forced.2)

def run : State α → List (Prog α) → List (Laid α)
  | _, [] => []
  | s, p :: link =>
    let next := step p link.isEmpty s
    next.1 ++ run next.2 link

def dotext (INITTEXT : Nat) (firstp : List (Prog α)) : List (Laid α) := run ⟨INITTEXT, [], 0, 0, 0⟩ firstp

/-! What a good layout is. -/

namespace Item

/-- Execution goes on to the next instruction. Words are not executed. -/
def falls : Item α → Bool
  | prog p _ => !(p.always && (p.as == .AB || p.as == .AMOVW && p.toPc))
  | skip => false
  | word _ => false

def isWord : Item α → Bool
  | word _ => true
  | _ => false

/-- Put in by `flushpool`. -/
def inserted : Item α → Bool
  | prog _ _ => false
  | _ => true

/-- An instruction that must be followed directly by the next table entry. -/
def opens : Item α → Bool
  | prog p _ => p.as == .ACASE || p.as == .ABCASE
  | _ => false

def isEntry : Item α → Bool
  | prog p _ => p.as == .ABCASE
  | _ => false

end Item

/-- The uses of literals: the address of the instruction and the word. -/
def uses (out : List (Laid α)) : List (Nat × Nat) :=
  out.filterMap fun x => match x.item with
    | .prog _ (some id) => some (x.pc, id)
    | _ => none

/-- The words of the pools with their addresses. -/
def words (out : List (Laid α)) : List (Nat × Nat) :=
  out.filterMap fun x => match x.item with
    | .word w => some (x.pc, w.id)
    | _ => none

/-- The displacement that `omvl` computes passes the check of `olr`. -/
def InSpan (use word : Nat × Nat) : Prop := |(word.1 : Int) - use.1 - 8| < 4096

/-- Every use has its word, in reach. -/
def Reaches (uses words : List (Nat × Nat)) : Prop :=
  ∀ use ∈ uses, (∃ word ∈ words, word.2 = use.2) ∧ ∀ word ∈ words, word.2 = use.2 → InSpan use word

/-- No word is reached by falling through; `falls` is about what comes before. -/
def Guarded : Bool → List (Laid α) → Prop
  | _, [] => True
  | falls, x :: out => (x.item.isWord → falls = false) ∧ Guarded x.item.falls out

/-- A pool stands between a jump table and its next entry. -/
def splits (x : Laid α) (out : List (Laid α)) : Bool :=
  x.item.opens && out.head?.any (·.item.inserted) && (out.dropWhile (·.item.inserted)).head?.any (·.item.isEntry)

def Contiguous : List (Laid α) → Prop
  | [] => True
  | x :: out => splits x out = false ∧ Contiguous out

def Sound (out : List (Laid α)) : Prop := Reaches (uses out) (words out) ∧ Guarded true out ∧ Contiguous out

/-! When a layout is good, told from the instructions alone. -/

/-- The instruction and the one after it belong to a jump table. -/
def inTable (p : Prog α) (link : List (Prog α)) : Bool :=
  (p.as == .ACASE || p.as == .ABCASE) && link.head?.any (·.as == .ABCASE)

def bytes (B : List (Prog α)) : Nat := (B.map Prog.size).sum

/-- How many literals differ. -/
def literals (B : List (Prog α)) : Nat := (B.filterMap Prog.literal).dedup.length

section Stretch

/-! A stretch is what there is from the first use of a pool on, as long as the pool is not
placed; `q` comes behind it. -/

variable (last : Bool) (B : List (Prog α)) (q : Prog α)

/-- A pool that is placed behind `q` without a branch around it. -/
def far : Bool := q.leaves && decide (2048 ≤ bytes B + 4 * literals (B ++ [q]))

/-- A pool that is placed behind `q` with a branch around it: what `checkpool` tests, told from
the first use. It counts four bytes for `q` and four for the branch. -/
def due : Bool := last || decide (0xffc ≤ 4 * literals (B ++ [q])) || decide (4080 ≤ bytes B + 4 * literals (B ++ [q]))

/-- The stretch starts with a use. -/
def extend : List (Prog α) := if q.size = 0 ∨ (B = [] ∧ q.literal = none) then B else B ++ [q]

def drops : Bool := q.size ≠ 0 && extend B q ≠ [] && (far B q || due last B q)

/-- The first byte behind `q` from which the first word is too far from its first use, which
is at the start of the stretch; a branch goes before a pool that is due. -/
def limit : Nat := if far B q then 4104 else 4100

end Stretch

/-- The stretch that is open behind the instructions `A`. -/
def stretch (A : List (Prog α)) : List (Prog α) := A.foldl (fun B q => if drops false B q then [] else extend B q) []

/-- `q` stands well between `A` and `R`. Behind `p`, the last of the stretch, the pool was not
due; so it is out of reach behind `q` only if the two take more bytes than that left. -/
structure Sits (A : List (Prog α)) (q : Prog α) (R : List (Prog α)) : Prop where
  reach : ∀ B p, stretch A = B ++ [p] → drops R.isEmpty (stretch A) q →
    limit (stretch A) q + 4 * literals (stretch A) < 4080 + p.size + q.size → bytes (stretch A) + q.size < limit (stretch A) q
  table : inTable q R → drops false (stretch A) q = false
  last : R = [] → q.size = 0 → stretch A = []

/-- Every instruction stands well. -/
def Spaced (firstp : List (Prog α)) : Prop := ∀ A q R, firstp = A ++ q :: R → Sits A q R

end Goken.Dotext
