import Goken.Mul8
import Goken.Lib.Steps

/-! Multiplication by constants in the arm back end: `mulcon0`, `docode` and the
searches of 5c/mul.c, and the code that `mulcon` emits (5c/swt.c). A hint is a
string of operations without operands; `docode` looks for operands that give the
constant. `long` is wider than every number here, an `int` has 32 bits. -/

namespace Goken.Mul5
open Lib.Steps
open Mul8 (char)

/-- Two characters of a code: the operation and the digit for its registers. -/
structure Op where
  c : Int
  i : Nat
  deriving DecidableEq, Repr

/-- The characters `+` and `-`, and the letter for a shift. -/
def plus : Int := 43
def minus : Int := 45
def letter (k : Nat) : Int := char (k + 97)

/-- The operands that `docode` tries for an operation, in this order: the digit and
what the two registers hold afterwards. -/
def operands (c : Int) (r0 r1 : BitVec 32) : List (Nat × BitVec 32 × BitVec 32) :=
  if c = plus then [(1, r0 + r1, r1), (5, r0, r0 + r1)]
  else if c = minus then [(1, r0 - r1, r1), (2, r1 - r0, r1), (5, r0, r0 - r1), (6, r0, r1 - r0)]
  else if c - 97 < 1 ∨ 30 ≤ c - 97 then []
  else
    let k := (c - 97).toNat
    [(0, r0 <<< k, r1), (1, r1 <<< k, r1), (2, r0, r0 <<< k), (3, r0, r1 <<< k)]

def docode (mulval : Int) : List Int → BitVec 32 → BitVec 32 → Option (List Op)
  | [], r0, _ => if r0.toInt = mulval then some [] else none
  | c :: hp, r0, r1 => (operands c r0 r1).findSome? fun (i, r0, r1) => (docode mulval hp r0 r1).map (⟨c, i⟩ :: ·)

/-- `SR1`, `SR0`, `UR1` and `UR0`. -/
structure Flag where
  sr1 : Bool := false
  sr0 : Bool := false
  ur1 : Bool := false
  ur0 : Bool := false
  deriving DecidableEq, Repr

/-- The counts of a loop over shifts. -/
def shifts (shmax : Nat) : List Nat := (List.range shmax).map (· + 1)

/-- A loop over shifts that stops at the first value above `valmax`. -/
def shiftLoop (shmax : Nat) (valmax r : Int) (attempt : Int → Option (List Int)) : Option (List Int) :=
  ((shifts shmax).takeWhile fun i => r * 2 ^ i ≤ valmax).findSome? fun i => (attempt (r * 2 ^ i)).map (letter i :: ·)

/-- The last loop of `gen3`: the first shift that reaches the constant, if it meets it. -/
def lastShift (mulval : Int) (shmax : Nat) (r1 : Int) (flag : Flag) : Option Nat :=
  if flag.ur1 ∧ ¬ flag.ur0 then ((shifts shmax).find? fun i => mulval ≤ r1 * 2 ^ i).filter fun i => r1 * 2 ^ i = mulval
  else none

/-- The end of `gen3`: one more operation gives the constant. -/
def calcr0 (mulval : Int) (shmax : Nat) (r0 r1 : Int) (flag : Flag) : Option (List Int) :=
  match lastShift mulval shmax r1 flag with
  | some i => some [letter i]
  | none => if mulval = r1 + r0 then some [plus] else if mulval = r1 - r0 then some [minus] else none

/-- The two values are in order, the larger not above `valmax`. -/
def gen3 (mulval : Int) (shmax : Nat) (valmax : Int) : Nat → Int → Int → Flag → Option (List Int)
  | 0, _, _, _ => none
  | len + 1, r0, r1, flag =>
    let gen3 := gen3 mulval shmax valmax len
    if r0 ≤ 0 ∨ r1 ≤ r0 ∨ valmax < r1 then none
    else if len = 0 then calcr0 mulval shmax r0 r1 flag
    else
      (if flag.ur1 then none else shiftLoop shmax valmax r0 fun x => gen3 r0 x { ur1 := true, sr1 := true }) <|>
      (if flag.ur0 then none else shiftLoop shmax valmax r1 fun x => gen3 r1 x { ur1 := true, sr1 := true }) <|>
      (if flag.sr1 then none
        else shiftLoop shmax valmax r1 fun x => gen3 r0 x { ur1 := true, sr1 := true, ur0 := flag.ur0 }) <|>
      (if flag.sr0 then none
        else shiftLoop shmax valmax r0 fun x =>
          if x > r1 then gen3 r1 x { ur1 := true, sr1 := true, ur0 := flag.ur1, sr0 := flag.sr1 }
          else gen3 x r1 { ur0 := true, sr0 := true, sr1 := flag.sr1, ur1 := flag.ur1 }) <|>
      (gen3 r0 (r1 + r0) { ur1 := true }).map (plus :: ·) <|>
      (gen3 r1 (r1 + r0) { ur1 := true }).map (plus :: ·) <|>
      (gen3 (r1 - r0) r1 { ur0 := true }).map (minus :: ·) <|>
      (if r1 - r0 > r0 then (gen3 r0 (r1 - r0) { ur1 := true }).map (minus :: ·)
        else (gen3 (r1 - r0) r0 { ur0 := true }).map (minus :: ·))

def gen2 (mulval : Int) (shmax : Nat) (valmax : Int) (len : Nat) (r1 : Int) : Option (List Int) :=
  match len with
  | 0 => if r1 = mulval then some [] else none
  | 1 => if mulval = r1 + 1 then some [plus] else if mulval = r1 - 1 then some [minus] else none
  | len + 1 =>
    let gen3 := gen3 mulval shmax valmax len
    (gen3 r1 (r1 + 1) { ur1 := true }).map (plus :: ·) <|>
    (gen3 (r1 - 1) r1 { ur0 := true }).map (minus :: ·) <|>
    (gen3 1 (r1 + 1) { ur1 := true }).map (plus :: ·) <|>
    (gen3 1 (r1 - 1) { ur1 := true }).map (minus :: ·)

/-- The loop that sets `shmax` and `valmax`: 30 and 2^29 if it is not left early. -/
def maxima (mulval : Int) : Nat × Int :=
  match ((List.range 29).map (· + 1)).find? fun k => mulval ≤ 2 ^ k with
  | some shmax => (shmax, 2 ^ shmax)
  | none => (30, 2 ^ 29)

def gen1 (mulval : Int) (len : Nat) : Option (List Int) :=
  let (shmax, valmax) := maxima mulval
  if mulval = 1 then some []
  else (shifts shmax).findSome? fun i => (gen2 mulval shmax valmax (len - 1) (2 ^ i)).map (letter i :: ·)

/-- Numbers that the search algorithm fails on. -/
def hintab : List (Int × String) := [
  (683, "b++d+e+"), (687, "b+e++e-"), (691, "b++d+e+"), (731, "b++d+e+"), (811, "b++d+i+"), (821, "b++e+e+"), (843, "b+d++e+"),
  (851, "b+f-+e-"), (853, "b++e+e+"), (877, "c++++g-"), (933, "b+c++g-"), (981, "c-+e-d+"), (1375, "b+c+b+h-"),
  (1675, "d+b++h+"), (2425, "c++f-e+"), (2675, "c+d++f-"), (2750, "b+d-b+h-"), (2775, "c-+g-e-"), (3125, "b++e+g+"),
  (3275, "b+c+g+e+"), (3350, "c++++i+"), (3475, "c-+e-f-"), (3525, "c-+d+g-"), (3625, "c-+e-j+"), (3675, "b+d+d+e+"),
  (3725, "b+d-+h+"), (3925, "b+d+f-d-"), (4275, "b+g++e+"), (4325, "b+h-+d+"), (4425, "b+b+g-j-"), (4525, "b+d-d+f+"),
  (4675, "c++d-g+"), (4775, "b+d+b+g-"), (4825, "c+c-+i-"), (4850, "c++++i-"), (4925, "b++e-g-"), (4975, "c+f++e-"),
  (5500, "b+g-c+d+"), (6700, "d+b++i+"), (9700, "d++++j-"), (11000, "b+f-c-h-"), (11750, "b+d+g+j-"), (12500, "b+c+e-k+"),
  (13250, "b+d+e-f+"), (13750, "b+h-c-d+"), (14250, "b+g-c+e-"), (14500, "c+f+j-d-"), (14750, "d-g--f+"), (16750, "b+e-d-n+"),
  (17750, "c+h-b+e+"), (18250, "d+b+h-d+"), (18750, "b+g-++f+"), (19250, "b+e+b+h+"), (19750, "b++h--f-"), (20250, "b+e-l-c+"),
  (20750, "c++bi+e-"), (21250, "b+i+l+c+"), (22000, "b+e+d-g-"), (22250, "b+d-h+k-"), (22750, "b+d-e-g+"), (23250, "b+c+h+e-"),
  (23500, "b+g-c-g-"), (23750, "b+g-b+h-"), (24250, "c++g+m-"), (24750, "b+e+e+j-"), (25000, "b++dh+g+"), (25250, "b+e+d-g-"),
  (25750, "b+e+b+j+"), (26250, "b+h+c+e+"), (26500, "b+h+c+g+"), (26750, "b+d+e+g-"), (27250, "b+e+e+f+"), (27500, "c-i-c-d+"),
  (27750, "b+bd++j+"), (28250, "d-d-++i-"), (28500, "c+c-h-e-"), (29000, "b+g-d-f+"), (29500, "c+h+++e-"), (29750, "b+g+f-c+"),
  (30250, "b+f-g-c+"), (33500, "c-f-d-n+"), (33750, "b+d-b+j-"), (34250, "c+e+++i+"), (35250, "e+b+d+k+"), (35500, "c+e+d-g-"),
  (35750, "c+i-++e+"), (36250, "b+bh-d+e+"), (36500, "c+c-h-e-"), (36750, "d+e--i+"), (37250, "b+g+g+b+"), (37500, "b+h-b+f+"),
  (37750, "c+be++j-"), (38500, "b+e+b+i+"), (38750, "d+i-b+d+"), (39250, "b+g-l-+d+"), (39500, "b+g-c+g-"),
  (39750, "b+bh-c+f-"), (40250, "b+bf+d+g-"), (40500, "b+g-c+g+"), (40750, "c+b+i-e+"), (41250, "d++bf+h+"),
  (41500, "b+j+c+d-"), (41750, "c+f+b+h-"), (42500, "c+h++g+"), (42750, "b+g+d-f-"), (43250, "b+l-e+d-"), (43750, "c+bd+h+f-"),
  (44000, "b+f+g-d-"), (44250, "b+d-g--f+"), (44500, "c+e+c+h+"), (44750, "b+e+d-h-"), (45250, "b++g+j-g+"),
  (45500, "c+d+e-g+"), (45750, "b+d-h-e-"), (46250, "c+bd++j+"), (46500, "b+d-c-j-"), (46750, "e-e-b+g-"), (47000, "b+c+d-j-"),
  (47250, "b+e+e-g-"), (47500, "b+g-c-h-"), (47750, "b+f-c+h-"), (48250, "d--h+n-"), (48500, "b+c-g+m-"), (48750, "b+e+e-g+"),
  (49500, "c-f+e+j-"), (49750, "c+c+g++f-"), (50000, "b+e+e+k+"), (50250, "b++i++g+"), (50500, "c+g+f-i+"),
  (50750, "b+e+d+k-"), (51500, "b+i+c-f+"), (51750, "b+bd+g-e-"), (52250, "b+d+g-j+"), (52500, "c+c+f+g+"),
  (52750, "b+c+e+i+"), (53000, "b+i+c+g+"), (53500, "c+g+g-n+"), (53750, "b+j+d-c+"), (54250, "b+d-g-j-"), (54500, "c-f+e+f+"),
  (54750, "b+f-+c+g+"), (55000, "b+g-d-g-"), (55250, "b+e+e+g+"), (55500, "b+cd++j+"), (55750, "b+bh-d-f-"),
  (56250, "c+d-b+j-"), (56500, "c+d+c+i+"), (56750, "b+e+d++h-"), (57000, "b+d+g-f+"), (57250, "b+f-m+d-"),
  (57750, "b+i+c+e-"), (58000, "b+e+d+h+"), (58250, "c+b+g+g+"), (58750, "d-e-j--e+"), (59000, "d-i-+e+"), (59250, "e--h-m+"),
  (59500, "c+c-h+f-"), (59750, "b+bh-e+i-"), (60250, "b+bh-e-e-"), (60500, "c+c-g-g-"), (60750, "b+e-l-e-"),
  (61250, "b+g-g-c+"), (61750, "b+g-c+g+"), (62250, "f--+c-i-"), (62750, "e+f--+g+"), (64750, "b+f+d+p-")]

def hint (text : String) : List Int := text.toList.map fun c => (c.toNat : Int)

/-- `struct Multab`. -/
structure Multab where
  val : Int
  code : List Op
  deriving DecidableEq, Repr

structure Cache where
  multab : Vector Multab 20
  multabp : Fin 20
  deriving DecidableEq, Repr

def Cache.initial : Cache := ⟨Vector.replicate 20 ⟨0, []⟩, 0⟩

/-- The entry of a value, if there is one. -/
def Cache.look (cache : Cache) (v : Int) : Option Multab := cache.multab.toList.find? fun m => m.val = v

/-- Select a spot to overwrite. Its code is set before anything reads it. -/
def Cache.select (cache : Cache) (v : Int) : Cache :=
  let spot := cache.multabp + 1
  ⟨cache.multab.set spot ⟨v, []⟩, spot⟩

def Cache.setCode (cache : Cache) (spot : Fin 20) (v : Int) (code : List Op) : Cache :=
  { cache with multab := cache.multab.set spot ⟨v, code⟩ }

/-- The search in the hint table: a step of the loop on the bounds `a1` and `a2`. -/
def bisect (v : Int) : Nat × Nat → Option (Nat × Nat)
  | (a1, a2) =>
    if a2 ≤ a1 then none
    else
      let g := (a2 + a1) / 2
      match hintab[g]? with
      | none => none
      | some (val, _) => if v < val then some (a1, g) else if v > val then some (g + 1, a2) else none

/-- The hint where the bounds are left. -/
def found : Nat × Nat → Option String
  | (a1, a2) => if a2 ≤ a1 then none else (hintab[(a2 + a1) / 2]?).map Prod.snd

def maxmulops : Nat := 3

/-- The loop over `g` that tries to search. -/
def search (v : Int) : List Nat → Option (List Op)
  | [] => none
  | g :: rest =>
    if g ≥ maxmulops ∧ v ≥ 65535 then none
    else match gen1 v g with
      | some hint => docode v hint 1 0
      | none => search v rest

/-- A step of the loop that takes the low zeros off. -/
def halve : Int × Nat → Option (Int × Nat)
  | (v, g) => if v % 2 = 0 then some (v / 2, g + 1) else none

/-- `none` stands for a run that needs more fuel: every test of an unbounded loop and
every call takes some. The result is the new table with the code that is returned. -/
def mulcon0 : Nat → Cache → Int → Option (Cache × Option (List Op))
  | 0, _, _ => none
  | fuel + 1, cache, v => do
    let v : Int := if v < 0 then -v else v
    match cache.look v with
    | some m => pure (cache, if m.code = [] then none else some m.code)
    | none =>
      let cache := cache.select v
      let spot := cache.multabp
      match found (← loop (bisect v) fuel (0, hintab.length)) with
      | some text =>
        match docode v (hint text) 1 0 with
        | some code => pure (cache.setCode spot v code, some code)
        | none => pure (cache.setCode spot v [], none)
      | none =>
        match search v ((List.range maxmulops).map (· + 1)) with
        | some code => pure (cache.setCode spot v code, some code)
        | none =>
          let (odd, g) ← loop halve fuel (v, 0)
          if g = 0 then pure (cache.setCode spot v [], none)
          else
            match ← mulcon0 fuel cache odd with
            | (cache, some code) =>
              let code := code ++ [⟨letter g, 0⟩]
              pure (cache.setCode spot v code, some code)
            | (cache, none) => pure (cache.setCode spot v [], none)

/-- A call that may take no test or call at all does not return. -/
example (cache : Cache) (v : Int) : mulcon0 0 cache v = none := by
  simp only [mulcon0]

/-- The constants that `mulcon` asks for: those of the types of 32 bits. -/
def Constant (v : Int) : Prop := -2 ^ 31 ≤ v ∧ v < 2 ^ 32

/-- The instructions of `gopcode`; the last operand is the destination. -/
inductive Inst where
  | ADD (l n r : Nat)
  | SUB (l n r : Nat)
  | SLL (count l r : Nat)
  | MOVW (l r : Nat)
  | RSB (l r : Nat)
  deriving DecidableEq, Repr

def exec (state : Nat → BitVec 32) : Inst → Nat → BitVec 32
  | .ADD l n r => Function.update state r (state n + state l)
  | .SUB l n r => Function.update state r (state n - state l)
  | .SLL count l r => Function.update state r (state l <<< count)
  | .MOVW l r => Function.update state r (state l)
  | .RSB l r => Function.update state r (0 - state l)

def run (state : Nat → BitVec 32) (code : List Inst) : Nat → BitVec 32 := code.foldl exec state

section

variable (nod1 nod2 nn : Nat)

/-- The register that a bit of the digit selects. -/
def pick (i bit : Nat) : Nat := if i.testBit bit then nod2 else nod1

/-- The code for one operation. An unknown one gets a diagnostic, and none. -/
def emitOp (op : Op) : List Inst :=
  if op.c = plus then [.ADD (pick nod1 nod2 op.i 0) (pick nod1 nod2 op.i 1) (pick nod1 nod2 op.i 2)]
  else if op.c = minus then [.SUB (pick nod1 nod2 op.i 0) (pick nod1 nod2 op.i 1) (pick nod1 nod2 op.i 2)]
  else
    let v := op.c - 97
    if v < 0 ∨ 32 ≤ v then [] else [.SLL v.toNat (pick nod1 nod2 op.i 0) (pick nod1 nod2 op.i 1)]

/-- The code after the operand is in `nod1`; the result goes to `nn`. -/
def mulcon (v : Int) (code : List Op) : List Inst :=
  code.flatMap (emitOp nod1 nod2) ++ if v < 0 then [.MOVW nod1 nod1, .RSB nod1 nn] else [.MOVW nod1 nn]

end

end Goken.Mul5
