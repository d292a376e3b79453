import Mathlib.Algebra.Group.Nat.Defs
import Mathlib.Data.List.Basic

/-! The library's `qsort` on the bytes of an array. A pointer is an offset into the
array. An access outside the array gives nothing, and so does a loop that would go on
after as many turns as it is given. -/

namespace Goken.QsortBytes

abbrev Mem := List UInt8

/-- A `long` has 4 bytes with goken's own compilers and 8 with others: `2 ^ k`. -/
def sizeofLong (k : Nat) : Nat := 2 ^ k

/-- The last turn is the one with one byte left; with none the loop would go on. -/
def swapb : Nat → Nat → Nat → Mem → Option Mem
  | _, _, 0, _ => none
  | i, j, es + 1, mem => do
      let c ← mem[i]?
      let d ← mem[j]?
      let mem := (mem.set i d).set j c
      if es = 0 then some mem else swapb (i + 1) (j + 1) es mem

def loadl (k : Nat) (mem : Mem) (i : Nat) : Option (List UInt8) :=
  if i + sizeofLong k ≤ mem.length then some ((mem.drop i).take (sizeofLong k)) else none

def storel (k : Nat) (mem : Mem) (i : Nat) (l : List UInt8) : Mem := mem.take i ++ l ++ mem.drop (i + sizeofLong k)

def swapi (k : Nat) : Nat → Nat → Nat → Nat → Mem → Option Mem
  | 0, _, _, _, _ => none
  | turns + 1, i, j, es, mem => do
      let c ← loadl k mem i
      let d ← loadl k mem j
      let mem := storel k (storel k mem i d) j c
      if es = sizeofLong k then some mem else swapi k turns (i + sizeofLong k) (j + sizeofLong k) (es - sizeofLong k) mem

structure Sorting where
  cmp : List UInt8 → List UInt8 → Int
  swap : Nat → Nat → Nat → Mem → Option Mem
  es : Nat

/-- What the comparison function finds at its two pointers. -/
def Sorting.compare (p : Sorting) (mem : Mem) (i j : Nat) : Option Int :=
  if i + p.es ≤ mem.length ∧ j + p.es ≤ mem.length then
    some (p.cmp ((mem.drop i).take p.es) ((mem.drop j).take p.es))
  else none

def pivot (a n : Nat) (p : Sorting) (mem : Mem) : Option Nat := do
  let j := n / 6 * p.es
  let pi := a + j
  let j := j + j
  let pj := pi + j
  let pk := pj + j
  if (← p.compare mem pi pj) < 0 then
    if (← p.compare mem pi pk) < 0 then
      if (← p.compare mem pj pk) < 0 then some pj else some pk
    else some pi
  else if (← p.compare mem pj pk) < 0 then
    if (← p.compare mem pi pk) < 0 then some pi else some pk
  else some pj

/-- The scan up to `pn`. -/
def up (p : Sorting) (mem : Mem) (a pn : Nat) : Nat → Nat → Option Nat
  | 0, _ => none
  | turns + 1, pi => do
      let pi := pi + p.es
      if pi < pn then if (← p.compare mem pi a) < 0 then up p mem a pn turns pi else some pi
      else some pi

/-- The scan down to `a`. -/
def down (p : Sorting) (mem : Mem) (a : Nat) : Nat → Nat → Option Nat
  | 0, _ => none
  | turns + 1, pj =>
      if pj < p.es then none
      else do
        let pj := pj - p.es
        if pj > a then if (← p.compare mem pj a) > 0 then down p mem a turns pj else some pj
        else some pj

/-- The two scans until they cross; `n` bounds the turns of each. -/
def scans (p : Sorting) (a n : Nat) : Nat → Mem → Nat → Nat → Option (Mem × Nat)
  | 0, _, _, _ => none
  | turns + 1, mem, pi, pj => do
      let pi ← up p mem a (a + n * p.es) n pi
      let pj ← down p mem a n pj
      if pj < pi then some (mem, pj) else scans p a n turns (← p.swap pi pj p.es mem) pi pj

/-- Where the pivot comes from. -/
def chosen (a n : Nat) (p : Sorting) (mem : Mem) : Option Nat := if n > 10 then pivot a n p mem else some (a + n / 2 * p.es)

/-- One turn of the outer loop: the pivot ends where it belongs. -/
def partition (p : Sorting) (a n : Nat) (mem : Mem) : Option (Mem × Nat) := do
  let pi ← chosen a n p mem
  let mem ← p.swap a pi p.es mem
  let (mem, pj) ← scans p a n n mem a (a + n * p.es)
  let mem ← p.swap a pj p.es mem
  some (mem, (pj - a) / p.es)

/-- The part that the loop goes on with, and the part that is sorted by a call. -/
def qsorts (p : Sorting) : Nat → Nat → Nat → Mem → Option Mem
  | 0, _, n, mem => if n > 1 then none else some mem
  | turns + 1, a, n, mem =>
      if n > 1 then do
        let (mem, j) ← partition p a n mem
        let n := n - j - 1
        if j ≥ n then
          let mem ← qsorts p turns a j mem
          qsorts p turns (a + (j + 1) * p.es) n mem
        else
          let mem ← qsorts p turns (a + (j + 1) * p.es) n mem
          qsorts p turns a j mem
      else some mem

/-- The array lies at the address `va`. -/
def qsort (k va n es : Nat) (cmp : List UInt8 → List UInt8 → Int) (mem : Mem) : Option Mem :=
  let swap := if (va ||| es) % sizeofLong k ≠ 0 then swapb else swapi k es
  qsorts ⟨cmp, swap, es⟩ n 0 n mem

end Goken.QsortBytes
