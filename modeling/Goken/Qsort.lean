import Mathlib.Data.List.Basic
import Mathlib.Algebra.Group.Int.Defs
import Mathlib.Algebra.Group.Nat.Defs

/-! The library's `qsort`: a quicksort that takes the element in the middle, or of long
arrays the median of three, as the pivot, moves it to the front and lets two scans
approach each other. A segment of the array is a list; the comparison function is any
function whose sign the sort reads. -/

namespace Goken.Qsort

variable {α : Type}

def swap (a : List α) (i j : Nat) : List α :=
  match a[i]?, a[j]? with
  | some x, some y => (a.set i y).set j x
  | _, _ => a

section

variable (cmp : α → α → Int)

/-- The result of comparing two elements of the array. -/
def cmpAt (a : List α) (i j : Nat) : Int :=
  match a[i]?, a[j]? with
  | some x, some y => cmp x y
  | _, _ => 0

def pivot (a : List α) (n : Nat) : Nat :=
  let pi := n / 6
  let pj := pi + (pi + pi)
  let pk := pj + (pi + pi)
  if cmpAt cmp a pi pj < 0 then
    if cmpAt cmp a pi pk < 0 then
      if cmpAt cmp a pj pk < 0 then pj else pk
    else pi
  else if cmpAt cmp a pj pk < 0 then
    if cmpAt cmp a pi pk < 0 then pi else pk
  else pj

/-- The scan up, from `pi` with `left` elements before the end. -/
def up (a : List α) : Nat → Nat → Nat
  | 0, pi => pi
  | left + 1, pi => if cmpAt cmp a pi 0 < 0 then up a left (pi + 1) else pi

/-- The scan down, from just below the index. -/
def down (a : List α) : Nat → Nat
  | 0 => 0
  | pj + 1 => if pj > 0 ∧ cmpAt cmp a pj 0 > 0 then down a pj else pj

/-- The two scans until they cross: the array and where the pivot belongs. -/
def scans : Nat → List α → Nat → Nat → List α × Nat
  | 0, a, _, pj => (a, pj)
  | turns + 1, a, pi, pj =>
      let pi := up cmp a (a.length - (pi + 1)) (pi + 1)
      let pj := down cmp a pj
      if pj < pi then (a, pj) else scans turns (swap a pi pj) pi pj

/-- The pivot put in its place: what is before it, the pivot, and what is behind it. -/
def partition (a : List α) : List α × List α × List α :=
  let n := a.length
  let pi := if n > 10 then pivot cmp a n else n / 2
  let (a, pj) := scans cmp n (swap a 0 pi) 0 n
  let a := swap a 0 pj
  (a.take pj, (a.drop pj).take 1, a.drop (pj + 1))

/-- The two parts are sorted each in its place, the longer one by the loop and the
other by a call. -/
def qsorts : Nat → List α → List α
  | 0, a => a
  | depth + 1, a =>
      if a.length > 1 then
        let (before, p, after) := partition cmp a
        qsorts depth before ++ p ++ qsorts depth after
      else a

def qsort (a : List α) : List α := qsorts cmp a.length a

end

end Goken.Qsort
