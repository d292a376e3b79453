import Mathlib.Tactic.Common

/-! A loop over a list that replaces every element and carries a counter. The element
at a place is replaced with the counter as the elements before it have left it. -/

namespace Goken.Lib.Sweep

variable {α : Type} (body : Int → α → α × Int)

def sweep : Int → List α → List α × Int
  | count, [] => ([], count)
  | count, x :: xs =>
    let (y, next) := body count x
    let (ys, last) := sweep next xs
    (y :: ys, last)

/-- The counter at a place. -/
def countAt (count : Int) (xs : List α) (i : Nat) : Int := (sweep body count (xs.take i)).2

theorem countAt_cons (count : Int) (x : α) (xs : List α) (i : Nat) :
    countAt body count (x :: xs) (i + 1) = countAt body (body count x).2 xs i := rfl

theorem countAt_length (count : Int) (xs : List α) : countAt body count xs xs.length = (sweep body count xs).2 := by
  rw [countAt, List.take_length]

theorem getElem_sweep (count : Int) (xs : List α) (i : Nat) :
    (sweep body count xs).1[i]? = xs[i]?.map fun x => (body (countAt body count xs i) x).1 := by
  induction xs generalizing count i with
  | nil => rfl
  | cons x xs ih =>
    cases i with
    | zero => rfl
    | succ i => exact ih (body count x).2 i

theorem countAt_succ (count : Int) {xs : List α} {i : Nat} {x : α} (here : xs[i]? = some x) :
    countAt body count xs (i + 1) = (body (countAt body count xs i) x).2 := by
  induction xs generalizing count i with
  | nil => cases here
  | cons y ys ih =>
    cases i with
    | zero =>
      cases here
      rfl
    | succ i =>
      rw [countAt_cons, countAt_cons]
      exact ih (body count y).2 here

theorem length_sweep (count : Int) (xs : List α) : (sweep body count xs).1.length = xs.length := by
  induction xs generalizing count with
  | nil => rfl
  | cons x xs ih =>
    simp only [sweep, List.length_cons]
    rw [ih]

section Growing

variable {body} {P : Int → Prop} {xs : List α} (grows : ∀ count, ∀ x ∈ xs, count ≤ (body count x).2)
include grows

theorem countAt_mono (count : Int) {i j : Nat} (before : i ≤ j) (inside : j ≤ xs.length) :
    countAt body count xs i ≤ countAt body count xs j := by
  induction before with
  | refl => exact Int.le_refl _
  | @step j _ ih =>
    have here : xs[j]? = some xs[j] := List.getElem?_eq_getElem (by omega)
    calc countAt body count xs i ≤ countAt body count xs j := ih (by omega)
      _ ≤ countAt body count xs (j + 1) := by
        rw [countAt_succ body count here]
        exact grows _ _ (List.getElem_mem _)

end Growing

/-- What every step keeps of the counter holds of it everywhere. -/
theorem countAt_keeps {P : Int → Prop} {xs : List α} (keeps : ∀ count, ∀ x ∈ xs, P count → P (body count x).2) {count : Int} (start : P count)
    {i : Nat} (inside : i ≤ xs.length) : P (countAt body count xs i) := by
  induction i with
  | zero => exact start
  | succ i ih =>
    have here : xs[i]? = some xs[i] := List.getElem?_eq_getElem (by omega)
    rw [countAt_succ body count here]
    exact keeps _ _ (List.getElem_mem _) (ih (by omega))

end Goken.Lib.Sweep
