import Mathlib.Data.List.Basic
import Mathlib.Data.List.ReduceOption

/-! Arrays of a fixed number of cells, written one after the other or at any index. An
access outside the array, and a read of a cell that was never written, gives nothing. -/

namespace Goken.Lib.Slots

variable {α : Type}

structure Row (α : Type) where
  cells : List (Option α)
deriving DecidableEq, Repr

namespace Row

def new (n : Nat) : Row α := ⟨List.replicate n none⟩

def size (t : Row α) : Nat := t.cells.length

def store (t : Row α) (i : Nat) (x : α) : Option (Row α) :=
  if i < t.size then some ⟨t.cells.set i (some x)⟩ else none

def load (t : Row α) (i : Nat) : Option α := t.cells[i]?.join

/-- What has been written, in the order of the cells. -/
def written (t : Row α) : List α := t.cells.reduceOption

/-- The array whose first cells hold the items and that has room for more. -/
def holding (items : List α) (room : Nat) : Row α := ⟨items.map some ++ List.replicate room none⟩

end Row

open Row

@[simp] theorem new_size (n : Nat) : (new n : Row α).size = n := by simp [new, size]

theorem store_size {t u : Row α} {i : Nat} {x : α} (stored : t.store i x = some u) : u.size = t.size := by
  unfold store at stored
  split at stored
  · cases stored
    simp [size]
  · cases stored

theorem store_inside {t : Row α} {i : Nat} (x : α) (inside : i < t.size) :
    ∃ u, t.store i x = some u ∧ u.size = t.size := by
  have stored : t.store i x = some ⟨t.cells.set i (some x)⟩ := if_pos inside
  exact ⟨_, stored, store_size stored⟩

theorem store_outside {t : Row α} {i : Nat} (x : α) (outside : ¬i < t.size) : t.store i x = none := if_neg outside

theorem load_stored {t u : Row α} {i : Nat} {x : α} (stored : t.store i x = some u) : u.load i = some x := by
  unfold store at stored
  split at stored
  next inside =>
    cases stored
    have set : (t.cells.set i (some x))[i]? = some (some x) := by
      rw [List.getElem?_set_self]
      simpa [size] using inside
    simp [load, set]
  · cases stored

/-- The next item is written while there is room. -/
theorem store_next (items : List α) (room : Nat) (x : α) :
    (holding items (room + 1)).store items.length x = some (holding (items ++ [x]) room) := by
  have inside : items.length < (holding items (room + 1)).size := by simp [holding, size]
  rw [store, if_pos inside]
  simp [holding, List.replicate_succ]

theorem store_last (items : List α) (room : Nat) (x y : α) :
    (holding (items ++ [y]) room).store items.length x = some (holding (items ++ [x]) room) := by
  have inside : items.length < (holding (items ++ [y]) room).size := by simp [holding, size]
  rw [store, if_pos inside]
  simp [holding]

theorem load_last (items : List α) (room : Nat) (y : α) : (holding (items ++ [y]) room).load items.length = some y := by
  simp [holding, load]

theorem written_full (items : List α) : (holding items 0).written = items := by
  simp [holding, written, List.reduceOption]

end Goken.Lib.Slots
