import Mathlib.Logic.Function.Basic

/-! Undo logs over maps. An entry keeps the value a key had before it was
overwritten; rewinding a log puts the values back, newest entry first. -/

namespace Goken.Lib.UndoLog

variable {κ ν : Type*} [DecidableEq κ]

def rewind : List (κ × ν) → (κ → ν) → κ → ν
  | [], map => map
  | entry :: log, map => rewind log (Function.update map entry.1 entry.2)

theorem rewind_append (newer older : List (κ × ν)) (map : κ → ν) :
    rewind (newer ++ older) map = rewind older (rewind newer map) := by
  induction newer generalizing map with
  | nil => rfl
  | cons entry newer ih => exact ih _

/-- A write whose old value was logged is undone. -/
theorem rewind_logged (map : κ → ν) (key : κ) (value : ν) (log : List (κ × ν)) :
    rewind ((key, map key) :: log) (Function.update map key value) = rewind log map := by
  simp [rewind]

/-- A key that the log mentions may be overwritten without a new entry. -/
theorem rewind_covered {log : List (κ × ν)} {key : κ} (map : κ → ν) (value : ν) (covered : key ∈ log.map Prod.fst) :
    rewind log (Function.update map key value) = rewind log map := by
  induction log generalizing map with
  | nil => cases covered
  | cons entry log ih =>
    by_cases same : key = entry.1
    · rw [rewind, rewind, same, Function.update_idem]
    · have later : key ∈ log.map Prod.fst := by simpa [same] using covered
      rw [rewind, rewind, Function.update_comm same]
      exact ih _ later

end Goken.Lib.UndoLog
