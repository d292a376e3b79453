import Goken.Lib.Steps
import Mathlib.Logic.Function.Basic

/-! Deterministic machines that stop, and a step added where one stopped: if it leads to where
the machine stops elsewhere, it closes no circle. -/

namespace Goken.Lib.Steps

variable {σ : Type*} {step : σ → Option σ}

/-- The machine stops. -/
def Halts (step : σ → Option σ) (first : σ) : Prop := ∃ last, Reaches step first last ∧ step last = none

theorem Halts.acc {first : σ} (halts : Halts step first) : Acc (fun after before => Moves step before after) first := by
  obtain ⟨last, run, stopped⟩ := halts
  induction run using Relation.ReflTransGen.head_induction_on with
  | refl =>
    refine ⟨last, fun next moves => ?_⟩
    rw [Moves, stopped] at moves
    cases moves
  | head moves _ ih =>
    refine ⟨_, fun next moves' => ?_⟩
    rw [Moves] at moves moves'
    cases moves.symm.trans moves'
    exact ih

section Update

variable [DecidableEq σ] {i k : σ}

/-- A step from where the machine stopped is never taken before. -/
theorem Reaches.update {first last : σ} (run : Reaches step first last) (stopped : step i = none) :
    Reaches (Function.update step i (some k)) first last := by
  induction run with
  | refl => exact .refl _
  | @tail before _ _ moves ih =>
    have other : before ≠ i := by
      rintro rfl
      rw [Moves, stopped] at moves
      cases moves
    exact ih.tail ((Function.update_of_ne other _ _).trans moves)

/-- It still stops everywhere, if the step leads to where the machine stops elsewhere. -/
theorem Halts.update {first e : σ} (halts : Halts step first) (stopped : step i = none) (leads : Reaches step k e)
    (ends : step e = none) (other : e ≠ i) : Halts (Function.update step i (some k)) first := by
  obtain ⟨last, run, stopped'⟩ := halts
  have ended : Function.update step i (some k) e = none := (Function.update_of_ne other _ _).trans ends
  by_cases same : last = i
  · subst same
    exact ⟨e, (run.update stopped).trans (.head (Function.update_self ..) (leads.update stopped)), ended⟩
  · exact ⟨last, run.update stopped, (Function.update_of_ne same _ _).trans stopped'⟩

end Update

end Goken.Lib.Steps
