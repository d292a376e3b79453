import Mathlib.Logic.Relation

/-! Machines whose steps are silent, halt, or show an event and go on with an
answer from outside. A forward simulation between two such machines, with a
measure for the steps that the second one does not follow, makes their runs the
same: the machines are deterministic. -/

namespace Goken.Lib.Simulation

universe u

inductive Step (σ : Type u) (ε ι : Type) where
  | silent (next : σ)
  | event (e : ε) (next : ι → σ)
  | halt

variable {σ τ : Type u} {ε ι : Type}

/-- A run: the answers, the events, and whether the machine halted. With the last
answer used up it may stop anywhere. -/
inductive Run (step : σ → Step σ ε ι) : σ → List ι → List ε → Bool → Prop where
  | stop (s : σ) : Run step s [] [] false
  | halt {s : σ} {ins : List ι} (halts : step s = .halt) : Run step s ins [] true
  | silent {s s' : σ} {ins : List ι} {evs : List ε} {halted : Bool} (moves : step s = .silent s')
      (rest : Run step s' ins evs halted) : Run step s ins evs halted
  | event {s : σ} {e : ε} {next : ι → σ} {i : ι} {ins : List ι} {evs : List ε} {halted : Bool} (shows : step s = .event e next)
      (rest : Run step (next i) ins evs halted) : Run step s (i :: ins) (e :: evs) halted

def Moves (step : σ → Step σ ε ι) (s s' : σ) : Prop := step s = .silent s'

/-- Any number of silent steps. -/
def Silently (step : σ → Step σ ε ι) : σ → σ → Prop := Relation.ReflTransGen (Moves step)

/-- At least one silent step. -/
def Onward (step : σ → Step σ ε ι) : σ → σ → Prop := Relation.TransGen (Moves step)

theorem Silently.run {step : σ → Step σ ε ι} {s s' : σ} (path : Silently step s s') {ins : List ι} {evs : List ε} {halted : Bool}
    (rest : Run step s' ins evs halted) : Run step s ins evs halted := by
  induction path using Relation.ReflTransGen.head_induction_on with
  | refl => exact rest
  | head moves _ ih => exact .silent moves ih

theorem Run.after_silent {step : σ → Step σ ε ι} {s s' : σ} {ins : List ι} {evs : List ε}
    (run : Run step s ins evs true) (moves : step s = .silent s') : Run step s' ins evs true := by
  cases run with
  | halt halts => rw [moves] at halts; cases halts
  | silent moves' rest => cases moves.symm.trans moves'; exact rest
  | event shows => rw [moves] at shows; cases shows

theorem Run.after_event {step : σ → Step σ ε ι} {s : σ} {e e' : ε} {next : ι → σ} {i : ι} {ins : List ι} {evs : List ε}
    (run : Run step s (i :: ins) (e' :: evs) true) (shows : step s = .event e next) : e' = e ∧ Run step (next i) ins evs true := by
  cases run with
  | silent moves => rw [shows] at moves; cases moves
  | event shows' rest => cases shows.symm.trans shows'; exact ⟨rfl, rest⟩

/-- What a forward simulation has to show for one step. -/
inductive Follows (step : σ → Step σ ε ι) (step' : τ → Step τ ε ι) (R : σ → τ → Prop) (measure : σ → Nat) (s : σ) (t : τ) : Prop where
  | onward {s' : σ} {t' : τ} (moves : step s = .silent s') (path : Onward step' t t') (related : R s' t')
  | stays {s' : σ} (moves : step s = .silent s') (less : measure s' < measure s) (related : R s' t)
  | event {e : ε} {next : ι → σ} {t' : τ} {next' : ι → τ} (shows : step s = .event e next) (path : Silently step' t t')
      (shows' : step' t' = .event e next') (related : ∀ i, R (next i) (next' i))
  | halt {t' : τ} (halts : step s = .halt) (path : Silently step' t t') (halts' : step' t' = .halt)

section Simulation

variable {step : σ → Step σ ε ι} {step' : τ → Step τ ε ι} {R : σ → τ → Prop} {measure : σ → Nat}
variable (simulation : ∀ s t, R s t → Follows step step' R measure s t)

include simulation in
theorem forward {s : σ} {ins : List ι} {evs : List ε} {halted : Bool} (run : Run step s ins evs halted) :
    ∀ t, R s t → Run step' t ins evs halted := by
  induction run with
  | stop s => exact fun t _ => .stop t
  | @halt s ins halts =>
    intro t related
    cases simulation s t related with
    | onward moves => rw [halts] at moves; cases moves
    | stays moves => rw [halts] at moves; cases moves
    | event shows => rw [halts] at shows; cases shows
    | halt _ path halts' => exact path.run (.halt halts')
  | @silent s s' ins evs halted moves _ ih =>
    intro t related
    cases simulation s t related with
    | onward moves' path related' =>
      cases moves.symm.trans moves'
      exact Silently.run path.to_reflTransGen (ih _ related')
    | stays moves' _ related' =>
      cases moves.symm.trans moves'
      exact ih _ related'
    | event shows => rw [moves] at shows; cases shows
    | halt halts => rw [moves] at halts; cases halts
  | @event s e next i ins evs halted shows _ ih =>
    intro t related
    cases simulation s t related with
    | onward moves => rw [shows] at moves; cases moves
    | stays moves => rw [shows] at moves; cases moves
    | event shows' path again related' =>
      cases shows.symm.trans shows'
      exact path.run (.event again (ih _ (related' i)))
    | halt halts => rw [shows] at halts; cases halts

/-- The length of a run, for the induction in the other direction. -/
private inductive Long (step : σ → Step σ ε ι) : Nat → σ → List ι → List ε → Bool → Prop where
  | stop (s : σ) : Long step 0 s [] [] false
  | halt {s : σ} {ins : List ι} (halts : step s = .halt) : Long step 0 s ins [] true
  | silent {n : Nat} {s s' : σ} {ins : List ι} {evs : List ε} {halted : Bool} (moves : step s = .silent s')
      (rest : Long step n s' ins evs halted) : Long step (n + 1) s ins evs halted
  | event {n : Nat} {s : σ} {e : ε} {next : ι → σ} {i : ι} {ins : List ι} {evs : List ε} {halted : Bool}
      (shows : step s = .event e next) (rest : Long step n (next i) ins evs halted) :
      Long step (n + 1) s (i :: ins) (e :: evs) halted

private theorem Run.long {s : σ} {ins : List ι} {evs : List ε} {halted : Bool} (run : Run step s ins evs halted) :
    ∃ n, Long step n s ins evs halted := by
  induction run with
  | stop s => exact ⟨0, .stop s⟩
  | halt halts => exact ⟨0, .halt halts⟩
  | silent moves _ ih =>
    obtain ⟨n, long⟩ := ih
    exact ⟨n + 1, .silent moves long⟩
  | event shows _ ih =>
    obtain ⟨n, long⟩ := ih
    exact ⟨n + 1, .event shows long⟩

/-- A run passes through every state that is reached silently, unless it stops before. -/
private theorem Long.after {n : Nat} {s s' : σ} {ins : List ι} {evs : List ε} {halted : Bool}
    (long : Long step n s ins evs halted) (path : Silently step s s') :
    (ins = [] ∧ evs = [] ∧ halted = false) ∨ ∃ m ≤ n, Long step m s' ins evs halted := by
  induction path using Relation.ReflTransGen.head_induction_on generalizing n with
  | refl => exact Or.inr ⟨n, Nat.le_refl n, long⟩
  | head moves path ih =>
    cases long with
    | stop => exact Or.inl ⟨rfl, rfl, rfl⟩
    | halt halts => rw [Moves, halts] at moves; cases moves
    | silent moves' rest =>
      cases moves'.symm.trans moves
      rcases ih rest with stopped | ⟨m, less, rest'⟩
      · exact Or.inl stopped
      · exact Or.inr ⟨m, by omega, rest'⟩
    | event shows => rw [Moves, shows] at moves; cases moves

include simulation in
private theorem backward_long : ∀ (n : Nat) (k : Nat) {s : σ} {t : τ} {ins : List ι} {evs : List ε} {halted : Bool}, measure s ≤ k →
    R s t → Long step' n t ins evs halted → Run step s ins evs halted := by
  intro n
  induction n using Nat.strongRecOn with
  | ind n ih =>
    intro k
    induction k using Nat.strongRecOn with
    | ind k ih' =>
      intro s t ins evs halted bound related long
      cases simulation s t related with
      | @onward s' t' moves path related' =>
        obtain ⟨mid, first, rest⟩ := Relation.TransGen.head'_iff.mp path
        cases long with
        | stop => exact .stop s
        | halt halts => rw [Moves, halts] at first; cases first
        | silent moves' long =>
          cases moves'.symm.trans first
          rcases long.after rest with ⟨rfl, rfl, rfl⟩ | ⟨m, less, long'⟩
          · exact .stop s
          · exact .silent moves (ih m (by omega) _ (Nat.le_refl _) related' long')
        | event shows => rw [Moves, shows] at first; cases first
      | stays moves less related' => exact .silent moves (ih' _ (by omega) (Nat.le_refl _) related' long)
      | event shows path shows' related' =>
        rcases long.after path with ⟨rfl, rfl, rfl⟩ | ⟨m, less, long'⟩
        · exact .stop s
        · cases long' with
          | stop => exact .stop s
          | halt halts => rw [shows'] at halts; cases halts
          | silent moves => rw [shows'] at moves; cases moves
          | event again rest =>
            cases shows'.symm.trans again
            exact .event shows (ih _ (by omega) _ (Nat.le_refl _) (related' _) rest)
      | halt halts path halts' =>
        rcases long.after path with ⟨rfl, rfl, rfl⟩ | ⟨m, _, long'⟩
        · exact .stop s
        · cases long' with
          | stop => exact .stop s
          | halt _ => exact .halt halts
          | silent moves => rw [halts'] at moves; cases moves
          | event shows => rw [halts'] at shows; cases shows

include simulation in
/-- Related states have the same runs. -/
theorem run_iff {s : σ} {t : τ} (related : R s t) (ins : List ι) (evs : List ε) (halted : Bool) :
    Run step s ins evs halted ↔ Run step' t ins evs halted := by
  constructor
  · exact fun run => forward simulation run t related
  · intro run
    obtain ⟨n, long⟩ := run.long
    exact backward_long simulation n _ (Nat.le_refl _) related long

end Simulation

end Goken.Lib.Simulation
