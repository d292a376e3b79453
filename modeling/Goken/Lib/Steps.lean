import Mathlib.Logic.Relation

/-! Deterministic machines. A machine is a partial step function; a run is the
reflexive transitive closure of its steps. Everything here is independent of
what the machine executes. -/

namespace Goken.Lib.Steps

variable {σ : Type*} (step : σ → Option σ)

/-- One step of the machine, as a relation. -/
def Moves (before after : σ) : Prop := step before = some after

/-- Finitely many steps of the machine. -/
def Reaches : σ → σ → Prop := Relation.ReflTransGen (Moves step)

variable {step}

theorem Reaches.refl (state : σ) : Reaches step state state := Relation.ReflTransGen.refl

theorem Reaches.head {first second last : σ} (moves : step first = some second)
    (rest : Reaches step second last) : Reaches step first last :=
  Relation.ReflTransGen.head moves rest

theorem Reaches.trans {first second last : σ} (start : Reaches step first second)
    (rest : Reaches step second last) : Reaches step first last :=
  Relation.ReflTransGen.trans start rest

theorem Reaches.single {first last : σ} (moves : step first = some last) : Reaches step first last :=
  Relation.ReflTransGen.single moves

/-- A deterministic run that has reached a halted state passes through every
state the same start can reach. -/
theorem Reaches.meets {start halted other : σ} (stopped : step halted = none)
    (first : Reaches step start halted) (second : Reaches step start other) : Reaches step other halted := by
  induction second using Relation.ReflTransGen.head_induction_on with
  | refl => exact first
  | head moves _ ih =>
    apply ih
    rcases first.cases_head with same | ⟨next, taken, rest⟩
    · subst same
      rw [Moves, stopped] at moves
      cases moves
    · have same : next = _ := Option.some.inj (taken.symm.trans moves)
      exact same ▸ rest

/-- The state in which a run stops is unique. -/
theorem Reaches.unique {start first second : σ} (one : step first = none) (two : step second = none)
    (left : Reaches step start first) (right : Reaches step start second) : first = second := by
  have later := Reaches.meets one left right
  rcases later.cases_head with same | ⟨next, taken, _⟩
  · exact same.symm
  · rw [Moves, two] at taken
    cases taken

/-- A run does not go on from a state that has no step. -/
theorem Reaches.halted {first last : σ} (run : Reaches step first last) (stopped : step first = none) : first = last := by
  rcases run.cases_head with same | ⟨_, moves, _⟩
  · exact same
  · rw [Moves, stopped] at moves
    cases moves

/-- What holds first and is kept by every step holds in every state reached. -/
theorem Reaches.invariant {holds : σ → Prop} {first last : σ} (run : Reaches step first last) (initially : holds first)
    (kept : ∀ {before after}, holds before → step before = some after → holds after) : holds last := by
  induction run with
  | refl => exact initially
  | tail _ moves ih => exact kept ih moves

/-- The same, with the run so far. -/
theorem Reaches.along {holds : σ → Prop} {first last : σ} (run : Reaches step first last) (initially : holds first)
    (kept : ∀ {before after}, Reaches step first before → holds before → step before = some after → holds after) : holds last := by
  induction run with
  | refl => exact initially
  | tail path moves ih => exact kept path ih moves

/-- The rule of termination: an invariant, and a well-founded order in which every step goes down. -/
theorem Reaches.ends {r : σ → σ → Prop} (ordered : WellFounded r) (holds : σ → Prop) {first : σ} (initially : holds first)
    (kept : ∀ {before after}, holds before → step before = some after → holds after ∧ r after before) :
    ∃ last, Reaches step first last ∧ step last = none ∧ holds last := by
  induction first using ordered.induction with
  | _ first ih =>
    cases moves : step first with
    | none => exact ⟨first, .refl _, moves, initially⟩
    | some next =>
      have after := kept initially moves
      obtain ⟨last, run, stopped, holding⟩ := ih next after.2 after.1
      exact ⟨last, .head moves run, stopped, holding⟩

/-- A loop: steps until there is none, within a number of tests. -/
def loop (step : σ → Option σ) : Nat → σ → Option σ
  | 0, _ => none
  | fuel + 1, state => match step state with
    | none => some state
    | some next => loop step fuel next

/-- The rule of loops: an invariant, and a rank that every step lowers. -/
theorem loop_ends (holds : σ → Prop) (rank : σ → Nat) {first : σ} {fuel : Nat} (initially : holds first) (enough : rank first < fuel)
    (kept : ∀ {before after}, holds before → step before = some after → holds after ∧ rank after < rank before) :
    ∃ last, loop step fuel first = some last ∧ step last = none ∧ holds last := by
  induction fuel generalizing first with
  | zero => omega
  | succ fuel ih =>
    cases moves : step first with
    | none => exact ⟨first, by rw [loop, moves], moves, initially⟩
    | some next =>
      have after := kept initially moves
      obtain ⟨last, ends, stopped, after⟩ := ih after.1 (by omega)
      refine ⟨last, ?_, stopped, after⟩
      rw [loop, moves]
      exact ends

/-- What an invariant says of a loop that has ended. -/
theorem loop_ended {holds : σ → Prop} {first last : σ} {fuel : Nat} (ends : loop step fuel first = some last) (initially : holds first)
    (kept : ∀ {before after}, holds before → step before = some after → holds after) : step last = none ∧ holds last := by
  induction fuel generalizing first with
  | zero => cases ends
  | succ fuel ih =>
    rw [loop] at ends
    cases moves : step first with
    | none =>
      rw [moves] at ends
      cases ends
      exact ⟨moves, initially⟩
    | some next =>
      rw [moves] at ends
      exact ih ends (kept initially moves)

theorem loop_reaches {first last : σ} {fuel : Nat} (ends : loop step fuel first = some last) : Reaches step first last := by
  induction fuel generalizing first with
  | zero => cases ends
  | succ fuel ih =>
    rw [loop] at ends
    cases moves : step first with
    | none =>
      rw [moves] at ends
      cases ends
      exact Reaches.refl _
    | some next =>
      rw [moves] at ends
      exact Reaches.head moves (ih ends)

/-- A test that is run before every step, and after the last. -/
def always (step : σ → Option σ) (test : σ → Bool) : Nat → σ → Bool
  | 0, _ => false
  | fuel + 1, state => test state && match step state with
    | none => true
    | some next => always step test fuel next

theorem always_reaches {test : σ → Bool} {fuel : Nat} {first last : σ} (tested : always step test fuel first = true)
    (run : Reaches step first last) : test last = true := by
  induction fuel generalizing first with
  | zero => cases tested
  | succ fuel ih =>
    rw [always, Bool.and_eq_true] at tested
    rcases run.cases_head with rfl | ⟨next, moves, rest⟩
    · exact tested.1
    · rw [Moves] at moves
      rw [moves] at tested
      exact ih tested.2 rest

/-- Runs of a machine that takes an action at each step, the action one that
is allowed in the state it is taken in. -/
inductive Runs {α : Type*} (act : σ → α → Option σ) (allowed : σ → α → Prop) (first : σ) : σ → Prop where
  | start : Runs act allowed first first
  | next {middle last : σ} {action : α} (run : Runs act allowed first middle) (permitted : allowed middle action)
      (moves : act middle action = some last) : Runs act allowed first last

/-- What holds first and is kept by every allowed action holds all along. -/
theorem Runs.invariant {α : Type*} {act : σ → α → Option σ} {allowed : σ → α → Prop} {holds : σ → Prop} {first last : σ}
    (run : Runs act allowed first last) (initially : holds first)
    (kept : ∀ {before after action}, holds before → allowed before action → act before action = some after → holds after) :
    holds last := by
  induction run with
  | start => exact initially
  | next _ permitted moves ih => exact kept ih permitted moves

/-- Take the given actions, all of them allowed. -/
def follow {α : Type*} (act : σ → α → Option σ) (allowed : σ → α → Prop) [∀ s a, Decidable (allowed s a)] (first : σ) :
    List α → Option σ
  | [] => some first
  | action :: rest => if allowed first action then (act first action).bind fun next => follow act allowed next rest else none

theorem Runs.extend {α : Type*} {act : σ → α → Option σ} {allowed : σ → α → Prop} [∀ s a, Decidable (allowed s a)]
    {actions : List α} {first middle last : σ} (run : Runs act allowed first middle)
    (rest : follow act allowed middle actions = some last) : Runs act allowed first last := by
  induction actions generalizing middle with
  | nil => exact Option.some.inj rest ▸ run
  | cons action actions ih =>
      rw [follow, Option.ite_none_right_eq_some, Option.bind_eq_some_iff] at rest
      obtain ⟨permitted, next, moves, rest⟩ := rest
      exact ih (run.next permitted moves) rest

/-- `holds` of every operation of a sequence, in the state it is executed in. -/
def Along {ο : Type*} (exec : ο → σ → σ) (holds : σ → ο → Prop) : σ → List ο → Prop
  | _, [] => True
  | state, op :: rest => holds state op ∧ Along exec holds (exec op state) rest

/-- Execute a sequence of operations. -/
def execute {ο : Type*} (exec : ο → σ → σ) : σ → List ο → σ
  | state, [] => state
  | state, op :: rest => execute exec (exec op state) rest

section Execute

variable {ο : Type*} {exec : ο → σ → σ} {holds : σ → ο → Prop}

instance decidableAlong [∀ state op, Decidable (holds state op)] :
    ∀ (state : σ) (ops : List ο), Decidable (Along exec holds state ops)
  | _, [] => .isTrue trivial
  | state, op :: rest =>
    have := decidableAlong (exec op state) rest
    inferInstanceAs (Decidable (_ ∧ _))

theorem execute_append (state : σ) (first second : List ο) :
    execute exec state (first ++ second) = execute exec (execute exec state first) second := by
  induction first generalizing state with
  | nil => rfl
  | cons op first ih => exact ih _

theorem along_append {state : σ} {first second : List ο} :
    Along exec holds state (first ++ second) ↔ Along exec holds state first ∧ Along exec holds (execute exec state first) second := by
  induction first generalizing state with
  | nil => simp [Along, execute]
  | cons op first ih => simp only [List.cons_append, Along, execute, ih, and_assoc]

theorem Along.mono {more : σ → ο → Prop} {state : σ} {ops : List ο} (along : Along exec holds state ops)
    (implies : ∀ {state op}, holds state op → more state op) : Along exec more state ops := by
  induction ops generalizing state with
  | nil => trivial
  | cons op ops ih => exact ⟨implies along.1, ih along.2⟩

end Execute

end Goken.Lib.Steps
