import Mathlib.Control.Monad.Writer
import Mathlib.Data.List.Induction
import Mathlib.Tactic.Common

/-! Computations that may fail and that log events as they go. What an event is to hold
may rest on those before it: a log is settled if, for every event, the first that fails to
hold is told by what is asked of it. A rule for each way to put computations together says
what they yield and that their logs are settled. -/

namespace Goken.Lib.Logged

variable {ε α β : Type}

abbrev Computation (ε : Type) := WriterT (List ε) Option

section Logs

variable (holds asked : ε → Prop)

/-- Whether an event holds is what is asked of it, as long as those before it hold. -/
def Settled (log : List ε) : Prop :=
  ∀ before e after, log = before ++ e :: after → (∀ x ∈ before, holds x) → (holds e ↔ asked e)

variable {holds asked} {log log' : List ε}

theorem settled_nil : Settled holds asked [] := by
  intro before e after same
  exact absurd same.symm (by simp)

theorem settled_single {e : ε} (same : holds e ↔ asked e) : Settled holds asked [e] := by
  intro before e' after shape _
  have member : e' ∈ [e] := by rw [shape]; simp
  rw [List.mem_singleton.mp member]
  exact same

theorem settled_append (first : Settled holds asked log) (second : (∀ e ∈ log, holds e) → Settled holds asked log') :
    Settled holds asked (log ++ log') := by
  intro before e after shape held
  rcases List.append_eq_append_iff.mp shape with ⟨middle, rfl, shape'⟩ | ⟨middle, rfl, shape'⟩
  · exact second (fun x member => held x (List.mem_append_left _ member)) middle e after shape' fun x member => held x (List.mem_append_right _ member)
  · cases middle with
    | nil => exact second (fun x member => held x (by simpa using member)) [] e after shape'.symm nofun
    | cons x rest =>
      obtain ⟨rfl, rfl⟩ := List.cons.inj shape'
      exact first before e rest rfl held

/-- All events hold just when all is as it is asked. -/
theorem settled_iff (settled : Settled holds asked log) : (∀ e ∈ log, holds e) ↔ ∀ e ∈ log, asked e := by
  constructor
  · intro held e member
    obtain ⟨before, after, shape⟩ := List.append_of_mem member
    refine (settled before e after shape fun x member => held x ?_).mp (held e member)
    rw [shape]
    exact List.mem_append_left _ member
  · intro met
    have prefixes (before after : List ε) (shape : log = before ++ after) : ∀ e ∈ before, holds e := by
      induction before using List.reverseRecOn generalizing after with
      | nil => exact nofun
      | append_singleton before e ih =>
        rw [List.append_assoc, List.singleton_append] at shape
        intro x member
        rcases List.mem_append.mp member with early | last
        · exact ih _ shape x early
        · rw [List.mem_singleton.mp last]
          exact (settled before e after shape (ih _ shape)).mpr (met e (by rw [shape]; simp))
    exact prefixes log [] (by rw [List.append_nil])

end Logs

section Rules

/-- If the computation returns, its log is settled, and if all events hold its value is as told. -/
def Yields (holds asked : ε → Prop) (computation : Computation ε α) (post : α → Prop) : Prop :=
  ∀ a log, computation.run = some (a, log) → Settled holds asked log ∧ ((∀ e ∈ log, holds e) → post a)

variable {holds asked : ε → Prop} {post : α → Prop} {post' : β → Prop}

theorem yields_pure {a : α} (told : post a) : Yields holds asked (pure a : Computation ε α) post := by
  rintro _ _ run
  cases run
  exact ⟨settled_nil, fun _ => told⟩

theorem run_bind {first : Computation ε α} {next : α → Computation ε β} {b : β} {log : List ε} :
    (first >>= next).run = some (b, log) ↔
      ∃ a before after, first.run = some (a, before) ∧ (next a).run = some (b, after) ∧ log = before ++ after := by
  have run_eq : (first >>= next).run = first.run.bind fun x => (next x.1).run.map fun y => (y.1, x.2 ++ y.2) := by
    show (first.run >>= _) = _
    cases first.run <;> rfl
  rw [run_eq, Option.bind_eq_some_iff]
  constructor
  · rintro ⟨⟨a, before⟩, begun, rest⟩
    obtain ⟨⟨b', after⟩, ended, same⟩ := Option.map_eq_some_iff.mp rest
    cases same
    exact ⟨a, before, after, begun, ended, rfl⟩
  · rintro ⟨a, before, after, begun, ended, rfl⟩
    exact ⟨(a, before), begun, Option.map_eq_some_iff.mpr ⟨(b, after), ended, rfl⟩⟩

theorem yields_bind {first : Computation ε α} {next : α → Computation ε β} (start : Yields holds asked first post)
    (rest : ∀ a, post a → Yields holds asked (next a) post') : Yields holds asked (first >>= next) post' := by
  intro b log run
  obtain ⟨a, before, after, begun, ended, rfl⟩ := run_bind.mp run
  obtain ⟨early, reached⟩ := start a before begun
  refine ⟨settled_append early fun held => (rest a (reached held) b after ended).1, fun held => ?_⟩
  have told := reached fun e member => held e (List.mem_append_left _ member)
  exact (rest a told b after ended).2 fun e member => held e (List.mem_append_right _ member)

theorem yields_tell {e : ε} (same : holds e ↔ asked e) : Yields holds asked (tell [e] : Computation ε PUnit) (fun _ => holds e) := by
  rintro _ _ run
  cases run
  exact ⟨settled_single same, fun held => held e (List.mem_singleton.mpr rfl)⟩

theorem yields_lift {option : Option α} (told : ∀ a, option = some a → post a) : Yields holds asked (liftM option : Computation ε α) post := by
  intro a log run
  cases option with
  | none => cases run
  | some result =>
    cases run
    exact ⟨settled_nil, fun _ => told a rfl⟩

theorem yields_weaken {computation : Computation ε α} {stronger : α → Prop} (yields : Yields holds asked computation stronger)
    (weaker : ∀ a, stronger a → post a) : Yields holds asked computation post := by
  intro a log run
  obtain ⟨settled, told⟩ := yields a log run
  exact ⟨settled, fun held => weaker a (told held)⟩

theorem yields_run {computation : Computation ε α} (yields : Yields holds asked computation post) :
    Yields holds asked computation (fun a => post a ∧ ∃ log, computation.run = some (a, log)) := by
  intro a log run
  obtain ⟨settled, told⟩ := yields a log run
  exact ⟨settled, fun held => ⟨told held, log, run⟩⟩

end Rules

section Refinement

/-- What the one computation returns, the other returns too. -/
def Refines (first second : Computation ε α) : Prop := ∀ result, first.run = some result → second.run = some result

theorem refines_refl (computation : Computation ε α) : Refines computation computation := fun _ run => run

theorem refines_bind {first second : Computation ε α} {next next' : α → Computation ε β} (start : Refines first second)
    (rest : ∀ a, Refines (next a) (next' a)) : Refines (first >>= next) (second >>= next') := by
  rintro ⟨b, log⟩ run
  obtain ⟨a, before, after, begun, ended, rfl⟩ := run_bind.mp run
  exact run_bind.mpr ⟨a, before, after, start _ begun, rest a _ ended, rfl⟩

end Refinement

end Goken.Lib.Logged
