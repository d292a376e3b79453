import Mathlib.Data.Option.Basic
import Mathlib.Logic.Function.Basic
import Mathlib.Tactic.Common

/-! A table of `size` slots that a writer fills cyclically from slot 1 on and a
reader mirrors from the writer's announcements. Slot 0 stands for no value. The
writer finds a value again through an index it keeps for the value's key. -/

namespace Goken.Lib.Ring

structure Slots (κ ν : Type) where
  slots : Nat → Option ν
  index : κ → Nat
  next : Nat

def empty {κ ν : Type} : Slots κ ν := ⟨fun _ => none, fun _ => 0, 1⟩

variable {κ ν ρ : Type} [DecidableEq κ] [DecidableEq ν] (size : Nat) (key : ν → κ)

/-- The slot that may still hold `v`. -/
def seek (r : Slots κ ν) (v : ν) : Nat := if r.index (key v) < size then r.index (key v) else 0

def Held (r : Slots κ ν) (v : ν) : Prop := r.slots (seek size key r v) = some v

instance (r : Slots κ ν) (v : ν) : Decidable (Held size key r v) := inferInstanceAs (Decidable (_ = _))

/-- Give the next slot to `v`, whatever it held. -/
def push (r : Slots κ ν) (v : ν) : Slots κ ν where
  slots := Function.update r.slots r.next (some v)
  index := Function.update r.index (key v) r.next
  next := if r.next + 1 ≥ size then 1 else r.next + 1

def place (r : Slots κ ν) : Option ν → Nat × Slots κ ν
  | none => (0, r)
  | some v => if Held size key r v then (seek size key r v, r) else (r.next, push size key r v)

/-- The slots for two values, the first placed before the second. -/
def placeTwo (r : Slots κ ν) (first second : Option ν) : Nat × Nat × Slots κ ν :=
  let (i, r) := place size key r first
  let (j, r) := place size key r second
  (i, j, r)

structure Proper (r : Slots κ ν) : Prop where
  positive : 1 ≤ r.next
  inside : r.next < size
  zero : r.slots 0 = none

variable {size} {key} {r : Slots κ ν}

omit [DecidableEq κ] [DecidableEq ν] in
theorem proper_empty (wide : 2 < size) : Proper size (empty : Slots κ ν) := ⟨Nat.le_refl _, by simp [empty]; omega, rfl⟩

omit [DecidableEq ν] in
theorem push_slots (v : ν) : (push size key r v).slots = Function.update r.slots r.next (some v) := rfl

omit [DecidableEq ν] in
theorem push_index (v : ν) : (push size key r v).index = Function.update r.index (key v) r.next := rfl

omit [DecidableEq ν] in
theorem Proper.push (proper : Proper size r) (wide : 2 < size) (v : ν) : Proper size (push size key r v) := by
  obtain ⟨positive, inside, zero⟩ := proper
  refine ⟨?_, ?_, ?_⟩
  · simp only [Ring.push]
    split_ifs <;> omega
  · simp only [Ring.push]
    split_ifs <;> omega
  · rw [push_slots, Function.update_of_ne (by omega), zero]

theorem Proper.place (proper : Proper size r) (wide : 2 < size) (o : Option ν) : Proper size (place size key r o).2 := by
  cases o with
  | none => exact proper
  | some v =>
    rw [Ring.place]
    split_ifs
    · exact proper
    · exact proper.push wide v

theorem Proper.placeTwo (proper : Proper size r) (wide : 2 < size) (first second : Option ν) :
    Proper size (placeTwo size key r first second).2.2 :=
  (proper.place wide first).place wide second

omit [DecidableEq ν] in
theorem push_next_ne (wide : 2 < size) (proper : Proper size r) (v : ν) : (push size key r v).next ≠ r.next := by
  have := proper.positive
  simp only [push]
  split_ifs <;> omega

/-- A placed value is in its slot. -/
theorem slots_place (proper : Proper size r) (o : Option ν) : (place size key r o).2.slots (place size key r o).1 = o := by
  cases o with
  | none => exact proper.zero
  | some v =>
    rw [place]
    split_ifs with held
    · exact held
    · exact Function.update_self ..

theorem place_lt (proper : Proper size r) (o : Option ν) : (place size key r o).1 < size := by
  have := proper.inside
  cases o with
  | none =>
    show 0 < size
    omega
  | some v =>
    rw [place]
    split_ifs
    · show seek size key r v < size
      unfold seek
      split_ifs <;> omega
    · exact proper.inside

/-! Two values at once. -/

variable (size key) in
/-- The first value is held by the very slot that the second one is about to take. -/
def Evicts (r : Slots κ ν) : Option ν → Option ν → Prop
  | some v, some w => Held size key r v ∧ seek size key r v = r.next ∧ ¬ Held size key r w
  | _, _ => False

instance : (first second : Option ν) → Decidable (Evicts size key r first second)
  | some v, some w => inferInstanceAs (Decidable (Held size key r v ∧ seek size key r v = r.next ∧ ¬ Held size key r w))
  | none, _ => inferInstanceAs (Decidable False)
  | some _, none => inferInstanceAs (Decidable False)

variable (key) in
theorem placeTwo_lt (proper : Proper size r) (wide : 2 < size) (first second : Option ν) :
    (placeTwo size key r first second).1 < size ∧ (placeTwo size key r first second).2.1 < size :=
  ⟨place_lt proper first, place_lt (proper.place wide first) second⟩

variable (key) in
theorem slots_placeTwo_second (proper : Proper size r) (wide : 2 < size) (first second : Option ν) :
    (placeTwo size key r first second).2.2.slots (placeTwo size key r first second).2.1 = second :=
  slots_place (proper.place wide first) second

variable (key) in
/-- The second value leaves the first where it is, unless it takes its slot. -/
theorem slots_placeTwo_first (proper : Proper size r) (wide : 2 < size) (first second : Option ν) :
    (placeTwo size key r first second).2.2.slots (placeTwo size key r first second).1 = first ↔
      ¬ Evicts size key r first second := by
  cases first with
  | none =>
    have inner : Proper size (place size key r none).2 := proper.place wide none
    exact ⟨fun _ => id, fun _ => (inner.place wide second).zero⟩
  | some v =>
    cases second with
    | none => exact ⟨fun _ => id, fun _ => slots_place proper (some v)⟩
    | some w =>
      by_cases heldFirst : Held size key r v
      · by_cases heldSecond : Held size key r w
        · refine ⟨fun _ evicts => evicts.2.2 heldSecond, fun _ => ?_⟩
          simp only [placeTwo, place, if_pos heldFirst, if_pos heldSecond]
          exact heldFirst
        · have after : (placeTwo size key r (some v) (some w)).2.2.slots (placeTwo size key r (some v) (some w)).1 =
              Function.update r.slots r.next (some w) (seek size key r v) := by
            simp only [placeTwo, place, if_pos heldFirst, if_neg heldSecond, push]
          rw [after]
          by_cases victim : seek size key r v = r.next
          · rw [victim, Function.update_self]
            refine ⟨fun same => ?_, fun kept => absurd ⟨heldFirst, victim, heldSecond⟩ kept⟩
            rw [Option.some.inj same] at heldSecond
            exact absurd heldFirst heldSecond
          · rw [Function.update_of_ne victim]
            exact ⟨fun _ evicts => victim evicts.2.1, fun _ => heldFirst⟩
      · refine ⟨fun _ evicts => heldFirst evicts.1, fun _ => ?_⟩
        simp only [placeTwo, place, if_neg heldFirst]
        split_ifs
        · exact Function.update_self ..
        · rw [push_slots, Function.update_of_ne (push_next_ne wide proper v).symm]
          exact Function.update_self ..

variable (size key) in
/-- The value has to be announced. -/
def Missing (r : Slots κ ν) : Option ν → Prop
  | none => False
  | some v => ¬ Held size key r v

variable (key) in
/-- The writer sees an eviction: the second value is new and got the slot of the first. -/
theorem evicts_iff (proper : Proper size r) (wide : 2 < size) (first second : Option ν) :
    Missing size key (place size key r first).2 second ∧
      (placeTwo size key r first second).2.1 = (placeTwo size key r first second).1 ↔
    Evicts size key r first second := by
  have positive := proper.positive
  obtain _ | w := second
  · cases first <;> exact ⟨fun seen => seen.1, False.elim⟩
  obtain _ | v := first
  · refine ⟨fun ⟨missing, same⟩ => ?_, False.elim⟩
    have missing : ¬ Held size key r w := missing
    have second : (placeTwo size key r none (some w)).2.1 = r.next := by
      show (place size key r (some w)).1 = r.next
      rw [place, if_neg missing]
    have first : (placeTwo size key r none (some w)).1 = 0 := rfl
    omega
  by_cases held : Held size key r v
  · have after : (place size key r (some v)).2 = r := by rw [place, if_pos held]
    have index : (placeTwo size key r (some v) (some w)).1 = seek size key r v := by
      simp only [placeTwo, place, if_pos held]
    rw [after, index]
    constructor
    · rintro ⟨missing, same⟩
      refine ⟨held, ?_, missing⟩
      simpa only [placeTwo, place, if_pos held, if_neg (show ¬ Held size key r w from missing)] using same.symm
    · rintro ⟨-, taken, missing⟩
      refine ⟨missing, ?_⟩
      simpa only [placeTwo, place, if_pos held, if_neg missing] using taken.symm
  · refine ⟨fun ⟨missing, same⟩ => ?_, fun evicts => absurd evicts.1 held⟩
    have after : (place size key r (some v)).2 = push size key r v := by rw [place, if_neg held]
    rw [after] at missing
    have equal : (push size key r v).next = r.next := by
      simpa only [placeTwo, place, if_neg held, if_neg (show ¬ Held size key (push size key r v) w from missing)] using same
    exact absurd equal (push_next_ne wide proper v)

/-- Placing the two once more is enough: the first is no longer held, so it gets a slot of its own. -/
theorem evicts_once {first second : Option ν} (proper : Proper size r) (evicts : Evicts size key r first second) :
    ¬ Evicts size key (placeTwo size key r first second).2.2 first second := by
  obtain _ | v := first
  · exact evicts.elim
  obtain _ | w := second
  · exact evicts.elim
  obtain ⟨heldFirst, victim, missing⟩ := evicts
  have after : (placeTwo size key r (some v) (some w)).2.2 = push size key r w := by
    simp only [placeTwo, place, if_pos heldFirst, if_neg missing]
  rintro ⟨held, -, -⟩
  rw [after] at held
  have positive := proper.positive
  have inside := proper.inside
  have old : r.index (key v) = r.next := by
    unfold seek at victim
    split_ifs at victim
    · exact victim
    · omega
  have there : seek size key (push size key r w) v = r.next := by
    have index : (push size key r w).index (key v) = r.next := by
      by_cases same : key v = key w
      · rw [push_index, same, Function.update_self]
      · rw [push_index, Function.update_of_ne same, old]
    rw [seek, index, if_pos inside]
  have holds : some w = some v := by
    rw [Held, there, push_slots, Function.update_self] at held
    exact held
  rw [Option.some.inj holds] at missing
  exact missing heldFirst

/-! The reader. -/

/-- A slot that stands for no value, or that holds one. -/
def Filled (r : Slots κ ν) (i : Nat) : Prop := i = 0 ∨ (r.slots i).isSome

theorem Filled.place {i : Nat} (filled : Filled r i) (o : Option ν) : Filled (place size key r o).2 i := by
  cases o with
  | none => exact filled
  | some v =>
    rw [Ring.place]
    split_ifs
    · exact filled
    · obtain zero | held := filled
      · exact .inl zero
      · by_cases this : i = r.next
        · right
          simp only [push_slots, this, Function.update_self, Option.isSome_some]
        · right
          simp only [push_slots, Function.update_of_ne this, held]

variable (size key) in
theorem filled_place (proper : Proper size r) (o : Option ν) : Filled (place size key r o).2 (place size key r o).1 := by
  cases o with
  | none => exact .inl rfl
  | some v =>
    right
    rw [slots_place proper (some v)]
    rfl

variable (key) in
theorem filled_first (proper : Proper size r) (first second : Option ν) :
    Filled (placeTwo size key r first second).2.2 (placeTwo size key r first second).1 :=
  (filled_place size key proper first).place second

variable (key) in
theorem filled_second (proper : Proper size r) (wide : 2 < size) (first second : Option ν) :
    Filled (placeTwo size key r first second).2.2 (placeTwo size key r first second).2.1 :=
  filled_place size key (proper.place wide first) second

/-- The reader's table agrees with the writer's, where the writer has given a slot away. -/
structure Mirrors (agree : ν → ρ → Prop) (r : Slots κ ν) (table : Nat → Option ρ) : Prop where
  zero : table 0 = none
  slots : ∀ i v, r.slots i = some v → ∃ x, table i = some x ∧ agree v x

omit [DecidableEq κ] [DecidableEq ν] in
theorem mirrors_empty (agree : ν → ρ → Prop) {table : Nat → Option ρ} (zero : table 0 = none) :
    Mirrors agree (empty : Slots κ ν) table :=
  ⟨zero, fun _ _ none' => nomatch none'⟩

omit [DecidableEq ν] in
/-- Announcing a value keeps the tables in step. -/
theorem Mirrors.push {agree : ν → ρ → Prop} {table : Nat → Option ρ} (mirrors : Mirrors agree r table)
    (proper : Proper size r) {v : ν} {x : ρ} (same : agree v x) :
    Mirrors agree (push size key r v) (Function.update table r.next (some x)) := by
  have positive := proper.positive
  refine ⟨by rw [Function.update_of_ne (by omega), mirrors.zero], fun i u held => ?_⟩
  by_cases this : i = r.next
  · rw [push_slots, this, Function.update_self] at held
    refine ⟨x, by rw [this, Function.update_self], ?_⟩
    rwa [← Option.some.inj held]
  · rw [push_slots, Function.update_of_ne this] at held
    rw [Function.update_of_ne this]
    exact mirrors.slots i u held

omit [DecidableEq κ] [DecidableEq ν] in
theorem Mirrors.read {agree : ν → ρ → Prop} {table : Nat → Option ρ} (mirrors : Mirrors agree r table)
    (proper : Proper size r) {i : Nat} (filled : Filled r i) : Option.Rel agree (r.slots i) (table i) := by
  obtain rfl | held := filled
  · rw [proper.zero, mirrors.zero]
    exact .none
  · obtain ⟨v, held⟩ := Option.isSome_iff_exists.mp held
    obtain ⟨x, there, same⟩ := mirrors.slots i v held
    rw [held, there]
    exact .some same

end Goken.Lib.Ring
