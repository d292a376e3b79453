import Goken.Mul5
import Mathlib.Algebra.Order.Ring.Int
import Mathlib.Tactic.Ring

/-! Multiplication by constants in the arm back end. The first part is about
termination: the loops end for every constant but zero, which ends only if it is
found in the table. -/

namespace Goken.Proofs.Mul5
open Goken.Mul5 Lib.Steps

/-- The absolute value as `mulcon0` takes it. -/
theorem abs_eq (v : Int) : (if v < 0 then -v else v) = v.natAbs := by
  split <;> omega

theorem bisect_moves {v : Int} {before after : Nat × Nat} (moves : bisect v before = some after) :
    (before.1 ≤ after.1 ∧ after.2 ≤ before.2) ∧ after.2 - after.1 < before.2 - before.1 := by
  obtain ⟨a1, a2⟩ := before
  simp only [bisect] at moves
  split at moves
  · cases moves
  · split at moves
    · cases moves
    · split at moves
      · cases moves
        simp only
        omega
      · split at moves
        · cases moves
          simp only
          omega
        · cases moves

theorem bisect_ends (v : Int) {fuel a2 : Nat} (enough : a2 < fuel) :
    ∃ last, loop (bisect v) fuel (0, a2) = some last ∧ bisect v last = none := by
  have ends : ∃ last, loop (bisect v) fuel (0, a2) = some last ∧ bisect v last = none ∧ True :=
    loop_ends (fun _ => True) (fun bounds => bounds.2 - bounds.1) trivial enough
      (fun _ moves => ⟨trivial, (bisect_moves moves).2⟩)
  obtain ⟨last, ends, stopped, _⟩ := ends
  exact ⟨last, ends, stopped⟩

/-- The bounds are left at the value that was looked for. -/
theorem found_val {v : Int} {last : Nat × Nat} {text : String} (stopped : bisect v last = none) (there : found last = some text) :
    (v, text) ∈ hintab := by
  obtain ⟨a1, a2⟩ := last
  simp only [found] at there
  split at there
  · cases there
  · next inside =>
    simp only [bisect, if_neg inside] at stopped
    obtain ⟨⟨val, text'⟩, entry, rfl⟩ := Option.map_eq_some_iff.mp there
    simp only [entry] at stopped
    split at stopped
    · cases stopped
    · split at stopped
      · cases stopped
      · have same : v = val := by omega
        rw [same]
        exact List.mem_of_getElem? entry

/-- What is kept while low zeros are taken off. -/
def Halved (v : Int) (state : Int × Nat) : Prop := 0 < state.1 ∧ state.1 * 2 ^ state.2 = v

theorem halve_moves {v : Int} {before after : Int × Nat} (halved : Halved v before) (moves : halve before = some after) :
    Halved v after ∧ after.1.natAbs < before.1.natAbs := by
  obtain ⟨value, g⟩ := before
  obtain ⟨positive, product⟩ := halved
  simp only [halve, Option.ite_none_right_eq_some, Option.some.injEq] at moves
  obtain ⟨even, rfl⟩ := moves
  simp only at positive product ⊢
  refine ⟨⟨by simp only; omega, ?_⟩, by omega⟩
  have twice : value / 2 * 2 = value := by omega
  rw [← product, pow_succ]
  calc value / 2 * (2 ^ g * 2) = value / 2 * 2 * 2 ^ g := by ring
    _ = value * 2 ^ g := by rw [twice]

theorem halve_stopped {odd : Int} {g : Nat} (stopped : halve (odd, g) = none) : odd % 2 = 1 := by
  simp only [halve, ite_eq_right_iff, reduceCtorEq, imp_false] at stopped
  omega

theorem halve_ends {v : Int} (positive : 0 < v) {fuel : Nat} (enough : v.natAbs < fuel) :
    ∃ odd g, loop halve fuel (v, 0) = some (odd, g) := by
  have ends : ∃ last, loop halve fuel (v, 0) = some last ∧ halve last = none ∧ Halved v last :=
    loop_ends (Halved v) (fun state => state.1.natAbs) ⟨positive, by simp⟩ enough halve_moves
  obtain ⟨⟨odd, g⟩, ends, _⟩ := ends
  exact ⟨odd, g, ends⟩

theorem halve_ended {v odd : Int} {g fuel : Nat} (positive : 0 < v) (ends : loop halve fuel (v, 0) = some (odd, g)) :
    odd % 2 = 1 ∧ 0 < odd ∧ odd * 2 ^ g = v := by
  have halved : halve (odd, g) = none ∧ Halved v (odd, g) :=
    loop_ended ends ⟨positive, by simp⟩ (fun halved moves => (halve_moves halved moves).1)
  exact ⟨halve_stopped halved.1, halved.2.1, halved.2.2⟩

/-- Zero has no last zero. -/
theorem halve_zero (fuel g : Nat) : loop halve fuel (0, g) = none := by
  induction fuel generalizing g with
  | zero => rfl
  | succ fuel ih =>
    rw [loop]
    exact ih (g + 1)

/-- Where a code comes from without a recursion. -/
def Direct (v : Int) (code : List Op) : Prop :=
  (∃ text, (v, text) ∈ hintab ∧ docode v (hint text) 1 0 = some code) ∨ search v ((List.range maxmulops).map (· + 1)) = some code

/-- The table with a new entry at the spot that was selected first. -/
def entered (cache : Cache) (spot : Fin 20) (v : Int) (result : Option (List Op)) : Cache :=
  cache.setCode spot v (result.getD [])

/-- What a call does for a value that is not in the table. -/
inductive Missed (fuel : Nat) (cache : Cache) (v : Int) : Cache → Option (List Op) → Prop where
  | direct {code : List Op} (direct : Direct v code) :
      Missed fuel cache v (entered (cache.select v) (cache.multabp + 1) v (some code)) (some code)
  | nothing : Missed fuel cache v (entered (cache.select v) (cache.multabp + 1) v none) none
  | shifted {odd : Int} {g : Nat} {middle : Cache} {result : Option (List Op)} (isOdd : odd % 2 = 1) (positive : 0 < odd)
      (nonzero : g ≠ 0) (product : odd * 2 ^ g = v) (recur : mulcon0 fuel (cache.select v) odd = some (middle, result)) :
      Missed fuel cache v (entered middle (cache.multabp + 1) v (result.map (· ++ [⟨letter g, 0⟩])))
        (result.map (· ++ [⟨letter g, 0⟩]))

/-- One call. -/
theorem mulcon0_succ (fuel : Nat) (cache : Cache) (v : Int) : mulcon0 (fuel + 1) cache v = (do
    let v : Int := if v < 0 then -v else v
    match cache.look v with
    | some m => pure (cache, if m.code = [] then none else some m.code)
    | none =>
      let cache := cache.select v
      let spot := cache.multabp
      match found (← loop (bisect v) fuel (0, hintab.length)) with
      | some text =>
        match docode v (hint text) 1 0 with
        | some code => pure (cache.setCode spot v code, some code)
        | none => pure (cache.setCode spot v [], none)
      | none =>
        match search v ((List.range maxmulops).map (· + 1)) with
        | some code => pure (cache.setCode spot v code, some code)
        | none =>
          let (odd, g) ← loop halve fuel (v, 0)
          if g = 0 then pure (cache.setCode spot v [], none)
          else
            match ← mulcon0 fuel cache odd with
            | (cache, some code) =>
              let code := code ++ [⟨letter g, 0⟩]
              pure (cache.setCode spot v code, some code)
            | (cache, none) => pure (cache.setCode spot v [], none)) := rfl

theorem mulcon0_hit {fuel : Nat} {cache : Cache} {v : Int} {m : Multab} (there : cache.look v.natAbs = some m) :
    mulcon0 (fuel + 1) cache v = some (cache, if m.code = [] then none else some m.code) := by
  simp only [mulcon0_succ, abs_eq, there]
  rfl

theorem mulcon0_miss {fuel : Nat} {cache after : Cache} {v : Int} {result : Option (List Op)}
    (absent : cache.look v.natAbs = none) (returns : mulcon0 (fuel + 1) cache v = some (after, result)) :
    Missed fuel cache v.natAbs after result := by
  simp only [mulcon0_succ, abs_eq, absent] at returns
  obtain ⟨last, bounds, returns⟩ := Option.bind_eq_some_iff.mp returns
  have stopped : bisect v.natAbs last = none ∧ True := loop_ended bounds trivial (fun _ _ => trivial)
  split at returns
  · next text there =>
    split at returns
    · next code searched =>
      cases returns
      exact .direct (.inl ⟨text, found_val stopped.1 there, searched⟩)
    · cases returns
      exact .nothing
  · split at returns
    · next code searched =>
      cases returns
      exact .direct (.inr searched)
    · obtain ⟨⟨odd, g⟩, halved, returns⟩ := Option.bind_eq_some_iff.mp returns
      have positive : (0 : Int) < v.natAbs := by
        rcases Nat.eq_zero_or_pos v.natAbs with zero | positive
        · rw [zero] at halved
          cases (halve_zero _ _).symm.trans halved
        · exact Int.natCast_pos.mpr positive
      obtain ⟨isOdd, above, product⟩ := halve_ended positive halved
      simp only at returns
      split at returns
      · cases returns
        exact .nothing
      · next nonzero =>
        obtain ⟨⟨middle, sub⟩, recur, returns⟩ := Option.bind_eq_some_iff.mp returns
        cases sub with
        | none =>
          cases returns
          exact .shifted isOdd above nonzero product recur
        | some code =>
          cases returns
          exact .shifted isOdd above nonzero product recur

/-- Some number of tests and calls is enough. -/
def Terminates (cache : Cache) (v : Int) : Prop := ∃ fuel, (mulcon0 fuel cache v).isSome

/-- Enough tests and calls for a constant. -/
def Enough (fuel : Nat) (v : Int) : Prop := hintab.length < fuel ∧ v.natAbs < fuel

theorem mulcon0_odd {fuel : Nat} {cache : Cache} {v : Int} (enough : Enough fuel v) (isOdd : v % 2 = 1) (positive : 0 < v) :
    (mulcon0 (fuel + 1) cache v).isSome := by
  cases look : cache.look v.natAbs with
  | some m =>
    rw [mulcon0_hit look]
    rfl
  | none =>
    have same : (v.natAbs : Int) = v := by omega
    have stops : loop halve fuel (v, 0) = some (v, 0) := by
      obtain ⟨tests, rfl⟩ : ∃ tests, fuel = tests + 1 := ⟨fuel - 1, by have := enough.2; omega⟩
      rw [loop, halve, if_neg (by omega)]
    obtain ⟨last, bounds, _⟩ := bisect_ends v enough.1
    rw [same] at look
    simp only [mulcon0_succ, abs_eq, same, look, bounds, stops, Option.bind_eq_bind, Option.bind_some, ↓reduceIte]
    split
    · split <;> rfl
    · split <;> rfl

theorem mulcon0_nonzero {fuel : Nat} {cache : Cache} {v : Int} (enough : Enough fuel v) (nonzero : v ≠ 0) :
    (mulcon0 (fuel + 2) cache v).isSome := by
  cases look : cache.look v.natAbs with
  | some m =>
    rw [mulcon0_hit look]
    rfl
  | none =>
    have positive : (0 : Int) < v.natAbs := by omega
    have more := enough.2
    obtain ⟨odd, g, halved⟩ := halve_ends positive (Nat.lt_succ_of_lt more)
    obtain ⟨isOdd, above, product⟩ := halve_ended positive halved
    obtain ⟨last, bounds, _⟩ := bisect_ends v.natAbs (Nat.lt_succ_of_lt enough.1)
    rw [mulcon0_succ]
    simp only [abs_eq, look, bounds, halved, Option.bind_eq_bind, Option.bind_some]
    split
    · split <;> rfl
    · split
      · rfl
      · split
        · rfl
        · have less : odd ≤ v.natAbs := by
            rw [← product]
            exact le_mul_of_one_le_right (by omega) (one_le_pow₀ (by decide))
          have returns : (mulcon0 (fuel + 1) (cache.select v.natAbs) odd).isSome :=
            mulcon0_odd ⟨enough.1, by omega⟩ isOdd above
          obtain ⟨⟨after, result⟩, recur⟩ := Option.isSome_iff_exists.mp returns
          rw [recur]
          cases result <;> rfl

set_option maxRecDepth 1000 in
theorem hintab_positive : ∀ entry ∈ hintab, 0 < entry.1 := by
  decide

theorem search_zero : search 0 ((List.range maxmulops).map (· + 1)) = none := by
  decide

theorem mulcon0_zero {cache : Cache} (absent : cache.look 0 = none) (fuel : Nat) : mulcon0 fuel cache 0 = none := by
  cases fuel with
  | zero => rfl
  | succ fuel =>
    rw [mulcon0_succ]
    simp only [lt_self_iff_false, ↓reduceIte, absent, search_zero, halve_zero, Option.bind_eq_bind, Option.bind_none]
    apply Option.bind_eq_none_iff.mpr
    intro last bounds
    have stopped : bisect 0 last = none ∧ True := loop_ended bounds trivial (fun _ _ => trivial)
    cases there : found last with
    | none => rfl
    | some text => exact absurd (hintab_positive _ (found_val stopped.1 there)) (lt_irrefl _)

theorem look_isSome (cache : Cache) (v : Int) : (cache.look v).isSome ↔ ∃ m ∈ cache.multab, m.val = v := by
  simp [Cache.look]

/-- A call returns for every constant but zero, and for zero if the table has it. -/
theorem terminates_iff (cache : Cache) (v : Int) : Terminates cache v ↔ v ≠ 0 ∨ ∃ m ∈ cache.multab, m.val = 0 := by
  rw [← look_isSome]
  constructor
  · rintro ⟨fuel, returns⟩
    by_cases zero : v = 0
    · subst zero
      right
      by_contra absent
      rw [mulcon0_zero (by simpa using absent)] at returns
      cases returns
    · exact .inl zero
  · intro condition
    by_cases zero : v = 0
    · subst zero
      obtain ⟨m, there⟩ := Option.isSome_iff_exists.mp (condition.resolve_left (by simp))
      exact ⟨1, by rw [mulcon0_hit (by simpa using there)]; rfl⟩
    · exact ⟨hintab.length + v.natAbs + 3, mulcon0_nonzero ⟨by omega, by omega⟩ zero⟩

instance (v : Int) : Decidable (Constant v) := inferInstanceAs (Decidable (_ ∧ _))

/-- A call, with the tests and calls it may take. -/
def call (cache : Cache) (action : Nat × Int) : Option Cache := (mulcon0 action.1 cache action.2).map Prod.fst

/-- The tables after any calls for constants that have returned. -/
def Reachable : Cache → Prop := Runs call (fun _ action => Constant action.2) Cache.initial

theorem mulcon0_terminates_iff : ∀ cache, Reachable cache → ∀ v, Constant v →
    (Terminates cache v ↔ v ≠ 0 ∨ ∃ m ∈ cache.multab, m.val = 0) :=
  fun cache _ v _ => terminates_iff cache v

theorem mulcon0_terminates_initial : Terminates Cache.initial 0 ↔ (0 : Int) ≠ 0 ∨ ∃ m ∈ Cache.initial.multab, m.val = 0 :=
  mulcon0_terminates_iff Cache.initial .start 0 (by decide)

/-- Twenty constants without a code, each of which takes a spot. -/
def crowding : List (Nat × Int) := (List.range 20).map fun (i : Nat) => (20, 100001 + 2 * i)

set_option maxRecDepth 1000 in
theorem crowded : (follow call (fun _ action => Constant action.2) Cache.initial crowding).any fun cache => (cache.look 0).isNone := by
  decide

theorem mulcon0_not_terminates_zero : ∃ cache, Reachable cache ∧ Constant 0 ∧ ¬ Terminates cache 0 := by
  obtain ⟨cache, reached, absent⟩ := (Option.any_eq_true _ _).mp crowded
  refine ⟨cache, Runs.extend .start reached, by decide, ?_⟩
  rintro ⟨fuel, returns⟩
  rw [mulcon0_zero (Option.isNone_iff_eq_none.mp absent)] at returns
  cases returns

end Goken.Proofs.Mul5
