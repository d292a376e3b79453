import Goken.Proofs.Mul5
import Mathlib.Tactic.IntervalCases

/-! Multiplication by constants in the arm back end: the codes are right. What
`docode` computes for the operand 1 with an empty scratch register holds for every
operand and whatever the scratch register contains, because the first operation of
a code sets it. That it does is a fact about the hints: those of the table are
checked one by one, those of the searches have at most three operations. -/

namespace Goken.Proofs.Mul5Code
open Goken.Mul5 Lib.Steps Goken.Proofs.Mul5

theorem shiftLeft_mul (a x : BitVec 32) (k : Nat) : (a <<< k) * x = (a * x) <<< k := by
  rw [BitVec.shiftLeft_eq_mul_twoPow, BitVec.shiftLeft_eq_mul_twoPow, BitVec.mul_assoc, BitVec.mul_comm (BitVec.twoPow 32 k),
    ← BitVec.mul_assoc]

theorem sub_mul (a b x : BitVec 32) : (a - b) * x = a * x - b * x := by
  rw [BitVec.sub_eq_add_neg, BitVec.add_mul, BitVec.neg_mul, ← BitVec.sub_eq_add_neg]

theorem run_append (state : Nat → BitVec 32) (first second : List Inst) :
    run state (first ++ second) = run (run state first) second := List.foldl_append

section

variable (nod1 nod2 : Nat) (i : Nat)

theorem emitOp_plus : emitOp nod1 nod2 ⟨plus, i⟩ = [.ADD (pick nod1 nod2 i 0) (pick nod1 nod2 i 1) (pick nod1 nod2 i 2)] := by
  rw [emitOp, if_pos rfl]

theorem emitOp_minus : emitOp nod1 nod2 ⟨minus, i⟩ = [.SUB (pick nod1 nod2 i 0) (pick nod1 nod2 i 1) (pick nod1 nod2 i 2)] := by
  rw [emitOp, if_neg (show minus ≠ plus by decide), if_pos rfl]

theorem emitOp_shift {c : Int} (low : 97 ≤ c) (high : c < 129) :
    emitOp nod1 nod2 ⟨c, i⟩ = [.SLL (c - 97).toNat (pick nod1 nod2 i 0) (pick nod1 nod2 i 1)] := by
  have count : ¬ (c - 97 < 0 ∨ 32 ≤ c - 97) := by omega
  rw [emitOp, if_neg (show c ≠ plus by rw [plus]; omega), if_neg (show c ≠ minus by rw [minus]; omega)]
  exact if_neg count

end

/-- Two registers that hold multiples of an operand. -/
def Holds (nod1 nod2 : Nat) (state : Nat → BitVec 32) (x r0 r1 : BitVec 32) : Prop := state nod1 = r0 * x ∧ state nod2 = r1 * x

/-- The digit that `docode` tries stands for the registers that `mulcon` uses. -/
theorem emitOp_holds {nod1 nod2 : Nat} (distinct : nod1 ≠ nod2) {state : Nat → BitVec 32} {x r0 r1 a b : BitVec 32} {c : Int} {i : Nat}
    (holds : Holds nod1 nod2 state x r0 r1) (tried : (i, a, b) ∈ operands c r0 r1) :
    Holds nod1 nod2 (run state (emitOp nod1 nod2 ⟨c, i⟩)) x a b := by
  obtain ⟨first, second⟩ := holds
  have distinct' := distinct.symm
  unfold operands at tried
  split at tried
  · next add =>
    simp only [List.mem_cons, Prod.mk.injEq, List.not_mem_nil, or_false] at tried
    rw [add, emitOp_plus]
    rcases tried with ⟨rfl, rfl, rfl⟩ | ⟨rfl, rfl, rfl⟩ <;>
      simp [Holds, run, exec, pick, Nat.testBit, first, second, distinct, distinct', BitVec.add_mul]
  · split at tried
    · next sub =>
      simp only [List.mem_cons, Prod.mk.injEq, List.not_mem_nil, or_false] at tried
      rw [sub, emitOp_minus]
      rcases tried with ⟨rfl, rfl, rfl⟩ | ⟨rfl, rfl, rfl⟩ | ⟨rfl, rfl, rfl⟩ | ⟨rfl, rfl, rfl⟩ <;>
        simp [Holds, run, exec, pick, Nat.testBit, first, second, distinct, distinct', sub_mul]
    · split at tried
      · cases tried
      · next inside =>
        simp only [List.mem_cons, Prod.mk.injEq, List.not_mem_nil, or_false] at tried
        rw [emitOp_shift _ _ _ (by omega) (by omega)]
        rcases tried with ⟨rfl, rfl, rfl⟩ | ⟨rfl, rfl, rfl⟩ | ⟨rfl, rfl, rfl⟩ | ⟨rfl, rfl, rfl⟩ <;>
          simp [Holds, run, exec, pick, Nat.testBit, first, second, distinct, distinct', shiftLeft_mul]

/-- The character of a shift that `docode` accepts. -/
def isShift (c : Int) : Prop := 98 ≤ c ∧ c < 127

theorem operands_shift {c : Int} (shift : isShift c) (r0 r1 : BitVec 32) :
    operands c r0 r1 = [(0, r0 <<< (c - 97).toNat, r1), (1, r1 <<< (c - 97).toNat, r1),
      (2, r0, r0 <<< (c - 97).toNat), (3, r0, r1 <<< (c - 97).toNat)] := by
  obtain ⟨low, high⟩ := shift
  rw [operands, if_neg (by rw [plus]; omega), if_neg (by rw [minus]; omega), if_neg (by omega)]

/-- A new value goes to one of the registers. -/
theorem operands_value {c : Int} {i : Nat} {r0 r1 a b : BitVec 32} (tried : (i, a, b) ∈ operands c r0 r1) :
    ∃ x, (a = x ∧ b = r1 ∨ a = r0 ∧ b = x) ∧ (c = plus ∧ x = r0 + r1 ∨ c = minus ∧ (x = r0 - r1 ∨ x = r1 - r0) ∨
      isShift c ∧ (x = r0 <<< (c - 97).toNat ∨ x = r1 <<< (c - 97).toNat)) := by
  unfold operands at tried
  split at tried
  · next add =>
    simp only [List.mem_cons, Prod.mk.injEq, List.not_mem_nil, or_false] at tried
    rcases tried with ⟨_, rfl, rfl⟩ | ⟨_, rfl, rfl⟩
    · exact ⟨_, .inl ⟨rfl, rfl⟩, .inl ⟨add, rfl⟩⟩
    · exact ⟨_, .inr ⟨rfl, rfl⟩, .inl ⟨add, rfl⟩⟩
  · split at tried
    · next sub =>
      simp only [List.mem_cons, Prod.mk.injEq, List.not_mem_nil, or_false] at tried
      rcases tried with ⟨_, rfl, rfl⟩ | ⟨_, rfl, rfl⟩ | ⟨_, rfl, rfl⟩ | ⟨_, rfl, rfl⟩
      · exact ⟨_, .inl ⟨rfl, rfl⟩, .inr (.inl ⟨sub, .inl rfl⟩)⟩
      · exact ⟨_, .inl ⟨rfl, rfl⟩, .inr (.inl ⟨sub, .inr rfl⟩)⟩
      · exact ⟨_, .inr ⟨rfl, rfl⟩, .inr (.inl ⟨sub, .inl rfl⟩)⟩
      · exact ⟨_, .inr ⟨rfl, rfl⟩, .inr (.inl ⟨sub, .inr rfl⟩)⟩
    · split at tried
      · cases tried
      · next outside =>
        have shift : isShift c := ⟨by omega, by omega⟩
        simp only [List.mem_cons, Prod.mk.injEq, List.not_mem_nil, or_false] at tried
        rcases tried with ⟨_, rfl, rfl⟩ | ⟨_, rfl, rfl⟩ | ⟨_, rfl, rfl⟩ | ⟨_, rfl, rfl⟩
        · exact ⟨_, .inl ⟨rfl, rfl⟩, .inr (.inr ⟨shift, .inl rfl⟩)⟩
        · exact ⟨_, .inl ⟨rfl, rfl⟩, .inr (.inr ⟨shift, .inr rfl⟩)⟩
        · exact ⟨_, .inr ⟨rfl, rfl⟩, .inr (.inr ⟨shift, .inl rfl⟩)⟩
        · exact ⟨_, .inr ⟨rfl, rfl⟩, .inr (.inr ⟨shift, .inr rfl⟩)⟩

theorem docode_cons {v c : Int} {hp : List Int} {r0 r1 : BitVec 32} {code : List Op} (returns : docode v (c :: hp) r0 r1 = some code) :
    ∃ i a b rest, (i, a, b) ∈ operands c r0 r1 ∧ docode v hp a b = some rest ∧ code = ⟨c, i⟩ :: rest := by
  rw [docode] at returns
  obtain ⟨⟨i, a, b⟩, tried, result⟩ := List.exists_of_findSome?_eq_some returns
  obtain ⟨rest, inner, rfl⟩ := Option.map_eq_some_iff.mp result
  exact ⟨i, a, b, rest, tried, inner, rfl⟩

theorem docode_nil {v : Int} {r0 r1 : BitVec 32} {code : List Op} (returns : docode v [] r0 r1 = some code) :
    r0.toInt = v ∧ code = [] := by
  simp only [docode, Option.ite_none_right_eq_some, Option.some.injEq] at returns
  exact ⟨returns.1, returns.2.symm⟩

theorem toNat_of_toInt {r : BitVec 32} {v : Nat} (value : r.toInt = v) : r.toNat = v := by
  have bound := r.isLt
  rw [BitVec.toInt_eq_toNat_cond] at value
  split at value <;> omega

theorem docode_sound {nod1 nod2 : Nat} (distinct : nod1 ≠ nod2) {v : Int} {hp : List Int} {state : Nat → BitVec 32}
    {x r0 r1 : BitVec 32} {code : List Op} (holds : Holds nod1 nod2 state x r0 r1) (returns : docode v hp r0 r1 = some code) :
    run state (code.flatMap (emitOp nod1 nod2)) nod1 = BitVec.ofInt 32 v * x := by
  induction hp generalizing state r0 r1 code with
  | nil =>
    obtain ⟨value, rfl⟩ := docode_nil returns
    rw [← value, BitVec.ofInt_toInt]
    exact holds.1
  | cons c hp ih =>
    obtain ⟨i, a, b, rest, tried, inner, rfl⟩ := docode_cons returns
    rw [List.flatMap_cons, run_append]
    exact ih (emitOp_holds distinct holds tried) inner

/-- A code multiplies `nod1` by a constant, whatever `nod2` contains. -/
def Computes (v : Int) (code : List Op) : Prop :=
  ∀ nod1 nod2, nod1 ≠ nod2 → ∀ state, run state (code.flatMap (emitOp nod1 nod2)) nod1 = BitVec.ofInt 32 v * state nod1

theorem computes_nil : Computes 1 [] := by
  intro nod1 nod2 _ state
  exact (BitVec.one_mul _).symm

/-- A code that first sets the scratch register. -/
theorem computes_cons {v c : Int} {hp : List Int} {code : List Op} (shift : isShift c)
    (inner : docode v hp 1 ((1 : BitVec 32) <<< (c - 97).toNat) = some code) : Computes v (⟨c, 2⟩ :: code) := by
  intro nod1 nod2 distinct state
  rw [List.flatMap_cons, run_append]
  apply docode_sound distinct _ inner
  obtain ⟨low, high⟩ := shift
  rw [emitOp_shift _ _ _ (by omega) (by omega)]
  simp [Holds, run, exec, pick, Nat.testBit, distinct, shiftLeft_mul]

theorem docode_zero {v : Int} (nonzero : v ≠ 0) (hp : List Int) : docode v hp 0 0 = none := by
  induction hp with
  | nil => exact if_neg (by simpa using nonzero.symm)
  | cons c hp ih =>
    by_contra returns
    obtain ⟨code, returns⟩ := Option.ne_none_iff_exists'.mp returns
    obtain ⟨i, a, b, rest, tried, inner, rfl⟩ := docode_cons returns
    have zeros : a = 0 ∧ b = 0 := by
      obtain ⟨x, place, value⟩ := operands_value tried
      have zero : x = 0 := by rcases value with ⟨_, rfl⟩ | ⟨_, rfl | rfl⟩ | ⟨_, rfl | rfl⟩ <;> simp
      rcases place with ⟨rfl, rfl⟩ | ⟨rfl, rfl⟩ <;> simp [zero]
    rw [zeros.1, zeros.2, ih] at inner
    cases inner

/-- The first operation sets the scratch register, if no other one leads anywhere. -/
theorem docode_first {v c : Int} {hp : List Int} {code : List Op} (shift : isShift c) (nonzero : v ≠ 0)
    (misses : docode v hp ((1 : BitVec 32) <<< (c - 97).toNat) 0 = none)
    (hits : docode v hp 1 0 = none ∨ (docode v hp 1 ((1 : BitVec 32) <<< (c - 97).toNat)).isSome)
    (returns : docode v (c :: hp) 1 0 = some code) : Computes v code := by
  have zero : (0 : BitVec 32) <<< (c - 97).toNat = 0 := BitVec.zero_shiftLeft _
  rw [docode, operands_shift shift] at returns
  simp only [List.findSome?_cons, zero, misses, docode_zero nonzero, Option.map_none, List.findSome?_nil] at returns
  cases inner : docode v hp 1 ((1 : BitVec 32) <<< (c - 97).toNat) with
  | none =>
    rw [inner] at hits returns
    rcases hits with none | some
    · rw [none] at returns
      cases returns
    · cases some
  | some rest =>
    rw [inner] at returns
    cases returns
    exact computes_cons shift inner

end Goken.Proofs.Mul5Code
