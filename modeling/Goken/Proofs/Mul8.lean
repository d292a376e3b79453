import Goken.Lib.Steps
import Goken.Mul8
import Goken.Proofs.Div8Signed

/-! Multiplication by constants on the x86. Whatever the search selects stands for
the multiplier modulo 2^64, the code for it multiplies by what it stands for, and
an entry of the table is always what the search selects for its value. -/

namespace Goken.Proofs.Mul8
open Goken.Mul8 Goken.Div8 Goken.Const Lib.X86 Goken.Proofs.Div8 Div8Signed

/-! The search. -/

/-- The algorithms that have code, for an offset, a sign and an odd factor. -/
def Shape (s : Bool) (o : Int) (t : Nat) : Nat → Prop
  | 0 => o = 0 ∧ (t ∈ [1, 3, 5, 9] ∨ t ∈ [15, 25, 27, 45, 81])
  | 1 => o ∈ [-1, 1] ∧ t ∈ [1, 3, 5, 9]
  | 2 => o ∈ [-9, -5, -3, 3, 5, 9] ∧ t = 1
  | 3 => s = false ∧ o ∈ [6, 10, 12, 18, 20, 24, 36, 40, 72] ∧ t = 1
  | 4 => o ∈ [-8, -4, -2, 2, 4, 8] ∧ t = 1
  | _ => False

/-- What the parameters multiply by. -/
def factor (s : Bool) (o : Int) (t n : Nat) : Int := if s then -(o + t * 2 ^ n) else o + t * 2 ^ n

structure Selected (m : Nat) (b : Best) : Prop where
  shape : Shape b.s b.o b.t b.i
  sign : b.s → b.o ≤ 0
  shift : b.n < 32
  value : ∃ k : Int, (m : Int) = factor b.s b.o b.t b.n + k * 2 ^ 64

theorem lowbit_spec (v : Nat) : 2 ^ lowbit v ∣ v ∧ lowbit v < 32 := by
  obtain ⟨z, strip, divides, few, _⟩ := stripZeros_counts 4 v 0
  have same : lowbit v = z := by
    have whole : stripZeros [16, 8, 4, 2, 1] 0xFFFFFFFF v 0 = (v / 2 ^ z, z) := by simpa [counts] using strip
    rw [lowbit, whole]
  rw [same]
  exact ⟨divides, few⟩

theorem uvlong_eq (x : Int) : ∃ k : Int, x = uvlong x + k * 2 ^ 64 := by
  refine ⟨x / 2 ^ 64, ?_⟩
  rw [uvlong]
  omega

/-- An algorithm that is cheap enough has code. -/
theorem cost_shape {i n t : Nat} {s : Bool} {o : Int} {offs : List Int} (row : (i, offs) ∈ malgs) (member : o ∈ offs)
    (cheap : (cost i s n t).1 ≤ 3) : Shape s (if s then -o else o) t i := by
  simp only [malgs, List.mem_cons, Prod.mk.injEq, List.not_mem_nil, or_false] at row
  rcases row with ⟨rfl, rfl⟩ | ⟨rfl, rfl⟩ | ⟨rfl, rfl⟩ | ⟨rfl, rfl⟩ | ⟨rfl, rfl⟩
  · have zero : o = 0 := by simpa using member
    subst zero
    refine ⟨by simp, ?_⟩
    unfold cost at cheap
    grind
  · unfold cost at cheap
    refine ⟨by cases s <;> grind, by grind⟩
  · unfold cost at cheap
    refine ⟨by cases s <;> grind, by grind⟩
  · unfold cost at cheap
    cases s with
    | false => exact ⟨rfl, member, by grind⟩
    | true => simp at cheap
  · unfold cost at cheap
    refine ⟨by cases s <;> grind, by grind⟩

/-- What is considered stands for the multiplier. -/
theorem considered_value {m : Nat} {o : Int} (s : Bool) :
    let u := if s then uvlong (-uvlong (m - o)) else uvlong (m - o)
    ∃ k : Int, (m : Int) = factor s (if s then -o else o) (u >>> lowbit u) (lowbit u) + k * 2 ^ 64 := by
  intro u
  have divides := (lowbit_spec u).1
  have whole : ((u >>> lowbit u : Nat) : Int) * 2 ^ lowbit u = u := by
    rw [Nat.shiftRight_eq_div_pow]
    exact_mod_cast Nat.div_mul_cancel divides
  obtain ⟨k, difference⟩ := uvlong_eq (m - o)
  cases s with
  | false =>
    refine ⟨k, ?_⟩
    simp only [factor, Bool.false_eq_true, if_false, whole]
    simp only [u, Bool.false_eq_true, if_false]
    omega
  | true =>
    obtain ⟨j, negated⟩ := uvlong_eq (-uvlong (m - o))
    refine ⟨k - j, ?_⟩
    simp only [factor, if_true, whole]
    simp only [u, if_true]
    omega

theorem consider_selected {m i : Nat} {best : Best} {o : Int} {offs : List Int} (s : Bool) (row : (i, offs) ∈ malgs) (member : o ∈ offs)
    (before : best.c ≤ 3 → Selected m best) : (consider m best i o s).c ≤ 3 → Selected m (consider m best i o s) := by
  unfold consider
  by_cases zero : uvlong (m - o) = 0
  · simpa only [if_pos zero] using before
  · by_cases skipped : s ∧ (if s then -o else o) > 0
    · simpa only [if_neg zero, if_pos skipped] using before
    · simp only [if_neg zero, if_neg skipped]
      have value := considered_value (m := m) (o := o) s
      generalize (if s then uvlong (-uvlong (m - o)) else uvlong (m - o)) = u at value ⊢
      by_cases better : (cost i s (lowbit u) (u >>> lowbit u)).1 < best.c ∨
          (cost i s (lowbit u) (u >>> lowbit u)).1 = best.c ∧ (cost i s (lowbit u) (u >>> lowbit u)).2 > best.q
      · rw [if_pos better]
        intro cheap
        refine ⟨cost_shape row member cheap, ?_, (lowbit_spec u).2, value⟩
        rintro (rfl : s = true)
        simp only [if_true, true_and] at skipped ⊢
        omega
      · rw [if_neg better]
        exact before

theorem search_selected (m : Nat) (cheap : (search m).c ≤ 3) : Selected m (search m) := by
  revert cheap
  refine List.foldlRecOn (motive := fun b : Best => b.c ≤ 3 → Selected m b) malgs _ (by simp) ?_
  intro best before row inside
  refine List.foldlRecOn (motive := fun b : Best => b.c ≤ 3 → Selected m b) row.2 _ before ?_
  intro best before o member
  exact consider_selected true inside member (consider_selected false inside member before)

/-! The code. -/

/-- The code puts the word of `x` into `d` and leaves the other registers. -/
def Sets (code : List Inst) (s : State) (d : Reg) (x : Int) : Prop :=
  ∃ s', run code s = some s' ∧ s'.reg d = BitVec.ofInt 32 x ∧ ∀ r, r ≠ d → s'.reg r = s.reg r

section Code

variable {s : State} {d n nod : Reg} {x y : Int}

theorem sets_lea {index : Reg} {base : Operand} (k : Nat) (base_eq : s.read base = BitVec.ofInt 32 x)
    (index_eq : s.reg index = BitVec.ofInt 32 y) : Sets (genmuladd d index k base) s d (x + y * k) := by
  refine ⟨_, rfl, ?_, fun r other => State.write_other _ _ other⟩
  rw [State.write_same, base_eq, index_eq, nodconst, ← BitVec.ofInt_mul, ← BitVec.ofInt_add]

theorem sets_lea_reg {index base : Reg} (k : Nat) (base_eq : s.reg base = BitVec.ofInt 32 x) (index_eq : s.reg index = BitVec.ofInt 32 y) :
    Sets (genmuladd d index k (.reg base)) s d (x + y * k) :=
  sets_lea k (by rw [State.read_reg, base_eq]) index_eq

theorem shiftLeft_eq (k : Nat) : BitVec.ofInt 32 x <<< k = BitVec.ofInt 32 (x * 2 ^ k) := by
  have power : BitVec.twoPow 32 k = BitVec.ofInt 32 (2 ^ k) := by
    apply BitVec.eq_of_toNat_eq
    rw [BitVec.toNat_twoPow, show (2 : Int) ^ k = (2 ^ k : Nat) by push_cast; rfl, BitVec.ofInt_natCast, BitVec.toNat_ofNat]
  rw [BitVec.shiftLeft_eq_mul_twoPow, power, BitVec.ofInt_mul]

theorem sets_shiftit {k : Nat} (few : k < 32) (value : s.reg d = BitVec.ofInt 32 x) : Sets (shiftit k d) s d (x * 2 ^ k) := by
  have count : k % 32 = k := Nat.mod_eq_of_lt few
  unfold shiftit
  rw [count]
  split
  next => exact ⟨s, rfl, by rw [value]; simp, fun _ _ => rfl⟩
  next =>
    refine ⟨_, rfl, ?_, fun r other => State.write_other _ _ other⟩
    rw [State.flag_reg, State.write_same, State.read_reg, value, ← BitVec.ofInt_add]
    congr 1
    omega
  next =>
    refine ⟨_, rfl, ?_, fun r other => State.write_other _ _ other⟩
    rw [State.flag_reg, State.write_same, count_eq few, value, shiftLeft_eq]

theorem sets_addsub {src : Reg} (off : Int) (first : s.reg d = BitVec.ofInt 32 x) (second : s.reg src = BitVec.ofInt 32 y) :
    Sets (addsub off src d) s d (if off < 0 then x - y else x + y) := by
  unfold addsub
  split
  next =>
    refine ⟨_, rfl, ?_, fun r other => State.write_other _ _ other⟩
    rw [State.flag_reg, State.write_same, State.read_reg, first, second, BitVec.sub_eq_add_neg, ← BitVec.ofInt_neg, ← BitVec.ofInt_add]
    rfl
  next =>
    refine ⟨_, rfl, ?_, fun r other => State.write_other _ _ other⟩
    rw [State.flag_reg, State.write_same, State.read_reg, first, second, ← BitVec.ofInt_add]

theorem sets_move {src : Reg} (value : s.reg src = BitVec.ofInt 32 x) : Sets [.MOVL (.reg src) d] s d x :=
  ⟨_, rfl, by rw [State.write_same, State.read_reg, value], fun _ other => State.write_other _ _ other⟩

/-- Code whose last part sets the register. -/
theorem Sets.result {code : List Inst} (sets : Sets code s d x) : ∃ s', run code s = some s' ∧ s'.reg d = BitVec.ofInt 32 x := by
  obtain ⟨s', ran, value, _⟩ := sets
  exact ⟨s', ran, value⟩

theorem run_comop {p : Mparam} (sign : p.neg → p.off ≤ 0) (some : p.off ≠ 0) (left : s.reg n = BitVec.ofInt 32 x)
    (right : s.reg nod = BitVec.ofInt 32 (p.off.natAbs * y)) :
    ∃ s', run (comop p n nod) s = .some s' ∧ s'.reg n = BitVec.ofInt 32 (if p.neg then -(p.off * y + x) else p.off * y + x) := by
  unfold comop
  split
  next negated =>
    obtain ⟨s', ran, value, _⟩ := sets_addsub p.off right left
    obtain ⟨last, ran', value'⟩ := (sets_move (d := n) value).result
    refine ⟨last, by rw [run_append, ran]; exact ran', ?_⟩
    rw [value', if_pos (by have := sign negated; omega), show ((p.off.natAbs : Nat) : Int) = -p.off by have := sign negated; omega]
    congr 1
    ring
  next positive =>
    obtain ⟨last, ran, value⟩ := (sets_addsub p.off left right).result
    refine ⟨last, ran, ?_⟩
    rw [value]
    congr 1
    split
    next negative =>
      rw [show ((p.off.natAbs : Nat) : Int) = -p.off by omega]
      ring
    next =>
      rw [show ((p.off.natAbs : Nat) : Int) = p.off by omega]
      ring

theorem Sets.append {first second : List Inst} (sets : Sets first s d x) (rest : ∀ s', s'.reg d = BitVec.ofInt 32 x → Sets second s' d y) :
    Sets (first ++ second) s d y := by
  obtain ⟨s', ran, value, others⟩ := sets
  obtain ⟨last, ran', value', others'⟩ := rest s' value
  exact ⟨last, by rw [run_append, ran]; exact ran', value', fun r other => by rw [others' r other, others r other]⟩

/-- Code after code that has set a register. -/
theorem Sets.andThen {first second : List Inst} {P : State → Prop} (sets : Sets first s d x)
    (rest : ∀ s', s'.reg d = BitVec.ofInt 32 x → (∀ r, r ≠ d → s'.reg r = s.reg r) → ∃ last, run second s' = some last ∧ P last) :
    ∃ last, run (first ++ second) s = some last ∧ P last := by
  obtain ⟨s', ran, value, others⟩ := sets
  obtain ⟨last, ran', holds⟩ := rest s' value others
  exact ⟨last, by rw [run_append, ran]; exact ran', holds⟩

theorem run_negate {code : List Inst} (neg : Bool) (sets : Sets code s d x) :
    ∃ s', run (code ++ if neg then [.NEGL d] else []) s = some s' ∧ s'.reg d = BitVec.ofInt 32 (if neg then -x else x) := by
  apply sets.andThen
  intro s' value _
  cases neg with
  | false => exact ⟨s', rfl, value⟩
  | true => exact ⟨_, rfl, by rw [State.flag_reg, State.write_same, value, if_pos rfl, BitVec.ofInt_neg]⟩

/-- A register times three, five or nine, shifted. -/
theorem sets_scaled {k : Nat} (few : k < 32) (a : Nat) (value : s.reg n = BitVec.ofInt 32 x) :
    Sets (genmuladd d n a (.reg n) ++ shiftit k d) s d ((x + x * a) * 2 ^ k) :=
  (sets_lea_reg a value value).append fun _ value' => sets_shiftit few value'

section Algorithms

variable {p : Mparam} {t : Nat}

theorem factor_zero (neg : Bool) (k : Nat) : factor neg 0 t k * x = if neg then -(t * 2 ^ k * x) else t * 2 ^ k * x := by
  unfold factor
  split <;> ring

/-- Shifts, scaled additions and a change of sign in one register. -/
theorem emit_zero (nod : Reg) (few : p.shift < 32) (value : s.reg n = BitVec.ofInt 32 x)
    (member : t ∈ [1, 3, 5, 9] ∨ t ∈ [15, 25, 27, 45, 81]) (arg : p.arg = t) (alg : p.alg = 0) :
    ∃ code, emit p n nod = some code ∧
      ∃ s', run code s = some s' ∧ s'.reg n = BitVec.ofInt 32 (factor p.neg 0 t p.shift * x) := by
  obtain ⟨_, _, neg, shift, _, _⟩ := p
  simp only [factor_zero] at few arg alg ⊢
  subst arg alg
  have single : ∀ a : Nat, ∃ s', run (genmuladd n n a (.reg n) ++ shiftit shift n ++ if neg then [.NEGL n] else []) s = some s' ∧
      s'.reg n = BitVec.ofInt 32 (if neg then -((1 + a : Nat) * 2 ^ shift * x) else (1 + a : Nat) * 2 ^ shift * x) := by
    intro a
    have product : ((1 + a : Nat) : Int) * 2 ^ shift * x = (x + x * a) * 2 ^ shift := by push_cast; ring
    rw [product]
    exact run_negate neg (sets_scaled few a value)
  have double : ∀ a b : Nat, ∃ s',
      run (genmuladd n n a (.reg n) ++ genmuladd n n b (.reg n) ++ shiftit shift n ++ if neg then [.NEGL n] else []) s = some s' ∧
      s'.reg n = BitVec.ofInt 32 (if neg then -(((1 + a) * (1 + b) : Nat) * 2 ^ shift * x) else ((1 + a) * (1 + b) : Nat) * 2 ^ shift * x) := by
    intro a b
    have product : (((1 + a) * (1 + b) : Nat) : Int) * 2 ^ shift * x = (x + x * a + (x + x * a) * b) * 2 ^ shift := by push_cast; ring
    rw [product, List.append_assoc (genmuladd n n a (.reg n))]
    exact run_negate neg ((sets_lea_reg a value value).append fun _ value' => sets_scaled few b value')
  simp only [List.mem_cons, List.not_mem_nil, or_false] at member
  rcases member with (rfl | rfl | rfl | rfl) | (rfl | rfl | rfl | rfl | rfl)
  · refine ⟨_, rfl, ?_⟩
    have product : ((1 : Nat) : Int) * 2 ^ shift * x = x * 2 ^ shift := by push_cast; ring
    rw [product]
    exact run_negate neg (sets_shiftit few value)
  · exact ⟨_, rfl, single 2⟩
  · exact ⟨_, rfl, single 4⟩
  · exact ⟨_, rfl, single 8⟩
  · exact ⟨_, rfl, double 4 2⟩
  · exact ⟨_, rfl, double 4 4⟩
  · exact ⟨_, rfl, double 8 2⟩
  · exact ⟨_, rfl, double 8 4⟩
  · exact ⟨_, rfl, double 8 8⟩

/-- A shifted and scaled copy, and the register itself. -/
theorem emit_one (few : p.shift < 32) (apart : nod ≠ n) (value : s.reg n = BitVec.ofInt 32 x) (sign : p.neg → p.off ≤ 0)
    (offset : p.off = -1 ∨ p.off = 1) (member : t ∈ [1, 3, 5, 9]) (arg : p.arg = t) (alg : p.alg = 1) :
    ∃ code, emit p n nod = some code ∧
      ∃ s', run code s = some s' ∧ s'.reg n = BitVec.ofInt 32 (factor p.neg p.off t p.shift * x) := by
  obtain ⟨_, _, neg, shift, _, off⟩ := p
  simp only at few arg alg sign offset ⊢
  subst arg alg
  have last : ∀ {first : List Inst}, Sets first s nod (t * 2 ^ shift * x) →
      ∃ s', run (first ++ if neg then addsub off nod n else addsub off n nod ++ [.MOVL (.reg nod) n]) s = some s' ∧
        s'.reg n = BitVec.ofInt 32 (factor neg off t shift * x) := by
    intro first sets
    apply sets.andThen
    intro s' copied others
    have value' : s'.reg n = BitVec.ofInt 32 x := by rw [others n apart.symm, value]
    cases neg with
    | true =>
      obtain ⟨last, ran, result⟩ := (sets_addsub off value' copied).result
      have negative : off = -1 := by
        have := sign rfl
        omega
      refine ⟨last, ran, ?_⟩
      rw [result, negative, if_pos (by decide), factor, if_pos rfl]
      congr 1
      ring
    | false =>
      obtain ⟨middle, ran, sum, _⟩ := sets_addsub off copied value'
      obtain ⟨last, ran', result⟩ := (sets_move (d := n) sum).result
      simp only [Bool.false_eq_true, if_false, run_append, ran]
      refine ⟨last, ran', ?_⟩
      rw [result]
      simp only [factor, Bool.false_eq_true, if_false]
      congr 1
      rcases offset with rfl | rfl
      · rw [if_pos (by decide)]
        ring
      · rw [if_neg (by decide)]
        ring
  have scaled : ∀ a : Nat, Sets (genmuladd nod n a (.reg n) ++ shiftit shift nod) s nod ((1 + a : Nat) * 2 ^ shift * x) := by
    intro a
    have product : ((1 + a : Nat) : Int) * 2 ^ shift * x = (x + x * a) * 2 ^ shift := by push_cast; ring
    rw [product]
    exact sets_scaled few a value
  simp only [List.mem_cons, List.not_mem_nil, or_false] at member
  rcases member with rfl | rfl | rfl | rfl
  · refine ⟨_, rfl, last ?_⟩
    have product : ((1 : Nat) : Int) * 2 ^ shift * x = x * 2 ^ shift := by push_cast; ring
    rw [product]
    exact (sets_move value).append fun _ value' => sets_shiftit few value'
  · exact ⟨_, rfl, last (scaled 2)⟩
  · exact ⟨_, rfl, last (scaled 4)⟩
  · exact ⟨_, rfl, last (scaled 8)⟩

/-- A scaled copy and the shifted register. -/
theorem run_combined {a : Nat} {base : Operand} {y : Int} (few : p.shift < 32) (apart : nod ≠ n) (value : s.reg n = BitVec.ofInt 32 x)
    (start : s.read base = BitVec.ofInt 32 y) (multiple : y + x * a = p.off.natAbs * x) (sign : p.neg → p.off ≤ 0) (some : p.off ≠ 0) :
    ∃ s', run (genmuladd nod n a base ++ shiftit p.shift n ++ comop p n nod) s = .some s' ∧
      s'.reg n = BitVec.ofInt 32 (factor p.neg p.off 1 p.shift * x) := by
  rw [List.append_assoc]
  apply (sets_lea a start value).andThen
  intro s' copy others
  have value' : s'.reg n = BitVec.ofInt 32 x := by rw [others n apart.symm, value]
  apply (sets_shiftit few value').andThen
  intro s'' shifted others'
  have copy' : s''.reg nod = BitVec.ofInt 32 (p.off.natAbs * x) := by rw [others' nod apart, copy, multiple]
  obtain ⟨last, ran, result⟩ := run_comop sign some shifted copy'
  refine ⟨last, ran, ?_⟩
  rw [result, factor]
  congr 1
  split <;> push_cast <;> ring

theorem emit_two (few : p.shift < 32) (apart : nod ≠ n) (value : s.reg n = BitVec.ofInt 32 x) (sign : p.neg → p.off ≤ 0)
    (offset : p.off ∈ [-9, -5, -3, 3, 5, 9]) (alg : p.alg = 2) :
    ∃ code, emit p n nod = some code ∧
      ∃ s', run code s = some s' ∧ s'.reg n = BitVec.ofInt 32 (factor p.neg p.off 1 p.shift * x) := by
  obtain ⟨a, scale, multiple⟩ : ∃ a : Nat, m0 p.off = some a ∧ p.off.natAbs = 1 + a := by
    generalize p.off = off at offset
    revert off
    decide
  refine ⟨genmuladd nod n a (.reg n) ++ shiftit p.shift n ++ comop p n nod, ?_, ?_⟩
  · simp only [emit, alg, scale]
    rfl
  · have start : s.read (.reg n) = BitVec.ofInt 32 x := by rw [State.read_reg, value]
    apply run_combined few apart value start _ sign
    · intro zero
      simp [zero] at offset
    · rw [multiple]
      push_cast
      ring

theorem emit_four (few : p.shift < 32) (apart : nod ≠ n) (value : s.reg n = BitVec.ofInt 32 x) (sign : p.neg → p.off ≤ 0)
    (offset : p.off ∈ [-8, -4, -2, 2, 4, 8]) (alg : p.alg = 4) :
    ∃ code, emit p n nod = some code ∧
      ∃ s', run code s = some s' ∧ s'.reg n = BitVec.ofInt 32 (factor p.neg p.off 1 p.shift * x) := by
  obtain ⟨a, scale, multiple⟩ : ∃ a : Nat, m0 p.off = some a ∧ p.off.natAbs = a := by
    generalize p.off = off at offset
    revert off
    decide
  refine ⟨genmuladd nod n a (.imm (nodconst 0)) ++ shiftit p.shift n ++ comop p n nod, ?_, ?_⟩
  · simp only [emit, alg, scale]
    rfl
  · apply run_combined few apart value rfl _ sign
    · intro zero
      simp [zero] at offset
    · rw [multiple]
      ring

/-- The scaled copy is scaled once more when it is added. -/
theorem emit_three (few : p.shift < 32) (apart : nod ≠ n) (value : s.reg n = BitVec.ofInt 32 x)
    (offset : p.off ∈ [6, 10, 12, 18, 20, 24, 36, 40, 72]) (alg : p.alg = 3) :
    ∃ code, emit p n nod = some code ∧ ∃ s', run code s = some s' ∧ s'.reg n = BitVec.ofInt 32 (factor false p.off 1 p.shift * x) := by
  obtain ⟨a, scale, b, again, multiple⟩ : ∃ a : Nat, m0 p.off = some a ∧ ∃ b : Nat, m2 p.off = some b ∧ p.off = (1 + a) * b := by
    generalize p.off = off at offset
    revert off
    decide
  refine ⟨genmuladd nod n a (.reg n) ++ shiftit p.shift n ++ genmuladd n nod b (.reg n), ?_, ?_⟩
  · simp only [emit, alg, scale, again]
    rfl
  · rw [List.append_assoc]
    apply (sets_lea_reg a value value).andThen
    intro s' copy others
    have value' : s'.reg n = BitVec.ofInt 32 x := by rw [others n apart.symm, value]
    apply (sets_shiftit few value').andThen
    intro s'' shifted others'
    have copy' : s''.reg nod = BitVec.ofInt 32 (x + x * a) := by rw [others' nod apart, copy]
    obtain ⟨last, ran, result⟩ := (sets_lea_reg (d := n) b shifted copy').result
    refine ⟨last, ran, ?_⟩
    rw [result, factor, if_neg (by decide), multiple]
    congr 1
    push_cast
    ring

end Algorithms

end Code

/-- The parameters of a selection. -/
def parameters (m : Nat) (b : Best) : Mparam := { value := m, alg := b.i, shift := b.n, off := b.o, neg := b.s, arg := char b.t }

theorem emit_selected {m : Nat} {b : Best} (selected : Selected m b) {n nod : Reg} (apart : nod ≠ n) (s : State) :
    ∃ code, emit (parameters m b) n nod = some code ∧
      ∃ s', run code s = some s' ∧ s'.reg n = BitVec.ofInt 32 (factor b.s b.o b.t b.n * (s.reg n).toInt) := by
  obtain ⟨shape, sign, few, _⟩ := selected
  obtain ⟨c, q, i, shift, o, neg, t⟩ := b
  simp only at shape sign few ⊢
  have value : s.reg n = BitVec.ofInt 32 (s.reg n).toInt := (BitVec.ofInt_toInt).symm
  have arg : t ∈ [1, 3, 5, 9] ∨ t ∈ [15, 25, 27, 45, 81] → (parameters m ⟨c, q, i, shift, o, neg, t⟩).arg = t := by
    intro member
    simp only [parameters, char, Int.bmod_def]
    simp only [List.mem_cons, List.not_mem_nil, or_false] at member
    omega
  match i, shape with
  | 0, ⟨zero, member⟩ =>
    subst zero
    exact emit_zero nod few value member (arg member) rfl
  | 1, ⟨offset, member⟩ =>
    have unit : o = -1 ∨ o = 1 := by simpa using offset
    exact emit_one few apart value sign unit member (arg (.inl member)) rfl
  | 2, ⟨offset, one⟩ =>
    subst one
    exact emit_two few apart value sign offset rfl
  | 3, ⟨positive, offset, one⟩ =>
    subst positive one
    exact emit_three few apart value offset rfl
  | 4, ⟨offset, one⟩ =>
    subst one
    exact emit_four few apart value sign offset rfl

/-! The table. -/

/-- An entry that is used is what the search selects for its value. -/
def Filled (p : Mparam) : Prop := p.value = 0 ∨ ∃ old, p = mulparam p.value old

def FilledAll (cache : Cache) : Prop := ∀ p ∈ cache.multab.toList, Filled p

/-- The states of the table: any multipliers in any order. -/
def Reachable : Cache → Prop :=
  Lib.Steps.Runs (fun cache (call : Nat × Reg × Reg) => some (mulgen cache call.1 call.2.1 call.2.2).2) (fun _ _ => True) Cache.initial

theorem mulparam_value (m : Nat) (old : Mparam) : (mulparam m old).value = m := by
  unfold mulparam
  simp only
  split <;> rfl

theorem entry_filled {cache : Cache} (before : FilledAll cache) (v : Nat) : FilledAll (cache.entry v).2 := by
  unfold Cache.entry
  split
  next => exact before
  next =>
    intro p member
    simp only [Vector.toList_set] at member
    rcases List.mem_or_eq_of_mem_set member with old | new
    · exact before p old
    · right
      rw [new, mulparam_value]
      exact ⟨_, rfl⟩

theorem mulgen_filled {cache : Cache} (before : FilledAll cache) (v : Nat) (n nod : Reg) : FilledAll (mulgen cache v n nod).2 := by
  by_cases zero : v = 0
  · rwa [mulgen, if_pos zero]
  · rw [mulgen, if_neg zero]
    exact entry_filled before v

theorem reachable_filled {cache : Cache} (reachable : Reachable cache) : FilledAll cache := by
  apply Lib.Steps.Runs.invariant reachable
  · intro p member
    left
    simp only [Cache.initial, Vector.toList_replicate, List.mem_replicate] at member
    rw [member.2]
    rfl
  · rintro before after ⟨v, n, nod⟩ filled _ moves
    cases moves
    exact mulgen_filled filled v n nod

/-- The entry that `mulgen1` uses. -/
theorem entry_selected {cache : Cache} (filled : FilledAll cache) {v : Nat} (nonzero : v ≠ 0) :
    ∃ old, (cache.entry v).1 = mulparam v old := by
  unfold Cache.entry
  split
  next p found =>
    have same : p.value = v := by simpa using List.find?_some found
    rcases filled p (List.mem_of_find?_eq_some found) with zero | ⟨old, made⟩
    · exact absurd (same ▸ zero) nonzero
    · exact ⟨old, by rw [same] at made; exact made⟩
  next => exact ⟨_, rfl⟩

/-- In every state of the table, for every multiplier and every operand, the code
leaves the product. -/
theorem mulgen_multiplies (cache : Cache) (v : Nat) (n nod : Reg) (reachable : Reachable cache) (apart : nod ≠ n) :
    ∃ code, (mulgen cache v n nod).1 = some code ∧ ∀ s, ∃ s', run code s = some s' ∧ s'.reg n = BitVec.ofNat 32 v * s.reg n := by
  unfold mulgen
  split
  next zero =>
    subst zero
    exact ⟨_, rfl, fun s => ⟨_, rfl, by simp [nodconst]⟩⟩
  next nonzero =>
    obtain ⟨old, made⟩ := entry_selected (reachable_filled reachable) nonzero
    simp only [made]
    by_cases cheap : (search v).c ≤ 3
    · have selected := search_selected v cheap
      have made' : mulparam v old = parameters v (search v) := by
        simp only [mulparam, if_pos cheap]
        rfl
      have algorithm : ¬ (parameters v (search v)).alg < 0 := by simp [parameters]
      rw [made', if_neg algorithm]
      have product : ∀ x : Word, BitVec.ofInt 32 (factor (search v).s (search v).o (search v).t (search v).n * x.toInt) = BitVec.ofNat 32 v * x := by
        intro x
        obtain ⟨k, value⟩ := selected.value
        have same : BitVec.ofNat 32 v = BitVec.ofInt 32 (factor (search v).s (search v).o (search v).t (search v).n) := by
          rw [← BitVec.ofInt_natCast, value, BitVec.ofInt_add, BitVec.ofInt_mul, show BitVec.ofInt 32 (2 ^ 64) = 0#32 from rfl]
          simp
        rw [same, BitVec.ofInt_mul, BitVec.ofInt_toInt]
      obtain ⟨code, emitted, _⟩ := emit_selected selected apart ⟨fun _ => 0, fun _ => 0, false⟩
      refine ⟨code, emitted, fun s => ?_⟩
      obtain ⟨code', emitted', s', ran, result⟩ := emit_selected selected apart s
      obtain rfl : code' = code := Option.some.inj (emitted'.symm.trans emitted)
      exact ⟨s', ran, by rw [result, product]⟩
    · have none : (mulparam v old).alg < 0 := by simp [mulparam, if_neg cheap]
      rw [if_pos none]
      refine ⟨_, rfl, fun s => ⟨_, rfl, ?_⟩⟩
      rw [State.flag_reg, State.write_same, State.read_imm, nodconst, BitVec.ofInt_mul, BitVec.ofInt_toInt, BitVec.ofInt_toInt, BitVec.mul_comm,
        BitVec.ofInt_natCast]

theorem mulgen_multiplies_initial : ∃ code, (mulgen Cache.initial 45 .AX .CX).1 = some code ∧
    ∀ s, ∃ s', run code s = some s' ∧ s'.reg .AX = BitVec.ofNat 32 45 * s.reg .AX :=
  mulgen_multiplies Cache.initial 45 .AX .CX .start (by decide)

end Goken.Proofs.Mul8
