import Goken.Proofs.Mul5Code
import Mathlib.Tactic.NormNum

/-! The hint table of the arm back end. For every hint the first operation of the
code sets the scratch register: a search over all operands, cut where the constant
is no multiple of what the registers have in common, finds nothing when it starts
with an empty scratch register, and a list of digits shows what it finds when the
scratch register is set. -/

namespace Goken.Proofs.Mul5Hints
open Goken.Mul5 Mul5Code

inductive Move where
  | add
  | sub
  | shl (k : Nat)
  deriving DecidableEq, Repr

def Move.toChar : Move → Int
  | .add => plus
  | .sub => minus
  | .shl k => k + 97

def Move.count : Move → Nat
  | .add => 0
  | .sub => 0
  | .shl k => k

def Move.char : Move → Char
  | .add => '+'
  | .sub => '-'
  | .shl k => Char.ofNat (k + 97)

/-- The constant is a multiple of what the registers have in common. -/
def divides (v r0 r1 : Nat) : Bool := Nat.beq (Nat.mod v (Nat.gcd (Nat.gcd r0 r1) 4294967296)) 0

/-- Some result of the operation satisfies the predicate. -/
def results (move : Move) (r0 r1 : Nat) (next : Nat → Bool) : Bool :=
  match move with
  | .add => next (Nat.mod (Nat.add r0 r1) 4294967296)
  | .sub => next (Nat.mod (Nat.add (Nat.sub 4294967296 r1) r0) 4294967296) ||
      next (Nat.mod (Nat.add (Nat.sub 4294967296 r0) r1) 4294967296)
  | .shl k => next (Nat.mod (Nat.shiftLeft r0 k) 4294967296) || next (Nat.mod (Nat.shiftLeft r1 k) 4294967296)

/-- A value in either of the registers; the match makes it a numeral first. -/
def both (next : Nat → Nat → Bool) (r0 r1 x : Nat) : Bool :=
  match x with
  | 0 => next 0 r1 || next r0 0
  | x + 1 => next (x + 1) r1 || next r0 (x + 1)

def last (v : Nat) (move : Move) (r0 r1 : Nat) : Bool := Nat.beq r0 v || results move r0 r1 fun x => Nat.beq x v

def level (v : Nat) (move : Move) (next : Nat → Nat → Bool) (r0 r1 : Nat) : Bool :=
  bif divides v r0 r1 then results move r0 r1 (both next r0 r1) else false

/-- Some choice of operands gives the constant. -/
noncomputable def explore (v : Nat) (path : List Move) : Nat → Nat → Bool :=
  List.rec (fun r0 _ => Nat.beq r0 v) (fun move rest next => List.rec (last v move) (fun _ _ _ => level v move next) rest) path

theorem both_eq (next : Nat → Nat → Bool) (r0 r1 x : Nat) : both next r0 r1 x = (next x r1 || next r0 x) := by
  cases x <;> rfl

theorem operands_dvd {d : Nat} (word : d ∣ 2 ^ 32) {c : Int} {i : Nat} {r0 r1 a b : BitVec 32} (first : d ∣ r0.toNat)
    (second : d ∣ r1.toNat) (tried : (i, a, b) ∈ operands c r0 r1) : d ∣ a.toNat ∧ d ∣ b.toNat := by
  have add (x y : BitVec 32) (left : d ∣ x.toNat) (right : d ∣ y.toNat) : d ∣ (x + y).toNat := by
    rw [BitVec.toNat_add, Nat.dvd_mod_iff word]
    exact Nat.dvd_add left right
  have sub (x y : BitVec 32) (left : d ∣ x.toNat) (right : d ∣ y.toNat) : d ∣ (x - y).toNat := by
    rw [BitVec.toNat_sub, Nat.dvd_mod_iff word]
    exact Nat.dvd_add (Nat.dvd_sub word right) left
  have shl (x : BitVec 32) (k : Nat) (left : d ∣ x.toNat) : d ∣ (x <<< k).toNat := by
    rw [BitVec.toNat_shiftLeft, Nat.dvd_mod_iff word, Nat.shiftLeft_eq]
    exact Dvd.dvd.mul_right left _
  obtain ⟨x, place, value⟩ := operands_value tried
  have new : d ∣ x.toNat := by rcases value with ⟨_, rfl⟩ | ⟨_, rfl | rfl⟩ | ⟨_, rfl | rfl⟩ <;> simp only [add, sub, shl, first, second]
  rcases place with ⟨rfl, rfl⟩ | ⟨rfl, rfl⟩
  · exact ⟨new, second⟩
  · exact ⟨first, new⟩

theorem docode_dvd {d : Nat} (word : d ∣ 2 ^ 32) {v : Nat} {hp : List Int} {r0 r1 : BitVec 32} {code : List Op}
    (first : d ∣ r0.toNat) (second : d ∣ r1.toNat) (returns : docode v hp r0 r1 = some code) : d ∣ v := by
  induction hp generalizing r0 r1 code with
  | nil =>
    obtain ⟨value, _⟩ := docode_nil returns
    exact toNat_of_toInt value ▸ first
  | cons c hp ih =>
    obtain ⟨i, a, b, rest, tried, inner, rfl⟩ := docode_cons returns
    obtain ⟨first, second⟩ := operands_dvd word first second tried
    exact ih first second inner

theorem docode_divides {v : Nat} {hp : List Int} {r0 r1 : BitVec 32} {code : List Op} (returns : docode v hp r0 r1 = some code) :
    divides v r0.toNat r1.toNat = true := by
  have common : Nat.gcd (Nat.gcd r0.toNat r1.toNat) 4294967296 ∣ v :=
    docode_dvd (Nat.gcd_dvd_right _ _) ((Nat.gcd_dvd_left _ _).trans (Nat.gcd_dvd_left _ _))
      ((Nat.gcd_dvd_left _ _).trans (Nat.gcd_dvd_right _ _)) returns
  exact Nat.beq_eq ▸ Nat.mod_eq_zero_of_dvd common

theorem results_complete {c : Int} {move : Move} {r0 r1 x : BitVec 32} {next : Nat → Bool} (which : c = move.toChar)
    (value : c = plus ∧ x = r0 + r1 ∨ c = minus ∧ (x = r0 - r1 ∨ x = r1 - r0) ∨
      isShift c ∧ (x = r0 <<< (c - 97).toNat ∨ x = r1 <<< (c - 97).toNat))
    (found : next x.toNat = true) : results move r0.toNat r1.toNat next = true := by
  subst which
  cases move with
  | add =>
    rcases value with ⟨_, rfl⟩ | ⟨other, _⟩ | ⟨⟨other, _⟩, _⟩
    · exact found
    · cases other
    · exact absurd other (by decide)
  | sub =>
    rcases value with ⟨other, _⟩ | ⟨_, value⟩ | ⟨⟨other, _⟩, _⟩
    · cases other
    · simp only [results, Bool.or_eq_true]
      rcases value with rfl | rfl
      · exact .inl found
      · exact .inr found
    · exact absurd other (by decide)
  | shl k =>
    have count : ((k : Int) + 97 - 97).toNat = k := by omega
    rcases value with ⟨other, _⟩ | ⟨other, _⟩ | ⟨_, value⟩
    · simp only [Move.toChar, plus] at other
      omega
    · simp only [Move.toChar, minus] at other
      omega
    · simp only [results, Bool.or_eq_true]
      simp only [Move.toChar, count] at value
      rcases value with rfl | rfl
      · exact .inl found
      · exact .inr found

/-- The search misses nothing that `docode` finds. -/
theorem explore_complete {v : Nat} {path : List Move} {r0 r1 : BitVec 32} {code : List Op}
    (returns : docode v (path.map Move.toChar) r0 r1 = some code) : explore v path r0.toNat r1.toNat = true := by
  induction path generalizing r0 r1 code with
  | nil =>
    obtain ⟨value, _⟩ := docode_nil returns
    exact Nat.beq_eq ▸ toNat_of_toInt value
  | cons move path ih =>
    have common := docode_divides returns
    obtain ⟨i, a, b, rest, tried, inner, rfl⟩ := docode_cons returns
    have next := ih inner
    obtain ⟨x, place, value⟩ := operands_value tried
    cases path with
    | nil =>
      change last v move r0.toNat r1.toNat = true
      have there : a.toNat = v := Nat.beq_eq ▸ next
      rw [last, Bool.or_eq_true]
      rcases place with ⟨rfl, _⟩ | ⟨rfl, _⟩
      · exact .inr (results_complete rfl value (Nat.beq_eq ▸ there))
      · exact .inl (Nat.beq_eq ▸ there)
    | cons second path =>
      change level v move (explore v (second :: path)) r0.toNat r1.toNat = true
      rw [level, common, cond_true]
      refine results_complete rfl value ?_
      rw [both_eq, Bool.or_eq_true]
      rcases place with ⟨rfl, rfl⟩ | ⟨rfl, rfl⟩
      · exact .inl next
      · exact .inr next

structure Certificate where
  v : Nat
  first : Nat
  path : List Move
  digits : Nat

/-- Each hint, with the digits of the code without the first. -/
def certificates : List Certificate := [
  ⟨683, 1, [.add, .add, .shl 3, .add, .shl 4, .add], 153131⟩, ⟨687, 1, [.add, .shl 4, .add, .add, .shl 4, .sub], 531501⟩,
  ⟨691, 1, [.add, .add, .shl 3, .add, .shl 4, .add], 153531⟩, ⟨731, 1, [.add, .add, .shl 3, .add, .shl 4, .add], 153121⟩,
  ⟨811, 1, [.add, .add, .shl 3, .add, .shl 8, .add], 153501⟩, ⟨821, 1, [.add, .add, .shl 4, .add, .shl 4, .add], 150501⟩,
  ⟨843, 1, [.add, .shl 3, .add, .add, .shl 4, .add], 121531⟩, ⟨851, 1, [.add, .shl 5, .sub, .add, .shl 4, .sub], 132501⟩,
  ⟨853, 1, [.add, .add, .shl 4, .add, .shl 4, .add], 150101⟩, ⟨877, 2, [.add, .add, .add, .add, .shl 6, .sub], 155132⟩,
  ⟨933, 1, [.add, .shl 2, .add, .add, .shl 6, .sub], 121501⟩, ⟨981, 2, [.sub, .add, .shl 4, .sub, .shl 3, .add], 253221⟩,
  ⟨1375, 1, [.add, .shl 2, .add, .shl 1, .add, .shl 7, .sub], 1312501⟩,
  ⟨1675, 3, [.add, .shl 1, .add, .add, .shl 7, .add], 505101⟩, ⟨2425, 2, [.add, .add, .shl 5, .sub, .shl 4, .add], 150101⟩,
  ⟨2675, 2, [.add, .shl 3, .add, .add, .shl 5, .sub], 121532⟩,
  ⟨2750, 1, [.add, .shl 3, .sub, .shl 1, .add, .shl 7, .sub], 1012501⟩,
  ⟨2775, 2, [.sub, .add, .shl 6, .sub, .shl 4, .sub], 250122⟩, ⟨3125, 1, [.add, .add, .shl 4, .add, .shl 6, .add], 150501⟩,
  ⟨3275, 1, [.add, .shl 2, .add, .shl 6, .add, .shl 4, .add], 1350501⟩,
  ⟨3350, 2, [.add, .add, .add, .add, .shl 8, .add], 115131⟩, ⟨3475, 2, [.sub, .add, .shl 4, .sub, .shl 5, .sub], 253232⟩,
  ⟨3525, 2, [.sub, .add, .shl 3, .add, .shl 6, .sub], 253132⟩, ⟨3625, 2, [.sub, .add, .shl 4, .sub, .shl 9, .add], 250131⟩,
  ⟨3675, 1, [.add, .shl 3, .add, .shl 3, .add, .shl 4, .add], 1253131⟩,
  ⟨3725, 1, [.add, .shl 3, .sub, .add, .shl 7, .add], 132531⟩,
  ⟨3925, 1, [.add, .shl 3, .add, .shl 5, .sub, .shl 3, .sub], 1313632⟩,
  ⟨4275, 1, [.add, .shl 6, .add, .add, .shl 4, .add], 131531⟩, ⟨4325, 1, [.add, .shl 7, .sub, .add, .shl 3, .add], 132531⟩,
  ⟨4425, 1, [.add, .shl 1, .add, .shl 6, .sub, .shl 9, .sub], 1250132⟩,
  ⟨4525, 1, [.add, .shl 3, .sub, .shl 3, .add, .shl 5, .add], 1323531⟩,
  ⟨4675, 2, [.add, .add, .shl 3, .sub, .shl 6, .add], 153231⟩,
  ⟨4775, 1, [.add, .shl 3, .add, .shl 1, .add, .shl 6, .sub], 5312532⟩,
  ⟨4825, 2, [.add, .shl 2, .sub, .add, .shl 8, .sub], 532501⟩, ⟨4850, 2, [.add, .add, .add, .add, .shl 8, .sub], 155101⟩,
  ⟨4925, 1, [.add, .add, .shl 4, .sub, .shl 6, .sub], 153632⟩, ⟨4975, 2, [.add, .shl 5, .add, .add, .shl 4, .sub], 531532⟩,
  ⟨5500, 1, [.add, .shl 6, .sub, .shl 2, .add, .shl 3, .add], 1322101⟩,
  ⟨6700, 3, [.add, .shl 1, .add, .add, .shl 8, .add], 105131⟩, ⟨9700, 3, [.add, .add, .add, .add, .shl 9, .sub], 511501⟩,
  ⟨11000, 1, [.add, .shl 5, .sub, .shl 2, .sub, .shl 7, .sub], 1013101⟩,
  ⟨11750, 1, [.add, .shl 3, .add, .shl 6, .add, .shl 9, .sub], 1050132⟩,
  ⟨12500, 1, [.add, .shl 2, .add, .shl 4, .sub, .shl 10, .add], 1053601⟩,
  ⟨13250, 1, [.add, .shl 3, .add, .shl 4, .sub, .shl 5, .add], 1010101⟩,
  ⟨13750, 1, [.add, .shl 7, .sub, .shl 2, .sub, .shl 3, .add], 1010501⟩,
  ⟨14250, 1, [.add, .shl 6, .sub, .shl 2, .add, .shl 4, .sub], 1012122⟩,
  ⟨14500, 2, [.add, .shl 5, .add, .shl 9, .sub, .shl 3, .sub], 1013232⟩,
  ⟨14750, 3, [.sub, .shl 6, .sub, .sub, .shl 5, .add], 636231⟩,
  ⟨16750, 1, [.add, .shl 4, .sub, .shl 3, .sub, .shl 13, .add], 1010131⟩,
  ⟨17750, 2, [.add, .shl 7, .sub, .shl 1, .add, .shl 4, .add], 1320501⟩,
  ⟨18250, 3, [.add, .shl 1, .add, .shl 7, .sub, .shl 3, .add], 1050101⟩,
  ⟨18750, 1, [.add, .shl 6, .sub, .add, .add, .shl 5, .add], 1055101⟩,
  ⟨19250, 1, [.add, .shl 4, .add, .shl 1, .add, .shl 7, .add], 1012531⟩,
  ⟨19750, 1, [.add, .add, .shl 7, .sub, .sub, .shl 5, .sub], 1536232⟩,
  ⟨20250, 1, [.add, .shl 4, .sub, .shl 11, .sub, .shl 2, .add], 1013221⟩,
  ⟨20750, 2, [.add, .add, .shl 1, .shl 8, .add, .shl 4, .sub], 1530101⟩,
  ⟨21250, 1, [.add, .shl 8, .add, .shl 11, .add, .shl 2, .add], 1013131⟩,
  ⟨22000, 1, [.add, .shl 4, .add, .shl 3, .sub, .shl 6, .sub], 1012201⟩,
  ⟨22250, 1, [.add, .shl 3, .sub, .shl 7, .add, .shl 10, .sub], 1013501⟩,
  ⟨22750, 1, [.add, .shl 3, .sub, .shl 4, .sub, .shl 6, .add], 1010121⟩,
  ⟨23250, 1, [.add, .shl 2, .add, .shl 7, .add, .shl 4, .sub], 1050122⟩,
  ⟨23500, 1, [.add, .shl 6, .sub, .shl 2, .sub, .shl 6, .sub], 1312202⟩,
  ⟨23750, 1, [.add, .shl 6, .sub, .shl 1, .add, .shl 7, .sub], 1012501⟩,
  ⟨24250, 2, [.add, .add, .shl 6, .add, .shl 12, .sub], 513501⟩,
  ⟨24750, 1, [.add, .shl 4, .add, .shl 4, .add, .shl 9, .sub], 1012501⟩,
  ⟨25000, 1, [.add, .add, .shl 3, .shl 7, .add, .shl 6, .add], 1530501⟩,
  ⟨25250, 1, [.add, .shl 4, .add, .shl 3, .sub, .shl 6, .sub], 1012232⟩,
  ⟨25750, 1, [.add, .shl 4, .add, .shl 1, .add, .shl 9, .add], 1012501⟩,
  ⟨26250, 1, [.add, .shl 7, .add, .shl 2, .add, .shl 4, .add], 1010501⟩,
  ⟨26500, 1, [.add, .shl 7, .add, .shl 2, .add, .shl 6, .add], 5310131⟩,
  ⟨26750, 1, [.add, .shl 3, .add, .shl 4, .add, .shl 6, .sub], 1010101⟩,
  ⟨27250, 1, [.add, .shl 4, .add, .shl 4, .add, .shl 5, .add], 1012531⟩,
  ⟨27500, 2, [.sub, .shl 8, .sub, .shl 2, .sub, .shl 3, .add], 2010501⟩,
  ⟨27750, 1, [.add, .shl 1, .shl 3, .add, .add, .shl 9, .add], 1021501⟩,
  ⟨28250, 3, [.sub, .shl 3, .sub, .add, .add, .shl 8, .sub], 6325132⟩,
  ⟨28500, 2, [.add, .shl 2, .sub, .shl 7, .sub, .shl 4, .sub], 1220122⟩,
  ⟨29000, 1, [.add, .shl 6, .sub, .shl 3, .sub, .shl 5, .add], 1322201⟩,
  ⟨29500, 2, [.add, .shl 7, .add, .add, .add, .shl 4, .sub], 1055101⟩,
  ⟨29750, 1, [.add, .shl 6, .add, .shl 5, .sub, .shl 2, .add], 1050121⟩,
  ⟨30250, 1, [.add, .shl 5, .sub, .shl 6, .sub, .shl 2, .add], 1050121⟩,
  ⟨33500, 2, [.sub, .shl 5, .sub, .shl 3, .sub, .shl 13, .add], 2010131⟩,
  ⟨33750, 1, [.add, .shl 3, .sub, .shl 1, .add, .shl 9, .sub], 1220532⟩,
  ⟨34250, 2, [.add, .shl 4, .add, .add, .add, .shl 8, .add], 1315131⟩,
  ⟨35250, 4, [.add, .shl 1, .add, .shl 3, .add, .shl 10, .add], 1053501⟩,
  ⟨35500, 2, [.add, .shl 4, .add, .shl 3, .sub, .shl 6, .sub], 1050101⟩,
  ⟨35750, 2, [.add, .shl 8, .sub, .add, .add, .shl 4, .add], 1325131⟩,
  ⟨36250, 1, [.add, .shl 1, .shl 7, .sub, .shl 3, .add, .shl 4, .add], 10322531⟩,
  ⟨36500, 2, [.add, .shl 2, .sub, .shl 7, .sub, .shl 4, .sub], 5320501⟩,
  ⟨36750, 3, [.add, .shl 4, .sub, .sub, .shl 8, .add], 536231⟩,
  ⟨37250, 1, [.add, .shl 6, .add, .shl 6, .add, .shl 1, .add], 1010501⟩,
  ⟨37500, 1, [.add, .shl 7, .sub, .shl 1, .add, .shl 5, .add], 1053101⟩,
  ⟨37750, 2, [.add, .shl 1, .shl 4, .add, .add, .shl 9, .sub], 1031501⟩,
  ⟨38500, 1, [.add, .shl 4, .add, .shl 1, .add, .shl 8, .add], 1012101⟩,
  ⟨38750, 3, [.add, .shl 8, .sub, .shl 1, .add, .shl 3, .add], 1320501⟩,
  ⟨39250, 1, [.add, .shl 6, .sub, .shl 11, .sub, .add, .shl 3, .add], 10132501⟩,
  ⟨39500, 1, [.add, .shl 6, .sub, .shl 2, .add, .shl 6, .sub], 1312102⟩,
  ⟨39750, 1, [.add, .shl 1, .shl 7, .sub, .shl 2, .add, .shl 5, .sub], 10312531⟩,
  ⟨40250, 1, [.add, .shl 1, .shl 5, .add, .shl 3, .add, .shl 6, .sub], 10312532⟩,
  ⟨40500, 1, [.add, .shl 6, .sub, .shl 2, .add, .shl 6, .add], 1322101⟩,
  ⟨40750, 2, [.add, .shl 1, .add, .shl 8, .sub, .shl 4, .add], 1050101⟩,
  ⟨41250, 3, [.add, .add, .shl 1, .shl 5, .add, .shl 7, .add], 1530101⟩,
  ⟨41500, 1, [.add, .shl 9, .add, .shl 2, .add, .shl 3, .sub], 5310501⟩,
  ⟨41750, 2, [.add, .shl 5, .add, .shl 1, .add, .shl 7, .sub], 1210501⟩,
  ⟨42500, 2, [.add, .shl 7, .add, .add, .shl 6, .add], 105131⟩,
  ⟨42750, 1, [.add, .shl 6, .add, .shl 3, .sub, .shl 5, .sub], 1050101⟩,
  ⟨43250, 1, [.add, .shl 11, .sub, .shl 4, .add, .shl 3, .sub], 1013532⟩,
  ⟨43750, 2, [.add, .shl 1, .shl 3, .add, .shl 7, .add, .shl 5, .sub], 10250101⟩,
  ⟨44000, 1, [.add, .shl 5, .add, .shl 6, .sub, .shl 3, .sub], 1053232⟩,
  ⟨44250, 1, [.add, .shl 3, .sub, .shl 6, .sub, .sub, .shl 5, .add], 12636231⟩,
  ⟨44500, 2, [.add, .shl 4, .add, .shl 2, .add, .shl 7, .add], 1253101⟩,
  ⟨44750, 1, [.add, .shl 4, .add, .shl 3, .sub, .shl 7, .sub], 1012632⟩,
  ⟨45250, 1, [.add, .add, .shl 6, .add, .shl 9, .sub, .shl 6, .add], 11013631⟩,
  ⟨45500, 2, [.add, .shl 3, .add, .shl 4, .sub, .shl 6, .add], 1010121⟩,
  ⟨45750, 1, [.add, .shl 3, .sub, .shl 7, .sub, .shl 4, .sub], 1050122⟩,
  ⟨46250, 2, [.add, .shl 1, .shl 3, .add, .add, .shl 9, .add], 1021501⟩,
  ⟨46500, 1, [.add, .shl 3, .sub, .shl 2, .sub, .shl 9, .sub], 5363201⟩,
  ⟨46750, 4, [.sub, .shl 4, .sub, .shl 1, .add, .shl 6, .sub], 2320532⟩,
  ⟨47000, 1, [.add, .shl 2, .add, .shl 3, .sub, .shl 9, .sub], 5310532⟩,
  ⟨47250, 1, [.add, .shl 4, .add, .shl 4, .sub, .shl 6, .sub], 1012121⟩,
  ⟨47500, 1, [.add, .shl 6, .sub, .shl 2, .sub, .shl 7, .sub], 1312202⟩,
  ⟨47750, 1, [.add, .shl 5, .sub, .shl 2, .add, .shl 7, .sub], 1010501⟩,
  ⟨48250, 3, [.sub, .sub, .shl 7, .add, .shl 13, .sub], 623501⟩,
  ⟨48500, 1, [.add, .shl 2, .sub, .shl 6, .add, .shl 12, .sub], 1053501⟩,
  ⟨48750, 1, [.add, .shl 4, .add, .shl 4, .sub, .shl 6, .add], 1012221⟩,
  ⟨49500, 2, [.sub, .shl 5, .add, .shl 4, .add, .shl 9, .sub], 2012501⟩,
  ⟨49750, 2, [.add, .shl 2, .add, .shl 6, .add, .add, .shl 5, .sub], 12535132⟩,
  ⟨50000, 1, [.add, .shl 4, .add, .shl 4, .add, .shl 10, .add], 1053501⟩,
  ⟨50250, 1, [.add, .add, .shl 8, .add, .add, .shl 6, .add], 1501501⟩,
  ⟨50500, 2, [.add, .shl 6, .add, .shl 5, .sub, .shl 8, .add], 1013531⟩,
  ⟨50750, 1, [.add, .shl 4, .add, .shl 3, .add, .shl 10, .sub], 1012501⟩,
  ⟨51500, 1, [.add, .shl 8, .add, .shl 2, .sub, .shl 5, .add], 1312201⟩,
  ⟨51750, 1, [.add, .shl 1, .shl 3, .add, .shl 6, .sub, .shl 4, .sub], 10253121⟩,
  ⟨52250, 1, [.add, .shl 3, .add, .shl 6, .sub, .shl 9, .add], 1013631⟩,
  ⟨52500, 2, [.add, .shl 2, .add, .shl 5, .add, .shl 6, .add], 1210101⟩,
  ⟨52750, 1, [.add, .shl 2, .add, .shl 4, .add, .shl 8, .add], 1050101⟩,
  ⟨53000, 1, [.add, .shl 8, .add, .shl 2, .add, .shl 6, .add], 1053501⟩,
  ⟨53500, 2, [.add, .shl 6, .add, .shl 6, .sub, .shl 13, .add], 1010131⟩,
  ⟨53750, 1, [.add, .shl 9, .add, .shl 3, .sub, .shl 2, .add], 1050121⟩,
  ⟨54250, 1, [.add, .shl 3, .sub, .shl 6, .sub, .shl 9, .sub], 1013632⟩,
  ⟨54500, 2, [.sub, .shl 5, .add, .shl 4, .add, .shl 5, .add], 2012531⟩,
  ⟨54750, 1, [.add, .shl 5, .sub, .add, .shl 2, .add, .shl 6, .add], 10510101⟩,
  ⟨55000, 1, [.add, .shl 6, .sub, .shl 3, .sub, .shl 6, .sub], 1312202⟩,
  ⟨55250, 1, [.add, .shl 4, .add, .shl 4, .add, .shl 6, .add], 1012121⟩,
  ⟨55500, 1, [.add, .shl 2, .shl 3, .add, .add, .shl 9, .add], 1021501⟩,
  ⟨55750, 1, [.add, .shl 1, .shl 7, .sub, .shl 3, .sub, .shl 5, .sub], 10312631⟩,
  ⟨56250, 2, [.add, .shl 3, .sub, .shl 1, .add, .shl 9, .sub], 1220532⟩,
  ⟨56500, 2, [.add, .shl 3, .add, .shl 2, .add, .shl 8, .add], 1210531⟩,
  ⟨56750, 1, [.add, .shl 4, .add, .shl 3, .add, .add, .shl 7, .sub], 10121501⟩,
  ⟨57000, 1, [.add, .shl 3, .add, .shl 6, .sub, .shl 5, .add], 1210501⟩,
  ⟨57250, 1, [.add, .shl 5, .sub, .shl 12, .add, .shl 3, .sub], 1013132⟩,
  ⟨57750, 1, [.add, .shl 8, .add, .shl 2, .add, .shl 4, .sub], 1012122⟩,
  ⟨58000, 1, [.add, .shl 4, .add, .shl 3, .add, .shl 7, .add], 1012101⟩,
  ⟨58250, 2, [.add, .shl 1, .add, .shl 6, .add, .shl 6, .add], 1053131⟩,
  ⟨58750, 3, [.sub, .shl 4, .sub, .shl 9, .sub, .sub, .shl 4, .add], 23601501⟩,
  ⟨59000, 3, [.sub, .shl 8, .sub, .add, .shl 4, .add], 205101⟩, ⟨59250, 4, [.sub, .sub, .shl 7, .sub, .shl 12, .add], 623601⟩,
  ⟨59500, 2, [.add, .shl 2, .sub, .shl 7, .add, .shl 5, .sub], 1220501⟩,
  ⟨59750, 1, [.add, .shl 1, .shl 7, .sub, .shl 4, .add, .shl 8, .sub], 10312502⟩,
  ⟨60250, 1, [.add, .shl 1, .shl 7, .sub, .shl 4, .sub, .shl 4, .sub], 10312231⟩,
  ⟨60500, 2, [.add, .shl 2, .sub, .shl 6, .sub, .shl 6, .sub], 1220501⟩,
  ⟨60750, 1, [.add, .shl 4, .sub, .shl 11, .sub, .shl 4, .sub], 1013121⟩,
  ⟨61250, 1, [.add, .shl 6, .sub, .shl 6, .sub, .shl 2, .add], 1050501⟩,
  ⟨61750, 1, [.add, .shl 6, .sub, .shl 2, .add, .shl 6, .add], 1012121⟩,
  ⟨62250, 5, [.sub, .sub, .add, .shl 2, .sub, .shl 8, .sub], 6253232⟩,
  ⟨62750, 4, [.add, .shl 5, .sub, .sub, .add, .shl 6, .add], 1362531⟩,
  ⟨64750, 1, [.add, .shl 5, .add, .shl 3, .add, .shl 15, .sub], 1010132⟩]

/-- The digits of the number lead to the constant. -/
def leads (v : Int) (n : Nat) : List Int → BitVec 32 → BitVec 32 → Bool
  | [], r0, _ => r0.toInt = v
  | c :: hp, r0, r1 => (operands c r0 r1).any fun (i, a, b) => i = n / 10 ^ hp.length % 10 && leads v n hp a b

theorem leads_sound {v : Int} {n : Nat} {hp : List Int} {r0 r1 : BitVec 32} (found : leads v n hp r0 r1 = true) :
    (docode v hp r0 r1).isSome := by
  induction hp generalizing r0 r1 with
  | nil =>
    simp only [leads, decide_eq_true_eq] at found
    rw [docode, if_pos found]
    rfl
  | cons c hp ih =>
    simp only [leads, List.any_eq_true, Bool.and_eq_true] at found
    obtain ⟨⟨i, a, b⟩, tried, _, inner⟩ := found
    rw [docode, List.findSome?_isSome_iff]
    refine ⟨(i, a, b), tried, ?_⟩
    simp only [Option.isSome_map]
    exact ih inner

def Certificate.hint (e : Certificate) : Int × String := (e.v, String.ofList ((Move.shl e.first :: e.path).map Move.char))

set_option maxRecDepth 1000 in
theorem hintab_certificates : hintab = certificates.map Certificate.hint := by
  decide

/-- What is checked of a hint. -/
def Certificate.checks (e : Certificate) : Prop :=
  (1 ≤ e.first ∧ ∀ move ∈ Move.shl e.first :: e.path, move.count < 30) ∧ explore e.v e.path (2 ^ e.first) 0 = false ∧
    leads e.v e.digits (e.path.map Move.toChar) 1 ((1 : BitVec 32) <<< e.first) = true

noncomputable instance (e : Certificate) : Decidable e.checks := inferInstanceAs (Decidable (_ ∧ _))

theorem certificates_check : ∀ e ∈ certificates, e.checks := by
  decide +kernel

theorem char_toNat (move : Move) (low : move.count < 30) : (move.char.toNat : Int) = move.toChar := by
  cases move with
  | add => rfl
  | sub => rfl
  | shl k =>
    have letters : ∀ k < 30, (Char.ofNat (k + 97)).toNat = k + 97 := by decide
    rw [Move.char, letters k low]
    exact Nat.cast_add k 97

theorem hint_ofList {moves : List Move} (low : ∀ move ∈ moves, move.count < 30) :
    hint (String.ofList (moves.map Move.char)) = moves.map Move.toChar := by
  rw [hint, String.toList_ofList, List.map_map]
  exact List.map_congr_left fun move there => char_toNat move (low move there)

theorem hint_computes {v : Int} {text : String} {code : List Op} (entry : (v, text) ∈ hintab)
    (returns : docode v (hint text) 1 0 = some code) : Computes v code := by
  have positive := Mul5.hintab_positive _ entry
  rw [hintab_certificates] at entry
  obtain ⟨e, there, same⟩ := List.mem_map.mp entry
  obtain ⟨rfl, rfl⟩ := Prod.mk.inj same
  obtain ⟨⟨low, counts⟩, misses, hits⟩ := certificates_check e there
  have high : e.first < 30 := counts _ List.mem_cons_self
  have shift : isShift (e.first + 97) := ⟨by omega, by omega⟩
  have count : ((e.first : Int) + 97 - 97).toNat = e.first := by omega
  rw [hint_ofList counts, List.map_cons] at returns
  refine docode_first shift (by omega) ?_ (.inr ?_) returns
  · by_contra some
    obtain ⟨code, found⟩ := Option.ne_none_iff_exists'.mp some
    rw [count] at found
    have reached := explore_complete found
    have one : ((1 : BitVec 32) <<< e.first).toNat = 2 ^ e.first := by
      have bound : 2 ^ e.first < 2 ^ 32 := Nat.pow_lt_pow_right (by decide) (by omega)
      rw [BitVec.toNat_shiftLeft, Nat.shiftLeft_eq]
      simpa using Nat.mod_eq_of_lt bound
    rw [one, show (0 : BitVec 32).toNat = 0 from rfl, misses] at reached
    cases reached
  · rw [count]
    exact leads_sound hits

end Goken.Proofs.Mul5Hints
