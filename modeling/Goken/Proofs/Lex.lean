import Goken.Lex
import Mathlib.Data.List.TakeWhile

/-! The numbers that integer constants stand for, and what `mpatov` makes of them. -/

namespace Goken.Proofs.Lex
open Goken.Lex

/-- The number of a digit. -/
def digitOf (c : Char) : Nat :=
  if isdigit c then c.toNat - '0'.toNat
  else if between 'a' 'f' c then 10 + (c.toNat - 'a'.toNat)
  else 10 + (c.toNat - 'A'.toNat)

/-- The number of more digits after a number. -/
def numberFrom (radix n : Nat) (s : List Char) : Nat := s.foldl (fun n c => n * radix + digitOf c) n

/-- The radix of a constant and its digits. -/
def split (s : List Char) : Nat × List Char :=
  match s with
  | [] => (10, [])
  | c :: s' =>
    if c = '0' then
      match s' with
      | [] => (8, [])
      | x :: s'' => if x = 'x' ∨ x = 'X' then (16, s'') else (8, s')
    else (10, s)

/-- The number that a constant stands for. -/
def number (s : List Char) : Nat := numberFrom (split s).1 0 (split s).2

/-- At some digit the number so far has, in 64 bits, its top bit set, and with the digit
it has not. -/
def Drops (radix : Nat) : Nat → List Char → Prop
  | _, [] => False
  | n, c :: s =>
    2 ^ 63 ≤ n % 2 ^ 64 ∧ (n * radix + digitOf c) % 2 ^ 64 < 2 ^ 63 ∨ Drops radix (n * radix + digitOf c) s

/-- `mpatov` converts exactly or reports the overflow. -/
structure Converts (s : List Char) : Prop where
  reports : (mpatov s).1 = false ↔ number s < 2 ^ 64
  exact : (mpatov s).1 = false → (mpatov s).2.toNat = number s

theorem slt_zero (n : Nat) : (BitVec.ofNat 64 n).slt 0 = true ↔ 2 ^ 63 ≤ n % 2 ^ 64 := by
  rw [BitVec.slt_iff_toInt_lt, BitVec.toInt_eq_toNat_cond]
  simp only [BitVec.toNat_ofNat, BitVec.ofNat_eq_ofNat, BitVec.toInt_zero]
  split <;> omega

section Loop

variable {radix : Nat} {digit : Char → Option (BitVec 64)} (digits : Char → Prop)
  (known : ∀ c, digits c → digit c = some (BitVec.ofNat 64 (digitOf c)))
include known

/-- The loop keeps the number modulo 2^64, until the top bit drops. -/
theorem accumulate_spec (s : List Char) (n : Nat) (all : ∀ c ∈ s, digits c) :
    (Drops radix n s → accumulate (BitVec.ofNat 64 radix) digit (BitVec.ofNat 64 n) s = none) ∧
      (¬ Drops radix n s →
        accumulate (BitVec.ofNat 64 radix) digit (BitVec.ofNat 64 n) s = some (BitVec.ofNat 64 (numberFrom radix n s))) := by
  induction s generalizing n with
  | nil => exact ⟨False.elim, fun _ => rfl⟩
  | cons c s ih =>
    have first := known c (all c (List.mem_cons_self ..))
    have next : BitVec.ofNat 64 n * BitVec.ofNat 64 radix + BitVec.ofNat 64 (digitOf c) = BitVec.ofNat 64 (n * radix + digitOf c) := by
      rw [← BitVec.ofNat_mul, ← BitVec.ofNat_add]
    obtain ⟨bad, good⟩ := ih (n * radix + digitOf c) (fun c' member => all c' (List.mem_cons_of_mem _ member))
    simp only [accumulate, first, next, slt_zero, Drops, Nat.not_le]
    constructor
    · intro drops
      split
      · rfl
      · next stays => exact bad (drops.resolve_left stays)
    · intro stays
      rw [if_neg (fun dropped => stays (.inl dropped))]
      exact good (fun dropped => stays (.inr dropped))

end Loop

/-- A number that fits does not drop its top bit on the way. -/
theorem fits_stays {radix : Nat} (large : 2 ≤ radix) (s : List Char) (n : Nat) (fits : numberFrom radix n s < 2 ^ 64) : ¬ Drops radix n s := by
  have grows : ∀ (s : List Char) (n : Nat), n ≤ numberFrom radix n s := by
    intro s
    induction s with
    | nil => exact fun n => Nat.le_refl n
    | cons c s ih =>
      intro n
      calc n ≤ n * radix := Nat.le_mul_of_pos_right n (by omega)
        _ ≤ n * radix + digitOf c := Nat.le_add_right ..
        _ ≤ numberFrom radix (n * radix + digitOf c) s := ih _
  induction s generalizing n with
  | nil => exact id
  | cons c s ih =>
    rintro (⟨top, drops⟩ | later)
    · have bound := grows s (n * radix + digitOf c)
      have small : n * radix + digitOf c < 2 ^ 64 := Nat.lt_of_le_of_lt bound fits
      have twice : n * 2 ≤ n * radix := Nat.mul_le_mul_left n large
      omega
    · exact ih _ fits later

/-- The digits of a radix, and how the loop for it reads them. -/
def digitsFor (radix : Nat) : Char → Bool :=
  if radix = 16 then ishex else if radix = 8 then isoctal else isdigit

def readFor (radix : Nat) : Char → Option (BitVec 64) :=
  if radix = 16 then hexadecimal else if radix = 8 then octal else decimal

theorem between_iff (first last c : Char) : between first last c = true ↔ first.toNat ≤ c.toNat ∧ c.toNat ≤ last.toNat := by
  simp [between]

theorem digit_zero {c : Char} (digit : isdigit c = true) : code c - code '0' = BitVec.ofNat 64 (digitOf c) := by
  obtain ⟨low, high⟩ := (between_iff '0' '9' c).mp digit
  rw [digitOf, if_pos digit, code, code, BitVec.ofNat_sub_ofNat_of_le _ _ (by decide) low]

/-- A letter as a digit. -/
theorem letter {a c : Char} (low : a.toNat ≤ c.toNat) (small : a.toNat < 2 ^ 64) :
    code c + (10 - code a) = BitVec.ofNat 64 (10 + (c.toNat - a.toNat)) := by
  have ten : (10 : BitVec 64) = BitVec.ofNat 64 10 := rfl
  rw [code, code, BitVec.ofNat_add, ← BitVec.ofNat_sub_ofNat_of_le _ _ small low, BitVec.sub_eq_add_neg, BitVec.sub_eq_add_neg, ten]
  ac_rfl

theorem read_known (radix : Nat) (c : Char) (digit : digitsFor radix c = true) :
    readFor radix c = some (BitVec.ofNat 64 (digitOf c)) := by
  unfold digitsFor at digit
  unfold readFor
  split_ifs at digit ⊢ with hex oct
  · unfold hexadecimal
    by_cases plain : isdigit c = true
    · rw [if_pos plain, ← digit_zero plain, BitVec.sub_eq_add_neg, BitVec.sub_eq_add_neg]
      exact congrArg (fun x => some (code c + x)) (BitVec.zero_add _)
    · rw [if_neg plain, digitOf, if_neg plain]
      by_cases lower : between 'a' 'f' c = true
      · rw [if_pos lower, if_pos lower, letter ((between_iff _ _ _).mp lower).1 (by decide)]
      · have upper : between 'A' 'F' c = true := by simpa [ishex, plain, lower] using digit
        rw [if_neg lower, if_pos upper, if_neg lower, letter ((between_iff _ _ _).mp upper).1 (by decide)]
  · obtain ⟨low, high⟩ := (between_iff '0' '7' c).mp digit
    have plain : isdigit c = true := (between_iff '0' '9' c).mpr ⟨low, Nat.le_trans high (by decide)⟩
    rw [octal, if_pos (.inl low), digit_zero plain]
  · rw [decimal, if_pos digit, digit_zero digit]

theorem convert_eq (s : List Char) :
    convert s = accumulate (BitVec.ofNat 64 (split s).1) (readFor (split s).1) (BitVec.ofNat 64 0) (split s).2 := by
  rcases s with _ | ⟨c, s⟩
  · rfl
  · by_cases zero : c = '0'
    · rcases s with _ | ⟨x, s⟩
      · simp only [convert, split, zero, ↓reduceIte]
        rfl
      · by_cases hex : x = 'x' ∨ x = 'X' <;> simp only [convert, split, zero, hex, ↓reduceIte] <;> rfl
    · simp only [convert, split, zero, ↓reduceIte]
      rfl

theorem split_radix (s : List Char) : 2 ≤ (split s).1 := by
  unfold split
  repeat' split
  all_goals simp

theorem dc_passes {symb rest s : List Char} (passed : dc symb rest = some s) : s = symb := by
  unfold dc at passed
  split at passed <;> cases passed
  rfl

/-- What a constant looks like when it is passed on. -/
theorem tnum_digits {c : Char} {input s : List Char} (digit : isdigit c = true) (passed : tnum c input = some s) :
    ∀ d ∈ (split s).2, digitsFor (split s).1 d = true := by
  unfold tnum at passed
  split at passed
  · next nonzero =>
    obtain rfl := dc_passes passed
    intro d member
    simp only [split, nonzero, ↓reduceIte, List.mem_cons] at member ⊢
    rcases member with rfl | member
    · exact digit
    · exact List.mem_takeWhile_imp member
  · next zero =>
    rw [not_not] at zero
    subst zero
    split at passed
    · cases passed
      simp [split]
    · next x rest =>
      split_ifs at passed with hex oct
      · cases passed
        intro d member
        simp only [split, hex, ↓reduceIte] at member ⊢
        exact List.mem_takeWhile_imp member
      · cases passed
        intro d member
        rw [List.takeWhile_cons_of_pos oct] at member ⊢
        simp only [split, hex, ↓reduceIte, List.mem_cons] at member ⊢
        rcases member with rfl | member
        · exact oct
        · exact List.mem_takeWhile_imp member
      · obtain rfl := dc_passes passed
        simp [split]

/-- `mpatov` converts a constant exactly or reports the overflow if and only if the
number fits or its top bit drops at some digit. -/
theorem mpatov_converts_iff {c : Char} {input s : List Char} (digit : isdigit c = true) (passed : tnum c input = some s) :
    Converts s ↔ number s < 2 ^ 64 ∨ Drops (split s).1 0 (split s).2 := by
  obtain ⟨bad, good⟩ := accumulate_spec (fun d => digitsFor (split s).1 d = true) (read_known (split s).1) (split s).2 0
    (tnum_digits digit passed)
  by_cases drops : Drops (split s).1 0 (split s).2
  · have result : mpatov s = (true, ~~~ 0) := by
      rw [mpatov, convert_eq s, bad drops]
    have large : ¬ number s < 2 ^ 64 := fun fits => fits_stays (split_radix s) _ _ fits drops
    refine iff_of_true ⟨?_, ?_⟩ (.inr drops)
    · rw [result]
      exact iff_of_false (by decide) large
    · rw [result]
      exact fun wrong => by cases wrong
  · have result : mpatov s = (false, BitVec.ofNat 64 (number s)) := by
      rw [mpatov, convert_eq s, good drops]
      rfl
    have stored : (mpatov s).2.toNat = number s % 2 ^ 64 := by
      rw [result]
      exact BitVec.toNat_ofNat ..
    have quiet : (mpatov s).1 = false := by
      rw [result]
    constructor
    · intro converts
      exact .inl (converts.reports.mp quiet)
    · intro condition
      have fits := condition.resolve_right drops
      exact ⟨iff_of_true quiet fits, fun _ => by rw [stored, Nat.mod_eq_of_lt fits]⟩

theorem mpatov_converts_largest : Converts "18446744073709551615".toList :=
  (mpatov_converts_iff (by decide : isdigit '1' = true)
    (by decide : tnum '1' "8446744073709551615;".toList = some "18446744073709551615".toList)).mpr (.inl (by decide))

theorem mpatov_misses : tnum '1' "8446744073709551616;".toList = some "18446744073709551616".toList ∧
    number "18446744073709551616".toList = 2 ^ 64 ∧ mpatov "18446744073709551616".toList = (false, 0) ∧
    ¬ Converts "18446744073709551616".toList := by
  have large : number "18446744073709551616".toList = 2 ^ 64 := by decide
  have quiet : mpatov "18446744073709551616".toList = (false, 0) := by decide
  refine ⟨by decide, large, quiet, fun converts => ?_⟩
  have fits := converts.reports.mp (by rw [quiet])
  rw [large] at fits
  exact Nat.lt_irrefl _ fits

end Goken.Proofs.Lex
