import Goken.Lib.Lists
import Goken.Strtoll
import Mathlib.Data.List.Induction
import Mathlib.Data.List.TakeWhile
import Mathlib.Tactic.Linarith
import Mathlib.Tactic.Ring

/-! `strtoll` finds every overflow; `strtoull` finds one only where the wrapped
value falls. -/

namespace Goken.Proofs.Strtoll
open Goken.Strtoll

/-! What a string says. -/

/-- The bases that the functions know. -/
def Valid (base : Int) : Prop := base = 0 ∨ 2 ≤ base ∧ base ≤ 36

/-- Spaces, a sign, the start of a hexadecimal number where the base allows it,
and as many digits as follow. -/
structure Numeral (nptr : List UInt8) (base : Int) where
  space : List UInt8
  sign : List UInt8
  hex : List UInt8
  ds : List UInt8
  rest : List UInt8
  text : nptr = space ++ (sign ++ (hex ++ (ds ++ rest)))
  spaces : ∀ c ∈ space, isspace c = true
  unspaced : ∀ c ∈ (sign ++ (hex ++ (ds ++ rest))).head?, isspace c = false
  signed : sign = [minus] ∨ sign = [plus] ∨
    sign = [] ∧ (hex ++ (ds ++ rest)).head? ≠ some minus ∧ (hex ++ (ds ++ rest)).head? ≠ some plus
  prefixed : (base = 0 ∨ base = 16) ∧ (∃ x, isx x = true ∧ hex = [zero, x]) ∨
    hex = [] ∧ (base = 0 ∨ base = 16 → hexadecimal (ds ++ rest) = false)
  radix : Int
  radix_eq : radix = if base ≠ 0 then base else if hex ≠ [] then 16 else if (ds ++ rest).head? = some zero then 8 else 10
  digits : ∀ c ∈ ds, digit radix c < radix
  longest : ∀ c ∈ rest.head?, radix ≤ digit radix c

namespace Numeral

variable {nptr : List UInt8} {base : Int}

theorem radix_bounds (r : Numeral nptr base) (valid : Valid base) : 2 ≤ r.radix ∧ r.radix ≤ 36 := by
  rw [r.radix_eq]
  rcases valid with rfl | bounds
  · rw [if_neg (by simp)]
    split_ifs <;> decide
  · rw [if_pos (by omega)]
    exact bounds

theorem start_eq (r : Numeral nptr base) (valid : Valid base) :
    start nptr base = ⟨decide (r.sign = [minus]), r.radix, r.ds ++ r.rest, false⟩ := by
  have unspaced : nptr.dropWhile isspace = r.sign ++ (r.hex ++ (r.ds ++ r.rest)) :=
    (congrArg (List.dropWhile isspace) r.text).trans (Lib.Lists.dropWhile_stops r.spaces r.unspaced)
  have negative : decide ((r.sign ++ (r.hex ++ (r.ds ++ r.rest))).head? = some minus) = decide (r.sign = [minus]) := by
    rcases r.signed with sign | sign | ⟨sign, notMinus, -⟩
    · rw [sign]
      rfl
    · rw [sign]
      rfl
    · rw [sign, List.nil_append, decide_eq_false notMinus]
      rfl
  have unsigned : (if decide ((r.sign ++ (r.hex ++ (r.ds ++ r.rest))).head? = some minus) ||
      decide ((r.sign ++ (r.hex ++ (r.ds ++ r.rest))).head? = some plus) then (r.sign ++ (r.hex ++ (r.ds ++ r.rest))).drop 1
      else r.sign ++ (r.hex ++ (r.ds ++ r.rest))) = r.hex ++ (r.ds ++ r.rest) := by
    rcases r.signed with sign | sign | ⟨sign, notMinus, notPlus⟩
    · rw [sign]
      rfl
    · rw [sign]
      rfl
    · rw [sign, List.nil_append, decide_eq_false notMinus, decide_eq_false notPlus]
      rfl
  have prefixed := r.prefixed
  have radix := r.radix_eq
  rw [start, unspaced]
  rw [unsigned, negative]
  generalize r.hex = hex at prefixed radix
  generalize r.ds ++ r.rest = digits at prefixed radix
  generalize r.radix = radix' at radix
  subst radix
  rcases prefixed with ⟨allowed, x, letter, rfl⟩ | ⟨rfl, plain⟩
  · have hexes : hexadecimal ([zero, x] ++ digits) = true := by simp [hexadecimal, letter]
    rcases allowed with rfl | rfl
    · rw [if_pos rfl, if_pos hexes]
      rfl
    · rw [if_neg (by decide), if_pos (by rfl), if_pos hexes]
      rfl
  · rw [List.nil_append]
    by_cases zeroBase : base = 0
    · subst zeroBase
      have plain := plain (.inl rfl)
      rw [if_pos rfl, plain, if_neg Bool.false_ne_true]
      by_cases octal : digits.head? = some zero
      · rw [if_pos octal, if_neg (not_not.mpr rfl), if_neg (not_not.mpr rfl), if_pos octal]
      · rw [if_neg octal, if_neg (not_not.mpr rfl), if_neg (not_not.mpr rfl), if_neg octal]
    · rw [if_neg zeroBase, if_pos zeroBase]
      have bounds := valid.resolve_left zeroBase
      split
      · rename_i sixteen
        obtain ⟨rfl, -⟩ : base = 16 ∧ digits.head? = some zero := by simpa using sixteen
        rw [plain (.inr rfl), if_neg Bool.false_ne_true]
      · have inside : (decide (base < 0) || decide (36 < base)) = false := by
          rw [Bool.or_eq_false_iff, decide_eq_false_iff_not, decide_eq_false_iff_not]
          omega
        rw [inside]

theorem sign_split (p : List UInt8) : ∃ sign rest, p = sign ++ rest ∧
    (sign = [minus] ∨ sign = [plus] ∨ sign = [] ∧ rest.head? ≠ some minus ∧ rest.head? ≠ some plus) := by
  by_cases negative : p.head? = some minus
  · obtain ⟨rest, rfl⟩ := List.head?_eq_some_iff.mp negative
    exact ⟨[minus], rest, rfl, .inl rfl⟩
  by_cases positive : p.head? = some plus
  · obtain ⟨rest, rfl⟩ := List.head?_eq_some_iff.mp positive
    exact ⟨[plus], rest, rfl, .inr (.inl rfl)⟩
  · exact ⟨[], p, rfl, .inr (.inr ⟨rfl, negative, positive⟩)⟩

theorem hex_split (base : Int) (p : List UInt8) : ∃ hex rest, p = hex ++ rest ∧
    ((base = 0 ∨ base = 16) ∧ (∃ x, isx x = true ∧ hex = [zero, x]) ∨
      hex = [] ∧ (base = 0 ∨ base = 16 → hexadecimal rest = false)) := by
  by_cases taken : (base = 0 ∨ base = 16) ∧ hexadecimal p = true
  · obtain ⟨allowed, starts⟩ := taken
    rw [hexadecimal, Bool.and_eq_true, decide_eq_true_eq] at starts
    obtain ⟨rest, rfl⟩ := List.head?_eq_some_iff.mp starts.1
    cases rest with
    | nil => exact absurd starts.2 Bool.false_ne_true
    | cons x rest => exact ⟨[zero, x], rest, rfl, .inl ⟨allowed, x, starts.2, rfl⟩⟩
  · exact ⟨[], p, rfl, .inr ⟨rfl, fun allowed => Bool.eq_false_iff.mpr fun starts => taken ⟨allowed, starts⟩⟩⟩

/-- Every string is read so. -/
theorem exists_numeral (nptr : List UInt8) (base : Int) : Nonempty (Numeral nptr base) := by
  obtain ⟨sign, rest₁, unsigned, signed⟩ := sign_split (nptr.dropWhile isspace)
  obtain ⟨hex, rest₂, rfl, prefixed⟩ := hex_split base rest₁
  have stops : ∀ (p : List UInt8) (test : UInt8 → Bool), ∀ c ∈ (p.dropWhile test).head?, test c = false := by
    intro p test c first
    have tested := List.head?_dropWhile_not test p
    rw [first] at tested
    exact tested
  generalize known : (if base ≠ 0 then base else if hex ≠ [] then 16 else if rest₂.head? = some zero then 8 else 10) = radix
  have cut := List.takeWhile_append_dropWhile (p := fun c => decide (digit radix c < radix)) (l := rest₂)
  exact ⟨{
    space := nptr.takeWhile isspace
    sign := sign
    hex := hex
    ds := rest₂.takeWhile fun c => digit radix c < radix
    rest := rest₂.dropWhile fun c => digit radix c < radix
    text := by rw [cut, ← unsigned, List.takeWhile_append_dropWhile]
    spaces := fun c member => List.mem_takeWhile_imp member
    unspaced := by
      rw [cut, ← unsigned]
      exact stops nptr isspace
    signed := by rwa [cut]
    prefixed := by rwa [cut]
    radix := radix
    radix_eq := by rw [cut, known]
    digits := fun c member => by simpa using List.mem_takeWhile_imp member
    longest := fun c first => Int.not_lt.mp (of_decide_eq_false (stops _ _ c first)) }⟩

end Numeral

/-! The loop. -/

/-- The value of digits. -/
def number (radix : Int) (ds : List UInt8) : Int := ds.foldl (fun n c => n * radix + digit radix c) 0

theorem number_snoc (radix : Int) (ds : List UInt8) (c : UInt8) : number radix (ds ++ [c]) = number radix ds * radix + digit radix c := by
  rw [number, List.foldl_append]
  rfl

theorem digit_nonneg {radix : Int} (small : 0 ≤ radix) (c : UInt8) : 0 ≤ digit radix c := by
  have low : ∀ k : UInt8, k ≤ c → (k.toNat : Int) ≤ c.toNat := fun k below => Int.ofNat_le.mpr (UInt8.le_iff_toNat_le.mp below)
  rw [digit]
  split_ifs with decimal lower upper
  · have bound := low 0x30 (of_decide_eq_true (Bool.and_eq_true_iff.mp decimal).1)
    exact Int.sub_nonneg.mpr bound
  · have bound := low 0x61 (of_decide_eq_true (Bool.and_eq_true_iff.mp lower).1)
    exact Int.add_nonneg (Int.sub_nonneg.mpr bound) (by decide)
  · have bound := low 0x41 (of_decide_eq_true (Bool.and_eq_true_iff.mp upper).1)
    exact Int.add_nonneg (Int.sub_nonneg.mpr bound) (by decide)
  · exact small

theorem number_nonneg {radix : Int} (small : 0 ≤ radix) (ds : List UInt8) : 0 ≤ number radix ds := by
  induction ds using List.reverseRecOn with
  | nil => exact Int.le_refl 0
  | append_singleton ds c ih =>
      rw [number_snoc]
      exact Int.add_nonneg (Int.mul_nonneg ih small) (digit_nonneg small c)

/-- What a digit does to the variables of the loop. -/
def advance (wrap : Int → Int) (radix m : Int) (st : Digits) (c : UInt8) : Digits :=
  ⟨wrap (st.n * radix + digit radix c), st.ovfl || decide (m < st.n) || decide (wrap (st.n * radix + digit radix c) < st.n),
    int32 (st.ndig + 1)⟩

theorem digits_eq {wrap : Int → Int} {radix m : Int} {ds rest : List UInt8} (inside : ∀ c ∈ ds, digit radix c < radix)
    (stops : ∀ c ∈ rest.head?, radix ≤ digit radix c) (st : Digits) :
    digits wrap radix m st (ds ++ rest) = (ds.foldl (advance wrap radix m) st, rest) := by
  induction ds generalizing st with
  | nil =>
      cases rest with
      | nil => rfl
      | cons c rest =>
          rw [List.nil_append, Strtoll.digits]
          exact if_pos (stops c rfl)
  | cons c ds ih =>
      obtain ⟨first, later⟩ := List.forall_mem_cons.mp inside
      rw [List.cons_append, Strtoll.digits, List.foldl_cons]
      dsimp only
      rw [if_neg (Int.not_le.mpr first), ih later]
      rfl

theorem ndig_eq (wrap : Int → Int) (radix m : Int) (ds : List UInt8) :
    (ds.foldl (advance wrap radix m) ⟨0, false, 0⟩).ndig = int32 ds.length := by
  induction ds using List.reverseRecOn with
  | nil => rfl
  | append_singleton ds c ih =>
      rw [List.foldl_append, List.foldl_cons, List.foldl_nil, advance]
      dsimp only
      rw [ih, List.length_append, int32, int32, int32]
      simp

/-! Overflow of the signed type. -/

theorem vlong_eq {v : Int} (low : -2 ^ 63 ≤ v) (high : v < 2 ^ 63) : vlong v = v := by
  rw [vlong, Int.bmod_def]
  split <;> omega

theorem vlong_above {v : Int} (low : 2 ^ 63 ≤ v) (high : v < 2 ^ 64) : vlong v = v - 2 ^ 64 := by
  rw [vlong, Int.bmod_def]
  split <;> omega

/-- The variables after digits of value `d`. -/
def Exact (d : Int) (st : Digits) : Prop := st.ovfl = false ∧ st.n = d ∧ d ≤ VLONG_MAX ∨ st.ovfl = true ∧ VLONG_MAX < d

theorem exact_step {radix d : Int} {st : Digits} {c : UInt8} (bounds : 2 ≤ radix ∧ radix ≤ 36) (nonneg : 0 ≤ d) (inside : digit radix c < radix)
    (before : Exact d st) : Exact (d * radix + digit radix c) (advance vlong radix (VLONG_MAX.tdiv radix) st c) := by
  have low : 0 ≤ digit radix c := digit_nonneg (by omega) c
  have grows : d ≤ d * radix + digit radix c := by nlinarith
  rw [advance]
  generalize digit radix c = v at low inside grows
  rcases before with ⟨plain, same, fits⟩ | ⟨overflow, beyond⟩
  · have quotient : d ≤ VLONG_MAX.tdiv radix ↔ d * radix ≤ VLONG_MAX := by
      rw [Int.tdiv_eq_ediv_of_nonneg (by decide)]
      exact Int.le_ediv_iff_mul_le (by omega)
    rw [same, plain]
    by_cases fits' : d * radix + v ≤ VLONG_MAX
    · have wrapped : vlong (d * radix + v) = d * radix + v := by
        rw [VLONG_MAX] at fits'
        exact vlong_eq (by omega) (by omega)
      have below : ¬ VLONG_MAX.tdiv radix < d := Int.not_lt.mpr (quotient.mpr (by omega))
      rw [wrapped]
      exact .inl ⟨by simp [below, grows], rfl, fits'⟩
    · refine .inr ⟨?_, Int.not_le.mp fits'⟩
      by_cases above : VLONG_MAX.tdiv radix < d
      · simp [above]
      · have product := quotient.mp (Int.not_lt.mp above)
        have wrapped : vlong (d * radix + v) = d * radix + v - 2 ^ 64 := by
          rw [VLONG_MAX] at fits' product
          exact vlong_above (by omega) (by omega)
        have falls : d * radix + v - 2 ^ 64 < d := by
          rw [VLONG_MAX] at product
          omega
        rw [wrapped, decide_eq_true falls, Bool.or_true]
  · refine .inr ⟨?_, Int.lt_of_lt_of_le beyond grows⟩
    rw [overflow]
    rfl

theorem exact_run {radix : Int} {ds : List UInt8} (bounds : 2 ≤ radix ∧ radix ≤ 36) (inside : ∀ c ∈ ds, digit radix c < radix) :
    Exact (number radix ds) (ds.foldl (advance vlong radix (VLONG_MAX.tdiv radix)) ⟨0, false, 0⟩) := by
  induction ds using List.reverseRecOn with
  | nil =>
      have zero : (0 : Int) ≤ VLONG_MAX := by decide
      exact .inl ⟨rfl, rfl, zero⟩
  | append_singleton ds c ih =>
      have before := ih fun c' member => inside c' (List.mem_append_left _ member)
      rw [number_snoc, List.foldl_append]
      exact exact_step bounds (number_nonneg (by omega) ds) (inside c (by simp)) before

/-! Overflow of the unsigned type. -/

/-- The wrapped value falls, or stays at its greatest. -/
def Falls (a a' : Int) : Prop := a' < a ∨ a = 2 ^ 64 - 1 ∧ a' = 2 ^ 64 - 1

/-- It does so at some digit. -/
def Fall (radix : Int) (ds : List UInt8) : Prop :=
  ∃ before c after, ds = before ++ c :: after ∧ Falls (uvlong (number radix before)) (uvlong (number radix (before ++ [c])))

theorem fall_snoc (radix : Int) (ds : List UInt8) (c : UInt8) :
    Fall radix (ds ++ [c]) ↔ Fall radix ds ∨ Falls (uvlong (number radix ds)) (uvlong (number radix (ds ++ [c]))) := by
  constructor
  · rintro ⟨before, c', after, split, falls⟩
    rcases List.eq_nil_or_concat after with rfl | ⟨after, last, rfl⟩
    · obtain ⟨rfl, rfl⟩ := List.append_inj' split rfl |>.imp_right List.singleton_inj.mp
      exact .inr falls
    · rw [List.concat_eq_append, ← List.cons_append, ← List.append_assoc] at split
      obtain ⟨rfl, -⟩ := List.append_inj' split rfl
      exact .inl ⟨before, c', after, rfl, falls⟩
  · rintro (⟨before, c', after, rfl, falls⟩ | falls)
    · exact ⟨before, c', after ++ [c], by simp, falls⟩
    · exact ⟨ds, c, [], rfl, falls⟩

/-- The tests of one digit. -/
theorem tests_iff {radix a v : Int} (bounds : 2 ≤ radix ∧ radix ≤ 36) (low : 0 ≤ v) (inside : v < radix) (wrapped : 0 ≤ a ∧ a < 2 ^ 64) :
    uvlong (UVLONG_MAX.tdiv radix) < a ∨ uvlong (a * radix + v) < a ↔ Falls a (uvlong (a * radix + v)) := by
  have two : 2 ≤ (2 : Int) ^ 63 / radix := by
    rw [Int.le_ediv_iff_mul_le (by omega)]
    omega
  have quotient : uvlong (UVLONG_MAX.tdiv radix) = 2 ^ 64 - 2 ^ 63 / radix := by
    have small : (2 : Int) ^ 63 / radix ≤ 2 ^ 63 := Int.ediv_le_self _ (by decide)
    rw [UVLONG_MAX, Int.neg_tdiv, Int.tdiv_eq_ediv_of_nonneg (by decide), uvlong]
    omega
  have product : radix * (2 ^ 63 / radix) ≤ 2 ^ 63 := Int.mul_ediv_self_le (by omega)
  rw [quotient]
  generalize (2 : Int) ^ 63 / radix = q at product two
  rw [Falls]
  constructor
  · rintro (above | falls)
    · obtain ⟨j, rfl⟩ : ∃ j, a = 2 ^ 64 - j := ⟨2 ^ 64 - a, by omega⟩
      have less : j * radix ≤ 2 ^ 63 := by nlinarith
      have more : v < j * radix := by nlinarith
      have wraps : uvlong ((2 ^ 64 - j) * radix + v) = 2 ^ 64 - (j * radix - v) := by
        have split : (2 ^ 64 - j) * radix + v = 2 ^ 64 - (j * radix - v) + 2 ^ 64 * (radix - 1) := by ring
        rw [uvlong, split, Int.add_mul_emod_self_left]
        omega
      rw [wraps]
      by_cases falls : j < j * radix - v
      · exact .inl (by omega)
      · have one : j = 1 := by nlinarith
        subst one
        exact .inr ⟨by omega, by omega⟩
    · exact .inl falls
  · rintro (falls | ⟨rfl, -⟩)
    · exact .inr falls
    · exact .inl (by omega)

theorem wrapped_run {radix : Int} {ds : List UInt8} (bounds : 2 ≤ radix ∧ radix ≤ 36) (inside : ∀ c ∈ ds, digit radix c < radix) :
    (ds.foldl (advance uvlong radix (uvlong (UVLONG_MAX.tdiv radix))) ⟨0, false, 0⟩).n = uvlong (number radix ds) ∧
      ((ds.foldl (advance uvlong radix (uvlong (UVLONG_MAX.tdiv radix))) ⟨0, false, 0⟩).ovfl = true ↔ Fall radix ds) := by
  induction ds using List.reverseRecOn with
  | nil =>
      refine ⟨rfl, iff_of_false Bool.false_ne_true ?_⟩
      rintro ⟨before, c, after, split, -⟩
      exact absurd split.symm (List.append_ne_nil_of_right_ne_nil _ (List.cons_ne_nil _ _))
  | append_singleton ds c ih =>
      obtain ⟨value, overflow⟩ := ih fun c' member => inside c' (List.mem_append_left _ member)
      have range : 0 ≤ uvlong (number radix ds) ∧ uvlong (number radix ds) < 2 ^ 64 :=
        ⟨Int.emod_nonneg _ (by decide), Int.emod_lt_of_pos _ (by decide)⟩
      have next : uvlong (uvlong (number radix ds) * radix + digit radix c) = uvlong (number radix (ds ++ [c])) := by
        rw [number_snoc]
        simp [uvlong, Int.add_emod, Int.mul_emod]
      have tests := tests_iff bounds (digit_nonneg (by omega) c) (inside c (by simp)) range
      rw [next] at tests
      rw [List.foldl_append, List.foldl_cons, List.foldl_nil, advance]
      dsimp only
      rw [value, next, Bool.or_eq_true, Bool.or_eq_true, decide_eq_true_eq, decide_eq_true_eq, overflow, or_assoc, tests, fall_snoc]
      exact ⟨rfl, Iff.rfl⟩

/-- There is no fall below `2 ^ 64`. -/
theorem not_fall {radix : Int} {ds : List UInt8} (bounds : 2 ≤ radix ∧ radix ≤ 36) (small : number radix ds < 2 ^ 64) : ¬ Fall radix ds := by
  induction ds using List.reverseRecOn with
  | nil =>
      rintro ⟨before, c, after, split, -⟩
      exact absurd split.symm (List.append_ne_nil_of_right_ne_nil _ (List.cons_ne_nil _ _))
  | append_singleton ds c ih =>
      have nonneg := number_nonneg (by omega : 0 ≤ radix) ds
      have low : 0 ≤ digit radix c := digit_nonneg (by omega) c
      have next := number_snoc radix ds c
      have grows : number radix ds + number radix ds ≤ number radix (ds ++ [c]) := by nlinarith
      rw [fall_snoc, not_or]
      refine ⟨ih (by omega), ?_⟩
      rw [uvlong, uvlong, Int.emod_eq_of_lt nonneg (by omega), Int.emod_eq_of_lt (by omega) small, Falls]
      omega

/-! The functions. -/

/-- The signed number, or the bound on its side. -/
def signedValue (neg : Bool) (d : Int) : Int := if neg then max VLONG_MIN (-d) else min VLONG_MAX d

/-- The number, negated modulo `2 ^ 64`, or the constant. -/
def unsignedValue (neg : Bool) (d : Int) : Int :=
  if d < 2 ^ 64 then if neg then uvlong (-d) else d else uvlong UVLONG_MAX

namespace Numeral

variable {nptr : List UInt8} {base : Int}

def neg (r : Numeral nptr base) : Bool := r.sign = [minus]

def value (r : Numeral nptr base) : Int := number r.radix r.ds

/-- After the last digit, or at the start if there is none. -/
def stop (r : Numeral nptr base) : Nat := if r.ds = [] then 0 else nptr.length - r.rest.length

/-- What both functions are to give. -/
def Correct (r : Numeral nptr base) : Prop :=
  strtoll nptr base = (signedValue r.neg r.value, r.stop) ∧ strtoull nptr base = (unsignedValue r.neg r.value, r.stop)

/-- `ndig`, an `int`, does not come back to 0. -/
def Counted (r : Numeral nptr base) : Prop := r.ds = [] ∨ r.ds.length % 2 ^ 32 ≠ 0

theorem endptr_iff (r : Numeral nptr base) : endptr nptr r.rest (int32 r.ds.length) = r.stop ↔ r.Counted := by
  have wraps : int32 r.ds.length = 0 ↔ r.ds.length % 2 ^ 32 = 0 := by
    rw [int32_eq_emod]
    omega
  have size : nptr.length = r.space.length + (r.sign.length + (r.hex.length + (r.ds.length + r.rest.length))) := by
    have lengths := congrArg List.length r.text
    simpa only [List.length_append] using lengths
  rw [endptr, if_congr wraps rfl rfl, stop, Counted]
  by_cases empty : r.ds = []
  · simp [empty]
  · have positive := List.length_pos_iff.mpr empty
    rw [if_neg empty]
    split
    · rename_i zero
      simp only [empty, zero, ne_eq, not_true_eq_false, or_self, iff_false]
      omega
    · rename_i nonzero
      exact iff_of_true rfl (.inr nonzero)

theorem strtoll_eq (r : Numeral nptr base) (valid : Valid base) :
    strtoll nptr base = (signedValue r.neg r.value, endptr nptr r.rest (int32 r.ds.length)) := by
  have bounds := r.radix_bounds valid
  have exact := exact_run bounds r.digits
  have count := ndig_eq vlong r.radix (VLONG_MAX.tdiv r.radix) r.ds
  have nonneg : 0 ≤ number r.radix r.ds := number_nonneg (by omega) r.ds
  rw [strtoll, r.start_eq valid]
  dsimp only
  rw [if_neg Bool.false_ne_true, digits_eq r.digits r.longest]
  dsimp only
  rw [count]
  refine Prod.ext ?_ rfl
  dsimp only
  rw [signedValue, neg]
  rcases exact with ⟨plain, same, fits⟩ | ⟨overflow, beyond⟩
  · have opposite : vlong (-number r.radix r.ds) = -number r.radix r.ds := by
      rw [VLONG_MAX] at fits
      exact vlong_eq (by omega) (by omega)
    rw [plain, same, if_neg Bool.false_ne_true, opposite, value, min_eq_right fits, max_eq_right (by rw [VLONG_MAX] at fits; rw [VLONG_MIN]; omega)]
  · rw [if_pos overflow, value, min_eq_left beyond.le, max_eq_left (by rw [VLONG_MAX] at beyond; rw [VLONG_MIN]; omega)]

theorem strtoull_eq (r : Numeral nptr base) (valid : Valid base) : ∃ v, strtoull nptr base = (v, endptr nptr r.rest (int32 r.ds.length)) ∧
    (v = unsignedValue r.neg r.value ↔ r.value < 2 ^ 64 ∨ r.value % 2 ^ 64 = 2 ^ 63 ∨ Fall r.radix r.ds) := by
  have bounds := r.radix_bounds valid
  obtain ⟨wrapped, overflow⟩ := wrapped_run bounds r.digits
  have count := ndig_eq uvlong r.radix (uvlong (UVLONG_MAX.tdiv r.radix)) r.ds
  have nonneg : 0 ≤ r.value := number_nonneg (by omega) r.ds
  rw [strtoull, r.start_eq valid]
  dsimp only
  rw [if_neg Bool.false_ne_true, digits_eq r.digits r.longest]
  dsimp only
  rw [count, wrapped]
  refine ⟨_, rfl, ?_⟩
  rw [unsignedValue, neg]
  by_cases small : r.value < 2 ^ 64
  · have plain := Bool.eq_false_iff.mpr fun seen => not_fall bounds small (overflow.mp seen)
    have same : uvlong r.value = r.value := Int.emod_eq_of_lt nonneg small
    rw [plain, if_neg Bool.false_ne_true, if_pos small]
    exact iff_of_true (by rw [← value, same]) (.inl small)
  · rw [if_neg small, or_iff_right small]
    by_cases seen : Fall r.radix r.ds
    · rw [if_pos (overflow.mpr seen)]
      exact iff_of_true rfl (.inr seen)
    · rw [Bool.eq_false_iff.mpr fun found => seen (overflow.mp found), if_neg Bool.false_ne_true, or_iff_left seen, ← value]
      cases decide (r.sign = [minus]) with
      | true =>
          rw [if_pos rfl, uvlong, uvlong, uvlong, UVLONG_MAX]
          omega
      | false =>
          rw [if_neg Bool.false_ne_true, uvlong, uvlong, UVLONG_MAX]
          omega

end Numeral

/-- `strtoll` is right for every number whose digits can be counted, and
`strtoull` if in addition an overflow is seen. -/
theorem correct_iff (nptr : List UInt8) {base : Int} (valid : Valid base) : Nonempty (Numeral nptr base) ∧
    ∀ r : Numeral nptr base, r.Correct ↔ r.Counted ∧ (r.value < 2 ^ 64 ∨ r.value % 2 ^ 64 = 2 ^ 63 ∨ Fall r.radix r.ds) := by
  refine ⟨Numeral.exists_numeral nptr base, fun r => ?_⟩
  obtain ⟨v, runs, right⟩ := r.strtoull_eq valid
  rw [Numeral.Correct, r.strtoll_eq valid, runs, Prod.mk.injEq, Prod.mk.injEq, r.endptr_iff, right]
  exact ⟨fun ⟨⟨_, counted⟩, seen, _⟩ => ⟨counted, seen⟩, fun ⟨counted, seen⟩ => ⟨⟨rfl, counted⟩, seen, counted⟩⟩

/-- Digits and no more. -/
def decimal (ds : List UInt8) (unspaced : ∀ c ∈ ds.head?, isspace c = false ∧ c ≠ minus ∧ c ≠ plus) (digits : ∀ c ∈ ds, digit 10 c < 10) :
    Numeral ds 10 where
  space := []
  sign := []
  hex := []
  ds := ds
  rest := []
  text := by simp
  spaces := nofun
  unspaced := fun c first => (unspaced c (by simpa using first)).1
  signed := .inr (.inr ⟨rfl, fun first => (unspaced _ (by simpa using first)).2.1 rfl, fun first => (unspaced _ (by simpa using first)).2.2 rfl⟩)
  prefixed := .inr ⟨rfl, fun allowed => absurd allowed (by decide)⟩
  radix := 10
  radix_eq := rfl
  digits := digits
  longest := nofun

/-- Five, and as many zeros. -/
def five (zeros : Nat) : List UInt8 := 0x35 :: List.replicate zeros zero

def fiveNumeral (zeros : Nat) : Numeral (five zeros) 10 :=
  decimal (five zeros) (fun c first => by
    obtain rfl : 0x35 = c := by simpa [five] using first
    decide) (List.forall_mem_cons.mpr ⟨by decide, fun c member => List.eq_of_mem_replicate member ▸ by decide⟩)

set_option maxRecDepth 1000 in
/-- 5·10¹⁹ is above `2 ^ 64`, and its remainder is returned. -/
theorem overflow_unseen : strtoull (five 19) 10 = (13106511852580896768, 20) ∧ ¬ (fiveNumeral 19).Correct := by
  have value : strtoull (five 19) 10 = (13106511852580896768, 20) := by decide
  refine ⟨value, fun correct => ?_⟩
  exact absurd (value.symm.trans correct.2) (by decide)

theorem overflow_seen : (fiveNumeral 20).Correct := by
  refine ((correct_iff (five 20) (.inr (by decide))).2 (fiveNumeral 20)).mpr ⟨.inr (by decide), .inr (.inr ?_)⟩
  exact ⟨five 19, zero, [], rfl, .inl (by decide)⟩

end Goken.Proofs.Strtoll
