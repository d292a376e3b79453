import Goken.Proofs.Mul5Hints
import Mathlib.Tactic.IntervalCases

/-! Multiplication by constants in the arm back end over whole runs: the hints of
the searches, and the table that calls for any constants leave behind. -/

namespace Goken.Proofs.Mul5Run
open Goken.Mul5 Lib.Steps Goken.Proofs.Mul5 Mul5Code

/-- The multiples of a power of two that can be had without the scratch register. -/
def few : List (BitVec 32) := [0, 1, -1, 2, -2]

def Plain (r : BitVec 32) : Prop := ∃ c ∈ few, ∃ m : Nat, r = c <<< m

theorem few_power : (few.all fun c => (List.range 32).all fun m =>
    (c <<< m).toInt ≤ 0 || (List.range 31).any fun n => (c <<< m).toInt = 2 ^ n) = true := by
  decide

theorem plain_power {r : BitVec 32} {v : Int} (plain : Plain r) (value : r.toInt = v) (positive : 0 < v) : ∃ n < 31, v = 2 ^ n := by
  subst value
  obtain ⟨c, member, m, rfl⟩ := plain
  by_cases small : m < 32
  · have powers := List.all_eq_true.mp (List.all_eq_true.mp few_power c member) m (List.mem_range.mpr small)
    simp only [Bool.or_eq_true, decide_eq_true_eq, List.any_eq_true, List.mem_range] at powers
    exact powers.resolve_left (by omega)
  · rw [BitVec.shiftLeft_eq_zero (by omega)] at positive
    cases positive

/-- The registers after an addition or subtraction without the scratch register. -/
def pairs : List (BitVec 32 × BitVec 32) := [(1, 0), (-1, 0), (1, 1), (1, -1)]

def Thin (r0 r1 : BitVec 32) : Prop := ∃ pair ∈ pairs, ∃ m : Nat, r0 = pair.1 <<< m ∧ r1 = pair.2 <<< m

theorem add_shift (a b : BitVec 32) (m : Nat) : a <<< m + b <<< m = (a + b) <<< m := by
  simp only [BitVec.shiftLeft_eq_mul_twoPow, BitVec.add_mul]

theorem sub_shift (a b : BitVec 32) (m : Nat) : a <<< m - b <<< m = (a - b) <<< m := by
  simp only [BitVec.shiftLeft_eq_mul_twoPow, sub_mul]

theorem thin_operands {m i : Nat} {s : Int} {a b : BitVec 32} (addsub : s = plus ∨ s = minus)
    (tried : (i, a, b) ∈ operands s ((1 : BitVec 32) <<< m) 0) : Thin a b := by
  have zero : (0 : BitVec 32) = (0 : BitVec 32) <<< m := (BitVec.zero_shiftLeft m).symm
  rw [zero] at tried
  obtain ⟨x, place, value⟩ := operands_value tried
  have signs : x = (1 : BitVec 32) <<< m ∨ x = (-1 : BitVec 32) <<< m := by
    rcases value with ⟨_, rfl⟩ | ⟨_, rfl | rfl⟩ | ⟨⟨low, _⟩, _⟩
    · exact .inl (add_shift 1 0 m)
    · exact .inl (sub_shift 1 0 m)
    · exact .inr (sub_shift 0 1 m)
    · rcases addsub with rfl | rfl
      · exact absurd low (by decide)
      · exact absurd low (by decide)
  rcases place with ⟨rfl, rfl⟩ | ⟨rfl, rfl⟩
  · rcases signs with rfl | rfl
    · exact ⟨(1, 0), by decide, m, rfl, rfl⟩
    · exact ⟨(-1, 0), by decide, m, rfl, rfl⟩
  · rcases signs with rfl | rfl
    · exact ⟨(1, 1), by decide, m, rfl, rfl⟩
    · exact ⟨(1, -1), by decide, m, rfl, rfl⟩

theorem pairs_few : ∀ pair ∈ pairs, pair.1 ∈ few ∧ pair.2 ∈ few ∧ pair.1 + pair.2 ∈ few ∧ pair.1 - pair.2 ∈ few ∧
    pair.2 - pair.1 ∈ few := by
  have all : pairs.all (fun pair => decide (pair.1 ∈ few ∧ pair.2 ∈ few ∧ pair.1 + pair.2 ∈ few ∧ pair.1 - pair.2 ∈ few ∧
      pair.2 - pair.1 ∈ few)) = true := by decide
  exact fun pair member => of_decide_eq_true (List.all_eq_true.mp all pair member)

theorem plain_operands {r0 r1 a b : BitVec 32} {i : Nat} {c : Int} (thin : Thin r0 r1) (tried : (i, a, b) ∈ operands c r0 r1) : Plain a := by
  obtain ⟨pair, member, m, rfl, rfl⟩ := thin
  obtain ⟨first, second, sum, difference, opposite⟩ := pairs_few pair member
  obtain ⟨x, place, value⟩ := operands_value tried
  have new : Plain x := by
    rcases value with ⟨_, rfl⟩ | ⟨_, rfl | rfl⟩ | ⟨_, rfl | rfl⟩
    · exact ⟨_, sum, m, add_shift _ _ m⟩
    · exact ⟨_, difference, m, sub_shift _ _ m⟩
    · exact ⟨_, opposite, m, sub_shift _ _ m⟩
    · exact ⟨_, first, _, (BitVec.shiftLeft_add _ _ _).symm⟩
    · exact ⟨_, second, _, (BitVec.shiftLeft_add _ _ _).symm⟩
  rcases place with ⟨rfl, rfl⟩ | ⟨rfl, rfl⟩
  · exact new
  · exact ⟨_, first, m, rfl⟩

/-- The rest of a hint from a search: nothing, or an addition or subtraction and at
most one more operation. -/
def Short (hp : List Int) : Prop := ∃ s, (s = plus ∨ s = minus) ∧ (hp = [s] ∨ ∃ c, hp = [s, c])

theorem docode_power {v : Int} {hp : List Int} {m : Nat} {code : List Op} (short : Short hp) (positive : 0 < v)
    (returns : docode v hp ((1 : BitVec 32) <<< m) 0 = some code) : ∃ n < 31, v = 2 ^ n := by
  obtain ⟨s, addsub, shape⟩ := short
  rcases shape with rfl | ⟨c, rfl⟩
  · obtain ⟨i, a, b, rest, tried, inner, rfl⟩ := docode_cons returns
    obtain ⟨pair, member, m, rfl, rfl⟩ := thin_operands addsub tried
    exact plain_power ⟨_, (pairs_few pair member).1, m, rfl⟩ (docode_nil inner).1 positive
  · obtain ⟨i, a, b, rest, tried, inner, rfl⟩ := docode_cons returns
    obtain ⟨j, a', b', rest', tried', inner', rfl⟩ := docode_cons inner
    exact plain_power (plain_operands (thin_operands addsub tried) tried') (docode_nil inner').1 positive

theorem letter_eq {k : Nat} (small : k ≤ 30) : letter k = k + 97 := by
  simp only [letter, Mul8.char, Int.bmod_def]
  split <;> omega

theorem ofInt_power (g : Nat) : BitVec.ofInt 32 (2 ^ g) = BitVec.twoPow 32 g := by
  apply BitVec.eq_of_toNat_eq
  rw [BitVec.toNat_ofInt, BitVec.toNat_twoPow]
  have cast : ((2 : Int) ^ g) % ((2 ^ 32 : Nat) : Int) = ((2 ^ g % 2 ^ 32 : Nat) : Int) := by push_cast; rfl
  rw [cast, Int.toNat_natCast]

/-- A code followed by a shift of the result. -/
theorem computes_shift {v : Int} {code : List Op} {g : Nat} (small : g ≤ 30) (computes : Computes v code) :
    Computes (v * 2 ^ g) (code ++ [⟨letter g, 0⟩]) := by
  intro nod1 nod2 distinct state
  have before := computes nod1 nod2 distinct state
  have count : ((g : Int) + 97 - 97).toNat = g := by omega
  rw [List.flatMap_append, run_append, List.flatMap_singleton, letter_eq small, emitOp_shift _ _ _ (by omega) (by omega), count]
  simp only [run, List.foldl_cons, List.foldl_nil, exec, pick, Nat.zero_testBit, Bool.false_eq_true, ↓reduceIte, Function.update_self] at before ⊢
  rw [before, ← shiftLeft_mul, BitVec.ofInt_mul, ofInt_power, BitVec.shiftLeft_eq_mul_twoPow]

theorem maxima_bounds (v : Int) : (maxima v).1 ≤ 30 ∧ ((maxima v).1 = 30 ∨ v ≤ 2 ^ (maxima v).1) := by
  unfold maxima
  split
  · next k first =>
    have inside := List.mem_of_find?_eq_some first
    have enough := List.find?_some first
    simp only [List.mem_map, List.mem_range] at inside
    exact ⟨by omega, .inr (by simpa using enough)⟩
  · exact ⟨le_refl _, .inl rfl⟩

theorem mem_shifts {i shmax : Nat} : i ∈ shifts shmax ↔ 1 ≤ i ∧ i ≤ shmax := by
  simp only [shifts, List.mem_map, List.mem_range]
  constructor
  · rintro ⟨k, less, rfl⟩
    omega
  · intro bounds
    exact ⟨i - 1, by omega, by omega⟩

theorem gen1_eq (v : Int) (len : Nat) : gen1 v len = if v = 1 then some [] else
    (shifts (maxima v).1).findSome? fun i => (gen2 v (maxima v).1 (maxima v).2 (len - 1) (2 ^ i)).map (letter i :: ·) := rfl

theorem gen1_shape {v : Int} {len : Nat} {hint : List Int} (found : gen1 v len = some hint) :
    v = 1 ∧ hint = [] ∨ ∃ i ≤ 30, 1 ≤ i ∧ ∃ rest, hint = letter i :: rest ∧
      gen2 v (maxima v).1 (maxima v).2 (len - 1) (2 ^ i) = some rest := by
  rw [gen1_eq] at found
  split at found
  · next one =>
    cases found
    exact .inl ⟨one, rfl⟩
  · obtain ⟨i, inside, result⟩ := List.exists_of_findSome?_eq_some found
    obtain ⟨rest, inner, rfl⟩ := Option.map_eq_some_iff.mp result
    rw [mem_shifts] at inside
    have bound := (maxima_bounds v).1
    exact .inr ⟨i, by omega, by omega, rest, rfl, inner⟩

/-- A search that finds nothing in one step: the constant is no power of two. -/
theorem gen1_one {v : Int} (nothing : gen1 v 1 = none) {n : Nat} (small : n < 31) : v ≠ 2 ^ n := by
  rintro rfl
  rw [gen1_eq] at nothing
  split at nothing
  · cases nothing
  · next one =>
    have inside : n ∈ shifts (maxima (2 ^ n)).1 := by
      rw [mem_shifts]
      have positive : n ≠ 0 := by
        rintro rfl
        exact one rfl
      refine ⟨by omega, ?_⟩
      rcases (maxima_bounds (2 ^ n)).2 with last | enough
      · omega
      · exact (pow_le_pow_iff_right₀ (by decide)).mp enough
    have none := List.findSome?_eq_none_iff.mp nothing n inside
    simp [gen2] at none

theorem gen3_one {v : Int} {shmax : Nat} {valmax r0 r1 : Int} {flag : Flag} {hint : List Int}
    (found : gen3 v shmax valmax 1 r0 r1 flag = some hint) : ∃ c, hint = [c] := by
  simp only [gen3, ↓reduceIte] at found
  split at found
  · cases found
  · unfold calcr0 at found
    split at found
    · cases found
      exact ⟨_, rfl⟩
    · split at found
      · cases found
        exact ⟨_, rfl⟩
      · split at found
        · cases found
          exact ⟨_, rfl⟩
        · cases found

theorem gen2_short {v : Int} {shmax len : Nat} {valmax r1 : Int} {hint : List Int} (few : len = 1 ∨ len = 2)
    (found : gen2 v shmax valmax len r1 = some hint) : Short hint := by
  rcases few with rfl | rfl
  · simp only [gen2] at found
    split at found
    · cases found
      exact ⟨plus, .inl rfl, .inl rfl⟩
    · split at found
      · cases found
        exact ⟨minus, .inr rfl, .inl rfl⟩
      · cases found
  · simp only [gen2, Option.orElse_eq_orElse, Option.orElse_eq_or, Option.or_eq_some_iff, Option.map_eq_some_iff] at found
    have short {s : Int} {flag : Flag} {a b : Int} {rest : List Int} (addsub : s = plus ∨ s = minus)
        (inner : gen3 v shmax valmax 1 a b flag = some rest) : Short (s :: rest) := by
      obtain ⟨c, rfl⟩ := gen3_one inner
      exact ⟨s, addsub, .inr ⟨c, rfl⟩⟩
    rcases found with ⟨rest, inner, rfl⟩ | ⟨_, ⟨rest, inner, rfl⟩ | ⟨_, ⟨rest, inner, rfl⟩ | ⟨_, rest, inner, rfl⟩⟩⟩
    · exact short (.inl rfl) inner
    · exact short (.inr rfl) inner
    · exact short (.inl rfl) inner
    · exact short (.inr rfl) inner

/-- A letter that has operands is a shift. -/
theorem letter_shift {i j : Nat} {r0 r1 a b : BitVec 32} (small : i ≤ 30) (tried : (j, a, b) ∈ operands (letter i) r0 r1) :
    isShift (letter i) := by
  rw [letter_eq small] at tried ⊢
  obtain ⟨_, _, ⟨other, _⟩ | ⟨other, _⟩ | ⟨shift, _⟩⟩ := operands_value tried
  · rw [plus] at other
    omega
  · rw [minus] at other
    omega
  · exact shift

/-- A hint of one shift. -/
theorem single_computes {v : Int} {i : Nat} {code : List Op} (small : i ≤ 30) (power : v = 2 ^ i) (positive : 1 ≤ i)
    (returns : docode v [letter i] 1 0 = some code) : Computes v code := by
  obtain ⟨j, a, b, rest, tried, inner, rfl⟩ := docode_cons returns
  have count : (letter i - 97).toNat = i := by
    rw [letter_eq small]
    omega
  obtain ⟨value, rfl⟩ := docode_nil inner
  have more : 1 < v := power ▸ one_lt_pow₀ (by decide) (by omega)
  rw [operands_shift (letter_shift small tried), count] at tried
  simp only [List.mem_cons, Prod.mk.injEq, List.not_mem_nil, or_false] at tried
  rcases tried with ⟨rfl, rfl, rfl⟩ | ⟨rfl, rfl, rfl⟩ | ⟨rfl, rfl, rfl⟩ | ⟨rfl, rfl, rfl⟩
  · have computes := computes_shift small computes_nil
    rw [Int.one_mul, ← power] at computes
    exact computes
  · rw [show (0 : BitVec 32) <<< i = 0 from BitVec.zero_shiftLeft i] at value
    exact absurd value (by simp; omega)
  · exact absurd value (by simp; omega)
  · exact absurd value (by simp; omega)

/-- A hint of two or three operations. -/
theorem short_computes {v : Int} {i : Nat} {hp : List Int} {code : List Op} (positive : 0 < v) (small : i ≤ 30) (notPower : ∀ n < 31, v ≠ 2 ^ n)
    (short : Short hp) (returns : docode v (letter i :: hp) 1 0 = some code) : Computes v code := by
  have misses (m : Nat) : docode v hp ((1 : BitVec 32) <<< m) 0 = none := by
    by_contra some
    obtain ⟨code, found⟩ := Option.ne_none_iff_exists'.mp some
    obtain ⟨n, less, power⟩ := docode_power short positive found
    exact notPower n less power
  obtain ⟨_, _, _, _, tried, _⟩ := docode_cons returns
  exact docode_first (letter_shift small tried) (by omega) (misses _) (.inl (misses 0)) returns

theorem search_computes {v : Int} {code : List Op} (positive : 0 < v)
    (found : search v ((List.range maxmulops).map (· + 1)) = some code) : Computes v code := by
  have finish {g : Nat} {hint : List Int} (long : g = 2 ∨ g = 3) (nothing : gen1 v 1 = none) (generated : gen1 v g = some hint)
      (returns : docode v hint 1 0 = some code) : Computes v code := by
    rcases gen1_shape generated with ⟨one, _⟩ | ⟨i, small, _, rest, rfl, inner⟩
    · exact absurd one (gen1_one nothing (show 0 < 31 by decide))
    · exact short_computes positive small (fun n => gen1_one nothing) (gen2_short (by omega) inner) returns
  have three : (List.range maxmulops).map (· + 1) = [1, 2, 3] := rfl
  rw [three, search, if_neg (by rw [maxmulops]; omega)] at found
  split at found
  · next hint generated =>
    rcases gen1_shape generated with ⟨rfl, rfl⟩ | ⟨i, small, least, rest, rfl, inner⟩
    · cases found
      exact computes_nil
    · have exactly : gen2 v (maxima v).1 (maxima v).2 0 (2 ^ i) = some rest := inner
      simp only [gen2, Option.ite_none_right_eq_some, Option.some.injEq] at exactly
      obtain ⟨power, rfl⟩ := exactly
      exact single_computes small power.symm least found
  · next nothing =>
    rw [search, if_neg (by rw [maxmulops]; omega)] at found
    split at found
    · next generated => exact finish (.inl rfl) nothing generated found
    · rw [search] at found
      split at found
      · cases found
      · split at found
        · next generated => exact finish (.inr rfl) nothing generated found
        · cases found

theorem docode_small {v : Int} {hp : List Int} {r0 r1 : BitVec 32} {code : List Op} (returns : docode v hp r0 r1 = some code) :
    v < 2 ^ 31 := by
  induction hp generalizing r0 r1 code with
  | nil =>
    obtain ⟨rfl, _⟩ := docode_nil returns
    exact BitVec.toInt_lt
  | cons c hp ih =>
    obtain ⟨_, _, _, _, _, inner, _⟩ := docode_cons returns
    exact ih inner

theorem direct_computes {v : Int} {code : List Op} (positive : 0 < v) (direct : Direct v code) : Computes v code := by
  rcases direct with ⟨text, entry, returns⟩ | found
  · exact Mul5Hints.hint_computes entry returns
  · exact search_computes positive found

theorem direct_small {v : Int} {code : List Op} (direct : Direct v code) : v < 2 ^ 31 := by
  have some_small (gs : List Nat) (found : search v gs = some code) : v < 2 ^ 31 := by
    induction gs with
    | nil => cases found
    | cons g gs ih =>
      rw [search] at found
      split at found
      · cases found
      · split at found
        · exact docode_small found
        · exact ih found
  rcases direct with ⟨text, _, returns⟩ | found
  · exact docode_small returns
  · exact some_small _ found

/-- The codes that calls return. For 2^31 the shift of the last operation does not
fit a `char`, and what is left multiplies by 1. -/
def Returned (v : Int) (code : List Op) : Prop :=
  if v = 2 ^ 31 then ∃ before, Computes 1 before ∧ code = before ++ [⟨letter 31, 0⟩] else Computes v code

def Good (cache : Cache) : Prop := ∀ m ∈ cache.multab, m.code = [] ∨ Returned m.val m.code

theorem good_initial : Good Cache.initial := by
  intro m member
  simp only [Cache.initial, Vector.mem_replicate] at member
  exact .inl (by rw [member.2])

theorem good_select {cache : Cache} (good : Good cache) (v : Int) : Good (cache.select v) := by
  intro m member
  have changed : m ∈ cache.multab.set (cache.multabp + 1 : Fin 20) ⟨v, []⟩ := member
  rcases Vector.mem_or_eq_of_mem_set changed with old | rfl
  · exact good m old
  · exact .inl rfl

theorem good_entered {cache : Cache} (good : Good cache) (spot : Fin 20) {v : Int} {result : Option (List Op)}
    (right : ∀ code, result = some code → Returned v code) : Good (entered cache spot v result) := by
  intro m member
  have changed : m ∈ cache.multab.set spot ⟨v, result.getD []⟩ := member
  rcases Vector.mem_or_eq_of_mem_set changed with old | rfl
  · exact good m old
  · cases result with
    | none => exact .inl rfl
    | some code => exact .inr (right code rfl)

/-- An odd factor and a shift. -/
theorem returned_shift {odd v : Int} {g : Nat} {code : List Op} (isOdd : odd % 2 = 1) (positive : 0 < odd) (product : odd * 2 ^ g = v)
    (bound : v < 2 ^ 32) (returned : Returned odd code) : Returned v (code ++ [⟨letter g, 0⟩]) := by
  have computes : Computes odd code := by
    rw [Returned, if_neg (by omega)] at returned
    exact returned
  have counts : g < 32 := by
    by_contra large
    have big : (2 : Int) ^ 32 ≤ 2 ^ g := pow_le_pow_right₀ (by decide) (by omega)
    have more : (2 : Int) ^ g ≤ odd * 2 ^ g := le_mul_of_one_le_left (by omega) (by omega)
    omega
  by_cases last : g = 31
  · subst last
    have one : odd = 1 := by omega
    rw [Returned, if_pos (by rw [← product, one]; rfl)]
    exact ⟨code, one ▸ computes, rfl⟩
  · have other : v ≠ 2 ^ 31 := by
      intro same
      rw [same, show (31 : Nat) = (31 - g) + g by omega, pow_add] at product
      have power : odd = 2 ^ (31 - g) := mul_right_cancel₀ (pow_ne_zero g (by decide)) product
      obtain ⟨k, next⟩ : ∃ k, 31 - g = k + 1 := ⟨30 - g, by omega⟩
      rw [next, pow_succ] at power
      omega
    rw [Returned, if_neg other, ← product]
    exact computes_shift (by omega) computes

theorem mulcon0_good {fuel : Nat} {cache after : Cache} {v : Int} {result : Option (List Op)} (good : Good cache)
    (bound : v.natAbs < 2 ^ 32) (returns : mulcon0 fuel cache v = some (after, result)) :
    Good after ∧ ∀ code, result = some code → Returned v.natAbs code := by
  induction fuel generalizing cache after v result with
  | zero => cases returns
  | succ fuel ih =>
    cases look : cache.look v.natAbs with
    | some m =>
      rw [mulcon0_hit look] at returns
      cases returns
      refine ⟨good, fun code same => ?_⟩
      split at same
      · cases same
      · next nonempty =>
        cases same
        have value : m.val = v.natAbs := by simpa using List.find?_some look
        have member : m ∈ cache.multab := by simpa using List.mem_of_find?_eq_some look
        rw [← value]
        exact (good m member).resolve_left nonempty
    | none =>
      have positive : v ≠ 0 := by
        rintro rfl
        rw [mulcon0_zero look] at returns
        cases returns
      cases mulcon0_miss look returns with
      | @direct code direct =>
        have right : ∀ found, some code = some found → Returned v.natAbs found := by
          rintro _ ⟨⟩
          have small := direct_small direct
          rw [Returned, if_neg (by omega)]
          exact direct_computes (by omega) direct
        exact ⟨good_entered (good_select good _) _ right, right⟩
      | nothing => exact ⟨good_entered (good_select good _) _ (by simp), by simp⟩
      | @shifted odd g middle result isOdd above _ product recur =>
        have less : odd ≤ v.natAbs := by
          rw [← product]
          exact le_mul_of_one_le_right (by omega) (one_le_pow₀ (by decide))
        obtain ⟨goodMiddle, inner⟩ := ih (good_select good _) (by omega) recur
        have right : ∀ code, result.map (· ++ [⟨letter g, 0⟩]) = some code → Returned v.natAbs code := by
          intro code same
          obtain ⟨before, rfl, rfl⟩ := Option.map_eq_some_iff.mp same
          have returned := inner before rfl
          rw [show (odd.natAbs : Int) = odd by omega] at returned
          exact returned_shift isOdd above product (by omega) returned
        exact ⟨good_entered goodMiddle _ right, right⟩

theorem reachable_good {cache : Cache} (reachable : Reachable cache) : Good cache := by
  apply reachable.invariant good_initial
  intro before after action good constant moves
  obtain ⟨⟨after, result⟩, returns, rfl⟩ := Option.map_eq_some_iff.mp moves
  have bound : action.2.natAbs < 2 ^ 32 := by
    obtain ⟨low, high⟩ := constant
    omega
  exact (mulcon0_good good bound returns).1

/-- The instructions multiply what is in `nod1` by the constant, whatever the other
registers contain. -/
def Multiplies (v : Int) (code : List Op) : Prop :=
  ∀ nod1 nod2 nn, nod1 ≠ nod2 → ∀ state, run state (mulcon nod1 nod2 nn v code) nn = BitVec.ofInt 32 v * state nod1

theorem mulcon_result (nod1 nod2 nn : Nat) (v : Int) (code : List Op) (state : Nat → BitVec 32) :
    run state (mulcon nod1 nod2 nn v code) nn = if v < 0 then -run state (code.flatMap (emitOp nod1 nod2)) nod1
      else run state (code.flatMap (emitOp nod1 nod2)) nod1 := by
  rw [mulcon, run_append]
  split
  · simp [run, exec]
  · simp [run, exec]

theorem multiplies_of_computes {v : Int} {code : List Op} (computes : Computes v.natAbs code) : Multiplies v code := by
  intro nod1 nod2 nn distinct state
  rw [mulcon_result, computes nod1 nod2 distinct state]
  split
  · rw [← BitVec.neg_mul, ← BitVec.ofInt_neg, show -(v.natAbs : Int) = v by omega]
  · rw [show (v.natAbs : Int) = v by omega]

theorem emitOp_unknown (nod1 nod2 : Nat) : emitOp nod1 nod2 ⟨letter 31, 0⟩ = [] := rfl

/-- Without its shift the code of 2^31 leaves the operand as it is. -/
theorem not_multiplies {v : Int} (least : v.natAbs = 2 ^ 31) {before : List Op} (computes : Computes 1 before) :
    ¬ Multiplies v (before ++ [⟨letter 31, 0⟩]) := by
  intro multiplies
  have wrong := multiplies 0 1 2 (by decide) (fun _ => 1)
  rw [mulcon_result, List.flatMap_append, List.flatMap_singleton, emitOp_unknown, List.append_nil,
    computes 0 1 (by decide)] at wrong
  rcases Int.natAbs_eq v with positive | negative
  · rw [positive, least] at wrong
    exact absurd wrong (by decide)
  · rw [negative, least] at wrong
    exact absurd wrong (by decide)

/-- In every table that calls leave behind, a code that is returned is right for
every constant but those of absolute value 2^31. -/
theorem mulcon_multiplies_iff {cache : Cache} (reachable : Reachable cache) {v : Int} (constant : Constant v) {fuel : Nat}
    {after : Cache} {code : List Op} (returns : mulcon0 fuel cache v = some (after, some code)) :
    Multiplies v code ↔ v ≠ -2 ^ 31 ∧ v ≠ 2 ^ 31 := by
  obtain ⟨low, high⟩ := constant
  have returned := (mulcon0_good (reachable_good reachable) (by omega) returns).2 code rfl
  by_cases least : v.natAbs = 2 ^ 31
  · rw [Returned, if_pos (by omega)] at returned
    obtain ⟨before, computes, rfl⟩ := returned
    constructor
    · exact fun multiplies => absurd multiplies (not_multiplies least computes)
    · omega
  · rw [Returned, if_neg (by omega)] at returned
    constructor
    · omega
    · exact fun _ => multiplies_of_computes returned

set_option maxRecDepth 1000 in
theorem mulcon_multiplies_seven : Multiplies 7 [⟨100, 2⟩, ⟨45, 2⟩] ↔ (7 : Int) ≠ -2 ^ 31 ∧ (7 : Int) ≠ 2 ^ 31 := by
  have returns : mulcon0 20 Cache.initial 7 =
      some (⟨Cache.initial.multab.set 1 ⟨7, [⟨100, 2⟩, ⟨45, 2⟩]⟩, 1⟩, some [⟨100, 2⟩, ⟨45, 2⟩]) := by decide
  exact mulcon_multiplies_iff .start (by decide) returns

set_option maxRecDepth 1000 in
theorem mulcon0_least : (mulcon0 40 Cache.initial (-2 ^ 31)).any fun result => result.2 = some ([] ++ [⟨letter 31, 0⟩]) := by
  decide

theorem mulcon_not_least : ∃ cache after code fuel, Reachable cache ∧ Constant (-2 ^ 31) ∧
    mulcon0 fuel cache (-2 ^ 31) = some (after, some code) ∧ ¬ Multiplies (-2 ^ 31) code := by
  obtain ⟨⟨after, result⟩, returns, code⟩ := (Option.any_eq_true _ _).mp mulcon0_least
  obtain rfl := of_decide_eq_true code
  exact ⟨Cache.initial, after, _, 40, .start, by decide, returns, not_multiplies (by decide) computes_nil⟩

end Goken.Proofs.Mul5Run
