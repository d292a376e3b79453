import Goken.Inflate

/-! The tables that `hufftab` builds. -/

namespace Goken.Proofs.Hufftab
open Goken.Inflate Lib.Bits Lib.Canonical

/-! Memory and machine arithmetic. -/

theorem load_ok {α : Type} {size : Nat} {a : Cells α} {i : Nat} {v : α} (inside : i < size) (found : a i = some v) :
    load size a i = .ok v := by
  simp [load, inside, found]

theorem store_ok {α : Type} {size : Nat} (a : Cells α) {i : Nat} (v : α) (inside : i < size) :
    store size a i v = .ok (Function.update a i (some v)) := by
  simp [store, inside]

theorem shl_ok (x k : Nat) : shl x (k : Int) = .ok (x * 2 ^ k) := by
  simp [shl, Nat.shiftLeft_eq]

theorem shr_ok (x k : Nat) : shr x (k : Int) = .ok (x / 2 ^ k) := by
  simp [shr, Nat.shiftRight_eq_div_pow]

theorem wrap_nat {U x : Nat} (wide : 32 ≤ U) (small : x < 2 ^ 32) : wrap U x = x := by
  have large : 2 ^ 32 ≤ 2 ^ U := Nat.pow_le_pow_right (by decide) wide
  rw [wrap, show ((2 : Int) ^ U) = ((2 ^ U : Nat) : Int) by push_cast; rfl, ← Int.natCast_emod, Int.toNat_natCast,
    Nat.mod_eq_of_lt (by omega)]

theorem wrap_minus (U : Nat) (positive : 0 < U) : wrap U (-1) = 2 ^ U - 1 := by
  have large : 1 < 2 ^ U := Nat.one_lt_two_pow (by omega)
  have : ((-1 : Int) % 2 ^ U) = 2 ^ U - 1 := by
    rw [← Int.add_mul_emod_self_left (-1) (2 ^ U) 1, Int.emod_eq_of_lt]
    · ring
    · rw [show ((2 : Int) ^ U) = ((2 ^ U : Nat) : Int) by push_cast; rfl]
      omega
    · omega
  rw [wrap, this]
  rw [show ((2 : Int) ^ U) = ((2 ^ U : Nat) : Int) by push_cast; rfl]
  omega

theorem wrap_eq_minus {U x : Nat} (wide : 32 ≤ U) (small : x ≤ 2 ^ 17) : wrap U (x - 1 : Int) = wrap U (-1) ↔ x = 0 := by
  constructor
  · intro same
    by_contra positive
    have large : 2 ^ 32 ≤ 2 ^ U := Nat.pow_le_pow_right (by decide) wide
    rw [show (x - 1 : Int) = ((x - 1 : Nat) : Int) by omega, wrap_nat wide (by omega), wrap_minus U (by omega)] at same
    omega
  · intro zero
    simp [zero]

set_option maxRecDepth 1000 in
theorem revtab_eq (i : Fin 256) : revtab i = rev 8 i := by
  revert i
  decide

theorem revcode_eq {c b : Nat} (short : b ≤ 16) (small : c < 2 ^ b) : revcode c b = .ok (rev b c) := by
  obtain ⟨k, sum⟩ := Nat.exists_eq_add_of_le' short
  have shift : ((16 : Int) - b) = (k : Int) := by omega
  have size : c * 2 ^ k < 256 * 256 := by
    calc
      c * 2 ^ k < 2 ^ b * 2 ^ k := Nat.mul_lt_mul_of_pos_right small (Nat.two_pow_pos k)
      _ = 256 * 256 := by rw [← Nat.pow_add, Nat.add_comm, ← sum]
  have high := revtab_eq ⟨c * 2 ^ k / 256, by omega⟩
  have low := revtab_eq ⟨c * 2 ^ k % 256, by omega⟩
  simp only at high low
  have value : rev 16 (c * 2 ^ k) = rev b c := by rw [sum, rev_mul]
  simp only [revcode, shift, shl_ok, bind, Except.bind, pure, Except.pure]
  rw [Nat.shiftRight_eq_div_pow, show c * 2 ^ k &&& 255 = c * 2 ^ k % 256 from Nat.and_two_pow_sub_one_eq_mod _ 8, high, low,
    or_shiftLeft (rev_lt 8 _), ← value, rev_add 8 8, ← rev_mod 8 (c * 2 ^ k)]
  rfl

theorem rev_inj {n x y : Nat} (left : x < 2 ^ n) (right : y < 2 ^ n) (same : rev n x = rev n y) : x = y := by
  rw [← Nat.mod_eq_of_lt left, ← Nat.mod_eq_of_lt right, ← rev_rev n x, ← rev_rev n y, same]

/-! The loops of `hufftab`. -/

private theorem counts_zero (hb : List Nat) (b : Nat) : counts (0 :: hb) b = counts hb b := by
  by_cases zero : b = 0
  · simp [counts, zero]
  · simp [counts, zero, Ne.symm zero]

theorem tally_spec : ∀ (hb : List Nat) (t : Tally), (∀ b ∈ hb, b < MaxHuffBits) → ∃ t', tally hb t = .ok t' ∧
    (∀ b, t'.bitcount b = t.bitcount b + counts hb b) ∧
    (t'.minbits = t.minbits ∨ ∃ b ∈ hb, b ≠ 0 ∧ t'.minbits = b) ∧ t'.minbits ≤ t.minbits ∧
    (t'.maxbits = t.maxbits ∨ ∃ b ∈ hb, b ≠ 0 ∧ t'.maxbits = b) ∧ t.maxbits ≤ t'.maxbits ∧
    ∀ b ∈ hb, b ≠ 0 → t'.minbits ≤ b ∧ b ≤ t'.maxbits := by
  intro hb
  induction hb with
  | nil =>
    intro t _
    exact ⟨t, rfl, by simp [counts], Or.inl rfl, Nat.le_refl _, Or.inl rfl, Int.le_refl _, by simp⟩
  | cons a hb ih =>
    intro t short
    have rest := fun b member => short b (List.mem_cons_of_mem a member)
    by_cases zero : a = 0
    · subst zero
      obtain ⟨t', result, count, least, low, most, high, between⟩ := ih t rest
      refine ⟨t', by simpa [tally] using result, fun b => by rw [count, counts_zero], ?_, low, ?_, high, ?_⟩
      · refine least.imp_right ?_
        rintro ⟨b, member, found⟩
        exact ⟨b, List.mem_cons_of_mem _ member, found⟩
      · refine most.imp_right ?_
        rintro ⟨b, member, found⟩
        exact ⟨b, List.mem_cons_of_mem _ member, found⟩
      · intro b member positive
        exact between b ((List.mem_cons.mp member).resolve_left positive) positive
    · obtain ⟨t', result, count, least, low, most, high, between⟩ := ih ⟨Function.update t.bitcount a (t.bitcount a + 1),
        if a < t.minbits then a else t.minbits, if a > t.maxbits then a else t.maxbits⟩ rest
      simp only at count least low most high
      refine ⟨t', by simpa [tally, zero, short a (by simp)] using result, fun b => ?_, ?_, ?_, ?_, ?_, ?_⟩
      · rw [count]
        by_cases same : b = a
        · subst same
          simp only [Function.update_self, counts, zero, if_false, List.count_cons_self]
          omega
        · simp [Function.update_of_ne same, counts, Ne.symm same]
      · rcases least with same | ⟨b, member, found⟩
        · split at same
          · exact Or.inr ⟨a, by simp, zero, same⟩
          · exact Or.inl same
        · exact Or.inr ⟨b, List.mem_cons_of_mem _ member, found⟩
      · split at low <;> omega
      · rcases most with same | ⟨b, member, found⟩
        · split at same
          · exact Or.inr ⟨a, by simp, zero, same⟩
          · exact Or.inl same
        · exact Or.inr ⟨b, List.mem_cons_of_mem _ member, found⟩
      · split at high <;> omega
      · intro b member positive
        rcases List.mem_cons.mp member with rfl | later
        · refine ⟨?_, ?_⟩
          · split at low <;> omega
          · split at high <;> omega
        · exact between b later positive

/-- What the loop over the lengths has to find at length `b`. -/
structure Ranged (U : Nat) (n : Nat → Nat) (r : Ranges) (b : Nat) : Prop where
  fits : total n b ≤ 2 ^ b
  nc : r.nc b = first n b
  maxcode : r.maxcode b = some (wrap U (total n b - 1))
  last : r.last b = some (wrap U (before n b + (total n b - 1)))

theorem ranges_spec (U : Nat) (n : Nat → Nat) : ∀ (k b code : Nat) (r : Ranges), b + k ≤ MaxHuffBits → code * 2 = first n b →
    (∀ b' < b, Ranged U n r b') →
    ((∃ r', ranges U n k b code (before n b) r = .ok (some r') ∧ ∀ b' < b + k, Ranged U n r' b') ∨
      (ranges U n k b code (before n b) r = .ok none ∧ ∃ b' < b + k, 2 ^ b' < total n b')) := by
  intro k
  induction k with
  | zero => exact fun b code r _ _ done => Or.inl ⟨r, rfl, done⟩
  | succ k ih =>
    intro b code r room start done
    have value : code <<< 1 + n b = total n b := by rw [Nat.shiftLeft_eq, Nat.pow_one, start, total_eq]
    have inside : b < MaxHuffBits := by omega
    by_cases fits : total n b > 1 <<< b
    · refine Or.inr ⟨by simp [ranges, value, fits, pure, Except.pure], b, by omega, ?_⟩
      simpa [Nat.shiftLeft_eq] using fits
    · have next := ih (b + 1) (total n b) ⟨Function.update r.nc b (code <<< 1),
        Function.update r.maxcode b (some (wrap U (total n b - 1))),
        Function.update r.last b (some (wrap U (before n b + (total n b - 1))))⟩ (by omega) (Nat.mul_comm _ _) (by
          intro b' less
          by_cases same : b' = b
          · subst same
            refine ⟨?_, ?_, by simp, by simp⟩
            · simpa [Nat.shiftLeft_eq] using fits
            · simp [Nat.shiftLeft_eq, start]
          · obtain ⟨fits, nc, maxcode, last⟩ := done b' (by omega)
            exact ⟨fits, by simpa [same] using nc, by simpa [same] using maxcode, by simpa [same] using last⟩)
      have unfolded : ranges U n (k + 1) b code (before n b) r = ranges U n k (b + 1) (total n b) (before n (b + 1))
          ⟨Function.update r.nc b (code <<< 1), Function.update r.maxcode b (some (wrap U (total n b - 1))),
            Function.update r.last b (some (wrap U (before n b + (total n b - 1))))⟩ := by
        simp only [ranges, value, fits, store_ok _ _ inside, bind, Except.bind, if_false]
        rfl
      rw [unfolded, show b + (k + 1) = b + 1 + k by omega]
      exact next

theorem stores_spec {fb : Nat} (flatbits : fb ≤ MaxFlatBits) (v : Int) : ∀ (n c : Nat) (flat : Cells Int), c + n ≤ 2 ^ fb →
    ∃ flat', stores fb v n c flat = .ok flat' ∧
      ∀ x < 2 ^ fb, flat' (rev fb x) = if c ≤ x ∧ x < c + n then some v else flat (rev fb x) := by
  intro n
  induction n with
  | zero => exact fun c flat _ => ⟨flat, rfl, fun x _ => by rw [if_neg (by omega)]⟩
  | succ n ih =>
    intro c flat room
    have inside : rev fb c < 1 <<< MaxFlatBits := by
      have large : 2 ^ fb ≤ 2 ^ MaxFlatBits := Nat.pow_le_pow_right (by decide) flatbits
      rw [Nat.shiftLeft_eq, Nat.one_mul]
      exact Nat.lt_of_lt_of_le (rev_lt fb c) large
    obtain ⟨flat', result, found⟩ := ih (c + 1) (Function.update flat (rev fb c) (some v)) (by omega)
    refine ⟨flat', ?_, fun x small => ?_⟩
    · rw [stores, revcode_eq (by simp [MaxFlatBits, LitlenBits] at flatbits; omega) (by omega)]
      simpa [bind, Except.bind, store_ok _ _ inside] using result
    · rw [found x small]
      by_cases same : x = c
      · subst same
        rw [if_neg (by omega), if_pos (by omega), Function.update_self]
      · have other : rev fb x ≠ rev fb c := fun equal => same (rev_inj small (by omega) equal)
        rw [Function.update_of_ne other]
        by_cases between : c + 1 ≤ x ∧ x < c + 1 + n
        · rw [if_pos between, if_pos (by omega)]
        · rw [if_neg between, if_neg (by omega)]

theorem clears_spec : ∀ (n i : Nat) (flat : Cells Int), i + n ≤ 1 <<< MaxFlatBits → ∃ flat', clears n i flat = .ok flat' ∧
    ∀ x, flat' x = if i ≤ x ∧ x < i + n then some (-1) else flat x := by
  intro n
  induction n with
  | zero => exact fun i flat _ => ⟨flat, rfl, fun x => by rw [if_neg (by omega)]⟩
  | succ n ih =>
    intro i flat room
    obtain ⟨flat', result, found⟩ := ih (i + 1) (Function.update flat i (some (-1))) (by omega)
    refine ⟨flat', ?_, fun x => ?_⟩
    · rw [clears]
      simpa [bind, Except.bind, store_ok flat (-1 : Int) (show i < 1 <<< MaxFlatBits by omega)] using result
    · rw [found x]
      by_cases same : x = i
      · subst same
        rw [if_neg (by omega), if_pos (by omega), Function.update_self]
      · rw [Function.update_of_ne same]
        by_cases between : i + 1 ≤ x ∧ x < i + 1 + n
        · rw [if_pos between, if_pos (by omega)]
        · rw [if_neg between, if_neg (by omega)]

/-- The flat table when the lengths above `k` have been entered: a prefix `v`
that no code of at most `k` bits starts has the next length, if there is one. -/
def Prefixed (n : Nat → Nat) (m fb k : Nat) (flat : Cells Int) : Prop :=
  ∀ v < 2 ^ fb, total n k ≤ v * 2 ^ (k - fb) →
    (v * 2 ^ (m - fb) < total n m → ∃ b : Nat, k < b ∧ b ≤ m ∧ flat (rev fb v) = some (b * 256 + 255 : Int) ∧
      0 < total n b ∧ total n (b - 1) ≤ v * 2 ^ (b - 1 - fb)) ∧
    (total n m ≤ v * 2 ^ (m - fb) → flat (rev fb v) = some (-1))

private theorem Prefixed.step {n : Nat → Nat} {m fb k : Nat} {flat flat' : Cells Int} (done : Prefixed n m fb (k + 1) flat)
    (above : fb ≤ k) (below : k + 1 ≤ m) (found : ∀ v < 2 ^ fb, flat' (rev fb v) =
      if first n (k + 1) / 2 ^ (k + 1 - fb) ≤ v ∧ v * 2 ^ (k + 1 - fb) < total n (k + 1)
      then some ((k + 1 : Nat) * 256 + 255 : Int) else flat (rev fb v)) : Prefixed n m fb k flat' := by
  intro v small free
  have double : v * 2 ^ (k + 1 - fb) = 2 * (v * 2 ^ (k - fb)) := by
    rw [Nat.succ_sub above, Nat.pow_succ]
    ring
  rw [found v small]
  by_cases covered : v * 2 ^ (k + 1 - fb) < total n (k + 1)
  · have low : first n (k + 1) / 2 ^ (k + 1 - fb) ≤ v := by
      rw [Nat.div_le_iff_le_mul_add_pred (Nat.two_pow_pos _), first, Nat.mul_comm _ v, double]
      omega
    rw [if_pos ⟨low, covered⟩]
    refine ⟨fun _ => ⟨k + 1, by omega, below, rfl, by omega, free⟩, fun outside => ?_⟩
    have shift := total_shift n below
    have split : 2 ^ (m - fb) = 2 ^ (k + 1 - fb) * 2 ^ (m - (k + 1)) := by
      rw [← Nat.pow_add]
      congr 1
      omega
    have less := Nat.mul_lt_mul_of_pos_right covered (Nat.two_pow_pos (m - (k + 1)))
    rw [split, ← Nat.mul_assoc] at outside
    omega
  · rw [if_neg fun both => covered both.2]
    obtain ⟨inside, outside⟩ := done v small (by omega)
    refine ⟨fun below => ?_, outside⟩
    obtain ⟨b, above', rest⟩ := inside below
    exact ⟨b, by omega, rest⟩

theorem prefixes_spec {U : Nat} (wide : 32 ≤ U) {n : Nat → Nat} {m fb : Nat} {maxcode : Cells Nat} (flatbits : fb ≤ MaxFlatBits)
    (inside : m < MaxHuffBits) (fits : ∀ b ≤ m, total n b ≤ 2 ^ b)
    (table : ∀ b ≤ m, maxcode b = some (wrap U (total n b - 1))) : ∀ (j : Nat) (flat : Cells Int), fb + j ≤ m →
      Prefixed n m fb (fb + j) flat → ∃ flat', prefixes U n maxcode fb j flat = .ok flat' ∧ Prefixed n m fb fb flat' := by
  intro j
  induction j with
  | zero => exact fun flat _ done => ⟨flat, rfl, done⟩
  | succ j ih =>
    intro flat room done
    have loaded : load MaxHuffBits maxcode ((fb + (j + 1) : Nat) : Int) = .ok (wrap U (total n (fb + (j + 1)) - 1)) :=
      load_ok (by omega) (table _ room)
    have small : total n (fb + (j + 1)) ≤ 2 ^ 17 :=
      Nat.le_trans (fits _ room) (Nat.pow_le_pow_right (by decide) (by simp [MaxHuffBits] at inside; omega))
    by_cases zero : total n (fb + (j + 1)) = 0
    · refine ⟨flat, ?_, fun v low _ => ?_⟩
      · have same := (wrap_eq_minus wide small).mpr zero
        simp only [prefixes, loaded, bind, Except.bind, same, if_true]
        rfl
      · obtain ⟨covered, gap⟩ := done v low (by omega)
        refine ⟨fun below => ?_, gap⟩
        obtain ⟨b, above, rest⟩ := covered below
        exact ⟨b, by omega, rest⟩
    · have other := fun same => zero ((wrap_eq_minus wide small).mp same)
      have value : wrap U (total n (fb + (j + 1)) - 1 : Int) = total n (fb + (j + 1)) - 1 := by
        rw [show (total n (fb + (j + 1)) - 1 : Int) = ((total n (fb + (j + 1)) - 1 : Nat) : Int) by omega, wrap_nat wide (by omega)]
      have least : total n (fb + (j + 1)) - 1 + 1 - n (fb + (j + 1)) = first n (fb + (j + 1)) := by
        have := total_eq n (fb + (j + 1))
        omega
      have shift : ((fb + (j + 1) : Nat) : Int) - fb = ((j + 1 : Nat) : Int) := by omega
      have size : 2 ^ (fb + (j + 1)) = 2 ^ fb * 2 ^ (j + 1) := Nat.pow_add _ _ _
      have bound := fits _ room
      have last : (total n (fb + (j + 1)) - 1) / 2 ^ (j + 1) < 2 ^ fb := by
        rw [Nat.div_lt_iff_lt_mul (Nat.two_pow_pos _), ← size]
        omega
      have start : first n (fb + (j + 1)) / 2 ^ (j + 1) ≤ 2 ^ fb := by
        have := first_le n (fb + (j + 1))
        rw [Nat.div_le_iff_le_mul_add_pred (Nat.two_pow_pos _), Nat.mul_comm, ← size]
        omega
      obtain ⟨flat', stored, found⟩ := stores_spec flatbits (((fb + (j + 1) : Nat) : Int) * 256 + 0xff)
        ((total n (fb + (j + 1)) - 1) / 2 ^ (j + 1) + 1 - first n (fb + (j + 1)) / 2 ^ (j + 1))
        (first n (fb + (j + 1)) / 2 ^ (j + 1)) flat (by omega)
      obtain ⟨flat'', result, final⟩ := ih flat' (by omega) (Prefixed.step done (by omega) room (fun v low => by
        rw [found v low, show fb + j + 1 - fb = j + 1 by omega]
        have upper : v ≤ (total n (fb + (j + 1)) - 1) / 2 ^ (j + 1) ↔ v * 2 ^ (j + 1) < total n (fb + (j + 1)) := by
          rw [Nat.le_div_iff_mul_le (Nat.two_pow_pos _)]
          omega
        congr 1
        rw [eq_iff_iff, ← show fb + (j + 1) = fb + j + 1 from rfl, ← upper]
        omega))
      refine ⟨flat'', ?_, final⟩
      rw [value] at other
      simp only [prefixes, loaded, bind, Except.bind, value, if_neg other, least, shift, shr_ok, stored]
      exact result

/-- The place of a symbol in `decode`. -/
def slot (hb : List Nat) (i b : Nat) : Nat := before (counts hb) b + (total (counts hb) b - 1 - codeOf hb i b)

/-- `flat` when the first `k` symbols are in it. -/
def Shown (hb : List Nat) (fb : Nat) (flat₀ : Cells Int) (k : Nat) (flat : Cells Int) : Prop :=
  ∀ v < 2 ^ fb, (∃ i b : Nat, i < k ∧ hb[i]? = some b ∧ b ≠ 0 ∧ b ≤ fb ∧ v / 2 ^ (fb - b) = codeOf hb i b ∧
      flat (rev fb v) = some (i * 256 + b : Int)) ∨
    (∀ i b : Nat, i < k → hb[i]? = some b → b ≠ 0 → b ≤ fb → v / 2 ^ (fb - b) ≠ codeOf hb i b) ∧ flat (rev fb v) = flat₀ (rev fb v)

/-- `decode` when the first `k` symbols are in it. -/
def Listed (hb : List Nat) (minbits k : Nat) (decode : Cells Nat) : Prop :=
  ∀ x, (∃ i b, i < k ∧ hb[i]? = some b ∧ minbits < b ∧ x = slot hb i b ∧ decode x = some i) ∨
    ∀ i b, i < k → hb[i]? = some b → minbits < b → x ≠ slot hb i b

private theorem Shown.step {hb : List Nat} {fb k b : Nat} {flat₀ flat flat' : Cells Int} (shown : Shown hb fb flat₀ k flat)
    (here : hb[k]? = some b) (found : ∀ v < 2 ^ fb, flat' (rev fb v) =
      if b ≠ 0 ∧ b ≤ fb ∧ v / 2 ^ (fb - b) = codeOf hb k b then some (k * 256 + b : Int) else flat (rev fb v)) :
    Shown hb fb flat₀ (k + 1) flat' := by
  intro v small
  rw [found v small]
  by_cases now : b ≠ 0 ∧ b ≤ fb ∧ v / 2 ^ (fb - b) = codeOf hb k b
  · rw [if_pos now]
    exact Or.inl ⟨k, b, by omega, here, now.1, now.2.1, now.2.2, rfl⟩
  · rw [if_neg now]
    rcases shown v small with ⟨i, b', less, rest⟩ | ⟨never, old⟩
    · exact Or.inl ⟨i, b', by omega, rest⟩
    · refine Or.inr ⟨fun i b' less symbol positive short same => ?_, old⟩
      by_cases last : i = k
      · subst last
        cases here.symm.trans symbol
        exact now ⟨positive, short, same⟩
      · exact never i b' (by omega) symbol positive short same

private theorem Listed.step {hb : List Nat} {minbits k b : Nat} {decode decode' : Cells Nat} (listed : Listed hb minbits k decode)
    (here : hb[k]? = some b) (found : ∀ x, decode' x = if minbits < b ∧ x = slot hb k b then some k else decode x) :
    Listed hb minbits (k + 1) decode' := by
  intro x
  rw [found x]
  by_cases now : minbits < b ∧ x = slot hb k b
  · rw [if_pos now]
    exact Or.inl ⟨k, b, by omega, here, now.1, now.2, rfl⟩
  · rw [if_neg now]
    rcases listed x with ⟨i, b', less, rest⟩ | never
    · exact Or.inl ⟨i, b', by omega, rest⟩
    · refine Or.inr fun i b' less symbol long same => ?_
      by_cases last : i = k
      · subst last
        cases here.symm.trans symbol
        exact now ⟨long, same⟩
      · exact never i b' (by omega) symbol long same

theorem slot_lt {hb : List Nat} {i b : Nat} (found : hb[i]? = some b) (positive : b ≠ 0) :
    before (counts hb) b ≤ slot hb i b ∧ slot hb i b < before (counts hb) (b + 1) := by
  obtain ⟨low, high⟩ := codeOf_lt found positive
  have sum := total_eq (counts hb) b
  rw [before]
  simp only [slot]
  omega

/-- No two symbols share a place. -/
theorem slot_inj {hb : List Nat} {i j b b' : Nat} (left : hb[i]? = some b) (right : hb[j]? = some b') (positive : b ≠ 0)
    (positive' : b' ≠ 0) (same : slot hb i b = slot hb j b') : i = j := by
  obtain ⟨low, high⟩ := slot_lt left positive
  obtain ⟨low', high'⟩ := slot_lt right positive'
  rcases Nat.lt_trichotomy b b' with less | rfl | more
  · have := before_mono (counts hb) (show b + 1 ≤ b' by omega)
    omega
  · have code := (codeOf_lt left positive).2
    have code' := (codeOf_lt right positive).2
    refine codeOf_inj left right ?_
    simp only [slot] at same
    omega
  · have := before_mono (counts hb) (show b' + 1 ≤ b by omega)
    omega

section Symbols

variable {U : Nat} (wide : 32 ≤ U) {hb : List Nat} {fb : Nat} {last : Cells Nat}
variable (flatbits : fb ≤ MaxFlatBits) (few : hb.length ≤ MaxLeaf) (lengths : ∀ b ∈ hb, b < MaxHuffBits)
variable (fits : ∀ b ∈ hb, total (counts hb) b ≤ 2 ^ b) (fits' : total (counts hb) fb ≤ 2 ^ fb)
variable (table : ∀ b ∈ hb, last b = some (wrap U (before (counts hb) b + (total (counts hb) b - 1))))

include flatbits fits' in
/-- The entries of one symbol of at most `fb` bits. -/
private theorem symbol_flat {k b : Nat} (here : hb[k]? = some b) (positive : b ≠ 0) (short : b ≤ fb) (flat : Cells Int) :
    (codeOf hb k b + 1) * 2 ^ (fb - b) ≤ 2 ^ fb ∧ ∃ flat', stores fb (k * 256 + b)
      ((codeOf hb k b + 1) * 2 ^ (fb - b) - codeOf hb k b * 2 ^ (fb - b)) (codeOf hb k b * 2 ^ (fb - b)) flat = .ok flat' ∧
      ∀ v < 2 ^ fb, flat' (rev fb v) = if b ≠ 0 ∧ b ≤ fb ∧ v / 2 ^ (fb - b) = codeOf hb k b then some (k * 256 + b : Int)
        else flat (rev fb v) := by
  have below : (codeOf hb k b + 1) * 2 ^ (fb - b) ≤ 2 ^ fb := by
    have code := (codeOf_lt here positive).2
    calc
      (codeOf hb k b + 1) * 2 ^ (fb - b) ≤ total (counts hb) b * 2 ^ (fb - b) := Nat.mul_le_mul_right _ code
      _ ≤ total (counts hb) fb := total_shift _ short
      _ ≤ 2 ^ fb := fits'
  have width : (codeOf hb k b + 1) * 2 ^ (fb - b) = codeOf hb k b * 2 ^ (fb - b) + 2 ^ (fb - b) := by ring
  have room := Nat.two_pow_pos (fb - b)
  obtain ⟨flat', stored, found⟩ := stores_spec flatbits (k * 256 + b)
    ((codeOf hb k b + 1) * 2 ^ (fb - b) - codeOf hb k b * 2 ^ (fb - b)) (codeOf hb k b * 2 ^ (fb - b)) flat (by omega)
  refine ⟨below, flat', stored, fun v small => ?_⟩
  rw [found v small]
  congr 1
  rw [eq_iff_iff, Nat.div_eq_iff room]
  omega

include wide few table in
/-- The place of one symbol. -/
theorem symbol_slot {k b : Nat} (here : hb[k]? = some b) (positive : b ≠ 0) (inside : b < MaxHuffBits)
    (fits : total (counts hb) b ≤ 2 ^ b) :
    ∃ l, load MaxHuffBits last (b : Int) = .ok l ∧ wrap U (l - codeOf hb k b) = slot hb k b ∧ slot hb k b < hb.length := by
  have member : b ∈ hb := List.mem_of_getElem? here
  have code := (codeOf_lt here positive).2
  have size : total (counts hb) b ≤ 2 ^ 17 :=
    Nat.le_trans fits (Nat.pow_le_pow_right (by decide) (by simp [MaxHuffBits] at inside; omega))
  have above := (slot_lt here positive).2
  have count := before_counts hb (b + 1)
  have count' := before_counts hb b
  simp only [MaxLeaf, Nlitlen] at few
  refine ⟨_, load_ok inside (table b member), ?_, by omega⟩
  rw [show (before (counts hb) b + (total (counts hb) b - 1 : Int)) = ((before (counts hb) b + (total (counts hb) b - 1) : Nat) : Int) by
    omega, wrap_nat wide (by omega), show ((before (counts hb) b + (total (counts hb) b - 1) : Nat) - codeOf hb k b : Int) =
      (slot hb k b : Int) by simp only [slot]; omega, wrap_nat wide (by omega)]

include wide flatbits few lengths fits fits' table in
theorem symbols_spec (minbits : Nat) (flat₀ : Cells Int) : ∀ (post pre : List Nat) (nc : Nat → Nat) (flat : Cells Int) (decode : Cells Nat),
    hb = pre ++ post → (∀ b ∈ hb, b ≠ 0 → nc b = first (counts hb) b + pre.count b) → Shown hb fb flat₀ pre.length flat →
    Listed hb minbits pre.length decode → ∃ flat' decode',
      symbols U fb minbits hb.length last post pre.length nc flat decode = .ok (some (flat', decode')) ∧
      Shown hb fb flat₀ hb.length flat' ∧ Listed hb minbits hb.length decode' := by
  intro post
  induction post with
  | nil =>
    intro pre nc flat decode split _ shown listed
    rw [List.append_nil] at split
    rw [split]
    rw [split] at shown listed
    exact ⟨flat, decode, rfl, shown, listed⟩
  | cons b post ih =>
    intro pre nc flat decode split next shown listed
    have here : hb[pre.length]? = some b := by simp [split]
    have member : b ∈ hb := List.mem_of_getElem? here
    have longer : (pre ++ [b]).length = pre.length + 1 := by simp
    by_cases zero : b = 0
    · subst zero
      have step := ih (pre ++ [0]) nc flat decode (by simp [split]) (fun b inside positive => by
          rw [next b inside positive]
          simp [Ne.symm positive]) (by
        rw [longer]
        exact shown.step here fun v _ => by simp) (by
        rw [longer]
        exact listed.step here fun x => by simp)
      rw [longer] at step
      simpa [symbols] using step
    · have code : nc b = codeOf hb pre.length b := by
        rw [next b member zero, codeOf, split, List.take_left]
      have counted : ∀ b' ∈ hb, b' ≠ 0 → Function.update nc b (codeOf hb pre.length b + 1) b' =
          first (counts hb) b' + (pre ++ [b]).count b' := by
        intro b' inside positive
        by_cases same : b' = b
        · subst same
          rw [Function.update_self, ← code, next b' inside zero]
          simp [Nat.add_assoc]
        · rw [Function.update_of_ne same, next b' inside positive]
          simp [Ne.symm same]
      obtain ⟨flat', stored, shown'⟩ : ∃ flat', (if b ≤ fb then stores fb (pre.length * 256 + b)
          ((codeOf hb pre.length b + 1) * 2 ^ (fb - b) - codeOf hb pre.length b * 2 ^ (fb - b))
          (codeOf hb pre.length b * 2 ^ (fb - b)) flat else .ok flat) = .ok flat' ∧ Shown hb fb flat₀ (pre.length + 1) flat' := by
        by_cases short : b ≤ fb
        · obtain ⟨_, flat', stored, found⟩ := symbol_flat flatbits fits' here zero short flat
          exact ⟨flat', by rw [if_pos short, stored], shown.step here found⟩
        · exact ⟨flat, by rw [if_neg short], shown.step here fun v _ => by rw [if_neg fun all => short all.2.1]⟩
      obtain ⟨l, loaded, place, inside⟩ := symbol_slot wide few table here zero (lengths b member) (fits b member)
      have tail := ih (pre ++ [b]) _ flat' (if minbits < b then Function.update decode (slot hb pre.length b) (some pre.length)
        else decode) (by simp [split]) counted (by rwa [longer]) (by
          rw [longer]
          refine listed.step here fun x => ?_
          by_cases long : minbits < b
          · simp [long, Function.update_apply]
          · simp [long])
      rw [longer] at tail
      obtain ⟨flat'', decode'', result, final⟩ := tail
      refine ⟨flat'', decode'', ?_, final⟩
      have behind : (if b > minbits then (load MaxHuffBits last (b : Int)).bind fun l =>
            if wrap U (l - codeOf hb pre.length b) ≥ hb.length then .ok none
            else (store MaxLeaf decode (wrap U (l - codeOf hb pre.length b)) pre.length).bind fun decode =>
              symbols U fb minbits hb.length last post (pre.length + 1) (Function.update nc b (codeOf hb pre.length b + 1)) flat' decode
          else symbols U fb minbits hb.length last post (pre.length + 1) (Function.update nc b (codeOf hb pre.length b + 1))
            flat' decode) = .ok (some (flat'', decode'')) := by
        by_cases long : minbits < b
        · rw [if_pos long] at result
          simp only [gt_iff_lt, if_pos long, loaded, Except.bind, place, ge_iff_le, if_neg (Nat.not_le.mpr inside),
            store_ok decode pre.length (Nat.lt_of_lt_of_le inside few)]
          exact result
        · rw [if_neg long] at result
          simpa only [gt_iff_lt, if_neg long] using result
      simp only [symbols, zero, if_false, code, bind, pure, Except.pure]
      by_cases short : b ≤ fb
      · obtain ⟨below, _⟩ := symbol_flat flatbits fits' here zero short flat
        have shift : (fb - b : Int) = ((fb - b : Nat) : Int) := by omega
        have room : ¬ (codeOf hb pre.length b + 1) * 2 ^ (fb - b) > 1 <<< fb := by
          rw [Nat.shiftLeft_eq, Nat.one_mul]
          omega
        rw [if_pos short] at stored
        simp only [if_pos short, shift, shl_ok, Except.bind, if_neg room, stored]
        exact behind
      · rw [if_neg short] at stored
        cases stored
        simp only [if_neg short, Except.bind]
        exact behind

end Symbols

/-- A table and the code it was built from: `m` is the longest code and `fb` the
number of bits that index `flat`. -/
structure Built (U : Nat) (hb : List Nat) (flatbits : Nat) (h : Huff) : Prop where
  nonempty : longest hb ≠ 0
  fits : ∀ b ≤ longest hb, total (counts hb) b ≤ 2 ^ b
  maxbits : h.maxbits = longest hb
  minbits : 0 < h.minbits ∧ h.minbits ≤ min flatbits (longest hb)
  flatmask : h.flatmask = 2 ^ min flatbits (longest hb) - 1
  maxcode : ∀ b ≤ longest hb, h.maxcode b = some (wrap U (total (counts hb) b - 1))
  last : ∀ b ≤ longest hb, h.last b = some (wrap U (before (counts hb) b + (total (counts hb) b - 1)))
  direct : ∀ v < 2 ^ min flatbits (longest hb), v < total (counts hb) (min flatbits (longest hb)) → ∃ i b : Nat,
    hb[i]? = some b ∧ b ≠ 0 ∧ b ≤ min flatbits (longest hb) ∧ v / 2 ^ (min flatbits (longest hb) - b) = codeOf hb i b ∧
    h.flat (rev (min flatbits (longest hb)) v) = some (i * 256 + b : Int)
  longer : ∀ v < 2 ^ min flatbits (longest hb), total (counts hb) (min flatbits (longest hb)) ≤ v →
    v * 2 ^ (longest hb - min flatbits (longest hb)) < total (counts hb) (longest hb) → ∃ b : Nat,
    min flatbits (longest hb) < b ∧ b ≤ longest hb ∧ h.flat (rev (min flatbits (longest hb)) v) = some (b * 256 + 255 : Int) ∧
    0 < total (counts hb) b ∧ total (counts hb) (b - 1) ≤ v * 2 ^ (b - 1 - min flatbits (longest hb))
  gap : ∀ v < 2 ^ min flatbits (longest hb), total (counts hb) (longest hb) ≤ v * 2 ^ (longest hb - min flatbits (longest hb)) →
    h.flat (rev (min flatbits (longest hb)) v) = some (-1)
  decode : ∀ i b, hb[i]? = some b → h.minbits < b → h.decode (slot hb i b) = some i

private theorem Shown.direct {hb : List Nat} {fb v : Nat} {flat₀ flat : Cells Int} (shown : Shown hb fb flat₀ hb.length flat)
    (small : v < 2 ^ fb) (below : v < total (counts hb) fb) : ∃ i b : Nat, hb[i]? = some b ∧ b ≠ 0 ∧ b ≤ fb ∧
      v / 2 ^ (fb - b) = codeOf hb i b ∧ flat (rev fb v) = some (i * 256 + b : Int) := by
  obtain ⟨b, short, positive, low, high⟩ := exists_shorter below
  obtain ⟨i, symbol, code⟩ := exists_code positive low high
  rcases shown v small with ⟨i, b, _, found⟩ | ⟨never, _⟩
  · exact ⟨i, b, found⟩
  · exact absurd code.symm (never i b (List.getElem?_eq_some_iff.mp symbol).1 symbol positive short)

private theorem Shown.above {hb : List Nat} {fb v : Nat} {flat₀ flat : Cells Int} (shown : Shown hb fb flat₀ hb.length flat)
    (small : v < 2 ^ fb) (above : total (counts hb) fb ≤ v) : flat (rev fb v) = flat₀ (rev fb v) := by
  rcases shown v small with ⟨i, b, _, symbol, positive, short, code, _⟩ | ⟨_, old⟩
  · have less := (codeOf_lt symbol positive).2
    have shift := total_shift (counts hb) short
    rw [← code, Nat.div_lt_iff_lt_mul (Nat.two_pow_pos _)] at less
    omega
  · exact old

private theorem Listed.decode {hb : List Nat} {minbits : Nat} {decode : Cells Nat} (listed : Listed hb minbits hb.length decode)
    {i b : Nat} (symbol : hb[i]? = some b) (long : minbits < b) : decode (slot hb i b) = some i := by
  rcases listed (slot hb i b) with ⟨j, b', _, symbol', long', same, found⟩ | never
  · rw [found, slot_inj symbol symbol' (by omega) (by omega) same]
  · exact absurd rfl (never i b (List.getElem?_eq_some_iff.mp symbol).1 symbol long)

/-- `hufftab` for every list of lengths. -/
theorem hufftab_spec {U : Nat} (wide : 32 ≤ U) {hb : List Nat} {flatbits : Nat} (flat : flatbits ≤ MaxFlatBits)
    (positive : 0 < flatbits) (few : hb.length ≤ MaxLeaf) (lengths : ∀ b ∈ hb, b < MaxHuffBits) :
    (longest hb = 0 ∧ hufftab U hb flatbits = .ok (some ⟨0, 0, 0, .empty, .empty, .empty, .empty⟩)) ∨
    (longest hb ≠ 0 ∧ hufftab U hb flatbits = .ok none ∧ ∃ b ≤ longest hb, 2 ^ b < total (counts hb) b) ∨
    ∃ h, hufftab U hb flatbits = .ok (some h) ∧ Built U hb flatbits h := by
  obtain ⟨t, tallied, count, least, _, most, _, between⟩ := tally_spec hb ⟨fun _ => 0, MaxHuffBits + 1, -1⟩ lengths
  have bitcount : t.bitcount = counts hb := by
    funext b
    rw [count b]
    simp
  simp only at least most
  by_cases empty : longest hb = 0
  · refine Or.inl ⟨empty, ?_⟩
    have nothing : t.maxbits ≤ 0 := by
      rcases most with start | ⟨b, member, positive, _⟩
      · omega
      · have := le_longest member
        omega
    simp only [hufftab, tallied, bind, Except.bind, if_pos nothing]
    rfl
  · have member := longest_mem empty
    have maxbits : t.maxbits = longest hb := by
      have above := (between _ member empty).2
      rcases most with start | ⟨b, member', positive, same⟩
      · omega
      · have := le_longest member'
        omega
    have inside := lengths _ member
    have minbits : 0 < t.minbits := by
      rcases least with start | ⟨b, _, positive, same⟩
      · omega
      · omega
    have range := ranges_spec U (counts hb) (longest hb + 1) 0 0 ⟨fun _ => 0, .empty, .empty⟩ (by omega) rfl
      (fun b' less => absurd less (Nat.not_lt_zero b'))
    simp only [before, Nat.zero_add] at range
    refine Or.inr ?_
    have cut : ∀ a b : Nat, (if a > b then b else a) = min a b := by
      intro a b
      split <;> omega
    rcases range with ⟨r, ranged, found⟩ | ⟨failed, b, less, exceeds⟩
    · right
      have short : min flatbits (longest hb) ≤ MaxFlatBits := by omega
      have total_le := fun b (less : b ≤ longest hb) => (found b (by omega)).fits
      obtain ⟨flat₁, cleared, blank⟩ := clears_spec (1 <<< min flatbits (longest hb)) 0 .empty (by
        simp only [Nat.shiftLeft_eq, Nat.one_mul, Nat.zero_add]
        exact Nat.pow_le_pow_right (by decide) short)
      simp only [Nat.shiftLeft_eq, Nat.one_mul, Nat.zero_add] at cleared blank
      obtain ⟨flat₂, entered, prefixed⟩ := prefixes_spec wide short inside total_le
        (fun b less => (found b (by omega)).maxcode) (longest hb - min flatbits (longest hb)) flat₁ (by omega) (by
          intro v small above
          rw [show min flatbits (longest hb) + (longest hb - min flatbits (longest hb)) = longest hb by omega] at above
          exact ⟨fun below => absurd below (Nat.not_lt.mpr above), fun _ => by
            rw [blank, if_pos ⟨Nat.zero_le _, rev_lt _ _⟩]⟩)
      obtain ⟨flat₃, decode, listed, shown, places⟩ := symbols_spec wide short few lengths
        (fun b member => total_le b (le_longest member)) (total_le _ (Nat.min_le_right _ _))
        (fun b member => (found b (by have := le_longest member; omega)).last)
        (min t.minbits (min flatbits (longest hb))) flat₂ hb [] r.nc flat₂ .empty rfl
        (fun b member _ => by simpa using (found b (by have := le_longest member; omega)).nc)
        (fun v _ => Or.inr ⟨by simp, rfl⟩) (fun x => Or.inr (by simp))
      refine ⟨⟨longest hb, min t.minbits (min flatbits (longest hb)), 2 ^ min flatbits (longest hb) - 1, flat₃, r.maxcode,
        r.last, decode⟩, ?_, empty, total_le, rfl, ⟨?_, Nat.min_le_right _ _⟩, rfl, fun b less => (found b (by omega)).maxcode,
        fun b less => (found b (by omega)).last, fun v small below => shown.direct small below, fun v small above below => ?_,
        fun v small above => ?_, fun i b symbol long => places.decode symbol long⟩
      · simp only [List.length_nil] at listed
        simp only [hufftab, tallied, bind, Except.bind, maxbits, bitcount, Int.toNat_natCast, cut, pure, Except.pure, ranged,
          cleared, entered, listed, Nat.shiftLeft_eq, Nat.one_mul]
        rw [if_neg (by omega)]
      · simp only
        omega
      · simp only
        rw [shown.above small above]
        exact (prefixed v small (by simpa using above)).1 below
      · simp only
        have shift := total_shift (counts hb) (Nat.min_le_right flatbits (longest hb))
        have above' : total (counts hb) (min flatbits (longest hb)) ≤ v :=
          Nat.le_of_mul_le_mul_right (Nat.le_trans shift above) (Nat.two_pow_pos _)
        rw [shown.above small above']
        exact (prefixed v small (by simpa using above')).2 above
    · refine Or.inl ⟨empty, ?_, b, by omega, exceeds⟩
      simp only [hufftab, tallied, bind, Except.bind, maxbits, bitcount, Int.toNat_natCast, pure, Except.pure, failed]
      rw [if_neg (by omega)]

end Goken.Proofs.Hufftab
