import Goken.Lib.Bits
import Goken.Rune

/-! The UTF-8 routines against the coding itself. `utf8 v` is the sequence of a
value of up to 21 bits: `runetochar` writes it, `chartorune` reads it back and
accepts nothing else. -/

namespace Goken.Proofs.Rune
open Goken Rune

/-- The shortest sequence of `v`, for `v` below `2 ^ 21`. -/
def utf8 (v : Nat) : List UInt8 :=
  if v < 0x80 then [.ofNat v]
  else if v < 0x800 then [.ofNat (0xC0 + v / 64), .ofNat (0x80 + v % 64)]
  else if v < 0x10000 then [.ofNat (0xE0 + v / 4096), .ofNat (0x80 + v / 64 % 64), .ofNat (0x80 + v % 64)]
  else [.ofNat (0xF0 + v / 262144), .ofNat (0x80 + v / 4096 % 64), .ofNat (0x80 + v / 64 % 64), .ofNat (0x80 + v % 64)]

/-! Single bytes. -/

set_option maxRecDepth 1000 in
theorem continues_iff (b : UInt8) : (b.toNat ^^^ Tx) &&& Testx = 0 ↔ 0x80 ≤ b.toNat ∧ b.toNat < 0xC0 := by
  have every : ∀ n < 256, (n ^^^ Tx) &&& Testx = 0 ↔ 0x80 ≤ n ∧ n < 0xC0 := by decide
  exact every b.toNat b.toNat_lt

set_option maxRecDepth 1000 in
theorem payload {b : UInt8} (low : 0x80 ≤ b.toNat) (high : b.toNat < 0xC0) : b.toNat ^^^ Tx = b.toNat - 0x80 := by
  have every : ∀ n < 0xC0, 0x80 ≤ n → n ^^^ Tx = n - 0x80 := by decide
  exact every b.toNat high low

theorem continuation (v : Nat) : Tx ||| v &&& Maskx = 0x80 + v % 64 := by
  have every : ∀ n < 64, Tx ||| n = 0x80 + n := by decide
  rw [show Maskx = 2 ^ 6 - 1 from rfl, Nat.and_two_pow_sub_one_eq_mod]
  exact every _ (Nat.mod_lt _ (by decide))

theorem lead (mark width : Nat) (free : ∀ n < width, mark ||| n = mark + n) {v k : Nat} (small : v / 2 ^ k < width) :
    mark ||| v >>> k = mark + v / 2 ^ k := by
  rw [Nat.shiftRight_eq_div_pow]
  exact free _ small

theorem join {c x : Nat} (small : x < 64) : c <<< Bitx ||| x = c * 64 + x := by
  rw [Nat.or_comm]
  exact Lib.Bits.or_shiftLeft (n := 6) small c

/-! `chartorune` on the four shapes of sequence. -/

section shapes
variable {a b c d : UInt8} {rest : List UInt8}

/-- A byte `10xxxxxx`. -/
def Continues (b : UInt8) : Prop := 0x80 ≤ b.toNat ∧ b.toNat < 0xC0

instance (b : UInt8) : Decidable (Continues b) := inferInstanceAs (Decidable (_ ∧ _))

theorem chartorune_one (low : a.toNat < 0x80) : chartorune (a :: rest) = give a.toNat 1 := by
  simp [chartorune, byte, show Tx = 0x80 from rfl, low]

theorem chartorune_stray (high : 0x80 ≤ a.toNat) (stray : ¬ Continues b) : chartorune (a :: b :: rest) = give Bad 1 := by
  have odd : (b.toNat ^^^ Tx) &&& Testx ≠ 0 := fun even => stray ((continues_iff b).mp even)
  have notOne : ¬ a.toNat < Tx := by rw [show Tx = 0x80 from rfl]; omega
  simp [chartorune, byte, notOne, odd]

theorem chartorune_low (high : 0x80 ≤ a.toNat) (low : a.toNat < 0xC0) (second : Continues b) :
    chartorune (a :: b :: rest) = give Bad 1 := by
  have even := (continues_iff b).mpr second
  have notOne : ¬ a.toNat < Tx := by rw [show Tx = 0x80 from rfl]; omega
  have two : a.toNat < T3 := by rw [show T3 = 0xE0 from rfl]; omega
  have notTwo : a.toNat < T2 := low
  simp [chartorune, byte, notOne, even, two, notTwo]

theorem chartorune_two (high : 0xC0 ≤ a.toNat) (low : a.toNat < 0xE0) (second : Continues b) :
    chartorune (a :: b :: rest) =
      if (a.toNat - 0xC0) * 64 + (b.toNat - 0x80) ≤ 0x7F then give Bad 1
      else give ((a.toNat - 0xC0) * 64 + (b.toNat - 0x80)) 2 := by
  have even := (continues_iff b).mpr second
  have notOne : ¬ a.toNat < Tx := by rw [show Tx = 0x80 from rfl]; omega
  have two : a.toNat < T3 := low
  have notLow : ¬ a.toNat < T2 := by rw [show T2 = 0xC0 from rfl]; omega
  have value : (a.toNat <<< Bitx ||| b.toNat ^^^ Tx) &&& Rune2 = (a.toNat - 0xC0) * 64 + (b.toNat - 0x80) := by
    rw [payload second.1 second.2, join (by have := second.2; omega), show Rune2 = 2 ^ 11 - 1 from rfl,
      Nat.and_two_pow_sub_one_eq_mod]
    have := second.2
    omega
  simp only [chartorune, byte, List.getElem?_cons_zero, List.getElem?_cons_succ, Option.map_some, Option.bind_eq_bind,
    Option.bind_some, if_neg notOne, even, ne_eq, not_true_eq_false, if_false, if_pos two, if_neg notLow, value]
  rfl

theorem chartorune_cut (high : 0xE0 ≤ a.toNat) (second : Continues b) (stray : ¬ Continues c) :
    chartorune (a :: b :: c :: rest) = give Bad 1 := by
  have even := (continues_iff b).mpr second
  have odd : (c.toNat ^^^ Tx) &&& Testx ≠ 0 := fun even => stray ((continues_iff c).mp even)
  have notOne : ¬ a.toNat < Tx := by rw [show Tx = 0x80 from rfl]; omega
  have notTwo : ¬ a.toNat < T3 := by rw [show T3 = 0xE0 from rfl]; omega
  simp [chartorune, byte, notOne, even, notTwo, odd]

theorem chartorune_three (high : 0xE0 ≤ a.toNat) (low : a.toNat < 0xF0) (second : Continues b) (third : Continues c) :
    chartorune (a :: b :: c :: rest) =
      if ((a.toNat - 0xE0) * 64 + (b.toNat - 0x80)) * 64 + (c.toNat - 0x80) ≤ 0x7FF then give Bad 1
      else give (((a.toNat - 0xE0) * 64 + (b.toNat - 0x80)) * 64 + (c.toNat - 0x80)) 3 := by
  have even := (continues_iff b).mpr second
  have even' := (continues_iff c).mpr third
  have notOne : ¬ a.toNat < Tx := by rw [show Tx = 0x80 from rfl]; omega
  have notTwo : ¬ a.toNat < T3 := by rw [show T3 = 0xE0 from rfl]; omega
  have three : a.toNat < T4 := low
  obtain ⟨secondLow, secondHigh⟩ := second
  obtain ⟨thirdLow, thirdHigh⟩ := third
  have value : ((a.toNat <<< Bitx ||| b.toNat ^^^ Tx) <<< Bitx ||| c.toNat ^^^ Tx) &&& Rune3 =
      ((a.toNat - 0xE0) * 64 + (b.toNat - 0x80)) * 64 + (c.toNat - 0x80) := by
    rw [payload secondLow secondHigh, payload thirdLow thirdHigh, join (by omega), join (by omega),
      show Rune3 = 2 ^ 16 - 1 from rfl, Nat.and_two_pow_sub_one_eq_mod]
    omega
  simp only [chartorune, byte, List.getElem?_cons_zero, List.getElem?_cons_succ, Option.map_some, Option.bind_eq_bind,
    Option.bind_some, if_neg notOne, even, even', ne_eq, not_true_eq_false, if_false, if_neg notTwo, if_pos three, value]
  rfl

theorem chartorune_cut' (high : 0xF0 ≤ a.toNat) (second : Continues b) (third : Continues c) (stray : ¬ Continues d) :
    chartorune (a :: b :: c :: d :: rest) = give Bad 1 := by
  have even := (continues_iff b).mpr second
  have even' := (continues_iff c).mpr third
  have odd : (d.toNat ^^^ Tx) &&& Testx ≠ 0 := fun even => stray ((continues_iff d).mp even)
  have notOne : ¬ a.toNat < Tx := by rw [show Tx = 0x80 from rfl]; omega
  have notTwo : ¬ a.toNat < T3 := by rw [show T3 = 0xE0 from rfl]; omega
  have notThree : ¬ a.toNat < T4 := by rw [show T4 = 0xF0 from rfl]; omega
  simp [chartorune, byte, notOne, even, even', notTwo, notThree, odd]

theorem chartorune_four (high : 0xF0 ≤ a.toNat) (second : Continues b) (third : Continues c) (fourth : Continues d) :
    chartorune (a :: b :: c :: d :: rest) =
      if a.toNat < 0xF8 then
        if (((a.toNat - 0xF0) * 64 + (b.toNat - 0x80)) * 64 + (c.toNat - 0x80)) * 64 + (d.toNat - 0x80) ≤ 0xFFFF
        then give Bad 1
        else give ((((a.toNat - 0xF0) * 64 + (b.toNat - 0x80)) * 64 + (c.toNat - 0x80)) * 64 + (d.toNat - 0x80)) 4
      else give Bad 1 := by
  have even := (continues_iff b).mpr second
  have even' := (continues_iff c).mpr third
  have even'' := (continues_iff d).mpr fourth
  have notOne : ¬ a.toNat < Tx := by rw [show Tx = 0x80 from rfl]; omega
  have notTwo : ¬ a.toNat < T3 := by rw [show T3 = 0xE0 from rfl]; omega
  have notThree : ¬ a.toNat < T4 := by rw [show T4 = 0xF0 from rfl]; omega
  simp only [chartorune, byte, List.getElem?_cons_zero, List.getElem?_cons_succ, Option.map_some, Option.bind_eq_bind,
    Option.bind_some, if_neg notOne, even, even', even'', ne_eq, not_true_eq_false, if_false, if_neg notTwo,
    if_neg notThree]
  by_cases four : a.toNat < T5
  · obtain ⟨secondLow, secondHigh⟩ := second
    obtain ⟨thirdLow, thirdHigh⟩ := third
    obtain ⟨fourthLow, fourthHigh⟩ := fourth
    have fits : a.toNat < 0xF8 := four
    have value : (((a.toNat <<< Bitx ||| b.toNat ^^^ Tx) <<< Bitx ||| c.toNat ^^^ Tx) <<< Bitx ||| d.toNat ^^^ Tx) &&& Rune4 =
        (((a.toNat - 0xF0) * 64 + (b.toNat - 0x80)) * 64 + (c.toNat - 0x80)) * 64 + (d.toNat - 0x80) := by
      rw [payload secondLow secondHigh, payload thirdLow thirdHigh, payload fourthLow fourthHigh, join (by omega),
        join (by omega), join (by omega), show Rune4 = 2 ^ 21 - 1 from rfl, Nat.and_two_pow_sub_one_eq_mod]
      omega
    rw [if_pos four, if_pos fits, value]
    rfl
  · have tooLong : ¬ a.toNat < 0xF8 := four
    rw [if_neg four, if_neg tooLong]

end shapes

private theorem toNat_ofNat {n : Nat} (small : n < 256) : (UInt8.ofNat n).toNat = n := by
  rw [UInt8.toNat_ofNat', Nat.mod_eq_of_lt small]

private theorem continues_ofNat {n : Nat} (small : n < 64) : Continues (.ofNat (0x80 + n)) := by
  rw [Continues, toNat_ofNat (by omega)]
  omega

/-- Every sequence is read back, whatever stands after it. -/
theorem chartorune_utf8 {v : Nat} (small : v < 2 ^ 21) (rest : List UInt8) :
    chartorune (utf8 v ++ rest) = give v (utf8 v).length := by
  unfold utf8
  split_ifs with one two three
  · rw [List.cons_append, chartorune_one] <;> rw [toNat_ofNat (by omega)]
    · rfl
    · exact one
  · have value : v / 64 * 64 + v % 64 = v := by omega
    rw [List.cons_append, List.cons_append, chartorune_two]
    · simp only [toNat_ofNat (show 0xC0 + v / 64 < 256 by omega), toNat_ofNat (show 0x80 + v % 64 < 256 by omega),
        Nat.add_sub_cancel_left, value]
      exact if_neg (by omega)
    · rw [toNat_ofNat (by omega)]
      omega
    · rw [toNat_ofNat (by omega)]
      omega
    · exact continues_ofNat (by omega)
  · have value : (v / 4096 * 64 + v / 64 % 64) * 64 + v % 64 = v := by omega
    rw [List.cons_append, List.cons_append, List.cons_append, chartorune_three]
    · simp only [toNat_ofNat (show 0xE0 + v / 4096 < 256 by omega), toNat_ofNat (show 0x80 + v / 64 % 64 < 256 by omega),
        toNat_ofNat (show 0x80 + v % 64 < 256 by omega), Nat.add_sub_cancel_left, value]
      exact if_neg (by omega)
    · rw [toNat_ofNat (by omega)]
      omega
    · rw [toNat_ofNat (by omega)]
      omega
    · exact continues_ofNat (by omega)
    · exact continues_ofNat (by omega)
  · have value : ((v / 262144 * 64 + v / 4096 % 64) * 64 + v / 64 % 64) * 64 + v % 64 = v := by omega
    rw [List.cons_append, List.cons_append, List.cons_append, List.cons_append, chartorune_four]
    · simp only [toNat_ofNat (show 0xF0 + v / 262144 < 256 by omega), toNat_ofNat (show 0x80 + v / 4096 % 64 < 256 by omega),
        toNat_ofNat (show 0x80 + v / 64 % 64 < 256 by omega), toNat_ofNat (show 0x80 + v % 64 < 256 by omega),
        Nat.add_sub_cancel_left, value]
      rw [if_pos (by omega)]
      exact if_neg (by omega)
    · rw [toNat_ofNat (by omega)]
      omega
    · exact continues_ofNat (by omega)
    · exact continues_ofNat (by omega)
    · exact continues_ofNat (by omega)

/-- What `chartorune` may read: a string that ends, or `UTFmax` bytes. -/
def Readable (str : List UInt8) : Prop := 0 ∈ str ∨ UTFmax ≤ str.length

private theorem Continues.nonzero {b : UInt8} (continues : Continues b) : b ≠ 0 := by
  rintro rfl
  exact absurd continues (by decide)

private theorem nonzero_of_high {a : UInt8} (high : 0x80 ≤ a.toNat) : a ≠ 0 := by
  rintro rfl
  exact absurd high (by decide)

/-- There is another byte as long as no byte so far was the last one. -/
theorem Readable.next (before : List UInt8) {rest : List UInt8} (readable : Readable (before ++ rest)) (nonzero : ∀ b ∈ before, b ≠ 0)
    (short : before.length < UTFmax) : ∃ b rest', rest = b :: rest' := by
  cases rest with
  | cons b rest' => exact ⟨b, rest', rfl⟩
  | nil =>
    rw [List.append_nil] at readable
    obtain zero | long := readable
    · exact absurd rfl (nonzero 0 zero)
    · omega

private theorem ofNat_eq {n : Nat} {b : UInt8} (same : n = b.toNat) : UInt8.ofNat n = b := by
  rw [same, UInt8.ofNat_toNat]

/-- `chartorune` accepts nothing but sequences. -/
theorem chartorune_cases {s : List UInt8} (readable : Readable s) :
    chartorune s = give Bad 1 ∨ ∃ v rest, v < 2 ^ 21 ∧ s = utf8 v ++ rest := by
  obtain ⟨a, s, rfl⟩ := Readable.next [] readable (by simp) (by simp [UTFmax])
  by_cases one : a.toNat < 0x80
  · refine .inr ⟨a.toNat, s, by omega, ?_⟩
    rw [utf8, if_pos one, UInt8.ofNat_toNat, List.singleton_append]
  have nonzero := nonzero_of_high (Nat.le_of_not_lt one)
  obtain ⟨b, s, rfl⟩ := Readable.next [a] readable (by simpa using nonzero) (by simp [UTFmax])
  by_cases second : Continues b
  swap
  · exact .inl (chartorune_stray (Nat.le_of_not_lt one) second)
  by_cases low : a.toNat < 0xC0
  · exact .inl (chartorune_low (Nat.le_of_not_lt one) low second)
  obtain ⟨secondLow, secondHigh⟩ := id second
  by_cases two : a.toNat < 0xE0
  · rw [chartorune_two (Nat.le_of_not_lt low) two second]
    by_cases overlong : (a.toNat - 0xC0) * 64 + (b.toNat - 0x80) ≤ 0x7F
    · exact .inl (if_pos overlong)
    · refine .inr ⟨(a.toNat - 0xC0) * 64 + (b.toNat - 0x80), s, by omega, ?_⟩
      rw [utf8, if_neg (by omega), if_pos (by omega), ofNat_eq (b := a) (by omega), ofNat_eq (b := b) (by omega)]
      rfl
  have nonzero' := second.nonzero
  obtain ⟨c, s, rfl⟩ := Readable.next [a, b] readable (by simp [nonzero, nonzero']) (by simp [UTFmax])
  by_cases third : Continues c
  swap
  · exact .inl (chartorune_cut (Nat.le_of_not_lt two) second third)
  obtain ⟨thirdLow, thirdHigh⟩ := id third
  by_cases three : a.toNat < 0xF0
  · rw [chartorune_three (Nat.le_of_not_lt two) three second third]
    by_cases overlong : ((a.toNat - 0xE0) * 64 + (b.toNat - 0x80)) * 64 + (c.toNat - 0x80) ≤ 0x7FF
    · exact .inl (if_pos overlong)
    · refine .inr ⟨((a.toNat - 0xE0) * 64 + (b.toNat - 0x80)) * 64 + (c.toNat - 0x80), s, by omega, ?_⟩
      rw [utf8, if_neg (by omega), if_neg (by omega), if_pos (by omega), ofNat_eq (b := a) (by omega),
        ofNat_eq (b := b) (by omega), ofNat_eq (b := c) (by omega)]
      rfl
  have nonzero'' := third.nonzero
  obtain ⟨d, s, rfl⟩ := Readable.next [a, b, c] readable (by simp [nonzero, nonzero', nonzero'']) (by simp [UTFmax])
  by_cases fourth : Continues d
  swap
  · exact .inl (chartorune_cut' (Nat.le_of_not_lt three) second third fourth)
  obtain ⟨fourthLow, fourthHigh⟩ := id fourth
  rw [chartorune_four (Nat.le_of_not_lt three) second third fourth]
  by_cases four : a.toNat < 0xF8
  swap
  · exact .inl (if_neg four)
  rw [if_pos four]
  by_cases overlong : (((a.toNat - 0xF0) * 64 + (b.toNat - 0x80)) * 64 + (c.toNat - 0x80)) * 64 + (d.toNat - 0x80) ≤ 0xFFFF
  · exact .inl (if_pos overlong)
  · refine .inr ⟨(((a.toNat - 0xF0) * 64 + (b.toNat - 0x80)) * 64 + (c.toNat - 0x80)) * 64 + (d.toNat - 0x80), s,
      by omega, ?_⟩
    rw [utf8, if_neg (by omega), if_neg (by omega), if_neg (by omega), ofNat_eq (b := a) (by omega),
      ofNat_eq (b := b) (by omega), ofNat_eq (b := c) (by omega), ofNat_eq (b := d) (by omega)]
    rfl

/-! The encoder. -/

private theorem lead_two {v : Nat} (small : v < 0x800) : T2 ||| v >>> (1 * Bitx) = 0xC0 + v / 64 :=
  lead T2 32 (by decide) (k := 6) (by omega)

private theorem lead_three {v : Nat} (small : v < 0x10000) : T3 ||| v >>> (2 * Bitx) = 0xE0 + v / 4096 :=
  lead T3 16 (by decide) (k := 12) (by omega)

private theorem lead_four {v : Nat} (small : v < 2 ^ 21) : T4 ||| v >>> (3 * Bitx) = 0xF0 + v / 262144 :=
  lead T4 8 (by decide) (k := 18) (by omega)

/-- `runetochar` writes the rune's sequence, or the error rune's when it is out of range. -/
theorem runetochar_eq (r : Rune) : runetochar r = utf8 (if r.toNat ≤ Runemax then r.toNat else Runeerror) := by
  unfold runetochar
  by_cases one : r.toNat ≤ Rune1
  · have small : r.toNat < 0x80 := Nat.lt_succ_of_le one
    have valid : r.toNat ≤ Runemax := by rw [show Runemax = 0x10FFFF from rfl]; omega
    rw [if_pos valid, utf8, if_pos small]
    exact if_pos one
  by_cases two : r.toNat ≤ Rune2
  · have large : ¬ r.toNat < 0x80 := fun small => one (Nat.le_of_lt_succ small)
    have small : r.toNat < 0x800 := Nat.lt_succ_of_le two
    have valid : r.toNat ≤ Runemax := by rw [show Runemax = 0x10FFFF from rfl]; omega
    rw [if_pos valid, utf8, if_neg large, if_pos small]
    simp only [if_neg one, if_pos two, lead_two small, continuation]
  simp only [if_neg one, if_neg two]
  have chosen : (if r.toNat > Runemax then Runeerror else r.toNat) = if r.toNat ≤ Runemax then r.toNat else Runeerror := by
    by_cases valid : r.toNat ≤ Runemax
    · rw [if_pos valid, if_neg (Nat.not_lt.mpr valid)]
    · rw [if_neg valid, if_pos (Nat.lt_of_not_le valid)]
  have large : 0x800 ≤ if r.toNat ≤ Runemax then r.toNat else Runeerror := by
    split_ifs
    · exact Nat.lt_of_not_le two
    · decide
  have bounded : (if r.toNat ≤ Runemax then r.toNat else Runeerror) ≤ 0x10FFFF := by
    split_ifs with valid
    · exact valid
    · decide
  rw [chosen]
  generalize (if r.toNat ≤ Runemax then r.toNat else Runeerror) = c at large bounded
  have notOne : ¬ c < 0x80 := by omega
  have notTwo : ¬ c < 0x800 := by omega
  unfold utf8
  rw [if_neg notOne, if_neg notTwo]
  by_cases three : c ≤ Rune3
  · have small : c < 0x10000 := Nat.lt_succ_of_le three
    rw [if_pos three, if_pos small, lead_three small]
    simp only [continuation, Nat.shiftRight_eq_div_pow]
    rfl
  · have beyond : ¬ c < 0x10000 := fun small => three (Nat.le_of_lt_succ small)
    rw [if_neg three, if_neg beyond, lead_four (show c < 2 ^ 21 by omega)]
    simp only [continuation, Nat.shiftRight_eq_div_pow]
    rfl

/-- The error answer, or a rune whose sequence is the bytes consumed. -/
def Faithful (s : List UInt8) : Prop :=
  ∃ rune n, chartorune s = some (rune, n) ∧
    (rune.toNat = Runeerror ∧ n = 1 ∨ runetochar rune = s.take n ∧ runelen rune = n)

/-- A sequence of four bytes for a value above `Runemax`. -/
def Overlarge : List UInt8 → Prop
  | a :: b :: c :: d :: _ =>
    (a.toNat = 0xF4 ∧ 0x90 ≤ b.toNat ∨ 0xF5 ≤ a.toNat ∧ a.toNat ≤ 0xF7) ∧ Continues b ∧ Continues c ∧ Continues d
  | _ => False

private theorem toNat_rune {v : Nat} (small : v < 2 ^ 21) : (UInt32.ofNat v).toNat = v := by
  rw [UInt32.toNat_ofNat', Nat.mod_eq_of_lt (by omega)]

theorem runetochar_chartorune {r : Rune} (valid : r.toNat ≤ Runemax) (rest : List UInt8) :
    chartorune (runetochar r ++ rest) = some (r, runelen r) := by
  have small : r.toNat < 2 ^ 21 := Nat.lt_of_le_of_lt valid (by decide)
  rw [runelen, runetochar_eq, if_pos valid, chartorune_utf8 small, give, UInt32.ofNat_toNat]

theorem utf8_overlarge {v : Nat} (beyond : Runemax < v) (small : v < 2 ^ 21) (rest : List UInt8) :
    Overlarge (utf8 v ++ rest) := by
  have large : 0x10FFFF < v := beyond
  have notThree : ¬ v < 0x10000 := by omega
  rw [utf8, if_neg (by omega), if_neg (by omega), if_neg notThree]
  refine ⟨?_, continues_ofNat (by omega), continues_ofNat (by omega), continues_ofNat (by omega)⟩
  rw [toNat_ofNat (by omega), toNat_ofNat (by omega)]
  omega

theorem overlarge_utf8 {s : List UInt8} (large : Overlarge s) :
    ∃ v rest, Runemax < v ∧ v < 2 ^ 21 ∧ s = utf8 v ++ rest := by
  obtain _ | ⟨a, _ | ⟨b, _ | ⟨c, _ | ⟨d, rest⟩⟩⟩⟩ := s
  iterate 4 exact large.elim
  obtain ⟨first, ⟨secondLow, secondHigh⟩, ⟨thirdLow, thirdHigh⟩, ⟨fourthLow, fourthHigh⟩⟩ := large
  refine ⟨(((a.toNat - 0xF0) * 64 + (b.toNat - 0x80)) * 64 + (c.toNat - 0x80)) * 64 + (d.toNat - 0x80), rest, ?_,
    by omega, ?_⟩
  · rw [show Runemax = 0x10FFFF from rfl]
    omega
  · rw [utf8, if_neg (by omega), if_neg (by omega), if_neg (by omega), ofNat_eq (b := a) (by omega),
      ofNat_eq (b := b) (by omega), ofNat_eq (b := c) (by omega), ofNat_eq (b := d) (by omega)]
    rfl

theorem faithful_iff {s : List UInt8} (readable : Readable s) : Faithful s ↔ ¬ Overlarge s := by
  constructor
  · rintro ⟨rune, n, read, answer⟩ large
    obtain ⟨v, rest, beyond, small, rfl⟩ := overlarge_utf8 large
    have large : 0x10FFFF < v := beyond
    have four : (utf8 v).length = 4 := by
      rw [utf8, if_neg (by omega), if_neg (by omega), if_neg (by omega)]
      rfl
    rw [chartorune_utf8 small, give, four] at read
    obtain ⟨rfl, rfl⟩ := Prod.mk.inj (Option.some.inj read)
    obtain ⟨-, one⟩ | ⟨-, length⟩ := answer
    · exact absurd one (by decide)
    · have three : (utf8 Runeerror).length = 3 := by decide
      rw [runelen, runetochar_eq, toNat_rune small, if_neg (by omega), three] at length
      exact absurd length (by decide)
  · intro within
    obtain bad | ⟨v, rest, small, rfl⟩ := chartorune_cases readable
    · exact ⟨UInt32.ofNat Bad, 1, bad, .inl ⟨by decide, rfl⟩⟩
    · have valid : v ≤ Runemax := by
        by_contra beyond
        exact within (utf8_overlarge (Nat.lt_of_not_le beyond) small rest)
      have same : runetochar (UInt32.ofNat v) = utf8 v := by rw [runetochar_eq, toNat_rune small, if_pos valid]
      refine ⟨UInt32.ofNat v, (utf8 v).length, chartorune_utf8 small rest, .inr ⟨?_, ?_⟩⟩
      · rw [same, List.take_left]
      · rw [runelen, same]

/-! The bounded decoder. -/

theorem charntorune_full {s : List UInt8} {n : Int} (full : fullrune s n = some true) :
    charntorune s n = chartorune s := by
  unfold fullrune at full
  by_cases some0 : n > 0
  swap
  · rw [if_neg some0] at full
    cases full
  rw [if_pos some0] at full
  unfold charntorune chartorune
  rw [if_neg (by omega)]
  cases first : byte s 0 with
  | none => rfl
  | some c =>
    simp only [first, Option.bind_eq_bind, Option.bind_some] at full ⊢
    by_cases one : c < Tx
    · rw [if_pos one, if_pos one]
    rw [if_neg one] at full ⊢
    by_cases some1 : n > 1
    swap
    · rw [if_neg some1] at full
      cases full
    rw [if_pos some1] at full
    rw [if_neg (by omega), if_neg one]
    by_cases two : c < T3
    · simp only [if_pos two]
    rw [if_neg two] at full
    by_cases some2 : n > 2
    swap
    · rw [if_neg some2] at full
      cases full
    rw [if_pos some2] at full
    by_cases three : c < T4
    · simp only [if_neg two, if_pos three, if_neg (show ¬ n ≤ 2 by omega)]
    · have some3 : n > 3 := by simpa [three] using full
      simp only [if_neg two, if_neg three, if_neg (show ¬ n ≤ 2 by omega), if_neg (show ¬ n ≤ 3 by omega)]

private theorem charntorune_congr {s t : List UInt8} {n : Int} (same : ∀ i : Nat, (i : Int) < n → byte s i = byte t i) :
    charntorune s n = charntorune t n := by
  unfold charntorune
  by_cases none0 : n ≤ 0
  · rw [if_pos none0, if_pos none0]
  rw [same 0 (by omega)]
  by_cases none1 : n ≤ 1
  · simp only [if_pos none1]
  rw [same 1 (by omega)]
  by_cases none2 : n ≤ 2
  · simp only [if_pos none2]
  rw [same 2 (by omega)]
  by_cases none3 : n ≤ 3
  · simp only [if_pos none3]
  rw [same 3 (by omega)]

private theorem charntorune_some {s : List UInt8} {n : Int} (enough : n ≤ s.length) : (charntorune s n).isSome := by
  have there : ∀ i : Nat, (i : Int) < n → ∃ c, byte s i = some c := by
    intro i within
    exact ⟨_, by rw [byte, List.getElem?_eq_getElem (by omega)]; rfl⟩
  unfold charntorune
  by_cases none0 : n ≤ 0
  · rw [if_pos none0]
    rfl
  obtain ⟨c, first⟩ := there 0 (by omega)
  rw [if_neg none0, first]
  by_cases none1 : n ≤ 1
  · simp only [if_pos none1, Option.bind_eq_bind, Option.bind_some]
    split_ifs <;> rfl
  obtain ⟨c1, second⟩ := there 1 (by omega)
  rw [second]
  by_cases none2 : n ≤ 2
  · simp only [if_neg none1, if_pos none2, Option.bind_eq_bind, Option.bind_some]
    split_ifs <;> rfl
  obtain ⟨c2, third⟩ := there 2 (by omega)
  rw [third]
  by_cases none3 : n ≤ 3
  · simp only [if_neg none1, if_neg none2, if_pos none3, Option.bind_eq_bind, Option.bind_some]
    split_ifs <;> rfl
  obtain ⟨c3, fourth⟩ := there 3 (by omega)
  rw [fourth]
  simp only [if_neg none1, if_neg none2, if_neg none3, Option.bind_eq_bind, Option.bind_some]
  split_ifs <;> rfl

/-- The answer depends on the first `n` bytes only, and on no byte behind them being there. -/
theorem charntorune_bounded {s : List UInt8} {n : Int} (enough : n ≤ s.length) :
    ∃ answer, ∀ more, charntorune (s.take n.toNat ++ more) n = some answer := by
  have whole : n ≤ (s.take n.toNat).length := by
    rw [List.length_take]
    omega
  obtain ⟨answer, eq⟩ := Option.isSome_iff_exists.mp (charntorune_some whole)
  refine ⟨answer, fun more => ?_⟩
  rw [← eq]
  apply charntorune_congr
  intro i within
  rw [byte, byte, List.getElem?_append_left (by omega)]

/-! Counting. -/

/-- What the loop of `runenlen` adds for one rune. -/
def cost (r : Rune) : Nat :=
  if int32 r.toNat ≤ Rune1 then 1 else if int32 r.toNat ≤ Rune2 then 2 else if int32 r.toNat ≤ Rune3 then 3 else 4

private theorem int32_add (a b : Int) : int32 (int32 a + b) = int32 (a + b) := by
  simp [int32]

theorem countBytes_eq (l : List Rune) {nb : Int} (wrapped : int32 nb = nb) :
    countBytes l nb = int32 (nb + (l.map cost).sum) := by
  induction l generalizing nb with
  | nil => simp [countBytes, wrapped]
  | cons r rest ih =>
    have step : countBytes (r :: rest) nb = countBytes rest (int32 (nb + cost r)) := by
      unfold cost
      rw [countBytes]
      split_ifs <;> rfl
    have again : int32 (int32 (nb + cost r)) = int32 (nb + cost r) := Int.bmod_bmod
    rw [step, ih again, int32_add, List.map_cons, List.sum_cons, Nat.cast_add, Int.add_assoc]

/-- Runes `runenlen` takes to need four bytes although `runetochar` writes the error rune for them. -/
def outOfRange (r : Rune) : Bool := Runemax < r.toNat ∧ r.toNat < 2 ^ 31

/-- Runes that are negative as an `int`. -/
def negative (r : Rune) : Bool := 2 ^ 31 ≤ r.toNat

theorem utf8_length (v : Nat) :
    (utf8 v).length = if v < 0x80 then 1 else if v < 0x800 then 2 else if v < 0x10000 then 3 else 4 := by
  unfold utf8
  split_ifs <;> rfl

/-- All bytes of a rune of several bytes are above the one-byte runes. -/
theorem utf8_high {v : Nat} (high : 0x80 ≤ v) (small : v < 2 ^ 21) : ∀ b ∈ utf8 v, 0x80 ≤ b.toNat := by
  intro b member
  simp only [utf8] at member
  rw [if_neg (by omega)] at member
  split at member
  · simp only [List.mem_cons, List.not_mem_nil, or_false] at member
    rcases member with rfl | rfl <;> simp only [UInt8.toNat_ofNat'] <;> omega
  · split at member
    · simp only [List.mem_cons, List.not_mem_nil, or_false] at member
      rcases member with rfl | rfl | rfl <;> simp only [UInt8.toNat_ofNat'] <;> omega
    · simp only [List.mem_cons, List.not_mem_nil, or_false] at member
      rcases member with rfl | rfl | rfl | rfl <;> simp only [UInt8.toNat_ofNat'] <;> omega

theorem cost_eq (r : Rune) :
    cost r + (if negative r then 2 else 0) = runelen r + (if outOfRange r then 1 else 0) := by
  have bound : r.toNat < 2 ^ 32 := r.toNat_lt
  have error : (utf8 Runeerror).length = 3 := by decide
  rw [runelen, runetochar_eq]
  unfold cost negative outOfRange
  by_cases high : 2 ^ 31 ≤ r.toNat
  · have wraps : int32 r.toNat = r.toNat - 2 ^ 32 := by
      rw [int32_eq_emod]
      omega
    have invalid : ¬ r.toNat ≤ Runemax := by rw [show Runemax = 0x10FFFF from rfl]; omega
    rw [wraps, if_pos (by omega), if_neg invalid, error]
    have inside : ¬ (Runemax < r.toNat ∧ r.toNat < 2 ^ 31) := fun both => Nat.not_lt.mpr high both.2
    simp only [high, inside, decide_true, decide_false, Bool.false_eq_true, if_false, if_true]
  · have plain : int32 r.toNat = r.toNat := by
      rw [int32_eq_emod]
      omega
    rw [plain, show Rune1 = 0x7F from rfl, show Rune2 = 0x7FF from rfl, show Rune3 = 0xFFFF from rfl]
    by_cases valid : r.toNat ≤ Runemax
    · rw [if_pos valid, utf8_length]
      have inRange : ¬ Runemax < r.toNat := Nat.not_lt.mpr valid
      simp only [high, inRange, decide_false, Bool.false_eq_true, if_false, false_and, Nat.add_zero]
      split_ifs <;> omega
    · have beyond : 0x10FFFF < r.toNat := Nat.lt_of_not_le valid
      have out : Runemax < r.toNat ∧ r.toNat < 2 ^ 31 := ⟨beyond, Nat.lt_of_not_le high⟩
      rw [if_neg valid, error, if_neg (by omega), if_neg (by omega), if_neg (by omega)]
      simp only [high, out, decide_true, decide_false, Bool.false_eq_true, if_false, if_true, and_self]

theorem sum_cost (l : List Rune) :
    (l.map cost).sum + 2 * l.countP negative = (l.map runelen).sum + l.countP outOfRange := by
  induction l with
  | nil => rfl
  | cons r rest ih =>
    have one := cost_eq r
    rw [List.map_cons, List.map_cons, List.sum_cons, List.sum_cons, List.countP_cons, List.countP_cons]
    split_ifs at one ⊢ <;> omega

/-- The two ways of being wrong must cancel out, and the count must not overflow. -/
theorem runenlen_iff {l : List Rune} (array : l.length < 2 ^ 31) :
    runenlen l = (l.map runelen).sum ↔
      l.countP outOfRange = 2 * l.countP negative ∧ (l.map runelen).sum < 2 ^ 31 := by
  have total := sum_cost l
  have few := l.countP_le_length (p := outOfRange)
  have few' := l.countP_le_length (p := negative)
  rw [runenlen, countBytes_eq l (by decide), Int.zero_add]
  rw [int32_eq_emod]
  omega

/-- Where encoder, decoders and length functions agree. -/
theorem coding_agrees_iff (r : Rune) (s : List UInt8) (n : Int) (l : List Rune) :
    (r.toNat ≤ Runemax → ∀ rest, chartorune (runetochar r ++ rest) = some (r, runelen r)) ∧
    (Readable s → (Faithful s ↔ ¬ Overlarge s)) ∧
    (fullrune s n = some true → charntorune s n = chartorune s) ∧
    (n ≤ s.length → ∃ answer, ∀ more, charntorune (s.take n.toNat ++ more) n = some answer) ∧
    (l.length < 2 ^ 31 →
      (runenlen l = (l.map runelen).sum ↔
        l.countP outOfRange = 2 * l.countP negative ∧ (l.map runelen).sum < 2 ^ 31)) := by
  refine ⟨?_, ?_, ?_, ?_, ?_⟩
  · exact fun valid rest => runetochar_chartorune valid rest
  · exact fun readable => faithful_iff readable
  · exact fun full => charntorune_full full
  · exact fun enough => charntorune_bounded enough
  · exact fun array => runenlen_iff array

/-- The euro sign, its three bytes, and the two runes of `a€`. -/
theorem euro_agrees :
    chartorune (runetochar 0x20AC ++ [0]) = some (0x20AC, 3) ∧ Faithful [0xE2, 0x82, 0xAC, 0] ∧
    charntorune [0xE2, 0x82, 0xAC, 0] 3 = chartorune [0xE2, 0x82, 0xAC, 0] ∧
    (∃ answer, ∀ more, charntorune ([0xE2, 0x82] ++ more) 2 = some answer) ∧ runenlen [0x61, 0x20AC] = 4 := by
  obtain ⟨encoded, decoded, full, _, counted⟩ := coding_agrees_iff 0x20AC [0xE2, 0x82, 0xAC, 0] 3 [0x61, 0x20AC]
  obtain ⟨_, _, _, bounded, _⟩ := coding_agrees_iff 0x20AC [0xE2, 0x82] 2 []
  refine ⟨encoded (by decide) [0], ?_, full (by decide), bounded (by decide), ?_⟩
  · exact (decoded (.inl (by decide))).mpr (fun large => absurd large.1 (by decide))
  · exact (counted (by decide)).mpr ⟨by decide, by decide⟩

/-- A value above `Runemax` is decoded, encoded as another one, and counted as four bytes instead of three. -/
theorem overlarge_unfaithful :
    chartorune [0xF4, 0x90, 0x80, 0x80, 0] = some (0x110000, 4) ∧ runetochar 0x110000 = [0xEF, 0xBF, 0xBD] ∧
    ¬ Faithful [0xF4, 0x90, 0x80, 0x80, 0] ∧ runenlen [0x110000] ≠ ([0x110000].map runelen).sum := by
  refine ⟨by decide, by decide, ?_, by decide⟩
  rw [faithful_iff (.inl (by decide))]
  exact fun within => within (by unfold Overlarge; decide)

end Goken.Proofs.Rune
