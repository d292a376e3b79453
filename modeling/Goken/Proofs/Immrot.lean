import Goken.Immrot

/-! `immrot` on hosts with a `long` of 32 and of 64 bits. -/

namespace Goken.Proofs.Immrot
open Goken.Immrot

/-- Some eight bits rotated to the right by an even amount. -/
def Encodable (x : BitVec 32) : Prop := ∃ imm8 rot : Nat, imm8 < 256 ∧ rot < 16 ∧ x = (BitVec.ofNat 32 imm8).rotateRight (2 * rot)

section Rotations

variable (x : BitVec 32) {r i : Nat}

theorem rotateLeft_bit (small : r ≤ 32) (low : i < 32) : (x.rotateLeft r).getLsbD i = x.getLsbD ((i + 32 - r) % 32) := by
  rw [BitVec.getLsbD_rotateLeft]
  by_cases whole : r = 32
  · subst whole
    simp [low]
    congr 1
    omega
  · rw [Nat.mod_eq_of_lt (by omega : r < 32)]
    by_cases wraps : i < r
    · simp only [wraps, decide_true, cond_true]
      congr 1
      omega
    · simp only [wraps, decide_false, cond_false, low, decide_true, Bool.true_and]
      congr 1
      omega

theorem rotateRight_bit (small : r ≤ 32) (low : i < 32) : (x.rotateRight r).getLsbD i = x.getLsbD ((i + r) % 32) := by
  rw [BitVec.getLsbD_rotateRight]
  by_cases whole : r = 32
  · subst whole
    simp [low]
    congr 1
    omega
  · rw [Nat.mod_eq_of_lt (by omega : r < 32)]
    by_cases wraps : i < 32 - r
    · simp only [wraps, decide_true, cond_true]
      congr 1
      omega
    · simp only [wraps, decide_false, cond_false, low, decide_true, Bool.true_and]
      congr 1
      omega

theorem rotateRight_rotateLeft (small : r ≤ 32) : (x.rotateLeft r).rotateRight r = x := by
  apply BitVec.eq_of_getLsbD_eq
  intro i low
  rw [rotateRight_bit _ small low, rotateLeft_bit _ small (by omega)]
  congr 1
  omega

theorem rotateLeft_rotateRight (small : r ≤ 32) : (x.rotateRight r).rotateLeft r = x := by
  apply BitVec.eq_of_getLsbD_eq
  intro i low
  rw [rotateLeft_bit _ small low, rotateRight_bit _ small (by omega)]
  congr 1
  omega

/-- One round of the loop in 32 bits. -/
theorem round_rotates (small : r ≤ 30) : (x.rotateLeft r) <<< 2 ||| (x.rotateLeft r) >>> 30 = x.rotateLeft (r + 2) := by
  apply BitVec.eq_of_getLsbD_eq
  intro i low
  rw [BitVec.getLsbD_or, BitVec.getLsbD_shiftLeft, BitVec.getLsbD_ushiftRight, rotateLeft_bit _ (by omega) low]
  by_cases wraps : i < 2
  · have high : (i + 32 - (r + 2)) % 32 = ((30 + i) + 32 - r) % 32 := by omega
    rw [rotateLeft_bit _ (by omega) (by omega : 30 + i < 32), high]
    simp [low, wraps]
  · have same : (i + 32 - (r + 2)) % 32 = ((i - 2) + 32 - r) % 32 := by omega
    rw [rotateLeft_bit _ (by omega) (by omega : i - 2 < 32), BitVec.getLsbD_of_ge _ (30 + i) (by omega), same]
    simp [low, wraps]

end Rotations

/-- A byte has no bits above the eighth. -/
theorem high_clear {w : Nat} {v : BitVec w} (small : v.toNat < 256) {i : Nat} (high : 8 ≤ i) : v.getLsbD i = false := by
  apply Nat.testBit_lt_two_pow
  calc v.toNat < 2 ^ 8 := small
    _ ≤ 2 ^ i := Nat.pow_le_pow_right (by decide) high

section Fields

variable {w : Nat} (wide : 32 ≤ w)
include wide

theorem ones_bit {k : Nat} (small : k ≤ 8) (i : Nat) : (BitVec.ofNat w (2 ^ k - 1)).getLsbD i = decide (i < k) := by
  have number : (BitVec.ofNat w (2 ^ k - 1)).toNat = 2 ^ k - 1 := by
    have bound : 2 ^ k ≤ 2 ^ w := Nat.pow_le_pow_right (by decide) (by omega)
    have positive := Nat.two_pow_pos k
    rw [BitVec.toNat_ofNat, Nat.mod_eq_of_lt (by omega)]
  rw [BitVec.getLsbD, number, Nat.testBit_two_pow_sub_one]

/-- The test for eight bits. -/
theorem byte_iff (v : BitVec w) : v &&& ~~~ 0xff = 0 ↔ v.toNat < 256 := by
  have mask : ∀ i < w, (~~~ (0xff : BitVec w)).getLsbD i = decide (8 ≤ i) := by
    intro i low
    have ones : (0xff : BitVec w).getLsbD i = decide (i < 8) := ones_bit wide (by decide : 8 ≤ 8) i
    rw [BitVec.getLsbD_not, ones]
    by_cases high : 8 ≤ i <;> simp [low, high]
    omega
  constructor
  · intro zero
    show v.toNat < 2 ^ 8
    apply Nat.lt_pow_two_of_testBit v.toNat
    intro i high
    by_cases low : i < w
    · have bit : (v &&& ~~~ 0xff).getLsbD i = false := by
        rw [zero]
        exact BitVec.getLsbD_zero
      rw [BitVec.getLsbD_and, mask i low, decide_eq_true high, Bool.and_true] at bit
      exact bit
    · exact BitVec.getLsbD_of_ge v i (by omega)
  · intro small
    apply BitVec.eq_of_getLsbD_eq
    intro i low
    rw [BitVec.getLsbD_and, mask i low]
    by_cases high : 8 ≤ i
    · have clear : v.getLsbD i = false := high_clear small high
      simp [clear]
    · simp [high]

/-- A field as `immrot` puts it together. -/
theorem field_bit {i : Nat} {v : BitVec w} (j : Nat) (low : j < w) :
    ((1 : BitVec w) <<< 25 ||| BitVec.ofNat w i <<< 8 ||| v).getLsbD j =
      (decide (j = 25) || (decide (8 ≤ j) && i.testBit (j - 8)) || v.getLsbD j) := by
  have one : ((1 : BitVec w) <<< 25).getLsbD j = decide (j = 25) := by
    rw [BitVec.getLsbD_shiftLeft]
    have unit : (1 : BitVec w).getLsbD (j - 25) = decide (j - 25 < 1) := ones_bit wide (by decide : 1 ≤ 8) (j - 25)
    rw [unit]
    simp only [low, decide_true, Bool.true_and]
    rw [← decide_not, ← Bool.decide_and]
    congr 1
    rw [eq_iff_iff]
    omega
  rw [BitVec.getLsbD_or, BitVec.getLsbD_or, one, BitVec.getLsbD_shiftLeft, BitVec.getLsbD_ofNat]
  have inner : j - 8 < w := by omega
  by_cases high : 8 ≤ j
  · have outside : ¬ j < 8 := by omega
    simp [low, inner, high, outside]
  · have inside : j < 8 := by omega
    simp [low, high, inside]

theorem decode_field {i : Nat} {v : BitVec w} (rounds : i < 16) (small : v.toNat < 256) :
    (1 : BitVec w) <<< 25 ||| BitVec.ofNat w i <<< 8 ||| v ≠ 0 ∧
      decode ((1 : BitVec w) <<< 25 ||| BitVec.ofNat w i <<< 8 ||| v) = (v.setWidth 32).rotateRight (2 * i) := by
  constructor
  · intro zero
    have bit := congrArg (fun x => x.getLsbD 25) zero
    simp only [field_bit wide 25 (by omega)] at bit
    simp at bit
  · have byte : ((1 : BitVec w) <<< 25 ||| BitVec.ofNat w i <<< 8 ||| v) &&& 0xff = v := by
      apply BitVec.eq_of_getLsbD_eq
      intro j low
      have ones : (0xff : BitVec w).getLsbD j = decide (j < 8) := ones_bit wide (by decide : 8 ≤ 8) j
      rw [BitVec.getLsbD_and, field_bit wide j low, ones]
      by_cases high : 8 ≤ j
      · have clear : v.getLsbD j = false := high_clear small high
        have outside : ¬ j < 8 := by omega
        simp [outside, clear]
      · have inside : j < 8 := by omega
        have other : j ≠ 25 := by omega
        simp [high, inside, other]
    have rotation : (((1 : BitVec w) <<< 25 ||| BitVec.ofNat w i <<< 8 ||| v) >>> 8 &&& 15).toNat = i := by
      have equal : ((1 : BitVec w) <<< 25 ||| BitVec.ofNat w i <<< 8 ||| v) >>> 8 &&& 15 = BitVec.ofNat w i := by
        apply BitVec.eq_of_getLsbD_eq
        intro j low
        have ones : (15 : BitVec w).getLsbD j = decide (j < 4) := ones_bit wide (by decide : 4 ≤ 8) j
        rw [BitVec.getLsbD_and, BitVec.getLsbD_ushiftRight, ones, BitVec.getLsbD_ofNat]
        by_cases inside : j < 4
        · have clear : v.getLsbD (8 + j) = false := high_clear small (by omega)
          have other : 8 + j ≠ 25 := by omega
          have back : 8 + j - 8 = j := by omega
          rw [field_bit wide (8 + j) (by omega), clear, back]
          simp [inside, other, low]
        · have clear : i.testBit j = false := by
            apply Nat.testBit_lt_two_pow
            calc i < 2 ^ 4 := rounds
              _ ≤ 2 ^ j := Nat.pow_le_pow_right (by decide) (by omega)
          simp [inside, clear]
      rw [equal, BitVec.toNat_ofNat, Nat.mod_eq_of_lt]
      calc i < 2 ^ 4 := rounds
        _ ≤ 2 ^ w := Nat.pow_le_pow_right (by decide) (by omega)
    rw [decode, byte, rotation]

end Fields

/-- From round `i` on, in 32 bits. -/
theorem immrotFrom_finds (x : BitVec 32) (rounds i : Nat) (total : i + rounds = 16) :
    (immrotFrom rounds i (x.rotateLeft (2 * i)) ≠ 0 ↔ ∃ j, i ≤ j ∧ j < 16 ∧ (x.rotateLeft (2 * j)).toNat < 256) ∧
      (immrotFrom rounds i (x.rotateLeft (2 * i)) ≠ 0 → decode (immrotFrom rounds i (x.rotateLeft (2 * i))) = x) := by
  induction rounds generalizing i with
  | zero =>
    refine ⟨⟨fun found => absurd rfl found, ?_⟩, fun found => absurd rfl found⟩
    rintro ⟨j, above, below, _⟩
    omega
  | succ rounds ih =>
    rw [immrotFrom]
    split
    · next byte =>
      rw [byte_iff (by decide)] at byte
      obtain ⟨nonzero, decoded⟩ := decode_field (by decide) (by omega : i < 16) byte
      refine ⟨⟨fun _ => ⟨i, by omega, by omega, byte⟩, fun _ => nonzero⟩, fun _ => ?_⟩
      rw [decoded, BitVec.setWidth_eq, rotateRight_rotateLeft _ (by omega)]
    · next byte =>
      rw [byte_iff (by decide)] at byte
      have round := round_rotates x (by omega : 2 * i ≤ 30)
      have next : 2 * i + 2 = 2 * (i + 1) := by omega
      rw [round, next]
      obtain ⟨finds, decodes⟩ := ih (i + 1) (by omega)
      refine ⟨finds.trans ⟨?_, ?_⟩, decodes⟩
      · rintro ⟨j, above, below, found⟩
        exact ⟨j, by omega, below, found⟩
      · rintro ⟨j, above, below, found⟩
        have later : i ≠ j := by
          rintro rfl
          exact byte found
        exact ⟨j, by omega, below, found⟩

theorem encodable_iff (x : BitVec 32) : Encodable x ↔ ∃ j, 0 ≤ j ∧ j < 16 ∧ (x.rotateLeft (2 * j)).toNat < 256 := by
  constructor
  · rintro ⟨imm8, rot, byte, small, rfl⟩
    refine ⟨rot, Nat.zero_le _, small, ?_⟩
    rw [rotateLeft_rotateRight _ (by omega), BitVec.toNat_ofNat]
    omega
  · rintro ⟨j, _, small, byte⟩
    refine ⟨(x.rotateLeft (2 * j)).toNat, j, byte, small, ?_⟩
    rw [BitVec.ofNat_toNat, BitVec.setWidth_eq, rotateRight_rotateLeft _ (by omega)]

/-- In 64 bits nothing comes back to the low end. -/
theorem immrotFrom_misses (rounds i : Nat) (v : BitVec 64) (large : 256 ≤ v.toNat) : immrotFrom rounds i v = 0 := by
  induction rounds generalizing i v with
  | zero => rfl
  | succ rounds ih =>
    rw [immrotFrom, if_neg (by rw [byte_iff (by decide)]; omega)]
    apply ih
    rw [BitVec.toNat_or, BitVec.toNat_shiftLeft, BitVec.toNat_ushiftRight, Nat.shiftLeft_eq, Nat.shiftRight_eq_div_pow]
    by_cases high : v.toNat < 2 ^ 38
    · calc 256 ≤ v.toNat * 2 ^ 2 % 2 ^ 64 := by omega
        _ ≤ _ := Nat.left_le_or
    · calc 256 ≤ v.toNat / 2 ^ 30 := by omega
        _ ≤ _ := Nat.right_le_or

/-- `immrot` finds an encoding exactly for the numbers that have one, and it is one of
the number. -/
structure Right {w : Nat} (v : BitVec w) : Prop where
  complete : immrot v ≠ 0 ↔ Encodable (v.setWidth 32)
  sound : immrot v ≠ 0 → decode (immrot v) = v.setWidth 32

/-- What is emitted for a constant agrees with its class. -/
structure Emits {w : Nat} (v : BitVec w) : Prop where
  plain : aclass v = .C_RCON → ∃ field, operand .C_RCON v = some field ∧ decode field = v.setWidth 32
  complement : aclass v = .C_NCON → ∃ field, operand .C_NCON v = some field ∧ ~~~ decode field = v.setWidth 32

theorem right_short (v : BitVec 32) : Right v := by
  obtain ⟨finds, decodes⟩ := immrotFrom_finds v 16 0 rfl
  have start : v.rotateLeft (2 * 0) = v := by
    apply BitVec.eq_of_getLsbD_eq
    intro i low
    rw [rotateLeft_bit _ (by decide) low]
    congr 1
    omega
  rw [start] at finds decodes
  refine ⟨?_, ?_⟩
  · rw [BitVec.setWidth_eq, encodable_iff]
    exact finds
  · intro found
    rw [BitVec.setWidth_eq]
    exact decodes found

theorem immrot_byte (v : BitVec 64) (byte : v.toNat < 256) : immrot v ≠ 0 ∧ decode (immrot v) = v.setWidth 32 := by
  obtain ⟨nonzero, decoded⟩ := decode_field (by decide) (by decide : 0 < 16) byte
  have first : immrot v = (1 : BitVec 64) <<< 25 ||| BitVec.ofNat 64 0 <<< 8 ||| v := by
    rw [immrot, immrotFrom, if_pos ((byte_iff (by decide) v).mpr byte)]
  rw [first]
  refine ⟨nonzero, decoded.trans ?_⟩
  apply BitVec.eq_of_getLsbD_eq
  intro i low
  rw [rotateRight_bit _ (by decide) low]
  congr 1
  omega

theorem encodable_byte (v : BitVec 64) (byte : v.toNat < 256) : Encodable (v.setWidth 32) := by
  refine ⟨v.toNat, 0, byte, by decide, ?_⟩
  apply BitVec.eq_of_getLsbD_eq
  intro i low
  rw [rotateRight_bit _ (by decide) low, BitVec.getLsbD_setWidth, BitVec.getLsbD_ofNat, Nat.add_zero, Nat.mod_eq_of_lt low]
  rfl

theorem right_long (v : BitVec 64) : Right v ↔ v.toNat < 256 ∨ ¬ Encodable (v.setWidth 32) := by
  by_cases byte : v.toNat < 256
  · obtain ⟨found, decoded⟩ := immrot_byte v byte
    exact iff_of_true ⟨iff_of_true found (encodable_byte v byte), fun _ => decoded⟩ (.inl byte)
  · have missed : immrot v = 0 := immrotFrom_misses 16 0 v (by omega)
    constructor
    · intro right
      exact .inr (fun encodable => right.complete.mpr encodable missed)
    · intro condition
      rcases condition with byte' | encodable
      · exact absurd byte' byte
      · exact ⟨iff_of_false (fun found => found missed) encodable, fun found => absurd missed found⟩

/-- An encoding that is found is one of the number, on either host. -/
theorem sound {w : Nat} (width : w = 32 ∨ w = 64) (v : BitVec w) (found : immrot v ≠ 0) : decode (immrot v) = v.setWidth 32 := by
  rcases width with rfl | rfl
  · exact (right_short v).sound found
  · by_cases byte : v.toNat < 256
    · exact (immrot_byte v byte).2
    · exact absurd (immrotFrom_misses 16 0 v (by omega)) found

theorem emits {w : Nat} (width : w = 32 ∨ w = 64) (v : BitVec w) : Emits v := by
  constructor
  · intro class'
    unfold aclass at class'
    split at class'
    · next found => exact ⟨immrot v, rfl, sound width v found⟩
    · split at class' <;> cases class'
  · intro class'
    unfold aclass at class'
    split at class'
    · cases class'
    · split at class'
      · next found =>
        refine ⟨immrot (~~~ v), if_neg found, ?_⟩
        rw [sound width _ found]
        apply BitVec.eq_of_getLsbD_eq
        intro i low
        have inner : i < w := by omega
        simp [low, inner]
      · cases class'

/-- `immrot` is right about a value exactly if a `long` has 32 bits, or the value is a
byte or has no encoding; what is emitted always agrees with the class. -/
theorem immrot_right_iff {w : Nat} (width : w = 32 ∨ w = 64) (v : BitVec w) :
    (Right v ↔ w = 32 ∨ v.toNat < 256 ∨ ¬ Encodable (v.setWidth 32)) ∧ Emits v := by
  refine ⟨?_, emits width v⟩
  rcases width with rfl | rfl
  · exact iff_of_true (right_short v) (.inl rfl)
  · rw [right_long]
    simp

theorem immrot_right_negative : Right (-256 : BitVec 32) ∧ Emits (-256 : BitVec 32) :=
  ⟨(immrot_right_iff (.inl rfl) (-256 : BitVec 32)).1.mpr (.inl rfl), (immrot_right_iff (.inl rfl) (-256 : BitVec 32)).2⟩

theorem immrot_misses : immrot (256 : BitVec 64) = 0 ∧ Encodable 256 ∧ ¬ Right (256 : BitVec 64) := by
  have missed : immrot (256 : BitVec 64) = 0 := immrotFrom_misses 16 0 256 (by decide)
  have encodable : Encodable 256 := ⟨1, 12, by decide, by decide, by decide⟩
  exact ⟨missed, encodable, fun right => right.complete.mpr encodable missed⟩

end Goken.Proofs.Immrot
