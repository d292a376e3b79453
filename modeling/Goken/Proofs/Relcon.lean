import Goken.Com
import Goken.Proofs.Evconst

/-! Comparisons with a constant, before and after `relcon` takes a cast off the other
operand. As for constants, a comparison is one of words of the operands' type, signed
or unsigned as the operator says. -/

namespace Goken.Proofs.Relcon
open Goken.Scon Goken.Com Node NodeKind Etype Lib.Words Evconst

/-- A comparison of words. -/
def holds {w : Nat} (o : NodeKind) (l r : BitVec w) : Bool :=
  match o with
  | OEQ => l == r
  | ONE => l != r
  | OLT => l.slt r
  | OGT => r.slt l
  | OLE => l.sle r
  | OGE => r.sle l
  | OLO => l.ult r
  | OHI => r.ult l
  | OLS => l.ule r
  | OHS => r.ule l
  | _ => false

/-- The operator with its operands in the other order. -/
def swapped : NodeKind → NodeKind
  | OLT => OGT
  | OGT => OLT
  | OLE => OGE
  | OGE => OLE
  | OLO => OHI
  | OHI => OLO
  | OLS => OHS
  | OHS => OLS
  | o => o

/-- The truth value of a comparison, given what the expressions are worth. -/
def compares (n : Node) (value : Node → BitVec 64) : Bool :=
  holds n.op ((value n.left).setWidth (bits n.left.etype)) ((value n.right).setWidth (bits n.left.etype))

/-- Values of expressions where `x` is worth `v`. -/
structure Reads (x : Node) (v : BitVec 64) (value : Node → BitVec 64) : Prop where
  operand : value x = v
  constant : ∀ n, n.op = OCONST → value n = convvtox n.vconst n.etype
  cast : ∀ n, n.op = OCAST → n.left = x → value n = convvtox v n.etype

/-- The comparison keeps its truth value, whatever `x` is worth in its own type. -/
def Preserved (n x : Node) : Prop :=
  ∀ v value, Canonical v x.etype → Reads x v value → compares (relcons n) value = compares n value

/-- The operator goes with a type: `tcom` makes it the unsigned one for an unsigned type. -/
def Goes (o : NodeKind) (et : Etype) : Prop :=
  o ∈ [OEQ, ONE] ∨ o ∈ [OLT, OGT, OLE, OGE] ∧ et.typeu = false ∨ o ∈ [OLO, OHI, OLS, OHS] ∧ et.typeu = true

/-- The constant and the cast of a comparison, of one type as `tcom` leaves them. A cast
of a constant is folded before. -/
structure Operands (o : NodeKind) (c k : Node) : Prop where
  constant : c.op = OCONST
  cast : k.op = OCAST
  noop : nilcast k.left.type k.type = true
  same : c.etype = k.etype
  operator : Goes o k.etype
  operand : k.left.op ≠ OCONST

section Words

variable (a b : BitVec 64)

theorem toInt_mod : a.toInt % 2 ^ 64 = a.toNat := by
  have bound := a.isLt
  rw [BitVec.toInt_eq_toNat_cond]
  split <;> omega

theorem byte_toInt : (a.setWidth 8).toInt = (a.toInt + 128) % 256 - 128 := by
  rw [toInt_cut (by decide), Int.bmod_def]
  split <;> omega

theorem byte_toNat : ((a.setWidth 8).toNat : Int) = a.toInt % 256 := by
  have low := toInt_mod a
  rw [BitVec.toNat_setWidth]
  omega

theorem half_toInt : (a.setWidth 16).toInt = (a.toInt + 32768) % 65536 - 32768 := by
  rw [toInt_cut (by decide), Int.bmod_def]
  split <;> omega

theorem half_toNat : ((a.setWidth 16).toNat : Int) = a.toInt % 65536 := by
  have low := toInt_mod a
  rw [BitVec.toNat_setWidth]
  omega

theorem byte_eq : (a.setWidth 8 == b.setWidth 8) = true ↔ a.toInt % 256 = b.toInt % 256 := by
  rw [beq_iff_eq, ← byte_toNat, ← byte_toNat, Int.natCast_inj, BitVec.toNat_inj]

theorem half_eq : (a.setWidth 16 == b.setWidth 16) = true ↔ a.toInt % 65536 = b.toInt % 65536 := by
  rw [beq_iff_eq, ← half_toNat, ← half_toNat, Int.natCast_inj, BitVec.toNat_inj]

theorem byte_slt : (a.setWidth 8).slt (b.setWidth 8) = true ↔ (a.toInt + 128) % 256 < (b.toInt + 128) % 256 := by
  rw [BitVec.slt_iff_toInt_lt, byte_toInt, byte_toInt]
  omega

theorem half_slt : (a.setWidth 16).slt (b.setWidth 16) = true ↔ (a.toInt + 32768) % 65536 < (b.toInt + 32768) % 65536 := by
  rw [BitVec.slt_iff_toInt_lt, half_toInt, half_toInt]
  omega

theorem byte_sle : (a.setWidth 8).sle (b.setWidth 8) = true ↔ (a.toInt + 128) % 256 ≤ (b.toInt + 128) % 256 := by
  rw [BitVec.sle_iff_toInt_le, byte_toInt, byte_toInt]
  omega

theorem half_sle : (a.setWidth 16).sle (b.setWidth 16) = true ↔ (a.toInt + 32768) % 65536 ≤ (b.toInt + 32768) % 65536 := by
  rw [BitVec.sle_iff_toInt_le, half_toInt, half_toInt]
  omega

theorem byte_ult : (a.setWidth 8).ult (b.setWidth 8) = true ↔ a.toInt % 256 < b.toInt % 256 := by
  rw [BitVec.ult_iff_lt, BitVec.lt_def, ← byte_toNat, ← byte_toNat, Int.ofNat_lt]

theorem half_ult : (a.setWidth 16).ult (b.setWidth 16) = true ↔ a.toInt % 65536 < b.toInt % 65536 := by
  rw [BitVec.ult_iff_lt, BitVec.lt_def, ← half_toNat, ← half_toNat, Int.ofNat_lt]

theorem byte_ule : (a.setWidth 8).ule (b.setWidth 8) = true ↔ a.toInt % 256 ≤ b.toInt % 256 := by
  rw [BitVec.ule_iff_le, BitVec.le_def, ← byte_toNat, ← byte_toNat, Int.ofNat_le]

theorem half_ule : (a.setWidth 16).ule (b.setWidth 16) = true ↔ a.toInt % 65536 ≤ b.toInt % 65536 := by
  rw [BitVec.ule_iff_le, BitVec.le_def, ← half_toNat, ← half_toNat, Int.ofNat_le]

end Words

section Narrow

variable (c : BitVec 64)

theorem char_toInt : (convvtox c TCHAR).toInt = (c.toInt + 128) % 256 - 128 := by
  rw [convvtox_eq (.inl rfl), extend, if_neg (by decide), BitVec.toInt_signExtend_of_le (by decide)]
  exact byte_toInt c

theorem uchar_toInt : (convvtox c TUCHAR).toInt = c.toInt % 256 := by
  have bound := (c.setWidth (bits TUCHAR)).isLt
  have small : 2 ^ bits TUCHAR = 256 := rfl
  rw [convvtox_eq (.inl rfl), extend, if_pos (show TUCHAR.typeu = true from rfl), BitVec.toInt_eq_toNat_of_lt,
    toNat_widen (by decide)]
  · exact byte_toNat c
  · rw [toNat_widen (by decide)]
    omega

theorem short_toInt : (convvtox c TSHORT).toInt = (c.toInt + 32768) % 65536 - 32768 := by
  rw [convvtox_eq (.inl rfl), extend, if_neg (by decide), BitVec.toInt_signExtend_of_le (by decide)]
  exact half_toInt c

theorem ushort_toInt : (convvtox c TUSHORT).toInt = c.toInt % 65536 := by
  have bound := (c.setWidth (bits TUSHORT)).isLt
  have small : 2 ^ bits TUSHORT = 65536 := rfl
  rw [convvtox_eq (.inl rfl), extend, if_pos (show TUSHORT.typeu = true from rfl), BitVec.toInt_eq_toNat_of_lt,
    toNat_widen (by decide)]
  · exact half_toNat c
  · rw [toNat_widen (by decide)]
    omega

theorem canonical_iff (et : Etype) : Canonical c et ↔ (convvtox c et).toInt = c.toInt := BitVec.toInt_inj.symm

theorem char_canonical : Canonical c TCHAR ↔ -128 ≤ c.toInt ∧ c.toInt ≤ 127 := by
  rw [canonical_iff, char_toInt]
  omega

theorem uchar_canonical : Canonical c TUCHAR ↔ 0 ≤ c.toInt ∧ c.toInt ≤ 255 := by
  rw [canonical_iff, uchar_toInt]
  omega

theorem short_canonical : Canonical c TSHORT ↔ -32768 ≤ c.toInt ∧ c.toInt ≤ 32767 := by
  rw [canonical_iff, short_toInt]
  omega

theorem ushort_canonical : Canonical c TUSHORT ↔ 0 ≤ c.toInt ∧ c.toInt ≤ 65535 := by
  rw [canonical_iff, ushort_toInt]
  omega

end Narrow

/-- Every number of a narrow range is that of a word. -/
theorem forall_range {low high : Int} (least : -32768 ≤ low) (greatest : high ≤ 65535) (P : Int → Prop) :
    (∀ v : BitVec 64, low ≤ v.toInt ∧ v.toInt ≤ high → P v.toInt) ↔ ∀ x, low ≤ x → x ≤ high → P x := by
  constructor
  · intro every x above below
    have number : (BitVec.ofInt 64 x).toInt = x := by
      rw [BitVec.toInt_ofInt, Int.bmod_def]
      split <;> omega
    have at_x := every (BitVec.ofInt 64 x)
    rw [number] at at_x
    exact at_x ⟨above, below⟩
  · intro every v range
    exact every v.toInt range.1 range.2

/-- The narrow comparison says what the wide one says, for every value of the narrow type. -/
def Agree (o : NodeKind) (X T : Etype) (c : BitVec 64) : Prop :=
  ∀ v, Canonical v X → holds o (v.setWidth (bits X)) (c.setWidth (bits X)) = holds o (v.setWidth (bits T)) (c.setWidth (bits T))

/-- The least and the greatest value of a type of one byte. -/
def least (X : Etype) : Int := if X.typeu then 0 else -128

def greatest (X : Etype) : Int := if X.typeu then 255 else 127

/-- The constant `c` of type `T` may be compared with values of type `X` instead of
these cast to `T`, in a comparison that has the values on its left. The constant has
to be one of the values, or to separate none of them and to become the bound that
does not either. Where unsigned bytes are then compared as signed ones only the
second is left. -/
def Fits (o : NodeKind) (X T : Etype) (c : BitVec 64) : Prop :=
  let exact := convvtox (convvtox c X) T = c
  let narrow := (convvtox c X).toInt
  let mixed := X.typeu = true ∧ T.typeu = false
  if o ∈ [OEQ, ONE] then exact
  else if o ∈ [OLT, OGE, OLO, OHS] then
    if mixed then narrow = 128 ∧ c.toInt < 0
    else exact ∨ narrow = least X ∧ c.toInt < (convvtox (BitVec.ofInt 64 (least X)) T).toInt
  else if mixed then narrow = 127 ∧ 255 < c.toInt
  else exact ∨ narrow = greatest X ∧ (convvtox (BitVec.ofInt 64 (greatest X)) T).toInt < c.toInt

section Agree

variable {o : NodeKind} {X T : Etype} {c : BitVec 64}

/-- The numbers in place of the words. -/
theorem agree_iff {low high : Int} {byte half : Int → Prop} (range : ∀ v, Canonical v X ↔ low ≤ v.toInt ∧ v.toInt ≤ high)
    (narrow : ∀ v : BitVec 64, holds o (v.setWidth (bits X)) (c.setWidth (bits X)) = true ↔ byte v.toInt)
    (wide : ∀ v : BitVec 64, holds o (v.setWidth (bits T)) (c.setWidth (bits T)) = true ↔ half v.toInt)
    (first : -32768 ≤ low) (last : high ≤ 65535) :
    Agree o X T c ↔ ∀ x, low ≤ x → x ≤ high → (byte x ↔ half x) := by
  rw [← forall_range first last (fun x => byte x ↔ half x)]
  simp only [Agree, range, Bool.eq_iff_iff, narrow, wide]

theorem agree_not {o' : NodeKind} (negation : ∀ {w : Nat} (l r : BitVec w), holds o' l r = !holds o l r) :
    Agree o' X T c ↔ Agree o X T c := by
  simp only [Agree, negation, Bool.not_inj_iff]

theorem fits_exact (equality : o ∈ [OEQ, ONE]) : Fits o X T c ↔ (convvtox (convvtox c X) T).toInt = c.toInt := by
  rw [Fits, if_pos equality, BitVec.toInt_inj]

theorem fits_less (less : o ∈ [OLT, OGE, OLO, OHS]) (plain : ¬ (X.typeu = true ∧ T.typeu = false)) :
    Fits o X T c ↔ (convvtox (convvtox c X) T).toInt = c.toInt ∨
      (convvtox c X).toInt = least X ∧ c.toInt < (convvtox (BitVec.ofInt 64 (least X)) T).toInt := by
  have other : o ∉ [OEQ, ONE] := fun equality => by
    simp only [List.mem_cons, List.not_mem_nil, or_false] at less equality
    rcases equality with rfl | rfl <;> simp at less
  rw [Fits, if_neg other, if_pos less, if_neg plain, BitVec.toInt_inj]

theorem fits_most (most : o ∈ [OLE, OGT, OLS, OHI]) (plain : ¬ (X.typeu = true ∧ T.typeu = false)) :
    Fits o X T c ↔ (convvtox (convvtox c X) T).toInt = c.toInt ∨
      (convvtox c X).toInt = greatest X ∧ (convvtox (BitVec.ofInt 64 (greatest X)) T).toInt < c.toInt := by
  have other : o ∉ [OEQ, ONE] ∧ o ∉ [OLT, OGE, OLO, OHS] := by
    simp only [List.mem_cons, List.not_mem_nil, or_false] at most
    rcases most with rfl | rfl | rfl | rfl <;> decide
  rw [Fits, if_neg other.1, if_neg other.2, if_neg plain, BitVec.toInt_inj]

end Agree

section CharShort

variable {c : BitVec 64} (inside : Canonical c TSHORT)
include inside

theorem char_short_eq : Agree OEQ TCHAR TSHORT c ↔ Fits OEQ TCHAR TSHORT c := by
  rw [short_canonical] at inside
  have numbers : Agree OEQ TCHAR TSHORT c ↔
      ∀ x, -128 ≤ x → x ≤ 127 → (x % 256 = c.toInt % 256 ↔ x % 65536 = c.toInt % 65536) :=
    agree_iff char_canonical (fun v => byte_eq v c) (fun v => half_eq v c) (by decide) (by decide)
  rw [fits_exact (by decide), short_toInt, char_toInt, numbers]
  constructor
  · intro agree
    have middle := agree ((c.toInt + 128) % 256 - 128) (by omega) (by omega)
    omega
  · intro fits x above below
    omega

theorem char_short_lt : Agree OLT TCHAR TSHORT c ↔ Fits OLT TCHAR TSHORT c := by
  rw [short_canonical] at inside
  have bound : (convvtox (BitVec.ofInt 64 (least TCHAR)) TSHORT).toInt = -128 := by decide
  have value : least TCHAR = -128 := rfl
  have numbers : Agree OLT TCHAR TSHORT c ↔
      ∀ x, -128 ≤ x → x ≤ 127 → ((x + 128) % 256 < (c.toInt + 128) % 256 ↔ (x + 32768) % 65536 < (c.toInt + 32768) % 65536) :=
    agree_iff char_canonical (fun v => byte_slt v c) (fun v => half_slt v c) (by decide) (by decide)
  rw [fits_less (by decide) (by decide), short_toInt, char_toInt, numbers]
  constructor
  · intro agree
    have middle := agree ((c.toInt + 128) % 256 - 128) (by omega) (by omega)
    have edge := agree (-128) (by omega) (by omega)
    omega
  · intro fits x above below
    omega

theorem char_short_le : Agree OLE TCHAR TSHORT c ↔ Fits OLE TCHAR TSHORT c := by
  rw [short_canonical] at inside
  have bound : (convvtox (BitVec.ofInt 64 (greatest TCHAR)) TSHORT).toInt = 127 := by decide
  have value : greatest TCHAR = 127 := rfl
  have numbers : Agree OLE TCHAR TSHORT c ↔
      ∀ x, -128 ≤ x → x ≤ 127 → ((x + 128) % 256 ≤ (c.toInt + 128) % 256 ↔ (x + 32768) % 65536 ≤ (c.toInt + 32768) % 65536) :=
    agree_iff char_canonical (fun v => byte_sle v c) (fun v => half_sle v c) (by decide) (by decide)
  rw [fits_most (by decide) (by decide), short_toInt, char_toInt, numbers]
  constructor
  · intro agree
    have middle := agree ((c.toInt + 128) % 256 - 128) (by omega) (by omega)
    have edge := agree 127 (by omega) (by omega)
    omega
  · intro fits x above below
    omega

end CharShort

section CharUshort

variable {c : BitVec 64} (inside : Canonical c TUSHORT)
include inside

theorem char_ushort_eq : Agree OEQ TCHAR TUSHORT c ↔ Fits OEQ TCHAR TUSHORT c := by
  rw [ushort_canonical] at inside
  have numbers : Agree OEQ TCHAR TUSHORT c ↔
      ∀ x, -128 ≤ x → x ≤ 127 → (x % 256 = c.toInt % 256 ↔ x % 65536 = c.toInt % 65536) :=
    agree_iff char_canonical (fun v => byte_eq v c) (fun v => half_eq v c) (by decide) (by decide)
  rw [fits_exact (by decide), ushort_toInt, char_toInt, numbers]
  constructor
  · intro agree
    have middle := agree ((c.toInt + 128) % 256 - 128) (by omega) (by omega)
    omega
  · intro fits x above below
    omega

theorem char_ushort_lo : Agree OLO TCHAR TUSHORT c ↔ Fits OLO TCHAR TUSHORT c := by
  rw [ushort_canonical] at inside
  have bound : (convvtox (BitVec.ofInt 64 (least TCHAR)) TUSHORT).toInt = (65408) := by decide
  have value : least TCHAR = -128 := rfl
  have numbers : Agree OLO TCHAR TUSHORT c ↔
      ∀ x, -128 ≤ x → x ≤ 127 → (x % 256 < c.toInt % 256 ↔ x % 65536 < c.toInt % 65536) :=
    agree_iff char_canonical (fun v => byte_ult v c) (fun v => half_ult v c) (by decide) (by decide)
  rw [fits_less (by decide) (by decide), ushort_toInt, char_toInt, numbers]
  constructor
  · intro agree
    have middle := agree ((c.toInt + 128) % 256 - 128) (by omega) (by omega)
    have edge := agree (-128) (by omega) (by omega)
    omega
  · intro fits x above below
    omega

theorem char_ushort_ls : Agree OLS TCHAR TUSHORT c ↔ Fits OLS TCHAR TUSHORT c := by
  rw [ushort_canonical] at inside
  have bound : (convvtox (BitVec.ofInt 64 (greatest TCHAR)) TUSHORT).toInt = 127 := by decide
  have value : greatest TCHAR = 127 := rfl
  have numbers : Agree OLS TCHAR TUSHORT c ↔
      ∀ x, -128 ≤ x → x ≤ 127 → (x % 256 ≤ c.toInt % 256 ↔ x % 65536 ≤ c.toInt % 65536) :=
    agree_iff char_canonical (fun v => byte_ule v c) (fun v => half_ule v c) (by decide) (by decide)
  rw [fits_most (by decide) (by decide), ushort_toInt, char_toInt, numbers]
  constructor
  · intro agree
    have middle := agree ((c.toInt + 128) % 256 - 128) (by omega) (by omega)
    have edge := agree 127 (by omega) (by omega)
    omega
  · intro fits x above below
    omega

end CharUshort

section UcharShort

variable {c : BitVec 64} (inside : Canonical c TSHORT)
include inside

theorem uchar_short_eq : Agree OEQ TUCHAR TSHORT c ↔ Fits OEQ TUCHAR TSHORT c := by
  rw [short_canonical] at inside
  have numbers : Agree OEQ TUCHAR TSHORT c ↔
      ∀ x, 0 ≤ x → x ≤ 255 → (x % 256 = c.toInt % 256 ↔ x % 65536 = c.toInt % 65536) :=
    agree_iff uchar_canonical (fun v => byte_eq v c) (fun v => half_eq v c) (by decide) (by decide)
  rw [fits_exact (by decide), short_toInt, uchar_toInt, numbers]
  constructor
  · intro agree
    have middle := agree (c.toInt % 256) (by omega) (by omega)
    omega
  · intro fits x above below
    omega

theorem uchar_short_lt : Agree OLT TUCHAR TSHORT c ↔ Fits OLT TUCHAR TSHORT c := by
  rw [short_canonical] at inside
  have numbers : Agree OLT TUCHAR TSHORT c ↔
      ∀ x, 0 ≤ x → x ≤ 255 → ((x + 128) % 256 < (c.toInt + 128) % 256 ↔ (x + 32768) % 65536 < (c.toInt + 32768) % 65536) :=
    agree_iff uchar_canonical (fun v => byte_slt v c) (fun v => half_slt v c) (by decide) (by decide)
  rw [numbers]
  show _ ↔ (convvtox c TUCHAR).toInt = 128 ∧ c.toInt < 0
  rw [uchar_toInt]
  constructor
  · intro agree
    have zero := agree 0 (by omega) (by omega)
    have half := agree 127 (by omega) (by omega)
    have edge := agree 128 (by omega) (by omega)
    have last := agree 255 (by omega) (by omega)
    omega
  · intro fits x above below
    omega

theorem uchar_short_le : Agree OLE TUCHAR TSHORT c ↔ Fits OLE TUCHAR TSHORT c := by
  rw [short_canonical] at inside
  have numbers : Agree OLE TUCHAR TSHORT c ↔
      ∀ x, 0 ≤ x → x ≤ 255 → ((x + 128) % 256 ≤ (c.toInt + 128) % 256 ↔ (x + 32768) % 65536 ≤ (c.toInt + 32768) % 65536) :=
    agree_iff uchar_canonical (fun v => byte_sle v c) (fun v => half_sle v c) (by decide) (by decide)
  rw [numbers]
  show _ ↔ (convvtox c TUCHAR).toInt = 127 ∧ 255 < c.toInt
  rw [uchar_toInt]
  constructor
  · intro agree
    have zero := agree 0 (by omega) (by omega)
    have half := agree 127 (by omega) (by omega)
    have edge := agree 128 (by omega) (by omega)
    have last := agree 255 (by omega) (by omega)
    omega
  · intro fits x above below
    omega

end UcharShort

section UcharUshort

variable {c : BitVec 64} (inside : Canonical c TUSHORT)
include inside

theorem uchar_ushort_eq : Agree OEQ TUCHAR TUSHORT c ↔ Fits OEQ TUCHAR TUSHORT c := by
  rw [ushort_canonical] at inside
  have numbers : Agree OEQ TUCHAR TUSHORT c ↔
      ∀ x, 0 ≤ x → x ≤ 255 → (x % 256 = c.toInt % 256 ↔ x % 65536 = c.toInt % 65536) :=
    agree_iff uchar_canonical (fun v => byte_eq v c) (fun v => half_eq v c) (by decide) (by decide)
  rw [fits_exact (by decide), ushort_toInt, uchar_toInt, numbers]
  constructor
  · intro agree
    have middle := agree (c.toInt % 256) (by omega) (by omega)
    omega
  · intro fits x above below
    omega

theorem uchar_ushort_lo : Agree OLO TUCHAR TUSHORT c ↔ Fits OLO TUCHAR TUSHORT c := by
  rw [ushort_canonical] at inside
  have bound : (convvtox (BitVec.ofInt 64 (least TUCHAR)) TUSHORT).toInt = (0) := by decide
  have value : least TUCHAR = 0 := rfl
  have numbers : Agree OLO TUCHAR TUSHORT c ↔
      ∀ x, 0 ≤ x → x ≤ 255 → (x % 256 < c.toInt % 256 ↔ x % 65536 < c.toInt % 65536) :=
    agree_iff uchar_canonical (fun v => byte_ult v c) (fun v => half_ult v c) (by decide) (by decide)
  rw [fits_less (by decide) (by decide), ushort_toInt, uchar_toInt, numbers]
  constructor
  · intro agree
    have middle := agree (c.toInt % 256) (by omega) (by omega)
    have edge := agree 0 (by omega) (by omega)
    omega
  · intro fits x above below
    omega

theorem uchar_ushort_ls : Agree OLS TUCHAR TUSHORT c ↔ Fits OLS TUCHAR TUSHORT c := by
  rw [ushort_canonical] at inside
  have bound : (convvtox (BitVec.ofInt 64 (greatest TUCHAR)) TUSHORT).toInt = 255 := by decide
  have value : greatest TUCHAR = 255 := rfl
  have numbers : Agree OLS TUCHAR TUSHORT c ↔
      ∀ x, 0 ≤ x → x ≤ 255 → (x % 256 ≤ c.toInt % 256 ↔ x % 65536 ≤ c.toInt % 65536) :=
    agree_iff uchar_canonical (fun v => byte_ule v c) (fun v => half_ule v c) (by decide) (by decide)
  rw [fits_most (by decide) (by decide), ushort_toInt, uchar_toInt, numbers]
  constructor
  · intro agree
    have middle := agree (c.toInt % 256) (by omega) (by omega)
    have edge := agree 255 (by omega) (by omega)
    omega
  · intro fits x above below
    omega

end UcharUshort

section Pairs

variable {o o' : NodeKind} {X T : Etype} {c : BitVec 64}

/-- The operators that say the opposite of another. -/
def opposites : List (NodeKind × NodeKind) := [(OEQ, ONE), (OLT, OGE), (OLE, OGT), (OLO, OHS), (OLS, OHI)]

theorem fits_not (opposite : (o, o') ∈ opposites) : Fits o' X T c ↔ Fits o X T c := by
  simp only [opposites, List.mem_cons, List.not_mem_nil, or_false, Prod.mk.injEq] at opposite
  rcases opposite with ⟨rfl, rfl⟩ | ⟨rfl, rfl⟩ | ⟨rfl, rfl⟩ | ⟨rfl, rfl⟩ | ⟨rfl, rfl⟩ <;> exact Iff.rfl

theorem holds_not (opposite : (o, o') ∈ opposites) {w : Nat} (l r : BitVec w) : holds o' l r = !holds o l r := by
  simp only [opposites, List.mem_cons, List.not_mem_nil, or_false, Prod.mk.injEq] at opposite
  rcases opposite with ⟨rfl, rfl⟩ | ⟨rfl, rfl⟩ | ⟨rfl, rfl⟩ | ⟨rfl, rfl⟩ | ⟨rfl, rfl⟩
  · rfl
  · exact BitVec.sle_eq_not_slt
  · show r.slt l = !l.sle r
    rw [BitVec.sle_eq_not_slt, Bool.not_not]
  · exact BitVec.ule_eq_not_ult r l
  · show r.ult l = !l.ule r
    rw [BitVec.ule_eq_not_ult, Bool.not_not]

theorem agree_fits_not (opposite : (o, o') ∈ opposites) (known : Agree o X T c ↔ Fits o X T c) : Agree o' X T c ↔ Fits o' X T c := by
  rw [agree_not (holds_not opposite), fits_not opposite]
  exact known

theorem agree_fits_short (narrow : X = TCHAR ∨ X = TUCHAR) (goes : Goes o TSHORT) (inside : Canonical c TSHORT) :
    Agree o X TSHORT c ↔ Fits o X TSHORT c := by
  have basic : ∀ o ∈ [OEQ, OLT, OLE], Agree o X TSHORT c ↔ Fits o X TSHORT c := by
    rcases narrow with rfl | rfl
    · simpa using ⟨char_short_eq inside, char_short_lt inside, char_short_le inside⟩
    · simpa using ⟨uchar_short_eq inside, uchar_short_lt inside, uchar_short_le inside⟩
  rcases goes with equality | ⟨signed, _⟩ | ⟨_, wrong⟩
  · simp only [List.mem_cons, List.not_mem_nil, or_false] at equality
    rcases equality with rfl | rfl
    · exact basic OEQ (by decide)
    · exact agree_fits_not (by decide) (basic OEQ (by decide))
  · simp only [List.mem_cons, List.not_mem_nil, or_false] at signed
    rcases signed with rfl | rfl | rfl | rfl
    · exact basic OLT (by decide)
    · exact agree_fits_not (by decide) (basic OLE (by decide))
    · exact basic OLE (by decide)
    · exact agree_fits_not (by decide) (basic OLT (by decide))
  · cases wrong

theorem agree_fits_ushort (narrow : X = TCHAR ∨ X = TUCHAR) (goes : Goes o TUSHORT) (inside : Canonical c TUSHORT) :
    Agree o X TUSHORT c ↔ Fits o X TUSHORT c := by
  have basic : ∀ o ∈ [OEQ, OLO, OLS], Agree o X TUSHORT c ↔ Fits o X TUSHORT c := by
    rcases narrow with rfl | rfl
    · simpa using ⟨char_ushort_eq inside, char_ushort_lo inside, char_ushort_ls inside⟩
    · simpa using ⟨uchar_ushort_eq inside, uchar_ushort_lo inside, uchar_ushort_ls inside⟩
  rcases goes with equality | ⟨_, wrong⟩ | ⟨unsigned, _⟩
  · simp only [List.mem_cons, List.not_mem_nil, or_false] at equality
    rcases equality with rfl | rfl
    · exact basic OEQ (by decide)
    · exact agree_fits_not (by decide) (basic OEQ (by decide))
  · cases wrong
  · simp only [List.mem_cons, List.not_mem_nil, or_false] at unsigned
    rcases unsigned with rfl | rfl | rfl | rfl
    · exact basic OLO (by decide)
    · exact agree_fits_not (by decide) (basic OLS (by decide))
    · exact basic OLS (by decide)
    · exact agree_fits_not (by decide) (basic OLO (by decide))

end Pairs

/-- The types whose casts `relcon` takes off. -/
def narrowTypes : List Etype := [TCHAR, TUCHAR, TSHORT, TUSHORT]

/-- A cast that `nilcast` accepts, to one of these types, leaves the type as it is or
widens a byte to two. -/
theorem nilcast_narrow {x k : Node} (noop : nilcast x.type k.type = true) (narrow : k.etype ∈ narrowTypes) :
    x.etype = k.etype ∨ (x.etype = TCHAR ∨ x.etype = TUCHAR) ∧ (k.etype = TSHORT ∨ k.etype = TUSHORT) := by
  unfold nilcast at noop
  split at noop
  · next t t' from_type to_type =>
    simp only [Node.etype, from_type, to_type, Option.map_some, Option.getD_some] at narrow ⊢
    generalize t.etype = a at noop ⊢
    generalize t'.etype = b at noop narrow ⊢
    split at noop
    · cases noop
    · simp only [narrowTypes, List.mem_cons, List.not_mem_nil, or_false] at narrow
      rcases narrow with rfl | rfl | rfl | rfl <;> cases a <;> revert noop <;> decide
  · cases noop

section Rewrite

variable {l r : Node}

theorem relcon_not_constant (other : l.op ≠ OCONST) : relcon l r = (l, r) := by
  rw [relcon, if_pos (.inl other)]

theorem relcon_not_cast (other : r.op ≠ OCAST) : relcon l r = (l, r) := by
  rw [relcon, if_pos (.inr (.inl other))]

theorem relcon_stays (outside : r.etype ∉ narrowTypes ∨ ¬ Canonical l.vconst r.etype) : relcon l r = (l, r) := by
  unfold relcon
  split
  · rfl
  · split <;> simp_all [narrowTypes, Canonical]

theorem relcon_rewrites {o : NodeKind} (operands : Operands o l r) (narrow : r.etype ∈ narrowTypes)
    (canonical : Canonical l.vconst r.etype) : relcon l r = (l.setType r.left.type, r.left) := by
  have open_path : ¬ (l.op ≠ OCONST ∨ r.op ≠ OCAST ∨ nilcast r.left.type r.type = false) := by
    simp [operands.constant, operands.cast, operands.noop]
  rw [relcon, if_neg open_path]
  simp only [narrowTypes, List.mem_cons, List.not_mem_nil, or_false] at narrow
  unfold Canonical at canonical
  rcases narrow with narrow | narrow | narrow | narrow <;> rw [narrow] at canonical ⊢ <;> simp [canonical]

end Rewrite

/-- Any value can be that of an expression which is not a constant. -/
theorem exists_reads {x : Node} (operand : x.op ≠ OCONST) (v : BitVec 64) : ∃ value, Reads x v value := by
  classical
  refine ⟨fun n => if n.op = OCONST then convvtox n.vconst n.etype else if n = x then v else convvtox v n.etype, ?_, ?_, ?_⟩
  · simp [operand]
  · intro n constant
    simp [constant]
  · intro n cast inner
    have outer : n ≠ x := by
      rintro rfl
      cases n with
      | Z => cases cast
      | node head l r =>
        have size := congrArg sizeOf inner
        simp only [Node.left, Node.node.sizeOf_spec] at size
        omega
    simp [cast, outer]

theorem holds_swapped (o : NodeKind) {w : Nat} (l r : BitVec w) : holds (swapped o) l r = holds o r l := by
  cases o <;> first | rfl | exact BEq.comm | exact bne_comm

theorem convvtox_word {et : Etype} (integer : isInteger et) (a : BitVec 64) :
    (convvtox a et).setWidth (bits et) = a.setWidth (bits et) := by
  obtain ⟨_, _, high⟩ := bits_bounds integer
  rw [convvtox_eq integer, setWidth_extend high]

theorem isInteger_narrow {et : Etype} (narrow : et ∈ narrowTypes) : isInteger et := by
  simp only [narrowTypes, List.mem_cons, List.not_mem_nil, or_false] at narrow
  rcases narrow with rfl | rfl | rfl | rfl <;> exact .inl rfl

/-- The operator with the cast on its left. -/
def facing (n : Node) : NodeKind := if n.left.op = OCONST then swapped n.op else n.op

theorem goes_facing {n : Node} {et : Etype} (goes : Goes n.op et) : Goes (facing n) et := by
  unfold facing
  split
  · generalize n.op = o at goes
    revert goes
    simp only [Goes, List.mem_cons, List.not_mem_nil, or_false]
    cases o <;> simp [swapped]
  · exact goes

/-- A comparison with the constant on one side and the cast on the other. -/
structure Comparison (n c k : Node) : Prop where
  operands : Operands n.op c k
  placed : n.left = c ∧ n.right = k ∨ n.left = k ∧ n.right = c

section Compare

variable {n c k : Node} (comparison : Comparison n c k)
include comparison

theorem Comparison.real : n.op ≠ OXXX := by
  intro none
  have goes := comparison.operands.operator
  rw [none] at goes
  simp [Goes] at goes

theorem relcons_stays (outside : k.etype ∉ narrowTypes ∨ ¬ Canonical c.vconst k.etype) : relcons n = n := by
  have constant := comparison.operands.constant
  have cast := comparison.operands.cast
  have other : relcon k c = (k, c) := relcon_not_constant (by rw [cast]; decide)
  rcases comparison.placed with ⟨rfl, rfl⟩ | ⟨rfl, rfl⟩
  all_goals
    simp only [relcons, relcon_stays outside, other]
    cases n <;> rfl

section Rewritten

variable (narrow : k.etype ∈ narrowTypes) (canonical : Canonical c.vconst k.etype)
include narrow canonical

theorem relcons_rewrites :
    relcons n = (n.setLeft (if n.left.op = OCONST then c.setType k.left.type else k.left)).setRight
      (if n.left.op = OCONST then k.left else c.setType k.left.type) := by
  have constant := comparison.operands.constant
  have cast := comparison.operands.cast
  have rewrites := relcon_rewrites comparison.operands narrow canonical
  rcases comparison.placed with ⟨rfl, rfl⟩ | ⟨rfl, rfl⟩
  · have other : relcon n.right.left (n.left.setType n.right.left.type) = (n.right.left, n.left.setType n.right.left.type) :=
      relcon_not_cast (by rw [op_setType, constant]; decide)
    simp only [relcons, rewrites, other, constant, ↓reduceIte]
  · have other : relcon n.left n.right = (n.left, n.right) := relcon_not_constant (by rw [cast]; decide)
    have notConstant : n.left.op ≠ OCONST := by rw [cast]; decide
    simp only [relcons, rewrites, other, notConstant, ↓reduceIte]

omit canonical in
theorem isInteger_operand : isInteger k.left.etype := by
  rcases nilcast_narrow comparison.operands.noop narrow with same | ⟨byte, _⟩
  · rw [same]
    exact isInteger_narrow narrow
  · rcases byte with byte | byte <;> rw [byte] <;> exact .inl rfl

variable {v : BitVec 64} {value : Node → BitVec 64} (reads : Reads k.left v value)
include reads

theorem compares_before :
    compares n value = holds (facing n) (v.setWidth (bits k.etype)) (c.vconst.setWidth (bits k.etype)) := by
  have integer := isInteger_narrow narrow
  have constant := comparison.operands.constant
  have cast := comparison.operands.cast
  have left := reads.constant c constant
  have right := reads.cast k cast rfl
  have same := comparison.operands.same
  rcases comparison.placed with ⟨rfl, rfl⟩ | ⟨rfl, rfl⟩
  · rw [facing, if_pos constant, holds_swapped, compares, left, right, same, convvtox_word integer, convvtox_word integer]
  · have notConstant : n.left.op ≠ OCONST := by rw [cast]; decide
    rw [facing, if_neg notConstant, compares, left, right, same, convvtox_word integer, convvtox_word integer]

theorem compares_after :
    compares (relcons n) value = holds (facing n) (v.setWidth (bits k.left.etype)) (c.vconst.setWidth (bits k.left.etype)) := by
  have integer := isInteger_operand comparison narrow
  have real := comparison.real
  have constant := comparison.operands.constant
  have typed : (c.setType k.left.type).etype = k.left.etype := by
    rw [Node.etype, Node.etype, type_setType _ (by rw [constant]; decide)]
  have left := reads.constant (c.setType k.left.type) (by rw [op_setType, constant])
  rw [vconst_setType, typed] at left
  have right := reads.operand
  have after := relcons_rewrites comparison narrow canonical
  have side : ∀ l r : Node, ((n.setLeft l).setRight r).left = l ∧ ((n.setLeft l).setRight r).right = r := by
    intro l r
    exact ⟨by rw [left_setRight, left_setLeft _ real], right_setRight _ (by rw [op_setLeft]; exact real)⟩
  by_cases first : n.left.op = OCONST
  · rw [if_pos first, if_pos first] at after
    rw [facing, if_pos first, holds_swapped, after, compares, (side _ _).1, (side _ _).2, op_setRight, op_setLeft, left, right, typed,
      convvtox_word integer]
  · rw [if_neg first, if_neg first] at after
    rw [facing, if_neg first, after, compares, (side _ _).1, (side _ _).2, op_setRight, op_setLeft, left, right, convvtox_word integer]

end Rewritten

end Compare

/-- What the constant and the types have to be: the cast is not one that `relcon` takes
off, or takes off nothing, or the constant fits. -/
def Sound (o : NodeKind) (X T : Etype) (c : BitVec 64) : Prop :=
  T ∉ narrowTypes ∨ X = T ∨ ¬ Canonical c T ∨ Fits o X T c

theorem preserved_iff_agree {n c k : Node} (comparison : Comparison n c k) (narrow : k.etype ∈ narrowTypes)
    (canonical : Canonical c.vconst k.etype) : Preserved n k.left ↔ Agree (facing n) k.left.etype k.etype c.vconst := by
  constructor
  · intro preserved v inside
    obtain ⟨value, reads⟩ := exists_reads comparison.operands.operand v
    rw [← compares_before comparison narrow canonical reads, ← compares_after comparison narrow canonical reads]
    exact preserved v value inside reads
  · intro agree v value inside reads
    rw [compares_before comparison narrow canonical reads, compares_after comparison narrow canonical reads]
    exact agree v inside

/-- `relcon` keeps the truth value of a comparison for every value of the operand
exactly if the constant allows it. -/
theorem relcon_preserves_iff {n c k : Node} (comparison : Comparison n c k) :
    Preserved n k.left ↔ Sound (facing n) k.left.etype k.etype c.vconst := by
  by_cases narrow : k.etype ∈ narrowTypes
  · by_cases canonical : Canonical c.vconst k.etype
    · have goes := goes_facing comparison.operands.operator
      have wide : k.left.etype = k.etype ∨
          (Agree (facing n) k.left.etype k.etype c.vconst ↔ Fits (facing n) k.left.etype k.etype c.vconst) := by
        rcases nilcast_narrow comparison.operands.noop narrow with same | ⟨byte, type | type⟩
        · exact .inl same
        · rw [type] at goes canonical ⊢
          exact .inr (agree_fits_short byte goes canonical)
        · rw [type] at goes canonical ⊢
          exact .inr (agree_fits_ushort byte goes canonical)
      rw [preserved_iff_agree comparison narrow canonical]
      rcases wide with same | wide
      · rw [same]
        exact iff_of_true (fun v _ => rfl) (.inr (.inl rfl))
      · simp only [Sound, narrow, canonical, wide, not_true_eq_false, false_or, iff_or_self]
        intro same
        rw [← wide, same]
        exact fun v _ => rfl
    · refine iff_of_true ?_ (.inr (.inr (.inl canonical)))
      intro v value _ _
      rw [relcons_stays comparison (.inr canonical)]
  · refine iff_of_true ?_ (.inl narrow)
    intro v value _ _
    rw [relcons_stays comparison (.inl narrow)]

/-- A variable of type `char`. -/
def charVariable : Node := node ⟨ONAME, some ⟨TCHAR, 1, 0⟩, 0, 0, OXXX⟩ Z Z

/-- The cast of it to `short`, and a constant of that type. -/
def shortCast : Node := node ⟨OCAST, some ⟨TSHORT, 2, 0⟩, 0, 0, OXXX⟩ charVariable Z

def shortConstant (c : BitVec 64) : Node := node ⟨OCONST, some ⟨TSHORT, 2, 0⟩, c, 0, OXXX⟩ Z Z

def shortEqual (c : BitVec 64) : Node := node ⟨OEQ, some ⟨TINT, 4, 0⟩, 0, 0, OXXX⟩ shortCast (shortConstant c)

theorem shortEqual_comparison (c : BitVec 64) : Comparison (shortEqual c) (shortConstant c) shortCast :=
  ⟨⟨rfl, rfl, rfl, rfl, .inl (List.mem_cons_self ..), by decide⟩, .inr ⟨rfl, rfl⟩⟩

theorem relcon_preserves_hundred : Comparison (shortEqual 100) (shortConstant 100) shortCast ∧
    Preserved (shortEqual 100) charVariable := by
  refine ⟨shortEqual_comparison 100, (relcon_preserves_iff (shortEqual_comparison 100)).mpr ?_⟩
  exact .inr (.inr (.inr (show convvtox (convvtox 100 TCHAR) TSHORT = 100 by decide)))

theorem relcon_not_preserves : Comparison (shortEqual 300) (shortConstant 300) shortCast ∧ Canonical 44 TCHAR ∧
    (∃ value, Reads charVariable 44 value ∧ compares (shortEqual 300) value = false ∧
      compares (relcons (shortEqual 300)) value = true) ∧ ¬ Preserved (shortEqual 300) charVariable := by
  have canonical : Canonical 44 TCHAR := by unfold Canonical; decide
  have inside : Canonical (shortConstant 300).vconst shortCast.etype := by unfold Canonical; decide
  obtain ⟨value, reads⟩ := (exists_reads (by decide) 44 : ∃ value, Reads charVariable 44 value)
  have before : compares (shortEqual 300) value = false := by
    rw [compares_before (shortEqual_comparison 300) (by decide) inside reads]
    decide
  have after : compares (relcons (shortEqual 300)) value = true := by
    rw [compares_after (shortEqual_comparison 300) (by decide) inside reads]
    decide
  refine ⟨shortEqual_comparison 300, canonical, ⟨value, reads, before, after⟩, ?_⟩
  intro preserved
  have same := preserved 44 value canonical reads
  rw [before, after] at same
  cases same

end Goken.Proofs.Relcon
