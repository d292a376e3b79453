import Goken.Sub
import Goken.Lib.ShiftMask

/-! What trees of shifts and masks compute, and that `simplifyshift` keeps it. -/

namespace Goken.Proofs.Shift
open Goken.Sub Node NodeKind Goken.Const Lib.ShiftMask

/-- The 32 bits that a tree computes. Leaves and other operations have the value that
`leaf` gives them. A shift has a value for the counts that leave bits of the word. -/
def word (leaf : Node → BitVec 32) : Node → Option (BitVec 32)
  | Z => none
  | node head l r => match head.op with
    | OCONST => some (head.vconst.setWidth 32)
    | OAND => do pure ((← word leaf l) &&& (← word leaf r))
    | OASHL => shift (fun x k => x <<< k) (word leaf l) (word leaf r)
    | OLSHR => shift (fun x k => x >>> k) (word leaf l) (word leaf r)
    | OASHR => shift (fun x k => x.sshiftRight k) (word leaf l) (word leaf r)
    | _ => some (leaf (node head l r))
where
  shift (f : BitVec 32 → Nat → BitVec 32) (x count : Option (BitVec 32)) : Option (BitVec 32) := do
    let x ← x
    let count ← count
    if count.toNat < 32 then pure (f x count.toNat) else none

/-- One shift of a word. -/
def shiftBy (o : NodeKind) (x : BitVec 32) (k : Nat) : BitVec 32 :=
  match o with
  | OASHL => x <<< k
  | OLSHR => x >>> k
  | _ => x.sshiftRight k

def isShift (o : NodeKind) : Prop := o = OASHL ∨ o = OLSHR ∨ o = OASHR

theorem isShift.real {o : NodeKind} (shift : isShift o) : o ≠ OXXX := by
  rcases shift with rfl | rfl | rfl <;> decide

section Word

variable {leaf : Node → BitVec 32} {n : Node}

theorem word_shift (shift : isShift n.op) : word leaf n = (word leaf n.left).bind fun x => (word leaf n.right).bind fun count =>
    if count.toNat < 32 then some (shiftBy n.op x count.toNat) else none := by
  cases n with
  | Z => exact absurd rfl shift.real
  | node head l r =>
    simp only [Node.op] at shift
    rcases shift with op | op | op <;> simp only [word, Node.op, op] <;> rfl

theorem word_and (op : n.op = OAND) :
    word leaf n = (word leaf n.left).bind fun x => (word leaf n.right).bind fun y => some (x &&& y) := by
  cases n with
  | Z => cases op
  | node head l r =>
    simp only [Node.op] at op
    simp only [word, op]
    rfl

theorem word_const (op : n.op = OCONST) : word leaf n = some (n.vconst.setWidth 32) := by
  cases n with
  | Z => cases op
  | node head l r =>
    simp only [Node.op] at op
    simp only [word, op, Node.vconst]

end Word

/-- The word that a rewritten tree computes from the operand. -/
def value (x : BitVec 32) : Rewrite → BitVec 32
  | .rewrite0 c3 => x &&& c3.setWidth 32
  | .rewrite1 o c1 c3 => shiftBy o (x &&& c3.setWidth 32) c1.toNat
  | .rewrite2 o c1 c3 => shiftBy o x c1.toNat &&& c3.setWidth 32

/-- The operation of a rewritten tree is a shift by less than a word. -/
def fits : Rewrite → Prop
  | .rewrite0 _ => True
  | .rewrite1 o c1 _ => isShift o ∧ 0 ≤ c1 ∧ c1 < 32
  | .rewrite2 o c1 _ => isShift o ∧ 0 ≤ c1 ∧ c1 < 32

theorem topbit_clear {m : BitVec 64} {k : Nat} (top : ¬ topbit m.toNat ≥ k) (i : Nat) (above : k ≤ i) : m.getLsbD i = false := by
  by_cases zero : m.toNat = 0
  · rw [BitVec.getLsbD, zero, Nat.zero_testBit]
  · obtain ⟨t, position, _, less⟩ := topbit_bounds zero
    rw [position] at top
    exact Nat.testBit_lt_two_pow (less.trans_le (Nat.pow_le_pow_right (by decide) (by omega)))

/-- The bits that the lower shift moves out of the word, where the mask has bits too,
and that the upper shift would have to bring back. -/
def leak (c1 c2 : Nat) (c3 : BitVec 64) (x : BitVec 32) : Nat := ((((x.setWidth 64) <<< c2) &&& c3) >>> 32).toNat % 2 ^ c1

section Combine

variable (x : BitVec 32) (m : BitVec 64) {a b : Nat} (lower : a < 32) (upper : b < 32)

theorem shrShr_value {rewrite : Rewrite} (found : shrShr b a m = some rewrite) :
    fits rewrite ∧ value x rewrite = ((x >>> a) &&& m.setWidth 32) >>> b := by
  unfold shrShr at found
  split at found
  · cases found
  · cases found
    have count : ((b : Int) + a).toNat = b + a := by omega
    refine ⟨⟨.inr (.inl rfl), by omega, by omega⟩, ?_⟩
    rw [value, count, shr_and_shr x m (by decide)]
    rfl

include lower upper

theorem shrShl_value : fits (shrShl b a m) ∧ value x (shrShl b a m) = ((x >>> a) &&& m.setWidth 32) <<< b := by
  unfold shrShl
  split
  · next less => 
    have count : ((b : Int) - a).toNat = b - a := by omega
    refine ⟨⟨.inl rfl, by omega, by omega⟩, ?_⟩
    rw [value, count, shr_and_shl_of_lt x m (by decide) (by omega)]
    rfl
  · split
    · next same =>
      obtain rfl : b = a := by omega
      exact ⟨trivial, (shr_and_shl_self x m (by decide)).symm⟩
    · have count : ((a : Int) - b).toNat = a - b := by omega
      refine ⟨⟨.inr (.inl rfl), by omega, by omega⟩, ?_⟩
      rw [value, count, shr_and_shl_of_gt x m (by decide) (by omega)]
      rfl

theorem shlShr_value {o : NodeKind} (down : o = OLSHR ∨ o = OASHR ∧ ∀ i, 31 ≤ i → m.getLsbD i = false) :
    fits (shlShr o b a m) ∧ value x (shlShr o b a m) = wide x m a b := by
  unfold shlShr
  split
  · next same =>
    obtain rfl : b = a := by omega
    exact ⟨trivial, and_wide x m (by decide)⟩
  · split
    · have count : ((b : Int) - a).toNat = b - a := by omega
      rw [value, count, ← shr_and_wide x m (show a < b by omega)]
      rcases down with rfl | ⟨rfl, clear⟩
      · exact ⟨⟨.inr (.inl rfl), by omega, by omega⟩, rfl⟩
      · refine ⟨⟨.inr (.inr rfl), by omega, by omega⟩, sshr_and x _ ?_⟩
        intro i above
        rw [BitVec.getLsbD_ushiftRight]
        exact clear _ (by omega)
    · have count : ((a : Int) - b).toNat = a - b := by omega
      refine ⟨⟨.inl rfl, by omega, by omega⟩, ?_⟩
      rw [value, count, ← shl_and_wide x m (by decide) (by omega)]
      rfl

omit lower in
/-- The upper shift of a mask over a lower shift, in a word and in a wider one. -/
theorem wide_eq_iff : wide x m a b = ((x <<< a) &&& m.setWidth 32) >>> b ↔ leak b a m x = 0 := by
  have cut : (x <<< a) &&& m.setWidth 32 = ((x.setWidth 64 <<< a) &&& m).setWidth 32 := by
    rw [BitVec.setWidth_and, ← shl_setWidth x (show 32 ≤ 64 by decide)]
  rw [cut, wide, leak]
  exact setWidth_shr_iff _ (by omega)

omit lower upper in
theorem leak_clear (clear : ∀ i, 31 ≤ i → m.getLsbD i = false) : leak b a m x = 0 := by
  have zero : ((x.setWidth 64 <<< a) &&& m) >>> 32 = 0 := by
    apply BitVec.eq_of_getLsbD_eq
    intro i _
    rw [BitVec.getLsbD_ushiftRight, BitVec.getLsbD_and, clear _ (by omega), Bool.and_false]
    simp
  rw [leak, zero]
  exact Nat.zero_mod _

/-- Every case but one keeps the word, and that one does when nothing leaks. -/
theorem combine_value {o s : NodeKind} {rewrite : Rewrite} (found : combine o s b a m = some rewrite) :
    fits rewrite ∧ (value x rewrite = shiftBy o (shiftBy s x a &&& m.setWidth 32) b ↔
      ¬ (o = OLSHR ∧ s = OASHL ∧ leak b a m x ≠ 0)) := by
  have kept (other : ¬ (o = OLSHR ∧ s = OASHL))
      (same : fits rewrite ∧ value x rewrite = shiftBy o (shiftBy s x a &&& m.setWidth 32) b) :
      fits rewrite ∧ (value x rewrite = shiftBy o (shiftBy s x a &&& m.setWidth 32) b ↔
        ¬ (o = OLSHR ∧ s = OASHL ∧ leak b a m x ≠ 0)) := by
    refine ⟨same.1, ?_⟩
    constructor
    · rintro _ ⟨first, second, _⟩
      exact other ⟨first, second⟩
    · exact fun _ => same.2
  unfold combine at found
  split at found
  · apply kept (by decide)
    split at found
    · cases found
    · cases found
      have count : ((b : Int) + a).toNat = b + a := by omega
      refine ⟨⟨.inl rfl, by omega, by omega⟩, ?_⟩
      rw [value, count]
      exact (shl_and_shl x m).symm
  · apply kept (by decide)
    split at found
    · cases found
    · next top =>
      cases found
      obtain ⟨fit, same⟩ := shrShl_value x m lower upper
      refine ⟨fit, same.trans ?_⟩
      rw [← sshr_and x m (fun i above => topbit_clear (k := 32 - a) (by omega) i above)]
      rfl
  · apply kept (by decide)
    cases found
    exact shrShl_value x m lower upper
  · apply kept (by decide)
    split at found
    · cases found
    · split at found
      · cases found
      · next positive top =>
        obtain ⟨fit, same⟩ := shrShr_value x m found
        refine ⟨fit, same.trans ?_⟩
        have clear := topbit_clear (m := m) (k := 32 - a) (by omega)
        rw [← sshr_and x m clear]
        exact (and_sshr m _ (.inr (clear 31 (by omega)))).symm
  · apply kept (by decide)
    split at found
    · cases found
    · next top =>
      obtain ⟨fit, same⟩ := shrShr_value x m found
      refine ⟨fit, same.trans ?_⟩
      rw [← sshr_and x m (fun i above => topbit_clear (k := 32 - a) (by omega) i above)]
      rfl
  · apply kept (by decide)
    split at found
    · cases found
    · next top =>
      obtain ⟨fit, same⟩ := shrShr_value x m found
      refine ⟨fit, same.trans (and_sshr m _ ?_).symm⟩
      by_cases zero : a = 0
      · exact .inr (topbit_clear (k := 31) (by omega) 31 (by omega))
      · exact .inl (by rw [BitVec.getLsbD_ushiftRight]; exact BitVec.getLsbD_of_ge _ _ (by omega))
  · apply kept (by decide)
    exact shrShr_value x m found
  · apply kept (by decide)
    split at found
    · cases found
    · next top =>
      cases found
      have clear := topbit_clear (m := m) (k := 31) top
      obtain ⟨fit, same⟩ := shlShr_value x m lower upper (.inr ⟨rfl, clear⟩)
      refine ⟨fit, same.trans ?_⟩
      rw [(wide_eq_iff x m upper).mpr (leak_clear x m clear)]
      exact (and_sshr m _ (.inr (clear 31 (by omega)))).symm
  · cases found
    obtain ⟨fit, same⟩ := shlShr_value x m lower upper (.inl rfl)
    refine ⟨fit, ?_⟩
    rw [same]
    refine (wide_eq_iff x m upper).trans ?_
    simp
  · cases found

end Combine

theorem combine_isShift {o s : NodeKind} {c1 c2 : Int} {c3 : BitVec 64} {rewrite : Rewrite}
    (found : combine o s c1 c2 c3 = some rewrite) : isShift o ∧ isShift s := by
  unfold combine at found
  unfold isShift
  split at found
  case h_10 => cases found
  all_goals simp

/-- The count of a shift by a constant. -/
def count (n : Node) : Nat := (n.vconst.setWidth 32).toNat

theorem int_eq_count {n : Node} (small : count n < 32) : int n.vconst = count n := by
  unfold count at small ⊢
  rw [int, BitVec.toInt_eq_toNat_of_lt (by omega)]

section Tree

variable {leaf : Node → BitVec 32} {n : Node} {v x : BitVec 32}

/-- A shift by a constant that has a value. -/
theorem word_shift_const (shift : isShift n.op) (constant : n.right.op = OCONST) (defined : word leaf n = some v) :
    ∃ x, word leaf n.left = some x ∧ count n.right < 32 ∧ v = shiftBy n.op x (count n.right) := by
  rw [word_shift shift, Option.bind_eq_some_iff] at defined
  obtain ⟨x, operand, defined⟩ := defined
  rw [word_const constant, Option.bind_some, Option.ite_none_right_eq_some, Option.some.injEq] at defined
  exact ⟨x, operand, defined.1, defined.2.symm⟩

/-- The value of a shift by a constant. -/
theorem shift_word {l r : Node} {o : NodeKind} {c : Int} (shift : isShift o) (low : 0 ≤ c) (high : c < 32) (real : n.op ≠ OXXX)
    (constant : r.op = OCONST) (operand : word leaf l = some x) :
    word leaf (((n.setLeft l).setRight (r.setVconst (BitVec.ofInt 64 c))).setOp o) = some (shiftBy o x c.toNat) := by
  have op : (((n.setLeft l).setRight (r.setVconst (BitVec.ofInt 64 c))).setOp o).op = o := op_setOp o (by simpa using real)
  have counts : ((BitVec.ofInt 64 c).setWidth 32).toNat = c.toNat := by
    rw [BitVec.toNat_setWidth, BitVec.toNat_ofInt]
    omega
  rw [word_shift (by rw [op]; exact shift), op, left_setOp, left_setRight, left_setLeft l real, operand, right_setOp,
    right_setRight _ (by simpa using real), word_const (by simpa using constant), vconst_setVconst _ (by rw [constant]; decide)]
  simp only [Option.bind_some, counts]
  rw [if_pos (by omega)]

/-- The value under a new constant mask. -/
theorem mask_word {l r : Node} {c3 : BitVec 64} (mask : n.op = OAND) (constant : r.op = OCONST) (operand : word leaf l = some x) :
    word leaf ((n.setLeft l).setRight (r.setVconst c3)) = some (x &&& c3.setWidth 32) := by
  have real : n.op ≠ OXXX := by rw [mask]; decide
  rw [word_and (by simpa using mask), left_setRight, left_setLeft l real, operand, right_setRight _ (by simpa using real),
    word_const (by simpa using constant), vconst_setVconst _ (by rw [constant]; decide)]
  rfl

theorem apply_word {rewrite : Rewrite} (mask : masked n) (outer : isShift n.op) (inner : isShift n.left.left.op)
    (operand : word leaf n.left.left.left = some x) (fit : fits rewrite) : word leaf (rewrite.apply n) = some (value x rewrite) := by
  obtain ⟨_, constant, both, masking, constant'⟩ := mask
  cases rewrite with
  | rewrite0 c3 => exact mask_word both masking operand
  | rewrite1 o c1 c3 =>
    obtain ⟨shift, low, high⟩ := fit
    exact shift_word shift low high outer.real constant (mask_word both masking operand)
  | rewrite2 o c1 c3 =>
    obtain ⟨shift, low, high⟩ := fit
    have below := shift_word shift low high inner.real constant' operand
    rw [setLeft_left] at below
    rw [Rewrite.apply, setRight_setLeft]
    exact mask_word both masking below

/-- A tree of two shifts and a mask that has a value. -/
theorem masked_word (mask : masked n) (outer : isShift n.op) (inner : isShift n.left.left.op) (defined : word leaf n = some v) :
    ∃ x, word leaf n.left.left.left = some x ∧ count n.right < 32 ∧ count n.left.left.right < 32 ∧
      v = shiftBy n.op (shiftBy n.left.left.op x (count n.left.left.right) &&& n.left.right.vconst.setWidth 32) (count n.right) := by
  obtain ⟨_, constant, both, masking, constant'⟩ := mask
  obtain ⟨y, masked, upper, rfl⟩ := word_shift_const outer constant defined
  rw [word_and both, word_const masking, Option.bind_eq_some_iff] at masked
  obtain ⟨z, below, masked⟩ := masked
  cases masked
  obtain ⟨x, operand, lower, rfl⟩ := word_shift_const inner constant' below
  exact ⟨x, operand, upper, lower, rfl⟩

end Tree

/-- Bits of the operand come back: a shift to the left moves them out of the word, the
stored mask has bits above the word, and a logical shift to the right follows. -/
def Leaks (leaf : Node → BitVec 32) (n : Node) : Prop :=
  masked n ∧ n.op = OLSHR ∧ n.left.left.op = OASHL ∧ ∃ x, word leaf n.left.left.left = some x ∧
    leak (count n.right) (count n.left.left.right) n.left.right.vconst x ≠ 0

/-- The rewritten tree has the value of the original, for every tree and every value of
its leaves, unless bits come back. -/
theorem simplifyshift_word_iff (leaf : Node → BitVec 32) (n : Node) (v : BitVec 32) (defined : word leaf n = some v) :
    word leaf (simplifyshift n) = some v ↔ ¬ Leaks leaf n := by
  unfold simplifyshift
  split
  next mask =>
    cases found : combine n.op n.left.left.op (int n.right.vconst) (int n.left.left.right.vconst) n.left.right.vconst with
    | none =>
      refine ⟨fun _ => ?_, fun _ => defined⟩
      rintro ⟨_, outer, inner, _⟩
      rw [outer, inner] at found
      cases found
    | some rewrite =>
      obtain ⟨outer, inner⟩ := combine_isShift found
      obtain ⟨x, operand, upper, lower, rfl⟩ := masked_word mask outer inner defined
      rw [int_eq_count upper, int_eq_count lower] at found
      obtain ⟨fit, same⟩ := combine_value x n.left.right.vconst lower upper found
      have rewritten := apply_word mask outer inner operand fit
      simp only [rewritten, Option.some.injEq, same, Leaks, operand, mask, true_and, exists_eq_left', not_and]
  next unmasked =>
    refine ⟨fun _ leaks => unmasked leaks.1, fun _ => defined⟩

/-- `((x << 4) & mask) >> 4`, the shift to the right logical, of a variable. -/
def example4 (mask : BitVec 64) : Node :=
  let constant (c : BitVec 64) := node ⟨OCONST, some ⟨.TINT, 4, 0⟩, c, 0, OXXX⟩ Z Z
  let binary (o : NodeKind) (l r : Node) := node ⟨o, some ⟨.TUINT, 4, 0⟩, 0, 0, OXXX⟩ l r
  binary OLSHR (binary OAND (binary OASHL (node ⟨ONAME, some ⟨.TUINT, 4, 0⟩, 0, 0, OXXX⟩ Z Z) (constant 4)) (constant mask)) (constant 4)

theorem simplifyshift_word_example : word (fun _ => 0x80000123) (simplifyshift (example4 0xFFF0)) = some 0x123 ↔
    ¬ Leaks (fun _ => 0x80000123) (example4 0xFFF0) :=
  simplifyshift_word_iff (fun _ => 0x80000123) (example4 0xFFF0) 0x123 (by decide)

theorem simplifyshift_leaks : word (fun _ => 0x80000000) (example4 (-16)) = some 0 ∧
    word (fun _ => 0x80000000) (simplifyshift (example4 (-16))) = some 0x80000000 := by
  decide

end Goken.Proofs.Shift
