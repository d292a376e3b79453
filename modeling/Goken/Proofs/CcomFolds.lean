import Goken.Com

/-! What may become a constant in the general rewrite, by the shape of the tree alone. The
rewrite never makes a tree that may fold of one that may not. -/

namespace Goken.Proofs.CcomFolds
open Goken.Scon Goken.Com Node NodeKind Lib.Logged

/-- A constant that is not zero. -/
def literal (n : Node) : Bool := decide (n.op = OCONST ∧ Scon.vconst n ≠ 0)

/-- The operations that fold when both operands do. -/
def both : List NodeKind :=
  [OADD, OSUB, OOR, OXOR, OMOD, OLMOD, ONEG, OCOM, ONOT, OEQ, ONE, OLT, OGT, OLE, OGE, OLO, OHI, OLS, OHS]

/-- The operations that fold only if the left operand does. -/
def first : List NodeKind := [OCAST, OADDR, OIND, OASHR, OASHL, OLSHR, OCOND, OANDAND, OOROR]

/-- The operations that fold if an operand becomes zero. -/
def products : List NodeKind := [OMUL, OLMUL, ODIV, OLDIV]

/-- The tree may become a constant; nothing counts as one, as in the test on the operands of a fold. -/
def folds : Node → Bool
  | Z => true
  | node head l r =>
    if head.op = OCONST then true
    else if head.op = OAND then folds l || folds r
    else if head.op ∈ first then folds l
    else if head.op ∈ products then folds l && (folds r || !literal l) || folds r && !literal r
    else decide (head.op ∈ both) && folds l && folds r

/-- The tree may become zero. -/
def vanishes (n : Node) : Bool := folds n && !literal n

/-- The left operand of an `&&` or `||` may become a constant that decides it. -/
def decides (n : Node) : Bool := if n.op = OANDAND then vanishes n.left else decide (n.op = OOROR) && folds n.left

section Shapes

variable {n : Node}

theorem folds_node (head : Head) (l r : Node) : folds (node head l r) =
    if head.op = OCONST then true
    else if head.op = OAND then folds l || folds r
    else if head.op ∈ first then folds l
    else if head.op ∈ products then folds l && (folds r || !literal l) || folds r && !literal r
    else decide (head.op ∈ both) && folds l && folds r := rfl

theorem folds_constant (constant : n.op = OCONST) : folds n = true := by
  cases n with
  | Z => rfl
  | node head l r => exact (folds_node head l r).trans (if_pos constant)

theorem folds_and (op : n.op = OAND) : folds n = (folds n.left || folds n.right) := by
  cases n with
  | Z => rfl
  | node head l r =>
    have op : head.op = OAND := op
    rw [folds_node, if_neg (by rw [op]; decide), if_pos op]
    rfl

theorem folds_first (op : n.op ∈ first) : folds n = folds n.left := by
  cases n with
  | Z => rfl
  | node head l r =>
    have op : head.op ∈ first := op
    rw [folds_node, if_neg (ne_of_mem_of_not_mem op (by decide)), if_neg (ne_of_mem_of_not_mem op (by decide)), if_pos op]
    rfl

theorem folds_product (op : n.op ∈ products) :
    folds n = (folds n.left && folds n.right || vanishes n.left || vanishes n.right) := by
  cases n with
  | Z => rfl
  | node head l r =>
    have op : head.op ∈ products := op
    have other : head.op ∉ first := (by decide : ∀ o ∈ products, o ∉ first) _ op
    rw [folds_node, if_neg (ne_of_mem_of_not_mem op (by decide)), if_neg (ne_of_mem_of_not_mem op (by decide)), if_neg other, if_pos op,
      Bool.and_or_distrib_left]
    rfl

theorem folds_both (op : n.op ∈ both) : folds n = (folds n.left && folds n.right) := by
  cases n with
  | Z => rfl
  | node head l r =>
    have op : head.op ∈ both := op
    have other : head.op ∉ first ∧ head.op ∉ products := (by decide : ∀ o ∈ both, o ∉ first ∧ o ∉ products) _ op
    rw [folds_node, if_neg (ne_of_mem_of_not_mem op (by decide)), if_neg (ne_of_mem_of_not_mem op (by decide)), if_neg other.1,
      if_neg other.2, decide_eq_true op, Bool.true_and]
    rfl

/-- No other operation folds. -/
theorem folds_cases (folded : folds n = true) :
    n = Z ∨ n.op = OCONST ∨ n.op = OAND ∨ n.op ∈ first ∨ n.op ∈ products ∨ n.op ∈ both := by
  cases n with
  | Z => exact Or.inl rfl
  | node head l r =>
    by_contra none
    simp only [Node.op, not_or] at none
    obtain ⟨-, constant, conjunction, op, op', op''⟩ := none
    rw [folds_node, if_neg constant, if_neg conjunction, if_neg op, if_neg op', decide_eq_false op''] at folded
    cases folded

/-- Only trees that may fold are folded. -/
theorem foldop_stays (left : folds n.left = true) (right : folds n.right = true) (never : folds n = false) : foldop n = .stays := by
  cases n with
  | Z => rfl
  | node head l r =>
    simp only [Node.left, Node.right] at left right
    simp only [folds_node, left, right] at never
    simp only [foldop, Node.op]
    generalize head.op = o at never
    cases o <;> first | rfl | cases never

theorem evconst_folds {m : Node} (folded : evconst n = some m) (left : folds n.left = true) (right : folds n.right = true)
    (constant : folds m = true) : folds n = true := by
  by_contra never
  rw [Bool.not_eq_true] at never
  have stays : evconst n = some n := by
    cases n with
    | Z => rfl
    | node head l r =>
      rw [evconst, foldop_stays left right never]
      exact ite_self _
  cases stays.symm.trans folded
  rw [never] at constant
  cases constant

end Shapes

/-- What the rewrite leaves of a tree. -/
def Fades (n m : Node) : Prop := (folds m = true → folds n = true) ∧ (n.op = OCONST → m = n)

theorem Fades.vanishes {n m : Node} (fades : Fades n m) (zero : vanishes m = true) : vanishes n = true := by
  unfold CcomFolds.vanishes at zero ⊢
  rw [Bool.and_eq_true] at zero ⊢
  by_cases constant : n.op = OCONST
  · rw [fades.2 constant] at zero
    exact zero
  · refine ⟨fades.1 zero.1, ?_⟩
    rw [literal, decide_eq_false fun both => constant both.1]
    rfl

theorem decides_fades {head : Head} {l l' r : Node} (fades : Fades l l') (decided : decides (node head l' r) = true) :
    decides (node head l r) = true := by
  have shape (l : Node) : decides (node head l r) = if head.op = OANDAND then vanishes l else decide (head.op = OOROR) && folds l := rfl
  rw [shape] at decided ⊢
  split_ifs at decided ⊢
  · exact fades.vanishes decided
  · rw [Bool.and_eq_true] at decided ⊢
    exact ⟨decided.1, fades.1 decided.2⟩

/-- A number is the value of a constant. -/
theorem constant_of_vconst {n : Node} {v : Int} (value : Scon.vconst n = v) (small : v ≠ uninteresting) : n.op = OCONST := by
  by_contra other
  rw [Scon.vconst, if_pos other] at value
  exact small value.symm

theorem vanishes_of_vconst {n : Node} (zero : Scon.vconst n = 0) : vanishes n = true := by
  rw [vanishes, folds_constant (constant_of_vconst zero (by decide)), literal, decide_eq_false fun both => both.2 zero]
  rfl

section Rewritten

variable {n l r : Node}

theorem fades_refl (n : Node) : Fades n n := ⟨id, fun _ => rfl⟩

theorem left_rewritten (real : n.op ≠ OXXX) : ((n.setLeft l).setRight r).left = l := by rw [left_setRight, left_setLeft _ real]

theorem right_rewritten (real : n.op ≠ OXXX) : ((n.setLeft l).setRight r).right = r := right_setRight _ (by rw [op_setLeft]; exact real)

theorem op_rewritten : ((n.setLeft l).setRight r).op = n.op := by rw [op_setRight, op_setLeft]

/-- With rewritten operands a tree folds no more than before. -/
theorem folds_rewritten (left : Fades n.left l) (right : Fades n.right r) (constant : folds ((n.setLeft l).setRight r) = true) :
    folds n = true := by
  have same : ((n.setLeft l).setRight r).op = n.op := op_rewritten
  have cases := folds_cases constant
  rw [same] at cases
  by_cases real : n.op = OXXX
  · cases n with
    | Z => rfl
    | node head l' r' =>
      rw [real] at cases
      exact absurd (cases.resolve_left Node.noConfusion) (by decide)
  · have first' := left_rewritten (l := l) (r := r) real
    have second' := right_rewritten (l := l) (r := r) real
    rcases cases with nothing | number | conjunction | op | op | op
    · exact absurd (same.symm.trans (congrArg Node.op nothing)) real
    · exact folds_constant number
    · rw [folds_and (same.trans conjunction), first', second', Bool.or_eq_true] at constant
      rw [folds_and conjunction, Bool.or_eq_true]
      exact constant.imp left.1 right.1
    · rw [folds_first (same.symm ▸ op), first'] at constant
      rw [folds_first op, left.1 constant]
    · rw [folds_product (same.symm ▸ op), first', second'] at constant
      simp only [Bool.or_eq_true, Bool.and_eq_true] at constant
      rw [folds_product op]
      simp only [Bool.or_eq_true, Bool.and_eq_true]
      exact constant.imp (Or.imp (And.imp left.1 right.1) left.vanishes) right.vanishes
    · rw [folds_both (same.symm ▸ op), first', second', Bool.and_eq_true] at constant
      rw [folds_both op, left.1 constant.1, right.1 constant.2]
      rfl

end Rewritten

abbrev Ensures (run : Run Node) (post : Node → Prop) : Prop := Yields (fun _ : Node × Node => True) (fun _ => True) run post

section Cases

variable {n : Node}

theorem folds_operand (present : isZ n ∨ n.op = OCONST) : folds n = true := by
  rcases present with nothing | constant
  · cases n with
    | Z => rfl
    | node => cases nothing
  · exact folds_constant constant

theorem ensures_common (n : Node) : Ensures (common n) (fun m => folds m = true → folds n = true) := by
  unfold common
  split
  next present => exact yields_lift fun m folded => evconst_folds folded (folds_operand present.1) (folds_operand present.2)
  · exact yields_pure id

/-- The last step, when the operands have been rewritten. -/
theorem ensures_folded {n' : Node} (mono : folds n' = true → folds n = true) : Ensures (common n') (fun m => folds m = true → folds n = true) :=
  yields_weaken (ensures_common n') fun _ fades constant => mono (fades constant)

variable {again : Node → Run Node} (keeps : ∀ m, Ensures (again m) (Fades m))
include keeps

theorem ensures_operands : Ensures (ccomOperands again n) (fun m => ∃ l r, m = (n.setLeft l).setRight r ∧ Fades n.left l ∧ Fades n.right r) := by
  apply yields_bind (keeps n.left)
  intro l left
  apply yields_bind (keeps n.right)
  intro r right
  exact yields_pure ⟨l, r, rfl, left, right⟩

theorem ensures_moved {x y : Node} (mono : folds ((n.setLeft x).setRight y) = true → folds n = true) :
    Ensures (again ((n.setLeft x).setRight y)) (fun m => folds m = true → folds n = true) :=
  yields_weaken (keeps _) fun _ fades constant => mono (fades.1 constant)

/-- The operands of a sum that are moved fold already. -/
theorem ensures_commute (op : n.op ∈ [OADD, OOR, OXOR, OAND]) : Ensures (commute again n) (fun m => folds m = true → folds n = true) := by
  have real : n.op ≠ OXXX := by
    intro none
    rw [none] at op
    exact absurd op (by decide)
  have moved (x y : Node) (mono : n.op ∈ both → folds x = true → folds y = true → folds n = true)
      (one : folds n.left = true ∨ folds n.right = true) (constant : folds ((n.setLeft x).setRight y) = true) : folds n = true := by
    by_cases conjunction : n.op = OAND
    · rw [folds_and conjunction, Bool.or_eq_true]
      exact one
    · have sum : n.op ∈ both := by
        revert op conjunction
        generalize n.op = o
        cases o <;> decide
      rw [folds_both (op_rewritten.symm ▸ sum), left_rewritten real, right_rewritten real, Bool.and_eq_true] at constant
      exact mono sum constant.1 constant.2
  have inner {m : Node} (sum : n.op ∈ both) (same : m.op = n.op) : folds m = (folds m.left && folds m.right) := folds_both (same.symm ▸ sum)
  simp only [commute]
  split_ifs with one two three four
  · refine ensures_moved keeps (moved _ _ (fun sum _ second => ?_) (Or.inr (folds_constant one.1)))
    rw [folds_both sum, inner sum one.2.1, folds_constant one.2.2, second, folds_constant one.1]
    rfl
  · refine ensures_moved keeps (moved _ _ (fun sum _ second => ?_) (Or.inr (folds_constant two.1)))
    rw [folds_both sum, inner sum two.2.1, folds_constant two.2.2, second, folds_constant two.1]
    rfl
  · refine ensures_moved keeps (moved _ _ (fun sum first _ => ?_) (Or.inl (folds_constant three.1)))
    rw [folds_both sum, inner sum three.2.1, folds_constant three.2.2, first, folds_constant three.1]
    rfl
  · refine ensures_moved keeps (moved _ _ (fun sum first _ => ?_) (Or.inl (folds_constant four.1)))
    rw [folds_both sum, inner sum four.2.1, folds_constant four.2.2, first, folds_constant four.1]
    rfl
  · exact ensures_common n

theorem ensures_cast (op : n.op = OCAST) : Ensures (ccomCast again n) (fun m => folds m = true → folds n = true) := by
  have cast : folds n = folds n.left := folds_first (by rw [op]; decide)
  have retyped (l : Node) (t : Option Ty) : folds (l.setType t) = folds l := by cases l <;> rfl
  apply yields_bind (keeps n.left)
  intro l left
  have mono : folds (n.setLeft l) = true → folds n = true := by
    rw [folds_first (by rw [op_setLeft, op]; decide), left_setLeft _ (by rw [op]; decide), cast]
    exact left.1
  have dropped (m : Node) (fades : folds m = true → folds n = true) : folds (dropCast l m) = true → folds n = true := by
    unfold dropCast
    split_ifs
    · exact fades
    · rw [retyped, cast]
      exact left.1
    · exact fades
  dsimp only
  split_ifs with constant
  · apply yields_bind (yields_lift fun m folded => folded)
    intro m _
    exact yields_pure (dropped m fun _ => by rw [cast, left.1 (folds_constant constant)])
  · exact yields_pure (dropped _ mono)

theorem ensures_cancel {other : NodeKind} (op : n.op = OADDR ∨ n.op = OIND) (inverse : other ∈ first) :
    Ensures (ccomCancel again other n) (fun m => folds m = true → folds n = true) := by
  have listed : n.op ∈ first := by rcases op with op | op <;> rw [op] <;> decide
  have real : n.op ≠ OXXX := by rcases op with op | op <;> rw [op] <;> decide
  have address := folds_first listed
  apply yields_bind (keeps n.left)
  intro l left
  split_ifs with cancels
  · refine yields_pure fun constant => ?_
    have retyped : folds (l.left.setType n.type) = folds l.left := by cases l.left <;> rfl
    rw [retyped] at constant
    rw [address, left.1 (by rw [folds_first (cancels.symm ▸ inverse), constant])]
  · refine ensures_folded fun constant => ?_
    rw [folds_first (by rw [op_setLeft]; exact listed), left_setLeft _ real] at constant
    rw [address, left.1 constant]

theorem ensures_add (op : n.op ∈ [OADD, OOR, OXOR]) : Ensures (ccomAdd again n) (fun m => folds m = true → folds n = true) := by
  have sum : n.op ∈ both := by
    revert op
    generalize n.op = o
    cases o <;> decide
  apply yields_bind (keeps n.left)
  intro l left
  dsimp only
  rw [right_setLeft]
  split_ifs with zero
  · refine yields_weaken (keeps n.right) fun m right constant => ?_
    rw [folds_both sum, left.1 (folds_constant (constant_of_vconst zero (by decide))), right.1 constant]
    rfl
  · apply yields_bind (keeps n.right)
    intro r right
    split_ifs with nothing
    · refine yields_pure fun constant => ?_
      rw [folds_both sum, left.1 constant, right.1 (folds_constant (constant_of_vconst nothing (by decide)))]
      rfl
    · refine yields_weaken (ensures_commute keeps (n := (n.setLeft l).setRight r) ?_) fun m fades constant =>
        folds_rewritten left right (fades constant)
      rw [op_rewritten]
      revert op
      generalize n.op = o
      cases o <;> decide

theorem ensures_and (op : n.op = OAND) : Ensures (ccomAnd again n) (fun m => folds m = true → folds n = true) := by
  have real : n.op ≠ OXXX := by rw [op]; decide
  apply yields_bind (ensures_operands keeps)
  rintro _ ⟨l, r, rfl, left, right⟩
  rw [left_rewritten real, right_rewritten real]
  split_ifs
  · exact yields_pure fun constant => by rw [folds_and op, left.1 constant]; rfl
  · exact yields_pure fun constant => by rw [folds_and op, right.1 constant, Bool.or_true]
  · exact yields_weaken (ensures_commute keeps (by rw [op_rewritten, op]; decide)) fun m fades constant =>
      folds_rewritten left right (fades constant)

theorem ensures_shift (op : n.op ∈ [OASHR, OASHL, OLSHR]) : Ensures (ccomShift again n) (fun m => folds m = true → folds n = true) := by
  have listed : n.op ∈ first := by
    revert op
    generalize n.op = o
    cases o <;> decide
  apply yields_bind (keeps n.left)
  intro l left
  dsimp only
  rw [right_setLeft]
  split_ifs
  · exact yields_pure fun constant => by rw [folds_first listed, left.1 constant]
  · apply yields_bind (keeps n.right)
    intro r right
    split_ifs
    · exact yields_pure fun constant => by rw [folds_first listed, left.1 constant]
    · exact ensures_folded (folds_rewritten left right)

theorem ensures_mul (op : n.op ∈ [OMUL, OLMUL]) : Ensures (ccomMul again n) (fun m => folds m = true → folds n = true) := by
  have product : n.op ∈ products := by
    revert op
    generalize n.op = o
    cases o <;> decide
  apply yields_bind (keeps n.left)
  intro l left
  dsimp only
  rw [right_setLeft]
  split_ifs with zero one
  · refine yields_pure fun _ => ?_
    rw [folds_product product, left.vanishes (vanishes_of_vconst zero.1), Bool.or_true, Bool.true_or]
  · refine yields_weaken (keeps n.right) fun m right constant => ?_
    rw [folds_product product, left.1 (folds_constant (constant_of_vconst one (by decide))), right.1 constant]
    rfl
  · apply yields_bind (keeps n.right)
    intro r right
    split_ifs with nothing whole
    · refine yields_pure fun _ => ?_
      rw [folds_product product, right.vanishes (vanishes_of_vconst nothing.1), Bool.or_true]
    · refine yields_pure fun constant => ?_
      rw [folds_product product, left.1 constant, right.1 (folds_constant (constant_of_vconst whole (by decide)))]
      rfl
    · exact ensures_folded (folds_rewritten left right)

theorem ensures_div (op : n.op ∈ [ODIV, OLDIV]) : Ensures (ccomDiv again n) (fun m => folds m = true → folds n = true) := by
  have product : n.op ∈ products := by
    revert op
    generalize n.op = o
    cases o <;> decide
  apply yields_bind (keeps n.left)
  intro l left
  dsimp only
  rw [right_setLeft]
  split_ifs with zero
  · refine yields_pure fun _ => ?_
    rw [folds_product product, left.vanishes (vanishes_of_vconst zero.1), Bool.or_true, Bool.true_or]
  · apply yields_bind (keeps n.right)
    intro r right
    split_ifs with nothing whole
    · refine yields_pure fun _ => ?_
      rw [folds_product product, right.vanishes (vanishes_of_vconst nothing), Bool.or_true]
    · refine yields_pure fun constant => ?_
      rw [folds_product product, left.1 constant, right.1 (folds_constant (constant_of_vconst whole (by decide)))]
      rfl
    · exact ensures_folded (folds_rewritten left right)

/-- A difference with a constant is made a sum. -/
theorem ensures_sub (op : n.op = OSUB) : Ensures (ccomSub again n) (fun m => folds m = true → folds n = true) := by
  have difference : n.op ∈ both := by rw [op]; decide
  apply yields_bind (keeps n.right)
  intro r right
  dsimp only
  split_ifs with constant
  · have sum : ((n.setRight r).setOp OADD).setRight (negated r) = ((n.setOp OADD).setLeft n.left).setRight (negated r) := by
      cases n <;> rfl
    have added : (n.setOp OADD).op = OADD := op_setOp _ (by rw [op]; decide)
    rw [sum]
    refine yields_weaken (keeps _) fun m fades folded => ?_
    have whole := fades.1 folded
    rw [folds_both (by rw [op_rewritten, added]; decide), left_rewritten (by rw [added]; decide), Bool.and_eq_true] at whole
    rw [folds_both difference, whole.1, right.1 (folds_constant constant)]
    rfl
  · rw [left_setRight]
    apply yields_bind (keeps n.left)
    intro l left
    rw [setRight_setLeft]
    exact ensures_folded (folds_rewritten left right)

theorem ensures_andand (op : n.op = OANDAND) : Ensures (ccomAndand again n) (fun m => folds m = true → folds n = true) := by
  apply yields_bind (keeps n.left)
  intro l left
  dsimp only
  split_ifs
  · exact yields_pure fun constant => by rw [folds_first (by rw [op]; decide), left.1 constant]
  · rw [right_setLeft]
    apply yields_bind (keeps n.right)
    intro r right
    exact ensures_folded (folds_rewritten left right)

theorem ensures_oror (op : n.op = OOROR) : Ensures (ccomOror again n) (fun m => folds m = true → folds n = true) := by
  apply yields_bind (keeps n.left)
  intro l left
  dsimp only
  split_ifs with nonzero
  · exact yields_pure fun _ => by rw [folds_first (by rw [op]; decide), left.1 (folds_constant nonzero.1)]
  · rw [right_setLeft]
    apply yields_bind (keeps n.right)
    intro r right
    exact ensures_folded (folds_rewritten left right)

theorem ensures_cond (op : n.op = OCOND) : Ensures (ccomCond again n) (fun m => folds m = true → folds n = true) := by
  have real : n.op ≠ OXXX := by rw [op]; decide
  have listed : n.op ∈ first := by rw [op]; decide
  apply yields_bind (ensures_operands keeps)
  rintro _ ⟨l, r, rfl, left, right⟩
  rw [left_rewritten real]
  split_ifs with constant
  · exact yields_pure fun _ => by rw [folds_first listed, left.1 (folds_constant constant)]
  · exact yields_pure fun _ => by rw [folds_first listed, left.1 (folds_constant constant)]
  · exact yields_pure (folds_rewritten left right)

theorem ensures_default : Ensures (do let n ← ccomOperands again n; common n) (fun m => folds m = true → folds n = true) := by
  apply yields_bind (ensures_operands keeps)
  rintro _ ⟨l, r, rfl, left, right⟩
  exact ensures_folded (folds_rewritten left right)

theorem ensures_assignment : Ensures (ccomOperands again n) (fun m => folds m = true → folds n = true) := by
  apply yields_weaken (ensures_operands keeps)
  rintro _ ⟨l, r, rfl, left, right⟩
  exact folds_rewritten left right

end Cases

section Comparisons

/-- `relcon` moves casts away from constants: its operands fold as before. -/
theorem folds_relcon (l r : Node) : folds (relcon l r).1 = folds l ∧ folds (relcon l r).2 = folds r := by
  have retyped (t : Option Ty) : folds (l.setType t) = folds l := by cases l <;> rfl
  unfold relcon
  split
  · exact ⟨rfl, rfl⟩
  next other =>
    rw [not_or, not_not] at other
    have cast : folds r.left = folds r := (folds_first (by rw [not_or, not_not] at other; rw [other.2.1]; decide)).symm
    split
    all_goals first
      | exact ⟨rfl, rfl⟩
      | split_ifs
        · exact ⟨rfl, rfl⟩
        · exact ⟨retyped _, cast⟩

theorem folds_relcons {n : Node} (op : n.op ∈ both) : folds (relcons n) = folds n := by
  have real : n.op ≠ OXXX := by
    intro none
    rw [none] at op
    exact absurd op (by decide)
  obtain ⟨left, right⟩ := folds_relcon n.left n.right
  obtain ⟨right', left'⟩ := folds_relcon (relcon n.left n.right).2 (relcon n.left n.right).1
  unfold relcons
  dsimp only
  rw [folds_both (by rw [op_rewritten]; exact op), left_rewritten real, right_rewritten real, left', right', left, right, folds_both op]

end Comparisons

section Calls

variable {n : Node} {again : Node → Run Node} (keeps : ∀ m, Ensures (again m) (Fades m))
include keeps

theorem ensures_comparison (op : n.op ∈ both) :
    Ensures (do let n ← ccomOperands again n; common (relcons n)) (fun m => folds m = true → folds n = true) := by
  apply yields_bind (ensures_operands keeps)
  rintro _ ⟨l, r, rfl, left, right⟩
  refine ensures_folded fun constant => folds_rewritten left right ?_
  rw [← folds_relcons (by rw [op_rewritten]; exact op)]
  exact constant

theorem ensures_node (other : n.op ≠ OCONST) : Ensures (ccomNode again n) (fun m => folds m = true → folds n = true) := by
  unfold ccomNode
  cases op : n.op <;> dsimp only
  case OAS | OASADD | OASSUB | OASMUL | OASLMUL | OASDIV | OASLDIV | OASMOD | OASLMOD | OASASHR | OASASHL | OASLSHR | OASAND
      | OASOR | OASXOR => exact ensures_assignment keeps
  case OCONST => exact absurd op other
  case ONAME | OREGISTER | OINDREG => exact yields_pure id
  case OCAST => exact ensures_cast keeps op
  case OADDR => exact ensures_cancel keeps (Or.inl op) (by decide)
  case OIND => exact ensures_cancel keeps (Or.inr op) (by decide)
  case OADD | OOR | OXOR => exact ensures_add keeps (by rw [op]; decide)
  case OAND => exact ensures_and keeps op
  case OASHR | OASHL | OLSHR => exact ensures_shift keeps (by rw [op]; decide)
  case OMUL | OLMUL => exact ensures_mul keeps (by rw [op]; decide)
  case ODIV | OLDIV => exact ensures_div keeps (by rw [op]; decide)
  case OSUB => exact ensures_sub keeps op
  case OEQ | ONE | OLE | OGE | OLT | OGT | OLS | OHS | OLO | OHI => exact ensures_comparison keeps (by rw [op]; decide)
  case OANDAND => exact ensures_andand keeps op
  case OOROR => exact ensures_oror keeps op
  case OCOND => exact ensures_cond keeps op
  all_goals exact ensures_default keeps

end Calls

theorem ensures_ccom (fuel : Nat) (n : Node) : Ensures (ccom fuel n) (Fades n) := by
  induction fuel generalizing n with
  | zero =>
    intro a log run
    cases run
  | succ fuel ih =>
    cases n with
    | Z => exact yields_pure (fades_refl Z)
    | node head l r =>
      have fades : Ensures (ccomNode (ccom fuel) (node head l r)) (Fades (node head l r)) := by
        by_cases constant : head.op = OCONST
        · have stays : ccomNode (ccom fuel) (node head l r) = pure (node head l r) := by simp only [ccomNode, Node.op, constant]
          rw [stays]
          exact yields_pure (fades_refl _)
        · exact yields_weaken (ensures_node ih constant) fun m fades => ⟨fades, fun number => absurd number constant⟩
      apply yields_bind fades
      intro m fades
      exact yields_bind (yields_tell Iff.rfl) fun _ _ => yields_pure fades

/-- The rewrite makes no tree that may fold of one that may not. -/
theorem ccom_fades {fuel : Nat} {n m : Node} {log : List (Node × Node)} (run : (ccom fuel n).run = some (m, log)) : Fades n m :=
  (ensures_ccom fuel n m log run).2 fun _ _ => trivial

end Goken.Proofs.CcomFolds
