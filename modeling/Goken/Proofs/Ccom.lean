import Goken.Proofs.CcomFolds

/-! Types through the general rewrite. A node may be replaced by an operand, and then takes
the operand's type; the tree that `tcom` leaves lets only few of these change a type. -/

namespace Goken.Proofs.Ccom
open Goken.Scon Goken.Com Node NodeKind Etype Lib.Logged
open CcomFolds (decides ccom_fades decides_fades folds_constant vanishes_of_vconst)

/-- The kind of a type in a view, and its width. -/
def as (view : Etype → Etype) (n : Node) : Option (Etype × Int) := n.type.map fun t => (view t.etype, t.width)

/-- Types that differ only in their sign, and pointers and words. -/
def group : Etype → Etype
  | TUCHAR => TCHAR
  | TUSHORT => TSHORT
  | TUINT | TLONG | TULONG | TIND => TINT
  | TUVLONG => TVLONG
  | et => et

/-- The kind and the width of a type. -/
def kind (n : Node) : Option (Etype × Int) := as id n

/-- The kind of a type, up to the sign, and its width. -/
def sort (n : Node) : Option (Etype × Int) := as group n

/-- The kind of a type, up to the sign. -/
def grouped (n : Node) : Option Etype := n.type.map fun t => group t.etype

def pointer (view : Etype → Etype) : Option (Etype × Int) := some (view TIND, 4)

/-- Operations that may be replaced by an operand of their own type. -/
def operations : List NodeKind := [OADD, OSUB, OOR, OXOR, OAND, OMUL, OLMUL, ODIV, OLDIV, OASHR, OASHL, OLSHR, OCOND]

/-- The kinds of node that can be an operand of `OADDR`; their type may be set. -/
def lvalue (strict : Prop) (o : NodeKind) : Prop :=
  o ∉ operations ∧ o ≠ OCAST ∧ o ≠ OADDR ∧ o ≠ OXXX ∧ (strict → o ≠ OANDAND ∧ o ≠ OOROR)

/-- How the types of a node and of its operands go together, in a view of their kinds; strictly, those of
an `&&` or `||` too, if its left operand may fold to a constant that decides it. -/
def Matched (strict : Prop) (view : Etype → Etype) (n : Node) : Prop :=
  match n.op with
  | OADD | OSUB | OOR | OXOR | OAND | OMUL | OLMUL | ODIV | OLDIV => as view n.left = as view n ∧ as view n.right = as view n
  | OASHR | OASHL | OLSHR => as view n.left = as view n
  | OCOND => n.right.op = OLIST ∧ as view n.right.left = as view n ∧ as view n.right.right = as view n
  | OCAST => grouped n.left = grouped n → as view n.left = as view n ∨ lvalue strict n.left.op
  | OADDR => as view n = pointer view ∧ lvalue strict n.left.op
  | OIND => as view n.left = pointer view
  | OANDAND | OOROR => strict → decides n = true → as view n.left = as view n
  | _ => True

def Shaped (strict : Prop) (view : Etype → Etype) : Node → Prop
  | Z => True
  | node head l r => Matched strict view (node head l r) ∧ Shaped strict view l ∧ Shaped strict view r

/-- With `group` it is how `tcom` leaves a tree; with `id` the signs go together too. -/
abbrev Typed : (Etype → Etype) → Node → Prop := Shaped False

/-- The tree, moreover, has no `&&` or `||` with a left operand of another kind that may decide it. -/
abbrev Steady : (Etype → Etype) → Node → Prop := Shaped True

section Trees

variable {strict : Prop} {view : Etype → Etype} {n : Node}

theorem Shaped.left (typed : Shaped strict view n) : Shaped strict view n.left := by
  cases n with
  | Z => trivial
  | node => exact typed.2.1

theorem Shaped.right (typed : Shaped strict view n) : Shaped strict view n.right := by
  cases n with
  | Z => trivial
  | node => exact typed.2.2

theorem Shaped.matched (typed : Shaped strict view n) : Matched strict view n := by
  cases n with
  | Z => trivial
  | node => exact typed.1

theorem typed_of (matched : Matched strict view n) (left : Shaped strict view n.left) (right : Shaped strict view n.right) : Shaped strict view n := by
  cases n with
  | Z => trivial
  | node => exact ⟨matched, left, right⟩

theorem as_of_type {m : Node} (same : m.type = n.type) : as view m = as view n := by
  rw [as, as, same]

/-- The second view tells all that the first tells. -/
def Finer (view key : Etype → Etype) : Prop := ∀ e, view (key e) = view e

theorem as_finer {key : Etype → Etype} (finer : Finer view key) {m : Node} (same : as key m = as key n) : as view m = as view n := by
  have through (n : Node) : as view n = (as key n).map fun t => (view t.1, t.2) := by
    simp only [as, Option.map_map, Function.comp_def, finer _]
  rw [through, through, same]

theorem grouped_finer (finer : Finer group view) {m : Node} (same : as view m = as view n) : grouped m = grouped n := by
  have through (n : Node) : grouped n = (as group n).map Prod.fst := by
    simp only [as, grouped, Option.map_map, Function.comp_def]
  rw [through, through, as_finer finer same]

end Trees

section Replacements

/-- The pass makes `m` of `n`. -/
def Makes (n m : Node) : Prop := ∃ fuel log, (ccom fuel n).run = some (m, log)

/-- The operand that replaces a node of which the operands become `l` and, if it is looked at, `r`. -/
def replacement (n l : Node) (r : Option Node) : Option Node :=
  match n.op with
  | OADD | OOR | OXOR =>
    if Scon.vconst l = 0 then some n.right
    else r.bind fun r => if Scon.vconst r = 0 then some n.left else none
  | OAND => r.bind fun r =>
    if Scon.vconst l = 0 ∧ side r = false then some n.left
    else if Scon.vconst r = 0 ∧ side l = false then some n.right
    else none
  | OASHR | OASHL | OLSHR =>
    if Scon.vconst l = 0 ∧ side n.right = false then some n.left
    else r.bind fun r => if Scon.vconst r = 0 then some n.left else none
  | OMUL | OLMUL =>
    if Scon.vconst l = 0 ∧ side n.right = false then some n.left
    else if Scon.vconst l = 1 then some n.right
    else r.bind fun r =>
      if Scon.vconst r = 0 ∧ side l = false then some n.right
      else if Scon.vconst r = 1 then some n.left
      else none
  | ODIV | OLDIV =>
    if Scon.vconst l = 0 ∧ side n.right = false then some n.left
    else r.bind fun r =>
      if Scon.vconst r = 0 then some n.right
      else if Scon.vconst r = 1 then some n.left
      else none
  | OCOND =>
    if l.op ≠ OCONST then none
    else if Scon.vconst l = 0 then some n.right.right
    else some n.right.left
  | OANDAND => if Scon.vconst l = 0 then some n.left else none
  | OOROR => if l.op = OCONST ∧ l.vconst ≠ 0 then some n.left else none
  | _ => none

/-- The operand `x` replaces the node. -/
def Replaced (n x : Node) : Prop := ∃ l r, Makes n.left l ∧ (∀ y ∈ r, Makes n.right y) ∧ replacement n l r = some x

/-- The left operand of an `&&` or `||` folds to a constant that decides it. -/
def Decided (n : Node) : Prop :=
  ∃ l, Makes n.left l ∧ ((n.op = OANDAND ∧ Scon.vconst l = 0) ∨ (n.op = OOROR ∧ l.op = OCONST ∧ l.vconst ≠ 0))

section Deterministic

variable {again again' : Node → Run Node} (more : ∀ m, Refines (again m) (again' m)) (n : Node)
include more

theorem refines_operands : Refines (ccomOperands again n) (ccomOperands again' n) :=
  refines_bind (more _) fun _ => refines_bind (more _) fun _ => refines_refl _

theorem refines_commute : Refines (commute again n) (commute again' n) := by
  simp only [commute]
  split_ifs
  · exact more _
  · exact more _
  · exact more _
  · exact more _
  · exact refines_refl _

theorem refines_cancel (other : NodeKind) : Refines (ccomCancel again other n) (ccomCancel again' other n) :=
  refines_bind (more _) fun _ => refines_refl _

theorem refines_cast : Refines (ccomCast again n) (ccomCast again' n) := refines_bind (more _) fun _ => refines_refl _

theorem refines_add : Refines (ccomAdd again n) (ccomAdd again' n) := by
  refine refines_bind (more _) fun l => ?_
  dsimp only
  split_ifs
  · exact more _
  · refine refines_bind (more _) fun r => ?_
    split_ifs
    · exact refines_refl _
    · exact refines_commute more _

theorem refines_and : Refines (ccomAnd again n) (ccomAnd again' n) := by
  refine refines_bind (refines_operands more n) fun m => ?_
  split_ifs
  · exact refines_refl _
  · exact refines_refl _
  · exact refines_commute more _

theorem refines_shift : Refines (ccomShift again n) (ccomShift again' n) := by
  refine refines_bind (more _) fun l => ?_
  dsimp only
  split_ifs
  · exact refines_refl _
  · exact refines_bind (more _) fun _ => refines_refl _

theorem refines_mul : Refines (ccomMul again n) (ccomMul again' n) := by
  refine refines_bind (more _) fun l => ?_
  dsimp only
  split_ifs
  · exact refines_refl _
  · exact more _
  · exact refines_bind (more _) fun _ => refines_refl _

theorem refines_div : Refines (ccomDiv again n) (ccomDiv again' n) := by
  refine refines_bind (more _) fun l => ?_
  dsimp only
  split_ifs
  · exact refines_refl _
  · exact refines_bind (more _) fun _ => refines_refl _

theorem refines_sub : Refines (ccomSub again n) (ccomSub again' n) := by
  refine refines_bind (more _) fun r => ?_
  dsimp only
  split_ifs
  · exact more _
  · exact refines_bind (more _) fun _ => refines_refl _

theorem refines_andand : Refines (ccomAndand again n) (ccomAndand again' n) := by
  refine refines_bind (more _) fun l => ?_
  dsimp only
  split_ifs
  · exact refines_refl _
  · exact refines_bind (more _) fun _ => refines_refl _

theorem refines_oror : Refines (ccomOror again n) (ccomOror again' n) := by
  refine refines_bind (more _) fun l => ?_
  dsimp only
  split_ifs
  · exact refines_refl _
  · exact refines_bind (more _) fun _ => refines_refl _

theorem refines_node : Refines (ccomNode again n) (ccomNode again' n) := by
  unfold ccomNode
  cases op : n.op <;> dsimp only
  case OAS | OASADD | OASSUB | OASMUL | OASLMUL | OASDIV | OASLDIV | OASMOD | OASLMOD | OASASHR | OASASHL | OASLSHR | OASAND
      | OASOR | OASXOR => exact refines_operands more n
  case OCONST | ONAME | OREGISTER | OINDREG => exact refines_refl _
  case OCAST => exact refines_cast more n
  case OADDR | OIND => exact refines_cancel more n _
  case OADD | OOR | OXOR => exact refines_add more n
  case OAND => exact refines_and more n
  case OASHR | OASHL | OLSHR => exact refines_shift more n
  case OMUL | OLMUL => exact refines_mul more n
  case ODIV | OLDIV => exact refines_div more n
  case OSUB => exact refines_sub more n
  case OANDAND => exact refines_andand more n
  case OOROR => exact refines_oror more n
  all_goals exact refines_bind (refines_operands more n) fun _ => refines_refl _

end Deterministic

/-- More calls deep, the pass returns the same. -/
theorem ccom_more (fuel : Nat) (n : Node) : Refines (ccom fuel n) (ccom (fuel + 1) n) := by
  induction fuel generalizing n with
  | zero => exact nofun
  | succ fuel ih =>
    cases n with
    | Z => exact refines_refl _
    | node head l r => exact refines_bind (refines_node ih _) fun _ => refines_refl _

theorem Makes.unique {n m m' : Node} (one : Makes n m) (two : Makes n m') : m = m' := by
  have grows (fuel more : Nat) : Refines (ccom fuel n) (ccom (fuel + more) n) := by
    induction more with
    | zero => exact refines_refl _
    | succ more ih => exact fun result run => ccom_more _ n result (ih result run)
  obtain ⟨fuel, log, run⟩ := one
  obtain ⟨fuel', log', run'⟩ := two
  have first := grows fuel fuel' _ run
  have second := grows fuel' fuel _ run'
  rw [Nat.add_comm, second] at first
  cases first
  rfl

variable {n l r x y : Node}

theorem replacement_early (decided : replacement n l none = some x) (r : Option Node) : replacement n l r = some x := by
  unfold replacement at decided ⊢
  cases op : n.op <;> rw [op] at decided <;> dsimp only at decided ⊢ <;> first | exact decided | skip
  case OAND => cases decided
  all_goals
    simp only [Option.bind_none] at decided
    split_ifs at decided ⊢
    all_goals exact decided

theorem replaced_iff (left : Makes n.left l) (right : Makes n.right r) : Replaced n x ↔ replacement n l (some r) = some x := by
  constructor
  · rintro ⟨l', r', left', right', chosen⟩
    cases left.unique left'
    cases r' with
    | none => exact replacement_early chosen _
    | some y =>
      cases right.unique (right' y rfl)
      exact chosen
  · intro chosen
    refine ⟨l, some r, left, ?_, chosen⟩
    rintro y ⟨⟩
    exact right

/-- The right operand need not be looked at. -/
theorem replaced_early (left : Makes n.left l) (decided : replacement n l none = some y) : Replaced n x ↔ x = y := by
  constructor
  · rintro ⟨l', r', left', _, chosen⟩
    cases left.unique left'
    rw [replacement_early decided] at chosen
    exact (Option.some.inj chosen).symm
  · rintro rfl
    exact ⟨l, none, left, nofun, decided⟩

theorem not_replaced (op : n.op ∉ [OADD, OOR, OXOR, OAND, OASHR, OASHL, OLSHR, OMUL, OLMUL, ODIV, OLDIV, OCOND, OANDAND, OOROR]) : ¬Replaced n x := by
  rintro ⟨l, r, _, _, chosen⟩
  unfold replacement at chosen
  generalize n.op = o at op chosen
  cases o <;> first | cases chosen | exact op (by decide)

section Families

variable {r : Option Node}

theorem replacement_add (op : n.op ∈ [OADD, OOR, OXOR]) : replacement n l r =
    if Scon.vconst l = 0 then some n.right else r.bind fun r => if Scon.vconst r = 0 then some n.left else none := by
  unfold replacement
  generalize n.op = o at op
  cases o <;> first | rfl | exact absurd op (by decide)

theorem replacement_shift (op : n.op ∈ [OASHR, OASHL, OLSHR]) : replacement n l r =
    if Scon.vconst l = 0 ∧ side n.right = false then some n.left else r.bind fun r => if Scon.vconst r = 0 then some n.left else none := by
  unfold replacement
  generalize n.op = o at op
  cases o <;> first | rfl | exact absurd op (by decide)

theorem replacement_mul (op : n.op ∈ [OMUL, OLMUL]) : replacement n l r =
    if Scon.vconst l = 0 ∧ side n.right = false then some n.left
    else if Scon.vconst l = 1 then some n.right
    else r.bind fun r =>
      if Scon.vconst r = 0 ∧ side l = false then some n.right else if Scon.vconst r = 1 then some n.left else none := by
  unfold replacement
  generalize n.op = o at op
  cases o <;> first | rfl | exact absurd op (by decide)

theorem replacement_div (op : n.op ∈ [ODIV, OLDIV]) : replacement n l r =
    if Scon.vconst l = 0 ∧ side n.right = false then some n.left
    else r.bind fun r => if Scon.vconst r = 0 then some n.right else if Scon.vconst r = 1 then some n.left else none := by
  unfold replacement
  generalize n.op = o at op
  cases o <;> first | rfl | exact absurd op (by decide)

end Families

end Replacements

/-- The type of a node is kept in the view, by an operand that replaces it. -/
def Same (key : Etype → Etype) (n : Node) : Prop := ∀ x, Replaced n x → as key x = as key n

/-- The result of a call of which the type is kept. -/
structure Kept (strict : Prop) (view key : Etype → Etype) (n m : Node) : Prop where
  typed : Shaped strict view m
  same : as key m = as key n
  lvalue : lvalue strict n.op → lvalue strict m.op
  list : n.op = OLIST → m.op = OLIST ∧ as key m.left = as key n.left ∧ as key m.right = as key n.right
  makes : Makes n m

/-- The result of a call. -/
structure Result (strict : Prop) (view key : Etype → Etype) (n m : Node) : Prop where
  typed : Shaped strict view m
  settled : as key m = as key n ↔ Same key n
  lvalue : lvalue strict n.op → lvalue strict m.op
  list : n.op = OLIST → m.op = OLIST ∧ as key m.left = as key n.left ∧ as key m.right = as key n.right

/-- `evconst` leaves a node as it is or makes it a constant of the same type. -/
theorem evconst_cases {n m : Node} (folds : evconst n = some m) :
    m = n ∨ m.op = OCONST ∧ m.type = n.type ∧ m.left = n.left ∧ m.right = n.right ∧ n.op ≠ OLIST := by
  cases n with
  | Z =>
    cases folds
    exact .inl rfl
  | node head l r =>
    simp only [evconst] at folds
    split at folds
    · cases folds
      exact .inl rfl
    · split at folds
      · cases folds
        exact .inl rfl
      · cases folds
      · next other =>
        cases folds
        refine .inr ⟨rfl, ?_, rfl, rfl, ?_⟩
        · split <;> rfl
        · intro list
          simp only [foldop, list] at other
          cases other

theorem typed_constant {strict : Prop} {view : Etype → Etype} {n : Node} (constant : n.op = OCONST) (left : Shaped strict view n.left) (right : Shaped strict view n.right) :
    Shaped strict view n := by
  refine typed_of ?_ left right
  rw [Matched, constant]
  trivial

/-- A cast without code stays in its group. -/
theorem nocast_group {t1 t2 : Option Ty} (same : nocast t1 t2 = true) :
    ∃ t t', t1 = some t ∧ t2 = some t' ∧ group t.etype = group t'.etype := by
  cases t1 with
  | none => cases same
  | some t =>
    cases t2 with
    | none =>
      exfalso
      revert same
      simp only [nocast, Option.map_none, Option.getD_none]
      split
      · simp
      · cases t.etype <;> decide
    | some t' =>
      refine ⟨t, t', rfl, rfl, ?_⟩
      simp only [nocast, Option.map_some, Option.getD_some] at same
      split at same
      · cases same
      · rw [decide_eq_true_eq] at same
        revert same
        generalize t.etype = a
        generalize t'.etype = b
        cases a <;> cases b <;> decide

theorem type_retyped {n : Node} {t : Option Ty} (typed : n.type ≠ none) : (n.setType t).type = t := by
  cases n with
  | Z => exact absurd rfl typed
  | node => rfl

theorem type_of_pointer {view : Etype → Etype} {n : Node} (same : as view n = pointer view) : n.type ≠ none := by
  intro untyped
  rw [as, untyped] at same
  cases same

theorem not_list {n : Node} {o : NodeKind} {P : Prop} (op : n.op = o) (other : o ≠ OLIST) : n.op = OLIST → P :=
  fun list => absurd (op.symm.trans list) other

section Updates

variable {strict : Prop} {view key : Etype → Etype} {n m : Node}

theorem matched_setType (grouping : Finer group view) {t : Option Ty} (matched : Matched strict view n)
    (same : as view (n.setType t) = as view n) : Matched strict view (n.setType t) := by
  have groups := grouped_finer grouping same
  unfold Matched at matched ⊢
  have decided : decides (n.setType t) = decides n := by cases n <;> rfl
  simp only [op_setType, left_setType, right_setType, same, groups, decided]
  exact matched

/-- Nothing is asked of the type of an lvalue. -/
theorem matched_lvalue {t : Option Ty} (matched : Matched strict view n) (lvalue : lvalue strict n.op) : Matched strict view (n.setType t) := by
  obtain ⟨notOperation, notCast, notAddress, _⟩ := lvalue
  unfold Matched at matched ⊢
  simp only [op_setType, left_setType, right_setType]
  generalize n.op = o at *
  cases o <;> simp_all [operations]

theorem typed_setType {t : Option Ty} (typed : Shaped strict view n) (matched : Matched strict view (n.setType t)) : Shaped strict view (n.setType t) := by
  refine typed_of matched ?_ ?_
  · rw [left_setType]
    exact typed.left
  · rw [right_setType]
    exact typed.right

variable (grouping : Finer group view) (finer : Finer view key)
include finer

theorem Kept.seen (kept : Kept strict view key n m) : as view m = as view n := as_finer finer kept.same

theorem Kept.listed (kept : Kept strict view key n m) (list : n.op = OLIST) :
    m.op = OLIST ∧ as view m.left = as view n.left ∧ as view m.right = as view n.right := by
  obtain ⟨op, left, right⟩ := kept.list list
  exact ⟨op, as_finer finer left, as_finer finer right⟩

include grouping in
theorem matched_setLeft (matched : Matched strict view n) (kept : Kept strict view key n.left m) : Matched strict view (n.setLeft m) := by
  cases n with
  | Z => exact matched
  | node head l r =>
    have seen := kept.seen finer
    have lvalue := kept.lvalue
    obtain ⟨_, _, run⟩ := kept.makes
    have decided : decides (node head m r) = true → decides (node head l r) = true := decides_fades (ccom_fades run)
    have groups := grouped_finer grouping seen
    unfold Matched at matched ⊢
    simp only [setLeft, Node.op, Node.left, Node.right] at matched seen lvalue groups ⊢
    have same : as view (node head m r) = as view (node head l r) := rfl
    have same' : grouped (node head m r) = grouped (node head l r) := rfl
    rw [same, same']
    generalize head.op = o at *
    cases o
    case OANDAND | OOROR => exact fun strictly chosen => seen.trans (matched strictly (decided chosen))
    all_goals simp_all
    exact fun group => (matched group).imp_right lvalue

theorem matched_setRight (matched : Matched strict view n) (kept : Kept strict view key n.right m) : Matched strict view (n.setRight m) := by
  cases n with
  | Z => exact matched
  | node head l r =>
    have seen := kept.seen finer
    have list := kept.listed finer
    unfold Matched at matched ⊢
    simp only [setRight, Node.op, Node.left, Node.right] at matched seen list ⊢
    have same : as view (node head l m) = as view (node head l r) := rfl
    have same' : grouped (node head l m) = grouped (node head l r) := rfl
    rw [same, same']
    generalize head.op = o at *
    cases o
    case OANDAND | OOROR => exact matched
    all_goals simp_all

include grouping in
theorem typed_setLeft (typed : Shaped strict view n) (kept : Kept strict view key n.left m) : Shaped strict view (n.setLeft m) := by
  cases n with
  | Z => trivial
  | node head l r => exact ⟨matched_setLeft grouping finer typed.matched kept, kept.typed, typed.right⟩

theorem typed_setRight (typed : Shaped strict view n) (kept : Kept strict view key n.right m) : Shaped strict view (n.setRight m) := by
  cases n with
  | Z => trivial
  | node head l r => exact ⟨matched_setRight finer typed.matched kept, typed.left, kept.typed⟩

end Updates

/-- Operations on two operands of their own type. -/
def binary : List NodeKind := [OADD, OSUB, OOR, OXOR, OAND, OMUL, OLMUL, ODIV, OLDIV]

section Binary

variable {strict : Prop} {view : Etype → Etype} {n l r : Node} (operation : n.op ∈ binary)
include operation

theorem binary_operation : n.op ∈ operations := by
  revert operation
  generalize n.op = o
  cases o <;> decide

theorem binary_real : n.op ≠ OXXX := by
  intro none
  rw [none] at operation
  exact absurd operation (by decide)

theorem matched_binary : Matched strict view n ↔ as view n.left = as view n ∧ as view n.right = as view n := by
  unfold Matched
  generalize n.op = o at *
  cases o <;> first | exact Iff.rfl | exact absurd operation (by decide)

theorem typed_binary (left : Shaped strict view l) (right : Shaped strict view r) (first : as view l = as view n) (second : as view r = as view n) :
    Shaped strict view ((n.setLeft l).setRight r) := by
  have real := binary_real operation
  have placed : ((n.setLeft l).setRight r).left = l ∧ ((n.setLeft l).setRight r).right = r := by
    refine ⟨?_, right_setRight _ ?_⟩
    · rw [left_setRight, left_setLeft _ real]
    · rw [op_setLeft]
      exact real
  have same : as view ((n.setLeft l).setRight r) = as view n := as_of_type (by rw [type_setRight, type_setLeft])
  refine typed_of ((matched_binary (by rw [op_setRight, op_setLeft]; exact operation)).mpr ?_) ?_ ?_
  · rw [placed.1, placed.2, same]
    exact ⟨first, second⟩
  · rw [placed.1]
    exact left
  · rw [placed.2]
    exact right

end Binary

section Results

variable {strict : Prop} {view key : Etype → Etype} {n m x : Node}

/-- No operand replaces the node, and the result has its type. -/
theorem Result.alone (typed : Shaped strict view m) (same : as key m = as key n) (alone : ∀ x, ¬Replaced n x) (other : Ccom.lvalue strict n.op → Ccom.lvalue strict m.op)
    (list : n.op = OLIST → m.op = OLIST ∧ as key m.left = as key n.left ∧ as key m.right = as key n.right) : Result strict view key n m where
  typed := typed
  settled := ⟨fun _ x replaced => absurd replaced (alone x), fun _ => same⟩
  lvalue := other
  list := list

/-- What has become of the operand `x` replaces the node. -/
theorem Result.replaced (typed : Shaped strict view m) (same : as key m = as key x) (only : ∀ z, Replaced n z ↔ z = x) (other : Ccom.lvalue strict n.op → Ccom.lvalue strict m.op)
    (notList : n.op ≠ OLIST) : Result strict view key n m where
  typed := typed
  settled := by
    have asked : Same key n ↔ as key x = as key n := by simp only [Same, only, forall_eq]
    rw [asked, same]
  lvalue := other
  list := fun list => absurd list notList

theorem not_lvalue {P : Prop} (operation : n.op ∈ operations ∨ n.op = OCAST ∨ n.op = OADDR) : lvalue strict n.op → P := by
  rintro ⟨notOperation, notCast, notAddress, _⟩
  tauto

theorem lvalue_constant (constant : m.op = OCONST) : lvalue strict m.op := by
  rw [constant]
  exact ⟨by decide, by decide, by decide, by decide, fun _ => ⟨by decide, by decide⟩⟩

theorem operation_notList (operation : n.op ∈ operations) : n.op ≠ OLIST := by
  intro list
  rw [list] at operation
  exact absurd operation (by decide)

/-- The same, of an operation. -/
theorem Result.operand (operation : n.op ∈ operations) (typed : Shaped strict view m) (same : as key m = as key x) (only : ∀ z, Replaced n z ↔ z = x) :
    Result strict view key n m :=
  .replaced typed same only (not_lvalue (Or.inl operation)) (operation_notList operation)

theorem Result.operation (operation : n.op ∈ operations) (typed : Shaped strict view m) (same : as key m = as key n) (alone : ∀ x, ¬Replaced n x) :
    Result strict view key n m :=
  .alone typed same alone (not_lvalue (Or.inl operation)) fun list => absurd list (operation_notList operation)

end Results

variable (key : Etype → Etype) (asked : Node → Prop) in
abbrev Good (run : Run Node) (post : Node → Prop) : Prop := Yields (fun e => as key e.2 = as key e.1) (fun e => asked e.1) run post

section Cases

variable {strict : Prop} {view key : Etype → Etype} {asked : Node → Prop} {n n' : Node}

/-- The last step of most cases. -/
theorem good_common {post : Node → Prop} (stays : post n)
    (folds : ∀ m, m.op = OCONST → m.type = n.type → m.left = n.left → m.right = n.right → n.op ≠ OLIST → post m) :
    Good key asked (common n) post := by
  unfold common
  split
  · apply yields_lift
    intro m folded
    rcases evconst_cases folded with rfl | ⟨constant, type, left, right, notList⟩
    · exact stays
    · exact folds m constant type left right notList
  · exact yields_pure stays

/-- A node that no operand replaces, when its operands have been rewritten. -/
theorem good_folded (typed : Shaped strict view n') (type : n'.type = n.type) (op : n'.op = n.op) (alone : ∀ x, ¬Replaced n x)
    (list : n.op = OLIST → as key n'.left = as key n.left ∧ as key n'.right = as key n.right) :
    Good key asked (common n') (Result strict view key n) := by
  apply good_common
  · exact .alone typed (as_of_type type) alone (fun other => by rw [op]; exact other) fun isList => ⟨op.trans isList, list isList⟩
  · intro m constant sameType left right notList
    exact .alone (typed_constant constant (left ▸ typed.left) (right ▸ typed.right)) (as_of_type (sameType.trans type)) alone
      (fun _ => lvalue_constant constant) fun isList => absurd (op.trans isList) notList

variable (grouping : Finer group view) (finer : Finer view key)

include grouping finer in
/-- The operand of a cast that is removed, in the type of the cast. -/
theorem result_dropped {l : Node} (typed : Shaped strict view n) (left : Kept strict view key n.left l) (op : n.op = OCAST) (noop : nocast l.type n.type = true)
    (alone : ∀ x, ¬Replaced n x) : Result strict view key n (l.setType n.type) := by
  obtain ⟨t, t', from_type, to_type, same⟩ := nocast_group noop
  have retyped : (l.setType n.type).type = n.type := type_retyped (by rw [from_type]; exact nofun)
  have groups : grouped n.left = grouped n := by
    rw [← grouped_finer grouping (left.seen finer), grouped, grouped, from_type, to_type]
    exact congrArg some same
  have cast := typed.matched
  rw [Matched, op] at cast
  have matched : Matched strict view (l.setType n.type) := by
    rcases cast groups with own | other
    · refine matched_setType grouping left.typed.matched ?_
      rw [as_of_type retyped, left.seen finer, own]
    · exact matched_lvalue left.typed.matched (left.lvalue other)
  refine .alone (typed_setType left.typed matched) (as_of_type retyped) alone (not_lvalue (Or.inr (Or.inl op))) fun list => ?_
  rw [op] at list
  cases list

variable {again : Node → Run Node} (keeps : ∀ m, Shaped strict view m → Good key asked (again m) (Kept strict view key m)) (typed : Shaped strict view n)

include grouping finer keeps typed in
theorem good_operands : Good key asked (ccomOperands again n) (fun m => Shaped strict view m ∧ m.type = n.type ∧ m.op = n.op ∧
    (n.op ≠ OXXX → Kept strict view key n.left m.left ∧ Kept strict view key n.right m.right)) := by
  apply yields_bind (keeps n.left typed.left)
  intro l left
  apply yields_bind (keeps n.right typed.right)
  intro r right
  apply yields_pure
  cases n with
  | Z => exact ⟨trivial, rfl, rfl, fun real => absurd rfl real⟩
  | node head l' r' =>
    exact ⟨typed_setRight finer (typed_setLeft grouping finer typed left) right, rfl, rfl, fun _ => ⟨left, right⟩⟩

end Cases
section Comparisons

variable {strict : Prop} {view : Etype → Etype} {m : Node}

/-- `relcon` leaves its operands typed. -/
theorem typed_relcon {l r : Node} (left : Shaped strict view l) (right : Shaped strict view r) : Shaped strict view (relcon l r).1 ∧ Shaped strict view (relcon l r).2 := by
  have retyped : l.op = OCONST → ∀ t, Shaped strict view (l.setType t) := by
    intro constant t
    refine typed_constant (by rw [op_setType, constant]) ?_ ?_
    · rw [left_setType]
      exact left.left
    · rw [right_setType]
      exact left.right
  unfold relcon
  split
  · exact ⟨left, right⟩
  · next other =>
    rw [not_or, not_not] at other
    split
    all_goals first
      | exact ⟨left, right⟩
      | split_ifs
        · exact ⟨left, right⟩
        · exact ⟨retyped other.1 _, right.left⟩

def comparison (o : NodeKind) : Prop := o ∈ [OEQ, ONE, OLE, OGE, OLT, OGT, OLS, OHS, OLO, OHI]

theorem matched_comparison (op : comparison m.op) : Matched strict view m := by
  unfold Matched
  generalize m.op = o at op
  cases o <;> trivial

theorem typed_relcons (inside : Shaped strict view m) (op : comparison m.op) :
    Shaped strict view (relcons m) ∧ (relcons m).type = m.type ∧ (relcons m).op = m.op := by
  obtain ⟨left, right⟩ := typed_relcon inside.left inside.right
  obtain ⟨right', left'⟩ := typed_relcon right left
  have sameOp : (relcons m).op = m.op := by simp only [relcons, op_setRight, op_setLeft]
  have matched : Matched strict view (relcons m) := matched_comparison (by rw [sameOp]; exact op)
  refine ⟨?_, by simp only [relcons, type_setRight, type_setLeft], sameOp⟩
  cases m with
  | Z => trivial
  | node head l r => exact ⟨matched, left', right'⟩

end Comparisons

section Operations

variable {strict : Prop} {view key : Etype → Etype} {asked : Node → Prop} {n : Node} (grouping : Finer group view) (finer : Finer view key)
  {again : Node → Run Node} (keeps : ∀ m, Shaped strict view m → Good key asked (again m) (Kept strict view key m)) (typed : Shaped strict view n)

section Moves

variable (operation : n.op ∈ binary)
include keeps operation

/-- The node again with its operands moved. -/
theorem good_moved {l r : Node} (left : Shaped strict view l) (right : Shaped strict view r) (first : as view l = as view n) (second : as view r = as view n) :
    Good key asked (again ((n.setLeft l).setRight r)) (fun m => Shaped strict view m ∧ as key m = as key n) := by
  apply yields_weaken (keeps _ (typed_binary operation left right first second))
  intro m kept
  exact ⟨kept.typed, kept.same.trans (as_of_type (by rw [type_setRight, type_setLeft]))⟩

include typed

theorem good_commute : Good key asked (commute again n) (fun m => Shaped strict view m ∧ as key m = as key n) := by
  obtain ⟨first, second⟩ := (matched_binary operation).mp typed.matched
  have inner : ∀ m : Node, Shaped strict view m → as view m = as view n → m.op = n.op → as view m.left = as view n ∧ as view m.right = as view n := by
    intro m inside same op
    have sorts := (matched_binary (by rw [op]; exact operation)).mp inside.matched
    rw [same] at sorts
    exact sorts
  have rightMoved : ∀ m r : Node, Shaped strict view m → Shaped strict view r → as view m = as view n → as view r = as view n → m.op = n.op →
      Shaped strict view (m.setRight r) := by
    intro m r inside right same other op
    have moved := typed_binary (by rw [op]; exact operation : m.op ∈ binary) inside.left right
      ((inner m inside same op).1.trans same.symm) (other.trans same.symm)
    rw [setLeft_left] at moved
    exact moved
  have leftMoved : ∀ m l : Node, Shaped strict view m → Shaped strict view l → as view m = as view n → as view l = as view n → m.op = n.op →
      Shaped strict view (m.setLeft l) := by
    intro m l inside left same other op
    have moved := typed_binary (by rw [op]; exact operation : m.op ∈ binary) left inside.right
      (other.trans same.symm) ((inner m inside same op).2.trans same.symm)
    rw [← setRight_setLeft, setRight_right] at moved
    exact moved
  have left := typed.left
  have right := typed.right
  simp only [commute]
  split_ifs with one two three four
  · have sorts := inner n.left left first one.2.1
    exact good_moved keeps operation (rightMoved _ _ left right first second one.2.1) left.right
      ((as_of_type (type_setRight ..)).trans first) sorts.2
  · have sorts := inner n.left left first two.2.1
    exact good_moved keeps operation (leftMoved _ _ left right first second two.2.1) left.left
      ((as_of_type (type_setLeft ..)).trans first) sorts.1
  · have sorts := inner n.right right second three.2.1
    exact good_moved keeps operation right.right (rightMoved _ _ right left second first three.2.1) sorts.2
      ((as_of_type (type_setRight ..)).trans second)
  · have sorts := inner n.right right second four.2.1
    exact good_moved keeps operation right.left (leftMoved _ _ right left second first four.2.1) sorts.1
      ((as_of_type (type_setLeft ..)).trans second)
  · apply good_common ⟨typed, rfl⟩
    intro m constant type left' right' _
    exact ⟨typed_constant constant (left' ▸ left) (right' ▸ right), as_of_type type⟩

end Moves

include grouping finer

/-- The node with both operands rewritten. -/
theorem both_rewritten {l r : Node} (typed : Shaped strict view n) (left : Kept strict view key n.left l) (right : Kept strict view key n.right r) :
    Shaped strict view ((n.setLeft l).setRight r) ∧ ((n.setLeft l).setRight r).type = n.type ∧ ((n.setLeft l).setRight r).op = n.op := by
  have right' : Kept strict view key (n.setLeft l).right r := by
    rw [right_setLeft]
    exact right
  exact ⟨typed_setRight finer (typed_setLeft grouping finer typed left) right', by rw [type_setRight, type_setLeft],
    by rw [op_setRight, op_setLeft]⟩

include keeps typed

theorem good_cast (op : n.op = OCAST) : Good key asked (ccomCast again n) (Result strict view key n) := by
  have alone (x : Node) : ¬Replaced n x := not_replaced (by rw [op]; decide)
  apply yields_bind (keeps n.left typed.left)
  intro l left
  have typed' : Shaped strict view (n.setLeft l) := typed_setLeft grouping finer typed left
  have folded : ∀ m : Node, Shaped strict view m → m.type = n.type → Result strict view key n m := fun m inside type =>
    .alone inside (as_of_type type) alone (not_lvalue (Or.inr (Or.inl op))) (not_list op (by decide))
  have dropped : Result strict view key n (dropCast l (n.setLeft l)) := by
    unfold dropCast
    split_ifs with constant noop
    · exact folded _ typed' (type_setLeft ..)
    · rw [type_setLeft] at noop ⊢
      exact result_dropped grouping finer typed left op noop.1 alone
    · exact folded _ typed' (type_setLeft ..)
  dsimp only
  split_ifs
  · apply yields_bind (yields_lift (fun m folds => evconst_cases folds))
    rintro m (rfl | ⟨constant, type, first, second, _⟩)
    · exact yields_pure dropped
    · apply yields_pure
      rw [dropCast, if_pos constant]
      exact folded m (typed_constant constant (first ▸ typed'.left) (second ▸ typed'.right)) (by rw [type, type_setLeft])
  · exact yields_pure dropped

theorem good_address (op : n.op = OADDR) : Good key asked (ccomCancel again OIND n) (Result strict view key n) := by
  have alone (x : Node) : ¬Replaced n x := not_replaced (by rw [op]; decide)
  apply yields_bind (keeps n.left typed.left)
  intro l left
  have matched := typed.matched
  rw [Matched, op] at matched
  split_ifs with cancels
  · apply yields_pure
    have inner := left.typed.matched
    rw [Matched, cancels] at inner
    have retyped : (l.left.setType n.type).type = n.type := type_retyped (type_of_pointer inner)
    have same : as view (l.left.setType n.type) = as view l.left := (as_of_type retyped).trans (matched.1.trans inner.symm)
    exact .alone (typed_setType left.typed.left (matched_setType grouping left.typed.left.matched same)) (as_of_type retyped) alone
      (not_lvalue (Or.inr (Or.inr op))) (not_list op (by decide))
  · exact good_folded (typed_setLeft grouping finer typed left) (type_setLeft ..) (op_setLeft ..) alone (not_list op (by decide))

theorem good_indirect (op : n.op = OIND) : Good key asked (ccomCancel again OADDR n) (Result strict view key n) := by
  have alone (x : Node) : ¬Replaced n x := not_replaced (by rw [op]; decide)
  apply yields_bind (keeps n.left typed.left)
  intro l left
  split_ifs with cancels
  · apply yields_pure
    have inner := left.typed.matched
    rw [Matched, cancels] at inner
    have retyped : (l.left.setType n.type).type = n.type := type_setType _ inner.2.2.2.2.1
    refine .alone (typed_setType left.typed.left (matched_lvalue left.typed.left.matched inner.2)) (as_of_type retyped) alone (fun _ => ?_)
      (not_list op (by decide))
    rw [op_setType]
    exact inner.2
  · exact good_folded (typed_setLeft grouping finer typed left) (type_setLeft ..) (op_setLeft ..) alone (not_list op (by decide))

theorem good_add (op : n.op ∈ [OADD, OOR, OXOR]) : Good key asked (ccomAdd again n) (Result strict view key n) := by
  have operation : n.op ∈ binary := by
    revert op
    generalize n.op = o
    cases o <;> decide
  have replaces := binary_operation operation
  apply yields_bind (keeps n.left typed.left)
  intro l left
  dsimp only
  rw [right_setLeft]
  split_ifs with zero
  · apply yields_weaken (keeps n.right typed.right)
    intro m kept
    exact .operand replaces kept.typed kept.same fun z => replaced_early left.makes (by rw [replacement_add op, if_pos zero])
  · apply yields_bind (keeps n.right typed.right)
    intro r right
    have choice (x : Node) := replaced_iff (x := x) left.makes right.makes
    simp only [replacement_add op, if_neg zero, Option.bind_some] at choice
    obtain ⟨typed', type, sameOp⟩ := both_rewritten grouping finer typed left right
    split_ifs with nothing
    · simp only [if_pos nothing, Option.some.injEq] at choice
      exact yields_pure (.operand replaces left.typed left.same fun z => (choice z).trans eq_comm)
    · simp only [if_neg nothing, reduceCtorEq, iff_false] at choice
      apply yields_weaken (good_commute keeps typed' (by rw [sameOp]; exact operation))
      rintro m ⟨inside, same⟩
      exact .operation replaces inside (same.trans (as_of_type type)) choice

theorem good_and (op : n.op = OAND) : Good key asked (ccomAnd again n) (Result strict view key n) := by
  have operation : n.op ∈ binary := by
    rw [op]
    decide
  have replaces := binary_operation operation
  apply yields_bind (good_operands grouping finer keeps typed)
  rintro n' ⟨typed', type, sameOp, operands⟩
  obtain ⟨left, right⟩ := operands (binary_real operation)
  have choice (x : Node) := replaced_iff (x := x) left.makes right.makes
  rw [replacement, op] at choice
  simp only [Option.bind_some] at choice
  split_ifs with first second
  · simp only [if_pos first, Option.some.injEq] at choice
    exact yields_pure (.operand replaces left.typed left.same fun z => (choice z).trans eq_comm)
  · simp only [if_neg first, if_pos second, Option.some.injEq] at choice
    exact yields_pure (.operand replaces right.typed right.same fun z => (choice z).trans eq_comm)
  · simp only [if_neg first, if_neg second, reduceCtorEq, iff_false] at choice
    apply yields_weaken (good_commute keeps typed' (by rw [sameOp]; exact operation))
    rintro m ⟨inside, same⟩
    exact .operation replaces inside (same.trans (as_of_type type)) choice

theorem good_shift (op : n.op ∈ [OASHR, OASHL, OLSHR]) : Good key asked (ccomShift again n) (Result strict view key n) := by
  have replaces : n.op ∈ operations := by
    revert op
    generalize n.op = o
    cases o <;> decide
  apply yields_bind (keeps n.left typed.left)
  intro l left
  dsimp only
  rw [right_setLeft]
  split_ifs with zero
  · exact yields_pure (.operand replaces left.typed left.same fun z =>
      replaced_early left.makes (by rw [replacement_shift op, if_pos zero]))
  · apply yields_bind (keeps n.right typed.right)
    intro r right
    have choice (x : Node) := replaced_iff (x := x) left.makes right.makes
    simp only [replacement_shift op, if_neg zero, Option.bind_some] at choice
    obtain ⟨typed', type, sameOp⟩ := both_rewritten grouping finer typed left right
    split_ifs with nothing
    · simp only [if_pos nothing, Option.some.injEq] at choice
      exact yields_pure (.operand replaces left.typed left.same fun z => (choice z).trans eq_comm)
    · simp only [if_neg nothing, reduceCtorEq, iff_false] at choice
      exact good_folded typed' type sameOp choice (fun list => absurd list (operation_notList replaces))

theorem good_mul (op : n.op ∈ [OMUL, OLMUL]) : Good key asked (ccomMul again n) (Result strict view key n) := by
  have replaces : n.op ∈ operations := by
    revert op
    generalize n.op = o
    cases o <;> decide
  apply yields_bind (keeps n.left typed.left)
  intro l left
  dsimp only
  rw [right_setLeft]
  split_ifs with zero one
  · exact yields_pure (.operand replaces left.typed left.same fun z =>
      replaced_early left.makes (by rw [replacement_mul op, if_pos zero]))
  · apply yields_weaken (keeps n.right typed.right)
    intro m kept
    exact .operand replaces kept.typed kept.same fun z =>
      replaced_early left.makes (by rw [replacement_mul op, if_neg zero, if_pos one])
  · apply yields_bind (keeps n.right typed.right)
    intro r right
    have choice (x : Node) := replaced_iff (x := x) left.makes right.makes
    simp only [replacement_mul op, if_neg zero, if_neg one, Option.bind_some] at choice
    obtain ⟨typed', type, sameOp⟩ := both_rewritten grouping finer typed left right
    split_ifs with nothing whole
    · simp only [if_pos nothing, Option.some.injEq] at choice
      exact yields_pure (.operand replaces right.typed right.same fun z => (choice z).trans eq_comm)
    · simp only [if_neg nothing, if_pos whole, Option.some.injEq] at choice
      exact yields_pure (.operand replaces left.typed left.same fun z => (choice z).trans eq_comm)
    · simp only [if_neg nothing, if_neg whole, reduceCtorEq, iff_false] at choice
      exact good_folded typed' type sameOp choice (fun list => absurd list (operation_notList replaces))

theorem good_div (op : n.op ∈ [ODIV, OLDIV]) : Good key asked (ccomDiv again n) (Result strict view key n) := by
  have replaces : n.op ∈ operations := by
    revert op
    generalize n.op = o
    cases o <;> decide
  apply yields_bind (keeps n.left typed.left)
  intro l left
  dsimp only
  rw [right_setLeft]
  split_ifs with zero
  · exact yields_pure (.operand replaces left.typed left.same fun z =>
      replaced_early left.makes (by rw [replacement_div op, if_pos zero]))
  · apply yields_bind (keeps n.right typed.right)
    intro r right
    have choice (x : Node) := replaced_iff (x := x) left.makes right.makes
    simp only [replacement_div op, if_neg zero, Option.bind_some] at choice
    obtain ⟨typed', type, sameOp⟩ := both_rewritten grouping finer typed left right
    split_ifs with nothing whole
    · simp only [if_pos nothing, Option.some.injEq] at choice
      exact yields_pure (.operand replaces right.typed right.same fun z => (choice z).trans eq_comm)
    · simp only [if_neg nothing, if_pos whole, Option.some.injEq] at choice
      exact yields_pure (.operand replaces left.typed left.same fun z => (choice z).trans eq_comm)
    · simp only [if_neg nothing, if_neg whole, reduceCtorEq, iff_false] at choice
      exact good_folded typed' type sameOp choice (fun list => absurd list (operation_notList replaces))

omit grouping finer keeps typed in
theorem negated_spec (r : Node) (typed : Shaped strict view r) (constant : r.op = OCONST) : Shaped strict view (negated r) ∧ (negated r).type = r.type := by
  unfold negated
  split_ifs
  · refine ⟨typed_constant (by rw [op_setFconst, constant]) ?_ ?_, type_setFconst ..⟩
    · rw [left_setFconst]
      exact typed.left
    · rw [right_setFconst]
      exact typed.right
  · refine ⟨typed_constant (by rw [op_setVconst, constant]) ?_ ?_, type_setVconst ..⟩
    · rw [left_setVconst]
      exact typed.left
    · rw [right_setVconst]
      exact typed.right

/-- A difference with a constant is made a sum. -/
theorem good_sub (op : n.op = OSUB) : Good key asked (ccomSub again n) (Result strict view key n) := by
  have operation : n.op ∈ binary := by
    rw [op]
    decide
  have alone (x : Node) : ¬Replaced n x := not_replaced (by rw [op]; decide)
  have replaces := binary_operation operation
  have real := binary_real operation
  obtain ⟨first, second⟩ := (matched_binary operation).mp typed.matched
  apply yields_bind (keeps n.right typed.right)
  intro r right
  dsimp only
  split_ifs with constant
  · obtain ⟨inside, type⟩ := negated_spec r right.typed constant
    have sum : ((n.setRight r).setOp OADD).setRight (negated r) = ((n.setOp OADD).setLeft n.left).setRight (negated r) := by
      cases n <;> rfl
    have own : as view (n.setOp OADD) = as view n := as_of_type (type_setOp ..)
    rw [sum]
    apply yields_weaken (keeps _ (typed_binary (by rw [op_setOp _ real]; decide) typed.left inside (first.trans own.symm)
      ((as_of_type type).trans ((right.seen finer).trans (second.trans own.symm)))))
    intro m kept
    exact .operation replaces kept.typed (kept.same.trans (as_of_type (by rw [type_setRight, type_setLeft, type_setOp]))) alone
  · rw [left_setRight]
    apply yields_bind (keeps n.left typed.left)
    intro l left
    rw [setRight_setLeft]
    obtain ⟨typed', type, sameOp⟩ := both_rewritten grouping finer typed left right
    exact good_folded typed' type sameOp alone (not_list op (by decide))

theorem good_andand (op : n.op = OANDAND) : Good key asked (ccomAndand again n) (Result strict view key n) := by
  apply yields_bind (keeps n.left typed.left)
  intro l left
  dsimp only
  split_ifs with zero
  · have constant : l.op = OCONST := by
      by_contra other
      rw [Scon.vconst, if_pos other] at zero
      cases zero
    refine yields_pure (.replaced left.typed left.same (fun z => ?_) (fun _ => lvalue_constant constant) (by rw [op]; decide))
    exact replaced_early left.makes (by rw [replacement, op]; exact if_pos zero)
  · rw [right_setLeft]
    apply yields_bind (keeps n.right typed.right)
    intro r right
    have choice (x : Node) := replaced_iff (x := x) left.makes right.makes
    rw [replacement, op] at choice
    simp only [if_neg zero, reduceCtorEq, iff_false] at choice
    obtain ⟨typed', type, sameOp⟩ := both_rewritten grouping finer typed left right
    exact good_folded typed' type sameOp choice (not_list op (by decide))

theorem good_oror (op : n.op = OOROR) : Good key asked (ccomOror again n) (Result strict view key n) := by
  apply yields_bind (keeps n.left typed.left)
  intro l left
  dsimp only
  split_ifs with nonzero
  · have constant : (l.setVconst 1).op = OCONST := by rw [op_setVconst, nonzero.1]
    have inside : Shaped strict view (l.setVconst 1) := by
      refine typed_constant constant ?_ ?_
      · rw [left_setVconst]
        exact left.typed.left
      · rw [right_setVconst]
        exact left.typed.right
    have same : as key (l.setVconst 1) = as key n.left := (as_of_type (type_setVconst ..)).trans left.same
    refine yields_pure (.replaced inside same (fun z => ?_) (fun _ => lvalue_constant constant) (by rw [op]; decide))
    exact replaced_early left.makes (by rw [replacement, op]; exact if_pos nonzero)
  · rw [right_setLeft]
    apply yields_bind (keeps n.right typed.right)
    intro r right
    have choice (x : Node) := replaced_iff (x := x) left.makes right.makes
    rw [replacement, op] at choice
    simp only [if_neg nonzero, reduceCtorEq, iff_false] at choice
    obtain ⟨typed', type, sameOp⟩ := both_rewritten grouping finer typed left right
    exact good_folded typed' type sameOp choice (not_list op (by decide))

theorem good_cond (op : n.op = OCOND) : Good key asked (ccomCond again n) (Result strict view key n) := by
  have replaces : n.op ∈ operations := by
    rw [op]
    decide
  apply yields_bind (good_operands grouping finer keeps typed)
  rintro n' ⟨typed', type, sameOp, operands⟩
  obtain ⟨left, right⟩ := operands (by rw [op]; decide)
  have matched := typed.matched
  rw [Matched, op] at matched
  obtain ⟨_, leftSame, rightSame⟩ := right.list matched.1
  have choice (x : Node) := replaced_iff (x := x) left.makes right.makes
  rw [replacement, op] at choice
  dsimp only at choice
  split_ifs with constant zero
  · simp only [constant, ne_eq, not_true_eq_false, if_false, if_pos zero, Option.some.injEq] at choice
    exact yields_pure (.operand replaces typed'.right.right rightSame fun z => (choice z).trans eq_comm)
  · simp only [constant, ne_eq, not_true_eq_false, if_false, if_neg zero, Option.some.injEq] at choice
    exact yields_pure (.operand replaces typed'.right.left leftSame fun z => (choice z).trans eq_comm)
  · simp only [constant, ne_eq, not_false_eq_true, if_true, reduceCtorEq, iff_false] at choice
    exact yields_pure (.operation replaces typed' (as_of_type type) choice)

theorem good_comparison (op : comparison n.op) :
    Good key asked (do let n ← ccomOperands again n; common (relcons n)) (Result strict view key n) := by
  apply yields_bind (good_operands grouping finer keeps typed)
  rintro n' ⟨typed', type, sameOp, _⟩
  obtain ⟨inside, type', sameOp'⟩ := typed_relcons typed' (by rw [sameOp]; exact op)
  have alone (x : Node) : ¬Replaced n x := by
    apply not_replaced
    revert op
    generalize n.op = o
    cases o <;> unfold comparison <;> decide
  refine good_folded inside (type'.trans type) (sameOp'.trans sameOp) alone (fun list => ?_)
  rw [list] at op
  exact absurd op (by unfold comparison; decide)

theorem good_default (alone : ∀ x, ¬Replaced n x) :
    Good key asked (do let n ← ccomOperands again n; common n) (Result strict view key n) := by
  apply yields_bind (good_operands grouping finer keeps typed)
  rintro n' ⟨typed', type, sameOp, operands⟩
  refine good_folded typed' type sameOp alone fun list => ?_
  obtain ⟨left, right⟩ := operands (by rw [list]; decide)
  exact ⟨left.same, right.same⟩

theorem good_assignment (op : n.op ≠ OLIST) (alone : ∀ x, ¬Replaced n x) : Good key asked (ccomOperands again n) (Result strict view key n) := by
  apply yields_weaken (good_operands grouping finer keeps typed)
  rintro n' ⟨typed', type, sameOp, _⟩
  exact .alone typed' (as_of_type type) alone (fun other => by rw [sameOp]; exact other) (fun list => absurd list op)

/-- One call, if the calls inside keep what they should. -/
theorem good_node : Good key asked (ccomNode again n) (Result strict view key n) := by
  unfold ccomNode
  cases op : n.op <;> dsimp only
  case OAS | OASADD | OASSUB | OASMUL | OASLMUL | OASDIV | OASLDIV | OASMOD | OASLMOD | OASASHR | OASASHL | OASLSHR | OASAND
      | OASOR | OASXOR =>
    exact good_assignment grouping finer keeps typed (by rw [op]; decide) fun x => not_replaced (by rw [op]; decide)
  case OCONST | ONAME | OREGISTER | OINDREG =>
    exact yields_pure (.alone typed rfl (fun x => not_replaced (by rw [op]; decide)) id fun list => ⟨list, rfl, rfl⟩)
  case OCAST => exact good_cast grouping finer keeps typed op
  case OADDR => exact good_address grouping finer keeps typed op
  case OIND => exact good_indirect grouping finer keeps typed op
  case OADD | OOR | OXOR => exact good_add grouping finer keeps typed (by rw [op]; decide)
  case OAND => exact good_and grouping finer keeps typed op
  case OASHR | OASHL | OLSHR => exact good_shift grouping finer keeps typed (by rw [op]; decide)
  case OMUL | OLMUL => exact good_mul grouping finer keeps typed (by rw [op]; decide)
  case ODIV | OLDIV => exact good_div grouping finer keeps typed (by rw [op]; decide)
  case OSUB => exact good_sub grouping finer keeps typed op
  case OEQ | ONE | OLE | OGE | OLT | OGT | OLS | OHS | OLO | OHI =>
    exact good_comparison grouping finer keeps typed (by rw [op]; unfold comparison; decide)
  case OANDAND => exact good_andand grouping finer keeps typed op
  case OOROR => exact good_oror grouping finer keeps typed op
  case OCOND => exact good_cond grouping finer keeps typed op
  all_goals exact good_default grouping finer keeps typed fun x => not_replaced (by rw [op]; decide)

end Operations

/-- Every call, however deep. -/
theorem good_ccom {strict : Prop} {view key : Etype → Etype} {asked : Node → Prop} (grouping : Finer group view) (finer : Finer view key)
    (asks : ∀ n, Shaped strict view n → (Same key n ↔ asked n)) (fuel : Nat) (n : Node) (typed : Shaped strict view n) :
    Good key asked (ccom fuel n) (Kept strict view key n) := by
  induction fuel generalizing n with
  | zero =>
    intro a log run
    cases run
  | succ fuel ih =>
    cases n with
    | Z => exact yields_pure ⟨trivial, rfl, id, fun list => ⟨list, rfl, rfl⟩, 1, [], rfl⟩
    | node head l r =>
      have ends : Good key asked (ccom (fuel + 1) (node head l r)) (fun m => as key m = as key (node head l r) ∧ Result strict view key (node head l r) m) := by
        apply yields_bind (good_node grouping finer ih typed)
        intro m result
        have told : Yields (fun e => as key e.2 = as key e.1) (fun e => asked e.1) (tell [(node head l r, m)] : Computation (Node × Node) PUnit)
            (fun _ => as key m = as key (node head l r)) := yields_tell (result.settled.trans (asks _ typed))
        exact yields_bind told fun _ same => yields_pure ⟨same, result⟩
      apply yields_weaken (yields_run ends)
      rintro m ⟨⟨same, result⟩, log, run⟩
      exact ⟨result.typed, same, result.lvalue, result.list, fuel + 1, log, run⟩

section Trees

variable {strict : Prop} {view : Etype → Etype} {n x : Node}

/-- An operand that replaces another node than an `&&` or `||` has its type. -/
theorem replaced_matched (typed : Shaped strict view n) (other : n.op ≠ OANDAND ∧ n.op ≠ OOROR) (replaced : Replaced n x) : as view x = as view n := by
  have matched := typed.matched
  obtain ⟨l, r, _, _, chosen⟩ := replaced
  unfold replacement at chosen
  unfold Matched at matched
  generalize n.op = o at *
  cases r <;> cases o <;> simp only [Option.bind_none, Option.bind_some, reduceCtorEq] at chosen matched
  all_goals grind

/-- An `&&` or `||` is replaced by its left operand when that decides it. -/
theorem replaced_logical (logical : n.op = OANDAND ∨ n.op = OOROR) : Replaced n x ↔ Decided n ∧ x = n.left := by
  constructor
  · rintro ⟨l, r, left, _, chosen⟩
    unfold replacement at chosen
    rcases logical with op | op
    · simp only [op, Option.ite_none_right_eq_some, Option.some.injEq] at chosen
      exact ⟨⟨l, left, Or.inl ⟨op, chosen.1⟩⟩, chosen.2.symm⟩
    · simp only [op, Option.ite_none_right_eq_some, Option.some.injEq] at chosen
      exact ⟨⟨l, left, Or.inr ⟨op, chosen.1⟩⟩, chosen.2.symm⟩
  · rintro ⟨⟨l, left, decides⟩, rfl⟩
    refine ⟨l, none, left, nofun, ?_⟩
    unfold replacement
    rcases decides with ⟨op, zero⟩ | ⟨op, nonzero⟩
    · simp only [op, if_pos zero]
    · simp only [op, if_pos nonzero]

theorem Decided.decides (decided : Decided n) : decides n = true := by
  obtain ⟨l, ⟨_, _, run⟩, ⟨op, zero⟩ | ⟨op, constant, _⟩⟩ := decided
  · exact (if_pos op).trans ((ccom_fades run).vanishes (vanishes_of_vconst zero))
  · rw [CcomFolds.decides, if_neg (by rw [op]; decide), decide_eq_true op, Bool.true_and]
    exact (ccom_fades run).1 (folds_constant constant)

theorem same_iff (typed : Shaped strict view n) : Same view n ↔ (Decided n → as view n.left = as view n) := by
  by_cases logical : n.op = OANDAND ∨ n.op = OOROR
  · constructor
    · exact fun same decided => same n.left ((replaced_logical logical).mpr ⟨decided, rfl⟩)
    · intro keeps x replaced
      obtain ⟨decided, rfl⟩ := (replaced_logical logical).mp replaced
      exact keeps decided
  · have other := not_or.mp logical
    refine ⟨fun _ decided => ?_, fun _ x replaced => replaced_matched typed other replaced⟩
    obtain ⟨l, _, ⟨op, _⟩ | ⟨op, _⟩⟩ := decided
    · exact absurd op other.1
    · exact absurd op other.2

/-- The shape of the tree leaves no decided `&&` or `||` of another kind. -/
theorem Shaped.same (steady : Steady view n) : Same view n := by
  refine (same_iff steady).mpr fun decided => ?_
  have matched := steady.matched
  obtain ⟨_, _, ⟨op, _⟩ | ⟨op, _⟩⟩ := id decided
  · rw [Matched, op] at matched
    exact matched trivial decided.decides
  · rw [Matched, op] at matched
    exact matched trivial decided.decides

end Trees

theorem finer_group : Finer group group := by
  intro e
  cases e <;> rfl

/-- The pass keeps the type of every node it is called on, in the view, just when all is as it is asked. -/
theorem ccom_keeps {strict : Prop} (view key : Etype → Etype) {asked : Node → Prop} (grouping : Finer group view) (finer : Finer view key)
    (asks : ∀ n, Shaped strict view n → (Same key n ↔ asked n)) {fuel : Nat} {n n' : Node} {log : List (Node × Node)}
    (run : (ccom fuel n).run = some (n', log)) (typed : Shaped strict view n) :
    (∀ a b, (a, b) ∈ log → as key b = as key a) ↔ ∀ a b, (a, b) ∈ log → asked a := by
  have settled := settled_iff (good_ccom grouping finer asks fuel n typed n' log run).1
  simpa only [Prod.forall] using settled

/-- Every call keeps the width and the sort of its node, just when no `&&` or `||` is decided by a left
operand of another sort. Every call keeps the kind too, with the sign, just when each operand that replaces
a node is of the same kind; if the operands are of just the kind of their nodes from the start, that is
when no `&&` or `||` is decided by one of another kind. Both hold of every tree that is steady in its shape. -/
theorem ccom_keeps_type (fuel : Nat) (n n' : Node) (log : List (Node × Node)) (run : (ccom fuel n).run = some (n', log)) (typed : Typed group n) :
    ((∀ a b, (a, b) ∈ log → sort b = sort a) ↔ ∀ a b, (a, b) ∈ log → Decided a → sort a.left = sort a) ∧
    ((∀ a b, (a, b) ∈ log → kind b = kind a) ↔ ∀ a b, (a, b) ∈ log → ∀ x, Replaced a x → kind x = kind a) ∧
    (Typed id n → ((∀ a b, (a, b) ∈ log → kind b = kind a) ↔ ∀ a b, (a, b) ∈ log → Decided a → kind a.left = kind a)) ∧
    (Steady group n → ∀ a b, (a, b) ∈ log → sort b = sort a) ∧ (Steady id n → ∀ a b, (a, b) ∈ log → kind b = kind a) := by
  refine ⟨?_, ?_, fun shaped => ?_, fun steady => ?_, fun steady => ?_⟩
  · exact ccom_keeps group group finer_group finer_group (fun _ typed => same_iff typed) run typed
  · exact ccom_keeps group id finer_group (fun _ => rfl) (fun _ _ => Iff.rfl) run typed
  · exact ccom_keeps id id (fun _ => rfl) (fun _ => rfl) (fun _ typed => same_iff typed) run shaped
  · exact (ccom_keeps group group finer_group finer_group (fun _ steady => iff_true_intro steady.same) run steady).mpr fun _ _ _ => trivial
  · exact (ccom_keeps id id (fun _ => rfl) (fun _ => rfl) (fun _ steady => iff_true_intro steady.same) run steady).mpr fun _ _ _ => trivial

def intType : Option Ty := some ⟨TINT, 4, 0⟩

def intVariable : Node := node ⟨ONAME, intType, 0, 0, OXXX⟩ Z Z

/-- An operation on a constant and a variable of type `int`. -/
def withConstant (o : NodeKind) (t : Option Ty) (c : BitVec 64) : Node :=
  node ⟨o, intType, 0, 0, OXXX⟩ (node ⟨OCONST, t, c, 0, OXXX⟩ Z Z) intVariable

/-- `0 && x` becomes an `int`. -/
theorem ccom_keeps_type_zero : ∃ m log, (ccom 2 (withConstant OANDAND intType 0)).run = some (m, log) ∧ m.op = OCONST ∧
    ∀ a b, (a, b) ∈ log → sort b = sort a := by
  have run : (ccom 2 (withConstant OANDAND intType 0)).run = some ((withConstant OANDAND intType 0).left,
      [((withConstant OANDAND intType 0).left, (withConstant OANDAND intType 0).left),
        (withConstant OANDAND intType 0, (withConstant OANDAND intType 0).left)]) := rfl
  have typed : Typed group (withConstant OANDAND intType 0) := ⟨False.elim, ⟨trivial, trivial, trivial⟩, ⟨trivial, trivial, trivial⟩⟩
  refine ⟨_, _, run, rfl, (ccom_keeps_type 2 _ _ _ run typed).1.mpr ?_⟩
  intro a b member decided
  simp only [List.mem_cons, Prod.mk.injEq, List.not_mem_nil, or_false] at member
  rcases member with ⟨rfl, -⟩ | ⟨rfl, -⟩
  · obtain ⟨l, _, ⟨op, _⟩ | ⟨op, _⟩⟩ := decided
    · cases op
    · cases op
  · rfl

/-- `0LL && x` becomes a `vlong`. -/
theorem ccom_changes_type : Typed group (withConstant OANDAND (some ⟨TVLONG, 8, 0⟩) 0) ∧
    kind (withConstant OANDAND (some ⟨TVLONG, 8, 0⟩) 0) = some (TINT, 4) ∧
    (ccom 2 (withConstant OANDAND (some ⟨TVLONG, 8, 0⟩) 0)).run.map (fun result => kind result.1) = some (some (TVLONG, 8)) :=
  ⟨⟨False.elim, ⟨trivial, trivial, trivial⟩, ⟨trivial, trivial, trivial⟩⟩, rfl, rfl⟩

end Goken.Proofs.Ccom
