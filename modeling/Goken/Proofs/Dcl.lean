import Mathlib.Tactic
import Goken.Dcl
import Goken.Lib.UndoLog
import Goken.Proofs.Layout

/-! Every block puts the symbol table back. The stack of declarations is read
as an undo log for the identifiers and one for the tags; labels are inserted
below both, at the mark of the function. A sequence of operations grows the
logs by a segment that takes the tables back to where the sequence began. -/

namespace Goken.Proofs.Dcl
open Goken.Dcl Lib.UndoLog Lib.Steps
open Goken.Layout (Ctype SZ_LONG round align)

section Stack

def identEntry : Decl → Option (String × Ident)
  | .DAUTO s saved => some (s, saved)
  | _ => none

def tagEntry : Decl → Option (String × Tag)
  | .DSUE s saved => some (s, saved)
  | _ => none

def idents (stack : List Decl) : List (String × Ident) := stack.filterMap identEntry

def tags (stack : List Decl) : List (String × Tag) := stack.filterMap tagEntry

/-- An entry of a block: neither a mark nor a label. -/
def Undoes : Decl → Prop
  | .DAUTO _ _ | .DSUE _ _ => True
  | _ => False

/-- The stack with labels put in right above a given height. -/
def insertLabels (height : Nat) (names : List String) (stack : List Decl) : List Decl :=
  stack.take (stack.length - height) ++ names.map .DLABEL ++ stack.drop (stack.length - height)

theorem insertLabels_nil (height : Nat) (stack : List Decl) : insertLabels height [] stack = stack := by
  simp [insertLabels]

theorem insertLabels_split (names : List String) (upper lower : List Decl) :
    insertLabels lower.length names (upper ++ lower) = upper ++ names.map .DLABEL ++ lower := by
  have above : (upper ++ lower).length - lower.length = upper.length := by simp
  rw [insertLabels, above, List.take_left, List.drop_left]

variable {height : Nat} {stack : List Decl}

theorem split_at_height (low : height ≤ stack.length) : ∃ upper lower, stack = upper ++ lower ∧ lower.length = height :=
  ⟨stack.take (stack.length - height), stack.drop (stack.length - height), (List.take_append_drop _ _).symm,
    by rw [List.length_drop]; omega⟩

theorem insertLabels_append (low : height ≤ stack.length) (seg : List Decl) (names : List String) :
    insertLabels height names (seg ++ stack) = seg ++ insertLabels height names stack := by
  obtain ⟨upper, lower, rfl, rfl⟩ := split_at_height low
  rw [← List.append_assoc, insertLabels_split, insertLabels_split]
  simp only [List.append_assoc]

theorem insertLabels_insertLabels (low : height ≤ stack.length) (first second : List String) :
    insertLabels height second (insertLabels height first stack) = insertLabels height (first ++ second) stack := by
  obtain ⟨upper, lower, rfl, rfl⟩ := split_at_height low
  rw [insertLabels_split, insertLabels_split, insertLabels_split, List.map_append, ← List.append_assoc]

theorem length_insertLabels (low : height ≤ stack.length) (names : List String) :
    (insertLabels height names stack).length = stack.length + names.length := by
  obtain ⟨upper, lower, rfl, rfl⟩ := split_at_height low
  rw [insertLabels_split]
  simp only [List.length_append, List.length_map]
  omega

theorem idents_append (newer older : List Decl) : idents (newer ++ older) = idents newer ++ idents older :=
  List.filterMap_append

theorem tags_append (newer older : List Decl) : tags (newer ++ older) = tags newer ++ tags older :=
  List.filterMap_append

theorem idents_labels (names : List String) : idents (names.map .DLABEL) = [] := by
  simp [idents, identEntry]

theorem idents_insertLabels (low : height ≤ stack.length) (names : List String) :
    idents (insertLabels height names stack) = idents stack := by
  obtain ⟨upper, lower, rfl, rfl⟩ := split_at_height low
  rw [insertLabels_split, idents_append, idents_append, idents_append, idents_labels, List.append_nil]

end Stack

section Revert

theorem diagIf_eq (condition : Bool) (message : String) (st : State) :
    st.diagIf condition message = { st with diags := (st.diagIf condition message).diags } := by
  cases condition <;> rfl

/-- Popping the entries of a block rewinds the two logs. -/
theorem revert_entries {seg : List Decl} (entries : ∀ d ∈ seg, Undoes d) (rest : List Decl) (st : State) :
    ∃ diags, revert (seg ++ rest) st =
      revert rest { st with ident := rewind (idents seg) st.ident, tag := rewind (tags seg) st.tag, diags := diags } := by
  induction seg generalizing st with
  | nil => exact ⟨st.diags, rfl⟩
  | cons d seg ih =>
    have later : ∀ d ∈ seg, Undoes d := fun d inside => entries d (List.mem_cons_of_mem _ inside)
    cases d with
    | DAUTO s saved =>
      simp only [List.cons_append, revert]
      rw [diagIf_eq, diagIf_eq]
      exact ih later _
    | DSUE s saved => exact ih later _
    | DMARK _ _ => exact absurd (entries _ List.mem_cons_self) id
    | DLABEL _ => exact absurd (entries _ List.mem_cons_self) id

/-- Popping labels forgets them. -/
theorem revert_labels (names : List String) (rest : List Decl) (st : State) :
    ∃ diags, revert (names.map .DLABEL ++ rest) st =
      revert rest { st with label := fun s => if s ∈ names then none else st.label s, diags := diags } := by
  induction names generalizing st with
  | nil => exact ⟨st.diags, by simp⟩
  | cons name names ih =>
    simp only [List.map_cons, List.cons_append, revert]
    rw [diagIf_eq]
    obtain ⟨diags, eq⟩ := ih _
    refine ⟨diags, eq.trans ?_⟩
    congr 2
    funext s
    by_cases same : s = name <;> simp [same, Function.update]

theorem revert_mark (block offset : Int) (rest : List Decl) (st : State) :
    revert (.DMARK block offset :: rest) st = { st with dclstack := rest, autobn := block, autoffset := offset } := rfl

end Revert

section Grown

/-- The declarations made between two states of one block: `seg` is what the
block has pushed and `names` the labels it has added to the function. -/
structure Grown (seg : List Decl) (names : List String) (before after : State) : Prop where
  stack : after.dclstack = seg ++ insertLabels before.firstdcl names before.dclstack
  entries : ∀ d ∈ seg, Undoes d
  ident : rewind (idents seg) after.ident = before.ident
  tag : rewind (tags seg) after.tag = before.tag
  visible : ∀ s, before.label s ≠ none → after.label s ≠ none
  added : ∀ s, after.label s ≠ none → before.label s ≠ none ∨ s ∈ names
  firstdcl : after.firstdcl = before.firstdcl
  autobn : after.autobn = before.autobn

variable {first second third : State} {seg seg' : List Decl} {names names' : List String}

theorem Grown.refl (st : State) : Grown [] [] st st where
  stack := by rw [insertLabels_nil, List.nil_append]
  entries := by simp
  ident := rfl
  tag := rfl
  visible _ := id
  added _ := .inl
  firstdcl := rfl
  autobn := rfl

theorem Grown.trans (low : first.firstdcl ≤ first.dclstack.length) (left : Grown seg names first second)
    (right : Grown seg' names' second third) : Grown (seg' ++ seg) (names ++ names') first third where
  stack := by
    have deeper : first.firstdcl ≤ (insertLabels first.firstdcl names first.dclstack).length := by
      rw [length_insertLabels low]
      omega
    rw [right.stack, left.stack, left.firstdcl, insertLabels_append deeper, insertLabels_insertLabels low,
      List.append_assoc]
  entries d inside := (List.mem_append.mp inside).elim (right.entries d) (left.entries d)
  ident := by rw [idents_append, rewind_append, right.ident, left.ident]
  tag := by rw [tags_append, rewind_append, right.tag, left.tag]
  visible s shown := right.visible s (left.visible s shown)
  added s shown := by
    rcases right.added s shown with earlier | new
    · exact (left.added s earlier).imp_right (List.mem_append_left _)
    · exact .inr (List.mem_append_right _ new)
  firstdcl := right.firstdcl.trans left.firstdcl
  autobn := right.autobn.trans left.autobn

theorem Grown.low (low : first.firstdcl ≤ first.dclstack.length) (grown : Grown seg names first second) :
    second.firstdcl ≤ second.dclstack.length := by
  rw [grown.firstdcl, grown.stack, List.length_append, length_insertLabels low]
  omega

/-- The block is left: the entries it pushed are popped, the labels stay. -/
theorem revertdcl_block (low : first.firstdcl ≤ first.dclstack.length) (grown : Grown seg names (markdcl first) second) :
    ∃ diags, revertdcl second =
      { second with
        ident := first.ident, tag := first.tag
        dclstack := insertLabels first.firstdcl names first.dclstack
        autobn := ushort first.autobn, autoffset := first.autoffset, diags := diags } := by
  have stack : second.dclstack =
      seg ++ .DMARK (ushort first.autobn) first.autoffset :: insertLabels first.firstdcl names first.dclstack := by
    rw [grown.stack]
    exact congrArg (seg ++ ·) (insertLabels_append low [_] names)
  obtain ⟨diags, popped⟩ := revert_entries grown.entries
    (.DMARK (ushort first.autobn) first.autoffset :: insertLabels first.firstdcl names first.dclstack) second
  refine ⟨diags, ?_⟩
  rw [revertdcl, stack, popped, revert_mark, grown.ident, grown.tag]
  rfl

/-- The function is left: its labels are forgotten as well. -/
theorem revertdcl_function (grown : Grown seg names (step .function first) second) :
    ∃ diags, revertdcl second =
      { second with
        ident := first.ident, tag := first.tag
        label := fun s => if s ∈ names then none else second.label s
        dclstack := first.dclstack
        autobn := ushort first.autobn, autoffset := first.autoffset, diags := diags } := by
  have stack : second.dclstack =
      seg ++ (names.map .DLABEL ++ .DMARK (ushort first.autobn) first.autoffset :: first.dclstack) := by
    rw [grown.stack]
    exact congrArg (seg ++ ·) (insertLabels_split names [] _)
  obtain ⟨_, popped⟩ := revert_entries grown.entries
    (names.map .DLABEL ++ .DMARK (ushort first.autobn) first.autoffset :: first.dclstack) second
  obtain ⟨diags, cleared⟩ := revert_labels names (.DMARK (ushort first.autobn) first.autoffset :: first.dclstack) _
  refine ⟨diags, ?_⟩
  rw [revertdcl, stack, popped, cleared, revert_mark, grown.ident, grown.tag]
  rfl

/-- An identifier is written over after its fields are logged. -/
theorem Grown.declare {s : String} {value : Ident} (stack : second.dclstack = .DAUTO s (first.ident s) :: first.dclstack)
    (ident : second.ident = Function.update first.ident s value) (tag : second.tag = first.tag)
    (label : second.label = first.label) (firstdcl : second.firstdcl = first.firstdcl)
    (autobn : second.autobn = first.autobn) : Grown [.DAUTO s (first.ident s)] [] first second where
  stack := by rw [stack, insertLabels_nil, List.singleton_append]
  entries := by simp [Undoes]
  ident := by
    rw [ident]
    exact rewind_logged first.ident s value []
  tag := tag
  visible _ := by rw [label]; exact id
  added _ shown := .inl (label ▸ shown)
  firstdcl := firstdcl
  autobn := autobn

/-- An identifier that the block has logged may change again. -/
theorem Grown.amend {s : String} {value : Ident} (grown : Grown seg names first second)
    (covered : s ∈ (idents seg).map Prod.fst) (stack : third.dclstack = second.dclstack)
    (ident : third.ident = Function.update second.ident s value) (tag : third.tag = second.tag)
    (label : third.label = second.label) (firstdcl : third.firstdcl = second.firstdcl)
    (autobn : third.autobn = second.autobn) : Grown seg names first third where
  stack := stack.trans grown.stack
  entries := grown.entries
  ident := by rw [ident, rewind_covered _ _ covered, grown.ident]
  tag := by rw [tag, grown.tag]
  visible s shown := by rw [label]; exact grown.visible s shown
  added s shown := grown.added s (label ▸ shown)
  firstdcl := firstdcl.trans grown.firstdcl
  autobn := autobn.trans grown.autobn

/-- Nothing that a block restores has changed. -/
theorem Grown.keep (grown : Grown seg names first second) (stack : third.dclstack = second.dclstack)
    (ident : third.ident = second.ident) (tag : third.tag = second.tag) (label : third.label = second.label)
    (firstdcl : third.firstdcl = second.firstdcl) (autobn : third.autobn = second.autobn) :
    Grown seg names first third where
  stack := stack.trans grown.stack
  entries := grown.entries
  ident := by rw [ident, grown.ident]
  tag := by rw [tag, grown.tag]
  visible s shown := by rw [label]; exact grown.visible s shown
  added s shown := grown.added s (label ▸ shown)
  firstdcl := firstdcl.trans grown.firstdcl
  autobn := autobn.trans grown.autobn

end Grown

section Declarations

variable (c : Dcl.Class) (t : Ctype) (s : String) (st : State)

/-- The class a declared symbol ends up with. -/
def declaredClass : Dcl.Class :=
  if (st.ident s).storage = .CSTATIC ∧ (adeclClass c t = .CEXTERN ∨ adeclClass c t = .CGLOBL) then .CSTATIC
  else adeclClass c t

theorem declaredClass_auto : declaredClass c t s st = .CAUTO ↔ adeclClass c t = .CAUTO := by
  unfold declaredClass
  split
  case isTrue static => rcases static.2 with other | other <;> simp [other]
  case isFalse => rfl

theorem adeclClass_param : adeclClass c t = .CPARAM ↔ c = .CPARAM := by
  unfold adeclClass
  by_cases func : t.etype = .TFUNC <;> cases c <;> simp [func]

theorem declaredClass_param : declaredClass c t s st = .CPARAM ↔ c = .CPARAM := by
  rw [← adeclClass_param c t, declaredClass]
  split
  case isTrue static => rcases static.2 with other | other <;> simp [other]
  case isFalse => rfl

/-- The offset at which `adecl` puts a symbol. -/
def declaredOffset : Int :=
  match declaredClass c t s st with
  | .CPARAM => alignArg1 st.autoffset t
  | .CAUTO => -alignAut3 st.packflg st.autoffset t
  | _ => 0

def declared : Ident :=
  { st.ident s with
    block := ushort st.autobn, type := some t, storage := declaredClass c t s st, offset := declaredOffset c t s st, aused := false }

theorem adecl_spec :
    ∃ diags, adecl c t (some s) st =
      { st with
        dclstack := if c = .CPARAM then st.dclstack else .DAUTO s (st.ident s) :: st.dclstack
        ident := Function.update st.ident s (declared c t s st)
        autoffset := match declaredClass c t s st with
          | .CPARAM => alignArg2 (alignArg1 st.autoffset t) t
          | .CAUTO => alignAut3 st.packflg st.autoffset t
          | _ => st.autoffset
        stkoff := if declaredClass c t s st = .CAUTO then maxround st.stkoff (alignAut3 st.packflg st.autoffset t) else st.stkoff
        diags := diags } := by
  have param := declaredClass_param c t s st
  refine ⟨(adecl c t (some s) st).diags, ?_⟩
  unfold declared declaredOffset
  simp only [adecl, adeclSym, State.diagIf_ident, decide_eq_true_eq]
  rw [← declaredClass]
  generalize declaredClass c t s st = actual at param ⊢
  by_cases parameter : c = .CPARAM
  · rw [param.mpr parameter, if_pos parameter]
    ext <;> simp [adeclPlace, State.setIdent]
  · have other : actual ≠ .CPARAM := fun same => parameter (param.mp same)
    rw [if_neg parameter]
    cases actual <;> ext <;> simp_all [adeclPlace, State.setIdent, push1, State.push]

theorem dodecl_spec (lineno : Int) :
    ∃ value, dodecl s lineno st = { st with ident := Function.update st.ident s value } ∧
      value.storage = (st.ident s).storage ∧ value.offset = (st.ident s).offset ∧ value.type = (st.ident s).type := by
  unfold dodecl
  split
  case isTrue => exact ⟨st.ident s, by simp, rfl, rfl, rfl⟩
  case isFalse => exact ⟨_, rfl, rfl, rfl, rfl⟩

/-- A tag is written over only after its fields are logged, unless it is named
without a body where no tag is visible. -/
theorem dotag_spec (et : Etype) (bn : Int) (known : bn = 0 ∨ bn = (st.tag s).sueblock → (st.tag s).suetag ≠ none) :
    ∃ value seg types diags, dotag s et bn st =
        { st with dclstack := seg ++ st.dclstack, tag := Function.update st.tag s value, types := types, diags := diags } ∧
      value.suetag ≠ none ∧ (seg = [.DSUE s (st.tag s)] ∨ seg = [] ∧ value = st.tag s) := by
  by_cases pushed : bn ≠ 0 ∧ bn ≠ (st.tag s).sueblock
  · refine ⟨⟨some st.types.length, ushort st.autobn⟩, [.DSUE s (st.tag s)], (dotag s et bn st).types, (dotag s et bn st).diags, ?_, by simp,
      .inl rfl⟩
    ext <;> simp [dotag, pushed, State.push, State.setTag]
  · have visible : (st.tag s).suetag ≠ none := known (by tauto)
    refine ⟨st.tag s, [], (dotag s et bn st).types, (dotag s et bn st).diags, ?_, visible, .inr ⟨rfl, rfl⟩⟩
    obtain ⟨ty, tagged⟩ := Option.ne_none_iff_exists'.mp visible
    ext <;> simp [dotag, pushed, tagged]

end Declarations

end Goken.Proofs.Dcl
