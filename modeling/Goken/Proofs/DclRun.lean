import Goken.Proofs.DclFrame

/-! Whole functions. The operations of a body nest: every `markdcl` has its
`revertdcl`. An induction over the nesting shows that a block leaves the tables
as it found them, keeps the labels of the function and keeps the frame. -/

namespace Goken.Proofs.DclRun
open Goken.Dcl Goken.Proofs.Dcl DclFrame Lib.UndoLog Lib.Steps
open Goken.Layout (Ctype)

section Sequences

/-- What a body does outside its nested blocks. A list of specifiers never has
the class of a parameter. -/
def Simple : Op → Prop
  | .adecl c _ _ _ => c ≠ .CPARAM
  | .doenum _ | .dotag _ _ _ | .dcllabel _ _ | .pragma _ => True
  | _ => False

instance : DecidablePred Simple := fun op => by
  cases op <;> unfold Simple <;> infer_instance

inductive Body : List Op → Prop where
  | nil : Body []
  | simple {op : Op} {rest : List Op} (simple : Simple op) (body : Body rest) : Body (op :: rest)
  | block {inner rest : List Op} (nested : Body inner) (body : Body rest) : Body (.markdcl :: inner ++ .revertdcl :: rest)

/-- The parameters, before the body: both passes of `walkparam` and the
declarations of an old-style list, which name only what the first pass pushed. -/
inductive Head : List String → List Op → Prop where
  | nil {pushed : List String} : Head pushed []
  | argmark {pushed : List String} {rest : List Op} (result : Ctype) (head : Head pushed rest) : Head pushed (.argmark result :: rest)
  | argdone {pushed : List String} {rest : List Op} (head : Head pushed rest) : Head pushed (.argdone :: rest)
  | walkparam0 {pushed : List String} {rest : List Op} (s : String) (head : Head (s :: pushed) rest) :
      Head pushed (.walkparam0 s :: rest)
  | walkparam1 {pushed : List String} {rest : List Op} {s : String} (lineno : Int) (known : s ∈ pushed)
      (head : Head pushed rest) : Head pushed (.walkparam1 s lineno :: rest)
  | pdecl {pushed : List String} {rest : List Op} {s : String} (c : Dcl.Class) (t : Ctype) (lineno : Int) (known : s ∈ pushed)
      (head : Head pushed rest) : Head pushed (.pdecl c t (some s) lineno :: rest)
  | unnamed {pushed : List String} {rest : List Op} (c : Dcl.Class) (t : Ctype) (lineno : Int) (head : Head pushed rest) :
      Head pushed (.pdecl c t none lineno :: rest)
  | doenum {pushed : List String} {rest : List Op} (s : String) (head : Head pushed rest) : Head pushed (.doenum s :: rest)
  | dotag {pushed : List String} {rest : List Op} (s : String) (et : Etype) (body : Bool) (head : Head pushed rest) :
      Head pushed (.dotag s et body :: rest)

def opening (head : List Op) : List Op := .function :: head ++ [.argdone]

def functionOps (head body : List Op) : List Op := opening head ++ body ++ [.revertdcl]

/-- The operation stays clear of the three ways in which a scope can leak. -/
def Fine (st : State) : Op → Prop
  | .markdcl => 0 ≤ st.autobn ∧ st.autobn < 65536
  | .adecl c t _ _ => adeclClass c t = .CAUTO → Fits st t
  | .dotag s _ body => tagBlock body st = 0 → (st.tag s).suetag ≠ none
  | _ => True

instance (st : State) (op : Op) : Decidable (Fine st op) := by
  cases op <;> unfold Fine <;> infer_instance

end Sequences

section Invariant

/-- Tags that no declaration has touched have no block. -/
def TagsKnown (st : State) : Prop := ∀ s, (st.tag s).suetag = none → (st.tag s).sueblock = 0

structure Inv (st : State) : Prop where
  inside : 0 < st.firstdcl
  low : st.firstdcl ≤ st.dclstack.length
  laid : Laid st
  tags : TagsKnown st

variable {st : State}

theorem tag_known {s : String} {bn : Int} (tags : TagsKnown st) (fine : bn = 0 → (st.tag s).suetag ≠ none) :
    bn = 0 ∨ bn = (st.tag s).sueblock → (st.tag s).suetag ≠ none := by
  rintro (zero | same) absent
  · exact fine zero absent
  · exact fine (same.trans (tags s absent)) absent

theorem dotag_grown {s : String} {bn : Int} (et : Etype) (tags : TagsKnown st)
    (fine : bn = 0 → (st.tag s).suetag ≠ none) :
    ∃ seg, Grown seg [] st (dotag s et bn st) ∧ TagsKnown (dotag s et bn st) ∧
      idents seg = [] ∧ (dotag s et bn st).ident = st.ident ∧ (dotag s et bn st).autoffset = st.autoffset ∧
      (dotag s et bn st).stkoff = st.stkoff := by
  obtain ⟨value, seg, types, diags, spec, present, shape⟩ := dotag_spec s st et bn (tag_known tags fine)
  rw [spec]
  have known : TagsKnown { st with dclstack := seg ++ st.dclstack, tag := Function.update st.tag s value, types := types, diags := diags } := by
    intro name absent
    by_cases same : name = s
    · subst same
      simp only [Function.update_self] at absent
      exact absurd absent present
    · simp only [Function.update_of_ne same] at absent ⊢
      exact tags name absent
  rcases shape with rfl | ⟨rfl, rfl⟩
  · refine ⟨[.DSUE s (st.tag s)], ⟨?_, by simp [Undoes], rfl, rewind_logged st.tag s value [], fun _ => id, fun _ => .inl, rfl, rfl⟩,
      known, rfl, rfl, rfl, rfl⟩
    simp only [insertLabels_nil]
  · exact ⟨[], (Grown.refl st).keep rfl rfl (Function.update_eq_self s st.tag) rfl rfl rfl, known, rfl, rfl, rfl, rfl⟩

variable (st) in
theorem dcllabel_spec (s : String) (defcontext : Bool) :
    ∃ names value diags, dcllabel s defcontext st =
        { st with
          dclstack := insertLabels st.firstdcl names st.dclstack
          label := Function.update st.label s (some value), diags := diags } ∧
      (st.label s = none → s ∈ names) := by
  cases labelled : st.label s with
  | some n =>
    refine ⟨[], if defcontext then { n with complex := true } else { n with addable := true },
      (dcllabel s defcontext st).diags, ?_, by simp⟩
    cases defcontext <;> ext : 1 <;> simp [dcllabel, labelled, insertLabels_nil]
  | none =>
    refine ⟨[s], ⟨defcontext, !defcontext⟩, st.diags, ?_, fun _ => List.mem_cons_self⟩
    simp [dcllabel, labelled, insertLabels]

variable (st) in
theorem dcllabel_grown (s : String) (defcontext : Bool) :
    ∃ names, Grown [] names st (dcllabel s defcontext st) ∧ (dcllabel s defcontext st).label s ≠ none ∧
      (dcllabel s defcontext st).tag = st.tag ∧ (dcllabel s defcontext st).autoffset = st.autoffset ∧
      (dcllabel s defcontext st).stkoff = st.stkoff := by
  obtain ⟨names, value, diags, spec, fresh⟩ := dcllabel_spec st s defcontext
  rw [spec]
  refine ⟨names, ⟨rfl, by simp, rfl, rfl, ?_, ?_, rfl, rfl⟩, by simp, rfl, rfl, rfl⟩
  · intro name old
    by_cases same : name = s <;> simp [Function.update, same, old]
  · intro name new
    by_cases same : name = s
    · by_cases absent : st.label s = none
      · exact .inr (same ▸ fresh absent)
      · exact .inl (same ▸ absent)
    · simp only [Function.update_of_ne same] at new
      exact .inl new

variable (st) in
/-- What a declaration in a body does. -/
theorem adecl_step (c : Dcl.Class) (t : Ctype) (s : String) (lineno : Int) (other : c ≠ .CPARAM) :
    ∃ value autoffset stkoff diags, step (.adecl c t s lineno) st =
        { st with
          dclstack := .DAUTO s (st.ident s) :: st.dclstack
          ident := Function.update st.ident s value, autoffset := autoffset, stkoff := stkoff, diags := diags } ∧
      (Auto value → adeclClass c t = .CAUTO ∧ value.type = some t ∧ value.offset = -alignAut3 st.packflg st.autoffset t ∧
        autoffset = alignAut3 st.packflg st.autoffset t ∧ stkoff = maxround st.stkoff autoffset) ∧
      (¬ Auto value → autoffset = st.autoffset ∧ stkoff = st.stkoff) := by
  obtain ⟨diags, spec⟩ := adecl_spec c t s st
  obtain ⟨value, line, storage, offset, type⟩ := dodecl_spec s (adecl c t (some s) st) lineno
  have now : (adecl c t (some s) st).ident s = declared c t s st := by rw [spec]; simp
  have class_ : value.storage = declaredClass c t s st := by rw [storage, now]; rfl
  refine ⟨value, (adecl c t (some s) st).autoffset, (adecl c t (some s) st).stkoff, diags, ?_, ?_, ?_⟩
  · rw [step, line, spec, if_neg other]
    simp only [Function.update_idem]
  · intro auto
    have actual : declaredClass c t s st = .CAUTO := class_.symm.trans auto
    refine ⟨(declaredClass_auto c t s st).mp actual, by rw [type, now]; rfl, ?_, ?_, ?_⟩
    · rw [offset, now]
      simp only [declared, declaredOffset, actual]
    · simp only [spec, actual]
    · simp only [spec, actual, if_true]
  · intro manual
    have actual : declaredClass c t s st ≠ .CAUTO := fun same => manual (class_.trans same)
    have parameter : declaredClass c t s st ≠ .CPARAM := fun same => other ((declaredClass_param c t s st).mp same)
    rw [spec]
    refine ⟨?_, if_neg actual⟩
    cases class' : declaredClass c t s st <;> simp_all

theorem adecl_laid {c : Dcl.Class} {t : Ctype} {s : String} (lineno : Int) (other : c ≠ .CPARAM)
    (fine : adeclClass c t = .CAUTO → Fits st t) (inv : Inv st) :
    Grown [.DAUTO s (st.ident s)] [] st (step (.adecl c t s lineno) st) ∧ Inv (step (.adecl c t s lineno) st) ∧
      st.stkoff ≤ (step (.adecl c t s lineno) st).stkoff := by
  obtain ⟨value, autoffset, stkoff, diags, spec, automatic, manual⟩ := adecl_step st c t s lineno other
  have nonneg := inv.laid.nonneg
  have below := inv.laid.below
  have small := inv.laid.small
  have low := inv.low
  rw [spec]
  have offsets : st.autoffset ≤ autoffset ∧ autoffset ≤ stkoff ∧ st.stkoff ≤ stkoff ∧ stkoff < 2 ^ 31 ∧
      (Auto value → -autoffset ≤ value.offset ∧ value.offset + width value ≤ -st.autoffset) := by
    by_cases auto : Auto value
    · obtain ⟨class_, type, offset, place, stack⟩ := automatic auto
      have fits := fine class_
      obtain ⟨above, whole⟩ := frameEnd_spec nonneg fits
      have sized := fits.1
      have bound := fits.2
      have size : width value = t.width := by rw [width, type]; rfl
      rw [alignAut3_fits nonneg fits] at place offset
      rw [place, maxround_eq (by omega) small (by omega) bound whole] at stack
      rw [size]
      omega
    · obtain ⟨place, stack⟩ := manual auto
      exact ⟨by omega, by omega, by omega, by omega, fun auto' => absurd auto' auto⟩
  obtain ⟨grows, within, deeper, fits, placed⟩ := offsets
  refine ⟨Grown.declare rfl rfl rfl rfl rfl rfl, ⟨inv.inside, ?_, ?_, inv.tags⟩, deeper⟩
  · simp only [List.length_cons]
    omega
  · exact inv.laid.declare rfl rfl grows within fits placed

theorem doenum_spec (s : String) (inside : st.dclstack ≠ []) :
    ∃ value diags, doenum s st =
        { st with
          dclstack := .DAUTO s (st.ident s) :: st.dclstack
          ident := Function.update st.ident s value, diags := diags } ∧ ¬ Auto value := by
  refine ⟨{ st.ident s with
      type := some (.typ .TENUM (Etype.ewidth .TENUM)), storage := if (st.ident s).storage = .CSTATIC then .CSTATIC else .CGLOBL
      block := 0, offset := 0 }, (doenum s st).diags, ?_, ?_⟩
  · ext : 1 <;> simp [doenum, inside, push1, State.push, State.setIdent]
  · simp only [Auto]
    split <;> simp

theorem Inv.nonempty (inv : Inv st) : st.dclstack ≠ [] := List.ne_nil_of_length_pos (inv.inside.trans_le inv.low)

theorem doenum_laid {s : String} (inv : Inv st) :
    Grown [.DAUTO s (st.ident s)] [] st (doenum s st) ∧ Inv (doenum s st) ∧ (doenum s st).stkoff = st.stkoff := by
  obtain ⟨value, diags, spec, manual⟩ := doenum_spec s inv.nonempty
  rw [spec]
  refine ⟨Grown.declare rfl rfl rfl rfl rfl rfl, ⟨inv.inside, inv.low.trans (Nat.le_succ _), ?_, inv.tags⟩, rfl⟩
  exact inv.laid.declare rfl rfl (Int.le_refl _) inv.laid.below inv.laid.small fun auto => absurd auto manual

theorem simple_step {op : Op} (simple : Simple op) (fine : Fine st op) (inv : Inv st) :
    ∃ seg names, Grown seg names st (step op st) ∧ Inv (step op st) ∧ st.stkoff ≤ (step op st).stkoff := by
  cases op with
  | adecl c t s lineno => exact ⟨_, _, adecl_laid lineno simple fine inv⟩
  | doenum s =>
    obtain ⟨grown, kept, stkoff⟩ := doenum_laid (s := s) inv
    exact ⟨_, _, grown, kept, stkoff.ge⟩
  | dotag s et body =>
    obtain ⟨seg, grown, tags, plain, ident, autoffset, stkoff⟩ := dotag_grown et inv.tags fine
    have saved : idents (dotag s et (tagBlock body st) st).dclstack = idents st.dclstack := by
      rw [grown.stack, insertLabels_nil, idents_append, plain, List.nil_append]
    exact ⟨seg, [], grown, ⟨grown.firstdcl ▸ inv.inside, grown.low inv.low, inv.laid.keep ident saved autoffset stkoff.ge (stkoff ▸ inv.laid.small), tags⟩, stkoff.ge⟩
  | dcllabel s defcontext =>
    obtain ⟨names, grown, _, tag, autoffset, stkoff⟩ := dcllabel_grown st s defcontext
    have saved : idents (dcllabel s defcontext st).dclstack = idents st.dclstack := by
      rw [grown.stack, List.nil_append, idents_insertLabels inv.low]
    refine ⟨[], names, grown, ⟨grown.firstdcl ▸ inv.inside, grown.low inv.low, inv.laid.keep grown.ident saved autoffset stkoff.ge (stkoff ▸ inv.laid.small), ?_⟩, stkoff.ge⟩
    intro name
    simp only [step, tag]
    exact inv.tags name
  | pragma packflg =>
    exact ⟨[], [], (Grown.refl st).keep rfl rfl rfl rfl rfl rfl,
      ⟨inv.inside, inv.low, inv.laid.keep rfl rfl rfl (Int.le_refl _) inv.laid.small, inv.tags⟩, Int.le_refl _⟩
  | function => cases simple
  | argmark => cases simple
  | argdone => cases simple
  | walkparam0 => cases simple
  | walkparam1 => cases simple
  | pdecl => cases simple
  | markdcl => cases simple
  | revertdcl => cases simple

theorem markdcl_inv (inv : Inv st) : Inv (markdcl st) where
  inside := inv.inside
  low := by
    have low := inv.low
    simp only [markdcl, State.push, List.length_cons]
    omega
  laid := inv.laid.keep rfl rfl rfl (Int.le_refl _) inv.laid.small
  tags := inv.tags

/-- What a block puts back. -/
structure Restored (before after : State) : Prop where
  ident : after.ident = before.ident
  tag : after.tag = before.tag
  autobn : after.autobn = before.autobn
  autoffset : after.autoffset = before.autoffset

theorem block_step {last : State} {seg : List Decl} {names : List String} (inv : Inv st)
    (mark : 0 ≤ st.autobn ∧ st.autobn < 65536) (grown : Grown seg names (markdcl st) last) (final : Inv last)
    (stkoff : st.stkoff ≤ last.stkoff) :
    Restored st (revertdcl last) ∧ Grown [] names st (revertdcl last) ∧ Inv (revertdcl last) ∧
      (revertdcl last).label = last.label ∧ (revertdcl last).stkoff = last.stkoff := by
  obtain ⟨diags, spec⟩ := revertdcl_block inv.low grown
  have fits : ushort st.autobn = st.autobn := Int.emod_eq_of_lt mark.1 mark.2
  have firstdcl : last.firstdcl = st.firstdcl := grown.firstdcl
  rw [spec, fits]
  have whole : Grown [] names st { last with
      ident := st.ident, tag := st.tag, dclstack := insertLabels st.firstdcl names st.dclstack
      autobn := st.autobn, autoffset := st.autoffset, diags := diags } :=
    ⟨rfl, by simp, rfl, rfl, grown.visible, grown.added, firstdcl, rfl⟩
  refine ⟨⟨rfl, rfl, rfl, rfl⟩, whole, ⟨whole.firstdcl ▸ inv.inside, whole.low inv.low, ?_, inv.tags⟩, rfl, rfl⟩
  exact inv.laid.keep rfl (idents_insertLabels inv.low names) rfl stkoff final.laid.small

/-- The step keeps the frame, the labels and the size of the frame. -/
structure Kept (st : State) (op : Op) : Prop where
  before : Inv st
  after : Inv (step op st)
  visible : ∀ s, st.label s ≠ none → (step op st).label s ≠ none
  stkoff : st.stkoff ≤ (step op st).stkoff

/-- A body keeps the invariant at every step, and what it declares can be undone. -/
theorem body_run {ops : List Op} (body : Body ops) (inv : Inv st) (fine : Along step Fine st ops) :
    Along step Kept st ops ∧ ∃ seg names, Grown seg names st (run st ops) ∧ Inv (run st ops) ∧ st.stkoff ≤ (run st ops).stkoff := by
  induction body generalizing st with
  | nil => exact ⟨trivial, [], [], Grown.refl st, inv, Int.le_refl _⟩
  | @simple op rest simple _ ih =>
    obtain ⟨seg, names, grown, next, stkoff⟩ := simple_step simple fine.1 inv
    obtain ⟨along, seg', names', later, final, more⟩ := ih next fine.2
    exact ⟨⟨⟨inv, next, grown.visible, stkoff⟩, along⟩, seg' ++ seg, names ++ names', grown.trans inv.low later, final,
      stkoff.trans more⟩
  | @block inner rest _ _ inner_ih rest_ih =>
    rw [List.cons_append] at fine ⊢
    obtain ⟨mark, fine⟩ := fine
    obtain ⟨fine, tail⟩ := along_append.mp fine
    obtain ⟨along, seg, names, grown, final, stkoff⟩ := inner_ih (markdcl_inv inv) fine
    obtain ⟨restored, whole, after, label, frame⟩ := block_step inv mark grown final stkoff
    obtain ⟨later, seg', names', more, last, deeper⟩ := rest_ih after tail.2
    refine ⟨⟨⟨inv, markdcl_inv inv, fun _ => id, Int.le_refl _⟩, along_append.mpr ⟨along, ⟨final, after, ?_, frame.ge⟩, later⟩⟩,
      seg' ++ [], names ++ names', ?_⟩
    · intro s shown
      exact label ▸ shown
    · rw [run, execute, execute_append]
      exact ⟨whole.trans inv.low more, last, (stkoff.trans frame.ge).trans deeper⟩

end Invariant

section Parameters

/-- No automatic is alive. -/
structure NoAutos (st : State) : Prop where
  visible : ∀ s, ¬ Auto (st.ident s)
  hidden : shadowed st.dclstack = []

variable {st after : State} {s : String} {value : Ident}

theorem NoAutos.keep (none : NoAutos st) (ident : after.ident = st.ident) (stack : idents after.dclstack = idents st.dclstack) :
    NoAutos after where
  visible := ident ▸ none.visible
  hidden := by rw [shadowed, stack]; exact none.hidden

theorem NoAutos.amend (none : NoAutos st) (stack : after.dclstack = st.dclstack)
    (ident : after.ident = Function.update st.ident s value) (manual : ¬ Auto value) : NoAutos after where
  visible name := by
    rw [ident]
    by_cases same : name = s
    · rwa [same, Function.update_self]
    · rw [Function.update_of_ne same]
      exact none.visible name
  hidden := stack ▸ none.hidden

theorem NoAutos.declare (none : NoAutos st) (stack : after.dclstack = .DAUTO s (st.ident s) :: st.dclstack)
    (ident : after.ident = Function.update st.ident s value) (manual : ¬ Auto value) : NoAutos after where
  visible := by
    have same : NoAutos { after with dclstack := st.dclstack } := none.amend rfl ident manual
    exact same.visible
  hidden := by rw [stack, shadowed_cons, if_neg (none.visible s), none.hidden]

theorem adecl_param (t : Ctype) (s : String) (st : State) :
    ∃ value autoffset diags, adecl .CPARAM t (some s) st =
        { st with ident := Function.update st.ident s value, autoffset := autoffset, diags := diags } ∧ ¬ Auto value := by
  obtain ⟨diags, spec⟩ := adecl_spec .CPARAM t s st
  have class_ := (declaredClass_param .CPARAM t s st).mpr rfl
  refine ⟨declared .CPARAM t s st, (adecl .CPARAM t (some s) st).autoffset, diags, ?_, ?_⟩
  · rw [spec, class_]
    rfl
  · intro auto
    exact absurd (class_.symm.trans auto) (by decide)

/-- The declaration of a parameter changes its own fields, and pushes nothing. -/
theorem pdecl_spec (c : Dcl.Class) (t : Ctype) (s : String) (st : State) :
    ∃ value autoffset diags, pdecl c t (some s) st =
        { st with ident := Function.update st.ident s value, autoffset := autoffset, diags := diags } ∧
      (¬ Auto (st.ident s) → ¬ Auto value) := by
  by_cases known : (st.ident s).offset = -1
  · obtain ⟨value, autoffset, diags, spec, manual⟩ := adecl_param (paramconv t (c = .CPARAM)) s
      ((st.diagIf (c ≠ .CXXX ∧ c ≠ .CPARAM) ("parameter cannot have class: " ++ s)).diagIf
        ((paramconv t (c = .CPARAM)).etype.typesu ∧ (paramconv t (c = .CPARAM)).width ≤ 0) "incomplete structure: ")
    refine ⟨value, autoffset, diags, ?_, fun _ => manual⟩
    simp only [pdecl, known, ne_eq, not_true_eq_false, decide_false, Bool.false_eq_true, if_false, Option.getD_some]
    rw [spec]
    simp
  · exact ⟨st.ident s, st.autoffset, st.diags ++ ["not a parameter: " ++ s], by simp [pdecl, known, State.diag], id⟩

theorem param_step (c : Dcl.Class) (t : Ctype) (s : String) (lineno : Int) (st : State) :
    ∃ value autoffset diags, dodecl s lineno (pdecl c t (some s) st) =
        { st with ident := Function.update st.ident s value, autoffset := autoffset, diags := diags } ∧
      (¬ Auto (st.ident s) → ¬ Auto value) := by
  obtain ⟨value, autoffset, diags, spec, manual⟩ := pdecl_spec c t s st
  obtain ⟨final, line, storage, _⟩ := dodecl_spec s (pdecl c t (some s) st) lineno
  refine ⟨final, autoffset, diags, ?_, ?_⟩
  · rw [line, spec]
    simp only [Function.update_idem]
  · intro before auto
    apply manual before
    rw [Auto, storage, spec] at auto
    simpa [Auto] using auto

theorem walkparam1_step (s : String) (lineno : Int) (st : State) :
    ∃ value autoffset diags, walkparam1 s lineno st =
        { st with ident := Function.update st.ident s value, autoffset := autoffset, diags := diags } ∧
      (¬ Auto (st.ident s) → ¬ Auto value) := by
  by_cases old : (st.ident s).offset ≠ -1
  · rw [walkparam1, if_pos old]
    exact ⟨_, _, st.diags, rfl, id⟩
  · rw [walkparam1, if_neg old]
    exact param_step _ _ s lineno st

theorem unnamed_step (c : Dcl.Class) (t : Ctype) (st : State) :
    ∃ autoffset diags, pdecl c t none st = { st with autoffset := autoffset, diags := diags } := by
  refine ⟨(pdecl c t none st).autoffset, (pdecl c t none st).diags, ?_⟩
  have parameter := (adeclClass_param .CPARAM (paramconv t (c = .CPARAM))).mpr rfl
  ext : 1 <;> simp [pdecl, adecl, parameter]

variable {base : State} {seg : List Decl} {pushed : List String} {ops : List Op}

/-- The parameters push their names first, so that their later changes are undone as well. -/
theorem head_run (head : Head pushed ops) (low : base.firstdcl ≤ base.dclstack.length) (inside : 0 < base.firstdcl)
    (grown : Grown seg [] base st) (covered : ∀ s ∈ pushed, s ∈ (idents seg).map Prod.fst) (none : NoAutos st)
    (tags : TagsKnown st) (fine : Along step Fine st ops) :
    ∃ seg, Grown seg [] base (run st ops) ∧ NoAutos (run st ops) ∧ TagsKnown (run st ops) := by
  induction head generalizing st seg with
  | nil => exact ⟨seg, grown, none, tags⟩
  | argmark result _ ih => exact ih (grown.keep rfl rfl rfl rfl rfl rfl) covered (none.keep rfl rfl) tags fine.2
  | argdone _ ih => exact ih (grown.keep rfl rfl rfl rfl rfl rfl) covered (none.keep rfl rfl) tags fine.2
  | walkparam0 s _ ih =>
    have pushes : Grown [.DAUTO s (st.ident s)] [] st (walkparam0 s st) := Grown.declare rfl rfl rfl rfl rfl rfl
    refine ih (grown.trans low pushes) ?_ (none.declare rfl rfl (none.visible s)) tags fine.2
    intro name known
    rw [idents_append, List.map_append, List.mem_append]
    rcases List.mem_cons.mp known with same | earlier
    · exact .inl (by simp [idents, identEntry, same])
    · exact .inr (covered name earlier)
  | @walkparam1 _ _ s lineno known _ ih =>
    obtain ⟨value, autoffset, diags, spec, manual⟩ := walkparam1_step s lineno st
    have next : step (.walkparam1 s lineno) st = _ := spec
    rw [run, execute, next]
    rw [Along, next] at fine
    exact ih (grown.amend (covered s known) rfl rfl rfl rfl rfl rfl) covered (none.amend rfl rfl (manual (none.visible s))) tags fine.2
  | @pdecl _ _ s c t lineno known _ ih =>
    obtain ⟨value, autoffset, diags, spec, manual⟩ := param_step c t s lineno st
    have next : step (.pdecl c t (some s) lineno) st = _ := spec
    rw [run, execute, next]
    rw [Along, next] at fine
    exact ih (grown.amend (covered s known) rfl rfl rfl rfl rfl rfl) covered (none.amend rfl rfl (manual (none.visible s))) tags fine.2
  | unnamed c t lineno _ ih =>
    obtain ⟨autoffset, diags, spec⟩ := unnamed_step c t st
    have next : step (.pdecl c t .none lineno) st = _ := spec
    rw [run, execute, next]
    rw [Along, next] at fine
    exact ih (grown.keep rfl rfl rfl rfl rfl rfl) covered (none.keep rfl rfl) tags fine.2
  | doenum s _ ih =>
    have nonempty : st.dclstack ≠ [] := List.ne_nil_of_length_pos ((grown.firstdcl ▸ inside).trans_le (grown.low low))
    obtain ⟨value, diags, spec, manual⟩ := doenum_spec s nonempty
    have next : step (.doenum s) st = _ := spec
    rw [run, execute, next]
    rw [Along, next] at fine
    refine ih (grown.trans low (Grown.declare rfl rfl rfl rfl rfl rfl)) ?_ (none.declare rfl rfl manual) tags fine.2
    intro name earlier
    rw [idents_append, List.map_append]
    exact List.mem_append_right _ (covered name earlier)
  | dotag s et body _ ih =>
    obtain ⟨more, tagged, known, plain, ident, _⟩ := dotag_grown et tags fine.1
    have saved : idents (dotag s et (tagBlock body st) st).dclstack = idents st.dclstack := by
      rw [tagged.stack, insertLabels_nil, idents_append, plain, List.nil_append]
    refine ih (grown.trans low tagged) ?_ (none.keep ident saved) known fine.2
    intro name earlier
    rw [idents_append, plain, List.nil_append]
    exact covered name earlier

end Parameters

section Functions

variable {st : State} {ops head body : List Op}

theorem Kept.run_inv (along : Along step Kept st ops) (inv : Inv st) : Inv (run st ops) := by
  induction ops generalizing st with
  | nil => exact inv
  | cons op ops ih => exact ih along.2 along.1.after

theorem Kept.run_visible {s : String} (along : Along step Kept st ops) (shown : st.label s ≠ none) :
    (run st ops).label s ≠ none := by
  induction ops generalizing st with
  | nil => exact shown
  | cons op ops ih => exact ih along.2 (along.1.visible s shown)

theorem Kept.run_stkoff (along : Along step Kept st ops) : st.stkoff ≤ (run st ops).stkoff := by
  induction ops generalizing st with
  | nil => exact Int.le_refl _
  | cons op ops ih => exact along.1.stkoff.trans (ih along.2)

theorem block_restored (inv : Inv st) (nested : Body body) (fine : Along step Fine st (.markdcl :: body)) :
    Restored st (run st (.markdcl :: body ++ [.revertdcl])) := by
  obtain ⟨mark, fine⟩ := fine
  obtain ⟨_, seg, names, grown, final, stkoff⟩ := body_run nested (markdcl_inv inv) fine
  have restored := (block_step inv mark grown final stkoff).1
  rw [List.cons_append, run, execute, execute_append]
  exact restored

/-- Between functions: no block is open and no automatic alive. -/
structure Top (st : State) : Prop where
  stack : st.dclstack = []
  none : ∀ s, ¬ Auto (st.ident s)
  label : ∀ s, st.label s = Option.none
  autobn : st.autobn = 0
  autoffset : st.autoffset = 0
  tags : TagsKnown st

theorem cinit_top : Top cinit where
  stack := rfl
  none _ auto := by cases auto
  label _ := rfl
  autobn := rfl
  autoffset := rfl
  tags _ _ := rfl

theorem run_append (st : State) (first second : List Op) : run st (first ++ second) = run (run st first) second :=
  execute_append st first second

theorem opening_run (top : Top st) (params : Head [] head) (fine : Along step Fine st (opening head)) :
    ∃ seg, Grown seg [] (step .function st) (run st (opening head)) ∧ Inv (run st (opening head)) := by
  obtain ⟨fine, _⟩ := along_append.mp fine
  have low : (step .function st).firstdcl ≤ (step .function st).dclstack.length := Nat.le_refl _
  have inside : 0 < (step .function st).firstdcl := Nat.succ_pos _
  have none : NoAutos (step .function st) := by
    refine ⟨top.none, ?_⟩
    simp [step, markdcl, State.push, top.stack, shadowed, idents, identEntry]
  obtain ⟨seg, grown, clear, tags⟩ := head_run params low inside (Grown.refl _) (by simp) none top.tags fine.2
  have eq : run st (opening head) = step .argdone (run (step .function st) head) := by
    rw [opening, List.cons_append, run, execute, execute_append]
    rfl
  have final : Grown seg [] (step .function st) (step .argdone (run (step .function st) head)) :=
    grown.keep rfl rfl rfl rfl rfl rfl
  have small : (0 : Int) < 2 ^ 31 := by decide
  rw [eq]
  refine ⟨seg, final, final.firstdcl ▸ inside, final.low low, ?_, tags⟩
  refine ⟨Int.le_refl 0, Int.le_refl 0, small, fun s auto => absurd auto (clear.visible s), ?_, ?_, ?_, ?_⟩
  · intro a shown
    exact absurd (clear.hidden ▸ shown) (by simp)
  · exact fun s _ _ auto => absurd auto (clear.visible s)
  · exact fun s auto => absurd auto (clear.visible s)
  · exact clear.hidden ▸ List.Pairwise.nil

/-- The scopes of one function, at every point of its body: blocks and the
function restore the tables, labels last to the end of the function, and the
frame holds all automatics apart. -/
structure Scoped (st : State) (head body : List Op) : Prop where
  blocks : ∀ prior inner rest, body = prior ++ (.markdcl :: inner ++ .revertdcl :: rest) → Body inner →
    Restored (run st (opening head ++ prior)) (run st (opening head ++ prior ++ (.markdcl :: inner ++ [.revertdcl])))
  function : Restored st (run st (functionOps head body))
  visible : ∀ prior s defcontext more rest, body = prior ++ (.dcllabel s defcontext :: more ++ rest) →
    (run st (opening head ++ prior ++ .dcllabel s defcontext :: more)).label s ≠ none
  undone : ∀ s, (run st (functionOps head body)).label s = none
  frame : ∀ prior more rest, body = prior ++ (more ++ rest) →
    (run st (opening head ++ prior)).autoffset ≤ (run st (opening head ++ prior ++ more)).stkoff
  within : ∀ prior rest, body = prior ++ rest → ∀ s, Auto ((run st (opening head ++ prior)).ident s) →
    Within (run st (opening head ++ prior)).stkoff ((run st (opening head ++ prior)).ident s)
  disjoint : ∀ prior rest, body = prior ++ rest →
    Disjoint (run st (opening head ++ prior)).ident (shadowed (run st (opening head ++ prior)).dclstack)

/-- Every function whose operations are `Fine` is properly scoped, and leaves
the compiler where the next one starts. -/
theorem scopes_restored (st : State) (head body : List Op) (top : Top st) (params : Head [] head) (nested : Body body)
    (fine : Along step Fine st (functionOps head body)) :
    Scoped st head body ∧ Top (run st (functionOps head body)) := by
  obtain ⟨fine, last⟩ := along_append.mp fine
  obtain ⟨first, fine⟩ := along_append.mp fine
  obtain ⟨seg, grown, inv⟩ := opening_run top params first
  obtain ⟨along, seg', names, more, final, _⟩ := body_run nested inv fine
  have low : (step .function st).firstdcl ≤ (step .function st).dclstack.length := Nat.le_refl _
  obtain ⟨diags, spec⟩ := revertdcl_function (grown.trans low more)
  have whole : run st (functionOps head body) = revertdcl (run (run st (opening head)) body) := by
    rw [functionOps, run_append, run_append]
    rfl
  have block : ushort st.autobn = st.autobn := by rw [top.autobn]; rfl
  have restored : Restored st (run st (functionOps head body)) := by
    rw [whole, spec, block]
    exact ⟨rfl, rfl, rfl, rfl⟩
  have undone : ∀ s, (run st (functionOps head body)).label s = none := by
    intro s
    rw [whole, spec]
    simp only [List.nil_append]
    split
    case isTrue => rfl
    case isFalse absent =>
      by_contra shown
      rcases (grown.trans low more).added s shown with old | new
      · exact old (top.label s)
      · exact absent new
  have point {prior rest : List Op} (split : body = prior ++ rest) :
      Inv (run (run st (opening head)) prior) ∧ Along step Kept (run (run st (opening head)) prior) rest ∧
        Along step Fine (run (run st (opening head)) prior) rest := by
    subst split
    obtain ⟨before, after⟩ := along_append.mp along
    exact ⟨Kept.run_inv before inv, after, (along_append.mp fine).2⟩
  refine ⟨⟨?_, restored, ?_, undone, ?_, ?_, ?_⟩, ⟨?_, ?_, undone, ?_, ?_, ?_⟩⟩
  · intro prior inner rest split nested
    obtain ⟨here, kept, good⟩ := point split
    rw [run_append st (opening head ++ prior), run_append st (opening head)]
    exact block_restored here nested (along_append.mp good).1
  · intro prior s defcontext more rest split
    obtain ⟨here, kept, good⟩ := point split
    rw [run_append, run_append]
    obtain ⟨_, _, label, _⟩ := dcllabel_grown (run (run st (opening head)) prior) s defcontext
    have later : Along step Kept (dcllabel s defcontext (run (run st (opening head)) prior)) more := (along_append.mp kept.2).1
    have shown := Kept.run_visible later label
    exact shown
  · intro prior more rest split
    obtain ⟨here, kept, _⟩ := point split
    rw [run_append, run_append, run_append]
    exact here.laid.below.trans (Kept.run_stkoff (along_append.mp kept).1)
  · intro prior rest split s auto
    obtain ⟨here, _⟩ := point split
    rw [run_append] at auto ⊢
    have place := here.laid.visible s auto
    have below := here.laid.below
    exact ⟨by have := place.1; omega, place.2⟩
  · intro prior rest split
    obtain ⟨here, _⟩ := point split
    rw [run_append]
    exact here.laid.disjoint
  · rw [whole, spec]
    exact top.stack
  · rw [restored.ident]
    exact top.none
  · rw [restored.autobn, top.autobn]
  · rw [restored.autoffset, top.autoffset]
  · rw [TagsKnown, restored.tag]
    exact top.tags

/-- A struct named in a block where no tag is visible stays declared after the
block, and block numbers from 65536 on do not fit the mark that should bring
them back. -/
theorem scopes_leak :
    (¬ ∀ head body, Head [] head → Body body → Scoped cinit head body) ∧
      ¬ ∀ head body, Head [] head → Body body → Scoped { cinit with blockno := 65535 } head body := by
  have reference : Body [.dotag "foo" .TSTRUCT false] := .simple (by decide) .nil
  have named : Body [.markdcl, .dotag "foo" .TSTRUCT false, .revertdcl] := .block reference .nil
  have empty : Body [.markdcl, .revertdcl] := .block .nil .nil
  constructor
  · intro holds
    have restored := (holds [] _ .nil named).blocks [] [.dotag "foo" .TSTRUCT false] [] rfl reference
    have leaked := congrFun restored.tag "foo"
    exact absurd leaked (by decide)
  · intro holds
    have restored := (holds [] _ .nil empty).blocks [] [] [] rfl .nil
    exact absurd restored.autobn (by decide)

/-- A function with a parameter, nested blocks that redeclare it, a tag and a label. -/
def nestedHead : List Op := [.walkparam0 "n", .argmark (.typ .TINT 4), .pdecl .CPARAM (.typ .TINT 4) (some "n") 1]

def nestedBody : List Op :=
  [.adecl .CXXX (.array 12 (.typ .TINT 4)) "a" 2, .markdcl, .adecl .CXXX (.typ .TCHAR 1) "a" 3, .dotag "foo" .TSTRUCT true,
    .dcllabel "out" false, .revertdcl, .adecl .CSTATIC (.typ .TINT 4) "n" 4, .dcllabel "out" true]

theorem scopes_restored_nested :
    Along step Fine cinit (functionOps nestedHead nestedBody) ∧ Scoped cinit nestedHead nestedBody ∧
      Top (run cinit (functionOps nestedHead nestedBody)) := by
  have params : Head [] nestedHead := .walkparam0 "n" (.argmark _ (.pdecl _ _ _ List.mem_cons_self .nil))
  have inner : Body [.adecl .CXXX (.typ .TCHAR 1) "a" 3, .dotag "foo" .TSTRUCT true, .dcllabel "out" false] :=
    .simple (by decide) (.simple (by decide) (.simple (by decide) .nil))
  have rest : Body [.adecl .CSTATIC (.typ .TINT 4) "n" 4, .dcllabel "out" true] :=
    .simple (by decide) (.simple (by decide) .nil)
  have nested : Body nestedBody := .simple (by decide) (.block inner rest)
  have fine : Along step Fine cinit (functionOps nestedHead nestedBody) := by decide
  exact ⟨fine, scopes_restored cinit nestedHead nestedBody cinit_top params nested fine⟩

end Functions

end Goken.Proofs.DclRun
