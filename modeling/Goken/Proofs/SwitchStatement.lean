import Goken.Proofs.SwitchDispatch

/-! Whole switch statements: what `gen` and `doswit` collect from the body, and
where the dispatch goes for every value of the expression. The table has one
entry for each case that is not the default, and a zeroed entry for each case
whose constant is wider than the expression. -/

namespace Goken.Proofs.SwitchStatement
open Goken.Switch Goken.Proofs.SwitchCode Goken.Proofs.SwitchDispatch Lib.Arm Lib.Steps

/-- The `Case` that an accepted item leaves behind. -/
def caseOf (item : Item) : Case :=
  match item.const with
  | none => ⟨0, item.label, true, false⟩
  | some (et, v) => ⟨v, item.label, false, et.typev⟩

def casesOf (s : Stmt) : List Case := (s.items.map caseOf).reverse

theorem mem_casesOf {s : Stmt} {c : Case} : c ∈ casesOf s ↔ ∃ item ∈ s.items, caseOf item = c := by
  simp [casesOf]

private theorem ocase_collects (typeswitch : Etype → Bool) (items : List Item) :
    ∀ state : List Case × List String, (items.foldl (ocase typeswitch) state).2 = [] →
      state.2 = [] ∧ (items.foldl (ocase typeswitch) state).1 = (items.map caseOf).reverse ++ state.1 := by
  induction items with
  | nil => intro state clean; exact ⟨clean, rfl⟩
  | cons item items ih =>
    intro state clean
    obtain ⟨before, collected⟩ := ih _ clean
    rw [List.foldl_cons, collected]
    unfold ocase at before ⊢
    cases found : item.const with
    | none =>
      simp only [found] at before
      exact ⟨before, by simp [caseOf, found]⟩
    | some const =>
      obtain ⟨et, v⟩ := const
      simp only [found] at before
      split at before
      next allowed => exact ⟨before, by simp [caseOf, found, allowed]⟩
      next => simp at before

/-- What acceptance of a switch means for the two passes over its cases. -/
theorem accepted_iff (typeswitch : Etype → Bool) (s : Stmt) (accepted : s.Accepted typeswitch) :
    s.compiled typeswitch = doswit (regalloc s.etype s.left s.right) s.etype (casesOf s) s.breakpc ⟨s.pc, []⟩ ∧
      defaultDiags 0 (casesOf s) = [] ∧ duplicateDiags (qsort (entries s.etype.typev (casesOf s))) = [] := by
  unfold Stmt.Accepted Stmt.compiled oswitch at accepted
  unfold Stmt.compiled oswitch
  split at accepted
  next allowed =>
    obtain ⟨first, second⟩ := List.append_eq_nil_iff.mp accepted
    obtain ⟨_, collected⟩ := ocase_collects typeswitch s.items ([], []) first
    rw [List.append_nil] at collected
    rw [collected] at second
    simp only [allowed, if_true, first, List.nil_append, collected]
    refine ⟨rfl, ?_⟩
    unfold doswit at second
    simp only at second
    split at second
    next duplicate => exact absurd (List.append_eq_nil_iff.mp second).2 duplicate
    next distinct =>
      refine ⟨?_, not_not.mp distinct⟩
      unfold regalloc at second
      split at second
      next => split at second <;> exact second
      next => split at second <;> exact second
  next => simp at accepted

private theorem strict_of_clean {q : List C1} (sorted : q.Pairwise (fun c d => c.val ≤ d.val))
    (clean : duplicateDiags q = []) : q.Pairwise (fun c d => c.val < d.val) := by
  induction q with
  | nil => exact List.Pairwise.nil
  | cons c q ih =>
    obtain ⟨below, rest⟩ := List.pairwise_cons.mp sorted
    cases q with
    | nil => simp
    | cons d q =>
      obtain ⟨here, later⟩ := List.append_eq_nil_iff.mp clean
      have strict := ih rest later
      have different : c.val ≠ d.val := by
        intro same
        simp [same] at here
      refine List.pairwise_cons.mpr ⟨fun e member => ?_, strict⟩
      have first := below d (by simp)
      rcases List.mem_cons.mp member with rfl | member
      · omega
      · have := (List.pairwise_cons.mp strict).1 e member
        omega

private theorem nodup_of_strict {q r : List C1} (strict : q.Pairwise (fun c d => c.val < d.val)) (perm : q.Perm r) :
    (r.map C1.val).Nodup := by
  refine (perm.map C1.val).nodup_iff.mp (List.pairwise_map.mpr (strict.imp ?_))
  intro c d order
  omega

/-- The default label `doswit` ends up with. -/
def dfltOf (s : Stmt) : Nat := if defaultLabel (casesOf s) = 0 then s.breakpc else defaultLabel (casesOf s)

/-- The label the emitted code goes to for `x`. -/
def target (s : Stmt) (x : Int) : Nat := lookup (entries s.etype.typev (casesOf s)) x (dfltOf s)

private theorem entries_word {cases : List Case} {c : C1} (member : c ∈ entries false cases) : Word c.val := by
  unfold entries at member
  rcases List.mem_append.mp member with kept | phantom
  · obtain ⟨d, _, rfl⟩ := List.mem_map.mp kept
    exact int32_bounds d.val
  · rw [(List.mem_replicate.mp phantom).2]
    exact ⟨by simp, by simp⟩

private theorem entries_vlong {s : Stmt} {c : C1} (member : c ∈ entries true (casesOf s)) : Vlong c.val := by
  unfold entries at member
  rcases List.mem_append.mp member with kept | phantom
  · obtain ⟨d, inside, rfl⟩ := List.mem_map.mp kept
    obtain ⟨item, present, rfl⟩ := mem_casesOf.mp (List.mem_of_mem_filter (List.mem_of_mem_filter inside))
    cases found : item.const with
    | none => simp [caseOf, found, Vlong]
    | some const =>
      have low := s.const_low item present const.1 const.2 found
      have high := s.const_high item present const.1 const.2 found
      simpa [caseOf, found, Vlong] using And.intro low high
  · rw [(List.mem_replicate.mp phantom).2]
    exact ⟨by simp, by simp⟩

theorem accepted_nodup {typeswitch : Etype → Bool} {s : Stmt} (accepted : s.Accepted typeswitch) :
    ((entries s.etype.typev (casesOf s)).map C1.val).Nodup := by
  obtain ⟨_, _, clean⟩ := accepted_iff typeswitch s accepted
  exact nodup_of_strict (strict_of_clean (qsort_sorted _) clean) (qsort_perm _)

/-- Every run of an accepted dispatch gets to `target`. -/
theorem compiled_reaches {typeswitch : Etype → Bool} {s : Stmt} (accepted : s.Accepted typeswitch) {x : Int}
    (range : s.InRange x) (regs : Nat → BitVec 32) (flags : Flags) (holds : s.Holds x regs) :
    ∃ final, Reaches (step (s.compiled typeswitch).text) ⟨s.pc, regs, flags⟩ final ∧ final.pc = target s x := by
  obtain ⟨compiled, _, clean⟩ := accepted_iff typeswitch s accepted
  have strict := strict_of_clean (qsort_sorted _) clean
  have same : target s x = lookup (qsort (entries s.etype.typev (casesOf s))) x (dfltOf s) :=
    (lookup_perm (qsort_perm _) (accepted_nodup accepted) x _).symm
  have inside : ∀ c ∈ qsort (entries s.etype.typev (casesOf s)), c ∈ entries s.etype.typev (casesOf s) :=
    fun c member => (qsort_perm _).mem_iff.mp member
  rw [compiled, same]
  unfold doswit
  simp only [clean, ne_eq, not_true_eq_false, if_false]
  unfold Stmt.InRange at range
  unfold Stmt.Holds at holds
  unfold regalloc
  cases wide : s.etype.typev with
  | true =>
    simp only [wide, if_true] at *
    rw [switPair_eq]
    exact pairCode_sends range strict (fun c member => entries_vlong (inside c member)) s.distinct (placed_self _ _)
      regs flags holds.1 holds.2
  | false =>
    simp only [wide, Bool.false_eq_true, if_false] at *
    rw [swit1, swit2_eq, List.nil_append]
    have table : Table (qsort (entries false (casesOf s))) := ⟨strict, fun c member => entries_word (inside c member)⟩
    obtain ⟨final, run, reached, _⟩ := code_sends range _ _ table s.pc (placed_self s.pc _) regs flags holds
    exact ⟨final, run, reached⟩

/-! Which label the table gives. -/

private theorem defaultLabel_none {cases : List Case} (missing : ∀ c ∈ cases, c.isdef = false) (dflt : Nat) :
    cases.foldl (fun dflt c => if c.isdef then c.label else dflt) dflt = dflt := by
  induction cases generalizing dflt with
  | nil => rfl
  | cons c cases ih =>
    rw [List.foldl_cons, missing c (by simp)]
    exact ih (fun d member => missing d (by simp [member])) dflt

private theorem defaultDiags_none {cases : List Case} {dflt : Nat} (set : dflt ≠ 0)
    (clean : defaultDiags dflt cases = []) : ∀ c ∈ cases, c.isdef = false := by
  induction cases with
  | nil => simp
  | cons c cases ih =>
    unfold defaultDiags at clean
    cases isdef : c.isdef with
    | true => simp [isdef, set] at clean
    | false =>
      simp only [isdef, Bool.false_eq_true, if_false] at clean
      intro d member
      rcases List.mem_cons.mp member with rfl | member
      · exact isdef
      · exact ih clean d member

private theorem defaultLabel_unique {cases : List Case} (positive : ∀ c ∈ cases, 0 < c.label)
    (clean : defaultDiags 0 cases = []) {c : Case} (member : c ∈ cases) (isdef : c.isdef = true) :
    defaultLabel cases = c.label := by
  unfold defaultLabel
  induction cases with
  | nil => cases member
  | cons d cases ih =>
    unfold defaultDiags at clean
    rw [List.foldl_cons]
    cases first : d.isdef with
    | true =>
      simp only [first, if_true, ne_eq, not_true_eq_false, if_false, List.nil_append] at clean ⊢
      have label := positive d (by simp)
      have missing := defaultDiags_none (by omega) clean
      rcases List.mem_cons.mp member with rfl | member
      · exact defaultLabel_none missing _
      · rw [missing c member] at isdef
        cases isdef
    | false =>
      simp only [first, Bool.false_eq_true, if_false] at clean ⊢
      rcases List.mem_cons.mp member with rfl | member
      · rw [isdef] at first
        cases first
      · exact ih (fun e present => positive e (by simp [present])) clean member

private theorem casesOf_label {s : Stmt} : ∀ c ∈ casesOf s, 0 < c.label ∧ c.label < s.pc := by
  intro c member
  obtain ⟨item, present, rfl⟩ := mem_casesOf.mp member
  have labels := And.intro (s.label_pos item present) (s.label_before item present)
  unfold caseOf
  cases item.const <;> exact labels

private theorem caseOf_isdef {item : Item} : (caseOf item).isdef = true ↔ item.const = none := by
  unfold caseOf
  cases item.const <;> simp

private theorem caseOf_label (item : Item) : (caseOf item).label = item.label := by
  unfold caseOf
  cases item.const <;> rfl

theorem dfltOf_iff {s : Stmt} (clean : defaultDiags 0 (casesOf s) = []) (label : Nat) :
    ((∃ item ∈ s.items, item.const = none ∧ item.label = label) ∨
      (∀ item ∈ s.items, item.const ≠ none) ∧ s.breakpc = label) ↔ dfltOf s = label := by
  have positive := fun c member => (casesOf_label (s := s) c member).1
  by_cases present : ∃ item ∈ s.items, item.const = none
  · obtain ⟨item, member, none⟩ := present
    have unique : ∀ other ∈ s.items, other.const = .none → dfltOf s = other.label := by
      intro other inside isdef
      have found := defaultLabel_unique positive clean (mem_casesOf.mpr ⟨other, inside, rfl⟩) (caseOf_isdef.mpr isdef)
      have nonzero := s.label_pos other inside
      rw [caseOf_label] at found
      unfold dfltOf
      rw [found, if_neg (by omega)]
    constructor
    · rintro (⟨other, inside, isdef, rfl⟩ | ⟨missing, _⟩)
      · exact unique other inside isdef
      · exact absurd none (missing item member)
    · intro same
      exact Or.inl ⟨item, member, none, (unique item member none).symm.trans same⟩
  · push Not at present
    have missing : ∀ c ∈ casesOf s, c.isdef = false := by
      intro c member
      obtain ⟨item, inside, rfl⟩ := mem_casesOf.mp member
      exact Bool.eq_false_iff.mpr (fun isdef => present item inside (caseOf_isdef.mp isdef))
    have zero : defaultLabel (casesOf s) = 0 := defaultLabel_none missing 0
    unfold dfltOf
    rw [if_pos zero]
    constructor
    · rintro (⟨item, member, none, _⟩ | ⟨_, same⟩)
      · exact absurd none (present item member)
      · exact same
    · intro same
      exact Or.inr ⟨present, same⟩

/-- No constant is wider than the switch expression. -/
def Fits (s : Stmt) : Prop :=
  s.etype.typev = false → ∀ item ∈ s.items, ∀ et v, item.const = some (et, v) → et.typev = false

private theorem kept_of_fits {s : Stmt} (fits : Fits s) {c : Case} (member : c ∈ casesOf s) :
    (!(c.isv && !s.etype.typev)) = true := by
  obtain ⟨item, inside, rfl⟩ := mem_casesOf.mp member
  cases wide : s.etype.typev with
  | true => simp
  | false =>
    cases found : item.const with
    | none => simp [caseOf, found]
    | some const => simp [caseOf, found, fits wide item inside const.1 const.2 found]

/-- The constant as it stands in the table. -/
def constOf (s : Stmt) (v : Int) : Int := if s.etype.typev then v else int32 v

private theorem equals_iff {s : Stmt} (fits : Fits s) {item : Item} (inside : item ∈ s.items) {et : Etype} {v : Int}
    (found : item.const = some (et, v)) (x : Int) : s.Equals x et v ↔ constOf s v = x := by
  unfold Stmt.Equals constOf
  cases wide : s.etype.typev with
  | true => simp
  | false => simp [fits wide item inside et v found]

private theorem mem_entries_iff {s : Stmt} (fits : Fits s) {c : C1} : c ∈ entries s.etype.typev (casesOf s) ↔
    ∃ item ∈ s.items, ∃ et v, item.const = some (et, v) ∧ c = ⟨constOf s v, item.label⟩ := by
  have kept : ((casesOf s).filter (fun c => !c.isdef)).filter (fun c => !(c.isv && !s.etype.typev)) =
      (casesOf s).filter (fun c => !c.isdef) :=
    List.filter_eq_self.mpr (fun c member => kept_of_fits fits (List.mem_of_mem_filter member))
  unfold entries
  simp only [kept, Nat.sub_self, List.replicate_zero, List.append_nil, List.mem_map, List.mem_filter, mem_casesOf]
  constructor
  · rintro ⟨_, ⟨⟨item, inside, rfl⟩, ordinary⟩, rfl⟩
    cases found : item.const with
    | none => simp [caseOf, found] at ordinary
    | some const => exact ⟨item, inside, const.1, const.2, found, by simp [caseOf, found, constOf]⟩
  · rintro ⟨item, inside, et, v, found, rfl⟩
    exact ⟨caseOf item, ⟨⟨item, inside, rfl⟩, by simp [caseOf, found]⟩, by simp [caseOf, found, constOf]⟩

theorem selects_iff {typeswitch : Etype → Bool} {s : Stmt} (accepted : s.Accepted typeswitch) (fits : Fits s) (x : Int)
    (label : Nat) : s.Selects x label ↔ target s x = label := by
  have distinct := accepted_nodup accepted
  obtain ⟨_, clean, _⟩ := accepted_iff typeswitch s accepted
  have hit : ∀ item ∈ s.items, ∀ et v, item.const = some (et, v) → s.Equals x et v → target s x = item.label := by
    intro item inside et v found equal
    have value := (equals_iff fits inside found x).mp equal
    have member := (mem_entries_iff fits).mpr ⟨item, inside, et, v, found, rfl⟩
    have reached := lookup_mem distinct member (dfltOf s)
    rwa [value] at reached
  unfold Stmt.Selects
  by_cases present : ∃ item ∈ s.items, ∃ et v, item.const = some (et, v) ∧ s.Equals x et v
  · obtain ⟨item, inside, et, v, found, equal⟩ := present
    constructor
    · rintro (⟨other, member, et', v', found', equal', rfl⟩ | ⟨missing, _⟩)
      · exact hit other member et' v' found' equal'
      · exact absurd equal (missing item inside et v found)
    · intro same
      exact Or.inl ⟨item, inside, et, v, found, equal, (hit item inside et v found equal).symm.trans same⟩
  · push Not at present
    have missed : target s x = dfltOf s := by
      apply lookup_missing
      intro c member same
      obtain ⟨item, inside, et, v, found, rfl⟩ := (mem_entries_iff fits).mp member
      exact present item inside et v found ((equals_iff fits inside found x).mpr same)
    rw [missed, ← dfltOf_iff clean label]
    constructor
    · rintro (⟨item, inside, et, v, found, equal, _⟩ | ⟨_, rest⟩)
      · exact absurd equal (present item inside et v found)
      · exact rest
    · intro rest
      exact Or.inr ⟨present, rest⟩

private theorem target_before {s : Stmt} (x : Int) : target s x < s.pc := by
  have dflt : dfltOf s < s.pc := by
    unfold dfltOf
    split
    · exact s.break_before
    · unfold defaultLabel
      have bounded : ∀ (cases : List Case), (∀ c ∈ cases, c.label < s.pc) → ∀ d, d < s.pc →
          cases.foldl (fun dflt c => if c.isdef then c.label else dflt) d < s.pc := by
        intro cases
        induction cases with
        | nil => intro _ d small; exact small
        | cons c cases ih =>
          intro labels d small
          rw [List.foldl_cons]
          apply ih (fun e member => labels e (by simp [member]))
          split
          · exact labels c (by simp)
          · exact small
      exact bounded _ (fun c member => (casesOf_label c member).2) 0 (by have := s.break_before; omega)
  have labels : ∀ c ∈ entries s.etype.typev (casesOf s), c.label < s.pc := by
    intro c member
    unfold entries at member
    rcases List.mem_append.mp member with kept | phantom
    · obtain ⟨d, inside, rfl⟩ := List.mem_map.mp kept
      exact (casesOf_label d (List.mem_of_mem_filter (List.mem_of_mem_filter inside))).2
    · rw [(List.mem_replicate.mp phantom).2]
      have := s.break_before
      simp only
      omega
  unfold target
  generalize entries s.etype.typev (casesOf s) = q at labels
  induction q with
  | nil => exact dflt
  | cons c q ih =>
    rw [lookup_cons]
    split
    · exact labels c (by simp)
    · exact ih (fun d member => labels d (by simp [member]))

private theorem compiled_base {typeswitch : Etype → Bool} {s : Stmt} (accepted : s.Accepted typeswitch) :
    (s.compiled typeswitch).text.base = s.pc := by
  obtain ⟨compiled, _, clean⟩ := accepted_iff typeswitch s accepted
  rw [compiled]
  unfold doswit regalloc
  simp only [clean, ne_eq, not_true_eq_false, if_false]
  cases s.etype.typev with
  | true => simp [switPair_eq]
  | false => simp [swit1, swit2_eq]

/-- The machine stops as soon as it is back in the body. -/
private theorem stops {typeswitch : Etype → Bool} {s : Stmt} (accepted : s.Accepted typeswitch) {final : State}
    (left : final.pc < s.pc) : step (s.compiled typeswitch).text final = none := by
  unfold step fetch
  rw [compiled_base accepted, if_pos left]
  rfl

/-- A constant that was skipped leaves the entry of value 0 and label 0. -/
private theorem phantom_mem {s : Stmt} (wide : ¬ Fits s) : (⟨0, 0⟩ : C1) ∈ entries s.etype.typev (casesOf s) := by
  unfold Fits at wide
  push Not at wide
  obtain ⟨narrow, item, inside, et, v, found, isv⟩ := wide
  have counted : caseOf item ∈ (casesOf s).filter (fun c => !c.isdef) := by
    rw [List.mem_filter]
    exact ⟨mem_casesOf.mpr ⟨item, inside, rfl⟩, by simp [caseOf, found]⟩
  have skipped : ¬ (!((caseOf item).isv && !false)) = true := by
    simpa [caseOf, found] using isv
  unfold entries
  rw [narrow]
  refine List.mem_append.mpr (Or.inr (List.mem_replicate.mpr ⟨?_, rfl⟩))
  have fewer : (((casesOf s).filter (fun c => !c.isdef)).filter (fun c => !(c.isv && !false))).length <
      ((casesOf s).filter (fun c => !c.isdef)).length :=
    List.length_filter_lt_length_iff_exists.mpr ⟨_, counted, skipped⟩
  omega

/-- With a wide constant in a narrow switch, 0 goes to the pc of no label. -/
theorem zero_misses {typeswitch : Etype → Bool} {s : Stmt} (accepted : s.Accepted typeswitch) (wide : ¬ Fits s) :
    s.InRange 0 ∧ ¬ s.Dispatches typeswitch 0 := by
  have range : s.InRange 0 := by
    unfold Stmt.InRange
    split <;> omega
  refine ⟨range, fun dispatches => ?_⟩
  have holds : s.Holds 0 (fun _ => 0#32) := by
    unfold Stmt.Holds
    split
    · exact ⟨rfl, rfl⟩
    · rfl
  have zero : target s 0 = 0 := lookup_mem (accepted_nodup accepted) (phantom_mem wide) (dfltOf s)
  obtain ⟨final, run, reached⟩ := compiled_reaches accepted range _ ⟨false, false, false, false⟩ holds
  obtain ⟨other, run', stopped, selects⟩ := dispatches _ ⟨false, false, false, false⟩ holds
  have halted := stops accepted (reached ▸ target_before 0)
  have same : final = other := Reaches.unique halted stopped run run'
  rcases (selects 0).mpr (same ▸ reached.trans zero) with ⟨item, inside, _, _, _, _, label⟩ | ⟨_, rest⟩
  · have := s.label_pos item inside
    omega
  · rcases rest with ⟨item, inside, _, label⟩ | ⟨_, label⟩
    · have := s.label_pos item inside
      omega
    · have := s.break_pos
      omega

/-- A switch goes to the right label for every value exactly when none of its
constants is wider than its expression. -/
theorem switch_dispatches_iff (typeswitch : Etype → Bool) (s : Stmt) (accepted : s.Accepted typeswitch) :
    (∀ x, s.InRange x → s.Dispatches typeswitch x) ↔
      (s.etype.typev = false → ∀ item ∈ s.items, ∀ et v, item.const = some (et, v) → et.typev = false) := by
  constructor
  · intro dispatches
    by_contra wide
    obtain ⟨range, misses⟩ := zero_misses accepted wide
    exact misses (dispatches 0 range)
  · intro fits x range regs flags holds
    obtain ⟨final, run, reached⟩ := compiled_reaches accepted range regs flags holds
    refine ⟨final, run, stops accepted (reached ▸ target_before x), ?_⟩
    intro label
    rw [reached]
    exact selects_iff accepted fits x label

/-- `switch(i) { case 1: case 2: case 4: default: }` on an int. -/
def denseStmt : Stmt where
  etype := .TINT
  items := [⟨some (.TINT, 1), 4⟩, ⟨some (.TINT, 2), 5⟩, ⟨some (.TINT, 4), 6⟩, ⟨none, 7⟩]
  breakpc := 3
  pc := 9
  left := 1
  right := 2
  label_pos := by decide
  label_before := by decide
  break_pos := Nat.succ_pos 2
  break_before := by decide
  distinct := by decide
  const_low := by simp
  const_high := by simp

theorem denseStmt_dispatches : denseStmt.Accepted Etype.typechlv ∧ ∀ x, denseStmt.InRange x →
    denseStmt.Dispatches Etype.typechlv x :=
  have accepted : denseStmt.Accepted Etype.typechlv := by decide
  ⟨accepted, (switch_dispatches_iff Etype.typechlv denseStmt accepted).mpr (by simp [denseStmt, Etype.typev])⟩

/-- `switch(i) { case 0x100000000LL: default: }` on an int. -/
def wideStmt : Stmt where
  etype := .TINT
  items := [⟨some (.TVLONG, 2 ^ 32), 4⟩, ⟨none, 5⟩]
  breakpc := 3
  pc := 7
  left := 1
  right := 2
  label_pos := by decide
  label_before := by decide
  break_pos := Nat.succ_pos 2
  break_before := by decide
  distinct := by decide
  const_low := by simp
  const_high := by simp

theorem wideStmt_misses : wideStmt.Accepted Etype.typechlv ∧ wideStmt.InRange 0 ∧
    ¬ wideStmt.Dispatches Etype.typechlv 0 :=
  have accepted : wideStmt.Accepted Etype.typechlv := by decide
  ⟨accepted, zero_misses accepted (fun fits => absurd (fits rfl ⟨some (.TVLONG, 2 ^ 32), 4⟩ (by decide) .TVLONG
    (2 ^ 32) rfl) (by decide))⟩

end Goken.Proofs.SwitchStatement
