import Goken.Oplook
import Mathlib.Data.List.TakeWhile

/-! Rule lookup against the plain search. The range of an opcode is the part of the sorted
table with the opcode of its representant; sorting keeps it in order, so only the rules
that the first loop has left out can make a difference. -/

namespace Goken.Proofs.Oplook
open Goken.Oplook Lib.Grouped

section Comparison

theorem ocmp_eq : ocmp =
    lexicographic (fun p q => (p.as.ctorIdx : Int) - q.as.ctorIdx)
      (lexicographic (fun p q => ((q.flag &&& V4 : Nat) : Int) - (p.flag &&& V4 : Nat))
        (lexicographic (fun p q => ((q.flag &&& VFP : Nat) : Int) - (p.flag &&& VFP : Nat))
          (lexicographic (fun p q => (p.a1.ctorIdx : Int) - q.a1.ctorIdx)
            (lexicographic (fun p q => (p.a2.ctorIdx : Int) - q.a2.ctorIdx)
              (lexicographic (fun p q => (p.a3.ctorIdx : Int) - q.a3.ctorIdx) fun _ _ => 0))))) := rfl

theorem ocmp_compares : Compares ocmp := by
  rw [ocmp_eq]
  refine Compares.lexicographic ?_ (fun o : Optab => (o.as.ctorIdx : Int)) fun p q => ?as
  case as => rfl
  refine Compares.lexicographic ?_ (fun o : Optab => -((o.flag &&& V4 : Nat) : Int)) fun p q => ?v4
  case v4 => omega
  refine Compares.lexicographic ?_ (fun o : Optab => -((o.flag &&& VFP : Nat) : Int)) fun p q => ?vfp
  case vfp => omega
  refine Compares.lexicographic ?_ (fun o : Optab => (o.a1.ctorIdx : Int)) fun p q => ?a1
  case a1 => rfl
  refine Compares.lexicographic ?_ (fun o : Optab => (o.a2.ctorIdx : Int)) fun p q => ?a2
  case a2 => rfl
  refine Compares.lexicographic ?_ (fun o : Optab => (o.a3.ctorIdx : Int)) fun p q => ?a3
  case a3 => rfl
  exact compares_zero

theorem ocmp_as {p q : Optab} (le : ocmp p q ≤ 0) : p.as.ctorIdx ≤ q.as.ctorIdx := by
  unfold ocmp at le
  dsimp only at le
  split at le
  · omega
  next same => omega

theorem as_injective (r s : As) (same : r.ctorIdx = s.ctorIdx) : r = s := by
  rw [← As.ofNat_ctorIdx r, ← As.ofNat_ctorIdx s, same]

theorem filter_qsort (keep : Optab → Bool) (l : List Optab) : (qsort l).filter keep = qsort (l.filter keep) :=
  filter_insertionSort ocmp_compares.trans ocmp_compares.total keep l

theorem qsort_sorted (l : List Optab) : (qsort l).Pairwise fun p q => p.as.ctorIdx ≤ q.as.ctorIdx := by
  have : IsTrans Optab fun p q => ocmp p q ≤ 0 := ⟨ocmp_compares.trans⟩
  have : Std.Total fun p q : Optab => ocmp p q ≤ 0 := ⟨ocmp_compares.total⟩
  exact (List.pairwise_insertionSort _ l).imp ocmp_as

theorem mem_qsort {l : List Optab} {o : Optab} : o ∈ qsort l ↔ o ∈ l := List.mem_insertionSort _

end Comparison

section Ranges

/-- What `buildop` knows of the opcodes of a table. -/
def Known (table : List Optab) : Prop :=
  ∀ o ∈ table, ∃ others, aliases o.as = some others ∧ ∀ as, (as = o.as ∨ as ∈ others) ↔ representant as = o.as

theorem Known.of_subset {table part : List Optab} (known : Known table) (subset : ∀ o ∈ part, o ∈ table) : Known part :=
  fun o member => known o (subset o member)

def slice (table : List Optab) (range : Nat × Nat) : List Optab := (table.drop range.1).take (range.2 - range.1)

/-- The range of an opcode is the part of the table for its representant. -/
def Covers (table : List Optab) (as : As) (range : Option (Nat × Nat)) : Prop :=
  match range with
  | none => table.filter (fun o => o.as = representant as) = []
  | some range => slice table range = table.filter fun o => o.as = representant as

theorem filter_none {as : As} {l : List Optab} (apart : ∀ o ∈ l, o.as ≠ as) : l.filter (fun o => o.as = as) = [] :=
  List.filter_eq_nil_iff.mpr fun o member => by simpa using apart o member

/-- One run of the loop: the rules of the opcode `o.as`. -/
theorem run_covers {before l run after : List Optab} {o : Optab} {as : As} (split : l = run ++ after)
    (taken : run = l.filter fun q => q.as = o.as) (apart : ∀ p ∈ before, p.as ≠ o.as) (represents : representant as = o.as) :
    Covers (before ++ l) as (some (before.length, before.length + run.length)) := by
  show slice (before ++ l) (before.length, before.length + run.length) = _
  rw [represents, List.filter_append, filter_none apart, List.nil_append, ← taken, split]
  unfold slice
  rw [List.drop_left, Nat.add_sub_cancel_left, List.take_left]

theorem ranges_spec {before l : List Optab} {fuel i : Nat} {oprange : Oprange} (sorted : l.Pairwise fun p q => p.as.ctorIdx ≤ q.as.ctorIdx)
    (known : Known l) (enough : l.length ≤ fuel) (place : i = before.length) (apart : ∀ p ∈ before, ∀ q ∈ l, p.as ≠ q.as)
    (covers : ∀ as, (∀ o ∈ l, o.as ≠ representant as) → Covers (before ++ l) as (oprange as)) :
    ∃ result, ranges fuel i l oprange = some result ∧ ∀ as, Covers (before ++ l) as (result as) := by
  induction fuel generalizing before l i oprange with
  | zero =>
    obtain rfl := List.eq_nil_of_length_eq_zero (Nat.le_zero.mp enough)
    exact ⟨oprange, rfl, fun as => covers as fun _ member => absurd member List.not_mem_nil⟩
  | succ fuel ih =>
    cases l with
    | nil => exact ⟨oprange, rfl, fun as => covers as fun _ member => absurd member List.not_mem_nil⟩
    | cons o rest =>
      subst place
      obtain ⟨others, grouped, represents⟩ := known o List.mem_cons_self
      obtain ⟨taken, dropped⟩ := takeWhile_run as_injective sorted
      have whole := (List.takeWhile_append_dropWhile (p := fun q : Optab => q.as = o.as) (l := o :: rest)).symm
      unfold ranges
      simp only [grouped]
      generalize run_eq : (o :: rest).takeWhile (fun q => q.as = o.as) = run at taken whole ⊢
      generalize after_eq : (o :: rest).dropWhile (fun q => q.as = o.as) = after at dropped whole ⊢
      have later : ∀ q ∈ after, q ∈ o :: rest := fun q member => by
        rw [whole]
        exact List.mem_append_right run member
      have inside : ∀ q ∈ run, q.as = o.as := fun q member => by
        rw [taken] at member
        simpa using (List.mem_filter.mp member).2
      have shorter : after.length ≤ fuel := by
        have first : o ∈ run := by
          rw [taken]
          exact List.mem_filter.mpr ⟨List.mem_cons_self, by simp⟩
        have positive := List.length_pos_of_mem first
        have total := congrArg List.length whole
        rw [List.length_append] at total
        omega
      have regroup : before ++ o :: rest = (before ++ run) ++ after := by rw [List.append_assoc, ← whole]
      rw [regroup]
      apply ih
      case sorted =>
        rw [whole] at sorted
        exact (List.pairwise_append.mp sorted).2.1
      case known => exact known.of_subset later
      case enough => exact shorter
      case place => exact List.length_append.symm
      case apart =>
        intro p early q late
        rcases List.mem_append.mp early with old | new
        · exact apart p old q (later q late)
        · rw [inside p new]
          exact (dropped q late).symm
      case covers =>
        intro as absent
        rw [← regroup]
        split
        next mine => exact run_covers whole taken (fun p member => apart p member o List.mem_cons_self) ((represents as).mp mine)
        next other =>
          apply covers as
          intro q member
          rw [whole] at member
          rcases List.mem_append.mp member with early | late
          · rw [inside q early]
            exact fun same => other ((represents as).mpr same.symm)
          · exact absent q late

end Ranges

section Table

/-- The first loop reads past the rule `o`. -/
def left (h : Bool) (o : Optab) : Bool := o.flag &&& V4 = 0 || !h

def fits (a1 a2 a3 : Oplook.Class) (o : Optab) : Bool := o.a2 = a2 && cmp o.a1 a1 && cmp o.a3 a3

/-- The opcodes of the table, each once. -/
def heads : List As := [
  .ATEXT, .AWORD, .AADD, .AMOVW, .AMVN, .ACMP, .ASLL, .AMOVB, .AMOVBU, .AMOVH, .AMOVHU, .AMUL, .AB, .ABL, .ABEQ, .ASWPW,
  .ASWI, .ARFE, .AMOVF, .AADDF, .ACMPF, .AMOVFW, .ADIV, .AMULL, .AMOVM, .ACASE, .ABCASE]

theorem optab_heads : (optab.map Optab.as).eraseDups = heads := by decide

theorem heads_complete (o : Optab) (there : o ∈ optab) : o.as ∈ heads :=
  optab_heads ▸ List.mem_eraseDups.mpr (List.mem_map_of_mem there)

theorem find_filter_ne {α : Type} [DecidableEq α] {p : α → Bool} {a : α} (fails : p a = false) (l : List α) :
    (l.filter fun b => !b == a).find? p = l.find? p := by
  rw [List.find?_filter]
  congr 1
  funext b
  by_cases same : b = a
  · simp [same, fails]
  · simp [same]

theorem find_eraseDups {α : Type} [DecidableEq α] (p : α → Bool) (l : List α) : l.eraseDups.find? p = l.find? p := by
  induction size : l.length using Nat.strong_induction_on generalizing l with
  | _ n ih =>
    cases l with
    | nil => rfl
    | cons a l =>
      rw [List.eraseDups_cons, List.find?_cons, List.find?_cons]
      cases first : p a with
      | true => rfl
      | false =>
        have shorter : (l.filter fun b => !b == a).length < n := by
          rw [← size, List.length_cons]
          exact Nat.lt_succ_of_le (List.length_filter_le _ l)
        dsimp only
        rw [ih _ shorter _ rfl, find_filter_ne first]

theorem representant_heads (as : As) : representant as =
    (heads.find? fun r => match aliases r with | some others => as ∈ others | none => false).getD as := by
  rw [← optab_heads, find_eraseDups]
  rfl

theorem heads_known : (∀ r ∈ As.AXXX :: heads, (aliases r).isSome ∧ ∀ as ∈ r :: (aliases r).getD [], representant as = r) ∧
    ∀ n < 89, As.ofNat n ∈ representant (As.ofNat n) :: (aliases (representant (As.ofNat n))).getD [] := by
  simp only [representant_heads]
  decide

theorem heads_represent (r : As) (listed : r ∈ As.AXXX :: heads) : (aliases r).isSome ∧
    ∀ n < 89, (As.ofNat n = r ∨ As.ofNat n ∈ (aliases r).getD []) ↔ representant (As.ofNat n) = r := by
  obtain ⟨known, mine⟩ := heads_known.1 r listed
  refine ⟨known, fun n low => ⟨fun either => mine _ (List.mem_cons.mpr either), ?_⟩⟩
  rintro rfl
  exact List.mem_cons.mp (heads_known.2 n low)

set_option maxRecDepth 1000 in
theorem optab_rules : ∀ o ∈ optab, o.as ≠ .AXXX ∧ o.a1 ≠ .C_GOK ∧ o.a3 ≠ .C_GOK := by decide

theorem optab_as (o : Optab) (there : o ∈ optab) : o.as ≠ .AXXX := (optab_rules o there).1

theorem optab_classes (o : Optab) (there : o ∈ optab) : o.a1 ≠ .C_GOK ∧ o.a3 ≠ .C_GOK := (optab_rules o there).2

set_option maxRecDepth 1000 in
/-- A rule that is left out needs no floating point, and accepts nothing that a rule before it accepts for the same opcode. -/
theorem cut_rules : ∀ o ∈ optab.dropWhile (left true), o.flag &&& VFP = 0 ∧
    (o.flag &&& V4 = 0 → ∀ q ∈ optab.takeWhile (left true), q.as = o.as →
      (∀ n < 34, ¬(cmp o.a1 (Oplook.Class.ofNat n) ∧ cmp q.a1 (Oplook.Class.ofNat n))) ∨
        ∀ n < 34, ¬(cmp o.a3 (Oplook.Class.ofNat n) ∧ cmp q.a3 (Oplook.Class.ofNat n))) := by decide

theorem ctorIdx_lt (as : As) : as.ctorIdx < 89 := by cases as <;> decide

theorem class_lt (c : Oplook.Class) : c.ctorIdx < 34 := by cases c <;> decide

/-- The rule as the first loop rewrites it. -/
def renamed (vfp : Bool) (o : Optab) : Optab := if o.flag &&& VFP ≠ 0 ∧ vfp = false then { o with as := .AXXX } else o

theorem adjust_eq (f h : Bool) (l : List Optab) : adjust f (!h) l = (l.takeWhile (left h)).map (renamed f) := by
  induction l with
  | nil => rfl
  | cons o rest ih =>
    have first : adjust f (!h) (o :: rest) =
        if o.flag &&& V4 ≠ 0 ∧ (!h) = false then [] else renamed f o :: adjust f (!h) rest := by
      by_cases disabled : o.flag &&& VFP ≠ 0 ∧ f = false
      · simp only [adjust, renamed, if_pos disabled]
      · simp only [adjust, renamed, if_neg disabled]
    rw [first]
    by_cases stays : left h o = true
    · have reads : ¬(o.flag &&& V4 ≠ 0 ∧ (!h) = false) := by
        rintro ⟨marked, off⟩
        simp [left, marked, off] at stays
      rw [if_neg reads, List.takeWhile_cons_of_pos stays, List.map_cons, ih]
    · have stops : o.flag &&& V4 ≠ 0 ∧ (!h) = false := by simpa [left] using stays
      rw [if_pos stops, List.takeWhile_cons_of_neg stays, List.map_nil]

theorem mem_adjust {f h : Bool} {o : Optab} (member : o ∈ qsort (adjust f (!h) optab)) : ∃ p ∈ optab, renamed f p = o := by
  rw [mem_qsort, adjust_eq] at member
  obtain ⟨p, present, same⟩ := List.mem_map.mp member
  exact ⟨p, (List.takeWhile_sublist _).subset present, same⟩

theorem renamed_as (f : Bool) (o : Optab) : (renamed f o).as = .AXXX ∨ (renamed f o).as = o.as := by
  unfold renamed
  split
  · exact Or.inl rfl
  · exact Or.inr rfl

theorem renamed_classes (f : Bool) (o : Optab) :
    (renamed f o).a1 = o.a1 ∧ (renamed f o).a2 = o.a2 ∧ (renamed f o).a3 = o.a3 := by
  unfold renamed
  split <;> exact ⟨rfl, rfl, rfl⟩

theorem renamed_fits (f : Bool) (a1 a2 a3 : Oplook.Class) (o : Optab) : fits a1 a2 a3 (renamed f o) = fits a1 a2 a3 o := by
  obtain ⟨source, between, dest⟩ := renamed_classes f o
  rw [fits, source, between, dest, fits]

theorem renamed_enabled {f h : Bool} {o : Optab} (allowed : enabled f h o = true) : renamed f o = o := by
  unfold renamed
  split
  next disabled =>
    simp [enabled, disabled.1, disabled.2] at allowed
  next => rfl

theorem adjust_known (f h : Bool) : Known (qsort (adjust f (!h) optab)) := by
  intro o member
  obtain ⟨p, present, rfl⟩ := mem_adjust member
  generalize renamed f p = o, renamed_as f p = same
  have listed : o.as ∈ As.AXXX :: heads := by
    rcases same with same | same <;> rw [same]
    · exact List.mem_cons_self
    · exact List.mem_cons_of_mem _ (heads_complete p present)
  obtain ⟨known, represents⟩ := heads_represent o.as listed
  obtain ⟨others, grouped⟩ := Option.isSome_iff_exists.mp known
  refine ⟨others, grouped, fun as => ?_⟩
  have mine := represents as.ctorIdx (ctorIdx_lt as)
  rwa [As.ofNat_ctorIdx, grouped] at mine

theorem adjust_classes {f h : Bool} {o : Optab} (member : o ∈ qsort (adjust f (!h) optab)) : o.a1 ≠ .C_GOK ∧ o.a3 ≠ .C_GOK := by
  obtain ⟨p, present, rfl⟩ := mem_adjust member
  obtain ⟨source, _, dest⟩ := renamed_classes f p
  rw [source, dest]
  exact optab_classes p present

theorem renamed_disabled {f h : Bool} {o : Optab} (stays : left h o = true) (disabled : enabled f h o = false) :
    (renamed f o).as = .AXXX := by
  have off : o.flag &&& VFP ≠ 0 ∧ f = false := by
    unfold left at stays
    unfold enabled at disabled
    rw [stays, Bool.and_true] at disabled
    simpa using disabled
  rw [renamed, if_pos off]

/-- What the first loop leaves of the rules of an opcode. -/
theorem adjust_filter (f h : Bool) {as : As} (real : as ≠ .AXXX) (keep : Optab → Bool) :
    (adjust f (!h) optab).filter (fun o => o.as = as && keep o) =
      (optab.takeWhile (left h)).filter fun o => enabled f h o && (o.as = as && keep o) := by
  have same : ∀ o ∈ optab.takeWhile (left h),
      ((fun o : Optab => o.as = as && keep o) ∘ renamed f) o = (enabled f h o && (o.as = as && keep o)) := by
    intro o member
    cases allowed : enabled f h o with
    | true => simp [renamed_enabled allowed]
    | false =>
      have other : As.AXXX ≠ as := fun same => real same.symm
      simp [renamed_disabled (List.mem_takeWhile_imp member) allowed, other]
  rw [adjust_eq, List.filter_map, List.filter_congr same]
  refine (List.map_congr_left fun o member => ?_).trans (List.map_id _)
  obtain ⟨_, holds⟩ := List.mem_filter.mp member
  exact renamed_enabled (Bool.and_eq_true_iff.mp holds).1

theorem cut_enabled {h : Bool} {o : Optab} (late : o ∈ optab.dropWhile (left h)) : h = true := by
  cases h with
  | true => rfl
  | false =>
    have all : optab.dropWhile (left false) = [] := List.dropWhile_eq_nil_iff.mpr fun o _ => by simp [left]
    rw [all] at late
    cases late

theorem early_or_late {h : Bool} {o : Optab} (member : o ∈ optab) : o ∈ optab.takeWhile (left h) ∨ o ∈ optab.dropWhile (left h) := by
  rw [← List.takeWhile_append_dropWhile (p := left h) (l := optab)] at member
  exact List.mem_append.mp member

/-- The opcode of the disabled rules. -/
theorem adjust_axxx (f h : Bool) (a1 a2 a3 : Oplook.Class) :
    (adjust f (!h) optab).filter (fun o => o.as = .AXXX && fits a1 a2 a3 o) = [] ↔
      ∀ o ∈ optab, o.flag &&& VFP ≠ 0 → f = false → fits a1 a2 a3 o = false := by
  rw [adjust_eq, List.filter_map, List.map_eq_nil_iff, List.filter_eq_nil_iff]
  constructor
  · intro absent o member marked off
    have stays : o ∈ optab.takeWhile (left h) := by
      rcases early_or_late (h := h) member with early | late
      · exact early
      · obtain rfl := cut_enabled late
        exact absurd (cut_rules o late).1 marked
    have refused := absent o stays
    have moved : (renamed f o).as = .AXXX := by rw [renamed, if_pos ⟨marked, off⟩]
    simpa only [Function.comp, renamed_fits, moved, decide_true, Bool.true_and, Bool.not_eq_true] using refused
  · intro refused o early accepted
    have present := (List.takeWhile_sublist _).subset early
    simp only [Function.comp, renamed_fits, Bool.and_eq_true, decide_eq_true_eq] at accepted
    obtain ⟨moved, holds⟩ := accepted
    by_cases disabled : o.flag &&& VFP ≠ 0 ∧ f = false
    · rw [refused o present disabled.1 disabled.2] at holds
      cases holds
    · rw [renamed, if_neg disabled] at moved
      exact optab_as o present moved

end Table

section Search

theorem find_qsort (keep : Optab → Bool) (l : List Optab) : (qsort l).find? keep = (qsort (l.filter keep)).head? := by
  rw [← filter_qsort, List.head?_filter]

theorem xcmp_eq (i : Oplook.Class) {n : Oplook.Class} (known : n ≠ .C_GOK) : xcmp i n = cmp n i := by
  unfold xcmp
  split
  · rfl
  next unknown =>
    obtain rfl : i = .C_GOK := by
      by_contra other
      exact unknown ⟨other, known⟩
    cases n <;> first | rfl | contradiction

theorem find_place {α : Type} {test keep : α → Bool} {l : List α} (agree : ∀ a ∈ l, test a = keep a) :
    match l.findIdx? test with
    | none => l.find? keep = none
    | some k => k < l.length ∧ l[k]? = l.find? keep := by
  split
  next absent =>
    apply List.find?_eq_none.mpr
    intro a member
    simp [← agree a member, List.findIdx?_eq_none_iff.mp absent a member]
  next k found =>
    obtain ⟨inside, holds, before⟩ := List.findIdx?_eq_some_iff_getElem.mp found
    refine ⟨inside, ?_⟩
    rw [agree _ (List.getElem_mem inside)] at holds
    have earlier : ∀ j (sooner : j < k), (!keep l[j]) = true := by
      intro j sooner
      have skipped := before j sooner
      rw [agree _ (List.getElem_mem (sooner.trans inside))] at skipped
      simpa using skipped
    rw [List.getElem?_eq_getElem inside]
    exact (List.find?_eq_some_iff_getElem.mpr ⟨holds, k, inside, rfl, earlier⟩).symm

/-- The rules that a search for an instruction stops at. -/
def wanted (as : As) (a1 a2 a3 : Oplook.Class) (o : Optab) : Bool := o.as = representant as && fits a1 a2 a3 o

/-- The loop of `oplook` over a range. -/
def seek (table : List Optab) (oprange : Oprange) (as : As) (a1 a2 a3 : Oplook.Class) : Option Nat :=
  match oprange as with
  | none => none
  | some (start, stop) =>
    (((table.drop start).take (stop - start)).findIdx? fun o => o.a2 = a2 && xcmp a1 o.a1 && xcmp a3 o.a3).map (start + ·)

theorem seek_spec {table : List Optab} {oprange : Oprange} {as : As} (covers : Covers table as (oprange as))
    (known : ∀ o ∈ table, o.a1 ≠ .C_GOK ∧ o.a3 ≠ .C_GOK) (a1 a2 a3 : Oplook.Class) :
    match seek table oprange as a1 a2 a3 with
    | none => table.find? (wanted as a1 a2 a3) = none
    | some k => k < table.length ∧ table[k]? = table.find? (wanted as a1 a2 a3) := by
  have narrow : table.find? (wanted as a1 a2 a3) = (table.filter fun o => o.as = representant as).find? (fits a1 a2 a3) := by
    rw [List.find?_filter]
    congr 1
    funext o
    simp [wanted]
  rw [narrow]
  unfold seek
  cases range : oprange as with
  | none =>
    rw [range] at covers
    have empty : table.filter (fun o => o.as = representant as) = [] := covers
    simp only [empty, List.find?_nil]
  | some slice =>
    rw [range] at covers
    obtain ⟨start, stop⟩ := slice
    have part : (table.drop start).take (stop - start) = table.filter fun o => o.as = representant as := covers
    have tests : ∀ o ∈ table.filter (fun o => o.as = representant as),
        (o.a2 = a2 && xcmp a1 o.a1 && xcmp a3 o.a3) = fits a1 a2 a3 o := by
      intro o member
      obtain ⟨source, dest⟩ := known o (List.mem_of_mem_filter member)
      rw [xcmp_eq a1 source, xcmp_eq a3 dest, fits]
    have place := find_place tests
    rw [← part] at place ⊢
    dsimp only
    generalize ((table.drop start).take (stop - start)).findIdx?
      (fun o => o.a2 = a2 && xcmp a1 o.a1 && xcmp a3 o.a3) = found at place ⊢
    cases found with
    | none => exact place
    | some k =>
      obtain ⟨inside, same⟩ := place
      simp only [List.length_take, List.length_drop] at inside
      show start + k < table.length ∧ table[start + k]? = _
      refine ⟨by omega, ?_⟩
      rw [← same, List.getElem?_take_of_lt (by omega), List.getElem?_drop]

theorem buildop_spec (f h : Bool) : ∃ oprange, buildop f h = some (qsort (adjust f (!h) optab), oprange) ∧
    ∀ as, Covers (qsort (adjust f (!h) optab)) as (oprange as) := by
  obtain ⟨oprange, built, covers⟩ := @ranges_spec [] _ _ 0 (fun _ => none) (qsort_sorted (adjust f (!h) optab))
    (adjust_known f h) (Nat.le_refl _) rfl (fun _ member => absurd member List.not_mem_nil) fun as absent => filter_none absent
  refine ⟨oprange, ?_, covers⟩
  unfold buildop
  simp only [built, Option.map_some]

theorem adjust_length (f h : Bool) : (qsort (adjust f (!h) optab)).length ≤ 203 := by
  have sorted : (qsort (adjust f (!h) optab)).length = (adjust f (!h) optab).length := List.length_insertionSort _ _
  rw [sorted, adjust_eq, List.length_map]
  exact (List.takeWhile_sublist _).length_le

end Search

section Agreement

/-- A rule that the options allow is left out: the first loop stops at the first rule for
ARMv4, and the rules after it are not all for ARMv4. -/
def Missed (f h : Bool) (as : As) (a1 a2 a3 : Oplook.Class) : Prop :=
  ∃ o ∈ optab.dropWhile (left h), enabled f h o ∧ wanted as a1 a2 a3 o

/-- A disabled rule is found under the opcode that the first loop gives it. -/
def Stray (f : Bool) (as : As) (a1 a2 a3 : Oplook.Class) : Prop :=
  as = .AXXX ∧ f = false ∧ ∃ o ∈ optab, o.flag &&& VFP ≠ 0 ∧ fits a1 a2 a3 o

theorem plain_eq (f h : Bool) (as : As) (a1 a2 a3 : Oplook.Class) :
    plain f h as a1 a2 a3 = (qsort (optab.filter fun o => enabled f h o && wanted as a1 a2 a3 o)).head? := by
  have tests : (fun o : Optab => o.as = representant as && o.a2 = a2 && cmp o.a1 a1 && cmp o.a3 a3) = wanted as a1 a2 a3 := by
    funext o
    simp only [wanted, fits, Bool.and_assoc]
  rw [plain, tests, find_qsort, List.filter_filter]
  simp only [Bool.and_comm]

theorem head_qsort {l : List Optab} : (qsort l).head? = none ↔ l = [] := by
  rw [List.head?_eq_none_iff]
  constructor
  · intro empty
    have same : (qsort l).length = l.length := List.length_insertionSort _ l
    rw [empty] at same
    exact List.eq_nil_of_length_eq_zero same.symm
  · rintro rfl
    rfl

theorem representant_axxx (as : As) : representant as = .AXXX ↔ as = .AXXX := by
  have mine := (heads_represent .AXXX List.mem_cons_self).2 as.ctorIdx (ctorIdx_lt as)
  rw [As.ofNat_ctorIdx] at mine
  rw [← mine]
  simp [aliases]

theorem early_empty {f h : Bool} {as : As} {a1 a2 a3 : Oplook.Class} (missed : Missed f h as a1 a2 a3) :
    ((optab.takeWhile (left h)).filter fun o => enabled f h o && wanted as a1 a2 a3 o) = [] := by
  obtain ⟨o, late, allowed, accepted⟩ := missed
  obtain rfl := cut_enabled late
  apply List.filter_eq_nil_iff.mpr
  intro q early both
  simp only [wanted, fits, enabled, Bool.and_eq_true, decide_eq_true_eq, Bool.or_eq_true, Bool.not_true, Bool.false_eq_true,
    or_false] at allowed accepted both
  obtain ⟨mine, ⟨_, source⟩, dest⟩ := accepted
  obtain ⟨_, theirs, ⟨_, otherSource⟩, otherDest⟩ := both
  rcases (cut_rules o late).2 allowed.2 q early (theirs.trans mine.symm) with apart | apart
  · apply apart a1.ctorIdx (class_lt a1)
    rw [Oplook.Class.ofNat_ctorIdx]
    exact ⟨source, otherSource⟩
  · apply apart a3.ctorIdx (class_lt a3)
    rw [Oplook.Class.ofNat_ctorIdx]
    exact ⟨dest, otherDest⟩

theorem search_axxx (f h : Bool) (a1 a2 a3 : Oplook.Class) :
    (qsort (adjust f (!h) optab)).find? (wanted .AXXX a1 a2 a3) = plain f h .AXXX a1 a2 a3 ↔
      ¬(Missed f h .AXXX a1 a2 a3 ∨ Stray f .AXXX a1 a2 a3) := by
  have mine := (representant_axxx .AXXX).mpr rfl
  have none : ∀ o ∈ optab, wanted .AXXX a1 a2 a3 o = false := by
    intro o member
    simp [wanted, mine, optab_as o member]
  have nothing : (optab.filter fun o => enabled f h o && wanted .AXXX a1 a2 a3 o) = [] :=
    List.filter_eq_nil_iff.mpr fun o member => by simp [none o member]
  have notMissed : ¬Missed f h .AXXX a1 a2 a3 := by
    rintro ⟨o, late, _, accepted⟩
    rw [none o ((List.dropWhile_sublist _).subset late)] at accepted
    cases accepted
  have renamed := adjust_axxx f h a1 a2 a3
  rw [plain_eq, find_qsort, head_qsort.mpr nothing, head_qsort]
  unfold wanted
  rw [mine, renamed]
  constructor
  · rintro refused (missed | ⟨_, off, o, member, marked, accepted⟩)
    · exact notMissed missed
    · rw [refused o member marked off] at accepted
      cases accepted
  · intro neither o member marked off
    cases accepted : fits a1 a2 a3 o with
    | false => rfl
    | true => exact absurd (Or.inr ⟨rfl, off, o, member, marked, accepted⟩) neither

theorem search_iff (f h : Bool) (as : As) (a1 a2 a3 : Oplook.Class) :
    (qsort (adjust f (!h) optab)).find? (wanted as a1 a2 a3) = plain f h as a1 a2 a3 ↔
      ¬(Missed f h as a1 a2 a3 ∨ Stray f as a1 a2 a3) := by
  by_cases real : as = .AXXX
  · rw [real]
    exact search_axxx f h a1 a2 a3
  · have other : representant as ≠ .AXXX := fun same => real ((representant_axxx as).mp same)
    have kept : (adjust f (!h) optab).filter (wanted as a1 a2 a3) =
        (optab.takeWhile (left h)).filter fun o => enabled f h o && wanted as a1 a2 a3 o :=
      adjust_filter f h other (fits a1 a2 a3)
    have whole := List.filter_append (p := fun o => enabled f h o && wanted as a1 a2 a3 o)
      (optab.takeWhile (left h)) (optab.dropWhile (left h))
    rw [List.takeWhile_append_dropWhile] at whole
    rw [plain_eq, find_qsort, kept, whole]
    constructor
    · rintro same (missed | ⟨unknown, _⟩)
      · obtain ⟨o, late, allowed, accepted⟩ := missed
        rw [early_empty ⟨o, late, allowed, accepted⟩, List.nil_append, head_qsort.mpr rfl, eq_comm, head_qsort] at same
        have present := List.filter_eq_nil_iff.mp same o late
        rw [allowed, accepted] at present
        exact present rfl
      · exact real unknown
    · intro neither
      have nothing : ((optab.dropWhile (left h)).filter fun o => enabled f h o && wanted as a1 a2 a3 o) = [] := by
        apply List.filter_eq_nil_iff.mpr
        intro o late both
        obtain ⟨allowed, accepted⟩ := Bool.and_eq_true_iff.mp both
        exact neither (Or.inl ⟨o, late, allowed, accepted⟩)
      rw [nothing, List.append_nil]

end Agreement

section Runs

variable {α : Type}

/-- The entry that `oplook` returns is the answer of the search, or both say that there is none. -/
def Agrees (table : List Optab) : Found → Option Optab → Prop
  | .rule k, some o => table[k]? = some o
  | .illegal, none => True
  | _, _ => False

/-- An instruction as the reader of the object files makes it, after any number of lookups.
What `aclass` says may change from one to the next. -/
inductive Looked (table : List Optab) (oprange : Oprange) : Prog α → Prop
  | fresh (p : Prog α) : Looked table oprange (nocache p)
  | again (p : Prog α) (aclass : α → Oplook.Class) (before : Looked table oprange p) :
      Looked table oprange (oplook aclass table oprange p).2

/-- The classes in the memo are what `aclass` says. -/
structure Steady (aclass : α → Oplook.Class) (p : Prog α) : Prop where
  source : ∀ c, p.sourceClass = some c → c = aclass p.source
  dest : ∀ c, p.destClass = some c → c = aclass p.dest

/-- The memo holds the answer for the classes in it. -/
def Remembers (table : List Optab) (oprange : Oprange) (p : Prog α) : Prop :=
  p.optab ≠ 0 → ∃ a1 a3, p.sourceClass = some a1 ∧ p.destClass = some a3 ∧
    seek table oprange p.as a1 (middle p) a3 = some (p.optab - 1)

def place : Option Nat → Found
  | none => .illegal
  | some k => .rule k

def classed (p : Prog α) (a1 a3 : Oplook.Class) : Prog α := { p with sourceClass := some a1, destClass := some a3 }

theorem oplook_memo {aclass : α → Oplook.Class} {table : List Optab} {oprange : Oprange} {p : Prog α} (memo : p.optab ≠ 0) :
    oplook aclass table oprange p = (.rule (p.optab - 1), p) := by
  rw [oplook, if_pos memo]

theorem oplook_seek {aclass : α → Oplook.Class} {table : List Optab} {oprange : Oprange} {p : Prog α} (empty : p.optab = 0) :
    oplook aclass table oprange p =
      let a1 := p.sourceClass.getD (aclass p.source)
      let a3 := p.destClass.getD (aclass p.dest)
      match seek table oprange p.as a1 (middle p) a3 with
      | none => (.illegal, classed p a1 a3)
      | some k => (.rule k, { classed p a1 a3 with optab := (k + 1) % 256 }) := by
  have fresh : ¬p.optab ≠ 0 := fun memo => memo empty
  rw [oplook, if_neg fresh]
  unfold seek
  dsimp only
  cases oprange p.as with
  | none => rfl
  | some slice =>
    obtain ⟨start, stop⟩ := slice
    have between : middle { p with
        sourceClass := some (p.sourceClass.getD (aclass p.source)), destClass := some (p.destClass.getD (aclass p.dest)) } =
      middle p := rfl
    dsimp only
    rw [between]
    generalize List.findIdx? _ ((table.drop start).take (stop - start)) = found
    cases found <;> rfl

theorem looked_remembers {table : List Optab} {oprange : Oprange} (covers : ∀ as, Covers table as (oprange as))
    (known : ∀ o ∈ table, o.a1 ≠ .C_GOK ∧ o.a3 ≠ .C_GOK) (short : table.length ≤ 203) {p : Prog α}
    (looked : Looked table oprange p) : Remembers table oprange p := by
  induction looked with
  | fresh p => exact fun memo => absurd rfl memo
  | again p aclass _ ih =>
    by_cases memo : p.optab ≠ 0
    · rw [oplook_memo memo]
      exact ih
    · have place := seek_spec (covers p.as) known (p.sourceClass.getD (aclass p.source)) (middle p) (p.destClass.getD (aclass p.dest))
      rw [oplook_seek (not_not.mp memo)]
      dsimp only
      cases found : seek table oprange p.as (p.sourceClass.getD (aclass p.source)) (middle p) (p.destClass.getD (aclass p.dest)) with
      | none => exact fun filled => absurd filled memo
      | some k =>
        rw [found] at place
        have small : (k + 1) % 256 = k + 1 := Nat.mod_eq_of_lt (by have := place.1; omega)
        intro _
        refine ⟨_, _, rfl, rfl, ?_⟩
        show seek table oprange p.as _ (middle p) _ = some ((k + 1) % 256 - 1)
        rw [small]
        exact found

/-- A lookup finds what the loop finds for the classes that the memo or `aclass` gives. -/
theorem oplook_found {aclass : α → Oplook.Class} {table : List Optab} {oprange : Oprange} {p : Prog α}
    (remembers : Remembers table oprange p) (steady : Steady aclass p) :
    (oplook aclass table oprange p).1 = place (seek table oprange p.as (aclass p.source) (middle p) (aclass p.dest)) := by
  by_cases memo : p.optab ≠ 0
  · obtain ⟨a1, a3, source, dest, found⟩ := remembers memo
    rw [steady.source a1 source, steady.dest a3 dest] at found
    rw [oplook_memo memo, found, place]
  · have same1 : p.sourceClass.getD (aclass p.source) = aclass p.source := by
      cases known : p.sourceClass with
      | none => rfl
      | some c => exact steady.source c known
    have same3 : p.destClass.getD (aclass p.dest) = aclass p.dest := by
      cases known : p.destClass with
      | none => rfl
      | some c => exact steady.dest c known
    rw [oplook_seek (not_not.mp memo), same1, same3]
    dsimp only
    cases seek table oprange p.as (aclass p.source) (middle p) (aclass p.dest) <;> rfl

theorem agrees_iff {table : List Optab} {found : Option Nat} {answer search : Option Optab}
    (spec : match found with
      | none => search = none
      | some k => k < table.length ∧ table[k]? = search) :
    Agrees table (place found) answer ↔ search = answer := by
  cases found with
  | none =>
    obtain rfl := spec
    cases answer <;> simp [Agrees, place]
  | some k =>
    obtain ⟨inside, same⟩ := spec
    rw [List.getElem?_eq_getElem inside] at same
    subst same
    cases answer <;> simp [Agrees, place, inside]

/-- Lookup agrees with the plain search, except where a rule is left out or found astray. -/
theorem oplook_iff (f h : Bool) : ∃ table oprange, buildop f h = some (table, oprange) ∧
    ∀ p : Prog α, Looked table oprange p → ∀ aclass : α → Oplook.Class, Steady aclass p →
      (Agrees table (oplook aclass table oprange p).1 (plain f h p.as (aclass p.source) (middle p) (aclass p.dest)) ↔
        ¬(Missed f h p.as (aclass p.source) (middle p) (aclass p.dest) ∨
          Stray f p.as (aclass p.source) (middle p) (aclass p.dest))) := by
  obtain ⟨oprange, built, covers⟩ := buildop_spec f h
  refine ⟨_, oprange, built, fun p looked aclass steady => ?_⟩
  have known : ∀ o ∈ qsort (adjust f (!h) optab), o.a1 ≠ .C_GOK ∧ o.a3 ≠ .C_GOK := fun o member => adjust_classes member
  have remembers := looked_remembers covers known (adjust_length f h) looked
  rw [oplook_found remembers steady, agrees_iff (seek_spec (covers p.as) known _ _ _)]
  exact search_iff f h p.as _ _ _

theorem oplook_word : ∃ table oprange, buildop false true = some (table, oprange) ∧
    Agrees table (oplook id table oprange (nocache ⟨.AMOVW, .C_RCON, none, .C_REG, none, none, 0⟩)).1
      (plain false true .AMOVW .C_RCON .C_NONE .C_REG) := by
  obtain ⟨table, oprange, built, agrees⟩ := oplook_iff (α := Oplook.Class) false true
  refine ⟨table, oprange, built, (agrees _ (.fresh ⟨.AMOVW, .C_RCON, none, .C_REG, none, none, 0⟩) id ⟨nofun, nofun⟩).mpr ?_⟩
  rintro (⟨o, late, _, accepted⟩ | ⟨impossible, _⟩)
  · have refused : ∀ o ∈ optab.dropWhile (left true), wanted .AMOVW .C_RCON .C_NONE .C_REG o = false := by decide
    exact Bool.false_ne_true ((refused o late).symm.trans accepted)
  · cases impossible

set_option maxRecDepth 1000 in
/-- With `-h` a move from a shifted register is an illegal combination. -/
theorem oplook_shift : ∃ table oprange, buildop false true = some (table, oprange) ∧
    ¬Agrees table (oplook id table oprange (nocache ⟨.AMOVW, .C_SHIFT, none, .C_REG, none, none, 0⟩)).1
      (plain false true .AMOVW .C_SHIFT .C_NONE .C_REG) := by
  have run : ((buildop false true).map fun (table, oprange) =>
      (oplook id table oprange (nocache ⟨.AMOVW, .C_SHIFT, none, .C_REG, none, none, 0⟩)).1) = some .illegal := by
    decide +kernel
  have answer : plain false true .AMOVW .C_SHIFT .C_NONE .C_REG = some ⟨.AMOVW, .C_SHIFT, .C_NONE, .C_REG, 59, 4, 0, 0⟩ := by
    decide
  obtain ⟨⟨table, oprange⟩, built, found⟩ := Option.map_eq_some_iff.mp run
  refine ⟨table, oprange, built, ?_⟩
  dsimp only at found
  rw [found, answer]
  exact id

end Runs

end Goken.Proofs.Oplook
