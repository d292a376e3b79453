import Goken.Switch
import Goken.Lib.Lists

/-! The emitter of the switch dispatch in closed form. Emission appends; what it
appends depends on the current pc only, because every patch hits an instruction
of the same dispatch. -/

namespace Goken.Proofs.SwitchCode
open Goken.Switch Lib.Arm

def linearCode (q : List C1) (dflt reg : Nat) : List Instr :=
  q.flatMap (fun c => [gcmp c.val reg, .ABcc .EQ c.label]) ++ [.AB dflt]

def tableCode (dflt : Nat) : Int → List C1 → List Instr
  | _, [] => []
  | v, c :: q => List.replicate (c.val - v).toNat (.ABCASE dflt) ++ .ABCASE c.label :: tableCode dflt (c.val + 1) q

def subCode (v : Int) (reg : Nat) : List Instr := if v ≠ 0 then [.ASUB (BitVec.ofInt 32 v) reg] else []

def directCode (q : List C1) (dflt reg : Nat) : List Instr :=
  subCode (firstVal q) reg ++ [gcmp (lastVal q - firstVal q) reg, .ACASE reg, .ABcc .HI dflt] ++
    tableCode dflt (firstVal q) q ++ [.AB dflt]

/-- What `swit2` appends at `pc`. -/
def code (q : List C1) (dflt reg pc : Nat) : List Instr :=
  if isDirect q then directCode q dflt reg
  else if q.length < 5 then linearCode q dflt reg
  else
    match _found : q.drop (q.length / 2) with
    | [] => []
    | r :: rest =>
      let lower := code (q.take (q.length / 2)) dflt reg (pc + 4)
      [gcmp r.val reg, .ABcc .GT (pc + 4 + lower.length), gcmp r.val reg, .ABcc .EQ r.label] ++ lower ++
        code rest dflt reg (pc + 4 + lower.length)
termination_by q.length
decreasing_by
  · rw [List.length_take]
    omega
  · have := congrArg List.length _found
    rw [List.length_drop, List.length_cons] at this
    omega

theorem gins_mk (b : Nat) (p : List Instr) (i : Instr) : Text.gins i ⟨b, p⟩ = ⟨b, p ++ [i]⟩ := rfl

theorem pc_mk (b : Nat) (p : List Instr) : Text.pc ⟨b, p⟩ = b + p.length := rfl

theorem patch_middle (b dest : Nat) (p : List Instr) (i : Instr) (rest : List Instr) :
    Text.patch (b + p.length) dest ⟨b, p ++ i :: rest⟩ = ⟨b, p ++ i.patched dest :: rest⟩ := by
  simp only [Text.patch, Nat.add_sub_cancel_left, Lib.Lists.modify_middle]

theorem patchp_last (b dest : Nat) (p : List Instr) (i : Instr) :
    Text.patchp dest ⟨b, p ++ [i]⟩ = ⟨b, p ++ [i.patched dest]⟩ := by
  have last : Text.pc ⟨b, p ++ [i]⟩ - 1 = b + p.length := by simp [pc_mk]
  rw [Text.patchp, last, patch_middle]

private theorem oeq_patched (c : Int) (reg b dest : Nat) (p : List Instr) :
    (gopcode .OEQ c reg ⟨b, p⟩).patchp dest = ⟨b, p ++ [gcmp c reg, .ABcc .EQ dest]⟩ := by
  rw [gopcode, gins_mk, gins_mk, patchp_last, Instr.patched, List.append_assoc]
  rfl

private theorem ocase_patched (c : Int) (reg b dest : Nat) (p : List Instr) :
    (gopcode .OCASE c reg ⟨b, p⟩).patchp dest = ⟨b, p ++ [gcmp c reg, .ACASE reg, .ABcc .HI dest]⟩ := by
  rw [gopcode, gins_mk, gins_mk, gins_mk, patchp_last, Instr.patched]
  simp

private theorem gbranch_patched (b dest : Nat) (p : List Instr) :
    (Text.gbranch ⟨b, p⟩).patchp dest = ⟨b, p ++ [.AB dest]⟩ := by
  rw [Text.gbranch, gins_mk, patchp_last, Instr.patched]

private theorem abcase_patched (b dest : Nat) (p : List Instr) :
    (Text.gins (.ABCASE 0) ⟨b, p⟩).patchp dest = ⟨b, p ++ [.ABCASE dest]⟩ := by
  rw [gins_mk, patchp_last, Instr.patched]

private theorem holes_eq (dflt b : Nat) (p : List Instr) (n : Nat) :
    (List.range n).foldl (fun t _ => (t.gins (.ABCASE 0)).patchp dflt) (⟨b, p⟩ : Text) =
      ⟨b, p ++ List.replicate n (.ABCASE dflt)⟩ := by
  induction n with
  | zero => simp
  | succ n ih =>
    rw [List.range_succ, List.foldl_append, ih, List.foldl_cons, List.foldl_nil, abcase_patched, List.append_assoc,
      List.replicate_succ']

private theorem bcases_eq (dflt : Nat) (v : Int) (q : List C1) (b : Nat) (p : List Instr) :
    bcases dflt v q ⟨b, p⟩ = ⟨b, p ++ tableCode dflt v q⟩ := by
  induction q generalizing v p with
  | nil => simp [bcases, tableCode]
  | cons c q ih =>
    rw [bcases, holes_eq, abcase_patched, ih]
    simp [tableCode]

private theorem direct_eq (q : List C1) (dflt reg b : Nat) (p : List Instr) :
    switDirect q dflt reg ⟨b, p⟩ = ⟨b, p ++ directCode q dflt reg⟩ := by
  have sub : (if firstVal q ≠ 0 then gopcode .OSUB (firstVal q) reg ⟨b, p⟩ else ⟨b, p⟩) =
      (⟨b, p ++ subCode (firstVal q) reg⟩ : Text) := by
    unfold subCode
    split
    · rfl
    · simp
  rw [switDirect]
  simp only [sub, ocase_patched, bcases_eq, gbranch_patched]
  simp [directCode]

private theorem linear_eq (q : List C1) (dflt reg b : Nat) (p : List Instr) :
    switLinear q dflt reg ⟨b, p⟩ = ⟨b, p ++ linearCode q dflt reg⟩ := by
  have tests : ∀ p, q.foldl (fun t c => (gopcode .OEQ c.val reg t).patchp c.label) (⟨b, p⟩ : Text) =
      ⟨b, p ++ q.flatMap (fun c => [gcmp c.val reg, .ABcc .EQ c.label])⟩ := by
    induction q with
    | nil => simp
    | cons c q ih =>
      intro p
      rw [List.foldl_cons, oeq_patched, ih]
      simp
  rw [switLinear, tests, gbranch_patched]
  simp [linearCode]

private theorem ogt_eq (c : Int) (reg b : Nat) (p : List Instr) :
    gopcode .OGT c reg ⟨b, p⟩ = ⟨b, p ++ [gcmp c reg, .ABcc .GT 0]⟩ := by
  rw [gopcode, gins_mk, gins_mk, List.append_assoc]
  rfl

private theorem swit2_split {q : List C1} {r : C1} {rest : List C1} (sparse : ¬ isDirect q = true)
    (large : ¬ q.length < 5) (found : q.drop (q.length / 2) = r :: rest) (dflt reg : Nat) (t : Text) :
    swit2 q dflt reg t =
      let upto := swit2 (q.take (q.length / 2)) dflt reg ((gopcode .OEQ r.val reg (gopcode .OGT r.val reg t)).patchp r.label)
      swit2 rest dflt reg (upto.patch ((gopcode .OGT r.val reg t).pc - 1) upto.pc) := by
  rw [swit2, if_neg sparse, if_neg large]
  split
  next empty => simp [found] at empty
  next other tail same =>
    obtain ⟨rfl, rfl⟩ := List.cons.inj (found.symm.trans same)
    rfl

/-- The code for a list that is split in two around `r`. -/
theorem code_split {q : List C1} {r : C1} {rest : List C1} (sparse : ¬ isDirect q = true)
    (large : ¬ q.length < 5) (found : q.drop (q.length / 2) = r :: rest) (dflt reg pc : Nat) :
    code q dflt reg pc =
      let lower := code (q.take (q.length / 2)) dflt reg (pc + 4)
      [gcmp r.val reg, .ABcc .GT (pc + 4 + lower.length), gcmp r.val reg, .ABcc .EQ r.label] ++ lower ++
        code rest dflt reg (pc + 4 + lower.length) := by
  rw [code, if_neg sparse, if_neg large]
  split
  next empty => simp [found] at empty
  next other tail same =>
    obtain ⟨rfl, rfl⟩ := List.cons.inj (found.symm.trans same)
    rfl

theorem exists_split {q : List C1} (large : ¬ q.length < 5) : ∃ r rest, q.drop (q.length / 2) = r :: rest ∧
    rest.length < q.length ∧ (q.take (q.length / 2)).length < q.length := by
  cases found : q.drop (q.length / 2) with
  | nil =>
    have shape := congrArg List.length found
    rw [List.length_drop, List.length_nil] at shape
    omega
  | cons r rest =>
    have shape := congrArg List.length found
    rw [List.length_drop, List.length_cons] at shape
    refine ⟨r, rest, rfl, by omega, ?_⟩
    rw [List.length_take]
    omega

theorem swit2_eq (q : List C1) (dflt reg b : Nat) (p : List Instr) :
    swit2 q dflt reg ⟨b, p⟩ = ⟨b, p ++ code q dflt reg (b + p.length)⟩ := by
  induction size : q.length using Nat.strong_induction_on generalizing q p with
  | _ n ih =>
    subst size
    by_cases dense : isDirect q = true
    · rw [swit2, code, if_pos dense, if_pos dense]
      exact direct_eq q dflt reg b p
    by_cases small : q.length < 5
    · rw [swit2, code, if_neg dense, if_neg dense, if_pos small, if_pos small]
      exact linear_eq q dflt reg b p
    obtain ⟨r, rest, found, shorter, half⟩ := exists_split small
    have lower := fun p => ih _ half _ p rfl
    have upper := fun p => ih _ shorter _ p rfl
    -- the branch to the upper half sits right after the first comparison
    have site : b + (p ++ [gcmp r.val reg, Instr.ABcc .GT 0]).length - 1 = b + (p ++ [gcmp r.val reg]).length := by
      simp only [List.length_append, List.length_cons, List.length_nil]
      omega
    have four : ∀ l : List Instr, b + (p ++ [gcmp r.val reg, Instr.ABcc .GT 0] ++
        [gcmp r.val reg, Instr.ABcc .EQ r.label] ++ l).length = b + p.length + 4 + l.length := by
      intro l
      simp only [List.length_append, List.length_cons, List.length_nil]
      omega
    have entry := four []
    rw [List.append_nil, List.length_nil, Nat.add_zero] at entry
    have regroup : ∀ l : List Instr, p ++ [gcmp r.val reg, Instr.ABcc .GT 0] ++
        [gcmp r.val reg, Instr.ABcc .EQ r.label] ++ l =
        p ++ [gcmp r.val reg] ++ Instr.ABcc .GT 0 :: ([gcmp r.val reg, Instr.ABcc .EQ r.label] ++ l) := by simp
    rw [swit2_split dense small found, code_split dense small found]
    simp only [ogt_eq, oeq_patched, lower, pc_mk, site, entry, four]
    have last : ∀ (i : Instr) (l : List Instr), b + (p ++ [gcmp r.val reg] ++
        i :: ([gcmp r.val reg, Instr.ABcc .EQ r.label] ++ l)).length = b + p.length + 4 + l.length := by
      intro i l
      simp only [List.length_append, List.length_cons, List.length_nil]
      omega
    rw [regroup, patch_middle, upper, last, Instr.patched]
    simp only [List.append_assoc, List.cons_append, List.nil_append]

/-- What `lowSwitches` appends, together with the table of high words. -/
def lowCode (dflt low : Nat) : List C1 → Nat → List C1 × List Instr
  | [], _ => ([], [])
  | c :: q, pc =>
    let same := fun (d : C1) => d.val / 2 ^ 32 == c.val / 2 ^ 32
    let iql := qsort ((c :: q.takeWhile same).map fun d => ⟨int32 d.val, d.label⟩)
    let first := code iql dflt low pc
    let rest := lowCode dflt low (q.dropWhile same) (pc + first.length)
    (⟨c.val / 2 ^ 32, pc⟩ :: rest.1, first ++ rest.2)
termination_by q => q.length
decreasing_by
  have shorter := (List.dropWhile_suffix (l := q) fun d : C1 => d.val / 2 ^ 32 == c.val / 2 ^ 32).length_le
  rw [List.length_cons]
  omega

private theorem lowSwitches_eq (dflt low b : Nat) (q : List C1) (p : List Instr) :
    lowSwitches dflt low q ⟨b, p⟩ =
      ((lowCode dflt low q (b + p.length)).1, ⟨b, p ++ (lowCode dflt low q (b + p.length)).2⟩) := by
  induction size : q.length using Nat.strong_induction_on generalizing q p with
  | _ size ih =>
    cases q with
    | nil => simp [lowSwitches, lowCode]
    | cons c q =>
      have shorter := (List.dropWhile_suffix (l := q) fun d : C1 => d.val / 2 ^ 32 == c.val / 2 ^ 32).length_le
      rw [List.length_cons] at size
      rw [lowSwitches, lowCode]
      simp only [swit1, swit2_eq, pc_mk]
      rw [ih _ (by omega) _ _ rfl]
      simp [Nat.add_assoc]

def pairCode (iq : List C1) (dflt left right pc : Nat) : List Instr :=
  let lows := lowCode dflt right iq (pc + 1)
  .AB (pc + 1 + lows.2.length) :: lows.2 ++ code lows.1 dflt left (pc + 1 + lows.2.length)

theorem switPair_eq (iq : List C1) (dflt left right b : Nat) :
    switPair iq dflt left right ⟨b, []⟩ = ⟨b, pairCode iq dflt left right b⟩ := by
  simp only [switPair, Text.gbranch, gins_mk, List.nil_append, lowSwitches_eq, pc_mk, List.length_singleton,
    Nat.add_sub_cancel, List.length_append]
  have patched := patch_middle b (b + (1 + (lowCode dflt right iq (b + 1)).2.length)) [] (.AB 0)
    (lowCode dflt right iq (b + 1)).2
  simp only [List.length_nil, Nat.add_zero, List.nil_append] at patched
  rw [List.singleton_append, patched, swit1, swit2_eq]
  simp [Instr.patched, pairCode, Nat.add_assoc, Nat.add_comm]

end Goken.Proofs.SwitchCode
