import Goken.Proofs.SwitchCode
import Mathlib.Data.List.TakeWhile

/-! Running the dispatch code. Each of the three strategies of `swit2`, and the
two-level dispatch on top of it, ends at the label that a lookup in the sorted
table gives. -/

namespace Goken.Proofs.SwitchDispatch
open Goken.Switch Goken.Proofs.SwitchCode Lib.Arm Lib.Steps

/-- The instructions `l` are the code at `pc`. -/
def Placed (t : Text) (pc : Nat) (l : List Instr) : Prop :=
  ∀ i, i < l.length → fetch t (pc + i) = l[i]?

theorem Placed.left {t : Text} {pc : Nat} {l r : List Instr} (placed : Placed t pc (l ++ r)) : Placed t pc l := by
  intro i inside
  rw [placed i (by rw [List.length_append]; omega), List.getElem?_append_left inside]

theorem Placed.right {t : Text} {pc : Nat} {l r : List Instr} (placed : Placed t pc (l ++ r)) :
    Placed t (pc + l.length) r := by
  intro i inside
  rw [Nat.add_assoc, placed (l.length + i) (by rw [List.length_append]; omega), List.getElem?_append_right (by omega),
    Nat.add_sub_cancel_left]

theorem Placed.head {t : Text} {pc : Nat} {i : Instr} {l : List Instr} (placed : Placed t pc (i :: l)) :
    fetch t pc = some i := placed 0 (by simp)

theorem Placed.tail {t : Text} {pc : Nat} {i : Instr} {l : List Instr} (placed : Placed t pc (i :: l)) :
    Placed t (pc + 1) l := Placed.right (l := [i]) placed

theorem placed_self (b : Nat) (l : List Instr) : Placed ⟨b, l⟩ b l := by
  intro i _
  simp [fetch]

private theorem step_of_fetch {t : Text} {s : State} {i : Instr} (found : fetch t s.pc = some i) :
    step t s = some (exec s i) := by simp [step, found]

/-- Whichever of `CMP` and `CMN` was emitted, the flags are those of the comparison. -/
theorem exec_gcmp (s : State) (c : Int) (reg : Nat) :
    exec s (gcmp c reg) = { s with pc := s.pc + 1, flags := cmpFlags (s.regs reg) (BitVec.ofInt 32 c) } := by
  unfold gcmp
  simp only
  split
  next negative =>
    have nonzero : BitVec.ofInt 32 c ≠ 0#32 := by
      intro zero
      rw [zero] at negative
      exact absurd negative.1 (by decide)
    simp only [exec, cmn_neg (s.regs reg) nonzero negative.2]
  next => rfl

/-- The label a table sends `x` to. -/
def lookup (q : List C1) (x : Int) (dflt : Nat) : Nat :=
  ((q.find? fun c => c.val == x).map C1.label).getD dflt

theorem lookup_cons (c : C1) (q : List C1) (x : Int) (dflt : Nat) :
    lookup (c :: q) x dflt = if c.val = x then c.label else lookup q x dflt := by
  unfold lookup
  by_cases same : c.val = x
  · rw [List.find?_cons_of_pos (by simpa using same), if_pos same]
    rfl
  · rw [List.find?_cons_of_neg (by simpa using same), if_neg same]

theorem lookup_missing {q : List C1} {x : Int} (missing : ∀ c ∈ q, c.val ≠ x) (dflt : Nat) : lookup q x dflt = dflt := by
  induction q with
  | nil => rfl
  | cons c q ih =>
    rw [lookup_cons, if_neg (missing c (by simp))]
    exact ih (fun d member => missing d (by simp [member]))

theorem lookup_append (l r : List C1) (x : Int) (dflt : Nat) : lookup (l ++ r) x dflt = lookup l x (lookup r x dflt) := by
  induction l with
  | nil => rfl
  | cons c l ih => rw [List.cons_append, lookup_cons, lookup_cons, ih]

def Word (v : Int) : Prop := -2 ^ 31 ≤ v ∧ v < 2 ^ 31

theorem Word.ofInt_eq {v w : Int} (first : Word v) (second : Word w) : BitVec.ofInt 32 v = BitVec.ofInt 32 w ↔ v = w := by
  refine ⟨fun same => ?_, fun same => same ▸ rfl⟩
  rw [← toInt_ofInt_of_bounds first.1 first.2, ← toInt_ofInt_of_bounds second.1 second.2, same]

/-- A table `doswit` hands to `swit1`: strictly increasing 32-bit values. -/
structure Table (q : List C1) : Prop where
  sorted : q.Pairwise (fun c d => c.val < d.val)
  words : ∀ c ∈ q, Word c.val

theorem Table.tail {c : C1} {q : List C1} (table : Table (c :: q)) : Table q :=
  ⟨(List.pairwise_cons.mp table.sorted).2, fun d member => table.words d (by simp [member])⟩

theorem Table.sublist {l q : List C1} (table : Table q) (part : List.Sublist l q) : Table l :=
  ⟨table.sorted.sublist part, fun c member => table.words c (part.subset member)⟩

/-- From `pc`, with `x` in `reg`, the machine gets to `label` and changes no
other register. -/
def Sends (t : Text) (pc reg : Nat) (x : Int) (label : Nat) : Prop :=
  ∀ regs flags, regs reg = BitVec.ofInt 32 x → ∃ final, Reaches (step t) ⟨pc, regs, flags⟩ final ∧
    final.pc = label ∧ ∀ other, other ≠ reg → final.regs other = regs other

/-- A comparison and the branch after it. -/
private theorem branch_taken {t : Text} {pc reg dest : Nat} {cond : Cond} {c : Int} (regs : Nat → BitVec 32) (flags : Flags)
    (first : fetch t pc = some (gcmp c reg)) (second : fetch t (pc + 1) = some (.ABcc cond dest)) :
    Reaches (step t) ⟨pc, regs, flags⟩
      ⟨if cond.holds (cmpFlags (regs reg) (BitVec.ofInt 32 c)) then dest else pc + 2, regs,
        cmpFlags (regs reg) (BitVec.ofInt 32 c)⟩ := by
  have compares : step t ⟨pc, regs, flags⟩ = some ⟨pc + 1, regs, cmpFlags (regs reg) (BitVec.ofInt 32 c)⟩ := by
    rw [step_of_fetch first, exec_gcmp]
  have branches : step t ⟨pc + 1, regs, cmpFlags (regs reg) (BitVec.ofInt 32 c)⟩ = some
      ⟨if cond.holds (cmpFlags (regs reg) (BitVec.ofInt 32 c)) then dest else pc + 2, regs,
        cmpFlags (regs reg) (BitVec.ofInt 32 c)⟩ := by
    rw [step_of_fetch (i := .ABcc cond dest) second]
    rfl
  exact Reaches.head compares (Reaches.single branches)

private theorem linear_sends {t : Text} {pc reg dflt : Nat} {x : Int} (range : Word x) :
    ∀ {q : List C1}, Table q → Placed t pc (linearCode q dflt reg) → Sends t pc reg x (lookup q x dflt) := by
  intro q
  induction q generalizing pc with
  | nil =>
    intro _ placed regs flags _
    exact ⟨_, Reaches.single (step_of_fetch placed.head), rfl, fun _ _ => rfl⟩
  | cons c q ih =>
    intro table placed regs flags holds
    have shape : linearCode (c :: q) dflt reg = gcmp c.val reg :: .ABcc .EQ c.label :: linearCode q dflt reg := by
      simp [linearCode]
    rw [shape] at placed
    have moves := branch_taken regs flags placed.head placed.tail.head
    rw [eq_cmp, holds] at moves
    rw [lookup_cons]
    by_cases same : c.val = x
    · rw [if_pos same]
      rw [if_pos (by simp [same])] at moves
      exact ⟨_, moves, rfl, fun _ _ => rfl⟩
    · rw [if_neg same]
      have differs : ¬ BitVec.ofInt 32 x = BitVec.ofInt 32 c.val := by
        rw [range.ofInt_eq (table.words c (by simp))]
        exact fun equal => same equal.symm
      rw [if_neg (by simp [differs])] at moves
      obtain ⟨final, rest, reached, kept⟩ := ih table.tail placed.tail.tail regs _ holds
      exact ⟨final, moves.trans rest, reached, kept⟩

private theorem lastVal_cons_cons (c d : C1) (q : List C1) : lastVal (c :: d :: q) = lastVal (d :: q) := by
  simp [lastVal, List.getLast?_cons_cons]

private theorem le_lastVal {q : List C1} (table : Table q) : ∀ c ∈ q, c.val ≤ lastVal q := by
  induction q with
  | nil => simp
  | cons c q ih =>
    cases q with
    | nil => simp [lastVal]
    | cons d q =>
      rw [lastVal_cons_cons]
      have below := (List.pairwise_cons.mp table.sorted).1 d (by simp)
      have upper := ih table.tail
      intro e member
      rcases List.mem_cons.mp member with rfl | member
      · have := upper d (by simp)
        omega
      · exact upper e member

private theorem firstVal_le {q : List C1} (table : Table q) : ∀ c ∈ q, firstVal q ≤ c.val := by
  cases q with
  | nil => simp
  | cons c q =>
    intro e member
    rcases List.mem_cons.mp member with rfl | member
    · exact Int.le_refl _
    · exact Int.le_of_lt ((List.pairwise_cons.mp table.sorted).1 e member)

private theorem endpoints_mem {q : List C1} (nonempty : q ≠ []) :
    (∃ c ∈ q, firstVal q = c.val) ∧ ∃ c ∈ q, lastVal q = c.val := by
  constructor
  · cases q with
    | nil => exact absurd rfl nonempty
    | cons c q => exact ⟨c, by simp, rfl⟩
  · refine ⟨q.getLast nonempty, List.getLast_mem nonempty, ?_⟩
    simp [lastVal, List.getLast?_eq_some_getLast nonempty]

/-- The table has the label of `x` at index `x - v`. -/
private theorem tableCode_get (dflt : Nat) {x : Int} : ∀ {q : List C1} {v : Int}, Table q → (∀ c ∈ q, v ≤ c.val) →
    v ≤ x → q ≠ [] → x ≤ lastVal q →
    (tableCode dflt v q)[(x - v).toNat]? = some (.ABCASE (lookup q x dflt)) := by
  intro q
  induction q with
  | nil => intro v _ _ _ nonempty; exact absurd rfl nonempty
  | cons c q ih =>
    intro v table above low _ high
    have here := above c (by simp)
    rw [tableCode, lookup_cons]
    rcases Int.lt_trichotomy x c.val with less | same | greater
    · -- a hole before the first value
      have missing : ∀ d ∈ q, d.val ≠ x := by
        intro d member
        have := (List.pairwise_cons.mp table.sorted).1 d member
        omega
      rw [if_neg (by omega), lookup_missing missing, List.getElem?_append_left (by rw [List.length_replicate]; omega),
        List.getElem?_replicate, if_pos (by omega)]
    · subst same
      rw [if_pos rfl, List.getElem?_append_right (by rw [List.length_replicate]), List.length_replicate, Nat.sub_self]
      rfl
    · have nonempty : q ≠ [] := by
        rintro rfl
        simp [lastVal] at high
        omega
      have bounded : x ≤ lastVal q := by
        obtain ⟨d, rest, rfl⟩ := List.exists_cons_of_ne_nil nonempty
        rwa [lastVal_cons_cons] at high
      have above' : ∀ d ∈ q, c.val + 1 ≤ d.val := fun d member => (List.pairwise_cons.mp table.sorted).1 d member
      have found := ih table.tail above' (by omega) nonempty bounded
      rw [if_neg (by omega), List.getElem?_append_right (by rw [List.length_replicate]; omega), List.length_replicate,
        show (x - v).toNat - (c.val - v).toNat = (x - (c.val + 1)).toNat + 1 by omega, List.getElem?_cons_succ]
      exact found

private theorem toNat_ofInt_of_lt {v : Int} (low : 0 ≤ v) (high : v < 2 ^ 32) : ((BitVec.ofInt 32 v).toNat : Int) = v := by
  rw [BitVec.toNat_ofInt]
  omega

/-- Subtracting the base maps the values of the table to its indices and every
other value above the last index. -/
private theorem base_range {x v last : Int} (range : Word x) (low : Word v) (high : Word last) (order : v ≤ last) :
    (BitVec.ofInt 32 (x - v)).toNat ≤ (BitVec.ofInt 32 (last - v)).toNat ↔ v ≤ x ∧ x ≤ last := by
  obtain ⟨x1, x2⟩ := range
  obtain ⟨v1, v2⟩ := low
  obtain ⟨l1, l2⟩ := high
  rw [BitVec.toNat_ofInt, BitVec.toNat_ofInt]
  omega

private theorem ofInt_sub_ofInt (x v : Int) : BitVec.ofInt 32 x - BitVec.ofInt 32 v = BitVec.ofInt 32 (x - v) := by
  apply BitVec.eq_of_toInt_eq
  simp

private theorem sub_sends {t : Text} {pc reg : Nat} {v x : Int} {regs : Nat → BitVec 32} (flags : Flags)
    (placed : Placed t pc (subCode v reg)) (holds : regs reg = BitVec.ofInt 32 x) :
    ∃ regs', Reaches (step t) ⟨pc, regs, flags⟩ ⟨pc + (subCode v reg).length, regs', flags⟩ ∧
      regs' reg = BitVec.ofInt 32 (x - v) ∧ ∀ other, other ≠ reg → regs' other = regs other := by
  unfold subCode at placed ⊢
  by_cases zero : v = 0
  · refine ⟨regs, ?_, ?_, fun _ _ => rfl⟩
    · have stays : Reaches (step t) ⟨pc, regs, flags⟩ ⟨pc, regs, flags⟩ := Reaches.refl _
      simpa [zero] using stays
    · rw [holds, zero, Int.sub_zero]
  · rw [if_pos zero] at placed ⊢
    refine ⟨Function.update regs reg (regs reg - BitVec.ofInt 32 v), Reaches.single ?_, ?_, ?_⟩
    · rw [step_of_fetch (i := .ASUB _ reg) placed.head]
      rfl
    · rw [Function.update_self, holds, ofInt_sub_ofInt]
    · intro other different
      exact Function.update_of_ne different _ _

private theorem direct_sends {t : Text} {pc reg dflt : Nat} {x : Int} {q : List C1} (range : Word x) (table : Table q)
    (nonempty : q ≠ []) (placed : Placed t pc (directCode q dflt reg)) : Sends t pc reg x (lookup q x dflt) := by
  intro regs flags holds
  obtain ⟨⟨a, ina, first⟩, b, inb, last⟩ := endpoints_mem nonempty
  have order : firstVal q ≤ lastVal q := first ▸ le_lastVal table a ina
  have low : Word (firstVal q) := first ▸ table.words a ina
  have high : Word (lastVal q) := last ▸ table.words b inb
  unfold directCode at placed
  obtain ⟨regs', subtracted, value, kept⟩ := sub_sends flags placed.left.left.left holds
  have body := placed.left.left.right
  have entries := placed.left.right
  rw [List.length_append, ← Nat.add_assoc] at entries
  simp only [List.length_cons, List.length_nil] at entries
  generalize pc + (subCode (firstVal q) reg).length = start at *
  -- the comparison and the indexed jump
  have compares : step t ⟨start, regs', flags⟩ =
      some ⟨start + 1, regs', cmpFlags (regs' reg) (BitVec.ofInt 32 (lastVal q - firstVal q))⟩ := by
    rw [step_of_fetch (i := gcmp _ reg) body.head, exec_gcmp]
  by_cases inside : firstVal q ≤ x ∧ x ≤ lastVal q
  · have taken : Cond.LS.holds (cmpFlags (regs' reg) (BitVec.ofInt 32 (lastVal q - firstVal q))) = true := by
      rw [ls_cmp, value]
      exact decide_eq_true ((base_range range low high order).mpr inside)
    have index : (regs' reg).toNat = (x - firstVal q).toNat := by
      have exact_value := toNat_ofInt_of_lt (v := x - firstVal q) (by omega) (by
        obtain ⟨_, x2⟩ := range
        obtain ⟨v1, _⟩ := low
        omega)
      rw [value]
      omega
    have jumps : step t ⟨start + 1, regs', cmpFlags (regs' reg) (BitVec.ofInt 32 (lastVal q - firstVal q))⟩ =
        some ⟨start + 3 + (x - firstVal q).toNat, regs', cmpFlags (regs' reg) (BitVec.ofInt 32 (lastVal q - firstVal q))⟩ := by
      rw [step_of_fetch (i := .ACASE reg) body.tail.head]
      simp only [exec, taken, if_true, index]
    have found := tableCode_get dflt table (firstVal_le table) inside.1 nonempty inside.2
    have bounded : (x - firstVal q).toNat < (tableCode dflt (firstVal q) q).length :=
      (List.getElem?_eq_some_iff.mp found).1
    have entry := entries _ bounded
    rw [found] at entry
    have lands := step_of_fetch (s := ⟨start + 3 + (x - firstVal q).toNat, regs',
      cmpFlags (regs' reg) (BitVec.ofInt 32 (lastVal q - firstVal q))⟩) entry
    exact ⟨_, subtracted.trans (Reaches.head compares (Reaches.head jumps (Reaches.single lands))), rfl, kept⟩
  · have skipped : Cond.LS.holds (cmpFlags (regs' reg) (BitVec.ofInt 32 (lastVal q - firstVal q))) = false := by
      rw [ls_cmp, value]
      exact decide_eq_false (fun below => inside ((base_range range low high order).mp below))
    have above : Cond.HI.holds (cmpFlags (regs' reg) (BitVec.ofInt 32 (lastVal q - firstVal q))) = true := by
      have opposite := Cond.inv_holds .LS (cmpFlags (regs' reg) (BitVec.ofInt 32 (lastVal q - firstVal q)))
      rw [skipped] at opposite
      exact opposite
    have falls : step t ⟨start + 1, regs', cmpFlags (regs' reg) (BitVec.ofInt 32 (lastVal q - firstVal q))⟩ =
        some ⟨start + 2, regs', cmpFlags (regs' reg) (BitVec.ofInt 32 (lastVal q - firstVal q))⟩ := by
      rw [step_of_fetch (i := .ACASE reg) body.tail.head]
      simp [exec, skipped]
    have leaves : step t ⟨start + 2, regs', cmpFlags (regs' reg) (BitVec.ofInt 32 (lastVal q - firstVal q))⟩ =
        some ⟨dflt, regs', cmpFlags (regs' reg) (BitVec.ofInt 32 (lastVal q - firstVal q))⟩ := by
      rw [step_of_fetch (i := .ABcc .HI dflt) body.tail.tail.head]
      simp [exec, above]
    have missing : ∀ c ∈ q, c.val ≠ x := by
      intro c member same
      exact inside ⟨same ▸ firstVal_le table c member, same ▸ le_lastVal table c member⟩
    rw [lookup_missing missing]
    exact ⟨_, subtracted.trans (Reaches.head compares (Reaches.head falls (Reaches.single leaves))), rfl, kept⟩

/-- The dispatch on one register is a lookup in the table. -/
theorem code_sends {reg dflt : Nat} {x : Int} (range : Word x) (t : Text) (q : List C1) (table : Table q) (pc : Nat)
    (placed : Placed t pc (code q dflt reg pc)) : Sends t pc reg x (lookup q x dflt) := by
  induction size : q.length using Nat.strong_induction_on generalizing q pc with
  | _ n ih =>
    subst size
    by_cases dense : isDirect q = true
    · have nonempty : q ≠ [] := by
        rintro rfl
        simp [isDirect] at dense
      rw [code, if_pos dense] at placed
      exact direct_sends range table nonempty placed
    by_cases small : q.length < 5
    · rw [code, if_neg dense, if_pos small] at placed
      exact linear_sends range table placed
    obtain ⟨r, rest, found, shorter, half⟩ := exists_split small
    have whole : q.take (q.length / 2) ++ r :: rest = q := by rw [← found, List.take_append_drop]
    rw [code_split dense small found] at placed
    have lower := ih _ half _ (table.sublist (List.take_sublist _ q)) (pc + 4) placed.left.right rfl
    have upperTable : Table (r :: rest) := table.sublist (found ▸ List.drop_sublist _ q)
    have upper := ih _ shorter rest upperTable.tail _ (by
      have tail := placed.right
      rw [List.length_append] at tail
      simpa only [List.length_cons, List.length_nil, Nat.zero_add, ← Nat.add_assoc] using tail) rfl
    have word := upperTable.words r (by simp)
    have below : ∀ c ∈ q.take (q.length / 2), c.val < r.val := by
      have parts := (List.pairwise_append.mp (whole ▸ table.sorted)).2.2
      exact fun c member => parts c member r (by simp)
    have above : ∀ c ∈ rest, r.val < c.val := (List.pairwise_cons.mp upperTable.sorted).1
    have value : lookup q x dflt = lookup (q.take (q.length / 2)) x (if r.val = x then r.label else lookup rest x dflt) := by
      rw [← lookup_cons, ← lookup_append, whole]
    intro regs flags holds
    have tests := placed.left.left
    have first := branch_taken regs flags tests.head tests.tail.head
    have second := branch_taken regs (cmpFlags (regs reg) (BitVec.ofInt 32 r.val))
      tests.tail.tail.head tests.tail.tail.tail.head
    rw [gt_cmp, holds, toInt_ofInt_of_bounds range.1 range.2, toInt_ofInt_of_bounds word.1 word.2] at first
    rw [eq_cmp, holds] at second
    rw [value]
    rcases Int.lt_trichotomy x r.val with less | same | greater
    · rw [if_neg (by simp; omega)] at first
      rw [if_neg (by rw [decide_eq_true_eq, range.ofInt_eq word]; omega)] at second
      rw [if_neg (by omega), lookup_missing (q := rest) (fun c member => by have := above c member; omega)]
      obtain ⟨final, run, reached, kept⟩ := lower regs _ holds
      exact ⟨final, first.trans (second.trans run), reached, kept⟩
    · rw [if_neg (by simp; omega)] at first
      rw [if_pos (by rw [decide_eq_true_eq, same])] at second
      rw [if_pos same.symm, lookup_missing (fun c member => by have := below c member; omega)]
      exact ⟨_, first.trans second, rfl, fun _ _ => rfl⟩
    · rw [if_pos (by simpa using greater)] at first
      rw [if_neg (by omega), lookup_missing (fun c member => by have := below c member; omega)]
      obtain ⟨final, run, reached, kept⟩ := upper regs _ holds
      exact ⟨final, first.trans run, reached, kept⟩

/-! Sorting the table. -/

theorem qsort_perm (q : List C1) : (qsort q).Perm q := List.perm_insertionSort _ q

private theorem swcmp_le (p1 p2 : C1) : swcmp p1 p2 ≤ 0 ↔ p1.val ≤ p2.val := by
  unfold swcmp
  split
  · omega
  · split <;> omega

theorem qsort_sorted (q : List C1) : (qsort q).Pairwise (fun c d => c.val ≤ d.val) := by
  have total : Std.Total (fun p1 p2 : C1 => swcmp p1 p2 ≤ 0) := ⟨fun a b => by simp only [swcmp_le]; omega⟩
  have trans : IsTrans C1 (fun p1 p2 : C1 => swcmp p1 p2 ≤ 0) := ⟨fun a b c => by simp only [swcmp_le]; omega⟩
  have sorted := List.pairwise_insertionSort (fun p1 p2 : C1 => swcmp p1 p2 ≤ 0) q
  exact sorted.imp (fun {c d} order => (swcmp_le c d).mp order)

private theorem strict_of_nodup {q : List C1} (sorted : q.Pairwise (fun c d => c.val ≤ d.val))
    (distinct : (q.map C1.val).Nodup) : q.Pairwise (fun c d => c.val < d.val) := by
  have different : q.Pairwise (fun c d => c.val ≠ d.val) := List.pairwise_map.mp distinct
  exact (sorted.and different).imp (fun {c d} both => by omega)

theorem qsort_table {q : List C1} (words : ∀ c ∈ q, Word c.val) (distinct : (q.map C1.val).Nodup) : Table (qsort q) := by
  have perm := qsort_perm q
  refine ⟨strict_of_nodup (qsort_sorted q) ((perm.map C1.val).nodup_iff.mpr distinct), ?_⟩
  exact fun c member => words c (perm.mem_iff.mp member)

theorem lookup_mem {q : List C1} (distinct : (q.map C1.val).Nodup) {c : C1} (member : c ∈ q) (dflt : Nat) :
    lookup q c.val dflt = c.label := by
  induction q with
  | nil => cases member
  | cons d q ih =>
    rw [List.map_cons, List.nodup_cons] at distinct
    rw [lookup_cons]
    rcases List.mem_cons.mp member with rfl | member
    · rw [if_pos rfl]
    · have different : d.val ≠ c.val := fun same => distinct.1 (same ▸ List.mem_map_of_mem member)
      rw [if_neg different]
      exact ih distinct.2 member

theorem lookup_perm {q r : List C1} (perm : q.Perm r) (distinct : (r.map C1.val).Nodup) (x : Int) (dflt : Nat) :
    lookup q x dflt = lookup r x dflt := by
  by_cases present : ∃ c ∈ r, c.val = x
  · obtain ⟨c, member, rfl⟩ := present
    rw [lookup_mem distinct member, lookup_mem ((perm.map C1.val).nodup_iff.mpr distinct) (perm.mem_iff.mpr member)]
  · push Not at present
    rw [lookup_missing present, lookup_missing (fun c member => present c (perm.mem_iff.mp member))]

/-! The two-level dispatch on a register pair. -/

private theorem high_low_eq {v w : Int} (high : v / 2 ^ 32 = w / 2 ^ 32) : int32 v = int32 w ↔ v = w := by
  refine ⟨fun low => ?_, fun same => same ▸ rfl⟩
  unfold int32 at low
  rw [Int.bmod_def, Int.bmod_def] at low
  split at low <;> split at low <;> omega

private theorem word_int32 (v : Int) : Word (int32 v) := int32_bounds v

/-- The entries of one high word, cut down to their low words. -/
private theorem low_group {q : List C1} {h x : Int} (sorted : q.Pairwise (fun c d => c.val < d.val))
    (same : ∀ c ∈ q, c.val / 2 ^ 32 = h) (here : x / 2 ^ 32 = h) (dflt : Nat) :
    let iql := qsort (q.map fun d => ⟨int32 d.val, d.label⟩)
    Table iql ∧ lookup iql (int32 x) dflt = lookup q x dflt := by
  have distinct : ((q.map fun d => (⟨int32 d.val, d.label⟩ : C1)).map C1.val).Nodup := by
    rw [List.map_map]
    apply List.pairwise_map.mpr
    refine sorted.imp_of_mem (fun {c d} first second order equal => ?_)
    have := (high_low_eq ((same c first).trans (same d second).symm)).mp equal
    omega
  refine ⟨qsort_table (fun c member => ?_) distinct, ?_⟩
  · obtain ⟨d, _, rfl⟩ := List.mem_map.mp member
    exact word_int32 d.val
  · rw [lookup_perm (qsort_perm _) distinct]
    clear distinct
    induction q with
    | nil => rfl
    | cons c q ih =>
      have equal := high_low_eq ((same c (by simp)).trans here.symm)
      rw [List.map_cons, lookup_cons, lookup_cons, ih (List.pairwise_cons.mp sorted).2 (fun d member => same d (by simp [member]))]
      by_cases match_ : c.val = x
      · rw [if_pos match_, if_pos (equal.mpr match_)]
      · rw [if_neg match_, if_neg (fun low => match_ (equal.mp low))]

/-- In a sorted table the entries left after the first high word have larger ones. -/
private theorem dropWhile_high {c : C1} {q : List C1} (sorted : (c :: q).Pairwise (fun c d => c.val < d.val)) :
    ∀ d ∈ q.dropWhile (fun d => d.val / 2 ^ 32 == c.val / 2 ^ 32), c.val / 2 ^ 32 < d.val / 2 ^ 32 := by
  induction q with
  | nil => simp
  | cons e q ih =>
    have above := List.pairwise_cons.mp sorted
    have rest := List.pairwise_cons.mp above.2
    have first := above.1 e (by simp)
    by_cases same : e.val / 2 ^ 32 = c.val / 2 ^ 32
    · rw [List.dropWhile_cons_of_pos (by simpa using same)]
      exact ih (List.pairwise_cons.mpr ⟨fun d member => above.1 d (by simp [member]), rest.2⟩)
    · rw [List.dropWhile_cons_of_neg (by simpa using same)]
      intro d member
      rcases List.mem_cons.mp member with rfl | member
      · omega
      · have := rest.1 d member
        omega

def Vlong (v : Int) : Prop := -2 ^ 63 ≤ v ∧ v < 2 ^ 63

private theorem word_high {v : Int} (range : Vlong v) : Word (v / 2 ^ 32) := by
  obtain ⟨low, high⟩ := range
  unfold Word
  omega

theorem lowCode_table {dflt low : Nat} (q : List C1) (sorted : q.Pairwise (fun c d => c.val < d.val))
    (range : ∀ c ∈ q, Vlong c.val) (pc : Nat) :
    Table (lowCode dflt low q pc).1 ∧ ∀ e ∈ (lowCode dflt low q pc).1, ∃ c ∈ q, e.val = c.val / 2 ^ 32 := by
  induction size : q.length using Nat.strong_induction_on generalizing q pc with
  | _ n ih =>
    subst size
    cases q with
    | nil => simp [lowCode, Table.mk]
    | cons c q =>
      have part := List.dropWhile_suffix (l := q) fun d : C1 => d.val / 2 ^ 32 == c.val / 2 ^ 32
      have later := dropWhile_high sorted
      rw [lowCode]
      generalize code _ dflt low pc = first
      have rest := ih _ (by rw [List.length_cons]; have := part.length_le; omega) _
        ((List.pairwise_cons.mp sorted).2.sublist part.sublist)
        (fun d member => range d (by simp [part.subset member])) (pc + first.length) rfl
      refine ⟨⟨List.pairwise_cons.mpr ⟨?_, rest.1.sorted⟩, ?_⟩, ?_⟩
      · intro e member
        obtain ⟨d, inside, value⟩ := rest.2 e member
        rw [value]
        exact later d inside
      · intro e member
        rcases List.mem_cons.mp member with rfl | member
        · exact word_high (range c (by simp))
        · exact rest.1.words e member
      · intro e member
        rcases List.mem_cons.mp member with rfl | member
        · exact ⟨c, by simp, rfl⟩
        · obtain ⟨d, inside, value⟩ := rest.2 e member
          exact ⟨d, by simp [part.subset inside], value⟩

/-- The high word leads either to the default or to the dispatch on the low word. -/
theorem lowCode_sends {dflt low : Nat} {t : Text} {x : Int} (q : List C1) (sorted : q.Pairwise (fun c d => c.val < d.val))
    (pc : Nat) (placed : Placed t pc (lowCode dflt low q pc).2) :
    let entry := lookup (lowCode dflt low q pc).1 (x / 2 ^ 32) dflt
    entry = dflt ∧ lookup q x dflt = dflt ∨ Sends t entry low x (lookup q x dflt) := by
  induction size : q.length using Nat.strong_induction_on generalizing q pc with
  | _ n ih =>
    subst size
    cases q with
    | nil => exact Or.inl ⟨by simp [lowCode, lookup], rfl⟩
    | cons c q =>
      let same := fun d : C1 => d.val / 2 ^ 32 == c.val / 2 ^ 32
      have part := List.dropWhile_suffix (l := q) same
      have later := dropWhile_high sorted
      have whole : (c :: q.takeWhile same) ++ q.dropWhile same = c :: q := by simp
      rw [lowCode] at placed ⊢
      simp only at placed ⊢
      rw [lookup_cons, ← whole, lookup_append]
      by_cases here : c.val / 2 ^ 32 = x / 2 ^ 32
      · right
        have group : ∀ d ∈ c :: q.takeWhile same, d.val / 2 ^ 32 = c.val / 2 ^ 32 := by
          intro d member
          rcases List.mem_cons.mp member with rfl | member
          · rfl
          · simpa [same] using List.mem_takeWhile_imp member
        have order : (c :: q.takeWhile same).Pairwise (fun c d => c.val < d.val) :=
          sorted.sublist ((List.takeWhile_prefix same).sublist.cons_cons c)
        obtain ⟨table, value⟩ := low_group order group here.symm dflt
        rw [if_pos here, lookup_missing (q := q.dropWhile same) (fun d member equal => by
          have := later d member
          rw [equal] at this
          omega)]
        intro regs flags holds
        rw [← value]
        exact code_sends (word_int32 x) t _ table pc placed.left regs flags (holds.trans (ofInt_int32 x).symm)
      · rw [if_neg here, lookup_missing (q := c :: q.takeWhile same) (fun d member equal => by
          rcases List.mem_cons.mp member with rfl | member
          · exact here (equal ▸ rfl)
          · have := List.mem_takeWhile_imp member
            simp only [same, beq_iff_eq] at this
            exact here (this.symm.trans (equal ▸ rfl)))]
        exact ih _ (by rw [List.length_cons]; have := part.length_le; omega) _
          ((List.pairwise_cons.mp sorted).2.sublist part.sublist) _ placed.right rfl

/-- The dispatch on a register pair is a lookup in the 64-bit table. -/
theorem pairCode_sends {dflt left right : Nat} {t : Text} {x : Int} {iq : List C1} {pc : Nat} (range : Vlong x)
    (sorted : iq.Pairwise (fun c d => c.val < d.val)) (ranges : ∀ c ∈ iq, Vlong c.val) (distinct : left ≠ right)
    (placed : Placed t pc (pairCode iq dflt left right pc)) (regs : Nat → BitVec 32) (flags : Flags)
    (low : regs right = BitVec.ofInt 32 x) (high : regs left = BitVec.ofInt 32 (x / 2 ^ 32)) :
    ∃ final, Reaches (step t) ⟨pc, regs, flags⟩ final ∧ final.pc = lookup iq x dflt := by
  unfold pairCode at placed
  simp only at placed
  have enters : step t ⟨pc, regs, flags⟩ = some ⟨pc + 1 + (lowCode dflt right iq (pc + 1)).2.length, regs, flags⟩ := by
    rw [step_of_fetch (i := .AB _) placed.left.head]
    rfl
  have highs := placed.right
  rw [List.length_cons, Nat.add_comm _ 1, ← Nat.add_assoc] at highs
  obtain ⟨middle, first, arrived, kept⟩ := code_sends (word_high range) t _ (lowCode_table iq sorted ranges (pc + 1)).1 _
    highs regs flags high
  rcases lowCode_sends (x := x) iq sorted (pc + 1) placed.left.tail with ⟨none, missing⟩ | sends
  · exact ⟨middle, Reaches.head enters first, by rw [arrived, none, missing]⟩
  · obtain ⟨final, second, reached, _⟩ := sends middle.regs middle.flags ((kept right distinct.symm).trans low)
    have state : middle = ⟨lookup (lowCode dflt right iq (pc + 1)).1 (x / 2 ^ 32) dflt, middle.regs, middle.flags⟩ := by
      rw [← arrived]
    rw [← state] at second
    exact ⟨final, (Reaches.head enters first).trans second, reached⟩

end Goken.Proofs.SwitchDispatch
