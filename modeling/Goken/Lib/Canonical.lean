import Mathlib.Algebra.BigOperators.Group.List.Basic
import Mathlib.Tactic.Common
import Mathlib.Tactic.Ring

/-! Canonical prefix codes. `n b` is the number of codes of length `b`; codes of
one length are consecutive, and shorter codes are smaller prefixes. A prefix of
length `b` lies below `total n b` when it extends some code of at most that
length. -/

namespace Goken.Lib.Canonical

section Counts

variable (n : Nat → Nat)

/-- One more than the last code of length `b`. -/
def total : Nat → Nat
  | 0 => n 0
  | b + 1 => 2 * total b + n (b + 1)

/-- The first code of length `b`. -/
def first : Nat → Nat
  | 0 => 0
  | b + 1 => 2 * total n b

/-- The number of codes that are shorter than `b`. -/
def before : Nat → Nat
  | 0 => 0
  | b + 1 => before b + n b

theorem total_succ (b : Nat) : total n (b + 1) = 2 * total n b + n (b + 1) := rfl

theorem before_succ (b : Nat) : before n (b + 1) = before n b + n b := rfl

theorem total_eq (b : Nat) : total n b = first n b + n b := by
  cases b <;> simp [total, first]

theorem first_le (b : Nat) : first n b ≤ total n b := by
  rw [total_eq]
  exact Nat.le_add_right _ _

/-- What is below the codes stays below them. -/
theorem total_shift {b m : Nat} (shorter : b ≤ m) : total n b * 2 ^ (m - b) ≤ total n m := by
  induction shorter with
  | refl => simp
  | @step m shorter ih =>
    calc
      total n b * 2 ^ (m + 1 - b) = 2 * (total n b * 2 ^ (m - b)) := by
        rw [Nat.succ_sub shorter, Nat.pow_succ]
        ring
      _ ≤ 2 * total n m := Nat.mul_le_mul_left 2 ih
      _ ≤ total n (m + 1) := Nat.le_add_right _ _

theorem before_mono {b m : Nat} (shorter : b ≤ m) : before n b ≤ before n m := by
  induction shorter with
  | refl => exact Nat.le_refl _
  | step _ ih => exact Nat.le_trans ih (Nat.le_add_right _ _)

theorem total_add (n' : Nat → Nat) (b : Nat) : total (fun b => n b + n' b) b = total n b + total n' b := by
  induction b with
  | zero => rfl
  | succ b ih =>
    simp only [total_succ, ih]
    ring

theorem before_add (n' : Nat → Nat) (b : Nat) : before (fun b => n b + n' b) b = before n b + before n' b := by
  induction b with
  | zero => rfl
  | succ b ih =>
    simp only [before_succ, ih]
    ring

end Counts

/-- A single code of length `b`. -/
private def only (b : Nat) (b' : Nat) : Nat := if b' = b then 1 else 0

private theorem total_only (b m : Nat) : total (only b) m = if b ≤ m then 2 ^ (m - b) else 0 := by
  induction m with
  | zero => cases b <;> simp [total, only]
  | succ m ih =>
    rw [total_succ, ih, only]
    rcases Nat.lt_trichotomy b (m + 1) with less | same | more
    · rw [if_pos (by omega), if_neg (by omega), if_pos (by omega), Nat.succ_sub (by omega), Nat.pow_succ]
      ring
    · subst same
      simp
    · rw [if_neg (by omega), if_neg (by omega), if_neg (by omega)]

private theorem before_only (b m : Nat) : before (only b) m ≤ 1 := by
  have exact_ : before (only b) m = if b < m then 1 else 0 := by
    induction m with
    | zero => rfl
    | succ m ih =>
      rw [before_succ, ih, only]
      split <;> split <;> split <;> omega
  rw [exact_]
  split <;> omega

/-! The code of a list of lengths; length zero is no code. -/

def counts (hb : List Nat) (b : Nat) : Nat := if b = 0 then 0 else hb.count b

def longest (hb : List Nat) : Nat := hb.foldr max 0

/-- The Kraft sum, in units of `2 ^ -m`. -/
def kraft (hb : List Nat) (m : Nat) : Nat := (hb.map fun b => if b = 0 then 0 else 2 ^ (m - b)).sum

theorem le_longest {hb : List Nat} {b : Nat} (member : b ∈ hb) : b ≤ longest hb := by
  induction hb with
  | nil => cases member
  | cons a hb ih =>
    simp only [longest, List.foldr_cons]
    rcases List.mem_cons.mp member with rfl | later
    · exact Nat.le_max_left _ _
    · exact Nat.le_trans (ih later) (Nat.le_max_right _ _)

theorem longest_mem {hb : List Nat} (some_ : longest hb ≠ 0) : longest hb ∈ hb := by
  induction hb with
  | nil => simp [longest] at some_
  | cons a hb ih =>
    simp only [longest, List.foldr_cons] at some_ ⊢
    rcases Nat.le_total (hb.foldr max 0) a with less | more
    · rw [Nat.max_eq_left less]
      simp
    · rw [Nat.max_eq_right more] at some_ ⊢
      exact List.mem_cons_of_mem a (ih some_)

private theorem counts_cons (a : Nat) (hb : List Nat) :
    counts (a :: hb) = fun b => counts hb b + (if a = 0 then 0 else only a b) := by
  funext b
  by_cases zero : b = 0
  · subst zero
    by_cases same : a = 0
    · simp [counts, same]
    · simp [counts, same, only, Ne.symm same]
  · by_cases same : a = b
    · subst same
      simp [counts, zero, only]
    · have other : ¬ b = a := Ne.symm same
      simp [counts, zero, only, other, same]

theorem total_counts {hb : List Nat} {m : Nat} (short : ∀ b ∈ hb, b ≤ m) : total (counts hb) m = kraft hb m := by
  induction hb with
  | nil =>
    have nothing : counts [] = fun _ => 0 := by
      funext b
      simp [counts]
    rw [nothing]
    clear short nothing
    induction m with
    | zero => rfl
    | succ m ih =>
      rw [total, ih]
      rfl
  | cons a hb ih =>
    rw [counts_cons, total_add, ih fun b member => short b (List.mem_cons_of_mem a member)]
    simp only [kraft, List.map_cons, List.sum_cons]
    rw [Nat.add_comm]
    congr 1
    by_cases zero : a = 0
    · simp only [zero, if_true]
      clear short ih
      induction m with
      | zero => rfl
      | succ m ih => rw [total, ih]
    · simp only [zero, if_false]
      rw [show (fun b => only a b) = only a from rfl, total_only, if_pos (short a (by simp))]

/-- Behind the longest code the totals only double. -/
theorem total_longest {hb : List Nat} {m : Nat} (long : longest hb ≤ m) :
    total (counts hb) m = total (counts hb) (longest hb) * 2 ^ (m - longest hb) := by
  induction long with
  | refl => simp
  | @step m long ih =>
    have none : counts hb (m + 1) = 0 := by
      rw [counts, if_neg (Nat.succ_ne_zero m), List.count_eq_zero]
      intro member
      have := le_longest member
      simp only [Nat.le_eq] at long
      omega
    rw [total, ih, none, Nat.succ_sub long, Nat.pow_succ]
    ring

theorem before_counts (hb : List Nat) (m : Nat) : before (counts hb) m ≤ hb.length := by
  induction hb with
  | nil =>
    induction m with
    | zero => rfl
    | succ m ih =>
      rw [before]
      simpa [counts] using ih
  | cons a hb ih =>
    rw [counts_cons, before_add, List.length_cons]
    refine Nat.add_le_add ih ?_
    by_cases zero : a = 0
    · simp only [zero, if_true]
      clear ih
      induction m with
      | zero => exact Nat.zero_le _
      | succ m ih => simpa [before] using ih
    · simp only [zero, if_false]
      exact before_only a m

/-- The code of symbol `i`, whose length is `b`. -/
def codeOf (hb : List Nat) (i b : Nat) : Nat := first (counts hb) b + (hb.take i).count b

private theorem exists_nth {hb : List Nat} {b k : Nat} (few : k < hb.count b) :
    ∃ i, hb[i]? = some b ∧ (hb.take i).count b = k := by
  induction hb generalizing k with
  | nil => simp at few
  | cons a hb ih =>
    rw [List.count_cons] at few
    by_cases same : a = b
    · subst same
      cases k with
      | zero => exact ⟨0, rfl, rfl⟩
      | succ k =>
        obtain ⟨i, found, count⟩ := ih (k := k) (by simpa using few)
        exact ⟨i + 1, found, by simp [count]⟩
    · obtain ⟨i, found, count⟩ := ih (k := k) (by simpa [same] using few)
      exact ⟨i + 1, found, by simp [count, same]⟩

/-- Every code is some symbol's. -/
theorem exists_code {hb : List Nat} {b c : Nat} (positive : b ≠ 0) (low : first (counts hb) b ≤ c)
    (high : c < total (counts hb) b) : ∃ i, hb[i]? = some b ∧ codeOf hb i b = c := by
  rw [total_eq] at high
  have few : c - first (counts hb) b < hb.count b := by
    simp only [counts, positive, if_false] at high ⊢
    omega
  obtain ⟨i, found, count⟩ := exists_nth few
  exact ⟨i, found, by simp only [codeOf, count]; omega⟩

theorem codeOf_lt {hb : List Nat} {i b : Nat} (found : hb[i]? = some b) (positive : b ≠ 0) :
    first (counts hb) b ≤ codeOf hb i b ∧ codeOf hb i b < total (counts hb) b := by
  refine ⟨Nat.le_add_right _ _, ?_⟩
  rw [total_eq, codeOf, counts, if_neg positive]
  obtain ⟨inside, same⟩ := List.getElem?_eq_some_iff.mp found
  have split : hb.count b = (hb.take i).count b + (hb.drop i).count b := by
    rw [← List.count_append, List.take_append_drop]
  have here : 0 < (hb.drop i).count b := by
    rw [List.drop_eq_getElem_cons inside, same]
    simp
  omega

/-- No two symbols have the same code. -/
theorem codeOf_inj {hb : List Nat} {i j b : Nat} (left : hb[i]? = some b) (right : hb[j]? = some b)
    (same : codeOf hb i b = codeOf hb j b) : i = j := by
  have later : ∀ {i j : Nat}, hb[i]? = some b → i < j → (hb.take i).count b < (hb.take j).count b := by
    intro i j found less
    obtain ⟨inside, here⟩ := List.getElem?_eq_some_iff.mp found
    have longer : (hb.take (i + 1)).count b ≤ (hb.take j).count b :=
      List.Sublist.count_le b (List.take_prefix_take_left less).sublist
    have more : (hb.take (i + 1)).count b = (hb.take i).count b + 1 := by
      rw [List.take_succ_eq_append_getElem inside, List.count_append, here]
      simp
    omega
  simp only [codeOf, Nat.add_left_cancel_iff] at same
  rcases Nat.lt_trichotomy i j with less | equal | more
  · have := later left less
    omega
  · exact equal
  · have := later right more
    omega

/-- A prefix that is below `total` extends a code of at most its length. -/
theorem exists_shorter {hb : List Nat} {b v : Nat} (below : v < total (counts hb) b) :
    ∃ b', b' ≤ b ∧ b' ≠ 0 ∧ first (counts hb) b' ≤ v / 2 ^ (b - b') ∧ v / 2 ^ (b - b') < total (counts hb) b' := by
  induction b generalizing v with
  | zero => simp [total, counts] at below
  | succ b ih =>
    by_cases short : v / 2 < total (counts hb) b
    · obtain ⟨b', le, positive, low, high⟩ := ih short
      have same : v / 2 ^ (b + 1 - b') = v / 2 / 2 ^ (b - b') := by
        rw [Nat.div_div_eq_div_mul, ← Nat.pow_succ', Nat.succ_sub le]
      exact ⟨b', by omega, positive, by rw [same]; exact low, by rw [same]; exact high⟩
    · refine ⟨b + 1, Nat.le_refl _, by omega, ?_, by simpa using below⟩
      simp only [Nat.sub_self, Nat.pow_zero, Nat.div_one, first]
      omega

end Goken.Lib.Canonical
