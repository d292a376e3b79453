import Mathlib.Data.List.Sort

/-! Sorted tables whose elements of one key stand together: sorting keeps the order of
what a filter keeps, and the run of a key is the part of the table with that key. -/

namespace Goken.Lib.Grouped

variable {α : Type}

section Sorting

variable {r : α → α → Prop} [DecidableRel r]

theorem orderedInsert_first {a : α} {l : List α} (before : ∀ b ∈ l, r a b) : l.orderedInsert r a = a :: l := by
  cases l with
  | nil => rfl
  | cons b l => exact List.orderedInsert_cons_of_le r l (before b List.mem_cons_self)

theorem filter_orderedInsert (trans : ∀ a b c, r a b → r b c → r a c) (keep : α → Bool) (a : α) {l : List α}
    (sorted : l.Pairwise r) :
    (l.orderedInsert r a).filter keep = if keep a then (l.filter keep).orderedInsert r a else l.filter keep := by
  induction l with
  | nil =>
    rw [List.orderedInsert_nil, List.filter_nil, List.orderedInsert_nil, List.filter_cons, List.filter_nil]
  | cons b l ih =>
    obtain ⟨below, rest⟩ := List.pairwise_cons.mp sorted
    by_cases first : r a b
    · have before : ∀ c ∈ (b :: l).filter keep, r a c := by
        intro c member
        rcases List.mem_cons.mp (List.mem_of_mem_filter member) with rfl | later
        · exact first
        · exact trans a b c first (below c later)
      rw [List.orderedInsert_cons_of_le r l first, List.filter_cons, orderedInsert_first before]
    · rw [List.orderedInsert_of_not_le r l first, List.filter_cons, ih rest, List.filter_cons]
      cases keep b with
      | true =>
        cases keep a with
        | true => exact (List.orderedInsert_of_not_le r (l.filter keep) first).symm
        | false => rfl
      | false => rfl

theorem filter_insertionSort (trans : ∀ a b c, r a b → r b c → r a c) (total : ∀ a b, r a b ∨ r b a) (keep : α → Bool)
    (l : List α) : (l.insertionSort r).filter keep = (l.filter keep).insertionSort r := by
  have : IsTrans α r := ⟨trans⟩
  have : Std.Total r := ⟨total⟩
  induction l with
  | nil => rfl
  | cons a l ih =>
    rw [List.insertionSort_cons, filter_orderedInsert trans keep a (List.pairwise_insertionSort r l), ih, List.filter_cons]
    split <;> rfl

end Sorting

section Lexicographic

/-- A comparison that gives a negative number, zero or a positive number, as `qsort` takes it. -/
structure Compares (c : α → α → Int) : Prop where
  trans : ∀ x y z, c x y ≤ 0 → c y z ≤ 0 → c x z ≤ 0
  total : ∀ x y, c x y ≤ 0 ∨ c y x ≤ 0

/-- Compare by the first, and by the second if it sees no difference. -/
def lexicographic (first second : α → α → Int) (x y : α) : Int := if first x y ≠ 0 then first x y else second x y

theorem compares_zero : Compares fun _ _ : α => 0 := ⟨fun _ _ _ _ _ => Int.le_refl 0, fun _ _ => Or.inl (Int.le_refl 0)⟩

theorem Compares.lexicographic {first second : α → α → Int} (compares : Compares second) (k : α → Int)
    (difference : ∀ x y, first x y = k x - k y) : Compares (lexicographic first second) := by
  constructor
  · intro x y z
    have rest := compares.trans x y z
    simp only [Grouped.lexicographic, difference]
    split <;> split <;> split <;> omega
  · intro x y
    have rest := compares.total x y
    simp only [Grouped.lexicographic, difference]
    split <;> split <;> omega

end Lexicographic

section Runs

variable {κ : Type} [DecidableEq κ] {key : α → κ} {rank : κ → Nat} (injective : ∀ k l, rank k = rank l → k = l)
include injective

/-- The run at the head of a table sorted by the key. -/
theorem takeWhile_run {a : α} {l : List α} (sorted : (a :: l).Pairwise fun x y => rank (key x) ≤ rank (key y)) :
    (a :: l).takeWhile (fun x => key x = key a) = (a :: l).filter (fun x => key x = key a) ∧
      ∀ x ∈ (a :: l).dropWhile (fun x => key x = key a), key x ≠ key a := by
  obtain ⟨below, rest⟩ := List.pairwise_cons.mp sorted
  rw [List.takeWhile_cons_of_pos (by simp), List.filter_cons_of_pos (by simp), List.dropWhile_cons_of_pos (by simp)]
  suffices run : ∀ l : List α, l.Pairwise (fun x y => rank (key x) ≤ rank (key y)) → (∀ x ∈ l, rank (key a) ≤ rank (key x)) →
      l.takeWhile (fun x => key x = key a) = l.filter (fun x => key x = key a) ∧
        ∀ x ∈ l.dropWhile (fun x => key x = key a), key x ≠ key a by
    obtain ⟨taken, dropped⟩ := run l rest below
    exact ⟨by rw [taken], dropped⟩
  intro l
  induction l with
  | nil => exact fun _ _ => ⟨rfl, nofun⟩
  | cons b l ih =>
    intro sorted above
    obtain ⟨below, rest⟩ := List.pairwise_cons.mp sorted
    by_cases same : key b = key a
    · obtain ⟨taken, dropped⟩ := ih rest fun x member => above x (List.mem_cons_of_mem b member)
      rw [List.takeWhile_cons_of_pos (by simpa using same), List.filter_cons_of_pos (by simpa using same),
        List.dropWhile_cons_of_pos (by simpa using same)]
      exact ⟨by rw [taken], dropped⟩
    · have more : ∀ x ∈ b :: l, key x ≠ key a := by
        have first := above b List.mem_cons_self
        have apart : rank (key b) ≠ rank (key a) := fun equal => same (injective _ _ equal)
        intro x member equal
        rcases List.mem_cons.mp member with rfl | later
        · exact same equal
        · have := below x later
          rw [equal] at this
          omega
      have empty : (b :: l).filter (fun x => key x = key a) = [] := by
        apply List.filter_eq_nil_iff.mpr
        intro x member
        simpa using more x member
      rw [List.takeWhile_cons_of_neg (by simpa using same), List.dropWhile_cons_of_neg (by simpa using same), empty]
      exact ⟨rfl, more⟩

end Runs

end Goken.Lib.Grouped
