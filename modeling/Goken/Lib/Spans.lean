import Mathlib.Order.Lattice
import Mathlib.Data.List.Pairwise
import Mathlib.Order.MinMax

/-! Spans of an order, from a first element to a last one, and the joining of
those that touch. A span whose last element is below its first has no elements. -/

namespace Goken.Lib.Spans

variable {α : Type} [LinearOrder α]

def Inside (spans : List (α × α)) (x : α) : Prop := ∃ p ∈ spans, p.1 ≤ x ∧ x ≤ p.2

/-- In the order of their first elements. -/
def Sorted (spans : List (α × α)) : Prop := spans.Pairwise fun p q => p.1 ≤ q.1

/-- Every span ends before the later ones start. -/
def Separate (spans : List (α × α)) : Prop := spans.Pairwise fun p q => p.2 < q.1

theorem inside_cons {p : α × α} {spans : List (α × α)} {x : α} : Inside (p :: spans) x ↔ (p.1 ≤ x ∧ x ≤ p.2) ∨ Inside spans x := by
  simp [Inside]

theorem Inside.perm {spans spans' : List (α × α)} (same : spans.Perm spans') {x : α} : Inside spans x ↔ Inside spans' x := by
  simp only [Inside, same.mem_iff]

/-- Every span joined to the one before it if it starts inside of that. -/
def join (p : α × α) : List (α × α) → List (α × α)
  | [] => [p]
  | q :: rest => if q.1 ≤ p.2 then join (p.1, max p.2 q.2) rest else p :: join q rest

theorem join_cons (p q : α × α) (rest : List (α × α)) :
    join p (q :: rest) = if q.1 ≤ p.2 then join (p.1, max p.2 q.2) rest else p :: join q rest := rfl

theorem Sorted.joined {p q : α × α} {rest : List (α × α)} (sorted : Sorted (p :: q :: rest)) (high : α) : Sorted ((p.1, high) :: rest) := by
  obtain ⟨first, later⟩ := List.pairwise_cons.mp sorted
  exact List.pairwise_cons.mpr ⟨fun r member => first r (List.mem_cons_of_mem q member), later.tail⟩

theorem join_length (p : α × α) (rest : List (α × α)) : (join p rest).length ≤ rest.length + 1 := by
  induction rest generalizing p with
  | nil => exact Nat.le_refl 1
  | cons q rest ih =>
      rw [join_cons]
      split
      · exact Nat.le_succ_of_le (ih _)
      · exact Nat.succ_le_succ (ih q)

theorem join_inside (p : α × α) {rest : List (α × α)} (sorted : Sorted (p :: rest)) (x : α) : Inside (join p rest) x ↔ Inside (p :: rest) x := by
  induction rest generalizing p with
  | nil => rfl
  | cons q rest ih =>
      obtain ⟨first, later⟩ := List.pairwise_cons.mp sorted
      have next : p.1 ≤ q.1 := first q List.mem_cons_self
      rw [join_cons]
      split
      · rename_i touches
        have union : (p.1 ≤ x ∧ x ≤ max p.2 q.2) ↔ (p.1 ≤ x ∧ x ≤ p.2) ∨ (q.1 ≤ x ∧ x ≤ q.2) := by
          rw [le_max_iff]
          constructor
          · rintro ⟨above, within | within⟩
            · exact .inl ⟨above, within⟩
            · rcases le_total q.1 x with inside | before
              · exact .inr ⟨inside, within⟩
              · exact .inl ⟨above, le_trans before touches⟩
          · rintro (⟨above, within⟩ | ⟨above, within⟩)
            · exact ⟨above, .inl within⟩
            · exact ⟨le_trans next above, .inr within⟩
        rw [ih _ (sorted.joined _), inside_cons, inside_cons, inside_cons, union, or_assoc]
      · rw [inside_cons, inside_cons]
        exact or_congr_right (ih q later)

/-- What a span of the result starts with. -/
theorem join_starts (p : α × α) {rest : List (α × α)} (sorted : Sorted (p :: rest)) : ∀ r ∈ join p rest, p.1 ≤ r.1 := by
  induction rest generalizing p with
  | nil =>
      intro r member
      rw [List.mem_singleton.mp member]
  | cons q rest ih =>
      obtain ⟨first, later⟩ := List.pairwise_cons.mp sorted
      intro r member
      rw [join_cons] at member
      split at member
      · exact ih (p.1, max p.2 q.2) (sorted.joined _) r member
      · rcases List.mem_cons.mp member with rfl | inside
        · exact le_refl _
        · exact le_trans (first q List.mem_cons_self) (ih q later r inside)

theorem join_sorted (p : α × α) {rest : List (α × α)} (sorted : Sorted (p :: rest)) : Sorted (join p rest) ∧ Separate (join p rest) := by
  induction rest generalizing p with
  | nil => exact ⟨List.pairwise_singleton _ p, List.pairwise_singleton _ p⟩
  | cons q rest ih =>
      obtain ⟨first, later⟩ := List.pairwise_cons.mp sorted
      rw [join_cons]
      split
      · exact ih _ (sorted.joined _)
      · rename_i apart
        have starts := join_starts q later
        obtain ⟨ordered, separate⟩ := ih q later
        exact ⟨List.pairwise_cons.mpr ⟨fun r member => le_trans (first q List.mem_cons_self) (starts r member), ordered⟩,
          List.pairwise_cons.mpr ⟨fun r member => lt_of_lt_of_le (not_le.mp apart) (starts r member), separate⟩⟩

/-- Nothing is joined exactly if nothing touches. -/
theorem join_length_iff (p : α × α) {rest : List (α × α)} (sorted : Sorted (p :: rest)) :
    (join p rest).length = rest.length + 1 ↔ Separate (p :: rest) := by
  induction rest generalizing p with
  | nil => exact iff_of_true rfl (List.pairwise_singleton _ p)
  | cons q rest ih =>
      obtain ⟨first, later⟩ := List.pairwise_cons.mp sorted
      rw [join_cons]
      split
      · rename_i touches
        have short := join_length (p.1, max p.2 q.2) rest
        refine iff_of_false (by rw [List.length_cons]; omega) fun separate => ?_
        exact absurd ((List.pairwise_cons.mp separate).1 q List.mem_cons_self) (not_lt.mpr touches)
      · rename_i apart
        rw [List.length_cons, List.length_cons, Nat.add_right_cancel_iff, ih q later]
        refine ⟨fun separate => List.pairwise_cons.mpr ⟨fun r member => ?_, separate⟩, List.Pairwise.tail⟩
        rcases List.mem_cons.mp member with rfl | after
        · exact not_le.mp apart
        · exact lt_of_lt_of_le (not_le.mp apart) ((List.pairwise_cons.mp later).1 r after)

/-- Spans of which neither starts inside of the other. -/
def Apart (p q : α × α) : Prop := (p.1 ≤ q.1 → p.2 < q.1) ∧ (q.1 ≤ p.1 → q.2 < p.1)

/-- For spans that have elements the order of equal ones makes no difference. -/
theorem separate_iff {spans : List (α × α)} (sorted : Sorted spans) (proper : ∀ p ∈ spans, p.1 ≤ p.2) : Separate spans ↔ spans.Pairwise Apart := by
  induction spans with
  | nil => exact iff_of_true List.Pairwise.nil List.Pairwise.nil
  | cons p spans ih =>
      obtain ⟨first, later⟩ := List.pairwise_cons.mp sorted
      rw [Separate, List.pairwise_cons, List.pairwise_cons, ← Separate, ih later fun q member => proper q (List.mem_cons_of_mem p member)]
      refine and_congr_left fun _ => forall₂_congr fun q member => ?_
      have full := proper p List.mem_cons_self
      exact ⟨fun before => ⟨fun _ => before, fun back => absurd (lt_of_le_of_lt full before) (not_lt.mpr back)⟩, fun apart => apart.1 (first q member)⟩

end Goken.Lib.Spans
