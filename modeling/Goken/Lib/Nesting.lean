import Mathlib.Data.List.Perm.Subperm
import Mathlib.Order.Defs.LinearOrder

/-! Families of intervals that are disjoint or nested, and the sweep over them with
a stack: at each position the intervals that end there are taken from the stack, and
those that start there are put on it, the widest first. -/

namespace Goken.Lib.Nesting

variable {α : Type} (start stop : α → Nat)

/-- The second starts inside the first and ends after it. -/
def Crosses (a b : α) : Prop := start a < start b ∧ start b < stop a ∧ stop a < stop b

instance (a b : α) : Decidable (Crosses start stop a b) := inferInstanceAs (Decidable (_ ∧ _ ∧ _))

/-- No two intervals cross. -/
def Nested (items : List α) : Prop := ∀ a ∈ items, ∀ b ∈ items, ¬ Crosses start stop a b

instance (items : List α) : Decidable (Nested start stop items) :=
  inferInstanceAs (Decidable (∀ a ∈ items, ∀ b ∈ items, ¬ Crosses start stop a b))

/-- The order of the starts, the wider first. -/
def Before (a b : α) : Prop := start a < start b ∨ start a = start b ∧ stop b ≤ stop a

/-- At a position: the intervals on the stack end at `low` or later; those to come
start at the position or later; the others have ended. -/
structure Swept (items : List α) (low pos : Nat) (stack rest : List α) : Prop where
  inside : ∀ a ∈ stack, a ∈ items ∧ start a ≤ pos ∧ low ≤ stop a
  chain : stack.Pairwise fun a b => stop a ≤ stop b
  later : ∀ a ∈ rest, a ∈ items ∧ pos ≤ start a
  sorted : rest.Pairwise (Before start stop)
  order : ∀ a ∈ stack, ∀ b ∈ rest, Before start stop a b
  member : ∀ a ∈ items, a ∈ rest ∨ a ∈ stack ∨ stop a ≤ pos
  distinct : (stack ++ rest).Nodup

variable {start stop} {items stack rest : List α} {a b : α} {low pos : Nat}

/-- Disjoint, or one inside the other. -/
theorem apart_iff : ¬ Crosses start stop a b ∧ ¬ Crosses start stop b a ↔
    stop a ≤ start b ∨ stop b ≤ start a ∨ start a ≤ start b ∧ stop b ≤ stop a ∨ start b ≤ start a ∧ stop a ≤ stop b := by
  unfold Crosses
  omega

theorem swept_start (sorted : rest.Pairwise (Before start stop)) (same : rest.Perm items) (distinct : items.Nodup) :
    Swept start stop items 0 0 [] rest where
  inside := nofun
  chain := .nil
  later := fun _ there => ⟨same.subset there, Nat.zero_le _⟩
  sorted := sorted
  order := nofun
  member := fun _ there => .inl (same.symm.subset there)
  distinct := same.nodup_iff.mpr distinct

/-- An interval that ends here is taken from the stack. -/
theorem Swept.pop (swept : Swept start stop items pos pos (a :: stack) rest) (ends : stop a = pos) :
    Swept start stop items pos pos stack rest where
  inside := fun b there => swept.inside b (List.mem_cons_of_mem a there)
  chain := (List.pairwise_cons.mp swept.chain).2
  later := swept.later
  sorted := swept.sorted
  order := fun b there => swept.order b (List.mem_cons_of_mem a there)
  member := by
    intro b inside
    obtain coming | held | ended := swept.member b inside
    · exact .inl coming
    · obtain rfl | below := List.mem_cons.mp held
      · exact .inr (.inr (by omega))
      · exact .inr (.inl below)
    · exact .inr (.inr ended)
  distinct := (List.nodup_cons.mp swept.distinct).2

/-- When the interval on top does not end here, none does. -/
theorem Swept.popped (swept : Swept start stop items pos pos stack rest) (stays : ∀ a ∈ stack.head?, stop a ≠ pos) :
    Swept start stop items (pos + 1) pos stack rest := by
  refine { swept with inside := fun b there => ?_ }
  obtain ⟨known, started, ends⟩ := swept.inside b there
  refine ⟨known, started, ?_⟩
  cases stack with
  | nil => cases there
  | cons a stack =>
    have top : stop a ≠ pos := stays a rfl
    have low := (swept.inside a List.mem_cons_self).2.2
    obtain rfl | below := List.mem_cons.mp there
    · omega
    · have wider := (List.pairwise_cons.mp swept.chain).1 b below
      omega

/-- An interval that starts here is put on the stack: it is inside those there. -/
theorem Swept.push (swept : Swept start stop items (pos + 1) pos stack (b :: rest)) (starts : start b = pos)
    (proper : start b < stop b) (nested : Nested start stop items) : Swept start stop items (pos + 1) pos (b :: stack) rest where
  inside := by
    intro c there
    obtain rfl | below := List.mem_cons.mp there
    · exact ⟨(swept.later c List.mem_cons_self).1, by omega, by omega⟩
    · exact swept.inside c below
  chain := by
    refine List.pairwise_cons.mpr ⟨fun c there => ?_, swept.chain⟩
    obtain ⟨known, started, ends⟩ := swept.inside c there
    have uncrossed := nested c known b (swept.later b List.mem_cons_self).1
    have before := swept.order c there b List.mem_cons_self
    unfold Crosses at uncrossed
    unfold Before at before
    omega
  later := fun c there => swept.later c (List.mem_cons_of_mem b there)
  sorted := (List.pairwise_cons.mp swept.sorted).2
  order := by
    intro c there d after
    obtain rfl | below := List.mem_cons.mp there
    · exact (List.pairwise_cons.mp swept.sorted).1 d after
    · exact swept.order c below d (List.mem_cons_of_mem b after)
  member := by
    intro c inside
    obtain coming | held | ended := swept.member c inside
    · obtain rfl | after := List.mem_cons.mp coming
      · exact .inr (.inl List.mem_cons_self)
      · exact .inl after
    · exact .inr (.inl (List.mem_cons_of_mem b held))
    · exact .inr (.inr ended)
  distinct := List.perm_middle.nodup_iff.mp swept.distinct

/-- When the next interval does not start here, none does. -/
theorem Swept.pushed (swept : Swept start stop items (pos + 1) pos stack rest) (stays : ∀ b ∈ rest.head?, start b ≠ pos) :
    Swept start stop items (pos + 1) (pos + 1) stack rest where
  inside := fun a there => ⟨(swept.inside a there).1, Nat.le_succ_of_le (swept.inside a there).2.1, (swept.inside a there).2.2⟩
  chain := swept.chain
  later := by
    intro c there
    obtain ⟨known, low⟩ := swept.later c there
    refine ⟨known, ?_⟩
    cases rest with
    | nil => cases there
    | cons b rest =>
      have next : start b ≠ pos := stays b rfl
      have first := (swept.later b List.mem_cons_self).2
      obtain rfl | after := List.mem_cons.mp there
      · omega
      · have before := (List.pairwise_cons.mp swept.sorted).1 c after
        unfold Before at before
        omega
  sorted := swept.sorted
  order := swept.order
  member := by
    intro a inside
    obtain coming | held | ended := swept.member a inside
    · exact .inl coming
    · exact .inr (.inl held)
    · exact .inr (.inr (Nat.le_succ_of_le ended))
  distinct := swept.distinct

/-- What is around a position is on the stack. -/
theorem Swept.holds (swept : Swept start stop items (pos + 1) pos stack rest) (stays : ∀ b ∈ rest.head?, start b ≠ pos)
    (known : a ∈ items) (started : start a ≤ pos) (ends : pos < stop a) : a ∈ stack := by
  obtain coming | held | ended := swept.member a known
  · have later := ((swept.pushed stays).later a coming).2
    omega
  · exact held
  · omega

/-- The stack is no higher than the intervals around a position are many. -/
theorem Swept.height (swept : Swept start stop items (pos + 1) pos stack rest) :
    stack.length ≤ (items.filter fun a => start a ≤ pos ∧ pos < stop a).length := by
  apply List.Subperm.length_le
  apply List.subperm_of_subset
  · exact (List.nodup_append.mp swept.distinct).1
  · intro a there
    obtain ⟨known, started, ends⟩ := swept.inside a there
    exact List.mem_filter.mpr ⟨known, decide_eq_true ⟨started, by omega⟩⟩

/-- Past every interval, those on the stack end here. -/
theorem Swept.finish (swept : Swept start stop items pos pos stack rest) (bound : ∀ a ∈ items, stop a ≤ pos) :
    ∀ a ∈ stack, stop a = pos := by
  intro a there
  obtain ⟨known, -, ends⟩ := swept.inside a there
  have := bound a known
  omega

end Goken.Lib.Nesting
