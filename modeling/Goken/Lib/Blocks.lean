import Mathlib.Data.List.Basic
import Mathlib.Tactic.Ring

/-! Lists made of blocks of one size, and lists with two ranges of places exchanged. -/

namespace Goken.Lib.Blocks

variable {α : Type}

def Sized (n : Nat) (blocks : List (List α)) : Prop := ∀ b ∈ blocks, b.length = n

theorem length_flatten {n : Nat} {blocks : List (List α)} (sized : Sized n blocks) : blocks.flatten.length = blocks.length * n := by
  induction blocks with
  | nil => simp
  | cons b rest ih =>
    rw [List.flatten_cons, List.length_append, sized b List.mem_cons_self, ih fun c member => sized c (List.mem_cons_of_mem _ member),
      List.length_cons]
    ring

theorem drop_flatten {n : Nat} {blocks : List (List α)} (sized : Sized n blocks) (i : Nat) :
    blocks.flatten.drop (i * n) = (blocks.drop i).flatten := by
  induction i generalizing blocks with
  | zero => simp
  | succ i ih =>
    cases blocks with
    | nil => simp
    | cons b rest =>
      have width : (i + 1) * n = b.length + i * n := by
        rw [sized b List.mem_cons_self]
        ring
      rw [List.flatten_cons, width, List.drop_append, List.drop_succ_cons]
      simp only [Nat.add_sub_cancel_left]
      rw [List.drop_eq_nil_of_le (Nat.le_add_right _ _), List.nil_append]
      exact ih fun c member => sized c (List.mem_cons_of_mem _ member)

/-- The block at an index. -/
theorem take_drop_flatten {n : Nat} {blocks : List (List α)} (sized : Sized n blocks) {i : Nat} {b : List α}
    (here : blocks[i]? = some b) : (blocks.flatten.drop (i * n)).take n = b := by
  obtain ⟨inside, rfl⟩ := List.getElem?_eq_some_iff.mp here
  rw [drop_flatten sized, List.drop_eq_getElem_cons inside, List.flatten_cons]
  exact List.take_left' (sized _ (List.getElem_mem inside))

theorem getElem?_flatten {n : Nat} {blocks : List (List α)} (sized : Sized n blocks) (i : Nat) {r : Nat} (small : r < n) :
    blocks.flatten[i * n + r]? = blocks[i]?.bind fun b => b[r]? := by
  rw [← List.getElem?_drop, drop_flatten sized]
  cases here : blocks[i]? with
  | none =>
    rw [List.drop_eq_nil_of_le (List.getElem?_eq_none_iff.mp here)]
    rfl
  | some b =>
    obtain ⟨inside, rfl⟩ := List.getElem?_eq_some_iff.mp here
    rw [List.drop_eq_getElem_cons inside, List.flatten_cons, List.getElem?_append_left]
    · rfl
    · rwa [sized _ (List.getElem_mem inside)]

/-- The second list is the first with the `n` places from `i` and those from `j` on exchanged. -/
structure Exchanged (before after : List α) (i j n : Nat) : Prop where
  length : after.length = before.length
  first : ∀ r < n, after[i + r]? = before[j + r]?
  second : ∀ r < n, after[j + r]? = before[i + r]?
  other : ∀ k, ¬(i ≤ k ∧ k < i + n) → ¬(j ≤ k ∧ k < j + n) → after[k]? = before[k]?

/-- Two ranges that are the same or have no place in common. -/
def Apart (i j n : Nat) : Prop := i = j ∨ i + n ≤ j ∨ j + n ≤ i

theorem Exchanged.append {l l' l'' : List α} {i j m n : Nat} (apart : Apart i j (m + n)) (one : Exchanged l l' i j m)
    (two : Exchanged l' l'' (i + m) (j + m) n) : Exchanged l l'' i j (m + n) := by
  unfold Apart at apart
  refine ⟨two.length.trans one.length, fun r small => ?_, fun r small => ?_, fun k out out' => ?_⟩
  · by_cases early : r < m
    · rw [two.other (i + r) (by omega) (by omega)]
      exact one.first r early
    · have later := two.first (r - m) (by omega)
      have index : i + m + (r - m) = i + r := by omega
      have index' : j + m + (r - m) = j + r := by omega
      rw [index, index'] at later
      rw [later]
      exact one.other (j + r) (by omega) (by omega)
  · by_cases early : r < m
    · rw [two.other (j + r) (by omega) (by omega)]
      exact one.second r early
    · have later := two.second (r - m) (by omega)
      have index : i + m + (r - m) = i + r := by omega
      have index' : j + m + (r - m) = j + r := by omega
      rw [index, index'] at later
      rw [later]
      exact one.other (i + r) (by omega) (by omega)
  · rw [two.other k (by omega) (by omega)]
    exact one.other k (by omega) (by omega)

theorem apart_blocks (i j n : Nat) : Apart (i * n) (j * n) n := by
  have step : ∀ {a b : Nat}, a < b → a * n + n ≤ b * n := by
    intro a b less
    calc a * n + n = (a + 1) * n := by ring
      _ ≤ b * n := Nat.mul_le_mul_right n less
  rcases Nat.lt_trichotomy i j with less | rfl | greater
  · exact .inr (.inl (step less))
  · exact .inl rfl
  · exact .inr (.inr (step greater))

/-- Exchanging the places of two blocks exchanges the blocks. -/
theorem Exchanged.blocks {n i j : Nat} {blocks : List (List α)} {after x y : List α} (sized : Sized n blocks)
    (first : blocks[i]? = some x) (second : blocks[j]? = some y) (exchanged : Exchanged blocks.flatten after (i * n) (j * n) n) :
    after = ((blocks.set i y).set j x).flatten := by
  obtain ⟨inside, here⟩ := List.getElem?_eq_some_iff.mp first
  obtain ⟨inside', here'⟩ := List.getElem?_eq_some_iff.mp second
  have sized' : Sized n ((blocks.set i y).set j x) := by
    intro b member
    rcases List.mem_or_eq_of_mem_set member with member | rfl
    · rcases List.mem_or_eq_of_mem_set member with member | rfl
      · exact sized b member
      · exact sized b (List.mem_of_getElem? second)
    · exact sized b (List.mem_of_getElem? first)
  rcases Nat.eq_zero_or_pos n with rfl | positive
  · have none : ∀ {l : List (List α)}, Sized 0 l → l.flatten = [] := fun sized =>
      List.eq_nil_of_length_eq_zero (by rw [length_flatten sized, Nat.mul_zero])
    rw [none sized']
    exact List.eq_nil_of_length_eq_zero (by rw [exchanged.length, none sized]; rfl)
  refine List.ext_getElem? fun k => ?_
  have small := Nat.mod_lt k positive
  have split : k = k / n * n + k % n := by
    have := Nat.div_add_mod k n
    rw [Nat.mul_comm] at this
    exact this.symm
  generalize k / n = q, k % n = r at split small
  subst split
  rw [getElem?_flatten sized' q small]
  by_cases second_ : q = j
  · subst second_
    rw [exchanged.second r small, getElem?_flatten sized i small, first, List.getElem?_set_self (by simpa using inside')]
  rw [List.getElem?_set_ne (Ne.symm second_)]
  by_cases first_ : q = i
  · subst first_
    rw [exchanged.first r small, getElem?_flatten sized j small, second, List.getElem?_set_self inside]
  rw [List.getElem?_set_ne (Ne.symm first_), ← getElem?_flatten sized q small]
  have away : ∀ {a : Nat}, q ≠ a → ¬(a * n ≤ q * n + r ∧ q * n + r < a * n + n) := by
    intro a other
    rcases apart_blocks q a n with same | less | greater
    · exact absurd (Nat.eq_of_mul_eq_mul_right positive same) other
    · omega
    · omega
  exact exchanged.other _ (away first_) (away second_)

end Goken.Lib.Blocks
