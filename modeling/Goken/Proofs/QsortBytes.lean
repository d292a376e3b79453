import Goken.Lib.Blocks
import Goken.Proofs.Qsort
import Goken.QsortBytes

/-! `qsort` on bytes does to the elements of the array what the sort of lists does to
a list, and neither compares nor exchanges anything outside the array. -/

namespace Goken.Proofs.QsortBytes
open Goken.QsortBytes Lib.Blocks Goken.Proofs.Qsort

/-! The two exchanges. -/

theorem set_exchanged {mem : Mem} {i j : Nat} {c d : UInt8} (first : mem[i]? = some c) (second : mem[j]? = some d) :
    Exchanged mem ((mem.set i d).set j c) i j 1 := by
  obtain ⟨inside, -⟩ := List.getElem?_eq_some_iff.mp first
  obtain ⟨inside', -⟩ := List.getElem?_eq_some_iff.mp second
  have last : ((mem.set i d).set j c)[j]? = some c := List.getElem?_set_self (by simpa using inside')
  refine ⟨by simp, fun r small => ?_, fun r small => ?_, fun k out out' => ?_⟩
  · obtain rfl : r = 0 := by omega
    rw [Nat.add_zero, Nat.add_zero, second]
    by_cases same : i = j
    · subst same
      rw [last, ← first, second]
    · rw [List.getElem?_set_ne (Ne.symm same), List.getElem?_set_self inside]
  · obtain rfl : r = 0 := by omega
    rw [Nat.add_zero, Nat.add_zero, last, first]
  · rw [List.getElem?_set_ne (by omega), List.getElem?_set_ne (by omega)]

theorem swapb_exchanges {es : Nat} {i j : Nat} {mem : Mem} (positive : 0 < es) (inside : i + es ≤ mem.length)
    (inside' : j + es ≤ mem.length) (apart : Apart i j es) : ∃ mem', swapb i j es mem = some mem' ∧ Exchanged mem mem' i j es := by
  induction es generalizing i j mem with
  | zero => omega
  | succ es ih =>
    have first := List.getElem?_eq_getElem (l := mem) (i := i) (by omega)
    have second := List.getElem?_eq_getElem (l := mem) (i := j) (by omega)
    have one := set_exchanged first second
    rw [swapb, first, second]
    simp only [Option.bind_eq_bind, Option.bind_some]
    by_cases last : es = 0
    · subst last
      exact ⟨_, if_pos rfl, one⟩
    · rw [if_neg last]
      have length := one.length
      unfold Apart at apart
      obtain ⟨mem', swapped, rest⟩ := @ih (i + 1) (j + 1) _ (by omega) (by rw [length]; omega) (by rw [length]; omega) (by unfold Apart; omega)
      rw [Nat.add_comm es 1]
      exact ⟨mem', swapped, one.append (by unfold Apart; omega) rest⟩

theorem storel_length {mem : Mem} {k i : Nat} {l : List UInt8} (inside : i + sizeofLong k ≤ mem.length) (long : l.length = sizeofLong k) :
    (storel k mem i l).length = mem.length := by
  simp only [storel, List.length_append, List.length_take, List.length_drop, long]
  omega

theorem storel_inside {mem : Mem} {k i r : Nat} {l : List UInt8} (inside : i + sizeofLong k ≤ mem.length) (long : l.length = sizeofLong k)
    (small : r < sizeofLong k) : (storel k mem i l)[i + r]? = l[r]? := by
  rw [storel, List.append_assoc, List.getElem?_append_right (by rw [List.length_take]; omega), List.getElem?_append_left]
  · congr 1
    simp
    omega
  · simp
    omega

theorem storel_outside {mem : Mem} {k i j : Nat} {l : List UInt8} (inside : i + sizeofLong k ≤ mem.length)
    (long : l.length = sizeofLong k) (out : ¬(i ≤ j ∧ j < i + sizeofLong k)) : (storel k mem i l)[j]? = mem[j]? := by
  rw [storel, List.append_assoc]
  by_cases before : j < i
  · rw [List.getElem?_append_left (by simp; omega), List.getElem?_take_of_lt before]
  · rw [List.getElem?_append_right (by simp; omega), List.getElem?_append_right (by simp; omega), List.getElem?_drop]
    congr 1
    simp
    omega

theorem storel_exchanged {mem : Mem} {k i j : Nat} (inside : i + sizeofLong k ≤ mem.length) (inside' : j + sizeofLong k ≤ mem.length)
    (apart : Apart i j (sizeofLong k)) :
    Exchanged mem (storel k (storel k mem i ((mem.drop j).take (sizeofLong k))) j ((mem.drop i).take (sizeofLong k))) i j (sizeofLong k) := by
  have long : ((mem.drop i).take (sizeofLong k)).length = sizeofLong k := by simp; omega
  have long' : ((mem.drop j).take (sizeofLong k)).length = sizeofLong k := by simp; omega
  have length := storel_length inside long'
  have word : ∀ at_ r, r < sizeofLong k → ((mem.drop at_).take (sizeofLong k))[r]? = mem[at_ + r]? := fun at_ r small => by
    rw [List.getElem?_take_of_lt small, List.getElem?_drop]
  refine ⟨by rw [storel_length (by omega) long, length], fun r small => ?_, fun r small => ?_, fun at_ out out' => ?_⟩
  · rcases apart with rfl | less | greater
    · rw [storel_inside (by omega) long small, word i r small]
    · rw [storel_outside (by omega) long (by omega), storel_inside inside long' small, word j r small]
    · rw [storel_outside (by omega) long (by omega), storel_inside inside long' small, word j r small]
  · rw [storel_inside (by omega) long small, word i r small]
  · rw [storel_outside (by omega) long (by omega), storel_outside inside long' (by omega)]

theorem swapi_exchanges (turns : Nat) {k n i j : Nat} {mem : Mem} (positive : 0 < n) (enough : n ≤ turns)
    (inside : i + n * sizeofLong k ≤ mem.length) (inside' : j + n * sizeofLong k ≤ mem.length) (apart : Apart i j (n * sizeofLong k)) :
    ∃ mem', swapi k turns i j (n * sizeofLong k) mem = some mem' ∧ Exchanged mem mem' i j (n * sizeofLong k) := by
  induction turns generalizing n i j mem with
  | zero => omega
  | succ turns ih =>
    obtain ⟨n, rfl⟩ : ∃ m, n = m + 1 := ⟨n - 1, by omega⟩
    have width : (n + 1) * sizeofLong k = sizeofLong k + n * sizeofLong k := by ring
    rw [width] at inside inside' apart ⊢
    have short : Apart i j (sizeofLong k) := by
      unfold Apart at apart ⊢
      omega
    have one := @storel_exchanged mem k i j (by omega) (by omega) short
    have first : loadl k mem i = some ((mem.drop i).take (sizeofLong k)) := if_pos (by omega)
    have second : loadl k mem j = some ((mem.drop j).take (sizeofLong k)) := if_pos (by omega)
    rw [swapi, first, second]
    simp only [Option.bind_eq_bind, Option.bind_some]
    by_cases last : n = 0
    · subst last
      simp only [Nat.zero_mul, Nat.add_zero]
      exact ⟨_, if_pos trivial, one⟩
    · have length := one.length
      have more : 0 < n * sizeofLong k := Nat.mul_pos (by omega) (Nat.two_pow_pos k)
      unfold Apart at apart
      obtain ⟨mem', swapped, rest⟩ := @ih n (i + sizeofLong k) (j + sizeofLong k) _ (by omega) (by omega) (by rw [length]; omega)
        (by rw [length]; omega) (by unfold Apart; omega)
      refine ⟨mem', ?_, one.append apart rest⟩
      rw [if_neg (by omega), Nat.add_sub_cancel_left]
      exact swapped

/-! The elements. Between those before and those behind it lies the part that is
sorted; `p` exchanges elements when its function does. -/

/-- The exchange function exchanges elements. -/
def Exchanges (p : Sorting) : Prop :=
  ∀ {blocks : List (List UInt8)} {i j : Nat} {x y : List UInt8}, Sized p.es blocks → blocks[i]? = some x → blocks[j]? = some y →
    p.swap (i * p.es) (j * p.es) p.es blocks.flatten = some ((blocks.set i y).set j x).flatten

theorem block_inside {n i : Nat} {blocks : List (List UInt8)} {x : List UInt8} (sized : Sized n blocks) (here : blocks[i]? = some x) :
    i * n + n ≤ blocks.flatten.length := by
  obtain ⟨inside, -⟩ := List.getElem?_eq_some_iff.mp here
  rw [length_flatten sized]
  calc i * n + n = (i + 1) * n := by ring
    _ ≤ blocks.length * n := Nat.mul_le_mul_right n inside

theorem swapb_elements {cmp : List UInt8 → List UInt8 → Int} {es : Nat} (positive : 0 < es) : Exchanges ⟨cmp, swapb, es⟩ := by
  intro blocks i j x y sized first second
  obtain ⟨mem', swapped, exchanged⟩ := swapb_exchanges positive (block_inside sized first) (block_inside sized second)
    (apart_blocks i j es)
  rw [← exchanged.blocks sized first second]
  exact swapped

theorem swapi_elements {cmp : List UInt8 → List UInt8 → Int} {k es : Nat} (positive : 0 < es) (longs : sizeofLong k ∣ es) :
    Exchanges ⟨cmp, swapi k es, es⟩ := by
  intro blocks i j x y sized first second
  obtain ⟨n, rfl⟩ := longs
  have some_ : 0 < n := Nat.pos_of_mul_pos_left positive
  rw [Nat.mul_comm] at *
  obtain ⟨mem', swapped, exchanged⟩ := swapi_exchanges (n * sizeofLong k) some_
    (Nat.le_mul_of_pos_right n (Nat.two_pow_pos k)) (block_inside sized first) (block_inside sized second) (apart_blocks i j (n * sizeofLong k))
  rw [← exchanged.blocks sized first second]
  exact swapped

section Elements

variable {p : Sorting} {before xs after : List (List UInt8)}

theorem compare_elements {blocks : List (List UInt8)} {i j : Nat} {x y : List UInt8} (sized : Sized p.es blocks)
    (first : blocks[i]? = some x) (second : blocks[j]? = some y) :
    p.compare blocks.flatten (i * p.es) (j * p.es) = some (p.cmp x y) := by
  rw [Sorting.compare, if_pos ⟨block_inside sized first, block_inside sized second⟩, take_drop_flatten sized first,
    take_drop_flatten sized second]

/-- An element of the part, in the whole array. -/
theorem whole_at {k : Nat} (inside : k < xs.length) : (before ++ xs ++ after)[before.length + k]? = xs[k]? := by
  rw [List.append_assoc, List.getElem?_append_right (Nat.le_add_right _ _), Nat.add_sub_cancel_left,
    List.getElem?_append_left inside]

theorem compare_part {i j : Nat} (sized : Sized p.es (before ++ xs ++ after)) (inside : i < xs.length) (inside' : j < xs.length) :
    p.compare (before ++ xs ++ after).flatten ((before.length + i) * p.es) ((before.length + j) * p.es) =
      some (Qsort.cmpAt p.cmp xs i j) := by
  have first := List.getElem?_eq_getElem inside
  have second := List.getElem?_eq_getElem inside'
  rw [compare_elements sized ((whole_at inside).trans first) ((whole_at inside').trans second), Qsort.cmpAt, first, second]

theorem swap_part {i j : Nat} (exchanges : Exchanges p) (sized : Sized p.es (before ++ xs ++ after)) (inside : i < xs.length)
    (inside' : j < xs.length) :
    p.swap ((before.length + i) * p.es) ((before.length + j) * p.es) p.es (before ++ xs ++ after).flatten =
      some (before ++ Qsort.swap xs i j ++ after).flatten := by
  have first := List.getElem?_eq_getElem inside
  have second := List.getElem?_eq_getElem inside'
  rw [exchanges sized ((whole_at inside).trans first) ((whole_at inside').trans second), Qsort.swap, first, second]
  have set : ∀ {ys : List (List UInt8)} (k : Nat) (z : List UInt8), k < ys.length →
      (before ++ ys ++ after).set (before.length + k) z = before ++ ys.set k z ++ after := by
    intro ys k z small
    rw [List.append_assoc, List.set_append_right _ _ (Nat.le_add_right _ _), Nat.add_sub_cancel_left,
      List.set_append_left _ _ small, List.append_assoc]
  rw [set i _ inside, set j _ (by simpa using inside')]

theorem mem_swap {α : Type} {a : List α} {i j : Nat} {x : α} (member : x ∈ Qsort.swap a i j) : x ∈ a := by
  unfold Qsort.swap at member
  split at member
  next y z first second =>
    rcases List.mem_or_eq_of_mem_set member with member | rfl
    · rcases List.mem_or_eq_of_mem_set member with member | rfl
      · exact member
      · exact List.mem_of_getElem? second
    · exact List.mem_of_getElem? first
  · exact member

theorem swap_length {α : Type} (a : List α) (i j : Nat) : (Qsort.swap a i j).length = a.length := by
  unfold Qsort.swap
  split <;> simp

theorem sized_part (ys : List (List UInt8)) (sized : Sized p.es (before ++ xs ++ after)) (inside : ∀ y ∈ ys, y ∈ xs) :
    Sized p.es (before ++ ys ++ after) := by
  intro y member
  apply sized
  simp only [List.mem_append] at member ⊢
  exact member.imp_left (Or.imp_right (inside y))

theorem up_bounds {α : Type} (cmp : α → α → Int) (a : List α) (left pi : Nat) :
    pi ≤ Qsort.up cmp a left pi ∧ Qsort.up cmp a left pi ≤ pi + left := by
  induction left generalizing pi with
  | zero => exact ⟨Nat.le_refl _, Nat.le_refl _⟩
  | succ left ih =>
    rw [Qsort.up]
    have next := ih (pi + 1)
    split <;> omega

theorem down_below {α : Type} (cmp : α → α → Int) (a : List α) {pj : Nat} (positive : 0 < pj) : Qsort.down cmp a pj < pj := by
  induction pj with
  | zero => omega
  | succ pj ih =>
    rw [Qsort.down]
    split
    next more =>
      have := ih more.1
      omega
    · omega

theorem up_part {k turns : Nat} (sized : Sized p.es (before ++ xs ++ after)) (positive : 0 < p.es) (inside : k < xs.length)
    (enough : xs.length - k ≤ turns) :
    up p (before ++ xs ++ after).flatten (before.length * p.es) ((before.length + xs.length) * p.es) turns
        ((before.length + k) * p.es) =
      some ((before.length + Qsort.up p.cmp xs (xs.length - (k + 1)) (k + 1)) * p.es) := by
  induction turns generalizing k with
  | zero => omega
  | succ turns ih =>
    have moved : (before.length + k) * p.es + p.es = (before.length + (k + 1)) * p.es := by ring
    rw [up]
    simp only [moved, Nat.mul_lt_mul_right positive, Nat.add_lt_add_iff_left]
    by_cases more : k + 1 < xs.length
    · obtain ⟨left, rest⟩ : ∃ m, xs.length - (k + 1) = m + 1 := ⟨xs.length - (k + 2), by omega⟩
      have compared := compare_part sized more (Nat.zero_lt_of_lt inside)
      rw [Nat.add_zero before.length] at compared
      rw [if_pos more, compared, rest, Qsort.up]
      simp only [Option.bind_eq_bind, Option.bind_some]
      by_cases less : Qsort.cmpAt p.cmp xs (k + 1) 0 < 0
      · rw [if_pos less, if_pos less, ih more (by omega)]
        congr 4
        omega
      · rw [if_neg less, if_neg less]
    · have none : xs.length - (k + 1) = 0 := by omega
      rw [if_neg more, none]
      rfl

theorem down_part {k turns : Nat} (sized : Sized p.es (before ++ xs ++ after)) (positive : 0 < p.es) (some_ : 0 < k)
    (inside : k ≤ xs.length) (enough : k ≤ turns) :
    down p (before ++ xs ++ after).flatten (before.length * p.es) turns ((before.length + k) * p.es) =
      some ((before.length + Qsort.down p.cmp xs k) * p.es) := by
  induction turns generalizing k with
  | zero => omega
  | succ turns ih =>
    obtain ⟨k, rfl⟩ : ∃ m, k = m + 1 := ⟨k - 1, by omega⟩
    have moved : (before.length + (k + 1)) * p.es - p.es = (before.length + k) * p.es := by
      have wide : (before.length + (k + 1)) * p.es = (before.length + k) * p.es + p.es := by ring
      rw [wide, Nat.add_sub_cancel]
    have least : ¬(before.length + (k + 1)) * p.es < p.es := by
      have wide : (before.length + (k + 1)) * p.es = (before.length + k) * p.es + p.es := by ring
      omega
    have above : (before.length + k) * p.es > before.length * p.es ↔ k > 0 := by
      rw [gt_iff_lt, Nat.mul_lt_mul_right positive]
      omega
    rw [down, if_neg least]
    simp only [moved, above]
    rw [Qsort.down]
    by_cases more : k > 0
    · have compared := compare_part sized (show k < xs.length by omega) (show 0 < xs.length by omega)
      rw [Nat.add_zero before.length] at compared
      rw [if_pos more, compared]
      simp only [Option.bind_eq_bind, Option.bind_some]
      by_cases greater : Qsort.cmpAt p.cmp xs k 0 > 0
      · rw [if_pos greater, if_pos ⟨more, greater⟩]
        exact ih more (by omega) (by omega)
      · rw [if_neg greater, if_neg fun both => greater both.2]
    · rw [if_neg more, if_neg fun both => more both.1]

/-- The scans end, and do to the part what those of lists do. -/
theorem scans_part (turns pi pj : Nat) (exchanges : Exchanges p) (sized : Sized p.es (before ++ xs ++ after)) (positive : 0 < p.es)
    (low : pi < xs.length) (some_ : 0 < pj) (high : pj ≤ xs.length) (enough : pj - pi < 2 * turns) :
    scans p (before.length * p.es) xs.length turns (before ++ xs ++ after).flatten ((before.length + pi) * p.es)
        ((before.length + pj) * p.es) =
      some ((before ++ (Qsort.scans p.cmp turns xs pi pj).1 ++ after).flatten,
        (before.length + (Qsort.scans p.cmp turns xs pi pj).2) * p.es) := by
  induction turns generalizing xs pi pj with
  | zero => omega
  | succ turns ih =>
    have end_ : before.length * p.es + xs.length * p.es = (before.length + xs.length) * p.es := by ring
    have rising := up_bounds p.cmp xs (xs.length - (pi + 1)) (pi + 1)
    have falling := down_below p.cmp xs some_
    rw [scans, end_, up_part sized positive low (by omega)]
    simp only [Option.bind_eq_bind, Option.bind_some]
    rw [down_part sized positive some_ high high, Qsort.scans]
    simp only [Option.bind_some, Nat.mul_lt_mul_right positive, Nat.add_lt_add_iff_left]
    by_cases crossed : Qsort.down p.cmp xs pj < Qsort.up p.cmp xs (xs.length - (pi + 1)) (pi + 1)
    · rw [if_pos crossed, if_pos crossed]
    · rw [if_neg crossed, if_neg crossed, swap_part exchanges sized (by omega) (by omega)]
      simp only [Option.bind_some]
      have next := @ih (Qsort.swap xs (Qsort.up p.cmp xs (xs.length - (pi + 1)) (pi + 1)) (Qsort.down p.cmp xs pj))
        (Qsort.up p.cmp xs (xs.length - (pi + 1)) (pi + 1)) (Qsort.down p.cmp xs pj) (sized_part _ sized fun y => mem_swap)
      rw [swap_length] at next
      exact next (by omega) (by omega) (by omega) (by omega)

theorem pivot_part (sized : Sized p.es (before ++ xs ++ after)) (long : xs.length > 10) :
    pivot (before.length * p.es) xs.length p (before ++ xs ++ after).flatten =
      some ((before.length + Qsort.pivot p.cmp xs xs.length) * p.es) := by
  have first : before.length * p.es + xs.length / 6 * p.es = (before.length + xs.length / 6) * p.es := by ring
  have second : (before.length + xs.length / 6) * p.es + (xs.length / 6 * p.es + xs.length / 6 * p.es) =
      (before.length + (xs.length / 6 + (xs.length / 6 + xs.length / 6))) * p.es := by ring
  have third : (before.length + (xs.length / 6 + (xs.length / 6 + xs.length / 6))) * p.es +
      (xs.length / 6 * p.es + xs.length / 6 * p.es) =
        (before.length + (xs.length / 6 + (xs.length / 6 + xs.length / 6) + (xs.length / 6 + xs.length / 6))) * p.es := by ring
  have one := compare_part sized (i := xs.length / 6) (j := xs.length / 6 + (xs.length / 6 + xs.length / 6)) (by omega) (by omega)
  have two := compare_part sized (i := xs.length / 6)
    (j := xs.length / 6 + (xs.length / 6 + xs.length / 6) + (xs.length / 6 + xs.length / 6)) (by omega) (by omega)
  have three := compare_part sized (i := xs.length / 6 + (xs.length / 6 + xs.length / 6))
    (j := xs.length / 6 + (xs.length / 6 + xs.length / 6) + (xs.length / 6 + xs.length / 6)) (by omega) (by omega)
  rw [pivot, Qsort.pivot]
  simp only [first, second, third, one, two, three, Option.bind_eq_bind, Option.bind_some]
  split_ifs <;> rfl

theorem pivot_inside {cmp : List UInt8 → List UInt8 → Int} (long : xs.length > 10) : Qsort.pivot cmp xs xs.length < xs.length := by
  rw [Qsort.pivot]
  split_ifs <;> omega

theorem scans_inside (cmp : List UInt8 → List UInt8 → Int) (xs : List (List UInt8)) (turns pi : Nat) {pj : Nat} (some_ : 0 < pj) :
    (Qsort.scans cmp (turns + 1) xs pi pj).2 < pj ∧ (Qsort.scans cmp (turns + 1) xs pi pj).1.length = xs.length := by
  induction turns generalizing xs pi pj with
  | zero =>
    have falling := down_below cmp xs some_
    rw [Qsort.scans]
    simp only [Qsort.scans]
    split_ifs
    · exact ⟨falling, rfl⟩
    · exact ⟨falling, swap_length _ _ _⟩
  | succ turns ih =>
    have falling := down_below cmp xs some_
    have rising := up_bounds cmp xs (xs.length - (pi + 1)) (pi + 1)
    rw [Qsort.scans]
    split_ifs with crossed
    · exact ⟨falling, rfl⟩
    · have next := @ih (Qsort.swap xs (Qsort.up cmp xs (xs.length - (pi + 1)) (pi + 1)) (Qsort.down cmp xs pj))
        (Qsort.up cmp xs (xs.length - (pi + 1)) (pi + 1)) (Qsort.down cmp xs pj) (by omega)
      exact ⟨by omega, next.2.trans (swap_length _ _ _)⟩

theorem mem_scans {cmp : List UInt8 → List UInt8 → Int} {turns pi pj : Nat} {x : List UInt8}
    (member : x ∈ (Qsort.scans cmp turns xs pi pj).1) : x ∈ xs := by
  induction turns generalizing xs pi pj with
  | zero => exact member
  | succ turns ih =>
    rw [Qsort.scans] at member
    split_ifs at member
    · exact member
    · exact mem_swap (ih member)

/-- One turn of the loop does to the part what it does to a list. -/
theorem partition_part (exchanges : Exchanges p) (sized : Sized p.es (before ++ xs ++ after)) (positive : 0 < p.es)
    (long : xs.length > 1) :
    ∃ low q high, Qsort.partition p.cmp xs = (low, [q], high) ∧ (∀ x ∈ low ++ q :: high, x ∈ xs) ∧
      low.length + high.length + 1 = xs.length ∧
        partition p (before.length * p.es) xs.length (before ++ xs ++ after).flatten =
          some ((before ++ (low ++ q :: high) ++ after).flatten, low.length) := by
  obtain ⟨low, q, high, parts, perm, -, -⟩ := partition_spec p.cmp long
  refine ⟨low, q, high, parts, fun x => perm.mem_iff.mp, ?_, ?_⟩
  · have := perm.length_eq
    simp only [List.length_append, List.length_cons] at this
    omega
  generalize chosen : (if xs.length > 10 then Qsort.pivot p.cmp xs xs.length else xs.length / 2) = pi
  have inside : pi < xs.length := by
    rw [← chosen]
    split_ifs with many
    · exact pivot_inside many
    · omega
  have choice : QsortBytes.chosen (before.length * p.es) xs.length p (before ++ xs ++ after).flatten =
      some ((before.length + pi) * p.es) := by
    rw [← chosen, QsortBytes.chosen]
    split_ifs with many
    · exact pivot_part sized many
    · congr 1
      ring
  obtain ⟨turns, size⟩ : ∃ m, xs.length = m + 1 := ⟨xs.length - 1, by omega⟩
  have swapped := swap_part (j := pi) exchanges sized (Nat.zero_lt_of_lt long) inside
  have sized' := sized_part (Qsort.swap xs 0 pi) sized fun y => mem_swap
  have scanned := scans_part xs.length 0 xs.length exchanges sized' positive
    (by rw [swap_length]; omega) (by omega) (by rw [swap_length]) (by omega)
  have bounds := scans_inside p.cmp (Qsort.swap xs 0 pi) turns 0 (show 0 < xs.length by omega)
  rw [partition, choice]
  simp only [Option.bind_eq_bind, Option.bind_some]
  rw [Nat.add_zero] at swapped
  have end_ : before.length * p.es + xs.length * p.es = (before.length + xs.length) * p.es := by ring
  rw [swapped, end_]
  simp only [Option.bind_some]
  rw [swap_length, Nat.add_zero] at scanned
  rw [scanned]
  simp only [Option.bind_some]
  have members : ∀ y ∈ (Qsort.scans p.cmp xs.length (Qsort.swap xs 0 pi) 0 xs.length).1, y ∈ xs :=
    fun y member => mem_swap (mem_scans member)
  rw [Qsort.partition] at parts
  simp only [chosen] at parts
  rw [swap_length] at bounds
  rw [size] at parts bounds members ⊢
  generalize Qsort.scans p.cmp (turns + 1) (Qsort.swap xs 0 pi) 0 (turns + 1) = result at parts bounds members ⊢
  obtain ⟨ys, j⟩ := result
  simp only at parts bounds members ⊢
  have final := swap_part (i := 0) (j := j) exchanges (sized_part ys sized members) (by rw [bounds.2]; omega)
    (by rw [bounds.2]; exact bounds.1)
  rw [Nat.add_zero] at final
  have offset : ((before.length + j) * p.es - before.length * p.es) / p.es = j := by
    rw [Nat.add_mul, Nat.add_sub_cancel_left]
    exact Nat.mul_div_cancel _ positive
  simp only [Prod.mk.injEq] at parts
  obtain ⟨front, middle, back⟩ := parts
  have whole : Qsort.swap ys 0 j = low ++ q :: high := by
    rw [← front, ← List.singleton_append, ← middle, ← back, ← List.drop_drop, List.take_append_drop, List.take_append_drop]
  have place : low.length = j := by
    rw [← front, List.length_take, swap_length, bounds.2]
    have := bounds.1
    omega
  rw [final]
  simp only [Option.bind_some, offset, whole, place]

/-- The loop and the calls do to the part what they do to a list. -/
theorem qsorts_part {turns : Nat} (exchanges : Exchanges p) (sized : Sized p.es (before ++ xs ++ after)) (positive : 0 < p.es)
    (enough : xs.length ≤ turns + 1) :
    qsorts p turns (before.length * p.es) xs.length (before ++ xs ++ after).flatten =
      some (before ++ Qsort.qsorts p.cmp turns xs ++ after).flatten := by
  induction turns generalizing before xs after with
  | zero => exact if_neg (by omega)
  | succ turns ih =>
    rw [qsorts, Qsort.qsorts]
    by_cases long : xs.length > 1
    · obtain ⟨low, q, high, parts, members, size, done⟩ := partition_part exchanges sized positive long
      rw [if_pos long, if_pos long, done, parts]
      simp only [Option.bind_eq_bind, Option.bind_some]
      have left : xs.length - low.length - 1 = high.length := by omega
      have within : ∀ y ∈ low ++ q :: high, y ∈ xs := members
      have lows {ys : List (List UInt8)} (inside : ∀ y ∈ ys, y ∈ high) :
          qsorts p turns (before.length * p.es) low.length (before ++ (low ++ q :: ys) ++ after).flatten =
            some (before ++ (Qsort.qsorts p.cmp turns low ++ q :: ys) ++ after).flatten := by
        have shape : ∀ l : List (List UInt8), before ++ (l ++ q :: ys) ++ after = before ++ l ++ (q :: ys ++ after) := by simp
        rw [shape, shape]
        refine ih ?_ (by omega)
        rw [← shape]
        refine sized_part _ sized fun y member => within y ?_
        simp only [List.mem_append, List.mem_cons] at member ⊢
        exact member.imp_right (Or.imp_right (inside y))
      have highs {ys : List (List UInt8)} (inside : ∀ y ∈ ys, y ∈ low) (size : ys.length = low.length) :
          qsorts p turns (before.length * p.es + (low.length + 1) * p.es) high.length (before ++ (ys ++ q :: high) ++ after).flatten =
            some (before ++ (ys ++ q :: Qsort.qsorts p.cmp turns high) ++ after).flatten := by
        have shape : ∀ l : List (List UInt8), before ++ (ys ++ q :: l) ++ after = before ++ ys ++ [q] ++ l ++ after := by simp
        have start : before.length * p.es + (low.length + 1) * p.es = (before ++ ys ++ [q]).length * p.es := by
          simp only [List.length_append, List.length_singleton, size]
          ring
        rw [shape, shape, start]
        refine ih ?_ (by omega)
        rw [← shape]
        refine sized_part _ sized fun y member => within y ?_
        simp only [List.mem_append, List.mem_cons] at member ⊢
        exact member.imp_left (inside y)
      have sortedLow : (Qsort.qsorts p.cmp turns low).Perm low := qsorts_perm turns low
      have sortedHigh : (Qsort.qsorts p.cmp turns high).Perm high := qsorts_perm turns high
      rw [left]
      by_cases longer : low.length ≥ high.length
      · rw [if_pos longer, lows fun y member => member]
        simp only [Option.bind_some]
        rw [highs (fun y => sortedLow.mem_iff.mp) sortedLow.length_eq]
        simp
      · rw [if_neg longer, highs (fun y member => member) rfl]
        simp only [Option.bind_some]
        rw [lows fun y => sortedHigh.mem_iff.mp]
        simp
    · rw [if_neg long, if_neg long]

end Elements

/-! The order. -/

/-- The comparison function orders the elements of an array. -/
structure TotalPreorder {α : Type} (cmp : α → α → Int) (xs : List α) : Prop where
  flips : ∀ x ∈ xs, ∀ y ∈ xs, cmp x y ≤ 0 ↔ 0 ≤ cmp y x
  trans : ∀ x ∈ xs, ∀ y ∈ xs, ∀ z ∈ xs, cmp x y ≤ 0 → cmp y z ≤ 0 → cmp x z ≤ 0

theorem qsort_ordered {α : Type} {cmp : α → α → Int} {xs : List α} (preorder : TotalPreorder cmp xs) :
    (Qsort.qsort cmp xs).Pairwise fun x y => cmp x y ≤ 0 := by
  have elements : Qsort.qsort cmp xs = (Qsort.qsort (fun x y => cmp x.1 y.1) xs.attach).map Subtype.val := by
    conv_lhs => rw [← List.attach_map_subtype_val xs]
    exact qsort_map fun _ _ _ _ => rfl
  rw [elements, List.pairwise_map]
  refine (qsorts_sorted_iff (fun {x y z} => preorder.trans x.1 x.2 y.1 y.2 z.1 z.2) (Nat.le_refl _)).mpr ?_
  intro x y compared
  rcases (decided_compared compared).2.2 with less | greater
  · exact less
  · exact (preorder.flips x.1 x.2 y.1 y.2).mpr greater

theorem longs_divide {k va es : Nat} (aligned : ¬(va ||| es) % sizeofLong k ≠ 0) : sizeofLong k ∣ es := by
  have both : va % 2 ^ k ||| es % 2 ^ k = 0 := by
    rw [← Nat.or_mod_two_pow]
    exact Decidable.not_not.mp aligned
  exact Nat.dvd_of_mod_eq_zero (Nat.or_eq_zero_iff.mp both).2

/-- Every array is sorted in place, and no access leaves it. -/
theorem qsort_sorts (k : Nat) {es : Nat} (positive : 0 < es) (va : Nat) {cmp : List UInt8 → List UInt8 → Int} {xs : List (List UInt8)}
    (sized : Sized es xs) (preorder : TotalPreorder cmp xs) :
    ∃ ys, qsort k va xs.length es cmp xs.flatten = some ys.flatten ∧ Sized es ys ∧ ys.Perm xs ∧
      ys.Pairwise fun x y => cmp x y ≤ 0 := by
  have perm : (Qsort.qsort cmp xs).Perm xs := qsorts_perm _ _
  refine ⟨Qsort.qsort cmp xs, ?_, fun y member => sized y (perm.mem_iff.mp member), perm, qsort_ordered preorder⟩
  have all : ∀ {swap : Nat → Nat → Nat → Mem → Option Mem}, Exchanges ⟨cmp, swap, es⟩ →
      qsorts ⟨cmp, swap, es⟩ xs.length 0 xs.length xs.flatten = some (Qsort.qsort cmp xs).flatten := by
    intro swap exchanges
    have done := @qsorts_part ⟨cmp, swap, es⟩ [] xs [] xs.length exchanges (by simpa using sized) positive (by omega)
    simpa [Qsort.qsort] using done
  unfold qsort
  simp only
  split_ifs with unaligned
  · exact all (swapb_elements positive)
  · exact all (swapi_elements positive (longs_divide unaligned))

/-- Twelve words, ordered by their first bytes, where a long is a word. -/
theorem qsort_sorts_twelve : ∃ ys : List (List UInt8),
    qsort 2 4096 12 4 (fun x y => (x.headD 0).toNat - (y.headD 0).toNat)
      [7, 0, 0, 1, 3, 0, 0, 2, 7, 0, 0, 3, 1, 0, 0, 4, 9, 0, 0, 5, 2, 0, 0, 6, 8, 0, 0, 7, 3, 0, 0, 8, 6, 0, 0, 9, 5, 0, 0, 10,
        4, 0, 0, 11, 0, 0, 0, 12] = some ys.flatten ∧ Sized 4 ys ∧
      ys.Perm [[7, 0, 0, 1], [3, 0, 0, 2], [7, 0, 0, 3], [1, 0, 0, 4], [9, 0, 0, 5], [2, 0, 0, 6], [8, 0, 0, 7], [3, 0, 0, 8],
        [6, 0, 0, 9], [5, 0, 0, 10], [4, 0, 0, 11], [0, 0, 0, 12]] ∧
      ys.Pairwise fun x y => ((x.headD 0).toNat : Int) - (y.headD 0).toNat ≤ 0 := by
  refine @qsort_sorts 2 4 (by decide) 4096 (fun x y => (x.headD 0).toNat - (y.headD 0).toNat) [[7, 0, 0, 1], [3, 0, 0, 2],
    [7, 0, 0, 3], [1, 0, 0, 4], [9, 0, 0, 5], [2, 0, 0, 6], [8, 0, 0, 7], [3, 0, 0, 8], [6, 0, 0, 9], [5, 0, 0, 10], [4, 0, 0, 11],
    [0, 0, 0, 12]] ?_ ⟨?_, ?_⟩
  · unfold Sized
    decide
  · intro x _ y _
    omega
  · intro x _ y _ z _
    omega

end Goken.Proofs.QsortBytes
