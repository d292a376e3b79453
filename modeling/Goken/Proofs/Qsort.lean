import Goken.Qsort
import Mathlib.Data.List.Induction
import Mathlib.Data.List.Perm.Basic
import Mathlib.Data.List.ProdSigma
import Mathlib.Order.Basic

/-! What `qsort` does with any comparison function: it permutes the array, and the order
it leaves is decided pair by pair by the comparisons with the pivots. -/

namespace Goken.Proofs.Qsort
open Goken.Qsort

variable {α : Type}

theorem swap_middle (p x y : α) (before middle after : List α) :
    swap (p :: (before ++ x :: (middle ++ y :: after))) (before.length + 1) (before.length + middle.length + 2) =
      p :: (before ++ y :: (middle ++ x :: after)) := by
  have first : (p :: (before ++ x :: (middle ++ y :: after)))[before.length + 1]? = some x := by simp
  have second : (p :: (before ++ x :: (middle ++ y :: after)))[before.length + middle.length + 2]? = some y := by
    rw [List.getElem?_cons_succ, List.getElem?_append_right (by omega)]
    have index : before.length + middle.length + 1 - before.length = middle.length + 1 := by omega
    rw [index, List.getElem?_cons_succ, List.getElem?_append_right (Nat.le_refl _)]
    simp
  rw [swap, first, second]
  simp only [List.set_cons_succ]
  rw [List.set_append_right _ _ (Nat.le_refl _), Nat.sub_self, List.set_cons_zero, List.set_append_right _ _ (by omega)]
  have index : before.length + middle.length + 1 - before.length = middle.length + 1 := by omega
  rw [index, List.set_cons_succ, List.set_append_right _ _ (Nat.le_refl _), Nat.sub_self, List.set_cons_zero]

theorem swap_self (a : List α) (i : Nat) : swap a i i = a := by
  unfold swap
  cases found : a[i]? with
  | none => rfl
  | some x =>
    obtain ⟨inside, rfl⟩ := List.getElem?_eq_some_iff.mp found
    simp

theorem swap_front (p z : α) (before after : List α) :
    swap (p :: (before ++ z :: after)) 0 (before.length + 1) = z :: (before ++ p :: after) := by
  have second : (p :: (before ++ z :: after))[before.length + 1]? = some z := by simp
  rw [swap, second, List.getElem?_cons_zero]
  simp

theorem exchange_perm (x y : α) (middle after : List α) : (y :: (middle ++ x :: after)).Perm (x :: (middle ++ y :: after)) :=
  (List.perm_middle.cons y).trans ((List.Perm.swap x y _).trans (List.perm_middle.symm.cons x))

theorem swap_perm (a : List α) (j : Nat) : (swap a 0 j).Perm a := by
  cases a with
  | nil => exact .refl _
  | cons p rest =>
    cases j with
    | zero => rw [swap_self]
    | succ j =>
      by_cases inside : j < rest.length
      · have split : rest = rest.take j ++ rest[j] :: rest.drop (j + 1) := by simp
        have long : (rest.take j).length = j := by simp; omega
        have moved := swap_front p rest[j] (rest.take j) (rest.drop (j + 1))
        rw [← split, long] at moved
        rw [moved]
        refine (exchange_perm p rest[j] _ _).trans ?_
        rw [← split]
      · have missing : (p :: rest)[j + 1]? = none := by simpa using inside
        rw [swap, missing]
        simp

section Scans

variable (cmp : α → α → Int) (p : α)

theorem cmpAt_middle (before after : List α) (x : α) :
    cmpAt cmp (p :: (before ++ x :: after)) (before.length + 1) 0 = cmp x p := by
  simp [cmpAt]

theorem up_spec (before run after : List α) (inside : ∀ x ∈ run, cmp x p < 0) (stops : ∀ x ∈ after.head?, ¬cmp x p < 0) :
    up cmp (p :: (before ++ (run ++ after))) (run ++ after).length (before.length + 1) = before.length + run.length + 1 := by
  induction run generalizing before with
  | nil =>
    cases after with
    | nil => rfl
    | cons x after =>
      rw [List.nil_append, List.length_cons, up, cmpAt_middle, if_neg (stops x rfl)]
      rfl
  | cons x run ih =>
    have rest := ih (before ++ [x]) fun y member => inside y (List.mem_cons_of_mem x member)
    rw [List.cons_append, List.length_cons, up, cmpAt_middle, if_pos (inside x List.mem_cons_self)]
    simp only [List.append_assoc, List.length_append, List.length_singleton, List.singleton_append] at rest
    rw [List.length_append, rest, List.length_cons]
    omega

theorem down_spec (before run after : List α) (inside : ∀ x ∈ run, cmp x p > 0)
    (stops : ∀ x ∈ before.getLast?, ¬cmp x p > 0) :
    down cmp (p :: (before ++ (run ++ after))) (before.length + run.length + 1) = before.length := by
  induction run using List.reverseRecOn generalizing after with
  | nil =>
    rw [List.length_nil, Nat.add_zero, down, if_neg]
    rintro ⟨positive, above⟩
    rcases List.eq_nil_or_concat before with rfl | ⟨start, x, rfl⟩
    · exact absurd positive (by simp)
    · have value := cmpAt_middle cmp p start after x
      simp only [List.concat_eq_append, List.nil_append, List.append_assoc, List.singleton_append, List.length_append,
        List.length_singleton] at above
      rw [value] at above
      exact stops x (by simp) above
  | append_singleton run x ih =>
    have rest := ih (x :: after) fun y member => inside y (List.mem_append_left _ member)
    have value := cmpAt_middle cmp p (before ++ run) after x
    simp only [List.append_assoc, List.length_append] at rest value
    simp only [List.append_assoc, List.length_append, List.length_singleton, List.singleton_append]
    have above : cmp x p > 0 := inside x (by simp)
    rw [← Nat.add_assoc, down, value, if_pos ⟨by omega, above⟩]
    exact rest

/-- A list from its first element that fails a test on. -/
theorem split_first (test : α → Prop) [DecidablePred test] (l : List α) :
    ∃ run rest, l = run ++ rest ∧ (∀ x ∈ run, test x) ∧ ∀ x ∈ rest.head?, ¬test x := by
  induction l with
  | nil => exact ⟨[], [], rfl, by simp, by simp⟩
  | cons x l ih =>
    by_cases holds : test x
    · obtain ⟨run, rest, rfl, inside, stops⟩ := ih
      exact ⟨x :: run, rest, rfl, by simpa using ⟨holds, inside⟩, stops⟩
    · exact ⟨[], x :: l, rfl, by simp, by simpa using holds⟩

theorem split_last (test : α → Prop) [DecidablePred test] (l : List α) :
    ∃ rest run, l = rest ++ run ∧ (∀ x ∈ run, test x) ∧ ∀ x ∈ rest.getLast?, ¬test x := by
  obtain ⟨run, rest, split, inside, stops⟩ := split_first test l.reverse
  refine ⟨rest.reverse, run.reverse, ?_, by simpa using inside, by simpa using stops⟩
  rw [← List.reverse_append, ← split, List.reverse_reverse]

/-- Both scans at one element: the next turn ends below it. -/
theorem scans_met {low high : List α} {x : α} (turns : Nat) (below : ∀ y ∈ low, cmp y p ≤ 0)
    (above : ∀ y ∈ high, 0 ≤ cmp y p) :
    scans cmp (turns + 1) (p :: (low ++ x :: high)) (low.length + 1) (low.length + 1) = (p :: (low ++ x :: high), low.length) := by
  have rising := up_spec cmp p (low ++ [x]) [] high (by simp) (by
    intro y first
    have := above y (List.mem_of_mem_head? first)
    omega)
  have falling := down_spec cmp p low [] (x :: high) (by simp) (by
    intro y last
    have := below y (List.mem_of_mem_getLast? last)
    omega)
  have left : (p :: (low ++ x :: high)).length - (low.length + 1 + 1) = high.length := by
    simp only [List.length_cons, List.length_append]
    omega
  simp only [List.append_assoc, List.singleton_append, List.nil_append, List.length_append, List.length_singleton,
    List.length_nil, Nat.add_zero] at rising falling
  rw [scans]
  simp only [left, rising, falling]
  rw [if_pos (by omega)]

section Turn

/-! The elements between the scans: `run` is passed by the first, `back` by the second. -/

variable {p} {low run ahead back high : List α}

theorem rising (low : List α) (inside : ∀ x ∈ run, cmp x p < 0) (stops : ∀ x ∈ (ahead ++ back).head?, ¬cmp x p < 0)
    (above : ∀ x ∈ high, 0 ≤ cmp x p) :
    up cmp (p :: (low ++ (run ++ (ahead ++ back) ++ high)))
      ((p :: (low ++ (run ++ (ahead ++ back) ++ high))).length - (low.length + 1)) (low.length + 1) = low.length + run.length + 1 := by
  have left : (p :: (low ++ (run ++ (ahead ++ back) ++ high))).length - (low.length + 1) = (run ++ (ahead ++ back ++ high)).length := by
    simp only [List.length_cons, List.length_append]
    omega
  rw [left, List.append_assoc run]
  refine up_spec cmp p low run (ahead ++ back ++ high) inside ?_
  cases split : ahead ++ back with
  | nil =>
    intro x first
    have := above x (List.mem_of_mem_head? (by simpa using first))
    omega
  | cons y others =>
    rw [split] at stops
    simpa using stops

theorem falling (high : List α) (outside : ∀ x ∈ back, cmp x p > 0) (stays : ∀ x ∈ ahead.getLast?, ¬cmp x p > 0)
    (lower : ∀ x ∈ low ++ run, cmp x p ≤ 0) :
    down cmp (p :: (low ++ (run ++ (ahead ++ back) ++ high))) (low.length + (run ++ (ahead ++ back)).length + 1) =
      low.length + run.length + ahead.length := by
  have stops : ∀ x ∈ (low ++ run ++ ahead).getLast?, ¬cmp x p > 0 := by
    rcases List.eq_nil_or_concat ahead with rfl | ⟨start, x, rfl⟩
    · intro x last
      rw [List.append_nil] at last
      have := lower x (List.mem_of_mem_getLast? last)
      omega
    · simpa using stays
  have scanned := down_spec cmp p (low ++ run ++ ahead) back high outside stops
  have width : low.length + (run ++ (ahead ++ back)).length + 1 = (low ++ run ++ ahead).length + back.length + 1 := by
    simp only [List.length_append]
    omega
  rw [width]
  simp only [List.append_assoc, List.length_append] at scanned ⊢
  simp only [← Nat.add_assoc] at scanned ⊢
  exact scanned

/-- The elements at which the scans stop are exchanged. -/
theorem swap_apart (x y : α) (before between after : List α) :
    swap (p :: (before ++ x :: (between ++ y :: after))) (before.length + 1) (before.length + between.length + 2) =
      p :: ((before ++ [y]) ++ (between ++ x :: after)) := by
  rw [swap_middle, List.append_assoc before, List.singleton_append]

variable {x y : α} {between : List α}

/-- One turn that exchanges two elements. -/
theorem scans_exchanged (turns : Nat)
    (pi : up cmp (p :: (low ++ (run ++ (x :: (between ++ [y]) ++ back) ++ high)))
      ((p :: (low ++ (run ++ (x :: (between ++ [y]) ++ back) ++ high))).length - (low.length + 1)) (low.length + 1) = low.length + run.length + 1)
    (pj : down cmp (p :: (low ++ (run ++ (x :: (between ++ [y]) ++ back) ++ high)))
      (low.length + (run ++ (x :: (between ++ [y]) ++ back)).length + 1) = low.length + run.length + (x :: (between ++ [y])).length) :
    scans cmp (turns + 1) (p :: (low ++ (run ++ (x :: (between ++ [y]) ++ back) ++ high))) low.length
        (low.length + (run ++ (x :: (between ++ [y]) ++ back)).length + 1) =
      scans cmp turns (p :: ((low ++ run ++ [y]) ++ (between ++ x :: (back ++ high)))) (low ++ run ++ [y]).length
        ((low ++ run ++ [y]).length + between.length + 1) := by
  have width : low.length + run.length + (x :: (between ++ [y])).length = low.length + run.length + between.length + 2 := by
    simp only [List.length_cons, List.length_append, List.length_nil]
    omega
  have before : low ++ (run ++ (x :: (between ++ [y]) ++ back) ++ high) = low ++ run ++ x :: (between ++ y :: (back ++ high)) := by simp
  have exchanged := swap_apart (p := p) x y (low ++ run) between (back ++ high)
  rw [List.length_append] at exchanged
  rw [scans]
  simp only [pi, pj]
  rw [if_neg (by rw [width]; omega), width, before, exchanged]
  simp only [List.length_append, List.length_singleton]
  congr 1
  omega

end Turn

/-- The scans end with the pivot still in front, and behind it first what the
comparisons put below the pivot, then what they put above. -/
theorem scans_spec (turns : Nat) (low middle high : List α) (enough : middle.length < turns)
    (below : ∀ x ∈ low, cmp x p ≤ 0) (above : ∀ x ∈ high, 0 ≤ cmp x p) :
    ∃ low' high', scans cmp turns (p :: (low ++ (middle ++ high))) low.length (low.length + middle.length + 1) =
        (p :: (low' ++ high'), low'.length) ∧
      (low' ++ high').Perm (low ++ (middle ++ high)) ∧ (∀ x ∈ low', cmp x p ≤ 0) ∧ ∀ x ∈ high', 0 ≤ cmp x p := by
  induction turns generalizing low middle high with
  | zero => omega
  | succ turns ih =>
    obtain ⟨run, rest, rfl, inside, stops⟩ := split_first (fun x => cmp x p < 0) middle
    obtain ⟨ahead, back, rfl, outside, stays⟩ := split_last (fun x => cmp x p > 0) rest
    have lower : ∀ x ∈ low ++ run, cmp x p ≤ 0 := fun x member =>
      (List.mem_append.mp member).elim (below x) fun late => Int.le_of_lt (inside x late)
    have upper : ∀ x ∈ back ++ high, 0 ≤ cmp x p := fun x member =>
      (List.mem_append.mp member).elim (fun early => Int.le_of_lt (outside x early)) (above x)
    have pi := rising cmp low inside stops above
    have pj := falling cmp high outside stays lower
    rcases ahead with _ | ⟨x, ahead⟩
    · rw [scans]
      simp only [pi, pj]
      rw [List.length_nil, Nat.add_zero, if_pos (by omega)]
      exact ⟨low ++ run, back ++ high, by simp, by simp, lower, upper⟩
    · have first : 0 ≤ cmp x p := by
        have := stops x rfl
        omega
      have upper' : ∀ z ∈ x :: (back ++ high), 0 ≤ cmp z p := fun z member =>
        (List.mem_cons.mp member).elim (fun same => same ▸ first) (upper z)
      rcases List.eq_nil_or_concat ahead with rfl | ⟨between, y, rfl⟩
      · obtain ⟨turns, rfl⟩ : ∃ n, turns = n + 1 := by
          refine ⟨turns - 1, ?_⟩
          simp only [List.length_append, List.length_cons] at enough
          omega
        have met := scans_met cmp p (x := x) turns lower upper
        have same : low ++ (run ++ ([x] ++ back) ++ high) = low ++ run ++ x :: (back ++ high) := by simp
        rw [List.length_append] at met
        rw [scans]
        simp only [pi, pj]
        rw [if_neg (by simp), List.length_singleton, swap_self, same, met]
        exact ⟨low ++ run, x :: (back ++ high), by rw [List.length_append], .refl _, lower, upper'⟩
      · rw [List.concat_eq_append] at *
        have last : cmp y p ≤ 0 := by
          have := stays y (by rw [← List.cons_append, List.getLast?_concat]; rfl)
          omega
        have lower' : ∀ z ∈ low ++ run ++ [y], cmp z p ≤ 0 := fun z member =>
          (List.mem_append.mp member).elim (lower z) fun late => List.mem_singleton.mp late ▸ last
        obtain ⟨low', high', result, perm, less, greater⟩ := ih (low ++ run ++ [y]) between (x :: (back ++ high)) (by
          simp only [List.length_append, List.length_cons] at enough
          omega) lower' upper'
        refine ⟨low', high', ?_, perm.trans ?_, less, greater⟩
        · rw [scans_exchanged cmp turns pi pj, result]
        · have before : low ++ (run ++ (x :: (between ++ [y]) ++ back) ++ high) = low ++ run ++ x :: (between ++ y :: (back ++ high)) := by simp
          have after : (low ++ run ++ [y]) ++ (between ++ x :: (back ++ high)) = low ++ run ++ y :: (between ++ x :: (back ++ high)) := by simp
          rw [before, after]
          exact (exchange_perm x y between (back ++ high)).append_left (low ++ run)

end Scans

section Sorted

variable {cmp : α → α → Int}

/-- The pivot may be any element. -/
theorem partition_at (cmp : α → α → Int) {a : List α} (long : a.length > 1) (chosen : Nat) :
    ∃ before p after a' pj, scans cmp a.length (swap a 0 chosen) 0 a.length = (a', pj) ∧ (swap a' 0 pj).take pj = before ∧
      ((swap a' 0 pj).drop pj).take 1 = [p] ∧ (swap a' 0 pj).drop (pj + 1) = after ∧ (before ++ p :: after).Perm a ∧
      (∀ x ∈ before, cmp x p ≤ 0) ∧ ∀ x ∈ after, 0 ≤ cmp x p := by
  have moved := swap_perm a chosen
  have size := moved.length_eq
  rw [← size]
  cases front : swap a 0 chosen with
  | nil =>
    rw [front, List.length_nil] at size
    omega
  | cons p rest =>
    obtain ⟨low, high, result, perm, below, above⟩ :=
      scans_spec cmp p (rest.length + 1) [] rest [] (by omega)
        (by simp) (by simp)
    simp only [List.nil_append, List.append_nil, List.length_nil, Nat.zero_add] at result perm
    rw [front] at moved
    have whole := (perm.cons p).trans moved
    rcases List.eq_nil_or_concat low with rfl | ⟨start, z, rfl⟩
    · refine ⟨[], p, high, _, _, result, ?_, ?_, ?_, whole, by simp, above⟩ <;> rw [List.length_nil, swap_self] <;> rfl
    · have placed := swap_front p z start high
      have shape : start.concat z ++ high = start ++ z :: high := by simp
      have index : (start.concat z).length = (z :: start).length := by simp
      refine ⟨z :: start, p, high, _, _, result, ?_, ?_, ?_, ?_, ?_, above⟩
      · rw [shape, List.length_concat, placed]
        simp
      · rw [shape, List.length_concat, placed]
        simp
      · rw [shape, List.length_concat, placed]
        simp
      · rw [shape] at whole
        exact (exchange_perm p z start high).trans whole
      · intro x member
        exact below x (by simpa using (List.mem_cons.mp member).symm)

theorem partition_spec (cmp : α → α → Int) {a : List α} (long : a.length > 1) :
    ∃ before p after, partition cmp a = (before, [p], after) ∧ (before ++ p :: after).Perm a ∧
      (∀ x ∈ before, cmp x p ≤ 0) ∧ ∀ x ∈ after, 0 ≤ cmp x p := by
  obtain ⟨before, p, after, a', pj, run, first, middle, last, rest⟩ :=
    partition_at cmp long (if a.length > 10 then pivot cmp a a.length else a.length / 2)
  refine ⟨before, p, after, ?_, rest⟩
  simp only [partition, run, first, middle, last]

theorem qsorts_perm (depth : Nat) (a : List α) : (qsorts cmp depth a).Perm a := by
  induction depth generalizing a with
  | zero => exact .refl _
  | succ depth ih =>
    rw [qsorts]
    split
    next long =>
      obtain ⟨before, p, after, parts, perm, _, _⟩ := partition_spec cmp long
      rw [parts]
      simp only [List.append_assoc, List.singleton_append]
      exact (((ih before).append ((ih after).cons p))).trans perm
    next => exact .refl _

/-- The pairs that the comparisons with the pivots put in order, the lower first. -/
def decided (cmp : α → α → Int) : Nat → List α → List (α × α)
  | 0, _ => []
  | depth + 1, a =>
      if a.length > 1 then
        let (before, p, after) := partition cmp a
        before ×ˢ p ++ p ×ˢ after ++ decided cmp depth before ++ decided cmp depth after
      else []

/-- Each of these pairs was put in order by a comparison. -/
theorem decided_compared {depth : Nat} {a : List α} {x y : α} (member : (x, y) ∈ decided cmp depth a) :
    x ∈ a ∧ y ∈ a ∧ (cmp x y ≤ 0 ∨ 0 ≤ cmp y x) := by
  induction depth generalizing a with
  | zero => cases member
  | succ depth ih =>
    rw [decided] at member
    split at member
    next long =>
      obtain ⟨before, p, after, parts, perm, below, above⟩ := partition_spec cmp long
      rw [parts] at member
      have inside {x : α} (among : x ∈ before ++ p :: after) : x ∈ a := perm.mem_iff.mp among
      simp only [List.mem_append, List.mem_product, List.mem_singleton] at member
      rcases member with ((⟨first, second⟩ | ⟨first, second⟩) | left) | right
      · rw [second]
        exact ⟨inside (by simp [first]), inside (by simp), .inl (below _ first)⟩
      · rw [first]
        exact ⟨inside (by simp), inside (by simp [second]), .inr (above _ second)⟩
      · obtain ⟨one, two, compared⟩ := ih left
        exact ⟨inside (by simp [one]), inside (by simp [two]), compared⟩
      · obtain ⟨one, two, compared⟩ := ih right
        exact ⟨inside (by simp [one]), inside (by simp [two]), compared⟩
    next => cases member

/-- The array ends in order exactly when every pair put in order by a comparison with
a pivot belongs in that order. -/
theorem qsorts_sorted_iff {r : α → α → Prop} (trans : ∀ {x y z}, r x y → r y z → r x z) {depth : Nat} {a : List α}
    (enough : a.length ≤ depth) : (qsorts cmp depth a).Pairwise r ↔ ∀ x y, (x, y) ∈ decided cmp depth a → r x y := by
  induction depth generalizing a with
  | zero =>
    obtain rfl := List.eq_nil_of_length_eq_zero (Nat.le_zero.mp enough)
    simp [qsorts, decided]
  | succ depth ih =>
    rw [qsorts, decided]
    by_cases long : a.length > 1
    · obtain ⟨before, p, after, parts, perm, _, _⟩ := partition_spec cmp long
      have size := perm.length_eq
      simp only [List.length_append, List.length_cons] at size
      rw [if_pos long, if_pos long, parts]
      simp only [List.append_assoc, List.singleton_append, List.mem_append, List.mem_product, List.mem_singleton]
      rw [List.pairwise_append, List.pairwise_cons, @ih before (by omega), @ih after (by omega)]
      have left {x : α} : x ∈ qsorts cmp depth before ↔ x ∈ before := (qsorts_perm depth before).mem_iff
      have right {x : α} : x ∈ qsorts cmp depth after ↔ x ∈ after := (qsorts_perm depth after).mem_iff
      simp only [List.mem_cons, left, right]
      constructor
      · rintro ⟨first, ⟨greater, second⟩, across⟩ x y (⟨one, rfl⟩ | ⟨rfl, two⟩ | one | two)
        · exact across x one y (.inl rfl)
        · exact greater y two
        · exact first x y one
        · exact second x y two
      · intro all
        refine ⟨fun x y member => all x y (.inr (.inr (.inl member))),
          ⟨fun y member => all p y (.inr (.inl ⟨rfl, member⟩)), fun x y member => all x y (.inr (.inr (.inr member)))⟩, ?_⟩
        rintro x less y (rfl | greater)
        · exact all x y (.inl ⟨less, rfl⟩)
        · exact trans (all x p (.inl ⟨less, rfl⟩)) (all p y (.inr (.inl ⟨rfl, greater⟩)))
    · rw [if_neg long, if_neg long]
      have short : a.length ≤ 1 := by omega
      match a, short with
      | [], _ => simp
      | [x], _ => simp

end Sorted

/-! Sorting the images of an array. -/

section Images

variable {β : Type} {f : α → β} {cmp : α → α → Int} {cmp' : β → β → Int}

theorem swap_map (f : α → β) (a : List α) (i j : Nat) : swap (a.map f) i j = (swap a i j).map f := by
  simp only [swap, List.getElem?_map]
  cases a[i]? with
  | none => rfl
  | some x =>
    cases a[j]? with
    | none => rfl
    | some y => simp [List.map_set]

theorem cmpAt_map (same : ∀ x y, cmp' (f x) (f y) = cmp x y) (a : List α) (i j : Nat) :
    cmpAt cmp' (a.map f) i j = cmpAt cmp a i j := by
  simp only [cmpAt, List.getElem?_map]
  cases a[i]? with
  | none => rfl
  | some x =>
    cases a[j]? with
    | none => rfl
    | some y => exact same x y

theorem up_map (same : ∀ x y, cmp' (f x) (f y) = cmp x y) (a : List α) (left pi : Nat) :
    up cmp' (a.map f) left pi = up cmp a left pi := by
  induction left generalizing pi with
  | zero => rfl
  | succ left ih => rw [up, up, cmpAt_map same, ih]

theorem down_map (same : ∀ x y, cmp' (f x) (f y) = cmp x y) (a : List α) (pj : Nat) :
    down cmp' (a.map f) pj = down cmp a pj := by
  induction pj with
  | zero => rfl
  | succ pj ih => rw [down, down, cmpAt_map same, ih]

theorem scans_map (same : ∀ x y, cmp' (f x) (f y) = cmp x y) (turns : Nat) (a : List α) (pi pj : Nat) :
    scans cmp' turns (a.map f) pi pj = ((scans cmp turns a pi pj).1.map f, (scans cmp turns a pi pj).2) := by
  induction turns generalizing a pi pj with
  | zero => rfl
  | succ turns ih =>
    simp only [scans, up_map same, down_map same, List.length_map, swap_map, ih]
    split_ifs <;> rfl

theorem partition_map (same : ∀ x y, cmp' (f x) (f y) = cmp x y) (a : List α) :
    partition cmp' (a.map f) = ((partition cmp a).1.map f, (partition cmp a).2.1.map f, (partition cmp a).2.2.map f) := by
  simp only [partition, pivot, cmpAt_map same, List.length_map, swap_map, scans_map same, List.map_take, List.map_drop]

theorem qsorts_map (same : ∀ x y, cmp' (f x) (f y) = cmp x y) (depth : Nat) (a : List α) :
    qsorts cmp' depth (a.map f) = (qsorts cmp depth a).map f := by
  induction depth generalizing a with
  | zero => rfl
  | succ depth ih =>
    simp only [qsorts, partition_map same, List.length_map, ih]
    split_ifs <;> simp

/-- Elements that compare like their images are sorted like them. -/
theorem qsort_map {a : List α} (same : ∀ x ∈ a, ∀ y ∈ a, cmp' (f x) (f y) = cmp x y) :
    qsort cmp' (a.map f) = (qsort cmp a).map f := by
  have members : qsort cmp a = (qsort (fun x y => cmp x.1 y.1) a.attach).map Subtype.val := by
    rw [qsort, qsort, List.length_attach]
    refine Eq.trans ?_ (qsorts_map (fun _ _ => rfl) a.length a.attach)
    rw [List.attach_map_subtype_val]
  have elements : a.map f = a.attach.map fun x => f x.1 := by
    conv_lhs => rw [← List.attach_map_subtype_val a, List.map_map]
    rfl
  have images : qsort cmp' (a.map f) = (qsort (fun x y => cmp x.1 y.1) a.attach).map fun x => f x.1 := by
    rw [qsort, qsort, List.length_map, List.length_attach, elements]
    exact qsorts_map (fun x y => same x.1 x.2 y.1 y.2) _ _
  rw [members, images, List.map_map]
  rfl

end Images
end Goken.Proofs.Qsort
