import Goken.Proofs.Nextchain
import Goken.Proofs.Qsort
import Goken.Lib.PrefixCode
import Mathlib.Data.List.Nodup
import Mathlib.Data.List.Sort

/-! The code lengths that `mkprecode` assigns are those of the package merge. -/

namespace Goken.Proofs.Precode
open Goken.Precode Lib.PackageMerge Lib.PrefixCode Nextchain

/-! `leafsort`. -/

theorem leafcmp_le {x y : Leaf} (le : leafcmp x y ≤ 0) : x.leafcount ≤ y.leafcount := by
  unfold leafcmp at le
  split_ifs at le <;> omega

theorem le_leafcmp {x y : Leaf} (le : 0 ≤ leafcmp x y) : y.leafcount ≤ x.leafcount := by
  unfold leafcmp at le
  split_ifs at le <;> omega

theorem partition_spec {a : List Leaf} (long : a.length > 1) :
    ∃ before p after, partition a = (before, [p], after) ∧ (before ++ p :: after).Perm a ∧
      (∀ x ∈ before, x.leafcount ≤ p.leafcount) ∧ ∀ x ∈ after, p.leafcount ≤ x.leafcount := by
  obtain ⟨before, p, after, a', pj, run, first, middle, last, perm, below, above⟩ :=
    Qsort.partition_at leafcmp long (if a.length > 10 then Goken.Qsort.pivot countcmp a a.length else a.length / 2)
  refine ⟨before, p, after, ?_, perm, fun x member => leafcmp_le (below x member), fun x member => le_leafcmp (above x member)⟩
  simp only [partition, run, first, middle, last]

theorem leafsorts_spec {depth : ℕ} {a : List Leaf} (enough : a.length ≤ depth) :
    (leafsorts depth a).Perm a ∧ (leafsorts depth a).Pairwise fun x y => x.leafcount ≤ y.leafcount := by
  induction depth generalizing a with
  | zero =>
    obtain rfl := List.eq_nil_of_length_eq_zero (Nat.le_zero.mp enough)
    exact ⟨.refl _, .nil⟩
  | succ depth ih =>
    rw [leafsorts]
    by_cases long : a.length > 1
    · obtain ⟨before, p, after, parts, perm, below, above⟩ := partition_spec long
      have size := perm.length_eq
      simp only [List.length_append, List.length_cons] at size
      obtain ⟨left, less⟩ := ih (a := before) (by omega)
      obtain ⟨right, more⟩ := ih (a := after) (by omega)
      rw [if_pos long, parts]
      simp only [List.append_assoc, List.singleton_append]
      refine ⟨(left.append (right.cons p)).trans perm, ?_⟩
      rw [List.pairwise_append, List.pairwise_cons]
      refine ⟨less, ⟨fun x member => above x (right.mem_iff.mp member), more⟩, fun x early y late => ?_⟩
      have first := below x (left.mem_iff.mp early)
      rcases List.mem_cons.mp late with rfl | behind
      · exact first
      · exact first.trans (above y (right.mem_iff.mp behind))
    · rw [if_neg long]
      refine ⟨.refl _, ?_⟩
      match a, Nat.le_of_not_lt long with
      | [], _ => exact .nil
      | [x], _ => exact List.pairwise_singleton _ _

theorem leafsort_perm (a : List Leaf) : (leafsort a).Perm a := (leafsorts_spec (Nat.le_refl _)).1

theorem leafsort_sorted (a : List Leaf) : (leafsort a).Pairwise fun x y => x.leafcount ≤ y.leafcount :=
  (leafsorts_spec (Nat.le_refl _)).2

/-! The leaves. -/

theorem gather_mem {count : List ℕ} {i : ℕ} (small : i + count.length ≤ 65536) {leaf : Leaf} :
    leaf ∈ gather count i ↔ leaf.leafcount ≠ 0 ∧ ∃ k, leaf.leafmap = i + k ∧ count[k]? = some leaf.leafcount := by
  induction count generalizing i with
  | nil => simp [gather]
  | cons c count ih =>
    rw [List.length_cons] at small
    have short : Deflate.ushort (i : ℤ) = i := by
      unfold Deflate.ushort
      omega
    have rest := ih (i := i + 1) (by omega)
    have split : (∃ k, leaf.leafmap = i + k ∧ (c :: count)[k]? = some leaf.leafcount) ↔
        leaf.leafmap = i ∧ c = leaf.leafcount ∨ ∃ k, leaf.leafmap = i + 1 + k ∧ count[k]? = some leaf.leafcount := by
      constructor
      · rintro ⟨_ | k, place, value⟩
        · exact .inl ⟨place, by simpa using value⟩
        · exact .inr ⟨k, by omega, by simpa using value⟩
      · rintro (⟨place, rfl⟩ | ⟨k, place, value⟩)
        · exact ⟨0, place, rfl⟩
        · exact ⟨k + 1, by omega, by simpa using value⟩
    rw [gather, split]
    by_cases used : c ≠ 0
    · rw [if_pos used, List.mem_cons, rest, short]
      constructor
      · rintro (rfl | ⟨nonzero, more⟩)
        · exact ⟨used, .inl ⟨rfl, rfl⟩⟩
        · exact ⟨nonzero, .inr more⟩
      · rintro ⟨nonzero, ⟨place, rfl⟩ | more⟩
        · exact .inl (by cases leaf; simp_all)
        · exact .inr ⟨nonzero, more⟩
    · rw [if_neg used, rest]
      constructor
      · rintro ⟨nonzero, more⟩
        exact ⟨nonzero, .inr more⟩
      · rintro ⟨nonzero, ⟨_, rfl⟩ | more⟩
        · exact absurd nonzero used
        · exact ⟨nonzero, more⟩

theorem gather_nodup {count : List ℕ} {i : ℕ} (small : i + count.length ≤ 65536) :
    ((gather count i).map Leaf.leafmap).Nodup := by
  induction count generalizing i with
  | nil => exact List.nodup_nil
  | cons c count ih =>
    rw [List.length_cons] at small
    have rest := ih (i := i + 1) (by omega)
    rw [gather]
    split
    · rw [List.map_cons, List.nodup_cons]
      refine ⟨fun member => ?_, rest⟩
      obtain ⟨leaf, inside, same⟩ := List.mem_map.mp member
      obtain ⟨_, k, place, _⟩ := (gather_mem (by omega)).mp inside
      have short : Deflate.ushort (i : ℤ) = i := by
        unfold Deflate.ushort
        omega
      simp only [short] at same
      omega
    · exact rest

theorem gather_sum (count : List ℕ) (i : ℕ) : ((gather count i).map Leaf.leafcount).sum = count.sum := by
  induction count generalizing i with
  | nil => rfl
  | cons c count ih =>
    rw [gather]
    split
    next => simp [ih]
    next unused => simp [ih, not_not.mp unused]

theorem recount_spec {count : List ℕ} {leaves : List Leaf}
    (inside : ∀ leaf ∈ leaves, count[leaf.leafmap]? = some leaf.leafcount) :
    recount count leaves = .ok (leaves.map Leaf.leafcount) := by
  induction leaves with
  | nil => rfl
  | cons leaf leaves ih =>
    rw [recount, ih fun leaf member => inside leaf (List.mem_cons_of_mem _ member), Deflate.entry, inside leaf List.mem_cons_self]
    rfl

/-! `tally`. -/

section Tally

variable {n : ℕ} {w : ℕ → ℕ}

/-- How many leaves there are `i` levels below the highest of `h`. -/
def share (n : ℕ) (w : ℕ → ℕ) (h t i : ℕ) : ℕ :=
  match h with
  | 0 => 0
  | j + 1 => cut n w j t i

theorem cut_none (j i : ℕ) : cut n w j 0 i = 0 := by
  induction j generalizing i with
  | zero => cases i <;> rfl
  | succ j ih =>
    have none : leaves n w (j + 1) 0 = 0 := rfl
    cases i with
    | zero => rfl
    | succ i =>
      rw [cut, none]
      exact ih i

/-- The leaves of more than so many bits, of which there are `m` at the start. -/
def beyond (m : ℕ) (f : ℕ → ℕ) : ℕ → ℕ
  | 0 => m
  | i + 1 => f i

theorem tally_spec {live : Fin ChainMem → Prop} {chains : Pool} {U h t : ℕ} {x : Option (Fin ChainMem)}
    (stands : Stands n w live chains h t x) (rounds bits : ℕ) {m : ℕ} {bitcount : ℕ → ℕ} (enough : h ≤ rounds)
    (room : bits + h < MaxHuffBits) (held : bitcount bits = m) (small : m < 2 ^ U)
    (down : ∀ i, beyond m (share n w h t) (i + 1) ≤ beyond m (share n w h t) i) :
    ∃ k bitcount', tally U chains rounds x bitcount bits = .ok (bitcount', bits + k) ∧ k ≤ h ∧
      (∀ i < bits, bitcount' i = bitcount i) ∧
      (∀ i ≤ k, bitcount' (bits + i) = beyond m (share n w h t) i - beyond m (share n w h t) (i + 1)) ∧
      ∀ i, k ≤ i → share n w h t i = 0 := by
  induction stands generalizing rounds bits m bitcount with
  | nil h =>
    have none (i : ℕ) : share n w h 0 i = 0 := by
      cases h with
      | zero => rfl
      | succ j => exact cut_none j i
    refine ⟨0, bitcount, by cases rounds <;> rfl, Nat.zero_le _, fun _ _ => rfl, fun i le => ?_, fun i _ => none i⟩
    obtain rfl := Nat.le_zero.mp le
    rw [beyond, beyond, none]
    exact held
  | @item j t p _ count leaf up ih =>
    obtain ⟨rounds, rfl⟩ : ∃ r, rounds = r + 1 := ⟨rounds - 1, by omega⟩
    have first : share n w (j + 1) (t + 1) 0 = leaves n w j (t + 1) := cut_zero j (t + 1)
    have tail (i : ℕ) : share n w j (2 * (t + 1 - leaves n w j (t + 1))) i = share n w (j + 1) (t + 1) (i + 1) := by
      cases j with
      | zero => rfl
      | succ j => rfl
    have same (i : ℕ) : beyond (leaves n w j (t + 1)) (share n w j (2 * (t + 1 - leaves n w j (t + 1)))) i =
        beyond m (share n w (j + 1) (t + 1)) (i + 1) := by
      cases i with
      | zero => exact first.symm
      | succ i => exact tail i
    have most : leaves n w j (t + 1) ≤ m := first ▸ down 0
    have less : ulong U (m - leaves n w j (t + 1) : ℤ) = m - leaves n w j (t + 1) := by
      rw [← Nat.cast_sub most]
      exact ulong_small (by omega)
    have written : Function.update (Function.update bitcount bits (ulong U (bitcount bits - (chains p).leaf : ℤ))) (bits + 1)
        (chains p).leaf (bits + 1) = leaves n w j (t + 1) := by rw [Function.update_self, leaf]
    obtain ⟨k, bitcount', run, few, before, values, zeros⟩ := ih rounds (bits + 1) (by omega) (by omega) written
      (Nat.lt_of_le_of_lt most small) (fun i => by rw [same, same]; exact down (i + 1))
    refine ⟨k + 1, bitcount', ?_, by omega, fun i early => ?_, fun i le => ?_, fun i late => ?_⟩
    · rw [tally, if_pos (by omega), run, Nat.add_assoc, Nat.add_comm 1 k]
    · rw [before i (by omega), Function.update_of_ne (by omega), Function.update_of_ne (by omega)]
    · cases i with
      | zero =>
        rw [Nat.add_zero, before bits (by omega), Function.update_of_ne (by omega), Function.update_self, held, leaf, less]
        rw [beyond, beyond, first]
      | succ i =>
        have value := values i (by omega)
        rw [same, same, Nat.add_assoc, Nat.add_comm 1 i] at value
        exact value
    · obtain ⟨i, rfl⟩ : ∃ e, i = e + 1 := ⟨i - 1, by omega⟩
      rw [← tail]
      exact zeros i (by omega)

end Tally

/-! `assigns`. -/

section Assign

/-- The first `m` leaves have their lengths, and no other symbol has one. -/
def Assigned (length : ℕ → ℕ) (count leafmap : List ℕ) (m : ℕ) (tab : List Huff) : Prop :=
  ∀ i, tab[i]? = count[i]?.map fun _ => Huff.mk (if i ∈ leafmap.take m then (length (leafmap.idxOf i) : ℤ) else -1) 0

variable {count leafmap : List ℕ} {length : ℕ → ℕ} (nodup : leafmap.Nodup) (inside : ∀ i ∈ leafmap, i < count.length)

include nodup inside

theorem assign_spec {i k m : ℕ} {tab : List Huff} (done : Assigned length count leafmap m tab) (room : m + k ≤ leafmap.length)
    (lengths : ∀ s, m ≤ s → s < m + k → length s = i) :
    ∃ tab', assign leafmap i k m tab = .ok tab' ∧ Assigned length count leafmap (m + k) tab' := by
  induction k generalizing m tab with
  | zero => exact ⟨tab, rfl, done⟩
  | succ k ih =>
    have here : m < leafmap.length := by omega
    have place : leafmap.idxOf leafmap[m] = m := nodup.idxOf_getElem m here
    have fits := inside leafmap[m] (List.getElem_mem here)
    have entry : tab[leafmap[m]]? = some ⟨if leafmap[m] ∈ leafmap.take m then (length (leafmap.idxOf leafmap[m]) : ℤ) else -1, 0⟩ := by
      rw [done, List.getElem?_eq_getElem fits]
      rfl
    have next : Assigned length count leafmap (m + 1) (tab.set leafmap[m] ⟨i, 0⟩) := by
      intro s
      rw [List.take_succ_eq_append_getElem here]
      simp only [List.mem_append, List.mem_singleton]
      by_cases same : leafmap[m] = s
      · subst same
        rw [List.getElem?_set_self (List.getElem?_eq_some_iff.mp entry).1, List.getElem?_eq_getElem fits, place,
          lengths m (Nat.le_refl m) (by omega)]
        simp
      · rw [List.getElem?_set_ne same, done s]
        simp [Ne.symm same]
    obtain ⟨tab', run, rest⟩ := ih next (by omega) fun s low high => lengths s (by omega) (by omega)
    refine ⟨tab', ?_, by rw [show m + (k + 1) = m + 1 + k by omega]; exact rest⟩
    rw [assign, Deflate.entry, List.getElem?_eq_getElem here]
    simp only [bind, Except.bind, setbits, entry]
    exact run

/-- The lengths go down from `i`, each to the leaves that have it. -/
theorem assigns_spec {beyond bitcount : ℕ → ℕ} (down : ∀ i, beyond (i + 1) ≤ beyond i) (all : beyond 0 = leafmap.length)
    (lengths : ∀ s i, s < beyond i ↔ s < leafmap.length ∧ i ≤ length s) {i : ℕ} {tab : List Huff}
    (counts : ∀ b ≤ i, bitcount b = beyond b - beyond (b + 1)) (done : Assigned length count leafmap (beyond (i + 1)) tab) :
    ∃ tab', assigns leafmap bitcount i (beyond (i + 1)) tab = .ok tab' ∧ Assigned length count leafmap leafmap.length tab' := by
  have most (i : ℕ) : beyond i ≤ leafmap.length := by
    induction i with
    | zero => exact all.le
    | succ i ih => exact (down i).trans ih
  have exact_ (i : ℕ) (s : ℕ) (low : beyond (i + 1) ≤ s) (high : s < beyond (i + 1) + (beyond i - beyond (i + 1))) : length s = i := by
    have := (lengths s i).mp (by have := down i; omega)
    have : ¬i + 1 ≤ length s := fun more => absurd ((lengths s (i + 1)).mpr ⟨this.1, more⟩) (by omega)
    omega
  have sum (i : ℕ) : beyond (i + 1) + (beyond i - beyond (i + 1)) = beyond i := Nat.add_sub_of_le (down i)
  induction i generalizing tab with
  | zero =>
    rw [assigns, counts 0 (Nat.le_refl 0)]
    obtain ⟨tab', run, rest⟩ := assign_spec nodup inside done (by rw [sum]; exact most 0) (exact_ 0)
    rw [sum, all] at rest
    exact ⟨tab', run, rest⟩
  | succ i ih =>
    rw [assigns, counts (i + 1) (Nat.le_refl _)]
    obtain ⟨tab₁, run, rest⟩ := assign_spec nodup inside done (by rw [sum]; exact most _) (exact_ (i + 1))
    rw [sum] at rest
    obtain ⟨tab', later, finished⟩ := ih (fun b le => counts b (by omega)) rest
    refine ⟨tab', ?_, finished⟩
    rw [run, sum]
    exact later

end Assign

/-! `mkprecode`. -/

/-- The symbols with a count. -/
def used (count : List ℕ) : Finset ℕ := {i ∈ Finset.range count.length | count.getD i 0 ≠ 0}

/-- The leaves, sorted. -/
structure Leaves (count : List ℕ) (sorted : List Leaf) : Prop where
  entries : ∀ leaf ∈ sorted, count[leaf.leafmap]? = some leaf.leafcount
  positive : ∀ leaf ∈ sorted, 0 < leaf.leafcount
  nodup : (sorted.map Leaf.leafmap).Nodup
  symbols : (sorted.map Leaf.leafmap).toFinset = used count
  ascending : sorted.Pairwise fun x y => x.leafcount ≤ y.leafcount
  total : (sorted.map Leaf.leafcount).sum = count.sum

theorem leaves_sorted {count : List ℕ} (small : count.length ≤ 65536) : Leaves count (leafsort (gather count 0)) := by
  have perm := leafsort_perm (gather count 0)
  have mem (leaf : Leaf) : leaf ∈ leafsort (gather count 0) ↔ leaf.leafcount ≠ 0 ∧ count[leaf.leafmap]? = some leaf.leafcount := by
    rw [perm.mem_iff, gather_mem (by omega)]
    simp
  refine ⟨fun leaf member => ((mem leaf).mp member).2, fun leaf member => Nat.pos_of_ne_zero ((mem leaf).mp member).1, ?_, ?_,
    leafsort_sorted _, ?_⟩
  · exact (perm.map Leaf.leafmap).nodup_iff.mpr (gather_nodup (by omega))
  · ext i
    simp only [List.mem_toFinset, List.mem_map, mem, used, Finset.mem_filter, Finset.mem_range]
    constructor
    · rintro ⟨leaf, ⟨nonzero, found⟩, rfl⟩
      obtain ⟨fits, value⟩ := List.getElem?_eq_some_iff.mp found
      exact ⟨fits, by rw [List.getD_eq_getElem?_getD, found]; exact nonzero⟩
    · rintro ⟨fits, nonzero⟩
      rw [List.getD_eq_getElem _ _ fits] at nonzero
      exact ⟨⟨count[i], i⟩, ⟨nonzero, List.getElem?_eq_getElem fits⟩, rfl⟩
  · rw [(perm.map Leaf.leafcount).sum_eq, gather_sum]

section Sorted

variable {count : List ℕ} {sorted : List Leaf} (leaves : Leaves count sorted)

theorem sum_getD (l : List ℕ) (g : ℕ → ℕ) : (l.map g).sum = ∑ s ∈ Finset.range l.length, g (l.getD s 0) := by
  induction l with
  | nil => rfl
  | cons a l ih =>
    rw [List.map_cons, List.sum_cons, List.length_cons, Finset.sum_range_succ', ih, Nat.add_comm]
    rfl

include leaves

/-- A sum by symbols is a sum by leaves. -/
theorem Leaves.sum (g : ℕ → ℕ) :
    ∑ i ∈ used count, g i = ∑ s ∈ Finset.range sorted.length, g ((sorted.map Leaf.leafmap).getD s 0) := by
  rw [← leaves.symbols, List.sum_toFinset _ leaves.nodup, sum_getD, List.length_map]

theorem Leaves.card : (used count).card = sorted.length := by
  rw [← leaves.symbols, List.toFinset_card_of_nodup leaves.nodup, List.length_map]

theorem Leaves.leafcount {s : ℕ} (inside : s < sorted.length) :
    count.getD ((sorted.map Leaf.leafmap).getD s 0) 0 = (sorted.map Leaf.leafcount).getD s 0 := by
  have found := leaves.entries _ (List.getElem_mem inside)
  simp [List.getD_eq_getElem?_getD, List.getElem?_eq_getElem inside, found]

theorem Leaves.pos {s : ℕ} (inside : s < (sorted.map Leaf.leafcount).length) : 0 < (sorted.map Leaf.leafcount).getD s 0 := by
  rw [List.getD_eq_getElem _ _ inside, List.getElem_map]
  exact leaves.positive _ (List.getElem_mem _)

theorem Leaves.mono : MonotoneOn ((sorted.map Leaf.leafcount).getD · 0) (Set.Iio (sorted.map Leaf.leafcount).length) := by
  intro s first t second le
  simp only [Set.mem_Iio] at first second
  simp only [List.getD_eq_getElem _ _ first, List.getD_eq_getElem _ _ second, List.getElem_map]
  rcases Nat.lt_or_eq_of_le le with less | rfl
  · exact List.pairwise_iff_getElem.mp leaves.ascending s t _ _ less
  · exact Nat.le_refl _

theorem Leaves.weight : weight ((sorted.map Leaf.leafcount).getD · 0) (sorted.map Leaf.leafcount).length = count.sum := by
  rw [← leaves.total, Lib.PackageMerge.weight]
  exact (by simpa using sum_getD (sorted.map Leaf.leafcount) id : _ = _).symm

end Sorted

/-- The lengths of a complete prefix code for the used symbols, of which no code with the
limit has a smaller total. -/
structure Best (count : List ℕ) (limit : ℕ) (length : ℕ → ℕ) : Prop where
  positive : ∀ i ∈ used count, 0 < length i
  short : ∀ i ∈ used count, length i ≤ limit
  kraft : ∑ i ∈ used count, 2 ^ (limit - length i) = 2 ^ limit
  least : ∀ word : ℕ → List Bool, PrefixFree (used count : Set ℕ) word → (∀ i ∈ used count, (word i).length ≤ limit) →
    ∑ i ∈ used count, count.getD i 0 * length i ≤ ∑ i ∈ used count, count.getD i 0 * (word i).length

/-- What `mkprecode` writes for the lengths. -/
structure Coded (count : List ℕ) (limit : ℕ) (length : ℕ → ℕ) (l : Lengths) : Prop where
  tab : ∀ i, l.tab[i]? = count[i]?.map fun _ => Huff.mk (if i ∈ used count then (length i : ℤ) else -1) 0
  bits : l.bits ≤ limit
  longest : ∀ i ∈ used count, length i ≤ l.bits
  bitcount : ∀ b ≤ l.bits, l.bitcount b = (Finset.filter (length · = b) (used count)).card

/-- The length of a symbol's code: its leaf's. -/
def symbolLength (sorted : List Leaf) (maxbits i : ℕ) : ℕ :=
  codeLength (sorted.map Leaf.leafcount).length ((sorted.map Leaf.leafcount).getD · 0) (maxbits - 2) ((sorted.map Leaf.leafmap).idxOf i)

section Code

variable {count : List ℕ} {sorted : List Leaf} {maxbits : ℕ} (leaves : Leaves count sorted) (levels : 2 ≤ maxbits)
  (two : 2 ≤ sorted.length) (fits : sorted.length ≤ 2 ^ (maxbits - 1))

include leaves

theorem symbolLength_leaf {s : ℕ} (inside : s < sorted.length) :
    symbolLength sorted maxbits ((sorted.map Leaf.leafmap).getD s 0) =
      codeLength (sorted.map Leaf.leafcount).length ((sorted.map Leaf.leafcount).getD · 0) (maxbits - 2) s := by
  rw [symbolLength, List.getD_eq_getElem _ _ (by simpa using inside), leaves.nodup.idxOf_getElem]

theorem symbol_leaf {i : ℕ} (member : i ∈ used count) : (sorted.map Leaf.leafmap).idxOf i < (sorted.map Leaf.leafcount).length := by
  rw [← leaves.symbols, List.mem_toFinset] at member
  simpa using List.idxOf_lt_length_of_mem member

include levels two fits

theorem symbolLength_best : Best count (maxbits - 1) (symbolLength sorted maxbits) := by
  obtain ⟨j, rfl⟩ : ∃ j, maxbits = j + 2 := ⟨maxbits - 2, by omega⟩
  have limit : j + 2 - 1 = j + 1 := by omega
  have leaves_ : 2 ≤ (sorted.map Leaf.leafcount).length := by simpa using two
  have room : (sorted.map Leaf.leafcount).length ≤ 2 ^ (j + 1) := by simpa using fits
  have size : (sorted.map Leaf.leafcount).length = sorted.length := List.length_map _
  refine ⟨fun i member => ?_, fun i _ => ?_, ?_, fun word free short => ?_⟩
  · exact codeLength_pos leaves.mono (fun _ => leaves.pos) leaves_ room (symbol_leaf leaves member)
  · exact depth_le _ _ _
  · rw [leaves.sum, limit]
    rw [Finset.sum_congr rfl fun s member => by rw [symbolLength_leaf leaves (Finset.mem_range.mp member)]]
    rw [← size]
    exact codeLength_kraft leaves.mono (fun _ => leaves.pos) leaves_ room
  · have kraft := free.kraft short
    rw [Fintype.card_bool, leaves.sum, limit, ← size] at kraft
    rw [leaves.sum, leaves.sum]
    have short' : ∀ s < (sorted.map Leaf.leafcount).length, (word ((sorted.map Leaf.leafmap).getD s 0)).length ≤ j + 1 := by
      intro s inside
      refine short _ ?_
      rw [← leaves.symbols, List.mem_toFinset, List.getD_eq_getElem _ _ (by simpa using inside)]
      exact List.getElem_mem _
    have least := codeLength_least leaves.mono (fun _ => leaves.pos) leaves_ room short' kraft
    rw [size] at least
    have weighed (f : ℕ → ℕ) (g : ℕ → ℕ) (same : ∀ s < sorted.length, f ((sorted.map Leaf.leafmap).getD s 0) = g s) :
        ∑ s ∈ Finset.range sorted.length, count.getD ((sorted.map Leaf.leafmap).getD s 0) 0 * f ((sorted.map Leaf.leafmap).getD s 0) =
          ∑ s ∈ Finset.range sorted.length, g s • (sorted.map Leaf.leafcount).getD s 0 := by
      refine Finset.sum_congr rfl fun s member => ?_
      have inside := Finset.mem_range.mp member
      rw [leaves.leafcount inside, same s inside, smul_eq_mul, Nat.mul_comm]
    rw [weighed _ _ fun s inside => symbolLength_leaf leaves inside, weighed (fun i => (word i).length) _ fun _ _ => rfl]
    simpa [size] using least

/-- How many leaves have codes of `b` bits and more. -/
theorem lt_beyond (s b : ℕ) :
    s < beyond sorted.length (share (sorted.map Leaf.leafcount).length ((sorted.map Leaf.leafcount).getD · 0) (maxbits - 1)
      (2 * sorted.length - 2)) b ↔ s < sorted.length ∧
        b ≤ codeLength (sorted.map Leaf.leafcount).length ((sorted.map Leaf.leafcount).getD · 0) (maxbits - 2) s := by
  obtain ⟨j, rfl⟩ : ∃ j, maxbits = j + 2 := ⟨maxbits - 2, by omega⟩
  have size : (sorted.map Leaf.leafcount).length = sorted.length := List.length_map _
  have room : (sorted.map Leaf.leafcount).length ≤ 2 ^ (j + 1) := by rw [size]; exact fits
  have positive := fun i => leaves.pos (s := i)
  have down := items_antitone leaves.mono positive (size.symm ▸ two) room
  have all := items_all leaves.mono positive (size.symm ▸ two) room
  cases b with
  | zero => simp [beyond]
  | succ b =>
    have here : beyond sorted.length (share (sorted.map Leaf.leafcount).length ((sorted.map Leaf.leafcount).getD · 0) (j + 2 - 1)
        (2 * sorted.length - 2)) (b + 1) =
        cut (sorted.map Leaf.leafcount).length ((sorted.map Leaf.leafcount).getD · 0) j (2 * sorted.length - 2) b := rfl
    rw [here, show j + 2 - 2 = j from rfl, codeLength, Nat.succ_le_iff, size]
    rw [size] at down all
    by_cases inside : b < j + 1
    · rw [lt_depth down inside]
      have := all b
      omega
    · have none := cut_past (n := sorted.length) (w := ((sorted.map Leaf.leafcount).getD · 0)) (show j < b by omega) (2 * sorted.length - 2)
      have bound := depth_le (j + 1) (cut sorted.length ((sorted.map Leaf.leafcount).getD · 0) j (2 * sorted.length - 2)) s
      omega

theorem beyond_down (b : ℕ) :
    beyond sorted.length (share (sorted.map Leaf.leafcount).length ((sorted.map Leaf.leafcount).getD · 0) (maxbits - 1)
      (2 * sorted.length - 2)) (b + 1) ≤
    beyond sorted.length (share (sorted.map Leaf.leafcount).length ((sorted.map Leaf.leafcount).getD · 0) (maxbits - 1)
      (2 * sorted.length - 2)) b := by
  by_contra more
  have above := (lt_beyond leaves levels two fits _ (b + 1)).mp (Nat.lt_of_not_le more)
  exact absurd ((lt_beyond leaves levels two fits _ b).mpr ⟨above.1, Nat.le_of_succ_le above.2⟩) (Nat.lt_irrefl _)

/-- So many symbols have codes of exactly `b` bits. -/
theorem card_length (b : ℕ) :
    (Finset.filter (symbolLength sorted maxbits · = b) (used count)).card =
      beyond sorted.length (share (sorted.map Leaf.leafcount).length ((sorted.map Leaf.leafcount).getD · 0) (maxbits - 1)
        (2 * sorted.length - 2)) b -
      beyond sorted.length (share (sorted.map Leaf.leafcount).length ((sorted.map Leaf.leafcount).getD · 0) (maxbits - 1)
        (2 * sorted.length - 2)) (b + 1) := by
  have iff_ := lt_beyond leaves levels two fits
  rw [Finset.card_filter, leaves.sum]
  rw [Finset.sum_congr rfl fun s member => by rw [symbolLength_leaf leaves (Finset.mem_range.mp member)]]
  rw [← Finset.card_filter]
  generalize share _ _ _ _ = f at iff_
  have same : Finset.filter (fun s => codeLength (sorted.map Leaf.leafcount).length ((sorted.map Leaf.leafcount).getD · 0) (maxbits - 2) s = b)
      (Finset.range sorted.length) = Finset.range (beyond sorted.length f b) \ Finset.range (beyond sorted.length f (b + 1)) := by
    ext s
    simp only [Finset.mem_filter, Finset.mem_range, Finset.mem_sdiff, iff_]
    omega
  have part : Finset.range (beyond sorted.length f (b + 1)) ⊆ Finset.range (beyond sorted.length f b) := by
    intro s member
    have above := (iff_ s (b + 1)).mp (Finset.mem_range.mp member)
    exact Finset.mem_range.mpr ((iff_ s b).mpr ⟨above.1, Nat.le_of_succ_le above.2⟩)
  rw [same, Finset.card_sdiff_of_subset part, Finset.card_range, Finset.card_range]

end Code

variable {U : ℕ} {count : List ℕ} {maxbits : ℕ}

theorem mkleaves_spec {sorted : List Leaf} (leaves : Leaves count sorted) (wide : 32 ≤ U) (levels : 2 ≤ maxbits)
    (limit : maxbits ≤ MaxHuffBits) (table : sorted.length ≤ MaxLeaf) (two : 2 ≤ sorted.length)
    (fits : sorted.length ≤ 2 ^ (maxbits - 1)) (small : (maxbits - 1) * count.sum < 2 ^ 31) (stack : Pool) (bitcount : ℕ → ℕ)
    {gathered : List Leaf} (sorts : leafsort gathered = sorted) :
    ∃ l, mkleaves U stack gathered (count.map fun _ => ⟨-1, 0⟩) count maxbits bitcount = .ok l ∧
      Coded count (maxbits - 1) (symbolLength sorted maxbits) l := by
  have size : (sorted.map Leaf.leafcount).length = sorted.length := List.length_map _
  have long : (sorted.map Leaf.leafmap).length = sorted.length := List.length_map _
  have large : 2 ^ 32 ≤ 2 ^ U := Nat.pow_le_pow_right (by decide) wide
  have bits16 : MaxHuffBits = 16 := rfl
  obtain ⟨cs, run, stands⟩ := @run_spec U (sorted.map Leaf.leafcount) maxbits stack wide levels limit (size.symm ▸ two) (fun _ => leaves.pos) leaves.mono
    (size.symm ▸ fits) (by rw [leaves.weight]; exact small)
  rw [size] at run stands
  obtain ⟨k, bitcount', tallied, few, _, values, zeros⟩ := tally_spec (U := U) stands ChainMem 0 (by rw [show ChainMem = 480 from rfl]; omega)
    (by omega) (Function.update_self 0 sorted.length bitcount) (by rw [show MaxLeaf = 288 from rfl] at table; omega)
    (by rw [← size]; simpa only [size] using beyond_down leaves levels two fits)
  simp only [Nat.zero_add] at tallied values
  have iff_ := lt_beyond leaves levels two fits
  have down := beyond_down leaves levels two fits
  have cards := card_length leaves levels two fits
  rw [size] at iff_ down cards
  have none : beyond sorted.length (share sorted.length ((sorted.map Leaf.leafcount).getD · 0) (maxbits - 1) (2 * sorted.length - 2)) (k + 1) = 0 :=
    zeros k (Nat.le_refl k)
  have start : Assigned (codeLength sorted.length ((sorted.map Leaf.leafcount).getD · 0) (maxbits - 2)) count (sorted.map Leaf.leafmap)
      (beyond sorted.length (share sorted.length ((sorted.map Leaf.leafcount).getD · 0) (maxbits - 1) (2 * sorted.length - 2)) (k + 1))
      (count.map fun _ => ⟨-1, 0⟩) := by
    intro i
    rw [none, List.getElem?_map, List.take_zero]
    rfl
  have symbols (i : ℕ) (member : i ∈ sorted.map Leaf.leafmap) : i < count.length := by
    have := List.mem_toFinset.mpr member
    rw [leaves.symbols] at this
    exact Finset.mem_range.mp (Finset.mem_filter.mp this).1
  obtain ⟨tab, assigned, done⟩ := assigns_spec leaves.nodup symbols down long.symm (by rw [long]; exact iff_) values start
  rw [none] at assigned
  refine ⟨⟨tab, bitcount', k⟩, ?_, fun i => ?_, few, fun i member => ?_, fun b le => ?_⟩
  · simp only [mkleaves, sorts]
    rw [recount_spec leaves.entries]
    simp only [bind, Except.bind, run, tallied, assigned]
    rfl
  · rw [done i, List.take_length]
    have same : i ∈ sorted.map Leaf.leafmap ↔ i ∈ used count := by rw [← leaves.symbols, List.mem_toFinset]
    simp only [same, symbolLength, size]
  · have inside := symbol_leaf leaves member
    rw [size] at inside
    by_contra more
    have above := (iff_ _ (k + 1)).mpr ⟨inside, Nat.lt_of_not_le (by rw [symbolLength, size] at more; exact more)⟩
    omega
  · rw [cards]
    exact values b le

theorem mkprecode_spec (wide : 32 ≤ U) (levels : 2 ≤ maxbits) (limit : maxbits ≤ MaxHuffBits) (table : count.length ≤ MaxLeaf)
    (two : 2 ≤ (used count).card) (fits : (used count).card ≤ 2 ^ (maxbits - 1)) (small : (maxbits - 1) * count.sum < 2 ^ 31)
    (stack : Pool) (bitcount : ℕ → ℕ) :
    ∃ l length, mkprecode U stack count maxbits bitcount = .ok l ∧ Coded count (maxbits - 1) length l ∧
      Best count (maxbits - 1) length := by
  have places : MaxLeaf = 288 := rfl
  have leaves := @leaves_sorted count (by omega)
  have size := (leafsort_perm (gather count 0)).length_eq
  rw [leaves.card] at two fits
  have most : (leafsort (gather count 0)).length ≤ MaxLeaf := by
    rw [← leaves.card]
    refine (Finset.card_filter_le _ _).trans ?_
    rw [Finset.card_range]
    exact table
  obtain ⟨l, run, coded⟩ := mkleaves_spec leaves wide levels limit most two fits small stack bitcount rfl
  refine ⟨l, _, ?_, coded, symbolLength_best leaves levels two fits⟩
  rw [← run, mkprecode]
  rw [size] at two most
  match gather count 0, two, most with
  | first :: second :: rest, _, most => exact if_pos ⟨most, levels, limit⟩

end Goken.Proofs.Precode
