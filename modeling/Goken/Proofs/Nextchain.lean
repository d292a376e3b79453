import Goken.Precode
import Goken.Lib.PackageMerge
import Mathlib.Data.Fintype.Card
import Mathlib.Algebra.Order.Group.Nat

/-! `nextchain` goes through the items of the package merge. A chain stands for the first
items of its level: it counts the last of them and says how many are leaves, and the chain
above stands for the items of the level below that are in the packages. -/

namespace Goken.Proofs.Nextchain
open Goken.Precode Lib.PackageMerge

abbrev Pool := Fin ChainMem → Chain

variable (n : ℕ) (w : ℕ → ℕ)

/-- The chain, and all above it, are `live` and stand for the first `t` items of the last of
`h` levels. -/
inductive Stands (live : Fin ChainMem → Prop) (chains : Pool) : ℕ → ℕ → Option (Fin ChainMem) → Prop
  | nil (h : ℕ) : Stands live chains h 0 none
  | item {j t : ℕ} {p : Fin ChainMem} (held : live p) (count : (chains p).count = level n w j t)
      (leaf : (chains p).leaf = leaves n w j (t + 1))
      (up : Stands live chains j (2 * (t + 1 - leaves n w j (t + 1))) (chains p).up) : Stands live chains (j + 1) (t + 1) (some p)

variable {n w} {live live' : Fin ChainMem → Prop} {chains chains' : Pool} {h t : ℕ} {x : Option (Fin ChainMem)}

theorem Stands.none_iff (stands : Stands n w live chains h t x) : x = none ↔ t = 0 := by
  cases stands <;> simp

/-- What a chain says of the items it stands for. -/
theorem Stands.item_of (stands : Stands n w live chains h t x) {p : Fin ChainMem} (there : x = some p) :
    live p ∧ ∃ j s, h = j + 1 ∧ t = s + 1 ∧ (chains p).count = level n w j s ∧ (chains p).leaf = leaves n w j t ∧
      Stands n w live chains j (2 * (t - leaves n w j t)) (chains p).up := by
  cases stands with
  | nil => cases there
  | @item j s q held count leaf up =>
    obtain rfl := Option.some.inj there
    exact ⟨held, j, s, rfl, rfl, count, leaf, up⟩

theorem Stands.keep (stands : Stands n w live chains h t x)
    (same : ∀ p, live p → live' p ∧ (chains' p).count = (chains p).count ∧ (chains' p).leaf = (chains p).leaf ∧
      (chains' p).up = (chains p).up) : Stands n w live' chains' h t x := by
  induction stands with
  | nil h => exact .nil h
  | item held count leaf up ih =>
    obtain ⟨held', count', leaf', up'⟩ := same _ held
    refine .item held' (count'.trans count) (leaf'.trans leaf) ?_
    rw [up']
    exact ih

/-! Marking. -/

def painted (col : UInt8) (chains : Pool) : Finset (Fin ChainMem) := Finset.univ.filter fun p => (chains p).col = col

/-- Nothing but colours changed, and no more than `k` chains took the colour. -/
structure Painted (col : UInt8) (k : ℕ) (chains chains' : Pool) : Prop where
  same : ∀ p, (chains' p).count = (chains p).count ∧ (chains' p).leaf = (chains p).leaf ∧ (chains' p).up = (chains p).up ∧
    (chains' p).gen = (chains p).gen
  kept : ∀ p, (chains p).col = col → (chains' p).col = col
  few : (painted col chains').card ≤ (painted col chains).card + k

theorem Painted.refl (col : UInt8) (chains : Pool) : Painted col 0 chains chains :=
  ⟨fun _ => ⟨rfl, rfl, rfl, rfl⟩, fun _ coloured => coloured, Nat.le_refl _⟩

theorem Painted.trans {col : UInt8} {k l : ℕ} {a b c : Pool} (first : Painted col k a b) (second : Painted col l b c) :
    Painted col (k + l) a c where
  same p := by
    obtain ⟨count, leaf, up, gen⟩ := first.same p
    obtain ⟨count', leaf', up', gen'⟩ := second.same p
    exact ⟨count'.trans count, leaf'.trans leaf, up'.trans up, gen'.trans gen⟩
  kept p coloured := second.kept p (first.kept p coloured)
  few := second.few.trans (by have := first.few; omega)

theorem Painted.mono {col : UInt8} {k l : ℕ} {a b : Pool} (done : Painted col k a b) (le : k ≤ l) : Painted col l a b :=
  { done with few := done.few.trans (Nat.add_le_add_left le _) }

theorem Painted.stands {col : UInt8} {k : ℕ} (done : Painted col k chains chains')
    (stands : Stands n w (fun p => (chains p).col = col) chains h t x) :
    Stands n w (fun p => (chains' p).col = col) chains' h t x :=
  stands.keep fun p held => ⟨done.kept p held, (done.same p).1, (done.same p).2.1, (done.same p).2.2.1⟩

theorem Painted.whole {col : UInt8} {k : ℕ} (done : Painted col k chains chains')
    (stands : Stands n w (fun _ => True) chains h t x) : Stands n w (fun _ => True) chains' h t x :=
  stands.keep fun p _ => ⟨trivial, (done.same p).1, (done.same p).2.1, (done.same p).2.2.1⟩

theorem paint_one (col : UInt8) (chains : Pool) (p : Fin ChainMem) :
    Painted col 1 chains (Function.update chains p { chains p with col }) where
  same q := by
    by_cases here : q = p
    · subst here
      simp
    · simp [here]
  kept q coloured := by
    by_cases here : q = p
    · subst here
      simp
    · simpa [here] using coloured
  few := by
    refine (Finset.card_le_card (t := insert p (painted col chains)) ?_).trans (Finset.card_insert_le _ _)
    intro q member
    by_cases here : q = p
    · exact Finset.mem_insert.mpr (.inl here)
    · refine Finset.mem_insert_of_mem ?_
      simpa [painted, here] using member

theorem mark_spec (col : UInt8) (rounds : ℕ) (enough : h ≤ rounds) (stands : Stands n w (fun _ => True) chains h t x) :
    ∃ chains', mark col rounds chains x = .ok chains' ∧ Painted col h chains chains' ∧
      Stands n w (fun p => (chains' p).col = col) chains' h t x := by
  induction h generalizing rounds t x chains with
  | zero =>
    cases stands with
    | nil => exact ⟨chains, by cases rounds <;> rfl, .refl col chains, .nil 0⟩
  | succ j ih =>
    cases stands with
    | nil => exact ⟨chains, by cases rounds <;> rfl, (Painted.refl col chains).mono (Nat.zero_le _), .nil _⟩
    | @item _ t p _ count leaf up =>
      obtain ⟨rounds, rfl⟩ : ∃ k, rounds = k + 1 := ⟨rounds - 1, by omega⟩
      have one := paint_one col chains p
      obtain ⟨chains', run, done, above⟩ := ih rounds (by omega) (one.whole up)
      refine ⟨chains', run, (one.trans done).mono (by omega), ?_⟩
      obtain ⟨count', leaf', up', _⟩ := (one.trans done).same p
      refine .item (done.kept p (by simp)) (count'.trans count) (leaf'.trans leaf) ?_
      rw [up']
      exact above

theorem marks_spec (col : UInt8) {lists : ℕ → Option (Fin ChainMem)} {items : ℕ → ℕ} {levels : ℕ} (few : levels ≤ ChainMem) {i : ℕ}
    (inside : i ≤ 2 * levels) (stands : ∀ k < 2 * levels, Stands n w (fun _ => True) chains (k / 2 + 1) (items k) (lists k)) :
    ∃ chains', marks col lists i chains = .ok chains' ∧ Painted col (i * levels) chains chains' ∧
      ∀ k < i, Stands n w (fun p => (chains' p).col = col) chains' (k / 2 + 1) (items k) (lists k) := by
  induction i with
  | zero => exact ⟨chains, rfl, (Painted.refl col chains).mono (Nat.zero_le _), fun k less => absurd less (Nat.not_lt_zero k)⟩
  | succ i ih =>
    obtain ⟨before, run, done, marked⟩ := ih (by omega)
    obtain ⟨chains', last, more, here⟩ := mark_spec col ChainMem (by omega) (done.whole (stands i (by omega)))
    refine ⟨chains', ?_, (done.trans more).mono ?_, ?_⟩
    · rw [marks, run]
      exact last
    · rw [Nat.succ_mul]
      omega
    · intro k less
      rcases Nat.lt_or_eq_of_le (Nat.le_of_lt_succ less) with earlier | rfl
      · exact more.stands (marked k earlier)
      · exact here

/-! The lists. -/

/-- The lists of the levels stand for `items`, and what is in them has the colour. -/
structure Good (n : ℕ) (w : ℕ → ℕ) (levels : ℕ) (items : ℕ → ℕ) (cs : Chains) : Prop where
  nleaf : cs.nleaf = n
  leafcount : ∀ i < n, cs.leafcount.getD i 0 = w i
  nlists : cs.nlists = 2 * levels
  free : cs.free ≤ ChainMem
  stands : ∀ i < 2 * levels, Stands n w (fun p => (cs.chains p).col = cs.col) cs.chains (i / 2 + 1) (items i) (cs.lists i)
  inside : ∀ i < 2 * levels, items i ≤ size n (i / 2)
  apart : ∀ i < levels, ∀ k < levels, ∀ p, cs.lists (2 * i + 1) = some p → cs.lists (2 * k + 1) = some p → i ≠ k →
    (cs.chains p).gen = false

/-- All but the colours and the place where the search goes on is the same. -/
structure Alike (cs cs' : Chains) : Prop where
  lists : cs'.lists = cs.lists
  leafcount : cs'.leafcount = cs.leafcount
  nlists : cs'.nlists = cs.nlists
  chain : ∀ p, (cs'.chains p).count = (cs.chains p).count ∧ (cs'.chains p).leaf = (cs.chains p).leaf ∧
    (cs'.chains p).up = (cs.chains p).up ∧ (cs'.chains p).gen = (cs.chains p).gen

theorem Alike.refl (cs : Chains) : Alike cs cs := ⟨rfl, rfl, rfl, fun _ => ⟨rfl, rfl, rfl, rfl⟩⟩

theorem Alike.trans {a b c : Chains} (first : Alike a b) (second : Alike b c) : Alike a c where
  lists := second.lists.trans first.lists
  leafcount := second.leafcount.trans first.leafcount
  nlists := second.nlists.trans first.nlists
  chain p := by
    obtain ⟨count, leaf, up, gen⟩ := first.chain p
    obtain ⟨count', leaf', up', gen'⟩ := second.chain p
    exact ⟨count'.trans count, leaf'.trans leaf, up'.trans up, gen'.trans gen⟩

variable {levels : ℕ} {items : ℕ → ℕ} {cs cs' : Chains}

theorem collect_spec (few : levels ≤ ChainMem) (good : Good n w levels items cs) :
    ∃ cs', collect cs = .ok cs' ∧ Good n w levels items cs' ∧ Alike cs cs' ∧ cs'.col = cs.col + 1 ∧
      (painted cs'.col cs'.chains).card ≤ (painted cs'.col cs.chains).card + 2 * levels * levels := by
  obtain ⟨chains', run, done, marked⟩ := marks_spec (cs.col + 1) few (Nat.le_refl (2 * levels))
    fun k less => (good.stands k less).keep fun _ _ => ⟨trivial, rfl, rfl, rfl⟩
  refine ⟨{ cs with chains := chains', col := cs.col + 1 }, ?_, ?_, ⟨rfl, rfl, rfl, done.same⟩, rfl, done.few⟩
  · rw [collect, good.nlists, run]
    rfl
  · refine { good with stands := marked, apart := fun i left k right p first second other => ?_ }
    rw [(done.same p).2.2.2]
    exact good.apart i left k right p first second other

/-- The search passes over chains of the colour. -/
theorem search_from {rounds c : ℕ} (inside : c ≤ ChainMem) :
    (∃ p, search (rounds + (ChainMem - c)) c cs = .ok (cs, p) ∧ (cs.chains p).col ≠ cs.col) ∨
      search (rounds + (ChainMem - c)) c cs = search rounds ChainMem cs ∧ ∀ p : Fin ChainMem, c ≤ p → (cs.chains p).col = cs.col := by
  generalize left : ChainMem - c = k
  induction k generalizing c with
  | zero =>
    obtain rfl : c = ChainMem := by omega
    exact .inr ⟨rfl, fun p less => absurd p.isLt (Nat.not_lt.mpr less)⟩
  | succ k ih =>
    have less : c < ChainMem := by omega
    rw [← Nat.add_assoc, search, dif_pos less]
    by_cases held : (cs.chains ⟨c, less⟩).col = cs.col
    · rw [if_neg (not_not.mpr held)]
      rcases ih (c := c + 1) less (by omega) with found | ⟨run, all⟩
      · exact .inl found
      · refine .inr ⟨run, fun p above => ?_⟩
        rcases Nat.lt_or_eq_of_le above with more | same
        · exact all p more
        · rw [← held]
          congr 2
          exact Fin.ext same.symm
    · exact .inl ⟨⟨c, less⟩, if_pos held, held⟩

/-- There is a chain that is not in use, and it is found with at most two collections. -/
theorem search_spec (few : 2 * levels * levels < ChainMem) (good : Good n w levels items cs) :
    ∃ cs' p, search (3 * (ChainMem + 1)) cs.free cs = .ok (cs', p) ∧ Good n w levels items cs' ∧ Alike cs cs' ∧
      (cs'.chains p).col ≠ cs'.col := by
  have small : levels ≤ ChainMem := by
    refine (Nat.le_of_lt few).trans' ?_
    rcases Nat.eq_zero_or_pos levels with rfl | positive
    · exact Nat.le_refl 0
    · exact Nat.le_mul_of_pos_left levels (by omega)
  have again (cs : Chains) (rounds : ℕ) : search (rounds + 1) ChainMem cs = (collect cs).bind fun cs => search rounds 0 cs := by
    rw [search, dif_neg (Nat.lt_irrefl _)]
    rfl
  have split : 3 * (ChainMem + 1) = 2 + (ChainMem + (ChainMem + cs.free + 1)) + (ChainMem - cs.free) := by
    have := good.free
    omega
  rw [split]
  rcases @search_from cs (2 + (ChainMem + (ChainMem + cs.free + 1))) _ good.free with ⟨p, run, other⟩ | ⟨run, _⟩
  · exact ⟨cs, p, run, good, .refl cs, other⟩
  obtain ⟨cs₁, collected, good₁, alike₁, _, _⟩ := collect_spec small good
  rw [run, show 2 + (ChainMem + (ChainMem + cs.free + 1)) = 2 + (ChainMem + cs.free) + (ChainMem - 0) + 1 by omega, again, collected]
  rcases @search_from cs₁ (2 + (ChainMem + cs.free)) 0 (Nat.zero_le ChainMem) with ⟨p, run, other⟩ | ⟨run, all⟩
  · exact ⟨cs₁, p, run, good₁, alike₁, other⟩
  obtain ⟨cs₂, collected, good₂, alike₂, next, marked⟩ := collect_spec small good₁
  rcases @search_from cs₂ (1 + cs.free) 0 (Nat.zero_le ChainMem) with ⟨p, found, other⟩ | ⟨_, full⟩
  · refine ⟨cs₂, p, ?_, good₂, alike₁.trans alike₂, other⟩
    rw [Except.bind, run, show 2 + (ChainMem + cs.free) = 1 + cs.free + (ChainMem - 0) + 1 by omega, again, collected]
    exact found
  · have none : painted cs₂.col cs₁.chains = ∅ := by
      refine Finset.filter_eq_empty_iff.mpr fun p _ => ?_
      rw [all p (Nat.zero_le p), next]
      intro same
      have number := congrArg UInt8.toNat same
      rw [UInt8.toNat_add, show (1 : UInt8).toNat = 1 from rfl] at number
      have := cs₁.col.toNat_lt
      omega
    have every : painted cs₂.col cs₂.chains = Finset.univ := Finset.filter_true_of_mem fun p _ => full p (Nat.zero_le p)
    rw [none, every, Finset.card_univ, Fintype.card_fin, Finset.card_empty] at marked
    omega

/-! What is written to the lists and the chains. -/

theorem Good.held (good : Good n w levels items cs) {i : ℕ} (inside : i < 2 * levels) {p : Fin ChainMem}
    (there : cs.lists i = some p) : (cs.chains p).col = cs.col :=
  ((good.stands i inside).item_of there).1

theorem Good.setlist (good : Good n w levels items cs) {i t : ℕ} {x : Option (Fin ChainMem)} (inside : i < 2 * levels)
    (stands : Stands n w (fun p => (cs.chains p).col = cs.col) cs.chains (i / 2 + 1) t x) (few : t ≤ size n (i / 2))
    (apart : ∀ p, x = some p → ∀ k, i ≠ 2 * k + 1 → cs.lists (2 * k + 1) = some p → k < levels → i % 2 = 1 →
      (cs.chains p).gen = false) : Good n w levels (Function.update items i t) (cs.setlist i x) where
  nleaf := good.nleaf
  leafcount := good.leafcount
  nlists := good.nlists
  free := good.free
  stands k less := by
    by_cases here : k = i
    · subst here
      simpa [Chains.setlist] using stands
    · simpa [Chains.setlist, here] using good.stands k less
  inside k less := by
    by_cases here : k = i
    · subst here
      simpa using few
    · simpa [here] using good.inside k less
  apart a left b right p first second other := by
    simp only [Chains.setlist] at first second ⊢
    by_cases one : 2 * a + 1 = i
    · rw [one, Function.update_self] at first
      rw [Function.update_of_ne (by omega)] at second
      exact apart p first b (by omega) second right (by omega)
    · rw [Function.update_of_ne one] at first
      by_cases two : 2 * b + 1 = i
      · rw [two, Function.update_self] at second
        exact apart p second a (by omega) first left (by omega)
      · rw [Function.update_of_ne two] at second
        exact good.apart a left b right p first second other

/-- A chain that is not in use may be written. -/
theorem Good.fresh (good : Good n w levels items cs) {c : Fin ChainMem} (unused : (cs.chains c).col ≠ cs.col) (chain : Chain) :
    Good n w levels items (cs.setchain c chain) where
  nleaf := good.nleaf
  leafcount := good.leafcount
  nlists := good.nlists
  free := good.free
  inside := good.inside
  stands k less := by
    refine (good.stands k less).keep fun p held => ?_
    have other : p ≠ c := fun same => unused (same ▸ held)
    simpa [Chains.setchain, other] using held
  apart a left b right p first second other := by
    have apart : p ≠ c := fun same => unused (same ▸ good.held (by omega) first)
    simp only [Chains.setchain, Function.update_of_ne apart]
    exact good.apart a left b right p first second other

theorem Good.ungen (good : Good n w levels items cs) (c : Fin ChainMem) :
    Good n w levels items (cs.setchain c { cs.chains c with gen := false }) where
  nleaf := good.nleaf
  leafcount := good.leafcount
  nlists := good.nlists
  free := good.free
  inside := good.inside
  stands k less := by
    refine (good.stands k less).keep fun p held => ?_
    by_cases here : p = c
    · subst here
      simpa [Chains.setchain] using held
    · simpa [Chains.setchain, here] using held
  apart a left b right p first second other := by
    by_cases here : p = c
    · subst here
      simp [Chains.setchain]
    · simpa [Chains.setchain, here] using good.apart a left b right p first second other

/-! The positions of the lists. -/

/-- The items a list stands for where the level has as many. -/
def clip (n j t : ℕ) : ℕ := if t ≤ size n j then t else 0

structure Placed (n : ℕ) (items : ℕ → ℕ) (j t : ℕ) : Prop where
  two : 2 ≤ t
  upper : items (2 * j + 1) = clip n j t
  lower : items (2 * j) = clip n j (t - 1)

/-- The lists of the level are at its first `t` items, and those of the level below at the
next package. -/
def Linked (n : ℕ) (w : ℕ → ℕ) (cs : Chains) (items : ℕ → ℕ) : ℕ → ℕ → Prop
  | 0, t => Placed n items 0 t ∧ ∀ p, cs.lists 1 = some p → (cs.chains p).gen = false
  | j + 1, t => Placed n items (j + 1) t ∧ ∀ p, cs.lists (2 * (j + 1) + 1) = some p →
      ∃ s, Linked n w cs items j s ∧ s + 2 * (cs.chains p).gen.toNat = 2 * (t - leaves n w (j + 1) t) + 2

theorem Linked.placed {j t : ℕ} (linked : Linked n w cs items j t) : Placed n items j t := by
  cases j <;> exact linked.1

theorem Linked.keep {items' : ℕ → ℕ} {j t : ℕ} (linked : Linked n w cs items j t)
    (lists : ∀ i < 2 * j + 2, cs'.lists i = cs.lists i ∧ items' i = items i)
    (gens : ∀ i ≤ j, ∀ p, cs.lists (2 * i + 1) = some p → (cs'.chains p).gen = (cs.chains p).gen) :
    Linked n w cs' items' j t := by
  induction j generalizing t with
  | zero =>
    obtain ⟨⟨two, upper, lower⟩, gen⟩ := linked
    refine ⟨⟨two, (lists 1 (by omega)).2.trans upper, (lists 0 (by omega)).2.trans lower⟩, fun p there => ?_⟩
    rw [(lists 1 (by omega)).1] at there
    exact (gens 0 (Nat.le_refl 0) p there).trans (gen p there)
  | succ j ih =>
    obtain ⟨⟨two, upper, lower⟩, rest⟩ := linked
    refine ⟨⟨two, (lists _ (by omega)).2.trans upper, (lists _ (by omega)).2.trans lower⟩, fun p there => ?_⟩
    rw [(lists _ (by omega)).1] at there
    obtain ⟨s, below, position⟩ := rest p there
    refine ⟨s, ih below (fun i less => lists i (by omega)) fun i le => gens i (by omega), ?_⟩
    rw [gens (j + 1) (Nat.le_refl _) p there]
    exact position

/-- The level below is at the package that comes after the first `t` items. -/
def Ready (n : ℕ) (w : ℕ → ℕ) (cs : Chains) (items : ℕ → ℕ) : ℕ → ℕ → Prop
  | 0, _ => True
  | j + 1, t => Linked n w cs items j (2 * (t - leaves n w (j + 1) t) + 2)

theorem Ready.keep {items' : ℕ → ℕ} {j t : ℕ} (ready : Ready n w cs items j t)
    (lists : ∀ i < 2 * j, cs'.lists i = cs.lists i ∧ items' i = items i)
    (gens : ∀ i < j, ∀ p, cs.lists (2 * i + 1) = some p → (cs'.chains p).gen = (cs.chains p).gen) :
    Ready n w cs' items' j t := by
  cases j with
  | zero => trivial
  | succ j => exact Linked.keep ready (fun i less => lists i (by omega)) fun i le => gens i (by omega)

/-! One step. -/

theorem ulong_small {U x : ℕ} (small : x < 2 ^ U) : ulong U x = x := by
  rw [ulong, ← Nat.cast_two, ← Nat.cast_pow, Int.emod_eq_of_lt (Int.natCast_nonneg x) (by exact_mod_cast small), Int.toNat_natCast]

theorem int32_small {x : ℕ} (small : x < 2 ^ 31) : Deflate.int32 (x : ℤ) = x := by
  rw [Deflate.int32]
  omega

section Step

variable {U : ℕ} (wide : 32 ≤ U) (small : ∀ j, j + 1 < levels → ∀ p, p < size n j / 2 → pairs (level n w j) p < 2 ^ 31)
  (leavesUp : MonotoneOn w (Set.Iio n)) (positive : ∀ i < n, 0 < w i)

include wide small in
/-- What is in `sumc` once the level below is ready. -/
theorem sumc_spec (good : Good n w levels items cs) {j t : ℕ} (inside : j + 1 < levels)
    (ready : Ready n w cs items (j + 1) t) :
    sumc U cs (j + 1) = .ok (if t - leaves n w (j + 1) t < size n j / 2 then
      ((pairs (level n w j) (t - leaves n w (j + 1) t) : ℕ) : ℤ) else 0) := by
  generalize at_ : t - leaves n w (j + 1) t = p
  rw [Ready, at_] at ready
  obtain ⟨two, upper, lower⟩ := ready.placed
  have second := good.stands (2 * j + 1) (by omega)
  have first := good.stands (2 * j) (by omega)
  rw [show (2 * j + 1) / 2 = j by omega, upper] at second
  rw [show 2 * j / 2 = j by omega, lower] at first
  rw [sumc]
  by_cases some_ : p < size n j / 2
  · rw [clip, if_pos (by omega)] at first second
    rw [if_pos some_]
    obtain ⟨b, right⟩ : ∃ b, cs.lists (2 * j + 1) = some b :=
      Option.ne_none_iff_exists'.mp fun none => absurd (second.none_iff.mp none) (by omega)
    obtain ⟨a, left⟩ : ∃ a, cs.lists (2 * j) = some a :=
      Option.ne_none_iff_exists'.mp fun none => absurd (first.none_iff.mp none) (by omega)
    obtain ⟨_, i, s, height, items_, count, _⟩ := second.item_of right
    obtain ⟨_, i', s', height', items', count', _⟩ := first.item_of left
    obtain ⟨same, same'⟩ : i = j ∧ i' = j := by omega
    rw [same] at count
    rw [same'] at count'
    obtain ⟨rfl, rfl⟩ : s = 2 * p + 1 ∧ s' = 2 * p := by omega
    have bound := small j inside p some_
    have value : level n w j (2 * p) + level n w j (2 * p + 1) = pairs (level n w j) p := rfl
    have large : 2 ^ 32 ≤ 2 ^ U := Nat.pow_le_pow_right (by decide) wide
    simp only [left, right]
    rw [count, count', value, Nat.mod_eq_of_lt (by omega), int32_small bound]
  · rw [clip, if_neg (by omega)] at second
    rw [if_neg some_, second.none_iff.mpr rfl]

/-- The next chain of a level takes the place of the last one. -/
theorem Good.store (good : Good n w levels items cs) {j t : ℕ} (inside : j < levels) {c : Fin ChainMem}
    (unused : (cs.chains c).col ≠ cs.col) {chain : Chain} (count : chain.count = level n w j t)
    (leaf : chain.leaf = leaves n w j (t + 1)) (col : chain.col = cs.col)
    (up : Stands n w (fun p => (cs.chains p).col = cs.col) cs.chains j (2 * (t + 1 - leaves n w j (t + 1))) chain.up)
    (fits : t + 1 ≤ size n j) : Good n w levels (Function.update items (2 * j + 1) (t + 1))
      { (cs.setchain c chain).setlist (2 * j + 1) (some c) with free := c + 1 } := by
  have written := good.fresh unused chain
  have new : Stands n w (fun p => ((cs.setchain c chain).chains p).col = cs.col) (cs.setchain c chain).chains (j + 1) (t + 1) (some c) := by
    refine .item ?_ ?_ ?_ ?_
    · simpa [Chains.setchain] using col
    · simpa [Chains.setchain] using count
    · simpa [Chains.setchain] using leaf
    · have above : ((cs.setchain c chain).chains c).up = chain.up := by simp [Chains.setchain]
      rw [above]
      refine up.keep fun p held => ?_
      have other : p ≠ c := fun same => unused (same ▸ held)
      simpa [Chains.setchain, other] using held
  have half : (2 * j + 1) / 2 = j := by omega
  have listed := written.setlist (i := 2 * j + 1) (t := t + 1) (x := some c) (by omega) (by rw [half]; exact new)
    (by rw [half]; exact fits) fun p same k _ there less _ => by
      obtain rfl := Option.some.inj same
      exact absurd (good.held (by omega) there) unused
  exact { listed with free := Nat.succ_le_of_lt c.isLt }

/-- What `pick` leaves behind: the next item in the list, if there is one. -/
structure Picked (n : ℕ) (w : ℕ → ℕ) (levels : ℕ) (items : ℕ → ℕ) (cs : Chains) (j t : ℕ) (cs' : Chains) : Prop where
  lists : ∀ i, i ≠ 2 * j + 1 → cs'.lists i = cs.lists i
  good : Good n w levels (Function.update items (2 * j + 1) (clip n j (t + 1))) cs'
  gens : ∀ p, (cs.chains p).col = cs.col → (cs'.chains p).gen = (cs.chains p).gen
  packs : ∀ p, cs'.lists (2 * j + 1) = some p →
    t - leaves n w j t + (cs'.chains p).gen.toNat = t + 1 - leaves n w j (t + 1)

theorem picked_store (good : Good n w levels items cs) {j t : ℕ} (inside : j < levels) {c : Fin ChainMem}
    (unused : (cs.chains c).col ≠ cs.col) {chain : Chain} (count : chain.count = level n w j t)
    (leaf : chain.leaf = leaves n w j (t + 1)) (col : chain.col = cs.col)
    (up : Stands n w (fun p => (cs.chains p).col = cs.col) cs.chains j (2 * (t + 1 - leaves n w j (t + 1))) chain.up)
    (fits : t + 1 ≤ size n j) (packs : t - leaves n w j t + chain.gen.toNat = t + 1 - leaves n w j (t + 1)) :
    Picked n w levels items cs j t { (cs.setchain c chain).setlist (2 * j + 1) (some c) with free := c + 1 } where
  lists i other := by simp [Chains.setlist, Chains.setchain, other]
  good := by
    rw [clip, if_pos fits]
    exact good.store inside unused count leaf col up fits
  gens p held := by
    have other : p ≠ c := fun same => unused (same ▸ held)
    simp [Chains.setlist, Chains.setchain, other]
  packs p there := by
    have same : c = p := by simpa [Chains.setlist] using there
    subst same
    simpa [Chains.setlist, Chains.setchain] using packs

theorem picked_none (good : Good n w levels items cs) {j t : ℕ} (inside : j < levels) (full : size n j < t + 1) :
    Picked n w levels items cs j t (cs.setlist (2 * j + 1) none) where
  lists i other := by simp [Chains.setlist, other]
  good := by
    rw [clip, if_neg (Nat.not_le.mpr full)]
    exact good.setlist (by omega) (.nil _) (Nat.zero_le _) fun p none => by cases none
  gens _ _ := rfl
  packs p there := by simp [Chains.setlist] at there

include wide small positive in
theorem pick_spec (good : Good n w levels items cs) {j t : ℕ} (inside : j < levels) {oc c : Fin ChainMem}
    (upper : cs.lists (2 * j + 1) = some oc) (here : items (2 * j + 1) = t) (ready : Ready n w cs items j t)
    (unused : (cs.chains c).col ≠ cs.col) : ∃ cs', pick U j oc c cs = .ok cs' ∧ Picked n w levels items cs j t cs' := by
  have half : (2 * j + 1) / 2 = j := by omega
  have stands := good.stands (2 * j + 1) (by omega)
  have most := good.inside (2 * j + 1) (by omega)
  rw [half, here] at stands most
  obtain ⟨_, k, s, height, _, _, leaf, up⟩ := stands.item_of upper
  obtain rfl : k = j := by omega
  have nleaf := good.nleaf
  have leafcount := good.leafcount
  rw [pick]
  cases k with
  | zero =>
    simp only [sumc, bind, Except.bind, pure, Except.pure, ne_eq, not_true_eq_false, false_and, if_false]
    have all : leaves n w 0 t = t := rfl
    rw [leaf, all, nleaf]
    by_cases more : t ≥ n
    · rw [if_pos more]
      exact ⟨_, rfl, picked_none good inside (Nat.lt_succ_of_le more)⟩
    · rw [if_neg more]
      refine ⟨_, rfl, picked_store good inside unused (leafcount t (by omega)) rfl rfl ?_ (Nat.lt_of_not_ge more) ?_⟩
      · simpa [leaves] using up
      · simp [leaves]
  | succ i =>
    have sum := sumc_spec wide small good inside ready
    have value : level n w (i + 1) t = if Next n (size n i / 2) w (pairs (level n w i)) (leaves n w (i + 1) t)
        (t - leaves n w (i + 1) t) then w (leaves n w (i + 1) t) else pairs (level n w i) (t - leaves n w (i + 1) t) := rfl
    have after : leaves n w (i + 1) (t + 1) = if Next n (size n i / 2) w (pairs (level n w i)) (leaves n w (i + 1) t)
        (t - leaves n w (i + 1) t) then leaves n w (i + 1) t + 1 else leaves n w (i + 1) t := rfl
    have whole : size n (i + 1) = n + size n i / 2 := rfl
    have part : leaves n w (i + 1) t ≤ t := leaves_le
    have few : leaves n w (i + 1) t ≤ n := leaves_le_all most
    have packs := packs_inside (w := w) most
    have linked : Linked n w cs items i (2 * (t - leaves n w (i + 1) t) + 2) := ready
    simp only [bind, Except.bind, sum, pure, Except.pure]
    rw [leaf, nleaf]
    generalize early : leaves n w (i + 1) t = a at value after part few packs linked up leaf
    generalize rest : t - a = p at value after linked up packs
    by_cases package : p < size n i / 2 ∧ ¬Next n (size n i / 2) w (pairs (level n w i)) a p
    · obtain ⟨some_, later⟩ := package
      have bound := small i (by omega) p some_
      have large : 2 ^ 32 ≤ 2 ^ U := Nat.pow_le_pow_right (by decide) wide
      have pos : 0 < pairs (level n w i) p :=
        Nat.add_pos_left (level_pos positive (by omega)) _
      have cheaper : a ≥ n ∨ cs.leafcount.getD a 0 > pairs (level n w i) p := by
        by_contra dear
        push Not at dear
        rw [leafcount a dear.1] at dear
        exact later ⟨dear.1, fun _ => dear.2⟩
      rw [if_neg later] at value after
      rw [if_pos some_, ulong_small (by omega), if_pos ⟨by omega, cheaper⟩]
      refine ⟨_, rfl, picked_store good inside unused value.symm ?_ rfl ?_ (by omega) ?_⟩
      · exact after.symm
      · have placed := linked.placed.upper
        have above := good.stands (2 * i + 1) (by omega)
        rw [placed, show (2 * i + 1) / 2 = i by omega, clip, if_pos (by omega)] at above
        rw [after, show 2 * (t + 1 - a) = 2 * p + 2 by omega]
        exact above
      · rw [early, after]
        simp only [Bool.toNat_true]
        omega
    · have no : ¬((if p < size n i / 2 then ((pairs (level n w i) p : ℕ) : ℤ) else 0) ≠ 0 ∧
          (a ≥ n ∨ cs.leafcount.getD a 0 > ulong U (if p < size n i / 2 then ((pairs (level n w i) p : ℕ) : ℤ) else 0))) := by
        rintro ⟨some_, cheaper⟩
        have fits : p < size n i / 2 := by
          by_contra none
          exact some_ (if_neg none)
        have bound := small i (by omega) p fits
        have large : 2 ^ 32 ≤ 2 ^ U := Nat.pow_le_pow_right (by decide) wide
        rw [if_pos fits, ulong_small (by omega)] at cheaper
        refine package ⟨fits, fun leaf => ?_⟩
        have light := leaf.2 fits
        rw [leafcount a leaf.1] at cheaper
        have := leaf.1
        omega
      rw [if_neg no]
      by_cases none : a ≥ n
      · rw [if_pos none]
        refine ⟨_, rfl, picked_none good inside ?_⟩
        have full : ¬p < size n i / 2 := fun fits => package ⟨fits, fun leaf => absurd leaf.1 (by omega)⟩
        omega
      · have leaf_ : Next n (size n i / 2) w (pairs (level n w i)) a p := by
          by_contra later
          exact package ⟨pack_left few (by omega) later, later⟩
        rw [if_pos leaf_] at value after
        rw [if_neg none]
        refine ⟨_, rfl, picked_store good inside unused ?_ after.symm rfl ?_ (by omega) ?_⟩
        · rw [value]
          exact leafcount a (by omega)
        · rw [after, show t + 1 - (a + 1) = p by omega]
          exact up
        · rw [early, after]
          simp only [Bool.toNat_false]
          omega

/-- Nothing above the level changes. -/
structure Above (levels j : ℕ) (cs : Chains) (items : ℕ → ℕ) (cs' : Chains) (items' : ℕ → ℕ) : Prop where
  lists : ∀ i, 2 * j + 2 ≤ i → cs'.lists i = cs.lists i ∧ items' i = items i
  gens : ∀ i, j < i → i < levels → ∀ p, cs.lists (2 * i + 1) = some p → (cs'.chains p).gen = (cs.chains p).gen

theorem Above.trans {j : ℕ} {a b c : Chains} {k l m : ℕ → ℕ} (first : Above levels j a k b l) (second : Above levels j b l c m) :
    Above levels j a k c m where
  lists i above := ⟨(second.lists i above).1.trans (first.lists i above).1, (second.lists i above).2.trans (first.lists i above).2⟩
  gens i above inside p there := by
    rw [second.gens i above inside p ((first.lists _ (by omega)).1.trans there)]
    exact first.gens i above inside p there

/-- A step of the level: its lists go on by one item. -/
def Moves (n : ℕ) (w : ℕ → ℕ) (levels j : ℕ) (move : Chains → Except Deflate.Stop Chains) : Prop :=
  ∀ cs items t, Good n w levels items cs → Linked n w cs items j t →
    ∃ cs' items', move cs = .ok cs' ∧ Good n w levels items' cs' ∧ Linked n w cs' items' j (t + 1) ∧
      Above levels j cs items cs' items'

/-- After `generate` the level below is at the next package. -/
theorem generate_spec {below : Chains → Except Deflate.Stop Chains} {i t : ℕ} (moves : Moves n w levels i below)
    (good : Good n w levels items cs) (inside : i + 1 < levels) {oc : Fin ChainMem}
    (upper : cs.lists (2 * (i + 1) + 1) = some oc)
    (linked : ∃ s, Linked n w cs items i s ∧ s + 2 * (cs.chains oc).gen.toNat = 2 * (t - leaves n w (i + 1) t) + 2) :
    ∃ cs' items', generate below oc cs = .ok cs' ∧ Good n w levels items' cs' ∧ Ready n w cs' items' (i + 1) t ∧
      (∀ k, 2 * (i + 1) ≤ k → cs'.lists k = cs.lists k ∧ items' k = items k) ∧
      ∀ k, i + 1 < k → k < levels → ∀ p, cs.lists (2 * k + 1) = some p → (cs'.chains p).gen = (cs.chains p).gen := by
  obtain ⟨s, at_, position⟩ := linked
  rw [generate]
  cases gen : (cs.chains oc).gen with
  | false =>
    rw [gen, Bool.toNat_false] at position
    refine ⟨cs, items, rfl, good, ?_, fun _ _ => ⟨rfl, rfl⟩, fun _ _ _ _ _ => rfl⟩
    rw [Ready, ← position]
    exact at_
  | true =>
    rw [gen, Bool.toNat_true] at position
    obtain ⟨cs₁, items₁, run₁, good₁, linked₁, above₁⟩ := moves cs items s good at_
    obtain ⟨cs₂, items₂, run₂, good₂, linked₂, above₂⟩ := moves cs₁ items₁ (s + 1) good₁ linked₁
    have above := above₁.trans above₂
    have upper₂ : cs₂.lists (2 * (i + 1) + 1) = some oc := (above.lists _ (by omega)).1.trans upper
    have gen₂ : (cs₂.chains oc).gen = true := (above.gens (i + 1) (by omega) inside oc upper).trans gen
    have other {k : ℕ} (less : k < levels) (apart : i + 1 ≠ k) {p : Fin ChainMem} (there : cs₂.lists (2 * k + 1) = some p) : p ≠ oc := by
      rintro rfl
      exact absurd (good₂.apart (i + 1) inside k less p upper₂ there apart) (by simp [gen₂])
    refine ⟨_, items₂, ?_, good₂.ungen oc, ?_, fun k late => above.lists k (by omega), fun k above_ less p there => ?_⟩
    · rw [if_pos rfl, run₁]
      simp only [bind, Except.bind, run₂]
      rfl
    · rw [Ready, ← position]
      refine linked₂.keep (fun _ _ => ⟨rfl, rfl⟩) fun k le p there => ?_
      simp [Chains.setchain, other (by omega) (by omega) there]
    · have there₂ : cs₂.lists (2 * k + 1) = some p := (above.lists _ (by omega)).1.trans there
      rw [show ((cs₂.setchain oc _).chains p) = cs₂.chains p by simp [Chains.setchain, other less (by omega) there₂]]
      exact above.gens k (by omega) less p there

variable (few : 2 * levels * levels < ChainMem)

include wide small positive few

/-- The search and `pick`, once the level below is ready. -/
theorem place_spec (good : Good n w levels items cs) {j t : ℕ} (inside : j < levels) {oc : Fin ChainMem} (two : 2 ≤ t)
    (upper : cs.lists (2 * j + 1) = some oc) (here : items (2 * j + 1) = t) (lower : items (2 * j) = t)
    (ready : Ready n w cs items j t) :
    ∃ cs' items', (search (3 * (ChainMem + 1)) cs.free cs).bind (fun (cs, c) => pick U j oc c cs) = .ok cs' ∧
      Good n w levels items' cs' ∧ Linked n w cs' items' j (t + 1) ∧ Above levels j cs items cs' items' := by
  obtain ⟨cs₁, c, run, good₁, alike, unused⟩ := search_spec few good
  have upper₁ : cs₁.lists (2 * j + 1) = some oc := (congrFun alike.lists _).trans upper
  have ready₁ : Ready n w cs₁ items j t :=
    ready.keep (fun i _ => ⟨congrFun alike.lists i, rfl⟩) fun i _ p _ => (alike.chain p).2.2.2
  obtain ⟨cs', picked, done⟩ := pick_spec wide small positive good₁ inside upper₁ here ready₁ unused
  have most := good.inside (2 * j) (by omega)
  rw [lower, show 2 * j / 2 = j by omega] at most
  have gens {i : ℕ} (less : i < levels) {p : Fin ChainMem} (there : cs.lists (2 * i + 1) = some p) :
      (cs'.chains p).gen = (cs.chains p).gen := by
    rw [← congrFun alike.lists] at there
    exact (done.gens p (good₁.held (by omega) there)).trans (alike.chain p).2.2.2
  have kept {i : ℕ} (other : i ≠ 2 * j + 1) :
      cs'.lists i = cs.lists i ∧ Function.update items (2 * j + 1) (clip n j (t + 1)) i = items i :=
    ⟨(done.lists i other).trans (congrFun alike.lists i), Function.update_of_ne other _ _⟩
  have placed : Placed n (Function.update items (2 * j + 1) (clip n j (t + 1))) j (t + 1) := by
    refine ⟨by omega, Function.update_self _ _ _, ?_⟩
    rw [(kept (by omega)).2, lower, Nat.add_sub_cancel, clip, if_pos most]
  refine ⟨cs', _, by rw [run]; exact picked, done.good, ?_, fun i above => kept (by omega), fun i above less p there => gens less there⟩
  cases j with
  | zero =>
    refine ⟨placed, fun p there => ?_⟩
    have := done.packs p there
    cases gen : (cs'.chains p).gen with
    | false => rfl
    | true =>
      rw [gen] at this
      simp [leaves] at this
  | succ i =>
    refine ⟨placed, fun p there => ⟨2 * (t - leaves n w (i + 1) t) + 2, ?_, ?_⟩⟩
    · exact Linked.keep ready (fun k less => kept (by omega)) fun k le p there => gens (by omega) there
    · have := done.packs p there
      omega

theorem nextof_spec {below : Chains → Except Deflate.Stop Chains} {j : ℕ} (inside : j < levels)
    (moves : ∀ i, j = i + 1 → Moves n w levels i below) : Moves n w levels j (nextof U below j) := by
  intro cs items t good linked
  obtain ⟨two, upper, lower⟩ := linked.placed
  have half : (2 * j + 1) / 2 = j := by omega
  have stands := good.stands (2 * j + 1) (by omega)
  rw [half, upper] at stands
  rw [nextof]
  cases top : cs.lists (2 * j + 1) with
  | none =>
    have none_ := stands.none_iff.mp top
    have none' : clip n j (t + 1) = 0 := by
      simp only [clip] at none_ ⊢
      split at none_
      · omega
      · exact if_neg (by omega)
    refine ⟨_, _, rfl, good.setlist (by omega) (.nil _) (Nat.zero_le _) fun p none => absurd none (by simp), ?_,
      fun i above => ⟨Function.update_of_ne (by omega) _ _, Function.update_of_ne (by omega) _ _⟩, fun _ _ _ _ _ => rfl⟩
    have placed : Placed n (Function.update items (2 * j) 0) j (t + 1) := by
      refine ⟨by omega, ?_, ?_⟩
      · rw [Function.update_of_ne (by omega), upper, none_, none']
      · rw [Function.update_self, Nat.add_sub_cancel, none_]
    have gone (p : Fin ChainMem) : (cs.setlist (2 * j) none).lists (2 * j + 1) ≠ some p := by
      simp [Chains.setlist, top]
    cases j with
    | zero => exact ⟨placed, fun p there => absurd there (gone p)⟩
    | succ i => exact ⟨placed, fun p there => absurd there (gone p)⟩
  | some oc =>
    have some_ : clip n j t = t := by
      rw [clip]
      split
      · rfl
      · next more =>
        rw [clip, if_neg more] at stands
        exact absurd (stands.none_iff.mpr rfl) (by simp [top])
    rw [some_] at upper stands
    have most := good.inside (2 * j + 1) (by omega)
    rw [half, upper] at most
    have good₀ : Good n w levels (Function.update items (2 * j) t) (cs.setlist (2 * j) (some oc)) := by
      refine good.setlist (by omega) ?_ ?_ fun p _ k _ _ _ odd => by omega
      · rw [show 2 * j / 2 = j by omega, ← top]
        exact stands
      · rw [show 2 * j / 2 = j by omega]
        exact most
    have kept {i : ℕ} (other : i ≠ 2 * j) :
        (cs.setlist (2 * j) (some oc)).lists i = cs.lists i ∧ Function.update items (2 * j) t i = items i :=
      ⟨Function.update_of_ne other _ _, Function.update_of_ne other _ _⟩
    have top₀ : (cs.setlist (2 * j) (some oc)).lists (2 * j + 1) = some oc := (kept (by omega)).1.trans top
    have ready : ∃ cs₁ items₁, generate below oc (cs.setlist (2 * j) (some oc)) = .ok cs₁ ∧ Good n w levels items₁ cs₁ ∧
        Ready n w cs₁ items₁ j t ∧ (∀ k, 2 * j ≤ k → cs₁.lists k = (cs.setlist (2 * j) (some oc)).lists k ∧
          items₁ k = Function.update items (2 * j) t k) ∧
        ∀ k, j < k → k < levels → ∀ p, (cs.setlist (2 * j) (some oc)).lists (2 * k + 1) = some p →
          (cs₁.chains p).gen = ((cs.setlist (2 * j) (some oc)).chains p).gen := by
      cases j with
      | zero =>
        have gen := linked.2 oc top
        refine ⟨_, _, ?_, good₀, trivial, fun _ _ => ⟨rfl, rfl⟩, fun _ _ _ _ _ => rfl⟩
        rw [generate, if_neg (by simp [Chains.setlist, gen])]
        rfl
      | succ i =>
        obtain ⟨s, at_, position⟩ := linked.2 oc top
        refine generate_spec (moves i rfl) good₀ inside top₀ ⟨s, ?_, position⟩
        exact at_.keep (fun k less => kept (by omega)) fun _ _ _ _ => rfl
    obtain ⟨cs₁, items₁, run, good₁, ready, lists, gens⟩ := ready
    obtain ⟨cs', items', run', good', linked', above⟩ := place_spec wide small positive few good₁ inside two
      ((lists _ (by omega)).1.trans top₀) ((lists _ (by omega)).2.trans ((kept (by omega)).2.trans upper))
      ((lists _ (by omega)).2.trans (Function.update_self _ _ _)) ready
    refine ⟨cs', items', ?_, good', linked', fun i late => ?_, fun i late less p there => ?_⟩
    · simp only [bind, Except.bind, run]
      exact run'
    · obtain ⟨list, item⟩ := above.lists i late
      obtain ⟨list₁, item₁⟩ := lists i (by omega)
      obtain ⟨list₀, item₀⟩ := kept (show i ≠ 2 * j by omega)
      exact ⟨list.trans (list₁.trans list₀), item.trans (item₁.trans item₀)⟩
    · have there₀ : (cs.setlist (2 * j) (some oc)).lists (2 * i + 1) = some p := (kept (by omega)).1.trans there
      rw [above.gens i late less p ((lists _ (by omega)).1.trans there₀)]
      exact gens i late less p there₀

theorem nextchain_spec {j : ℕ} (inside : j < levels) : Moves n w levels j (nextchain U j) := by
  induction j with
  | zero => exact nextof_spec wide small positive few inside fun i none => by omega
  | succ j ih =>
    refine nextof_spec wide small positive few inside fun i same => ?_
    obtain rfl := Nat.succ.inj same
    exact ih (by omega)

theorem nextchains_spec {j t : ℕ} (inside : j < levels) (rounds : ℕ) (good : Good n w levels items cs)
    (linked : Linked n w cs items j t) : ∃ cs' items', nextchains U j rounds cs = .ok cs' ∧ Good n w levels items' cs' ∧
      Linked n w cs' items' j (t + rounds) := by
  induction rounds generalizing cs items t with
  | zero => exact ⟨cs, items, rfl, good, linked⟩
  | succ rounds ih =>
    obtain ⟨cs₁, items₁, run, good₁, linked₁, _⟩ := nextchain_spec wide small positive few inside cs items t good linked
    obtain ⟨cs', items', rest, good', linked'⟩ := ih good₁ linked₁
    refine ⟨cs', items', ?_, good', ?_⟩
    · rw [nextchains, run]
      exact rest
    · rw [show t + (rounds + 1) = t + 1 + rounds by omega]
      exact linked'

end Step

/-! A whole run. -/

section Run

variable {U : ℕ} {leafcount : List ℕ} {maxbits : ℕ} {stack : Pool}

/-- The two chains at the start stand for the two lightest leaves, of every level. -/
theorem start_stands (two : 2 ≤ leafcount.length) (positive : ∀ i < leafcount.length, 0 < leafcount.getD i 0) {i : ℕ}
    (inside : i < 2 * (maxbits - 1)) :
    Stands leafcount.length (leafcount.getD · 0) (fun p => ((chains0 stack leafcount maxbits).chains p).col = 1)
      (chains0 stack leafcount maxbits).chains (i / 2 + 1) (i % 2 + 1) ((chains0 stack leafcount maxbits).lists i) := by
  obtain ⟨light, lighter, one, both⟩ := first_leaves positive two (i / 2)
  have listed : (chains0 stack leafcount maxbits).lists i = some (if i % 2 = 0 then chain0 else chain1) := if_pos inside
  have other : chain0 ≠ chain1 := by decide
  rw [listed]
  rcases Nat.mod_two_eq_zero_or_one i with even | odd
  · rw [even, if_pos rfl]
    have cell : (chains0 stack leafcount maxbits).chains chain0 = ⟨leafcount.getD 0 0, 1, 1, false, none⟩ := by
      simp [chains0, other]
    refine .item (by rw [cell]) ?_ ?_ ?_ <;> rw [cell]
    · exact light.symm
    · exact one.symm
    · rw [one]
      exact .nil _
  · rw [odd, if_neg (by omega)]
    have cell : (chains0 stack leafcount maxbits).chains chain1 = ⟨leafcount.getD 1 0, 2, 1, false, none⟩ := by
      simp [chains0]
    refine .item (by rw [cell]) ?_ ?_ ?_ <;> rw [cell]
    · exact lighter.symm
    · exact both.symm
    · rw [both]
      exact .nil _

theorem start_good (two : 2 ≤ leafcount.length) (positive : ∀ i < leafcount.length, 0 < leafcount.getD i 0) :
    Good leafcount.length (leafcount.getD · 0) (maxbits - 1) (fun i => i % 2 + 1) (chains0 stack leafcount maxbits) where
  nleaf := rfl
  leafcount _ _ := rfl
  nlists := rfl
  free := show 2 ≤ ChainMem by decide
  stands i inside := start_stands two positive inside
  inside i _ := by
    have := size_le leafcount.length (i / 2)
    omega
  apart i left k right p first second other := by
    simp only [chains0] at first
    rw [if_pos (by omega), if_neg (by omega)] at first
    obtain rfl := Option.some.inj first
    simp [chains0]

theorem start_linked (two : 2 ≤ leafcount.length) (positive : ∀ i < leafcount.length, 0 < leafcount.getD i 0) {j : ℕ}
    (inside : j < maxbits - 1) :
    Linked leafcount.length (leafcount.getD · 0) (chains0 stack leafcount maxbits) (fun i => i % 2 + 1) j 2 := by
  have placed (j : ℕ) : Placed leafcount.length (fun i => i % 2 + 1) j 2 := by
    have long := size_le leafcount.length j
    refine ⟨Nat.le_refl 2, ?_, ?_⟩ <;> rw [clip, if_pos (by omega)]
    · omega
    · omega
  have gen {i : ℕ} (less : i < maxbits - 1) {p : Fin ChainMem}
      (there : (chains0 stack leafcount maxbits).lists (2 * i + 1) = some p) :
      ((chains0 stack leafcount maxbits).chains p).gen = false := by
    simp only [chains0] at there
    rw [if_pos (by omega), if_neg (by omega)] at there
    obtain rfl := Option.some.inj there
    simp [chains0]
  induction j with
  | zero => exact ⟨placed 0, fun p there => gen inside there⟩
  | succ j ih =>
    refine ⟨placed (j + 1), fun p there => ⟨2, ih (by omega), ?_⟩⟩
    rw [gen inside there, (first_leaves positive two (j + 1)).2.2.2]
    rfl

/-- After the calls of `nextchain` the last chain stands for the items that make the code. -/
theorem run_spec (wide : 32 ≤ U) (levels : 2 ≤ maxbits) (limit : maxbits ≤ MaxHuffBits) (two : 2 ≤ leafcount.length)
    (positive : ∀ i < leafcount.length, 0 < leafcount.getD i 0)
    (leavesUp : MonotoneOn (leafcount.getD · 0) (Set.Iio leafcount.length)) (fits : leafcount.length ≤ 2 ^ (maxbits - 1))
    (small : (maxbits - 1) * weight (leafcount.getD · 0) leafcount.length < 2 ^ 31) :
    ∃ cs, nextchains U (maxbits - 2) (2 * leafcount.length - 2 - 2) (chains0 stack leafcount maxbits) = .ok cs ∧
      Stands leafcount.length (leafcount.getD · 0) (fun p => (cs.chains p).col = cs.col) cs.chains (maxbits - 1)
        (2 * leafcount.length - 2) (cs.lists (cs.nlists - 1)) := by
  obtain ⟨j, rfl⟩ : ∃ j, maxbits = j + 2 := ⟨maxbits - 2, by omega⟩
  simp only [show j + 2 - 1 = j + 1 by omega, show j + 2 - 2 = j by omega] at fits small ⊢
  have few : 2 * (j + 2 - 1) * (j + 2 - 1) < ChainMem := by
    have bound : j + 1 ≤ 15 := by
      have : MaxHuffBits = 16 := rfl
      omega
    calc 2 * (j + 1) * (j + 1) ≤ 2 * 15 * 15 := Nat.mul_le_mul (Nat.mul_le_mul_left 2 bound) bound
      _ < ChainMem := by decide
  have light (i : ℕ) (inside : i + 1 < j + 2 - 1) (p : ℕ) (here : p < size leafcount.length i / 2) :
      pairs (level leafcount.length (leafcount.getD · 0) i) p < 2 ^ 31 := by
    refine (pairs_le positive here).trans_lt (Nat.lt_of_le_of_lt ?_ small)
    rw [smul_eq_mul]
    exact Nat.mul_le_mul_right _ (by omega)
  obtain ⟨cs, items, run, good, linked⟩ := nextchains_spec wide light positive few (j := j) (by omega) (2 * leafcount.length - 2 - 2)
    (@start_good leafcount (j + 2) stack two positive) (start_linked two positive (by omega))
  refine ⟨cs, run, ?_⟩
  have enough := enough_items leavesUp positive two fits
  have last := good.stands (2 * j + 1) (by omega)
  rw [linked.placed.upper, clip, show 2 + (2 * leafcount.length - 2 - 2) = 2 * leafcount.length - 2 by omega, if_pos enough,
    show (2 * j + 1) / 2 = j by omega] at last
  rw [good.nlists, show 2 * (j + 2 - 1) - 1 = 2 * j + 1 by omega]
  exact last

end Run

end Goken.Proofs.Nextchain
