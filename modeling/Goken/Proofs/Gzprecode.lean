import Goken.Proofs.Precode
import Goken.Proofs.Hufftab

/-! `mkgzprecode` gives each used symbol the canonical code of its length. -/

namespace Goken.Proofs.Gzprecode
open Goken.Precode Lib.PrefixCode Lib.Canonical Lib.Bits Precode

/-- The code of a symbol as it is written, the lowest bit first. -/
def word (h : Huff) : List Bool := (List.range h.bits.toNat).map h.encode.testBit

/-- The lengths, zero for a symbol that is not used. -/
def lengths (count : List ℕ) (length : ℕ → ℕ) : List ℕ :=
  (List.range count.length).map fun i => if i ∈ used count then length i else 0

variable {count : List ℕ} {length : ℕ → ℕ} {limit U : ℕ}

theorem lengths_get {i : ℕ} (inside : i < count.length) :
    (lengths count length)[i]? = some (if i ∈ used count then length i else 0) := by
  rw [lengths, List.getElem?_map, List.getElem?_range inside]
  rfl

theorem used_inside {i : ℕ} (member : i ∈ used count) : i < count.length :=
  Finset.mem_range.mp (Finset.mem_filter.mp member).1

theorem counts_lengths {b : ℕ} (positive : b ≠ 0) :
    counts (lengths count length) b = (Finset.filter (length · = b) (used count)).card := by
  rw [counts, if_neg positive, lengths, List.count_eq_countP, List.countP_map, List.countP_eq_length_filter]
  have same : Finset.filter (length · = b) (used count) =
      Finset.filter (fun i => (if i ∈ used count then length i else 0) = b) (Finset.range count.length) := by
    ext i
    simp only [Finset.mem_filter, Finset.mem_range]
    constructor
    · rintro ⟨member, here⟩
      exact ⟨used_inside member, by rw [if_pos member]; exact here⟩
    · rintro ⟨_, here⟩
      split at here
      next member => exact ⟨member, here⟩
      next => exact absurd here.symm positive
  rw [same]
  simp only [Finset.card, Finset.filter_val, Finset.range_val, Multiset.range, Multiset.filter_coe, Multiset.coe_card]
  congr 2

section Complete

variable (best : Best count limit length)
include best

theorem lengths_short {b : ℕ} (member : b ∈ lengths count length) : b ≤ limit := by
  obtain ⟨i, _, rfl⟩ := List.mem_map.mp member
  split
  next used => exact best.short i used
  next => exact Nat.zero_le _

theorem lengths_total : total (counts (lengths count length)) limit = 2 ^ limit := by
  rw [total_counts fun b member => lengths_short best member, kraft, ← best.kraft, lengths, List.map_map]
  have sum : ((List.range count.length).map ((fun b => if b = 0 then 0 else 2 ^ (limit - b)) ∘
      fun i => if i ∈ used count then length i else 0)).sum =
      ∑ i ∈ Finset.range count.length, if i ∈ used count then 2 ^ (limit - length i) else 0 := by
    rw [Finset.sum_eq_multiset_sum]
    refine congrArg List.sum (List.map_congr_left fun i _ => ?_)
    simp only [Function.comp_apply]
    split
    next member => rw [if_neg (Nat.ne_of_gt (best.positive i member))]
    next => rfl
  rw [sum, ← Finset.sum_filter]
  refine Finset.sum_congr ?_ fun _ _ => rfl
  ext i
  simp only [Finset.mem_filter, Finset.mem_range]
  exact ⟨fun both => both.2, fun member => ⟨used_inside member, member⟩⟩

theorem total_le {b : ℕ} (short : b ≤ limit) : total (counts (lengths count length)) b ≤ 2 ^ b := by
  have shift := total_shift (counts (lengths count length)) short
  rw [lengths_total best] at shift
  have split : 2 ^ limit = 2 ^ b * 2 ^ (limit - b) := by rw [← Nat.pow_add, Nat.add_sub_of_le short]
  rw [split] at shift
  exact Nat.le_of_mul_le_mul_right shift (Nat.two_pow_pos _)

end Complete

/-! `hufftabinit`. -/

theorem firsts_spec {bitcount : ℕ → ℕ} {n : ℕ → ℕ} (rounds : ℕ) {bits code : ℕ} {nc : ℕ → Option ℕ} (positive : 1 ≤ bits)
    (room : bits + rounds ≤ MaxHuffBits) (start : code = first n (bits - 1))
    (counts : ∀ b, bits - 1 ≤ b → b < bits - 1 + rounds → bitcount b = n b)
    (small : ∀ b < bits + rounds, first n b < 2 ^ U) :
    ∃ nc', firsts U bitcount rounds bits code nc = .ok nc' ∧ (∀ b < bits, nc' b = nc b) ∧
      ∀ b, bits ≤ b → b < bits + rounds → nc' b = some (first n b) := by
  induction rounds generalizing bits code nc with
  | zero => exact ⟨nc, rfl, fun _ _ => rfl, fun b low high => by omega⟩
  | succ rounds ih =>
    have next : (code + bitcount (bits - 1)) <<< 1 % 2 ^ U = first n bits := by
      obtain ⟨b, rfl⟩ : ∃ b, bits = b + 1 := ⟨bits - 1, by omega⟩
      have value : (code + bitcount b) <<< 1 = first n (b + 1) := by
        rw [Nat.shiftLeft_eq, first, total_eq, start, counts b (by omega) (by omega)]
        exact Nat.mul_comm _ _
      rw [Nat.add_sub_cancel, value, Nat.mod_eq_of_lt (small (b + 1) (by omega))]
    obtain ⟨nc', run, before, values⟩ := @ih (bits + 1) (first n bits) (Function.update nc bits (some (first n bits))) (by omega) (by omega) rfl
      (fun b low high => counts b (by omega) (by omega)) fun b less => small b (by omega)
    refine ⟨nc', ?_, fun b less => ?_, fun b low high => ?_⟩
    · rw [firsts, if_pos (by omega), next]
      exact run
    · rw [before b (by omega), Function.update_of_ne (by omega)]
    · rcases Nat.lt_or_eq_of_le low with more | rfl
      · exact values b more (by omega)
      · rw [before bits (by omega), Function.update_self]

/-- The entry of a symbol with a code of `b` bits. -/
def coded (hb : List ℕ) (i b : ℕ) : Huff := ⟨b, if b = 0 then 0 else rev b (codeOf hb i b)⟩

theorem reversed_eq {c b : ℕ} (short : b ≤ 16) (small : c < 2 ^ b) : reversed (c <<< (16 - b)) = rev b c := by
  have same := Hufftab.revcode_eq short small
  rw [Inflate.revcode, show (16 - b : ℤ) = ((16 - b : ℕ) : ℤ) by omega, Hufftab.shl_ok, ← Nat.shiftLeft_eq] at same
  exact Except.ok.inj same

theorem encodes_spec {hb : List ℕ} {nbits : ℕ} (wide : 32 ≤ U) (narrow : nbits < MaxHuffBits) (long : ∀ b ∈ hb, b ≤ nbits)
    (totals : ∀ b ≤ nbits, total (counts hb) b ≤ 2 ^ b) (post pre : List ℕ) (whole : hb = pre ++ post) {nc : ℕ → Option ℕ}
    (codes : ∀ b, 1 ≤ b → b ≤ nbits → nc b = some (first (counts hb) b + pre.count b)) :
    ∃ tab, encodes U (post.map fun b : ℕ => Huff.mk b 0) nc = .ok (some tab) ∧
      ∀ i, tab[i]? = post[i]?.map (coded hb (pre.length + i)) := by
  have limit : MaxHuffBits = 16 := rfl
  induction post generalizing pre nc with
  | nil => exact ⟨[], rfl, fun i => by simp⟩
  | cons b post ih =>
    have found : hb[pre.length]? = some b := by simp [whole]
    have short : b ≤ nbits := long b (by simp [whole])
    have later : hb = (pre ++ [b]) ++ post := by simp [whole]
    rw [List.map_cons, encodes]
    by_cases none : b = 0
    · subst none
      obtain ⟨tab, run, entries⟩ := @ih (pre ++ [0]) later nc fun c positive most => by
        rw [codes c positive most, List.count_append, List.count_singleton, if_neg (by simpa using (by omega : 0 ≠ c)), Nat.add_zero]
      refine ⟨⟨0, 0⟩ :: tab, ?_, fun i => ?_⟩
      · simp only [Nat.cast_zero, ne_eq, not_true_eq_false, if_false, run, bind, Except.bind]
        rfl
      · cases i with
        | zero => simp [coded]
        | succ i =>
          rw [List.getElem?_cons_succ, List.getElem?_cons_succ, entries i, List.length_append, List.length_singleton]
          rw [show pre.length + 1 + i = pre.length + (i + 1) by omega]
    · have code : first (counts hb) b + pre.count b = codeOf hb pre.length b := by
        rw [codeOf, whole, List.take_left]
      have less := (codeOf_lt found none).2
      have bound := totals b short
      have small : codeOf hb pre.length b < 2 ^ b := by omega
      have power : (2 : ℕ) ^ b ≤ 2 ^ 16 := Nat.pow_le_pow_right (by decide) (by omega)
      have large : 2 ^ 32 ≤ 2 ^ U := Nat.pow_le_pow_right (by decide) wide
      have high : codeOf hb pre.length b <<< (16 - b) < 2 ^ 16 := by
        rw [Nat.shiftLeft_eq]
        calc codeOf hb pre.length b * 2 ^ (16 - b) < 2 ^ b * 2 ^ (16 - b) := Nat.mul_lt_mul_of_pos_right small (Nat.two_pow_pos _)
          _ = 2 ^ 16 := by rw [← Nat.pow_add, Nat.add_sub_of_le (by omega)]
      obtain ⟨tab, run, entries⟩ := @ih (pre ++ [b]) later
        (Function.update nc b (some ((codeOf hb pre.length b + 1) % 2 ^ U))) fun c positive most => by
          rw [List.count_append]
          by_cases same : c = b
          · subst same
            rw [Function.update_self, ← code, Nat.mod_eq_of_lt (by omega)]
            simp [Nat.add_assoc]
          · rw [Function.update_of_ne same, codes c positive most, List.count_singleton, if_neg (by simpa using Ne.symm same), Nat.add_zero]
      refine ⟨coded hb pre.length b :: tab, ?_, fun i => ?_⟩
      · have listed : next nc (b : ℤ) = .ok (codeOf hb pre.length b) := by
          rw [next, if_pos (Int.natCast_nonneg b), Int.toNat_natCast, codes b (by omega) short, code]
        have shift : ((16 : ℤ) - b).toNat = 16 - b := by omega
        have fits : codeOf hb pre.length b <<< (16 - b) % 2 ^ U = codeOf hb pre.length b <<< (16 - b) := Nat.mod_eq_of_lt (by omega)
        have clear : codeOf hb pre.length b <<< (16 - b) >>> 16 = 0 := by
          rw [Nat.shiftRight_eq_div_pow, Nat.div_eq_of_lt high]
        rw [if_pos (show (b : ℤ) ≠ 0 by exact_mod_cast none)]
        simp only [listed, bind, Except.bind, shift, fits, clear, ne_eq, not_true_eq_false, if_false, Int.toNat_natCast, run,
          reversed_eq (show b ≤ 16 by omega) small]
        rw [coded, if_neg none]
        rfl
      · cases i with
        | zero => simp
        | succ i =>
          rw [List.getElem?_cons_succ, List.getElem?_cons_succ, entries i, List.length_append, List.length_singleton]
          rw [show pre.length + 1 + i = pre.length + (i + 1) by omega]

/-! `mkgzprecode`. -/

theorem normal_spec {p : ℕ → Prop} [DecidablePred p] (symbols : List ℕ) (positive : ∀ i ∈ symbols, p i → 0 < length i)
    (bitcount : ℕ → ℕ) (nbits : ℕ) :
    normal (symbols.map fun i => Huff.mk (if p i then (length i : ℤ) else -1) 0) bitcount nbits =
      some ((symbols.map fun i => if p i then length i else 0).map fun b : ℕ => Huff.mk b 0, bitcount, nbits) := by
  induction symbols with
  | nil => rfl
  | cons i symbols ih =>
    have rest := ih fun i member => positive i (List.mem_cons_of_mem _ member)
    simp only [List.map_cons, normal, rest]
    by_cases used : p i
    · have := positive i List.mem_cons_self used
      rw [if_pos used, if_pos used, if_neg (by omega), if_neg (by omega)]
      rfl
    · rw [if_neg used, if_neg used]
      rfl

/-- A list of as many entries as there are symbols. -/
theorem Coded.tab_eq {l : Lengths} (coded : Coded count limit length l) :
    l.tab = (List.range count.length).map fun i => Huff.mk (if i ∈ used count then (length i : ℤ) else -1) 0 := by
  refine List.ext_getElem? fun i => ?_
  rw [coded.tab, List.getElem?_map]
  by_cases inside : i < count.length
  · rw [List.getElem?_range inside, List.getElem?_eq_getElem inside]
    rfl
  · rw [List.getElem?_eq_none (by omega), List.getElem?_eq_none (by simpa using inside)]
    rfl

/-- No canonical code begins another. -/
theorem coded_free {hb : List ℕ} {i j b c : ℕ} (left : hb[i]? = some b) (right : hb[j]? = some c) (first_ : b ≠ 0) (second : c ≠ 0)
    (totals : ∀ b ∈ hb, total (counts hb) b ≤ 2 ^ b) (begins : word (coded hb i b) <+: word (coded hb j c)) : i = j := by
  have small {i b : ℕ} (found : hb[i]? = some b) (nonzero : b ≠ 0) : codeOf hb i b < 2 ^ b :=
    Nat.lt_of_lt_of_le (codeOf_lt found nonzero).2 (totals b (List.mem_of_getElem? found))
  have shorter : b ≤ c := by
    have := begins.length_le
    simpa [word, coded] using this
  have same : rev b (codeOf hb i b) % 2 ^ b = rev c (codeOf hb j c) % 2 ^ b := by
    refine Nat.eq_of_testBit_eq fun k => ?_
    rw [Nat.testBit_mod_two_pow, Nat.testBit_mod_two_pow]
    by_cases inside : k < b
    · have bits := List.prefix_iff_getElem?.mp begins k (by simpa [word, coded] using inside)
      simp only [word, coded, first_, second, if_false, Int.toNat_natCast] at bits
      rw [List.getElem?_map, List.getElem?_range (by omega), List.getElem_map, List.getElem_range] at bits
      simpa [inside] using (Option.some.inj bits).symm
    · simp [inside]
  have code : codeOf hb i b = codeOf hb j c / 2 ^ (c - b) := by
    have read := congrArg (rev b) same
    rw [rev_mod, rev_mod, rev_rev, Nat.mod_eq_of_lt (small left first_), ← rev_shorter shorter, rev_rev,
      Nat.mod_eq_of_lt (small right second)] at read
    exact read
  rcases Nat.lt_or_eq_of_le shorter with less | rfl
  · have below := (codeOf_lt left first_).2
    have above := (codeOf_lt right second).1
    obtain ⟨d, rfl⟩ : ∃ d, c = d + 1 := ⟨c - 1, by omega⟩
    have shift := total_shift (counts hb) (show b ≤ d by omega)
    have twice : total (counts hb) b * 2 ^ (d + 1 - b) ≤ codeOf hb j (d + 1) := by
      refine Nat.le_trans ?_ above
      rw [first, Nat.succ_sub (show b ≤ d by omega), Nat.pow_succ, ← Nat.mul_assoc, Nat.mul_comm]
      exact Nat.mul_le_mul_left 2 shift
    rw [code] at below
    exact absurd ((Nat.le_div_iff_mul_le (Nat.two_pow_pos _)).mpr twice) (Nat.not_le.mpr below)
  · rw [Nat.sub_self, Nat.pow_zero, Nat.div_one] at code
    exact codeOf_inj left right code

section Codes

variable {l : Lengths} (coded_ : Coded count limit length l) (best : Best count limit length)
include coded_ best

theorem bitcount_eq {b : ℕ} (short : b ≤ l.bits) : l.bitcount b = counts (lengths count length) b := by
  rw [coded_.bitcount b short]
  by_cases none : b = 0
  · subst none
    rw [counts, if_pos rfl, Finset.card_eq_zero, Finset.filter_eq_empty_iff]
    exact fun i member zero => Nat.ne_of_gt (best.positive i member) zero
  · exact (counts_lengths none).symm

/-- The table after `hufftabinit`. -/
theorem hufftabinit_spec (wide : 32 ≤ U) (narrow : limit < MaxHuffBits) :
    ∃ tab, hufftabinit U ((lengths count length).map fun b : ℕ => Huff.mk b 0) l.bitcount l.bits = .ok (some tab) ∧
      ∀ i, tab[i]? = (lengths count length)[i]?.map (coded (lengths count length) i) := by
  have bits16 : MaxHuffBits = 16 := rfl
  have bound := coded_.bits
  have totals (b : ℕ) (short : b ≤ l.bits) := total_le best (show b ≤ limit by omega)
  have small (b : ℕ) (less : b < 1 + l.bits) : first (counts (lengths count length)) b < 2 ^ U := by
    calc first (counts (lengths count length)) b ≤ total (counts (lengths count length)) b := first_le _ b
      _ ≤ 2 ^ b := totals b (by omega)
      _ < 2 ^ U := Nat.pow_lt_pow_right (by decide) (by omega)
  obtain ⟨nc, run, _, values⟩ := @firsts_spec U l.bitcount (counts (lengths count length)) l.bits 1 0 (fun _ => none) (Nat.le_refl 1) (by omega) rfl
    (fun b _ high => bitcount_eq coded_ best (by omega)) small
  have long : ∀ b ∈ lengths count length, b ≤ l.bits := by
    intro b member
    obtain ⟨i, _, rfl⟩ := List.mem_map.mp member
    split
    next used => exact coded_.longest i used
    next => exact Nat.zero_le _
  obtain ⟨tab, codes, entries⟩ := @encodes_spec U (lengths count length) l.bits wide (by omega) long totals (lengths count length) [] rfl
    nc fun b positive short => by
      rw [values b positive (by omega)]
      rfl
  refine ⟨tab, ?_, fun i => by simpa using entries i⟩
  rw [hufftabinit, run]
  exact codes

end Codes

/-- The lengths are the best for the limit of one bit less than `maxbits`, and the codes of
these lengths are a prefix code. -/
theorem mkgzprecode_best (wide : 32 ≤ U) {maxbits : ℕ} (levels : 2 ≤ maxbits) (limit : maxbits ≤ MaxHuffBits)
    (table : count.length ≤ MaxLeaf) (two : 2 ≤ (used count).card) (fits : (used count).card ≤ 2 ^ (maxbits - 1))
    (small : (maxbits - 1) * count.sum < 2 ^ 31) (stack : Fin ChainMem → Chain) (bitcount : ℕ → ℕ) :
    ∃ l tab length, mkprecode U stack count maxbits bitcount = .ok l ∧ mkgzprecode U stack count maxbits bitcount = .ok (some tab) ∧
      (∀ i < count.length, (l.tab[i]?.map Huff.bits = some (if i ∈ used count then (length i : ℤ) else -1)) ∧
        tab[i]?.map Huff.bits = some (if i ∈ used count then (length i : ℤ) else 0)) ∧
      Best count (maxbits - 1) length ∧ PrefixFree (used count : Set ℕ) fun i => word (tab.getD i ⟨0, 0⟩) := by
  have bits16 : MaxHuffBits = 16 := rfl
  obtain ⟨l, length, run, coded_, best⟩ := mkprecode_spec wide levels limit table two fits small stack bitcount
  obtain ⟨tab, codes, entries⟩ := hufftabinit_spec coded_ best wide (by omega)
  refine ⟨l, tab, length, run, ?_, fun i inside => ⟨?_, ?_⟩, best, ?_⟩
  · have none : l.bitcount 0 = 0 := bitcount_eq coded_ best (Nat.zero_le _)
    rw [mkgzprecode, run]
    simp only [bind, Except.bind]
    rw [Coded.tab_eq coded_, normal_spec _ fun i _ member => best.positive i member]
    simp only [none, ne_eq, not_true_eq_false, if_false]
    exact codes
  · rw [coded_.tab, List.getElem?_eq_getElem inside]
    rfl
  · rw [entries, lengths_get inside]
    by_cases member : i ∈ used count <;> simp [coded, member]
  · intro i first_ j second begins
    have found {i : ℕ} (member : i ∈ used count) : (lengths count length)[i]? = some (length i) := by
      rw [lengths_get (used_inside member), if_pos member]
    have entry {i : ℕ} (member : i ∈ used count) : tab.getD i ⟨0, 0⟩ = coded (lengths count length) i (length i) := by
      rw [List.getD_eq_getElem?_getD, entries, found member]
      rfl
    simp only [Finset.mem_coe] at first_ second
    simp only [entry first_, entry second] at begins
    refine coded_free (found first_) (found second) (Nat.ne_of_gt (best.positive i first_))
      (Nat.ne_of_gt (best.positive j second)) (fun b member => total_le best (lengths_short best member)) begins

def stack : Fin ChainMem → Chain := fun _ => ⟨0, 0, 0, false, none⟩

theorem mkgzprecode_best_four : ∃ l tab length,
    mkprecode 64 stack [3, 0, 5, 1, 1] 8 (fun _ => 0) = .ok l ∧ mkgzprecode 64 stack [3, 0, 5, 1, 1] 8 (fun _ => 0) = .ok (some tab) ∧
      (∀ i < 5, (l.tab[i]?.map Huff.bits = some (if i ∈ used [3, 0, 5, 1, 1] then (length i : ℤ) else -1)) ∧
        tab[i]?.map Huff.bits = some (if i ∈ used [3, 0, 5, 1, 1] then (length i : ℤ) else 0)) ∧
      Best [3, 0, 5, 1, 1] 7 length ∧ PrefixFree (used [3, 0, 5, 1, 1] : Set ℕ) fun i => word (tab.getD i ⟨0, 0⟩) :=
  mkgzprecode_best (by decide) (by decide) (by decide) (by decide) (by decide) (by decide) (by decide) stack fun _ => 0

theorem exists_bits {r : Except Deflate.Stop Lengths} {bits : List ℤ} (run : r.map (fun l => l.tab.map Huff.bits) = .ok bits) :
    ∃ l, r = .ok l ∧ l.tab.map Huff.bits = bits := by
  cases r with
  | error e => cases run
  | ok l => exact ⟨l, rfl, Except.ok.inj run⟩

def fibonacci : List ℕ := [1, 1, 2, 3, 5, 8, 13, 21, 34]

/-- A code of at most eight bits. -/
def unary (i : ℕ) : List Bool := if i = 0 then List.replicate 8 true else List.replicate (8 - i) true ++ [false]

/-- With a limit of eight bits no code gets more than seven, where a better one has eight; and
counts whose sum is zero in an `int` give no lengths at all. -/
theorem mkprecode_short :
    (2 ≤ (used fibonacci).card ∧ (used fibonacci).card ≤ 2 ^ 8 ∧ ∃ l, mkprecode 64 stack fibonacci 8 (fun _ => 0) = .ok l ∧
      ∃ word : ℕ → List Bool, PrefixFree (used fibonacci : Set ℕ) word ∧ (∀ i ∈ used fibonacci, (word i).length ≤ 8) ∧
        ∑ i ∈ used fibonacci, fibonacci.getD i 0 * (word i).length <
          ∑ i ∈ used fibonacci, fibonacci.getD i 0 * ((l.tab.map Huff.bits).getD i 0).toNat) ∧
    ∃ l, mkprecode 64 stack [2 ^ 31, 2 ^ 31, 2 ^ 31] 16 (fun _ => 0) = .ok l ∧ l.tab.map Huff.bits = [0, 0, 0] := by
  refine ⟨⟨by decide, by decide, ?_⟩, exists_bits (by decide)⟩
  obtain ⟨l, run, bits⟩ := exists_bits
    (show (mkprecode 64 stack fibonacci 8 fun _ => 0).map (fun l => l.tab.map Huff.bits) = .ok [7, 7, 6, 5, 4, 3, 2, 2, 2] by
      decide +kernel)
  refine ⟨l, run, unary, ?_, by decide, ?_⟩
  · have free : ∀ s ∈ used fibonacci, ∀ t ∈ used fibonacci, unary s <+: unary t → s = t := by decide
    exact fun s first t second => free s first t second
  · rw [bits]
    decide

end Goken.Proofs.Gzprecode
