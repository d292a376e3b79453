import Goken.Proofs.RegexecSearch
import Goken.Proofs.Rune
import Mathlib.Order.WellFounded

/-! The characters of a string of bytes from where the search starts, and where the fast
check goes on among them. -/

namespace Goken.Proofs.RegexecText
open Goken Goken.Regexec Goken.Rune Lib.Threads RegexecThreads RegexecSearch

section Characters

variable (text : List UInt8) (s : Nat)

theorem getElem?_ended {k : Nat} (low : k ≤ text.length) : (text ++ [0])[k]? = some (text.getD k 0) := by
  rcases Nat.lt_or_eq_of_le low with less | rfl
  · rw [List.getElem?_append_left less, List.getElem?_eq_getElem less, List.getD_eq_getElem _ _ less]
  · simp

theorem char_low (low : uchar text s < Runeself) : char text s = (uchar text s, 1) := if_pos low

/-- A character of more than one byte, or an ill-formed one. -/
theorem char_high (high : Runeself ≤ uchar text s) :
    Runeself ≤ (char text s).1 ∧ 0 < (char text s).2 ∧ ∀ i < (char text s).2, Runeself ≤ uchar text (s + i) := by
  have inside : s < text.length := by
    by_contra beyond
    rw [uchar, List.getD_eq_default _ _ (Nat.le_of_not_lt beyond)] at high
    exact absurd high (by decide)
  have first : ∀ i < 1, Runeself ≤ uchar text (s + i) := by
    intro i less
    rw [Nat.lt_one_iff.mp less]
    exact high
  have readable : Proofs.Rune.Readable ((text ++ [0]).drop s) := by
    refine Or.inl ?_
    rw [List.drop_append_of_le_length (Nat.le_of_lt inside)]
    exact List.mem_append_right _ (List.mem_singleton.mpr rfl)
  rw [char, if_neg (Nat.not_lt.mpr high)]
  rcases Proofs.Rune.chartorune_cases readable with bad | ⟨v, rest, small, same⟩
  · rw [bad]
    exact ⟨by decide, by decide, first⟩
  · rw [same, Proofs.Rune.chartorune_utf8 small]
    have byte (i : Nat) (less : i < (Proofs.Rune.utf8 v).length) : (Proofs.Rune.utf8 v)[i]? = some (text.getD (s + i) 0) := by
      have here : ((text ++ [0]).drop s)[i]? = (Proofs.Rune.utf8 v)[i]? := by rw [same, List.getElem?_append_left less]
      rw [List.getElem?_drop] at here
      rw [← here, getElem?_ended]
      have := congrArg List.length same
      simp only [List.length_drop, List.length_append, List.length_singleton] at this
      omega
    have positive : 0 < (Proofs.Rune.utf8 v).length := by
      unfold Proofs.Rune.utf8
      split_ifs <;> exact Nat.succ_pos _
    have big : 0x80 ≤ v := by
      by_contra low
      have lead := byte 0 positive
      rw [Proofs.Rune.utf8, if_pos (Nat.lt_of_not_le low)] at lead
      have same : UInt8.ofNat v = text.getD s 0 := Option.some.inj lead
      rw [uchar, ← same, UInt8.toNat_ofNat_of_lt' (by rw [UInt8.size]; omega), Runeself] at high
      omega
    have value : (UInt32.ofNat v).toNat = v := UInt32.toNat_ofNat_of_lt' (by rw [UInt32.size]; omega)
    refine ⟨?_, positive, ?_⟩
    · exact Nat.le_trans big (Nat.le_of_eq value.symm)
    · intro i less
      exact Proofs.Rune.utf8_high big small _ (List.mem_of_getElem? (byte i less))

theorem char_length : 0 < (char text s).2 := by
  by_cases low : uchar text s < Runeself
  · rw [char_low text s low]
    exact Nat.one_pos
  · exact (char_high text s (Nat.le_of_not_lt low)).2.1

end Characters

section Places

variable (text : List UInt8) (s : Nat)

/-- Where the characters from `s` on are. -/
def place : Nat → Nat
  | 0 => s
  | k + 1 => place k + (char text (place k)).2

/-- The characters from `s` on. -/
def reads (k : Nat) : Nat := (char text (place text s k)).1

/-- Whether a line begins at a character. -/
def opens (k : Nat) : Bool := place text s k = 0 ∨ uchar text (place text s k - 1) = newline

theorem place_mono : StrictMono (place text s) :=
  strictMono_nat_of_lt_succ fun k => Nat.lt_add_of_pos_right (char_length text (place text s k))

theorem place_zero_iff (k : Nat) : place text s k = 0 ↔ k = 0 ∧ s = 0 := by
  cases k with
  | zero => simp [place]
  | succ k =>
    have later : 0 < place text s (k + 1) := Nat.lt_of_le_of_lt (Nat.zero_le _) (place_mono text s (Nat.succ_pos k))
    omega

theorem opens_succ (k : Nat) : opens text s (k + 1) = true ↔ reads text s k = newline := by
  have later : place text s (k + 1) ≠ 0 := fun zero => absurd ((place_zero_iff text s _).mp zero).1 (Nat.succ_ne_zero k)
  simp only [opens, decide_eq_true_eq, later, false_or, reads]
  by_cases low : uchar text (place text s k) < Runeself
  · rw [place, char_low _ _ low, Nat.add_sub_cancel]
  · obtain ⟨high, positive, all⟩ := char_high text (place text s k) (Nat.le_of_not_lt low)
    have last := all ((char text (place text s k)).2 - 1) (Nat.sub_lt positive Nat.one_pos)
    rw [place, Nat.add_sub_assoc positive]
    constructor
    · intro same
      rw [same] at last
      exact absurd last (by decide)
    · intro same
      rw [same] at high
      exact absurd high (by decide)

theorem reads_ends (k : Nat) : ∃ e ≥ k, reads text s e = 0 := by
  refine ⟨max k text.length, Nat.le_max_left _ _, ?_⟩
  have beyond : text.length ≤ place text s (max k text.length) :=
    Nat.le_trans (Nat.le_max_right _ _) (place_mono text s).le_apply
  have zero : uchar text (place text s (max k text.length)) = 0 := by
    rw [uchar, List.getD_eq_default _ _ beyond]
    rfl
  rw [reads, char_low _ _ (by rw [zero]; decide), zero]

theorem utfrune_byte (p ch : Nat) :
    utfrune text p ch = if uchar text p = ch then some p else if uchar text p = 0 then none else utfrune text (p + 1) ch := by
  by_cases inside : p < text.length
  · rw [utfrune, List.drop_eq_getElem_cons inside, strchr, uchar, List.getD_eq_getElem _ _ inside]
    split
    · rw [Option.map_some, Nat.zero_add]
    · split
      next zero => rw [Option.map_none, if_pos (by rw [zero]; rfl)]
      next more =>
        have nonzero : text[p].toNat ≠ 0 := fun zero => more (UInt8.toNat_inj.mp zero)
        rw [if_neg nonzero, Option.map_map, utfrune]
        congr 1
        funext k
        exact Nat.add_right_comm k 1 p
  · have beyond := Nat.le_of_not_lt inside
    rw [utfrune, List.drop_eq_nil_of_le beyond, strchr, uchar, List.getD_eq_default _ _ beyond]
    by_cases zero : ch = 0
    · rw [if_pos zero, if_pos (by rw [zero]; rfl), Option.map_some, Nat.zero_add]
    · rw [if_neg zero, if_neg (fun same => zero same.symm)]
      rfl

theorem utfrune_passes {p n ch : Nat} (low : ch < Runeself) (high : ∀ i < n, Runeself ≤ uchar text (p + i)) :
    utfrune text p ch = utfrune text (p + n) ch := by
  induction n with
  | zero => rfl
  | succ n ih =>
    have byte := high n (Nat.lt_succ_self n)
    have positive : 0 < Runeself := by decide
    rw [ih fun i less => high i (Nat.lt_succ_of_lt less), utfrune_byte, if_neg (by omega), if_neg (by omega)]
    rfl

/-- `utfrune` goes by characters. -/
theorem utfrune_char {ch : Nat} (low : ch < Runeself) (k : Nat) :
    utfrune text (place text s k) ch =
      if reads text s k = ch then some (place text s k) else if reads text s k = 0 then none else utfrune text (place text s (k + 1)) ch := by
  have positive : 0 < Runeself := by decide
  by_cases byte : uchar text (place text s k) < Runeself
  · rw [utfrune_byte, reads, place, char_low _ _ byte]
  · obtain ⟨high, _, all⟩ := char_high text (place text s k) (Nat.le_of_not_lt byte)
    rw [utfrune_passes text low all, reads, if_neg (by omega), if_neg (by omega)]
    rfl

end Places

section Checks

variable {r : Nat → Nat} {f : Nat → Option Nat} {pos : Nat → Nat} {ch k : Nat}

/-- What a search for `ch` that goes by characters comes to. -/
theorem searched (next : ∀ k, f k = if r k = ch then some (pos k) else if r k = 0 then none else f (k + 1)) (ends : ∃ e ≥ k, r e = 0) :
    (∃ q ≥ k, f k = some (pos q) ∧ r q = ch ∧ ∀ i, k ≤ i → i < q → r i ≠ ch ∧ r i ≠ 0) ∨
      ∃ q ≥ k, f k = none ∧ r q = 0 ∧ ∀ i, k ≤ i → i ≤ q → r i ≠ ch := by
  obtain ⟨e, after, zero⟩ := ends
  obtain ⟨n, rfl⟩ := Nat.exists_eq_add_of_le after
  clear after
  induction n generalizing k with
  | zero =>
    rw [next]
    split
    next same => exact Or.inl ⟨k, Nat.le_refl k, rfl, same, fun i low high => absurd low (Nat.not_le_of_lt high)⟩
    next other =>
      refine Or.inr ⟨k, Nat.le_refl k, if_pos zero, zero, ?_⟩
      intro i low high
      cases Nat.le_antisymm low high
      exact other
  | succ n ih =>
    rw [next]
    split
    next same => exact Or.inl ⟨k, Nat.le_refl k, rfl, same, fun i low high => absurd low (Nat.not_le_of_lt high)⟩
    next other =>
      split
      next early =>
        refine Or.inr ⟨k, Nat.le_refl k, rfl, early, ?_⟩
        intro i low high
        cases Nat.le_antisymm low high
        exact other
      next more =>
        rcases @ih (k + 1) (by rw [Nat.add_right_comm]; exact zero) with ⟨q, after, same, here, before⟩ | ⟨q, after, same, here, before⟩
        · refine Or.inl ⟨q, Nat.le_of_succ_le after, same, here, ?_⟩
          intro i low high
          rcases Nat.lt_or_eq_of_le low with less | rfl
          · exact before i less high
          · exact ⟨other, more⟩
        · refine Or.inr ⟨q, Nat.le_of_succ_le after, same, here, ?_⟩
          intro i low high
          rcases Nat.lt_or_eq_of_le low with less | rfl
          · exact before i less high
          · exact other

variable {prog : Reprog} {opens : Nat → Bool} {first fast : Bool} {nl : List Relist}

theorem skips_stay (stays : Leaves prog r opens first fast k → nl ≠ []) : Skips prog r opens pos first fast k nl (some (pos k)) :=
  .goes (Nat.le_refl k) (fun less => absurd less (Nat.lt_irrefl k)) (fun _ low high => absurd low (Nat.not_le_of_lt high))
    (fun _ low high => absurd low (Nat.not_le_of_lt high)) fun leaves => ⟨rfl, stays leaves⟩

variable (next : ∀ k, f k = if r k = ch then some (pos k) else if r k = 0 then none else f (k + 1)) (ends : ∃ e ≥ k, r e = 0)
  (empty : nl = [])
include next ends empty

theorem skips_char {i : Nat} (begins : prog.insts[prog.startinst]? = some (.RUNE ch i)) : Skips prog r opens pos first fast k nl (f k) := by
  have dead {a : Nat} (other : r a ≠ ch) : Passed prog r opens first fast k a :=
    Or.inl (dead_of_stuck begins rfl (if_neg fun same => other same.symm) nofun)
  rcases searched next ends with ⟨q, after, same, here, before⟩ | ⟨q, after, same, zero, before⟩
  · rw [same]
    refine .goes after (fun _ => empty) (fun i low high => (before i low high).2) (fun a low high => dead (before a low high).1) ?_
    rintro ⟨_, ⟨next, line⟩, _⟩
    rw [begins] at line
    cases line
  · rw [same]
    refine .stops empty fun a low => ?_
    by_cases high : a ≤ q
    · exact dead (before a low high)
    · exact Or.inl (dead_beyond zero (Nat.lt_of_not_le high))

theorem skips_line {i : Nat} (sought : ch = newline) (begins : prog.insts[prog.startinst]? = some (.BOL i)) (fast_path : fast = true)
    (inside : ¬(k = 0 ∧ first = true)) (opens_succ : ∀ k, opens (k + 1) = true ↔ r k = newline) :
    Skips prog r opens pos first fast k nl (f k) := by
  have dead {a : Nat} (closed : opens a ≠ true) : Dead prog r opens a :=
    dead_of_stuck begins (if_neg closed) rfl nofun
  have passed {a : Nat} (low : k ≤ a) (other : r k ≠ newline) (before : ∀ i, k ≤ i → i < a → r i ≠ newline) : Passed prog r opens first fast k a := by
    by_cases line : opens a = true
    · rcases Nat.lt_or_eq_of_le low with less | rfl
      · obtain ⟨b, rfl⟩ := Nat.exists_eq_succ_of_ne_zero (Nat.ne_zero_of_lt less)
        exact absurd ((opens_succ b).mp line) (before b (Nat.le_of_lt_succ less) (Nat.lt_succ_self b))
      · exact Or.inr ⟨rfl, fast_path, ⟨i, begins⟩, inside, line, other⟩
    · exact Or.inl (dead line)
  rw [sought] at next
  rcases searched next ends with ⟨q, after, same, here, before⟩ | ⟨q, after, same, zero, before⟩
  · rw [same]
    refine .goes after (fun _ => empty) (fun i low high => (before i low high).2) (fun a low high => ?_) ?_
    · exact passed low (before k (Nat.le_refl k) (Nat.lt_of_le_of_lt low high)).1
        fun i low' high' => (before i low' (Nat.lt_trans high' high)).1
    · rintro ⟨_, _, _, _, other⟩
      exact absurd here other
  · rw [same]
    refine .stops empty fun a low => ?_
    by_cases high : a ≤ q
    · exact passed low (before k (Nat.le_refl k) after) fun i low' high' => before i low' (Nat.le_of_lt (Nat.lt_of_lt_of_le high' high))
    · exact Or.inl (dead_beyond zero (Nat.lt_of_not_le high))

end Checks

end Goken.Proofs.RegexecText
