import Goken.Lib.Lists
import Goken.MkVarsub
import Goken.Proofs.MkMatch
import Mathlib.Data.List.Infix

/-! Pattern substitution. The prefix and the suffix are looked for in the same
word without regard to each other, and the suffix is compared at its distance
from the end even when the word is shorter. -/

namespace Goken.Proofs.MkVarsub
open Goken.MkVarsub Goken.MkGraph MkMatch Lib.Lists

/-- One of the words, or nothing when there are none. -/
def Among (l : List Str) (w : Str) : Prop := w ∈ l ∨ l = [] ∧ w = []

/-- The first of the words with the property; nothing when there are none. -/
def firstOf (test : Str → Bool) (l : List Str) : Option Str := if l.isEmpty then some [] else l.find? test

def starts (s w : Str) : Bool := w.isPrefixOf s
def ends (s w : Str) : Bool := w.isSuffixOf s

theorem ends_iff {s w : Str} : ends s w = true ↔ w <:+ s := List.isSuffixOf_iff_suffix

/-- The suffixes that are compared before one is found are no longer than the
word. -/
def reads (s : Str) (b : List Str) : Bool := (b.takeWhile fun y => !ends s y).all fun y => y.length ≤ s.length

/-- A word with a part from the first list in front and one from the second at
the end. -/
def Split (s : Str) (a b : List Str) : Prop := ∃ x mid y, Among a x ∧ Among b y ∧ s = x ++ mid ++ y

/-- `submatch` as it should be. -/
def Exact (s : Str) (a b : List Str) : Prop :=
  ∃ result, submatch s a b = some result ∧ (result.isSome ↔ Split s a b) ∧
    ∀ nmid enda, result = some (nmid, enda) →
      ∃ x mid y, Among a x ∧ Among b y ∧ s = x ++ mid ++ y ∧ enda = x.length ∧ nmid = mid.length

/-- No suffix that is compared is longer than the word, and the first prefix
and the first suffix have room side by side. -/
def Apart (s : Str) (a b : List Str) : Prop :=
  ∀ x ∈ firstOf (starts s) a, reads s b = true ∧ ∀ y ∈ firstOf (ends s) b, x.length + y.length ≤ s.length

instance (s : Str) (a b : List Str) : Decidable (Apart s a b) := inferInstanceAs (Decidable (∀ x ∈ firstOf (starts s) a, _))

/-- The middle of a word whose prefix and suffix have room side by side. -/
theorem middle {s x y : Str} (front : x <+: s) (back : y <:+ s) (room : x.length + y.length ≤ s.length) :
    s = x ++ (s.drop x.length).take (s.length - x.length - y.length) ++ y := by
  obtain ⟨after, rfl⟩ := front
  have last : y = (x ++ after).drop ((x ++ after).length - y.length) := List.suffix_iff_eq_drop.mp back
  rw [List.length_append] at room last ⊢
  rw [List.drop_append, List.drop_of_length_le (by omega), List.nil_append] at last
  rw [List.drop_left, List.append_assoc]
  congr 1
  conv => rhs; rhs; rw [last]
  rw [show x.length + after.length - y.length - x.length = x.length + after.length - x.length - y.length by omega,
    List.take_append_drop]

section Words

/-- The words of `c` and `d` with `mid` between them, joined to its neighbours. -/
def splice (c : List Str) (mid : Str) (d : List Str) : List Str :=
  c.dropLast ++ (c.getLastD [] ++ mid ++ d.headD []) :: d.tail

/-- What a word is replaced by. -/
def Right (p : Pattern) (s : Str) (piece : List Str) : Prop :=
  match submatch s p.a p.b with
  | none => False
  | some none => piece = [s]
  | some (some (nmid, enda)) => piece = splice p.c ((s.drop enda).take nmid.toNat) p.d

/-- Something is put in the place of the word: the right side begins with some
text after the pattern character, or has but one word and there is some text
before. -/
def Kept (p : Pattern) (s : Str) : Prop :=
  ∀ x ∈ firstOf (starts s) p.a, ∀ y ∈ firstOf (ends s) p.b,
    p.d.headD [] ≠ [] ∨ p.d.tail = [] ∧ (p.c ≠ [] ∨ x.length + y.length < s.length ∨ s = [])

instance (p : Pattern) (s : Str) : Decidable (Kept p s) := inferInstanceAs (Decidable (∀ x ∈ firstOf (starts s) p.a, _))

theorem appendLast_eq (c : List Str) (text : Str) : appendLast c text = c.dropLast ++ [c.getLastD [] ++ text] := by
  induction c with
  | nil => rfl
  | cons w c ih =>
      cases c with
      | nil => rfl
      | cons next rest =>
          rw [appendLast, ih]
          simp

theorem appendLast_twice (c : List Str) (one other : Str) :
    appendLast (appendLast c one) other = appendLast c (one ++ other) := by
  simp [appendLast_eq]

theorem appendLast_nil {c : List Str} (some : c ≠ []) : appendLast c [] = c := by
  rw [appendLast_eq, List.append_nil, List.getLastD_eq_getLast?, List.getLast?_eq_getLast_of_ne_nil some, Option.getD_some,
    List.dropLast_append_getLast some]

theorem splice_eq (c : List Str) (mid : Str) (d : List Str) : splice c mid d = appendLast c (mid ++ d.headD []) ++ d.tail := by
  simp [splice, appendLast_eq]

theorem appendWords_nil {w d : List Str} (none : d.headD [] = []) : appendWords w d = w := by
  cases d with
  | nil => rfl
  | cons text rest =>
      obtain rfl : text = [] := none
      rfl

theorem appendWords_some {w d : List Str} (some : d.headD [] ≠ []) : appendWords w d = appendLast w (d.headD []) ++ d.tail := by
  cases d with
  | nil => exact absurd rfl some
  | cons text rest => exact if_neg (by simpa using some)

/-- The words made of the right side, `kept` those before its last text. -/
theorem filled {c kept d : List Str} {mid : Str} (s : Str) (before : kept = if mid = [] then c else appendLast c mid) :
    (if (appendWords kept d).isEmpty then [s] else appendWords kept d) = splice c mid d ↔
      d.headD [] ≠ [] ∨ d.tail = [] ∧ (c ≠ [] ∨ mid ≠ [] ∨ s = []) := by
  rw [splice_eq]
  by_cases last : d.headD [] = []
  · rw [appendWords_nil last, last, List.append_nil]
    simp only [ne_eq, not_true_eq_false, false_or]
    by_cases nothing : c = [] ∧ mid = []
    · obtain ⟨rfl, rfl⟩ := nothing
      rw [if_pos rfl] at before
      subst before
      cases d.tail <;> simp [appendLast]
    · have whole : kept = appendLast c mid := by
        rw [before]
        split
        · rename_i empty
          rw [empty, appendLast_nil fun none => nothing ⟨none, empty⟩]
        · rfl
      have full : appendLast c mid ≠ [] := by simp [appendLast_eq]
      have some : ¬ c = [] ∨ ¬ mid = [] ∨ s = [] := by
        by_cases empty : c = []
        · exact .inr (.inl fun none => nothing ⟨empty, none⟩)
        · exact .inl empty
      rw [whole, if_neg (by simpa using full)]
      simp only [some, and_true]
      exact List.self_eq_append_right
  · have joined : appendLast kept (d.headD []) = appendLast c (mid ++ d.headD []) := by
      rw [before]
      split
      · rename_i empty
        rw [empty, List.nil_append]
      · exact appendLast_twice c mid _
    rw [appendWords_some last, joined, if_neg (by simp [appendLast_eq])]
    exact ⟨fun _ => .inl last, fun _ => rfl⟩

/-- Substitution as it should be: each word is matched exactly, and what is put
in the place of the words stands in their order. -/
def Substitutes (stow : Str → List Str) (v : List Str) (text : Str) : Prop :=
  (∀ s ∈ v, Exact s (pattern stow text).a (pattern stow text).b) ∧
    ∃ pieces, subsub stow v text = some pieces.flatten ∧
      List.Forall₂ (fun s piece => subword (pattern stow text) s = some piece ∧ Right (pattern stow text) s piece) v pieces

end Words

section Text

/-- A text without quotes and variables, and without the characters of a set. -/
def Bare (pat text : Str) : Prop := ∀ b ∈ text, b.toNat ≠ quote ∧ b.toNat ≠ dollar ∧ b ∉ pat

/-- A rune ends before a character of one byte. -/
theorem rune_stops (a : UInt8) (s rest : Str) {c : UInt8} (low : c.toNat < 0x80) :
    (rune (a :: s ++ c :: rest)).2 ≤ (a :: s).length := by
  rcases rune_cases a (s ++ c :: rest) with ⟨-, read⟩ | ⟨-, -, -, -, bytes⟩
  · rw [List.cons_append, read]
    simp
  · by_contra long
    rw [List.cons_append] at long
    generalize (rune (a :: (s ++ c :: rest))).2 = n at long bytes
    have inside : c ∈ (a :: (s ++ c :: rest)).take n := by
      obtain ⟨m, rfl⟩ := Nat.exists_eq_add_of_lt (Nat.lt_of_not_le long)
      rw [← List.cons_append, List.take_append, List.mem_append]
      right
      rw [show (a :: s).length + m + 1 - (a :: s).length = m + 1 by omega]
      simp
    have := bytes c inside
    omega

/-- `charin` stops behind a bare text. -/
theorem charinRest_bare {pat : Str} (ascii : ∀ b ∈ pat, b.toNat < 0x80) {fuel : Nat} {text : Str} (rest : Str) {c : UInt8}
    (bare : Bare pat text) (terminator : c ∈ pat) (plain : c.toNat ≠ quote ∧ c.toNat ≠ dollar) (enough : text.length < fuel) :
    charinRest pat fuel (text ++ c :: rest) false = some (c :: rest) := by
  induction fuel generalizing text with
  | zero => omega
  | succ fuel ih =>
      have low := ascii c terminator
      cases text with
      | nil =>
          rcases rune_cases c rest with ⟨-, read⟩ | ⟨high, -⟩
          · have seen : pat.any (fun b => decide (b.toNat = c.toNat)) = true :=
              List.any_eq_true.mpr ⟨c, terminator, decide_eq_true rfl⟩
            rw [List.nil_append, charinRest, if_neg (by simp)]
            dsimp only
            rw [read, if_neg plain.1, if_neg plain.2, seen]
            simp
          · omega
      | cons a text =>
          have later : ∀ n, 1 ≤ n → n ≤ (a :: text).length →
              charinRest pat fuel ((a :: text ++ c :: rest).drop n) false = some (c :: rest) := by
            intro n some inside
            rw [List.drop_append_of_le_length inside]
            refine ih (fun b member => bare b (List.mem_of_mem_drop member)) ?_
            rw [List.length_cons] at enough
            rw [List.length_drop, List.length_cons]
            omega
          have inside := rune_stops a text rest low
          rw [charinRest, if_neg (by simp)]
          dsimp only
          rw [List.cons_append] at inside later ⊢
          rcases rune_cases a (text ++ c :: rest) with ⟨-, read⟩ | ⟨-, high, some, -, -⟩
          · obtain ⟨unquoted, undollared, other⟩ := bare a List.mem_cons_self
            have unseen : pat.any (fun b => decide (b.toNat = a.toNat)) = false := by
              refine List.any_eq_false.mpr fun b member same => other ?_
              exact UInt8.toNat_inj.mp (of_decide_eq_true same) ▸ member
            rw [read, if_neg unquoted, if_neg undollared, unseen]
            simpa using later 1 (Nat.le_refl 1) (by simp)
          · have unseen : pat.any (fun b => decide (b.toNat = (rune (a :: (text ++ c :: rest))).1)) = false := by
              refine List.any_eq_false.mpr fun b member same => ?_
              have := ascii b member
              have := of_decide_eq_true same
              omega
            have special : quote < 0x80 ∧ dollar < 0x80 ∧ rbrace < 0x80 := by decide
            rw [if_neg (by omega), if_neg (by omega), if_neg (by omega), unseen]
            simpa using later _ some inside

theorem extractpat_bare (stow : Str → List Str) {pat : Str} (ascii : ∀ b ∈ pat, b.toNat < 0x80) {text : Str} (rest : Str) {c : UInt8}
    (bare : Bare pat text) (terminator : c ∈ pat) (plain : c.toNat ≠ quote ∧ c.toNat ≠ dollar) :
    extractpat stow (text ++ c :: rest) pat = (if text.isEmpty then [] else stow text, c :: rest) := by
  have stops := charinRest_bare ascii rest bare terminator plain
    (show text.length < (text ++ c :: rest).length + 1 by rw [List.length_append]; omega)
  have before : (text ++ c :: rest).take ((text ++ c :: rest).length - (c :: rest).length) = text := by
    rw [List.length_append, Nat.add_sub_cancel, List.take_left]
  simp only [extractpat, stops, before]

theorem plain_equals : equals.toNat ≠ quote ∧ equals.toNat ≠ dollar := by decide

theorem wild_plain {c : UInt8} (wild : Wild c) : c.toNat ≠ quote ∧ c.toNat ≠ dollar := by
  rcases wild with rfl | rfl <;> decide

theorem startsWild_cons {c : UInt8} (wild : Wild c) (rest : Str) : startsWild (c :: rest) = true := (percent_iff c).mpr wild

/-- The characters that end the texts of a pattern. -/
def terminators : Str := [equals, percent, ampersand]

theorem terminators_ascii {pat : Str} (some : pat ⊆ terminators) : ∀ b ∈ pat, b.toNat < 0x80 := by
  intro b member
  have listed := some member
  simp only [terminators, List.mem_cons, List.not_mem_nil, or_false] at listed
  rcases listed with rfl | rfl | rfl <;> decide

/-- The texts A, B, C and D of a pattern A%B=C%D. -/
theorem pattern_texts (stow : Str → List Str) {a b c : Str} (d : Str) {one other : UInt8} (first : Wild one) (second : Wild other)
    (bareA : Bare [equals, percent, ampersand] a) (bareB : Bare [equals] b) (bareC : Bare [ampersand, percent] c) :
    pattern stow (a ++ one :: (b ++ equals :: (c ++ other :: d))) =
      ⟨if a.isEmpty then [] else stow a, if b.isEmpty then [] else stow b, if c.isEmpty then [] else stow c, stow d, true⟩ := by
  have left := extractpat_bare stow (terminators_ascii (show [equals, percent, ampersand] ⊆ terminators from List.Subset.refl _)) (b ++ equals :: (c ++ other :: d)) bareA
    (show one ∈ [equals, percent, ampersand] by rcases first with rfl | rfl <;> simp) (wild_plain first)
  have middle := extractpat_bare stow (terminators_ascii (by simp [terminators])) (c ++ other :: d) bareB
    (List.mem_singleton_self _) plain_equals
  have right := extractpat_bare stow (terminators_ascii (by simp [terminators])) d bareC
    (show other ∈ [ampersand, percent] by rcases second with rfl | rfl <;> simp) (wild_plain second)
  simp only [pattern, left, startsWild_cons first, List.drop_succ_cons, List.drop_zero, if_true, middle, List.head?_cons, right,
    startsWild_cons second]

end Text

section Example

end Example

end Goken.Proofs.MkVarsub
