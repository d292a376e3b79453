import Goken.MkGraph
import Goken.Proofs.Rune

/-! Templates of mk, byte by byte: the runes that `match` and `subst` step
through never hide a pattern character. -/

namespace Goken.Proofs.MkMatch
open Goken.MkGraph Goken.Rune

/-- A pattern character. -/
def Wild (b : UInt8) : Prop := b = percent ∨ b = ampersand

instance (b : UInt8) : Decidable (Wild b) := inferInstanceAs (Decidable (_ ∨ _))

theorem percent_iff (b : UInt8) : PERCENT b.toNat = true ↔ Wild b := by
  simp only [PERCENT, Wild, Bool.or_eq_true, decide_eq_true_eq, UInt8.toNat_inj]

theorem Wild.low {b : UInt8} (wild : Wild b) : b.toNat < 0x80 := by
  rcases wild with rfl | rfl <;> decide

/-- A rune is one byte below 0x80, or all of its bytes are above. -/
theorem rune_cases (a : UInt8) (s : Str) :
    (a.toNat < 0x80 ∧ rune (a :: s) = (a.toNat, 1)) ∨
    (0x80 ≤ a.toNat ∧ 0x80 ≤ (rune (a :: s)).1 ∧ 1 ≤ (rune (a :: s)).2 ∧ (rune (a :: s)).2 ≤ (a :: s).length ∧
      ∀ b ∈ (a :: s).take (rune (a :: s)).2, 0x80 ≤ b.toNat) := by
  have value : ∀ v n, v < 2 ^ 32 → chartorune (a :: s ++ [0]) = give v n → rune (a :: s) = (v, n) := by
    intro v n small read
    simp only [rune, read, give, UInt32.toNat_ofNat', Nat.mod_eq_of_lt small]
  by_cases low : a.toNat < 0x80
  · exact .inl ⟨low, value _ _ (by omega) (Rune.chartorune_one low)⟩
  have high : 0x80 ≤ a.toNat := Nat.le_of_not_lt low
  refine .inr ⟨high, ?_⟩
  rcases Rune.chartorune_cases (s := a :: s ++ [0]) (.inl (by simp)) with bad | ⟨v, rest, small, split⟩
  · rw [value _ _ (by decide) bad]
    refine ⟨by decide, Nat.le_refl _, by simp, ?_⟩
    simpa using high
  · have read : chartorune (a :: s ++ [0]) = give v (Rune.utf8 v).length := by rw [split, Rune.chartorune_utf8 small]
    have large : 0x80 ≤ v := by
      by_contra below
      rw [Rune.utf8, if_pos (Nat.lt_of_not_le below)] at split
      have first : a = .ofNat v := (List.cons.inj split).1
      rw [first, UInt8.toNat_ofNat'] at high
      omega
    have bytes := Rune.utf8_high large small
    have inside : ∃ tail, a :: s = Rune.utf8 v ++ tail := by
      rcases List.append_eq_append_iff.mp split with ⟨zero, left, right⟩ | ⟨tail, left, _⟩
      · cases zero with
        | nil => exact ⟨[], by simpa using left.symm⟩
        | cons z more =>
            have last : (0 : UInt8) = z := (List.cons.inj right).1
            have := bytes z (by rw [left]; simp)
            rw [← last] at this
            exact absurd this (by decide)
      · exact ⟨tail, left⟩
    obtain ⟨tail, same⟩ := inside
    have nonempty : 1 ≤ (Rune.utf8 v).length := by
      unfold Rune.utf8
      split_ifs <;> simp
    rw [value _ _ (by omega) read]
    refine ⟨large, nonempty, by rw [same]; simp, ?_⟩
    rw [same]
    simpa using bytes

/-- The next rune of a template: a pattern character, or some bytes that are
none. -/
theorem rune_step (a : UInt8) (s : Str) :
    (Wild a ∧ PERCENT (rune (a :: s)).1 = true ∧ (rune (a :: s)).2 = 1) ∨
    (PERCENT (rune (a :: s)).1 = false ∧ 1 ≤ (rune (a :: s)).2 ∧ (rune (a :: s)).2 ≤ (a :: s).length ∧
      ∀ b ∈ (a :: s).take (rune (a :: s)).2, ¬ Wild b) := by
  rcases rune_cases a s with ⟨low, read⟩ | ⟨-, high, some, inside, bytes⟩
  · by_cases wild : Wild a
    · exact .inl ⟨wild, by rw [read]; exact (percent_iff a).mpr wild, by rw [read]⟩
    · refine .inr ⟨by rw [read]; exact Bool.eq_false_iff.mpr (fun yes => wild ((percent_iff a).mp yes)), ?_⟩
      rw [read]
      simpa using wild
  · refine .inr ⟨?_, some, inside, fun b member wild => ?_⟩
    · have sizes : percent.toNat < 0x80 ∧ ampersand.toNat < 0x80 := by decide
      have apart : (rune (a :: s)).1 ≠ percent.toNat ∧ (rune (a :: s)).1 ≠ ampersand.toNat := by omega
      simp [PERCENT, apart.1, apart.2]
    · have := bytes b member
      have := wild.low
      omega

theorem store_all (dlen : Nat) (bytes dest : Str) (fits : dest.length ≤ dlen - 1) :
    bytes.foldl (store dlen) dest = (dest ++ bytes).take (dlen - 1) := by
  induction bytes generalizing dest with
  | nil =>
      rw [List.append_nil, List.take_of_length_le fits]
      rfl
  | cons b bytes ih =>
      rw [List.foldl_cons, store]
      split
      · rename_i room
        rw [ih _ (by simp; omega)]
        simp
      · rename_i full
        have exact' : dest.length = dlen - 1 := by omega
        rw [ih dest fits, List.take_append_of_le_length (by omega), List.take_append_of_le_length (by omega)]

theorem take_take_append {α : Type} (n : Nat) (l r : List α) : (l.take n ++ r).take n = (l ++ r).take n := by
  by_cases short : l.length ≤ n
  · rw [List.take_of_length_le short]
  · rw [List.take_append_of_le_length (by simp; omega), List.take_append_of_le_length (by omega), List.take_take, Nat.min_self]

/-- A template with the stem in the place of every pattern character. -/
def expand (stem template : Str) : Str := template.flatMap fun b => if Wild b then stem else [b]

theorem expand_plain (stem : Str) {bytes : Str} (plain : ∀ b ∈ bytes, ¬ Wild b) : expand stem bytes = bytes := by
  induction bytes with
  | nil => rfl
  | cons b bytes ih =>
      rw [expand, List.flatMap_cons, if_neg (plain b (by simp))]
      exact congrArg (b :: ·) (ih fun c member => plain c (by simp [member]))

theorem substFrom_eq (stem : Str) (dlen fuel : Nat) (template dest : Str) (enough : template.length < fuel)
    (fits : dest.length ≤ dlen - 1) :
    substFrom stem dlen fuel template dest = (dest ++ expand stem template).take (dlen - 1) := by
  induction fuel generalizing template dest with
  | zero => omega
  | succ fuel ih =>
      cases template with
      | nil => simp [substFrom, expand, List.take_of_length_le fits]
      | cons a s =>
          have shorter : ∀ n, 1 ≤ n → ((a :: s).drop n).length < fuel := by
            intro n some
            rw [List.length_drop, List.length_cons]
            rw [List.length_cons] at enough
            omega
          have bound : ∀ l : Str, (l.take (dlen - 1)).length ≤ dlen - 1 := fun l => by simp
          rcases rune_step a s with ⟨wild, yes, one⟩ | ⟨no, some, inside, plain⟩
          · simp only [substFrom, List.isEmpty_cons, yes, one, if_true]
            rw [if_neg (by simp), store_all _ _ _ fits, ih _ _ (shorter 1 (Nat.le_refl 1)) (bound _), take_take_append]
            simp only [List.drop_succ_cons, List.drop_zero, expand, List.flatMap_cons, if_pos wild, List.append_assoc]
          · simp only [substFrom, List.isEmpty_cons, no]
            rw [if_neg (by simp), if_neg (by simp), store_all _ _ _ fits, ih _ _ (shorter _ some) (bound _), take_take_append]
            have cut : expand stem (a :: s) =
                (a :: s).take (rune (a :: s)).2 ++ expand stem ((a :: s).drop (rune (a :: s)).2) := by
              conv => lhs; rw [← List.take_append_drop (rune (a :: s)).2 (a :: s)]
              rw [expand, List.flatMap_append]
              exact congrArg (· ++ _) (expand_plain stem plain)
            rw [cut, List.append_assoc]

theorem subst_eq (stem template : Str) (dlen : Nat) : subst stem template dlen = (expand stem template).take (dlen - 1) :=
  substFrom_eq stem dlen _ template [] (Nat.lt_succ_self _) (Nat.zero_le _)

theorem skip_some {n : Nat} {name template name' template' : Str} (skipped : skip n name template = some (name', template')) :
    ∃ bytes, name = bytes ++ name' ∧ template = bytes ++ template' ∧ bytes = template.take n := by
  induction n generalizing name template with
  | zero =>
      simp only [skip, Option.some.injEq, Prod.mk.injEq] at skipped
      exact ⟨[], by simp [skipped.1], by simp [skipped.2], by simp⟩
  | succ n ih =>
      cases name with
      | nil => simp [skip] at skipped
      | cons a name =>
          cases template with
          | nil => simp [skip] at skipped
          | cons b template =>
              simp only [skip] at skipped
              split at skipped
              · cases skipped
              · rename_i same
                obtain ⟨bytes, rfl, whole, taken⟩ := ih skipped
                obtain rfl : a = b := not_not.mp same
                exact ⟨a :: bytes, rfl, by rw [whole]; rfl, by rw [taken]; rfl⟩

theorem skip_prefix (bytes name template : Str) :
    skip bytes.length (bytes ++ name) (bytes ++ template) = some (name, template) := by
  induction bytes with
  | nil => rfl
  | cons b bytes ih => simpa [skip] using ih

/-- What `match` has gone past when it comes to the pattern character. -/
theorem before_some {fuel : Nat} {name template name' template' : Str}
    (found : before fuel name template = some (name', template')) :
    ∃ bytes, name = bytes ++ name' ∧ template = bytes ++ template' ∧ ∀ b ∈ bytes, ¬ Wild b := by
  induction fuel generalizing name template with
  | zero => simp [before] at found
  | succ fuel ih =>
      rw [before] at found
      split at found
      · cases found
        exact ⟨[], rfl, rfl, by simp⟩
      · cases template with
        | nil => simp at *
        | cons a s =>
            dsimp only at found
            split at found
            · cases found
              exact ⟨[], rfl, rfl, by simp⟩
            · rename_i no
              split at found
              · cases found
              · rename_i name1 template1 skipped
                obtain ⟨first, rfl, whole, taken⟩ := skip_some skipped
                obtain ⟨rest, rfl, rfl, plain⟩ := ih found
                refine ⟨first ++ rest, by simp, by rw [whole]; simp, ?_⟩
                intro b member
                rcases List.mem_append.mp member with member | member
                · rcases rune_step a s with ⟨-, yes, -⟩ | ⟨-, -, -, bytes⟩
                  · exact absurd yes no
                  · exact bytes b (taken ▸ member)
                · exact plain b member

/-- `match` goes past everything before the first pattern character. -/
theorem before_prefix {fuel : Nat} {bytes : Str} (name rest : Str) {c : UInt8} (plain : ∀ b ∈ bytes, ¬ Wild b) (wild : Wild c)
    (enough : bytes.length < fuel) :
    before fuel (bytes ++ name) (bytes ++ c :: rest) = some (name, c :: rest) := by
  induction fuel generalizing bytes with
  | zero => omega
  | succ fuel ih =>
      cases bytes with
      | nil =>
          rw [before]
          split
          · rfl
          · rcases rune_step c rest with ⟨-, yes, -⟩ | ⟨-, some, -, bytes⟩
            · simp [yes]
            · refine absurd wild (bytes c ?_)
              obtain ⟨n, same⟩ := Nat.exists_eq_add_of_le' some
              rw [same]
              simp
      | cons a s =>
          rw [before]
          rcases rune_step a (s ++ c :: rest) with ⟨yes, -⟩ | ⟨no, some, inside, bytes⟩
          · exact absurd yes (plain a (by simp))
          · rw [List.cons_append, if_neg (by simp), List.cons_append]
            simp only [no]
            generalize (rune (a :: (s ++ c :: rest))).2 = n at some inside bytes ⊢
            rw [← List.cons_append] at bytes
            have short : n ≤ (a :: s).length := by
              by_contra long
              refine absurd wild (bytes c ?_)
              rw [List.take_append, List.mem_append]
              obtain ⟨m, same⟩ := Nat.exists_eq_add_of_lt (Nat.lt_of_not_le long)
              rw [same, show (a :: s).length + m + 1 - (a :: s).length = m + 1 by omega]
              simp
            obtain ⟨first, later, split, rfl⟩ : ∃ first later, a :: s = first ++ later ∧ first.length = n :=
              ⟨(a :: s).take n, (a :: s).drop n, (List.take_append_drop _ _).symm, List.length_take_of_le short⟩
            have fewer : later.length < fuel := by
              have := congrArg List.length split
              rw [List.length_append] at this
              omega
            rw [if_neg (by simp), ← List.cons_append, ← List.cons_append, split, List.append_assoc, List.append_assoc, skip_prefix]
            exact ih (fun b member => plain b (by rw [split]; exact List.mem_append_right _ member)) fewer

/-- `match` finds the stem of the template's first pattern character, which
for an ampersand has no dot and no slash that `charin` sees. -/
theorem matchStem_iff (name template stem : Str) : matchStem name template = some (some stem) ↔
    ∃ bytes c rest, template = bytes ++ c :: rest ∧ (∀ b ∈ bytes, ¬ Wild b) ∧ Wild c ∧ name = bytes ++ stem ++ rest ∧
      stem.length < NAMEBLOCK ∧ (c = ampersand → charin stem dotSlash = false) := by
  constructor
  · intro found
    rw [matchStem] at found
    split at found
    · cases found
    · cases found
    · rename_i name' c rest past
      obtain ⟨bytes, rfl, rfl, plain⟩ := before_some past
      dsimp only at found
      split at found
      · cases found
      rename_i wild
      split at found
      · cases found
      rename_i long
      split at found
      · cases found
      rename_i tail
      split at found
      · cases found
      rename_i room
      have tail : rest = name'.drop (name'.length - rest.length) := not_not.mp tail
      have size : (name'.take (name'.length - rest.length)).length < NAMEBLOCK := by
        rw [List.length_take]
        omega
      have whole : ∀ stem, name'.take (name'.length - rest.length) = stem → bytes ++ name' = bytes ++ stem ++ rest := by
        rintro stem rfl
        rw [List.append_assoc]
        conv => rhs; rhs; rhs; rw [tail]
        rw [List.take_append_drop]
      have wild : Wild c := (percent_iff c).mp (by simpa using wild)
      split at found
      · split at found
        · cases found
        · rename_i clear
          cases found
          exact ⟨bytes, c, rest, rfl, plain, wild, whole _ rfl, size, fun _ => by simpa using clear⟩
      · rename_i other
        cases found
        exact ⟨bytes, c, rest, rfl, plain, wild, whole _ rfl, size, fun same => absurd same other⟩
  · rintro ⟨bytes, c, rest, rfl, plain, wild, rfl, size, clear⟩
    have enough : bytes.length < (bytes ++ c :: rest).length + 1 := by
      rw [List.length_append]
      omega
    have past := before_prefix (stem ++ rest) rest plain wild enough
    rw [matchStem, List.append_assoc, past]
    have yes : PERCENT c.toNat = true := (percent_iff c).mpr wild
    have length : (stem ++ rest).length - rest.length = stem.length := by simp
    simp only [yes, length]
    rw [if_neg (by simp), if_neg (by simp), if_neg (by simp), if_neg (Nat.not_le.mpr size), List.take_left]
    split
    · rw [if_neg (by simp [clear ‹_›])]
    · rfl

/-- A short name leaves room for every stem. -/
theorem matchStem_short {name : Str} (short : name.length < NAMEBLOCK) (template : Str) : (matchStem name template).isSome := by
  rw [matchStem]
  split
  · rfl
  · rfl
  · rename_i name' c rest past
    obtain ⟨bytes, rfl, -, -⟩ := before_some past
    rw [List.length_append] at short
    dsimp only
    split
    · rfl
    split
    · rfl
    split
    · rfl
    rw [if_neg (by omega)]
    split
    · split <;> rfl
    · rfl

end Goken.Proofs.MkMatch
