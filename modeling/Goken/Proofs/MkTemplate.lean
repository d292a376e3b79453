import Goken.Proofs.MkMatch
import Mathlib.Data.List.Infix

/-! Templates with one pattern character. `match` takes them apart and `subst`
puts them together again, but for an ampersand the stem is searched by `charin`,
which is meant for the text of a mkfile: quotes and `${}` hide what is in them. -/

namespace Goken.Proofs.MkTemplate
open Goken.MkGraph MkMatch

/-- A template with one pattern character. -/
structure Single where
  before : Str
  wild : UInt8
  after : Str
  pattern : Wild wild
  plain : ∀ b ∈ before ++ after, ¬ Wild b

def Single.text (t : Single) : Str := t.before ++ t.wild :: t.after

/-- A template with exactly one pattern character is of this form. -/
theorem single_of_count {template : Str} (one : template.countP (fun b => decide (Wild b)) = 1) :
    ∃ t : Single, t.text = template := by
  obtain ⟨c, member, wild⟩ := List.countP_pos_iff.mp (one ▸ Nat.one_pos)
  obtain ⟨before, after, rfl⟩ := List.append_of_mem member
  rw [List.countP_append, List.countP_cons, if_pos wild] at one
  have none : (before ++ after).countP (fun b => decide (Wild b)) = 0 := by
    rw [List.countP_append]
    omega
  exact ⟨⟨before, c, after, of_decide_eq_true wild, fun b inside => of_decide_eq_false
    (Bool.not_eq_true _ ▸ List.countP_eq_zero.mp none b inside)⟩, rfl⟩

theorem Single.expand_text (t : Single) (stem : Str) : expand stem t.text = t.before ++ stem ++ t.after := by
  have front := expand_plain stem fun b member => t.plain b (List.mem_append_left _ member)
  have back := expand_plain stem fun b member => t.plain b (List.mem_append_right _ member)
  rw [expand] at front back
  rw [expand, Single.text, List.flatMap_append, List.flatMap_cons, if_pos t.pattern, front, back, List.append_assoc]

/-- The pattern character of a template stands in one place only. -/
theorem Single.places (t : Single) {before after : Str} {c : UInt8} (same : t.text = before ++ c :: after)
    (plain : ∀ b ∈ before, ¬ Wild b) (wild : Wild c) : before = t.before ∧ c = t.wild ∧ after = t.after := by
  rcases List.append_eq_append_iff.mp same with ⟨more, longer, rest⟩ | ⟨more, longer, rest⟩
  · cases more with
    | nil =>
        obtain ⟨first, last⟩ := List.cons.inj rest
        exact ⟨by rw [longer, List.append_nil], first.symm, last.symm⟩
    | cons b more =>
        obtain rfl := (List.cons.inj rest).1
        exact absurd t.pattern (plain _ (by rw [longer]; simp))
  · cases more with
    | nil =>
        obtain ⟨first, last⟩ := List.cons.inj rest
        exact ⟨by rw [longer, List.append_nil], first, last⟩
    | cons b more =>
        obtain rfl := (List.cons.inj rest).1
        exact absurd wild (t.plain _ (by rw [longer]; simp))

/-- `match` on a name that the template fits. -/
theorem Single.match_stem (t : Single) {name stem : Str} (whole : name = t.before ++ stem ++ t.after) :
    matchStem name t.text =
      if NAMEBLOCK ≤ stem.length then none
      else if t.wild = ampersand then if charin stem dotSlash then some none else some (some stem)
      else some (some stem) := by
  have enough : t.before.length < t.text.length + 1 := by
    rw [Single.text, List.length_append]
    omega
  have past : MkGraph.before (t.text.length + 1) (t.before ++ (stem ++ t.after)) t.text = some (stem ++ t.after, t.wild :: t.after) :=
    before_prefix _ _ (fun b member => t.plain b (List.mem_append_left _ member)) t.pattern enough
  have yes : PERCENT t.wild.toNat = true := (percent_iff t.wild).mpr t.pattern
  have length : (stem ++ t.after).length - t.after.length = stem.length := by simp
  rw [whole, matchStem, List.append_assoc, past]
  simp only [yes, length]
  rw [if_neg (by simp), if_neg (by simp), if_neg (by simp), List.take_left]

/-- What `match` takes or runs out of room for is cut at the pattern character. -/
theorem matchStem_cuts {name template : Str} (cut : matchStem name template ≠ some none) :
    ∃ bytes c rest stem, template = bytes ++ c :: rest ∧ (∀ b ∈ bytes, ¬ Wild b) ∧ Wild c ∧ name = bytes ++ stem ++ rest := by
  rw [matchStem] at cut
  split at cut
  · exact absurd rfl cut
  · exact absurd rfl cut
  · rename_i name' c rest past
    obtain ⟨bytes, rfl, rfl, plain⟩ := before_some past
    dsimp only at cut
    split at cut
    · exact absurd rfl cut
    rename_i wild
    split at cut
    · exact absurd rfl cut
    split at cut
    · exact absurd rfl cut
    rename_i tail
    refine ⟨bytes, c, rest, name'.take (name'.length - rest.length), rfl, plain, (percent_iff c).mp (by simpa using wild), ?_⟩
    have tail : rest = name'.drop (name'.length - rest.length) := not_not.mp tail
    rw [List.append_assoc]
    conv => rhs; rhs; rhs; rw [tail]
    rw [List.take_append_drop]

/-- `match` on a name that the template does not fit. -/
theorem Single.match_other (t : Single) {name : Str} (other : ∀ stem, name ≠ t.before ++ stem ++ t.after) :
    matchStem name t.text = some none := by
  by_contra cut
  obtain ⟨bytes, c, rest, stem, same, plain, wild, whole⟩ := matchStem_cuts cut
  obtain ⟨rfl, rfl, rfl⟩ := t.places same plain wild
  exact other stem whole

section Charin

theorem squote_suffix {fuel : Nat} {cp rest : Str} (found : squote fuel cp = some rest) : rest <:+ cp := by
  induction fuel generalizing cp with
  | zero => cases found
  | succ fuel ih =>
      rw [squote] at found
      split at found
      · cases found
      · dsimp only at found
        split at found
        · split at found
          · cases found
            exact List.suffix_refl _
          · exact (ih found).trans (List.drop_suffix _ _)
        · exact (ih found).trans (List.drop_suffix _ _)

/-- A character of the set that `charin` stops at is a byte of the string. -/
theorem rune_member {pat : Str} {cp : Str} (ascii : ∀ b ∈ pat, b.toNat < 0x80) (full : cp ≠ [])
    (found : pat.any (fun b => decide (b.toNat = (rune cp).1)) = true) : ∃ b ∈ pat, b ∈ cp := by
  obtain ⟨b, member, same⟩ := List.any_eq_true.mp found
  cases cp with
  | nil => exact absurd rfl full
  | cons a s =>
      have same : b.toNat = (rune (a :: s)).1 := of_decide_eq_true same
      rcases rune_cases a s with ⟨-, read⟩ | ⟨-, high, -⟩
      · rw [read] at same
        exact ⟨b, member, UInt8.toNat_inj.mp same ▸ List.mem_cons_self⟩
      · have := ascii b member
        omega

theorem charinFrom_sound {pat : Str} (ascii : ∀ b ∈ pat, b.toNat < 0x80) {fuel : Nat} {cp : Str} {vargen : Bool}
    (found : charinFrom pat fuel cp vargen = true) : ∃ b ∈ pat, b ∈ cp := by
  induction fuel generalizing cp vargen with
  | zero => cases found
  | succ fuel ih =>
      have later : ∀ {rest : Str} {v : Bool}, rest <:+ cp → charinFrom pat fuel rest v = true → ∃ b ∈ pat, b ∈ cp := by
        intro rest v suffix found
        obtain ⟨b, member, inside⟩ := ih found
        exact ⟨b, member, suffix.subset inside⟩
      have next := fun n => List.drop_suffix n cp
      rw [charinFrom] at found
      split at found
      · cases found
      rename_i nonempty
      have here := rune_member ascii (by simpa using nonempty)
      dsimp only at found
      split at found
      · split at found
        · cases found
        · rename_i rest closed
          exact later ((List.drop_suffix _ rest).trans ((squote_suffix closed).trans (next 1))) found
      split at found
      · exact later (next _) found
      split at found
      · split at found
        · exact later (next _) found
        · split at found
          · exact here ‹_›
          · exact later (next _) found
      · split at found
        · rename_i seen
          exact here (Bool.and_eq_true_iff.mp seen).1
        · exact later (next _) found

/-- A string with no quote and no dollar hides nothing. -/
theorem charinFrom_bare {pat : Str} (ascii : ∀ b ∈ pat, b.toNat < 0x80) {fuel : Nat} {cp : Str}
    (bare : ∀ b ∈ cp, b.toNat ≠ quote ∧ b.toNat ≠ dollar) (enough : cp.length < fuel) (member : ∃ b ∈ pat, b ∈ cp) :
    charinFrom pat fuel cp false = true := by
  induction fuel generalizing cp with
  | zero => omega
  | succ fuel ih =>
      obtain ⟨b, set, inside⟩ := member
      cases cp with
      | nil => cases inside
      | cons a s =>
          have later : ∀ n, 1 ≤ n → b ∈ (a :: s).drop n → charinFrom pat fuel ((a :: s).drop n) false = true := by
            intro n some inside
            refine ih (fun c member => bare c (List.mem_of_mem_drop member)) ?_ ⟨b, set, inside⟩
            rw [List.length_cons] at enough
            rw [List.length_drop, List.length_cons]
            omega
          rw [charinFrom, if_neg (by simp)]
          dsimp only
          rcases rune_cases a s with ⟨-, read⟩ | ⟨-, high, some, -, bytes⟩
          · obtain ⟨unquoted, undollared⟩ := bare a List.mem_cons_self
            rw [read, if_neg unquoted, if_neg undollared]
            by_cases first : pat.any (fun c => decide (c.toNat = a.toNat)) = true
            · simp [first]
            · have other : b ≠ a := by
                rintro rfl
                exact first (List.any_eq_true.mpr ⟨b, set, decide_eq_true rfl⟩)
              have rest := later 1 (Nat.le_refl 1) ((List.mem_cons.mp inside).resolve_left other)
              simp only [first, Bool.false_and, Bool.false_eq_true, if_false, ite_self]
              exact rest
          · have low := ascii b set
            have unseen : pat.any (fun c => decide (c.toNat = (rune (a :: s)).1)) = false := by
              refine List.any_eq_false.mpr fun c member same => ?_
              have := ascii c member
              have := of_decide_eq_true same
              omega
            have special : quote < 0x80 ∧ dollar < 0x80 ∧ rbrace < 0x80 := by decide
            rw [if_neg (by omega), if_neg (by omega), if_neg (by omega), unseen]
            simp only [Bool.false_and, Bool.false_eq_true, if_false]
            refine later _ some ?_
            rw [← List.take_append_drop (rune (a :: s)).2 (a :: s), List.mem_append] at inside
            refine inside.resolve_left fun early => ?_
            have := bytes b early
            omega

theorem charin_sound {pat cp : Str} (ascii : ∀ b ∈ pat, b.toNat < 0x80) (found : charin cp pat = true) : ∃ b ∈ pat, b ∈ cp :=
  charinFrom_sound ascii found

end Charin

/-- Whether a stem has a dot or a slash. -/
def parted (stem : Str) : Bool := stem.any fun b => dotSlash.contains b

/-- A stem whose dots and slashes `charin` does not see. -/
def hidden (stem : Str) : Bool := parted stem && !charin stem dotSlash

theorem dotSlash_ascii : ∀ b ∈ dotSlash, b.toNat < 0x80 := by
  intro b member
  rcases List.mem_cons.mp member with rfl | member
  · decide
  · rw [List.mem_singleton.mp member]
    decide

theorem hidden_bare {stem : Str} (bare : ∀ b ∈ stem, b.toNat ≠ quote ∧ b.toNat ≠ dollar) : hidden stem = false := by
  rw [hidden]
  cases seen : parted stem with
  | false => rfl
  | true =>
      obtain ⟨b, inside, set⟩ := List.any_eq_true.mp seen
      rw [charin, charinFrom_bare dotSlash_ascii bare (Nat.lt_succ_self _) ⟨b, List.contains_iff_mem.mp set, inside⟩]
      rfl

theorem parted_of_charin {stem : Str} (found : charin stem dotSlash = true) : parted stem = true := by
  obtain ⟨b, member, inside⟩ := charin_sound dotSlash_ascii found
  exact List.any_eq_true.mpr ⟨b, inside, List.contains_iff_mem.mpr member⟩

/-- The stems of a name by the template. -/
def Stem (t : Single) (name stem : Str) : Prop :=
  name = t.before ++ stem ++ t.after ∧ (t.wild = ampersand → parted stem = false)

/-- `match` finds the stem, if there is one, and `subst` makes the name of it. -/
def Inverse (t : Single) (name : Str) : Prop :=
  ∃ result, matchStem name t.text = some result ∧ (∀ stem, result = some stem ↔ Stem t name stem) ∧
    ∀ stem dlen, result = some stem → name.length < dlen → subst stem t.text dlen = name

theorem Single.subst_name (t : Single) {name stem : Str} {dlen : Nat} (whole : name = t.before ++ stem ++ t.after)
    (fits : name.length < dlen) : subst stem t.text dlen = name := by
  rw [subst_eq, t.expand_text, ← whole, List.take_of_length_le (by omega)]

theorem Single.unique (t : Single) {stem stem' : Str} (same : t.before ++ stem ++ t.after = t.before ++ stem' ++ t.after) :
    stem = stem' := List.append_cancel_left (List.append_cancel_right same)

/-- The templates are inverted for the names whose stem has room and, for an
ampersand, does not hide its dots and slashes. -/
theorem inverse_iff (t : Single) (name : Str) :
    Inverse t name ↔ ∀ stem, name = t.before ++ stem ++ t.after →
      stem.length < NAMEBLOCK ∧ (t.wild = ampersand → hidden stem = false) := by
  constructor
  · rintro ⟨result, found, exactly, -⟩ stem whole
    rw [t.match_stem whole] at found
    split at found
    · cases found
    refine ⟨Nat.lt_of_not_le ‹_›, fun amp => ?_⟩
    rw [if_pos amp] at found
    split at found
    · rename_i seen
      simp [hidden, seen]
    · cases found
      have clear := ((exactly stem).mp rfl).2 amp
      simp [hidden, clear]
  · intro meets
    by_cases fits : ∃ stem, name = t.before ++ stem ++ t.after
    · obtain ⟨stem, whole⟩ := fits
      obtain ⟨room, shown⟩ := meets stem whole
      have found := t.match_stem whole
      rw [if_neg (Nat.not_le.mpr room)] at found
      have only : ∀ other, Stem t name other ↔ other = stem ∧ (t.wild = ampersand → parted stem = false) := by
        intro other
        constructor
        · rintro ⟨same, clear⟩
          obtain rfl := t.unique (whole.symm.trans same)
          exact ⟨rfl, clear⟩
        · rintro ⟨rfl, clear⟩
          exact ⟨whole, clear⟩
      have back : ∀ other dlen, some stem = some other → name.length < dlen → subst other t.text dlen = name := by
        intro other dlen same short
        cases same
        exact t.subst_name whole short
      by_cases amp : t.wild = ampersand
      · rw [if_pos amp] at found
        cases seen : charin stem dotSlash with
        | true =>
            rw [seen, if_pos rfl] at found
            refine ⟨none, found, fun other => ⟨nofun, fun good => ?_⟩, nofun⟩
            have clear := ((only other).mp good).2 amp
            rw [parted_of_charin seen] at clear
            cases clear
        | false =>
            rw [seen, if_neg Bool.false_ne_true] at found
            have clear : parted stem = false := by simpa [hidden, seen] using shown amp
            refine ⟨some stem, found, fun other => ?_, back⟩
            rw [only]
            exact ⟨fun same => ⟨(Option.some.inj same).symm, fun _ => clear⟩, fun good => congrArg some good.1.symm⟩
      · rw [if_neg amp] at found
        refine ⟨some stem, found, fun other => ?_, back⟩
        rw [only]
        exact ⟨fun same => ⟨(Option.some.inj same).symm, fun yes => absurd yes amp⟩, fun good => congrArg some good.1.symm⟩
    · have other : ∀ stem, name ≠ t.before ++ stem ++ t.after := fun stem whole => fits ⟨stem, whole⟩
      exact ⟨none, t.match_other other, fun stem => ⟨nofun, fun good => absurd good.1 (other stem)⟩, nofun⟩

section Example

def amp : Single := ⟨[], ampersand, [], .inr rfl, by simp⟩

/-- The name 'a.b', quotes and all. -/
def quotedName : Str := [0x27, 0x61, 0x2E, 0x62, 0x27]

theorem quoted_dot : matchStem quotedName amp.text = some (some quotedName) ∧ parted quotedName = true ∧ ¬ Inverse amp quotedName := by
  have found : matchStem quotedName amp.text = some (some quotedName) := by decide
  have dotted : parted quotedName = true := by decide
  refine ⟨found, dotted, ?_⟩
  rintro ⟨result, taken, exactly, -⟩
  obtain rfl := Option.some.inj (found.symm.trans taken)
  have clear := ((exactly quotedName).mp rfl).2 rfl
  rw [dotted] at clear
  cases clear

end Example

end Goken.Proofs.MkTemplate
