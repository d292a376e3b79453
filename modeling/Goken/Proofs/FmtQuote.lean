import Goken.FmtQuote
import Goken.Proofs.Rune

/-! The passes of quoted formatting over the same characters: what the sizing
pass accepts, and what the writing pass makes of it. -/

namespace Goken.Proofs.FmtQuote
open Goken.FmtQuote Goken.Rune

/-- The runes of a string that `runetochar` writes as they are. -/
def Valid (r : List Rune) : Prop := ∀ c ∈ r, 1 ≤ c.toNat ∧ c.toNat ≤ Runemax

def encode (r : List Rune) : List UInt8 := r.flatMap runetochar

theorem Valid.tail {c : Rune} {r : List Rune} (valid : Valid (c :: r)) : Valid r := fun x member => valid x (List.mem_cons_of_mem c member)

theorem runelen_pos (c : Rune) : 0 < runelen c := by
  rw [runelen, Rune.runetochar_eq, Rune.utf8_length]
  split_ifs <;> decide

theorem chars_encode {r : List Rune} (valid : Valid r) {fuel : Nat} (enough : (encode r).length < fuel) :
    chars fuel (encode r) = r.map fun c => (c, runelen c) := by
  induction r generalizing fuel with
  | nil =>
      cases fuel with
      | zero => omega
      | succ fuel => rfl
  | cons c r ih =>
      obtain ⟨fuel, rfl⟩ := Nat.exists_eq_succ_of_ne_zero (Nat.ne_of_gt (Nat.zero_lt_of_lt enough))
      obtain ⟨positive, small⟩ := valid c List.mem_cons_self
      have nonzero : c ≠ 0 := by
        rintro rfl
        exact absurd positive (by decide)
      have split : encode (c :: r) = runetochar c ++ encode r := rfl
      have shorter : (encode r).length < fuel := by
        have := runelen_pos c
        rw [split, List.length_append] at enough
        rw [runelen] at this
        omega
      have rest : (encode (c :: r)).drop (runelen c) = encode r := by rw [split, runelen, List.drop_left]
      have read : chartorune (encode (c :: r) ++ [0]) = some (c, runelen c) := by
        rw [split, List.append_assoc, Rune.runetochar_chartorune small]
      rw [chars]
      simp only [read, nonzero, if_false, rest, ih valid.tail shorter, List.map_cons]

theorem chars_bytes {r : List Rune} (valid : Valid r) : (Input.bytes (encode r)).chars = (Input.runes r).chars :=
  chars_encode valid (Nat.lt_succ_self _)

theorem quotesetup_agrees (fmtdoquote : Rune → Bool) {r : List Rune} (valid : Valid r) (nin nout : Int) (sharp runesout : Bool) :
    quotesetup fmtdoquote (.bytes (encode r)) nin nout sharp runesout = quotesetup fmtdoquote (.runes r) nin nout sharp runesout := by
  rw [quotesetup, quotesetup, chars_bytes valid]

@[simp] theorem addChar_nrunesin (q : Quoteinfo) (c : Rune) (w : Nat) : (addChar q c w).nrunesin = q.nrunesin + 1 := rfl

@[simp] theorem addChar_nbytesin (q : Quoteinfo) (c : Rune) (w : Nat) : (addChar q c w).nbytesin = q.nbytesin + w := rfl

theorem opened_counts (opens : Bool) (q : Quoteinfo) :
    (if opens then addQuotes q else q).nrunesin = q.nrunesin ∧ (if opens then addQuotes q else q).nbytesin = q.nbytesin := by
  cases opens <;> exact ⟨rfl, rfl⟩

/-- The characters that the sizing pass goes over are a first part of the
string. -/
theorem setupLoop_accepts (fmtdoquote : Rune → Bool) (nout : Int) (runesout : Bool) (l : List (Rune × Nat)) (nin : Int) (q : Quoteinfo) :
    ∃ k ≤ l.length, (setupLoop fmtdoquote nout runesout l nin q).nrunesin = q.nrunesin + k ∧
      (setupLoop fmtdoquote nout runesout l nin q).nbytesin = q.nbytesin + ((l.take k).map Prod.snd).sum := by
  induction l generalizing nin q with
  | nil => exact ⟨0, Nat.zero_le _, rfl, rfl⟩
  | cons first l ih =>
      obtain ⟨c, w⟩ := first
      rw [setupLoop]
      dsimp only
      generalize (needsQuotes fmtdoquote c && !q.quoted) = opens
      obtain ⟨runes, bytes⟩ := opened_counts opens q
      generalize (if opens then addQuotes q else q) = opened at runes bytes ⊢
      split_ifs
      · exact ⟨0, Nat.zero_le _, rfl, rfl⟩
      · exact ⟨0, Nat.zero_le _, rfl, rfl⟩
      · exact ⟨0, Nat.zero_le _, runes, bytes⟩
      · obtain ⟨k, inside, counted, sized⟩ := ih (nin - (w - 1) - 1) (addChar opened c w)
        refine ⟨k + 1, Nat.succ_le_succ inside, ?_, ?_⟩
        · rw [counted, addChar_nrunesin, runes]
          omega
        · rw [sized, addChar_nbytesin, bytes, List.take_succ_cons, List.map_cons, List.sum_cons]
          omega

theorem quotesetup_accepts (fmtdoquote : Rune → Bool) (input : Input) (nin nout : Int) (sharp runesout : Bool) :
    (quotesetup fmtdoquote input nin nout sharp runesout).nrunesin ≤ input.chars.length ∧
      (quotesetup fmtdoquote input nin nout sharp runesout).nbytesin =
        ((input.chars.take (quotesetup fmtdoquote input nin nout sharp runesout).nrunesin).map Prod.snd).sum := by
  have loop : ∀ q : Quoteinfo, q.nrunesin = 0 → q.nbytesin = 0 →
      (setupLoop fmtdoquote nout runesout input.chars nin q).nrunesin ≤ input.chars.length ∧
        (setupLoop fmtdoquote nout runesout input.chars nin q).nbytesin =
          ((input.chars.take (setupLoop fmtdoquote nout runesout input.chars nin q).nrunesin).map Prod.snd).sum := by
    intro q noRunes noBytes
    obtain ⟨k, inside, counted, sized⟩ := setupLoop_accepts fmtdoquote nout runesout input.chars nin q
    rw [noRunes, Nat.zero_add] at counted
    rw [noBytes, Nat.zero_add] at sized
    rw [counted]
    exact ⟨inside, sized⟩
  unfold quotesetup
  split_ifs
  · exact ⟨Nat.zero_le _, rfl⟩
  · exact loop _ rfl rfl
  · exact loop _ rfl rfl

/-! The writing pass. -/

theorem runetochar_low {c : Rune} (low : c.toNat < 0x80) : runetochar c = [.ofNat c.toNat] := by
  have small : c.toNat ≤ Runemax := by
    rw [show Runemax = 0x10FFFF from rfl]
    omega
  rw [Rune.runetochar_eq, if_pos small, Rune.utf8, if_pos low]

theorem runetochar_bytes {c : Rune} (high : 0x80 ≤ c.toNat) : ∀ b ∈ runetochar c, 0x80 ≤ b.toNat := by
  have large : 0x80 ≤ if c.toNat ≤ Runemax then c.toNat else Runeerror := by
    split
    · exact high
    · decide
  have bound : (if c.toNat ≤ Runemax then c.toNat else Runeerror) < 2 ^ 21 := by
    split
    · rename_i small
      exact Nat.lt_of_le_of_lt small (by decide)
    · decide
  rw [Rune.runetochar_eq]
  exact Rune.utf8_high large bound

theorem runetochar_high {c : Rune} (high : 0x80 ≤ c.toNat) :
    ∃ a more, runetochar c = a :: more ∧ 0x80 ≤ a.toNat := by
  obtain ⟨a, more, bytes⟩ := List.exists_cons_of_length_pos (runelen_pos c)
  refine ⟨a, more, bytes, runetochar_bytes high a ?_⟩
  rw [bytes]
  exact List.mem_cons_self

theorem fullrune_two {a : UInt8} (lead : a.toNat < T3) (rest : List UInt8) {left : Int} (many : 2 ≤ left) :
    fullrune (a :: rest) left = some true := by
  have some : left > 0 := by omega
  have more : left > 1 := by omega
  by_cases one : a.toNat < Tx <;> simp [fullrune, byte, some, more, one, lead]

theorem fullrune_three {a : UInt8} (lead : a.toNat < T4) (rest : List UInt8) {left : Int} (many : 3 ≤ left) :
    fullrune (a :: rest) left = some true := by
  have some : left > 0 := by omega
  have more : left > 1 := by omega
  have most : left > 2 := by omega
  by_cases one : a.toNat < Tx <;> by_cases two : a.toNat < T3 <;> simp [fullrune, byte, some, more, most, one, two, lead]

/-- A rune is not taken for an incomplete one when all of it is there. -/
theorem fullrune_whole {c : Rune} (valid : c.toNat ≤ Runemax) (high : 0x80 ≤ c.toNat) (rest : List UInt8) {left : Int}
    (whole : runelen c ≤ left) : UTFmax ≤ left ∨ fullrune (runetochar c ++ rest) left = some true := by
  rw [runelen, Rune.runetochar_eq, if_pos valid, Rune.utf8_length] at whole
  rw [Rune.runetochar_eq, if_pos valid, Rune.utf8]
  rw [if_neg (by omega)] at whole ⊢
  by_cases two : c.toNat < 0x800
  · rw [if_pos two] at whole ⊢
    refine .inr (fullrune_two ?_ _ whole)
    rw [UInt8.toNat_ofNat', show T3 = 0xE0 from rfl]
    omega
  rw [if_neg two] at whole ⊢
  by_cases three : c.toNat < 0x10000
  · rw [if_pos three] at whole ⊢
    refine .inr (fullrune_three ?_ _ whole)
    rw [UInt8.toNat_ofNat', show T4 = 0xF0 from rfl]
    omega
  rw [if_neg three] at whole
  exact .inl whole

/-- Writing from a string of whole runes. -/
theorem copyBytes_encode (emit : Rune → List Nat) {r : List Rune} (valid : Valid r) {k : Nat} (inside : k ≤ r.length)
    {left : Int} (whole : ((r.take k).map runelen).sum ≤ left) :
    copyBytes emit k (encode r) left = (r.take k).flatMap emit := by
  induction k generalizing r left with
  | zero => rfl
  | succ k ih =>
      cases r with
      | nil => cases inside
      | cons c r =>
          obtain ⟨positive, small⟩ := valid c List.mem_cons_self
          have split : encode (c :: r) = runetochar c ++ encode r := rfl
          rw [List.take_succ_cons, List.map_cons, List.sum_cons, Nat.cast_add] at whole
          have later : copyBytes emit k (encode r) (left - runelen c) = (r.take k).flatMap emit :=
            ih valid.tail (Nat.le_of_succ_le_succ inside) (by omega)
          rw [List.take_succ_cons, List.flatMap_cons, copyBytes]
          by_cases low : c.toNat < 0x80
          · have bytes := runetochar_low low
            have self : UInt32.ofNat c.toNat = c := UInt32.ofNat_toNat
            have value : (UInt8.ofNat c.toNat).toNat = c.toNat := by
              rw [UInt8.toNat_ofNat']
              omega
            rw [runelen, bytes] at later
            rw [split, bytes, List.singleton_append, List.headD_cons, value, if_pos (show c.toNat < Runeself from low), self, List.tail_cons]
            exact congrArg _ later
          · obtain ⟨a, more, bytes, high⟩ := runetochar_high (Nat.le_of_not_lt low)
            have read : chartorune (encode (c :: r) ++ [0]) = some (c, runelen c) := by
              rw [split, List.append_assoc, Rune.runetochar_chartorune small]
            have first : (encode (c :: r)).headD 0 = a := by
              rw [split, bytes]
              rfl
            have full := fullrune_whole small (Nat.le_of_not_lt low) (encode r ++ [0]) (show (runelen c : Int) ≤ left by omega)
            rw [← List.append_assoc, ← split] at full
            have rest : (encode (c :: r)).drop (runelen c) = encode r := by rw [split, runelen, List.drop_left]
            rw [first, if_neg (show ¬ a.toNat < Runeself from Nat.not_lt.mpr high), if_pos (by simpa using full), read]
            simp only [rest, later]

theorem sum_take_le (l : List Nat) {j k : Nat} (fewer : j ≤ k) : (l.take j).sum ≤ (l.take k).sum := by
  obtain ⟨m, rfl⟩ := Nat.exists_eq_add_of_le fewer
  rw [List.take_add, List.sum_append]
  exact Nat.le_add_right _ _

/-- Copying what is accepted of a string of runes, or of its bytes. -/
theorem fmtcpy_agrees (f : Fmt) {r : List Rune} (valid : Valid r) {k : Nat} (inside : k ≤ r.length) {sz : Int}
    (whole : ((r.take k).map runelen).sum ≤ sz) : fmtrcpy f r k = fmtcpy f (encode r) k sz := by
  unfold fmtrcpy fmtcpy
  dsimp only
  generalize clipped : (if f.has FmtPrec && f.prec < k then f.prec else (k : Int)) = n
  have few : n.toNat ≤ k := by
    rw [← clipped]
    split
    · rename_i short
      rw [Bool.and_eq_true, decide_eq_true_eq] at short
      omega
    · exact Nat.le_of_eq (Int.toNat_natCast k)
  have less := sum_take_le (r.map runelen) few
  rw [← List.map_take, ← List.map_take] at less
  rw [copyBytes_encode (put f.runes) valid (Nat.le_trans few inside) (by omega)]

/-- The first thing that is written for a rune. -/
def lead (runes : Bool) (v : Nat) : Nat :=
  if runes || v < 0x80 then v
  else if v < 0x800 then 0xC0 + v / 64
  else if v < 0x10000 then 0xE0 + v / 4096
  else 0xF0 + v / 262144

theorem put_lead (runes : Bool) {c : Rune} (valid : c.toNat ≤ Runemax) : ∃ more, put runes c = lead runes c.toNat :: more := by
  have bound : c.toNat < 2 ^ 21 := Nat.lt_of_le_of_lt valid (by decide)
  cases runes with
  | true => exact ⟨[], rfl⟩
  | false =>
      rw [put, if_neg Bool.false_ne_true, Rune.runetochar_eq, if_pos valid, Rune.utf8, lead, Bool.false_or]
      simp only [decide_eq_true_eq]
      have value : ∀ n < 256, (UInt8.ofNat n).toNat = n := fun n small => by rw [UInt8.toNat_ofNat', Nat.mod_eq_of_lt small]
      split_ifs
      all_goals
        rw [List.map_cons, value _ (by omega)]
        exact ⟨_, rfl⟩

theorem lead_low (runes : Bool) {v : Nat} (wide : 255 < v) : lead runes (v % 256) ≠ lead runes v := by
  cases runes with
  | true =>
      show v % 256 ≠ v
      omega
  | false =>
      simp only [lead, Bool.false_or, decide_eq_true_eq]
      split_ifs <;> omega

theorem lowByte_toNat (c : Rune) : (lowByte c).toNat = c.toNat % 256 := by
  rw [lowByte, UInt32.toNat_ofNat']
  omega

theorem lowByte_narrow {c : Rune} (narrow : c.toNat ≤ 255) : lowByte c = c := by
  apply UInt32.toNat_inj.mp
  rw [lowByte_toNat]
  omega

/-- The low bytes of some runes make the same text only if they are the runes. -/
theorem lowBytes_iff (runes : Bool) {r : List Rune} (valid : Valid r) (tail : List Nat) :
    (r.flatMap fun c => putQuoted runes (lowByte c)) ++ tail = r.flatMap (putQuoted runes) ++ tail ↔ ∀ c ∈ r, c.toNat ≤ 255 := by
  induction r with
  | nil => simp
  | cons c r ih =>
      rw [List.flatMap_cons, List.flatMap_cons, List.append_assoc, List.append_assoc, List.forall_mem_cons]
      by_cases narrow : c.toNat ≤ 255
      · rw [lowByte_narrow narrow, List.append_cancel_left_eq, ih valid.tail]
        exact ⟨fun rest => ⟨narrow, rest⟩, And.right⟩
      · constructor
        · intro same
          have small : (lowByte c).toNat ≤ Runemax := by
            rw [lowByte_toNat, show Runemax = 0x10FFFF from rfl]
            omega
          obtain ⟨more, first⟩ := put_lead runes small
          obtain ⟨more', first'⟩ := put_lead runes (valid c List.mem_cons_self).2
          rw [putQuoted, putQuoted, first, first', lowByte_toNat] at same
          exact absurd (List.cons.inj same).1 (lead_low runes (Nat.lt_of_not_le narrow))
        · exact fun all => absurd all.1 narrow

theorem justify_inj (f : Fmt) (n : Int) (one other : List Nat) : f.justify n one = f.justify n other ↔ one = other := by
  unfold Fmt.justify
  cases f.has FmtLeft <;> simp

/-- The verbs Q and q write the same, but for what Q loses of runes in quotes. -/
theorem quotestrfmt_agrees_iff (fmtdoquote : Rune → Bool) (f : Fmt) {r : List Rune} (valid : Valid r) :
    quotestrfmt fmtdoquote f (some (.runes r)) = quotestrfmt fmtdoquote f (some (.bytes (encode r))) ↔
      let q := quotesetup fmtdoquote (.runes r) f.nin f.outlen (f.has FmtSharp) f.runes
      q.quoted = true → ∀ c ∈ r.take q.nrunesin, c.toNat ≤ 255 := by
  simp only [quotestrfmt, quotesetup_agrees fmtdoquote valid]
  obtain ⟨inside, sized⟩ := quotesetup_accepts fmtdoquote (.runes r) f.nin f.outlen (f.has FmtSharp) f.runes
  generalize quotesetup fmtdoquote (.runes r) f.nin f.outlen (f.has FmtSharp) f.runes = q at inside sized ⊢
  have runes : (Input.runes r).chars = r.map fun c => (c, runelen c) := rfl
  rw [runes, List.length_map] at inside
  have whole : q.nbytesin = ((r.take q.nrunesin).map runelen).sum := by
    rw [sized, runes, ← List.map_take, List.map_map]
    rfl
  cases q.quoted with
  | false =>
      simp only [Bool.false_eq_true, if_false, false_implies, iff_true]
      exact fmtcpy_agrees f valid inside (by omega)
  | true =>
      simp only [if_true, true_implies]
      rw [qstrfmt, qstrfmt, justify_inj, List.append_assoc, List.append_assoc, List.append_cancel_left_eq, quotedText, quotedText,
        copyBytes_encode (putQuoted f.runes) valid inside (by omega)]
      exact lowBytes_iff f.runes (fun c member => valid c (List.mem_of_mem_take member)) _

section Example

def plain : Fmt := ⟨false, true, 0, 0, 0, 0⟩

def noQuotes (_ : Rune) : Bool := false

theorem valid_two {c d : Rune} (first : 1 ≤ c.toNat ∧ c.toNat ≤ Runemax) (second : 1 ≤ d.toNat ∧ d.toNat ≤ Runemax) : Valid [c, d] :=
  List.forall_mem_cons.mpr ⟨first, List.forall_mem_singleton.mpr second⟩

/-- "é " has a space, but no wide rune. -/
theorem agrees_narrow : quotestrfmt noQuotes plain (some (.runes [0xE9, 0x20])) =
    quotestrfmt noQuotes plain (some (.bytes (encode [0xE9, 0x20]))) :=
  (quotestrfmt_agrees_iff noQuotes plain (valid_two (by decide) (by decide))).mpr
    fun _ => List.forall_mem_cons.mpr ⟨by decide, List.forall_mem_singleton.mpr (by decide)⟩

/-- "€ " is written by Q as '¬ '. -/
theorem euro_truncated : Valid [0x20AC, 0x20] ∧
    quotestrfmt noQuotes plain (some (.runes [0x20AC, 0x20])) = [0x27, 0xC2, 0xAC, 0x20, 0x27] ∧
    quotestrfmt noQuotes plain (some (.bytes (encode [0x20AC, 0x20]))) = [0x27, 0xE2, 0x82, 0xAC, 0x20, 0x27] ∧
    quotestrfmt noQuotes plain (some (.runes [0x20AC, 0x20])) ≠ quotestrfmt noQuotes plain (some (.bytes (encode [0x20AC, 0x20]))) :=
  ⟨valid_two (by decide) (by decide), by decide, by decide, by decide⟩

end Example

end Goken.Proofs.FmtQuote
