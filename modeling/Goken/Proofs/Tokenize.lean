import Goken.Tokenize
import Mathlib.Data.List.Basic

/-! Words that `tokenize` gives back: words without separators and quotes, and
words in quotes. While it goes on the memory is what is done, a gap left by the
quotes, and the text still to be read. -/

namespace Goken.Proofs.Tokenize
open Goken.Tokenize

theorem at_middle (before rest : List UInt8) (c : UInt8) : at_ (before ++ c :: rest) before.length = c := by
  rw [at_, List.getD_eq_getElem?_getD, List.getElem?_append_right (Nat.le_refl _), Nat.sub_self]
  rfl

theorem length_snoc (l : List UInt8) (b : UInt8) : l.length + 1 = (l ++ [b]).length := by
  rw [List.length_append, List.length_singleton]

theorem at_next (before rest : List UInt8) (b c : UInt8) : at_ (before ++ b :: c :: rest) (before.length + 1) = c := by
  have same : before ++ b :: c :: rest = before ++ [b] ++ c :: rest := by simp
  rw [length_snoc before b, same, at_middle]

/-- A byte that is copied to the front of the gap. -/
theorem set_front (front gap rest : List UInt8) (c : UInt8) : ∃ gap', gap'.length = gap.length ∧
    (front ++ gap ++ c :: rest).set front.length c = front ++ [c] ++ gap' ++ rest := by
  cases gap with
  | nil => exact ⟨[], rfl, by simp⟩
  | cons g gap => exact ⟨gap ++ [c], by simp, by simp⟩

section Word

variable {sep : List UInt8}

def Plain (sep : List UInt8) (b : UInt8) : Prop := b ≠ 0 ∧ b ≠ quote ∧ sep.contains b = false

def Stops (sep : List UInt8) (b : UInt8) : Prop := b = 0 ∨ sep.contains b = true

theorem qtokenLoop_stops {fuel : Nat} {front rest : List UInt8} {c : UInt8} {s : Nat} (stops : Stops sep c) :
    qtokenLoop sep fuel (front ++ c :: rest) s front.length false = (front ++ c :: rest, s, front.length) := by
  cases fuel with
  | zero => rfl
  | succ fuel =>
      rw [qtokenLoop, at_middle]
      rcases stops with rfl | listed
      · rfl
      · rw [listed]
        simp

theorem qtokenLoop_bare {fuel : Nat} {front text rest : List UInt8} {c : UInt8} (plain : ∀ b ∈ text, Plain sep b) (stops : Stops sep c)
    (enough : text.length ≤ fuel) :
    qtokenLoop sep fuel (front ++ text ++ c :: rest) front.length front.length false =
      (front ++ text ++ c :: rest, (front ++ text).length, (front ++ text).length) := by
  induction text generalizing fuel front with
  | nil =>
      rw [List.append_nil]
      exact qtokenLoop_stops stops
  | cons b text ih =>
      obtain ⟨fuel, rfl⟩ := Nat.exists_eq_succ_of_ne_zero (Nat.ne_of_gt (Nat.lt_of_lt_of_le (Nat.zero_lt_succ text.length) enough))
      obtain ⟨nonzero, unquoted, unlisted⟩ := plain b List.mem_cons_self
      have same : (front ++ b :: (text ++ c :: rest)).set front.length b = front ++ [b] ++ text ++ c :: rest := by simp
      have size : front.length + 1 = (front ++ [b]).length := by simp
      rw [List.append_assoc, List.cons_append, qtokenLoop, at_middle, unlisted, if_pos (by simp [nonzero]), if_pos unquoted, same, size,
        ih (fun x member => plain x (List.mem_cons_of_mem b member)) (Nat.le_of_succ_le_succ enough)]
      simp

/-- A text with its quotes doubled. -/
def escape (text : List UInt8) : List UInt8 := text.flatMap fun b => if b = quote then [quote, quote] else [b]

theorem escape_length (text : List UInt8) : text.length ≤ (escape text).length := by
  induction text with
  | nil => exact Nat.le_refl 0
  | cons b text ih =>
      rw [escape, List.flatMap_cons, List.length_append, List.length_cons]
      have : 1 ≤ (if b = quote then [quote, quote] else [b]).length := by split <;> simp
      rw [escape] at ih
      omega

/-- Between the quotes, and over the closing one. -/
theorem qtokenLoop_body {fuel : Nat} {front gap text rest : List UInt8} {c : UInt8} (nonzero : ∀ b ∈ text, b ≠ 0) (stops : Stops sep c)
    (other : c ≠ quote) (enough : text.length < fuel) :
    ∃ gap', gap' ≠ [] ∧
      qtokenLoop sep fuel (front ++ gap ++ (escape text ++ quote :: c :: rest)) front.length (front ++ gap).length true =
        (front ++ text ++ gap' ++ c :: rest, (front ++ text).length, (front ++ text ++ gap').length) := by
  induction text generalizing fuel front gap with
  | nil =>
      obtain ⟨fuel, rfl⟩ := Nat.exists_eq_succ_of_ne_zero (Nat.ne_of_gt enough)
      refine ⟨gap ++ [quote], by simp, ?_⟩
      have same : front ++ gap ++ quote :: c :: rest = front ++ gap ++ [quote] ++ c :: rest := by simp
      rw [show escape [] = [] from rfl, List.nil_append, qtokenLoop, at_middle, if_pos (by rfl), if_neg (by simp), if_neg (by simp),
        at_next, if_pos other, length_snoc _ quote, same, qtokenLoop_stops stops]
      simp
  | cons b text ih =>
      obtain ⟨fuel, rfl⟩ := Nat.exists_eq_succ_of_ne_zero (Nat.ne_of_gt (Nat.zero_lt_of_lt enough))
      have fewer : text.length < fuel := Nat.lt_of_succ_lt_succ enough
      have later := fun x member => nonzero x (List.mem_cons_of_mem b member)
      have front_size : front.length + 1 = (front ++ [b]).length := by simp
      by_cases double : b = quote
      · subst double
        obtain ⟨moved, size, copied⟩ := set_front front gap (quote :: (escape text ++ quote :: c :: rest)) quote
        obtain ⟨gap', some, ends⟩ := @ih fuel (front ++ [quote]) (moved ++ [quote]) later fewer
        refine ⟨gap', some, ?_⟩
        have whole : escape (quote :: text) = quote :: quote :: escape text := rfl
        have place : (front ++ gap).length + 2 = (front ++ [quote] ++ (moved ++ [quote])).length := by
          simp [size]
          omega
        have mem : front ++ [quote] ++ moved ++ quote :: (escape text ++ quote :: c :: rest) =
            front ++ [quote] ++ (moved ++ [quote]) ++ (escape text ++ quote :: c :: rest) := by simp
        rw [whole, List.cons_append, List.cons_append, qtokenLoop, at_middle, if_pos (by rfl), if_neg (by simp), if_neg (by simp),
          at_next, if_neg (by simp), copied, front_size, place, mem, ends]
        simp
      · obtain ⟨moved, size, copied⟩ := set_front front gap (escape text ++ quote :: c :: rest) b
        obtain ⟨gap', some, ends⟩ := @ih fuel (front ++ [b]) moved later fewer
        refine ⟨gap', some, ?_⟩
        have whole : escape (b :: text) = b :: escape text := by
          rw [escape, List.flatMap_cons, if_neg double]
          rfl
        have place : (front ++ gap).length + 1 = (front ++ [b] ++ moved).length := by
          simp [size]
          omega
        rw [whole, List.cons_append, qtokenLoop, at_middle, if_pos (by simp [nonzero b List.mem_cons_self]), if_pos double, copied,
          front_size, place, ends]
        simp

/-- A word without quotes, before a separator. -/
theorem qtoken_bare {front text rest : List UInt8} {c : UInt8} (plain : ∀ b ∈ text, Plain sep b) (nonzero : c ≠ 0)
    (listed : sep.contains c = true) :
    qtoken (front ++ text ++ c :: rest) front.length sep = (front ++ text ++ 0 :: rest, (front ++ text ++ [0]).length) := by
  have enough : text.length ≤ (front ++ text ++ c :: rest).length := by
    simp only [List.length_append]
    omega
  rw [qtoken, qtokenLoop_bare plain (.inr listed) enough]
  simp only [at_middle, nonzero, ne_eq, not_false_eq_true, if_true]
  rw [List.set_append_right _ _ (Nat.le_refl _), Nat.sub_self, List.set_cons_zero, length_snoc]

/-- A word without quotes, at the end. -/
theorem qtoken_last {front text rest : List UInt8} (plain : ∀ b ∈ text, Plain sep b) :
    qtoken (front ++ text ++ 0 :: rest) front.length sep = (front ++ text ++ 0 :: rest, (front ++ text).length) := by
  have enough : text.length ≤ (front ++ text ++ 0 :: rest).length := by
    simp only [List.length_append]
    omega
  rw [qtoken, qtokenLoop_bare plain (.inl rfl) enough]
  simp only [at_middle, ne_eq, not_true_eq_false, if_false]

/-- A word in quotes. -/
theorem qtoken_quoted {front text rest : List UInt8} {c : UInt8} (nonzero : ∀ b ∈ text, b ≠ 0) (stops : Stops sep c) (other : c ≠ quote)
    (unlisted : sep.contains quote = false) :
    ∃ gap, qtoken (front ++ (quote :: escape text ++ quote :: c :: rest)) front.length sep =
      (front ++ text ++ 0 :: gap ++ c :: rest, (front ++ text ++ 0 :: gap).length) := by
  obtain ⟨fuel, size, enough⟩ : ∃ fuel, (front ++ (quote :: escape text ++ quote :: c :: rest)).length = fuel + 1 ∧ text.length < fuel := by
    have := escape_length text
    refine ⟨(front ++ (quote :: escape text ++ quote :: c :: rest)).length - 1, ?_, ?_⟩
    · simp only [List.length_append, List.length_cons]
      omega
    · simp only [List.length_append, List.length_cons]
      omega
  obtain ⟨gap, some, ends⟩ := @qtokenLoop_body sep fuel front [quote] text rest c nonzero stops other enough
  have first : front ++ (quote :: escape text ++ quote :: c :: rest) = front ++ quote :: (escape text ++ quote :: c :: rest) := rfl
  have inside : front ++ quote :: (escape text ++ quote :: c :: rest) = front ++ [quote] ++ (escape text ++ quote :: c :: rest) := by simp
  cases gap with
  | nil => exact absurd rfl some
  | cons g gap =>
      refine ⟨gap, ?_⟩
      rw [qtoken, size, first, qtokenLoop, at_middle, if_pos (by simp only [unlisted]; rfl), if_neg (by simp), if_pos (by rfl),
        length_snoc front quote, inside, ends]
      have here : at_ (front ++ text ++ g :: gap ++ c :: rest) (front ++ text).length = g := by
        rw [List.append_assoc, List.cons_append, at_middle]
      have apart : (front ++ text ++ g :: gap).length ≠ (front ++ text).length := by
        simp only [List.length_append, List.length_cons]
        omega
      simp only [here]
      by_cases zero : g = 0
      · subst zero
        rfl
      · rw [if_pos zero, if_neg apart, List.append_assoc (front ++ text), List.set_append_right _ _ (Nat.le_refl _), Nat.sub_self,
          List.cons_append, List.set_cons_zero]
        simp

end Word

/-- What stands for a word: the word itself, or the word in quotes. -/
def Written (out word : List UInt8) : Prop :=
  (out = word ∧ word ≠ [] ∧ ∀ b ∈ word, Plain qsep b) ∨ (out = quote :: escape word ++ [quote] ∧ ∀ b ∈ word, b ≠ 0)

theorem Written.nonzero {out word : List UInt8} (written : Written out word) : ∀ b ∈ word, b ≠ 0 := by
  rcases written with ⟨-, -, plain⟩ | ⟨-, nonzero⟩
  · exact fun b member => (plain b member).1
  · exact nonzero

/-- The outputs with single spaces between them, and the NUL. -/
def line (pieces : List (List UInt8 × List UInt8)) : List UInt8 := [0x20].intercalate (pieces.map Prod.fst) ++ [0]

theorem line_single (out word : List UInt8) : line [(out, word)] = out ++ [0] := by simp [line]

theorem line_cons (out word : List UInt8) (next : List UInt8 × List UInt8) (rest : List (List UInt8 × List UInt8)) :
    line ((out, word) :: next :: rest) = out ++ 0x20 :: line (next :: rest) := by simp [line]

theorem cstring_word {before word after : List UInt8} (nonzero : ∀ b ∈ word, b ≠ 0) :
    cstring (before ++ (word ++ 0 :: after)) before.length = word := by
  rw [cstring, List.drop_left, List.takeWhile_append_of_pos (by simpa using nonzero)]
  simp

theorem skipSep_spaces {before spaces rest : List UInt8} {b : UInt8} (blank : ∀ c ∈ spaces, c = 0x20) (plain : qsep.contains b = false) :
    skipSep (before ++ spaces ++ b :: rest) before.length = (before ++ spaces).length := by
  have separators : ∀ c ∈ spaces, (decide (c ≠ 0) && qsep.contains c) = true := by
    intro c member
    rw [blank c member]
    rfl
  rw [skipSep, List.append_assoc, List.drop_left, List.takeWhile_append_of_pos separators, List.takeWhile_cons_of_neg (by rw [plain, Bool.and_false]; simp),
    List.append_nil, List.length_append]

/-- What is read next is neither a separator nor the end. -/
theorem Written.first {out word : List UInt8} (written : Written out word) :
    ∃ b more, out = b :: more ∧ qsep.contains b = false ∧ b ≠ 0 := by
  rcases written with ⟨rfl, some, plain⟩ | ⟨rfl, -⟩
  · obtain ⟨b, more, rfl⟩ := List.exists_cons_of_ne_nil some
    obtain ⟨nonzero, -, unlisted⟩ := plain b List.mem_cons_self
    exact ⟨b, more, rfl, unlisted, nonzero⟩
  · exact ⟨quote, _, rfl, by rfl, by decide⟩

/-- One word: it is ended by a NUL that is put there, or by the one at the end. -/
theorem qtoken_written {out word : List UInt8} (written : Written out word) (front : List UInt8) (rest : List (List UInt8 × List UInt8)) :
    ∃ ended spaces, (∀ c ∈ spaces, c = 0x20) ∧
      qtoken (front ++ (out ++ if rest = [] then [0] else 0x20 :: line rest)) front.length qsep =
        (front ++ word ++ ended ++ spaces ++ line rest, (front ++ word ++ ended).length) ∧
      ((∃ junk, ended = 0 :: junk) ∨ rest = [] ∧ ended = [] ∧ spaces = []) := by
  have blank : ∀ c ∈ [(0x20 : UInt8)], c = 0x20 := fun c member => List.mem_singleton.mp member
  have nothing : ∀ c ∈ ([] : List UInt8), c = 0x20 := nofun
  rcases written with ⟨rfl, -, plain⟩ | ⟨rfl, nonzero⟩
  · by_cases last : rest = []
    · subst last
      refine ⟨[], [], nothing, ?_, .inr ⟨rfl, rfl, rfl⟩⟩
      rw [if_pos rfl, ← List.append_assoc, qtoken_last plain]
      simp [line]
    · refine ⟨[0], [], nothing, ?_, .inl ⟨[], rfl⟩⟩
      rw [if_neg last, ← List.append_assoc, qtoken_bare plain (by decide) rfl]
      simp
  · have shape : ∀ tail, quote :: escape word ++ [quote] ++ tail = quote :: escape word ++ quote :: tail := fun tail => by simp
    by_cases last : rest = []
    · subst last
      obtain ⟨gap, ends⟩ := @qtoken_quoted qsep front word [] 0 nonzero (.inl rfl) (by decide) rfl
      refine ⟨0 :: gap, [], nothing, ?_, .inl ⟨gap, rfl⟩⟩
      rw [if_pos rfl, shape, ends]
      simp [line]
    · obtain ⟨gap, ends⟩ := @qtoken_quoted qsep front word (line rest) 0x20 nonzero (.inr rfl) (by decide) rfl
      refine ⟨0 :: gap, [0x20], blank, ?_, .inl ⟨gap, rfl⟩⟩
      rw [if_neg last, shape, ends]
      simp

/-- The words found in a line that is read from `done` on. -/
theorem tokenizeLoop_spec {pieces : List (List UInt8 × List UInt8)} (written : ∀ piece ∈ pieces, Written piece.1 piece.2)
    {n : Nat} (enough : pieces.length ≤ n) (done : List UInt8) {spaces : List UInt8} (blank : ∀ c ∈ spaces, c = 0x20) (args : List Nat) :
    ∃ after found, tokenizeLoop n (done ++ spaces ++ line pieces) done.length args = (done ++ after, args ++ found) ∧
      found.map (cstring (done ++ after)) = pieces.map Prod.snd ∧ (pieces = [] → spaces = [] → after = [0]) := by
  induction pieces generalizing n done spaces args with
  | nil =>
      refine ⟨spaces ++ [0], [], ?_, rfl, fun _ none => by rw [none]; rfl⟩
      have whole : done ++ spaces ++ line [] = done ++ spaces ++ 0 :: [] := rfl
      rw [List.append_nil, whole, ← List.append_assoc]
      cases n with
      | zero => rfl
      | succ n => rw [tokenizeLoop, skipSep_spaces blank rfl, if_pos (at_middle _ _ 0)]
  | cons piece rest ih =>
      obtain ⟨n, rfl⟩ := Nat.exists_eq_succ_of_ne_zero (Nat.ne_of_gt (Nat.lt_of_lt_of_le (Nat.zero_lt_succ rest.length) enough))
      obtain ⟨out, word⟩ := piece
      have here : Written out word := written _ List.mem_cons_self
      obtain ⟨b, more, first, unlisted, nonzero⟩ := here.first
      obtain ⟨ended, spaces', blank', ends, closed⟩ := qtoken_written here (done ++ spaces) rest
      have text : line ((out, word) :: rest) = out ++ if rest = [] then [0] else 0x20 :: line rest := by
        cases rest with
        | nil => exact line_single out word
        | cons next rest => exact line_cons out word next rest
      obtain ⟨after, found, reads, words, alone⟩ := ih (fun x member => written x (List.mem_cons_of_mem _ member))
        (Nat.le_of_succ_le_succ enough) (done ++ spaces ++ word ++ ended) blank' (args ++ [(done ++ spaces).length])
      have memory : done ++ spaces ++ word ++ ended ++ after = done ++ (spaces ++ word ++ ended ++ after) := by simp
      refine ⟨spaces ++ word ++ ended ++ after, (done ++ spaces).length :: found, ?_, ?_, nofun⟩
      · have started : done ++ spaces ++ line ((out, word) :: rest) =
            done ++ spaces ++ b :: (more ++ if rest = [] then [0] else 0x20 :: line rest) := by rw [text, first, List.cons_append]
        have start : at_ (done ++ spaces ++ line ((out, word) :: rest)) (done ++ spaces).length = b := by rw [started, at_middle]
        have skipped : skipSep (done ++ spaces ++ line ((out, word) :: rest)) done.length = (done ++ spaces).length := by
          rw [started, skipSep_spaces blank unlisted]
        rw [tokenizeLoop, skipped]
        simp only [start, nonzero, if_false]
        rw [text, ends]
        rw [reads, memory, List.append_cons args _ found]
      · rw [List.map_cons, List.map_cons, ← memory, words]
        refine congrArg (· :: _) ?_
        obtain ⟨junk, tail⟩ : ∃ junk, ended ++ after = 0 :: junk := by
          rcases closed with ⟨junk, rfl⟩ | ⟨none, rfl, rfl⟩
          · exact ⟨junk ++ after, rfl⟩
          · exact ⟨[], alone none rfl⟩
        rw [List.append_assoc, tail, List.append_assoc]
        exact cstring_word here.nonzero

/-- Words that are written, with single spaces between, are found again. -/
theorem tokenize_written {pieces : List (List UInt8 × List UInt8)} (written : ∀ piece ∈ pieces, Written piece.1 piece.2)
    {maxargs : Nat} (enough : pieces.length ≤ maxargs) :
    tokenize ([0x20].intercalate (pieces.map Prod.fst)) maxargs = pieces.map Prod.snd := by
  obtain ⟨after, found, reads, words, -⟩ := tokenizeLoop_spec written enough [] (show ∀ c ∈ ([] : List UInt8), c = 0x20 from nofun) []
  have start : tokenizeLoop maxargs ([0x20].intercalate (pieces.map Prod.fst) ++ [0]) 0 [] = (after, found) := reads
  simp only [tokenize, start]
  exact words

end Goken.Proofs.Tokenize
