import Goken.Proofs.Lzmatch
import Mathlib.Data.Nat.Bitwise

/-! What `lzcomp` records. The parse stays within its array, because two bytes of the
block are consumed for every entry: a match that takes two entries is of four bytes,
or of three after a literal. -/

namespace Goken.Proofs.Lzparse
open Goken.Deflate Goken.Lib Goken.Lib.Matches Goken.Proofs.Lzmatch

/-! Entries of the parse. -/

theorem ushort_small {x : Nat} (small : x < 65536) : ushort x = x := by
  unfold ushort
  omega

theorem tokens_append {first second : List Nat} {items : List Item} (known : tokens first = some items) :
    tokens (first ++ second) = (tokens second).map (items ++ ·) := by
  induction first using tokens.induct generalizing items with
  | case1 =>
      rw [tokens, Option.some.injEq] at known
      subst known
      exact (Option.map_id' (x := tokens second)).symm
  | case2 offset flagged =>
      rw [tokens, if_pos flagged] at known
      cases known
  | case3 offset flagged off rest ih =>
      rw [tokens, if_pos flagged] at known
      obtain ⟨others, parsed, rfl⟩ := Option.map_eq_some_iff.mp known
      rw [List.cons_append, List.cons_append, tokens, if_pos flagged, ih parsed, Option.map_map]
      congr 1
      funext more
      simp [Function.comp]
  | case4 offset rest run plain literals =>
      rename_i ih
      have unfolded (rest : List Nat) :
          tokens (offset :: rest) = (tokens rest).map ([.literals (offset &&& MaxLitRun)] ++ ·) := by
        have literals : offset &&& MaxLitRun ≠ 0 := literals
        rw [tokens.eq_def]
        simp only [if_neg plain, if_pos literals]
      rw [unfolded] at known
      obtain ⟨others, parsed, rfl⟩ := Option.map_eq_some_iff.mp known
      rw [List.cons_append, unfolded, ih parsed, Option.map_map]
      congr 1
  | case5 offset rest run plain none =>
      rename_i ih
      have unfolded (rest : List Nat) :
          tokens (offset :: rest) = (tokens rest).map (.copy MinMatch ((offset >>> LenShift) + 1) :: ·) := by
        have none : ¬ offset &&& MaxLitRun ≠ 0 := none
        rw [tokens.eq_def]
        simp only [if_neg plain, if_neg none]
      rw [unfolded] at known
      obtain ⟨others, parsed, rfl⟩ := Option.map_eq_some_iff.mp known
      rw [List.cons_append, unfolded, ih parsed, Option.map_map]
      congr 1

theorem tokens_run {v : Nat} (literals : 0 < v) (small : v < 8) : tokens [v] = some [.literals v] := by
  have all : ∀ v < 8, 0 < v → tokens [v] = some [.literals v] := by decide
  exact all v small literals

theorem entry_value {v n : Nat} (small : v < 8) : v ||| LenFlag ||| n <<< LenShift = n * 16 + 8 + v := by
  have flag : ∀ v < 8, v ||| 8 = 8 + v := by decide
  rw [LenFlag, LenShift, flag v small, Nat.or_comm, ← Nat.shiftLeft_add_eq_or_of_lt (by omega), Nat.shiftLeft_eq]
  omega

theorem masked_run (x : Nat) : x &&& MaxLitRun = x % 8 := Nat.and_two_pow_sub_one_eq_mod x 3

theorem masked_flag (x : Nat) : x &&& LenFlag ≠ 0 ↔ x / 8 % 2 = 1 := by
  rw [Nat.and_comm, show LenFlag = 2 ^ 3 from rfl, Nat.two_pow_and, Nat.testBit, Nat.shiftRight_eq_div_pow, Nat.one_and_eq_mod_two]
  simp

theorem tokens_match {v n off : Nat} (small : v < 8) :
    tokens [n * 16 + 8 + v, off] = some ((if v ≠ 0 then [.literals v] else []) ++ [.copy (n + MinMatch) (off + 1)]) := by
  have flagged : (n * 16 + 8 + v) &&& LenFlag ≠ 0 := (masked_flag _).mpr (by omega)
  have run : (n * 16 + 8 + v) &&& MaxLitRun = v := by
    rw [masked_run]
    omega
  have length : (n * 16 + 8 + v) >>> LenShift = n := by
    rw [LenShift, Nat.shiftRight_eq_div_pow]
    omega
  rw [tokens, if_pos flagged, run, length]
  rfl

theorem tokens_short (off : Nat) : tokens [off <<< LenShift] = some [.copy MinMatch (off + 1)] := by
  rw [LenShift, Nat.shiftLeft_eq]
  have plain : ¬ (off * 2 ^ 4 &&& LenFlag ≠ 0) := fun flagged => by
    have := (masked_flag _).mp flagged
    omega
  have run : off * 2 ^ 4 &&& MaxLitRun = 0 := by
    rw [masked_run]
    omega
  have offset : (off * 2 ^ 4) >>> LenShift = off := by
    rw [LenShift, Nat.shiftRight_eq_div_pow]
    omega
  rw [tokens, if_neg plain, run, offset]
  rfl

theorem put_room {parse : List Nat} {x : Nat} (room : parse.length < nparse) (small : x < 65536) :
    put parse x = .ok (parse ++ [x]) := by
  rw [put, if_pos room, ushort_small small]

/-! The parse of a block, as far as it goes. -/

/-- The lengths and distances that the format allows. -/
def Fit (length distance : Nat) : Prop := 3 ≤ length ∧ length ≤ 258 ∧ 1 ≤ distance ∧ distance ≤ 32768

/-- The entries and the `v` literals after them are for the input from `first` to `done`. -/
structure Coded (input : List UInt8) (first done : Nat) (parse : List Nat) (v : Nat) : Prop where
  parsed : ∃ items, tokens parse = some items ∧ Parses Fit input first items ∧ first + span items + v = done
  few : 2 * parse.length + v + first ≤ done
  small : v < 7

/-- A match as it is stored: `off` is its distance less one. -/
structure Match (input : List UInt8) (pos len off : Nat) : Prop where
  long : 3 ≤ len
  short : len ≤ 258
  near : off < MaxOff
  close : len = 3 → off < MinMatchMaxOff
  copies : Copies input pos len (off + 1)

/-- The locals changed where something has been recorded. -/
def Recorded (before after : Locals) : Prop :=
  ∃ parse v litlencount offcount excost, after = { before with parse, v, litlencount, offcount, excost }

section Tables

theorem entry_inside {table : List Nat} {Q : Nat → Prop} {i : Nat} (inside : i < table.length) (all : ∀ v ∈ table, Q v) :
    ∃ v, entry table i = .ok v ∧ Q v :=
  ⟨table[i], by rw [entry, List.getElem?_eq_getElem inside], all _ (List.getElem_mem inside)⟩

set_option maxRecDepth 2000 in
theorem lencode_range {n : Nat} (small : n < 257) : ∃ c, entry lencode n = .ok c ∧ LenStart ≤ c ∧ c < 286 := by
  have long : lencode.length = 257 := by decide
  have all : lencode.all (fun c => decide (LenStart ≤ c ∧ c < 286)) = true := by decide
  exact entry_inside (long ▸ small) fun v member => of_decide_eq_true (List.all_eq_true.mp all v member)

set_option maxRecDepth 2000 in
theorem offcode_range {off : Nat} (near : off < MaxOff) :
    ∃ c, offword off = .ok c ∧ c < Noff := by
  rw [offword]
  by_cases low : off < MaxOffCode
  · have long : offcode.length = MaxOffCode := by decide
    have all : offcode.all (fun c => decide (c < Noff)) = true := by decide
    rw [if_pos low]
    exact entry_inside (long ▸ low) fun v member => of_decide_eq_true (List.all_eq_true.mp all v member)
  · have long : bigoffcode.length = 256 := by decide
    have all : bigoffcode.all (fun c => decide (c < Noff)) = true := by decide
    have inside : off >>> 7 < 256 := by
      rw [Nat.shiftRight_eq_div_pow]
      rw [MaxOff] at near
      omega
    rw [if_neg low]
    exact entry_inside (long ▸ inside) fun v member => of_decide_eq_true (List.all_eq_true.mp all v member)

theorem bump_inside {size i : Nat} {count : Nat → Nat} (inside : i < size) : ∃ after, bump size count i = .ok after :=
  ⟨_, by rw [bump, if_pos inside]⟩

end Tables

variable {input : List UInt8} {first done : Nat}

/-- A literal more in the run. -/
theorem putrun_codes {parse : List Nat} {v : Nat} (coded : Coded input first done parse v)
    (inside : done < input.length) (limited : done < first + DeflateMaxBlock) :
    Gives (fun after => Coded input first (done + 1) after.1 after.2) (putrun parse v) := by
  obtain ⟨items, parsed, parses, total⟩ := coded.parsed
  have few := coded.few
  have small := coded.small
  rw [putrun]
  by_cases full : v + 1 = MaxLitRun
  · have room : parse.length < nparse := by
      rw [DeflateMaxBlock] at limited
      rw [nparse, DeflateMaxBlock]
      omega
    rw [if_pos full, put_room room (by omega)]
    rw [MaxLitRun] at full
    refine .ok ⟨⟨items ++ [.literals (v + 1)], ?_, ?_, ?_⟩, ?_, Nat.zero_lt_succ 6⟩
    · rw [tokens_append parsed, tokens_run (Nat.succ_pos _) (by omega)]
      rfl
    · exact parses.append ⟨by omega, trivial⟩
    · rw [span_append]
      simp only [span, Item.span]
      omega
    · rw [List.length_append, List.length_singleton]
      omega
  · rw [if_neg full]
    rw [MaxLitRun] at full
    have coded' : Coded input first (done + 1) parse (v + 1) := ⟨⟨items, parsed, parses, by omega⟩, by omega, by omega⟩
    exact .ok coded'

/-- A literal more. -/
theorem putliteral_codes {l : Locals} {hist : Hist} {i : Nat} (coded : Coded input first done l.parse l.v)
    (known : ∃ b, load hist i = .ok b) (inside : done < input.length) (limited : done < first + DeflateMaxBlock) :
    Gives (fun after => Recorded l after ∧ Coded input first (done + 1) after.parse after.v) (putliteral hist l i) := by
  obtain ⟨c, loaded⟩ := known
  obtain ⟨counts, counted⟩ := @bump_inside Nlitlen c.toNat l.litlencount (Nat.lt_trans c.toNat_lt (by decide))
  refine (putrun_codes coded inside limited).bind fun after coded' => ?_
  rw [loaded]
  refine Outcome.Ensures.value ?_
  rw [counted]
  exact .ok ⟨⟨_, _, _, _, _, rfl⟩, coded'⟩

/-- The entries of a match, after the literals before it. -/
theorem putentries_codes {parse : List Nat} {v len off : Nat} (coded : Coded input first done parse v)
    (found : Match input done len off) (limited : done + len ≤ first + DeflateMaxBlock) :
    Gives (fun after => Coded input first (done + len) after 0) (putentries parse v (len - MinMatch) off) := by
  obtain ⟨items, parsed, parses, total⟩ := coded.parsed
  have few := coded.few
  have small := coded.small
  have long := found.long
  have short := found.short
  have near := found.near
  have copies := found.copies
  rw [MaxOff] at near
  rw [DeflateMaxBlock] at limited
  have fits : Fit len (off + 1) := ⟨long, short, by omega, by omega⟩
  have room : parse.length + 1 < nparse := by
    rw [nparse, DeflateMaxBlock]
    omega
  have run : Parses Fit input first (items ++ ((if v ≠ 0 then [.literals v] else []) ++ [.copy len (off + 1)])) := by
    by_cases none : v = 0
    · rw [if_neg (not_not_intro none)]
      obtain rfl : first + span items = done := by omega
      exact parses.append ⟨fits, copies, trivial⟩
    · rw [if_pos none]
      obtain rfl : first + span items + v = done := total
      have inside := copies.inside
      exact parses.append ⟨by omega, fits, copies, trivial⟩
  have covers : first + span (items ++ ((if v ≠ 0 then [.literals v] else []) ++ [.copy len (off + 1)])) + 0 = done + len := by
    rw [span_append, span_append]
    by_cases none : v = 0
    · rw [if_neg (not_not_intro none)]
      simp only [span, Item.span]
      omega
    · rw [if_pos none]
      simp only [span, Item.span]
      omega
  rw [putentries, MinMatch]
  by_cases two : v ≠ 0 ∨ len - 3 ≠ 0
  · have room' : (parse ++ [(len - 3) * 16 + 8 + v]).length < nparse := by
      rw [List.length_append, List.length_singleton]
      exact room
    rw [if_pos two, entry_value (by omega), put_room (by omega) (by omega)]
    refine Outcome.Ensures.value ?_
    rw [put_room room' (by omega)]
    refine .ok ⟨⟨_, ?_, run, covers⟩, ?_, by decide⟩
    · rw [List.append_assoc, List.singleton_append, tokens_append parsed, tokens_match (by omega), MinMatch, Nat.sub_add_cancel long]
      rfl
    · simp only [List.length_append, List.length_singleton]
      omega
  · have close := found.close (by omega)
    rw [MinMatchMaxOff] at close
    obtain ⟨rfl, rfl⟩ : v = 0 ∧ len = 3 := by omega
    have value : off <<< LenShift < 65536 := by
      rw [LenShift, Nat.shiftLeft_eq]
      omega
    rw [if_neg two, put_room (by omega) value]
    refine .ok ⟨⟨_, ?_, run, covers⟩, ?_, by decide⟩
    · rw [tokens_append parsed, tokens_short]
      rfl
    · rw [List.length_append, List.length_singleton]
      omega

/-- A match more. -/
theorem putmatch_codes {l : Locals} {len off : Nat} (coded : Coded input first done l.parse l.v)
    (found : Match input done len off) (limited : done + len ≤ first + DeflateMaxBlock) :
    Gives (fun after => Recorded l after ∧ Coded input first (done + len) after.parse after.v) (putmatch l len off) := by
  have short := found.short
  obtain ⟨code, coding, least, most⟩ := @lencode_range (len - MinMatch) (by rw [MinMatch]; omega)
  obtain ⟨counts, counted⟩ := @bump_inside Nlitlen code l.litlencount (by rw [Nlitlen]; omega)
  obtain ⟨lenextra, lenextraFound, -⟩ := @entry_inside litlenextra (fun _ => True) (code - LenStart)
    (by rw [LenStart, show litlenextra.length = 31 from rfl]; omega) (fun _ _ => trivial)
  obtain ⟨c, offcoding, small⟩ := offcode_range found.near
  obtain ⟨offcounts, offcounted⟩ := @bump_inside Noff c l.offcount small
  obtain ⟨extra, extraFound, -⟩ := @entry_inside offextra (fun _ => True) c
    (by rw [Noff] at small; rw [show offextra.length = 32 from rfl]; omega) (fun _ _ => trivial)
  refine (putentries_codes coded found limited).bind fun parse coded' => ?_
  rw [coding]
  refine Outcome.Ensures.value ?_
  rw [counted]
  refine Outcome.Ensures.value ?_
  rw [lenextraFound]
  refine Outcome.Ensures.value ?_
  rw [offcoding]
  refine Outcome.Ensures.value ?_
  rw [offcounted]
  refine Outcome.Ensures.value ?_
  rw [extraFound]
  exact .ok ⟨⟨_, _, _, _, _, rfl⟩, coded'⟩

end Goken.Proofs.Lzparse
