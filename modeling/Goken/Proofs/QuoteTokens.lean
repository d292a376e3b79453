import Goken.Proofs.FmtQuote
import Goken.Proofs.Tokenize

/-! Quoting and `tokenize`. The sizing pass counts the bytes of the input, the
writing pass encodes its characters again; they agree on whole runes. -/

namespace Goken.Proofs.QuoteTokens
open Goken.FmtQuote Goken.Rune Goken.Proofs.FmtQuote

/-- The bytes counted for a character between quotes. -/
def width (x : Rune × Nat) : Nat := (if x.1.toNat = quote then 1 else 0) + x.2

def size (p : List (Rune × Nat)) : Nat := (p.map width).sum

theorem size_cons (x : Rune × Nat) (p : List (Rune × Nat)) : size (x :: p) = width x + size p := List.sum_cons

theorem size_append (p p' : List (Rune × Nat)) : size (p ++ p') = size p + size p' := by
  rw [size, List.map_append, List.sum_append]
  rfl

/-! The sizing pass. -/

/-- What the sizing pass has found at its end. -/
structure Sized (fmtdoquote : Rune → Bool) (nout : Int) (p : List (Rune × Nat)) (q q' : Quoteinfo) : Prop where
  count : q'.nrunesin = q.nrunesin + p.length
  bytes : q'.nbytesout = q.nbytesout + size p + if q'.quoted && !q.quoted then 2 else 0
  keeps : q.quoted = true → q'.quoted = true
  bare : q'.quoted = false → ∀ x ∈ p, needsQuotes fmtdoquote x.1 = false
  bound : (q'.nbytesout : Int) ≤ nout

theorem noRoom_bytes (nout : Int) (q : Quoteinfo) (extra w : Nat) :
    noRoom nout false q extra w = true ↔ nout < extra + q.nbytesout + w := by
  simp [noRoom]

theorem Sized.nil (fmtdoquote : Rune → Bool) {nout : Int} {q : Quoteinfo} (fits : (q.nbytesout : Int) ≤ nout) :
    Sized fmtdoquote nout [] q q :=
  ⟨rfl, by cases q.quoted <;> rfl, id, fun _ => nofun, fits⟩

/-- The quotes may be counted before a character is. -/
def opened (fmtdoquote : Rune → Bool) (c : Rune) (q : Quoteinfo) : Quoteinfo :=
  if needsQuotes fmtdoquote c && !q.quoted then addQuotes q else q

theorem opened_sized {fmtdoquote : Rune → Bool} {nout : Int} {q : Quoteinfo} {c : Rune} {w : Nat} (fits : (q.nbytesout : Int) ≤ nout)
    (room : needsQuotes fmtdoquote c && !q.quoted → ¬ nout < 2 + q.nbytesout + w) :
    Sized fmtdoquote nout [] q (opened fmtdoquote c q) := by
  unfold opened
  by_cases opens : (needsQuotes fmtdoquote c && !q.quoted) = true
  · have unquoted : q.quoted = false := by
      have := (Bool.and_eq_true_iff.mp opens).2
      simpa using this
    rw [if_pos opens]
    have room := room opens
    refine ⟨rfl, ?_, fun _ => rfl, nofun, ?_⟩
    · rw [unquoted]
      rfl
    · show ((q.nbytesout + 2 : Nat) : Int) ≤ nout
      omega
  · rw [if_neg opens]
    exact Sized.nil fmtdoquote fits

theorem opened_bare {fmtdoquote : Rune → Bool} {q : Quoteinfo} {c : Rune} (bare : (opened fmtdoquote c q).quoted = false) :
    needsQuotes fmtdoquote c = false := by
  unfold opened at bare
  split at bare
  · cases bare
  · rename_i closed
    rw [bare] at closed
    simpa using closed

/-- The quotes, a character, and what follows. -/
theorem Sized.step {fmtdoquote : Rune → Bool} {nout : Int} {q q1 q' : Quoteinfo} {c : Rune} {w : Nat} {p : List (Rune × Nat)}
    (first : Sized fmtdoquote nout [] q q1) (bare : q1.quoted = false → needsQuotes fmtdoquote c = false)
    (rest : Sized fmtdoquote nout p (addChar q1 c w) q') : Sized fmtdoquote nout ((c, w) :: p) q q' := by
  have keeps : q1.quoted = true → q'.quoted = true := rest.keeps
  refine ⟨?_, ?_, fun quoted => keeps (first.keeps quoted), fun unquoted x member => ?_, rest.bound⟩
  · rw [rest.count, addChar_nrunesin, first.count, List.length_cons, List.length_nil]
    omega
  · have middle : (addChar q1 c w).nbytesout = q1.nbytesout + (if c.toNat = quote then 1 else 0) + w := rfl
    have flag : (addChar q1 c w).quoted = q1.quoted := rfl
    have quotes : (if q1.quoted && !q.quoted then 2 else 0) + (if q'.quoted && !q1.quoted then 2 else 0) =
        if q'.quoted && !q.quoted then 2 else 0 := by
      have one := first.keeps
      revert one keeps
      cases q.quoted <;> cases q1.quoted <;> cases q'.quoted <;> simp
    have none : size [] = 0 := rfl
    rw [rest.bytes, middle, flag, first.bytes, size_cons, none, width]
    dsimp only
    omega
  · rcases List.mem_cons.mp member with rfl | later
    · refine bare (Bool.eq_false_iff.mpr fun quoted => ?_)
      rw [keeps quoted] at unquoted
      cases unquoted
    · exact rest.bare unquoted x later

theorem setupLoop_sized (fmtdoquote : Rune → Bool) {nout : Int} (l : List (Rune × Nat)) (nin : Int) {q : Quoteinfo}
    (fits : (q.nbytesout : Int) ≤ nout) :
    ∃ k ≤ l.length, Sized fmtdoquote nout (l.take k) q (setupLoop fmtdoquote nout false l nin q) := by
  induction l generalizing nin q with
  | nil => exact ⟨0, Nat.le_refl 0, Sized.nil fmtdoquote fits⟩
  | cons first l ih =>
      obtain ⟨c, w⟩ := first
      rw [setupLoop]
      dsimp only
      rw [← opened]
      split
      · exact ⟨0, Nat.zero_le _, Sized.nil fmtdoquote fits⟩
      rename_i going
      split
      · exact ⟨0, Nat.zero_le _, Sized.nil fmtdoquote fits⟩
      rename_i roomy
      have room : (q.nbytesout : Int) + w ≤ nout := by
        have both : ¬ nin = 0 ∧ (q.nbytesout : Int) + w ≤ nout := by simpa [noRoom] using going
        exact both.2
      have quotes : (needsQuotes fmtdoquote c && !q.quoted) = true → ¬ nout < 2 + q.nbytesout + w := by
        intro opens full
        rw [opens, Bool.true_and] at roomy
        exact roomy ((noRoom_bytes _ _ _ _).mpr full)
      have first := opened_sized fits quotes
      split
      · exact ⟨0, Nat.zero_le _, first⟩
      rename_i twice
      have fits' : ((addChar (opened fmtdoquote c q) c w).nbytesout : Int) ≤ nout := by
        have bytes : (addChar (opened fmtdoquote c q) c w).nbytesout =
            (opened fmtdoquote c q).nbytesout + (if c.toNat = quote then 1 else 0) + w := rfl
        rw [bytes]
        by_cases double : c.toNat = quote
        · have room : (1 : Int) + (opened fmtdoquote c q).nbytesout + w ≤ nout := by simpa [noRoom, double] using twice
          rw [if_pos double]
          omega
        · rw [if_neg double, opened]
          split
          · rename_i opens
            have quotes := quotes opens
            have more : (addQuotes q).nbytesout = q.nbytesout + 2 := rfl
            rw [more]
            omega
          · omega
      obtain ⟨k, inside, rest⟩ := ih (nin - (w - 1) - 1) fits'
      exact ⟨k + 1, Nat.succ_le_succ inside, first.step opened_bare rest⟩

theorem opened_quoted (fmtdoquote : Rune → Bool) (c : Rune) (q : Quoteinfo) :
    (opened fmtdoquote c q).quoted = (q.quoted || needsQuotes fmtdoquote c) := by
  unfold opened
  cases wants : needsQuotes fmtdoquote c <;> cases already : q.quoted <;> simp [addQuotes, already]

theorem opened_nbytesout (fmtdoquote : Rune → Bool) (c : Rune) (q : Quoteinfo) :
    (opened fmtdoquote c q).nbytesout = q.nbytesout + if !q.quoted && needsQuotes fmtdoquote c then 2 else 0 := by
  unfold opened
  cases needsQuotes fmtdoquote c <;> cases q.quoted <;> rfl

theorem opened_nrunesin (fmtdoquote : Rune → Bool) (c : Rune) (q : Quoteinfo) :
    (opened fmtdoquote c q).nrunesin = q.nrunesin := by
  unfold opened
  split <;> rfl

def quotes (quoted : Bool) : Nat := if quoted then 2 else 0

/-- The characters that fit between the quotes, in `room` bytes. -/
def accepted (fmtdoquote : Rune → Bool) : Bool → Int → Int → List (Rune × Nat) → List (Rune × Nat)
  | _, _, _, [] => []
  | quoted, nin, room, (c, w) :: rest =>
      let quoted := quoted || needsQuotes fmtdoquote c
      if nin = 0 ∨ room < width (c, w) + quotes quoted then []
      else (c, w) :: accepted fmtdoquote quoted (nin - w) (room - width (c, w)) rest

/-- The sizing pass accepts these. -/
theorem setupLoop_accepted (fmtdoquote : Rune → Bool) {nout : Int} (l : List (Rune × Nat)) (nin : Int) (q : Quoteinfo) :
    (setupLoop fmtdoquote nout false l nin q).nrunesin =
      q.nrunesin + (accepted fmtdoquote q.quoted nin (nout - q.nbytesout + quotes q.quoted) l).length := by
  induction l generalizing nin q with
  | nil => rfl
  | cons first l ih =>
      obtain ⟨c, w⟩ := first
      have grown : ((opened fmtdoquote c q).nbytesout : Int) = q.nbytesout - quotes q.quoted + quotes (q.quoted || needsQuotes fmtdoquote c) := by
        rw [opened_nbytesout]
        cases q.quoted <;> cases needsQuotes fmtdoquote c <;> simp [quotes]
      have bytes : (addChar (opened fmtdoquote c q) c w).nbytesout = (opened fmtdoquote c q).nbytesout + width (c, w) := Nat.add_assoc _ _ _
      have flag : (addChar (opened fmtdoquote c q) c w).quoted = (opened fmtdoquote c q).quoted := rfl
      have later := ih (nin - w) (addChar (opened fmtdoquote c q) c w)
      have room : nout - ((opened fmtdoquote c q).nbytesout + width (c, w) : Nat) + quotes (q.quoted || needsQuotes fmtdoquote c) =
          nout - q.nbytesout + quotes q.quoted - width (c, w) := by omega
      rw [addChar_nrunesin, opened_nrunesin, bytes, flag, opened_quoted, room] at later
      have full : nout - q.nbytesout + quotes q.quoted < width (c, w) + quotes (q.quoted || needsQuotes fmtdoquote c) ↔
          nout < (opened fmtdoquote c q).nbytesout + width (c, w) := by omega
      have shut : ¬ (needsQuotes fmtdoquote c && !q.quoted) = true → (opened fmtdoquote c q).nbytesout = q.nbytesout := by
        intro closed
        rw [opened, if_neg closed]
      have more : (needsQuotes fmtdoquote c && !q.quoted) = true → (opened fmtdoquote c q).nbytesout = q.nbytesout + 2 := by
        intro opens
        rw [opened, if_pos opens]
        rfl
      have most : width (c, w) = (if c.toNat = quote then 1 else 0) + w := rfl
      rw [setupLoop, accepted]
      dsimp only
      rw [← opened, show nin - ((w : Int) - 1) - 1 = nin - w by omega]
      by_cases stop : nin = 0 ∨ nout < (opened fmtdoquote c q).nbytesout + width (c, w)
      · rw [if_pos (show _ ∨ _ by rw [full]; exact stop), List.length_nil, Nat.add_zero]
        split
        · rfl
        rename_i going
        split
        · rfl
        rename_i roomy
        split
        · exact opened_nrunesin fmtdoquote c q
        rename_i twice
        exfalso
        simp only [Bool.or_eq_true, Bool.and_eq_true (decide _), decide_eq_true_eq, noRoom_bytes, not_or, not_and] at going twice
        rcases stop with ended | beyond
        · exact going.1 ended
        by_cases double : c.toNat = quote
        · have := twice double
          rw [most, if_pos double] at beyond
          omega
        rw [most, if_neg double] at beyond
        by_cases opens : (needsQuotes fmtdoquote c && !q.quoted) = true
        · rw [opens, Bool.true_and, noRoom_bytes] at roomy
          have := more opens
          omega
        · have := shut opens
          omega
      · obtain ⟨going, fits⟩ := not_or.mp stop
        rw [if_neg (show ¬ (_ ∨ _) by rw [full]; exact stop), if_neg, if_neg, if_neg, later]
        · rw [List.length_cons]
          omega
        · rw [Bool.and_eq_true, decide_eq_true_eq, noRoom_bytes]
          rintro ⟨double, beyond⟩
          rw [if_pos double] at most
          omega
        · rw [Bool.and_eq_true, noRoom_bytes]
          rintro ⟨opens, beyond⟩
          have := more opens
          omega
        · rw [Bool.or_eq_true, decide_eq_true_eq, noRoom_bytes]
          rintro (ended | beyond)
          · exact going ended
          · have : q.nbytesout ≤ (opened fmtdoquote c q).nbytesout := by
              rw [opened_nbytesout]
              exact Nat.le_add_right _ _
            omega

theorem accepted_first (fmtdoquote : Rune → Bool) (quoted : Bool) {nin room : Int} {x : Rune × Nat} (l : List (Rune × Nat)) (unlimited : nin ≠ 0)
    (fits : (width x : Int) + 2 ≤ room) : 0 < (accepted fmtdoquote quoted nin room (x :: l)).length := by
  have most : quotes (quoted || needsQuotes fmtdoquote x.1) ≤ 2 := by
    cases quoted || needsQuotes fmtdoquote x.1 <;> decide
  rw [accepted, if_neg]
  · exact Nat.zero_lt_succ _
  · rintro (ended | full)
    · exact unlimited ended
    · have : (width (x.1, x.2) : Int) = width x := rfl
      omega

theorem accepted_front (fmtdoquote : Rune → Bool) (quoted : Bool) (nin room : Int) (l : List (Rune × Nat)) :
    accepted fmtdoquote quoted nin room l <+: l := by
  induction l generalizing quoted nin room with
  | nil => exact List.nil_prefix
  | cons first l ih =>
      rw [accepted]
      split
      · exact List.nil_prefix
      · exact (List.prefix_cons_inj _).mpr (ih _ _ _)

/-- All characters are accepted exactly if there is room for what is made of
them. -/
theorem accepted_all_iff (fmtdoquote : Rune → Bool) (l : List (Rune × Nat)) {quoted : Bool} {nin room : Int} (unlimited : nin < 0)
    (enough : quotes quoted ≤ room) :
    accepted fmtdoquote quoted nin room l = l ↔ (size l : Int) + quotes (quoted || l.any fun x => needsQuotes fmtdoquote x.1) ≤ room := by
  induction l generalizing quoted nin room with
  | nil =>
      rw [accepted, List.any_nil, Bool.or_false]
      simpa [size] using enough
  | cons first l ih =>
      obtain ⟨c, w⟩ := first
      have more : quotes (quoted || needsQuotes fmtdoquote c) ≤
          quotes (quoted || needsQuotes fmtdoquote c || l.any fun x => needsQuotes fmtdoquote x.1) := by
        cases quoted <;> cases needsQuotes fmtdoquote c <;> cases l.any fun x => needsQuotes fmtdoquote x.1 <;> decide
      rw [accepted, size_cons, List.any_cons, ← Bool.or_assoc]
      dsimp only
      split
      · rename_i stop
        refine iff_of_false nofun fun fits => ?_
        rcases stop with ended | beyond <;> omega
      · rename_i going
        rw [List.cons.injEq, ih (by omega) (by omega)]
        constructor
        · rintro ⟨-, fits⟩
          omega
        · intro fits
          exact ⟨rfl, by omega⟩

/-- What the sizing pass finds of a string. -/
structure Setup (fmtdoquote : Rune → Bool) (input : Input) (nout : Int) (q : Quoteinfo) : Prop where
  count : q.nrunesin ≤ input.chars.length
  bytes : q.nbytesout = size (input.chars.take q.nrunesin) + if q.quoted then 2 else 0
  bare : q.quoted = false → ∀ x ∈ input.chars.take q.nrunesin, needsQuotes fmtdoquote x.1 = false
  bound : (q.nbytesout : Int) ≤ nout

theorem Sized.setup {fmtdoquote : Rune → Bool} {input : Input} {nout : Int} {q q' : Quoteinfo} {k : Nat} (inside : k ≤ input.chars.length)
    (fresh : q.nrunesin = 0) (start : q.nbytesout = if q.quoted then 2 else 0)
    (sized : Sized fmtdoquote nout (input.chars.take k) q q') : Setup fmtdoquote input nout q' := by
  have count : q'.nrunesin = k := by
    rw [sized.count, fresh, List.length_take_of_le inside, Nat.zero_add]
  refine ⟨by rw [count]; exact inside, ?_, by rw [count]; exact sized.bare, sized.bound⟩
  have keeps := sized.keeps
  rw [sized.bytes, start, count]
  revert keeps
  cases q.quoted <;> cases q'.quoted <;> simp
  omega

theorem quotesetup_setup (fmtdoquote : Rune → Bool) (input : Input) (nin : Int) {nout : Int} (limit : 0 ≤ nout) (sharp : Bool) :
    Setup fmtdoquote input nout (quotesetup fmtdoquote input nin nout sharp false) := by
  unfold quotesetup
  split
  · split
    · exact ⟨Nat.zero_le _, rfl, fun _ => nofun, limit⟩
    · obtain ⟨k, inside, sized⟩ := setupLoop_sized fmtdoquote input.chars nin (show ((⟨true, 0, 0, 2, 2⟩ : Quoteinfo).nbytesout : Int) ≤ nout by
        show (2 : Int) ≤ nout
        omega)
      exact sized.setup inside rfl rfl
  · obtain ⟨k, inside, sized⟩ := setupLoop_sized fmtdoquote input.chars nin
      (show ((⟨false, 0, 0, 0, 0⟩ : Quoteinfo).nbytesout : Int) ≤ nout from limit)
    exact sized.setup inside rfl rfl

/-- What the sizing pass has to put in quotes. -/
def forced (sharp : Bool) (nin : Int) (l : List (Rune × Nat)) : Bool := sharp || nin = 0 || l.isEmpty

theorem quotesetup_accepted (fmtdoquote : Rune → Bool) (input : Input) (nin : Int) {nout : Int} (limit : 2 ≤ nout) (sharp : Bool) :
    (quotesetup fmtdoquote input nin nout sharp false).nrunesin =
      (accepted fmtdoquote (forced sharp nin input.chars) nin nout input.chars).length := by
  rw [quotesetup, ← forced]
  cases forced sharp nin input.chars
  · rw [if_neg Bool.false_ne_true, setupLoop_accepted, Nat.zero_add]
    simp [quotes]
  · rw [if_pos rfl, if_neg (by omega), setupLoop_accepted, Nat.zero_add]
    simp [quotes]

/-- The bytes that quoting makes of a string. -/
def quotedSize (fmtdoquote : Rune → Bool) (sharp : Bool) (l : List (Rune × Nat)) : Nat :=
  size l + quotes (sharp || l.isEmpty || l.any fun x => needsQuotes fmtdoquote x.1)

theorem quotesetup_all_iff (fmtdoquote : Rune → Bool) (input : Input) {nin nout : Int} (unlimited : nin < 0) (limit : 2 ≤ nout) (sharp : Bool) :
    (quotesetup fmtdoquote input nin nout sharp false).nrunesin = input.chars.length ↔ quotedSize fmtdoquote sharp input.chars ≤ nout := by
  have nonzero : forced sharp nin input.chars = (sharp || input.chars.isEmpty) := by
    rw [forced, decide_eq_false (by omega), Bool.or_false]
  have start : quotes (sharp || input.chars.isEmpty) ≤ nout := by
    cases sharp || input.chars.isEmpty
    · exact Int.le_trans (by decide) limit
    · exact limit
  rw [quotesetup_accepted fmtdoquote input nin limit sharp, nonzero, quotedSize, Nat.cast_add, ← accepted_all_iff fmtdoquote _ unlimited start]
  exact ⟨(accepted_front _ _ _ _ _).eq_of_length, congrArg List.length⟩

/-- A string that has to be quoted is, when there is room for the quotes. -/
theorem quotesetup_forced (fmtdoquote : Rune → Bool) (input : Input) (nin : Int) {nout : Int} (limit : 2 ≤ nout) (sharp : Bool)
    (forces : forced sharp nin input.chars = true) : (quotesetup fmtdoquote input nin nout sharp false).quoted = true := by
  rw [quotesetup, ← forced, if_pos forces, if_neg (by omega)]
  obtain ⟨k, -, sized⟩ := setupLoop_sized fmtdoquote input.chars nin (show ((⟨true, 0, 0, 2, 2⟩ : Quoteinfo).nbytesout : Int) ≤ nout from limit)
  exact sized.keeps rfl

/-- Nothing is quoted in less room than the quotes take. -/
theorem setupLoop_cramped (fmtdoquote : Rune → Bool) {nout : Int} (limit : nout < 2) (l : List (Rune × Nat)) (nin : Int) {q : Quoteinfo}
    (unquoted : q.quoted = false) : (setupLoop fmtdoquote nout false l nin q).quoted = false := by
  induction l generalizing nin q with
  | nil => exact unquoted
  | cons first l ih =>
      obtain ⟨c, w⟩ := first
      rw [setupLoop]
      dsimp only
      rw [← opened]
      split
      · exact unquoted
      split
      · exact unquoted
      rename_i roomy
      have closed : needsQuotes fmtdoquote c = false := by
        rw [unquoted, Bool.not_false, Bool.and_true, Bool.and_eq_true, noRoom_bytes] at roomy
        by_contra opens
        exact roomy ⟨by simpa using opens, by omega⟩
      have still : (opened fmtdoquote c q).quoted = false := by rw [opened_quoted, unquoted, closed, Bool.or_false]
      split
      · exact still
      · exact ih _ still

theorem quotesetup_cramped (fmtdoquote : Rune → Bool) (input : Input) (nin : Int) {nout : Int} (limit : nout < 2) (sharp : Bool) :
    (quotesetup fmtdoquote input nin nout sharp false).quoted = false := by
  rw [quotesetup, ← forced]
  cases forced sharp nin input.chars
  · exact setupLoop_cramped fmtdoquote limit input.chars nin rfl
  · rw [if_pos rfl, if_pos limit]

/-! The writing pass. -/

/-- Whether the last bytes look like the beginning of a longer rune. -/
def incomplete (m : List UInt8) (left : Int) : Bool :=
  Runeself ≤ (m.headD 0).toNat && !(UTFmax ≤ left || fullrune (m ++ [0]) left = some true)

/-- The characters that are written of those that were accepted. -/
def sent : List (Rune × Nat) → List UInt8 → List (Rune × Nat)
  | [], _ => []
  | (c, w) :: p, m => if incomplete m ((((c, w) :: p).map Prod.snd).sum : Nat) then [] else (c, w) :: sent p (m.drop w)

theorem chars_cons {fuel : Nat} {m : List UInt8} {c : Rune} {w : Nat} {p : List (Rune × Nat)} (front : (c, w) :: p <+: chars fuel m) :
    ∃ fuel', chartorune (m ++ [0]) = some (c, w) ∧ c ≠ 0 ∧ p <+: chars fuel' (m.drop w) := by
  cases fuel with
  | zero => cases List.prefix_nil.mp front
  | succ fuel =>
      rw [chars] at front
      split at front
      · cases List.prefix_nil.mp front
      · rename_i c' w' read
        split at front
        · cases List.prefix_nil.mp front
        · rename_i nonzero
          obtain ⟨same, rest⟩ := List.cons_prefix_cons.mp front
          obtain ⟨rfl, rfl⟩ := Prod.mk.inj same
          exact ⟨fuel, read, nonzero, rest⟩

theorem copyBytes_sent (emit : Rune → List Nat) {fuel : Nat} {m : List UInt8} {p : List (Rune × Nat)} (front : p <+: chars fuel m) :
    copyBytes emit p.length m ((p.map Prod.snd).sum : Nat) = (sent p m).flatMap fun x => emit x.1 := by
  induction p generalizing fuel m with
  | nil => rfl
  | cons x p ih =>
      obtain ⟨c, w⟩ := x
      obtain ⟨fuel', read, nonzero, rest⟩ := chars_cons front
      have later := ih rest
      have left : ((((c, w) :: p).map Prod.snd).sum : Nat) - (w : Int) = ((p.map Prod.snd).sum : Nat) := by
        rw [List.map_cons, List.sum_cons]
        omega
      rw [List.length_cons, copyBytes, sent, incomplete]
      generalize ((((c, w) :: p).map Prod.snd).sum : Nat) = size at left ⊢
      by_cases low : (m.headD 0).toNat < Runeself
      · rw [if_pos low, decide_eq_false (Nat.not_le.mpr low), Bool.false_and, if_neg Bool.false_ne_true, List.flatMap_cons]
        cases m with
        | nil =>
            obtain ⟨rfl, -⟩ := Prod.mk.inj (Option.some.inj read)
            exact absurd rfl nonzero
        | cons b m =>
            have one : chartorune (b :: m ++ [0]) = some (.ofNat b.toNat, 1) := Rune.chartorune_one low
            obtain ⟨rfl, rfl⟩ := Prod.mk.inj (Option.some.inj (read.symm.trans one))
            rw [← later, ← left]
            rfl
      · rw [if_neg low, decide_eq_true (Nat.le_of_not_lt low), Bool.true_and]
        split
        · rename_i whole
          rw [whole, if_neg (by decide), List.flatMap_cons, read]
          dsimp only
          rw [left, later]
        · rename_i cut
          rw [Bool.eq_false_iff.mpr cut, if_pos (by rfl)]
          rfl

theorem sent_front (p : List (Rune × Nat)) (m : List UInt8) : sent p m <+: p := by
  induction p generalizing m with
  | nil => exact List.nil_prefix
  | cons x p ih =>
      rw [sent]
      split
      · exact List.nil_prefix
      · exact (List.prefix_cons_inj _).mpr (ih _)

/-- A byte that is not part of a rune. -/
def stray (x : Rune × Nat) : Bool := x.1.toNat = Runeerror && x.2 = 1

/-- Four bytes for a value that is no rune. -/
def beyond (x : Rune × Nat) : Bool := Runemax < x.1.toNat

/-- What is written for a character, against what was counted for it. -/
def Counted (x : Rune × Nat) : Prop :=
  (putQuoted false x.1).length + (if beyond x then 1 else 0) = width x + if stray x then 2 else 0

theorem putQuoted_length (c : Rune) : (putQuoted false c).length = (if c.toNat = quote then 1 else 0) + runelen c := by
  by_cases double : c.toNat = quote
  · have one : runelen c = 1 := by
      rw [runelen, runetochar_low (by rw [double]; decide)]
      rfl
    rw [putQuoted, if_pos double, if_pos double, List.length_append, put, if_neg Bool.false_ne_true, List.length_map, ← runelen, one]
  · rw [putQuoted, if_neg double, if_neg double, List.append_nil, put, if_neg Bool.false_ne_true, List.length_map, runelen, Nat.zero_add]

theorem chartorune_counted {m : List UInt8} {c : Rune} {w : Nat} (read : chartorune (m ++ [0]) = some (c, w)) : Counted (c, w) := by
  rw [Counted, putQuoted_length, width, runelen, Rune.runetochar_eq, stray, beyond]
  rcases Rune.chartorune_cases (.inl (List.mem_append_right m List.mem_cons_self)) with bad | ⟨v, rest, small, bytes⟩
  · obtain ⟨rfl, rfl⟩ := Prod.mk.inj (Option.some.inj (read.symm.trans bad))
    decide
  · rw [bytes, Rune.chartorune_utf8 small] at read
    obtain ⟨rfl, rfl⟩ := Prod.mk.inj (Option.some.inj read)
    have value : (UInt32.ofNat v).toNat = v := by rw [UInt32.toNat_ofNat', Nat.mod_eq_of_lt (by omega)]
    have error : (Rune.utf8 Runeerror).length = 3 := by decide
    have whole : (decide (v = Runeerror) && decide ((Rune.utf8 v).length = 1)) = false := by
      by_contra stray
      obtain ⟨rfl, one⟩ : v = Runeerror ∧ (Rune.utf8 v).length = 1 := by simpa using stray
      rw [error] at one
      cases one
    dsimp only
    rw [value, whole, if_neg Bool.false_ne_true]
    by_cases valid : v ≤ Runemax
    · rw [if_pos valid, decide_eq_false (Nat.not_lt.mpr valid), if_neg Bool.false_ne_true]
    · have large : 0x10FFFF < v := Nat.lt_of_not_le valid
      have four : (Rune.utf8 v).length = 4 := by
        rw [Rune.utf8_length, if_neg (by omega), if_neg (by omega), if_neg (by omega)]
      rw [if_neg valid, error, four, decide_eq_true (show Runemax < v from large), if_pos rfl]

theorem chars_counted (fuel : Nat) (m : List UInt8) : ∀ x ∈ chars fuel m, Counted x := by
  intro x member
  induction fuel generalizing m with
  | zero => cases member
  | succ fuel ih =>
      rw [chars] at member
      split at member
      · cases member
      · rename_i c w read
        split at member
        · cases member
        · rcases List.mem_cons.mp member with rfl | later
          · exact chartorune_counted read
          · exact ih _ later

theorem written_length {l : List (Rune × Nat)} (counted : ∀ x ∈ l, Counted x) :
    (l.flatMap fun x => putQuoted false x.1).length + l.countP beyond = size l + 2 * l.countP stray := by
  induction l with
  | nil => rfl
  | cons x l ih =>
      have here : Counted x := counted x List.mem_cons_self
      have later := ih fun y member => counted y (List.mem_cons_of_mem x member)
      have twice : (if stray x then 2 else 0) = 2 * if stray x then 1 else 0 := by cases stray x <;> rfl
      rw [Counted, twice] at here
      rw [List.flatMap_cons, List.length_append, List.countP_cons, List.countP_cons, size_cons]
      omega

/-- What the two passes differ by comes to nothing. -/
def Balanced (p : List (Rune × Nat)) (m : List UInt8) : Prop :=
  2 * (sent p m).countP stray = (sent p m).countP beyond + size (p.drop (sent p m).length)

/-- The text between the quotes has the size that was counted. -/
theorem quotedText_length_iff {fuel : Nat} {m : List UInt8} {p : List (Rune × Nat)} (front : p <+: chars fuel m) :
    (copyBytes (putQuoted false) p.length m ((p.map Prod.snd).sum : Nat)).length = size p ↔ Balanced p m := by
  have member : ∀ x ∈ sent p m, Counted x := fun x member =>
    chars_counted fuel m x (front.subset ((sent_front p m).subset member))
  have length := written_length member
  have parts : size p = size (sent p m) + size (p.drop (sent p m).length) := by
    conv_lhs => rw [← List.take_append_drop (sent p m).length p, size_append, ← (List.prefix_iff_eq_take.mp (sent_front p m))]
  rw [copyBytes_sent _ front, Balanced, parts]
  omega

/-! Whole runes: what is written is what `tokenize` reads. -/

/-- A byte that is written. -/
def bytes (l : List Nat) : List UInt8 := l.map UInt8.ofNat

theorem bytes_put (c : Rune) : bytes (put false c) = runetochar c := by
  rw [bytes, put, if_neg Bool.false_ne_true, List.map_map]
  exact (List.map_congr_left fun b _ => UInt8.ofNat_toNat).trans (List.map_id _)

theorem bytes_puts (r : List Rune) : bytes (r.flatMap (put false)) = encode r := by
  induction r with
  | nil => rfl
  | cons c r ih =>
      have split : bytes ((c :: r).flatMap (put false)) = bytes (put false c) ++ bytes (r.flatMap (put false)) := List.map_append
      rw [split, bytes_put, ih]
      rfl

/-- A low byte stands for itself only. -/
theorem runetochar_mem {c : Rune} {b : UInt8} (member : b ∈ runetochar c) (low : b.toNat < 0x80) : c.toNat = b.toNat := by
  by_cases one : c.toNat < 0x80
  · rw [runetochar_low one, List.mem_singleton] at member
    rw [member, UInt8.toNat_ofNat', Nat.mod_eq_of_lt (by omega)]
  · exact absurd (runetochar_bytes (Nat.le_of_not_lt one) b member) (Nat.not_le.mpr low)

theorem escape_append (one other : List UInt8) : Tokenize.escape (one ++ other) = Tokenize.escape one ++ Tokenize.escape other := List.flatMap_append

theorem escape_plain {text : List UInt8} (plain : ∀ b ∈ text, b ≠ Goken.Tokenize.quote) : Tokenize.escape text = text := by
  induction text with
  | nil => rfl
  | cons b text ih =>
      rw [Tokenize.escape, List.flatMap_cons, if_neg (plain b List.mem_cons_self), ← Tokenize.escape, ih fun x member => plain x (List.mem_cons_of_mem b member)]
      rfl

theorem bytes_putQuoted (c : Rune) : bytes (putQuoted false c) = Tokenize.escape (runetochar c) := by
  by_cases double : c.toNat = quote
  · have one : runetochar c = [Goken.Tokenize.quote] := by
      rw [runetochar_low (by rw [double]; decide), double]
      rfl
    have split : bytes (put false c ++ put false c) = bytes (put false c) ++ bytes (put false c) := List.map_append
    rw [putQuoted, if_pos double, split, bytes_put, one]
    rfl
  · have plain : ∀ b ∈ runetochar c, b ≠ Goken.Tokenize.quote := by
      rintro b member rfl
      exact double (runetochar_mem member (by decide))
    rw [putQuoted, if_neg double, List.append_nil, bytes_put, escape_plain plain]

theorem bytes_putsQuoted (r : List Rune) : bytes (r.flatMap (putQuoted false)) = Tokenize.escape (encode r) := by
  induction r with
  | nil => rfl
  | cons c r ih =>
      have split : bytes ((c :: r).flatMap (putQuoted false)) = bytes (putQuoted false c) ++ bytes (r.flatMap (putQuoted false)) := List.map_append
      have parts : encode (c :: r) = runetochar c ++ encode r := rfl
      rw [split, bytes_putQuoted, ih, parts, escape_append]

theorem encode_nonzero {r : List Rune} (valid : Valid r) : ∀ b ∈ encode r, b ≠ 0 := by
  rintro b member rfl
  obtain ⟨c, inside, byte⟩ := List.mem_flatMap.mp member
  have zero := runetochar_mem byte (by decide)
  have positive := (valid c inside).1
  rw [zero] at positive
  exact absurd positive (by decide)

theorem qsep_low : ∀ b ∈ Goken.Tokenize.qsep, b.toNat ≤ space := by
  simp [Goken.Tokenize.qsep, space]

theorem encode_plain {fmtdoquote : Rune → Bool} {r : List Rune} (bare : ∀ c ∈ r, needsQuotes fmtdoquote c = false) :
    ∀ b ∈ encode r, Tokenize.Plain Goken.Tokenize.qsep b := by
  intro b member
  obtain ⟨c, inside, byte⟩ := List.mem_flatMap.mp member
  obtain ⟨⟨above, other⟩, -⟩ : (space < c.toNat ∧ ¬ c.toNat = quote) ∧ fmtdoquote c = false := by
    simpa [needsQuotes] using bare c inside
  have large : space < b.toNat := by
    by_contra low
    have := runetochar_mem byte (by rw [space] at low; omega)
    omega
  refine ⟨?_, ?_, ?_⟩
  · rintro rfl
    exact absurd large (by decide)
  · rintro rfl
    exact other (runetochar_mem byte (by decide))
  · by_contra listed
    have := qsep_low b (by simpa using listed)
    omega

/-! The field of a format that has none. -/

theorem justify_none {f : Fmt} (unwide : f.has FmtWidth = false) {n : Int} (some : 0 ≤ n) (body : List Nat) : f.justify n body = body := by
  have none : pad (0 - n) = [] := by rw [pad, show (0 - n).toNat = 0 by omega, List.replicate_zero]
  rw [Fmt.justify, unwide, if_neg Bool.false_ne_true, none]
  simp

section Whole

variable {fmtdoquote : Rune → Bool} {f : Fmt} {r : List Rune} {q : Quoteinfo}

theorem qstrfmt_written (narrow : f.runes = false) (unwide : f.has FmtWidth = false) (valid : Valid r) (inside : q.nrunesin ≤ r.length)
    (read : q.nbytesin = ((r.take q.nrunesin).map runelen).sum) :
    Tokenize.Written (bytes (qstrfmt (.bytes (encode r)) q f)) (encode (r.take q.nrunesin)) := by
  refine .inr ⟨?_, encode_nonzero fun c member => valid c (List.mem_of_mem_take member)⟩
  have text : quotedText false (.bytes (encode r)) q = (r.take q.nrunesin).flatMap (putQuoted false) :=
    copyBytes_encode (putQuoted false) valid inside (by rw [read])
  rw [qstrfmt, narrow, justify_none unwide (by rw [if_neg Bool.false_ne_true]; exact Int.natCast_nonneg _), text]
  have split : ∀ a b c : List Nat, bytes (a ++ b ++ c) = bytes a ++ bytes b ++ bytes c := fun a b c => by simp [bytes]
  rw [split, bytes_putsQuoted, bytes_put]
  rfl

theorem fmtcpy_written (narrow : f.runes = false) (unwide : f.has FmtWidth = false) (unlimited : f.has FmtPrec = false) (valid : Valid r)
    (inside : q.nrunesin ≤ r.length) (read : q.nbytesin = ((r.take q.nrunesin).map runelen).sum) (some : 0 < q.nrunesin)
    (bare : ∀ c ∈ r.take q.nrunesin, needsQuotes fmtdoquote c = false) :
    Tokenize.Written (bytes (fmtcpy f (encode r) q.nrunesin q.nbytesin)) (encode (r.take q.nrunesin)) := by
  refine .inl ⟨?_, ?_, encode_plain bare⟩
  · rw [fmtcpy, unlimited, Bool.false_and, if_neg Bool.false_ne_true, narrow]
    rw [justify_none unwide (Int.natCast_nonneg _), Int.toNat_natCast, copyBytes_encode (put false) valid inside (by rw [read]), bytes_puts]
  · cases r with
    | nil => cases Nat.lt_of_lt_of_le some inside
    | cons c r =>
        obtain ⟨k, more⟩ := Nat.exists_eq_succ_of_ne_zero (Nat.ne_of_gt some)
        have first := runelen_pos c
        rw [more, List.take_succ_cons]
        intro empty
        have split : encode (c :: r.take k) = runetochar c ++ encode (r.take k) := rfl
        rw [split, List.append_eq_nil_iff] at empty
        rw [runelen, empty.1] at first
        cases first

end Whole

theorem width_le (c : Rune) : width (c, runelen c) ≤ 5 := by
  have runes : runelen c ≤ 4 := by
    rw [runelen, Rune.runetochar_eq, Rune.utf8_length]
    split_ifs <;> decide
  have twice : (if c.toNat = quote then 1 else 0) ≤ 1 := by split <;> decide
  exact Nat.add_le_add twice runes

/-- What a string becomes: the runes that are accepted, plain or in quotes. -/
theorem quotestrfmt_written (fmtdoquote : Rune → Bool) {f : Fmt} (narrow : f.runes = false) (flushes : f.flush = true)
    (unwide : f.has FmtWidth = false) (unlimited : f.has FmtPrec = false) {r : List Rune} (valid : Valid r) :
    ∃ k ≤ r.length, Tokenize.Written (bytes (quotestrfmt fmtdoquote f (some (.bytes (encode r))))) (encode (r.take k)) ∧
      (k = r.length ↔ quotedSize fmtdoquote (f.has FmtSharp) (Input.runes r).chars ≤ 0x7FFFFFFF) := by
  have limit : f.outlen = 0x7FFFFFFF := if_pos flushes
  have any : f.nin = -1 := by rw [Fmt.nin, unlimited, if_neg Bool.false_ne_true]
  have same : (Input.bytes (encode r)).chars = (Input.runes r).chars := chars_bytes valid
  have runes : (Input.runes r).chars = r.map fun c => (c, runelen c) := rfl
  have large : (2 : Int) ≤ 0x7FFFFFFF := by decide
  have setup := quotesetup_setup fmtdoquote (.bytes (encode r)) (-1) (show (0 : Int) ≤ 0x7FFFFFFF by decide) (f.has FmtSharp)
  have all := quotesetup_all_iff fmtdoquote (.bytes (encode r)) (show (-1 : Int) < 0 by decide) large (f.has FmtSharp)
  obtain ⟨inside, read⟩ := quotesetup_accepts fmtdoquote (.bytes (encode r)) (-1) 0x7FFFFFFF (f.has FmtSharp) false
  have count := quotesetup_accepted fmtdoquote (.bytes (encode r)) (-1) large (f.has FmtSharp)
  have forces := quotesetup_forced fmtdoquote (.bytes (encode r)) (-1) large (f.has FmtSharp)
  have bare := setup.bare
  rw [same, runes, List.length_map] at inside
  rw [same, runes, ← List.map_take, List.map_map] at read
  rw [same] at all bare count forces
  rw [runes, List.length_map] at all
  rw [quotestrfmt, limit, any, narrow]
  generalize quotesetup fmtdoquote (.bytes (encode r)) (-1) 0x7FFFFFFF (f.has FmtSharp) false = q at *
  refine ⟨q.nrunesin, inside, ?_, by rw [all, runes]; norm_cast⟩
  cases quoted : q.quoted
  · rw [if_neg Bool.false_ne_true]
    have unforced : forced (f.has FmtSharp) (-1) (Input.runes r).chars = false := by
      by_contra forces'
      rw [forces (by simpa using forces')] at quoted
      cases quoted
    have filled : (Input.runes r).chars.isEmpty = false := (Bool.or_eq_false_iff.mp unforced).2
    have some : 0 < q.nrunesin := by
      rw [count]
      rw [runes] at filled ⊢
      cases r with
      | nil => cases filled
      | cons c r => exact accepted_first fmtdoquote _ _ (by decide) (by have := width_le c; dsimp only; omega)
    refine fmtcpy_written narrow unwide unlimited valid inside read some fun c member => bare quoted (c, runelen c) ?_
    rw [runes, ← List.map_take]
    exact List.mem_map_of_mem member
  · rw [if_pos rfl]
    exact qstrfmt_written narrow unwide valid inside read

theorem encode_take {r : List Rune} {k : Nat} (inside : k ≤ r.length) : encode (r.take k) = encode r ↔ k = r.length := by
  constructor
  · intro same
    have parts : encode r = encode (r.take k) ++ encode (r.drop k) := by
      rw [encode, encode, encode, ← List.flatMap_append, List.take_append_drop]
    rw [same] at parts
    have none : encode (r.drop k) = [] := List.self_eq_append_right.mp parts
    by_contra less
    obtain ⟨c, rest, more⟩ := List.exists_cons_of_ne_nil (show r.drop k ≠ [] by rw [Ne, List.drop_eq_nil_iff]; omega)
    have first := runelen_pos c
    rw [more, encode, List.flatMap_cons, List.append_eq_nil_iff] at none
    rw [runelen, none.1] at first
    cases first
  · rintro rfl
    rw [List.take_length]

/-- The line made of some strings. -/
def quoteAll (fmtdoquote : Rune → Bool) (f : Fmt) (strings : List (List Rune)) : List UInt8 :=
  [0x20].intercalate (strings.map fun r => bytes (quotestrfmt fmtdoquote f (some (.bytes (encode r)))))

theorem tokenize_quoteAll_iff (fmtdoquote : Rune → Bool) {f : Fmt} (narrow : f.runes = false) (flushes : f.flush = true)
    (unwide : f.has FmtWidth = false) (unlimited : f.has FmtPrec = false) {strings : List (List Rune)} (valid : ∀ r ∈ strings, Valid r)
    {maxargs : Nat} (enough : strings.length ≤ maxargs) :
    Goken.Tokenize.tokenize (quoteAll fmtdoquote f strings) maxargs = strings.map encode ↔
      ∀ r ∈ strings, quotedSize fmtdoquote (f.has FmtSharp) (Input.runes r).chars ≤ 0x7FFFFFFF := by
  have each : ∀ r, ∃ k, r ∈ strings → k ≤ r.length ∧
      Tokenize.Written (bytes (quotestrfmt fmtdoquote f (some (.bytes (encode r))))) (encode (r.take k)) ∧
      (k = r.length ↔ quotedSize fmtdoquote (f.has FmtSharp) (Input.runes r).chars ≤ 0x7FFFFFFF) := by
    intro r
    by_cases member : r ∈ strings
    · obtain ⟨k, inside, written, all⟩ := quotestrfmt_written fmtdoquote narrow flushes unwide unlimited (valid r member)
      exact ⟨k, fun _ => ⟨inside, written, all⟩⟩
    · exact ⟨0, fun inside => absurd inside member⟩
  choose k each using each
  have words := @Tokenize.tokenize_written
    (strings.map fun r => (bytes (quotestrfmt fmtdoquote f (some (.bytes (encode r)))), encode (r.take (k r))))
    (by
      intro piece member
      obtain ⟨r, inside, rfl⟩ := List.mem_map.mp member
      exact (each r inside).2.1)
    maxargs (by rw [List.length_map]; exact enough)
  rw [List.map_map, List.map_map] at words
  have text : quoteAll fmtdoquote f strings = [0x20].intercalate (strings.map (Prod.fst ∘ fun r =>
    (bytes (quotestrfmt fmtdoquote f (some (.bytes (encode r)))), encode (r.take (k r))))) := rfl
  rw [text, words, List.map_inj_left]
  constructor
  · intro same r member
    obtain ⟨inside, -, all⟩ := each r member
    exact all.mp ((encode_take inside).mp (same r member))
  · intro fits r member
    obtain ⟨inside, -, all⟩ := each r member
    exact (encode_take inside).mpr (all.mpr (fits r member))

theorem nbytesout_iff (fmtdoquote : Rune → Bool) {f : Fmt} (narrow : f.runes = false) (unwide : f.has FmtWidth = false) (s : List UInt8)
    (nin nout : Int) (sharp : Bool) (quoted : (quotesetup fmtdoquote (.bytes s) nin nout sharp false).quoted = true) :
    ((qstrfmt (.bytes s) (quotesetup fmtdoquote (.bytes s) nin nout sharp false) f).length =
          (quotesetup fmtdoquote (.bytes s) nin nout sharp false).nbytesout ∧
        ((quotesetup fmtdoquote (.bytes s) nin nout sharp false).nbytesout : Int) ≤ nout) ↔
      Balanced (accepted fmtdoquote (forced sharp nin (Input.bytes s).chars) nin nout (Input.bytes s).chars) s := by
  have limit : 2 ≤ nout := by
    by_contra cramped
    rw [quotesetup_cramped fmtdoquote _ nin (by omega) sharp] at quoted
    cases quoted
  have setup := quotesetup_setup fmtdoquote (.bytes s) nin (show (0 : Int) ≤ nout by omega) sharp
  have count := quotesetup_accepted fmtdoquote (.bytes s) nin limit sharp
  obtain ⟨-, read⟩ := quotesetup_accepts fmtdoquote (.bytes s) nin nout sharp false
  have front := accepted_front fmtdoquote (forced sharp nin (Input.bytes s).chars) nin nout (Input.bytes s).chars
  generalize accepted fmtdoquote (forced sharp nin (Input.bytes s).chars) nin nout (Input.bytes s).chars = p at *
  generalize quotesetup fmtdoquote (.bytes s) nin nout sharp false = q at *
  have taken : (Input.bytes s).chars.take q.nrunesin = p := by rw [count, ← List.prefix_iff_eq_take.mp front]
  have size := setup.bytes
  have bound := setup.bound
  rw [taken] at read size
  rw [quoted, if_pos rfl] at size
  have body : quotedText false (.bytes s) q = copyBytes (putQuoted false) p.length s ((p.map Prod.snd).sum : Nat) := by
    rw [← count, ← read]
    rfl
  have mark : (put false (.ofNat quote)).length = 1 := by decide
  rw [← quotedText_length_iff front, qstrfmt, narrow, justify_none unwide (by rw [if_neg Bool.false_ne_true]; exact Int.natCast_nonneg _), body,
    List.length_append, List.length_append, mark]
  omega

/-- Quoting and `tokenize` give the strings back that are not too long, and
what is counted is what is written when the two passes are balanced. -/
theorem quote_tokenize_iff (fmtdoquote : Rune → Bool) {f : Fmt} (narrow : f.runes = false) (flushes : f.flush = true)
    (unwide : f.has FmtWidth = false) (unlimited : f.has FmtPrec = false) :
    (∀ strings : List (List Rune), (∀ r ∈ strings, Valid r) → ∀ maxargs, strings.length ≤ maxargs →
      (Goken.Tokenize.tokenize (quoteAll fmtdoquote f strings) maxargs = strings.map encode ↔
        ∀ r ∈ strings, quotedSize fmtdoquote (f.has FmtSharp) (Input.runes r).chars ≤ 0x7FFFFFFF)) ∧
    ∀ (s : List UInt8) (nin nout : Int) (sharp : Bool), (quotesetup fmtdoquote (.bytes s) nin nout sharp false).quoted = true →
      ((qstrfmt (.bytes s) (quotesetup fmtdoquote (.bytes s) nin nout sharp false) f).length =
            (quotesetup fmtdoquote (.bytes s) nin nout sharp false).nbytesout ∧
          ((quotesetup fmtdoquote (.bytes s) nin nout sharp false).nbytesout : Int) ≤ nout ↔
        Balanced (accepted fmtdoquote (forced sharp nin (Input.bytes s).chars) nin nout (Input.bytes s).chars) s) :=
  ⟨fun _ valid _ enough => tokenize_quoteAll_iff fmtdoquote narrow flushes unwide unlimited valid enough,
    nbytesout_iff fmtdoquote narrow unwide⟩

theorem quote_tokenize_plain : Goken.Tokenize.tokenize (quoteAll noQuotes plain [[0xE9, 0x20], []]) 2 = [encode [0xE9, 0x20], encode []] ∧
    (qstrfmt (.bytes [0x61, 0x20]) (quotesetup noQuotes (.bytes [0x61, 0x20]) (-1) 9 false false) plain).length =
        (quotesetup noQuotes (.bytes [0x61, 0x20]) (-1) 9 false false).nbytesout ∧
      ((quotesetup noQuotes (.bytes [0x61, 0x20]) (-1) 9 false false).nbytesout : Int) ≤ 9 := by
  obtain ⟨words, counts⟩ := @quote_tokenize_iff noQuotes plain rfl rfl rfl rfl
  have valid : ∀ r ∈ [[0xE9, 0x20], []], Valid r :=
    List.forall_mem_cons.mpr ⟨valid_two (by decide) (by decide), List.forall_mem_singleton.mpr nofun⟩
  exact ⟨(words [[0xE9, 0x20], []] valid 2 (by decide)).mpr (List.forall_mem_cons.mpr ⟨by decide, List.forall_mem_singleton.mpr (by decide)⟩),
    (counts [0x61, 0x20] (-1) 9 false (by decide)).mpr (by unfold Balanced; decide)⟩

/-- A byte that is no rune is counted as one byte and written as three. -/
theorem stray_counted_once :
    (quotesetup noQuotes (.bytes [0xFF, 0x20, 0x61, 0x62]) (-1) 0x7FFFFFFF false false).nbytesout = 6 ∧
      (qstrfmt (.bytes [0xFF, 0x20, 0x61, 0x62]) (quotesetup noQuotes (.bytes [0xFF, 0x20, 0x61, 0x62]) (-1) 0x7FFFFFFF false false) plain).length = 8 := by
  decide

end Goken.Proofs.QuoteTokens
