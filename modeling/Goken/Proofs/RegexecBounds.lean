import Goken.Proofs.Regexec
import Goken.Proofs.RegexecAgree

/-! The end bound of the caller in `regexec`. The turns of the machine are told by the
characters and the threads alone: which bytes it looks at, and at which it executes a list,
then follows from the program, the text and the range. -/

namespace Goken.Proofs.RegexecBounds
open Goken.Regexec Goken.Rune Proofs.Regexec RegexecThreads RegexecSearch RegexecText RegexecAgree
open Goken.Regcomp (regcomp regcomp1)
open Lib.Steps (Reaches loop loop_reaches)

section Bytes

variable (text : List UInt8)

/-- The bytes that a search for `ch` from `s` on looks at: up to the first that is `ch` or a NUL. -/
def Scans (s ch x : Nat) : Prop := s ≤ x ∧ ∀ i, s ≤ i → i < x → uchar text i ≠ ch ∧ uchar text i ≠ 0

/-- The bytes that the character at `s` is read from. `chartorune` looks at one more as long as
those before it do not give a result. -/
def Decodes (s x : Nat) : Prop :=
  s ≤ x ∧ (x = s ∨ (Runeself ≤ uchar text s ∧ chartorune (((text ++ [0]).drop s).take (x - s)) = none))

variable {text} {s ch k : Nat}

theorem uchar_place {v : Nat} (low : v < Runeself) (here : reads text s k = v) : uchar text (place text s k) = v := by
  by_cases byte : uchar text (place text s k) < Runeself
  · rw [← here, reads, char_low _ _ byte]
  · have high := (char_high text (place text s k) (Nat.le_of_not_lt byte)).1
    rw [reads] at here
    omega

theorem reads_uchar {v x : Nat} (low : v < Runeself) (after : place text s k ≤ x) (before : x < place text s (k + 1)) (byte : uchar text x = v) :
    reads text s k = v := by
  rw [place] at before
  by_cases ascii : uchar text (place text s k) < Runeself
  · rw [char_low _ _ ascii] at before
    have here : x = place text s k := by omega
    rw [reads, char_low _ _ ascii, ← here, byte]
  · have high := (char_high text (place text s k) (Nat.le_of_not_lt ascii)).2.2 (x - place text s k) (by omega)
    rw [Nat.add_sub_cancel' after, byte] at high
    omega

theorem scans_place (low : ch < Runeself) {q : Nat} (le : k ≤ q) (before : ∀ i, k ≤ i → i < q → reads text s i ≠ ch ∧ reads text s i ≠ 0) :
    Scans text (place text s k) ch (place text s q) := by
  refine ⟨(place_mono text s).monotone le, ?_⟩
  induction q, le using Nat.le_induction with
  | base => exact fun i low high => absurd low (Nat.not_le_of_lt high)
  | succ q le ih =>
    intro i after less
    by_cases early : i < place text s q
    · exact ih (fun i low high => before i low (Nat.lt_succ_of_lt high)) i after early
    · have here := before q le (Nat.lt_succ_self q)
      have late := Nat.le_of_not_lt early
      exact ⟨fun same => here.1 (reads_uchar low late less same), fun same => here.2 (reads_uchar (by decide) late less same)⟩

/-- A search that looks at nothing beyond the bound finds what it looks for by then, or the end of the string. -/
theorem scans_iff (low : ch < Runeself) {bound : Nat} :
    (∀ x, Scans text (place text s k) ch x → x ≤ bound) ↔ ∃ i ≥ k, place text s i ≤ bound ∧ (reads text s i = ch ∨ reads text s i = 0) := by
  constructor
  · intro inside
    have ends : ∃ e, k ≤ e ∧ (reads text s e = ch ∨ reads text s e = 0) := by
      obtain ⟨e, after, zero⟩ := reads_ends text s k
      exact ⟨e, after, Or.inr zero⟩
    classical
    obtain ⟨after, here⟩ := Nat.find_spec ends
    refine ⟨Nat.find ends, after, inside _ (scans_place low after fun i le less => ?_), here⟩
    have other := Nat.find_min ends less
    tauto
  · rintro ⟨i, after, near, here⟩ x ⟨_, before⟩
    by_contra beyond
    obtain ⟨other, more⟩ := before (place text s i) ((place_mono text s).monotone after) (by omega)
    rcases here with same | zero
    · exact other (uchar_place low same)
    · exact more (uchar_place (by decide) zero)

end Bytes

section Turns

variable (prog : Reprog) (text : List UInt8) (s bound : Nat)

/-- The search tries the start `a`: it is not missed, and no match has ended before. -/
def Tried (a : Nat) : Prop :=
  ¬Missed prog (reads text s) (opens text s) (decide (s = 0)) a ∧
    ∀ b e, Match prog (reads text s) (opens text s) b e → ¬Missed prog (reads text s) (opens text s) (decide (s = 0)) b → a ≤ e

/-- A thread is left when the character `k` comes. -/
def Alive (k : Nat) : Prop := ∃ a < k, Tried prog text s a ∧ ∃ i, Entry prog (reads text s) (opens text s) a k i

/-- What the expression begins with, where the search can skip to it. -/
def target (p : Nat) : Option Nat :=
  match starttype prog with
  | (.zero, _) => none
  | (.RUNE, ch) => some ch
  | (.BOL, _) => if p = 0 then none else some newline

/-- The search skips to the next `ch`. -/
def Seeks (k ch : Nat) : Prop := ¬Alive prog text s k ∧ target prog (place text s k) = some ch

/-- The search goes on from the character `k` to another, unless it is already at the bound. -/
inductive Goes (k : Nat) : Nat → Prop
  | stays (still : ∀ ch, ¬Seeks prog text s k ch) : Goes k k
  | skips {ch q : Nat} (seeks : Seeks prog text s k ch) (more : place text s k ≠ bound) (le : k ≤ q) (here : reads text s q = ch)
      (before : ∀ i, k ≤ i → i < q → reads text s i ≠ ch ∧ reads text s i ≠ 0) : Goes k q

/-- The characters at which a turn begins. -/
inductive Turns : Nat → Prop
  | first : Turns 0
  | next {k q : Nat} (turn : Turns k) (goes : Goes prog text s bound k q) (apart : place text s q ≠ bound) (more : reads text s q ≠ 0) :
      Turns (q + 1)

/-- What is skipped to, or the end of the string, is not beyond the bound, and no character is read from bytes there. -/
structure Short : Prop where
  skips : ∀ k ch, Turns prog text s bound k → Seeks prog text s k ch → ∃ i ≥ k, place text s i ≤ bound ∧ (reads text s i = ch ∨ reads text s i = 0)
  reads : ∀ k q, Turns prog text s bound k → Goes prog text s bound k q → ∀ x, Decodes text (place text s q) x → x ≤ bound

/-- No character that the search goes on to is beyond the bound. -/
def Near : Prop := ∀ k q, Turns prog text s bound k → Goes prog text s bound k q → place text s q ≤ bound

variable {prog text s bound} {k : Nat}

theorem target_low {p ch : Nat} (sought : target prog p = some ch) : ch < Runeself := by
  unfold target at sought
  rcases starttype_cases prog with ⟨r, next, -, low, same⟩ | ⟨next, -, same⟩ | ⟨-, same⟩
  · rw [same] at sought
    cases sought
    exact low
  · rw [same] at sought
    dsimp only at sought
    split at sought
    · cases sought
    · cases sought
      decide
  · rw [same] at sought
    cases sought

theorem Goes.le {q : Nat} (goes : Goes prog text s bound k q) : k ≤ q := by
  cases goes with
  | stays => exact Nat.le_refl k
  | skips _ _ le _ _ => exact le

end Turns

section Machine

variable {prog : Reprog} {text : List UInt8} {j : Reljunk} {bound k : Nat} {c c' : Config}

variable (prog text j) in
/-- The threads of a list have been started at characters before `m` that are tried. -/
def Begun (m : Nat) (l : List Relist) : Prop :=
  ∀ p ∈ l, ∃ a < m, Tried prog text j.starts a ∧ (p.se 0).s = some (place text j.starts a)

variable (prog text j) in
/-- What holds of the search in `regexec1`. -/
abbrev Searches (c : Config) : Prop :=
  Searching prog (reads text j.starts) (opens text j.starts) (place text j.starts) (decide (j.starts = 0)) (decide (j.starttype ≠ Start.zero)) True c

variable (prog text j) in
/-- What is known at a turn. -/
structure AtTurn (k : Nat) (c : Config) (tried : Nat → Prop) (best : Option (Nat × Nat)) : Prop where
  known : Known prog (reads text j.starts) (opens text j.starts) (place text j.starts) (decide (j.starts = 0)) (decide (j.starttype ≠ Start.zero))
    k k tried (threads c.nl) best
  holds : Holds c best
  empty : c.checkstart = true → c.nl = []
  full : j.starttype ≠ Start.zero → c.nl = [] → c.checkstart = true

theorem at_turn (searches : Searches prog text j c) (turn : c.phase = .turn) (here : c.s = place text j.starts k) :
    ∃ tried best, AtTurn prog text j k c tried best := by
  rw [Searches, Searching, turn] at searches
  obtain ⟨k', tried, best, here', known, holds, empty, full⟩ := searches
  cases (place_mono text j.starts).injective (here.symm.trans here')
  exact ⟨tried, best, known, holds, fun yes => (empty yes).2, fun type => full (decide_eq_true type)⟩

variable (type : (j.starttype, j.startchar) = starttype prog)
include type

theorem lost_iff {a : Nat} :
    Lost prog (reads text j.starts) (opens text j.starts) (decide (j.starts = 0)) (decide (j.starttype ≠ Start.zero)) a ↔
      Missed prog (reads text j.starts) (opens text j.starts) (decide (j.starts = 0)) a := by
  have same : j.starttype = (starttype prog).1 := congrArg Prod.fst type
  rw [same, lost_missed]

section Turn

variable {tried : Nat → Prop} {best : Option (Nat × Nat)} (turn : AtTurn prog text j k c tried best)
include turn

/-- A thread is left just when the list is not empty. -/
theorem alive_iff (begun : Begun prog text j k c.nl) : Alive prog text j.starts k ↔ c.nl ≠ [] := by
  constructor
  · rintro ⟨a, before, ⟨seen, early⟩, i, entry⟩ empty
    by_cases start : tried a
    · obtain ⟨n, -, member⟩ := turn.known.complete a start i entry
      rw [threads_empty empty] at member
      exact absurd member List.not_mem_nil
    · rcases turn.known.untried a before start with dead | lost | ⟨b, e, start', matched, ended⟩
      · exact absurd (dead.1 k i entry) (by omega)
      · exact seen ((lost_iff type).mp lost)
      · have less := early b e matched fun missed => turn.known.kept b start' ((lost_iff type).mpr missed)
        omega
  · intro more
    obtain ⟨p, rest, same⟩ := List.exists_cons_of_ne_nil more
    have member : p ∈ c.nl := by rw [same]; exact List.mem_cons_self
    obtain ⟨a, before, seen, start⟩ := begun p member
    obtain ⟨a', start', rank, entry⟩ := turn.known.sound (thread p) (List.mem_map_of_mem member)
    rw [thread, start] at rank
    cases (place_mono text j.starts).injective (Nat.succ.inj rank)
    exact ⟨a, before, seen, p.inst, entry⟩

/-- What the fast check looks for. -/
theorem seeks_iff (begun : Begun prog text j k c.nl) (here : c.s = place text j.starts k) (ch : Nat) :
    sought j c = some ch ↔ Seeks prog text j.starts k ch := by
  have alive := alive_iff type turn begun
  have idle : ¬Alive prog text j.starts k ↔ c.nl = [] := by rw [alive, ne_eq, Decidable.not_not]
  have sought_eq : sought j c = if c.checkstart then target prog c.s else none := by
    unfold sought target
    rw [← type]
    cases j.starttype <;> rfl
  rw [Seeks, idle, sought_eq, ← here]
  by_cases check : c.checkstart = true
  · rw [if_pos check]
    exact ⟨fun looks => ⟨turn.empty check, looks⟩, And.right⟩
  · rw [if_neg check]
    refine ⟨nofun, fun ⟨empty, looks⟩ => absurd (turn.full (fun none => ?_) empty) check⟩
    rw [target, ← type, none] at looks
    cases looks

/-- Where a turn goes on. -/
theorem skip_iff (begun : Begun prog text j k c.nl) (here : c.s = place text j.starts k) (stops : j.eol = some bound) (p : Nat) :
    skip text j c = some p ↔ ∃ q, Goes prog text j.starts bound k q ∧ p = place text j.starts q := by
  have seeks := seeks_iff type turn begun here
  unfold skip
  cases looks : sought j c with
  | none =>
    have still (ch : Nat) : ¬Seeks prog text j.starts k ch := by
      rw [← seeks, looks]
      exact nofun
    rw [here]
    constructor
    · rintro ⟨⟩
      exact ⟨k, .stays still, rfl⟩
    · rintro ⟨q, goes, rfl⟩
      cases goes with
      | stays => rfl
      | skips other => exact absurd other (still _)
  | some ch =>
    have this := (seeks ch).mp looks
    have unique {ch' : Nat} (other : Seeks prog text j.starts k ch') : ch' = ch := Option.some.inj (other.2.symm.trans this.2)
    have near : some c.s = j.eol ↔ place text j.starts k = bound := by rw [stops, here, Option.some.injEq]
    dsimp only
    rw [here] at near ⊢
    rcases searched (utfrune_char text j.starts (target_low this.2)) (reads_ends text j.starts k) with
      ⟨q, le, found, same, before⟩ | ⟨e, le, found, zero, before⟩
    · rw [found]
      dsimp only
      split
      next last =>
        refine ⟨nofun, ?_⟩
        rintro ⟨q', goes, -⟩
        cases goes with
        | stays still => exact absurd this (still ch)
        | skips _ more => exact absurd (near.mp last) more
      next more =>
        constructor
        · rintro ⟨⟩
          exact ⟨q, .skips this (fun last => more (near.mpr last)) le same before, rfl⟩
        · rintro ⟨q', goes, rfl⟩
          cases goes with
          | stays still => exact absurd this (still ch)
          | skips other _ le' same' before' =>
            cases unique other
            rcases Nat.lt_trichotomy q q' with less | rfl | less
            · exact absurd same (before' q le less).1
            · rfl
            · exact absurd same' (before q' le' less).1
    · rw [found]
      refine ⟨nofun, ?_⟩
      rintro ⟨q, goes, -⟩
      cases goes with
      | stays still => exact absurd this (still ch)
      | skips other _ le' same' before' =>
        cases unique other
        by_cases less : q ≤ e
        · exact absurd same' (before q le' less)
        · exact absurd zero (before' e le (by omega)).2

/-- The start at which a turn goes on is tried, if there is no match yet. -/
theorem goes_tried (skips : Skips prog (reads text j.starts) (opens text j.starts) (place text j.starts) (decide (j.starts = 0))
      (decide (j.starttype ≠ Start.zero)) k c.nl (some (place text j.starts q))) (unmatched : c.matched = false) :
    Tried prog text j.starts q := by
  generalize same : place text j.starts q = p at skips
  cases skips with
  | goes le empty inside passed stays =>
    rename_i q'
    cases (place_mono text j.starts).injective same
    have known := turn.known.goes le (fun less => threads_empty (empty less)) inside passed
    refine ⟨fun missed => ?_, fun b e matched seen => ?_⟩
    · have tries := known.tries fun leaves => by
        rw [threads, ne_eq, List.map_eq_nil_iff]
        exact (stays leaves).2
      exact tries.kept q (Or.inr rfl) ((lost_iff type).mpr missed)
    · by_contra late
      have early : e < q := Nat.lt_of_not_le late
      have none : best = none := by
        rw [← Option.not_isSome_iff_eq_none, ← turn.holds.matched, unmatched]
        exact Bool.false_ne_true
      have ended (b e : Nat) (start : tried b) (matched : Match prog (reads text j.starts) (opens text j.starts) b e) (early : e < q) : False := by
        obtain ⟨_, member, _⟩ := known.ended b e start matched early
        rw [none] at member
        cases member
      by_cases start : tried b
      · exact ended b e start matched early
      · rcases known.untried b (Nat.lt_of_le_of_lt matched.le early) start with dead | lost | ⟨b', e', start', matched', early'⟩
        · exact dead.2 e matched
        · exact seen ((lost_iff type).mp lost)
        · have := matched.le
          exact ended b' e' start' matched' (by omega)

end Turn

end Machine

section Lists

theorem renewthread_all {P : Resublist → Prop} {l : List Relist} (all : ∀ p ∈ l, P p.se) (ip : Nat) {se : Resublist} (new : P se) :
    ∀ p ∈ (renewthread l ip se).1, P p.se := by
  induction l with
  | nil =>
    intro p member
    rw [renewthread, List.mem_singleton] at member
    exact member ▸ new
  | cons q rest ih =>
    have here := all q List.mem_cons_self
    have others := fun p member => all p (List.mem_cons_of_mem q member)
    intro p member
    simp only [renewthread] at member
    split at member
    · rcases List.mem_cons.mp member with rfl | later
      · split
        · exact new
        · exact here
      · exact others p later
    · rcases List.mem_cons.mp member with rfl | later
      · exact here
      · exact ih others p later

theorem modify_all {P : Resublist → Prop} {l : List Relist} (all : ∀ p ∈ l, P p.se) (t : Nat) {se : Resublist} (new : P se) :
    ∀ p ∈ l.modify t (fun p => { p with se }), P p.se := by
  induction l generalizing t with
  | nil =>
    intro p member
    rw [List.modify_nil] at member
    cases member
  | cons q rest ih =>
    have others := fun p member => all p (List.mem_cons_of_mem q member)
    intro p member
    cases t with
    | zero =>
      rcases List.mem_cons.mp member with rfl | later
      · exact new
      · exact others p later
    | succ t =>
      rcases List.mem_cons.mp member with rfl | later
      · exact all p List.mem_cons_self
      · exact ih others t p later

end Lists

section Execution

variable {text : List UInt8} {j : Reljunk} {c c' : Config} {se : Resublist}

/-- All that an instruction can do, at the bound or before it. -/
inductive Outcome (j : Reljunk) (c : Config) (se : Resublist) : Config → Prop
  | advances : Outcome j c se c.advance
  | goes (next : Nat) : Outcome j c se { c with phase := .inst next }
  | marks {se' : Resublist} (next : Nat) (same : (se' 0).s = (se 0).s) : Outcome j c se { c.setSe se' with phase := .inst next }
  | pushes (next : Nat) : Outcome j c se (push j c next se)
  | postpones (right left : Nat) : Outcome j c se (postpone j c right left se)
  | ends : Outcome j c se
      { c.setSe (Function.update se 0 { se 0 with e := some c.s }) with
        matched := true, mp := renewmatch c.mp (Function.update se 0 { se 0 with e := some c.s }) }.advance

theorem execute_outcome {inst : Inst} (marked : Inst.Marked inst) : Outcome j c se (execute text j c se inst) := by
  have pushes (taken : Prop) [Decidable taken] (next : Nat) : Outcome j c se (if taken then push j c next se else c.advance) := by
    split
    · exact .pushes next
    · exact .advances
  have goes (passed : Prop) [Decidable passed] (next : Nat) : Outcome j c se (if passed then { c with phase := .inst next } else c.advance) := by
    split
    · exact .goes next
    · exact .advances
  cases inst with
  | RUNE r next => exact pushes _ next
  | LBRA subid next => exact .marks next (mark_same marked _)
  | RBRA subid next => exact .marks next (mark_same marked _)
  | ANY next => exact pushes _ next
  | ANYNL next => exact .pushes next
  | NOP next => exact .advances
  | BOL next => exact goes _ next
  | EOL next => exact goes _ next
  | CCLASS spans next => exact pushes _ next
  | NCCLASS spans next =>
    rw [execute]
    split
    · exact .advances
    · exact .pushes next
  | OR right left => exact .postpones right left
  | END => exact .ends

theorem push_fields (c : Config) (next : Nat) (se : Resublist) :
    (push j c next se).s = c.s ∧ (push j c next se).r = c.r ∧ (push j c next se).n = c.n ∧ (push j c next se).mp = c.mp ∧
      (push j c next se).tl = c.tl ∧ (push j c next se).nl = (renewthread c.nl next se).1 := by
  unfold push
  dsimp only
  split <;> exact ⟨rfl, rfl, rfl, rfl, rfl, rfl⟩

theorem postpone_fields (c : Config) (right left : Nat) (se : Resublist) :
    (postpone j c right left se).s = c.s ∧ (postpone j c right left se).r = c.r ∧ (postpone j c right left se).n = c.n ∧
      (postpone j c right left se).mp = c.mp ∧ (postpone j c right left se).nl = c.nl ∧
      (postpone j c right left se).tl = c.tl.take c.t ++ (renewthread (c.tl.drop c.t) right se).1 := by
  unfold postpone
  dsimp only
  split
  · exact ⟨rfl, rfl, rfl, rfl, rfl, rfl⟩
  · split <;> exact ⟨rfl, rfl, rfl, rfl, rfl, rfl⟩

namespace Outcome

variable (outcome : Outcome j c se c')
include outcome

theorem place : c'.s = c.s ∧ c'.r = c.r ∧ c'.n = c.n := by
  cases outcome with
  | pushes next =>
    obtain ⟨s, r, n, -⟩ := push_fields (j := j) c next se
    exact ⟨s, r, n⟩
  | postpones right left =>
    obtain ⟨s, r, n, -⟩ := postpone_fields (j := j) c right left se
    exact ⟨s, r, n⟩
  | advances | goes | marks | ends => exact ⟨rfl, rfl, rfl⟩

theorem phase : Going c' ∨ c'.phase = .returned (-1) ∨ c'.phase = .overrun := by
  cases outcome with
  | advances | ends => exact Or.inl (Or.inl rfl)
  | goes next | marks next => exact Or.inl (Or.inr ⟨next, rfl⟩)
  | pushes next => exact (push_cases c next se).imp_right Or.inl
  | postpones right left => exact postpone_cases c right left se

theorem starts {P : Option Nat → Prop} (tl : ∀ p ∈ c.tl, P (p.se 0).s) (nl : ∀ p ∈ c.nl, P (p.se 0).s) (here : P (se 0).s) :
    (∀ p ∈ c'.tl, P (p.se 0).s) ∧ ∀ p ∈ c'.nl, P (p.se 0).s := by
  cases outcome with
  | advances | goes => exact ⟨tl, nl⟩
  | marks next same => exact ⟨modify_all (P := fun se => P (se 0).s) tl c.t (by rw [same]; exact here), nl⟩
  | pushes next =>
    obtain ⟨-, -, -, -, tl', nl'⟩ := push_fields (j := j) c next se
    rw [tl', nl']
    exact ⟨tl, renewthread_all (P := fun se => P (se 0).s) nl next here⟩
  | postpones right left =>
    obtain ⟨-, -, -, -, nl', tl'⟩ := postpone_fields (j := j) c right left se
    rw [tl', nl']
    refine ⟨fun p member => ?_, nl⟩
    rcases List.mem_append.mp member with executed | pending
    · exact tl p (List.mem_of_mem_take executed)
    · exact renewthread_all (P := fun se => P (se 0).s) (fun p member => tl p (List.mem_of_mem_drop member)) right here p pending
  | ends => exact ⟨modify_all (P := fun se => P (se 0).s) tl c.t (by rw [Function.update_self]; exact here), nl⟩

theorem mp : c'.mp = c.mp ∨ c'.mp = renewmatch c.mp (Function.update se 0 { se 0 with e := some c.s }) := by
  cases outcome with
  | pushes next =>
    obtain ⟨-, -, -, mp, -⟩ := push_fields (j := j) c next se
    exact Or.inl mp
  | postpones right left =>
    obtain ⟨-, -, -, mp, -⟩ := postpone_fields (j := j) c right left se
    exact Or.inl mp
  | advances | goes | marks => exact Or.inl rfl
  | ends => exact Or.inr rfl

end Outcome

end Execution

section Runs

variable {prog : Reprog} {text : List UInt8} {j : Reljunk} {bound k q : Nat} {c c' : Config}

variable (prog text j bound) in
/-- A list is executed at the character `q`, in the turn that began at `k`. -/
structure Executes (k q : Nat) (c : Config) : Prop where
  turn : Turns prog text j.starts bound k
  goes : Goes prog text j.starts bound k q
  s : c.s = place text j.starts q
  r : c.r = reads text j.starts q
  next : c.s + c.n = place text j.starts (q + 1)
  tl : Begun prog text j (q + 1) c.tl
  nl : Begun prog text j (q + 1) c.nl
  searches : c.s ≠ bound → Searches prog text j c

variable (prog text j bound) in
/-- Where a run is. At the bound itself a list may end otherwise than the search does, but no turn follows. -/
def Located (c : Config) : Prop :=
  match c.phase with
  | .turn => ∃ k, Turns prog text j.starts bound k ∧ c.s = place text j.starts k ∧ Begun prog text j k c.nl ∧ Searches prog text j c
  | .list | .inst _ => ∃ k q, Executes prog text j bound k q c
  | _ => True

theorem Located.turn (located : Located prog text j bound c) (turn : c.phase = .turn) :
    ∃ k, Turns prog text j.starts bound k ∧ c.s = place text j.starts k ∧ Begun prog text j k c.nl ∧ Searches prog text j c := by
  rw [Located, turn] at located
  exact located

theorem Located.going (located : Located prog text j bound c) (going : Going c) : ∃ k q, Executes prog text j bound k q c := by
  rcases going with list | ⟨i, inst⟩
  · rw [Located, list] at located
    exact located
  · rw [Located, inst] at located
    exact located

theorem Located.of_going (going : Going c) (executes : Executes prog text j bound k q c) : Located prog text j bound c := by
  rcases going with list | ⟨i, inst⟩
  · rw [Located, list]
    exact ⟨k, q, executes⟩
  · rw [Located, inst]
    exact ⟨k, q, executes⟩

theorem Begun.later {m m' : Nat} {l : List Relist} (begun : Begun prog text j m l) (le : m ≤ m') : Begun prog text j m' l := by
  intro p member
  obtain ⟨a, before, start⟩ := begun p member
  exact ⟨a, Nat.lt_of_lt_of_le before le, start⟩

theorem skip_apart {p ch : Nat} (skipped : skip text j c = some p) (looks : sought j c = some ch) : some c.s ≠ j.eol := by
  intro last
  rw [skip, looks] at skipped
  dsimp only at skipped
  split at skipped
  · cases skipped
  · rw [if_pos last] at skipped
    cases skipped

variable (marked : ∀ inst ∈ prog.insts, Inst.Marked inst) (type : (j.starttype, j.startchar) = starttype prog) (stops : j.eol = some bound)

include marked type in
theorem searches_step (running : c.phase ≠ .turn → some c.s ≠ j.eol) (looking : ∀ ch, sought j c = some ch → some c.s ≠ j.eol)
    (searches : Searches prog text j c) (moves : step prog text j c = some c') : Searches prog text j c' := by
  refine searching_move (j := j) (place_mono text j.starts) searches ?_
  refine move_bytes marked running (fun k here empty full => ?_) of_decide_eq_true (fun _ => trivial) searches moves
  exact skips_fast type looking here (fun yes => (empty yes).2) fun type => full (decide_eq_true type)

include marked type stops

theorem located_turn (located : Located prog text j bound c) (phase : c.phase = .turn) : Located prog text j bound (turn prog text j c) := by
  obtain ⟨k, turns, here, begun, searches⟩ := located.turn phase
  obtain ⟨tried, best, known⟩ := at_turn searches phase here
  have moves : step prog text j c = some (turn prog text j c) := by rw [step, phase]
  unfold turn at moves ⊢
  cases skipped : skip text j c with
  | none => trivial
  | some p =>
    obtain ⟨q, goes, rfl⟩ := (skip_iff type known begun here stops p).mp skipped
    rw [skipped] at moves
    dsimp only at moves ⊢
    have looking (ch : Nat) (looks : sought j c = some ch) : some c.s ≠ j.eol := skip_apart skipped looks
    have later := begun.later (Nat.le_succ_of_le goes.le)
    have tl : Begun prog text j (q + 1) (if c.matched then c.nl else renewemptythread c.nl prog.startinst (place text j.starts q)) := by
      split
      · exact later
      next unmatched =>
        have skips := skips_fast type looking here known.empty known.full
        rw [skipped] at skips
        have seen := goes_tried type known skips (Bool.eq_false_of_not_eq_true unmatched)
        exact renewthread_all (P := fun se => ∃ a < q + 1, Tried prog text j.starts a ∧ (se 0).s = some (place text j.starts a)) later _
          ⟨q, Nat.lt_succ_self q, seen, by rw [Function.update_self]⟩
    have after := searches_step marked type (fun other => absurd phase other) looking searches moves
    generalize (if c.matched then c.nl else renewemptythread c.nl prog.startinst (place text j.starts q)) = lists at tl after ⊢
    by_cases full : j.size ≤ lists.length
    · rw [Located]
      simp only [if_pos full]
    · rw [if_neg full] at after ⊢
      exact .of_going (Or.inl rfl) ⟨turns, goes, rfl, rfl, rfl, tl, nofun, fun _ => after⟩

theorem located_step (located : Located prog text j bound c) (moves : step prog text j c = some c') : Located prog text j bound c' := by
  have apart (here : c.s ≠ bound) : some c.s ≠ j.eol := by rw [stops, ne_eq, Option.some.injEq]; exact here
  have onward {k q : Nat} (executes : Executes prog text j bound k q c) (here : c.s ≠ bound) : Searches prog text j c' :=
    searches_step marked type (fun _ => apart here) (fun _ _ => apart here) (executes.searches here) moves
  obtain ⟨at_turn, rfl⟩ | ⟨tlp, at_list, entry, rfl⟩ | ⟨at_list, past, rfl⟩ | ⟨i, tlp, inst, phase, entry, here, rfl⟩ := step_cases moves
  · exact located_turn marked type stops located at_turn
  · obtain ⟨k, q, executes⟩ := located.going (Or.inl at_list)
    exact .of_going (Or.inr ⟨tlp.inst, rfl⟩) ⟨executes.turn, executes.goes, executes.s, executes.r, executes.next, executes.tl, executes.nl, onward executes⟩
  · obtain ⟨k, q, executes⟩ := located.going (Or.inl at_list)
    by_cases last : some c.s = j.eol
    · rw [bottom, if_pos last]
      trivial
    · have inside : c.s ≠ bound := fun same => last (by rw [stops, same])
      have after := onward executes inside
      simp only [bottom, if_neg last] at after ⊢
      by_cases more : c.r ≠ 0
      · rw [if_pos more] at after ⊢
        have turns := executes.turn.next executes.goes (by rw [← executes.s]; exact inside) (by rw [← executes.r]; exact more)
        exact ⟨q + 1, turns, executes.next, executes.nl, after⟩
      · rw [if_neg more]
        trivial
  · obtain ⟨k, q, executes⟩ := located.going (Or.inr ⟨i, phase⟩)
    have outcome : Outcome j c tlp.se (execute text j c tlp.se inst) := execute_outcome (marked inst (List.mem_of_getElem? here))
    obtain ⟨s, r, n⟩ := outcome.place
    have begun := outcome.starts (P := fun start => ∃ a < q + 1, Tried prog text j.starts a ∧ start = some (place text j.starts a))
      executes.tl executes.nl (executes.tl tlp (List.mem_of_getElem? entry))
    rcases outcome.phase with going | full | overruns
    · exact .of_going going ⟨executes.turn, executes.goes, s.trans executes.s, r.trans executes.r, by rw [s, n]; exact executes.next, begun.1, begun.2,
        by rw [s]; exact onward executes⟩
    · rw [Located, full]
      trivial
    · rw [Located, overruns]
      trivial

theorem located_run {ms : Nat} (run : Reaches (step prog text j) (start j ms) c) : Located prog text j bound c := by
  refine Reaches.invariant run ⟨0, .first, rfl, nofun, ?_⟩ (located_step marked type stops)
  exact searching_start rfl rfl rfl (head_start _) rfl (fun _ => trivial) fun yes => yes

end Runs

section Claim

variable {prog : Reprog} {text : List UInt8} {j : Reljunk} {bound k q : Nat} {c c' : Config}

/-- The bytes a turn looks at, in the fast check and for the character it goes on to. -/
def Examined (text : List UInt8) (j : Reljunk) (c : Config) (x : Nat) : Prop :=
  (∃ ch, sought j c = some ch ∧ Scans text c.s ch x) ∨ ∃ p, skip text j c = some p ∧ Decodes text p x

/-- A match that has been reported is inside the range. -/
def Reported (first bound : Nat) (m : Resub) : Prop := m.s = none ∨ ∃ a b, m = ⟨some a, some b⟩ ∧ first ≤ a ∧ a ≤ b ∧ b ≤ bound

/-- Nothing is matched beyond the bound. -/
structure Keeps (j : Reljunk) (bound : Nat) (c : Config) : Prop where
  executed : Going c → c.s ≤ bound
  reported : ∀ m ∈ c.mp.head?, Reported j.starts bound m

/-- Nothing beyond the bound is examined or matched. -/
structure Respects (text : List UInt8) (j : Reljunk) (bound : Nat) (c : Config) : Prop extends Keeps j bound c where
  examined : c.phase = .turn → ∀ x, Examined text j c x → x ≤ bound

theorem renewmatch_reported {first : Nat} {mp : List Resub} (reported : ∀ m ∈ mp.head?, Reported first bound m) {se : Resublist}
    (new : Reported first bound (se 0)) : ∀ m ∈ (renewmatch mp se).head?, Reported first bound m := by
  intro m member
  unfold renewmatch at member
  split at member
  · cases member
  next m₀ rest =>
    split at member
    · rw [List.length_cons, List.range_succ_eq_map] at member
      cases member
      exact new
    · exact reported m member

theorem Short.near (short : Short prog text j.starts bound) : Near prog text j.starts bound :=
  fun k q turns goes => short.reads k q turns goes _ ⟨Nat.le_refl _, Or.inl rfl⟩

theorem reported_step (near : Near prog text j.starts bound) (located : Located prog text j bound c) (moves : step prog text j c = some c')
    (marked : ∀ inst ∈ prog.insts, Inst.Marked inst) (reported : ∀ m ∈ c.mp.head?, Reported j.starts bound m) :
    ∀ m ∈ c'.mp.head?, Reported j.starts bound m := by
  obtain ⟨-, rfl⟩ | ⟨tlp, -, -, rfl⟩ | ⟨-, -, rfl⟩ | ⟨i, tlp, inst, phase, entry, here, rfl⟩ := step_cases moves
  · have same : (turn prog text j c).mp = c.mp := by
      unfold turn
      split <;> rfl
    rw [same]
    exact reported
  · exact reported
  · have same : (bottom j c).mp = c.mp := by
      unfold bottom
      split
      · rfl
      · dsimp only
        split <;> rfl
    rw [same]
    exact reported
  · obtain ⟨k, q, executes⟩ := located.going (Or.inr ⟨i, phase⟩)
    have outcome : Outcome j c tlp.se (execute text j c tlp.se inst) := execute_outcome (marked inst (List.mem_of_getElem? here))
    rcases outcome.mp with same | ends
    · rw [same]
      exact reported
    · rw [ends]
      refine renewmatch_reported reported (Or.inr ?_)
      obtain ⟨a, before, -, start⟩ := executes.tl tlp (List.mem_of_getElem? entry)
      have mono := (place_mono text j.starts).monotone
      refine ⟨place text j.starts a, place text j.starts q, ?_, mono (Nat.zero_le a), mono (Nat.le_of_lt_succ before), near k q executes.turn executes.goes⟩
      rw [Function.update_self, executes.s]
      exact congrArg₂ Resub.mk start rfl

variable (prog text) in
theorem step_bottom (at_list : c.phase = .list) (past : c.tl[c.t]? = none) (more : c.r ≠ 0) (other : some c.s ≠ j.eol) :
    ∃ c', step prog text j c = some c' ∧ c'.phase = .turn ∧ c'.s = c.s + c.n := by
  refine ⟨bottom j c, by simp only [step, at_list, past], ?_⟩
  simp only [bottom, if_neg other, if_pos more]
  exact ⟨trivial, trivial⟩

section Machine

variable (type : (j.starttype, j.startchar) = starttype prog) (stops : j.eol = some bound)
include type stops

theorem examined_iff (located : Located prog text j bound c) (phase : c.phase = .turn)
    (here : c.s = place text j.starts k) (x : Nat) :
    Examined text j c x ↔ (∃ ch, Seeks prog text j.starts k ch ∧ Scans text (place text j.starts k) ch x) ∨
      ∃ q, Goes prog text j.starts bound k q ∧ Decodes text (place text j.starts q) x := by
  obtain ⟨k', -, here', begun, searches⟩ := located.turn phase
  cases (place_mono text j.starts).injective (here.symm.trans here')
  obtain ⟨tried, best, known⟩ := at_turn searches phase here
  have goes := skip_iff type known begun here stops
  simp only [Examined, seeks_iff type known begun here, goes, here]
  refine or_congr_right ⟨?_, ?_⟩
  · rintro ⟨_, ⟨q, goes, rfl⟩, looks⟩
    exact ⟨q, goes, looks⟩
  · rintro ⟨q, goes, looks⟩
    exact ⟨_, ⟨q, goes, rfl⟩, looks⟩

variable (marked : ∀ inst ∈ prog.insts, Inst.Marked inst) {ms : Nat}
include marked

theorem keeps_run (near : Near prog text j.starts bound) (run : Reaches (step prog text j) (start j ms) c) : Keeps j bound c := by
  constructor
  case executed =>
    intro going
    obtain ⟨k, q, executes⟩ := (located_run marked type stops run).going going
    rw [executes.s]
    exact near k q executes.turn executes.goes
  case reported =>
    induction run with
    | refl =>
      intro m member
      exact Or.inl (by rw [head_start ms m member])
    | tail path moves reported => exact reported_step near (located_run marked type stops path) moves marked reported

theorem respects_run (short : Short prog text j.starts bound) (run : Reaches (step prog text j) (start j ms) c) : Respects text j bound c := by
  refine ⟨keeps_run type stops marked short.near run, fun phase x examined => ?_⟩
  have located := located_run marked type stops run
  obtain ⟨k, turns, here, -⟩ := located.turn phase
  rcases (examined_iff type stops located phase here x).mp examined with ⟨ch, seeks, scans⟩ | ⟨q, goes, decodes⟩
  · exact (scans_iff (target_low seeks.2)).mpr (short.skips k ch turns seeks) x scans
  · exact short.reads k q turns goes x decodes

section Complete

variable {last : Config} {rv : Int} (returns : last.phase = .returned rv) (fits : 0 ≤ rv)

omit type stops in
include returns fits in
/-- A list is executed to its end. -/
theorem Going.ends (rest : Reaches (step prog text j) c last) (going : Going c) :
    ∃ c', Reaches (step prog text j) c c' ∧ Reaches (step prog text j) c' last ∧ c'.phase = .list ∧ c'.tl[c'.t]? = none ∧
      c'.s = c.s ∧ c'.r = c.r ∧ c'.n = c.n := by
  induction rest using Relation.ReflTransGen.head_induction_on with
  | refl => rcases going with list | ⟨i, inst⟩ <;> simp_all
  | head moves rest ih =>
    rename_i c c''
    obtain ⟨at_turn, -⟩ | ⟨tlp, -, -, rfl⟩ | ⟨at_list, past, rfl⟩ | ⟨i, tlp, inst, phase, entry, here, rfl⟩ := step_cases moves
    · rcases going with list | ⟨i, inst⟩ <;> simp_all
    · obtain ⟨c', path, rest, ended⟩ := ih (Or.inr ⟨tlp.inst, rfl⟩)
      exact ⟨c', .head moves path, rest, ended⟩
    · exact ⟨c, .refl c, .head moves rest, at_list, past, rfl, rfl, rfl⟩
    · have outcome : Outcome j c tlp.se (execute text j c tlp.se inst) := execute_outcome (marked inst (List.mem_of_getElem? here))
      obtain ⟨s, r, n⟩ := outcome.place
      rcases outcome.phase with going | full | overruns
      · obtain ⟨c', path, rest, at_list, past, s', r', n'⟩ := ih going
        exact ⟨c', .head moves path, rest, at_list, past, s'.trans s, r'.trans r, n'.trans n⟩
      · have same := Reaches.halted rest (by rw [step, full])
        rw [← same, full, Phase.returned.injEq] at returns
        omega
      · have same := Reaches.halted rest (by rw [step, overruns])
        rw [← same, overruns] at returns
        cases returns

include returns

theorem goes_reached (path : Reaches (step prog text j) (start j ms) c) (rest : Reaches (step prog text j) c last) (phase : c.phase = .turn)
    (here : c.s = place text j.starts k) (goes : Goes prog text j.starts bound k q) :
    ∃ c', Reaches (step prog text j) (start j ms) c' ∧ Reaches (step prog text j) c' last ∧ Going c' ∧
      c'.s = place text j.starts q ∧ c'.r = reads text j.starts q ∧ c'.s + c'.n = place text j.starts (q + 1) := by
  obtain ⟨k', -, here', begun, searches⟩ := (located_run marked type stops path).turn phase
  cases (place_mono text j.starts).injective (here.symm.trans here')
  obtain ⟨tried, best, known⟩ := at_turn searches phase here
  have skipped := (skip_iff type known begun here stops _).mpr ⟨q, goes, rfl⟩
  have moves : step prog text j c = some (turn prog text j c) := by rw [step, phase]
  rcases rest.cases_head with rfl | ⟨c', moves', rest'⟩
  · rw [phase] at returns
    cases returns
  · cases moves.symm.trans moves'
    refine ⟨_, path.tail moves, rest', ?_⟩
    unfold turn at rest' ⊢
    rw [skipped] at rest' ⊢
    dsimp only at rest' ⊢
    by_cases full : j.size ≤ (if c.matched then c.nl else renewemptythread c.nl prog.startinst (place text j.starts q)).length
    · rw [if_pos full] at rest'
      have same := Reaches.halted rest' rfl
      rw [← same] at returns
      cases returns
    · rw [if_neg full]
      exact ⟨Or.inl rfl, rfl, rfl, rfl⟩

include fits in
/-- A call that gives an answer has made all the turns. -/
theorem turns_reached (run : Reaches (step prog text j) (start j ms) last) (turns : Turns prog text j.starts bound k) :
    ∃ c, Reaches (step prog text j) (start j ms) c ∧ Reaches (step prog text j) c last ∧ c.phase = .turn ∧ c.s = place text j.starts k := by
  induction turns with
  | first => exact ⟨_, .refl _, run, rfl, rfl⟩
  | next _ goes apart more ih =>
    obtain ⟨c, path, rest, phase, here⟩ := ih
    obtain ⟨c₁, path₁, rest₁, going, s₁, r₁, next⟩ := goes_reached type stops marked returns path rest phase here goes
    obtain ⟨c₂, path₂, rest₂, at_list, past, s₂, r₂, n₂⟩ := Going.ends marked returns fits rest₁ going
    have more₂ : c₂.r ≠ 0 := by rw [r₂, r₁]; exact more
    have other : some c₂.s ≠ j.eol := by rw [s₂, s₁, stops, ne_eq, Option.some.injEq]; exact apart
    obtain ⟨c₃, moves, at_turn, position⟩ := step_bottom prog text at_list past more₂ other
    refine ⟨c₃, (path₁.trans path₂).tail moves, ?_, at_turn, by rw [position, s₂, n₂, next]⟩
    rcases rest₂.cases_head with rfl | ⟨c', moves', rest'⟩
    · rw [at_list] at returns
      cases returns
    · cases moves.symm.trans moves'
      exact rest'

include fits in
theorem short_of_respects (run : Reaches (step prog text j) (start j ms) last)
    (respects : ∀ c, Reaches (step prog text j) (start j ms) c → Respects text j bound c) : Short prog text j.starts bound := by
  have looks (k : Nat) (turns : Turns prog text j.starts bound k) (x : Nat)
      (looked : (∃ ch, Seeks prog text j.starts k ch ∧ Scans text (place text j.starts k) ch x) ∨
        ∃ q, Goes prog text j.starts bound k q ∧ Decodes text (place text j.starts q) x) : x ≤ bound := by
    obtain ⟨c, path, -, phase, here⟩ := turns_reached type stops marked returns fits run turns
    have located := located_run marked type stops path
    exact (respects c path).examined phase x ((examined_iff type stops located phase here x).mpr looked)
  constructor
  case skips =>
    intro k ch turns seeks
    exact (scans_iff (target_low seeks.2)).mp fun x scans => looks k turns x (Or.inl ⟨ch, seeks, scans⟩)
  case reads => exact fun k q turns goes x decodes => looks k turns x (Or.inr ⟨q, goes, decodes⟩)

include fits in
theorem near_of_keeps (run : Reaches (step prog text j) (start j ms) last)
    (keeps : ∀ c, Reaches (step prog text j) (start j ms) c → Keeps j bound c) : Near prog text j.starts bound := by
  intro k q turns goes
  obtain ⟨c, path, rest, phase, here⟩ := turns_reached type stops marked returns fits run turns
  obtain ⟨c', path', -, going, position, -⟩ := goes_reached type stops marked returns path rest phase here goes
  rw [← position]
  exact (keeps c' path').executed going

end Complete

end Machine

/-- In every state of every call. -/
def Every (prog : Reprog) (text : List UInt8) (mp : List Resub) (holds : Reljunk → Config → Prop) : Prop :=
  ∀ size, Size size → ∀ c, Runs prog text mp size c → holds (junk prog mp size) c

/-- Nothing beyond the bound is examined if the search is short of it, and nothing is matched there
if it comes only near it. For a call that finds a match or none this is exact. -/
theorem regexec_bound_iff {prog : Reprog} {str : List UInt8} {literal : Bool} {dot : Regcomp.Kind}
    (compiled : regcomp1 str literal dot = .ok (prog.insts, prog.startinst)) (text : List UInt8) (s : Option Nat) (bound : Nat) (rest : List Resub) :
    (Short prog text (s.getD 0) bound → Every prog text (⟨s, some bound⟩ :: rest) fun j c => Respects text j bound c) ∧
    (Near prog text (s.getD 0) bound → Every prog text (⟨s, some bound⟩ :: rest) fun j c => Keeps j bound c) ∧
    ∀ rv mp, Returns prog text (⟨s, some bound⟩ :: rest) rv mp → 0 ≤ rv →
      ((Every prog text (⟨s, some bound⟩ :: rest) fun j c => Respects text j bound c) → Short prog text (s.getD 0) bound) ∧
      ((Every prog text (⟨s, some bound⟩ :: rest) fun j c => Keeps j bound c) → Near prog text (s.getD 0) bound) := by
  have marked := Regcomp.compiled_marked compiled
  refine ⟨fun short size _ c run => ?_, fun near size _ c run => ?_, fun rv mp call fits => ?_⟩
  · exact respects_run (j := junk prog (⟨s, some bound⟩ :: rest) size) rfl rfl marked short run
  · exact keeps_run (j := junk prog (⟨s, some bound⟩ :: rest) size) rfl rfl marked near run
  · obtain ⟨size, known, last, run, returns⟩ : ∃ size, Size size ∧ ∃ last, Runs prog text (⟨s, some bound⟩ :: rest) size last ∧
        last.phase = .returned rv := by
      cases call with
      | small run returns _ => exact ⟨LISTSIZE, Or.inl rfl, _, run, returns⟩
      | big _ _ _ again returns' => exact ⟨BIGLISTSIZE, Or.inr rfl, _, again, returns'⟩
    refine ⟨fun respects => ?_, fun keeps => ?_⟩
    · exact short_of_respects (j := junk prog (⟨s, some bound⟩ :: rest) size) rfl rfl marked returns fits run (respects size known)
    · exact near_of_keeps (j := junk prog (⟨s, some bound⟩ :: rest) size) rfl rfl marked returns fits run (keeps size known)

/-- Three bytes are looked at where only the first is taken. -/
example : char [0xE2, 0x82, 0x62] 0 = (Runeerror, 1) ∧ Decodes [0xE2, 0x82, 0x62] 0 2 := ⟨by decide, by decide, Or.inr (by decide)⟩

/-- The program of `b`. -/
def letter : Reprog := ⟨[.RUNE 98 1, .END], 0, by decide, by decide⟩

/-- In `ab` with the end bound at the end of the string. -/
theorem regexec_bound_kept : Every letter [97, 98] [⟨some 0, some 2⟩] fun j c => Respects [97, 98] j 2 c := by
  have compiled : regcomp1 [98] false .ANY = .ok (letter.insts, letter.startinst) := rfl
  refine (regexec_bound_iff compiled [97, 98] (some 0) 2 []).1 ?_
  have idle : ¬Alive letter [97, 98] 0 0 := fun ⟨a, before, _⟩ => Nat.not_lt_zero a before
  have seeks : Seeks letter [97, 98] 0 0 98 := ⟨idle, rfl⟩
  have first {q : Nat} (goes : Goes letter [97, 98] 0 2 0 q) : q = 1 := by
    cases goes with
    | stays still => exact absurd seeks (still 98)
    | skips other _ _ here before =>
      cases Option.some.inj (other.2.symm.trans seeks.2)
      by_contra apart
      rcases Nat.lt_or_gt_of_ne apart with less | less
      · cases Nat.lt_one_iff.mp less
        exact absurd here (by decide)
      · exact (before 1 (Nat.zero_le 1) less).1 rfl
  have last {q : Nat} (goes : Goes letter [97, 98] 0 2 2 q) : q = 2 := by
    cases goes with
    | stays => rfl
    | skips _ more => exact absurd rfl more
  have turns {k : Nat} (turn : Turns letter [97, 98] 0 2 k) : k = 0 ∨ k = 2 := by
    induction turn with
    | first => exact Or.inl rfl
    | next _ goes apart _ ih =>
      rcases ih with rfl | rfl
      · exact Or.inr (congrArg (· + 1) (first goes))
      · cases last goes
        exact absurd rfl apart
  have single {p x : Nat} (low : uchar [97, 98] p < Runeself) (looks : Decodes [97, 98] p x) : x = p := by
    rcases looks.2 with same | ⟨high, _⟩
    · exact same
    · exact absurd low (Nat.not_lt_of_le high)
  constructor
  case skips =>
    intro k ch turn looks
    rcases turns turn with rfl | rfl
    · exact ⟨1, by decide, by decide, Or.inl (Option.some.inj looks.2)⟩
    · exact ⟨2, by decide, by decide, Or.inr (by decide)⟩
  case reads =>
    intro k q turn goes x looks
    rcases turns turn with rfl | rfl
    · cases first goes
      exact Nat.le_trans (Nat.le_of_eq (single (by decide) looks)) (by decide)
    · cases last goes
      exact Nat.le_trans (Nat.le_of_eq (single (by decide) looks)) (by decide)

/-- In `aab` with the end bound after the first `a`, the fast check finds the `b`. -/
theorem regexec_bound_passed :
    regcomp [98] = .ok (letter.insts, letter.startinst) ∧
      Returns letter [97, 97, 98] [⟨some 0, some 1⟩] 1 [⟨some 2, some 3⟩] ∧
      ¬Every letter [97, 97, 98] [⟨some 0, some 1⟩] fun j c => Respects [97, 97, 98] j 1 c := by
  have ends : (loop (step letter [97, 97, 98] (junk letter [⟨some 0, some 1⟩] LISTSIZE)) 50
      (start (junk letter [⟨some 0, some 1⟩] LISTSIZE) 1)).map (fun c => (c.phase, c.mp)) =
        some (.returned 1, [⟨some 2, some 3⟩]) := by decide
  obtain ⟨c, last, same⟩ := Option.map_eq_some_iff.mp ends
  have run : Runs letter [97, 97, 98] [⟨some 0, some 1⟩] LISTSIZE c := loop_reaches last
  have phase : c.phase = .returned 1 := congrArg Prod.fst same
  have found : c.mp = [⟨some 2, some 3⟩] := congrArg Prod.snd same
  refine ⟨rfl, found ▸ .small run phase (by decide), fun respects => ?_⟩
  have reported := (respects LISTSIZE (Or.inl rfl) c run).reported ⟨some 2, some 3⟩ (by rw [found]; rfl)
  rcases reported with absent | ⟨a, b, same, -, -, high⟩
  · cases absent
  · cases same
    omega

end Claim

end Goken.Proofs.RegexecBounds
