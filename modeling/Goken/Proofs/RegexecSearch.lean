import Goken.Proofs.RegexecThreads
import Mathlib.Order.Monotone.Basic

/-! What the search for a match comes to: the leftmost of the starts that are tried, and
the longest match from there. A character is named by its number from where the search
starts; `r` are the characters, `opens` says where a line begins and `pos` where a
character is in the string. -/

namespace Goken.Proofs.RegexecSearch
open Goken.Regexec Lib.Threads RegexecThreads
open Relation (ReflTransGen)

section Matches

variable (prog : Reprog) (r : Nat → Nat) (opens : Nat → Bool)

/-- The thread that starts at `a` comes to the instruction `i` before the character `k`. -/
inductive Entry (a : Nat) : Nat → Nat → Prop
  | start (inside : ∀ k < a, r k ≠ 0) : Entry a a prog.startinst
  | take {k i i' i'' : Nat} (entry : Entry a k i) (path : ReflTransGen (Pass prog (opens k) (r k)) i i') (more : r k ≠ 0)
      (taken : Take prog (r k) i' i'') : Entry a (k + 1) i''

/-- The characters from `a` to `e` match. -/
def Match (a e : Nat) : Prop := ∃ i i', Entry prog r opens a e i ∧ ReflTransGen (Pass prog (opens e) (r e)) i i' ∧ Ends prog i'

/-- Nothing comes of the start `a`. -/
def Dead (a : Nat) : Prop := (∀ k i, Entry prog r opens a k i → k = a) ∧ ∀ e, ¬Match prog r opens a e

/-- The line that begins at `k` is missed by a search that looks for the next newline whenever
no thread is left; `first` says that the string begins where the search starts. -/
def Missed (first : Bool) (k : Nat) : Prop :=
  (∃ next, prog.insts[prog.startinst]? = some (.BOL next)) ∧ ¬(k = 0 ∧ first = true) ∧ opens k = true ∧ r k ≠ newline ∧
    ∀ a < k, ¬Missed first a → ∀ i, ¬Entry prog r opens a k i
termination_by k

variable {prog r opens} {a k i : Nat}

theorem Entry.le (entry : Entry prog r opens a k i) : a ≤ k := by
  induction entry with
  | start => exact Nat.le_refl a
  | take _ _ _ _ ih => exact Nat.le_succ_of_le ih

theorem Match.le {e : Nat} (matched : Match prog r opens a e) : a ≤ e := by
  obtain ⟨_, _, entry, _⟩ := matched
  exact entry.le

theorem Entry.inside (entry : Entry prog r opens a k i) : ∀ m < k, r m ≠ 0 := by
  induction entry with
  | start inside => exact inside
  | take _ _ more _ ih =>
    intro m less
    rcases Nat.lt_succ_iff_lt_or_eq.mp less with before | rfl
    · exact ih m before
    · exact more

theorem Entry.between (entry : Entry prog r opens a k i) {m : Nat} (after : a ≤ m) (before : m ≤ k) :
    ∃ i', Entry prog r opens a m i' := by
  induction entry with
  | start inside =>
    cases Nat.le_antisymm after before
    exact ⟨_, .start inside⟩
  | take entry path more taken ih =>
    rcases Nat.lt_or_eq_of_le before with less | rfl
    · exact ih (Nat.le_of_lt_succ less)
    · exact ⟨_, .take entry path more taken⟩

theorem Entry.at_start (entry : Entry prog r opens a a i) : i = prog.startinst := by
  cases entry with
  | start => rfl
  | take entry =>
    have := entry.le
    omega

theorem dead_of_stuck {inst : Inst} (here : prog.insts[prog.startinst]? = some inst) (stuck : passes (opens a) (r a) inst = [])
    (refuses : consumes (r a) inst = none) (other : inst ≠ .END) : Dead prog r opens a := by
  have stays (i : Nat) (path : ReflTransGen (Pass prog (opens a) (r a)) prog.startinst i) : i = prog.startinst := by
    rcases path.cases_head with same | ⟨k, moves, _⟩
    · exact same.symm
    · rw [pass_iff k here, stuck] at moves
      exact absurd moves List.not_mem_nil
  have alone (k i : Nat) (entry : Entry prog r opens a k i) : k = a := by
    induction entry with
    | start => rfl
    | take entry path _ taken ih =>
      subst ih
      cases entry.at_start
      cases stays _ path
      rw [take_iff _ here, refuses] at taken
      cases taken
  refine ⟨alone, ?_⟩
  rintro e ⟨i, i', entry, path, ends⟩
  cases alone e i entry
  cases entry.at_start
  cases stays _ path
  exact other ((ends_iff here).mp ends)

/-- There is no start behind the end of the string. -/
theorem dead_beyond {e : Nat} (zero : r e = 0) (beyond : e < a) : Dead prog r opens a := by
  have nothing (k i : Nat) (entry : Entry prog r opens a k i) : False := entry.inside e (Nat.lt_of_lt_of_le beyond entry.le) zero
  exact ⟨fun k i entry => (nothing k i entry).elim, fun e ⟨i, _, entry, _⟩ => nothing e i entry⟩

end Matches

section Knowledge

variable (prog : Reprog) (r : Nat → Nat) (opens : Nat → Bool) (pos : Nat → Nat) (first fast : Bool)

/-- The start `a` is missed by the search, if it looks for newlines. -/
def Lost (a : Nat) : Prop := fast = true ∧ Missed prog r opens first a

/-- What is known before the characters from `k` on are read: `entries` are the threads of the
starts `tried` among those below `m`, `best` is their match. -/
structure Known (k m : Nat) (tried : Nat → Prop) (entries : List (Nat × Nat)) (best : Option (Nat × Nat)) : Prop where
  inside : ∀ i < k, r i ≠ 0
  tried_lt : ∀ a, tried a → a < m
  kept : ∀ a, tried a → ¬Lost prog r opens first fast a
  untried : ∀ a < m, ¬tried a → Dead prog r opens a ∨ Lost prog r opens first fast a ∨ ∃ b e, tried b ∧ Match prog r opens b e ∧ e < a
  sound : ∀ x ∈ entries, ∃ a, tried a ∧ x.2 = pos a + 1 ∧ Entry prog r opens a k x.1
  complete : ∀ a, tried a → ∀ i, Entry prog r opens a k i → Covered (· ∈ entries) (i, pos a + 1)
  found : ∀ b ∈ best, ∃ a e, tried a ∧ Match prog r opens a e ∧ e < k ∧ b = (pos a + 1, pos e)
  ended : ∀ a e, tried a → Match prog r opens a e → e < k → ∃ b ∈ best, better b (pos a + 1, pos e)

/-- What is known at the end. -/
structure Final (tried : Nat → Prop) (best : Option (Nat × Nat)) : Prop where
  kept : ∀ a, tried a → ¬Lost prog r opens first fast a
  untried : ∀ a, ¬tried a → Dead prog r opens a ∨ Lost prog r opens first fast a ∨ ∃ b e, tried b ∧ Match prog r opens b e ∧ e < a
  found : ∀ b ∈ best, ∃ a e, tried a ∧ Match prog r opens a e ∧ b = (pos a + 1, pos e)
  ended : ∀ a e, tried a → Match prog r opens a e → ∃ b ∈ best, better b (pos a + 1, pos e)

/-- The fast check leaves a line that begins at `k`. -/
def Leaves (k : Nat) : Prop :=
  fast = true ∧ (∃ next, prog.insts[prog.startinst]? = some (.BOL next)) ∧ ¬(k = 0 ∧ first = true) ∧ opens k = true ∧ r k ≠ newline

/-- The start `a` is not worth trying when the fast check is made at `k`. -/
def Passed (k a : Nat) : Prop := Dead prog r opens a ∨ (a = k ∧ Leaves prog r opens first fast k)

/-- Where the fast check goes on from `k`; it is made only if no thread is left. -/
inductive Skips (k : Nat) (nl : List Relist) : Option Nat → Prop
  | stops (empty : nl = []) (passed : ∀ a, k ≤ a → Passed prog r opens first fast k a) : Skips k nl none
  | goes {q : Nat} (le : k ≤ q) (empty : k < q → nl = []) (inside : ∀ i, k ≤ i → i < q → r i ≠ 0)
      (passed : ∀ a, k ≤ a → a < q → Passed prog r opens first fast k a) (stays : Leaves prog r opens first fast q → k = q ∧ nl ≠ []) :
      Skips k nl (some (pos q))

variable {prog r opens pos first fast} {k m q : Nat} {tried : Nat → Prop} {entries : List (Nat × Nat)} {best : Option (Nat × Nat)}

section Empty

variable (known : Known prog r opens pos first fast k k tried [] best)
include known

theorem Known.no_entry {a i : Nat} (start : tried a) (after : k ≤ m) : ¬Entry prog r opens a m i := by
  intro entry
  obtain ⟨i', entry'⟩ := entry.between (Nat.le_of_lt (known.tried_lt a start)) after
  obtain ⟨n, _, member⟩ := known.complete a start i' entry'
  exact absurd member List.not_mem_nil

/-- A line that the fast check leaves is missed, unless there is a match before it. -/
theorem Known.leaves (leaves : Leaves prog r opens first fast k) :
    Lost prog r opens first fast k ∨ ∃ b e, tried b ∧ Match prog r opens b e ∧ e < k := by
  cases best with
  | some b =>
    obtain ⟨a, e, start, matched, early, _⟩ := known.found b rfl
    exact Or.inr ⟨a, e, start, matched, early⟩
  | none =>
    obtain ⟨fast_path, bol, place, line, char⟩ := leaves
    refine Or.inl ⟨fast_path, ?_⟩
    rw [Missed]
    refine ⟨bol, place, line, char, ?_⟩
    intro a less seen i entry
    by_cases start : tried a
    · exact known.no_entry start (Nat.le_refl k) entry
    · rcases known.untried a less start with ⟨alone, _⟩ | ⟨_, lost⟩ | ⟨b, e, before, matched, early⟩
      · exact absurd (alone k i entry) (by omega)
      · exact seen lost
      · obtain ⟨_, ⟨⟩, _⟩ := known.ended b e before matched (Nat.lt_trans early less)

theorem Known.passed {a : Nat} (passed : Passed prog r opens first fast k a) :
    Dead prog r opens a ∨ Lost prog r opens first fast a ∨ ∃ b e, tried b ∧ Match prog r opens b e ∧ e < a := by
  rcases passed with dead | ⟨rfl, leaves⟩
  · exact Or.inl dead
  · exact Or.inr (known.leaves leaves)

theorem Known.no_more {a e : Nat} (start : tried a) (after : k ≤ e) : ¬Match prog r opens a e := fun ⟨_, _, entry, _⟩ =>
  known.no_entry start after entry

theorem Known.stops (passed : ∀ a, k ≤ a → Passed prog r opens first fast k a) :
    Final prog r opens pos first fast tried best := by
  constructor
  case kept => exact known.kept
  case untried =>
    intro a start
    by_cases before : a < k
    · exact known.untried a before start
    · exact known.passed (passed a (Nat.le_of_not_lt before))
  case found =>
    intro b member
    obtain ⟨a, e, start, matched, _, same⟩ := known.found b member
    exact ⟨a, e, start, matched, same⟩
  case ended =>
    intro a e start matched
    by_cases before : e < k
    · exact known.ended a e start matched before
    · exact absurd matched (known.no_more start (Nat.le_of_not_lt before))

end Empty

/-- The character at which a list is executed, before the start there has been tried. -/
theorem Known.goes (known : Known prog r opens pos first fast k k tried entries best) (le : k ≤ q)
    (empty : k < q → entries = []) (inside : ∀ i, k ≤ i → i < q → r i ≠ 0)
    (passed : ∀ a, k ≤ a → a < q → Passed prog r opens first fast k a) :
    Known prog r opens pos first fast q q tried entries best := by
  rcases Nat.lt_or_eq_of_le le with less | rfl
  · cases empty less
    constructor
    case inside =>
      intro i before
      by_cases early : i < k
      · exact known.inside i early
      · exact inside i (Nat.le_of_not_lt early) before
    case tried_lt => exact fun a start => Nat.lt_of_lt_of_le (known.tried_lt a start) le
    case kept => exact known.kept
    case untried =>
      intro a before start
      by_cases early : a < k
      · exact known.untried a early start
      · exact known.passed (passed a (Nat.le_of_not_lt early) before)
    case sound => exact nofun
    case complete => exact fun a start i entry => absurd entry (known.no_entry start le)
    case found =>
      intro b member
      obtain ⟨a, e, start, matched, early, same⟩ := known.found b member
      exact ⟨a, e, start, matched, Nat.lt_of_lt_of_le early le, same⟩
    case ended =>
      intro a e start matched _
      by_cases before : e < k
      · exact known.ended a e start matched before
      · exact absurd matched (known.no_more start (Nat.le_of_not_lt before))
  · exact known

theorem Known.tries (known : Known prog r opens pos first fast k k tried entries best) (stays : Leaves prog r opens first fast k → entries ≠ []) :
    Known prog r opens pos first fast k (k + 1) (fun a => tried a ∨ a = k) (merge entries prog.startinst (pos k + 1)) best := by
  constructor
  case inside => exact known.inside
  case tried_lt =>
    rintro a (start | rfl)
    · exact Nat.lt_succ_of_lt (known.tried_lt a start)
    · exact Nat.lt_succ_self a
  case kept =>
    rintro a (start | rfl)
    · exact known.kept a start
    · rintro ⟨fast_path, lost⟩
      rw [Missed] at lost
      obtain ⟨bol, place, line, char, none_alive⟩ := lost
      obtain ⟨x, more, same⟩ := List.exists_cons_of_ne_nil (stays ⟨fast_path, bol, place, line, char⟩)
      obtain ⟨a', start, _, entry⟩ := known.sound x (by rw [same]; exact List.mem_cons_self)
      exact none_alive a' (known.tried_lt a' start) (fun lost => known.kept a' start ⟨fast_path, lost⟩) x.1 entry
  case untried =>
    intro a less start
    rcases Nat.lt_succ_iff_lt_or_eq.mp less with before | same
    · rcases known.untried a before fun old => start (Or.inl old) with dead | lost | ⟨b, e, earlier, matched, ended⟩
      · exact Or.inl dead
      · exact Or.inr (Or.inl lost)
      · exact Or.inr (Or.inr ⟨b, e, Or.inl earlier, matched, ended⟩)
    · exact absurd (Or.inr same) start
  case sound =>
    intro x member
    rcases merge_sound member with old | rfl
    · obtain ⟨a, start, same, entry⟩ := known.sound x old
      exact ⟨a, Or.inl start, same, entry⟩
    · exact ⟨k, Or.inr rfl, rfl, .start known.inside⟩
  case complete =>
    rintro a (start | rfl) i entry
    · exact (known.complete a start i entry).trans fun y member => merge_old member _ _
    · cases entry.at_start
      exact merge_new _ _ _
  case found =>
    intro b member
    obtain ⟨a, e, start, matched⟩ := known.found b member
    exact ⟨a, e, Or.inl start, matched⟩
  case ended =>
    rintro a e (start | rfl) matched before
    · exact known.ended a e start matched before
    · obtain ⟨i, _, entry, _⟩ := matched
      exact absurd entry.le (Nat.not_le_of_lt before)

/-- No start is tried after a match. -/
theorem Known.leaves_start (known : Known prog r opens pos first fast k k tried entries best) (matched : best.isSome) :
    Known prog r opens pos first fast k (k + 1) tried entries best := by
  refine { known with tried_lt := fun a start => Nat.lt_succ_of_lt (known.tried_lt a start), untried := ?_ }
  intro a less start
  rcases Nat.lt_succ_iff_lt_or_eq.mp less with before | rfl
  · exact known.untried a before start
  · obtain ⟨b, member⟩ := Option.isSome_iff_exists.mp matched
    obtain ⟨a', e, start', matched', early, _⟩ := known.found b member
    exact Or.inr (Or.inr ⟨a', e, start', matched', early⟩)

section Executed

variable {c : Config} {done : Nat × Nat → Prop} {before : Option (Nat × Nat)}
  (known : Known prog r opens pos first fast k (k + 1) tried entries before)
  (working : Working prog (opens k) (r k) (pos k) entries before c done best) (at_list : c.phase = .list) (past : c.tl[c.t]? = none)
include known working at_list past

/-- What the match is after a list. -/
theorem known_match :
    (∀ b ∈ best, ∃ a e, tried a ∧ Match prog r opens a e ∧ e < k + 1 ∧ b = (pos a + 1, pos e)) ∧
    ∀ a e, tried a → Match prog r opens a e → e < k + 1 → ∃ b ∈ best, better b (pos a + 1, pos e) := by
  refine ⟨?_, ?_⟩
  · intro b member
    rcases working.found with same | ⟨x, executed, ends, same⟩
    · obtain ⟨a, e, start, matched, early, same⟩ := known.found b (same ▸ member)
      exact ⟨a, e, start, matched, Nat.lt_succ_of_lt early, same⟩
    · obtain ⟨i, entry, path⟩ := working.sound x (Or.inl executed)
      obtain ⟨a, start, rank, entry⟩ := known.sound _ entry
      rw [same] at member
      cases member
      exact ⟨a, k, start, ⟨i, x.1, entry, path, ends⟩, Nat.lt_succ_self k, by rw [← rank]⟩
  · intro a e start matched less
    rcases Nat.lt_succ_iff_lt_or_eq.mp less with early | rfl
    · obtain ⟨b, member, least⟩ := known.ended a e start matched early
      obtain ⟨b', member', less⟩ := working.kept b member
      exact ⟨b', member', less.trans least⟩
    · obtain ⟨i, i', entry, path, ends⟩ := matched
      obtain ⟨n, least, executed⟩ := working.covers at_list past (known.complete a start i entry) path
      obtain ⟨b, member, less⟩ := working.ended _ executed ends
      refine ⟨b, member, ?_⟩
      unfold better at less ⊢
      dsimp only at least less ⊢
      omega

theorem known_next (more : r k ≠ 0) : Known prog r opens pos first fast (k + 1) (k + 1) tried (threads c.nl) best := by
  obtain ⟨found, ended⟩ := known_match known working at_list past
  constructor
  case inside =>
    intro i less
    rcases Nat.lt_succ_iff_lt_or_eq.mp less with before | rfl
    · exact known.inside i before
    · exact more
  case tried_lt => exact known.tried_lt
  case kept => exact known.kept
  case untried => exact known.untried
  case sound =>
    intro y member
    obtain ⟨x, executed, same, taken⟩ := working.fresh y member
    obtain ⟨i, entry, path⟩ := working.sound x (Or.inl executed)
    obtain ⟨a, start, rank, entry⟩ := known.sound _ entry
    exact ⟨a, start, same.symm.trans rank, .take entry path more taken⟩
  case complete =>
    intro a start i entry
    cases entry with
    | start => exact absurd (known.tried_lt _ start) (Nat.lt_irrefl _)
    | take entry path _ taken =>
      obtain ⟨n, least, executed⟩ := working.covers at_list past (known.complete a start _ entry) path
      exact (working.taken _ executed _ taken).larger least
  case found => exact found
  case ended => exact ended

theorem known_last (zero : r k = 0) : Final prog r opens pos first fast tried best := by
  obtain ⟨found, ended⟩ := known_match known working at_list past
  constructor
  case kept => exact known.kept
  case untried =>
    intro a start
    by_cases before : a < k + 1
    · exact known.untried a before start
    · exact Or.inl (dead_beyond zero (by omega))
  case found =>
    intro b member
    obtain ⟨a, e, start, matched, _, same⟩ := found b member
    exact ⟨a, e, start, matched, same⟩
  case ended =>
    intro a e start matched
    refine ended a e start matched ?_
    obtain ⟨i, _, entry, _⟩ := matched
    by_contra beyond
    exact entry.inside k (by omega) zero

end Executed

end Knowledge

section Runs

variable (prog : Reprog) (r : Nat → Nat) (opens : Nat → Bool) (pos : Nat → Nat) (first fast : Bool) (checks : Prop) (j : Reljunk)

/-- A step of the search, for bytes and runes alike; `checks` says when there are fast checks. -/
inductive Move (c : Config) : Config → Prop
  | stops {k : Nat} (at_turn : c.phase = .turn) (place : c.s = pos k) (skips : Skips prog r opens pos first fast k c.nl none) :
      Move c c.result
  | turns {k q n : Nat} {tl : List Relist} (at_turn : c.phase = .turn) (place : c.s = pos k)
      (skips : Skips prog r opens pos first fast k c.nl (some (pos q)))
      (adds : tl = renewemptythread c.nl prog.startinst (pos q) ∨ (c.matched = true ∧ tl = c.nl)) (length : pos q + n = pos (q + 1)) :
      Move c { c with phase := if j.size ≤ tl.length then .overrun else .list, s := pos q, r := r q, n, tl, nl := [], t := 0 }
  | works {k : Nat} {c' : Config} (place : c.s = pos k) (works : Works prog (opens k) j c c') : Move c c'
  | ends (at_list : c.phase = .list) (past : c.tl[c.t]? = none) (zero : c.r = 0) (checkstart : Bool) (s : Nat) :
      Move c { c with checkstart, s }.result
  | next (at_list : c.phase = .list) (past : c.tl[c.t]? = none) (more : c.r ≠ 0) (checkstart : Bool) (empty : checkstart = true → checks ∧ c.nl = [])
      (checked : fast = true → c.nl = [] → checkstart = true) : Move c { c with checkstart, s := c.s + c.n, phase := .turn }

/-- What holds of the variables. -/
def Searching (c : Config) : Prop :=
  match c.phase with
  | .turn => ∃ k tried best, c.s = pos k ∧ Known prog r opens pos first fast k k tried (threads c.nl) best ∧ Holds c best ∧
      (c.checkstart = true → checks ∧ c.nl = []) ∧ (fast = true → c.nl = [] → c.checkstart = true)
  | .list | .inst _ => ∃ k tried entries before done best, Known prog r opens pos first fast k (k + 1) tried entries before ∧
      Working prog (opens k) (r k) (pos k) entries before c done best ∧ pos k + c.n = pos (k + 1)
  | .returned rv => rv = -1 ∨ ∃ tried best, Final prog r opens pos first fast tried best ∧ Holds c best ∧ rv = if c.matched then 1 else 0
  | .overrun => True

variable {prog r opens pos first fast checks j} {c c' : Config}

theorem Searching.of_going {k : Nat} {tried : Nat → Prop} {entries : List (Nat × Nat)} {before best : Option (Nat × Nat)} {done : Nat × Nat → Prop}
    (going : Going c) (known : Known prog r opens pos first fast k (k + 1) tried entries before)
    (working : Working prog (opens k) (r k) (pos k) entries before c done best) (length : pos k + c.n = pos (k + 1)) :
    Searching prog r opens pos first fast checks c := by
  rcases going with list | ⟨i, inst⟩
  · rw [Searching, list]
    exact ⟨k, tried, entries, before, done, best, known, working, length⟩
  · rw [Searching, inst]
    exact ⟨k, tried, entries, before, done, best, known, working, length⟩

theorem Searching.going (searching : Searching prog r opens pos first fast checks c) (going : Going c) :
    ∃ k tried entries before done best, Known prog r opens pos first fast k (k + 1) tried entries before ∧
      Working prog (opens k) (r k) (pos k) entries before c done best ∧ pos k + c.n = pos (k + 1) := by
  rcases going with list | ⟨i, inst⟩
  · rw [Searching, list] at searching
    exact searching
  · rw [Searching, inst] at searching
    exact searching

theorem push_cases (c : Config) (next : Nat) (se : Resublist) :
    Going (push j c next se) ∨ (push j c next se).phase = .returned (-1) := by
  unfold push
  dsimp only
  split
  · exact Or.inr rfl
  · exact Or.inl (Or.inl rfl)

theorem postpone_cases (c : Config) (right left : Nat) (se : Resublist) :
    Going (postpone j c right left se) ∨ (postpone j c right left se).phase = .returned (-1) ∨ (postpone j c right left se).phase = .overrun := by
  unfold postpone
  dsimp only
  split
  · exact Or.inr (Or.inl rfl)
  · split
    · exact Or.inr (Or.inr rfl)
    · exact Or.inl (Or.inr ⟨left, rfl⟩)

/-- A list is left only when there is no space for a thread. -/
theorem works_cases {opens : Bool} (works : Works prog opens j c c') : Going c' ∨ c'.phase = .returned (-1) ∨ c'.phase = .overrun := by
  cases works with
  | enter => exact Or.inl (Or.inr ⟨_, rfl⟩)
  | does _ _ _ effect =>
    cases effect with
    | dies => exact Or.inl (Or.inl rfl)
    | marks => exact Or.inl (Or.inr ⟨_, rfl⟩)
    | passes => exact Or.inl (Or.inr ⟨_, rfl⟩)
    | takes => exact (push_cases ..).imp_right Or.inl
    | splits => exact postpone_cases ..
    | ends => exact Or.inl (Or.inl rfl)

theorem length_renewmatch (mp : List Resub) (sp : Resublist) : (renewmatch mp sp).length = mp.length := by
  cases mp with
  | nil => rfl
  | cons m rest =>
    unfold renewmatch
    dsimp only
    split
    · rw [List.length_map, List.length_range]
    · rfl

theorem works_keeps {opens : Bool} (works : Works prog opens j c c') : c'.n = c.n ∧ c'.mp.length = c.mp.length := by
  cases works with
  | enter => exact ⟨rfl, rfl⟩
  | does _ _ _ effect =>
    cases effect with
    | dies | marks | passes => exact ⟨rfl, rfl⟩
    | takes =>
      unfold push
      dsimp only
      split <;> exact ⟨rfl, rfl⟩
    | splits =>
      unfold postpone
      dsimp only
      split
      · exact ⟨rfl, rfl⟩
      · split <;> exact ⟨rfl, rfl⟩
    | ends => exact ⟨rfl, length_renewmatch _ _⟩

theorem threads_renewemptythread (l : List Relist) (ip sp : Nat) : threads (renewemptythread l ip sp) = merge (threads l) ip (sp + 1) := by
  rw [renewemptythread, threads_renewthread, Function.update_self]
  rfl

theorem threads_empty {l : List Relist} (empty : l = []) : threads l = [] := by rw [empty]; rfl

theorem begins {k : Nat} {tl : List Relist} {best : Option (Nat × Nat)} (list : c.phase = .list) (place : c.s = pos k ∧ c.r = r k)
    (lists : c.tl = tl ∧ c.nl = [] ∧ c.t = 0) (holds : Holds c best) :
    Working prog (opens k) (r k) (pos k) (threads tl) best c (fun _ => False) best := by
  obtain ⟨same, nothing, zero⟩ := lists
  have waits (x : Nat × Nat) : pending c x ↔ x ∈ threads tl := by
    rw [pending, list, same, zero]
    rfl
  constructor
  case place => exact place
  case sound =>
    rintro x (never | waiting)
    · exact never.elim
    · exact ⟨x.1, (waits x).mp waiting, .refl⟩
  case initial => exact fun x member => covered_self (Or.inr ((waits x).mpr member))
  case closed => exact fun x never => never.elim
  case taken => exact fun x never => never.elim
  case fresh =>
    rw [threads_empty nothing]
    exact fun y impossible => absurd impossible List.not_mem_nil
  case running =>
    intro k phase
    rw [list] at phase
    cases phase
  case ended => exact fun x never => never.elim
  case found => exact Or.inl rfl
  case kept => exact fun b member => ⟨b, member, Or.inr ⟨rfl, Nat.le_refl _⟩⟩
  case holds => exact holds

theorem Known.positive {k m : Nat} {tried : Nat → Prop} {entries : List (Nat × Nat)} {best : Option (Nat × Nat)}
    (known : Known prog r opens pos first fast k m tried entries best) : ∀ x ∈ entries, 0 < x.2 := by
  intro x member
  obtain ⟨a, _, rank, _⟩ := known.sound x member
  omega

variable (mono : StrictMono pos) (searching : Searching prog r opens pos first fast checks c)
include mono searching

/-- What a step of the search keeps. -/
theorem searching_move (move : Move prog r opens pos first fast checks j c c') : Searching prog r opens pos first fast checks c' := by
  cases move with
  | stops at_turn place skips =>
    rename_i k
    rw [Searching, at_turn] at searching
    obtain ⟨k', tried, best, place', known, holds, _⟩ := searching
    cases mono.injective (place'.symm.trans place)
    cases skips with
    | stops empty passed =>
      rw [threads_empty empty] at known
      exact Or.inr ⟨tried, best, known.stops passed, holds.of_same rfl rfl, rfl⟩
  | turns at_turn place skips adds length =>
    rename_i k q n tl
    rw [Searching, at_turn] at searching
    obtain ⟨k', tried, best, place', known, holds, _⟩ := searching
    cases mono.injective (place'.symm.trans place)
    by_cases small : tl.length < j.size
    · rw [if_neg (Nat.not_le_of_lt small)]
      generalize same : pos q = p at skips
      cases skips with
      | goes le empty inside passed stays =>
        rename_i q'
        cases mono.injective same
        have known := known.goes le (fun less => threads_empty (empty less)) inside passed
        have going : Going { c with phase := .list, s := pos q, r := r q, n, tl, nl := [], t := 0 } := Or.inl rfl
        rcases adds with rfl | ⟨matched, rfl⟩
        · have tries := known.tries fun leaves => by
            rw [threads, ne_eq, List.map_eq_nil_iff]
            exact (stays leaves).2
          rw [← threads_renewemptythread] at tries
          exact .of_going going tries (begins rfl ⟨rfl, rfl⟩ ⟨rfl, rfl, rfl⟩ (holds.of_same rfl rfl)) length
        · have some_match : best.isSome := holds.matched.symm.trans matched
          exact .of_going going (known.leaves_start some_match) (begins rfl ⟨rfl, rfl⟩ ⟨rfl, rfl, rfl⟩ (holds.of_same rfl rfl)) length
    · rw [if_pos (Nat.le_of_not_lt small)]
      trivial
  | works place works =>
    rename_i k
    have going : Going c := by
      cases works with
      | enter at_list => exact Or.inl at_list
      | does at_inst => exact Or.inr ⟨_, at_inst⟩
    obtain ⟨k', tried, entries, before, done, best, known, working, length⟩ := searching.going going
    cases mono.injective (working.place.1.symm.trans place)
    rcases works_cases works with still | full | overruns
    · obtain ⟨done', best', working'⟩ := working.step known.positive works still
      exact .of_going still known working' (by rw [(works_keeps works).1]; exact length)
    · rw [Searching, full]
      exact Or.inl rfl
    · rw [Searching, overruns]
      trivial
  | ends at_list past zero =>
    obtain ⟨k, tried, entries, before, done, best, known, working, _⟩ := searching.going (Or.inl at_list)
    have last := known_last known working at_list past (working.place.2.symm.trans zero)
    exact Or.inr ⟨tried, best, last, working.holds.of_same rfl rfl, rfl⟩
  | next at_list past more checkstart empty checked =>
    obtain ⟨k, tried, entries, before, done, best, known, working, length⟩ := searching.going (Or.inl at_list)
    have next := known_next known working at_list past (by rw [← working.place.2]; exact more)
    refine ⟨k + 1, tried, best, ?_, next, working.holds.of_same rfl rfl, empty, checked⟩
    rw [← length, ← working.place.1]

end Runs

section Choice

variable (prog : Reprog) (r : Nat → Nat) (opens : Nat → Bool) (lost : Nat → Prop)

/-- The leftmost match, and the longest one there, of those whose starts are not lost. -/
def Chosen : Option (Nat × Nat) → Prop
  | none => ∀ a e, Match prog r opens a e → lost a
  | some (a, e) => Match prog r opens a e ∧ ¬lost a ∧ ∀ a' e', Match prog r opens a' e' → ¬lost a' → a < a' ∨ (a = a' ∧ e' ≤ e)

variable {prog r opens lost} {m m' : Option (Nat × Nat)}

theorem Chosen.unique (chosen : Chosen prog r opens lost m) (chosen' : Chosen prog r opens lost m') : m = m' := by
  cases m with
  | none =>
    cases m' with
    | none => rfl
    | some x => exact absurd (chosen x.1 x.2 chosen'.1) chosen'.2.1
  | some x =>
    cases m' with
    | none => exact absurd (chosen' x.1 x.2 chosen.1) chosen.2.1
    | some x' =>
      have less := chosen.2.2 x'.1 x'.2 chosen'.1 chosen'.2.1
      have less' := chosen'.2.2 x.1 x.2 chosen.1 chosen.2.1
      exact congrArg some (Prod.ext (by omega) (by omega))

/-- The best match at the end is the one that the search chooses. -/
theorem Final.chosen {pos : Nat → Nat} {first fast : Bool} (mono : StrictMono pos) {tried : Nat → Prop} {best : Option (Nat × Nat)}
    (final : Final prog r opens pos first fast tried best) :
    ∃ m, best = m.map (fun x => (pos x.1 + 1, pos x.2)) ∧ Chosen prog r opens (Lost prog r opens first fast) m := by
  cases best with
  | none =>
    refine ⟨none, rfl, ?_⟩
    intro a e matched
    by_cases start : tried a
    · obtain ⟨_, ⟨⟩, _⟩ := final.ended a e start matched
    · rcases final.untried a start with dead | lost | ⟨b, e', before, earlier, _⟩
      · exact absurd matched (dead.2 e)
      · exact lost
      · obtain ⟨_, ⟨⟩, _⟩ := final.ended b e' before earlier
  | some b =>
    obtain ⟨a, e, start, matched, rfl⟩ := final.found b rfl
    refine ⟨some (a, e), rfl, matched, final.kept a start, ?_⟩
    intro a' e' matched' seen
    by_cases start' : tried a'
    · obtain ⟨_, ⟨⟩, least⟩ := final.ended a' e' start' matched'
      rcases least with less | ⟨same, longer⟩
      · exact Or.inl (mono.lt_iff_lt.mp (Nat.lt_of_succ_lt_succ less))
      · exact Or.inr ⟨mono.injective (Nat.succ.inj same), mono.le_iff_le.mp longer⟩
    · rcases final.untried a' start' with dead | lost | ⟨b, e'', before, earlier, early⟩
      · exact absurd matched' (dead.2 e')
      · exact absurd lost seen
      · obtain ⟨_, ⟨⟩, least⟩ := final.ended b e'' before earlier
        have least : pos a ≤ pos b := by
          unfold better at least
          dsimp only at least
          omega
        exact Or.inl (Nat.lt_of_le_of_lt (mono.le_iff_le.mp least) (Nat.lt_of_le_of_lt earlier.le early))

end Choice

section Results

variable {prog : Reprog} {r : Nat → Nat} {opens : Nat → Bool} {pos : Nat → Nat} {first fast : Bool} {checks : Prop} {j : Reljunk}
  {step : Config → Option Config} {before c : Config}

theorem move_length {c' : Config} (move : Move prog r opens pos first fast checks j c c') : c'.mp.length = c.mp.length := by
  cases move with
  | works place works => exact (works_keeps works).2
  | stops | turns | ends | next => rfl

variable (j) in
theorem searching_run (mono : StrictMono pos)
    (moves : ∀ {c c' : Config}, Searching prog r opens pos first fast checks c → step c = some c' → Move prog r opens pos first fast checks j c c')
    (initially : Searching prog r opens pos first fast checks before) (run : Lib.Steps.Reaches step before c) :
    Searching prog r opens pos first fast checks c ∧ c.mp.length = before.mp.length := by
  induction run with
  | refl => exact ⟨initially, rfl⟩
  | tail _ step ih =>
    have move := moves ih.1 step
    exact ⟨searching_move mono ih.1 move, (move_length move).trans ih.2⟩

theorem searching_start (turn : c.phase = .turn) (place : c.s = pos 0) (matched : c.matched = false) (mp : ∀ m ∈ c.mp.head?, m = ⟨none, none⟩)
    (empty : c.nl = []) (check : c.checkstart = true → checks) (checked : fast = true → c.checkstart = true) :
    Searching prog r opens pos first fast checks c := by
  rw [Searching, turn]
  refine ⟨0, fun _ => False, none, place, ?_, ?_, fun yes => ⟨check yes, empty⟩, fun yes _ => checked yes⟩
  · rw [threads_empty empty]
    exact ⟨nofun, nofun, nofun, nofun, nofun, nofun, nofun, nofun⟩
  · refine ⟨matched, nofun, ?_⟩
    intro m member
    rw [mp m member]
    exact ⟨rfl, rfl⟩

/-- What a call returns and leaves in `mp[0]`. -/
theorem searching_result (mono : StrictMono pos) (searching : Searching prog r opens pos first fast checks c) {rv : Int}
    (returns : c.phase = .returned rv) (fits : 0 ≤ rv) :
    ∃ m, Chosen prog r opens (Lost prog r opens first fast) m ∧ rv = (if m.isSome then 1 else 0) ∧
      ∀ x ∈ c.mp.head?, x = ⟨m.map fun y => pos y.1, m.map fun y => pos y.2⟩ := by
  rw [Searching, returns] at searching
  rcases searching with rfl | ⟨tried, best, final, holds, result⟩
  · omega
  · obtain ⟨m, rfl, chosen⟩ := final.chosen mono
    refine ⟨m, chosen, ?_, ?_⟩
    · rw [result, holds.matched, Option.isSome_map]
    · rintro ⟨s, e⟩ member
      obtain ⟨start, stop⟩ := holds.head _ member
      cases m with
      | none => exact congrArg₂ Resub.mk (ptr_injective start) stop
      | some y => exact congrArg₂ Resub.mk (ptr_injective start) stop

end Results

end Goken.Proofs.RegexecSearch
