import Goken.Proofs.Regexec
import Goken.Proofs.RegexecText
import Goken.Rregexec

/-! The runs of `regexec1` and `rregexec1` end, if the instructions that are executed one after
another for the same entry close no circle: the characters, the entries of a list and the
instructions of an entry are used up, in this order. -/

namespace Goken.Proofs.RegexecEnds
open Goken.Regexec Proofs.Regexec RegexecText
open Lib.Steps (Reaches)

/-- The instruction that is executed next for the same entry. -/
def onward (prog : Reprog) (i : Nat) : Option Nat :=
  match prog.insts[i]? with
  | some (.LBRA _ next) | some (.RBRA _ next) | some (.BOL next) | some (.EOL next) | some (.OR _ next) => some next
  | _ => none

/-- They come to an end. -/
def Settles (prog : Reprog) : Prop := WellFounded fun next i => onward prog i = some next

variable {prog : Reprog}

theorem onward_inside {i next : Nat} (on : onward prog i = some next) : next < prog.insts.length := by
  cases here : prog.insts[i]? with
  | none =>
    rw [onward, here] at on
    cases on
  | some inst =>
    rw [onward, here] at on
    refine prog.inside inst (List.mem_of_getElem? here) next ?_
    cases inst <;> cases on <;> simp [Inst.targets]

/-- `regexec1` and `rregexec1` with what they do at the three places. -/
def machine (prog : Reprog) (turn bottom : Config → Config) (execute : Config → Resublist → Inst → Config) (c : Config) : Option Config :=
  match c.phase with
  | .turn => some (turn c)
  | .list =>
    match c.tl[c.t]? with
    | some tlp => some { c with phase := .inst tlp.inst }
    | none => some (bottom c)
  | .inst i =>
    match c.tl[c.t]?, prog.insts[i]? with
    | some tlp, some inst => some (execute c tlp.se inst)
    | _, _ => none
  | .returned _ | .overrun => none

theorem step_machine (text : List UInt8) (j : Reljunk) : step prog text j = machine prog (turn prog text j) (bottom j) (execute text j) := rfl

theorem rstep_machine (runes : List Nat) (j : Reljunk) :
    Rregexec.step prog runes j = machine prog (Rregexec.turn prog runes j) (Rregexec.bottom j) (Rregexec.execute runes j) := rfl

/-- The call has returned, or written behind a list. -/
def Stopped (c : Config) : Prop := c.phase = .overrun ∨ ∃ rv, c.phase = .returned rv

/-- The lists refer to the program. -/
def Inside (prog : Reprog) (l : List Relist) : Prop := ∀ i ∈ insts l, i < prog.insts.length

section Places

variable (prog) (j : Reljunk) (length : Nat)

/-- What a list is executed with: there is room in it, and a character that is not the end is before the end. -/
structure Listed (c : Config) : Prop where
  tl : Inside prog c.tl
  nl : Inside prog c.nl
  room : c.tl.length < j.size
  more : c.r ≠ 0 → c.s < length ∧ 0 < c.n

/-- What a turn does. -/
inductive Turns (c : Config) : Config → Prop
  | stops {c' : Config} (stopped : Stopped c') : Turns c c'
  | lists {c' : Config} (at_list : c'.phase = .list) (on : c.s ≤ c'.s) (listed : Inside prog c.nl → Listed prog j length c') : Turns c c'

/-- What is done behind the last entry. -/
inductive Ends (c : Config) : Config → Prop
  | stops {c' : Config} (stopped : Stopped c') : Ends c c'
  | turns {c' : Config} (at_turn : c'.phase = .turn) (more : c.r ≠ 0) (place : c'.s = c.s + c.n) (nl : c'.nl = c.nl) : Ends c c'

/-- What an instruction does. -/
inductive Does (c : Config) (i : Nat) : Config → Prop
  | stops {c' : Config} (stopped : Stopped c') : Does c i c'
  | advances {c' : Config} (at_list : c'.phase = .list) (place : c'.s = c.s) (entry : c'.t = c.t + 1)
      (listed : Listed prog j length c → Listed prog j length c') : Does c i c'
  | goes {c' : Config} {next : Nat} (at_inst : c'.phase = .inst next) (on : onward prog i = some next) (place : c'.s = c.s)
      (entry : c'.t = c.t) (shorter : c.tl.length ≤ c'.tl.length) (listed : Listed prog j length c → Listed prog j length c') : Does c i c'

end Places

section Fields

variable {j : Reljunk} {length : Nat} {c : Config} {i : Nat}

theorem result_stopped (c : Config) : Stopped c.result := Or.inr ⟨_, rfl⟩

theorem Inside.renewed {l : List Relist} (inside : Inside prog l) {ip : Nat} (here : ip < prog.insts.length) (se : Resublist) :
    Inside prog (renewthread l ip se).1 :=
  renewthread_inside inside here se

theorem length_renewthread (l : List Relist) (ip : Nat) (se : Resublist) : l.length ≤ (renewthread l ip se).1.length := by
  rw [← length_insts, ← length_insts, (insts_renewthread l ip se).1]
  split
  · exact Nat.le_refl _
  · rw [List.length_append]
    exact Nat.le_add_right _ _

theorem Listed.setSe (listed : Listed prog j length c) (se : Resublist) : Listed prog j length (c.setSe se) := by
  refine ⟨?_, listed.nl, ?_, listed.more⟩
  · rw [Inside, Config.setSe, insts_modify]
    exact listed.tl
  · rw [Config.setSe, List.length_modify]
    exact listed.room

theorem Listed.with_phase (listed : Listed prog j length c) (phase : Phase) : Listed prog j length { c with phase } :=
  ⟨listed.tl, listed.nl, listed.room, listed.more⟩

theorem advance_does : Does prog j length c i c.advance := .advances rfl rfl rfl fun listed => ⟨listed.tl, listed.nl, listed.room, listed.more⟩

theorem push_does {next : Nat} (here : next < prog.insts.length) (se : Resublist) : Does prog j length c i (push j c next se) := by
  unfold push
  dsimp only
  split
  · exact .stops (Or.inr ⟨_, rfl⟩)
  · exact .advances rfl rfl rfl fun listed => ⟨listed.tl, listed.nl.renewed here se, listed.room, listed.more⟩

/-- An instruction that may take the character. -/
theorem takes_does {taken : Prop} [Decidable taken] {next : Nat} (here : next < prog.insts.length) (se : Resublist) :
    Does prog j length c i (if taken then push j c next se else c.advance) := by
  split
  · exact push_does here se
  · exact advance_does

/-- An instruction that may go on. -/
theorem passes_does {passed : Prop} [Decidable passed] {next : Nat} (on : onward prog i = some next) :
    Does prog j length c i (if passed then { c with phase := .inst next } else c.advance) := by
  split
  · exact .goes rfl on rfl rfl (Nat.le_refl _) fun listed => listed.with_phase _
  · exact advance_does

theorem marks_does {next : Nat} (on : onward prog i = some next) (se : Resublist) :
    Does prog j length c i { c.setSe se with phase := .inst next } :=
  .goes rfl on rfl rfl (Nat.le_of_eq (List.length_modify _ _ _).symm) fun listed => (listed.setSe se).with_phase _

theorem postpone_does {right left : Nat} (here : right < prog.insts.length) (on : onward prog i = some left) (se : Resublist) :
    Does prog j length c i (postpone j c right left se) := by
  unfold postpone
  dsimp only
  split
  · exact .stops (Or.inr ⟨_, rfl⟩)
  · split
    · exact .stops (Or.inl rfl)
    next room =>
      refine .goes rfl on rfl rfl ?_ fun listed => ⟨?_, listed.nl, Nat.lt_of_not_le room, listed.more⟩
      · have longer := length_renewthread (c.tl.drop c.t) right se
        rw [List.length_drop] at longer
        rw [List.length_append, List.length_take]
        omega
      · have pending : Inside prog (c.tl.drop c.t) := by
          intro k member
          rw [insts_drop] at member
          exact listed.tl k (List.mem_of_mem_drop member)
        intro k member
        rw [insts_append] at member
        rcases List.mem_append.mp member with executed | later
        · rw [insts, List.map_take] at executed
          exact listed.tl k (List.mem_of_mem_take executed)
        · exact pending.renewed here se k later

theorem execute_does (text : List UInt8) (se : Resublist) {inst : Inst} (here : prog.insts[i]? = some inst) :
    Does prog j length c i (execute text j c se inst) := by
  have inside : ∀ k ∈ inst.targets, k < prog.insts.length := prog.inside inst (List.mem_of_getElem? here)
  cases inst with
  | RUNE r next => exact takes_does (inside next (List.mem_singleton_self _)) se
  | LBRA subid next => exact marks_does (by rw [onward, here]) _
  | RBRA subid next => exact marks_does (by rw [onward, here]) _
  | ANY next => exact takes_does (inside next (List.mem_singleton_self _)) se
  | ANYNL next => exact push_does (inside next (List.mem_singleton_self _)) se
  | NOP next => exact advance_does
  | BOL next => exact passes_does (by rw [onward, here])
  | EOL next => exact passes_does (by rw [onward, here])
  | CCLASS spans next => exact takes_does (inside next (List.mem_singleton_self _)) se
  | NCCLASS spans next =>
    rw [execute]
    split
    · exact advance_does
    · exact push_does (inside next (List.mem_singleton_self _)) se
  | OR right left => exact postpone_does (inside right List.mem_cons_self) (by rw [onward, here]) se
  | END => exact .advances rfl rfl rfl fun listed => ⟨(listed.setSe _).tl, listed.nl, (listed.setSe _).room, listed.more⟩

theorem rexecute_does (runes : List Nat) (se : Resublist) {inst : Inst} (here : prog.insts[i]? = some inst) :
    Does prog j length c i (Rregexec.execute runes j c se inst) := by
  cases inst with
  | BOL next => exact passes_does (by rw [onward, here])
  | _ => exact execute_does [] se here

end Fields

section Turns

variable {j : Reljunk}

theorem skip_le {text : List UInt8} {c : Config} {s : Nat} (skips : skip text j c = some s) : c.s ≤ s := by
  unfold skip at skips
  split at skips
  · exact Nat.le_of_eq (Option.some.inj skips)
  · split at skips
    · cases skips
    next ch _ p found =>
      split at skips
      · cases skips
      · cases skips
        rw [utfrune, Option.map_eq_some_iff] at found
        obtain ⟨n, -, rfl⟩ := found
        exact Nat.le_add_left _ _

theorem scan_le {sought : Nat} {l : List Nat} {s p : Nat} (found : Rregexec.scan j sought l s = some p) : s ≤ p := by
  induction l generalizing s with
  | nil =>
    rw [Rregexec.scan] at found
    split at found
    · exact Nat.le_of_eq (Option.some.inj found)
    · cases found
  | cons r rest ih =>
    rw [Rregexec.scan] at found
    split at found
    · exact Nat.le_of_eq (Option.some.inj found)
    · split at found
      · cases found
      · exact Nat.le_of_succ_le (ih found)

theorem rskip_le {runes : List Nat} {c : Config} {s : Nat} (skips : Rregexec.skip runes j c = some s) : c.s ≤ s := by
  unfold Rregexec.skip at skips
  split at skips
  · split at skips
    · exact Nat.le_of_eq (Option.some.inj skips)
    · exact scan_le skips
    · split at skips
      · exact Nat.le_of_eq (Option.some.inj skips)
      · exact scan_le skips
  · exact Nat.le_of_eq (Option.some.inj skips)

theorem char_inside {text : List UInt8} {s : Nat} (more : (char text s).1 ≠ 0) : s < text.length := by
  by_contra beyond
  have ended : uchar text s = 0 := by rw [uchar, List.getD_eq_default _ _ (Nat.le_of_not_lt beyond)]; rfl
  rw [char_low text s (by rw [ended]; decide)] at more
  exact more ended

theorem turn_turns (text : List UInt8) (c : Config) : Turns prog j text.length c (turn prog text j c) := by
  unfold turn
  split
  · exact .stops (result_stopped c)
  next s skips =>
    by_cases full : j.size ≤ (if c.matched then c.nl else renewemptythread c.nl prog.startinst s).length
    · exact .stops (Or.inl (if_pos full))
    · refine .lists (if_neg full) (skip_le skips) fun inside => ⟨?_, nofun, Nat.lt_of_not_le full, fun more => ⟨char_inside more, char_length text s⟩⟩
      dsimp only
      split
      · exact inside
      · exact inside.renewed prog.starts _

theorem rturn_turns (runes : List Nat) (c : Config) : Turns prog j runes.length c (Rregexec.turn prog runes j c) := by
  unfold Rregexec.turn
  split
  · exact .stops (result_stopped c)
  next s skips =>
    by_cases full : j.size ≤ (renewemptythread c.nl prog.startinst s).length
    · exact .stops (Or.inl (if_pos full))
    · refine .lists (if_neg full) (rskip_le skips) fun inside =>
        ⟨inside.renewed prog.starts _, nofun, Nat.lt_of_not_le full, fun more => ⟨?_, Nat.one_pos⟩⟩
      by_contra beyond
      exact more (List.getD_eq_default _ _ (Nat.le_of_not_lt beyond))

theorem bottom_ends (c : Config) : Ends c (bottom j c) := by
  unfold bottom
  split
  · exact .stops (result_stopped c)
  · dsimp only
    split
    next more => exact .turns rfl more rfl rfl
    · exact .stops (result_stopped _)

theorem rbottom_ends (c : Config) : Ends c (Rregexec.bottom j c) := by
  unfold Rregexec.bottom
  split
  · exact .stops (result_stopped c)
  · dsimp only
    split
    next more => exact .turns rfl more rfl rfl
    · exact .stops (result_stopped _)

end Turns

section Machine

variable (prog) (j : Reljunk) (length : Nat)

/-- What is left: characters, what to do at this one, entries, and the instructions of the entry. -/
def rank (c : Config) : Nat × Nat × Nat × Nat :=
  match c.phase with
  | .turn => (length + 1 - c.s, 2, 0, 0)
  | .list => (length + 1 - c.s, 1, 2 * (j.size - c.t), 0)
  | .inst i => (length + 1 - c.s, 1, 2 * (j.size - c.t) - 1, i)
  | .returned _ | .overrun => (0, 0, 0, 0)

def Lower : Nat × Nat × Nat × Nat → Nat × Nat × Nat × Nat → Prop :=
  Prod.Lex (· < ·) (Prod.Lex (· < ·) (Prod.Lex (· < ·) fun next i => onward prog i = some next))

/-- What holds between two steps. -/
inductive Sound (c : Config) : Prop
  | stopped (stopped : Stopped c)
  | turn (at_turn : c.phase = .turn) (nl : Inside prog c.nl)
  | list (at_list : c.phase = .list) (listed : Listed prog j length c)
  | inst {i : Nat} (at_inst : c.phase = .inst i) (here : i < prog.insts.length) (entry : c.t < c.tl.length) (listed : Listed prog j length c)

variable {prog} {j} {length}

theorem Settles.lower (settles : Settles prog) : WellFounded (Lower prog) :=
  WellFounded.prod_lex Nat.lt_wfRel.wf (WellFounded.prod_lex Nat.lt_wfRel.wf (WellFounded.prod_lex Nat.lt_wfRel.wf settles))

theorem lower_stopped {c' : Config} (stopped : Stopped c') {a b : Nat} {rest : Nat × Nat} (some_left : 0 < b) : Lower prog (rank j length c') (a, b, rest) := by
  have least : rank j length c' = (0, 0, 0, 0) := by
    rcases stopped with overrun | ⟨rv, returned⟩
    · rw [rank, overrun]
    · rw [rank, returned]
  rw [least]
  rcases Nat.eq_zero_or_pos a with rfl | left
  · exact .right _ (.left _ _ some_left)
  · exact .left _ _ left

/-- A smaller second part, no more characters. -/
theorem lower_le {a a' : Nat} {x x' : Nat × Nat × Nat} (le : a' ≤ a)
    (lower : Prod.Lex (· < ·) (Prod.Lex (· < ·) fun next i => onward prog i = some next) x' x) : Lower prog (a', x') (a, x) := by
  rcases Nat.lt_or_eq_of_le le with less | rfl
  · exact .left _ _ less
  · exact .right _ lower

end Machine

section Run

variable {j : Reljunk} {length : Nat} {turn bottom : Config → Config} {execute : Config → Resublist → Inst → Config}
  (turns : ∀ c, Turns prog j length c (turn c)) (ends : ∀ c, Ends c (bottom c))
  (does : ∀ c se {i inst}, prog.insts[i]? = some inst → Does prog j length c i (execute c se inst))
include turns ends does

theorem machine_kept {c c' : Config} (sound : Sound prog j length c) (moves : machine prog turn bottom execute c = some c') :
    Sound prog j length c' ∧ Lower prog (rank j length c') (rank j length c) := by
  cases sound with
  | stopped stopped =>
    rcases stopped with overrun | ⟨rv, returned⟩
    · rw [machine, overrun] at moves
      cases moves
    · rw [machine, returned] at moves
      cases moves
  | turn at_turn nl =>
    rw [machine, at_turn] at moves
    cases moves
    rw [show rank j length c = _ by rw [rank, at_turn]]
    cases turns c with
    | stops stopped => exact ⟨.stopped stopped, lower_stopped stopped (by decide)⟩
    | lists at_list on listed =>
      rw [show rank j length (turn c) = _ by rw [rank, at_list]]
      exact ⟨.list at_list (listed nl), lower_le (by omega) (.left _ _ (by decide))⟩
  | list at_list listed =>
    rw [machine, at_list] at moves
    rw [show rank j length c = _ by rw [rank, at_list]]
    dsimp only at moves
    cases entry : c.tl[c.t]? with
    | some tlp =>
      rw [entry] at moves
      cases moves
      have before := (List.getElem?_eq_some_iff.mp entry).1
      have room := listed.room
      refine ⟨.inst rfl (listed.tl _ (List.mem_map_of_mem (List.mem_of_getElem? entry))) before (listed.with_phase _), ?_⟩
      exact .right _ (.right _ (.left _ _ (by dsimp only; omega)))
    | none =>
      rw [entry] at moves
      cases moves
      cases ends c with
      | stops stopped => exact ⟨.stopped stopped, lower_stopped stopped (by decide)⟩
      | turns at_turn more place nl =>
        obtain ⟨inside, on⟩ := listed.more more
        rw [show rank j length (bottom c) = _ by rw [rank, at_turn]]
        exact ⟨.turn at_turn (nl ▸ listed.nl), .left _ _ (by omega)⟩
  | @inst i at_inst here entry listed =>
    rw [machine, at_inst] at moves
    rw [show rank j length c = _ by rw [rank, at_inst]]
    dsimp only at moves
    rw [List.getElem?_eq_getElem entry, List.getElem?_eq_getElem here] at moves
    cases moves
    have room := listed.room
    cases does c c.tl[c.t].se (List.getElem?_eq_getElem here) with
    | stops stopped => exact ⟨.stopped stopped, lower_stopped stopped (by decide)⟩
    | advances at_list place entry' listed' =>
      rw [show rank j length (execute c _ _) = _ by rw [rank, at_list]]
      refine ⟨.list at_list (listed' listed), ?_⟩
      rw [place, entry']
      exact .right _ (.right _ (.left _ _ (by omega)))
    | @goes next at_inst' on place entry' shorter listed' =>
      rw [show rank j length (execute c _ _) = _ by rw [rank, at_inst']]
      have there : next < prog.insts.length := onward_inside on
      refine ⟨.inst at_inst' there (by omega) (listed' listed), ?_⟩
      rw [place, entry']
      exact .right _ (.right _ (.right _ on))

theorem machine_ends (settles : Settles prog) {c : Config} (sound : Sound prog j length c) :
    ∃ last, Reaches (machine prog turn bottom execute) c last ∧ Stopped last := by
  obtain ⟨last, run, halted, sound⟩ := Reaches.ends (InvImage.wf (rank j length) settles.lower) (Sound prog j length) sound (machine_kept turns ends does)
  refine ⟨last, run, ?_⟩
  cases sound with
  | stopped stopped => exact stopped
  | turn at_turn => rw [machine, at_turn] at halted; cases halted
  | list at_list =>
    rw [machine, at_list] at halted
    dsimp only at halted
    split at halted <;> cases halted
  | inst at_inst here entry =>
    rw [machine, at_inst] at halted
    dsimp only at halted
    rw [List.getElem?_eq_getElem entry, List.getElem?_eq_getElem here] at halted
    cases halted

end Run

/-- Every call of `regexec1` ends. -/
theorem regexec1_ends (settles : Settles prog) (text : List UInt8) (j : Reljunk) (ms : Nat) :
    ∃ c, Reaches (step prog text j) (start j ms) c ∧ Stopped c :=
  step_machine text j ▸ machine_ends (turn_turns text) bottom_ends (fun _ se _ _ here => execute_does text se here) settles (.turn rfl nofun)

/-- Every call of `rregexec1` ends. -/
theorem rregexec1_ends (settles : Settles prog) (runes : List Nat) (j : Reljunk) (ms : Nat) :
    ∃ c, Reaches (Rregexec.step prog runes j) (Rregexec.start j ms) c ∧ Stopped c :=
  rstep_machine runes j ▸ machine_ends (rturn_turns runes) rbottom_ends (fun _ se _ _ here => rexecute_does runes se here) settles (.turn rfl nofun)

end Goken.Proofs.RegexecEnds
