import Goken.Regcomp
import Mathlib.Data.List.Dedup
import Mathlib.Data.List.Perm.Subperm

/-! The lists of threads in `regexec`. What a step can do is said once, in `step_cases`. No
instruction is pending twice in a list, but one that has been executed may be put off again,
and a list that has no room for those is full. -/

namespace Goken.Proofs.Regexec
open Goken.Regexec
open Goken.Regcomp (regcomp)
open Lib.Steps (Reaches always always_reaches loop loop_reaches)

variable {prog : Reprog} {text : List UInt8} {j : Reljunk}

/-- All that a step can be. -/
theorem step_cases {c c' : Config} (moves : step prog text j c = some c') :
    c.phase = .turn ∧ c' = turn prog text j c ∨
      (∃ tlp, c.phase = .list ∧ c.tl[c.t]? = some tlp ∧ c' = { c with phase := .inst tlp.inst }) ∨
      (c.phase = .list ∧ c.tl[c.t]? = none ∧ c' = bottom j c) ∨
      ∃ i tlp inst, c.phase = .inst i ∧ c.tl[c.t]? = some tlp ∧ prog.insts[i]? = some inst ∧ c' = execute text j c tlp.se inst := by
  unfold step at moves
  split at moves
  next at_turn => exact Or.inl ⟨at_turn, (Option.some.inj moves).symm⟩
  next at_list =>
    split at moves
    next tlp entry => exact Or.inr (Or.inl ⟨tlp, at_list, entry, (Option.some.inj moves).symm⟩)
    next past => exact Or.inr (Or.inr (Or.inl ⟨at_list, past, (Option.some.inj moves).symm⟩))
  next i at_inst =>
    split at moves
    next tlp inst entry here => exact Or.inr (Or.inr (Or.inr ⟨i, tlp, inst, at_inst, entry, here, (Option.some.inj moves).symm⟩))
    next => cases moves
  next => cases moves
  next => cases moves

section Threads

/-- The instructions of a list. -/
def insts (l : List Relist) : List Nat := l.map Relist.inst

@[simp] theorem insts_nil : insts [] = [] := rfl

@[simp] theorem insts_cons (p : Relist) (l : List Relist) : insts (p :: l) = p.inst :: insts l := rfl

@[simp] theorem insts_append (l m : List Relist) : insts (l ++ m) = insts l ++ insts m := List.map_append

theorem length_insts (l : List Relist) : (insts l).length = l.length := List.length_map _

theorem insts_renewthread (l : List Relist) (ip : Nat) (se : Resublist) :
    insts (renewthread l ip se).1 = (if ip ∈ insts l then insts l else insts l ++ [ip]) ∧
      ((renewthread l ip se).2 = true ↔ ip ∉ insts l) := by
  induction l with
  | nil => simp [renewthread]
  | cons p rest ih =>
    by_cases same : p.inst = ip
    · have kept : (if ptr (se 0).s < ptr (p.se 0).s then (⟨ip, se⟩ : Relist) else p).inst = p.inst := by
        split
        · exact same.symm
        · rfl
      simp only [renewthread, if_pos same, insts_cons, kept]
      simp [same]
    · have other : ¬ip = p.inst := fun h => same h.symm
      simp only [renewthread, if_neg same, insts_cons, List.mem_cons, other, false_or]
      refine ⟨?_, ih.2⟩
      rw [ih.1]
      split
      next member => rfl
      next fresh => rw [List.cons_append]

theorem nodup_snoc {l : List Nat} {a : Nat} (distinct : l.Nodup) (fresh : a ∉ l) : (l ++ [a]).Nodup := by
  rw [List.nodup_append]
  refine ⟨distinct, by simp, fun b member a' last same => ?_⟩
  rw [List.mem_singleton] at last
  exact fresh (last ▸ same ▸ member)

theorem nodup_renewthread {l : List Relist} (distinct : (insts l).Nodup) (ip : Nat) (se : Resublist) :
    (insts (renewthread l ip se).1).Nodup := by
  rw [(insts_renewthread l ip se).1]
  split
  · exact distinct
  next fresh =>
    exact nodup_snoc distinct fresh

theorem insts_modify (l : List Relist) (t : Nat) (se : Resublist) :
    insts (l.modify t fun p => { p with se }) = insts l := by
  induction l generalizing t with
  | nil => cases t <;> rfl
  | cons p rest ih =>
    cases t with
    | zero => rfl
    | succ t => rw [List.modify_succ_cons, insts_cons, insts_cons, ih]

/-- The lists after an instruction has been executed. -/
inductive Lists (j : Reljunk) (c : Config) (inst : Inst) : Config → Prop where
  | same {c' : Config} (tl : insts c'.tl = insts c.tl) (nl : c'.nl = c.nl) (phase : c'.phase ≠ .returned (-1))
      (t : c'.t = c.t ∨ c'.t = c.t + 1 ∧ ∀ i, c'.phase ≠ .inst i) : Lists j c inst c'
  | pushed {c' : Config} {next : Nat} (se : Resublist) (target : next ∈ inst.targets) (tl : c'.tl = c.tl)
      (nl : c'.nl = (renewthread c.nl next se).1) (full : c'.phase = .returned (-1) → c'.nl.length = j.size - 2)
      (t : c'.t = c.t ∨ c'.t = c.t + 1) (done : ∀ i, c'.phase ≠ .inst i) : Lists j c inst c'
  | postponed {c' : Config} {right left : Nat} (se : Resublist) (or : inst = .OR right left)
      (tl : c'.tl = c.tl.take c.t ++ (renewthread (c.tl.drop c.t) right se).1) (nl : c'.nl = c.nl)
      (full : c'.phase = .returned (-1) → c'.tl.length = j.size - 2) (t : c'.t = c.t) : Lists j c inst c'

theorem push_lists (c : Config) {inst : Inst} {next : Nat} (target : next ∈ inst.targets) (se : Resublist) :
    Lists j c inst (push j c next se) := by
  refine .pushed se target ?_ ?_ ?_ ?_ ?_
  · simp only [push]
    split <;> rfl
  · simp only [push]
    split <;> rfl
  · simp only [push]
    split
    next full => exact fun _ => full.2
    next => exact nofun
  · simp only [push]
    split
    · exact Or.inl rfl
    · exact Or.inr rfl
  · simp only [push]
    split <;> exact nofun

variable (text j) in
theorem execute_lists (c : Config) (se : Resublist) (inst : Inst) : Lists j c inst (execute text j c se inst) := by
  have advanced : Lists j c inst c.advance := .same rfl rfl nofun (.inr ⟨rfl, nofun⟩)
  cases inst with
  | RUNE r next =>
    rw [execute]
    split
    · exact push_lists c (List.mem_singleton_self next) se
    · exact advanced
  | LBRA subid next => exact .same (insts_modify _ _ _) rfl nofun (.inl rfl)
  | RBRA subid next => exact .same (insts_modify _ _ _) rfl nofun (.inl rfl)
  | ANY next =>
    rw [execute]
    split
    · exact push_lists c (List.mem_singleton_self next) se
    · exact advanced
  | ANYNL next => exact push_lists c (List.mem_singleton_self next) se
  | NOP next => exact advanced
  | BOL next =>
    rw [execute]
    split
    · exact .same rfl rfl nofun (.inl rfl)
    · exact advanced
  | EOL next =>
    rw [execute]
    split
    · exact .same rfl rfl nofun (.inl rfl)
    · exact advanced
  | CCLASS spans next =>
    rw [execute]
    split
    · exact push_lists c (List.mem_singleton_self next) se
    · exact advanced
  | NCCLASS spans next =>
    rw [execute]
    split
    · exact advanced
    · exact push_lists c (List.mem_singleton_self next) se
  | OR right left =>
    refine .postponed se rfl ?_ ?_ ?_ ?_
    · simp only [execute, postpone]
      split
      · rfl
      · split <;> rfl
    · simp only [execute, postpone]
      split
      · rfl
      · split <;> rfl
    · simp only [execute, postpone]
      split
      next full => exact fun _ => full.2
      next => split <;> exact nofun
    · simp only [execute, postpone]
      split
      · rfl
      · split <;> rfl
  | END => exact .same (insts_modify _ _ _) rfl nofun (.inr ⟨rfl, nofun⟩)

/-- No instruction has two pending entries in a list; the entries before `tlp` have been executed. -/
def Distinct (c : Config) : Prop := (insts (c.tl.drop c.t)).Nodup ∧ (insts c.nl).Nodup

theorem insts_drop (l : List Relist) (n : Nat) : insts (l.drop n) = (insts l).drop n := List.map_drop

theorem nodup_drop {l : List Relist} {t t' : Nat} (pending : (insts (l.drop t)).Nodup) (later : t' = t ∨ t' = t + 1) :
    (insts (l.drop t')).Nodup := by
  obtain rfl | rfl := later
  · exact pending
  · rw [← List.drop_drop, insts_drop]
    exact (List.drop_sublist 1 _).nodup pending

variable (prog text j) in
theorem turn_lists (c : Config) :
    (turn prog text j c).tl = c.tl ∧ (turn prog text j c).nl = c.nl ∧ (turn prog text j c).t = c.t ∨
      (turn prog text j c).nl = [] ∧ (turn prog text j c).t = 0 ∧ ((turn prog text j c).tl = c.nl ∨
        ∃ se, (turn prog text j c).tl = (renewthread c.nl prog.startinst se).1) := by
  unfold turn
  split
  · exact Or.inl ⟨rfl, rfl, rfl⟩
  · right
    refine ⟨rfl, rfl, ?_⟩
    dsimp only
    split
    · exact Or.inl rfl
    · exact Or.inr ⟨_, rfl⟩

variable (prog text j) in
/-- The list of a turn is the one made for it, which may be begun again. -/
theorem turn_distinct {c : Config} (distinct : (insts c.nl).Nodup) :
    (turn prog text j c).tl = c.tl ∧ (turn prog text j c).t = c.t ∧ (turn prog text j c).nl = c.nl ∨
      (turn prog text j c).t = 0 ∧ (insts (turn prog text j c).tl).Nodup ∧ (turn prog text j c).nl = [] := by
  rcases turn_lists prog text j c with ⟨tl, nl, t⟩ | ⟨nl, t, tl | ⟨se, tl⟩⟩
  · exact .inl ⟨tl, t, nl⟩
  · exact .inr ⟨t, tl ▸ distinct, nl⟩
  · exact .inr ⟨t, tl ▸ nodup_renewthread distinct _ _, nl⟩

theorem bottom_lists (c : Config) : (bottom j c).tl = c.tl ∧ (bottom j c).nl = c.nl ∧ (bottom j c).t = c.t := by
  unfold bottom
  split
  · exact ⟨rfl, rfl, rfl⟩
  · dsimp only
    split <;> exact ⟨rfl, rfl, rfl⟩

theorem drop_postponed {c : Config} {tlp : Relist} (entry : c.tl[c.t]? = some tlp) (pending : List Relist) :
    (c.tl.take c.t ++ pending).drop c.t = pending := by
  have inside := (List.getElem?_eq_some_iff.mp entry).1
  exact List.drop_left' (by rw [List.length_take]; omega)

theorem step_distinct {c c' : Config} (distinct : Distinct c) (moves : step prog text j c = some c') : Distinct c' := by
  obtain ⟨-, rfl⟩ | ⟨tlp, -, -, rfl⟩ | ⟨-, -, rfl⟩ | ⟨i, tlp, inst, phase, entry, here, rfl⟩ := step_cases moves
  · rcases turn_distinct prog text j distinct.2 with ⟨tl, t, nl⟩ | ⟨t, once, nl⟩
    · rw [Distinct, tl, t, nl]
      exact distinct
    · rw [Distinct, t, nl]
      exact ⟨once, List.nodup_nil⟩
  · exact distinct
  · obtain ⟨tl, nl, t⟩ := bottom_lists (j := j) c
    rw [Distinct, tl, nl, t]
    exact distinct
  · cases execute_lists text j c tlp.se inst with
    | same tl nl phase' t =>
      refine ⟨?_, nl ▸ distinct.2⟩
      rw [insts_drop, tl, ← insts_drop]
      exact nodup_drop distinct.1 (t.imp_right And.left)
    | pushed se target tl nl full t => exact ⟨tl ▸ nodup_drop distinct.1 t, nl ▸ nodup_renewthread distinct.2 _ _⟩
    | postponed se or tl nl full t =>
      rw [Distinct, tl, nl, t, drop_postponed entry]
      exact ⟨nodup_renewthread distinct.1 _ _, distinct.2⟩

/-! Instructions that are put off again after they have been executed. -/

/-- The entries that come again later. -/
def repeats : List Nat → Nat
  | [] => 0
  | i :: rest => repeats rest + if i ∈ rest then 1 else 0

theorem repeats_snoc (l : List Nat) (a : Nat) : repeats (l ++ [a]) = repeats l + if a ∈ l then 1 else 0 := by
  induction l with
  | nil => rfl
  | cons b l ih =>
    rw [List.cons_append, repeats, repeats, ih]
    by_cases same : b = a
    · subst same
      rw [if_pos (List.mem_append_right l (List.mem_singleton_self b)), if_pos List.mem_cons_self]
    · have later : b ∈ l ++ [a] ↔ b ∈ l := by simp [same]
      have more : a ∈ b :: l ↔ a ∈ l := by simp [Ne.symm same]
      simp only [later, more]
      omega

theorem repeats_nodup {l : List Nat} (distinct : l.Nodup) : repeats l = 0 := by
  induction l with
  | nil => rfl
  | cons a l ih =>
    obtain ⟨fresh, rest⟩ := List.nodup_cons.mp distinct
    rw [repeats, ih rest, if_neg fresh]

/-- A list is no longer than the program and what it repeats. -/
theorem length_le_repeats {l : List Nat} {count : Nat} (inside : ∀ i ∈ l, i < count) : l.length ≤ count + repeats l := by
  have dedup : l.length = l.dedup.length + repeats l := by
    clear inside
    induction l with
    | nil => rfl
    | cons a l ih =>
      rw [repeats, List.length_cons]
      by_cases again : a ∈ l
      · rw [if_pos again, List.dedup_cons_of_mem again]
        omega
      · rw [if_neg again, List.dedup_cons_of_notMem again, List.length_cons]
        omega
  have subset : l.dedup ⊆ List.range count := fun i member => List.mem_range.mpr (inside i (List.mem_dedup.mp member))
  have shorter := (List.subperm_of_subset (List.nodup_dedup l) subset).length_le
  rw [List.length_range] at shorter
  omega

/-- The alternation that is next puts off an instruction that has been executed for this
character and is not pending. -/
def again (prog : Reprog) (c : Config) : Bool :=
  match c.phase with
  | .inst i =>
    match prog.insts[i]? with
    | some (.OR right _) => decide (right ∈ insts (c.tl.take c.t) ∧ right ∉ insts (c.tl.drop c.t))
    | _ => false
  | _ => false

/-- There is room for it beside every instruction of the program. -/
def Room (prog : Reprog) (size : Nat) (c : Config) : Prop :=
  again prog c → prog.insts.length + repeats (insts c.tl) + 1 < size - 2

instance decidableRoom (size : Nat) (c : Config) : Decidable (Room prog size c) := inferInstanceAs (Decidable (_ → _))

/-- The list has room for every instruction of the program beside those that it repeats. -/
def Roomy (prog : Reprog) (size : Nat) (c : Config) : Prop := prog.insts.length + repeats (insts c.tl) < size - 2

theorem step_roomy {size : Nat} (small : prog.insts.length < size - 2) {c c' : Config} (distinct : Distinct c)
    (roomy : Roomy prog size c) (room : Room prog size c) (moves : step prog text j c = some c') : Roomy prog size c' := by
  unfold Roomy at roomy ⊢
  obtain ⟨-, rfl⟩ | ⟨tlp, -, -, rfl⟩ | ⟨-, -, rfl⟩ | ⟨i, tlp, inst, phase, entry, here, rfl⟩ := step_cases moves
  · rcases turn_distinct prog text j distinct.2 with ⟨tl, -, -⟩ | ⟨-, once, -⟩
    · rw [tl]
      exact roomy
    · rw [repeats_nodup once]
      exact small
  · exact roomy
  · rw [(bottom_lists c).1]
    exact roomy
  · cases execute_lists text j c tlp.se inst with
    | same tl => rw [tl]; exact roomy
    | pushed se target tl => rw [tl]; exact roomy
    | @postponed right left se or tl =>
      subst or
      have whole : insts (c.tl.take c.t) ++ insts (c.tl.drop c.t) = insts c.tl := by rw [← insts_append, List.take_append_drop]
      rw [tl, insts_append, (insts_renewthread _ _ _).1]
      split
      · rw [whole]
        exact roomy
      next pending =>
        rw [← List.append_assoc, whole, repeats_snoc]
        split
        next member =>
          rw [← whole, List.mem_append] at member
          have executed := member.resolve_right pending
          have puts : again prog c = true := by simp only [again, phase, here, executed, pending, not_false_eq_true, and_self, decide_true]
          exact room puts
        next => exact roomy

/-- The lists refer to the program, and the machine gives up only with a full list. -/
structure Bounded (prog : Reprog) (j : Reljunk) (c : Config) : Prop where
  tl : ∀ i ∈ insts c.tl, i < prog.insts.length
  nl : ∀ i ∈ insts c.nl, i < prog.insts.length
  full : c.phase = .returned (-1) → c.tl.length = j.size - 2 ∨ c.nl.length = j.size - 2

theorem renewthread_inside {l : List Relist} {count ip : Nat} (inside : ∀ i ∈ insts l, i < count) (new : ip < count) (se : Resublist) :
    ∀ i ∈ insts (renewthread l ip se).1, i < count := by
  intro i member
  rw [(insts_renewthread l ip se).1] at member
  split at member
  · exact inside i member
  · rcases List.mem_append.mp member with old | last
    · exact inside i old
    · rw [List.mem_singleton] at last
      exact last ▸ new

theorem result_phase (c : Config) : c.result.phase ≠ .returned (-1) := by
  unfold Config.result
  cases c.matched <;> simp

theorem step_bounded {c c' : Config} (bounded : Bounded prog j c) (moves : step prog text j c = some c') : Bounded prog j c' := by
  obtain ⟨-, rfl⟩ | ⟨tlp, -, -, rfl⟩ | ⟨-, -, rfl⟩ | ⟨i, tlp, inst, phase, entry, here, rfl⟩ := step_cases moves
  · have phase : (turn prog text j c).phase ≠ .returned (-1) := by
      unfold turn
      split
      · exact result_phase c
      · have listed : ∀ {p : Prop} [Decidable p], (if p then Phase.overrun else Phase.list) ≠ .returned (-1) := by
          intro p _
          split <;> exact nofun
        exact listed
    rcases turn_lists prog text j c with ⟨tl, nl, -⟩ | ⟨nl, -, tl | ⟨se, tl⟩⟩
    · exact ⟨by rw [tl]; exact bounded.tl, by rw [nl]; exact bounded.nl, fun full => absurd full phase⟩
    · exact ⟨by rw [tl]; exact bounded.nl, by rw [nl]; exact nofun, fun full => absurd full phase⟩
    · exact ⟨by rw [tl]; exact renewthread_inside bounded.nl prog.starts se, by rw [nl]; exact nofun, fun full => absurd full phase⟩
  · exact ⟨bounded.tl, bounded.nl, nofun⟩
  · have phase : (bottom j c).phase ≠ .returned (-1) := by
      unfold bottom
      split
      · exact result_phase c
      · dsimp only
        split
        · exact nofun
        · exact result_phase _
    obtain ⟨tl, nl, -⟩ := bottom_lists (j := j) c
    exact ⟨by rw [tl]; exact bounded.tl, by rw [nl]; exact bounded.nl, fun full => absurd full phase⟩
  · have member : inst ∈ prog.insts := List.mem_iff_getElem?.mpr ⟨i, here⟩
    cases execute_lists text j c tlp.se inst with
    | same tl nl phase => exact ⟨by rw [tl]; exact bounded.tl, by rw [nl]; exact bounded.nl, fun full => absurd full phase⟩
    | pushed se target tl nl full =>
      refine ⟨by rw [tl]; exact bounded.tl, ?_, fun phase => Or.inr (full phase)⟩
      rw [nl]
      exact renewthread_inside bounded.nl (prog.inside inst member _ target) se
    | @postponed right left se or tl nl full =>
      refine ⟨?_, by rw [nl]; exact bounded.nl, fun phase => Or.inl (full phase)⟩
      subst or
      have split : ∀ i ∈ insts (c.tl.take c.t) ++ insts (c.tl.drop c.t), i < prog.insts.length := by
        rw [← insts_append, List.take_append_drop]
        exact bounded.tl
      have target : right < prog.insts.length := prog.inside _ member right (by simp [Inst.targets])
      rw [tl, insts_append]
      intro i member
      rcases List.mem_append.mp member with executed | pending
      · exact split i (List.mem_append_left _ executed)
      · exact renewthread_inside (fun i member => split i (List.mem_append_right _ member)) target se i pending

theorem start_bounded (ms : Nat) : Bounded prog j (start j ms) := ⟨nofun, nofun, nofun⟩

variable {mp : List Resub} {size : Nat}

theorem runs_bounded {c : Config} (run : Runs prog text mp size c) : Bounded prog (junk prog mp size) c :=
  Reaches.invariant run (start_bounded _) step_bounded

theorem runs_distinct {c : Config} (run : Runs prog text mp size c) : Distinct c :=
  Reaches.invariant run ⟨List.nodup_nil, List.nodup_nil⟩ step_distinct

/-- Every alternation of a run that puts off an instruction again has room for it. -/
def AllRoom (prog : Reprog) (text : List UInt8) (mp : List Resub) (size : Nat) : Prop :=
  ∀ c, Runs prog text mp size c → Room prog size c

theorem runs_roomy (small : prog.insts.length < size - 2) (room : AllRoom prog text mp size) {c : Config}
    (run : Runs prog text mp size c) : Roomy prog size c := by
  refine Reaches.along run small ?_
  intro before after path roomy moves
  exact step_roomy small (runs_distinct path) roomy (room before path) moves

theorem runs_not_full (small : prog.insts.length < size - 2) (room : AllRoom prog text mp size) {c : Config}
    (run : Runs prog text mp size c) : c.phase ≠ .returned (-1) := by
  intro full
  have bounded := runs_bounded run
  have roomy := runs_roomy small room run
  have tl := length_le_repeats bounded.tl
  have nl := length_le_repeats bounded.nl
  rw [repeats_nodup (runs_distinct run).2, length_insts] at nl
  rw [length_insts] at tl
  unfold Roomy at roomy
  have size_eq : (junk prog mp size).size = size := rfl
  rcases bounded.full full with long | long
  · omega
  · omega

/-- The two sizes of the lists. -/
def Size (size : Nat) : Prop := size = LISTSIZE ∨ size = BIGLISTSIZE

/-- In every state of every run no instruction is pending twice in a list. A call gives up on
a program of fewer than BIGLISTSIZE-2 instructions only if, in the larger lists, an instruction
that has been executed for the character is put off again and the list has no room for it. -/
theorem regexec_lists (prog : Reprog) (text : List UInt8) (mp : List Resub) :
    (∀ size c, Runs prog text mp size c → (insts (c.tl.drop c.t)).Nodup ∧ (insts c.nl).Nodup) ∧
      (prog.insts.length < BIGLISTSIZE - 2 → AllRoom prog text mp BIGLISTSIZE → ∀ rv mp', Returns prog text mp rv mp' → rv ≠ -1) := by
  refine ⟨fun size c run => runs_distinct run, fun small room rv mp' returns => ?_⟩
  cases returns with
  | small run returns fits => omega
  | big run returns full again returns' =>
    rintro rfl
    exact runs_not_full small room again returns'

/-- The program of `((p?|q)|s?)b?`, in which two choices put off the same instruction. -/
def joined : Reprog :=
  ⟨[.RUNE 112 6, .OR 0 6, .NOP 6, .RUNE 113 6, .NOP 6, .OR 1 3, .RBRA 2 13, .LBRA 2 5, .RUNE 115 13, .OR 8 13, .NOP 13, .NOP 13,
    .OR 7 9, .RBRA 1 16, .LBRA 1 12, .RUNE 98 18, .OR 15 18, .NOP 18, .END], 14, by decide, by decide⟩

theorem joined_matches : ∀ rv mp', Returns joined [] [] rv mp' → rv ≠ -1 := by
  refine (regexec_lists joined [] []).2 (by decide) fun c run => ?_
  have checked : always (step joined [] (junk joined [] BIGLISTSIZE)) (fun c => decide (Room joined BIGLISTSIZE c)) 100
      (start (junk joined [] BIGLISTSIZE) 0) = true := by decide
  have room := always_reaches checked run
  exact of_decide_eq_true room

/-- The program of `(a*|b*)*`. -/
def looped : Reprog :=
  ⟨[.RUNE 97 1, .OR 0 6, .RUNE 98 3, .OR 2 6, .NOP 6, .OR 1 3, .RBRA 1 8, .LBRA 1 5, .OR 7 9, .END], 8, by decide, by decide⟩

theorem runs_of_loop {fuel : Nat} {phase : Phase}
    (ends : (loop (step prog text (junk prog mp size)) fuel (start (junk prog mp size) mp.length)).map Config.phase = some phase) :
    ∃ c, Runs prog text mp size c ∧ c.phase = phase := by
  obtain ⟨c, last, same⟩ := Option.map_eq_some_iff.mp ends
  exact ⟨c, loop_reaches last, same⟩

set_option maxRecDepth 1000 in
/-- The first star puts off its operand over and over, for every text. -/
theorem regexec_lists_full :
    regcomp [40, 97, 42, 124, 98, 42, 41, 42] = .ok (looped.insts, looped.startinst) ∧
      looped.insts.length < BIGLISTSIZE - 2 ∧ ∃ mp, Returns looped [] [] (-1) mp := by
  refine ⟨rfl, by decide, ?_⟩
  have small : (loop (step looped [] (junk looped [] LISTSIZE)) 200 (start (junk looped [] LISTSIZE) 0)).map Config.phase =
      some (.returned (-1)) := by decide
  have big : (loop (step looped [] (junk looped [] BIGLISTSIZE)) 2000 (start (junk looped [] BIGLISTSIZE) 0)).map Config.phase =
      some (.returned (-1)) := by decide
  obtain ⟨c, run, full⟩ := runs_of_loop small
  obtain ⟨c', run', full'⟩ := runs_of_loop big
  exact ⟨c'.mp, .big run full (by decide) run' full'⟩

end Threads

end Goken.Proofs.Regexec
