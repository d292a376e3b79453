import Goken.MkRun
import Goken.Lib.Steps
import Goken.Lib.Lists
import Mathlib.Tactic.Linarith

/-! What the scheduler of mk keeps over every run: its counters and its queue
whatever the children do and whatever pids they have. -/

namespace Goken.Proofs.MkRun
open Goken.MkRun Lib.DList Lib.Steps Lib.Lists

variable {J : Type} {flags : Flags} {s t : State J}

def Frame.child : Frame → Option Child
  | .piped child => some child
  | .waiting retstatus => retstatus
  | .updating retstatus => retstatus

def Frame.busy : Frame → Bool
  | .updating _ => true
  | _ => false

/-- The children somebody still waits for. -/
def pending (s : State J) : List Child := s.stack.filterMap Frame.child

/-- The calls of `waitup` that have freed a slot and not yet filled it again. -/
def updates (s : State J) : Nat := s.stack.countP Frame.busy

/-- With -n or -t no job is forked. -/
def dry (flags : Flags) : Bool := flags.nflag || flags.tflag

/-- The counters: `nrunning` counts the busy slots, and each call of `waitup`
inside `update` holds back one place. -/
structure Counts (flags : Flags) (s : State J) : Prop where
  room : s.events.length = s.nproclimit.toNat
  limited : (s.nproclimit = 0 ∧ s.jobs = []) ∨ (1 ≤ s.nproclimit ∧ ∀ n, flags.nprocs = some n → s.nproclimit = max n 1)
  counted : s.nrunning = s.events.countP fun e => 0 < e.pid
  committed : s.nrunning + updates s ≤ s.nproclimit
  unforked : dry flags = true → s.nrunning = 0 ∧ updates s = 0
  fifo : s.ended = none → s.started ++ s.jobs = s.submitted
  started : s.started <+: s.submitted
  slots : s.ended ≠ some .outOfSlots

/-- A job waits only while every place is taken. -/
def Queued (s : State J) : Prop := s.ended = none → s.jobs ≠ [] → s.nrunning + updates s = s.nproclimit

theorem nextslot_some (counts : Counts flags s) (free : s.nrunning < s.nproclimit) :
    ∃ before e after, s.events = before ++ e :: after ∧ e.pid ≤ 0 ∧ nextslot s = some before.length := by
  have all : s.events.take s.nproclimit.toNat = s.events := by rw [← counts.room, List.take_length]
  cases found : nextslot s with
  | some slot =>
      rw [nextslot, all] at found
      obtain ⟨before, e, after, split, rfl, idle⟩ := findIdx_split found
      exact ⟨before, e, after, split, by simpa using idle, rfl⟩
  | none =>
      rw [nextslot, all, List.findIdx?_eq_none_iff] at found
      have every : s.events.countP (fun e => 0 < e.pid) = s.events.length := by
        rw [List.countP_eq_length]
        intro e member
        simpa using found e member
      have counted := counts.counted
      rw [every, counts.room] at counted
      omega

/-- All that `sched` can do when a slot is free. -/
theorem sched_cases (counts : Counts flags s) (free : s.nrunning < s.nproclimit) (pid : Int) :
    (s.jobs = [] ∧ sched flags pid s = s) ∨
    ∃ j rest before e after, s.jobs = j :: rest ∧ s.events = before ++ e :: after ∧ e.pid ≤ 0 ∧
      (dry flags = true ∧
        sched flags pid s = { s with
          jobs := rest, started := s.started ++ [j], events := before ++ { e with job := some j } :: after } ∨
      dry flags = false ∧
        sched flags pid s = { fork pid s with
          jobs := rest, started := s.started ++ [j], events := before ++ ⟨pid, some j⟩ :: after,
          nrunning := s.nrunning + 1 }) := by
  cases queue : s.jobs with
  | nil => exact .inl ⟨rfl, by simp [sched, queue]⟩
  | cons j rest =>
      obtain ⟨before, e, after, split, idle, slot⟩ := nextslot_some counts free
      refine .inr ⟨j, rest, before, e, after, rfl, split, idle, ?_⟩
      cases dryness : dry flags with
      | true =>
          refine .inl ⟨rfl, ?_⟩
          rw [dry] at dryness
          simp only [sched, queue, slot, dryness, if_true]
          rw [split, modify_middle]
      | false =>
          refine .inr ⟨rfl, ?_⟩
          rw [dry] at dryness
          simp only [sched, queue, slot, dryness]
          rw [split, modify_middle, modify_middle]
          rfl

/-- A free slot, if there is one, goes to the first job of the queue. -/
def refill (flags : Flags) (pid : Int) (s : State J) : State J :=
  if s.nrunning < s.nproclimit then sched flags pid s else s

theorem refill_stack (counts : Counts flags s) (pid : Int) :
    (refill flags pid s).stack = s.stack ∧ (refill flags pid s).ended = s.ended := by
  unfold refill
  split
  · rename_i free
    obtain ⟨-, same⟩ | ⟨j, rest, before, e, after, -, -, -, ⟨-, same⟩ | ⟨-, same⟩⟩ := sched_cases counts free pid <;>
      rw [same] <;> exact ⟨rfl, rfl⟩
  · exact ⟨rfl, rfl⟩

theorem refill_counts (counts : Counts flags s) (going : s.ended = none) (some : 1 ≤ s.nproclimit) (pid : Int)
    (positive : 0 < pid) (place : s.nrunning < s.nproclimit → s.nrunning + updates s < s.nproclimit) :
    Counts flags (refill flags pid s) := by
  unfold refill
  split
  · rename_i free
    have limits := counts.limited.resolve_left (by omega)
    have order := counts.fifo going
    obtain ⟨-, same⟩ | ⟨j, rest, before, e, after, queue, split, idle, ⟨-, same⟩ | ⟨wet, same⟩⟩ :=
      sched_cases counts free pid <;> rw [same]
    · exact counts
    · have room := counts.room
      have counted := counts.counted
      rw [split] at room counted
      refine ⟨by simpa using room, .inr limits, ?_, counts.committed, counts.unforked, fun _ => ?_, ?_, counts.slots⟩
      · simpa [List.countP_append, List.countP_cons] using counted
      · rw [← order, queue]
        simp
      · rw [← order, queue]
        exact ⟨rest, by simp⟩
    · have room := counts.room
      have counted := counts.counted
      rw [split] at room counted
      have idle' : ¬ 0 < e.pid := by omega
      refine ⟨by simpa [fork] using room, .inr limits, ?_, ?_, fun dryness => absurd dryness (by simp [wet]), fun _ => ?_, ?_, counts.slots⟩
      · simp only [List.countP_append, List.countP_cons, idle', positive, decide_true, decide_false] at counted ⊢
        push_cast at counted ⊢
        simp at counted ⊢
        omega
      · have : updates { fork pid s with
            jobs := rest, started := s.started ++ [j], events := before ++ ⟨pid, Option.some j⟩ :: after,
            nrunning := s.nrunning + 1 } = updates s := rfl
        have := place free
        simp only [fork] at *
        omega
      · show s.started ++ [j] ++ rest = s.submitted
        rw [← order, queue]
        simp
      · show s.started ++ [j] <+: s.submitted
        rw [← order, queue]
        exact ⟨rest, by simp⟩
  · exact counts

/-- The queue is as it should be if at most one place was missing. -/
theorem refill_queued (counts : Counts flags s) (pid : Int)
    (due : ∀ j rest, s.jobs = j :: rest → rest ≠ [] → s.nproclimit ≤ s.nrunning + updates s + 1 ∧ dry flags = false)
    (place : s.nrunning < s.nproclimit → s.nrunning + updates s < s.nproclimit) : Queued (refill flags pid s) := by
  unfold refill
  split
  · rename_i free
    have room := place free
    obtain ⟨empty, same⟩ | ⟨j, rest, before, e, after, queue, split, idle, ⟨dryness, same⟩ | ⟨-, same⟩⟩ :=
      sched_cases counts free pid <;> rw [same] <;> intro _ waits
    · exact absurd empty waits
    · exact absurd (due j rest queue waits).2 (by simp [dryness])
    · have short := (due j rest queue waits).1
      show s.nrunning + 1 + updates s = s.nproclimit
      omega
  · intro _ _
    have := counts.committed
    omega

/-- What holds of the counters and the queue whatever the pids are. -/
structure Steady (flags : Flags) (s : State J) : Prop where
  counts : Counts flags s
  queued : Queued s
  positive : ∀ child ∈ s.live, 0 < child.pid

theorem steady_initial : Steady flags (initial : State J) where
  counts := ⟨rfl, .inl ⟨rfl, rfl⟩, rfl, Int.le_refl _, fun _ => ⟨rfl, rfl⟩, fun _ => rfl, List.prefix_refl _, by simp [initial]⟩
  queued := fun _ waits => absurd rfl waits
  positive := by simp [initial]

theorem steady_nproc (steady : Steady flags s) (quiet : s.stack = []) : Steady flags (nproc flags s) := by
  obtain ⟨⟨room, limited, counted, committed, unforked, fifo, started, slots⟩, queued, positive⟩ := steady
  have none : updates s = 0 := by simp [updates, quiet]
  rcases limited with ⟨zero, empty⟩ | ⟨some, same⟩
  · have bare : s.events = [] := by
      apply List.eq_nil_of_length_eq_zero
      rw [room, zero]
      rfl
    have idle : s.nrunning = 0 := by simpa [bare] using counted
    have least : 1 ≤ (nproc flags s).nproclimit := by
      simp only [nproc]
      split <;> omega
    have limits : ∀ n, flags.nprocs = Option.some n → (nproc flags s).nproclimit = max n 1 := by
      intro n value
      simp only [nproc, value, Option.getD_some]
      split <;> omega
    have events : (nproc flags s).events = List.replicate (nproc flags s).nproclimit.toNat ⟨0, Option.none⟩ := by
      simp [nproc, bare]
    refine ⟨⟨by rw [events, List.length_replicate], .inr ⟨least, limits⟩, ?_, ?_, unforked, fifo, started, slots⟩, ?_, positive⟩
    · rw [events]
      show s.nrunning = _
      simp [idle, List.countP_replicate]
    · show s.nrunning + updates s ≤ _
      omega
    · exact fun _ waits => absurd empty waits
  · have limit : (nproc flags s).nproclimit = s.nproclimit := by
      simp only [nproc]
      cases value : flags.nprocs with
      | none =>
          simp only [Option.getD_none]
          split <;> omega
      | some n =>
          have := same n value
          simp only [Option.getD_some]
          split <;> omega
    have unchanged : nproc flags s = s := by
      have events : (nproc flags s).events = s.events := by
        have length : s.events.length = (nproc flags s).nproclimit.toNat := by rw [limit, room]
        simp only [nproc] at length ⊢
        rw [length]
        simp
      calc nproc flags s = { s with nproclimit := (nproc flags s).nproclimit, events := (nproc flags s).events } := rfl
        _ = s := by rw [limit, events]
    rw [unchanged]
    exact ⟨⟨room, .inr ⟨some, same⟩, counted, committed, unforked, fifo, started, slots⟩, queued, positive⟩

theorem refill_positive (counts : Counts flags s) (pid : Int) (positive : 0 < pid) (all : ∀ child ∈ s.live, 0 < child.pid) :
    ∀ child ∈ (refill flags pid s).live, 0 < child.pid := by
  unfold refill
  split
  · rename_i free
    obtain ⟨-, same⟩ | ⟨j, rest, before, e, after, -, -, -, ⟨-, same⟩ | ⟨-, same⟩⟩ := sched_cases counts free pid <;> rw [same]
    · exact all
    · exact all
    · intro child member
      rcases List.mem_cons.mp member with rfl | member
      · exact positive
      · exact all child member
  · exact all

theorem Steady.submit (steady : Steady flags s) (least : 0 < s.nproclimit) (j : J) :
    Counts flags { s with jobs := s.jobs ++ [j], submitted := s.submitted ++ [j] } := by
  obtain ⟨⟨room, limited, counted, committed, unforked, fifo, started, slots⟩, -, -⟩ := steady
  refine ⟨room, .inr (limited.resolve_left (by omega)), counted, committed, unforked, fun going => ?_, ?_, slots⟩
  · show s.started ++ (s.jobs ++ [j]) = s.submitted ++ [j]
    rw [← fifo going, List.append_assoc]
  · exact started.trans (List.prefix_append _ _)

theorem steady_run (steady : Steady flags s) (going : s.ended = none) (quiet : s.stack = []) (least : 0 < s.nproclimit)
    (j : J) (pid : Int) (positive : 0 < pid) : Steady flags (run flags j pid s) := by
  have counts := steady.submit least j
  have none : updates s = 0 := by simp [updates, quiet]
  have place : s.nrunning < s.nproclimit → s.nrunning + updates s < s.nproclimit := by omega
  refine ⟨refill_counts counts going least pid positive place, refill_queued counts pid ?_ place,
    refill_positive counts pid positive steady.positive⟩
  intro first rest queue more
  have waits : s.jobs ≠ [] := by
    intro empty
    simp only [empty, List.nil_append, List.cons.injEq] at queue
    exact more queue.2.symm
  have full := steady.queued going waits
  refine ⟨by show s.nproclimit ≤ s.nrunning + updates s + 1; omega, ?_⟩
  rw [Bool.eq_false_iff]
  intro dryness
  have := (steady.counts.unforked dryness).1
  omega

/-- The counters see neither the children nor the list of processes, and of
the stack only the calls inside `update`. -/
theorem Steady.carry (steady : Steady flags s) {stack : List Frame} {live : List Child} (processes : Heap Process) (forked : Nat)
    (awaited : List Nat) (reported delivered : List (Nat × Int)) (same : stack.countP Frame.busy = updates s)
    (positive : ∀ child ∈ live, 0 < child.pid) :
    Steady flags { s with
      stack := stack, live := live, processes := processes, forked := forked, awaited := awaited, reported := reported,
      delivered := delivered } := by
  obtain ⟨⟨room, limited, counted, committed, unforked, fifo, started, slots⟩, queued, -⟩ := steady
  rw [← same] at committed unforked
  refine ⟨⟨room, limited, counted, committed, unforked, fifo, started, slots⟩, ?_, positive⟩
  intro going waits
  have full := queued going waits
  rw [← same] at full
  exact full

theorem steady_fork (steady : Steady flags s) (pid : Int) (positive : 0 < pid) : Steady flags (fork pid s) := by
  refine steady.carry s.processes (s.forked + 1) s.awaited s.reported s.delivered rfl ?_
  intro child member
  rcases List.mem_cons.mp member with rfl | member
  · exact positive
  · exact steady.positive child member

theorem steady_waitup (steady : Steady flags s) (retstatus : Option Child) : Steady flags (waitup retstatus s) := by
  have busy : ∀ w : Option Child, (Frame.waiting w :: s.stack).countP Frame.busy = updates s := by
    intro w
    simp [updates, Frame.busy]
  unfold waitup
  split
  · exact steady.carry s.processes s.forked s.awaited s.reported s.delivered (busy none) steady.positive
  · split
    · exact steady.carry _ s.forked s.awaited s.reported _ rfl steady.positive
    · exact steady.carry s.processes s.forked s.awaited s.reported s.delivered (busy _) steady.positive

/-- The events after the slot of a pid has been freed. -/
theorem pidslot_some {pid : Int} {slot : Nat} (found : pidslot pid s = some slot) :
    ∃ before e after, s.events = before ++ e :: after ∧ e.pid = pid ∧
      s.events.modify slot (fun e => { e with pid := -1 }) = before ++ { e with pid := -1 } :: after := by
  obtain ⟨before, e, after, split, rfl, same⟩ := findIdx_split found
  refine ⟨before, e, after, split, by simpa using same, ?_⟩
  rw [split, modify_middle]

theorem steady_reap (steady : Steady flags s) (child : Child) (alive : child ∈ s.live) (failed : Bool)
    (retstatus : Option Child) : Steady flags (reap flags child failed retstatus s) := by
  have positive : ∀ other ∈ s.live.erase child, 0 < other.pid :=
    fun other member => steady.positive other (List.mem_of_mem_erase member)
  have own := steady.positive child alive
  unfold reap
  dsimp only
  split
  · exact steady.carry s.processes s.forked s.awaited _ _ rfl positive
  · split
    · refine steady.carry _ s.forked s.awaited _ s.delivered ?_ positive
      simp [updates, Frame.busy]
    · rename_i slot found
      obtain ⟨before, e, after, split, same, freed⟩ := pidslot_some found
      obtain ⟨⟨room, limited, counted, committed, unforked, fifo, started, slots⟩, queued, -⟩ := steady
      dsimp only at split freed
      rw [freed]
      have length : (before ++ { e with pid := -1 } :: after).length = s.nproclimit.toNat := by
        rw [← room, split]
        simp
      have taken : 0 < e.pid := by omega
      have fewer : s.nrunning - 1 = (before ++ { e with pid := -1 } :: after).countP fun e => 0 < e.pid := by
        rw [counted, split]
        simp [List.countP_append, taken]
        omega
      have wet : ¬ dry flags = true := by
        intro dryness
        have := (unforked dryness).1
        rw [counted, split] at this
        simp [List.countP_append, taken] at this
        omega
      split
      · have idle : updates { s with stack := .waiting retstatus :: s.stack } = updates s := by simp [updates, Frame.busy]
        refine ⟨⟨length, ?_, fewer, ?_, fun dryness => absurd dryness wet, by simp, started, by simp⟩, by simp [Queued], positive⟩
        · exact limited.imp (fun zero => ⟨zero.1, rfl⟩) id
        · show s.nrunning - 1 + updates { s with stack := .waiting retstatus :: s.stack } ≤ s.nproclimit
          omega
      · have busy : updates { s with stack := .updating retstatus :: s.stack } = updates s + 1 :=
          List.countP_cons_of_pos rfl
        refine ⟨⟨length, limited, fewer, ?_, fun dryness => absurd dryness wet, fifo, started, slots⟩, ?_, positive⟩
        · show s.nrunning - 1 + updates { s with stack := .updating retstatus :: s.stack } ≤ s.nproclimit
          omega
        · intro going waits
          have full := queued going waits
          show s.nrunning - 1 + updates { s with stack := .updating retstatus :: s.stack } = s.nproclimit
          omega

/-- The caller's loop around `waitup`. -/
def resume (retstatus : Option Child) (s : State J) : State J :=
  match retstatus with
  | none => s
  | some child => waitup (some child) s

theorem endup_eq (counts : Counts flags s) (going : s.ended = none) (retstatus : Option Child) (pid : Int) :
    endup flags pid retstatus s = resume retstatus (refill flags pid s) := by
  have ended : (refill flags pid s).ended = none := (refill_stack counts pid).2.trans going
  cases retstatus with
  | none => rfl
  | some child => exact if_pos ended

section Endup

variable (steady : Steady flags s) {retstatus : Option Child} {rest : List Frame} (top : s.stack = .updating retstatus :: rest)

include top in
theorem updates_top : updates s = updates { s with stack := rest } + 1 := by
  simp only [updates, top]
  exact List.countP_cons_of_pos rfl

include steady top in
theorem Steady.wet : dry flags = false := by
  rw [Bool.eq_false_iff]
  intro dryness
  have none := (steady.counts.unforked dryness).2
  have busy := updates_top top
  omega

include steady top in
theorem Steady.leave : Counts flags { s with stack := rest } := by
  have busy := updates_top top
  have wet := steady.wet top
  obtain ⟨⟨room, limited, counted, committed, unforked, fifo, started, slots⟩, queued, all⟩ := steady
  refine ⟨room, limited, counted, ?_, fun dryness => absurd dryness (by simp [wet]), fifo, started, slots⟩
  show s.nrunning + updates { s with stack := rest } ≤ s.nproclimit
  omega

include steady top in
theorem steady_endup (going : s.ended = none) (pid : Int) (positive : 0 < pid) :
    Steady flags (endup flags pid retstatus { s with stack := rest }) := by
  have busy := updates_top top
  have counts := steady.leave top
  have committed := steady.counts.committed
  have least : 1 ≤ s.nproclimit := by
    have : (0 : Int) ≤ s.nrunning := by rw [steady.counts.counted]; omega
    omega
  have place : s.nrunning < s.nproclimit → s.nrunning + updates { s with stack := rest } < s.nproclimit := by omega
  have refilled : Steady flags (refill flags pid { s with stack := rest }) := by
    refine ⟨refill_counts counts going least pid positive place, refill_queued counts pid ?_ place,
      refill_positive counts pid positive steady.positive⟩
    intro j more queue _
    have full := steady.queued going (by rw [show s.jobs = j :: more from queue]; simp)
    refine ⟨?_, steady.wet top⟩
    show s.nproclimit ≤ s.nrunning + updates { s with stack := rest } + 1
    omega
  rw [endup_eq counts going]
  cases retstatus with
  | none => exact refilled
  | some child => exact steady_waitup refilled (some child)

end Endup

/-- All that an action can do, with what must hold for it. -/
inductive Moves (flags : Flags) (s : State J) : Act J → State J → Prop where
  | nproc (quiet : s.stack = []) : Moves flags s .nproc (nproc flags s)
  | run (j : J) (pid : Int) (quiet : s.stack = []) (some : 0 < s.nproclimit) (positive : 0 < pid)
      (fresh : ∀ child ∈ s.live, child.pid ≠ pid) : Moves flags s (.run j pid) (run flags j pid s)
  | pipecmd (pid : Int) (open' : ∀ retstatus, s.stack.head? ≠ some (.waiting retstatus)) (positive : 0 < pid)
      (fresh : ∀ child ∈ s.live, child.pid ≠ pid) : Moves flags s (.pipecmd pid)
      { fork pid s with stack := .piped ⟨s.forked, pid⟩ :: s.stack, awaited := s.awaited ++ [s.forked] }
  | stray (pid : Int) (positive : 0 < pid) (fresh : ∀ child ∈ s.live, child.pid ≠ pid) : Moves flags s (.stray pid) (fork pid s)
  | wait (open' : ∀ retstatus, s.stack.head? ≠ some (.waiting retstatus)) : Moves flags s .wait (waitup none s)
  | await (child : Child) (rest : List Frame) (top : s.stack = .piped child :: rest) :
      Moves flags s .await (waitup (some child) { s with stack := rest })
  | report (pid : Int) (failed : Bool) (child : Child) (retstatus : Option Child) (rest : List Frame)
      (top : s.stack = .waiting retstatus :: rest) (alive : child ∈ s.live) (same : child.pid = pid) :
      Moves flags s (.report pid failed) (reap flags child failed retstatus { s with stack := rest })
  | nochild (rest : List Frame) (top : s.stack = .waiting none :: rest) : Moves flags s (.nochild true) { s with stack := rest }
  | stuck (echildok : Bool) : Moves flags s (.nochild echildok) { s with ended := some .exit }
  | endup (pid : Int) (retstatus : Option Child) (rest : List Frame) (top : s.stack = .updating retstatus :: rest)
      (positive : 0 < pid) (fresh : ∀ child ∈ s.live, child.pid ≠ pid) :
      Moves flags s (.endup pid) (endup flags pid retstatus { s with stack := rest })

theorem ready_spec (yes : ready s = true) : s.ended = none ∧ ∀ retstatus, s.stack.head? ≠ some (.waiting retstatus) := by
  simp only [ready, Bool.and_eq_true, Option.isNone_iff_eq_none] at yes
  refine ⟨yes.1, fun retstatus top => ?_⟩
  obtain ⟨rest, stack⟩ := List.head?_eq_some_iff.mp top
  simp [stack] at yes

theorem unused_spec {pid : Int} (yes : unused pid s = true) : 0 < pid ∧ ∀ child ∈ s.live, child.pid ≠ pid := by
  simpa [unused] using yes

theorem step_moves {act : Act J} (moves : step flags s act = some t) : s.ended = none ∧ Moves flags s act t := by
  cases act with
  | nproc =>
      simp only [step, Option.ite_none_right_eq_some, Bool.and_eq_true, List.isEmpty_iff, Option.some.injEq] at moves
      obtain ⟨⟨yes, quiet⟩, rfl⟩ := moves
      exact ⟨(ready_spec yes).1, .nproc quiet⟩
  | run j pid =>
      simp only [step, Option.ite_none_right_eq_some, Bool.and_eq_true, List.isEmpty_iff, Option.some.injEq,
        decide_eq_true_eq] at moves
      obtain ⟨⟨⟨⟨yes, quiet⟩, some⟩, new⟩, rfl⟩ := moves
      exact ⟨(ready_spec yes).1, .run j pid quiet some (unused_spec new).1 (unused_spec new).2⟩
  | pipecmd pid =>
      simp only [step, Option.ite_none_right_eq_some, Bool.and_eq_true, Option.some.injEq] at moves
      obtain ⟨⟨yes, new⟩, rfl⟩ := moves
      exact ⟨(ready_spec yes).1, .pipecmd pid (ready_spec yes).2 (unused_spec new).1 (unused_spec new).2⟩
  | stray pid =>
      simp only [step, Option.ite_none_right_eq_some, Bool.and_eq_true, Option.some.injEq] at moves
      obtain ⟨⟨yes, new⟩, rfl⟩ := moves
      exact ⟨(ready_spec yes).1, .stray pid (unused_spec new).1 (unused_spec new).2⟩
  | wait =>
      simp only [step, Option.ite_none_right_eq_some, Option.some.injEq] at moves
      obtain ⟨yes, rfl⟩ := moves
      exact ⟨(ready_spec yes).1, .wait (ready_spec yes).2⟩
  | await =>
      simp only [step] at moves
      split at moves
      · rename_i child rest top
        simp only [Option.ite_none_right_eq_some, Option.some.injEq] at moves
        obtain ⟨yes, rfl⟩ := moves
        exact ⟨(ready_spec yes).1, .await child rest top⟩
      · cases moves
  | report pid failed =>
      simp only [step] at moves
      split at moves
      · rename_i retstatus rest child top found
        simp only [Option.ite_none_right_eq_some, Option.some.injEq, Option.isNone_iff_eq_none] at moves
        obtain ⟨going, rfl⟩ := moves
        exact ⟨going, .report pid failed child retstatus rest top (List.mem_of_find?_eq_some found)
          (by simpa using List.find?_some found)⟩
      · cases moves
  | nochild echildok =>
      simp only [step] at moves
      split at moves
      · rename_i retstatus rest top
        split at moves
        · rename_i none
          simp only [Bool.and_eq_true, Option.isNone_iff_eq_none] at none
          split at moves
          · rename_i ok
            simp only [Bool.and_eq_true, Option.isNone_iff_eq_none] at ok
            obtain ⟨rfl, rfl⟩ := ok
            cases moves
            exact ⟨none.1, .nochild rest top⟩
          · cases moves
            exact ⟨none.1, .stuck echildok⟩
        · cases moves
      · cases moves
  | endup pid =>
      simp only [step] at moves
      split at moves
      · rename_i retstatus rest top
        simp only [Option.ite_none_right_eq_some, Bool.and_eq_true, Option.some.injEq] at moves
        obtain ⟨⟨yes, new⟩, rfl⟩ := moves
        exact ⟨(ready_spec yes).1, .endup pid retstatus rest top (unused_spec new).1 (unused_spec new).2⟩
      · cases moves

/-- A frame that is not inside `update` leaves the stack. -/
theorem Steady.pop (steady : Steady flags s) {frame : Frame} {rest : List Frame} (top : s.stack = frame :: rest)
    (idle : Frame.busy frame = false) : Steady flags { s with stack := rest } := by
  refine steady.carry s.processes s.forked s.awaited s.reported s.delivered ?_ steady.positive
  simp [updates, top, idle]

theorem steady_moves {act : Act J} (steady : Steady flags s) (going : s.ended = none) (moves : Moves flags s act t) :
    Steady flags t := by
  cases moves with
  | nproc quiet => exact steady_nproc steady quiet
  | run j pid quiet some positive _ => exact steady_run steady going quiet some j pid positive
  | pipecmd pid _ positive _ =>
      refine (steady_fork steady pid positive).carry s.processes (s.forked + 1) _ s.reported s.delivered ?_
        (steady_fork steady pid positive).positive
      simp [updates, Frame.busy, fork]
  | stray pid positive _ => exact steady_fork steady pid positive
  | wait _ => exact steady_waitup steady none
  | await child rest top => exact steady_waitup (steady.pop top rfl) _
  | report pid failed child retstatus rest top alive _ => exact steady_reap (steady.pop top rfl) child alive failed retstatus
  | nochild rest top => exact steady.pop top rfl
  | stuck _ =>
      obtain ⟨⟨room, limited, counted, committed, unforked, fifo, started, slots⟩, queued, positive⟩ := steady
      exact ⟨⟨room, limited, counted, committed, unforked, by simp, started, by simp⟩, by simp [Queued], positive⟩
  | endup pid retstatus rest top positive _ => exact steady_endup steady top going pid positive

end Goken.Proofs.MkRun
