import Goken.Proofs.MkRun

/-! The statuses of the children that mk waits for. As long as the kernel gives
no such child a pid that is still parked, each of them is in one place only: it
lives, or its status is parked under a pid nobody else has there, or its status
has been delivered. -/

namespace Goken.Proofs.MkWait
open Goken.MkRun Goken.Proofs.MkRun Lib.DList Lib.Steps Lib.Lists

variable {J : Type} {flags : Flags} {s t : State J} {items : List Process}

/-- The slots and their pids against the children the kernel has. -/
structure Kernel (s : State J) : Prop where
  pids : (s.live.map Child.pid).Nodup
  ids : (s.live.map Child.id ++ s.reported.map Prod.fst).Nodup
  bounded : ∀ id ∈ s.live.map Child.id ++ s.reported.map Prod.fst, id < s.forked
  running : ∀ e ∈ s.events, 0 < e.pid → e.pid ∈ s.live.map Child.pid
  single : ((s.events.map RunEvent.pid).filter (0 < ·)).Nodup

/-- A child lives and nothing is parked under its pid, or its status is the
only one parked there. -/
def Settled (live : List Child) (reported : List (Nat × Int)) (items : List Process) (c : Child) : Prop :=
  (c ∈ live ∧ ∀ p ∈ items, p.pid ≠ c.pid) ∨
  ∃ status, items.filter (fun p => p.pid = c.pid) = [⟨c.pid, status⟩] ∧ (c.id, status) ∈ reported

structure Parked (s : State J) (items : List Process) : Prop where
  holds : Holds s.processes items
  apart : ((pending s).map Child.pid).Nodup
  settled : ∀ c ∈ pending s, Settled s.live s.reported items c
  alone : ∀ c ∈ pending s, ∀ x ∈ s.live, x.pid = c.pid → x = c ∨ ∃ e ∈ s.events, e.pid = x.pid
  unslotted : ∀ c ∈ pending s, c ∈ s.live → ∀ e ∈ s.events, e.pid ≠ c.pid
  top : ∀ c, s.stack.head? = some (.waiting (some c)) → c ∈ s.live
  below : ∀ frame ∈ s.stack.tail, ∀ retstatus, frame ≠ .waiting retstatus
  once : ((pending s).map Child.id ++ s.delivered.map Prod.fst).Perm s.awaited
  distinct : s.awaited.Nodup
  old : ∀ id ∈ s.awaited, id < s.forked
  own : ∀ d ∈ s.delivered, d ∈ s.reported

/-- What holds as long as no pid that is still parked is used again. -/
structure Waits (flags : Flags) (s : State J) : Prop where
  steady : Steady flags s
  kernel : Kernel s
  parked : ∃ items, Parked s items

theorem waits_initial : Waits flags (initial : State J) where
  steady := steady_initial
  kernel := ⟨List.nodup_nil, List.nodup_nil, by simp [initial], by simp [initial], List.nodup_nil⟩
  parked := ⟨[], holds_empty, List.nodup_nil, by simp [pending, initial], by simp [pending, initial],
    by simp [pending, initial], by simp [initial], by simp [initial], List.Perm.refl _, List.nodup_nil, by simp [initial],
    by simp [initial]⟩

/-- What the statuses do not depend on. -/
theorem Parked.carry (parked : Parked s items) (jobs : List J) (nrunning nproclimit : Int) (ended : Option Ended)
    (submitted started : List J) :
    Parked { s with
      jobs := jobs, nrunning := nrunning, nproclimit := nproclimit, ended := ended, submitted := submitted,
      started := started } items :=
  ⟨parked.holds, parked.apart, parked.settled, parked.alone, parked.unslotted, parked.top, parked.below, parked.once,
    parked.distinct, parked.old, parked.own⟩

theorem Kernel.carry (kernel : Kernel s) (jobs : List J) (nrunning nproclimit : Int) (ended : Option Ended)
    (submitted started : List J) (processes : Heap Process) (stack : List Frame) (awaited : List Nat)
    (delivered : List (Nat × Int)) :
    Kernel { s with
      jobs := jobs, nrunning := nrunning, nproclimit := nproclimit, ended := ended, submitted := submitted,
      started := started, processes := processes, stack := stack, awaited := awaited, delivered := delivered } :=
  ⟨kernel.pids, kernel.ids, kernel.bounded, kernel.running, kernel.single⟩

theorem Parked.pending_old (parked : Parked s items) {c : Child} (member : c ∈ pending s) : c.id < s.forked := by
  apply parked.old
  apply parked.once.subset
  exact List.mem_append_left _ (List.mem_map_of_mem member)

/-- A child that lives has not been reported. -/
theorem Kernel.unreported (kernel : Kernel s) {c : Child} (alive : c ∈ s.live) (status : Int) :
    (c.id, status) ∉ s.reported := by
  intro reported
  exact (List.nodup_append.mp kernel.ids).2.2 c.id (List.mem_map_of_mem alive) c.id
    (List.mem_map.mpr ⟨_, reported, rfl⟩) rfl

theorem Kernel.same (kernel : Kernel s) {x y : Child} (one : x ∈ s.live) (two : y ∈ s.live) (pid : x.pid = y.pid) : x = y :=
  List.inj_on_of_nodup_map kernel.pids one two pid

/-- A child waited for that still lives. -/
theorem Parked.alive (parked : Parked s items) (kernel : Kernel s) {c : Child} (member : c ∈ pending s) (alive : c ∈ s.live) :
    ∀ p ∈ items, p.pid ≠ c.pid := by
  rcases parked.settled c member with ⟨-, free⟩ | ⟨status, -, reported⟩
  · exact free
  · exact absurd reported (kernel.unreported alive status)

theorem kernel_fork (kernel : Kernel s) {pid : Int} (fresh : ∀ child ∈ s.live, child.pid ≠ pid) : Kernel (fork pid s) := by
  obtain ⟨pids, ids, bounded, running, single⟩ := kernel
  refine ⟨?_, ?_, ?_, ?_, single⟩
  · refine List.nodup_cons.mpr ⟨fun member => ?_, pids⟩
    obtain ⟨child, alive, same⟩ := List.mem_map.mp member
    exact fresh child alive same
  · exact List.nodup_cons.mpr ⟨fun member => Nat.lt_irrefl _ (bounded _ member), ids⟩
  · intro id member
    rcases List.mem_cons.mp member with rfl | member
    · exact Nat.lt_succ_self _
    · exact Nat.lt_succ_of_lt (bounded id member)
  · intro e member busy
    exact List.mem_cons_of_mem _ (running e member busy)

/-- A slot changes that then holds no pid. -/
theorem kernel_idle (kernel : Kernel s) {before after : List (RunEvent J)} {e f : RunEvent J}
    (split : s.events = before ++ e :: after) (idle : f.pid ≤ 0) : Kernel { s with events := before ++ f :: after } := by
  obtain ⟨pids, ids, bounded, running, single⟩ := kernel
  refine ⟨pids, ids, bounded, ?_, ?_⟩
  · intro other member busy
    rcases mem_middle.mp member with rfl | member
    · omega
    · exact running other (split ▸ mem_middle.mpr (.inr member)) busy
  · rw [split] at single
    refine single.sublist ?_
    simp only [List.map_append, List.map_cons, List.filter_append]
    refine List.Sublist.append (List.Sublist.refl _) ?_
    rw [List.filter_cons_of_neg (by simpa using idle)]
    exact (List.sublist_cons_self _ _).filter _

/-- A slot takes a child just forked. -/
theorem kernel_start (kernel : Kernel s) {before after : List (RunEvent J)} {e : RunEvent J} {pid : Int} (j : Option J)
    (split : s.events = before ++ e :: after) (fresh : ∀ child ∈ s.live, child.pid ≠ pid) :
    Kernel { fork pid s with events := before ++ ⟨pid, j⟩ :: after } := by
  have forked := kernel_fork kernel fresh
  obtain ⟨pids, ids, bounded, running, single⟩ := kernel_idle (f := ⟨0, j⟩) kernel split (Int.le_refl _)
  have others : ∀ other ∈ before ++ after, 0 < other.pid → other.pid ∈ s.live.map Child.pid :=
    fun other member => running other (mem_middle.mpr (.inr member))
  refine ⟨forked.pids, forked.ids, forked.bounded, ?_, ?_⟩
  · intro other member busy
    rcases mem_middle.mp member with rfl | member
    · exact List.mem_cons_self
    · exact List.mem_cons_of_mem _ (others other member busy)
  · have rest : (((before ++ after).map RunEvent.pid).filter (0 < ·)).Nodup := by
      refine single.sublist ?_
      simp [List.filter_append]
    have absent : pid ∉ ((before ++ after).map RunEvent.pid).filter (0 < ·) := by
      intro member
      simp only [List.mem_filter, decide_eq_true_eq] at member
      obtain ⟨member, positive⟩ := member
      obtain ⟨other, inside, rfl⟩ := List.mem_map.mp member
      obtain ⟨child, live, same⟩ := List.mem_map.mp (others other inside positive)
      exact fresh child live same
    show (((before ++ ⟨pid, j⟩ :: after).map RunEvent.pid).filter (0 < ·)).Nodup
    by_cases positive : 0 < pid
    · refine (List.Perm.nodup_iff ?_).mpr (List.nodup_cons.mpr ⟨absent, rest⟩)
      simp only [List.map_append, List.map_cons, List.filter_append, List.filter_cons, positive, decide_true, if_true]
      exact List.perm_middle
    · simpa [List.filter_append, positive] using rest

/-- A child is reported whose pid no slot holds. -/
theorem kernel_reap (kernel : Kernel s) {child : Child} (alive : child ∈ s.live) (status : Int)
    (free : ∀ e ∈ s.events, e.pid ≠ child.pid) :
    Kernel { s with live := s.live.erase child, reported := s.reported ++ [(child.id, status)] } := by
  obtain ⟨pids, ids, bounded, running, single⟩ := kernel
  have moved : ((s.live.erase child).map Child.id ++ (s.reported ++ [(child.id, status)]).map Prod.fst).Perm
      (s.live.map Child.id ++ s.reported.map Prod.fst) := by
    calc ((s.live.erase child).map Child.id ++ (s.reported ++ [(child.id, status)]).map Prod.fst)
        = ((s.live.erase child).map Child.id ++ s.reported.map Prod.fst) ++ [child.id] := by simp
      List.Perm _ (child.id :: ((s.live.erase child).map Child.id ++ s.reported.map Prod.fst)) :=
        List.perm_append_singleton _ _
      List.Perm _ (s.live.map Child.id ++ s.reported.map Prod.fst) :=
        ((List.perm_cons_erase alive).map Child.id).symm.append_right _
  refine ⟨?_, moved.nodup_iff.mpr ids, fun id member => bounded id (moved.subset member), ?_, single⟩
  · exact pids.sublist (List.erase_sublist.map _)
  · intro e member busy
    obtain ⟨other, live, same⟩ := List.mem_map.mp (running e member busy)
    refine List.mem_map.mpr ⟨other, (List.mem_erase_of_ne ?_).mpr live, same⟩
    rintro rfl
    exact free e member same.symm

/-- The slot of the child reported is freed. -/
theorem kernel_free (kernel : Kernel s) {before after : List (RunEvent J)} {e : RunEvent J} {child : Child}
    (split : s.events = before ++ e :: after) (own : e.pid = child.pid) (positive : 0 < child.pid) :
    ∀ other ∈ before ++ { e with pid := -1 } :: after, other.pid ≠ child.pid := by
  have single := kernel.single
  rw [split] at single
  simp only [List.map_append, List.map_cons, List.filter_append, List.filter_cons, own, positive, decide_true, if_true] at single
  have absent := (List.nodup_cons.mp (List.perm_middle.nodup_iff.mp single)).1
  intro other member same
  apply absent
  rw [← List.filter_append, ← List.map_append, List.mem_filter]
  refine ⟨?_, by simpa using positive⟩
  rcases mem_middle.mp member with rfl | member
  · simp only at same
    omega
  · exact same ▸ List.mem_map_of_mem member

/-- The condition under which the statuses are right: no child that is to be
waited for is forked under a pid still parked in `phead`, and no child that
nobody waits for under the pid of one still waited for. -/
def Distinct (s : State J) : Act J → Prop
  | .pipecmd pid => find (fun p : Process => p.pid = pid) s.processes = none
  | .stray pid => ∀ c ∈ pending s, c.pid ≠ pid
  | _ => True

instance (s : State J) (act : Act J) : Decidable (Distinct s act) :=
  match act with
  | .pipecmd _ => inferInstanceAs (Decidable (_ = _))
  | .stray pid => inferInstanceAs (Decidable (∀ c ∈ pending s, c.pid ≠ pid))
  | .nproc | .run _ _ | .wait | .await | .report _ _ | .nochild _ | .endup _ => inferInstanceAs (Decidable True)

theorem parked_stray (parked : Parked s items) {pid : Int} (apart : ∀ c ∈ pending s, c.pid ≠ pid) : Parked (fork pid s) items := by
  refine ⟨parked.holds, parked.apart, ?_, ?_, ?_, ?_, parked.below, parked.once, parked.distinct, ?_, parked.own⟩
  · intro c member
    exact (parked.settled c member).imp (fun lives => ⟨List.mem_cons_of_mem _ lives.1, lives.2⟩) id
  · intro c member x alive same
    rcases List.mem_cons.mp alive with rfl | alive
    · exact absurd same.symm (apart c member)
    · exact parked.alone c member x alive same
  · intro c member alive
    rcases List.mem_cons.mp alive with rfl | alive
    · exact absurd (parked.pending_old member) (Nat.lt_irrefl _)
    · exact parked.unslotted c member alive
  · intro c top
    exact List.mem_cons_of_mem _ (parked.top c top)
  · intro id member
    exact Nat.lt_succ_of_lt (parked.old id member)

/-- The slot of a living child is still there when a free one changes. -/
theorem slot_kept {before after : List (RunEvent J)} {e f : RunEvent J} (split : s.events = before ++ e :: after)
    (idle : e.pid ≤ 0) {x : Child} (positive : 0 < x.pid) (slotted : ∃ e ∈ s.events, e.pid = x.pid) :
    ∃ e ∈ before ++ f :: after, e.pid = x.pid := by
  obtain ⟨other, member, same⟩ := slotted
  refine ⟨other, mem_middle.mpr (.inr ?_), same⟩
  rw [split] at member
  refine (mem_middle.mp member).resolve_left ?_
  rintro rfl
  omega

theorem parked_start (parked : Parked s items) {before after : List (RunEvent J)} {e : RunEvent J} {pid : Int} (j : Option J)
    (split : s.events = before ++ e :: after) (idle : e.pid ≤ 0) (all : ∀ child ∈ s.live, 0 < child.pid)
    (fresh : ∀ child ∈ s.live, child.pid ≠ pid) :
    Parked { fork pid s with events := before ++ ⟨pid, j⟩ :: after } items := by
  refine ⟨parked.holds, parked.apart, ?_, ?_, ?_, ?_, parked.below, parked.once, parked.distinct, ?_, parked.own⟩
  · intro c member
    exact (parked.settled c member).imp (fun lives => ⟨List.mem_cons_of_mem _ lives.1, lives.2⟩) id
  · intro c member x alive same
    rcases List.mem_cons.mp alive with rfl | alive
    · exact .inr ⟨⟨pid, j⟩, by simp, rfl⟩
    · exact (parked.alone c member x alive same).imp id (slot_kept split idle (all x alive))
  · intro c member alive other inside
    rcases List.mem_cons.mp alive with rfl | alive
    · exact absurd (parked.pending_old member) (Nat.lt_irrefl _)
    · rcases mem_middle.mp inside with rfl | inside
      · exact (fresh c alive).symm
      · exact parked.unslotted c member alive other (split ▸ mem_middle.mpr (.inr inside))
  · intro c top
    exact List.mem_cons_of_mem _ (parked.top c top)
  · intro id member
    exact Nat.lt_succ_of_lt (parked.old id member)

/-- A slot changes that holds no pid, before or after. -/
theorem parked_idle (parked : Parked s items) {before after : List (RunEvent J)} {e f : RunEvent J}
    (split : s.events = before ++ e :: after) (idle : e.pid ≤ 0) (still : f.pid ≤ 0) (all : ∀ child ∈ s.live, 0 < child.pid) :
    Parked { s with events := before ++ f :: after } items := by
  refine ⟨parked.holds, parked.apart, parked.settled, ?_, ?_, parked.top, parked.below, parked.once, parked.distinct, parked.old,
    parked.own⟩
  · intro c member x alive same
    exact (parked.alone c member x alive same).imp id (slot_kept split idle (all x alive))
  · intro c member alive other inside
    rcases mem_middle.mp inside with rfl | inside
    · have := all c alive
      omega
    · exact parked.unslotted c member alive other (split ▸ mem_middle.mpr (.inr inside))

theorem refill_waits (counts : Counts flags s) (kernel : Kernel s) (parked : Parked s items)
    (all : ∀ child ∈ s.live, 0 < child.pid) {pid : Int} (fresh : ∀ child ∈ s.live, child.pid ≠ pid) :
    Kernel (refill flags pid s) ∧ Parked (refill flags pid s) items := by
  unfold refill
  split
  · rename_i free
    obtain ⟨-, same⟩ | ⟨j, rest, before, e, after, -, split, idle, ⟨-, same⟩ | ⟨-, same⟩⟩ := sched_cases counts free pid <;> rw [same]
    · exact ⟨kernel, parked⟩
    · have one := kernel_idle (f := { e with job := some j }) kernel split idle
      have two := parked_idle (f := { e with job := some j }) parked split idle idle all
      exact ⟨one.carry _ _ _ _ _ _ _ _ _ _, two.carry _ _ _ _ _ _⟩
    · have one := kernel_start kernel (some j) split fresh
      have two := parked_start parked (some j) split idle all fresh
      exact ⟨one.carry _ _ _ _ _ _ _ _ _ _, two.carry _ _ _ _ _ _⟩
  · exact ⟨kernel, parked⟩

/-- Nothing above the top of the stack is blocked in `xwaitfor`. -/
theorem Parked.below_push (parked : Parked s items) (free : ∀ retstatus, s.stack.head? ≠ some (.waiting retstatus)) :
    ∀ frame ∈ s.stack, ∀ retstatus, frame ≠ .waiting retstatus := by
  intro frame member retstatus same
  cases stack : s.stack with
  | nil => simp [stack] at member
  | cons top rest =>
      rw [stack] at member
      rcases List.mem_cons.mp member with rfl | member
      · exact free retstatus (by simp [stack, same])
      · exact parked.below frame (by simpa [stack] using member) retstatus same

theorem parked_pipecmd (parked : Parked s items) (kernel : Kernel s) {pid : Int} (positive : 0 < pid)
    (fresh : ∀ child ∈ s.live, child.pid ≠ pid) (free : ∀ retstatus, s.stack.head? ≠ some (.waiting retstatus))
    (unparked : find (fun p : Process => p.pid = pid) s.processes = none) :
    Parked { fork pid s with stack := .piped ⟨s.forked, pid⟩ :: s.stack, awaited := s.awaited ++ [s.forked] } items := by
  have absent : ∀ p ∈ items, p.pid ≠ pid := by
    rcases parked.holds.find (fun p => p.pid = pid) with ⟨-, fails⟩ | ⟨p, x, before, after, found, -⟩
    · intro p member
      simpa using fails p member
    · rw [unparked] at found
      cases found
  have other : ∀ c ∈ pending s, c.pid ≠ pid := by
    intro c member same
    rcases parked.settled c member with ⟨alive, -⟩ | ⟨status, only, -⟩
    · exact fresh c alive same
    · have inside : (⟨c.pid, status⟩ : Process) ∈ items := by
        have := only ▸ List.mem_singleton_self (⟨c.pid, status⟩ : Process)
        exact (List.mem_filter.mp this).1
      exact absent _ inside same
  have new : pending { fork pid s with stack := .piped ⟨s.forked, pid⟩ :: s.stack, awaited := s.awaited ++ [s.forked] } =
      ⟨s.forked, pid⟩ :: pending s := rfl
  have stray := parked_stray parked other
  refine ⟨parked.holds, ?_, ?_, ?_, ?_, by simp, parked.below_push free, ?_, ?_, ?_, parked.own⟩
  · rw [new]
    refine List.nodup_cons.mpr ⟨fun member => ?_, parked.apart⟩
    obtain ⟨c, inside, same⟩ := List.mem_map.mp member
    exact other c inside same
  · intro c member
    rcases List.mem_cons.mp (new ▸ member) with rfl | member
    · exact .inl ⟨List.mem_cons_self, absent⟩
    · exact stray.settled c member
  · intro c member x alive same
    rcases List.mem_cons.mp (new ▸ member) with rfl | member
    · rcases List.mem_cons.mp alive with rfl | alive
      · exact .inl rfl
      · exact absurd same (fresh x alive)
    · exact stray.alone c member x alive same
  · intro c member alive e inside
    rcases List.mem_cons.mp (new ▸ member) with rfl | member
    · intro same
      have busy : 0 < e.pid := by rw [same]; exact positive
      obtain ⟨child, live, own⟩ := List.mem_map.mp (kernel.running e inside busy)
      exact fresh child live (own.trans same)
    · exact stray.unslotted c member alive e inside
  · rw [new]
    exact (parked.once.cons s.forked).trans (List.perm_append_singleton _ _).symm
  · refine List.nodup_append.mpr ⟨parked.distinct, List.nodup_singleton _, ?_⟩
    intro id member newest last
    rw [List.mem_singleton.mp last]
    exact Nat.ne_of_lt (parked.old id member)
  · intro id member
    rcases List.mem_append.mp member with member | member
    · exact Nat.lt_succ_of_lt (parked.old id member)
    · rw [List.mem_singleton.mp member]
      exact Nat.lt_succ_self _

/-- The caller looks for its child: the status is parked and delivered, or the
child lives and the call blocks. -/
theorem parked_waitup (parked : Parked s items) {frame : Frame} {rest : List Frame} {c : Child}
    (stack : s.stack = frame :: rest) (own : Frame.child frame = some c) :
    ∃ items, Parked (waitup (some c) { s with stack := rest }) items := by
  have before : pending s = c :: pending { s with stack := rest } := by
    simp [pending, stack, own]
  have member : c ∈ pending s := by simp [before]
  have below : ∀ frame ∈ rest, ∀ retstatus, frame ≠ .waiting retstatus := by
    simpa [stack] using parked.below
  have apart := parked.apart
  rw [before] at apart
  obtain ⟨unlike, apart⟩ := List.nodup_cons.mp apart
  have other : ∀ d ∈ pending { s with stack := rest }, d.pid ≠ c.pid :=
    fun d inside same => unlike (List.mem_map.mpr ⟨d, inside, same⟩)
  have later : ∀ d ∈ pending { s with stack := rest }, d ∈ pending s := by
    intro d inside
    rw [before]
    exact List.mem_cons_of_mem _ inside
  rcases parked.holds.find (fun p => p.pid = c.pid) with ⟨missing, fails⟩ | ⟨p, x, first, last, found, split, passes, -, removed⟩
  · have alive : c ∈ s.live := by
      rcases parked.settled c member with ⟨alive, -⟩ | ⟨status, only, -⟩
      · exact alive
      · rw [List.filter_eq_nil_iff.mpr (fun p inside => by simpa using fails p inside)] at only
        cases only
    refine ⟨items, ?_⟩
    have blocked : waitup (some c) { s with stack := rest } = { s with stack := .waiting (some c) :: rest } := by
      simp only [waitup, missing]
    have same : pending { s with stack := .waiting (some c) :: rest } = pending s := before.symm
    rw [blocked]
    refine ⟨parked.holds, same ▸ parked.apart, same ▸ parked.settled, same ▸ parked.alone, same ▸ parked.unslotted, ?_, below,
      same ▸ parked.once, parked.distinct, parked.old, parked.own⟩
    intro d top
    obtain rfl : c = d := by simpa using top
    exact alive
  · refine ⟨first ++ last, ?_⟩
    have took : waitup (some c) { s with stack := rest } = { s with
        stack := rest, processes := remove p s.processes, delivered := s.delivered ++ [(c.id, x.status)] } := by
      simp only [waitup, found]
    rw [took]
    have key : x.pid = c.pid := by simpa using passes
    obtain ⟨status, only, reported⟩ : ∃ status, items.filter (fun p => p.pid = c.pid) = [⟨c.pid, status⟩] ∧
        (c.id, status) ∈ s.reported := by
      refine (parked.settled c member).resolve_left ?_
      rintro ⟨-, free⟩
      exact free x (by simp [split]) key
    have mine : (c.id, x.status) ∈ s.reported := by
      have : x ∈ items.filter (fun p => p.pid = c.pid) := List.mem_filter.mpr ⟨by simp [split], by simpa using key⟩
      rw [only, List.mem_singleton] at this
      rw [this]
      exact reported
    refine ⟨removed, apart, ?_, fun d inside => parked.alone d (later d inside), fun d inside => parked.unslotted d (later d inside),
      ?_, ?_, ?_, parked.distinct, parked.old, ?_⟩
    · intro d inside
      rcases parked.settled d (later d inside) with ⟨alive, free⟩ | ⟨status, only, reported⟩
      · refine .inl ⟨alive, fun p member => free p ?_⟩
        rw [split]
        exact mem_middle.mpr (.inr member)
      · refine .inr ⟨status, ?_, reported⟩
        rw [← only, split]
        have skip : ¬ x.pid = d.pid := fun same => other d inside (same.symm.trans key)
        simp [List.filter_append, skip]
    · intro d top
      exact absurd rfl (below _ (List.mem_of_mem_head? top) (some d))
    · exact fun frame inside => below frame (List.mem_of_mem_tail inside)
    · have once := parked.once
      rw [before] at once
      refine List.Perm.trans ?_ once
      show ((pending { s with stack := rest }).map Child.id ++ (s.delivered ++ [(c.id, x.status)]).map Prod.fst).Perm _
      rw [List.map_append, ← List.append_assoc]
      exact List.perm_append_singleton _ _
    · intro d inside
      rcases List.mem_append.mp inside with inside | inside
      · exact parked.own d inside
      · rw [List.mem_singleton.mp inside]
        exact mine

section Reap

variable (waits : Waits flags s) (parked : Parked s items) {rest : List Frame} {retstatus : Option Child} {x : Child} (status : Int)
  (top : s.stack = .waiting retstatus :: rest) (alive : x ∈ s.live)

include parked in
theorem settled_report {c : Child} (member : c ∈ pending s) (other : c ≠ x) :
    Settled (s.live.erase x) (s.reported ++ [(x.id, status)]) items c := by
  rcases parked.settled c member with ⟨lives, free⟩ | ⟨status, only, reported⟩
  · exact .inl ⟨(List.mem_erase_of_ne other).mpr lives, free⟩
  · exact .inr ⟨status, only, List.mem_append_left _ reported⟩

include parked top in
theorem below_rest : ∀ frame ∈ rest, ∀ retstatus, frame ≠ .waiting retstatus := by
  simpa [top] using parked.below

include waits parked top alive in
/-- The child waited for is reported itself. -/
theorem parked_delivered {c : Child} (own : retstatus = some c) (same : c.pid = x.pid) :
    Kernel { s with live := s.live.erase x, reported := s.reported ++ [(x.id, status)] } ∧
    Parked { s with
      stack := rest, live := s.live.erase x, reported := s.reported ++ [(x.id, status)],
      delivered := s.delivered ++ [(c.id, status)] } items := by
  subst own
  have lives : c ∈ s.live := parked.top c (by simp [top])
  obtain rfl : c = x := waits.kernel.same lives alive same
  have before : pending s = c :: pending { s with stack := rest } := by simp [pending, top, Frame.child]
  have member : c ∈ pending s := by simp [before]
  have apart := parked.apart
  rw [before] at apart
  obtain ⟨unlike, apart⟩ := List.nodup_cons.mp apart
  have later : ∀ d ∈ pending { s with stack := rest }, d ∈ pending s ∧ d ≠ c := by
    intro d inside
    refine ⟨before ▸ List.mem_cons_of_mem _ inside, ?_⟩
    rintro rfl
    exact unlike (List.mem_map_of_mem inside)
  have below := below_rest parked top
  refine ⟨kernel_reap waits.kernel alive status (parked.unslotted c member lives), parked.holds, apart, ?_, ?_, ?_, ?_, ?_, ?_,
    parked.distinct, parked.old, ?_⟩
  · exact fun d inside => settled_report parked status (later d inside).1 (later d inside).2
  · exact fun d inside y lives => parked.alone d (later d inside).1 y (List.mem_of_mem_erase lives)
  · exact fun d inside lives => parked.unslotted d (later d inside).1 (List.mem_of_mem_erase lives)
  · intro d head
    exact absurd rfl (below _ (List.mem_of_mem_head? head) (some d))
  · exact fun frame inside => below frame (List.mem_of_mem_tail inside)
  · have once := parked.once
    rw [before] at once
    refine List.Perm.trans ?_ once
    show ((pending { s with stack := rest }).map Child.id ++ (s.delivered ++ [(c.id, status)]).map Prod.fst).Perm _
    rw [List.map_append, ← List.append_assoc]
    exact List.perm_append_singleton _ _
  · intro d inside
    rcases List.mem_append.mp inside with inside | inside
    · exact List.mem_append_left _ (parked.own d inside)
    · exact List.mem_append_right _ inside

include waits parked top alive in
/-- A child is reported that neither the caller nor a slot knows. -/
theorem parked_rogue (unlike : retstatus.map Child.pid ≠ some x.pid) (free : ∀ e ∈ s.events, e.pid ≠ x.pid) :
    Parked { s with
      stack := .waiting retstatus :: rest, live := s.live.erase x, reported := s.reported ++ [(x.id, status)],
      processes := push ⟨x.pid, status⟩ s.processes } (⟨x.pid, status⟩ :: items) := by
  have same : pending { s with stack := .waiting retstatus :: rest } = pending s := by simp [pending, top]
  refine ⟨parked.holds.push _, same ▸ parked.apart, ?_, ?_, ?_, ?_, below_rest parked top, same ▸ parked.once, parked.distinct,
    parked.old, fun d inside => List.mem_append_left _ (parked.own d inside)⟩
  · intro c member
    have inner : c ∈ pending s := same ▸ member
    by_cases own : c = x
    · subst own
      have none := parked.alive waits.kernel inner alive
      refine .inr ⟨status, ?_, by simp⟩
      have rest : items.filter (fun p => p.pid = c.pid) = [] :=
        List.filter_eq_nil_iff.mpr fun p inside => by simpa using none p inside
      simp [rest]
    · have other : x.pid ≠ c.pid := by
        intro equal
        rcases parked.alone c inner x alive equal with rfl | ⟨e, inside, taken⟩
        · exact own rfl
        · exact free e inside taken
      have report : Settled (s.live.erase x) (s.reported ++ [(x.id, status)]) items c := settled_report parked status inner own
      rcases report with ⟨lives, none⟩ | ⟨status, only, reported⟩
      · refine .inl ⟨lives, ?_⟩
        intro p inside
        rcases List.mem_cons.mp inside with rfl | inside
        · exact other
        · exact none p inside
      · refine .inr ⟨status, ?_, reported⟩
        rw [List.filter_cons_of_neg (by simpa using other)]
        exact only
  · exact fun c member y lives => parked.alone c (same ▸ member) y (List.mem_of_mem_erase lives)
  · exact fun c member lives => parked.unslotted c (same ▸ member) (List.mem_of_mem_erase lives)
  · intro c head
    obtain rfl : retstatus = some c := by simpa using head
    refine (List.mem_erase_of_ne ?_).mpr (parked.top c (by simp [top]))
    rintro rfl
    exact unlike rfl

include waits parked top alive in
/-- A job is reported: its slot is free again. -/
theorem parked_job {before after : List (RunEvent J)} {e : RunEvent J} (split : s.events = before ++ e :: after)
    (own : e.pid = x.pid) (frame : Frame) (child : Frame.child frame = retstatus)
    (blocks : ∀ c, frame = .waiting (some c) → retstatus.map Child.pid ≠ some x.pid) :
    Parked { s with
      stack := frame :: rest, live := s.live.erase x, reported := s.reported ++ [(x.id, status)],
      events := before ++ { e with pid := -1 } :: after } items := by
  have same : pending { s with stack := frame :: rest } = pending s := by
    simp only [pending, top]
    rw [List.filterMap_cons, List.filterMap_cons, child]
    rfl
  have positive := waits.steady.positive
  have other : ∀ c ∈ pending s, c ≠ x := by
    rintro c member rfl
    exact parked.unslotted c member alive e (by simp [split]) own
  refine ⟨parked.holds, same ▸ parked.apart, ?_, ?_, ?_, ?_, below_rest parked top, same ▸ parked.once, parked.distinct, parked.old,
    fun d inside => List.mem_append_left _ (parked.own d inside)⟩
  · exact fun c member => settled_report parked status (same ▸ member) (other c (same ▸ member))
  · intro c member y lives equal
    have here := List.mem_of_mem_erase lives
    refine (parked.alone c (same ▸ member) y here equal).imp id ?_
    rintro ⟨f, inside, taken⟩
    refine ⟨f, mem_middle.mpr (.inr ?_), taken⟩
    rw [split] at inside
    refine (mem_middle.mp inside).resolve_left ?_
    rintro rfl
    have distinct : y ≠ x := fun equal => (waits.kernel.pids.of_map.not_mem_erase) (equal ▸ lives)
    exact distinct (waits.kernel.same here alive (taken.symm.trans own))
  · intro c member lives f inside
    rcases mem_middle.mp inside with rfl | inside
    · have := positive c (List.mem_of_mem_erase lives)
      show (-1 : Int) ≠ c.pid
      omega
    · exact parked.unslotted c (same ▸ member) (List.mem_of_mem_erase lives) f (split ▸ mem_middle.mpr (.inr inside))
  · intro c head
    have blocked : frame = .waiting (some c) := by simpa using head
    have waiter : retstatus = some c := by rw [← child, blocked]; rfl
    refine (List.mem_erase_of_ne ?_).mpr (parked.top c (by simp [top, waiter]))
    rintro rfl
    exact blocks c blocked (by simp [waiter])

end Reap

theorem parked_pop (parked : Parked s items) {frame : Frame} {rest : List Frame} (stack : s.stack = frame :: rest)
    (nobody : Frame.child frame = none) : Parked { s with stack := rest } items := by
  have same : pending { s with stack := rest } = pending s := by simp [pending, stack, nobody]
  have below := parked.below
  rw [stack, List.tail_cons] at below
  refine ⟨parked.holds, same ▸ parked.apart, same ▸ parked.settled, same ▸ parked.alone, same ▸ parked.unslotted, ?_, ?_,
    same ▸ parked.once, parked.distinct, parked.old, parked.own⟩
  · intro c head
    exact absurd rfl (below _ (List.mem_of_mem_head? head) (some c))
  · exact fun frame inside => below frame (List.mem_of_mem_tail inside)

theorem nproc_waits (waits : Waits flags s) (parked : Parked s items) :
    Kernel (nproc flags s) ∧ Parked (nproc flags s) items := by
  obtain ⟨steady, ⟨pids, ids, bounded, running, single⟩, -⟩ := waits
  obtain ⟨n, grown⟩ : ∃ n, (nproc flags s).events = s.events ++ List.replicate n ⟨0, none⟩ := ⟨_, rfl⟩
  refine ⟨⟨pids, ids, bounded, ?_, ?_⟩, parked.holds, parked.apart, parked.settled, ?_, ?_, parked.top, parked.below, parked.once,
    parked.distinct, parked.old, parked.own⟩
  · intro e member busy
    rw [grown] at member
    rcases List.mem_append.mp member with member | member
    · exact running e member busy
    · rw [List.eq_of_mem_replicate member] at busy
      simp at busy
  · rw [grown, List.map_append, List.filter_append, List.map_replicate]
    simpa using single
  · intro c member x alive same
    refine (parked.alone c member x alive same).imp id ?_
    rintro ⟨e, inside, own⟩
    exact ⟨e, by rw [grown]; exact List.mem_append_left _ inside, own⟩
  · intro c member alive e inside
    rw [grown] at inside
    rcases List.mem_append.mp inside with inside | inside
    · exact parked.unslotted c member alive e inside
    · rw [List.eq_of_mem_replicate inside]
      have := steady.positive c alive
      show (0 : Int) ≠ c.pid
      omega

theorem report_waits (waits : Waits flags s) (parked : Parked s items) {retstatus : Option Child} {rest : List Frame}
    (top : s.stack = .waiting retstatus :: rest) {x : Child} (alive : x ∈ s.live) (failed : Bool) :
    Kernel (reap flags x failed retstatus { s with stack := rest }) ∧
      ∃ items, Parked (reap flags x failed retstatus { s with stack := rest }) items := by
  have positive := waits.steady.positive x alive
  unfold reap
  dsimp only
  split
  · rename_i same
    obtain ⟨c, own, same⟩ := Option.map_eq_some_iff.mp same
    obtain ⟨one, two⟩ := parked_delivered waits parked (if failed then 1 else 0) top alive own same
    subst own
    exact ⟨one.carry _ _ _ _ _ _ _ _ _ _, items, two⟩
  · rename_i unlike
    split
    · rename_i none
      have free : ∀ e ∈ s.events, e.pid ≠ x.pid := by
        intro e member
        simpa using List.findIdx?_eq_none_iff.mp none e member
      have one := kernel_reap waits.kernel alive (if failed then 1 else 0) free
      exact ⟨one.carry _ _ _ _ _ _ _ _ _ _, _, parked_rogue waits parked _ top alive unlike free⟩
    · rename_i slot found
      obtain ⟨before, e, after, split, own, freed⟩ := pidslot_some found
      dsimp only at split freed
      rw [freed]
      have idle : Kernel { s with events := before ++ { e with pid := -1 } :: after } := 
        kernel_idle waits.kernel split (show (-1 : Int) ≤ 0 by decide)
      have one := kernel_reap idle alive (if failed then 1 else 0) (kernel_free waits.kernel split own positive)
      split
      · have two := parked_job waits parked (if failed then 1 else 0) top alive split own (.waiting retstatus) rfl
          (fun _ _ => unlike)
        exact ⟨one.carry _ _ _ _ _ _ _ _ _ _, items, two.carry _ _ _ _ _ _⟩
      · have two := parked_job waits parked (if failed then 1 else 0) top alive split own (.updating retstatus) rfl
          (fun _ => by simp)
        exact ⟨one.carry _ _ _ _ _ _ _ _ _ _, items, two.carry _ _ _ _ _ _⟩

theorem refill_leave (rest : List Frame) (pid : Int) :
    refill flags pid { s with stack := rest } = { refill flags pid s with stack := rest } := by
  unfold refill
  dsimp only
  split
  · simp only [sched, nextslot, fork]
    split
    · rfl
    · split
      · rfl
      · split <;> rfl
  · rfl

theorem endup_waits (waits : Waits flags s) (parked : Parked s items) (going : s.ended = none) {retstatus : Option Child}
    {rest : List Frame} (top : s.stack = .updating retstatus :: rest) {pid : Int} (fresh : ∀ child ∈ s.live, child.pid ≠ pid) :
    Kernel (endup flags pid retstatus { s with stack := rest }) ∧
      ∃ items, Parked (endup flags pid retstatus { s with stack := rest }) items := by
  have counts := waits.steady.counts
  obtain ⟨kernel, refilled⟩ := refill_waits counts waits.kernel parked waits.steady.positive fresh
  have stack : (refill flags pid s).stack = .updating retstatus :: rest := (refill_stack counts pid).1.trans top
  rw [endup_eq (waits.steady.leave top) going, refill_leave]
  cases retstatus with
  | none => exact ⟨kernel.carry _ _ _ _ _ _ _ _ _ _, items, parked_pop refilled stack rfl⟩
  | some c =>
      refine ⟨?_, parked_waitup refilled stack rfl⟩
      unfold resume waitup
      dsimp only
      split <;> exact kernel.carry _ _ _ _ _ _ _ _ _ _

theorem waits_moves {act : Act J} (waits : Waits flags s) (going : s.ended = none) (distinct : Distinct s act)
    (moves : Moves flags s act t) : Waits flags t := by
  obtain ⟨items, parked⟩ := waits.parked
  suffices both : Kernel t ∧ ∃ items, Parked t items from ⟨steady_moves waits.steady going moves, both.1, both.2⟩
  cases moves with
  | nproc _ =>
      obtain ⟨kernel, parked⟩ := nproc_waits waits parked
      exact ⟨kernel, items, parked⟩
  | run j pid _ least _ fresh =>
      have kernel := waits.kernel.carry (s.jobs ++ [j]) s.nrunning s.nproclimit s.ended (s.submitted ++ [j]) s.started
        s.processes s.stack s.awaited s.delivered
      have parked := parked.carry (s.jobs ++ [j]) s.nrunning s.nproclimit s.ended (s.submitted ++ [j]) s.started
      obtain ⟨kernel, parked⟩ := refill_waits (waits.steady.submit least j) kernel parked waits.steady.positive fresh
      exact ⟨kernel, items, parked⟩
  | pipecmd pid free positive fresh =>
      exact ⟨(kernel_fork waits.kernel fresh).carry _ _ _ _ _ _ _ _ _ _, items,
        parked_pipecmd parked waits.kernel positive fresh free distinct⟩
  | stray pid _ fresh => exact ⟨kernel_fork waits.kernel fresh, items, parked_stray parked distinct⟩
  | wait free =>
      refine ⟨waits.kernel.carry _ _ _ _ _ _ _ _ _ _, items, parked.holds, parked.apart, parked.settled, parked.alone,
        parked.unslotted, ?_, parked.below_push free, parked.once, parked.distinct, parked.old, parked.own⟩
      intro c head
      simp [waitup] at head
  | await c rest top =>
      refine ⟨?_, parked_waitup parked top rfl⟩
      unfold waitup
      dsimp only
      split <;> exact waits.kernel.carry _ _ _ _ _ _ _ _ _ _
  | report pid failed x retstatus rest top alive _ => exact report_waits waits parked top alive failed
  | nochild rest top => exact ⟨waits.kernel.carry _ _ _ _ _ _ _ _ _ _, items, parked_pop parked top rfl⟩
  | stuck _ => exact ⟨waits.kernel.carry _ _ _ _ _ _ _ _ _ _, items, parked.carry _ _ _ _ _ _⟩
  | endup pid retstatus rest top _ fresh => exact endup_waits waits parked going top fresh

/-- What the scheduler promises in every state of a run. -/
structure Sound (s : State J) : Prop where
  /-- `nrunning` counts the slots with a positive pid, and there are never too many. -/
  counted : s.nrunning = s.events.countP fun e => 0 < e.pid
  committed : s.nrunning ≤ s.nproclimit
  slots : s.ended ≠ some .outOfSlots
  /-- A job waits only while all places are taken; a call of `waitup` that is
  inside `update` has still to fill the place it has freed. -/
  queued : s.ended = none → s.jobs ≠ [] → s.nrunning + updates s = s.nproclimit
  full : s.ended = none → s.jobs ≠ [] → (∀ retstatus, .updating retstatus ∉ s.stack) → s.nrunning = s.nproclimit
  /-- The jobs are started in the order of the calls of `run`, each of them once. -/
  started : s.started <+: s.submitted
  fifo : s.ended = none → s.started ++ s.jobs = s.submitted
  drained : s.ended = none → s.nrunning = 0 → s.stack = [] → s.started = s.submitted
  /-- A job that runs is a child the kernel will report. -/
  running : ∀ e ∈ s.events, 0 < e.pid → ∃ child ∈ s.live, child.pid = e.pid
  /-- A child made by `pipecmd` is either still waited for or its status has been
  delivered, once, and it is the one reported for that child. -/
  once : ((pending s).map Child.id ++ s.delivered.map Prod.fst).Perm s.awaited ∧ s.awaited.Nodup
  own : (∀ d ∈ s.delivered, d ∈ s.reported) ∧ (s.reported.map Prod.fst).Nodup
  blocked : ∀ c, s.stack.head? = some (.waiting (some c)) → c ∈ s.live

theorem Waits.sound (waits : Waits flags s) : Sound s := by
  obtain ⟨⟨⟨room, limited, counted, committed, unforked, fifo, started, slots⟩, queued, positive⟩, kernel, items, parked⟩ := waits
  refine ⟨counted, by omega, slots, queued, ?_, started, fifo, ?_, ?_, ⟨parked.once, parked.distinct⟩, ?_, parked.top⟩
  · intro going waits calm
    have none : updates s = 0 := by
      rw [updates, List.countP_eq_zero]
      intro frame member busy
      cases frame with
      | piped c => simp [Frame.busy] at busy
      | waiting c => simp [Frame.busy] at busy
      | updating c => exact calm c member
    have full := queued going waits
    rw [none] at full
    simpa using full
  · intro going idle quiet
    have none : updates s = 0 := by simp [updates, quiet]
    have empty : s.jobs = [] := by
      by_contra waits
      have full := queued going waits
      rcases limited with ⟨-, empty⟩ | ⟨least, -⟩
      · exact waits empty
      · omega
    simpa [empty] using fifo going
  · intro e member busy
    exact List.mem_map.mp (kernel.running e member busy)
  · exact ⟨parked.own, (List.nodup_append.mp kernel.ids).2.1⟩

/-- In every run of the scheduler in which no pid still parked is used again
the scheduler keeps its promises. -/
theorem scheduler_sound (flags : Flags) (s : State J) (run : Runs (step flags) Distinct initial s) : Sound s := by
  have waits : Waits flags s := by
    refine run.invariant waits_initial ?_
    intro before after action holds distinct moves
    obtain ⟨going, moves⟩ := step_moves moves
    exact waits_moves holds going distinct moves
  exact waits.sound

/-- One place, two jobs, and a child that is reported while a job's end is
being dealt with. -/
theorem scheduler_sound_reentered : ∃ s : State Nat,
    follow (step ⟨false, false, false, some 1⟩) Distinct initial
      [.nproc, .run 1 5, .run 2 6, .pipecmd 6, .await, .report 5 false, .pipecmd 7, .await, .report 6 true, .report 7 false,
        .endup 8] = some s ∧
    s.started = [1, 2] ∧ s.delivered = [(2, 0), (1, 1)] ∧ Sound s := by
  have done : (follow (step ⟨false, false, false, some 1⟩) Distinct (initial : State Nat)
      [.nproc, .run 1 5, .run 2 6, .pipecmd 6, .await, .report 5 false, .pipecmd 7, .await, .report 6 true, .report 7 false,
        .endup 8]).map (fun s => (s.started, s.delivered)) = some ([1, 2], [(2, 0), (1, 1)]) := by decide
  obtain ⟨s, run, both⟩ := Option.map_eq_some_iff.mp done
  simp only [Prod.mk.injEq] at both
  exact ⟨s, run, both.1, both.2, scheduler_sound _ s (Runs.start.extend run)⟩

/-- A child nobody waits for is parked under pid 7. A later child with that pid
is given its status, before it has ended itself. -/
theorem stale_status_delivered : ∃ s : State Nat,
    Runs (step ⟨false, false, false, some 1⟩) (fun _ _ => True) initial s ∧ (2, 1) ∈ s.delivered ∧
      ⟨2, 7⟩ ∈ s.live ∧ ¬ Sound s := by
  have done : (follow (step ⟨false, false, false, some 1⟩) (fun _ _ => True) (initial : State Nat)
      [.stray 7, .pipecmd 8, .await, .report 7 true, .report 8 false, .pipecmd 7, .await]).map
      (fun s => (s.delivered, s.reported, s.live)) = some ([(1, 0), (2, 1)], [(0, 1), (1, 0)], [⟨2, 7⟩]) := by decide
  obtain ⟨s, run, both⟩ := Option.map_eq_some_iff.mp done
  simp only [Prod.mk.injEq] at both
  obtain ⟨delivered, reported, live⟩ := both
  refine ⟨s, Runs.start.extend run, by simp [delivered], by simp [live], fun sound => ?_⟩
  have known := sound.own.1 (2, 1) (by simp [delivered])
  simp [reported] at known

end Goken.Proofs.MkWait
