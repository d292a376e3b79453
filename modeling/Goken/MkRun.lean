import Goken.Lib.DList

/-! The job scheduler of mk (`run.c`). Children are forked by `execsh` and
`pipecmd` and reported one at a time by `xwaitfor`; the kernel chooses the pid
of each and the order of the reports. `waitup` is re-entered: `update` compares
with `pcmp`, which waits for a child of its own. The calls of `waitup` that are
under way form a stack. -/

namespace Goken.MkRun
open Lib.DList

/-- The options, and the number `atoi` reads in the variable NPROC. -/
structure Flags where
  nflag : Bool
  tflag : Bool
  kflag : Bool
  nprocs : Option Int

/-- A forked process. Pids are used again; `id` tells the processes apart. -/
structure Child where
  id : Nat
  pid : Int
  deriving Repr, DecidableEq

structure RunEvent (J : Type) where
  pid : Int
  job : Option J
  deriving Repr, DecidableEq

structure Process where
  pid : Int
  status : Int
  deriving Repr, DecidableEq

/-- What a caller of `waitup` is in the middle of: it has a child from `pipecmd`
to wait for, it is blocked in `xwaitfor`, or it is in `update` for a job that
has ended. -/
inductive Frame where
  | piped (child : Child)
  | waiting (retstatus : Option Child)
  | updating (retstatus : Option Child)
  deriving Repr, DecidableEq

inductive Ended where
  | exit
  | outOfSlots
  deriving Repr, DecidableEq

structure State (J : Type) where
  jobs : List J
  events : List (RunEvent J)
  nrunning : Int
  nproclimit : Int
  processes : Heap Process
  stack : List Frame
  ended : Option Ended
  /-- The children that have not been reported, and how many were ever forked. -/
  live : List Child
  forked : Nat
  /-- The history: jobs given to `run` and started by `sched`; children made by
  `pipecmd`, children reported, statuses stored through `retstatus`. -/
  submitted : List J
  started : List J
  awaited : List Nat
  reported : List (Nat × Int)
  delivered : List (Nat × Int)
  deriving Repr, DecidableEq

def initial {J : Type} : State J where
  jobs := []
  events := []
  nrunning := 0
  nproclimit := 0
  processes := empty
  stack := []
  ended := none
  live := []
  forked := 0
  submitted := []
  started := []
  awaited := []
  reported := []
  delivered := []

variable {J : Type}

def nproc (flags : Flags) (s : State J) : State J :=
  let limit := flags.nprocs.getD s.nproclimit
  let limit := if limit < 1 then 1 else limit
  { s with
    nproclimit := limit
    events := s.events ++ List.replicate (limit.toNat - s.events.length) ⟨0, none⟩ }

def nextslot (s : State J) : Option Nat := (s.events.take s.nproclimit.toNat).findIdx? fun e => e.pid ≤ 0

def pidslot (pid : Int) (s : State J) : Option Nat := s.events.findIdx? fun e => e.pid = pid

/-- The kernel forks a child under the given pid. -/
def fork (pid : Int) (s : State J) : State J :=
  { s with live := ⟨s.forked, pid⟩ :: s.live, forked := s.forked + 1 }

def sched (flags : Flags) (pid : Int) (s : State J) : State J :=
  match s.jobs with
  | [] => s
  | j :: rest =>
      match nextslot s with
      | none => { s with jobs := rest, ended := some .outOfSlots }
      | some slot =>
          let s := { s with
            jobs := rest
            started := s.started ++ [j]
            events := s.events.modify slot fun e => { e with job := some j } }
          if flags.nflag || flags.tflag then s
          else { fork pid s with
            events := s.events.modify slot fun e => { e with pid := pid }
            nrunning := s.nrunning + 1 }

def run (flags : Flags) (j : J) (pid : Int) (s : State J) : State J :=
  let s := { s with jobs := s.jobs ++ [j], submitted := s.submitted ++ [j] }
  if s.nrunning < s.nproclimit then sched flags pid s else s

/-- `waitup` up to `xwaitfor`: a parked status is delivered at once. -/
def waitup (retstatus : Option Child) (s : State J) : State J :=
  match retstatus with
  | none => { s with stack := .waiting none :: s.stack }
  | some child =>
      match find (fun p : Process => p.pid = child.pid) s.processes with
      | some (p, process) =>
          { s with processes := remove p s.processes, delivered := s.delivered ++ [(child.id, process.status)] }
      | none => { s with stack := .waiting (some child) :: s.stack }

/-- `waitup` from `xwaitfor`, which reports `child`, up to `update` or the next
`xwaitfor`. The status is the text `buf` of the C code: empty or not. -/
def reap (flags : Flags) (child : Child) (failed : Bool) (retstatus : Option Child) (s : State J) : State J :=
  let status := if failed then 1 else 0
  let s := { s with live := s.live.erase child, reported := s.reported ++ [(child.id, status)] }
  if (retstatus.map Child.pid) = some child.pid then
    { s with delivered := s.delivered ++ (retstatus.map fun waiter => (waiter.id, status)).toList }
  else
    match pidslot child.pid s with
    | none => { s with processes := push ⟨child.pid, status⟩ s.processes, stack := .waiting retstatus :: s.stack }
    | some slot =>
        let s := { s with
          nrunning := s.nrunning - 1
          events := s.events.modify slot fun e => { e with pid := -1 } }
        if failed && !flags.kflag then { s with jobs := [], ended := some .exit, stack := .waiting retstatus :: s.stack }
        else { s with stack := .updating retstatus :: s.stack }

/-- `waitup` from the end of `update` on. The callers that pass a `retstatus`
call it again until the child's status is there. -/
def endup (flags : Flags) (pid : Int) (retstatus : Option Child) (s : State J) : State J :=
  let s := if s.nrunning < s.nproclimit then sched flags pid s else s
  match retstatus with
  | none => s
  | some child => if s.ended = none then waitup (some child) s else s

inductive Act (J : Type) where
  | nproc
  | run (j : J) (pid : Int)
  | pipecmd (pid : Int)
  | stray (pid : Int)
  | wait
  | await
  | report (pid : Int) (failed : Bool)
  | nochild (echildok : Bool)
  | endup (pid : Int)
  deriving Repr, DecidableEq

/-- mk is in code of its own and not blocked in `xwaitfor`. -/
def ready (s : State J) : Bool :=
  s.ended.isNone && match s.stack with
    | .waiting _ :: _ => false
    | _ => true

/-- The kernel gives no pid twice to children it has not yet reported. -/
def unused (pid : Int) (s : State J) : Bool := 0 < pid && s.live.all fun child => child.pid ≠ pid

def step (flags : Flags) (s : State J) : Act J → Option (State J)
  -- `mk` calls `nproc`, and then `run` through `work` and `dorecipe`
  | .nproc => if ready s && s.stack.isEmpty then some (nproc flags s) else none
  | .run j pid =>
      if ready s && s.stack.isEmpty && 0 < s.nproclimit && unused pid s then some (run flags j pid s) else none
  -- `pcmp` and the include of `parse`: the child is waited for later
  | .pipecmd pid =>
      if ready s && unused pid s then
        some { fork pid s with stack := .piped ⟨s.forked, pid⟩ :: s.stack, awaited := s.awaited ++ [s.forked] }
      else none
  -- `bquote` forks a child that nobody waits for
  | .stray pid => if ready s && unused pid s then some (fork pid s) else none
  | .wait => if ready s then some (waitup none s) else none
  | .await =>
      match s.stack with
      | .piped child :: rest => if ready s then some (waitup (some child) { s with stack := rest }) else none
      | _ => none
  | .report pid failed =>
      match s.stack, s.live.find? fun child => child.pid = pid with
      | .waiting retstatus :: rest, some child =>
          if s.ended.isNone then some (reap flags child failed retstatus { s with stack := rest }) else none
      | _, _ => none
  | .nochild echildok =>
      match s.stack with
      | .waiting retstatus :: rest =>
          if s.ended.isNone && s.live.isEmpty then
            if echildok && retstatus.isNone then some { s with stack := rest }
            else some { s with ended := some .exit }
          else none
      | _ => none
  | .endup pid =>
      match s.stack with
      | .updating retstatus :: rest =>
          if ready s && unused pid s then some (endup flags pid retstatus { s with stack := rest }) else none
      | _ => none

end Goken.MkRun
