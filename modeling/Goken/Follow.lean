import Goken.Lib.Arm
import Mathlib.Logic.Function.Basic

/-! Branch reordering in 5l: `brchain`, `relinv`, `follow` and `xfol`
(5l/pass.c). The pass relinks the instructions in place, so the model is a heap
of `Prog`s. Recursion and `goto loop` take fuel; running out of it is `none`. -/

namespace Goken.Follow
open Lib.Arm

/-- The opcodes that the pass tells apart. -/
inductive As where
  | ATEXT | AB | ABL | ABcc (cond : Cond) | ABCASE | ARET | ARFE | ANOP | AOTHER
  deriving DecidableEq, Repr

/-- A `Prog`. `scond` is `none` for `COND_ALWAYS`, `mark` is the bit `FOLL`, and
`ins` is all the rest, which is only copied. -/
structure Prog (α : Type) where
  as : As
  scond : Option Cond
  ins : α
  link : Option Nat
  cond : Option Nat
  mark : Bool

structure State (α : Type) where
  heap : Nat → Prog α
  next : Nat
  lastp : Nat

variable {α : Type}

namespace State

def set (a : Nat) (p : Prog α) (s : State α) : State α := { s with heap := Function.update s.heap a p }

/-- `p->mark |= FOLL`. -/
def foll (a : Nat) (s : State α) : State α := s.set a { s.heap a with mark := true }

/-- `prg()`, filled in. -/
def prg (p : Prog α) (s : State α) : State α := { s with heap := Function.update s.heap s.next p, next := s.next + 1 }

/-- `lastp->link = r; lastp = r`. -/
def append (r : Nat) (s : State α) : State α :=
  { s.set s.lastp { s.heap s.lastp with link := some r } with lastp := r }

end State

def brchain (heap : Nat → Prog α) : Nat → Option Nat → Option Nat
  | 0, _ => none
  | _ + 1, none => none
  | i + 1, some p => if (heap p).as ≠ .AB then some p else brchain heap i (heap p).cond

def relinv : As → As
  | .ABcc cond => .ABcc cond.inv
  | a => a

/-- What `xfol` takes for the end of a run of instructions. -/
def ends (p : Prog α) : Bool := p.as == .AB || (p.as == .ARET && p.scond == none) || p.as == .ARFE

/-- The loop over at most four placed instructions that looks for a place to
stop copying; the outer `none` is lack of fuel. -/
def scan (s : State α) : Nat → Nat → Nat → Option (Option Nat)
  | 0, _, _ => none
  | fuel + 1, i, q =>
    if 4 ≤ i ∨ q = s.lastp then some none
    else
      let n := s.heap q
      let further := fun i => match n.link with
        | some r => scan s fuel i r
        | none => none
      if n.as = .ANOP then further i
      else if ends n then some (some q)
      else
        match n.cond with
        | none => further (i + 1)
        | some t =>
          if (s.heap t).mark then further (i + 1)
          else if n.as = .ABcc .EQ ∨ n.as = .ABcc .NE then some (some q)
          else further (i + 1)

/-- The copying loop: the instructions from `p` to `q` again, at the end. -/
def copyRun (q : Nat) : Nat → Nat → State α → Option (State α)
  | 0, _, _ => none
  | fuel + 1, p, s =>
    let r := s.next
    let copied := (s.prg { s.heap p with mark := true }).append r
    if p = q then some copied
    else
      match (s.heap p).link with
      | some p => copyRun q fuel p copied
      | none => none

/-- A branch to something that is already placed. -/
def glue [Inhabited α] (p : Nat) (s : State α) : State α :=
  (s.prg ⟨.AB, none, default, none, some p, true⟩).append s.next

/-- The part of the main case of `xfol` before its recursive calls: `p` is placed,
and its two successors change places if the first is already there. -/
def straighten (p : Nat) (s : State α) : State α :=
  let n := s.heap p
  if n.as ≠ .ATEXT ∧ n.as ≠ .ABCASE then
    match brchain s.heap 20 n.link with
    | some q => if (s.heap q).mark then s.set p { n with as := relinv n.as, link := n.cond, cond := some q } else s
    | none => s
  else s

/-- The case that `p` is already placed: a run that is copied, or a branch.
`xfol` is the recursive call. -/
def joined [Inhabited α] (xfol : Nat → State α → Option (State α)) (p : Nat) (s : State α) : Option (State α) :=
  match scan s s.next 0 p with
  | none => none
  | some none => some (glue p s)
  | some (some q) =>
    match copyRun q s.next p s with
    | none => none
    | some s =>
      let n := s.heap q
      let r := s.lastp
      if ends n then some s
      else
        let a : As := if n.as = .ABcc .NE then .ABcc .EQ else .ABcc .NE
        let s := s.set r { s.heap r with as := a, cond := n.link, link := n.cond }
        match n.cond with
        | none => none
        | some t => if (s.heap t).mark then some s else xfol t s

/-- The rest of the main case for an instruction that branches: what is behind it, then its
target. -/
def branched (xfol : Option Nat → State α → Option (State α)) (p : Nat) (s : State α) : Option (State α) :=
  match xfol (s.heap p).link s with
  | none => none
  | some s =>
    match (brchain s.heap 20 (s.heap p).cond).or (s.heap p).cond with
    | none => none
    | some q => if (s.heap q).mark then some (s.set p { s.heap p with cond := some q }) else xfol (some q) s

def xfol [Inhabited α] : Nat → Option Nat → State α → Option (State α)
  | 0, _, _ => none
  | _ + 1, none, s => some s
  | fuel + 1, some p, s =>
    let n := s.heap p
    match (if n.as = .AB then n.cond else none) with
    | some q =>
      let s := s.foll p
      if (s.heap q).mark then joined (fun t => xfol fuel (some t)) q s else xfol fuel (some q) s
    | none =>
      if n.mark then joined (fun t => xfol fuel (some t)) p s
      else
        let s := (s.foll p).append p
        if ends n then some s
        else if n.cond ≠ none ∧ n.as ≠ .ABL ∧ n.link ≠ none then branched (xfol fuel) p (straighten p s)
        else xfol fuel n.link s

/-- An instruction of the program as `patch` leaves it. -/
structure Ins (α : Type) where
  as : As
  scond : Option Cond
  ins : α
  cond : Option Nat

/-- The program that `follow` gets. Branches are resolved to positions, and
`brloop` leaves none that goes to a plain branch; the `TEXT`s are linked through
`cond`, starting at `textp`. -/
structure Program (α : Type) where
  code : List (Ins α)
  textp : Option Nat
  cond_lt : ∀ i ∈ code, ∀ t, i.cond = some t → t < code.length
  cond_ne : ∀ i ∈ code, ∀ t, i.cond = some t → ∀ j, code[t]? = some j → j.as ≠ .AB
  cond_as : ∀ i ∈ code, i.cond ≠ none → i.as = .AB ∨ i.as = .ABL ∨ i.as = .ABCASE ∨ i.as = .ATEXT ∨ ∃ c, i.as = .ABcc c
  textp_lt : ∀ t, textp = some t → t < code.length
  texts : ∀ t i, code[t]? = some i → i.as = .ATEXT →
    textp = some t ∨ ∃ t' i', t' < t ∧ code[t']? = some i' ∧ i'.as = .ATEXT ∧ i'.cond = some t
  textp_as : ∀ t i, textp = some t → code[t]? = some i → i.as = .ATEXT
  text_as : ∀ i ∈ code, i.as = .ATEXT → ∀ t, i.cond = some t → ∀ j, code[t]? = some j → j.as = .ATEXT

namespace Program

/-- The heap before the pass: a list in program order. -/
def heap [Inhabited α] (P : Program α) (a : Nat) : Prog α :=
  match P.code[a]? with
  | some i => ⟨i.as, i.scond, i.ins, if a + 1 < P.code.length then some (a + 1) else none, i.cond, false⟩
  | none => ⟨.AOTHER, none, default, none, none, false⟩

end Program

/-- `follow`; the instruction at `code.length` is the one `prg` makes for `firstp`. -/
def follow [Inhabited α] (fuel : Nat) (P : Program α) : Option (State α) :=
  let N := P.code.length
  match xfol fuel P.textp ⟨P.heap, N + 1, N⟩ with
  | none => none
  | some s => some (s.set s.lastp { s.heap s.lastp with link := none })

/-! What a program does. -/

/-- An instruction executed, or a condition tested with its result. -/
inductive Event (α : Type) where
  | exec (ins : α)
  | test (ins : α) (cond : Cond) (truth : Bool)
  | entry (ins : α) (taken : Bool)
  deriving DecidableEq, Repr

/-- One of each pair of opposite conditions. -/
def positive : Cond → Bool
  | .EQ | .HS | .MI | .VS | .HI | .GE | .GT => true
  | _ => false

def canon (c : Cond) : Cond := if positive c then c else c.inv

/-- Whether `c` holds, given the truth of `canon c`. -/
def taken (c : Cond) (truth : Bool) : Bool := if positive c then truth else !truth

/-- Where execution goes. Behind the last instruction there is no meaning. -/
inductive Succ where
  | goes (a : Nat)
  | off
  | leaves
  deriving DecidableEq, Repr

def fallThrough : Option Nat → Succ
  | some a => .goes a
  | none => .off

def branch : Option Nat → Succ
  | some a => .goes a
  | none => .leaves

/-- One instruction; `truth` is the outcome of its test, if it makes one. -/
def exec (n : Prog α) (truth : Bool) : Event α × Succ :=
  match n.as with
  | .AB =>
    match n.scond with
    | none => (.exec n.ins, .leaves)
    | some c => (.test n.ins (canon c) truth, if taken c truth then branch n.cond else fallThrough n.link)
  | .ABcc c => (.test n.ins (canon c) truth, if taken c truth then branch n.cond else fallThrough n.link)
  | .ABCASE => (.entry n.ins truth, if truth then branch n.cond else fallThrough n.link)
  | .ARET | .ARFE =>
    match n.scond with
    | none => (.exec n.ins, .leaves)
    | some c => (.test n.ins (canon c) truth, if taken c truth then .leaves else fallThrough n.link)
  | _ => (.exec n.ins, fallThrough n.link)

/-- A plain branch to a known place is not observed. -/
def silent (n : Prog α) : Option Nat := if n.as = .AB ∧ n.scond = none then n.cond else none

/-- From `a`, with the outcomes of the tests to come, the events and where the
run ends up. -/
inductive Run (heap : Nat → Prog α) : Nat → List Bool → List (Event α) → Succ → Prop where
  | stop (a : Nat) : Run heap a [] [] (.goes a)
  | jump {a b : Nat} {outs : List Bool} {evs : List (Event α)} {st : Succ} (branch : silent (heap a) = some b)
      (rest : Run heap b outs evs st) : Run heap a outs evs st
  | step {a b : Nat} {truth : Bool} {outs : List Bool} {evs : List (Event α)} {st : Succ}
      (visible : silent (heap a) = none) (goes : (exec (heap a) truth).2 = .goes b) (rest : Run heap b outs evs st) :
      Run heap a (truth :: outs) ((exec (heap a) truth).1 :: evs) st
  | last {a : Nat} {truth : Bool} {outs : List Bool} (visible : silent (heap a) = none)
      (ends : ∀ b, (exec (heap a) truth).2 ≠ .goes b) :
      Run heap a (truth :: outs) [(exec (heap a) truth).1] (exec (heap a) truth).2

section Plain

variable [Inhabited α] (P : Program α)

/-- Where `xfol` gets: from `textp` to what a branch skips to, to what is behind an
instruction that does not end a run and, if it is `far`, to where it branches. -/
inductive Comes (far : Prog α → Prop) : Nat → Prop where
  | start {t : Nat} (first : P.textp = some t) : Comes far t
  | jump {o t : Nat} (here : Comes far o) (as : (P.heap o).as = .AB) (cond : (P.heap o).cond = some t) : Comes far t
  | fall {o l : Nat} (here : Comes far o) (goesOn : ends (P.heap o) = false) (link : (P.heap o).link = some l) : Comes far l
  | target {o t : Nat} (here : Comes far o) (goesOn : ends (P.heap o) = false) (call : (P.heap o).as ≠ .ABL)
      (branches : far (P.heap o)) (cond : (P.heap o).cond = some t) : Comes far t

/-- `xfol` looks at a target only if there is something behind the branch. -/
def Visits : Nat → Prop := Comes P fun n => n.link ≠ none

/-- Where `xfol` gets, no branch or return from exception is executed conditionally, except
for the conditional branch opcodes; and if the last instruction of the program branches
conditionally, `xfol` also gets to its target from elsewhere. -/
structure Plain : Prop where
  always : ∀ o, Visits P o → (P.heap o).as = .AB ∨ (P.heap o).as = .ARFE → (P.heap o).scond = none
  last : ∀ o, Visits P o → ends (P.heap o) = false → (P.heap o).as ≠ .ABL → (P.heap o).link = none →
    ∀ t, (P.heap o).cond = some t → Visits P t

end Plain

/-- Every instruction can be told from the others. -/
def Distinct (P : Program α) : Prop := (P.code.map Ins.ins).Nodup

/-- The same events and the same way out, unless the first run goes off the end
of the program, where the second may do anything. -/
def Agrees (evs : List (Event α)) (st : Succ) (evs' : List (Event α)) (st' : Succ) : Prop :=
  evs' = evs ∧ (st = .leaves ↔ st' = .leaves) ∨ st = .off ∧ evs <+: evs'

/-- What the list has that starts at `first`. -/
inductive Listed (heap : Nat → Prog α) (first : Nat) : Nat → Prop where
  | here : Listed heap first first
  | link {a b : Nat} (listed : Listed heap first a) (link : (heap a).link = some b) : Listed heap first b

/-- From every `TEXT` the new list does what the old one did, for all outcomes
of the tests, and all that is executed is in it. -/
def Preserves [Inhabited α] (P : Program α) (s : State α) : Prop :=
  ∀ t i, P.code[t]? = some i → i.as = .ATEXT → ∀ outs,
    (∀ evs st, Run P.heap t outs evs st → ∃ evs' st', Run s.heap t outs evs' st' ∧ Agrees evs st evs' st') ∧
    (∀ evs' st', Run s.heap t outs evs' st' → ∃ evs st, Run P.heap t outs evs st ∧ Agrees evs st evs' st') ∧
    ∀ evs' a, Run s.heap t outs evs' (.goes a) → Listed s.heap P.code.length a

end Goken.Follow
