import Goken.Patch
import Mathlib.Data.Finset.Card
import Mathlib.Order.Interval.Finset.Nat

/-! Branch target resolution. The search for a program counter is right whatever the
forward pointers are, as long as they go forward; a walk over unconditional branches ends
because a branch to a higher address can be taken only so often. -/

namespace Goken.Proofs.Patch
open Goken.Patch Lib.Steps

section Forward

/-- The pointers so far are to a later `Prog` that has been visited. -/
structure Onward (count : Nat) (s : Levels) : Prop where
  lst : ∀ i l, s.lst i = some l → l < count
  forwd : ∀ i f, s.forwd i = some f → i < f ∧ f < count

end Forward

section Search

variable {program : List Prog} {c : Int}

def pcs (program : List Prog) : List Int := program.map Prog.pc

/-- Nothing before the place has the program counter. -/
def Passed (program : List Prog) (c : Int) (q : Option Nat) : Prop :=
  (∀ i, q = some i → i < program.length) ∧ ∀ i < q.getD program.length, (deref program i).pc ≠ c

variable (increasing : (pcs program).Pairwise (· < ·))
include increasing

end Search

section Brloop

variable (undefp : Nat) (program : List Prog)

/-- An unconditional branch and where it goes. -/
def Edge (p q : Target) : Prop := opcode program p = .AB ∧ cond program p = some q

/-- The branch goes to a lower address, or nowhere. -/
def Backward (p : Target) : Prop := address undefp program (cond program p) ≤ address undefp program (some p)

instance (p : Target) : Decidable (Backward undefp program p) := inferInstanceAs (Decidable (_ ≤ _))

/-- A walk over unconditional branches, with the number of those that are backward. -/
inductive Walks : Target → Nat → Target → Prop where
  | here (p : Target) : Walks p 0 p
  | onward {p p' q : Target} {n : Nat} (edge : Edge program p p') (ahead : ¬Backward undefp program p) (rest : Walks p' n q) : Walks p n q
  | back {p p' q : Target} {n : Nat} (edge : Edge program p p') (behind : Backward undefp program p) (rest : Walks p' n q) :
      Walks p (n + 1) q

/-- A walk that gives up: at a branch that goes nowhere or to itself, or after too many
backward branches. -/
def Lost (c : Nat) (p : Target) : Prop :=
  ∃ n q, Walks undefp program p n q ∧ opcode program q = .AB ∧ (cond program q = none ∨ cond program q = some q ∨
    c + n = 5000 ∧ Backward undefp program q)

variable {undefp program}

theorem Walks.path {p q : Target} {n : Nat} (walks : Walks undefp program p n q) :
    Relation.ReflTransGen (Edge program) p q := by
  induction walks with
  | here => exact .refl
  | onward edge _ _ ih => exact .head edge ih
  | back edge _ _ ih => exact .head edge ih

/-- A branch to itself is never left. -/
theorem Walks.stays {p q : Target} {n : Nat} (walks : Walks undefp program p n q) (itself : Edge program p p) : q = p := by
  induction walks with
  | here => rfl
  | onward edge _ _ ih =>
    cases itself.2.symm.trans edge.2
    exact ih itself
  | back edge _ _ ih =>
    cases itself.2.symm.trans edge.2
    exact ih itself

/-- How many addresses are above. -/
def above (undefp : Nat) (program : List Prog) (p : Target) : Nat :=
  ((Finset.range program.length).filter fun i => address undefp program (some p) < (deref program i).address).card

/-- A bound on the steps before the next backward branch. -/
def rank (undefp : Nat) (program : List Prog) : Option Target → Nat
  | none => 0
  | some p => if opcode program p = .AB then above undefp program p + 1 else 0

/-- Enough steps for `brloop` on a program of this length. -/
def limit (length : Nat) : Nat := 5001 * (length + 2)

end Brloop

section Passes

/-- What a branch to a symbol becomes. -/
inductive Resolves (p : Prog) : Prog → Prop where
  | same : Resolves p p
  | text (value : Int) : Resolves p { p with offset := value, type := .D_BRANCH }
  | undefined : Resolves p { p with offset := 0, type := .D_BRANCH, cond := some .UP }

/-- A branch with an offset to look up. -/
def Branches (p : Prog) : Prop := p.type = .D_BRANCH ∧ p.cond ≠ some .UP

/-- What the first loop makes of an instruction. -/
inductive Settled (pcs : List Int) (diags : List Diag) (i : Nat) (p : Prog) : Prog → Prop where
  | other {r : Prog} (resolves : Resolves p r) (skip : ¬Branches r) : Settled pcs diags i p r
  | found {r : Prog} {q : Nat} (resolves : Resolves p r) (branches : Branches r) (here : pcs[q]? = some r.offset) :
      Settled pcs diags i p { r with cond := some (.prog q) }
  | range {r : Prog} (resolves : Resolves p r) (branches : Branches r) (nowhere : r.offset ∉ pcs)
      (reported : .range r.offset i ∈ diags) : Settled pcs diags i p { r with type := .D_NONE, cond := none }

theorem Resolves.pc {p r : Prog} (resolves : Resolves p r) : r.pc = p.pc := by
  cases resolves <;> rfl

theorem Settled.pc {pcs : List Int} {diags : List Diag} {i : Nat} {p r : Prog} (settled : Settled pcs diags i p r) : r.pc = p.pc := by
  cases settled with
  | other resolves => exact resolves.pc
  | found resolves => exact resolves.pc
  | range resolves => exact resolves.pc

theorem Settled.mono {pcs : List Int} {diags more : List Diag} {i : Nat} {p r : Prog} (settled : Settled pcs diags i p r)
    (grows : diags ⊆ more) : Settled pcs more i p r := by
  cases settled with
  | other resolves skip => exact .other resolves skip
  | found resolves branches here => exact .found resolves branches here
  | range resolves branches nowhere reported => exact .range resolves branches nowhere (grows reported)

/-- The state of the first loop before the instruction in a place. -/
structure Targeted (s : State) (k : Nat) (now : State) : Prop where
  pcs : pcs now.progs = pcs s.progs
  settled : ∀ i < k, Settled (Patch.pcs s.progs) now.diags i (deref s.progs i) (deref now.progs i)
  rest : ∀ i, k ≤ i → deref now.progs i = deref s.progs i

theorem Targeted.length {s now : State} {k : Nat} (targeted : Targeted s k now) : now.progs.length = s.progs.length := by
  have := congrArg List.length targeted.pcs
  simpa [Patch.pcs] using this

/-- The state of the second loop before the instruction in a place: a branch target is
reached from the one that the first loop found. -/
structure Shortened (base : List Prog) (k : Nat) (now : State) : Prop where
  length : now.progs.length = base.length
  as : ∀ i, (deref now.progs i).as = (deref base i).as
  cond : ∀ i q, (deref now.progs i).cond = some q → ∃ t, (deref base i).cond = some t ∧
    Relation.ReflTransGen (Edge base) t q ∧ (i < k → opcode base q ≠ .AB)

theorem Shortened.opcode {base : List Prog} {k : Nat} {now : State} (shortened : Shortened base k now) (q : Target) :
    opcode now.progs q = opcode base q := by
  cases q with
  | UP => rfl
  | prog i => exact shortened.as i

/-- The walks over the changed branches are walks over the original ones. -/
theorem Shortened.path {base : List Prog} {k : Nat} {now : State} (shortened : Shortened base k now) {p q : Target}
    (path : Relation.ReflTransGen (Edge now.progs) p q) : Relation.ReflTransGen (Edge base) p q := by
  induction path with
  | refl => exact .refl
  | @tail p' q' _ edge ih =>
    refine ih.trans ?_
    obtain ⟨branch, next⟩ := edge
    rw [shortened.opcode] at branch
    cases p' with
    | UP => cases next
    | prog i =>
      obtain ⟨t, original, path, -⟩ := shortened.cond i q' next
      exact .head ⟨branch, original⟩ path

end Passes

/-- What `brloop` gives for a target. -/
structure Follows (undefp : Nat) (program : List Prog) (p : Target) (r : Option Target) : Prop where
  lands : ∀ q, r = some q ↔ opcode program q ≠ .AB ∧ ∃ n ≤ 5000, Walks undefp program p n q
  lost : r = none → Lost undefp program 0 p

end Goken.Proofs.Patch
