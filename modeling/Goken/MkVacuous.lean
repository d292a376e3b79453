import Goken.MkGraph

/-! The pruning of mk's dependency graph: `vacuous` and `togo` (`graph.c`). The
graph also lists the calls that have returned, with their values. -/

namespace Goken.MkVacuous
open MkGraph (Rule META)

/-! The flags of a node; `bool` is a byte. -/

def READY : Nat := 0x0004
def PROBABLE : Nat := 0x0100
def VACUOUS : Nat := 0x0200

structure Arc (N P : Type) where
  n : Option N
  r : Rule P
  remove : Bool
  deriving DecidableEq, Repr

structure Node (N P : Type) where
  flags : Nat
  arcs : List (Arc N P)
  deriving DecidableEq, Repr

structure State (N P : Type) where
  nodes : N → Node N P
  calls : List (N × UInt8)

variable {N P : Type} [DecidableEq N]

def State.setFlag (g : State N P) (node : N) (flag : Nat) : State N P :=
  { g with nodes := Function.update g.nodes node { g.nodes node with flags := (g.nodes node).flags ||| flag } }

def State.setArcs (g : State N P) (node : N) (arcs : List (Arc N P)) : State N P :=
  { g with nodes := Function.update g.nodes node { g.nodes node with arcs := arcs } }

def State.returned (g : State N P) (node : N) (b : UInt8) : State N P := { g with calls := g.calls ++ [(node, b)] }

/-- The loop of `togo`, with the arcs that stay before `a`. -/
def togo : List (Arc N P) → List (Arc N P) → List (Arc N P)
  | arcs, [] => arcs
  | arcs, a :: rest => if a.remove then togo arcs rest else togo (arcs ++ [a]) rest

/-- `a2` stays if it is of the rule of an arc that does. -/
def undelete1 (a a2 : Arc N P) : Arc N P := if a2.remove && a2.r.address = a.r.address then { a2 with remove := false } else a2

/-- The arcs that are undeleted. -/
def undelete (arcs : List (Arc N P)) : List (Arc N P) :=
  (List.range arcs.length).foldl (fun arcs i =>
    match arcs[i]? with
    | none => arcs
    | some a => if a.remove then arcs else arcs.map (undelete1 a)) arcs

/-- The first loop of `vacuous`; `visit` is the recursive call. -/
def visitArcs (visit : N → State N P → Option (UInt8 × State N P)) :
    List (Arc N P) → Bool → State N P → Option (List (Arc N P) × Bool × State N P)
  | [], vac, g => some ([], vac, g)
  | a :: rest, vac, g => do
      let (b, g) ← (match a.n with
        | none => some (0, g)
        | some n => visit n g)
      let gone := b ≠ 0 && a.r.has META
      let (rest, vac, g) ← visitArcs visit rest (vac && gone) g
      some ((if gone then { a with remove := true } else a) :: rest, vac, g)

def vacuous : Nat → N → State N P → Option (UInt8 × State N P)
  | 0, _, _ => none
  | fuel + 1, node, g =>
      let flags := (g.nodes node).flags
      if flags &&& READY ≠ 0 then
        let b := UInt8.ofNat (flags &&& VACUOUS)
        some (b, g.returned node b)
      else do
        let (arcs, vac, g) ← visitArcs (vacuous fuel) (g.nodes node).arcs (flags &&& PROBABLE = 0) (g.setFlag node READY)
        let g := g.setArcs node (togo [] (undelete arcs))
        let g := if vac then g.setFlag node VACUOUS else g
        let b : UInt8 := if vac then 1 else 0
        some (b, g.returned node b)

end Goken.MkVacuous
