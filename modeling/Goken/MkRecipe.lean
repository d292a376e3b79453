import Goken.Lib.Linked
import Goken.MkGraph

/-! Making the job for an out-of-date target (`recipe.c`, `outofdate` and
`update` in `mk.c`). Nodes are known by their name. The lists of nodes are
threaded through `Node.next`, which keeps what the last job left there. -/

namespace Goken.MkRecipe
open MkGraph Lib.Linked

def BIGBLOCK : Nat := 20000

def VIRTUAL : BitVec 16 := 0x0001
def CANPRETEND : BitVec 16 := 0x0008
def PRETENDING : BitVec 16 := 0x0010
def NOTMADE : BitVec 16 := 0x0020
def BEINGMADE : BitVec 16 := 0x0040
def MADE : BitVec 16 := 0x0080
def NORECIPE : BitVec 16 := 0x0400

/-- What the children that are waited for can change: the times and flags of
nodes, and the answers kept under S_OUTOFDATE. -/
structure World (T : Type) where
  time : Str → T
  flags : Str → BitVec 16
  outofdates : Str → Option Bool

/-- The graph, and what is outside of it: `pcmp` runs a program on two names and
waits for it, `key` is the name that `snprint` makes of two. -/
structure Env (P T : Type) where
  node : Str → Option (List (Arc P))
  alltargets : Nat → List Str
  pcmp : Str → Str → Str → World T → Bool × World T
  key : Str → Str → Str
  access : Str → Bool
  timeof : Str → T
  aflag : Bool
  tflag : Bool

structure Memory (T : Type) where
  world : World T
  next : Str → Option Str

structure Job (P : Type) where
  r : Rule P
  n : Str
  stem : Str
  submatch : List (Option Str)
  p : List Str
  np : List Str
  t : List Str
  at_ : List Str
  deriving Repr, DecidableEq

variable {P T : Type}

def Env.arcs (env : Env P T) (n : Str) : List (Arc P) := (env.node n).getD []

def MADESET (n : Str) (m : BitVec 16) (w : World T) : World T :=
  { w with flags := Function.update w.flags n (w.flags n &&& ~~~(NOTMADE ||| BEINGMADE ||| MADE) ||| m) }

section Outofdate

variable [LE T] [DecidableLE T] [DecidableEq T] [Zero T]

def lparen : UInt8 := 0x28

/-- `outofdate` for an arc with a prerequisite. -/
def outofdate (env : Env P T) (node : Str) (arc : Arc P) (pre : Str) (eval : Bool) (w : World T) : Bool × World T :=
  match arc.prog with
  | some prog =>
      let buf := env.key node pre
      match w.outofdates buf with
      | none =>
          let (ret, w) := env.pcmp prog node pre w
          -- the children waited for can have answered this already
          match w.outofdates buf with
          | none => (ret, { w with outofdates := Function.update w.outofdates buf (some ret) })
          | some _ => (ret, w)
      | some old =>
          if eval then
            let (ret, w) := env.pcmp prog node pre w
            (ret, { w with outofdates := Function.update w.outofdates buf (some ret) })
          else (old, w)
  | none =>
      if pre.contains lparen && w.time pre = 0 then (true, w)
      else (decide (w.time node ≤ w.time pre), w)

/-- The first arc of a co-target that makes it out of date. -/
def staleArc (env : Env P T) (n : Str) : List (Arc P) → World T → Bool × World T
  | [], w => (false, w)
  | a :: rest, w =>
      match a.n with
      | none => staleArc env n rest w
      | some pre =>
          match outofdate env n a pre false w with
          | (true, w) => (true, w)
          | (false, w) => staleArc env n rest w

/-- Whether a co-target has to be made again. -/
def stale (env : Env P T) (n : Str) (w : World T) : Bool × World T :=
  if !env.aflag && w.time n ≠ 0 then staleArc env n (env.arcs n) w else (true, w)

/-- `update` with `fake` not set. -/
def update [One T] (env : Env P T) (node : Str) (w : World T) : World T :=
  let w := MADESET node MADE w
  if w.flags node &&& VIRTUAL ≠ 0 || !env.access node then
    (env.arcs node).foldl (fun w a =>
      match a.n with
      | none => w
      | some pre =>
          let (late, w) := outofdate env node a pre true w
          if late then { w with time := Function.update w.time node (w.time pre) } else w)
      { w with time := Function.update w.time node 1 }
  else
    (env.arcs node).foldl (fun w a =>
      match a.prog, a.n with
      | some _, some pre => (outofdate env node a pre true w).2
      | _, _ => w)
      { w with
        time := Function.update w.time node (env.timeof node)
        flags := Function.update w.flags node (w.flags node &&& ~~~(CANPRETEND ||| PRETENDING)) }

/-- The last arc whose rule has a recipe. -/
def masterArc (arcs : List (Arc P)) : Option (Arc P) :=
  arcs.foldl (fun master a => if !emptyRecipe a.r then some a else master) none

def strecpy (dlen : Nat) (s : Str) : Str := s.take (dlen - 1)

/-- The lists of targets, with the memory they are made in. -/
structure Targets (T : Type) where
  alltargets : List Str
  oldtargets : List Str
  memory : Memory T

/-- The name of a co-target. -/
def targetName (r : Rule P) (stem w : Str) : Str :=
  if r.has META then subst stem w BIGBLOCK else strecpy (BIGBLOCK - 1) w

def addTarget (env : Env P T) (node : Str) (r : Rule P) (stem : Str) (s : Targets T) (w : Str) : Targets T :=
  let buf := targetName r stem w
  let s := { s with alltargets := s.alltargets ++ [buf] }
  match env.node buf with
  | none => s
  | some _ =>
      let (late, world) := stale env buf s.memory.world
      if !late then { s with memory := { s.memory with world := world } } else
      { s with
        oldtargets := s.oldtargets ++ [buf]
        memory := ⟨world, if buf = node then s.memory.next else insert node buf s.memory.next⟩ }

def targets (env : Env P T) (node : Str) (r : Rule P) (stem : Str) (m : Memory T) : Targets T :=
  let m := { m with next := Function.update m.next node none }
  if r.has REGEXP then ⟨[node], [node], m⟩
  else (env.alltargets r.address).foldl (addTarget env node r stem) ⟨[], [], m⟩

def addw (l : List Str) (s : Str) : List Str := if l.contains s then l else l ++ [s]

/-- The parameters of the job; `marked` is the history of `MADESET`. -/
structure Params (T : Type) where
  allprereqs : List Str
  newprereqs : List Str
  world : World T
  marked : List Str

def gatherArc (env : Env P T) (n : Str) (s : Params T) (a : Arc P) : Params T :=
  match a.n with
  | none => s
  | some pre =>
      let (late, world) := outofdate env n a pre false s.world
      { s with
        allprereqs := addw s.allprereqs pre
        newprereqs := if late then addw s.newprereqs pre else s.newprereqs
        world := world }

def gather (env : Env P T) (s : Params T) (n : Str) : Params T :=
  let s := (env.arcs n).foldl (gatherArc env n) s
  { s with world := MADESET n BEINGMADE s.world, marked := s.marked ++ [n] }

/-- What `dorecipe` comes to: mk gives up, the node is updated and maybe
touched, or a job is given to `run`. -/
inductive Result (P T : Type) where
  | exit
  | updated (world : World T) (touched : Bool)
  | run (job : Job P) (memory : Memory T) (marked : List Str)

/-- There is no result while the walk over the node list has not ended. -/
def dorecipe [One T] (env : Env P T) (node : Str) (fuel : Nat) (m : Memory T) : Option (Result P T) :=
  match masterArc (env.arcs node) with
  | none =>
      if m.world.flags node &&& VIRTUAL ≠ 0 || m.world.flags node &&& NORECIPE ≠ 0 then
        let world :=
          if node.contains lparen && m.world.time node = 0 then MADESET node MADE m.world
          else update env node m.world
        some (.updated world (env.tflag && world.flags node &&& VIRTUAL = 0))
      else some .exit
  | some master =>
      let made := targets env node master.r master.stem m
      match each made.memory.next (gather env) fuel (some node) ⟨[], [], made.memory.world, []⟩ with
      | none => none
      | some params =>
          some (.run
            ⟨master.r, node, master.stem, master.submatch, params.allprereqs, params.newprereqs, made.oldtargets, made.alltargets⟩
            ⟨params.world, made.memory.next⟩ params.marked)

end Outofdate

end Goken.MkRecipe
