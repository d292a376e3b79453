import Goken.MkRecipe
import Mathlib.Algebra.GroupWithZero.Nat

/-! The node list of a job. It is a list of different nodes exactly when no
co-target is found out of date twice; otherwise it closes on itself, and the
walk over it does not end. -/

namespace Goken.Proofs.MkRecipe
open Goken.MkRecipe Goken.MkGraph Lib.Linked

variable {P T : Type} [LE T] [DecidableLE T] [DecidableEq T] [Zero T]

/-- The names of the other co-targets that are found out of date, as often as
they are. -/
def cotargets (env : Env P T) (node : Str) (r : Rule P) (stem : Str) : List Str → World T → List Str × World T
  | [], world => ([], world)
  | w :: rest, world =>
      let buf := targetName r stem w
      match env.node buf with
      | none => cotargets env node r stem rest world
      | some _ =>
          let (late, world) := stale env buf world
          let (found, world) := cotargets env node r stem rest world
          (if late && buf ≠ node then buf :: found else found, world)

def outdated (env : Env P T) (node : Str) (master : Arc P) (world : World T) : List Str :=
  if master.r.has REGEXP then []
  else (cotargets env node master.r master.stem (env.alltargets master.r.address) world).1

theorem cotargets_others (env : Env P T) (node : Str) (r : Rule P) (stem : Str) (words : List Str) (world : World T) :
    ∀ n ∈ (cotargets env node r stem words world).1, n ≠ node := by
  induction words generalizing world with
  | nil => simp [cotargets]
  | cons w rest ih =>
      rw [cotargets]
      cases known : env.node (targetName r stem w) with
      | none => exact ih world
      | some arcs =>
          simp only
          split
          · rename_i late
            simp only [Bool.and_eq_true, decide_eq_true_eq] at late
            intro n member
            rcases List.mem_cons.mp member with rfl | later
            · exact late.2
            · exact ih _ n later
          · exact ih _

theorem addTarget_memory (env : Env P T) (node : Str) (r : Rule P) (stem : Str) (words : List Str) (s : Targets T) :
    (words.foldl (addTarget env node r stem) s).memory =
      ⟨(cotargets env node r stem words s.memory.world).2,
        insertAll node (cotargets env node r stem words s.memory.world).1 s.memory.next⟩ := by
  induction words generalizing s with
  | nil => rfl
  | cons w rest ih =>
      rw [List.foldl_cons, ih, cotargets, addTarget]
      cases known : env.node (targetName r stem w) with
      | none => rfl
      | some arcs =>
          simp only
          rcases tested : stale env (targetName r stem w) s.memory.world with ⟨late, world⟩
          cases late with
          | false => simp
          | true => by_cases same : targetName r stem w = node <;> simp [same, insertAll]

/-- The links after the targets are collected. -/
theorem targets_next (env : Env P T) (node : Str) (master : Arc P) (m : Memory T) :
    (targets env node master.r master.stem m).memory.next =
      insertAll node (outdated env node master m.world) (Function.update m.next node none) := by
  unfold targets outdated
  split
  · rfl
  · rw [addTarget_memory]

theorem outdated_others (env : Env P T) (node : Str) (master : Arc P) (world : World T) :
    ∀ n ∈ outdated env node master world, n ≠ node := by
  unfold outdated
  split
  · simp
  · exact cotargets_others env node _ _ _ world

theorem gather_marked (env : Env P T) (s : Params T) (n : Str) : (gather env s n).marked = s.marked ++ [n] := by
  have arcs : ∀ l : List (Arc P), (l.foldl (gatherArc env n) s).marked = s.marked := by
    intro l
    induction l using List.reverseRecOn with
    | nil => rfl
    | append_singleton l a ih =>
        rw [List.foldl_append, List.foldl_cons, List.foldl_nil, ← ih, gatherArc]
        cases a.n <;> rfl
  rw [gather, arcs]

theorem gathered_marked (env : Env P T) (nodes : List Str) (s : Params T) :
    (nodes.foldl (gather env) s).marked = s.marked ++ nodes := by
  induction nodes generalizing s with
  | nil => exact (List.append_nil _).symm
  | cons n nodes ih => rw [List.foldl_cons, ih, gather_marked, List.append_assoc, List.singleton_append]

section Job

variable [One T]

/-- The node list of the job is a finite list of different nodes, the requested
one first, that has each out-of-date co-target; each node is marked once. -/
structure DuplicateFree (node : Str) (late : List Str) (job : Job P) (memory : Memory T) (marked nodes : List Str) : Prop where
  linked : Chain memory.next (some job.n) nodes
  first : nodes.head? = some node
  once : nodes.Nodup
  each : ∀ n, n ∈ nodes ↔ n = node ∨ n ∈ late
  marks : marked = nodes

theorem dorecipe_runs (env : Env P T) (node : Str) (m : Memory T) {master : Arc P} (found : masterArc (env.arcs node) = some master)
    (different : (outdated env node master m.world).Nodup) :
    ∃ fuel job memory marked nodes, dorecipe env node fuel m = some (.run job memory marked) ∧
      DuplicateFree node (outdated env node master m.world) job memory marked nodes := by
  generalize nodes_eq : node :: (outdated env node master m.world).reverse = nodes
  have listed : Chain (targets env node master.r master.stem m).memory.next (some node) nodes := by
    rw [targets_next, ← nodes_eq]
    rcases insertAll_spec (Function.update_self node none m.next) (outdated_others env node master m.world) with
      ⟨_, chain⟩ | ⟨twice, _⟩
    · exact chain
    · exact absurd different twice
  generalize made_eq : targets env node master.r master.stem m = made at listed
  obtain ⟨params, walk, marks⟩ : ∃ params,
      each made.memory.next (gather env) (nodes.length + 1) (some node) ⟨[], [], made.memory.world, []⟩ = some params ∧
        params.marked = nodes :=
    ⟨_, each_chain listed (Nat.lt_succ_self _) _, gathered_marked env nodes _⟩
  refine ⟨nodes.length + 1,
    ⟨master.r, node, master.stem, master.submatch, params.allprereqs, params.newprereqs, made.oldtargets, made.alltargets⟩,
    ⟨params.world, made.memory.next⟩, params.marked, nodes, ?_, listed, ?_, listed.nodup, ?_, ?_⟩
  · simp only [dorecipe, found, made_eq, walk]
  · rw [← nodes_eq]
    rfl
  · intro n
    rw [← nodes_eq, List.mem_cons, List.mem_reverse]
  · exact marks

theorem dorecipe_endless (env : Env P T) (node : Str) (m : Memory T) {master : Arc P} (found : masterArc (env.arcs node) = some master)
    (twice : ¬ (outdated env node master m.world).Nodup) (fuel : Nat) : dorecipe env node fuel m = none := by
  have endless : Endless (targets env node master.r master.stem m).memory.next (some node) := by
    rw [targets_next]
    rcases insertAll_spec (Function.update_self node none m.next) (outdated_others env node master m.world) with
      ⟨different, _⟩ | ⟨_, endless⟩
    · exact absurd different twice
    · exact endless
  simp only [dorecipe, found, each_endless endless]

/-- The job of an out-of-date target is made, with each node once, exactly when
no other co-target is out of date at two of the places that name it. -/
theorem duplicateFree_iff (env : Env P T) (node : Str) (m : Memory T) {master : Arc P}
    (found : masterArc (env.arcs node) = some master) :
    (∃ fuel job memory marked nodes, dorecipe env node fuel m = some (.run job memory marked) ∧
      DuplicateFree node (outdated env node master m.world) job memory marked nodes) ↔
    (outdated env node master m.world).Nodup := by
  constructor
  · rintro ⟨fuel, job, memory, marked, nodes, ends, _⟩
    by_contra twice
    rw [dorecipe_endless env node m found twice fuel] at ends
    cases ends
  · exact dorecipe_runs env node m found

end Job

section Example

def a : Str := [0x61]
def b : Str := [0x62]

/-- One rule with a recipe for the targets given, none of which exists. -/
def oneRule (alltargets : List Str) : Env Unit Nat where
  node n := if n = a || n = b then some [⟨none, ⟨0, n, [], [0x0A], 0, 0, none, none⟩, [], [], none⟩] else none
  alltargets _ := alltargets
  pcmp _ _ _ w := (true, w)
  key n pre := n ++ 0xC3 :: 0xBF :: pre
  access _ := false
  timeof _ := 0
  aflag := false
  tflag := false

def noFiles : Memory Nat := ⟨⟨fun _ => 0, fun _ => NOTMADE, fun _ => none⟩, fun _ => none⟩

def recipeArc (n : Str) : Arc Unit := ⟨none, ⟨0, n, [], [0x0A], 0, 0, none, none⟩, [], [], none⟩

theorem duplicateFree_two : ∃ fuel job memory marked nodes, dorecipe (oneRule [a, b]) a fuel noFiles = some (.run job memory marked) ∧
    DuplicateFree a (outdated (oneRule [a, b]) a (recipeArc a) noFiles.world) job memory marked nodes :=
  (duplicateFree_iff (oneRule [a, b]) a noFiles (show _ = some (recipeArc a) from rfl)).mpr (by decide)

theorem named_twice : masterArc ((oneRule [a, b, b]).arcs a) = some (recipeArc a) ∧
    (∀ fuel, dorecipe (oneRule [a, b, b]) a fuel noFiles = none) ∧
    ¬ ∃ fuel job memory marked nodes, dorecipe (oneRule [a, b, b]) a fuel noFiles = some (.run job memory marked) ∧
      DuplicateFree a (outdated (oneRule [a, b, b]) a (recipeArc a) noFiles.world) job memory marked nodes := by
  have endless := dorecipe_endless (oneRule [a, b, b]) a noFiles (show _ = some (recipeArc a) from rfl) (by decide)
  refine ⟨rfl, endless, ?_⟩
  rintro ⟨fuel, job, memory, marked, nodes, ends, _⟩
  rw [endless fuel] at ends
  cases ends

end Example

end Goken.Proofs.MkRecipe
