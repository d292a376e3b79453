import Goken.Proofs.MkMatch
import Mathlib.Data.Set.Finite.List
import Mathlib.Data.Set.Card

/-! The arcs that `applyrules` gives a target, against the arcs its rules call
for. The recursive calls leave the counters as they were and forget no node, so
the arcs of a node are a function of its name and of the counters on entry. -/

namespace Goken.Proofs.MkGraph
open Goken.MkGraph MkMatch

variable {P : Type} {env : Env P} {s : Rules P} {name : Str}

/-- A call that leaves the counters alone and forgets no node. -/
def Keeps (g g' : Graph P) : Prop := g'.cnt = g.cnt ∧ ∀ m, (g.nodes m).isSome → (g'.nodes m).isSome

theorem Keeps.refl (g : Graph P) : Keeps g g := ⟨rfl, fun _ there => there⟩

theorem Keeps.trans {a b c : Graph P} (first : Keeps a b) (second : Keeps b c) : Keeps a c :=
  ⟨second.1.trans first.1, fun m there => second.2 m (first.2 m there)⟩

def Keeping (visit : Str → Graph P → Option (Graph P)) : Prop := ∀ n g g', visit n g = some g' → Keeps g g'

/-- The arcs of one rule: one for each prerequisite, or one that leads nowhere. -/
def group (rename : Str → Str) (r : Rule P) (arc : Option Str → Arc P) : List (Arc P) :=
  if emptyPrereqs r then [arc none] else r.prereqs.map fun pre => arc (some (rename pre))

section Loops

variable {visit : Str → Graph P → Option (Graph P)} (keeping : Keeping visit)

include keeping in
theorem prereqArcs_eq {rename : Str → Str} {arc : Option Str → Arc P} {pres : List Str} {arcs out : List (Arc P)} {g g' : Graph P}
    (done : prereqArcs visit rename arc pres arcs g = some (out, g')) :
    out = arcs ++ pres.map (fun pre => arc (some (rename pre))) ∧ Keeps g g' := by
  induction pres generalizing arcs g with
  | nil =>
      simp only [prereqArcs, Option.some.injEq, Prod.mk.injEq] at done
      obtain ⟨rfl, rfl⟩ := done
      exact ⟨by simp, .refl _⟩
  | cons pre pres ih =>
      simp only [prereqArcs] at done
      split at done
      · cases done
      · rename_i middle visited
        obtain ⟨rfl, rest⟩ := ih done
        exact ⟨by simp, (keeping _ _ _ visited).trans rest⟩

include keeping in
theorem ruleArcs_eq {rename : Str → Str} {r : Rule P} {arc : Option Str → Arc P} {arcs out : List (Arc P)} {g g' : Graph P}
    (done : ruleArcs visit rename r arc arcs g = some (out, g')) : out = arcs ++ group rename r arc ∧ Keeps g g' := by
  unfold ruleArcs at done
  unfold group
  split at done
  · rename_i none
    simp only [Option.some.injEq, Prod.mk.injEq] at done
    obtain ⟨rfl, rfl⟩ := done
    exact ⟨by rw [if_pos none], .refl _⟩
  · rename_i some
    rw [if_neg some]
    exact prereqArcs_eq keeping done

theorem leave_enter (r : Rule P) {g g' : Graph P} (keeps : Keeps (enter r g) g') : Keeps g (leave r g') := by
  refine ⟨?_, keeps.2⟩
  funext i
  simp only [leave, keeps.1, enter]
  by_cases same : i = r.rule
  · subst same
    simp [Int8.add_sub_cancel]
  · simp [same]

theorem setProbable_keeps (name : Str) (g : Graph P) : Keeps g (setProbable name g) := by
  refine ⟨rfl, fun m there => ?_⟩
  by_cases same : m = name
  · subst same
    simpa [setProbable] using there
  · simpa [setProbable, same] using there

/-- A rule that has something to say and is not repeated too often. -/
def applies (env : Env P) (cnt : Nat → Int8) (r : Rule P) : Bool :=
  !(emptyRecipe r && emptyPrereqs r) && !decide (env.nreps ≤ (cnt r.rule).toInt)

def simpleGroup (name : Str) (r : Rule P) : List (Arc P) := group id r fun n => newarc n r [] name noMatch

include keeping in
theorem simpleArcs_eq {rules : List (Rule P)} {arcs out : List (Arc P)} {g g' : Graph P}
    (done : simpleArcs env visit name rules arcs g = some (out, g')) :
    out = arcs ++ (rules.filter (applies env g.cnt)).flatMap (simpleGroup name) ∧ Keeps g g' := by
  induction rules generalizing arcs g with
  | nil =>
      simp only [simpleArcs, Option.some.injEq, Prod.mk.injEq] at done
      obtain ⟨rfl, rfl⟩ := done
      exact ⟨by simp, .refl _⟩
  | cons r rules ih =>
      simp only [simpleArcs] at done
      split at done
      · rename_i idle
        rw [List.filter_cons_of_neg (by simp [applies, idle])]
        exact ih done
      · rename_i busy
        split at done
        · rename_i often
          rw [repeated] at often
          rw [List.filter_cons_of_neg (by simp [applies, often])]
          exact ih done
        · rename_i seldom
          split at done
          · cases done
          · rename_i more middle called
            obtain ⟨rfl, keeps⟩ := ruleArcs_eq keeping called
            have back := leave_enter r ((setProbable_keeps name _).trans keeps)
            obtain ⟨rfl, rest⟩ := ih done
            have counters : (leave r middle).cnt = g.cnt := back.1
            have yes : applies env g.cnt r = true := by
              rw [repeated] at seldom
              simp only [applies, busy, seldom]
              rfl
            refine ⟨?_, back.trans rest⟩
            rw [List.filter_cons_of_pos yes, List.flatMap_cons, counters, List.append_assoc]
            rfl

end Loops

/-! What the rules call for. -/

/-- What an arc says: its node, its rule, its stem, and for a REGEXP rule the
submatches. -/
abbrev Shown (P : Type) := Option Str × Rule P × Str × Option (List (Option Str))

def shown (a : Arc P) : Shown P := (a.n, a.r, a.stem, if a.r.has REGEXP then some a.submatch else none)

def groupOf (rename : Str → Str) (r : Rule P) (stem : Str) (subs : Option (List (Option Str))) : List (Shown P) :=
  if emptyPrereqs r then [(none, r, stem, subs)] else r.prereqs.map fun pre => (some (rename pre), r, stem, subs)

/-- How a meta rule matches a name: with a stem, or with submatches. -/
def accepts (env : Env P) (name : Str) (r : Rule P) : Option (Str × Option (List Resub)) :=
  if r.has REGEXP then
    (r.pat.bind fun pat => env.regexec pat name).map fun m => ([], some ((some m.1 :: m.2 ++ noMatch).take NREGEXP))
  else ((matchStem name r.target).getD none).map fun stem => (stem, none)

/-- The meta rules that apply, in order; a NOVIRT rule does not after a rule with
the attribute V. -/
def metaApplied (env : Env P) (cnt : Nat → Int8) (name : Str) : Bool → List (Rule P) → List (Rule P × Str × Option (List Resub))
  | _, [] => []
  | vir, r :: rest =>
      if applies env cnt r && !(r.has NOVIRT && vir) then
        match accepts env name r with
        | none => metaApplied env cnt name vir rest
        | some m => (r, m) :: metaApplied env cnt name (r.has VIR) rest
      else metaApplied env cnt name vir rest

def virtual (rules : List (Rule P)) : Bool := rules.getLast?.any fun r => r.has VIR

/-- The arcs of a meta rule that applies: the stem or the submatches are put
into each prerequisite. -/
def metaGroup (name : Str) (x : Rule P × Str × Option (List Resub)) : List (Shown P) :=
  match x.2.2 with
  | none => groupOf (expand x.2.1) x.1 x.2.1 none
  | some m => groupOf (fun pre => regsub pre NAMEBLOCK name m) x.1 x.2.1 (some (rcopy name m))

/-- The arcs a target is to have: those of the simple rules that name it, then
those of the meta rules that match it. -/
def expected (env : Env P) (s : Rules P) (cnt : Nat → Int8) (name : Str) : List (Shown P) :=
  let simple := ((s.deref s.rules).filter fun r => r.target = name).filter (applies env cnt)
  simple.flatMap (fun r => groupOf id r [] none) ++
    (metaApplied env cnt name (virtual simple) (s.deref s.metarules)).flatMap (metaGroup name)

/-! What the code makes. -/

def codeGroup (x : Rule P × Str × Option (List Resub)) : List (Shown P) :=
  groupOf (fun pre => subst x.2.1 pre NAMEBLOCK) x.1 x.2.1 none

theorem group_shown (rename : Str → Str) (r : Rule P) (stem name : Str) (rmatch : List Resub) :
    (group rename r fun n => newarc n r stem name rmatch).map shown =
      groupOf rename r stem (if r.has REGEXP then some (rcopy name rmatch) else none) := by
  unfold group groupOf
  split
  · rfl
  · rw [List.map_map]
    rfl

theorem groupOf_ne (rename : Str → Str) (r : Rule P) (stem : Str) (subs : Option (List (Option Str))) :
    groupOf rename r stem subs ≠ [] := by
  unfold groupOf
  split
  · simp
  · rename_i some
    cases pres : r.prereqs with
    | nil => simp [emptyPrereqs, pres] at some
    | cons pre rest => simp

theorem groupOf_label {rename : Str → Str} {r : Rule P} {stem : Str} {subs : Option (List (Option Str))} {a : Shown P}
    (member : a ∈ groupOf rename r stem subs) : a.2 = (r, stem, subs) := by
  unfold groupOf at member
  split at member
  · rw [List.mem_singleton.mp member]
  · obtain ⟨pre, -, rfl⟩ := List.mem_map.mp member
    rfl

/-- The rule of the last arc. -/
def lastVir (arcs : List (Arc P)) : Bool := arcs.getLast?.any fun a => a.r.has VIR

theorem lastVir_append {arcs more : List (Arc P)} {rename : Str → Str} {r : Rule P} {stem : Str} {subs : Option (List (Option Str))}
    (same : more.map shown = groupOf rename r stem subs) : lastVir (arcs ++ more) = r.has VIR := by
  have some : more ≠ [] := by
    rintro rfl
    exact groupOf_ne rename r stem subs same.symm
  rw [lastVir, List.getLast?_append_of_ne_nil arcs some, List.getLast?_eq_getLast_of_ne_nil some]
  have member : shown (more.getLast some) ∈ groupOf rename r stem subs := by
    rw [← same]
    exact List.mem_map_of_mem (List.getLast_mem some)
  have label : (more.getLast some).r = r := congrArg Prod.fst (groupOf_label member)
  simp [label]

theorem metaArcs_eq {visit : Str → Graph P → Option (Graph P)} (keeping : Keeping visit) {rules : List (Rule P)}
    {rmatch : List Resub} {arcs out : List (Arc P)} {g g' : Graph P}
    (done : metaArcs env visit name rules rmatch arcs g = some (out, g')) :
    out.map shown = arcs.map shown ++
        (metaApplied env g.cnt name (lastVir arcs) (rules.filter fun r => !r.has REGEXP)).flatMap codeGroup ∧
      Keeps g g' := by
  induction rules generalizing rmatch arcs g with
  | nil =>
      simp only [metaArcs, Option.some.injEq, Prod.mk.injEq] at done
      obtain ⟨rfl, rfl⟩ := done
      exact ⟨by simp [metaApplied], .refl _⟩
  | cons r rules ih =>
      simp only [metaArcs] at done
      split at done
      · rename_i idle
        have no : applies env g.cnt r = false := by simp [applies, idle]
        rw [List.filter_cons]
        split
        · rw [metaApplied, no]
          exact ih done
        · exact ih done
      rename_i busy
      split at done
      · rename_i blocked
        rw [List.filter_cons]
        split
        · rw [metaApplied, lastVir, blocked]
          simp only [Bool.not_true, Bool.and_false]
          exact ih done
        · exact ih done
      rename_i free
      split at done
      · rename_i regexp
        rw [List.filter_cons_of_neg (by simp [regexp])]
        split at done
        · cases done
        · split at done
          · exact ih done
          · exact ih done
      · rename_i plain
        rw [List.filter_cons_of_pos (by simp [plain])]
        split at done
        · cases done
        · rename_i unlike
          rw [metaApplied]
          split
          · simp only [accepts, plain, unlike]
            exact ih done
          · exact ih done
        · rename_i stem like
          split at done
          · rename_i often
            rw [repeated] at often
            have no : applies env g.cnt r = false := by simp [applies, often]
            rw [metaApplied, no]
            exact ih done
          · rename_i seldom
            split at done
            · cases done
            · rename_i more middle called
              obtain ⟨rfl, keeps⟩ := ruleArcs_eq keeping called
              have back := leave_enter r keeps
              obtain ⟨whole, rest⟩ := ih done
              have counters : (leave r middle).cnt = g.cnt := back.1
              have yes : applies env g.cnt r = true := by
                rw [repeated] at seldom
                simp only [applies, busy, seldom]
                rfl
              have admitted : (!(r.has NOVIRT && lastVir arcs)) = true := by
                rw [Bool.not_eq_true']
                exact Bool.eq_false_iff.mpr free
              have made := group_shown (fun pre => subst stem pre NAMEBLOCK) r stem name rmatch
              rw [if_neg plain] at made
              have accepted : accepts env name r = some (stem, none) := by simp [accepts, plain, like]
              refine ⟨?_, back.trans rest⟩
              rw [whole, List.map_append, metaApplied, yes, admitted, counters, lastVir_append made, accepted, made]
              simp only [Bool.and_self, if_true, List.flatMap_cons, List.append_assoc]
              rfl

theorem newnode_keeps (env : Env P) (name : Str) (g : Graph P) : Keeps g (newnode env name g) := by
  refine ⟨rfl, fun m there => ?_⟩
  by_cases same : m = name
  · simp [newnode, same]
  · simpa [newnode, same] using there

theorem setArcs_keeps (name : Str) (arcs : List (Arc P)) (g : Graph P) : Keeps g (setArcs name arcs g) := by
  refine ⟨rfl, fun m there => ?_⟩
  by_cases same : m = name
  · subst same
    simpa [setArcs] using there
  · simpa [setArcs, same] using there

theorem applyrules_keeping (env : Env P) (s : Rules P) (fuel : Nat) : Keeping (applyrules env s fuel) := by
  induction fuel with
  | zero =>
      intro n g g' done
      cases done
  | succ fuel ih =>
      intro n g g' done
      rw [applyrules] at done
      split at done
      · cases done
        exact .refl _
      · split at done
        · cases done
        · rename_i arcs g1 simple
          split at done
          · cases done
          · rename_i arcs' g2 metas
            cases done
            have first := (newnode_keeps env n g).trans (simpleArcs_eq ih simple).2
            exact (first.trans (metaArcs_eq ih metas).2).trans (setArcs_keeps _ _ _)

/-- What an arc of a rule in the target's chain says. -/
def chainGroup (name : Str) (r : Rule P) : List (Shown P) :=
  groupOf id r [] (if r.has REGEXP then some (rcopy name noMatch) else none)

/-- What the arcs say that `applyrules` makes. -/
def made (env : Env P) (s : Rules P) (cnt : Nat → Int8) (name : Str) : List (Shown P) :=
  let chained := (s.deref (s.chain name)).filter (applies env cnt)
  chained.flatMap (chainGroup name) ++
    (metaApplied env cnt name (virtual chained) ((s.deref s.metarules).filter fun r => !r.has REGEXP)).flatMap codeGroup

theorem simpleGroup_shown (name : Str) (r : Rule P) : (simpleGroup name r).map shown = chainGroup name r :=
  group_shown id r [] name noMatch

theorem lastVir_simple (name : Str) (rules : List (Rule P)) : lastVir (rules.flatMap (simpleGroup name)) = virtual rules := by
  rcases List.eq_nil_or_concat rules with rfl | ⟨before, r, rfl⟩
  · rfl
  · rw [List.concat_eq_append, List.flatMap_append, List.flatMap_singleton, lastVir_append (simpleGroup_shown name r)]
    simp [virtual]

theorem applyrules_made {fuel : Nat} {g g' : Graph P} (new : g.nodes name = none)
    (done : applyrules env s fuel name g = some g') :
    ∃ node, g'.nodes name = some node ∧ node.arcs.map shown = made env s g.cnt name := by
  cases fuel with
  | zero => cases done
  | succ fuel =>
      rw [applyrules, new] at done
      have keeping := applyrules_keeping env s fuel
      simp only [Option.isSome_none, Bool.false_eq_true, if_false] at done
      split at done
      · cases done
      · rename_i arcs g1 simple
        split at done
        · cases done
        · rename_i arcs' g2 metas
          cases done
          obtain ⟨rfl, first⟩ := simpleArcs_eq keeping simple
          obtain ⟨whole, second⟩ := metaArcs_eq keeping metas
          have there : (g2.nodes name).isSome := (first.trans second).2 name (by simp [newnode])
          obtain ⟨node, found⟩ := Option.isSome_iff_exists.mp there
          refine ⟨{ node with arcs := arcs' }, by simp [setArcs, found], ?_⟩
          show arcs'.map shown = _
          rw [whole, List.nil_append, lastVir_simple, first.1]
          unfold made
          congr 1
          rw [List.map_flatMap]
          exact congrArg (List.flatMap · _) (funext (simpleGroup_shown name))

/-! The calls end: each makes a node, and only finitely many names can come up. -/

/-- The names a call can come to: those that have room in the buffers. -/
def Names : Set Str := {m | m.length < NAMEBLOCK}

instance finite_byte : Finite UInt8 :=
  Finite.of_injective (fun b : UInt8 => (⟨b.toNat, b.toNat_lt⟩ : Fin 256))
    fun _ _ same => UInt8.toNat_inj.mp (congrArg Fin.val same)

theorem names_finite : Names.Finite := List.finite_length_lt UInt8 NAMEBLOCK

def missing (g : Graph P) : Set Str := {m | m ∈ Names ∧ g.nodes m = none}

/-- A call returns on every graph with at least these nodes. -/
def Total (visit : Str → Graph P → Option (Graph P)) (g : Graph P) : Prop :=
  ∀ m ∈ Names, ∀ g', (∀ x, (g.nodes x).isSome → (g'.nodes x).isSome) → ∃ g'', visit m g' = some g''

theorem Total.later {visit : Str → Graph P → Option (Graph P)} {g g' : Graph P} (total : Total visit g)
    (more : ∀ x, (g.nodes x).isSome → (g'.nodes x).isSome) : Total visit g' :=
  fun m inside g'' grown => total m inside g'' fun x there => grown x (more x there)

section Ends

variable {visit : Str → Graph P → Option (Graph P)} (keeping : Keeping visit)

include keeping in
theorem prereqArcs_total (rename : Str → Str) (arc : Option Str → Arc P) {pres : List Str}
    (inside : ∀ pre ∈ pres, rename pre ∈ Names) (arcs : List (Arc P)) {g : Graph P} (total : Total visit g) :
    ∃ out, prereqArcs visit rename arc pres arcs g = some out := by
  induction pres generalizing arcs g with
  | nil => exact ⟨_, rfl⟩
  | cons pre pres ih =>
      obtain ⟨g', visited⟩ := total (rename pre) (inside pre (by simp)) g fun _ there => there
      simp only [prereqArcs, visited]
      exact ih (fun p member => inside p (by simp [member])) _ (total.later (keeping _ _ _ visited).2)

include keeping in
theorem ruleArcs_total (rename : Str → Str) {r : Rule P} (arc : Option Str → Arc P)
    (inside : ∀ pre ∈ r.prereqs, rename pre ∈ Names) (arcs : List (Arc P)) {g : Graph P} (total : Total visit g) :
    ∃ out, ruleArcs visit rename r arc arcs g = some out := by
  unfold ruleArcs
  split
  · exact ⟨_, rfl⟩
  · exact prereqArcs_total keeping rename arc inside arcs total

variable (env) in
include keeping in
theorem simpleArcs_total (target : Str) {rules : List (Rule P)} (inside : ∀ r ∈ rules, ∀ pre ∈ r.prereqs, pre ∈ Names)
    (arcs : List (Arc P)) {g : Graph P} (total : Total visit g) :
    ∃ out, simpleArcs env visit target rules arcs g = some out := by
  induction rules generalizing arcs g with
  | nil => exact ⟨_, rfl⟩
  | cons r rules ih =>
      have later := fun q member => inside q (List.mem_cons_of_mem r member)
      simp only [simpleArcs]
      split
      · exact ih later _ total
      · split
        · exact ih later _ total
        · have grown : Total visit (setProbable target (enter r g)) :=
            total.later fun x there => (setProbable_keeps target _).2 x there
          obtain ⟨⟨more, middle⟩, called⟩ := ruleArcs_total keeping id (fun n => newarc n r [] target noMatch)
            (inside r (by simp)) arcs grown
          rw [called]
          exact ih later _ (grown.later (ruleArcs_eq keeping called).2.2)

variable (env) in
include keeping in
theorem metaArcs_total {target : Str} (room : target ∈ Names) {rules : List (Rule P)} (compiled : ∀ r ∈ rules, r.has REGEXP → r.pat.isSome)
    (rmatch : List Resub) (arcs : List (Arc P)) {g : Graph P} (total : Total visit g) :
    ∃ out, metaArcs env visit target rules rmatch arcs g = some out := by
  induction rules generalizing rmatch arcs g with
  | nil => exact ⟨_, rfl⟩
  | cons r rules ih =>
      have later := fun q member => compiled q (List.mem_cons_of_mem r member)
      simp only [metaArcs]
      split
      · exact ih later _ _ total
      split
      · exact ih later _ _ total
      split
      · rename_i regexp
        obtain ⟨pat, pattern⟩ := Option.isSome_iff_exists.mp (compiled r (by simp) regexp)
        rw [pattern]
        dsimp only
        split <;> exact ih later _ _ total
      · rename_i plain
        split
        · rename_i overrun
          have := matchStem_short room r.target
          rw [overrun] at this
          cases this
        · exact ih later _ _ total
        · rename_i stem _
          split
          · exact ih later _ _ total
          · have short : ∀ pre ∈ r.prereqs, subst stem pre NAMEBLOCK ∈ Names := by
              intro pre _
              rw [subst_eq]
              show (List.take _ _).length < NAMEBLOCK
              rw [List.length_take, NAMEBLOCK]
              omega
            have grown : Total visit (enter r g) := total.later fun _ there => there
            obtain ⟨⟨more, middle⟩, called⟩ := ruleArcs_total keeping (fun pre => subst stem pre NAMEBLOCK)
              (fun n => newarc n r stem target rmatch) short arcs grown
            rw [called]
            exact ih later _ _ (grown.later (ruleArcs_eq keeping called).2.2)

end Ends

theorem deref_heap {addresses : List Nat} {r : Rule P} (member : r ∈ s.deref addresses) : r ∈ s.heap := by
  obtain ⟨i, -, found⟩ := List.mem_filterMap.mp member
  exact List.mem_of_getElem? found

theorem missing_newnode (env : Env P) {m : Str} {g : Graph P} (inside : m ∈ Names) (new : g.nodes m = none) :
    (missing (newnode env m g)).ncard < (missing g).ncard := by
  refine Set.ncard_lt_ncard ?_ (names_finite.subset fun x member => member.1)
  refine ⟨?_, fun subset => ?_⟩
  · rintro x ⟨there, absent⟩
    refine ⟨there, ?_⟩
    by_cases same : x = m
    · rw [same, new]
    · simpa [newnode, same] using absent
  · have gone := (subset (show m ∈ missing g from ⟨inside, new⟩)).2
    simp [newnode] at gone

theorem applyrules_total (env : Env P) (compiled : ∀ r ∈ s.deref s.metarules, r.has REGEXP → r.pat.isSome)
    (short : ∀ r ∈ s.heap, ∀ pre ∈ r.prereqs, pre ∈ Names) (fuel : Nat) {m : Str} {g : Graph P} (inside : m ∈ Names) (enough : (missing g).ncard < fuel) :
    ∃ g', applyrules env s fuel m g = some g' := by
  induction fuel generalizing m g with
  | zero => omega
  | succ fuel ih =>
      rw [applyrules]
      by_cases there : (g.nodes m).isSome
      · exact ⟨g, if_pos there⟩
      · rw [if_neg there]
        have new : g.nodes m = none := by simpa using there
        have fewer := missing_newnode env inside new
        have total : Total (applyrules env s fuel) (newnode env m g) := by
          intro x member g' grown
          refine ih member ?_
          have subset : missing g' ⊆ missing (newnode env m g) := by
            rintro y ⟨known, none⟩
            refine ⟨known, ?_⟩
            by_contra some
            have := grown y (Option.isSome_iff_ne_none.mpr some)
            rw [none] at this
            cases this
          have := Set.ncard_le_ncard subset (names_finite.subset fun x member => member.1)
          omega
        have keeping := applyrules_keeping env s fuel
        have written : ∀ r ∈ s.deref (s.chain m), ∀ pre ∈ r.prereqs, pre ∈ Names :=
          fun r chained => short r (deref_heap chained)
        obtain ⟨⟨arcs, g1⟩, simple⟩ := simpleArcs_total env keeping m written [] total
        obtain ⟨⟨arcs', g2⟩, metas⟩ := metaArcs_total env keeping inside compiled noMatch arcs
          (total.later (simpleArcs_eq keeping simple).2.2)
        exact ⟨_, by rw [simple]; dsimp only; rw [metas]⟩

end Goken.Proofs.MkGraph
