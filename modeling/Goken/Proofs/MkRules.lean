import Goken.MkGraph
import Mathlib.Data.List.Induction
import Mathlib.Data.List.Nodup

/-! The lists that `addrule` keeps, in terms of the rules allocated. A rule given
again under the same target and prerequisites is changed in place, which keeps
every list as long as its R attribute does not change. -/

namespace Goken.Proofs.MkRules
open Goken.MkGraph

variable {P : Type} {regcomp : Str → P} {s : Rules P} {defs : List Def}

/-- The places in a list where a test holds. -/
def positions {α : Type} (test : α → Bool) (l : List α) : List Nat := (List.range l.length).filter fun i => l[i]?.any test

theorem positions_append {α : Type} (test : α → Bool) (l : List α) (x : α) :
    positions test (l ++ [x]) = positions test l ++ if test x then [l.length] else [] := by
  have old : (List.range l.length).filter (fun i => (l ++ [x])[i]?.any test) = positions test l := by
    refine List.filter_congr fun i inside => ?_
    rw [List.getElem?_append_left (List.mem_range.mp inside)]
  rw [positions, List.length_append, List.length_singleton, List.range_succ, List.filter_append, old, List.filter_singleton]
  simp

theorem positions_set {α : Type} {test : α → Bool} {l : List α} {i : Nat} {x y : α} (there : l[i]? = some x)
    (same : test y = test x) : positions test (l.set i y) = positions test l := by
  have inside := (List.getElem?_eq_some_iff.mp there).1
  rw [positions, List.length_set]
  refine List.filter_congr fun j _ => ?_
  by_cases here : i = j
  · subst here
    rw [List.getElem?_set_self inside, there]
    exact same
  · rw [List.getElem?_set_ne here]

theorem positions_get {α : Type} (test : α → Bool) (l : List α) : (positions test l).filterMap (fun i => l[i]?) = l.filter test := by
  induction l using List.reverseRecOn with
  | nil => rfl
  | append_singleton l x ih =>
      rw [positions_append, List.filterMap_append, List.filter_append]
      have old : (positions test l).filterMap (fun i => (l ++ [x])[i]?) = (positions test l).filterMap fun i => l[i]? := by
        refine List.filterMap_congr fun i member => ?_
        rw [List.getElem?_append_left (List.mem_range.mp (List.mem_filter.mp member).1)]
      rw [old, ih]
      cases holds : test x <;> simp [holds]

/-- The order in which `addrule` chains: each new rule comes right after the first. -/
def twist {α : Type} : List α → List α
  | [] => []
  | first :: rest => first :: rest.reverse

theorem twist_filterMap {α β : Type} {f : α → Option β} {l : List α} (all : ∀ x ∈ l, (f x).isSome) :
    (twist l).filterMap f = twist (l.filterMap f) := by
  cases l with
  | nil => rfl
  | cons x l =>
      obtain ⟨y, image⟩ := Option.isSome_iff_exists.mp (all x (by simp))
      simp only [twist, List.filterMap_cons, image, List.filterMap_reverse]

theorem twist_append {α : Type} (l : List α) (x : α) : twist (l ++ [x]) =
    match twist l with
    | [] => [x]
    | first :: rest => first :: x :: rest := by
  cases l with
  | nil => rfl
  | cons first rest => simp [twist]

def ruleMeta (r : Rule P) : Bool := charin r.target [percent, ampersand] || r.has REGEXP

def regexpDef (d : Def) : Bool := d.attr &&& REGEXP ≠ 0

/-- No rule is given again with the R attribute changed. With R added the pattern is never
compiled; with R taken away the rule is a simple one that stays among the metarules. -/
def Consistent (defs : List Def) : Prop :=
  ∀ d ∈ defs, ∀ e ∈ defs, d.target = e.target → d.prereqs = e.prereqs → regexpDef d = regexpDef e

structure Built (regcomp : Str → P) (defs : List Def) (s : Rules P) : Prop where
  address : ∀ i (r : Rule P), s.heap[i]? = some r → r.address = i
  chain : ∀ t, s.chain t = twist (positions (fun r => r.target = t) s.heap)
  rules : s.rules = positions (fun r => !ruleMeta r) s.heap
  metas : s.metarules = positions ruleMeta s.heap
  origin : ∀ r ∈ s.heap, ∃ d ∈ defs, r.target = d.target ∧ r.prereqs = d.prereqs ∧ r.has REGEXP = regexpDef d
  pattern : ∀ r ∈ s.heap, r.has REGEXP → r.pat = some (regcomp r.target)

/-- The attribute META that `addrule` sets is no other attribute. -/
theorem has_attr (d : Def) (r : Rule P) (attr : r.attr = if isMeta d then d.attr ||| META else d.attr) :
    r.has REGEXP = regexpDef d := by
  rw [Rule.has, regexpDef, attr]
  split
  · rw [Nat.and_or_distrib_right, show META &&& REGEXP = 0 from rfl, Nat.or_zero]
  · rfl

theorem meta_attr (d : Def) (r : Rule P) (attr : r.attr = if isMeta d then d.attr ||| META else d.attr)
    (target : r.target = d.target) : ruleMeta r = isMeta d := by
  rw [ruleMeta, isMeta, target, has_attr d r attr, regexpDef]

theorem deref_chain (built : Built regcomp defs s) (t : Str) :
    s.deref (s.chain t) = twist (s.heap.filter fun r => r.target = t) := by
  rw [Rules.deref, built.chain, twist_filterMap, positions_get]
  intro i member
  have := (List.mem_filter.mp member).2
  rw [Option.any_eq_true] at this
  obtain ⟨r, found, -⟩ := this
  simp [found]

theorem deref_rules (built : Built regcomp defs s) : s.deref s.rules = s.heap.filter fun r => !ruleMeta r := by
  rw [Rules.deref, built.rules, positions_get]

theorem deref_metarules (built : Built regcomp defs s) : s.deref s.metarules = s.heap.filter ruleMeta := by
  rw [Rules.deref, built.metas, positions_get]

theorem heap_nodup (built : Built regcomp defs s) : s.heap.Nodup := by
  rw [List.nodup_iff_getElem?_ne_getElem?]
  intro i j less inside same
  obtain ⟨r, found⟩ := Option.isSome_iff_exists.mp (by simpa using inside : (s.heap[j]?).isSome)
  have := built.address i r (same.trans found)
  have := built.address j r found
  omega

theorem built_reuse (built : Built regcomp defs s) (d : Def) (consistent : Consistent (defs ++ [d])) {old r : Rule P}
    (member : old ∈ s.heap) (alike : same d old = true) (address : r.address = old.address) (target : r.target = d.target)
    (prereqs : r.prereqs = d.prereqs) (attr : r.attr = if isMeta d then d.attr ||| META else d.attr) (pat : r.pat = old.pat)
    (nrules : Nat) : Built regcomp (defs ++ [d]) { s with heap := s.heap.set old.address r, nrules := nrules } := by
  simp only [same, Bool.and_eq_true, decide_eq_true_eq] at alike
  obtain ⟨i, found⟩ := List.mem_iff_getElem?.mp member
  obtain rfl := built.address i old found
  obtain ⟨e, given, sameTarget, samePrereqs, regexp⟩ := built.origin old member
  have unchanged : r.has REGEXP = old.has REGEXP := by
    rw [has_attr d r attr, regexp]
    exact consistent d (by simp) e (by simp [given]) (alike.1.symm.trans sameTarget) (alike.2.symm.trans samePrereqs)
  have aimed : r.target = old.target := target.trans alike.1.symm
  have kind : ruleMeta r = ruleMeta old := by rw [ruleMeta, ruleMeta, aimed, unchanged]
  refine ⟨?_, ?_, ?_, ?_, ?_, ?_⟩
  · intro j x there
    by_cases here : old.address = j
    · subst here
      rw [List.getElem?_set_self (List.getElem?_eq_some_iff.mp found).1] at there
      cases there
      exact address
    · rw [List.getElem?_set_ne here] at there
      exact built.address j x there
  · intro t
    rw [positions_set found (by rw [aimed])]
    exact built.chain t
  · rw [positions_set found (by rw [kind])]
    exact built.rules
  · rw [positions_set found kind]
    exact built.metas
  · intro x inside
    rcases List.mem_or_eq_of_mem_set inside with inside | rfl
    · obtain ⟨e, given, rest⟩ := built.origin x inside
      exact ⟨e, by simp [given], rest⟩
    · exact ⟨d, by simp, target, prereqs, has_attr d x attr⟩
  · intro x inside regexp
    rcases List.mem_or_eq_of_mem_set inside with inside | rfl
    · exact built.pattern x inside regexp
    · rw [pat, aimed]
      exact built.pattern old member (unchanged ▸ regexp)

theorem built_addrule (built : Built regcomp defs s) (d : Def) (consistent : Consistent (defs ++ [d])) :
    Built regcomp (defs ++ [d]) (addrule regcomp s d) := by
  unfold addrule
  dsimp only
  split
  · rename_i old found
    have member : old ∈ s.heap := by
      have inside := List.mem_of_find?_eq_some found
      rw [deref_chain built] at inside
      cases named : s.heap.filter fun r => r.target = d.target with
      | nil => simp [named, twist] at inside
      | cons first rest =>
          rw [named, twist, List.mem_cons, List.mem_reverse, ← List.mem_cons, ← named] at inside
          exact (List.mem_filter.mp inside).1
    refine built_reuse built d consistent member (List.find?_some found) ?_ ?_ ?_ ?_ ?_ (s.nrules + 1) <;> rfl
  · generalize flags : (if isMeta d then d.attr ||| META else d.attr) = attr
    have regexp : ∀ r : Rule P, r.attr = attr → r.has REGEXP = regexpDef d := fun r eq => has_attr d r (by rw [flags, eq])
    have kind : ∀ r : Rule P, r.attr = attr → r.target = d.target → ruleMeta r = isMeta d :=
      fun r eq target => meta_attr d r (by rw [flags, eq]) target
    refine ⟨?_, ?_, ?_, ?_, ?_, ?_⟩
    · intro i r there
      rw [List.getElem?_append] at there
      split at there
      · exact built.address i r there
      · rename_i beyond
        rw [List.getElem?_singleton] at there
        split at there
        · cases there
          show s.heap.length = i
          omega
        · cases there
    · intro t
      dsimp only
      rw [positions_append]
      by_cases here : t = d.target
      · rw [if_pos here, if_pos (by simp [here]), built.chain, twist_append]
        cases twist (positions (fun r : Rule P => r.target = t) s.heap) <;> rfl
      · rw [if_neg here, if_neg (by simpa using fun same => here same.symm), List.append_nil]
        exact built.chain t
    · dsimp only
      rw [positions_append, kind _ rfl rfl, built.rules]
      cases isMeta d <;> simp
    · dsimp only
      rw [positions_append, kind _ rfl rfl, built.metas]
      cases isMeta d <;> simp
    · intro x inside
      rcases List.mem_append.mp inside with inside | inside
      · obtain ⟨e, given, rest⟩ := built.origin x inside
        exact ⟨e, by simp [given], rest⟩
      · rw [List.mem_singleton.mp inside]
        exact ⟨d, by simp, rfl, rfl, regexp _ rfl⟩
    · intro x inside has
      rcases List.mem_append.mp inside with inside | inside
      · exact built.pattern x inside has
      · rw [List.mem_singleton.mp inside] at has ⊢
        rw [regexp _ rfl, regexpDef, decide_eq_true_eq] at has
        exact if_pos has

theorem built_addrules (regcomp : Str → P) {defs : List Def} (consistent : Consistent defs) :
    Built regcomp defs (addrules regcomp defs) := by
  induction defs using List.reverseRecOn with
  | nil => exact ⟨by simp [addrules, noRules], fun _ => rfl, rfl, rfl, by simp [addrules, noRules], by simp [addrules, noRules]⟩
  | append_singleton defs d ih =>
      have earlier : Consistent defs := fun x one y two => consistent x (by simp [one]) y (by simp [two])
      rw [addrules, List.foldl_append]
      exact built_addrule (ih earlier) d consistent

end Goken.Proofs.MkRules
