import Goken.Proofs.MkGraph
import Goken.Proofs.MkRules

/-! When the arcs that `applyrules` makes are those the rules call for. -/

namespace Goken.Proofs.MkArcs
open Goken.MkGraph MkMatch Goken.Proofs.MkGraph MkRules

variable {P : Type} {env : Env P} {regcomp : Str → P} {s : Rules P} {defs : List Def} {cnt : Nat → Int8} {name : Str}

/-- The rules given for a target under its own name, in the order given. -/
def named (s : Rules P) (name : Str) : List (Rule P) := s.heap.filter fun r => r.target = name

/-- The simple rules that apply to a target. -/
def simples (env : Env P) (s : Rules P) (cnt : Nat → Int8) (name : Str) : List (Rule P) :=
  ((s.deref s.rules).filter fun r => r.target = name).filter (applies env cnt)

/-- The meta rules that apply to a target. -/
def metas (env : Env P) (s : Rules P) (cnt : Nat → Int8) (name : Str) : List (Rule P × Str × Option (List Resub)) :=
  metaApplied env cnt name (virtual (simples env s cnt name)) (s.deref s.metarules)

theorem expected_eq : expected env s cnt name =
    (simples env s cnt name).flatMap (fun r => groupOf id r [] none) ++ (metas env s cnt name).flatMap (metaGroup name) := rfl

/-- The condition under which the arcs are right. -/
structure Plain (env : Env P) (s : Rules P) (cnt : Nat → Int8) (name : Str) : Prop where
  /-- No REGEXP rule applies to the target. -/
  regexp : ∀ x ∈ metas env s cnt name, x.1.has REGEXP = false
  /-- No meta rule that applies is written like the target. -/
  literal : ∀ r ∈ named s name, applies env cnt r → ruleMeta r = false
  /-- Of the rules given for the target after the first at most one applies. -/
  order : ((named s name).tail.filter (applies env cnt)).length ≤ 1
  /-- The names of the prerequisites fit in the buffer. -/
  fits : ∀ x ∈ metas env s cnt name, emptyPrereqs x.1 = false → ∀ pre ∈ x.1.prereqs, (expand x.2.1 pre).length < NAMEBLOCK

theorem metaApplied_mem {vir : Bool} {rules : List (Rule P)} {x : Rule P × Str × Option (List Resub)}
    (member : x ∈ metaApplied env cnt name vir rules) : x.1 ∈ rules ∧ accepts env name x.1 = some x.2 := by
  induction rules generalizing vir with
  | nil => cases member
  | cons r rules ih =>
      have later : ∀ {vir}, x ∈ metaApplied env cnt name vir rules → x.1 ∈ r :: rules ∧ accepts env name x.1 = some x.2 :=
        fun inside => ⟨List.mem_cons_of_mem r (ih inside).1, (ih inside).2⟩
      rw [metaApplied] at member
      split at member
      · split at member
        · exact later member
        · rename_i m accepted
          rcases List.mem_cons.mp member with rfl | member
          · exact ⟨by simp, accepted⟩
          · exact later member
      · exact later member

/-- Rules that do not apply make no difference. -/
theorem metaApplied_filter {vir : Bool} {rules : List (Rule P)}
    (none : ∀ x ∈ metaApplied env cnt name vir rules, x.1.has REGEXP = false) :
    metaApplied env cnt name vir (rules.filter fun r => !r.has REGEXP) = metaApplied env cnt name vir rules := by
  induction rules generalizing vir with
  | nil => rfl
  | cons r rules ih =>
      rw [metaApplied] at none
      cases regexp : r.has REGEXP with
      | false =>
          rw [List.filter_cons_of_pos (by simp [regexp]), metaApplied, metaApplied]
          split
          · rename_i yes
            rw [if_pos yes] at none
            split
            · rename_i unlike
              rw [unlike] at none
              exact ih none
            · rename_i m accepted
              rw [accepted] at none
              rw [ih fun x member => none x (List.mem_cons_of_mem _ member)]
          · rename_i no
            rw [if_neg no] at none
            exact ih none
      | true =>
          rw [List.filter_cons_of_neg (by simp [regexp]), metaApplied]
          split
          · rename_i yes
            rw [if_pos yes] at none
            split
            · rename_i unlike
              rw [unlike] at none
              exact ih none
            · rename_i m accepted
              rw [accepted] at none
              have := none (r, m) (by simp)
              rw [regexp] at this
              cases this
          · rename_i no
            rw [if_neg no] at none
            exact ih none

/-- Lists whose groups are told apart by their labels are told apart by their
concatenations. -/
theorem flatMap_injective {α β : Type} {f : α → List β} {label : β → α} (some : ∀ x, f x ≠ []) (labels : ∀ x, ∀ y ∈ f x, label y = x)
    {l l' : List α} (same : l.flatMap f = l'.flatMap f) : l = l' := by
  induction l generalizing l' with
  | nil =>
      cases l' with
      | nil => rfl
      | cons y l' =>
          rw [List.flatMap_nil, List.flatMap_cons] at same
          exact absurd (List.append_eq_nil_iff.mp same.symm).1 (some y)
  | cons x l ih =>
      cases l' with
      | nil =>
          rw [List.flatMap_nil, List.flatMap_cons] at same
          exact absurd (List.append_eq_nil_iff.mp same).1 (some x)
      | cons y l' =>
          rw [List.flatMap_cons, List.flatMap_cons] at same
          obtain ⟨a, as, first⟩ := List.exists_cons_of_ne_nil (some x)
          obtain ⟨b, bs, second⟩ := List.exists_cons_of_ne_nil (some y)
          have heads : a = b := by
            rw [first, second] at same
            exact (List.cons.inj same).1
          have here : x = y := by
            rw [← labels x a (by rw [first]; simp), ← labels y b (by rw [second]; simp), heads]
          subst here
          rw [ih (List.append_cancel_left same)]

/-- Concatenations of groups of the same sizes are equal group by group. -/
theorem flatMap_groups {α β : Type} {f g : α → List β} {l : List α} (sizes : ∀ x ∈ l, (f x).length = (g x).length)
    (same : l.flatMap f = l.flatMap g) : ∀ x ∈ l, f x = g x := by
  induction l with
  | nil => simp
  | cons x l ih =>
      rw [List.flatMap_cons, List.flatMap_cons] at same
      obtain ⟨here, there⟩ := List.append_inj same (sizes x (by simp))
      intro y member
      rcases List.mem_cons.mp member with rfl | member
      · exact here
      · exact ih (fun z inside => sizes z (by simp [inside])) there y member

/-- A chain is in the order given when at most one of its later rules counts. -/
theorem twist_order {α : Type} {l : List α} {p : α → Bool} (distinct : l.Nodup) :
    (twist l).filter p = l.filter p ↔ (l.tail.filter p).length ≤ 1 := by
  cases l with
  | nil => simp [twist]
  | cons first rest =>
      have cancel : (first :: rest.reverse).filter p = (first :: rest).filter p ↔ (rest.filter p).reverse = rest.filter p := by
        rw [List.filter_cons, List.filter_cons, ← List.filter_reverse]
        split <;> simp
      rw [twist, cancel, List.tail_cons]
      have distinct : (rest.filter p).Nodup := (List.nodup_cons.mp distinct).2.filter p
      generalize rest.filter p = counted at distinct ⊢
      rcases counted with _ | ⟨x, _ | ⟨y, more⟩⟩
      · simp
      · simp
      · refine ⟨fun turned => ?_, fun short => ?_⟩
        · have last : (x :: y :: more).reverse.head? = (x :: y :: more).head? := congrArg List.head? turned
          rw [List.head?_reverse, List.getLast?_cons_cons, List.head?_cons] at last
          have member : x ∈ y :: more := List.mem_of_getLast? last
          exact absurd member (List.nodup_cons.mp distinct).1
        · simp at short

section Built

variable (built : Built regcomp defs s)

include built in
theorem simples_eq : simples env s cnt name = ((named s name).filter fun r => !ruleMeta r).filter (applies env cnt) := by
  rw [simples, deref_rules built, named]
  exact congrArg (List.filter _) (List.filter_comm _ _ _)

include built in
theorem simples_literal (literal : ∀ r ∈ named s name, applies env cnt r → ruleMeta r = false) :
    simples env s cnt name = (named s name).filter (applies env cnt) := by
  rw [simples_eq built, List.filter_filter]
  refine List.filter_congr fun r member => ?_
  cases yes : applies env cnt r with
  | false => rfl
  | true => simp [literal r member yes]

include built in
theorem chain_eq : (s.deref (s.chain name)).filter (applies env cnt) = (twist (named s name)).filter (applies env cnt) := by
  rw [deref_chain built, named]

theorem mem_twist {α : Type} {l : List α} {x : α} : x ∈ twist l ↔ x ∈ l := by
  cases l <;> simp [twist]

theorem regexp_meta {r : Rule P} (plain : ruleMeta r = false) : r.has REGEXP = false := by
  rw [ruleMeta, Bool.or_eq_false_iff] at plain
  exact plain.2

theorem chainGroup_plain {r : Rule P} (plain : ruleMeta r = false) : chainGroup name r = groupOf id r [] none := by
  simp [chainGroup, regexp_meta plain]

/-- A rule that matches its own text does so with a stem or with submatches. -/
theorem accepts_literal {r : Rule P} {m : Str × Option (List Resub)} (accepted : accepts env r.target r = some m) :
    (m.1 ≠ [] ∧ m.2 = none) ∨ ∃ w rest, m.2 = some (some w :: rest) := by
  rw [accepts] at accepted
  split at accepted
  · obtain ⟨found, -, rfl⟩ := Option.map_eq_some_iff.mp accepted
    exact .inr ⟨found.1, (found.2 ++ noMatch).take (NREGEXP - 1), rfl⟩
  · obtain ⟨stem, like, rfl⟩ := Option.map_eq_some_iff.mp accepted
    refine .inl ⟨?_, rfl⟩
    rintro rfl
    have like : matchStem r.target r.target = some (some []) := by
      cases found : matchStem r.target r.target with
      | none => simp [found] at like
      | some result => simpa [found] using like
    obtain ⟨bytes, c, rest, template, -, -, whole, -⟩ := (matchStem_iff _ _ _).mp like
    have := congrArg List.length (template.symm.trans whole)
    simp at this

theorem metaGroup_label {x : Rule P × Str × Option (List Resub)} {a : Shown P} (member : a ∈ metaGroup name x) :
    a.2 = (x.1, x.2.1, x.2.2.map (rcopy name)) := by
  obtain ⟨r, stem, subs⟩ := x
  cases subs with
  | none => exact groupOf_label member
  | some m => exact groupOf_label member

theorem metaGroup_ne (name : Str) (x : Rule P × Str × Option (List Resub)) : metaGroup name x ≠ [] := by
  obtain ⟨r, stem, subs⟩ := x
  cases subs with
  | none => exact groupOf_ne _ _ _ _
  | some m => exact groupOf_ne _ _ _ _

include built in
/-- A meta rule written like the target gets an arc that no rule calls for. -/
theorem literal_of_eq (same : made env s cnt name = expected env s cnt name) :
    ∀ r ∈ named s name, applies env cnt r → ruleMeta r = false := by
  intro r member yes
  by_contra isMeta
  have target : r.target = name := by simpa using (List.mem_filter.mp member).2
  obtain ⟨a, rest, first⟩ := List.exists_cons_of_ne_nil
    (groupOf_ne id r [] (if r.has REGEXP then some (rcopy name noMatch) else none))
  have inGroup : a ∈ chainGroup name r := by
    rw [chainGroup, first]
    simp
  have label := groupOf_label inGroup
  have inMade : a ∈ made env s cnt name := by
    refine List.mem_append_left _ (List.mem_flatMap.mpr ⟨r, ?_, inGroup⟩)
    rw [chain_eq built]
    exact List.mem_filter.mpr ⟨mem_twist.mpr member, yes⟩
  rw [same] at inMade
  rcases List.mem_append.mp inMade with simple | other
  · obtain ⟨r', inside, inner⟩ := List.mem_flatMap.mp simple
    have equal : r = r' := congrArg Prod.fst (label.symm.trans (groupOf_label inner))
    have plain := (List.mem_filter.mp (List.mem_filter.mp inside).1).1
    rw [deref_rules built, List.mem_filter, ← equal] at plain
    simp [isMeta] at plain
  · obtain ⟨x, inside, inner⟩ := List.mem_flatMap.mp other
    obtain ⟨-, accepted⟩ := metaApplied_mem inside
    have equal := label.symm.trans (metaGroup_label inner)
    obtain ⟨rfl, stem, subs⟩ : r = x.1 ∧ [] = x.2.1 ∧ (if r.has REGEXP then some (rcopy name noMatch) else none) = x.2.2.map (rcopy name) := by
      simpa using equal
    rw [← target] at accepted
    rcases accepts_literal accepted with ⟨nonempty, -⟩ | ⟨w, rest, whole⟩
    · exact nonempty stem.symm
    · rw [whole] at subs
      split at subs
      · simp [rcopy, noMatch, NREGEXP, List.replicate] at subs
      · cases subs

include built in
/-- The simple rules come in their order, and what is left are the meta rules. -/
theorem simple_of_eq (same : made env s cnt name = expected env s cnt name) :
    (s.deref (s.chain name)).filter (applies env cnt) = simples env s cnt name ∧
    (metaApplied env cnt name (virtual (simples env s cnt name)) ((s.deref s.metarules).filter fun r => !r.has REGEXP)).flatMap
      codeGroup = (metas env s cnt name).flatMap (metaGroup name) := by
  have literal := literal_of_eq built same
  have chainPlain : ∀ r ∈ (s.deref (s.chain name)).filter (applies env cnt), ruleMeta r = false := by
    intro r member
    rw [chain_eq built, List.mem_filter, mem_twist] at member
    exact literal r member.1 member.2
  have simplePlain : ∀ r ∈ simples env s cnt name, ruleMeta r = false := by
    intro r member
    rw [simples_literal built literal, List.mem_filter] at member
    exact literal r member.1 member.2
  have groups : ((s.deref (s.chain name)).filter (applies env cnt)).flatMap (chainGroup name) =
      ((s.deref (s.chain name)).filter (applies env cnt)).flatMap fun r => groupOf id r [] none := by
    refine List.flatMap_congr fun r member => chainGroup_plain (chainPlain r member)
  have metaLabel : ∀ r ∈ s.deref s.metarules, ruleMeta r = true := by
    intro r member
    rw [deref_metarules built] at member
    exact (List.mem_filter.mp member).2
  have keep : ∀ l : List (Rule P), (∀ r ∈ l, ruleMeta r = false) →
      (l.flatMap fun r => groupOf id r [] none).filter (fun a => !ruleMeta a.2.1) = l.flatMap fun r => groupOf id r [] none := by
    intro l plain
    refine List.filter_eq_self.mpr fun a member => ?_
    obtain ⟨r, inside, inner⟩ := List.mem_flatMap.mp member
    simp [groupOf_label inner, plain r inside]
  rw [made, expected_eq, groups] at same
  have chained : (s.deref (s.chain name)).filter (applies env cnt) = simples env s cnt name := by
    have kept := congrArg (List.filter fun a : Shown P => !ruleMeta a.2.1) same
    rw [List.filter_append, List.filter_append, keep _ chainPlain, keep _ simplePlain] at kept
    have left : ((metaApplied env cnt name (virtual ((s.deref (s.chain name)).filter (applies env cnt)))
        ((s.deref s.metarules).filter fun r => !r.has REGEXP)).flatMap codeGroup).filter (fun a => !ruleMeta a.2.1) = [] := by
      refine List.filter_eq_nil_iff.mpr fun a member => ?_
      obtain ⟨x, inside, inner⟩ := List.mem_flatMap.mp member
      have known := (List.mem_filter.mp (metaApplied_mem inside).1).1
      simp [groupOf_label inner, metaLabel _ known]
    have right : ((metas env s cnt name).flatMap (metaGroup name)).filter (fun a => !ruleMeta a.2.1) = [] := by
      refine List.filter_eq_nil_iff.mpr fun a member => ?_
      obtain ⟨x, inside, inner⟩ := List.mem_flatMap.mp member
      simp [metaGroup_label inner, metaLabel _ (metaApplied_mem inside).1]
    rw [left, right, List.append_nil, List.append_nil] at kept
    exact flatMap_injective (fun r => groupOf_ne id r [] none) (fun r a member => congrArg Prod.fst (groupOf_label member)) kept
  refine ⟨chained, ?_⟩
  rw [chained] at same
  exact List.append_cancel_left same

theorem accepts_plain {r : Rule P} {m : Str × Option (List Resub)} (plain : r.has REGEXP = false)
    (accepted : accepts env name r = some m) : m.2 = none := by
  rw [accepts, plain] at accepted
  obtain ⟨stem, -, rfl⟩ := Option.map_eq_some_iff.mp accepted
  rfl

theorem metaGroup_plain {x : Rule P × Str × Option (List Resub)} (none : x.2.2 = none) :
    metaGroup name x = groupOf (expand x.2.1) x.1 x.2.1 .none := by
  rw [metaGroup, none]

/-- The code's arcs of a meta rule are right when the names fit. -/
theorem codeGroup_iff {x : Rule P × Str × Option (List Resub)} (none : x.2.2 = none) : codeGroup x = metaGroup name x ↔
    (emptyPrereqs x.1 = false → ∀ pre ∈ x.1.prereqs, (expand x.2.1 pre).length < NAMEBLOCK) := by
  rw [metaGroup_plain none, codeGroup, groupOf, groupOf]
  cases leaf : emptyPrereqs x.1 with
  | true => simp
  | false =>
      have one : ∀ pre, subst x.2.1 pre NAMEBLOCK = expand x.2.1 pre ↔ (expand x.2.1 pre).length < NAMEBLOCK := by
        intro pre
        rw [subst_eq, List.take_eq_self_iff]
        simp only [NAMEBLOCK]
        omega
      rw [if_neg (by simp), if_neg (by simp), List.map_inj_left]
      simp [one]

include built in
theorem made_eq_iff : made env s cnt name = expected env s cnt name ↔ Plain env s cnt name := by
  constructor
  · intro same
    obtain ⟨chained, rest⟩ := simple_of_eq built same
    have literal := literal_of_eq built same
    have regexp : ∀ x ∈ metas env s cnt name, x.1.has REGEXP = false := by
      intro x member
      by_contra has
      obtain ⟨a, more, first⟩ := List.exists_cons_of_ne_nil (metaGroup_ne name x)
      have inGroup : a ∈ metaGroup name x := by simp [first]
      have inside : a ∈ (metas env s cnt name).flatMap (metaGroup name) := List.mem_flatMap.mpr ⟨x, member, inGroup⟩
      rw [← rest] at inside
      obtain ⟨y, known, inner⟩ := List.mem_flatMap.mp inside
      have equal : x.1 = y.1 := (Prod.mk.inj ((metaGroup_label inGroup).symm.trans (groupOf_label inner))).1
      have plain := (List.mem_filter.mp (metaApplied_mem known).1).2
      rw [← equal] at plain
      simp [has] at plain
    have order : ((named s name).tail.filter (applies env cnt)).length ≤ 1 := by
      have distinct : (named s name).Nodup := (heap_nodup built).filter _
      rw [← twist_order distinct, ← chain_eq built, chained, simples_literal built literal]
    refine ⟨regexp, literal, order, ?_⟩
    have none : ∀ x ∈ metas env s cnt name, x.2.2 = none :=
      fun x member => accepts_plain (regexp x member) (metaApplied_mem member).2
    rw [metaApplied_filter regexp] at rest
    have sizes : ∀ x ∈ metas env s cnt name, (codeGroup x).length = (metaGroup name x).length := by
      intro x member
      rw [metaGroup_plain (none x member), codeGroup, groupOf, groupOf]
      split <;> simp
    exact fun x member => (codeGroup_iff (none x member)).mp (flatMap_groups sizes rest x member)
  · rintro ⟨regexp, literal, order, fits⟩
    have chained : (s.deref (s.chain name)).filter (applies env cnt) = simples env s cnt name := by
      rw [chain_eq built, simples_literal built literal]
      exact (twist_order ((heap_nodup built).filter _)).mpr order
    have plain : ∀ r ∈ simples env s cnt name, ruleMeta r = false := by
      intro r member
      rw [simples_literal built literal, List.mem_filter] at member
      exact literal r member.1 member.2
    rw [made, expected_eq, chained]
    congr 1
    · exact List.flatMap_congr fun r member => chainGroup_plain (plain r member)
    · have same := metaApplied_filter regexp
      rw [same]
      refine List.flatMap_congr fun x member => (codeGroup_iff ?_).mpr (fits x member)
      exact accepts_plain (regexp x member) (metaApplied_mem member).2

end Built

/-- The target's node gets the arcs its rules call for. -/
def Reflects (env : Env P) (s : Rules P) (name : Str) (g : Graph P) : Prop :=
  ∃ enough, ∀ fuel ≥ enough, ∃ g' node, applyrules env s fuel name g = some g' ∧ g'.nodes name = some node ∧
    node.arcs.map shown = expected env s g.cnt name

/-- The names written in the rules have room in the buffers. -/
def Short (defs : List Def) : Prop := ∀ d ∈ defs, ∀ pre ∈ d.prereqs, pre.length < NAMEBLOCK

/-- For rules given to `addrule` one after the other, none of them again with
another R attribute, `applyrules` returns and gives a new target the arcs its
rules call for just when the target is plain. -/
theorem applyrules_reflects_iff (env : Env P) (regcomp : Str → P) (defs : List Def) (consistent : Consistent defs)
    (short : Short defs) (name : Str) (room : name.length < NAMEBLOCK) (g : Graph P) (new : g.nodes name = none) :
    Reflects env (addrules regcomp defs) name g ↔ Plain env (addrules regcomp defs) g.cnt name := by
  have built := built_addrules regcomp consistent
  have compiled : ∀ r ∈ (addrules regcomp defs).deref (addrules regcomp defs).metarules, r.has REGEXP → r.pat.isSome := by
    intro r member has
    rw [built.pattern r (deref_heap member) has]
    rfl
  have written : ∀ r ∈ (addrules regcomp defs).heap, ∀ pre ∈ r.prereqs, pre ∈ Names := by
    intro r member pre inside
    obtain ⟨d, given, -, prereqs, -⟩ := built.origin r member
    exact short d given pre (prereqs ▸ inside)
  rw [← made_eq_iff built]
  constructor
  · rintro ⟨enough, reflects⟩
    obtain ⟨g', node, done, found, right⟩ := reflects enough (Nat.le_refl _)
    obtain ⟨node', found', told⟩ := applyrules_made new done
    obtain rfl : node = node' := Option.some.inj (found.symm.trans found')
    exact told.symm.trans right
  · intro same
    refine ⟨(missing g).ncard + 1, fun fuel enough => ?_⟩
    obtain ⟨g', done⟩ := applyrules_total env compiled written fuel room enough
    obtain ⟨node, found, told⟩ := applyrules_made new done
    exact ⟨g', node, done, found, told.trans same⟩

/-- `regexec` for patterns without operators: the first place where the text
stands in the name. -/
def literal (pat name : Str) : Option ((Nat × Nat) × List Resub) :=
  ((List.range (name.length + 1)).find? fun i => pat.isPrefixOf (name.drop i)).map fun i => ((i, i + pat.length), [])

def emptyGraph : Graph Str := ⟨fun _ => none, fun _ => 0⟩

/-- `%.o: %.c` and `a.o: b` give `a.o` two arcs, to `b` and to `a.c`. -/
theorem reflects_object : Reflects ⟨literal, fun _ => false, 1⟩
    (addrules id [⟨[37, 46, 111], [[37, 46, 99]], [114], 0, none⟩, ⟨[97, 46, 111], [[98]], [], 0, none⟩]) [97, 46, 111] emptyGraph := by
  refine (applyrules_reflects_iff _ id _ ?_ ?_ _ (by decide) emptyGraph rfl).mpr ⟨?_, ?_, ?_, ?_⟩
  · unfold Consistent
    decide
  · unfold Short
    decide
  · decide
  · decide
  · decide
  · decide

/-- The rule `ab:R: c` matches `xab`, whose node gets no arc. -/
theorem regexp_rule_without_arcs : ¬ Reflects ⟨literal, fun _ => false, 1⟩
    (addrules id [⟨[97, 98], [[99]], [114], REGEXP, none⟩]) [120, 97, 98] emptyGraph := by
  rintro ⟨enough, reflects⟩
  obtain ⟨g, node, done, found, right⟩ := reflects enough (Nat.le_refl _)
  obtain ⟨node', found', told⟩ := applyrules_made (show emptyGraph.nodes [120, 97, 98] = none from rfl) done
  obtain rfl : node = node' := Option.some.inj (found.symm.trans found')
  have none : (made ⟨literal, fun _ => false, 1⟩ (addrules id [⟨[97, 98], [[99]], [114], REGEXP, .none⟩]) emptyGraph.cnt
      [120, 97, 98]).length = 0 := by decide
  have one : (expected ⟨literal, fun _ => false, 1⟩ (addrules id [⟨[97, 98], [[99]], [114], REGEXP, .none⟩]) emptyGraph.cnt
      [120, 97, 98]).length = 1 := by decide
  rw [← right, told, none] at one
  cases one

end Goken.Proofs.MkArcs
