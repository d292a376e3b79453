import Goken.MkVacuous
import Mathlib.Algebra.Order.BigOperators.Group.Finset
import Mathlib.Data.Fintype.Card
import Mathlib.Logic.Relation

/-! What `vacuous` finds, and the calls that it makes: every node is gone over
once, and any further call on it reads the flags back. -/

namespace Goken.Proofs.MkVacuous
open Goken.MkVacuous
open Goken.MkGraph (Rule META)

variable {N P : Type}

/-! The arcs of a node. -/

theorem togo_eq (before arcs : List (Arc N P)) : togo before arcs = before ++ arcs.filter fun a => !a.remove := by
  induction arcs generalizing before with
  | nil => exact (List.append_nil before).symm
  | cons a rest ih =>
      rw [togo]
      cases removed : a.remove with
      | true => rw [if_pos rfl, ih, List.filter_cons_of_neg (by simp [removed])]
      | false => rw [if_neg Bool.false_ne_true, ih, List.filter_cons_of_pos (by simp [removed]), List.append_assoc, List.singleton_append]

/-- An arc of a rule that has an arc among these which stays. -/
def spared (stay : List (Arc N P)) (a : Arc N P) : Bool := stay.any fun b => !b.remove && b.r.address = a.r.address

def spare (stay : List (Arc N P)) (a : Arc N P) : Arc N P := { a with remove := a.remove && !spared stay a }

theorem spare_nil (a : Arc N P) : spare [] a = a := by simp [spare, spared]

theorem spared_address {stay : List (Arc N P)} {a x : Arc N P} (same : x.r.address = a.r.address) : spared stay x = spared stay a := by
  rw [spared, spared, same]

theorem spared_snoc (stay : List (Arc N P)) (a x : Arc N P) :
    spared (stay ++ [a]) x = (spared stay x || (!a.remove && a.r.address = x.r.address)) := by
  simp [spared]

/-- One turn of the loop that undeletes. -/
theorem undelete1_spare {stay : List (Arc N P)} {a : Arc N P} (keeps : (spare stay a).remove = false) (x : Arc N P) :
    undelete1 (spare stay a) (spare stay x) = spare (stay ++ [a]) x := by
  have address : (spare stay a).r.address = a.r.address := rfl
  have address' : (spare stay x).r.address = x.r.address := rfl
  have flag : (spare stay x).remove = (x.remove && !spared stay x) := rfl
  have still : a.remove = false ∨ spared stay a = true := by
    have both : (a.remove && !spared stay a) = false := keeps
    cases removed : a.remove
    · exact .inl rfl
    · rw [removed, Bool.true_and, Bool.not_eq_false'] at both
      exact .inr both
  rw [undelete1, address, address', flag]
  by_cases same : x.r.address = a.r.address
  · rw [decide_eq_true same, Bool.and_true]
    have covered : spared (stay ++ [a]) x = true := by
      rw [spared_snoc, decide_eq_true same.symm, Bool.and_true]
      rcases still with stays | before
      · rw [stays, Bool.not_false, Bool.or_true]
      · rw [spared_address same, before, Bool.true_or]
    rw [spare, spare, covered]
    cases x.remove <;> cases spared stay x <;> rfl
  · rw [decide_eq_false same, Bool.and_false, if_neg Bool.false_ne_true, spare, spare, spared_snoc, decide_eq_false (Ne.symm same), Bool.and_false,
      Bool.or_false]

theorem spare_snoc_removed {stay : List (Arc N P)} {a : Arc N P} (removed : a.remove = true) (x : Arc N P) :
    spare (stay ++ [a]) x = spare stay x := by
  rw [spare, spare, spared_snoc, removed, Bool.not_true, Bool.false_and, Bool.or_false]

theorem undelete_eq (arcs : List (Arc N P)) : undelete arcs = arcs.map (spare arcs) := by
  have steps : ∀ k ≤ arcs.length, (List.range k).foldl (fun arcs i =>
      arcs[i]?.elim arcs fun a => if a.remove then arcs else arcs.map (undelete1 a)) arcs = arcs.map (spare (arcs.take k)) := by
    intro k inside
    induction k with
    | zero =>
        rw [List.take_zero]
        exact (List.map_congr_left fun a _ => spare_nil a).trans (List.map_id _) |>.symm
    | succ k ih =>
        have here : (arcs.map (spare (arcs.take k)))[k]? = some (spare (arcs.take k) arcs[k]) := by
          rw [List.getElem?_map, List.getElem?_eq_getElem inside, Option.map_some]
        rw [List.range_succ, List.foldl_append, ih (Nat.le_of_succ_le inside), List.foldl_cons, List.foldl_nil, here, List.take_succ_eq_append_getElem inside]
        rw [Option.elim_some]
        split
        · rename_i removed
          exact List.map_congr_left fun x _ => (spare_snoc_removed (Bool.and_eq_true_iff.mp removed).1 x).symm
        · rename_i stays
          rw [List.map_map]
          exact List.map_congr_left fun x _ => undelete1_spare (Bool.eq_false_iff.mpr stays) x
  have whole := steps arcs.length (Nat.le_refl _)
  rw [List.take_length] at whole
  rw [← whole, undelete]
  congr 1
  funext arcs i
  cases arcs[i]? <;> rfl

/-! What a graph is before it is pruned, and what its pruning is to be. -/

/-- Nothing has been visited, and no arc is removed. -/
structure Fresh (g : State N P) : Prop where
  unready : ∀ n, (g.nodes n).flags &&& READY = 0
  kept : ∀ n, ∀ a ∈ (g.nodes n).arcs, a.remove = false
  quiet : g.calls = []

/-- The least solution: not PROBABLE, and every arc is a META arc to such a
node. -/
inductive Vacuous (g : State N P) : N → Prop where
  | intro {n : N} (improbable : (g.nodes n).flags &&& PROBABLE = 0) (metas : ∀ a ∈ (g.nodes n).arcs, a.r.has META = true ∧ a.n ≠ none)
      (all : ∀ a ∈ (g.nodes n).arcs, ∀ m, a.n = some m → Vacuous g m) : Vacuous g n

/-- An arc of a meta rule to a vacuous node. -/
def Gone (g : State N P) (a : Arc N P) : Prop := a.r.has META = true ∧ ∃ m, a.n = some m ∧ Vacuous g m

theorem vacuous_iff {g : State N P} {n : N} : Vacuous g n ↔ (g.nodes n).flags &&& PROBABLE = 0 ∧ ∀ a ∈ (g.nodes n).arcs, Gone g a := by
  constructor
  · rintro ⟨improbable, metas, all⟩
    refine ⟨improbable, fun a member => ⟨(metas a member).1, ?_⟩⟩
    obtain ⟨m, leads⟩ := Option.ne_none_iff_exists'.mp (metas a member).2
    exact ⟨m, leads, all a member m leads⟩
  · rintro ⟨improbable, gone⟩
    refine .intro improbable (fun a member => ?_) fun a member m leads => ?_
    · obtain ⟨labelled, m, leads, -⟩ := gone a member
      exact ⟨labelled, by rw [leads]; nofun⟩
    · obtain ⟨-, m', leads', vacuous⟩ := gone a member
      obtain rfl : m = m' := Option.some.inj (leads.symm.trans leads')
      exact vacuous

/-- An arc of a rule all of whose arcs at the node go. -/
def Removed (g : State N P) (n : N) (a : Arc N P) : Prop := ∀ a' ∈ (g.nodes n).arcs, a'.r.address = a.r.address → Gone g a'

open Classical in
/-- The arcs that are to stay. -/
noncomputable def kept (g : State N P) (n : N) : List (Arc N P) := (g.nodes n).arcs.filter fun a => !decide (Removed g n a)

def targets (g : State N P) (n : N) : List N := (g.nodes n).arcs.filterMap Arc.n

def Child (g : State N P) (n m : N) : Prop := m ∈ targets g n

open Classical in
/-- The arcs with those marked that go. -/
noncomputable def mark (g : State N P) (a : Arc N P) : Arc N P := if Gone g a then { a with remove := true } else a

theorem mark_if {g : State N P} {a : Arc N P} {gone : Bool} (same : gone = true ↔ Gone g a) :
    (if gone then { a with remove := true } else a) = mark g a := by
  rw [mark]
  by_cases goes : Gone g a
  · rw [if_pos (same.mpr goes), if_pos goes]
  · rw [if_neg (goes ∘ same.mp), if_neg goes]

theorem kept_eq {g : State N P} (fresh : Fresh g) (n : N) : togo [] (undelete ((g.nodes n).arcs.map (mark g))) = kept g n := by
  classical
  have flag : ∀ a ∈ (g.nodes n).arcs, (mark g a).remove = decide (Gone g a) := by
    intro a member
    rw [mark]
    split
    · rename_i gone
      exact (decide_eq_true gone).symm
    · rename_i stays
      rw [fresh.kept n a member, decide_eq_false stays]
  have address : ∀ a, (mark g a).r = a.r := by
    intro a
    rw [mark]
    split <;> rfl
  have spares : ∀ a, spared ((g.nodes n).arcs.map (mark g)) (mark g a) = !decide (Removed g n a) := by
    intro a
    rw [Bool.eq_iff_iff, spared, List.any_eq_true, Bool.not_eq_true', decide_eq_false_iff_not]
    constructor
    · rintro ⟨b, member, stays⟩ removed
      obtain ⟨a', inside, rfl⟩ := List.mem_map.mp member
      rw [flag a' inside, address, address, Bool.and_eq_true, Bool.not_eq_true', decide_eq_false_iff_not, decide_eq_true_eq] at stays
      exact stays.1 (removed a' inside stays.2)
    · intro stays
      simp only [Removed, not_forall] at stays
      obtain ⟨a', inside, same, left⟩ := stays
      refine ⟨mark g a', List.mem_map_of_mem inside, ?_⟩
      rw [flag a' inside, address, address, decide_eq_false left, decide_eq_true same]
      rfl
  have last : ∀ a ∈ (g.nodes n).arcs, (spare ((g.nodes n).arcs.map (mark g)) (mark g a)).remove = decide (Removed g n a) := by
    intro a member
    rw [spare, spares, flag a member]
    by_cases removed : Removed g n a
    · rw [decide_eq_true removed, decide_eq_true (removed a member rfl)]
      rfl
    · rw [decide_eq_false removed]
      exact Bool.and_false _
  have same : ∀ a ∈ (g.nodes n).arcs, ¬ Removed g n a → spare ((g.nodes n).arcs.map (mark g)) (mark g a) = a := by
    intro a member stays
    have unmarked : { mark g a with remove := false } = a := by
      have original := fresh.kept n a member
      rw [mark]
      split <;> rw [← original]
    have marked : spare ((g.nodes n).arcs.map (mark g)) (mark g a) =
        { mark g a with remove := (spare ((g.nodes n).arcs.map (mark g)) (mark g a)).remove } := rfl
    rw [marked, last a member, decide_eq_false stays, unmarked]
  rw [togo_eq, List.nil_append, undelete_eq, List.map_map, List.filter_map, kept]
  have filters : (g.nodes n).arcs.filter ((fun a => !a.remove) ∘ (spare ((g.nodes n).arcs.map (mark g)) ∘ mark g)) =
      (g.nodes n).arcs.filter fun a => !decide (Removed g n a) :=
    List.filter_congr fun a member => congrArg not (last a member)
  rw [filters]
  refine (List.map_congr_left fun a member => ?_).trans (List.map_id _)
  obtain ⟨inside, stays⟩ := List.mem_filter.mp member
  exact same a inside (by simpa using stays)

/-! Calls. -/

def Ready (s : State N P) (n : N) : Prop := (s.nodes n).flags &&& READY ≠ 0

/-- The nodes of the calls that have returned. -/
def called (s : State N P) : List N := s.calls.map Prod.fst

/-- What some calls do to a state: `cs` are the nodes they are on, `vs` the ones
that are visited, and `rs` those that a call found ready. -/
structure Calls (g s s' : State N P) (cs vs rs : List N) : Prop where
  nodup : vs.Nodup
  fresh : ∀ v ∈ vs, ¬ Ready s v
  ready : ∀ v, Ready s' v ↔ Ready s v ∨ v ∈ vs
  frame : ∀ v, v ∉ vs → s'.nodes v = s.nodes v
  reach : ∀ v ∈ vs, ∃ c ∈ cs, Relation.ReflTransGen (Child g) c v
  visits : ∀ c ∈ cs, Ready s' c
  made : (called s').Perm (called s ++ (cs ++ vs.flatMap (targets g)))
  parts : (called s').Perm (called s ++ (vs ++ rs))
  again : ∀ m ∈ rs, Ready s' m ∧ (m, 0) ∈ s'.calls
  grows : ∀ x ∈ s.calls, x ∈ s'.calls
  exact : (∀ m ∈ rs, ¬ Vacuous g m) →
    (∀ x ∈ s'.calls, x ∈ s.calls ∨ (x.2 ≠ 0 ↔ Vacuous g x.1)) ∧ ∀ v ∈ vs, (s'.nodes v).arcs = kept g v

theorem Calls.none (g s : State N P) : Calls g s s [] [] [] where
  nodup := List.nodup_nil
  fresh := nofun
  ready := fun v => by simp
  frame := fun _ _ => rfl
  reach := nofun
  visits := nofun
  made := by simp
  parts := by simp
  again := nofun
  grows := fun _ member => member
  exact := fun _ => ⟨fun _ member => .inl member, nofun⟩

theorem Calls.append {g s s' s'' : State N P} {cs vs rs cs' vs' rs' : List N} (first : Calls g s s' cs vs rs)
    (second : Calls g s' s'' cs' vs' rs') : Calls g s s'' (cs ++ cs') (vs ++ vs') (rs ++ rs') := by
  classical
  have apart : ∀ v ∈ vs, v ∉ vs' := fun v member later => second.fresh v later ((first.ready v).mpr (.inr member))
  constructor
  · exact List.nodup_append.mpr ⟨first.nodup, second.nodup, fun v member w later same => apart v member (same ▸ later)⟩
  · intro v member
    rcases List.mem_append.mp member with here | later
    · exact first.fresh v here
    · exact fun ready => second.fresh v later ((first.ready v).mpr (.inl ready))
  · intro v
    rw [second.ready, first.ready, List.mem_append, or_assoc]
  · intro v outside
    rw [List.mem_append, not_or] at outside
    rw [second.frame v outside.2, first.frame v outside.1]
  · intro v member
    rcases List.mem_append.mp member with here | later
    · obtain ⟨c, call, path⟩ := first.reach v here
      exact ⟨c, List.mem_append_left _ call, path⟩
    · obtain ⟨c, call, path⟩ := second.reach v later
      exact ⟨c, List.mem_append_right _ call, path⟩
  · intro c call
    rcases List.mem_append.mp call with here | later
    · exact (second.ready c).mpr (.inl (first.visits c here))
    · exact second.visits c later
  · refine List.perm_iff_count.mpr fun n => ?_
    have here := List.perm_iff_count.mp first.made n
    have later := List.perm_iff_count.mp second.made n
    simp only [List.count_append, List.flatMap_append] at here later ⊢
    omega
  · refine List.perm_iff_count.mpr fun n => ?_
    have here := List.perm_iff_count.mp first.parts n
    have later := List.perm_iff_count.mp second.parts n
    simp only [List.count_append] at here later ⊢
    omega
  · intro m member
    rcases List.mem_append.mp member with here | later
    · obtain ⟨ready, entry⟩ := first.again m here
      exact ⟨(second.ready m).mpr (.inl ready), second.grows _ entry⟩
    · exact second.again m later
  · exact fun x member => second.grows x (first.grows x member)
  · intro plain
    obtain ⟨values, arcs⟩ := first.exact fun m member => plain m (List.mem_append_left _ member)
    obtain ⟨values', arcs'⟩ := second.exact fun m member => plain m (List.mem_append_right _ member)
    constructor
    · intro x member
      rcases values' x member with before | right
      · exact values x before
      · exact .inr right
    · intro v member
      rcases List.mem_append.mp member with here | later
      · rw [second.frame v (apart v here)]
        exact arcs v here
      · exact arcs' v later

/-! The flags. -/

theorem flag_self (flags : Nat) : (flags ||| READY) &&& READY ≠ 0 := by
  rw [Nat.and_or_distrib_right]
  have bit : READY &&& READY = READY := rfl
  rw [bit]
  intro zero
  exact absurd (Nat.or_eq_zero_iff.mp zero).2 (by decide)

theorem flag_other (flags : Nat) {set read : Nat} (apart : set &&& read = 0) : (flags ||| set) &&& read = flags &&& read := by
  rw [Nat.and_or_distrib_right, apart, Nat.or_zero]

/-- VACUOUS does not fit in a byte. -/
theorem vacuous_byte (flags : Nat) : UInt8.ofNat (flags &&& VACUOUS) = 0 := by
  have low : (flags &&& VACUOUS) % 2 ^ 8 = 0 := by
    rw [← Nat.and_two_pow_sub_one_eq_mod, Nat.and_assoc]
    exact Nat.and_zero _
  exact UInt8.toNat_inj.mp low

/-! One call. -/

/-- The state before a call: what has not been visited is as it was. -/
def Begun (g s : State N P) : Prop := ∀ n, ¬ Ready s n → s.nodes n = g.nodes n

theorem Calls.begun {g s s' : State N P} {cs vs rs : List N} (calls : Calls g s s' cs vs rs) (begun : Begun g s) : Begun g s' := by
  intro n unready
  have outside := fun member => unready ((calls.ready n).mpr (.inr member))
  rw [calls.frame n outside]
  exact begun n fun ready => unready ((calls.ready n).mpr (.inl ready))

/-- What a call returns, in a run in which no vacuous node is called again. -/
def Returns (g s : State N P) (n : N) (answer : UInt8 × State N P) : Prop :=
  ∃ vs rs, Calls g s answer.2 [n] vs rs ∧ ((∀ m ∈ rs, ¬ Vacuous g m) → (answer.1 ≠ 0 ↔ Vacuous g n))

theorem visitArcs_cons (visit : N → State N P → Option (UInt8 × State N P)) (a : Arc N P) (rest : List (Arc N P)) (vac : Bool)
    (s : State N P) : visitArcs visit (a :: rest) vac s =
      (match a.n with | none => some (0, s) | some n => visit n s).bind fun (b, s₁) =>
        (visitArcs visit rest (vac && (decide (b ≠ 0) && a.r.has META)) s₁).bind fun (out, vac, s') =>
          some ((if decide (b ≠ 0) && a.r.has META then { a with remove := true } else a) :: out, vac, s') := rfl

/-- The call for an arc, if it leads to a node. -/
theorem visit_gone {g : State N P} {visit : N → State N P → Option (UInt8 × State N P)} {a : Arc N P} {s s' : State N P} {b : UInt8}
    (visits : ∀ n answer, visit n s = some answer → Returns g s n answer)
    (visited : (match a.n with | none => some (0, s) | some n => visit n s) = some (b, s')) :
    ∃ vs rs, Calls g s s' a.n.toList vs rs ∧
      ((∀ m ∈ rs, ¬ Vacuous g m) → ((decide (b ≠ 0) && a.r.has META) = true ↔ Gone g a)) := by
  cases leads : a.n with
  | none =>
      rw [leads] at visited
      obtain ⟨rfl, rfl⟩ := Prod.mk.inj (Option.some.inj visited)
      refine ⟨[], [], Calls.none g s, fun _ => ⟨nofun, ?_⟩⟩
      rintro ⟨-, m, leads', -⟩
      exact absurd (leads.symm.trans leads') nofun
  | some n =>
      rw [leads] at visited
      obtain ⟨vs, rs, calls, value⟩ := visits n (b, s') visited
      refine ⟨vs, rs, calls, fun plain => ?_⟩
      rw [Bool.and_eq_true, decide_eq_true_iff, value plain, and_comm]
      refine and_congr_right fun _ => ⟨fun vacuous => ⟨n, leads, vacuous⟩, ?_⟩
      rintro ⟨m, leads', vacuous⟩
      obtain rfl : n = m := Option.some.inj (leads.symm.trans leads')
      exact vacuous

theorem visitArcs_calls {g : State N P} {visit : N → State N P → Option (UInt8 × State N P)}
    (visits : ∀ n s answer, Begun g s → visit n s = some answer → Returns g s n answer) {arcs out : List (Arc N P)} {vac vac' : Bool}
    {s s' : State N P} (begun : Begun g s) (runs : visitArcs visit arcs vac s = some (out, vac', s')) :
    ∃ vs rs, Calls g s s' (arcs.filterMap Arc.n) vs rs ∧ ((∀ m ∈ rs, ¬ Vacuous g m) →
      out = arcs.map (mark g) ∧ (vac' = true ↔ vac = true ∧ ∀ a ∈ arcs, Gone g a)) := by
  induction arcs generalizing out vac vac' s s' with
  | nil =>
      obtain ⟨rfl, rfl, rfl⟩ : [] = out ∧ vac = vac' ∧ s = s' := by simpa [visitArcs] using runs
      exact ⟨[], [], Calls.none g s, fun _ => ⟨rfl, by simp⟩⟩
  | cons a rest ih =>
      rw [visitArcs_cons] at runs
      obtain ⟨⟨b, s₁⟩, visited, runs⟩ := Option.bind_eq_some_iff.mp runs
      obtain ⟨⟨out', last, s₂⟩, others, ends⟩ := Option.bind_eq_some_iff.mp runs
      obtain ⟨rfl, rfl, rfl⟩ : _ :: out' = out ∧ last = vac' ∧ s₂ = s' := by simpa only [Option.some.injEq, Prod.mk.injEq] using ends
      obtain ⟨vs, rs, calls, value⟩ := visit_gone (fun n answer => visits n s answer begun) visited
      obtain ⟨vs', rs', calls', values⟩ := ih (calls.begun begun) others
      have nodes : (a :: rest).filterMap Arc.n = a.n.toList ++ rest.filterMap Arc.n := by
        rw [List.filterMap_cons]
        cases a.n <;> rfl
      refine ⟨vs ++ vs', rs ++ rs', nodes ▸ calls.append calls', fun plain => ?_⟩
      have here := value fun m member => plain m (List.mem_append_left _ member)
      obtain ⟨marks, all⟩ := values fun m member => plain m (List.mem_append_right _ member)
      constructor
      · rw [List.map_cons, marks, mark_if here]
      · rw [all, Bool.and_eq_true, here, List.forall_mem_cons, and_assoc]

/-- A call that finds its node ready. -/
theorem Calls.found {g s : State N P} {n : N} (ready : Ready s n) : Calls g s (s.returned n 0) [n] [] [n] where
  nodup := List.nodup_nil
  fresh := nofun
  ready := fun v => by simp [Ready, State.returned]
  frame := fun _ _ => rfl
  reach := nofun
  visits := fun c call => List.mem_singleton.mp call ▸ ready
  made := by simp [called, State.returned]
  parts := by simp [called, State.returned]
  again := fun m member => by
    obtain rfl := List.mem_singleton.mp member
    exact ⟨ready, List.mem_append_right _ (List.mem_singleton_self _)⟩
  grows := fun _ member => List.mem_append_left _ member
  exact := fun plain => by
    refine ⟨fun x member => ?_, nofun⟩
    rcases List.mem_append.mp member with before | last
    · exact .inl before
    · obtain rfl := List.mem_singleton.mp last
      exact .inr ⟨fun nonzero => absurd rfl nonzero, fun vacuous => absurd vacuous (plain n (List.mem_singleton_self n))⟩

section
variable [Fintype N]

open Classical in
noncomputable def unready (s : State N P) : Finset N := {v | ¬ Ready s v}

theorem mem_unready {s : State N P} {v : N} : v ∈ unready s ↔ ¬ Ready s v := by
  simp only [unready, Finset.mem_filter, Finset.mem_univ, true_and]

theorem Calls.unready_le {g s s' : State N P} {cs vs rs : List N} (calls : Calls g s s' cs vs rs) : (unready s').card ≤ (unready s).card := by
  refine Finset.card_le_card fun v member => ?_
  rw [mem_unready, calls.ready, not_or] at member
  exact mem_unready.mpr member.1

open Classical in
noncomputable def reached (g : State N P) (root : N) : Finset N := {n | Relation.ReflTransGen (Child g) root n}

theorem mem_reached {g : State N P} {root n : N} : n ∈ reached g root ↔ Relation.ReflTransGen (Child g) root n := by
  simp only [reached, Finset.mem_filter, Finset.mem_univ, true_and]

theorem visitArcs_total {g : State N P} {visit : N → State N P → Option (UInt8 × State N P)} {bound : Nat}
    (visits : ∀ n s answer, Begun g s → visit n s = some answer → Returns g s n answer)
    (total : ∀ n s, Begun g s → (unready s).card < bound → ∃ answer, visit n s = some answer) (arcs : List (Arc N P)) (vac : Bool)
    {s : State N P} (begun : Begun g s) (enough : (unready s).card < bound) : ∃ answer, visitArcs visit arcs vac s = some answer := by
  induction arcs generalizing vac s with
  | nil => exact ⟨_, rfl⟩
  | cons a rest ih =>
      obtain ⟨⟨b, s₁⟩, visited⟩ : ∃ answer, (match a.n with | none => some (0, s) | some n => visit n s) = some answer := by
        cases a.n with
        | none => exact ⟨_, rfl⟩
        | some n => exact total n s begun enough
      obtain ⟨vs, rs, calls, -⟩ := visit_gone (fun n answer => visits n s answer begun) visited
      obtain ⟨⟨out, last, s₂⟩, others⟩ := ih (vac && (decide (b ≠ 0) && a.r.has META)) (calls.begun begun)
        (calls.unready_le.trans_lt enough)
      rw [visitArcs_cons, visited, Option.bind_some]
      dsimp only
      rw [others]
      exact ⟨_, rfl⟩

theorem Calls.visited_iff {g s' : State N P} {root : N} {vs rs : List N} (fresh : Fresh g) (calls : Calls g g s' [root] vs rs) (n : N) :
    n ∈ vs ↔ n ∈ reached g root := by
  have ready : ∀ v, Ready s' v → v ∈ vs := fun v now => ((calls.ready v).mp now).resolve_left fun before => before (fresh.unready v)
  rw [mem_reached]
  constructor
  · intro member
    obtain ⟨c, call, path⟩ := calls.reach n member
    exact List.mem_singleton.mp call ▸ path
  · intro path
    induction path with
    | refl => exact ready root (calls.visits root (List.mem_singleton_self root))
    | tail path child ih =>
        rename_i v w
        have call : w ∈ called s' := calls.made.mem_iff.mpr
          (List.mem_append_right _ (List.mem_append_right _ (List.mem_flatMap.mpr ⟨v, ih, child⟩)))
        have known := calls.parts.mem_iff.mp call
        have quiet : called g = [] := by rw [called, fresh.quiet, List.map_nil]
        rw [quiet, List.nil_append, List.mem_append] at known
        rcases known with here | again
        · exact here
        · exact ready w (calls.again w again).1

end

variable [DecidableEq N]

theorem ready_setFlag (s : State N P) (n v : N) : Ready (s.setFlag n READY) v ↔ v = n ∨ Ready s v := by
  by_cases same : v = n
  · subst same
    simp only [Ready, State.setFlag, Function.update_self, flag_self, ne_eq, not_false_eq_true, true_or]
  · simp only [Ready, State.setFlag, Function.update_of_ne same, same, false_or]

/-- A call that visits its node. -/
theorem Calls.visited {g s s₂ s' : State N P} {n : N} {vs rs : List N} {b : UInt8} (unready : ¬ Ready s n)
    (calls : Calls g (s.setFlag n READY) s₂ (targets g n) vs rs) (others : ∀ v, v ≠ n → s'.nodes v = s₂.nodes v) (ready : Ready s' n)
    (log : s'.calls = s₂.calls ++ [(n, b)])
    (right : (∀ m ∈ rs, ¬ Vacuous g m) → (b ≠ 0 ↔ Vacuous g n) ∧ (s'.nodes n).arcs = kept g n) : Calls g s s' [n] (n :: vs) rs := by
  have outside : n ∉ vs := fun member => calls.fresh n member ((ready_setFlag s n n).mpr (.inl rfl))
  have stays : ∀ v, Ready s₂ v → Ready s' v := by
    intro v before
    by_cases same : v = n
    · exact same ▸ ready
    · rwa [Ready, others v same]
  have names : called s' = called s₂ ++ [n] := by rw [called, log, List.map_append]; rfl
  constructor
  · exact List.nodup_cons.mpr ⟨outside, calls.nodup⟩
  · intro v member
    rcases List.mem_cons.mp member with rfl | later
    · exact unready
    · exact fun before => calls.fresh v later ((ready_setFlag s n v).mpr (.inr before))
  · intro v
    by_cases same : v = n
    · subst same
      exact ⟨fun _ => .inr List.mem_cons_self, fun _ => ready⟩
    · rw [Ready, others v same, List.mem_cons, or_iff_right (b := v ∈ vs) same, ← (or_iff_right (b := Ready s v) same), ← ready_setFlag]
      exact calls.ready v
  · intro v far
    rw [List.mem_cons, not_or] at far
    rw [others v far.1, calls.frame v far.2]
    exact Function.update_of_ne far.1 ..
  · intro v member
    refine ⟨n, List.mem_singleton_self n, ?_⟩
    rcases List.mem_cons.mp member with rfl | later
    · exact .refl
    · obtain ⟨c, child, path⟩ := calls.reach v later
      exact path.head child
  · exact fun c call => List.mem_singleton.mp call ▸ ready
  · refine List.perm_iff_count.mpr fun m => ?_
    have inner := List.perm_iff_count.mp calls.made m
    have same : called (s.setFlag n READY) = called s := rfl
    rw [names, List.flatMap_cons]
    simp only [same, List.count_append] at inner ⊢
    omega
  · refine List.perm_iff_count.mpr fun m => ?_
    have inner := List.perm_iff_count.mp calls.parts m
    have same : called (s.setFlag n READY) = called s := rfl
    have front : n :: vs = [n] ++ vs := rfl
    rw [names, front]
    simp only [same, List.count_append] at inner ⊢
    omega
  · intro m member
    obtain ⟨before, entry⟩ := calls.again m member
    exact ⟨stays m before, log ▸ List.mem_append_left _ entry⟩
  · exact fun x member => log ▸ List.mem_append_left _ (calls.grows x member)
  · intro plain
    obtain ⟨values, arcs⟩ := calls.exact plain
    obtain ⟨value, keeps⟩ := right plain
    constructor
    · intro x member
      rw [log] at member
      rcases List.mem_append.mp member with before | last
      · exact values x before
      · obtain rfl := List.mem_singleton.mp last
        exact .inr value
    · intro v member
      rcases List.mem_cons.mp member with rfl | later
      · exact keeps
      · rw [others v (fun same => outside (same ▸ later))]
        exact arcs v later

/-- What is left to do when the arcs have been gone over. -/
theorem settled (s : State N P) (n : N) (arcs : List (Arc N P)) (vac : Bool) {s' : State N P}
    (sets : s' = if vac then (s.setArcs n arcs).setFlag n VACUOUS else s.setArcs n arcs) :
    (∀ v, v ≠ n → s'.nodes v = s.nodes v) ∧ (Ready s n → Ready s' n) ∧ (s'.nodes n).arcs = arcs ∧ s'.calls = s.calls := by
  cases vac with
  | false =>
      rw [if_neg Bool.false_ne_true] at sets
      subst sets
      refine ⟨fun v other => Function.update_of_ne other .., fun ready => ?_, ?_, rfl⟩
      · simpa only [Ready, State.setArcs, Function.update_self] using ready
      · simp only [State.setArcs, Function.update_self]
  | true =>
      rw [if_pos rfl] at sets
      subst sets
      refine ⟨fun v other => (Function.update_of_ne other ..).trans (Function.update_of_ne other ..), fun ready => ?_, ?_, rfl⟩
      · have flag : ((s.nodes n).flags ||| VACUOUS) &&& READY = (s.nodes n).flags &&& READY := flag_other _ rfl
        simpa only [Ready, State.setFlag, State.setArcs, Function.update_self, flag] using ready
      · simp only [State.setFlag, State.setArcs, Function.update_self]

theorem vacuous_calls {g : State N P} (fresh : Fresh g) (fuel : Nat) :
    ∀ n s answer, Begun g s → vacuous fuel n s = some answer → Returns g s n answer := by
  induction fuel with
  | zero => nofun
  | succ fuel ih =>
      intro n s answer begun runs
      rw [vacuous] at runs
      dsimp only at runs
      split at runs
      · rename_i ready
        obtain rfl := Option.some.inj runs
        rw [vacuous_byte]
        exact ⟨[], [n], Calls.found ready, fun plain =>
          ⟨fun nonzero => absurd rfl nonzero, fun vacuous => absurd vacuous (plain n (List.mem_singleton_self n))⟩⟩
      · rename_i unready
        obtain ⟨⟨out, vac, s₂⟩, visits, ends⟩ := Option.bind_eq_some_iff.mp runs
        have original : s.nodes n = g.nodes n := begun n unready
        have begun' : Begun g (s.setFlag n READY) := by
          intro v unready'
          rw [ready_setFlag, not_or] at unready'
          exact (Function.update_of_ne unready'.1 ..).trans (begun v unready'.2)
        obtain ⟨vs, rs, calls, values⟩ := visitArcs_calls ih begun' visits
        rw [original] at calls values
        obtain rfl := Option.some.inj ends
        obtain ⟨others, keeps, arcs, log⟩ := settled s₂ n (togo [] (undelete out)) vac rfl
        have ready : Ready s₂ n := (calls.ready n).mpr (.inl ((ready_setFlag s n n).mpr (.inl rfl)))
        have value : (∀ m ∈ rs, ¬ Vacuous g m) → ((if vac then (1 : UInt8) else 0) ≠ 0 ↔ Vacuous g n) := by
          intro plain
          rw [vacuous_iff, ← decide_eq_true_iff (p := (g.nodes n).flags &&& PROBABLE = 0), ← (values plain).2]
          cases vac <;> decide
        refine ⟨n :: vs, rs, Calls.visited unready calls others (keeps ready) (by rw [State.returned, log]) fun plain => ⟨value plain, ?_⟩, value⟩
        rw [← kept_eq fresh, ← (values plain).1]
        exact arcs

/-! Enough fuel. -/

section
variable [Fintype N]

theorem unready_setFlag {s : State N P} {n : N} (fresh : ¬ Ready s n) : (unready (s.setFlag n READY)).card < (unready s).card := by
  refine Finset.card_lt_card ((Finset.ssubset_iff_of_subset fun v member => ?_).mpr ⟨n, mem_unready.mpr fresh, fun member => ?_⟩)
  · rw [mem_unready, ready_setFlag, not_or] at member
    exact mem_unready.mpr member.2
  · exact mem_unready.mp member ((ready_setFlag s n n).mpr (.inl rfl))

theorem vacuous_total {g : State N P} (fresh : Fresh g) (fuel : Nat) :
    ∀ n s, Begun g s → (unready s).card < fuel → ∃ answer, vacuous fuel n s = some answer := by
  induction fuel with
  | zero => exact fun n s begun none => absurd none (Nat.not_lt_zero _)
  | succ fuel ih =>
      intro n s begun enough
      rw [vacuous]
      dsimp only
      split
      · exact ⟨_, rfl⟩
      · rename_i first
        have begun' : Begun g (s.setFlag n READY) := by
          intro v unready'
          rw [ready_setFlag, not_or] at unready'
          exact (Function.update_of_ne unready'.1 ..).trans (begun v unready'.2)
        obtain ⟨⟨out, vac, s₂⟩, visits⟩ := visitArcs_total (vacuous_calls fresh fuel) ih (s.nodes n).arcs
          (decide ((s.nodes n).flags &&& PROBABLE = 0)) begun' (Nat.lt_of_lt_of_le (unready_setFlag first) (Nat.le_of_lt_succ enough))
        rw [visits]
        exact ⟨_, rfl⟩

/-! A whole run. -/

/-- How often a node is called: as the root, and for every arc to it. -/
noncomputable def occurrences (g : State N P) (root m : N) : Nat :=
  (if m = root then 1 else 0) + ∑ n ∈ reached g root, (targets g n).count m

/-- Every call has returned whether its node is vacuous, and the arcs that are
left are those to keep. -/
structure Pruned (g : State N P) (root : N) (answer : UInt8 × State N P) : Prop where
  value : answer.1 ≠ 0 ↔ Vacuous g root
  values : ∀ x ∈ answer.2.calls, x.2 ≠ 0 ↔ Vacuous g x.1
  arcs : ∀ n ∈ reached g root, (answer.2.nodes n).arcs = kept g n

theorem Calls.occurrences {g s' : State N P} {root : N} {vs rs : List N} (fresh : Fresh g) (calls : Calls g g s' [root] vs rs) (m : N) :
    occurrences g root m = vs.count m + rs.count m := by
  have quiet : called g = [] := by rw [called, fresh.quiet, List.map_nil]
  have nodes : vs.toFinset = reached g root := Finset.ext fun n => List.mem_toFinset.trans (calls.visited_iff fresh n)
  have made := List.perm_iff_count.mp calls.made m
  have once : [root].count m = if m = root then 1 else 0 := by
    rw [List.count_singleton]
    exact if_congr (beq_iff_eq.trans eq_comm) rfl rfl
  rw [List.perm_iff_count.mp calls.parts m, quiet, List.nil_append, List.nil_append, List.count_append, List.count_append, once,
    List.count_flatMap, ← List.sum_toFinset _ calls.nodup, nodes] at made
  exact made.symm

/-- The pruning is right iff no vacuous node is called twice. -/
theorem vacuous_pruned_iff {g : State N P} (fresh : Fresh g) (root : N) {fuel : Nat} (enough : Fintype.card N < fuel) :
    ∃ answer, vacuous fuel root g = some answer ∧ (Pruned g root answer ↔ ∀ m ∈ reached g root, Vacuous g m → occurrences g root m ≤ 1) := by
  have begun : Begun g g := fun _ _ => rfl
  obtain ⟨answer, runs⟩ := vacuous_total fresh fuel root g begun ((Finset.card_le_univ _).trans_lt enough)
  obtain ⟨vs, rs, calls, value⟩ := vacuous_calls fresh fuel root g answer begun runs
  have once : (∀ m ∈ reached g root, Vacuous g m → occurrences g root m ≤ 1) ↔ ∀ m ∈ rs, ¬ Vacuous g m := by
    constructor
    · intro few m member vacuous
      have inside : m ∈ vs := ((calls.ready m).mp (calls.again m member).1).resolve_left fun before => before (fresh.unready m)
      have bound := few m ((calls.visited_iff fresh m).mp inside) vacuous
      have twice := calls.occurrences fresh m
      have visit := List.count_pos_iff.mpr inside
      have found := List.count_pos_iff.mpr member
      omega
    · intro plain m member vacuous
      have visit := List.nodup_iff_count_le_one.mp calls.nodup m
      rw [calls.occurrences fresh m, List.count_eq_zero_of_not_mem fun again => plain m again vacuous]
      exact visit
  refine ⟨answer, runs, ?_⟩
  rw [once]
  constructor
  · intro pruned m member vacuous
    exact (pruned.values (m, 0) (calls.again m member).2).mpr vacuous rfl
  · intro plain
    obtain ⟨values, arcs⟩ := calls.exact plain
    refine ⟨value plain, fun x member => ?_, fun n member => arcs n ((calls.visited_iff fresh n).mpr member)⟩
    exact (values x member).resolve_left fun before => by rw [fresh.quiet] at before; exact absurd before List.not_mem_nil

end

/-! Two nodes, 1 being vacuous and a prerequisite of 0 by meta rules. -/

def metarule (address : Nat) : Rule Nat := ⟨address, [], [], [], META, 0, none, none⟩

def graphOf (arcs : List (Arc (Fin 2) Nat)) : State (Fin 2) Nat := ⟨fun n => ⟨0, if n = 0 then arcs else []⟩, []⟩

/-- By two rules. -/
def shared : State (Fin 2) Nat := graphOf [⟨some 1, metarule 0, false⟩, ⟨some 1, metarule 1, false⟩]

def single : State (Fin 2) Nat := graphOf [⟨some 1, metarule 0, false⟩]

theorem graphOf_fresh {arcs : List (Arc (Fin 2) Nat)} (keeps : ∀ a ∈ arcs, a.remove = false) : Fresh (graphOf arcs) where
  unready := fun _ => Nat.zero_and _
  kept := fun n a member => by
    by_cases root : n = 0
    · exact keeps a (by simpa only [graphOf, root, if_true] using member)
    · simp only [graphOf, root, if_false, List.not_mem_nil] at member
  quiet := rfl

theorem shared_acyclic (n : Fin 2) : ¬ Relation.TransGen (Child shared) n n := by
  have rises : ∀ {n m}, Relation.TransGen (Child shared) n m → n < m := by
    intro n m path
    have step : ∀ n m, m ∈ targets shared n → n < m := by decide
    induction path with
    | single child => exact step _ _ child
    | tail _ child ih => exact ih.trans (step _ _ child)
  exact fun cycle => absurd (rises cycle) (lt_irrefl n)

theorem second_call_differs : Fresh shared ∧ (∀ n, ¬ Relation.TransGen (Child shared) n n) ∧
    ∃ answer, vacuous 3 0 shared = some answer ∧ answer.2.calls = [(1, 1), (1, 0), (0, 0)] ∧ ¬ Pruned shared 0 answer := by
  refine ⟨graphOf_fresh (by decide), shared_acyclic, _, rfl, rfl, fun pruned => ?_⟩
  have leaf : Vacuous shared 1 := .intro rfl nofun nofun
  exact (pruned.values (1, 0) (.tail _ (.head _))).mpr leaf rfl

theorem single_call_pruned : ∃ answer, vacuous 3 0 single = some answer ∧ Pruned single 0 answer := by
  obtain ⟨answer, runs, right⟩ := vacuous_pruned_iff (g := single) (graphOf_fresh (by decide)) 0 (by decide : Fintype.card (Fin 2) < 3)
  refine ⟨answer, runs, right.mpr fun m _ _ => ?_⟩
  have all : ∀ m : Fin 2, (if m = 0 then 1 else 0) + ∑ n, (targets single n).count m ≤ 1 := by decide
  exact (Nat.add_le_add_left (Finset.sum_le_sum_of_subset (Finset.subset_univ _)) _).trans (all m)

end Goken.Proofs.MkVacuous
