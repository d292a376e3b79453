import Goken.Lib.Halting
import Goken.Proofs.Regcomp
import Goken.Proofs.RegexecEnds

/-! The `next` pointers of a compiled expression close no circle: an operator links the last
instruction of an operand, which has no `next` yet, to an operand that ends elsewhere. Stars
go back by `right` only. -/

namespace Goken.Proofs.RegcompChains
open Goken.Regexec Goken.Regcomp Lib.Outcome Proofs.Regcomp RegexecEnds
open Lib.Steps (Reaches Halts)

/-- The chains of `next` pointers, as a machine. -/
def chain (code : List Reinst) (i : Nat) : Option Nat := code[i]?.bind Reinst.next

/-- `inst->next = next`. -/
def linked (code : List Reinst) (i next : Nat) : List Reinst := code.modify i fun inst => { inst with next := some next }

section Chains

variable {code : List Reinst} {i k : Nat}

theorem chain_beyond (beyond : code.length ≤ i) : chain code i = none := by
  rw [chain, List.getElem?_eq_none beyond]
  rfl

theorem chain_add {x : Reinst} (ends : x.next = none) : chain (code ++ [x]) = chain code := by
  funext i
  rcases Nat.lt_trichotomy i code.length with less | rfl | beyond
  · rw [chain, chain, List.getElem?_append_left less]
  · rw [chain_beyond (Nat.le_refl _), chain, List.getElem?_concat_length]
    exact ends
  · rw [chain_beyond (Nat.le_of_lt beyond), chain_beyond (by rw [List.length_append]; exact beyond)]

theorem chain_linked (inside : i < code.length) : chain (linked code i k) = Function.update (chain code) i (some k) := by
  funext x
  by_cases same : x = i
  · subst same
    rw [Function.update_self, chain, linked, List.getElem?_modify_eq, List.getElem?_eq_getElem inside]
    rfl
  · rw [Function.update_of_ne same, chain, chain, linked, List.getElem?_modify_ne _ _ (Ne.symm same)]

theorem length_linked : (linked code i k).length = code.length := List.length_modify _ _ _

theorem add_linked (code : List Reinst) (t : Kind) (u1 : Union) (rest : List Reinst) :
    linked (code ++ ⟨t, u1, none⟩ :: rest) code.length k = code ++ ⟨t, u1, some k⟩ :: rest := by
  induction code with
  | nil => rfl
  | cons x code ih =>
    rw [linked, List.cons_append, List.length_cons, List.modify_succ_cons]
    exact congrArg (x :: ·) ih

end Chains

/-- The instructions of an operand lead from the first to the last, and no further. -/
structure Ends (code : List Reinst) (p : Nat × Nat) : Prop where
  inside : p.2 < code.length
  leads : Reaches (chain code) p.1 p.2
  stops : chain code p.2 = none

/-- Every chain of the code ends, and those of the operands where they should. -/
structure Chained (code : List Reinst) (ands : List (Nat × Nat)) : Prop where
  halts : ∀ i, Halts (chain code) i
  ends : ∀ p ∈ ands, Ends code p

namespace Chained

variable {code : List Reinst} {ands : List (Nat × Nat)} (chained : Chained code ands)
include chained

theorem sub {fewer : List (Nat × Nat)} (within : fewer ⊆ ands) : Chained code fewer :=
  ⟨chained.halts, fun p member => chained.ends p (within member)⟩

theorem fresh : code.length ∉ ands.map Prod.snd := by
  intro member
  obtain ⟨p, old, same⟩ := List.mem_map.mp member
  exact Nat.ne_of_lt (chained.ends p old).inside same

/-- A new instruction is an operand of its own. -/
theorem add {x : Reinst} (open_end : x.next = none) : Chained (code ++ [x]) ((code.length, code.length) :: ands) := by
  have same : chain (code ++ [x]) = chain code := chain_add open_end
  refine ⟨same ▸ chained.halts, fun p member => ?_⟩
  rcases List.mem_cons.mp member with rfl | old
  · refine ⟨?_, .refl _, ?_⟩
    · rw [List.length_append]
      exact Nat.lt_succ_self _
    · rw [same]
      exact chain_beyond (Nat.le_refl _)
  · obtain ⟨inside, leads, stops⟩ := chained.ends p old
    refine ⟨?_, same ▸ leads, same ▸ stops⟩
    rw [List.length_append]
    exact Nat.lt_succ_of_lt inside

/-- A link from the end of an operand to one that ends elsewhere: the first now ends there too. -/
theorem link {f l k e : Nat} (first : (f, l) ∈ ands) (second : (k, e) ∈ ands) (other : e ≠ l) (left : List (Nat × Nat))
    (within : left ⊆ ands) (apart : l ∉ left.map Prod.snd) : Chained (linked code l k) ((f, e) :: left) := by
  obtain ⟨inside, leads, stops⟩ := chained.ends _ first
  obtain ⟨inside', leads', stops'⟩ := chained.ends _ second
  have same := chain_linked (k := k) inside
  have joins : Reaches (chain (linked code l k)) l e := by
    rw [same]
    exact .head (Function.update_self ..) (leads'.update stops)
  refine ⟨?_, fun p member => ?_⟩
  · rw [same]
    exact fun i => (chained.halts i).update stops leads' stops' other
  · rcases List.mem_cons.mp member with rfl | old
    · refine ⟨by rw [length_linked]; exact inside', ?_, ?_⟩
      · refine Reaches.trans ?_ joins
        rw [same]
        exact leads.update stops
      · rw [same, Function.update_of_ne other]
        exact stops'
    · have other' : p.2 ≠ l := fun same => apart (List.mem_map.mpr ⟨p, old, same⟩)
      obtain ⟨inside, leads, stops''⟩ := chained.ends p (within old)
      refine ⟨by rw [length_linked]; exact inside, ?_, ?_⟩
      · rw [same]
        exact leads.update stops
      · rw [same, Function.update_of_ne other']
        exact stops''

/-- A new instruction behind an operand. -/
theorem follow {x : Reinst} (open_end : x.next = none) {f l : Nat} {rest : List (Nat × Nat)} (shape : ands = (f, l) :: rest)
    (apart : l ∉ rest.map Prod.snd) :
    Chained (linked (code ++ [x]) l code.length) ((f, code.length) :: (code.length, code.length) :: rest) := by
  subst shape
  have old : code.length ≠ l := fun same => chained.fresh (same ▸ List.mem_cons_self)
  refine (chained.add open_end).link (List.mem_cons_of_mem _ List.mem_cons_self) List.mem_cons_self old _ ?_ ?_
  · exact List.cons_subset_cons _ (List.subset_cons_self _ _)
  · exact fun member => (List.mem_cons.mp member).elim (fun same => old same.symm) apart

/-- A new instruction before an operand. -/
theorem lead (t : Kind) (u1 : Union) {k e : Nat} (second : (k, e) ∈ ands) :
    Chained (code ++ [⟨t, u1, some k⟩]) ((code.length, e) :: ands) := by
  have added : Chained (code ++ [⟨t, u1, none⟩]) ((code.length, code.length) :: ands) := chained.add rfl
  rw [← add_linked]
  exact added.link List.mem_cons_self (List.mem_cons_of_mem _ second) (Nat.ne_of_lt (chained.ends _ second).inside) _
    (List.subset_cons_self _ _) chained.fresh

end Chained

/-- The operands on the stack, with those that have been taken from it. -/
structure Grown (taken : List (Nat × Nat)) (s : State) : Prop where
  chained : Chained s.code (taken ++ s.andstack)
  apart : ((taken ++ s.andstack).map Prod.snd).Nodup

section Operators

variable {s : State}

theorem grown_pushand {f l : Nat} (chained : Chained s.code ((f, l) :: s.andstack)) (apart : l ∉ s.andstack.map Prod.snd)
    (distinct : (s.andstack.map Prod.snd).Nodup) : Keeps (Grown []) (pushand s f l) := by
  unfold pushand
  exact .ite (fun _ => .error trivial) fun _ => .ok ⟨chained, List.nodup_cons.mpr ⟨apart, distinct⟩⟩

theorem grown_popand {taken : List (Nat × Nat)} (grown : Grown taken s) (op : String) :
    Ensures (fun _ => True) (fun x => Grown (taken ++ [x.1]) x.2) (popand s op) := by
  unfold popand
  split
  · exact .error trivial
  next node rest stack =>
    have shape : taken ++ s.andstack = taken ++ [node] ++ rest := by rw [stack, List.append_assoc, List.singleton_append]
    exact .ok ⟨shape ▸ grown.chained, shape ▸ grown.apart⟩

/-- The operands keep their own ends, and what is new ends elsewhere. -/
theorem grown_evaluate (grown : Grown [] s) (subid : Nat) (t : Kind) : Keeps (Grown []) (evaluate s subid t) := by
  have behind (p q : Nat × Nat) (l : List (Nat × Nat)) : l ⊆ p :: q :: l := fun _ member => List.mem_cons_of_mem _ (List.mem_cons_of_mem _ member)
  unfold evaluate
  split
  · refine (grown_popand grown _).bind ?_
    rintro ⟨⟨f, l⟩, s⟩ grown
    change Grown [(f, l)] s at grown
    obtain ⟨apart, distinct⟩ := List.nodup_cons.mp grown.apart
    have fresh := (grown.chained.sub (List.subset_cons_self _ _)).fresh
    have followed := grown.chained.follow (x := ⟨.RBRA, .subid subid, none⟩) rfl rfl apart
    have whole := followed.lead .LBRA (.subid subid) List.mem_cons_self
    exact grown_pushand (whole.sub (List.cons_subset_cons _ (behind _ _ _))) fresh distinct
  · refine (grown_popand grown _).bind ?_
    rintro ⟨⟨f₂, l₂⟩, s⟩ grown
    refine (grown_popand grown _).bind ?_
    rintro ⟨⟨f₁, l₁⟩, s⟩ grown
    change Grown [(f₂, l₂), (f₁, l₁)] s at grown
    obtain ⟨apart, rest⟩ := List.nodup_cons.mp grown.apart
    obtain ⟨apart', distinct⟩ := List.nodup_cons.mp rest
    have fresh := (grown.chained.sub (behind _ _ _)).fresh
    have old : s.code.length ≠ l₁ := fun same => grown.chained.fresh (same ▸ List.mem_cons_of_mem _ List.mem_cons_self)
    have followed := grown.chained.follow (x := ⟨.NOP, .nil, none⟩) rfl rfl apart
    have joined := followed.link (f := f₁) (l := l₁) (by simp)
      (List.mem_cons_of_mem _ List.mem_cons_self) old ((f₂, s.code.length) :: s.andstack) (List.cons_subset_cons _ (behind _ _ _))
      fun member => (List.mem_cons.mp member).elim (fun same => old same.symm) apart'
    have whole := joined.lead .OR (.right f₁) (List.mem_cons_of_mem _ List.mem_cons_self)
    exact grown_pushand (whole.sub (List.cons_subset_cons _ (behind _ _ _))) fresh distinct
  · refine (grown_popand grown _).bind ?_
    rintro ⟨⟨f₂, l₂⟩, s⟩ grown
    refine (grown_popand grown _).bind ?_
    rintro ⟨⟨f₁, l₁⟩, s⟩ grown
    change Grown [(f₂, l₂), (f₁, l₁)] s at grown
    obtain ⟨apart, rest⟩ := List.nodup_cons.mp grown.apart
    obtain ⟨apart', distinct⟩ := List.nodup_cons.mp rest
    have other : l₂ ≠ l₁ := fun same => apart (same ▸ List.mem_cons_self)
    have joined := grown.chained.link (f := f₁) (l := l₁) (List.mem_cons_of_mem _ List.mem_cons_self) List.mem_cons_self other _ (behind _ _ _) apart'
    exact grown_pushand joined (fun member => apart (List.mem_cons_of_mem _ member)) distinct
  · refine (grown_popand grown _).bind ?_
    rintro ⟨⟨f, l⟩, s⟩ grown
    change Grown [(f, l)] s at grown
    obtain ⟨apart, distinct⟩ := List.nodup_cons.mp grown.apart
    have fresh := (grown.chained.sub (List.subset_cons_self _ _)).fresh
    have followed := grown.chained.follow (x := ⟨.OR, .right f, none⟩) rfl rfl apart
    exact grown_pushand (followed.sub (List.subset_cons_self _ _)) fresh distinct
  · refine (grown_popand grown _).bind ?_
    rintro ⟨⟨f, l⟩, s⟩ grown
    change Grown [(f, l)] s at grown
    obtain ⟨apart, distinct⟩ := List.nodup_cons.mp grown.apart
    have fresh := (grown.chained.sub (List.subset_cons_self _ _)).fresh
    have followed := grown.chained.follow (x := ⟨.OR, .right f, none⟩) rfl rfl apart
    exact grown_pushand (followed.sub (List.cons_subset_cons _ (List.subset_cons_self _ _))) fresh distinct
  · refine (grown_popand grown _).bind ?_
    rintro ⟨⟨f, l⟩, s⟩ grown
    change Grown [(f, l)] s at grown
    obtain ⟨apart, distinct⟩ := List.nodup_cons.mp grown.apart
    have size (next : Option Nat) : (s.code ++ [(⟨.OR, .right f, next⟩ : Reinst)]).length = s.code.length + 1 := List.length_append
    have followed := (grown.chained.add (x := ⟨.OR, .right f, none⟩) rfl).follow (x := ⟨.NOP, .nil, none⟩) rfl rfl grown.chained.fresh
    rw [size, List.append_assoc, List.singleton_append, add_linked] at followed
    have inside (p : Nat × Nat) (member : p ∈ (f, l) :: s.andstack) : p.2 ≠ s.code.length + 1 :=
      Nat.ne_of_lt (Nat.lt_succ_of_lt (grown.chained.ends p member).inside)
    have fresh : s.code.length + 1 ∉ s.andstack.map Prod.snd := by
      intro member
      obtain ⟨p, old, same⟩ := List.mem_map.mp member
      exact inside p (List.mem_cons_of_mem _ old) same
    have earlier : l ≠ s.code.length + 1 := inside _ List.mem_cons_self
    have joined := followed.link (f := f) (l := l) (by simp)
      (List.mem_cons_of_mem _ List.mem_cons_self) (Ne.symm earlier) ((s.code.length, s.code.length + 1) :: s.andstack) (List.cons_subset_cons _ (behind _ _ _))
      fun member => (List.mem_cons.mp member).elim earlier apart
    have made := joined.sub (List.subset_cons_self _ _)
    rw [← List.singleton_append, ← List.append_assoc] at made
    change Keeps (Grown []) (pushand (setNext _ l (s.code ++ [_]).length) s.code.length (s.code ++ [_]).length)
    rw [size]
    exact grown_pushand made fresh distinct
  · exact .error trivial

end Operators

theorem grown_invariant : Invariant (Grown []) where
  scans grown code ands _ := ⟨by rw [code, ands]; exact grown.chained, by rw [ands]; exact grown.apart⟩
  evaluates := by
    intro s t subid rest grown _
    have popped : Grown [] { s with atorstack := rest } := ⟨grown.chained, grown.apart⟩
    exact grown_evaluate popped _ _
  pushes grown _ := by
    unfold pushator
    exact .ite (fun _ => .error trivial) fun _ => .ok ⟨grown.chained, grown.apart⟩
  operands grown _ := grown_pushand (grown.chained.add rfl) grown.chained.fresh grown.apart

section Compiled

variable {code : List Reinst}

theorem target_reaches (fuel i : Nat) : Reaches (chain code) i (target code fuel i) := by
  induction fuel generalizing i with
  | zero => exact .refl i
  | succ fuel ih =>
    unfold target
    split
    next u1 next here =>
      refine .head ?_ (ih next)
      rw [chain, here]
      rfl
    · exact .refl i

/-- What is executed next lies on the chain; only an instruction without `next` leaves the program. -/
theorem onward_chain {prog : Reprog} (made : prog.insts = optimize code) {i next : Nat} (on : onward prog i = some next) :
    Relation.TransGen (fun a b => chain code a = some b) i next ∨ next = code.length := by
  obtain ⟨x, here, goes⟩ : ∃ x, code[i]? = some x ∧ next = target code code.length (x.next.getD code.length) := by
    cases here : code[i]? with
    | none => simp [onward, made, optimize, here] at on
    | some x =>
      refine ⟨x, rfl, ?_⟩
      simp only [onward, made, optimize, List.getElem?_map, here, Option.map_some] at on
      obtain ⟨t, u1, after⟩ := x
      simp only [inst] at on ⊢
      generalize target code code.length (after.getD code.length) = last at on ⊢
      cases t <;> cases u1 <;> cases on <;> rfl
  cases after : x.next with
  | none =>
    refine Or.inr (goes.trans ?_)
    have beyond : code[code.length]? = none := List.getElem?_eq_none (Nat.le_refl _)
    rw [after, Option.getD_none]
    cases code with
    | nil => rfl
    | cons y rest =>
      rw [List.length_cons, target]
      rw [List.length_cons] at beyond
      rw [beyond]
  | some k =>
    rw [after, Option.getD_some] at goes
    have leads : Reaches (chain code) k (target code code.length k) := target_reaches _ _
    rw [← goes] at leads
    refine Or.inl (Relation.TransGen.head' ?_ leads)
    rw [chain, here]
    exact after

end Compiled

/-- The instructions that are executed one after another come to an end. -/
theorem compiled_settles {str : List UInt8} {literal : Bool} {dot : Kind} {prog : Reprog}
    (compiled : regcomp1 str literal dot = .ok (prog.insts, prog.startinst)) : Settles prog := by
  have first : Grown [] ⟨[], [], [], 0, false, 0, str, false, 0, 0, []⟩ := ⟨⟨fun i => ⟨i, .refl i, rfl⟩, fun _ member => absurd member List.not_mem_nil⟩, List.nodup_nil⟩
  obtain ⟨s, grown, made⟩ := grown_invariant.compiled first compiled
  have chains : WellFounded fun b a => chain s.code a = some b := ⟨fun i => (grown.chained.halts i).acc⟩
  have settled (i : Nat) (beyond : i = s.code.length) : Acc (fun next i => onward prog i = some next) i := by
    subst beyond
    refine ⟨_, fun next on => ?_⟩
    have none : prog.insts[s.code.length]? = none := by
      rw [made, optimize, List.getElem?_map, List.getElem?_eq_none (Nat.le_refl _)]
      rfl
    rw [onward, none] at on
    cases on
  refine ⟨fun i => ?_⟩
  induction i using chains.transGen.induction with
  | _ i ih =>
    refine ⟨i, fun next on => ?_⟩
    rcases onward_chain made on with ahead | beyond
    · exact ih next (Relation.transGen_swap.mpr ahead)
    · exact settled next beyond

end Goken.Proofs.RegcompChains
