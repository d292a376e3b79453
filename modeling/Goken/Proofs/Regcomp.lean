import Goken.Lib.Outcome
import Goken.Proofs.RegexecThreads
import Goken.Regcomp

/-! What the compiler of regular expressions keeps: a rule for its invariants, and the
subexpressions of a compiled expression. Those of parentheses are counted from one, the whole
match is subexpression zero and marked by no instruction. -/

namespace Goken.Proofs.Regcomp
open Goken Goken.Regexec Goken.Regcomp Lib.Outcome RegexecThreads

/-- The computation keeps what holds, if it does not stop. -/
abbrev Keeps (holds : State → Prop) (r : Comp State) : Prop := Ensures (fun _ => True) holds r

/-- The scanner leaves all that the parser has built. -/
structure Scans (s s' : State) : Prop where
  code : s'.code = s.code
  ands : s'.andstack = s.andstack
  ators : s'.atorstack = s.atorstack
  count : s'.cursubid = s.cursubid

section Scanner

variable {s s' s'' : State}

theorem Scans.refl (s : State) : Scans s s := ⟨rfl, rfl, rfl, rfl⟩

theorem Scans.trans (first : Scans s s') (second : Scans s' s'') : Scans s s'' :=
  ⟨second.code.trans first.code, second.ands.trans first.ands, second.ators.trans first.ators, second.count.trans first.count⟩

theorem nextc_scans (s : State) : Scans s (nextc s).2.2 := by
  unfold nextc
  split
  · exact .refl s
  · dsimp only
    split <;> exact ⟨rfl, rfl, rfl, rfl⟩

theorem spans_scans {fuel : Nat} {ep : List (Nat × Nat)} {quoted : Bool} {rune : Nat} :
    Ensures (fun _ => True) (fun x => Scans s x.2) (spans fuel ep quoted rune s) := by
  induction fuel generalizing ep quoted rune s with
  | zero => exact .ok (.refl s)
  | succ fuel ih =>
    have after {s' : State} (scans : Scans s s') {ep : List (Nat × Nat)} {quoted : Bool} {rune : Nat} :
        Ensures (fun _ => True) (fun x => Scans s x.2) (spans fuel ep quoted rune s') := ih.mono fun _ more => scans.trans more
    unfold spans
    refine .ite (fun _ => .ok (.refl s)) fun _ => .ite (fun _ => .error trivial) fun _ => .ite (fun _ => .ok (.refl s)) fun _ => .ite ?_ ?_
    · intro _
      split
      · exact .error trivial
      · exact .ite (fun _ => .error trivial) fun _ => after ((nextc_scans s).trans (nextc_scans _))
    · exact fun _ => after (nextc_scans s)

theorem bldcclass_scans (s : State) : Ensures (fun _ => True) (fun x => Scans s x.2) (bldcclass s) := by
  have counted : Scans s { s with nclass := s.nclass + 1 } := ⟨rfl, rfl, rfl, rfl⟩
  unfold bldcclass
  refine .ite (fun _ => .error trivial) fun _ => ?_
  dsimp only
  refine spans_scans.bind ?_
  rintro ⟨ep, s'⟩ scans
  refine .ok (counted.trans (Scans.trans ?_ ⟨scans.code, scans.ands, scans.ators, scans.count⟩))
  split
  · exact (nextc_scans _).trans (nextc_scans _)
  · exact nextc_scans _

theorem lex_scans (s : State) (literal : Bool) (dot : Kind) : Ensures (fun _ => True) (fun x => Scans s x.2) (lex s literal dot) := by
  have after := nextc_scans s
  unfold lex
  generalize nextc s = next at after ⊢
  obtain ⟨quoted, rune, s'⟩ := next
  have read : Scans s { s' with yyrune := rune } := ⟨after.code, after.ands, after.ators, after.count⟩
  dsimp only
  iterate 11 refine .ite (fun _ => .ok read) fun _ => ?_
  exact .ite (fun _ => (bldcclass_scans _).mono fun _ more => read.trans more) fun _ => .ok read

end Scanner

/-- The operators that are left, and the number of parentheses. -/
def Same (s s' : State) : Prop := s'.atorstack = s.atorstack ∧ s'.cursubid = s.cursubid

section Operators

variable {s : State}

theorem pushand_same {s' : State} (same : Same s s') (first last : Nat) : Keeps (Same s) (pushand s' first last) := by
  unfold pushand
  exact .ite (fun _ => .error trivial) fun _ => .ok same

theorem popand_same {s' : State} (same : Same s s') (op : String) : Ensures (fun _ => True) (fun x => Same s x.2) (popand s' op) := by
  unfold popand
  split
  · exact .error trivial
  · exact .ok same

theorem evaluate_same (s : State) (subid : Nat) (t : Kind) : Keeps (Same s) (evaluate s subid t) := by
  have start : Same s s := ⟨rfl, rfl⟩
  unfold evaluate
  split
  · refine (popand_same start _).bind ?_
    rintro ⟨op2, s'⟩ same
    refine pushand_same ?_ _ _
    exact same
  · refine (popand_same start _).bind ?_
    rintro ⟨op2, s'⟩ same
    refine (popand_same same _).bind ?_
    rintro ⟨op1, s'⟩ same
    refine pushand_same ?_ _ _
    exact same
  · refine (popand_same start _).bind ?_
    rintro ⟨op2, s'⟩ same
    refine (popand_same same _).bind ?_
    rintro ⟨op1, s'⟩ same
    refine pushand_same ?_ _ _
    exact same
  · refine (popand_same start _).bind ?_
    rintro ⟨op2, s'⟩ same
    refine pushand_same ?_ _ _
    exact same
  · refine (popand_same start _).bind ?_
    rintro ⟨op2, s'⟩ same
    refine pushand_same ?_ _ _
    exact same
  · refine (popand_same start _).bind ?_
    rintro ⟨op2, s'⟩ same
    refine pushand_same ?_ _ _
    exact same
  · exact .error trivial

end Operators

/-- What is asked of an invariant of the compiler. -/
structure Invariant (holds : State → Prop) : Prop where
  scans : ∀ {s s'}, holds s → s'.code = s.code → s'.andstack = s.andstack → s'.atorstack = s.atorstack → holds s'
  evaluates : ∀ {s t subid rest}, holds s → s.atorstack = (t, subid) :: rest → Keeps holds (evaluate { s with atorstack := rest } subid t)
  pushes : ∀ {s t}, holds s → (t = .LBRA → s.cursubid ≠ 0) → Keeps holds (pushator s t)
  operands : ∀ {s t u1}, holds s → (∀ id, u1 ≠ .subid id) →
    Keeps holds (pushand (newinst s t u1 none).2 s.code.length s.code.length)

namespace Invariant

variable {holds : State → Prop} (invariant : Invariant holds) {s : State}
include invariant

theorem evaluntil {pri : Kind} {rest : List (Kind × Nat)} (before : holds s) (stack : s.atorstack = rest) :
    Keeps (fun s' => holds s' ∧ s'.cursubid = s.cursubid) (evaluntil pri rest s) := by
  induction rest generalizing s with
  | nil => exact .ok ⟨before, rfl⟩
  | cons p rest ih =>
    obtain ⟨t, subid⟩ := p
    unfold Goken.Regcomp.evaluntil
    refine .ite (fun _ => ?_) fun _ => .ok ⟨before, rfl⟩
    refine ((invariant.evaluates before stack).and (evaluate_same _ _ _)).bind ?_
    rintro s' ⟨after, same, count⟩
    exact .ite (fun _ => .ok ⟨after, count⟩) fun _ => (ih after same).mono fun s'' more => ⟨more.1, more.2.trans count⟩

theorem operate (before : holds s) {t : Kind} (other : t ≠ .LBRA) : Keeps (fun s' => holds s' ∧ s'.cursubid = s.cursubid) (operate s t) := by
  have counted : holds (if t = .RBRA then { s with nbra := s.nbra - 1 } else s) ∧
      (if t = .RBRA then { s with nbra := s.nbra - 1 } else s).cursubid = s.cursubid := by
    split
    · exact ⟨invariant.scans before rfl rfl rfl, rfl⟩
    · exact ⟨before, rfl⟩
  unfold Goken.Regcomp.operate
  refine .ite (fun _ => .error trivial) fun _ => ?_
  refine (invariant.evaluntil counted.1 rfl).bind ?_
  rintro s' ⟨after, count⟩
  have pushed : Keeps (fun s' => holds s' ∧ s'.cursubid = s.cursubid) (if t ≠ .RBRA then pushator s' t else .ok s') := by
    refine .ite (fun _ => ?_) fun _ => .ok ⟨after, count.trans counted.2⟩
    refine (invariant.pushes after fun bra => absurd bra other).and ?_
    unfold pushator
    exact .ite (fun _ => .error trivial) fun _ => .ok (count.trans counted.2)
  refine pushed.bind ?_
  rintro s' ⟨after, count⟩
  exact .ok ⟨invariant.scans after rfl rfl rfl, count⟩

theorem operator (before : holds s) (t : Kind) : Keeps holds (operator s t) := by
  unfold Goken.Regcomp.operator
  refine .ite (fun bra => .ite (fun _ => .error trivial) fun _ => ?_) fun other => (invariant.operate before other).mono fun _ after => after.1
  have opened : holds { s with cursubid := s.cursubid + 1, nbra := s.nbra + 1 } := invariant.scans before rfl rfl rfl
  have joined : Keeps (fun s' => holds s' ∧ s'.cursubid = s.cursubid + 1)
      (if s.lastwasand then Goken.Regcomp.operate { s with cursubid := s.cursubid + 1, nbra := s.nbra + 1 } .CAT
        else .ok { s with cursubid := s.cursubid + 1, nbra := s.nbra + 1 }) :=
    .ite (fun _ => invariant.operate opened nofun) fun _ => .ok ⟨opened, rfl⟩
  refine joined.bind ?_
  rintro s' ⟨after, count⟩
  refine (invariant.pushes after fun _ => ?_).bind ?_
  · rw [count]
    exact Nat.succ_ne_zero _
  · intro s' after
    exact .ok (invariant.scans after rfl rfl rfl)

theorem operand (before : holds s) (t : Kind) : Keeps holds (operand s t) := by
  have joined : Keeps holds (if s.lastwasand then Goken.Regcomp.operator s .CAT else .ok s) :=
    .ite (fun _ => invariant.operator before .CAT) fun _ => .ok before
  unfold Goken.Regcomp.operand
  refine joined.bind ?_
  intro s after
  refine (invariant.operands after ?_).bind ?_
  · intro id
    split_ifs <;> exact nofun
  · intro s after
    exact .ok (invariant.scans after rfl rfl rfl)

theorem tokens {literal : Bool} {dot : Kind} {fuel : Nat} (before : holds s) : Keeps holds (tokens literal dot fuel s) := by
  induction fuel generalizing s with
  | zero => exact .ok before
  | succ fuel ih =>
    unfold Goken.Regcomp.tokens
    refine (lex_scans s literal dot).bind ?_
    rintro ⟨token, s'⟩ scans
    have read : holds s' := invariant.scans before scans.code scans.ands scans.ators
    refine .ite (fun _ => .ok read) fun _ => ?_
    have used : Keeps holds (if isOperator token then Goken.Regcomp.operator s' token else Goken.Regcomp.operand s' token) :=
      .ite (fun _ => invariant.operator read token) fun _ => invariant.operand read token
    exact used.bind fun s after => ih after

/-- The invariant holds of the state that a compiled program is made of. -/
theorem compiled {str : List UInt8} {literal : Bool} {dot : Kind} {insts : List Inst} {startinst : Nat}
    (initially : holds ⟨[], [], [], 0, false, 0, str, false, 0, 0, []⟩) (compiled : regcomp1 str literal dot = .ok (insts, startinst)) :
    ∃ s, holds s ∧ insts = optimize s.code := by
  have ensures : Ensures (fun _ => True) (fun x => ∃ s, holds s ∧ x.1 = optimize s.code) (regcomp1 str literal dot) := by
    unfold regcomp1
    have marked : Keeps holds (pushator ⟨[], [], [], 0, false, 0, str, false, 0, 0, []⟩ .MARK) := invariant.pushes initially nofun
    refine marked.bind ?_
    intro s after
    refine (invariant.tokens after).bind ?_
    intro s after
    refine (invariant.evaluntil after rfl).bind ?_
    rintro s ⟨after, _⟩
    refine (invariant.operand after .END).bind ?_
    intro s after
    refine (invariant.evaluntil after rfl).bind ?_
    rintro s ⟨after, _⟩
    refine .ite (fun _ => .error trivial) fun _ => ?_
    split
    · exact .error trivial
    · exact .ok ⟨s, after, rfl⟩
  rw [compiled] at ensures
  exact ensures.of_ok

end Invariant

/-- The subexpressions of the code and of the operators that are left are not zero. -/
structure Numbered (s : State) : Prop where
  code : ∀ i ∈ s.code, ∀ id, i.u1 = .subid id → id ≠ 0
  ators : ∀ p ∈ s.atorstack, p.1 = .LBRA → p.2 ≠ 0

namespace Numbered

variable {s : State} (numbered : Numbered s)
include numbered

theorem newinst {t : Kind} {u1 : Union} {next : Option Nat} (other : ∀ id, u1 = .subid id → id ≠ 0) : Numbered (newinst s t u1 next).2 := by
  refine ⟨?_, numbered.ators⟩
  intro i member
  rcases List.mem_append.mp member with old | new
  · exact numbered.code i old
  · cases List.mem_singleton.mp new
    exact other

theorem setNext (i next : Nat) : Numbered (setNext s i next) := by
  refine ⟨?_, numbered.ators⟩
  intro inst member
  obtain ⟨k, here⟩ := List.getElem?_of_mem member
  simp only [Goken.Regcomp.setNext, List.getElem?_modify] at here
  obtain ⟨old, at_old, rfl⟩ := Option.map_eq_some_iff.mp here
  have same := numbered.code old (List.mem_of_getElem? at_old)
  split <;> exact same

theorem pushand (first last : Nat) : Keeps Numbered (pushand s first last) := by
  unfold Goken.Regcomp.pushand
  exact .ite (fun _ => .error trivial) fun _ => .ok ⟨numbered.code, numbered.ators⟩

theorem popand (op : String) : Ensures (fun _ => True) (fun x => Numbered x.2) (popand s op) := by
  unfold Goken.Regcomp.popand
  split
  · exact .error trivial
  · exact .ok ⟨numbered.code, numbered.ators⟩

theorem evaluate {subid : Nat} {t : Kind} (opened : t = .LBRA → subid ≠ 0) : Keeps Numbered (evaluate s subid t) := by
  have plain (id : Nat) : Union.nil = .subid id → id ≠ 0 := nofun
  have choice (i id : Nat) : Union.right i = .subid id → id ≠ 0 := nofun
  have mark (id : Nat) (bra : t = .LBRA) : Union.subid subid = .subid id → id ≠ 0 := by
    rintro ⟨⟩
    exact opened bra
  unfold Goken.Regcomp.evaluate
  split
  · refine (numbered.popand _).bind ?_
    rintro ⟨op1, s⟩ numbered
    exact (((numbered.newinst (fun id => mark id rfl)).setNext _ _).newinst (fun id => mark id rfl)).pushand _ _
  · refine (numbered.popand _).bind ?_
    rintro ⟨op2, s⟩ numbered
    refine (numbered.popand _).bind ?_
    rintro ⟨op1, s⟩ numbered
    exact ((((numbered.newinst plain).setNext _ _).setNext _ _).newinst (choice _)).pushand _ _
  · refine (numbered.popand _).bind ?_
    rintro ⟨op2, s⟩ numbered
    refine (numbered.popand _).bind ?_
    rintro ⟨op1, s⟩ numbered
    exact (numbered.setNext _ _).pushand _ _
  · refine (numbered.popand _).bind ?_
    rintro ⟨op2, s⟩ numbered
    exact ((numbered.newinst (choice _)).setNext _ _).pushand _ _
  · refine (numbered.popand _).bind ?_
    rintro ⟨op2, s⟩ numbered
    exact ((numbered.newinst (choice _)).setNext _ _).pushand _ _
  · refine (numbered.popand _).bind ?_
    rintro ⟨op2, s⟩ numbered
    exact (((numbered.newinst (choice _)).newinst plain).setNext _ _).pushand _ _
  · exact .error trivial

end Numbered

theorem numbered_invariant : Invariant Numbered where
  scans numbered code _ ators := ⟨code ▸ numbered.code, ators ▸ numbered.ators⟩
  evaluates numbered stack := by
    rename_i s t subid rest
    have popped : Numbered { s with atorstack := rest } :=
      ⟨numbered.code, fun p member => numbered.ators p (stack ▸ List.mem_cons_of_mem _ member)⟩
    exact popped.evaluate fun bra => numbered.ators _ (stack ▸ List.mem_cons_self) bra
  pushes numbered opened := by
    unfold pushator
    refine .ite (fun _ => .error trivial) fun _ => .ok ⟨numbered.code, ?_⟩
    intro p member bra
    rcases List.mem_cons.mp member with rfl | old
    · exact opened bra
    · exact numbered.ators p old bra
  operands numbered unmarked := (numbered.newinst fun id same => absurd same (unmarked id)).pushand _ _

theorem marked_inst {code : List Reinst} {i : Reinst} (numbered : ∀ id, i.u1 = .subid id → id ≠ 0) : Inst.Marked (inst code i) := by
  obtain ⟨t, u1, next⟩ := i
  unfold inst
  dsimp only
  split
  case h_2 => exact numbered _ rfl
  case h_3 => exact numbered _ rfl
  all_goals trivial

/-- No instruction of a compiled expression marks the whole match. -/
theorem compiled_marked {str : List UInt8} {literal : Bool} {dot : Kind} {insts : List Inst} {startinst : Nat}
    (compiled : regcomp1 str literal dot = .ok (insts, startinst)) : ∀ inst ∈ insts, Inst.Marked inst := by
  obtain ⟨s, numbered, rfl⟩ := numbered_invariant.compiled ⟨nofun, nofun⟩ compiled
  intro inst member
  obtain ⟨i, old, rfl⟩ := List.mem_map.mp member
  exact marked_inst (numbered.code i old)

end Goken.Proofs.Regcomp
