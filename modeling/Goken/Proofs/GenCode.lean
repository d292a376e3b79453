import Goken.Gen
import Goken.Lib.Lists
import Mathlib.Data.List.Infix
import Mathlib.Data.List.Nodup
import Mathlib.Tactic.Common

/-! The code that `gen` leaves behind, as a function of the statement. Branches
are patched long after they have been emitted, but only gotos are patched from
outside of the statement that they belong to: all the other targets are known
where the statement starts. -/

namespace Goken.Proofs.GenCode
open Goken.Gen Lib.Simulation Lib.Lists

variable {ε : Type}

/-- An emitted instruction. The target of a goto is left open. -/
inductive Item (ε : Type) where
  | op (i : Instr ε)
  | goto (l : Label)
  | label (l : Label)

def Item.aim (target : Nat) : Item ε → Item ε
  | .op i => .op (i.aim target)
  | item => item

def Fits (p : Nat) (x : Instr ε) : Item ε → Prop
  | .op i => x = i
  | .goto _ => ∃ target, x = .jump target
  | .label _ => x = .jump (p + 1)

/-- Where `break` and `continue` go. -/
structure Context where
  brk : Nat
  cont : Nat

/-- A test at `pc` that goes to `no` if it fails. -/
def testCode (t : Test ε) (pc no : Nat) : List (Instr ε) :=
  match t with
  | .expr e => [.test e no]
  | .const false => [.jump no]
  | .const true => [.jump (pc + 2), .jump no]

def testSize (t : Test ε) : Nat :=
  match t with
  | .const true => 2
  | _ => 1

def optTestCode (t : Option (Test ε)) (pc no : Nat) : List (Instr ε) := (t.map fun t => testCode t pc no).getD []

def optTestSize (t : Option (Test ε)) : Nat := (t.map testSize).getD 0

/-- How many instructions there are for a statement. -/
def size : Stmt ε → Flow → Nat
  | .exprs es, _ => es.length
  | .OLIST s t, f => size s f + size t (flow s f)
  | .OIF t s e, f =>
    let n := size s ⟨true, f.nbreak⟩
    let m := size e ⟨true, (flow s ⟨true, f.nbreak⟩).nbreak⟩
    match folded t s e with
    | some true => n
    | some false => m
    | none => testSize t + n + if isZ e then 0 else 1 + m
  | .OWHILE t s, f | .ODWHILE t s, f => 3 + testSize t + size s ⟨f.canreach, t.exits⟩ + 1
  | .OFOR init t inc s, _ =>
    let g : Flow := ⟨true, (t.map Test.exits).getD 0⟩
    init.length + 3 + inc.length + optTestSize t + size s g + if (flow s g).canreach then 1 else 0
  | .OSWITCH _ s, f =>
    let g : Flow := ⟨f.canreach, 0⟩
    2 + size s g + (if (flow s g).canreach then 1 else 0) + 1
  | .OCASE _, _ => 0
  | .OLABEL _, _ | .OGOTO _, _ | .OCONTINUE, _ | .ORETURN none, _ => 1
  | .OBREAK, f => if f.canreach then 1 else 0
  | .ORETURN (some _), _ => 2

/-- The cases of a statement at `a`, each with its place. -/
def casesAt : Stmt ε → Flow → Nat → List (Option Int × Nat)
  | .OLIST s t, f, a => casesAt s f a ++ casesAt t (flow s f) (a + size s f)
  | .OIF t s e, f, a =>
    match folded t s e with
    | some _ => []
    | none =>
      let b := a + testSize t
      casesAt s ⟨true, f.nbreak⟩ b ++
        casesAt e ⟨true, (flow s ⟨true, f.nbreak⟩).nbreak⟩ (b + size s ⟨true, f.nbreak⟩ + 1)
  | .OWHILE t s, f, a | .ODWHILE t s, f, a => casesAt s ⟨f.canreach, t.exits⟩ (a + 3 + testSize t)
  | .OFOR init t inc s, _, a =>
    casesAt s ⟨true, (t.map Test.exits).getD 0⟩ (a + init.length + 3 + inc.length + optTestSize t)
  | .OCASE c, _, a => [(c, a)]
  | _, _, _ => []

/-- The branch that `doswit` makes of the cases, latest first. -/
def switchCode (e : ε) (cases : List (Option Int × Nat)) (breakpc : Nat) : Instr ε :=
  .swit e (cases.filterMap fun c => c.1.map fun v => (v, c.2))
    (((cases.filter fun c => c.1.isNone).getLast?.map Prod.snd).getD breakpc)

/-- A loop at `a`, with the branches of `continue` and `break` at `a + 1` and `a + 2`. -/
def whileItems (late : Bool) (t : Test ε) (a : Nat) (body : List (Item ε)) : List (Item ε) :=
  let b := a + 3 + testSize t
  [.op (.jump (if late then b else a + 3)), .op (.jump (a + 3)), .op (.jump (b + body.length + 1))] ++
    (testCode t (a + 3) (a + 2)).map .op ++ body ++ [.op (.jump (a + 1))]

/-- The code for a statement at `a`. -/
def items : Stmt ε → Context → Flow → Nat → List (Item ε)
  | .exprs es, _, _, _ => es.map fun e => .op (.eval e)
  | .OLIST s t, c, f, a => items s c f a ++ items t c (flow s f) (a + size s f)
  | .OIF t s e, c, f, a =>
    let h : Flow := ⟨true, (flow s ⟨true, f.nbreak⟩).nbreak⟩
    match folded t s e with
    | some true => items s c ⟨true, f.nbreak⟩ a
    | some false => items e c h a
    | none =>
      let b := a + testSize t
      let d := b + size s ⟨true, f.nbreak⟩
      if isZ e then (testCode t a d).map .op ++ items s c ⟨true, f.nbreak⟩ b
      else (testCode t a (d + 1)).map .op ++ items s c ⟨true, f.nbreak⟩ b ++
        .op (.jump (d + 1 + size e h)) :: items e c h (d + 1)
  | .OWHILE t s, _, f, a =>
    whileItems false t a (items s ⟨a + 2, a + 1⟩ ⟨f.canreach, t.exits⟩ (a + 3 + testSize t))
  | .ODWHILE t s, _, f, a =>
    whileItems true t a (items s ⟨a + 2, a + 1⟩ ⟨f.canreach, t.exits⟩ (a + 3 + testSize t))
  | .OFOR init t inc s, _, _, a' =>
    let g : Flow := ⟨true, (t.map Test.exits).getD 0⟩
    let a := a' + init.length
    let b := a + 3 + inc.length
    let back : List (Item ε) := if (flow s g).canreach then [.op (.jump (a + 1))] else []
    let d := b + optTestSize t + size s g + back.length
    init.map (fun e => .op (.eval e)) ++ [.op (.jump b), .op (.jump (a + 3)), .op (.jump d)] ++
      inc.map (fun e => .op (.eval e)) ++ (optTestCode t b (a + 2)).map .op ++
      items s ⟨a + 2, a + 1⟩ g (b + optTestSize t) ++ back
  | .OSWITCH e s, c, f, a =>
    let g : Flow := ⟨f.canreach, 0⟩
    let back : List (Item ε) := if (flow s g).canreach then [.op (.jump (a + 1))] else []
    let d := a + 2 + size s g + back.length
    [.op (.jump d), .op (.jump (d + 1))] ++ items s ⟨a + 1, c.cont⟩ g (a + 2) ++ back ++
      [.op (switchCode e (casesAt s g (a + 2)).reverse (a + 1))]
  | .OCASE _, _, _, _ => []
  | .OLABEL l, _, _, _ => [.label l]
  | .OGOTO l, _, _, _ => [.goto l]
  | .OBREAK, c, f, _ => if f.canreach then [.op (.jump c.brk)] else []
  | .OCONTINUE, c, _, _ => [.op (.jump c.cont)]
  | .ORETURN none, _, _, _ => [.op .ret]
  | .ORETURN (some e), _, _, _ => [.op (.eval e), .op .ret]

/-- Code that is not reached has no branch for a `break`. -/
example (c : Context) (a n : Nat) : items (.OBREAK : Stmt ε) c ⟨false, n⟩ a = [] ∧ size (.OBREAK : Stmt ε) ⟨false, n⟩ = 0 := by
  simp [items, size]

@[simp] theorem testCode_length (t : Test ε) (pc no : Nat) : (testCode t pc no).length = testSize t := by
  rcases t with v | e
  · cases v <;> rfl
  · rfl

theorem testSize_pos (t : Test ε) : 0 < testSize t := by
  rcases t with v | e
  · cases v
    · exact Nat.one_pos
    · exact Nat.two_pos
  · exact Nat.one_pos

@[simp] theorem optTestCode_length (t : Option (Test ε)) (pc no : Nat) : (optTestCode t pc no).length = optTestSize t := by
  cases t <;> simp [optTestCode, optTestSize]

@[simp] theorem items_length (s : Stmt ε) (c : Context) (f : Flow) (a : Nat) : (items s c f a).length = size s f := by
  induction s generalizing c f a with
  | exprs es => simp [items, size]
  | OLIST s t ihs iht => simp [items, size, ihs, iht]
  | OIF t s e ihs ihe =>
    simp only [items, size]
    cases folded t s e with
    | some v => cases v <;> simp [ihs, ihe]
    | none =>
      cases isZ e
      · simp [ihs, ihe]
        omega
      · simp [ihs]
  | OWHILE t s ih | ODWHILE t s ih => simp [items, whileItems, size, ih]; omega
  | OFOR init t inc s ih =>
    simp only [items, size]
    cases (flow s ⟨true, (t.map Test.exits).getD 0⟩).canreach <;> simp [ih] <;> omega
  | OSWITCH e s ih =>
    simp only [items, size]
    cases (flow s ⟨f.canreach, 0⟩).canreach <;> simp [ih] <;> omega
  | OBREAK => cases reach : f.canreach <;> simp [items, size, reach]
  | ORETURN e => cases e <;> rfl
  | _ => rfl

/-! Closed forms of what `gen` does around its recursive calls. -/

theorem evals_eq (es : List ε) (st : St ε) : evals es st = { st with code := st.code ++ es.map .eval } := by
  simp only [evals]
  induction es generalizing st with
  | nil => simp
  | cons e es ih =>
    rw [List.foldl_cons, ih]
    simp [St.emit]

theorem boolgen_eq (t : Test ε) (st : St ε) : boolgen t st = { st with code := st.code ++ testCode t st.pc 0 } := by
  rcases t with v | e
  · cases v with
    | false => rfl
    | true =>
      have two := modify_middle st.code [Instr.jump 0] (Instr.jump 0) (Instr.aim (st.code.length + 2))
      simp only [boolgen, St.gbranch, St.emit, St.patch, St.pc, testCode, List.append_assoc, List.cons_append, List.nil_append,
        List.length_append, List.length_cons, List.length_nil]
      rw [two]
      rfl
  · rfl

/-- The last instruction of a test is the one to patch. -/
theorem testCode_split (t : Test ε) (pc : Nat) : ∃ (l : List (Instr ε)) (x : Nat → Instr ε), (∀ no, testCode t pc no = l ++ [x no]) ∧
    l.length + 1 = testSize t ∧ ∀ m no, (x m).aim no = x no := by
  rcases t with v | e
  · cases v with
    | false => exact ⟨[], Instr.jump, fun _ => rfl, rfl, fun _ _ => rfl⟩
    | true => exact ⟨[.jump (pc + 2)], Instr.jump, fun _ => rfl, rfl, fun _ _ => rfl⟩
  · exact ⟨[], Instr.test e, fun _ => rfl, rfl, fun _ _ => rfl⟩

theorem testCode_modify (t : Test ε) (l r : List (Instr ε)) (pc no m p : Nat) (place : p + 1 = l.length + testSize t) :
    (l ++ (testCode t pc m ++ r)).modify p (Instr.aim no) = l ++ (testCode t pc no ++ r) := by
  obtain ⟨l', x, split, length, aimed⟩ := testCode_split t pc
  have here : p = (l ++ l').length := by rw [List.length_append]; omega
  rw [split, split, here]
  simpa [aimed] using modify_middle (l ++ l') r (x m) (Instr.aim no)

theorem gentest_eq (t : Test ε) (no : Nat) (st : St ε) : gentest t no st =
    { st with code := st.code ++ testCode t st.pc no, nbreak := st.nbreak + t.exits } := by
  have patched := testCode_modify t st.code [] st.pc no 0 (st.code.length + testSize t - 1)
    (by have := testSize_pos t; omega)
  simp only [List.append_nil] at patched
  simp only [gentest, boolgen_eq, St.patch, St.pc, List.length_append, testCode_length] at patched ⊢
  rw [patched]
  cases ends : t.ends <;> simp [Test.exits, ends]

theorem genif_false {t : Test ε} {s e : Stmt ε} (gens gene : St ε → St ε) (st : St ε) (fold : folded t s e = some false) :
    genif t s e gens gene st = gene { supgen s gens { st with canreach := true } with canreach := true } := by
  simp only [genif, fold]

theorem genif_true {t : Test ε} {s e : Stmt ε} (gens gene : St ε → St ε) (st : St ε) (fold : folded t s e = some true) :
    genif t s e gens gene st =
    let after := gens { st with canreach := true }
    { supgen e gene { after with canreach := true } with canreach := after.canreach } := by
  simp only [genif, fold]

theorem genif_none {t : Test ε} {s e : Stmt ε} (gens gene : St ε → St ε) (st : St ε) (fold : folded t s e = none) :
    genif t s e gens gene st =
    let after := gens { st with code := st.code ++ testCode t st.pc 0, canreach := true }
    let sp := st.pc + testSize t - 1
    if isZ e then { after.patch sp after.pc with canreach := true }
    else
      let last := gene ({ after with canreach := true }.gbranch.patch sp (after.pc + 1))
      { last.patch after.pc last.pc with canreach := last.canreach || after.canreach } := by
  simp only [genif, fold, boolgen_eq]
  cases isZ e <;>
    simp only [if_true, if_false, Bool.false_eq_true, St.gbranch, St.emit, St.patch, St.pc, List.length_append, testCode_length,
      List.length_cons, List.length_nil, Nat.zero_add, Bool.true_or]

/-- What `genwhile` has emitted before the body. -/
def whileHead (late : Bool) (t : Test ε) (a : Nat) : List (Instr ε) :=
  [.jump (if late then a + 3 + testSize t else a + 3), .jump (a + 3), .jump 0] ++ testCode t (a + 3) (a + 2)

/-- The three branches with which a loop starts; the second one is patched first. -/
theorem branches_modify (l : List (Instr ε)) (x : Nat) : (l ++ [Instr.jump 0, Instr.jump 0, Instr.jump 0]).modify (l.length + 1)
    (Instr.aim x) = l ++ [Instr.jump 0, Instr.jump x, Instr.jump 0] := by
  have patched := modify_middle (l ++ [Instr.jump 0]) [Instr.jump 0] (Instr.jump 0) (Instr.aim x)
  rwa [List.append_assoc, List.append_assoc, List.length_append] at patched

theorem genwhile_eq (late : Bool) (t : Test ε) (gens : St ε → St ε) (st : St ε) : genwhile late t gens st =
    let after := gens { st with
      code := st.code ++ whileHead late t st.pc, continpc := some (st.pc + 1), breakpc := some (st.pc + 2), nbreak := t.exits }
    { (after.emit (.jump (st.pc + 1))).patch (st.pc + 2) (after.pc + 1) with
      continpc := st.continpc, breakpc := st.breakpc, canreach := after.nbreak ≠ 0, nbreak := st.nbreak } := by
  have first : ∀ (r : List (Instr ε)) (x : Nat), (st.code ++ Instr.jump 0 :: r).modify st.code.length (Instr.aim x) =
      st.code ++ Instr.jump x :: r := fun r x => modify_middle st.code r (Instr.jump 0) (Instr.aim x)
  have second := branches_modify st.code (st.code.length + 3)
  have far : st.code.length + (testSize t + (1 + (1 + 1))) = st.code.length + (3 + testSize t) := by omega
  cases late with
  | false =>
    simp only [genwhile, gentest_eq, St.gbranch, St.emit, St.patch, St.pc, List.append_assoc, List.cons_append, List.nil_append,
      List.length_append, List.length_cons, List.length_nil, Nat.add_assoc, Nat.reduceAdd, second, first, whileHead,
      Bool.false_eq_true, if_false, Nat.zero_add]
  | true =>
    simp only [genwhile, gentest_eq, St.gbranch, St.emit, St.patch, St.pc, List.append_assoc, List.cons_append, List.nil_append,
      List.length_append, List.length_cons, List.length_nil, Nat.add_assoc, Nat.reduceAdd, second, first, whileHead, if_true,
      Nat.zero_add, testCode_length, far]

/-- What `genfor` has emitted between the first expressions and the body. -/
def forHead (t : Option (Test ε)) (inc : List ε) (a : Nat) : List (Instr ε) :=
  [.jump (a + 3 + inc.length), .jump (a + 3), .jump 0] ++ (inc.map .eval ++ optTestCode t (a + 3 + inc.length) (a + 2))

theorem genfor_nil (t : Option (Test ε)) (inc : List ε) (gens : St ε → St ε) (st : St ε) : genfor [] t inc gens st =
    let after := gens { st with
      code := st.code ++ forHead t inc st.pc, continpc := some (st.pc + 1), breakpc := some (st.pc + 2), canreach := true,
      nbreak := (t.map Test.exits).getD 0 }
    let last := if after.canreach then after.emit (.jump (st.pc + 1)) else after
    { last.patch (st.pc + 2) last.pc with
      continpc := st.continpc, breakpc := st.breakpc, canreach := last.nbreak ≠ 0, nbreak := st.nbreak } := by
  have first : ∀ (r : List (Instr ε)) (x : Nat), (st.code ++ Instr.jump 0 :: r).modify st.code.length (Instr.aim x) =
      st.code ++ Instr.jump x :: r := fun r x => modify_middle st.code r (Instr.jump 0) (Instr.aim x)
  have second := branches_modify st.code (st.code.length + 3)
  have far : st.code.length + (inc.length + (1 + (1 + 1))) = st.code.length + (3 + inc.length) := by omega
  cases t <;>
    simp only [genfor, gentest_eq, evals_eq, St.gbranch, St.emit, St.patch, St.pc, List.append_assoc, List.cons_append,
      List.nil_append, List.length_append, List.length_cons, List.length_nil, Nat.add_assoc, Nat.reduceAdd, second, first, forHead,
      Nat.zero_add, List.map_nil, List.length_map, optTestCode, Option.map_none, Option.map_some, Option.getD_none,
      Option.getD_some, List.append_nil, far]

theorem genfor_eq (init : List ε) (t : Option (Test ε)) (inc : List ε) (gens : St ε → St ε) (st : St ε) :
    genfor init t inc gens st = genfor [] t inc gens { st with code := st.code ++ init.map .eval } := by
  rw [← evals_eq]
  rfl

theorem doswit_eq (e : ε) (st : St ε) (cases : List (Option Int × Nat)) (here : st.cases = some cases)
    (nodup : (cases.map Prod.fst).Nodup) : doswit e st =
    { st.emit (switchCode e cases (st.breakpc.getD 0)) with
      nbreak := st.nbreak + if none ∈ cases.map Prod.fst then 0 else 1 } := by
  have values : ((cases.filterMap fun c => c.1.map fun v => (v, c.2)).map Prod.fst).Nodup := by
    have same : (cases.filterMap fun c => c.1.map fun v => (v, c.2)).map Prod.fst = (cases.map Prod.fst).filterMap id := by
      simp [List.map_filterMap, List.filterMap_map, Function.comp_def]
    rw [same]
    exact List.Nodup.filterMap (fun a b v left right => (Option.mem_def.mp left).trans (Option.mem_def.mp right).symm) nodup
  have dflts : (cases.filter fun c => c.1.isNone).length ≤ 1 := by
    have distinct := nodup.sublist (List.filter_sublist.map Prod.fst : ((cases.filter fun c => c.1.isNone).map Prod.fst).Sublist _)
    have none_ : ∀ x ∈ (cases.filter fun c => c.1.isNone).map Prod.fst, x = none := by simp
    rw [List.eq_replicate_of_mem none_, List.nodup_replicate, List.length_map] at distinct
    exact distinct
  have missing : (cases.filter fun c => c.1.isNone) = [] ↔ none ∉ cases.map Prod.fst := by
    simp [List.filter_eq_nil_iff, Option.eq_none_iff_forall_ne_some]
  simp only [doswit, here, Option.getD_some, values, not_true, if_false, gt_iff_lt, Nat.not_lt.mpr dflts]
  cases last : (cases.filter fun c => c.1.isNone).getLast? with
  | none =>
    rw [List.getLast?_eq_none_iff] at last
    simp [switchCode, last, missing.mp last, St.emit, here]
  | some dflt =>
    have occurs : none ∈ cases.map Prod.fst := by
      by_contra absent
      rw [missing.mpr absent] at last
      cases last
    simp [switchCode, last, occurs, St.emit]

/-- `genswitch` behind the statement, where the state is `after`. -/
theorem genswitch_eq {gens : St ε → St ε} (e : ε) (st : St ε) (cases : List (Option Int × Nat)) (after : St ε)
    (body : after = gens { st with code := st.code ++ [.jump 0, .jump 0], cases := some [], breakpc := some (st.pc + 1), nbreak := 0 })
    (inside : after.breakpc = some (st.pc + 1)) (here : after.cases = some cases) (nodup : (cases.map Prod.fst).Nodup) :
    genswitch e gens st =
    let last := if after.canreach then after.emit (.jump (st.pc + 1)) else after
    { (((last.patch st.pc last.pc).emit (switchCode e cases (st.pc + 1))).patch (st.pc + 1) (last.pc + 1)) with
      cases := st.cases, breakpc := st.breakpc, nbreak := st.nbreak
      canreach := (after.nbreak + (if after.canreach then 1 else 0) + (if none ∈ cases.map Prod.fst then 0 else 1)) ≠ 0 } := by
  have start : genswitch e gens st =
      let last := if after.canreach then { after.emit (.jump (st.pc + 1)) with nbreak := after.nbreak + 1 } else after
      let st' := doswit e (last.patch st.pc last.pc)
      let st' := st'.patch (st.pc + 1) st'.pc
      { st' with cases := st.cases, breakpc := st.breakpc, canreach := st'.nbreak ≠ 0, nbreak := st.nbreak } := by
    have place : st.pc + 1 = st.gbranch.pc := by simp [St.gbranch, St.emit, St.pc]
    have head : st.code ++ [.jump 0, .jump 0] = (st.code ++ [.jump 0]) ++ [.jump 0] := by simp
    rw [head, place] at body
    rw [body, place]
    rfl
  rw [start]
  cases reach : after.canreach <;>
    simp only [if_true, if_false, Bool.false_eq_true] <;>
    rw [doswit_eq e _ cases (by simpa [St.emit, St.patch] using here) nodup] <;>
    simp only [St.emit, St.patch, St.pc, inside, Option.getD_some, List.length_append, List.length_modify, List.length_cons,
      List.length_nil, Nat.add_zero, Nat.zero_add]

/-- A goto that waits is sent on. -/
def resume (waiting : Option Nat) (target : Nat) (code : List (Instr ε)) : List (Instr ε) :=
  match waiting with
  | some p => code.modify p (Instr.aim target)
  | none => code

@[simp] theorem resume_length (waiting : Option Nat) (target : Nat) (code : List (Instr ε)) :
    (resume waiting target code).length = code.length := by
  cases waiting <;> simp [resume]

theorem genlabel_eq (l : Label) (st : St ε) : genlabel l st =
    { st with
      canreach := true, labelpc := Function.update st.labelpc l (some st.pc)
      code := resume (st.label l) st.pc st.code ++ [.jump (st.pc + 1)] } := by
  cases waiting : st.label l <;> simp [genlabel, waiting, resume, St.emit, St.patch, St.pc]

theorem gengoto_eq (declared : Label → Bool) (l : Label) (st : St ε) (known : declared l = true) (kept : st.suppress = 0) :
    gengoto declared l st =
    match st.labelpc l with
    | some target => { st with canreach := false, code := st.code ++ [.jump target] }
    | none =>
      { st with
        canreach := false, label := Function.update st.label l (some st.pc)
        code := resume (st.label l) st.pc (st.code ++ [.jump 0]) } := by
  cases place : st.labelpc l <;> cases waiting : st.label l <;>
    simp [gengoto, known, kept, place, waiting, resume, St.emit, St.gbranch, St.patch, St.pc]

theorem gengoto_dead (declared : Label → Bool) (l : Label) (st : St ε) (known : declared l = true) (dropped : st.suppress ≠ 0) :
    gengoto declared l st = { st with canreach := false } := by
  simp [gengoto, known, dropped]

/-! What `gen` leaves as it was, whether or not the code is kept. -/

/-- The part of the state that belongs to the statements around. -/
structure Outer where
  continpc : Option Nat
  breakpc : Option Nat
  suppress : Nat
  diags : List Diag
  cases : Option (List (Option Int × Nat))

def outer (st : St ε) : Outer := ⟨st.continpc, st.breakpc, st.suppress, st.diags, st.cases⟩

/-- Only cases `cs` are added. -/
def Kept (cs : List (Option Int)) (o o' : Outer) : Prop :=
  ∃ ms, ms.map Prod.fst = cs.reverse ∧ o' = { o with cases := o.cases.map (ms ++ ·) }

theorem Kept.refl (o : Outer) : Kept [] o o := ⟨[], rfl, by simp⟩

theorem Kept.trans {cs ds : List (Option Int)} {o o' o'' : Outer} (first : Kept cs o o') (second : Kept ds o' o'') :
    Kept (cs ++ ds) o o'' := by
  obtain ⟨ms, names, rfl⟩ := first
  obtain ⟨ns, names', rfl⟩ := second
  refine ⟨ns ++ ms, by simp [names, names'], ?_⟩
  simp [Function.comp_def]

structure Frame (s : Stmt ε) (st after : St ε) : Prop where
  kept : Kept (casesOf s) (outer st) (outer after)
  flow : ⟨after.canreach, after.nbreak⟩ = flow s ⟨st.canreach, st.nbreak⟩

namespace Frame

variable {s : Stmt ε} {st after : St ε} (frame : Frame s st after)

include frame

theorem breakpc : after.breakpc = st.breakpc := by
  obtain ⟨ms, -, same⟩ := frame.kept
  exact congrArg Outer.breakpc same

theorem continpc : after.continpc = st.continpc := by
  obtain ⟨ms, -, same⟩ := frame.kept
  exact congrArg Outer.continpc same

theorem suppress : after.suppress = st.suppress := by
  obtain ⟨ms, -, same⟩ := frame.kept
  exact congrArg Outer.suppress same

theorem cases : ∃ ms, ms.map Prod.fst = (casesOf s).reverse ∧ after.cases = st.cases.map (ms ++ ·) := by
  obtain ⟨ms, names, same⟩ := frame.kept
  exact ⟨ms, names, congrArg Outer.cases same⟩

end Frame

theorem isZ_eq {s : Stmt ε} (z : isZ s = true) : s = .exprs [] := by
  unfold isZ at z
  split at z
  · rfl
  · cases z

section Generated

variable (declared : Label → Bool)

/-- That a statement may stand where `gen` is. -/
def Accepted (s : Stmt ε) (o : Outer) : Prop := Placed declared o.continpc.isSome o.breakpc.isSome o.cases.isSome s

variable {declared}

theorem Kept.accepted {cs : List (Option Int)} {o o' : Outer} (kept : Kept cs o o') {s : Stmt ε} (placed : Accepted declared s o) :
    Accepted declared s o' := by
  obtain ⟨ms, -, rfl⟩ := kept
  simpa [Accepted] using placed

theorem Frame.supgen {s : Stmt ε} {gens : St ε → St ε} {st : St ε}
    (frame : Frame s { st with suppress := st.suppress + 1 } (gens { st with suppress := st.suppress + 1 })) :
    Frame s st (supgen s gens st) := by
  unfold Goken.Gen.supgen
  split
  · rename_i z
    rw [isZ_eq z]
    exact ⟨Kept.refl _, rfl⟩
  · refine ⟨?_, frame.flow⟩
    obtain ⟨ms, names, same⟩ := frame.kept
    simp only [outer, Outer.mk.injEq] at same
    exact ⟨ms, names, by simp [outer, same]⟩

section Compound

variable {s e : Stmt ε} {gens gene : St ε → St ε} (ihs : ∀ st, Accepted declared s (outer st) → Frame s st (gens st))

include ihs in
theorem genif_frame (ihe : ∀ st, Accepted declared e (outer st) → Frame e st (gene st)) (t : Test ε) (st : St ε)
    (placed : Accepted declared (.OIF t s e) (outer st)) : Frame (.OIF t s e) st (genif t s e gens gene st) := by
  cases fold : folded t s e with
  | some v =>
    cases v with
    | false =>
      rw [genif_false gens gene st fold]
      have first : Frame s { st with canreach := true } (supgen s gens { st with canreach := true }) := Frame.supgen (ihs _ placed.1)
      have second := ihe { supgen s gens { st with canreach := true } with canreach := true } (first.kept.accepted placed.2)
      refine ⟨first.kept.trans second.kept, ?_⟩
      have flows := congrArg Flow.nbreak first.flow
      simp only at flows
      rw [second.flow, flow, fold, flows]
    | true =>
      rw [genif_true gens gene st fold]
      have first := ihs { st with canreach := true } placed.1
      have second : Frame e { gens { st with canreach := true } with canreach := true }
        (supgen e gene { gens { st with canreach := true } with canreach := true }) := Frame.supgen (ihe _ (first.kept.accepted placed.2))
      refine ⟨first.kept.trans second.kept, ?_⟩
      have flows := congrArg Flow.nbreak first.flow
      have flows' := congrArg Flow.nbreak second.flow
      have reach := congrArg Flow.canreach first.flow
      simp only at flows flows' reach
      rw [flow, fold, flows', flows, reach]
  | none =>
    rw [genif_none gens gene st fold]
    have first := ihs { st with code := st.code ++ testCode t st.pc 0, canreach := true } placed.1
    generalize gens _ = after at first ⊢
    have flows := congrArg Flow.nbreak first.flow
    have reach := congrArg Flow.canreach first.flow
    simp only at flows reach
    split
    · rename_i z
      have none_ := isZ_eq z
      subst none_
      refine ⟨first.kept.trans (Kept.refl _), ?_⟩
      simp [flow, fold, flows, St.patch]
    · have second := ihe ({ after with canreach := true }.gbranch.patch (st.pc + testSize t - 1) (after.pc + 1))
        (first.kept.accepted placed.2)
      dsimp only
      generalize gene _ = last at second ⊢
      have flows' := congrArg Flow.nbreak second.flow
      have reach' := congrArg Flow.canreach second.flow
      refine ⟨first.kept.trans second.kept, ?_⟩
      simp only [St.patch, St.gbranch, St.emit] at flows' reach' ⊢
      simp [flow, fold, flows', reach', reach, flows]

include ihs in
theorem genwhile_frame (late : Bool) (t : Test ε) (st : St ε) (placed : Accepted declared (.OWHILE t s) (outer st)) :
    Frame (.OWHILE t s) st (genwhile late t gens st) := by
  rw [genwhile_eq]
  have body := ihs { st with
    code := st.code ++ whileHead late t st.pc, continpc := some (st.pc + 1), breakpc := some (st.pc + 2), nbreak := t.exits } placed
  have flows := congrArg Flow.nbreak body.flow
  refine ⟨?_, by simp [flow, ← flows]⟩
  obtain ⟨ms, names, same⟩ := body.kept
  simp only [outer, Outer.mk.injEq] at same
  exact ⟨ms, names, by simp [outer, same, St.emit, St.patch]⟩

include ihs in
theorem genfor_frame (init : List ε) (t : Option (Test ε)) (inc : List ε) (st : St ε)
    (placed : Accepted declared (.OFOR init t inc s) (outer st)) : Frame (.OFOR init t inc s) st (genfor init t inc gens st) := by
  rw [genfor_eq, genfor_nil]
  have body := ihs { st with
    code := st.code ++ init.map .eval ++ forHead t inc (st.pc + init.length), continpc := some (st.pc + init.length + 1),
    breakpc := some (st.pc + init.length + 2), canreach := true, nbreak := (t.map Test.exits).getD 0 } placed
  have flows := congrArg Flow.nbreak body.flow
  obtain ⟨ms, names, same⟩ := body.kept
  simp only [St.pc, List.length_append, List.length_map, outer, Outer.mk.injEq] at same flows ⊢
  generalize gens _ = after at same flows ⊢
  split
  · exact ⟨⟨ms, names, by simp [outer, same, St.emit, St.patch]⟩, by rw [Gen.flow, ← flows]; rfl⟩
  · exact ⟨⟨ms, names, by simp [outer, same, St.patch]⟩, by rw [Gen.flow, ← flows]⟩

include ihs in
theorem genswitch_frame (e : ε) (st : St ε) (placed : Accepted declared (.OSWITCH e s) (outer st)) :
    Frame (.OSWITCH e s) st (genswitch e gens st) := by
  have body := ihs { st with code := st.code ++ [.jump 0, .jump 0], cases := some [], breakpc := some (st.pc + 1), nbreak := 0 }
    placed.1
  obtain ⟨ms, names, same⟩ := body.kept
  simp only [outer, Outer.mk.injEq, Option.map_some, List.append_nil] at same
  have nodup : (ms.map Prod.fst).Nodup := by rw [names, List.nodup_reverse]; exact placed.2
  rw [genswitch_eq e st ms _ rfl body.breakpc same.2.2.2.2 nodup]
  have nbreak := congrArg Flow.nbreak body.flow
  have canreach := congrArg Flow.canreach body.flow
  simp only at nbreak canreach
  have dflt : none ∈ ms.map Prod.fst ↔ none ∈ casesOf s := by rw [names, List.mem_reverse]
  have flows : ∀ (n : Nat) (r : Bool), decide (n + (if r then 1 else 0) + (if none ∈ ms.map Prod.fst then 0 else 1) ≠ 0) =
      decide (n ≠ 0 ∨ r = true ∨ none ∉ casesOf s) := by
    intro n r
    rw [decide_eq_decide]
    by_cases present : none ∈ casesOf s
    · rw [if_pos (dflt.mpr present)]
      cases r <;> simp [present]
    · rw [if_neg (dflt.not.mpr present)]
      simp [present]
  rw [flows, nbreak, canreach]
  split
  · exact ⟨⟨[], rfl, by simp [outer, same, St.emit, St.patch]⟩, by simp [flow]⟩
  · exact ⟨⟨[], rfl, by simp [outer, same, St.emit, St.patch]⟩, by simp [flow]⟩

end Compound

theorem gen_frame (s : Stmt ε) : ∀ st : St ε, Accepted declared s (outer st) → Frame s st (gen declared s st) := by
  induction s with
  | exprs es =>
    intro st _
    rw [gen, evals_eq]
    exact ⟨Kept.refl _, rfl⟩
  | OLIST s t ihs iht =>
    intro st placed
    have left := ihs st placed.1
    have right := iht _ (left.kept.accepted placed.2)
    refine ⟨left.kept.trans right.kept, ?_⟩
    rw [gen, right.flow, left.flow, flow]
  | OIF t s e ihs ihe => exact genif_frame ihs ihe t
  | OWHILE t s ih => exact genwhile_frame ih false t
  | ODWHILE t s ih =>
    intro st placed
    have same := genwhile_frame ih true t st placed
    exact ⟨same.kept, same.flow⟩
  | OFOR init t inc s ih => exact genfor_frame ih init t inc
  | OSWITCH e s ih => exact genswitch_frame ih e
  | OCASE c =>
    intro st placed
    obtain ⟨cases, here⟩ := Option.isSome_iff_exists.mp placed
    have here' : st.cases = some cases := here
    simp only [gen, casf, here']
    exact ⟨⟨[(c, st.pc)], rfl, by simp [outer, here', St.pc]⟩, rfl⟩
  | OLABEL l =>
    intro st _
    rw [gen, genlabel_eq]
    exact ⟨Kept.refl _, rfl⟩
  | OGOTO l =>
    intro st known
    rw [gen]
    by_cases kept : st.suppress = 0
    · rw [gengoto_eq declared l st known kept]
      cases st.labelpc l <;> exact ⟨Kept.refl _, rfl⟩
    · rw [gengoto_dead declared l st known kept]
      exact ⟨Kept.refl _, rfl⟩
  | OBREAK =>
    intro st placed
    obtain ⟨target, here⟩ := Option.isSome_iff_exists.mp placed
    have here' : st.breakpc = some target := here
    simp only [gen, here']
    cases reach : st.canreach
    · exact ⟨Kept.refl _, by simp [flow, reach]⟩
    · exact ⟨Kept.refl _, by simp [flow, reach]⟩
  | OCONTINUE =>
    intro st placed
    obtain ⟨target, here⟩ := Option.isSome_iff_exists.mp placed
    have here' : st.continpc = some target := here
    simp only [gen, here']
    exact ⟨Kept.refl _, rfl⟩
  | ORETURN e =>
    intro st _
    cases e <;> exact ⟨Kept.refl _, rfl⟩

/-! Code that is not kept: nothing outside of it is changed. -/

structure Apart (st after : St ε) : Prop where
  code : st.code <+: after.code
  labelpc : after.labelpc = st.labelpc
  label : after.label = st.label

theorem isPrefix_modify {α : Type} {l l' : List α} (ahead : l <+: l') {p : Nat} (place : l.length ≤ p) (f : α → α) : l <+: l'.modify p f := by
  rw [List.prefix_iff_getElem?] at ahead ⊢
  intro i bound
  have other : p ≠ i := by omega
  simp [ahead i bound, other]

theorem Apart.supgen {s : Stmt ε} {gens : St ε → St ε} {st : St ε}
    (apart : Apart { st with suppress := st.suppress + 1 } (gens { st with suppress := st.suppress + 1 })) :
    Apart st (supgen s gens st) := by
  unfold Goken.Gen.supgen
  split
  · exact ⟨List.prefix_rfl, rfl, rfl⟩
  · refine ⟨?_, apart.labelpc, apart.label⟩
    exact ⟨[], (List.append_nil _).trans (List.prefix_iff_eq_take.mp apart.code)⟩

section Compound

variable {s e : Stmt ε} (ihs : ∀ st : St ε, Accepted declared s (outer st) → labels s = [] → st.suppress ≠ 0 → Apart st (gen declared s st))

include ihs in
theorem genwhile_apart (late : Bool) (t : Test ε) (st : St ε) (placed : Accepted declared (.OWHILE t s) (outer st))
    (none_ : labels s = []) (dropped : st.suppress ≠ 0) : Apart st (genwhile late t (gen declared s) st) := by
  rw [genwhile_eq]
  have body := ihs { st with
    code := st.code ++ whileHead late t st.pc, continpc := some (st.pc + 1), breakpc := some (st.pc + 2), nbreak := t.exits }
    placed none_ dropped
  refine ⟨isPrefix_modify ?_ (Nat.le_add_right _ _) _, body.labelpc, body.label⟩
  exact (List.prefix_append _ _).trans (body.code.trans (List.prefix_append _ _))

include ihs in
theorem genfor_apart (init : List ε) (t : Option (Test ε)) (inc : List ε) (st : St ε)
    (placed : Accepted declared (.OFOR init t inc s) (outer st)) (none_ : labels s = []) (dropped : st.suppress ≠ 0) :
    Apart st (genfor init t inc (gen declared s) st) := by
  rw [genfor_eq, genfor_nil]
  have body := ihs { st with
    code := st.code ++ init.map .eval ++ forHead t inc (st.pc + init.length), continpc := some (st.pc + init.length + 1),
    breakpc := some (st.pc + init.length + 2), canreach := true, nbreak := (t.map Test.exits).getD 0 } placed none_ dropped
  have ahead := ((List.prefix_append _ _).trans (List.prefix_append _ _)).trans body.code
  have place : st.code.length ≤ st.code.length + init.length + 2 := by omega
  simp only [St.pc, List.length_append, List.length_map] at body ahead ⊢
  generalize gen declared s _ = after at body ahead ⊢
  split
  · exact ⟨isPrefix_modify (ahead.trans (List.prefix_append _ _)) place _, body.labelpc, body.label⟩
  · exact ⟨isPrefix_modify ahead place _, body.labelpc, body.label⟩

include ihs in
theorem genswitch_apart (e : ε) (st : St ε) (placed : Accepted declared (.OSWITCH e s) (outer st)) (none_ : labels s = [])
    (dropped : st.suppress ≠ 0) : Apart st (genswitch e (gen declared s) st) := by
  have frame := gen_frame s { st with code := st.code ++ [.jump 0, .jump 0], cases := some [], breakpc := some (st.pc + 1), nbreak := 0 }
    placed.1
  have body := ihs { st with code := st.code ++ [.jump 0, .jump 0], cases := some [], breakpc := some (st.pc + 1), nbreak := 0 }
    placed.1 none_ dropped
  obtain ⟨ms, names, cases⟩ := frame.cases
  rw [genswitch_eq e st ms _ rfl frame.breakpc (by simpa using cases) (by rw [names, List.nodup_reverse]; exact placed.2)]
  have ahead := (List.prefix_append _ _).trans body.code
  generalize gen declared s _ = after at body ahead ⊢
  have last : ∀ last : List (Instr ε), st.code <+: last → ∀ (x y : Nat) (i : Instr ε),
      st.code <+: ((last.modify st.pc (Instr.aim x)) ++ [i]).modify (st.pc + 1) (Instr.aim y) := by
    intro last ahead x y i
    exact isPrefix_modify ((isPrefix_modify ahead (Nat.le_refl _) _).trans (List.prefix_append _ _)) (Nat.le_succ _) _
  dsimp only
  split
  · exact ⟨last _ (ahead.trans (List.prefix_append _ _)) _ _ _, body.labelpc, body.label⟩
  · exact ⟨last _ ahead _ _ _, body.labelpc, body.label⟩

include ihs in
theorem genif_apart (ihe : ∀ st : St ε, Accepted declared e (outer st) → labels e = [] → st.suppress ≠ 0 → Apart st (gen declared e st))
    (t : Test ε) (st : St ε) (placed : Accepted declared (.OIF t s e) (outer st)) (none_ : labels s = []) (none_' : labels e = [])
    (dropped : st.suppress ≠ 0) : Apart st (genif t s e (gen declared s) (gen declared e) st) := by
  cases fold : folded t s e with
  | some v =>
    cases v with
    | false =>
      rw [genif_false _ _ st fold]
      have frame : Frame s { st with canreach := true } (supgen s (gen declared s) { st with canreach := true }) :=
        Frame.supgen (gen_frame s _ placed.1)
      have first : Apart { st with canreach := true } (supgen s (gen declared s) { st with canreach := true }) :=
        Apart.supgen (ihs _ placed.1 none_ (Nat.succ_ne_zero _))
      have second := ihe { supgen s (gen declared s) { st with canreach := true } with canreach := true }
        (frame.kept.accepted placed.2) none_' (by rw [frame.suppress]; exact dropped)
      exact ⟨first.code.trans second.code, second.labelpc.trans first.labelpc, second.label.trans first.label⟩
    | true =>
      rw [genif_true _ _ st fold]
      have frame := gen_frame s { st with canreach := true } placed.1
      have first := ihs { st with canreach := true } placed.1 none_ dropped
      have second : Apart { gen declared s { st with canreach := true } with canreach := true }
        (supgen e (gen declared e) { gen declared s { st with canreach := true } with canreach := true }) :=
        Apart.supgen (ihe _ (frame.kept.accepted placed.2) none_' (Nat.succ_ne_zero _))
      exact ⟨first.code.trans second.code, second.labelpc.trans first.labelpc, second.label.trans first.label⟩
  | none =>
    rw [genif_none _ _ st fold]
    have frame := gen_frame s { st with code := st.code ++ testCode t st.pc 0, canreach := true } placed.1
    have first := ihs { st with code := st.code ++ testCode t st.pc 0, canreach := true } placed.1 none_ dropped
    have ahead := (List.prefix_append _ _).trans first.code
    have place : st.code.length ≤ st.pc + testSize t - 1 := by have := testSize_pos t; simp only [St.pc]; omega
    generalize gen declared s _ = after at frame first ahead ⊢
    have longer : st.code.length ≤ after.pc := ahead.length_le
    split
    · exact ⟨isPrefix_modify ahead place _, first.labelpc, first.label⟩
    · have second := ihe ({ after with canreach := true }.gbranch.patch (st.pc + testSize t - 1) (after.pc + 1))
        (frame.kept.accepted placed.2) none_' (by
          have same : after.suppress = st.suppress := frame.suppress
          show after.suppress ≠ 0
          rwa [same])
      have ahead' : st.code <+: ({ after with canreach := true }.gbranch.patch (st.pc + testSize t - 1) (after.pc + 1)).code :=
        isPrefix_modify (ahead.trans (List.prefix_append _ _)) place _
      exact ⟨isPrefix_modify (ahead'.trans second.code) longer _, second.labelpc.trans first.labelpc, second.label.trans first.label⟩

end Compound

theorem gen_apart (s : Stmt ε) : ∀ st : St ε, Accepted declared s (outer st) → labels s = [] → st.suppress ≠ 0 →
    Apart st (gen declared s st) := by
  induction s with
  | exprs es =>
    intro st _ _ _
    rw [gen, evals_eq]
    exact ⟨List.prefix_append _ _, rfl, rfl⟩
  | OLIST s t ihs iht =>
    intro st placed none_ dropped
    rw [labels, List.append_eq_nil_iff] at none_
    have frame := gen_frame s st placed.1
    have left := ihs st placed.1 none_.1 dropped
    have right := iht _ (frame.kept.accepted placed.2) none_.2 (by rwa [frame.suppress])
    exact ⟨left.code.trans right.code, right.labelpc.trans left.labelpc, right.label.trans left.label⟩
  | OIF t s e ihs ihe =>
    intro st placed none_ dropped
    rw [labels, List.append_eq_nil_iff] at none_
    exact genif_apart ihs ihe t st placed none_.1 none_.2 dropped
  | OWHILE t s ih => exact genwhile_apart ih false t
  | ODWHILE t s ih => exact genwhile_apart ih true t
  | OFOR init t inc s ih => exact genfor_apart ih init t inc
  | OSWITCH e s ih => exact genswitch_apart ih e
  | OCASE c =>
    intro st placed _ _
    obtain ⟨cases, here⟩ := Option.isSome_iff_exists.mp placed
    have here' : st.cases = some cases := here
    simp only [gen, casf, here']
    exact ⟨List.prefix_rfl, rfl, rfl⟩
  | OLABEL l =>
    intro st _ none_
    cases none_
  | OGOTO l =>
    intro st known _ dropped
    rw [gen, gengoto_dead declared l st known dropped]
    exact ⟨List.prefix_rfl, rfl, rfl⟩
  | OBREAK =>
    intro st placed _ _
    rw [gen]
    split
    · exact ⟨List.prefix_rfl, rfl, rfl⟩
    · split
      · exact ⟨List.prefix_append _ _, rfl, rfl⟩
      · exact ⟨List.prefix_rfl, rfl, rfl⟩
  | OCONTINUE =>
    intro st placed _ _
    rw [gen]
    split
    · exact ⟨List.prefix_rfl, rfl, rfl⟩
    · exact ⟨List.prefix_append _ _, rfl, rfl⟩
  | ORETURN e =>
    intro st _ _ _
    cases e with
    | none => exact ⟨List.prefix_append _ _, rfl, rfl⟩
    | some e => exact ⟨(List.prefix_append _ _).trans (List.prefix_append _ _), rfl, rfl⟩

theorem deadhead_labels (s : Stmt ε) (caseok : Bool) (dead : deadhead s caseok = true) : labels s = [] := by
  induction s generalizing caseok with
  | OLIST s t ihs iht | OIF _ s t ihs iht =>
    simp only [deadhead, Bool.and_eq_true] at dead
    rw [labels, ihs caseok dead.1, iht caseok dead.2, List.append_nil]
  | OWHILE t s ih | ODWHILE t s ih | OFOR _ _ _ s ih => exact ih caseok dead
  | OSWITCH _ s ih => exact ih true dead
  | OLABEL l => cases dead
  | _ => rfl

theorem deadhead_cases (s : Stmt ε) (dead : deadhead s false = true) : casesOf s = [] := by
  induction s with
  | OLIST s t ihs iht | OIF _ s t ihs iht =>
    simp only [deadhead, Bool.and_eq_true] at dead
    rw [casesOf, ihs dead.1, iht dead.2, List.append_nil]
  | OWHILE t s ih | ODWHILE t s ih | OFOR _ _ _ s ih => exact ih dead
  | OCASE c => cases dead
  | _ => rfl

/-- A statement that is suppressed only counts. -/
theorem supgen_eq (s : Stmt ε) (st : St ε) (placed : Accepted declared s (outer st)) (dead : deadhead s false = true) :
    supgen s (gen declared s) st =
      { st with canreach := (flow s ⟨st.canreach, st.nbreak⟩).canreach, nbreak := (flow s ⟨st.canreach, st.nbreak⟩).nbreak } := by
  have frame : Frame s st (supgen s (gen declared s) st) := Frame.supgen (gen_frame s _ placed)
  have inner := gen_apart s { st with suppress := st.suppress + 1 } placed (deadhead_labels s false dead) (Nat.succ_ne_zero _)
  have apart : Apart st (supgen s (gen declared s) st) := Apart.supgen inner
  have code : (supgen s (gen declared s) st).code = st.code := by
    unfold supgen
    split
    · rfl
    · exact (List.prefix_iff_eq_take.mp inner.code).symm
  obtain ⟨ms, names, same⟩ := frame.kept
  rw [deadhead_cases s dead, List.reverse_nil, List.map_eq_nil_iff] at names
  subst names
  have flows := frame.flow
  clear frame
  generalize supgen s (gen declared s) st = after at *
  rw [← flows]
  obtain ⟨code', canreach', continpc', breakpc', nbreak', suppress', labelpc', label', cases', diags'⟩ := after
  simp only [outer, Outer.mk.injEq, List.nil_append, Option.map_id'] at same
  have labelpc : labelpc' = st.labelpc := apart.labelpc
  have label : label' = st.label := apart.label
  simp only at code
  simp [same, code, labelpc, label]

end Generated

end Goken.Proofs.GenCode
