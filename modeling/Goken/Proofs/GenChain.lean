import Goken.Proofs.GenCode
import Mathlib.Logic.Relation

/-! Gotos. Those that wait for a label are chained, each to the next one and the
last one to the label. Other patches do not get in between, so the code of a
function is what `items` says. -/

namespace Goken.Proofs.GenChain
open Goken.Gen GenCode Lib.Simulation Lib.Lists

variable {ε : Type}

/-- A goto that goes to a later one for the same label. -/
def Link (items : List (Item ε)) (code : List (Instr ε)) (l : Label) (p q : Nat) : Prop :=
  items[p]? = some (.goto l) ∧ code[p]? = some (.jump q) ∧ p < q

def Chain (items : List (Item ε)) (code : List (Instr ε)) (l : Label) : Nat → Nat → Prop :=
  Relation.ReflTransGen (Link items code l)

section Chain

variable {items items' : List (Item ε)} {code code' : List (Instr ε)} {l : Label} {p q : Nat}

theorem Chain.le (chain : Chain items code l p q) : p ≤ q := by
  induction chain with
  | refl => exact Nat.le_refl p
  | tail _ link ih => exact ih.trans link.2.2.le

theorem Chain.mono (chain : Chain items code l p q)
    (same : ∀ i < q, items[i]? = some (.goto l) → items'[i]? = items[i]? ∧ code'[i]? = code[i]?) : Chain items' code' l p q := by
  induction chain using Relation.ReflTransGen.head_induction_on with
  | refl => exact .refl
  | head link rest ih =>
    obtain ⟨goto, jump, less⟩ := link
    obtain ⟨same_item, same_code⟩ := same _ (Nat.lt_of_lt_of_le less (Chain.le rest)) goto
    exact .head ⟨same_item.trans goto, same_code.trans jump, less⟩ ih

end Chain

/-- How the gotos to `l` go on. -/
def Onto (items : List (Item ε)) (code : List (Instr ε)) (labelpc label : Option Nat) (l : Label) (p : Nat) : Prop :=
  match labelpc with
  | some target => ∃ q, Chain items code l p q ∧ items[q]? = some (.goto l) ∧ code[q]? = some (.jump target)
  | none => ∃ q, label = some q ∧ Chain items code l p q

/-- What is known of the code so far. -/
structure Emitted (items : List (Item ε)) (code : List (Instr ε)) (labelpc label : Label → Option Nat) : Prop where
  length : code.length = items.length
  fits : ∀ p item, items[p]? = some item → ∃ x, code[p]? = some x ∧ Fits p x item
  labelled : ∀ l p, items[p]? = some (.label l) ↔ labelpc l = some p
  waits : ∀ l q, label l = some q → items[q]? = some (.goto l)
  onto : ∀ l p, items[p]? = some (.goto l) → Onto items code (labelpc l) (label l) l p

theorem snoc_some {α : Type} {l : List α} {x y : α} {i : Nat} :
    (l ++ [x])[i]? = some y ↔ l[i]? = some y ∨ i = l.length ∧ y = x := by
  rcases Nat.lt_trichotomy i l.length with less | rfl | more
  · simp [List.getElem?_append_left less, Nat.ne_of_lt less]
  · simp [eq_comm]
  · have beyond : (l ++ [x]).length ≤ i := by simp; omega
    simp [List.getElem?_eq_none beyond, List.getElem?_eq_none more.le, Nat.ne_of_gt more]

theorem snoc_left {α : Type} {l : List α} {i : Nat} {y : α} (here : l[i]? = some y) (x : α) : (l ++ [x])[i]? = l[i]? :=
  List.getElem?_append_left (List.getElem?_eq_some_iff.mp here).1

/-- If the places of the gotos to `l` are left alone, so is where they lead. -/
theorem Onto.mono {items items' : List (Item ε)} {code code' : List (Instr ε)} {labelpc label : Option Nat} {l : Label} {p : Nat}
    (onto : Onto items code labelpc label l p)
    (same : ∀ i : Nat, items[i]? = some (.goto l) → items'[i]? = items[i]? ∧ code'[i]? = code[i]?) :
    Onto items' code' labelpc label l p := by
  unfold Onto at onto ⊢
  split at onto
  · obtain ⟨q, chain, goto, jump⟩ := onto
    exact ⟨q, chain.mono fun i _ => same i, (same q goto).1.trans goto, (same q goto).2.trans jump⟩
  · obtain ⟨q, waits, chain⟩ := onto
    exact ⟨q, waits, chain.mono fun i _ => same i⟩

theorem resume_other {waiting : Option Nat} {i : Nat} (other : waiting ≠ some i) (target : Nat) (code : List (Instr ε)) :
    (resume waiting target code)[i]? = code[i]? := by
  cases waiting with
  | none => rfl
  | some q =>
    have differ : q ≠ i := fun same => other (congrArg some same)
    simp [resume, differ]

theorem resume_here {code : List (Instr ε)} {q x : Nat} (here : code[q]? = some (.jump x)) (target : Nat) :
    (resume (some q) target code)[q]? = some (.jump target) := by
  simp [resume, here, Instr.aim]

namespace Emitted

variable {items : List (Item ε)} {code : List (Instr ε)} {labelpc label : Label → Option Nat}
variable (emitted : Emitted items code labelpc label)

include emitted

theorem goto_jump {l : Label} {p : Nat} (goto : items[p]? = some (.goto l)) : ∃ x, code[p]? = some (.jump x) := by
  obtain ⟨_, here, x, rfl⟩ := emitted.fits p _ goto
  exact ⟨x, here⟩

theorem snoc_same (item : Item ε) (x : Instr ε) {l : Label} {i : Nat} (goto : items[i]? = some (.goto l)) :
    (items ++ [item])[i]? = items[i]? ∧ (code ++ [x])[i]? = code[i]? := by
  obtain ⟨y, here⟩ := emitted.goto_jump goto
  exact ⟨snoc_left goto item, snoc_left here x⟩

theorem snoc_fits {item : Item ε} {x : Instr ε} (fit : Fits items.length x item) :
    ∀ p it, (items ++ [item])[p]? = some it → ∃ y, (code ++ [x])[p]? = some y ∧ Fits p y it := by
  intro p it here
  rcases snoc_some.mp here with old | ⟨rfl, rfl⟩
  · obtain ⟨y, there, fits⟩ := emitted.fits p it old
    exact ⟨y, (snoc_left there x).trans there, fits⟩
  · exact ⟨x, snoc_some.mpr (Or.inr ⟨emitted.length.symm, rfl⟩), fit⟩

theorem emit (i : Instr ε) : Emitted (items ++ [.op i]) (code ++ [i]) labelpc label := by
  refine ⟨by simp [emitted.length], emitted.snoc_fits rfl, ?_, ?_, ?_⟩
  · intro l p
    simp [snoc_some, emitted.labelled]
  · intro l q waiting
    exact snoc_some.mpr (Or.inl (emitted.waits l q waiting))
  · intro l p goto
    have old : items[p]? = some (.goto l) := by simpa [snoc_some] using goto
    exact (emitted.onto l p old).mono fun j => emitted.snoc_same _ _

theorem emits (is : List (Instr ε)) : Emitted (items ++ is.map .op) (code ++ is) labelpc label := by
  induction is generalizing items code with
  | nil => simpa using emitted
  | cons i is ih => simpa using ih (emitted.emit i)

/-- Patching an instruction that is not a goto. -/
theorem patch {p : Nat} {i : Instr ε} (here : items[p]? = some (.op i)) (target : Nat) :
    Emitted (items.modify p (Item.aim target)) (code.modify p (Instr.aim target)) labelpc label := by
  have stays : ∀ (q : Nat) (item : Item ε), (∀ j, item ≠ .op j) →
      ((items.modify p (Item.aim target))[q]? = some item ↔ items[q]? = some item) := by
    intro q item other
    by_cases same : p = q
    · subst same
      simp only [List.getElem?_modify, if_true, here, Option.map_eq_map, Option.map_some, Item.aim, Option.some.injEq]
      exact ⟨fun eq => absurd eq.symm (other _), fun eq => absurd eq.symm (other _)⟩
    · simp [same]
  have apart : ∀ (l : Label) (q : Nat), items[q]? = some (.goto l) → p ≠ q := by
    rintro l q goto rfl
    rw [here] at goto
    cases goto
  refine ⟨by simp [emitted.length], ?_, ?_, ?_, ?_⟩
  · intro q item there
    by_cases same : p = q
    · subst same
      obtain ⟨x, at_, rfl⟩ := emitted.fits p _ here
      simp [here, Item.aim] at there
      subst there
      exact ⟨x.aim target, by simp [at_], rfl⟩
    · have same_item : (items.modify p (Item.aim target))[q]? = items[q]? := by simp [same]
      have same_code : (code.modify p (Instr.aim target))[q]? = code[q]? := by simp [same]
      rw [same_item] at there
      rw [same_code]
      exact emitted.fits q item there
  · intro l q
    rw [stays q _ (by simp), emitted.labelled]
  · intro l q waiting
    rw [stays q _ (by simp)]
    exact emitted.waits l q waiting
  · intro l q goto
    rw [stays q _ (by simp)] at goto
    refine (emitted.onto l q goto).mono fun j there => ?_
    simp [apart l j there]

/-- Sending on the goto that waits for `l` keeps all but this one. -/
theorem resume_fits (l : Label) (target p : Nat) (item : Item ε) (here : items[p]? = some item) :
    ∃ x, (resume (label l) target code)[p]? = some x ∧ Fits p x item := by
  by_cases waiting : label l = some p
  · have goto := emitted.waits l p waiting
    obtain ⟨x, there⟩ := emitted.goto_jump goto
    rw [goto] at here
    cases here
    exact ⟨.jump target, by rw [waiting, resume_here there], target, rfl⟩
  · rw [resume_other waiting]
    exact emitted.fits p item here

theorem resume_apart (l l' : Label) (differ : l' ≠ l) (target : Nat) {i : Nat} (goto : items[i]? = some (.goto l')) :
    (resume (label l) target code)[i]? = code[i]? := by
  refine resume_other (fun waiting => ?_) target code
  rw [emitted.waits l i waiting] at goto
  cases goto
  exact differ rfl

/-- Where the gotos to `l` lead when the last one of them is sent to `target`. -/
theorem resume_chain {l : Label} (unknown : labelpc l = none) (target : Nat) {p : Nat} (goto : items[p]? = some (.goto l)) :
    ∃ q, label l = some q ∧ Chain items (resume (label l) target code) l p q ∧ items[q]? = some (.goto l) ∧
      (resume (label l) target code)[q]? = some (.jump target) := by
  have onto := emitted.onto l p goto
  rw [unknown] at onto
  obtain ⟨q, waiting, chain⟩ := onto
  have last := emitted.waits l q waiting
  obtain ⟨x, there⟩ := emitted.goto_jump last
  refine ⟨q, waiting, chain.mono fun i less _ => ⟨rfl, ?_⟩, last, by rw [waiting, resume_here there]⟩
  refine resume_other (fun same => ?_) target code
  rw [waiting] at same
  cases same
  exact Nat.lt_irrefl _ less

theorem resume_snoc (l : Label) (target : Nat) (item : Item ε) (x : Instr ε) {l' : Label} {i : Nat}
    (goto : items[i]? = some (.goto l')) :
    (items ++ [item])[i]? = items[i]? ∧ (resume (label l) target code ++ [x])[i]? = (resume (label l) target code)[i]? := by
  obtain ⟨y, there, -⟩ := emitted.resume_fits l target i _ goto
  exact ⟨snoc_left goto item, snoc_left there x⟩

theorem resume_append (l : Label) (target : Nat) (x : Instr ε) :
    resume (label l) target (code ++ [x]) = resume (label l) target code ++ [x] := by
  cases waiting : label l with
  | none => rfl
  | some q =>
    obtain ⟨y, there⟩ := emitted.goto_jump (emitted.waits l q waiting)
    have inside := (List.getElem?_eq_some_iff.mp there).1
    refine List.ext_getElem? fun i => ?_
    simp only [resume, List.getElem?_modify, List.getElem?_append, List.length_modify]
    by_cases less : i < code.length
    · simp [less]
    · have differ : q ≠ i := by omega
      simp [less, differ]

theorem label_ (l : Label) (fresh : labelpc l = none) :
    Emitted (items ++ [.label l]) (resume (label l) items.length code ++ [.jump (items.length + 1)])
      (Function.update labelpc l (some items.length)) label := by
  refine ⟨by simp [emitted.length], ?_, ?_, ?_, ?_⟩
  · intro p item here
    rcases snoc_some.mp here with old | ⟨rfl, rfl⟩
    · obtain ⟨x, there, fits⟩ := emitted.resume_fits l items.length p item old
      exact ⟨x, (snoc_left there _).trans there, fits⟩
    · exact ⟨_, snoc_some.mpr (Or.inr ⟨by simp [emitted.length], rfl⟩), rfl⟩
  · intro l' p
    by_cases same : l' = l
    · subst same
      have nowhere : ∀ p : Nat, items[p]? ≠ some (Item.label l') := by
        intro p here
        rw [emitted.labelled, fresh] at here
        cases here
      simp only [snoc_some, nowhere, false_or, and_true, Function.update_self, Option.some.injEq]
      exact eq_comm
    · simp [snoc_some, same, emitted.labelled]
  · intro l' q waiting
    exact snoc_some.mpr (Or.inl (emitted.waits l' q waiting))
  · intro l' p goto
    have old : items[p]? = some (.goto l') := by simpa [snoc_some] using goto
    by_cases same : l' = l
    · subst same
      rw [Function.update_self]
      obtain ⟨q, _, chain, last, there⟩ := emitted.resume_chain fresh items.length old
      refine ⟨q, chain.mono fun i _ goto => emitted.resume_snoc l' _ _ _ goto, (snoc_left last _).trans last, ?_⟩
      exact (snoc_left there _).trans there
    · rw [Function.update_of_ne same]
      refine (emitted.onto l' p old).mono fun i goto => ?_
      obtain ⟨same_item, same_code⟩ := emitted.resume_snoc l items.length (.label l) (.jump (items.length + 1)) goto
      exact ⟨same_item, same_code.trans (emitted.resume_apart l l' same _ goto)⟩

theorem goto_back (l : Label) {target : Nat} (known : labelpc l = some target) :
    Emitted (items ++ [.goto l]) (code ++ [.jump target]) labelpc label := by
  refine ⟨by simp [emitted.length], emitted.snoc_fits ⟨target, rfl⟩, ?_, ?_, ?_⟩
  · intro l p
    simp [snoc_some, emitted.labelled]
  · intro l q waiting
    exact snoc_some.mpr (Or.inl (emitted.waits l q waiting))
  · intro l' p goto
    rcases snoc_some.mp goto with old | ⟨rfl, same⟩
    · exact (emitted.onto l' p old).mono fun i => emitted.snoc_same _ _
    · cases same
      rw [known]
      exact ⟨items.length, .refl, goto, snoc_some.mpr (Or.inr ⟨emitted.length.symm, rfl⟩)⟩

theorem goto_on (l : Label) (unknown : labelpc l = none) :
    Emitted (items ++ [.goto l]) (resume (label l) items.length (code ++ [.jump 0])) labelpc
      (Function.update label l (some items.length)) := by
  rw [emitted.resume_append]
  refine ⟨by simp [emitted.length], ?_, ?_, ?_, ?_⟩
  · intro p item here
    rcases snoc_some.mp here with old | ⟨rfl, rfl⟩
    · obtain ⟨x, there, fits⟩ := emitted.resume_fits l items.length p item old
      exact ⟨x, (snoc_left there _).trans there, fits⟩
    · exact ⟨_, snoc_some.mpr (Or.inr ⟨by simp [emitted.length], rfl⟩), 0, rfl⟩
  · intro l p
    simp [snoc_some, emitted.labelled]
  · intro l' q waiting
    by_cases same : l' = l
    · subst same
      rw [Function.update_self] at waiting
      cases waiting
      exact snoc_some.mpr (Or.inr ⟨rfl, rfl⟩)
    · rw [Function.update_of_ne same] at waiting
      exact snoc_some.mpr (Or.inl (emitted.waits l' q waiting))
  · intro l' p goto
    by_cases same : l' = l
    · subst same
      rw [unknown, Function.update_self]
      refine ⟨items.length, rfl, ?_⟩
      rcases snoc_some.mp goto with old | ⟨rfl, _⟩
      · obtain ⟨q, _, chain, last, there⟩ := emitted.resume_chain unknown items.length old
        have chain' := chain.mono fun i _ goto => emitted.resume_snoc l' items.length (.goto l') (.jump 0) goto
        exact chain'.tail ⟨(snoc_left last _).trans last, (snoc_left there _).trans there, (List.getElem?_eq_some_iff.mp last).1⟩
      · exact .refl
    · rw [Function.update_of_ne same]
      have old : items[p]? = some (.goto l') := by simpa [snoc_some, same] using goto
      refine (emitted.onto l' p old).mono fun i goto => ?_
      obtain ⟨same_item, same_code⟩ := emitted.resume_snoc l items.length (.goto l) (.jump 0) goto
      exact ⟨same_item, same_code.trans (emitted.resume_apart l l' same _ goto)⟩

end Emitted

/-! The whole of `gen`. -/

def flowOf (st : St ε) : Flow := ⟨st.canreach, st.nbreak⟩

def contextOf (st : St ε) : Context := ⟨st.breakpc.getD 0, st.continpc.getD 0⟩

/-- What `gen` does to a state in which `before` has been emitted. -/
structure Yields (s : Stmt ε) (before : List (Item ε)) (st after : St ε) : Prop where
  emitted : Emitted (before ++ items s (contextOf st) (flowOf st) before.length) after.code after.labelpc after.label
  cases : after.cases = st.cases.map ((casesAt s (flowOf st) before.length).reverse ++ ·)
  others : ∀ l, l ∉ labels s → after.labelpc l = st.labelpc l

/-- No label of `s` has been seen. -/
def Fresh (s : Stmt ε) (st : St ε) : Prop := (labels s).Nodup ∧ ∀ l ∈ labels s, st.labelpc l = none

section Generated

variable {declared : Label → Bool}

/-- What the induction says of a statement. -/
def Good (declared : Label → Bool) (s : Stmt ε) : Prop :=
  ∀ (st : St ε) (before : List (Item ε)), Emitted before st.code st.labelpc st.label → st.suppress = 0 →
    Accepted declared s (outer st) → Fresh s st → Yields s before st (gen declared s st)

theorem Fresh.left {s t : Stmt ε} {st : St ε} (fresh : (labels s ++ labels t).Nodup ∧ ∀ l ∈ labels s ++ labels t, st.labelpc l = none) :
    Fresh s st :=
  ⟨(List.nodup_append.mp fresh.1).1, fun l within => fresh.2 l (List.mem_append_left _ within)⟩

theorem Fresh.right {s t : Stmt ε} {st after : St ε}
    (fresh : (labels s ++ labels t).Nodup ∧ ∀ l ∈ labels s ++ labels t, st.labelpc l = none)
    (others : ∀ l, l ∉ labels s → after.labelpc l = st.labelpc l) : Fresh t after := by
  obtain ⟨_, distinct, disjoint⟩ := List.nodup_append.mp fresh.1
  refine ⟨distinct, fun l within => ?_⟩
  rw [others l fun both => disjoint l both l within rfl]
  exact fresh.2 l (List.mem_append_right _ within)

theorem folded_dead {t : Test ε} {s e : Stmt ε} {v : Bool} (fold : folded t s e = some v) :
    deadhead s false = true ∧ deadhead e false = true := by
  unfold folded at fold
  split at fold
  · split at fold
    · rename_i dead
      simpa using dead
    · cases fold
  · cases fold

theorem olist_good {s t : Stmt ε} (ihs : Good declared s) (iht : Good declared t) : Good declared (.OLIST s t) := by
  intro st before emitted kept placed fresh
  have frame := gen_frame s st placed.1
  have first := ihs st before emitted kept placed.1 (Fresh.left fresh)
  have second := iht _ _ first.emitted (frame.suppress.trans kept) (frame.kept.accepted placed.2) (Fresh.right fresh first.others)
  have flows : flowOf (gen declared s st) = flow s (flowOf st) := frame.flow
  have context : contextOf (gen declared s st) = contextOf st := by simp only [contextOf, frame.breakpc, frame.continpc]
  have length : (before ++ items s (contextOf st) (flowOf st) before.length).length = before.length + size s (flowOf st) := by simp
  refine ⟨?_, ?_, ?_⟩
  · have both := second.emitted
    rw [flows, context, length, List.append_assoc] at both
    exact both
  · rw [gen, second.cases, first.cases, flows, length, Option.map_map]
    simp [Function.comp_def, casesAt]
  · intro l absent
    rw [labels, List.mem_append, not_or] at absent
    exact (second.others l absent.2).trans (first.others l absent.1)

/-- The third branch of a loop is patched last. -/
theorem third_patched (before rest : List (Item ε)) (x y : Item ε) (target : Nat) :
    (before ++ x :: y :: .op (.jump 0) :: rest).modify (before.length + 2) (Item.aim target) =
      before ++ x :: y :: .op (.jump target) :: rest := by
  have patched := modify_middle (before ++ [x, y]) rest (Item.op (.jump 0)) (Item.aim target)
  simpa [Item.aim, Instr.aim] using patched

theorem genwhile_good {s : Stmt ε} (ih : Good declared s) (late : Bool) (t : Test ε) (st : St ε) (before : List (Item ε))
    (emitted : Emitted before st.code st.labelpc st.label) (kept : st.suppress = 0) (placed : Accepted declared (.OWHILE t s) (outer st))
    (fresh : Fresh s st) :
    let body := items s ⟨before.length + 2, before.length + 1⟩ ⟨st.canreach, t.exits⟩ (before.length + 3 + testSize t)
    let after := genwhile late t (gen declared s) st
    Emitted (before ++ whileItems late t before.length body) after.code after.labelpc after.label ∧
      after.cases = st.cases.map ((casesAt s ⟨st.canreach, t.exits⟩ (before.length + 3 + testSize t)).reverse ++ ·) ∧
      ∀ l, l ∉ labels s → after.labelpc l = st.labelpc l := by
  intro body
  have yields := ih
    { st with code := st.code ++ whileHead late t st.pc, continpc := some (st.pc + 1), breakpc := some (st.pc + 2), nbreak := t.exits }
    _ (emitted.emits (whileHead late t st.pc)) kept placed fresh
  have pc : st.pc = before.length := emitted.length
  have length : (before ++ (whileHead late t st.pc).map Item.op).length = before.length + 3 + testSize t := by
    simp [whileHead]
    omega
  rw [genwhile_eq]
  generalize gen declared s _ = after at yields ⊢
  have cases := yields.cases
  have laid := yields.emitted.emit (.jump (st.pc + 1))
  have far : after.pc + 1 = before.length + 3 + testSize t + body.length + 1 := by
    have long := yields.emitted.length
    rw [List.length_append, length] at long
    simp only [St.pc, long, body, items_length]
    rfl
  simp only [contextOf, flowOf, Option.getD_some] at laid cases
  rw [length, pc] at laid
  rw [length] at cases
  refine ⟨?_, cases, yields.others⟩
  have list : before ++ (whileHead late t before.length).map Item.op ++ body ++ [Item.op (.jump (before.length + 1))] =
      before ++ .op (.jump (if late then before.length + 3 + testSize t else before.length + 3)) :: .op (.jump (before.length + 3)) ::
        .op (.jump 0) :: ((testCode t (before.length + 3) (before.length + 2)).map .op ++ (body ++ [.op (.jump (before.length + 1))])) := by
    simp [whileHead]
  rw [list] at laid
  have patched := laid.patch (p := before.length + 2) (i := .jump 0) (by simp) (after.pc + 1)
  rw [third_patched] at patched
  simp only [St.patch, St.emit, pc, whileItems, ← far]
  simpa using patched

/-- The jump back to `target` behind a statement, if its end is reached. -/
theorem back_emitted {before : List (Item ε)} {after : St ε} (emitted : Emitted before after.code after.labelpc after.label)
    (target : Nat) :
    let last := if after.canreach then after.emit (.jump target) else after
    Emitted (before ++ if after.canreach then [.op (.jump target)] else []) last.code last.labelpc last.label := by
  cases after.canreach with
  | false => simpa using emitted
  | true => exact emitted.emit (.jump target)

theorem back_outer (after : St ε) (target : Nat) :
    (if after.canreach then after.emit (.jump target) else after).cases = after.cases ∧
      (if after.canreach then after.emit (.jump target) else after).labelpc = after.labelpc := by
  cases after.canreach <;> exact ⟨rfl, rfl⟩

/-- The code of a `for` without the first expressions, at `a`. -/
def forItems (t : Option (Test ε)) (inc : List ε) (a : Nat) (body back : List (Item ε)) : List (Item ε) :=
  let b := a + 3 + inc.length
  [.op (.jump b), .op (.jump (a + 3)), .op (.jump (b + optTestSize t + body.length + back.length))] ++
    (inc.map (fun e => .op (.eval e)) ++ ((optTestCode t b (a + 2)).map .op ++ (body ++ back)))

theorem items_for (init : List ε) (t : Option (Test ε)) (inc : List ε) (s : Stmt ε) (c : Context) (f : Flow) (a : Nat) :
    items (.OFOR init t inc s) c f a =
      let g : Flow := ⟨true, (t.map Test.exits).getD 0⟩
      let b := a + init.length
      init.map (fun e => .op (.eval e)) ++
        forItems t inc b (items s ⟨b + 2, b + 1⟩ g (b + 3 + inc.length + optTestSize t))
          (if (flow s g).canreach then [.op (.jump (b + 1))] else []) := by
  simp [items, forItems]

theorem genfor_good {s : Stmt ε} (ih : Good declared s) (t : Option (Test ε)) (inc : List ε) (st : St ε)
    (before : List (Item ε)) (emitted : Emitted before st.code st.labelpc st.label) (kept : st.suppress = 0)
    (placed : Accepted declared (.OFOR [] t inc s) (outer st)) (fresh : Fresh s st) :
    let g : Flow := ⟨true, (t.map Test.exits).getD 0⟩
    let b := before.length + 3 + inc.length + optTestSize t
    let after := genfor [] t inc (gen declared s) st
    Emitted (before ++ forItems t inc before.length (items s ⟨before.length + 2, before.length + 1⟩ g b)
        (if (flow s g).canreach then [.op (.jump (before.length + 1))] else [])) after.code after.labelpc after.label ∧
      after.cases = st.cases.map ((casesAt s g b).reverse ++ ·) ∧
      ∀ l, l ∉ labels s → after.labelpc l = st.labelpc l := by
  intro g b
  have yields := ih
    { st with
      code := st.code ++ forHead t inc st.pc, continpc := some (st.pc + 1), breakpc := some (st.pc + 2), canreach := true
      nbreak := (t.map Test.exits).getD 0 }
    _ (emitted.emits (forHead t inc st.pc)) kept placed fresh
  have frame := gen_frame s
    { st with
      code := st.code ++ forHead t inc st.pc, continpc := some (st.pc + 1), breakpc := some (st.pc + 2), canreach := true
      nbreak := (t.map Test.exits).getD 0 } placed
  have pc : st.pc = before.length := emitted.length
  have length : (before ++ (forHead t inc st.pc).map Item.op).length = b := by
    simp [forHead, b]
    omega
  rw [genfor_nil]
  generalize gen declared s _ = after at yields frame ⊢
  have reach : after.canreach = (flow s g).canreach := congrArg Flow.canreach frame.flow
  have cases := yields.cases
  have laid := back_emitted yields.emitted (st.pc + 1)
  obtain ⟨same_cases, same_labels⟩ := back_outer after (st.pc + 1)
  dsimp only at laid ⊢
  generalize (if after.canreach then after.emit (.jump (st.pc + 1)) else after) = last at laid same_cases same_labels ⊢
  simp only [contextOf, flowOf, Option.getD_some] at laid cases
  rw [length, pc, reach] at laid
  rw [length] at cases
  have list : before ++ (forHead t inc before.length).map Item.op ++ items s ⟨before.length + 2, before.length + 1⟩ g b ++
      (if (flow s g).canreach then [Item.op (.jump (before.length + 1))] else []) =
      before ++ .op (.jump (before.length + 3 + inc.length)) :: .op (.jump (before.length + 3)) :: .op (.jump 0) ::
        (inc.map (fun e => .op (.eval e)) ++ ((optTestCode t (before.length + 3 + inc.length) (before.length + 2)).map .op ++
          (items s ⟨before.length + 2, before.length + 1⟩ g b ++
            (if (flow s g).canreach then [Item.op (.jump (before.length + 1))] else [])))) := by
    simp [forHead]
  rw [list] at laid
  have far := laid.length
  have patched := laid.patch (p := before.length + 2) (i := .jump 0) (by simp) last.pc
  rw [third_patched] at patched
  refine ⟨?_, same_cases.trans cases, fun l absent => (congrFun same_labels l).trans (yields.others l absent)⟩
  have end_ : last.pc = before.length + 3 + inc.length + optTestSize t + (items s ⟨before.length + 2, before.length + 1⟩ g b).length +
      (if (flow s g).canreach then ([.op (.jump (before.length + 1))] : List (Item ε)) else []).length := by
    rw [St.pc, far]
    simp
    omega
  simp only [St.patch, pc, forItems, ← end_]
  simpa using patched

theorem ofor_good {s : Stmt ε} (ih : Good declared s) (init : List ε) (t : Option (Test ε)) (inc : List ε) :
    Good declared (.OFOR init t inc s) := by
  intro st before emitted kept placed fresh
  have start := emitted.emits (init.map .eval)
  obtain ⟨laid, cases, others⟩ := genfor_good ih t inc { st with code := st.code ++ init.map .eval } _ start kept placed fresh
  have length : (before ++ (init.map Instr.eval).map Item.op).length = before.length + init.length := by simp
  rw [length] at laid cases
  rw [← genfor_eq] at laid cases others
  refine ⟨?_, cases, others⟩
  rw [items_for]
  simpa [Function.comp_def, gen] using laid

theorem switch_patched (before rest : List (Item ε)) (x y : Nat) (i : Item ε) :
    ((before ++ .op (.jump 0) :: .op (.jump 0) :: rest).modify before.length (Item.aim x) ++ [i]).modify (before.length + 1) (Item.aim y) =
      before ++ .op (.jump x) :: .op (.jump y) :: (rest ++ [i]) := by
  have second := modify_middle (before ++ [Item.op (.jump x)]) (rest ++ [i]) (Item.op (.jump 0)) (Item.aim y)
  rw [modify_middle]
  simpa [Item.aim, Instr.aim] using second

theorem oswitch_good {s : Stmt ε} (ih : Good declared s) (e : ε) : Good declared (.OSWITCH e s) := by
  intro st before emitted kept placed fresh
  have yields := ih { st with code := st.code ++ [.jump 0, .jump 0], cases := some [], breakpc := some (st.pc + 1), nbreak := 0 }
    _ (emitted.emits [.jump 0, .jump 0]) kept placed.1 fresh
  have frame := gen_frame s { st with code := st.code ++ [.jump 0, .jump 0], cases := some [], breakpc := some (st.pc + 1), nbreak := 0 }
    placed.1
  have pc : st.pc = before.length := emitted.length
  have length : (before ++ [Instr.jump 0, Instr.jump 0].map Item.op).length = before.length + 2 := by simp
  have cases := yields.cases
  rw [length] at cases
  simp only [flowOf, Option.map_some, List.append_nil] at cases
  obtain ⟨ms, names, same⟩ := frame.cases
  rw [cases] at same
  simp only [Option.map_some, List.append_nil, Option.some.injEq] at same
  subst same
  have nodup : ((casesAt s ⟨st.canreach, 0⟩ (before.length + 2)).reverse.map Prod.fst).Nodup := by
    rw [names, List.nodup_reverse]
    exact placed.2
  have whole := genswitch_eq e st _ _ rfl frame.breakpc cases nodup
  have emitted' := yields.emitted
  have others := yields.others
  have reach := congrArg Flow.canreach frame.flow
  clear frame yields ih
  simp only [contextOf, flowOf, Option.getD_some, length] at emitted' reach
  generalize gen declared s _ = after at whole emitted' others reach cases
  have laid := back_emitted emitted' (st.pc + 1)
  obtain ⟨-, same_labels⟩ := back_outer after (st.pc + 1)
  dsimp only at laid whole
  generalize (if after.canreach then after.emit (.jump (st.pc + 1)) else after) = last at laid whole same_labels
  rw [reach, pc] at laid
  have far := laid.length
  have list : ∀ body back : List (Item ε), before ++ [Instr.jump 0, Instr.jump 0].map Item.op ++ body ++ back =
      before ++ .op (.jump 0) :: .op (.jump 0) :: (body ++ back) := by
    intro body back
    simp
  rw [list] at laid
  have first := (laid.patch (p := before.length) (i := .jump 0) (by simp) last.pc).emit
    (switchCode e (casesAt s ⟨st.canreach, 0⟩ (before.length + 2)).reverse (before.length + 1))
  have patched := first.patch (p := before.length + 1) (i := .jump 0) (by rw [modify_middle]; simp) (last.pc + 1)
  rw [switch_patched] at patched
  refine ⟨?_, ?_, ?_⟩
  · rw [gen, whole, pc]
    have end_ : last.pc = before.length + 2 + size s ⟨st.canreach, 0⟩ +
        (if (flow s ⟨st.canreach, 0⟩).canreach then ([.op (.jump (before.length + 1))] : List (Item ε)) else []).length := by
      rw [St.pc, far]
      simp
      omega
    unfold flowOf contextOf
    simp only [items, ← end_]
    simpa [St.patch, St.emit] using patched
  · rw [gen, whole]
    simp [casesAt]
  · intro l absent
    rw [gen, whole]
    exact (congrFun same_labels l).trans (others l absent)

theorem modify_there {α : Type} {l r : List α} {n : Nat} (place : n = l.length) {x : α} {f : α → α} :
    (l ++ x :: r).modify n f = l ++ f x :: r := by
  rw [place, modify_middle]

theorem testItems_modify (t : Test ε) (before rest : List (Item ε)) (pc no m p : Nat) (place : p + 1 = before.length + testSize t) :
    (∃ i, (before ++ ((testCode t pc m).map Item.op ++ rest))[p]? = some (.op i)) ∧
    (before ++ ((testCode t pc m).map Item.op ++ rest)).modify p (Item.aim no) = before ++ ((testCode t pc no).map Item.op ++ rest) := by
  obtain ⟨l, x, split, length, aimed⟩ := testCode_split t pc
  have here : p = (before ++ l.map Item.op).length := by simp; omega
  rw [split, split, here]
  constructor
  · exact ⟨x m, by simp⟩
  · have patched := modify_middle (before ++ l.map Item.op) rest (Item.op (x m)) (Item.aim no)
    simpa [Item.aim, aimed] using patched

theorem casesAt_fst (s : Stmt ε) (f : Flow) (a : Nat) : (casesAt s f a).map Prod.fst = casesOf s := by
  induction s generalizing f a with
  | OLIST s t ihs iht => simp [casesAt, casesOf, ihs, iht]
  | OIF t s e ihs ihe =>
    simp only [casesAt, casesOf]
    cases fold : folded t s e with
    | none => simp [ihs, ihe]
    | some v =>
      obtain ⟨left, right⟩ := folded_dead fold
      simp [deadhead_cases s left, deadhead_cases e right]
  | OWHILE t s ih | ODWHILE t s ih | OFOR _ _ _ s ih => exact ih _ _
  | _ => rfl

theorem casesAt_dead {s : Stmt ε} (dead : deadhead s false = true) (f : Flow) (a : Nat) : casesAt s f a = [] := by
  have names := casesAt_fst s f a
  rwa [deadhead_cases s dead, List.map_eq_nil_iff] at names

theorem oif_false {s e : Stmt ε} (ihe : Good declared e) {t : Test ε} (fold : folded t s e = some false) (st : St ε)
    (before : List (Item ε)) (emitted : Emitted before st.code st.labelpc st.label) (kept : st.suppress = 0)
    (placed : Accepted declared (.OIF t s e) (outer st)) (fresh : Fresh (.OIF t s e) st) :
    Yields (.OIF t s e) before st (gen declared (.OIF t s e) st) := by
  obtain ⟨dead, dead'⟩ := folded_dead fold
  have yields := ihe { st with canreach := true, nbreak := (flow s ⟨true, st.nbreak⟩).nbreak } before emitted kept placed.2
    (Fresh.right fresh fun _ _ => rfl)
  rw [gen, genif_false _ _ st fold, supgen_eq s { st with canreach := true } placed.1 dead]
  refine ⟨?_, ?_, ?_⟩
  · unfold flowOf contextOf
    simp only [items, fold]
    exact yields.emitted
  · rw [yields.cases, casesAt_dead dead']
    simp [casesAt, fold]
  · intro l absent
    rw [labels, List.mem_append, not_or] at absent
    exact yields.others l absent.2

theorem oif_true {s e : Stmt ε} (ihs : Good declared s) {t : Test ε} (fold : folded t s e = some true) (st : St ε)
    (before : List (Item ε)) (emitted : Emitted before st.code st.labelpc st.label) (kept : st.suppress = 0)
    (placed : Accepted declared (.OIF t s e) (outer st)) (fresh : Fresh (.OIF t s e) st) :
    Yields (.OIF t s e) before st (gen declared (.OIF t s e) st) := by
  obtain ⟨dead, dead'⟩ := folded_dead fold
  have yields := ihs { st with canreach := true } before emitted kept placed.1 (Fresh.left fresh)
  have frame := gen_frame s { st with canreach := true } placed.1
  rw [gen, genif_true _ _ st fold]
  dsimp only
  rw [supgen_eq e { gen declared s { st with canreach := true } with canreach := true } (frame.kept.accepted placed.2) dead']
  refine ⟨?_, ?_, ?_⟩
  · unfold flowOf contextOf
    simp only [items, fold]
    exact yields.emitted
  · rw [yields.cases, casesAt_dead dead]
    simp [casesAt, fold]
  · intro l absent
    rw [labels, List.mem_append, not_or] at absent
    exact yields.others l absent.1

theorem oif_none {s e : Stmt ε} (ihs : Good declared s) (ihe : Good declared e) {t : Test ε} (fold : folded t s e = none) (st : St ε)
    (before : List (Item ε)) (emitted : Emitted before st.code st.labelpc st.label) (kept : st.suppress = 0)
    (placed : Accepted declared (.OIF t s e) (outer st)) (fresh : Fresh (.OIF t s e) st) :
    Yields (.OIF t s e) before st (gen declared (.OIF t s e) st) := by
  have pc : st.pc = before.length := emitted.length
  have yields := ihs { st with code := st.code ++ testCode t st.pc 0, canreach := true } _ (emitted.emits (testCode t st.pc 0)) kept
    placed.1 (Fresh.left fresh)
  have frame := gen_frame s { st with code := st.code ++ testCode t st.pc 0, canreach := true } placed.1
  have length : (before ++ (testCode t st.pc 0).map Item.op).length = before.length + testSize t := by simp
  rw [gen, genif_none _ _ st fold]
  have laid := yields.emitted
  have cases := yields.cases
  have others := yields.others
  rw [length] at laid cases
  simp only [contextOf, flowOf, List.append_assoc, pc] at laid cases
  rw [pc] at frame others
  simp only [pc]
  generalize gen declared s _ = after at frame laid cases others ⊢
  have place : before.length + testSize t - 1 + 1 = before.length + testSize t := by have := testSize_pos t; omega
  have far : after.pc = before.length + testSize t + size s ⟨true, st.nbreak⟩ := by
    rw [St.pc, laid.length]
    simp
    omega
  split
  · rename_i z
    obtain ⟨⟨i, here⟩, list⟩ := testItems_modify t before
      (items s ⟨st.breakpc.getD 0, st.continpc.getD 0⟩ ⟨true, st.nbreak⟩ (before.length + testSize t)) before.length after.pc 0 _ place
    have patched := laid.patch here after.pc
    rw [list] at patched
    have none_ := isZ_eq z
    subst none_
    refine ⟨?_, ?_, ?_⟩
    · unfold flowOf contextOf
      simp only [items, fold, z, if_true, ← far]
      exact patched
    · rw [flowOf]
      simpa [casesAt, fold, St.patch] using cases
    · intro l absent
      rw [labels, List.mem_append, not_or] at absent
      exact others l absent.1
  · rename_i some_
    obtain ⟨⟨i, here⟩, list⟩ := testItems_modify t before
      (items s ⟨st.breakpc.getD 0, st.continpc.getD 0⟩ ⟨true, st.nbreak⟩ (before.length + testSize t) ++ [.op (.jump 0)])
      before.length (after.pc + 1) 0 _ place
    have more := laid.emit (.jump 0)
    rw [List.append_assoc, List.append_assoc] at more
    have patched := more.patch here (after.pc + 1)
    rw [list] at patched
    have flows := congrArg Flow.nbreak frame.flow
    have yields' := ihe ({ after with canreach := true }.gbranch.patch (before.length + testSize t - 1) (after.pc + 1)) _ patched
      (frame.suppress.trans kept) (frame.kept.accepted placed.2) (Fresh.right fresh others)
    have context : contextOf ({ after with canreach := true }.gbranch.patch (before.length + testSize t - 1) (after.pc + 1)) =
        contextOf st := by
      simp only [contextOf, St.patch, St.gbranch, St.emit, frame.breakpc, frame.continpc]
    have flows' : flowOf ({ after with canreach := true }.gbranch.patch (before.length + testSize t - 1) (after.pc + 1)) =
        ⟨true, (flow s ⟨true, st.nbreak⟩).nbreak⟩ := by
      simp only [flowOf, St.patch, St.gbranch, St.emit]
      rw [← flows]
    have length' : (before ++ ((testCode t before.length (after.pc + 1)).map Item.op ++
        (items s ⟨st.breakpc.getD 0, st.continpc.getD 0⟩ ⟨true, st.nbreak⟩ (before.length + testSize t) ++ [Item.op (.jump 0)]))).length =
        after.pc + 1 := by
      rw [far]
      simp
      omega
    have emitted' := yields'.emitted
    have cases' := yields'.cases
    have others' := yields'.others
    rw [context, flows', length'] at emitted'
    rw [flows', length'] at cases'
    generalize gen declared e _ = last at emitted' cases' others' ⊢
    have middle : after.pc = (before ++ ((testCode t before.length (after.pc + 1)).map Item.op ++
        items s ⟨st.breakpc.getD 0, st.continpc.getD 0⟩ ⟨true, st.nbreak⟩ (before.length + testSize t))).length := by
      simp only [List.length_append, List.length_map, testCode_length, items_length]
      omega
    have end_ : last.pc = after.pc + 1 + size e ⟨true, (flow s ⟨true, st.nbreak⟩).nbreak⟩ := by
      rw [St.pc, emitted'.length, List.length_append, length', items_length]
    have list' : ∀ rest : List (Item ε), before ++ ((testCode t before.length (after.pc + 1)).map Item.op ++
        (items s ⟨st.breakpc.getD 0, st.continpc.getD 0⟩ ⟨true, st.nbreak⟩ (before.length + testSize t) ++ [Item.op (.jump 0)])) ++ rest =
        before ++ ((testCode t before.length (after.pc + 1)).map Item.op ++
          items s ⟨st.breakpc.getD 0, st.continpc.getD 0⟩ ⟨true, st.nbreak⟩ (before.length + testSize t)) ++ Item.op (.jump 0) :: rest := by
      intro rest
      simp
    rw [list'] at emitted'
    have patched' := emitted'.patch (p := after.pc) (i := .jump 0) (by rw [middle]; simp) last.pc
    rw [modify_there middle] at patched'
    refine ⟨?_, ?_, ?_⟩
    · unfold flowOf contextOf
      simp only [items, fold, some_, ← far, ← end_]
      simpa [Item.aim, Instr.aim, St.patch, contextOf] using patched'
    · simp only [St.patch, cases', cases, Option.map_map, St.gbranch, St.emit, flowOf, casesAt, fold, far]
      simp [Function.comp_def]
    · intro l absent
      rw [labels, List.mem_append, not_or] at absent
      exact (others' l absent.2).trans (others l absent.1)

theorem oif_good {s e : Stmt ε} (ihs : Good declared s) (ihe : Good declared e) (t : Test ε) : Good declared (.OIF t s e) := by
  cases fold : folded t s e with
  | none => exact oif_none ihs ihe fold
  | some v =>
    cases v with
    | false => exact oif_false ihe fold
    | true => exact oif_true ihs fold

theorem gen_good (s : Stmt ε) : Good declared s := by
  induction s with
  | exprs es =>
    intro st before emitted _ _ _
    rw [gen, evals_eq]
    have laid := emitted.emits (es.map .eval)
    exact ⟨by simpa [items, Function.comp_def] using laid, by simp [casesAt], fun _ _ => rfl⟩
  | OLIST s t ihs iht => exact olist_good ihs iht
  | OIF t s e ihs ihe => exact oif_good ihs ihe t
  | OWHILE t s ih =>
    intro st before emitted kept placed fresh
    obtain ⟨laid, cases, others⟩ := genwhile_good ih false t st before emitted kept placed fresh
    exact ⟨laid, cases, others⟩
  | ODWHILE t s ih =>
    intro st before emitted kept placed fresh
    obtain ⟨laid, cases, others⟩ := genwhile_good ih true t st before emitted kept placed fresh
    exact ⟨laid, cases, others⟩
  | OFOR init t inc s ih => exact ofor_good ih init t inc
  | OSWITCH e s ih => exact oswitch_good ih e
  | OCASE c =>
    intro st before emitted _ placed _
    obtain ⟨cases, here⟩ := Option.isSome_iff_exists.mp placed
    have here' : st.cases = some cases := here
    have pc : st.pc = before.length := emitted.length
    rw [gen, casf]
    simp only [here']
    refine ⟨by simpa [items] using emitted, ?_, fun _ _ => rfl⟩
    simp [here', casesAt, ← pc, St.pc]
  | OLABEL l =>
    intro st before emitted _ _ fresh
    have pc : st.pc = before.length := emitted.length
    rw [gen, genlabel_eq, pc]
    refine ⟨emitted.label_ l (fresh.2 l (List.mem_singleton_self l)), by simp [casesAt], fun m absent => ?_⟩
    exact Function.update_of_ne (fun same : m = l => absent (by rw [same]; exact List.mem_singleton_self l)) _ _
  | OGOTO l =>
    intro st before emitted kept known _
    have pc : st.pc = before.length := emitted.length
    rw [gen, gengoto_eq declared l st known kept, pc]
    cases place : st.labelpc l with
    | none => exact ⟨emitted.goto_on l place, by simp [casesAt], fun _ _ => rfl⟩
    | some target => exact ⟨emitted.goto_back l place, by simp [casesAt], fun _ _ => rfl⟩
  | OBREAK =>
    intro st before emitted _ placed _
    obtain ⟨target, here⟩ := Option.isSome_iff_exists.mp placed
    have here' : st.breakpc = some target := here
    simp only [gen, here']
    cases reach : st.canreach with
    | false => exact ⟨by simpa [items, flowOf, reach] using emitted, by simp [casesAt], fun _ _ => rfl⟩
    | true =>
      have laid := emitted.emit (.jump target)
      exact ⟨by simpa [items, flowOf, contextOf, reach, here', St.emit] using laid, by simp [casesAt, St.emit], fun _ _ => rfl⟩
  | OCONTINUE =>
    intro st before emitted _ placed _
    obtain ⟨target, here⟩ := Option.isSome_iff_exists.mp placed
    have here' : st.continpc = some target := here
    simp only [gen, here']
    have laid := emitted.emit (.jump target)
    exact ⟨by simpa [items, contextOf, here', St.emit] using laid, by simp [casesAt, St.emit], fun _ _ => rfl⟩
  | ORETURN e =>
    intro st before emitted _ _ _
    cases e with
    | none => exact ⟨emitted.emit .ret, by simp [casesAt, gen, St.emit], fun _ _ => rfl⟩
    | some e =>
      have laid := (emitted.emit (.eval e)).emit .ret
      exact ⟨by simpa [items, gen, St.emit] using laid, by simp [casesAt, gen, St.emit], fun _ _ => rfl⟩

end Generated

/-! Whole functions. -/

theorem mem_items (s : Stmt ε) (c : Context) (f : Flow) (a : Nat) {l : Label} (within : l ∈ labels s) : Item.label l ∈ items s c f a := by
  induction s generalizing c f a with
  | OLIST s t ihs iht =>
    rcases List.mem_append.mp within with left | right
    · exact List.mem_append_left _ (ihs _ _ _ left)
    · exact List.mem_append_right _ (iht _ _ _ right)
  | OIF t s e ihs ihe =>
    simp only [items]
    cases fold : folded t s e with
    | some v =>
      obtain ⟨dead, dead'⟩ := folded_dead fold
      rw [labels, deadhead_labels s false dead, deadhead_labels e false dead'] at within
      cases within
    | none =>
      rcases List.mem_append.mp within with left | right
      · cases isZ e <;> simp [ihs _ _ _ left]
      · cases z : isZ e with
        | true =>
          rw [isZ_eq z] at right
          cases right
        | false => simp [ihe _ _ _ right]
  | OWHILE t s ih | ODWHILE t s ih => simp [items, whileItems, ih _ _ _ within]
  | OFOR init t inc s ih => simp [items_for, forItems, ih _ _ _ within]
  | OSWITCH e s ih => simp [items, ih _ _ _ within]
  | OLABEL m =>
    rw [List.mem_singleton.mp within]
    exact List.mem_singleton_self _
  | _ => cases within

def codeOf (F : Function_ ε) : List (Item ε) := items F.body ⟨0, 0⟩ ⟨true, 0⟩ 0 ++ [.op .ret]

/-- What is known of the code of a function. -/
structure Image (F : Function_ ε) (code : List (Instr ε)) : Prop where
  op : ∀ {p : Nat} {i : Instr ε}, (codeOf F)[p]? = some (.op i) → code[p]? = some i
  label : ∀ {p : Nat} {l : Label}, (codeOf F)[p]? = some (.label l) → code[p]? = some (.jump (p + 1))
  unique : ∀ {p q : Nat} {l : Label}, (codeOf F)[p]? = some (.label l) → (codeOf F)[q]? = some (.label l) → p = q
  goto : ∀ {p : Nat} {l : Label}, (codeOf F)[p]? = some (.goto l) → F.declared l = true →
    ∃ q : Nat, (codeOf F)[q]? = some (.label l) ∧ Onward (fetch code) p q

theorem moves_jump {code : List (Instr ε)} {p q : Nat} (here : code[p]? = some (.jump q)) : Moves (fetch code) p q := by
  rw [Moves, fetch, here]

theorem Chain.silently {items : List (Item ε)} {code : List (Instr ε)} {l : Label} {p q : Nat} (chain : Chain items code l p q) :
    Silently (fetch code) p q := by
  induction chain with
  | refl => exact .refl
  | tail _ link ih => exact ih.tail (moves_jump link.2.1)

theorem codgen_image (F : Function_ ε) : Image F F.codgen.code := by
  have start : Emitted ([] : List (Item ε)) [] (fun _ => none) (fun _ => none) :=
    ⟨rfl, by simp, by simp, by simp, by simp⟩
  have good : Good F.declared F.body := gen_good F.body
  have yields := good ⟨[], true, none, none, 0, 0, fun _ => none, fun _ => none, none, []⟩ [] start rfl
    F.placed ⟨F.labels_nodup, fun _ _ => rfl⟩
  have emitted : Emitted (codeOf F) F.codgen.code _ _ := yields.emitted.emit .ret
  refine ⟨?_, ?_, ?_, ?_⟩
  · intro p i here
    obtain ⟨x, there, rfl⟩ := emitted.fits p _ here
    exact there
  · intro p l here
    obtain ⟨x, there, rfl⟩ := emitted.fits p _ here
    exact there
  · intro p q l first second
    rw [emitted.labelled] at first second
    rw [first] at second
    exact Option.some.inj second
  · intro p l here known
    have within : l ∈ labels F.body := by simpa [Function_.declared] using known
    obtain ⟨q, label⟩ := List.mem_iff_getElem?.mp (List.mem_append_left [Item.op .ret] (mem_items F.body ⟨0, 0⟩ ⟨true, 0⟩ 0 within))
    refine ⟨q, label, ?_⟩
    have onto := emitted.onto l p here
    rw [(emitted.labelled l q).mp label] at onto
    obtain ⟨m, chain, _, last⟩ := onto
    exact Relation.TransGen.tail' chain.silently (moves_jump last)

end Goken.Proofs.GenChain
