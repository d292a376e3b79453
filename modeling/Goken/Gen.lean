import Goken.Lib.Simulation
import Mathlib.Logic.Function.Basic

/-! Statements: what they mean, and the code that `gen` emits for them
(cc2/pgen.c, with `deadhead` from libcc/sub.c). Expressions are opaque: all that
is observed is in which order they are evaluated, and a run is given their
values. `warnreach` and `ncontin` are left out, they decide only on warnings. -/

namespace Goken.Gen
open Lib.Simulation

abbrev Label := Nat

/-- A tested expression; `const` is one that `complex` has folded. -/
inductive Test (ε : Type) where
  | const (v : Bool)
  | expr (e : ε)
  deriving DecidableEq, Repr

/-- A statement. `exprs` is a list of expression statements, or `Z`. -/
inductive Stmt (ε : Type) where
  | exprs (es : List ε)
  | OLIST (s t : Stmt ε)
  | OIF (t : Test ε) (s e : Stmt ε)
  | OWHILE (t : Test ε) (s : Stmt ε)
  | ODWHILE (t : Test ε) (s : Stmt ε)
  | OFOR (init : List ε) (t : Option (Test ε)) (inc : List ε) (s : Stmt ε)
  | OSWITCH (e : ε) (s : Stmt ε)
  | OCASE (c : Option Int)
  | OLABEL (l : Label)
  | OGOTO (l : Label)
  | OBREAK
  | OCONTINUE
  | ORETURN (e : Option ε)
  deriving DecidableEq, Repr

variable {ε : Type}

/-! The source semantics, with continuations. -/

/-- What is still to do. `loop` comes behind the body of a `while`, `inc` behind
that of a `for`, and `cond` is before the test of a `for`. -/
inductive Cont (ε : Type) where
  | stop
  | seq (s : Stmt ε) (k : Cont ε)
  | loop (t : Test ε) (s : Stmt ε) (k : Cont ε)
  | inc (t : Option (Test ε)) (es : List ε) (s : Stmt ε) (k : Cont ε)
  | cond (t : Option (Test ε)) (es : List ε) (s : Stmt ε) (k : Cont ε)
  | switch (k : Cont ε)

inductive State (ε : Type) where
  | run (s : Stmt ε) (k : Cont ε)
  | done

/-- What a jump looks for: a label, or a case (`none` is `default`). -/
inductive Mark where
  | label (l : Label)
  | case (c : Option Int)
  deriving DecidableEq

/-- Where execution goes on at a mark. Cases belong to the innermost switch. -/
def find (m : Mark) : Stmt ε → Cont ε → Option (State ε)
  | .OLIST s t, k => (find m s (.seq t k)).or (find m t k)
  | .OIF _ s e, k => (find m s k).or (find m e k)
  | .OWHILE t s, k => find m s (.loop t s k)
  | .ODWHILE t s, k => find m s (.loop t s k)
  | .OFOR _ t es s, k => find m s (.inc t es s k)
  | .OSWITCH _ s, k =>
    match m with
    | .label _ => find m s (.switch k)
    | .case _ => none
  | .OCASE c, k => if m = .case c then some (.run (.exprs []) k) else none
  | .OLABEL l, k => if m = .label l then some (.run (.exprs []) k) else none
  | _, _ => none

def Cont.break_ : Cont ε → Option (Cont ε)
  | .stop => none
  | .seq _ k => k.break_
  | .loop _ _ k | .inc _ _ _ k | .cond _ _ _ k | .switch k => some k

def Cont.continue_ : Cont ε → Option (Cont ε)
  | .stop => none
  | .seq _ k | .switch k => k.continue_
  | .cond t es s k => some (.inc t es s k)
  | k => some k

def decides (t : Test ε) (yes no : State ε) : Step (State ε) ε Int :=
  match t with
  | .const v => .silent (if v then yes else no)
  | .expr e => .event e fun v => if v ≠ 0 then yes else no

/-- One step of the function with the body `body`. A jump that has no target
makes no progress. -/
def step (body : Stmt ε) : State ε → Step (State ε) ε Int
  | .done => .halt
  | .run (.exprs (e :: es)) k => .event e fun _ => .run (.exprs es) k
  | .run (.exprs []) .stop => .halt
  | .run (.exprs []) (.seq s k) => .silent (.run s k)
  | .run (.exprs []) (.loop t s k) => decides t (.run s (.loop t s k)) (.run (.exprs []) k)
  | .run (.exprs []) (.inc t es s k) => .silent (.run (.exprs es) (.cond t es s k))
  | .run (.exprs []) (.cond none es s k) => .silent (.run s (.inc none es s k))
  | .run (.exprs []) (.cond (some t) es s k) => decides t (.run s (.inc (some t) es s k)) (.run (.exprs []) k)
  | .run (.exprs []) (.switch k) => .silent (.run (.exprs []) k)
  | .run (.OLIST s t) k => .silent (.run s (.seq t k))
  | .run (.OIF t s e) k => decides t (.run s k) (.run e k)
  | .run (.OWHILE t s) k => .silent (.run (.exprs []) (.loop t s k))
  | .run (.ODWHILE t s) k => .silent (.run s (.loop t s k))
  | .run (.OFOR init t inc s) k => .silent (.run (.exprs init) (.cond t inc s k))
  | .run (.OSWITCH e s) k => .event e fun v =>
      ((find (.case (some v)) s (.switch k)).or (find (.case none) s (.switch k))).getD (.run (.exprs []) k)
  | .run (.OCASE _) k => .silent (.run (.exprs []) k)
  | .run (.OLABEL _) k => .silent (.run (.exprs []) k)
  | .run (.OGOTO l) k => .silent ((find (.label l) body .stop).getD (.run (.OGOTO l) k))
  | .run .OBREAK k => .silent ((k.break_.map (.run (.exprs []))).getD (.run .OBREAK k))
  | .run .OCONTINUE k => .silent ((k.continue_.map (.run (.exprs []))).getD (.run .OCONTINUE k))
  | .run (.ORETURN none) _ => .halt
  | .run (.ORETURN (some e)) _ => .event e fun _ => .done

/-! The emitted code. -/

/-- `swit` stands for what `doswit` emits: a multiway branch. -/
inductive Instr (ε : Type) where
  | eval (e : ε)
  | test (e : ε) (target : Nat)
  | jump (target : Nat)
  | ret
  | swit (e : ε) (cases : List (Int × Nat)) (dflt : Nat)
  deriving DecidableEq, Repr

def fetch (code : List (Instr ε)) (pc : Nat) : Step Nat ε Int :=
  match code[pc]? with
  | some (.eval e) => .event e fun _ => pc + 1
  | some (.test e target) => .event e fun v => if v ≠ 0 then pc + 1 else target
  | some (.jump target) => .silent target
  | some .ret => .halt
  | some (.swit e cases dflt) => .event e fun v => (cases.lookup v).getD dflt
  | none => .silent pc

inductive Diag where
  | undefinedLabel (l : Label)
  | continueOutside
  | breakOutside
  | caseOutside
  | moreThanOneDefault
  | duplicateCases
  deriving DecidableEq, Repr

/-- The globals of `gen`. A label's node has its `pc` and, in `label`, the last
goto that waits for it; `cases` is `none` for `C`. -/
structure St (ε : Type) where
  code : List (Instr ε)
  canreach : Bool
  continpc : Option Nat
  breakpc : Option Nat
  nbreak : Nat
  suppress : Nat
  labelpc : Label → Option Nat
  label : Label → Option Nat
  cases : Option (List (Option Int × Nat))
  diags : List Diag

namespace St

def pc (st : St ε) : Nat := st.code.length

def emit (i : Instr ε) (st : St ε) : St ε := { st with code := st.code ++ [i] }

def diag (d : Diag) (st : St ε) : St ε := { st with diags := d :: st.diags }

/-- `gbranch(OGOTO)`, still without a target. -/
def gbranch (st : St ε) : St ε := st.emit (.jump 0)

end St

def Instr.aim (target : Nat) : Instr ε → Instr ε
  | .test e _ => .test e target
  | .jump _ => .jump target
  | i => i

/-- `patch` for the instruction at `p`. -/
def St.patch (p target : Nat) (st : St ε) : St ε := { st with code := st.code.modify p (Instr.aim target) }

/-- Whether it is impossible to jump into the middle of a statement. -/
def deadhead : Stmt ε → Bool → Bool
  | .OCASE _, caseok => caseok
  | .OLABEL _, _ => false
  | .OLIST s t, caseok => deadhead s caseok && deadhead t caseok
  | .OWHILE _ s, caseok => deadhead s caseok
  | .ODWHILE _ s, caseok => deadhead s caseok
  | .OFOR _ _ _ s, caseok => deadhead s caseok
  | .OIF _ s e, caseok => deadhead s caseok && deadhead e caseok
  | .OSWITCH _ s, _ => deadhead s true
  | _, _ => true

/-- `boolgen(n, true, Z)`: the last instruction is the branch to take if false. -/
def boolgen (t : Test ε) (st : St ε) : St ε :=
  match t with
  | .expr e => st.emit (.test e 0)
  | .const false => st.gbranch
  | .const true =>
    let p1 := st.pc
    let st := st.gbranch.gbranch
    st.patch p1 st.pc

/-- The condition under which `bcomplex` emits nothing and returns true. -/
def folded (t : Test ε) (s e : Stmt ε) : Option Bool :=
  match t with
  | .const v => if deadhead s false && deadhead e false then some v else none
  | .expr _ => none

/-- Whether a test can end a loop: `l->op != OCONST || vconst(l) == 0`. -/
def Test.ends (t : Test ε) : Bool :=
  match t with
  | .const v => !v
  | .expr _ => true

def casf (c : Option Int) (st : St ε) : St ε :=
  match st.cases with
  | none => { st.diag .caseOutside with cases := some [] }
  | some cases => { st with cases := some ((c, st.pc) :: cases) }

/-- `cgen` of the switch expression and `doswit`. -/
def doswit (e : ε) (st : St ε) : St ε :=
  let cases := st.cases.getD []
  let dflts := cases.filter fun c => c.1.isNone
  let values := cases.filterMap fun c => c.1.map fun v => (v, c.2)
  let st := if dflts.length > 1 then st.diag .moreThanOneDefault else st
  if ¬ (values.map Prod.fst).Nodup then st.diag .duplicateCases
  else
    match dflts.getLast? with
    | some dflt => st.emit (.swit e values dflt.2)
    | none => { st with nbreak := st.nbreak + 1 }.emit (.swit e values (st.breakpc.getD 0))

def isZ : Stmt ε → Bool
  | .exprs [] => true
  | _ => false

def evals (es : List ε) (st : St ε) : St ε := es.foldl (fun st e => st.emit (.eval e)) st

/-- `supgen`: what `gen` appends is taken back. -/
def supgen (s : Stmt ε) (gen : St ε → St ε) (st : St ε) : St ε :=
  if isZ s then st
  else
    let after := gen { st with suppress := st.suppress + 1 }
    { after with code := after.code.take st.pc, suppress := after.suppress - 1 }

/-! The cases of `gen` for compound statements; `gen s` is the recursive call. -/

def genif (t : Test ε) (s e : Stmt ε) (gens gene : St ε → St ε) (st : St ε) : St ε :=
  match folded t s e with
  | some false =>
    let st := supgen s gens { st with canreach := true }
    gene { st with canreach := true }
  | some true =>
    let st := gens { st with canreach := true }
    let oldreach := st.canreach
    let st := supgen e gene { st with canreach := true }
    { st with canreach := oldreach }
  | none =>
    let st := boolgen t st
    let sp := st.pc - 1
    let st := gens { st with canreach := true }
    let oldreach := st.canreach
    let st := { st with canreach := true }
    let st :=
      if isZ e then st.patch sp st.pc
      else
        let sp' := st.pc
        let st := st.gbranch
        let st := gene (st.patch sp st.pc)
        st.patch sp' st.pc
    { st with canreach := st.canreach || oldreach }

/-- A test that leaves a loop, and the count of the ways out. -/
def gentest (t : Test ε) (breakpc : Nat) (st : St ε) : St ε :=
  let st := boolgen t st
  let st := st.patch (st.pc - 1) breakpc
  if t.ends then { st with nbreak := st.nbreak + 1 } else st

/-- `OWHILE`, or `ODWHILE` if `late`. -/
def genwhile (late : Bool) (t : Test ε) (gens : St ε → St ε) (st : St ε) : St ε :=
  let sp := st.pc
  let st := st.gbranch
  let scc := st.continpc
  let spc := st.pc
  let st := { st with continpc := some st.pc }.gbranch
  let sbc := st.breakpc
  let snbreak := st.nbreak
  let spb := st.pc
  let st := { st with breakpc := some st.pc, nbreak := 0 }.gbranch
  let st := st.patch spc st.pc
  let st := if late then st else st.patch sp st.pc
  let st := gentest t spb st
  let st := if late then st.patch sp st.pc else st
  let st := gens st
  let st := st.emit (.jump spc)
  let st := st.patch spb st.pc
  { st with continpc := scc, breakpc := sbc, canreach := st.nbreak ≠ 0, nbreak := snbreak }

def genfor (init : List ε) (t : Option (Test ε)) (inc : List ε) (gens : St ε → St ε) (st : St ε) : St ε :=
  let st := evals init st
  let sp := st.pc
  let st := st.gbranch
  let scc := st.continpc
  let spc := st.pc
  let st := { st with continpc := some st.pc }.gbranch
  let sbc := st.breakpc
  let snbreak := st.nbreak
  let spb := st.pc
  let st := { st with breakpc := some st.pc, nbreak := 0 }.gbranch
  let st := st.patch spc st.pc
  let st := evals inc st
  let st := st.patch sp st.pc
  let st := match t with
    | none => st
    | some t => gentest t spb st
  let st := gens { st with canreach := true }
  let st := if st.canreach then st.emit (.jump spc) else st
  let st := st.patch spb st.pc
  { st with continpc := scc, breakpc := sbc, canreach := st.nbreak ≠ 0, nbreak := snbreak }

def genswitch (e : ε) (gens : St ε → St ε) (st : St ε) : St ε :=
  let sp := st.pc
  let st := st.gbranch
  let cn := st.cases
  let sbc := st.breakpc
  let snbreak := st.nbreak
  let spb := st.pc
  let st := { st with cases := some [], breakpc := some st.pc, nbreak := 0 }.gbranch
  let st := gens st
  let st := if st.canreach then { st.emit (.jump spb) with nbreak := st.nbreak + 1 } else st
  let st := st.patch sp st.pc
  let st := doswit e st
  let st := st.patch spb st.pc
  { st with cases := cn, breakpc := sbc, canreach := st.nbreak ≠ 0, nbreak := snbreak }

def genlabel (l : Label) (st : St ε) : St ε :=
  let st := { st with canreach := true, labelpc := Function.update st.labelpc l (some st.pc) }
  let st := match st.label l with
    | some p => st.patch p st.pc
    | none => st
  st.emit (.jump (st.pc + 1))

/-- A goto backward is a branch; the gotos forward to a label are chained, each to
the next one. `declared` says which labels the parser has seen. -/
def gengoto (declared : Label → Bool) (l : Label) (st : St ε) : St ε :=
  let st := { st with canreach := false }
  if ¬ declared l then st.diag (.undefinedLabel l)
  else if st.suppress ≠ 0 then st
  else
    match st.labelpc l with
    | some target => st.emit (.jump target)
    | none =>
      let p := st.pc
      let st := st.gbranch
      let st := match st.label l with
        | some q => st.patch q (st.pc - 1)
        | none => st
      { st with label := Function.update st.label l (some p) }

def gen (declared : Label → Bool) : Stmt ε → St ε → St ε
  | .exprs es, st => evals es st
  | .OLIST s t, st => gen declared t (gen declared s st)
  | .OIF t s e, st => genif t s e (gen declared s) (gen declared e) st
  | .OWHILE t s, st => genwhile false t (gen declared s) st
  | .ODWHILE t s, st => genwhile true t (gen declared s) st
  | .OFOR init t inc s, st => genfor init t inc (gen declared s) st
  | .OSWITCH e s, st => genswitch e (gen declared s) st
  | .OCASE c, st => casf c { st with canreach := true }
  | .OLABEL l, st => genlabel l st
  | .OGOTO l, st => gengoto declared l st
  | .OBREAK, st =>
    match st.breakpc with
    | none => st.diag .breakOutside
    | some target =>
      if st.canreach then { st.emit (.jump target) with nbreak := st.nbreak + 1, canreach := false } else st
  | .OCONTINUE, st =>
    match st.continpc with
    | none => st.diag .continueOutside
    | some target => { st.emit (.jump target) with canreach := false }
  | .ORETURN none, st => { st.emit .ret with canreach := false }
  | .ORETURN (some e), st => { (st.emit (.eval e)).emit .ret with canreach := false }

/-- A `break` that is not reached leaves nothing behind. -/
example (declared : Label → Bool) (st : St ε) (target : Nat) (here : st.breakpc = some target) (dead : st.canreach = false) :
    gen declared .OBREAK st = st := by
  simp [gen, here, dead]

/-! Whole functions. -/

def labels : Stmt ε → List Label
  | .OLIST s t | .OIF _ s t => labels s ++ labels t
  | .OWHILE _ s | .ODWHILE _ s | .OFOR _ _ _ s | .OSWITCH _ s => labels s
  | .OLABEL l => [l]
  | _ => []

/-- The cases of the switch whose body this is. -/
def casesOf : Stmt ε → List (Option Int)
  | .OLIST s t | .OIF _ s t => casesOf s ++ casesOf t
  | .OWHILE _ s | .ODWHILE _ s | .OFOR _ _ _ s => casesOf s
  | .OCASE c => [c]
  | _ => []

/-- What `gen` and `doswit` check: jumps and cases have something to belong to,
and the cases of a switch are distinct. -/
def Placed (declared : Label → Bool) : (loop breaks switch : Bool) → Stmt ε → Prop
  | a, b, c, .OLIST s t | a, b, c, .OIF _ s t => Placed declared a b c s ∧ Placed declared a b c t
  | _, _, c, .OWHILE _ s | _, _, c, .ODWHILE _ s | _, _, c, .OFOR _ _ _ s => Placed declared true true c s
  | a, _, _, .OSWITCH _ s => Placed declared a true true s ∧ (casesOf s).Nodup
  | _, _, c, .OCASE _ => c = true
  | _, _, _, .OGOTO l => declared l = true
  | _, b, _, .OBREAK => b = true
  | a, _, _, .OCONTINUE => a = true
  | _, _, _, _ => True

/-- A `break` belongs to a loop or a switch. -/
example (declared : Label → Bool) : ¬Placed declared false false false (.OBREAK : Stmt ε) := by
  simp [Placed]

/-- A function that is accepted. That no label is declared twice is checked by
`dcllabel`. -/
structure Function_ (ε : Type) where
  body : Stmt ε
  labels_nodup : (labels body).Nodup
  placed : Placed (fun l => l ∈ labels body) false false false body

namespace Function_

def declared (F : Function_ ε) (l : Label) : Bool := l ∈ labels F.body

/-- `codgen`, from the first statement on. -/
def codgen (F : Function_ ε) : St ε :=
  (gen F.declared F.body ⟨[], true, none, none, 0, 0, fun _ => none, fun _ => none, none, []⟩).emit .ret

/-- The emitted code evaluates what the source evaluates, for all values, and
returns when it does. -/
def Preserved (F : Function_ ε) : Prop :=
  ∀ values events returned, Run (step F.body) (.run F.body .stop) values events returned ↔
    Run (fetch F.codgen.code) 0 values events returned

end Function_

/-! Reachability as `gen` computes it, and when it is right. -/

structure Flow where
  canreach : Bool
  nbreak : Nat

def Test.exits (t : Test ε) : Nat := if t.ends then 1 else 0

/-- `canreach` and `nbreak` behind a statement. -/
def flow : Stmt ε → Flow → Flow
  | .exprs _, f => f
  | .OLIST s t, f => flow t (flow s f)
  | .OIF t s e, f =>
    let g := flow s ⟨true, f.nbreak⟩
    let h := flow e ⟨true, g.nbreak⟩
    match folded t s e with
    | some false => h
    | some true => ⟨g.canreach, h.nbreak⟩
    | none => ⟨h.canreach || g.canreach, h.nbreak⟩
  | .OWHILE t s, f | .ODWHILE t s, f => ⟨(flow s ⟨f.canreach, t.exits⟩).nbreak ≠ 0, f.nbreak⟩
  | .OFOR _ t _ s, f => ⟨(flow s ⟨true, (t.map Test.exits).getD 0⟩).nbreak ≠ 0, f.nbreak⟩
  | .OSWITCH _ s, f =>
    let g := flow s ⟨f.canreach, 0⟩
    ⟨g.nbreak ≠ 0 ∨ g.canreach ∨ none ∉ casesOf s, f.nbreak⟩
  | .OCASE _, f | .OLABEL _, f => ⟨true, f.nbreak⟩
  | .OGOTO _, f | .OCONTINUE, f | .ORETURN _, f => ⟨false, f.nbreak⟩
  | .OBREAK, f => if f.canreach then ⟨false, f.nbreak + 1⟩ else f

/-- A switch with a default ends where its body does. -/
example (e : ε) (n : Nat) :
    flow (.OSWITCH e (.OLIST (.OCASE none) (.ORETURN none))) ⟨true, n⟩ = ⟨false, n⟩ := by
  simp [flow, casesOf]

/-- Whether `canreach` is the same behind a statement as before it. -/
def keeps : Stmt ε → Bool
  | .exprs _ => true
  | .OLIST s t => keeps s && keeps t
  | _ => false

/-- Whether a jump is left out of a statement if it starts with `canreach` false. -/
def drops : Stmt ε → Bool
  | .OLIST s t => drops s || (keeps s && drops t)
  | .OWHILE _ s | .ODWHILE _ s => drops s
  | .OSWITCH _ s => drops s || keeps s
  | .OBREAK => true
  | _ => false

/-- No `while` or `do` that can be entered by a jump into its body is generated
with `canreach` false so that a jump at the start of the body is left out. -/
def Entered : Stmt ε → Flow → Prop
  | s, f => f.canreach = false ∧ deadhead s false = true ∨
    match s with
    | .OLIST s t => Entered s f ∧ Entered t (flow s f)
    | .OIF t s e =>
      match folded t s e with
      | some true => Entered s ⟨true, f.nbreak⟩
      | some false => Entered e ⟨true, (flow s ⟨true, f.nbreak⟩).nbreak⟩
      | none => Entered s ⟨true, f.nbreak⟩ ∧ Entered e ⟨true, (flow s ⟨true, f.nbreak⟩).nbreak⟩
    | .OWHILE t s | .ODWHILE t s => (f.canreach = true ∨ drops s = false) ∧ Entered s ⟨true, t.exits⟩
    | .OFOR _ t _ s => Entered s ⟨true, (t.map Test.exits).getD 0⟩
    | .OSWITCH _ s => Entered s ⟨f.canreach, 0⟩
    | _ => True

/-- A loop that is reached at its label only, which stands behind a `break`. -/
example (l : Label) (t : Test ε) :
    ¬Entered (.OWHILE t (.OLIST .OBREAK (.OLABEL l)) : Stmt ε) ⟨false, 0⟩ := by
  simp [Entered, deadhead, drops]

end Goken.Gen
