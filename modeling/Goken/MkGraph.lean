import Goken.Rune
import Mathlib.Logic.Function.Basic

/-! The rules of mk (`rule.c`) and the dependency graph made from them
(`graph.c`, `match.c`). Strings are the bytes before the NUL. The rules are
allocated one after the other and known by their address; the nodes are known
by their name, since `symlook` keeps one of each name. -/

namespace Goken.MkGraph

abbrev Str := List UInt8

def NAMEBLOCK : Nat := 1000
def NREGEXP : Nat := 10

/-- The rune at the head of a string, and its length in bytes. -/
def rune (s : Str) : Nat × Nat :=
  match Rune.chartorune (s ++ [0]) with
  | some (r, n) => (r.toNat, n)
  | none => (0, 1)

def quote : Nat := 0x27
def dollar : Nat := 0x24
def lbrace : UInt8 := 0x7B
def rbrace : Nat := 0x7D
def percent : UInt8 := 0x25
def ampersand : UInt8 := 0x26

def PERCENT (ch : Nat) : Bool := ch = percent.toNat || ch = ampersand.toNat

/-- The rest of the string from the closing quote on. -/
def squote : Nat → Str → Option Str
  | 0, _ => none
  | fuel + 1, cp =>
      if cp.isEmpty then none else
      let (r, n) := rune cp
      if r = quote then
        let (r', n') := rune (cp.drop n)
        if r' ≠ quote then some cp else squote fuel (cp.drop (n + n'))
      else squote fuel (cp.drop n)

/-- Whether a string has a character of the set outside quotes and `${}`. -/
def charinFrom (pat : Str) : Nat → Str → Bool → Bool
  | 0, _, _ => false
  | fuel + 1, cp, vargen =>
      if cp.isEmpty then false else
      let (r, n) := rune cp
      let found := pat.any fun b => b.toNat = r
      if r = quote then
        match squote fuel (cp.drop 1) with
        | none => false
        | some cp => charinFrom pat fuel (cp.drop n) vargen
      else if r = dollar then charinFrom pat fuel (cp.drop n) (vargen || cp[1]? = some lbrace)
      else if r = rbrace then
        if vargen then charinFrom pat fuel (cp.drop n) false
        else if found then true else charinFrom pat fuel (cp.drop n) vargen
      else if found && !vargen then true else charinFrom pat fuel (cp.drop n) vargen

def charin (cp pat : Str) : Bool := charinFrom pat (cp.length + 1) cp false

/-- The loop of `match` over `n` bytes of both strings. -/
def skip : Nat → Str → Str → Option (Str × Str)
  | 0, name, template => some (name, template)
  | _ + 1, [], _ => none
  | _ + 1, _, [] => none
  | n + 1, a :: name, b :: template => if a ≠ b then none else skip n name template

/-- `match` before the pattern character. -/
def before : Nat → Str → Str → Option (Str × Str)
  | 0, _, _ => none
  | fuel + 1, name, template =>
      if name.isEmpty || template.isEmpty then some (name, template) else
      let (r, n) := rune template
      if PERCENT r then some (name, template) else
      match skip n name template with
      | none => none
      | some (name, template) => before fuel name template

def dotSlash : Str := [0x2E, 0x2F]

/-- `match`: the stem, if the template matches the name. There is no result at
all when the stem is copied past the end of its buffer. -/
def matchStem (name template : Str) : Option (Option Str) :=
  match before (template.length + 1) name template with
  | none => some none
  | some (_, []) => some none
  | some (name, c :: after) =>
      if !PERCENT c.toNat then some none
      else if name.length < after.length then some none
      else
        let n := name.length - after.length
        if after ≠ name.drop n then some none
        else if NAMEBLOCK ≤ n then none
        else
          let stem := name.take n
          if c = ampersand then if charin stem dotSlash then some none else some (some stem)
          else some (some stem)

/-- `if(dest < e) *dest++ = c`, with `dest` what is stored so far. -/
def store (dlen : Nat) (dest : Str) (c : UInt8) : Str := if dest.length < dlen - 1 then dest ++ [c] else dest

def substFrom (stem : Str) (dlen : Nat) : Nat → Str → Str → Str
  | 0, _, dest => dest
  | fuel + 1, template, dest =>
      if template.isEmpty then dest else
      let (r, n) := rune template
      if PERCENT r then substFrom stem dlen fuel (template.drop n) (stem.foldl (store dlen) dest)
      else substFrom stem dlen fuel (template.drop n) ((template.take n).foldl (store dlen) dest)

def subst (stem template : Str) (dlen : Nat) : Str := substFrom stem dlen (template.length + 1) template []

/-- The bounds of a match in the string matched. -/
abbrev Resub := Option (Nat × Nat)

def Resub.text (name : Str) : Resub → Str
  | none => []
  | some (s, e) => (name.drop s).take (e - s)

def backslash : UInt8 := 0x5C

def regsubFrom (dlen : Nat) (name : Str) (mp : List Resub) : Str → Str → Str
  | [], dest => dest
  | b :: sp, dest =>
      if b = backslash then
        match sp with
        | [] => dest
        | d :: sp =>
            if 0x30 ≤ d.toNat ∧ d.toNat ≤ 0x39 then
              regsubFrom dlen name mp sp ((Resub.text name (mp[d.toNat - 0x30]?.getD none)).foldl (store dlen) dest)
            else regsubFrom dlen name mp sp (store dlen dest d)
      else if b = ampersand then
        regsubFrom dlen name mp sp ((Resub.text name (mp[0]?.getD none)).foldl (store dlen) dest)
      else regsubFrom dlen name mp sp (store dlen dest b)

def regsub (sp : Str) (dlen : Nat) (name : Str) (mp : List Resub) : Str := regsubFrom dlen name mp sp []

/-- The first match is kept up to the end of the name. -/
def rcopy (name : Str) (mp : List Resub) : List (Option Str) :=
  match mp with
  | [] => []
  | first :: rest => first.map (fun m => name.drop m.1) :: rest.map fun m => m.map fun _ => m.text name

/-! The rules. `P` is what `regcomp` makes of a pattern. -/

def META : Nat := 0x0001
def VIR : Nat := 0x0010
def REGEXP : Nat := 0x0020
def NOVIRT : Nat := 0x0100

structure Rule (P : Type) where
  address : Nat
  target : Str
  prereqs : List Str
  recipe : Str
  attr : Nat
  rule : Nat
  /-- Set for a REGEXP rule when it is allocated, and never again. -/
  pat : Option P
  prog : Option Str
  deriving Repr, DecidableEq

variable {P : Type}

def Rule.has (r : Rule P) (flag : Nat) : Bool := r.attr &&& flag ≠ 0

def emptyRecipe (r : Rule P) : Bool := r.recipe.isEmpty

def emptyPrereqs (r : Rule P) : Bool :=
  match r.prereqs with
  | [] => true
  | first :: _ => first.isEmpty

/-- The rules allocated, the lists `rules` and `metarules`, and the chains that
`symlook` finds under S_TARGET; all of them hold addresses. -/
structure Rules (P : Type) where
  heap : List (Rule P)
  rules : List Nat
  metarules : List Nat
  chain : Str → List Nat
  nrules : Nat

def noRules : Rules P := ⟨[], [], [], fun _ => [], 0⟩

def Rules.deref (s : Rules P) (addresses : List Nat) : List (Rule P) := addresses.filterMap fun i => s.heap[i]?

/-- The arguments of `addrule` that the graph depends on. -/
structure Def where
  target : Str
  prereqs : List Str
  recipe : Str
  attr : Nat
  prog : Option Str
  deriving Repr, DecidableEq

/-- `rcmp` finds the same target and the same prerequisites. -/
def same (d : Def) (r : Rule P) : Bool := r.target = d.target && r.prereqs = d.prereqs

def isMeta (d : Def) : Bool := charin d.target [percent, ampersand] || d.attr &&& REGEXP ≠ 0

def addrule (regcomp : Str → P) (s : Rules P) (d : Def) : Rules P :=
  let attr := if isMeta d then d.attr ||| META else d.attr
  match (s.deref (s.chain d.target)).find? (same d) with
  | some old =>
      let r := { old with
        target := d.target, prereqs := d.prereqs, recipe := d.recipe, attr := attr, rule := s.nrules, prog := d.prog }
      { s with heap := s.heap.set old.address r, nrules := s.nrules + 1 }
  | none =>
      let r : Rule P := {
        address := s.heap.length, target := d.target, prereqs := d.prereqs, recipe := d.recipe, attr := attr,
        rule := s.nrules, pat := if d.attr &&& REGEXP ≠ 0 then some (regcomp d.target) else none, prog := d.prog }
      { heap := s.heap ++ [r]
        rules := if isMeta d then s.rules else s.rules ++ [r.address]
        metarules := if isMeta d then s.metarules ++ [r.address] else s.metarules
        chain := fun t =>
          if t = d.target then
            match s.chain t with
            | [] => [r.address]
            | first :: rest => first :: r.address :: rest
          else s.chain t
        nrules := s.nrules + 1 }

def addrules (regcomp : Str → P) (defs : List Def) : Rules P := defs.foldl (addrule regcomp) noRules

/-! The graph. -/

structure Arc (P : Type) where
  n : Option Str
  r : Rule P
  stem : Str
  submatch : List (Option Str)
  prog : Option Str
  deriving Repr, DecidableEq

structure Node (P : Type) where
  probable : Bool
  arcs : List (Arc P)
  deriving Repr, DecidableEq

/-- The nodes of S_NODE and the counters `cnt`, which are of type `char`. -/
structure Graph (P : Type) where
  nodes : Str → Option (Node P)
  cnt : Nat → Int8

/-- What the graph is made from: `regexec`, which files there are, and `nreps`. -/
structure Env (P : Type) where
  regexec : P → Str → Option ((Nat × Nat) × List Resub)
  present : Str → Bool
  nreps : Int

def newnode (env : Env P) (name : Str) (g : Graph P) : Graph P :=
  { g with nodes := Function.update g.nodes name (some ⟨env.present name, []⟩) }

def setProbable (name : Str) (g : Graph P) : Graph P :=
  { g with nodes := Function.update g.nodes name ((g.nodes name).map fun node => { node with probable := true }) }

def setArcs (name : Str) (arcs : List (Arc P)) (g : Graph P) : Graph P :=
  { g with nodes := Function.update g.nodes name ((g.nodes name).map fun node => { node with arcs := arcs }) }

def newarc (n : Option Str) (r : Rule P) (stem : Str) (name : Str) (rmatch : List Resub) : Arc P :=
  ⟨n, r, stem, rcopy name rmatch, r.prog⟩

def noMatch : List Resub := List.replicate NREGEXP none

/-- `cnt[r->rule] >= nreps`. -/
def repeated (env : Env P) (g : Graph P) (r : Rule P) : Bool := env.nreps ≤ (g.cnt r.rule).toInt

def enter (r : Rule P) (g : Graph P) : Graph P := { g with cnt := Function.update g.cnt r.rule (g.cnt r.rule + 1) }

def leave (r : Rule P) (g : Graph P) : Graph P := { g with cnt := Function.update g.cnt r.rule (g.cnt r.rule - 1) }

/-- The loop over the prerequisites of a rule; `rename` makes the name of the
prerequisite's node, `visit` is the recursive call. -/
def prereqArcs (visit : Str → Graph P → Option (Graph P)) (rename : Str → Str) (arc : Option Str → Arc P) :
    List Str → List (Arc P) → Graph P → Option (List (Arc P) × Graph P)
  | [], arcs, g => some (arcs, g)
  | pre :: rest, arcs, g =>
      match visit (rename pre) g with
      | none => none
      | some g => prereqArcs visit rename arc rest (arcs ++ [arc (some (rename pre))]) g

/-- The arcs of one rule. -/
def ruleArcs (visit : Str → Graph P → Option (Graph P)) (rename : Str → Str) (r : Rule P) (arc : Option Str → Arc P)
    (arcs : List (Arc P)) (g : Graph P) : Option (List (Arc P) × Graph P) :=
  if emptyPrereqs r then some (arcs ++ [arc none], g)
  else prereqArcs visit rename arc r.prereqs arcs g

def simpleArcs (env : Env P) (visit : Str → Graph P → Option (Graph P)) (name : Str) :
    List (Rule P) → List (Arc P) → Graph P → Option (List (Arc P) × Graph P)
  | [], arcs, g => some (arcs, g)
  | r :: rest, arcs, g =>
      if emptyRecipe r && emptyPrereqs r then simpleArcs env visit name rest arcs g
      else if repeated env g r then simpleArcs env visit name rest arcs g
      else
        match ruleArcs visit id r (fun n => newarc n r [] name noMatch) arcs (setProbable name (enter r g)) with
        | none => none
        | some (arcs, g) => simpleArcs env visit name rest arcs (leave r g)

/-- The loop over the meta rules. It has no result when a REGEXP rule has no
pattern or a stem no room. -/
def metaArcs (env : Env P) (visit : Str → Graph P → Option (Graph P)) (name : Str) :
    List (Rule P) → List Resub → List (Arc P) → Graph P → Option (List (Arc P) × Graph P)
  | [], _, arcs, g => some (arcs, g)
  | r :: rest, rmatch, arcs, g =>
      if emptyRecipe r && emptyPrereqs r then metaArcs env visit name rest rmatch arcs g
      else if r.has NOVIRT && arcs.getLast?.any (fun a => a.r.has VIR) then metaArcs env visit name rest rmatch arcs g
      else if r.has REGEXP then
        match r.pat with
        | none => none
        | some pat =>
            match env.regexec pat name with
            | none => metaArcs env visit name rest noMatch arcs g
            | some (whole, subs) => metaArcs env visit name rest ((some whole :: subs ++ noMatch).take NREGEXP) arcs g
      else
        match matchStem name r.target with
        | none => none
        | some none => metaArcs env visit name rest rmatch arcs g
        | some (some stem) =>
            if repeated env g r then metaArcs env visit name rest rmatch arcs g
            else
              let rename := fun pre =>
                if r.has REGEXP then regsub pre NAMEBLOCK name rmatch else subst stem pre NAMEBLOCK
              match ruleArcs visit rename r (fun n => newarc n r stem name rmatch) arcs (enter r g) with
              | none => none
              | some (arcs, g) => metaArcs env visit name rest rmatch arcs (leave r g)

def applyrules (env : Env P) (s : Rules P) : Nat → Str → Graph P → Option (Graph P)
  | 0, _, _ => none
  | fuel + 1, target, g =>
      if (g.nodes target).isSome then some g else
      match simpleArcs env (applyrules env s fuel) target (s.deref (s.chain target)) [] (newnode env target g) with
      | none => none
      | some (arcs, g) =>
          match metaArcs env (applyrules env s fuel) target (s.deref s.metarules) noMatch arcs g with
          | none => none
          | some (arcs, g) => some (setArcs target arcs g)

end Goken.MkGraph
