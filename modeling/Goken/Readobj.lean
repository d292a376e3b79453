import Goken.ArmObj

/-! The symbols of object files (`libmach/obj.c`), and the records that 5c writes
(`outcode` of `5c/swt.c`). The readers of the formats are left out: an object is
the list of the records that `read` gives. A pointer to an entry is its number in
the order of allocation. -/

namespace Goken.Readobj
open Lib
open ArmObj (Name Sym_kind NSYM Adr Signatures Writer)

def NNAMES : Nat := 50
def NHASH : Nat := 1024
def HASHMUL : Int := 79
def MAXOFF : Nat := 0x7fffffff

/-- The letter that `nm` prints for a symbol. -/
inductive Letter where
  | T | D | U | t | d | b | a | p | unknown
  deriving DecidableEq, Repr

def Letter.lower : Letter → Letter
  | .T => .t
  | .D => .d
  | l => l

def islocal (type : Letter) : Bool := type = .a || type = .p

structure Sym where
  name : Name
  type : Letter
  value : Nat
  deriving DecidableEq

/-- `Kind`, with the fields of `Prog` that it uses. -/
inductive Prog where
  | aNone
  | aName (sym : Nat) (id : Name) (type : Letter)
  | aText (sym : Nat)
  | aData (sym : Nat)
  deriving DecidableEq

/-- One call of `read`: its calls of `_offset`, and what it returns. -/
structure Record where
  offsets : List (Nat × Nat)
  prog : Prog
  deriving DecidableEq

structure State where
  entries : List Sym
  hash : Nat → List Nat
  names : Nat → Option Nat

def objreset : State := ⟨[], fun _ => [], fun _ => none⟩

def State.held (s : State) (id : Nat) : Option Sym := (s.names id).bind fun i => s.entries[i]?

def State.change (s : State) (id : Nat) (f : Sym → Sym) : State :=
  match s.names id with
  | some i => { s with entries := s.entries.modify i f }
  | none => s

def int64 (v : Int) : Int := Int.bmod v (2 ^ 64)

/-- The bucket of a name; nothing is there to be read after an empty one. -/
def bucket (name : Name) : Option Nat :=
  match name.val with
  | [] => none
  | c :: rest =>
      let h := rest.foldl (fun h cp => int64 (int64 (h * HASHMUL) + Int.bmod cp.toNat 256)) (Int.bmod c.toNat 256)
      some ((if h < 0 then -h - 1 else h) % NHASH).toNat

/-- The switch of `objlookup`: the entry of a symbol of this type serves for the other. -/
def serves (held type : Letter) : Bool :=
  match held with
  | .T | .D | .U => type = .U
  | .t | .d | .b => type = .b
  | .a | .p => islocal type
  | .unknown => false

def searched (type : Letter) : Bool := type = .U || type = .b || islocal type

/-- The search of a chain. -/
def suitable (s : State) (name : Name) (type : Letter) (i : Nat) : Bool :=
  match s.entries[i]? with
  | some e => e.name = name && serves e.type type
  | none => false

/-- `objlookup` from the search of the chain on. -/
def enter (s : State) (id : Nat) (name : Name) (type : Letter) (h : Nat) : State :=
  match if searched type then (s.hash h).find? (suitable s name type) else none with
  | some i => { s with names := Function.update s.names id (some i) }
  | none =>
      let i := s.entries.length
      { entries := s.entries ++ [⟨name, type, if islocal type then MAXOFF else 0⟩]
        hash := Function.update s.hash h (i :: s.hash h)
        names := Function.update s.names id (some i) }

def objlookup (s : State) (id : Nat) (name : Name) (type : Letter) : Option State :=
  if (s.held id).any fun e => e.name = name then some (s.change id fun e => { e with type := type })
  else (bucket name).map (enter s id name type)

/-- The symbols that `objtraverse` visits. -/
def objtraverse (s : State) : List Sym :=
  ((List.range NHASH).flatMap s.hash).filterMap fun i => s.entries[i]?

def named (e : Sym) : Bool := e.name.val.headD 0 ≠ 0

/-- `_offset`. -/
def offset (s : State) (id off : Nat) : State :=
  s.change id fun e => if named e && islocal e.type && decide (e.value > off) then { e with value := off } else e

def objupdate (s : State) (id : Nat) (type : Letter) : State :=
  s.change id fun e =>
    if named e then
      if e.type = .U then { e with type := type }
      else if e.type = .b then { e with type := type.lower }
      else e
    else e

/-- The state, and whether the reading goes on. -/
def processprog (s : State) (p : Prog) (doautos : Bool) : Option (State × Bool) :=
  match p with
  | .aNone => some (s, true)
  | .aName sym id type =>
      if sym ≥ NNAMES then some (s, false)
      else if !doautos && type ≠ .U && type ≠ .b then some (s, true)
      else (objlookup s sym id type).map fun s => (s, true)
  | .aText sym => if sym ≥ NNAMES then some (s, false) else some (objupdate s sym .T, true)
  | .aData sym => if sym ≥ NNAMES then some (s, false) else some (objupdate s sym .D, true)

/-- One turn of the loop of `readobj`. -/
def turn (s : State) (r : Record) : Option (State × Bool) :=
  processprog (r.offsets.foldl (fun s o => offset s o.1 o.2) s) r.prog true

def turns : State → List Record → Option (State × Bool)
  | s, [] => some (s, true)
  | s, r :: rest =>
      match turn s r with
      | some (s, true) => turns s rest
      | other => other

def readobj (records : List Record) : Option (State × Bool) := turns objreset records

/-! The compiler. -/

def ATEXT : UInt8 := 78
def AGLOBL : UInt8 := 79

def type2char : Sym_kind → Letter
  | .N_EXTERN => .U
  | .N_INTERN => .b
  | .N_LOCAL => .a
  | .N_PARAM => .p
  | _ => .unknown

/-- The call of `_offset` for an operand. An operand of type D_ADDR has none: the reader has no case
for it and would lose step, but 5c never writes one. -/
def addr (a : Adr) (sym : Nat) : List (Nat × Nat) :=
  match a.type with
  | .D_OREG | .D_CONST | .D_BRANCH | .D_SHIFT =>
      if sym ≠ 0 ∧ (a.symkind = .N_PARAM ∨ a.symkind = .N_LOCAL) then [(sym, a.offset.toInt.natAbs)] else []
  | _ => []

/-- What `_read5` makes of an instruction. -/
def instruction (p : ArmObj.Prog) (sf st : Nat) : Record where
  offsets := addr p.source sf ++ addr p.dest st
  prog :=
    if p.source.type = .D_OREG ∧ (p.source.symkind = .N_INTERN ∨ p.source.symkind = .N_EXTERN) then
      if p.as = ATEXT then .aText sf else if p.as = AGLOBL then .aData sf else .aNone
    else .aNone

section write
variable (sigs : Signatures)

/-- The slot of an operand's symbol, and the record of its name when it is new. -/
def symslot (w : Writer) (sym : Option Name) (t : Sym_kind) : Nat × Writer × List Record × Bool :=
  let (sf, w, _, new) := ArmObj.symslot sigs w sym t
  (sf, w, if new then sym.toList.map fun s => ⟨[], .aName sf s (type2char t)⟩ else [], new)

def jackpot : Nat → Writer → ArmObj.Prog → Option (Nat × Nat × Writer × List Record)
  | 0, _, _ => none
  | fuel + 1, w, p =>
    let (sf, w, first, _) := symslot sigs w p.source.sym p.source.symkind
    let (st, w, second, new) := symslot sigs w p.dest.sym p.dest.symkind
    if new ∧ st = sf then
      (jackpot fuel w p).map fun (sf, st, w, more) => (sf, st, w, first ++ second ++ more)
    else some (sf, st, w, first ++ second)

def outprogs : Writer → List ArmObj.Prog → Option (List Record)
  | _, [] => some []
  | w, p :: rest => do
    let (sf, st, w, names) ← jackpot sigs 2 w p
    let more ← outprogs w rest
    return names ++ instruction p sf st :: more

/-- The components of a path take slot 1; the line itself is of no interest. -/
def outhist (hist : List ArmObj.Hist) : List Record :=
  hist.flatMap fun h => (h.path.map fun n => ⟨[], .aName 1 (ArmObj.component n) (type2char .N_FILE)⟩) ++ [⟨[], .aNone⟩]

def outcode (hist : List ArmObj.Hist) (firstp : List ArmObj.Prog) : Option (List Record) :=
  (outprogs sigs Writer.empty firstp).map (outhist hist ++ ·)

end write

end Goken.Readobj
