import Mathlib.Data.List.Forall2
import Goken.Proofs.Ieee
import Goken.ArmObj

/-! What 5l reads of the files that 5c writes. When the second symbol of an
instruction takes the slot of the first, `outcode` goes back to `jackpot`; the
first symbol then gets another slot, so the record carries the slots of both. -/

namespace Goken.Proofs.ArmObj
open Goken Lib ArmObj

/-! Operands. -/

theorem get4_put4 (l : Int) (rest : List UInt8) : Bytes.get4 Stop.fault (Bytes.put4 l ++ rest) = .ok (int32 l, rest) :=
  Bytes.get4_put4 _ l rest

/-- The type that arrives. -/
def arriving (a : Adr) : Operand_kind := readdress a.type a.symkind.code

/-- What arrives of the field that the type selects. -/
def received (a : Adr) : Option Value :=
  match a.type with
  | .D_NONE | .D_REG | .D_FREG | .D_PSR => some .none
  | .D_OREG | .D_CONST | .D_ADDR | .D_BRANCH | .D_SHIFT => some (.offset a.offset.toInt)
  | .D_SCONST => some (.sval a.sval.val)
  | .D_FCONST => (ieeedtod a.dval).map .ieee
  | _ => none

private theorem int32_toInt (l : Int32) : int32 l.toInt = l.toInt := by
  have low := l.le_toInt
  have high := l.toInt_lt
  rw [int32_eq_emod]
  omega

private theorem ofInt_toInt (b : BitVec 32) : BitVec.ofInt 32 (int32 b.toInt) = b := by
  rw [ofInt_int32, BitVec.ofInt_toInt]

theorem invalue_zvalue {a : Adr} {bytes : List UInt8} (written : zvalue a = some bytes) :
    ∃ v, received a = some v ∧ ∀ rest, invalue (arriving a) (bytes ++ rest) = .ok (v, rest) := by
  unfold zvalue at written
  unfold received arriving readdress
  cases type : a.type <;> simp only [type] at written ⊢
  case D_CONST =>
    cases written
    refine ⟨_, rfl, fun rest => ?_⟩
    split_ifs <;> simp only [invalue, get4_put4, int32_toInt, bind, Except.bind, pure, Except.pure]
  case D_OREG | D_ADDR | D_BRANCH | D_SHIFT =>
    cases written
    refine ⟨_, rfl, fun rest => ?_⟩
    simp [invalue, get4_put4, int32_toInt, bind, Except.bind, pure, Except.pure]
  case D_SCONST =>
    cases written
    refine ⟨_, rfl, fun rest => ?_⟩
    simp [invalue, Bytes.take_append _ a.sval.property, bind, Except.bind, pure, Except.pure]
  case D_FCONST =>
    obtain ⟨e, encoded, bytesEq⟩ := Option.bind_eq_some_iff.mp written
    cases bytesEq
    refine ⟨.ieee e, by rw [encoded]; rfl, fun rest => ?_⟩
    simp [invalue, get4_put4, ofInt_toInt, bind, Except.bind, pure, Except.pure]
  case D_NONE | D_REG | D_FREG | D_PSR =>
    cases written
    exact ⟨_, rfl, fun rest => by simp [invalue]⟩
  all_goals cases written

private theorem all_code (d : Operand_kind) : Operand_kind.all[d.code.toNat]? = some d := by
  cases d <;> rfl

private theorem slot_toNat {i : Nat} (small : i < NSYM) : (UInt8.ofNat i).toNat = i := by
  rw [UInt8.toNat_ofNat', Nat.mod_eq_of_lt (Nat.lt_trans small (by decide))]

private theorem ok_bind {α β : Type} (a : α) (f : α → Except Stop β) : (Except.ok a >>= f) = f a := rfl

theorem inopd_zaddr {a : Adr} {i : Nat} {bytes : List UInt8} (small : i < NSYM) (register : a.reg.toNat ≤ NREG)
    (written : zaddr a i = some bytes) :
    ∃ v, received a = some v ∧
      ∀ h rest, inopd (bytes ++ rest) h = .ok (⟨arriving a, a.reg, h i, a.symkind.code, v⟩, rest) := by
  obtain ⟨val, value, bytesEq⟩ := Option.bind_eq_some_iff.mp written
  cases bytesEq
  obtain ⟨v, arrives, reads⟩ := invalue_zvalue value
  have index := slot_toNat small
  refine ⟨v, arrives, fun h rest => ?_⟩
  unfold arriving at reads
  simp only [List.cons_append, inopd, all_code, index, if_neg (Nat.not_lt.mpr register), if_neg (show ¬ i > NSYM by omega),
    if_neg (show ¬ i = NSYM by omega), reads, bind, Except.bind, pure, Except.pure]
  rfl

/-! The reader takes a file piece by piece. -/

/-- Reading `bytes` shows the events to the linker and changes the table, whatever follows. -/
def Yields (version : Nat) (bytes : List UInt8) (h h' : Table) (events : List Event) : Prop :=
  ∀ (rest : List UInt8) (fuel : Nat), (bytes ++ rest).length ≤ fuel →
    ∃ fuel', rest.length ≤ fuel' ∧ ∀ {σ : Type} (obey : σ → Event → Except Stop σ) (s : σ),
      scan obey fuel version (bytes ++ rest) h s = events.foldlM obey s >>= scan obey fuel' version rest h'

section pieces
variable {version : Nat} {h h' h'' : Table}

theorem Yields.nil : Yields version [] h h [] := fun _ fuel enough => ⟨fuel, enough, fun _ _ => rfl⟩

theorem Yields.append {bytes more : List UInt8} {events later : List Event} (first : Yields version bytes h h' events)
    (second : Yields version more h' h'' later) : Yields version (bytes ++ more) h h'' (events ++ later) := by
  intro rest fuel enough
  rw [List.append_assoc] at enough ⊢
  obtain ⟨fuel', enough', one⟩ := first (more ++ rest) fuel enough
  obtain ⟨fuel'', enough'', two⟩ := second rest fuel' enough'
  refine ⟨fuel'', enough'', fun obey s => ?_⟩
  rw [one, List.foldlM_append, bind_assoc]
  congr 1
  funext s'
  exact two obey s'

/-- The symbol that a name record stands for. -/
def symbol (version : Nat) (v : Name × Sym_kind) : Sym := ⟨v.1, if v.2.code = Sym_kind.N_INTERN.code then version else 0⟩

theorem yields_aname (n : Name) (t : Sym_kind) {i : Nat} (small : i < NSYM) :
    Yields version (ANAME :: t.code :: UInt8.ofNat i :: (n.val ++ [0])) h
      (Function.update h i (some (symbol version (n, t)))) [.name t.code (symbol version (n, t)) 0] := by
  intro rest fuel enough
  have index := slot_toNat small
  have valid : ¬ (ANAME ≤ AXXX ∨ ANAME ≥ ALAST) := by decide
  have plain : ANAME ≠ ASIGNAME := by decide
  obtain _ | fuel := fuel
  · simp at enough
  refine ⟨fuel, by simp at enough; omega, fun obey s => ?_⟩
  simp only [List.cons_append, List.append_assoc, List.nil_append, scan, if_neg valid, true_or, if_true, if_neg plain,
    ok_bind, Bytes.cstring_append, index, if_neg (Nat.not_le.mpr small), List.foldlM_cons, List.foldlM_nil, bind_assoc, pure_bind]
  rfl

theorem yields_asigname (sig : Int32) (n : Name) (t : Sym_kind) {i : Nat} (small : i < NSYM) :
    Yields version (ASIGNAME :: (Bytes.put4 sig.toInt ++ t.code :: UInt8.ofNat i :: (n.val ++ [0]))) h
      (Function.update h i (some (symbol version (n, t)))) [.name t.code (symbol version (n, t)) sig.toInt] := by
  intro rest fuel enough
  have index := slot_toNat small
  have valid : ¬ (ASIGNAME ≤ AXXX ∨ ASIGNAME ≥ ALAST) := by decide
  obtain _ | fuel := fuel
  · simp at enough
  refine ⟨fuel, by simp at enough; omega, fun obey s => ?_⟩
  simp only [List.cons_append, List.append_assoc, List.nil_append, scan, if_neg valid, or_true, if_true, get4_put4,
    int32_toInt, ok_bind, Bytes.cstring_append, index, if_neg (Nat.not_le.mpr small), List.foldlM_cons, List.foldlM_nil,
    bind_assoc, pure_bind]
  rfl

/-- An opcode of an instruction. -/
def Instruction (as : UInt8) : Prop := AXXX < as ∧ as < ALAST ∧ as ≠ ANAME ∧ as ≠ ASIGNAME

section record
variable {p : Prog} {sf st : Nat} {bytes : List UInt8}

/-- The operand `o` is what the reader makes of `a`; `x` is the symbol in its slot. -/
structure Arrives (x : Option Sym) (a : Adr) (o : Operand) : Prop where
  type : o.type = arriving a
  reg : o.reg = a.reg
  sym : o.sym = x
  symkind : o.symkind = a.symkind.code
  value : received a = some o.value

structure ArrivesRecord (x y : Option Sym) (p : Prog) (r : Record) : Prop where
  as : r.as = p.as
  scond : r.scond = p.scond
  reg : r.reg = p.reg
  line : r.line = int32 p.lineno.toInt
  source : Arrives x p.source r.source
  dest : Arrives y p.dest r.dest

/-- Registers within the range that `inopd` checks. -/
def Registers (p : Prog) : Prop := p.source.reg.toNat ≤ NREG ∧ p.dest.reg.toNat ≤ NREG

variable (version h) in
theorem scan_zwrite (instruction : Instruction p.as) (registers : Registers p) (small : sf < NSYM) (small' : st < NSYM)
    (written : zwrite p sf st = some bytes) :
    ∃ r, ArrivesRecord (h sf) (h st) p r ∧
      ∀ {σ : Type} (obey : σ → Event → Except Stop σ) (rest : List UInt8) (s : σ) (fuel : Nat),
        scan obey (fuel + 1) version (bytes ++ rest) h s = obey s (.instruction r) >>= fun s =>
          if p.as = AEND then
            if rest = [] then .ok s else scan obey fuel (version + 1) rest (fun _ => none) s
          else scan obey fuel version rest h s := by
  obtain ⟨low, high, notName, notSigname⟩ := instruction
  have valid : ¬ (p.as ≤ AXXX ∨ p.as ≥ ALAST) := not_or.mpr ⟨UInt8.not_le.mpr low, UInt8.not_le.mpr high⟩
  have plain : ¬ (p.as = ANAME ∨ p.as = ASIGNAME) := not_or.mpr ⟨notName, notSigname⟩
  obtain ⟨source, outSource, written⟩ := Option.bind_eq_some_iff.mp written
  obtain ⟨dest, outDest, written⟩ := Option.bind_eq_some_iff.mp written
  cases written
  obtain ⟨v, arrives, reads⟩ := inopd_zaddr small registers.1 outSource
  obtain ⟨v', arrives', reads'⟩ := inopd_zaddr small' registers.2 outDest
  refine ⟨⟨p.as, p.scond, p.reg, int32 p.lineno.toInt, ⟨arriving p.source, p.source.reg, h sf, p.source.symkind.code, v⟩,
    ⟨arriving p.dest, p.dest.reg, h st, p.dest.symkind.code, v'⟩⟩, ⟨rfl, rfl, rfl, rfl, ⟨rfl, rfl, rfl, rfl, arrives⟩,
    ⟨rfl, rfl, rfl, rfl, arrives'⟩⟩, fun obey rest s fuel => ?_⟩
  have whole : (p.as :: p.scond :: p.reg :: Bytes.put4 p.lineno.toInt) ++ source ++ dest ++ rest =
      p.as :: p.scond :: p.reg :: (Bytes.put4 p.lineno.toInt ++ (source ++ (dest ++ rest))) := by simp
  rw [whole]
  simp only [scan, if_neg valid, if_neg plain, get4_put4, reads, reads', ok_bind]

private theorem zwrite_pos (written : zwrite p sf st = some bytes) : 0 < bytes.length := by
  obtain ⟨source, -, written⟩ := Option.bind_eq_some_iff.mp written
  obtain ⟨dest, -, written⟩ := Option.bind_eq_some_iff.mp written
  cases written
  simp

variable (version h) in
theorem yields_zwrite (instruction : Instruction p.as) (more : p.as ≠ AEND) (registers : Registers p) (small : sf < NSYM)
    (small' : st < NSYM) (written : zwrite p sf st = some bytes) :
    ∃ r, ArrivesRecord (h sf) (h st) p r ∧ Yields version bytes h h [.instruction r] := by
  obtain ⟨r, arrives, reads⟩ := scan_zwrite version h instruction registers small small' written
  refine ⟨r, arrives, fun rest fuel enough => ?_⟩
  have nonempty := zwrite_pos written
  rw [List.length_append] at enough
  obtain _ | fuel := fuel
  · omega
  refine ⟨fuel, by omega, fun obey s => ?_⟩
  rw [reads]
  simp only [if_neg more, List.foldlM_cons, List.foldlM_nil, bind_assoc, pure_bind]

end record

end pieces

/-! Announcements. -/

section names
variable {sigs : Signatures} {version : Nat} {w : Writer}

/-- The reader's symbol for a slot. -/
def Agrees (version : Nat) (v : Name × Sym_kind) (x : Sym) : Prop := x = symbol version v

/-- An operand's symbol with its kind, as `h[]` holds it. -/
def entry (sym : Option Name) (t : Sym_kind) : Option (Name × Sym_kind) := sym.map fun s => (s, t)

variable (sigs version) in
theorem yields_zname (done : Name → Bool) (n : Name) (t : Sym_kind) {i : Nat} (small : i < NSYM) (h : Table) :
    ∃ sig, Yields version (zname sigs done n t i).1 h (Function.update h i (some (symbol version (n, t))))
      [.name t.code (symbol version (n, t)) sig] := by
  unfold zname
  split_ifs
  · exact ⟨_, yields_asigname (sigs.sign n) n t small⟩
  · exact ⟨_, yields_aname n t small⟩

/-- Events of names only. -/
def Names (events : List Event) : Prop := ∀ e ∈ events, ∃ k s sig, e = .name k s sig

structure Announced (version : Nat) (w w' : Writer) (bytes : List UInt8) (h h' : Table) (events : List Event) : Prop where
  mirrors : Ring.Mirrors (Agrees version) w'.ring h'
  yields : Yields version bytes h h' events
  names : Names events

variable (sigs w) in
theorem symslot_ring (sym : Option Name) (t : Sym_kind) :
    (symslot sigs w sym t).1 = (Ring.place NSYM Prod.fst w.ring (entry sym t)).1 ∧
      (symslot sigs w sym t).2.1.ring = (Ring.place NSYM Prod.fst w.ring (entry sym t)).2 ∧
      ((symslot sigs w sym t).2.2.2 = true ↔ Ring.Missing NSYM Prod.fst w.ring (entry sym t)) := by
  cases sym with
  | none => exact ⟨rfl, rfl, by simp [symslot, entry, Ring.Missing]⟩
  | some n =>
    by_cases held : Ring.Held NSYM Prod.fst w.ring (n, t)
    · have same : w.ring.slots (Ring.seek NSYM Prod.fst w.ring (n, t)) = some (n, t) := held
      have placed : Ring.place NSYM Prod.fst w.ring (some (n, t)) = (Ring.seek NSYM Prod.fst w.ring (n, t), w.ring) := by
        rw [Ring.place, if_pos held]
      simp [symslot, entry, Ring.Missing, if_pos same, placed, held]
    · have differs : ¬ w.ring.slots (Ring.seek NSYM Prod.fst w.ring (n, t)) = some (n, t) := held
      have placed : Ring.place NSYM Prod.fst w.ring (some (n, t)) =
          (w.ring.next, Ring.push NSYM Prod.fst w.ring (n, t)) := by rw [Ring.place, if_neg held]
      simp [symslot, entry, Ring.Missing, if_neg differs, placed, held]

variable (sigs) in
theorem symslot_announced (proper : Ring.Proper NSYM w.ring) (sym : Option Name) (t : Sym_kind) {h : Table}
    (mirrors : Ring.Mirrors (Agrees version) w.ring h) :
    ∃ h' events, Announced version w (symslot sigs w sym t).2.1 (symslot sigs w sym t).2.2.1 h h' events := by
  cases sym with
  | none => exact ⟨h, [], mirrors, .nil, by simp [Names]⟩
  | some n =>
    by_cases same : w.ring.slots (Ring.seek NSYM Prod.fst w.ring (n, t)) = some (n, t)
    · simp only [symslot, if_pos same]
      exact ⟨h, [], mirrors, .nil, by simp [Names]⟩
    · simp only [symslot, if_neg same]
      obtain ⟨sig, yields⟩ := yields_zname sigs version w.done n t proper.inside h
      exact ⟨_, _, mirrors.push proper rfl, yields, by simp [Names]⟩

theorem Announced.append {w₁ w₂ : Writer} {one two : List UInt8} {h h₁ h₂ : Table} {events later : List Event}
    (first : Announced version w w₁ one h h₁ events) (second : Announced version w₁ w₂ two h₁ h₂ later) :
    Announced version w w₂ (one ++ two) h h₂ (events ++ later) where
  mirrors := second.mirrors
  yields := first.yields.append second.yields
  names := by
    intro e inside
    obtain early | late := List.mem_append.mp inside
    · exact first.names e early
    · exact second.names e late

variable (sigs version) in
/-- One round from `jackpot` on. -/
theorem jackpot_round (proper : Ring.Proper NSYM w.ring) (p : Prog) :
    ∃ sf st w' bytes,
      Ring.placeTwo NSYM Prod.fst w.ring (entry p.source.sym p.source.symkind) (entry p.dest.sym p.dest.symkind) =
        (sf, st, w'.ring) ∧
      (∀ h, Ring.Mirrors (Agrees version) w.ring h → ∃ h' events, Announced version w w' bytes h h' events) ∧
      ∀ fuel, jackpot sigs (fuel + 1) w p =
        if Ring.Evicts NSYM Prod.fst w.ring (entry p.source.sym p.source.symkind) (entry p.dest.sym p.dest.symkind) then
          (jackpot sigs fuel w' p).map fun (sf, st, w, more) => (sf, st, w, bytes ++ more)
        else some (sf, st, w', bytes) := by
  have evicts := Ring.evicts_iff Prod.fst proper (by decide) (entry p.source.sym p.source.symkind)
    (entry p.dest.sym p.dest.symkind)
  obtain ⟨index, next, -⟩ := symslot_ring sigs w p.source.sym p.source.symkind
  rcases first : symslot sigs w p.source.sym p.source.symkind with ⟨sf, w₁, one, new₁⟩
  rw [first] at index next
  obtain ⟨index', next', missing⟩ := symslot_ring sigs w₁ p.dest.sym p.dest.symkind
  rcases second : symslot sigs w₁ p.dest.sym p.dest.symkind with ⟨st, w₂, two, new⟩
  rw [second] at index' next' missing
  have slots : Ring.placeTwo NSYM Prod.fst w.ring (entry p.source.sym p.source.symkind) (entry p.dest.sym p.dest.symkind) =
      (sf, st, w₂.ring) := by
    simp only [Ring.placeTwo, ← index, ← next, ← index', ← next']
  rw [slots, ← next, ← missing] at evicts
  refine ⟨sf, st, w₂, one ++ two, slots, fun h mirrors => ?_, fun fuel => ?_⟩
  · obtain ⟨h₁, events, announced⟩ := symslot_announced sigs proper p.source.sym p.source.symkind mirrors
    rw [first] at announced
    have proper₁ : Ring.Proper NSYM w₁.ring := next ▸ proper.place (by decide) _
    obtain ⟨h₂, later, announced'⟩ := symslot_announced sigs proper₁ p.dest.sym p.dest.symkind announced.mirrors
    rw [second] at announced'
    exact ⟨h₂, events ++ later, announced.append announced'⟩
  · simp only [jackpot, first, second]
    by_cases again : Ring.Evicts NSYM Prod.fst w.ring (entry p.source.sym p.source.symkind) (entry p.dest.sym p.dest.symkind)
    · rw [if_pos again, if_pos (evicts.mpr again)]
    · rw [if_neg again, if_neg (fun seen => again (evicts.mp seen))]

/-- Both values are in their slots. -/
structure Settled (r : Ring.Slots Name (Name × Sym_kind)) (first second : Option (Name × Sym_kind)) (sf st : Nat) :
    Prop where
  proper : Ring.Proper NSYM r
  small : sf < NSYM
  small' : st < NSYM
  slot : r.slots sf = first
  slot' : r.slots st = second
  filled : Ring.Filled r sf
  filled' : Ring.Filled r st

theorem settled_of_kept {r r' : Ring.Slots Name (Name × Sym_kind)} {first second : Option (Name × Sym_kind)} {sf st : Nat}
    (proper : Ring.Proper NSYM r) (slots : Ring.placeTwo NSYM Prod.fst r first second = (sf, st, r'))
    (kept : ¬ Ring.Evicts NSYM Prod.fst r first second) : Settled r' first second sf st := by
  have wide : 2 < NSYM := by decide
  have proper' : Ring.Proper NSYM (Ring.placeTwo NSYM Prod.fst r first second).2.2 := proper.placeTwo wide first second
  have small := Ring.placeTwo_lt Prod.fst proper wide first second
  have slot := (Ring.slots_placeTwo_first Prod.fst proper wide first second).mpr kept
  have slot' := Ring.slots_placeTwo_second Prod.fst proper wide first second
  have filled := Ring.filled_first Prod.fst proper first second
  have filled' := Ring.filled_second Prod.fst proper wide first second
  rw [slots] at proper' small slot slot' filled filled'
  exact ⟨proper', small.1, small.2, slot, slot', filled, filled'⟩

variable (sigs version) in
/-- `jackpot` stops after two rounds at most, with both symbols in their slots. -/
theorem jackpot_spec (proper : Ring.Proper NSYM w.ring) (p : Prog) :
    ∃ sf st w' bytes, jackpot sigs 2 w p = some (sf, st, w', bytes) ∧
      Settled w'.ring (entry p.source.sym p.source.symkind) (entry p.dest.sym p.dest.symkind) sf st ∧
      ∀ h, Ring.Mirrors (Agrees version) w.ring h → ∃ h' events, Announced version w w' bytes h h' events := by
  obtain ⟨sf, st, w₁, one, slots, announced, round⟩ := jackpot_round sigs version proper p
  by_cases evicts : Ring.Evicts NSYM Prod.fst w.ring (entry p.source.sym p.source.symkind) (entry p.dest.sym p.dest.symkind)
  · have proper₁ : Ring.Proper NSYM w₁.ring := by
      have after : Ring.Proper NSYM (Ring.placeTwo NSYM Prod.fst w.ring (entry p.source.sym p.source.symkind)
        (entry p.dest.sym p.dest.symkind)).2.2 := proper.placeTwo (by decide) _ _
      rwa [slots] at after
    have once := Ring.evicts_once proper evicts
    rw [slots] at once
    obtain ⟨sf', st', w₂, two, slots', announced', round'⟩ := jackpot_round sigs version proper₁ p
    refine ⟨sf', st', w₂, one ++ two, ?_, settled_of_kept proper₁ slots' once, fun h mirrors => ?_⟩
    · rw [round 1, if_pos evicts, round' 0, if_neg once]
      rfl
    · obtain ⟨h₁, events, first⟩ := announced h mirrors
      obtain ⟨h₂, later, second⟩ := announced' h₁ first.mirrors
      exact ⟨h₂, events ++ later, first.append second⟩
  · exact ⟨sf, st, w₁, one, by rw [round 1, if_neg evicts], settled_of_kept proper slots evicts, announced⟩

end names

/-! Whole files. -/

def records (events : List Event) : List Record :=
  events.filterMap fun
    | .instruction r => some r
    | .name .. => none

private theorem records_append (events later : List Event) : records (events ++ later) = records events ++ records later :=
  List.filterMap_append

private theorem Names.records {events : List Event} (names : Names events) : records events = [] := by
  apply List.filterMap_eq_nil_iff.mpr
  intro e inside
  obtain ⟨k, s, sig, rfl⟩ := names e inside
  rfl

/-- The record `r` arrives for `p` with its own symbols. -/
def Delivered (version : Nat) (p : Prog) (r : Record) : Prop :=
  ArrivesRecord ((entry p.source.sym p.source.symkind).map (symbol version))
    ((entry p.dest.sym p.dest.symkind).map (symbol version)) p r

/-- The last instruction is the only `END`. -/
inductive Ended : List Prog → Prop where
  | last {p : Prog} (stop : p.as = AEND) : Ended [p]
  | cons {p : Prog} {ps : List Prog} (more : p.as ≠ AEND) (rest : Ended ps) : Ended (p :: ps)

private theorem rel_map {version : Nat} {v : Option (Name × Sym_kind)} {x : Option Sym}
    (same : Option.Rel (Agrees version) v x) : x = v.map (symbol version) := by
  cases same with
  | none => rfl
  | some agrees => exact congrArg some agrees

section files
variable {sigs : Signatures} {version : Nat}

variable (sigs) in
/-- The names for one instruction, with the linker's table in step. -/
private theorem announced_prog {w : Writer} {h : Table} (proper : Ring.Proper NSYM w.ring)
    (mirrors : Ring.Mirrors (Agrees version) w.ring h) (p : Prog) :
    ∃ sf st w' names h' events, jackpot sigs 2 w p = some (sf, st, w', names) ∧ Ring.Proper NSYM w'.ring ∧
      Announced version w w' names h h' events ∧ sf < NSYM ∧ st < NSYM ∧
      h' sf = (entry p.source.sym p.source.symkind).map (symbol version) ∧
      h' st = (entry p.dest.sym p.dest.symkind).map (symbol version) := by
  obtain ⟨sf, st, w', names, settles, settled, announce⟩ := jackpot_spec sigs version proper p
  obtain ⟨h', events, announced⟩ := announce h mirrors
  refine ⟨sf, st, w', names, h', events, settles, settled.proper, announced, settled.small, settled.small', ?_, ?_⟩
  · rw [rel_map (announced.mirrors.read settled.proper settled.filled), settled.slot]
  · rw [rel_map (announced.mirrors.read settled.proper settled.filled'), settled.slot']

theorem scan_outprogs {ps : List Prog} (ended : Ended ps) (instructions : ∀ p ∈ ps, Instruction p.as ∧ Registers p)
    {w : Writer} {h : Table} {bytes : List UInt8} (proper : Ring.Proper NSYM w.ring)
    (mirrors : Ring.Mirrors (Agrees version) w.ring h) (written : outprogs sigs w ps = some bytes) :
    ∃ events, List.Forall₂ (Delivered version) ps (records events) ∧
      ∀ fuel, bytes.length ≤ fuel → ∀ {σ : Type} (obey : σ → Event → Except Stop σ) (s : σ),
        scan obey fuel version bytes h s = events.foldlM obey s := by
  induction ended generalizing w h bytes with
  | @last p stop =>
    obtain ⟨instruction, registers⟩ := instructions p List.mem_cons_self
    obtain ⟨sf, st, w', names, h', events, settles, -, announced, small, small', atSource, atDest⟩ :=
      announced_prog sigs proper mirrors p
    simp only [outprogs, settles, Option.bind_eq_bind, Option.bind_some] at written
    obtain ⟨code, outCode, written⟩ := Option.bind_eq_some_iff.mp written
    cases written
    obtain ⟨r, arrives, reads⟩ := scan_zwrite version h' instruction registers small small' outCode
    rw [atSource, atDest] at arrives
    refine ⟨events ++ [.instruction r], ?_, fun fuel enough σ obey s => ?_⟩
    · rw [records_append, announced.names.records]
      exact .cons arrives .nil
    · rw [List.append_nil] at enough ⊢
      obtain ⟨fuel', enough', step⟩ := announced.yields code fuel enough
      have nonempty := zwrite_pos outCode
      obtain _ | fuel' := fuel'
      · omega
      rw [step, List.foldlM_append]
      congr 1
      funext s'
      have final := reads obey [] s' fuel'
      rw [List.append_nil] at final
      rw [final]
      simp only [if_pos stop, if_true, List.foldlM_cons, List.foldlM_nil]
      rfl
  | @cons p ps more rest ih =>
    obtain ⟨instruction, registers⟩ := instructions p List.mem_cons_self
    obtain ⟨sf, st, w', names, h', events, settles, proper', announced, small, small', atSource, atDest⟩ :=
      announced_prog sigs proper mirrors p
    simp only [outprogs, settles, Option.bind_eq_bind, Option.bind_some] at written
    obtain ⟨code, outCode, written⟩ := Option.bind_eq_some_iff.mp written
    obtain ⟨tail, outTail, written⟩ := Option.bind_eq_some_iff.mp written
    cases written
    obtain ⟨r, arrives, yields⟩ := yields_zwrite version h' instruction more registers small small' outCode
    rw [atSource, atDest] at arrives
    obtain ⟨later, delivered, run⟩ :=
      ih (fun p' inside => instructions p' (List.mem_cons_of_mem p inside)) proper' announced.mirrors outTail
    refine ⟨events ++ [.instruction r] ++ later, ?_, fun fuel enough σ obey s => ?_⟩
    · rw [records_append, records_append, announced.names.records]
      exact .cons arrives delivered
    · obtain ⟨fuel', enough', step⟩ := (announced.yields.append yields) tail fuel enough
      have parts : (events ++ [Event.instruction r] ++ later).foldlM obey s =
          (events ++ [Event.instruction r]).foldlM obey s >>= later.foldlM obey := List.foldlM_append
      rw [step, parts]
      congr 1
      funext s'
      exact run fuel' enough' obey s'

/-! The history comes first; its names use slot 1. -/

variable (version) in
private theorem yields_outpath (path : List Name) {h : Table} (zero : h 0 = none) :
    ∃ h' events, Yields version (outpath path) h h' events ∧ Names events ∧ h' 0 = none := by
  induction path generalizing h with
  | nil => exact ⟨h, [], .nil, by simp [Names], zero⟩
  | cons n path ih =>
    have one : Yields version (ANAME :: Sym_kind.N_FILE.code :: 1 :: ((component n).val ++ [0])) h _ _ :=
      yields_aname (component n) .N_FILE (i := 1) (by decide)
    obtain ⟨h', events, more, names, zero'⟩ :=
      ih (h := Function.update h 1 (some (symbol version (component n, .N_FILE)))) (by simpa using zero)
    refine ⟨h', _, one.append more, ?_, zero'⟩
    intro e inside
    obtain rfl | inside := List.mem_cons.mp inside
    · exact ⟨_, _, _, rfl⟩
    · exact names e inside

private theorem histprog_instruction (scond : UInt8) (x : Hist) :
    Instruction (histprog scond x).as ∧ (histprog scond x).as ≠ AEND ∧ Registers (histprog scond x) := by
  have history : Instruction AHISTORY ∧ AHISTORY ≠ AEND := ⟨⟨by decide, by decide, by decide, by decide⟩, by decide⟩
  have register : (UInt8.ofNat NREG).toNat ≤ NREG := by decide
  exact ⟨history.1, history.2, register, register⟩

variable (version) in
theorem yields_outhist (scond : UInt8) {hist : List Hist} {bytes : List UInt8} (written : outhist scond hist = some bytes)
    {h : Table} (zero : h 0 = none) :
    ∃ h' events, Yields version bytes h h' events ∧ h' 0 = none ∧
      List.Forall₂ (Delivered version) (hist.map (histprog scond)) (records events) := by
  induction hist generalizing bytes h with
  | nil =>
    cases written
    exact ⟨h, [], .nil, zero, .nil⟩
  | cons x hist ih =>
    obtain ⟨code, outCode, written⟩ := Option.bind_eq_some_iff.mp written
    obtain ⟨tail, outTail, written⟩ := Option.bind_eq_some_iff.mp written
    cases written
    obtain ⟨h₁, names, first, only, zero₁⟩ := yields_outpath version x.path zero
    obtain ⟨instruction, more, registers⟩ := histprog_instruction scond x
    obtain ⟨r, arrives, second⟩ := yields_zwrite version h₁ instruction more registers (by decide) (by decide) outCode
    rw [zero₁] at arrives
    obtain ⟨h₂, later, third, zero₂, delivered⟩ := ih outTail zero₁
    refine ⟨h₂, names ++ [.instruction r] ++ later, (first.append second).append third, zero₂, ?_⟩
    rw [records_append, records_append, only.records]
    exact .cons arrives delivered

end files

/-! When the records say what the instructions said. -/

/-- The value is the field that the type selects. -/
def Carries (a : Adr) (v : Value) : Prop :=
  match a.type with
  | .D_NONE | .D_REG | .D_FREG | .D_PSR => v = .none
  | .D_OREG | .D_CONST | .D_ADDR | .D_BRANCH | .D_SHIFT => v = .offset a.offset.toInt
  | .D_SCONST => v = .sval a.sval.val
  | .D_FCONST => ∃ e, v = .ieee e ∧ e.double = a.dval
  | _ => False

/-- A floating constant that `ieeedtod` can write. -/
def Fits (a : Adr) : Prop := a.type = .D_FCONST → Proofs.Ieee.Plain a.dval

instance (a : Adr) : Decidable (Fits a) := inferInstanceAs (Decidable (_ → _))

/-- A type that `zaddr` writes without a diagnostic. -/
def Known (a : Adr) : Prop := a.type ≠ .D_FPCR ∧ a.type ≠ .D_REGREG

theorem carries_iff {a : Adr} {v : Value} (arrives : received a = some v) : Carries a v ↔ Fits a := by
  unfold received at arrives
  unfold Carries Fits
  cases type : a.type <;> simp only [type] at arrives ⊢
  case D_FCONST =>
    rw [← Proofs.Ieee.ieeedtod_iff]
    obtain ⟨e, encoded, rfl⟩ := Option.map_eq_some_iff.mp arrives
    simp [encoded]
  all_goals cases arrives
  all_goals simp

/-- The operand arrives as it was, up to the type of an address. -/
structure Same (version : Nat) (a : Adr) (o : Operand) : Prop where
  type : o.type = arriving a
  reg : o.reg = a.reg
  sym : o.sym = (entry a.sym a.symkind).map (symbol version)
  symkind : o.symkind = a.symkind.code
  value : Carries a o.value

structure SameRecord (version : Nat) (p : Prog) (r : Record) : Prop where
  as : r.as = p.as
  scond : r.scond = p.scond
  reg : r.reg = p.reg
  line : r.line = int32 p.lineno.toInt
  source : Same version p.source r.source
  dest : Same version p.dest r.dest

theorem Delivered.same_iff {version : Nat} {p : Prog} {r : Record} (delivered : Delivered version p r) :
    SameRecord version p r ↔ Fits p.source ∧ Fits p.dest := by
  obtain ⟨as, scond, reg, line, source, dest⟩ := delivered
  constructor
  · intro same
    exact ⟨(carries_iff source.value).mp same.source.value, (carries_iff dest.value).mp same.dest.value⟩
  · rintro ⟨fitsSource, fitsDest⟩
    exact ⟨as, scond, reg, line,
      ⟨source.type, source.reg, source.sym, source.symkind, (carries_iff source.value).mpr fitsSource⟩,
      ⟨dest.type, dest.reg, dest.sym, dest.symkind, (carries_iff dest.value).mpr fitsDest⟩⟩

theorem forall_same_iff {version : Nat} {ps : List Prog} {rs : List Record}
    (delivered : List.Forall₂ (Delivered version) ps rs) :
    List.Forall₂ (SameRecord version) ps rs ↔ ∀ p ∈ ps, Fits p.source ∧ Fits p.dest := by
  induction delivered with
  | nil => simp
  | cons first rest ih => rw [List.forall₂_cons, first.same_iff, ih, List.forall_mem_cons]

/-- What `ldobj` does with names and instructions is done with the history and the instructions of the compiler. -/
def Delivers (sigs : Signatures) (scond : UInt8) (hist : List Hist) (version : Nat) (ps : List Prog) : Prop :=
  ∃ bytes events, outcode sigs scond hist ps = some bytes ∧
    List.Forall₂ (SameRecord (version + 1)) (hist.map (histprog scond) ++ ps) (records events) ∧
    ∀ {σ : Type} (obey : σ → Event → Except Stop σ) (s : σ), ldobj obey version bytes s = events.foldlM obey s

/-- Collects the events. -/
def note (seen : List Event) (e : Event) : Except Stop (List Event) := .ok (seen ++ [e])

private theorem foldlM_note (events seen : List Event) : events.foldlM note seen = .ok (seen ++ events) := by
  induction events generalizing seen with
  | nil => simp [pure, Except.pure]
  | cons e events ih => exact (ih (seen ++ [e])).trans (by simp)

private theorem zaddr_some {a : Adr} (known : Known a) (fits : Fits a) (i : Nat) : ∃ bytes, zaddr a i = some bytes := by
  have value : ∃ bytes, zvalue a = some bytes := by
    unfold Known at known
    unfold Fits at fits
    unfold zvalue
    cases type : a.type <;> simp only [type] at known fits ⊢
    case D_FCONST =>
      obtain ⟨e, encoded, -⟩ := (Proofs.Ieee.ieeedtod_iff a.dval).mpr (fits trivial)
      exact ⟨_, by rw [encoded]; rfl⟩
    case D_FPCR => exact absurd rfl known.1
    case D_REGREG => exact absurd rfl known.2
    all_goals exact ⟨_, rfl⟩
  obtain ⟨bytes, value⟩ := value
  exact ⟨_, by rw [zaddr, value]; rfl⟩

private theorem zwrite_some {p : Prog} (known : Known p.source ∧ Known p.dest) (fits : Fits p.source ∧ Fits p.dest)
    (sf st : Nat) : ∃ bytes, zwrite p sf st = some bytes := by
  obtain ⟨source, outSource⟩ := zaddr_some known.1 fits.1 sf
  obtain ⟨dest, outDest⟩ := zaddr_some known.2 fits.2 st
  exact ⟨_, by rw [zwrite, outSource, outDest]; rfl⟩

private theorem outprogs_some (sigs : Signatures) {ps : List Prog} (known : ∀ p ∈ ps, Known p.source ∧ Known p.dest)
    (fits : ∀ p ∈ ps, Fits p.source ∧ Fits p.dest) {w : Writer} (proper : Ring.Proper NSYM w.ring) :
    ∃ bytes, outprogs sigs w ps = some bytes := by
  induction ps generalizing w with
  | nil => exact ⟨[], rfl⟩
  | cons p ps ih =>
    obtain ⟨knownHead, knownRest⟩ := List.forall_mem_cons.mp known
    obtain ⟨fitsHead, fitsRest⟩ := List.forall_mem_cons.mp fits
    obtain ⟨sf, st, w', names, settles, settled, -⟩ := jackpot_spec sigs 0 proper p
    obtain ⟨code, outCode⟩ := zwrite_some knownHead fitsHead sf st
    obtain ⟨more, outMore⟩ := ih knownRest fitsRest settled.proper
    exact ⟨names ++ code ++ more, by simp [outprogs, settles, outCode, outMore]⟩

private theorem histprog_fits (scond : UInt8) (x : Hist) :
    (Known (histprog scond x).source ∧ Known (histprog scond x).dest) ∧
      (Fits (histprog scond x).source ∧ Fits (histprog scond x).dest) := by
  have dest : (histprog scond x).dest.type = .D_CONST ∨ (histprog scond x).dest.type = .D_NONE := by
    unfold histprog
    by_cases zero : x.offset = 0
    · exact .inr (by simp [zero])
    · exact .inl (by simp [zero])
  have source : (histprog scond x).source.type = .D_NONE := rfl
  unfold Known Fits
  rw [source]
  obtain type | type := dest
  · rw [type]
    simp
  · rw [type]
    simp

private theorem outhist_some (scond : UInt8) (hist : List Hist) : ∃ bytes, outhist scond hist = some bytes := by
  induction hist with
  | nil => exact ⟨[], rfl⟩
  | cons x hist ih =>
    obtain ⟨known, fits⟩ := histprog_fits scond x
    obtain ⟨code, outCode⟩ := zwrite_some known fits 0 0
    obtain ⟨more, outMore⟩ := ih
    exact ⟨outpath x.path ++ code ++ more, by simp [outhist, outCode, outMore]⟩

/-- 5l sees the records of a file that 5c wrote. -/
theorem ldobj_outcode (sigs : Signatures) (scond : UInt8) (hist : List Hist) (version : Nat) {ps : List Prog}
    (ended : Ended ps) (instructions : ∀ p ∈ ps, Instruction p.as ∧ Registers p) {bytes : List UInt8}
    (written : outcode sigs scond hist ps = some bytes) :
    ∃ events, List.Forall₂ (Delivered (version + 1)) (hist.map (histprog scond) ++ ps) (records events) ∧
      ∀ {σ : Type} (obey : σ → Event → Except Stop σ) (s : σ), ldobj obey version bytes s = events.foldlM obey s := by
  obtain ⟨history, outHistory, written⟩ := Option.bind_eq_some_iff.mp written
  obtain ⟨code, outCode, written⟩ := Option.bind_eq_some_iff.mp written
  cases written
  obtain ⟨h, events, yields, zero, delivered⟩ :=
    yields_outhist (version + 1) scond outHistory (h := fun _ => none) rfl
  obtain ⟨later, delivered', run⟩ := scan_outprogs ended instructions (Ring.proper_empty (by decide))
    (Ring.mirrors_empty (Agrees (version + 1)) zero) outCode
  refine ⟨events ++ later, ?_, fun obey s => ?_⟩
  · rw [records_append]
    exact List.rel_append delivered delivered'
  · obtain ⟨fuel, enough, step⟩ := yields code _ (Nat.le_refl _)
    rw [ldobj, step, List.foldlM_append]
    congr 1
    funext s'
    exact run fuel enough obey s'

theorem outcode_ldobj_iff (sigs : Signatures) (scond : UInt8) (hist : List Hist) (version : Nat) (ps : List Prog)
    (ended : Ended ps) (instructions : ∀ p ∈ ps, Instruction p.as ∧ Registers p)
    (known : ∀ p ∈ ps, Known p.source ∧ Known p.dest) :
    Delivers sigs scond hist version ps ↔ ∀ p ∈ ps, Fits p.source ∧ Fits p.dest := by
  constructor
  · rintro ⟨bytes, events, written, same, reads⟩
    obtain ⟨events', delivered, run⟩ := ldobj_outcode sigs scond hist version ended instructions written
    have equal : events = events' := by
      have both := (reads note []).symm.trans (run note [])
      rw [foldlM_note, foldlM_note] at both
      exact Except.ok.inj both
    rw [equal] at same
    exact fun p inside => (forall_same_iff delivered).mp same p (List.mem_append_right _ inside)
  · intro fits
    obtain ⟨history, outHistory⟩ := outhist_some scond hist
    obtain ⟨code, outCode⟩ := outprogs_some sigs (w := Writer.empty) known fits (Ring.proper_empty (by decide))
    have written : outcode sigs scond hist ps = some (history ++ code) := by simp [outcode, outHistory, outCode]
    obtain ⟨events, delivered, run⟩ := ldobj_outcode sigs scond hist version ended instructions written
    refine ⟨_, events, written, (forall_same_iff delivered).mpr fun p inside => ?_, run⟩
    obtain early | late := List.mem_append.mp inside
    · obtain ⟨x, -, rfl⟩ := List.mem_map.mp early
      exact (histprog_fits scond x).2
    · exact fits p late

/-- `MOVD $d, F0`. -/
def movd (d : Double) : Prog :=
  ⟨65, 14, .ofNat NREG, 1, { zprogAdr with type := .D_FCONST, dval := d }, { zprogAdr with type := .D_FREG, reg := 0 }⟩

/-- `DATA p(SB)/4, $x(SB)`. -/
def address : Prog :=
  ⟨80, 14, 4, 1, { zprogAdr with type := .D_OREG, sym := some ⟨[112], by decide⟩, symkind := .N_EXTERN },
    { zprogAdr with type := .D_CONST, sym := some ⟨[120], by decide⟩, symkind := .N_EXTERN }⟩

def aend : Prog := ⟨AEND, 14, .ofNat NREG, 1, zprogAdr, zprogAdr⟩

def noSignatures : Signatures := ⟨false, fun _ => false, fun _ => 0⟩

private theorem movd_domain (d : Double) :
    Ended [movd d, aend] ∧ (∀ p ∈ [movd d, aend], Instruction p.as ∧ Registers p) ∧
      ∀ p ∈ [movd d, aend], Known p.source ∧ Known p.dest := by
  have move : (65 : UInt8) ≠ AEND ∧ Instruction 65 := ⟨by decide, by decide, by decide, by decide, by decide⟩
  have stop : Instruction AEND := ⟨by decide, by decide, by decide, by decide⟩
  have register : (UInt8.ofNat NREG).toNat ≤ NREG ∧ (0 : UInt8).toNat ≤ NREG := by decide
  refine ⟨.cons move.1 (.last rfl), ?_, ?_⟩
  · simp only [List.forall_mem_cons, List.not_mem_nil, false_imp_iff, implies_true, and_true]
    exact ⟨⟨move.2, register.1, register.2⟩, stop, register.1, register.1⟩
  · simp only [List.forall_mem_cons, List.not_mem_nil, false_imp_iff, implies_true, and_true]
    exact ⟨⟨⟨nofun, nofun⟩, ⟨nofun, nofun⟩⟩, ⟨⟨nofun, nofun⟩, ⟨nofun, nofun⟩⟩⟩

private theorem address_domain : address.as ≠ AEND ∧ (Instruction address.as ∧ Registers address) ∧
    Known address.source ∧ Known address.dest :=
  ⟨by decide, ⟨⟨by decide, by decide, by decide, by decide⟩, by decide, by decide⟩, ⟨nofun, nofun⟩, nofun, nofun⟩

/-- The address of one symbol in another, and the constant 1.0. -/
theorem address_delivered : Delivers noSignatures 14 [] 0 [address, movd 0x3ff0000000000000, aend] := by
  obtain ⟨ended, instructions, known⟩ := movd_domain 0x3ff0000000000000
  obtain ⟨more, instruction, operands⟩ := address_domain
  refine (outcode_ldobj_iff noSignatures 14 [] 0 _ (.cons more ended) (List.forall_mem_cons.mpr ⟨instruction, instructions⟩)
    (List.forall_mem_cons.mpr ⟨operands, known⟩)).mpr ?_
  simp only [List.forall_mem_cons, List.not_mem_nil, false_imp_iff, implies_true, and_true]
  exact ⟨⟨nofun, nofun⟩, ⟨fun _ => by decide, nofun⟩, nofun, nofun⟩

/-- The constant -0.0 loses its sign. -/
theorem negative_zero_changed : ¬ Delivers noSignatures 14 [] 0 [movd 0x8000000000000000, aend] := by
  obtain ⟨ended, instructions, known⟩ := movd_domain 0x8000000000000000
  rw [outcode_ldobj_iff noSignatures 14 [] 0 _ ended instructions known]
  intro fits
  exact absurd ((fits _ List.mem_cons_self).1 rfl) (by decide)

end Goken.Proofs.ArmObj
