import Goken.Lib.Bits
import Goken.Proofs.Ieee
import Goken.WasmObj

/-! What el reads of the files that ec writes. Every record arrives; its
operands carry the names that the writer's slots hold when the record is
written, which are the operands' own names unless the second operand has taken
the slot of the first. -/

namespace Goken.Proofs.WasmObj
open Goken Lib WasmObj

/-! Operands. -/

theorem get4_put4 (l : Int) (rest : List UInt8) : Bytes.get4 Stop.fault (Bytes.put4 l ++ rest) = .ok (int32 l, rest) :=
  Bytes.get4_put4 _ l rest

/-- What arrives of the field that the type selects. -/
def received (a : Adr) : Option Value :=
  match a.type with
  | .D_NONE | .D_LOCAL | .D_GLOBAL | .D_BRANCH | .D_OREG | .D_CONST =>
    some (.offset (Int64.ofInt (int32 a.offset.toInt)))
  | .D_VCONST => some (.vval a.vval)
  | .D_SCONST => some (.sval a.sval.val)
  | .D_FCONST => (ieeedtod a.dval).map fun e => .dval e.double
  | _ => none

private theorem int64_join (v : Int64) :
    Int64.ofInt ((Bytes.split 8 v.toInt).foldr (fun b v => v <<< 8 ||| b.toNat) 0 : Nat) = v := by
  have eight : (256 : Int) ^ 8 = (Int64.size : Nat) := by norm_num
  apply Int64.toInt.inj
  rw [Bytes.foldr_shift, Bytes.join_split, eight, Int64.toInt_ofInt, Int.emod_bmod, ← Int64.toInt_ofInt, Int64.ofInt_toInt]

private theorem ofInt_toInt (b : BitVec 32) : BitVec.ofInt 32 (int32 b.toInt) = b := by
  rw [ofInt_int32, BitVec.ofInt_toInt]

theorem inval_outval {a : Adr} {bytes : List UInt8} (written : outval a = some bytes) :
    ∃ v, received a = some v ∧ ∀ rest, inval a.type (bytes ++ rest) = .ok (v, rest) := by
  unfold outval at written
  unfold received inval
  generalize a.type = type at written ⊢
  split at written
  case h_7 =>
    cases written
    refine ⟨_, rfl, fun rest => ?_⟩
    simp only [Bytes.take_append _ (Bytes.split_length 8 _), int64_join, bind, Except.bind, pure, Except.pure]
  case h_8 =>
    cases written
    refine ⟨_, rfl, fun rest => ?_⟩
    simp only [Bytes.take_append _ a.sval.property, bind, Except.bind, pure, Except.pure]
  case h_9 =>
    obtain ⟨e, encoded, bytesEq⟩ := Option.bind_eq_some_iff.mp written
    cases bytesEq
    refine ⟨.dval e.double, by rw [encoded]; rfl, fun rest => ?_⟩
    simp only [List.append_assoc, get4_put4, ofInt_toInt, bind, Except.bind, pure, Except.pure]
  case h_10 => cases written
  all_goals
    cases written
    refine ⟨_, rfl, fun rest => ?_⟩
    simp only [get4_put4, bind, Except.bind, pure, Except.pure]

private theorem all_code (d : D) : D.all[d.code.toNat]? = some d := by
  cases d <;> rfl

private theorem index_toNat {i : Nat} (small : i < NSYM) : (UInt8.ofNat i).toNat = i := by
  rw [UInt8.toNat_ofNat', Nat.mod_eq_of_lt (Nat.lt_trans small (by decide))]

theorem inopd_outopd {a : Adr} {i : Nat} {bytes : List UInt8} (small : i < NSYM) (written : outopd a i = some bytes) :
    ∃ v, received a = some v ∧ ∀ h rest, inopd (bytes ++ rest) h = .ok (⟨a.type, a.name.code, h i, v⟩, rest) := by
  obtain ⟨val, outval, bytesEq⟩ := Option.bind_eq_some_iff.mp written
  cases bytesEq
  obtain ⟨v, arrives, reads⟩ := inval_outval outval
  have index := index_toNat small
  refine ⟨v, arrives, fun h rest => ?_⟩
  simp only [List.cons_append, inopd, all_code, reads, index, if_neg (Nat.not_le.mpr small), bind, Except.bind, pure,
    Except.pure]

/-! Names. -/

theorem symidx_of_symopt_eq (w : Writer) (sym : Option Name) (name : D) :
    (symidx_of_symopt w sym name).1 = (Ring.place NSYM id w sym).1 ∧
      (symidx_of_symopt w sym name).2.1 = (Ring.place NSYM id w sym).2 := by
  cases sym with
  | none => exact ⟨rfl, rfl⟩
  | some s =>
    by_cases held : Ring.Held NSYM id w s
    · have same : w.slots (Ring.seek NSYM id w s) = some s := held
      simp only [symidx_of_symopt, Ring.place, if_pos held, same, ne_eq, not_true_eq_false, if_false, and_self]
    · have differs : w.slots (Ring.seek NSYM id w s) ≠ some s := held
      simp only [symidx_of_symopt, Ring.place, if_neg held, ne_eq, differs, not_false_eq_true, if_true, and_self]

/-- The reader's symbol has the writer's name. -/
def Named (n : Name) (s : Sym) : Prop := s.name = n

section run
variable (version : Nat)

theorem scan_zname {σ : Type} (obey : σ → Record → Except Stop (Next σ)) (n : Name) (name : D) {i : Nat} (small : i < NSYM)
    (rest : List UInt8) (h : Table) (s : σ) (fuel : Nat) :
    scan obey version (fuel + 1) (zname n name i ++ rest) h s =
      scan obey version fuel rest
        (Function.update h i (some ⟨n, if name.code = D.D_STATIC.code then version else 0⟩)) s := by
  have index := index_toNat small
  have valid : ¬ (ANAME ≤ AXXX ∨ ANAME ≥ ALAST) := by decide
  simp only [zname, List.cons_append, List.append_assoc, List.nil_append, scan, if_neg valid, if_true, Bytes.cstring_append,
    index, if_pos small]

/-- Reading the announcement, if there is one, keeps the tables in step. -/
theorem scan_announcement {w : Writer} {h : Table} (proper : Ring.Proper NSYM w) (mirrors : Ring.Mirrors Named w h)
    (sym : Option Name) (name : D) :
    ∃ h', Ring.Mirrors Named (Ring.place NSYM id w sym).2 h' ∧
      ∀ {σ : Type} (obey : σ → Record → Except Stop (Next σ)) (rest : List UInt8) (s : σ) (fuel : Nat),
        ((symidx_of_symopt w sym name).2.2 ++ rest).length ≤ fuel →
        ∃ fuel', rest.length ≤ fuel' ∧
          scan obey version fuel ((symidx_of_symopt w sym name).2.2 ++ rest) h s = scan obey version fuel' rest h' s := by
  cases sym with
  | none => exact ⟨h, mirrors, fun obey rest s fuel enough => ⟨fuel, enough, rfl⟩⟩
  | some n =>
    by_cases held : Ring.Held NSYM id w n
    · have same : w.slots (Ring.seek NSYM id w n) = some n := held
      simp only [symidx_of_symopt, Ring.place, if_pos held, same, ne_eq, not_true_eq_false, if_false]
      exact ⟨h, mirrors, fun obey rest s fuel enough => ⟨fuel, enough, rfl⟩⟩
    · have differs : w.slots (Ring.seek NSYM id w n) ≠ some n := held
      simp only [symidx_of_symopt, Ring.place, if_neg held, ne_eq, differs, not_false_eq_true, if_true]
      refine ⟨_, mirrors.push proper (x := ⟨n, if name.code = D.D_STATIC.code then version else 0⟩) rfl,
        fun obey rest s fuel enough => ?_⟩
      obtain _ | fuel := fuel
      · simp [zname] at enough
      · refine ⟨fuel, ?_, scan_zname version obey n name proper.inside rest h s fuel⟩
        simp [zname] at enough
        omega

/-- The operand `o` is what the reader makes of `a` when the slot holds `n`. -/
structure Arrives (n : Option Name) (a : Adr) (o : Operand) : Prop where
  type : o.type = a.type
  name : o.name = a.name.code
  sym : o.sym.map Sym.name = n
  value : received a = some o.value

/-- The records that arrive, with the names the slots hold. -/
inductive Decodes : Writer → List Prog → List Record → Prop where
  | nil (w : Writer) : Decodes w [] []
  | cons {w w' : Writer} {i j : Nat} {q : Prog} {r : Record} {ps : List Prog} {rs : List Record}
      (slots : Ring.placeTwo NSYM id w q.source.sym q.dest.sym = (i, j, w'))
      (as : r.as = q.as) (reg : r.reg = q.reg)
      (source : Arrives (w'.slots i) q.source r.source) (dest : Arrives (w'.slots j) q.dest r.dest)
      (rest : Decodes w' ps rs) : Decodes w (q :: ps) (r :: rs)

def resume {σ : Type} (next : Except Stop (Next σ)) (loop : σ → Except Stop σ) : Except Stop σ := do
  match ← next with
  | .finish s => .ok s
  | .loop s => loop s

/-- The switch over opcodes on the records alone. -/
def feed {σ : Type} (obey : σ → Record → Except Stop (Next σ)) : List Record → σ → Except Stop σ
  | [], s => .ok s
  | r :: rs, s => resume (obey s r) (feed obey rs)

/-- An opcode of an instruction. -/
def Instruction (as : UInt8) : Prop := AXXX < as ∧ as < ALAST ∧ as ≠ ANAME

private theorem rel_map {n : Option Name} {s : Option Sym} (same : Option.Rel Named n s) : s.map Sym.name = n := by
  cases same with
  | none => rfl
  | some named => exact congrArg some named

theorem scan_record {σ : Type} (obey : σ → Record → Except Stop (Next σ)) {as : UInt8} (instruction : Instruction as)
    (reg : UInt8) (line : Int) {source dest : List UInt8} {h : Table} {a b : Operand}
    (readSource : ∀ rest, inopd (source ++ rest) h = .ok (a, rest)) (readDest : ∀ rest, inopd (dest ++ rest) h = .ok (b, rest))
    (rest : List UInt8) (s : σ) (fuel : Nat) :
    scan obey version (fuel + 1) ((as :: reg :: Bytes.put4 line) ++ source ++ dest ++ rest) h s =
      resume (obey s ⟨as, reg, a, b⟩) (scan obey version fuel rest h) := by
  obtain ⟨low, high, notName⟩ := instruction
  have valid : ¬ (as ≤ AXXX ∨ as ≥ ALAST) := not_or.mpr ⟨UInt8.not_le.mpr low, UInt8.not_le.mpr high⟩
  have whole : (as :: reg :: Bytes.put4 line) ++ source ++ dest ++ rest =
      as :: reg :: (Bytes.put4 line ++ (source ++ (dest ++ rest))) := by simp
  rw [whole]
  cases obeyed : obey s ⟨as, reg, a, b⟩ with
  | error e => simp only [scan, if_neg valid, if_neg notName, get4_put4, readSource, readDest, bind, Except.bind, resume, obeyed]
  | ok next =>
    cases next <;>
      simp only [scan, if_neg valid, if_neg notName, get4_put4, readSource, readDest, bind, Except.bind, resume, obeyed]

theorem scan_prog {w : Writer} {h : Table} {q : Prog} {w' : Writer} {bytes : List UInt8} (proper : Ring.Proper NSYM w)
    (mirrors : Ring.Mirrors Named w h) (instruction : Instruction q.as) (written : outprog w q = some (w', bytes)) :
    ∃ i j r h', Ring.placeTwo NSYM id w q.source.sym q.dest.sym = (i, j, w') ∧ r.as = q.as ∧ r.reg = q.reg ∧
      Arrives (w'.slots i) q.source r.source ∧ Arrives (w'.slots j) q.dest r.dest ∧ Ring.Mirrors Named w' h' ∧
      ∀ {σ : Type} (obey : σ → Record → Except Stop (Next σ)) (rest : List UInt8) (s : σ) (fuel : Nat),
        (bytes ++ rest).length ≤ fuel →
        ∃ fuel', rest.length ≤ fuel' ∧
          scan obey version fuel (bytes ++ rest) h s = resume (obey s r) (scan obey version fuel' rest h') := by
  obtain ⟨index, next⟩ := symidx_of_symopt_eq w q.source.sym q.source.name
  obtain ⟨h₁, mirrors₁, announced⟩ := scan_announcement version proper mirrors q.source.sym q.source.name
  have proper₁ : Ring.Proper NSYM (Ring.place NSYM id w q.source.sym).2 := proper.place (by decide) _
  have small : (Ring.place NSYM id w q.source.sym).1 < NSYM := Ring.place_lt proper _
  unfold outprog at written
  rcases first : symidx_of_symopt w q.source.sym q.source.name with ⟨sf, w₁, one⟩
  simp only [first] at written index next announced
  rw [← next] at proper₁ mirrors₁
  obtain ⟨index', next'⟩ := symidx_of_symopt_eq w₁ q.dest.sym q.dest.name
  obtain ⟨h₂, mirrors₂, announced'⟩ := scan_announcement version proper₁ mirrors₁ q.dest.sym q.dest.name
  have small' : (Ring.place NSYM id w₁ q.dest.sym).1 < NSYM := Ring.place_lt proper₁ _
  rcases second : symidx_of_symopt w₁ q.dest.sym q.dest.name with ⟨st, w₂, two⟩
  simp only [second] at written index' next' announced'
  rw [← next'] at mirrors₂
  obtain ⟨source, outSource, written⟩ := Option.bind_eq_some_iff.mp written
  obtain ⟨dest, outDest, written⟩ := Option.bind_eq_some_iff.mp written
  cases written
  obtain ⟨v, arrives, reads⟩ := inopd_outopd (index ▸ small) outSource
  obtain ⟨v', arrives', reads'⟩ := inopd_outopd (index' ▸ small') outDest
  have slots : Ring.placeTwo NSYM id w q.source.sym q.dest.sym = (sf, st, w') := by
    simp only [Ring.placeTwo, ← index, ← next, ← index', ← next']
  have proper₂ : Ring.Proper NSYM w' := by
    have after : Ring.Proper NSYM (Ring.placeTwo NSYM id w q.source.sym q.dest.sym).2.2 := proper.placeTwo (by decide) _ _
    rwa [slots] at after
  have filled := Ring.filled_first id proper q.source.sym q.dest.sym
  have filled' := Ring.filled_second id proper (by decide) q.source.sym q.dest.sym
  rw [slots] at filled filled'
  refine ⟨sf, st, ⟨q.as, q.reg, ⟨q.source.type, q.source.name.code, h₂ sf, v⟩, ⟨q.dest.type, q.dest.name.code, h₂ st, v'⟩⟩,
    h₂, slots, rfl, rfl, ⟨rfl, rfl, rel_map (mirrors₂.read proper₂ filled), arrives⟩,
    ⟨rfl, rfl, rel_map (mirrors₂.read proper₂ filled'), arrives'⟩, mirrors₂, fun obey rest s fuel enough => ?_⟩
  have order : one ++ two ++ (q.as :: q.reg :: Bytes.put4 q.lineno.toInt) ++ source ++ dest ++ rest =
      one ++ (two ++ ((q.as :: q.reg :: Bytes.put4 q.lineno.toInt) ++ source ++ dest ++ rest)) := by simp
  rw [order] at enough ⊢
  obtain ⟨fuel₁, enough₁, step₁⟩ := announced obey _ s fuel enough
  obtain ⟨fuel₂, enough₂, step₂⟩ := announced' obey _ s fuel₁ enough₁
  obtain _ | fuel₂ := fuel₂
  · simp at enough₂
  · refine ⟨fuel₂, ?_, ?_⟩
    · simp at enough₂
      omega
    · rw [step₁, step₂]
      exact scan_record version obey instruction q.reg _ (reads h₂) (reads' h₂) rest s fuel₂

/-- el sees every record of a file that ec wrote. -/
theorem scan_outprogs {ps : List Prog} (instructions : ∀ q ∈ ps, Instruction q.as) {w : Writer} {h : Table}
    {bytes : List UInt8} (proper : Ring.Proper NSYM w) (mirrors : Ring.Mirrors Named w h)
    (written : outprogs w ps = some bytes) :
    ∃ rs, Decodes w ps rs ∧
      ∀ {σ : Type} (obey : σ → Record → Except Stop (Next σ)) (s : σ) (fuel : Nat), bytes.length ≤ fuel →
        scan obey version fuel bytes h s = feed obey rs s := by
  induction ps generalizing w h bytes with
  | nil =>
    cases written
    refine ⟨[], .nil w, fun obey s fuel _ => ?_⟩
    cases fuel <;> rfl
  | cons q ps ih =>
    obtain ⟨⟨w', first⟩, outFirst, written⟩ := Option.bind_eq_some_iff.mp written
    obtain ⟨more, outMore, written⟩ := Option.bind_eq_some_iff.mp written
    cases written
    obtain ⟨i, j, r, h', slots, as, reg, source, dest, mirrors', reads⟩ :=
      scan_prog version proper mirrors (instructions q List.mem_cons_self) outFirst
    have proper' : Ring.Proper NSYM w' := by
      have after : Ring.Proper NSYM (Ring.placeTwo NSYM id w q.source.sym q.dest.sym).2.2 :=
        proper.placeTwo (by decide) _ _
      rwa [slots] at after
    obtain ⟨rs, decodes, run⟩ := ih (fun q' inside => instructions q' (List.mem_cons_of_mem q inside)) proper' mirrors' outMore
    refine ⟨r :: rs, .cons slots as reg source dest decodes, fun obey s fuel enough => ?_⟩
    obtain ⟨fuel', enough', step⟩ := reads obey more s fuel enough
    rw [step, feed]
    congr 1
    funext s'
    exact run obey s' fuel' enough'

end run

/-! When the records say what the instructions said. -/

/-- The field that the type selects. -/
def selected (a : Adr) : Option Value :=
  match a.type with
  | .D_NONE | .D_LOCAL | .D_GLOBAL | .D_BRANCH | .D_OREG | .D_CONST => some (.offset a.offset)
  | .D_VCONST => some (.vval a.vval)
  | .D_SCONST => some (.sval a.sval.val)
  | .D_FCONST => some (.dval a.dval)
  | _ => none

/-- A type that `outopd` writes without a diagnostic. -/
def Known (a : Adr) : Prop := (selected a).isSome

/-- The field fits the bytes it is given. -/
def Fits (a : Adr) : Prop :=
  match a.type with
  | .D_NONE | .D_LOCAL | .D_GLOBAL | .D_BRANCH | .D_OREG | .D_CONST => -2 ^ 31 ≤ a.offset.toInt ∧ a.offset.toInt < 2 ^ 31
  | .D_FCONST => Proofs.Ieee.Plain a.dval
  | _ => True

instance (a : Adr) : Decidable (Fits a) := by
  unfold Fits
  split <;> infer_instance

private theorem offset_fits (l : Int64) : Int64.ofInt (int32 l.toInt) = l ↔ -2 ^ 31 ≤ l.toInt ∧ l.toInt < 2 ^ 31 := by
  have bounds := int32_bounds l.toInt
  have back : (Int64.ofInt (int32 l.toInt)).toInt = int32 l.toInt := Int64.toInt_ofInt_of_le (by omega) (by omega)
  constructor
  · intro same
    rw [same] at back
    omega
  · intro fits
    apply Int64.toInt.inj
    rw [back, int32_eq_emod]
    omega

theorem received_iff (a : Adr) : received a = selected a ↔ Fits a := by
  unfold received selected Fits
  cases type : a.type <;> simp only
  case D_FCONST =>
    rw [← Proofs.Ieee.ieeedtod_iff]
    cases ieeedtod a.dval <;> simp
  case D_NONE | D_LOCAL | D_GLOBAL | D_BRANCH | D_OREG | D_CONST =>
    simp only [Option.some.injEq, Value.offset.injEq, offset_fits]

/-- The operand arrives as it was. -/
structure Same (a : Adr) (o : Operand) : Prop where
  type : o.type = a.type
  name : o.name = a.name.code
  sym : o.sym.map Sym.name = a.sym
  value : selected a = some o.value

theorem Arrives.same_iff {n : Option Name} {a : Adr} {o : Operand} (arrives : Arrives n a o) :
    Same a o ↔ n = a.sym ∧ Fits a := by
  rw [← received_iff, arrives.value]
  constructor
  · intro same
    exact ⟨arrives.sym.symm.trans same.sym, same.value.symm⟩
  · rintro ⟨name, value⟩
    exact ⟨arrives.type, arrives.name, arrives.sym.trans name, value.symm⟩

structure SameRecord (q : Prog) (r : Record) : Prop where
  as : r.as = q.as
  reg : r.reg = q.reg
  source : Same q.source r.source
  dest : Same q.dest r.dest

/-- No instruction's second symbol takes the slot of its first. -/
def Kept : Writer → List Prog → Prop
  | _, [] => True
  | w, q :: ps =>
    ¬ Ring.Evicts NSYM id w q.source.sym q.dest.sym ∧ Kept (Ring.placeTwo NSYM id w q.source.sym q.dest.sym).2.2 ps

instance Kept.decidable : (w : Writer) → (ps : List Prog) → Decidable (Kept w ps)
  | _, [] => inferInstanceAs (Decidable True)
  | w, q :: ps =>
    have := Kept.decidable (Ring.placeTwo NSYM id w q.source.sym q.dest.sym).2.2 ps
    inferInstanceAs (Decidable (¬ Ring.Evicts NSYM id w q.source.sym q.dest.sym ∧
      Kept (Ring.placeTwo NSYM id w q.source.sym q.dest.sym).2.2 ps))

theorem same_iff {w : Writer} {ps : List Prog} {rs : List Record} (decodes : Decodes w ps rs)
    (proper : Ring.Proper NSYM w) :
    List.Forall₂ SameRecord ps rs ↔ Kept w ps ∧ ∀ q ∈ ps, Fits q.source ∧ Fits q.dest := by
  induction decodes with
  | nil w => simp [Kept]
  | @cons w w' i j q r ps rs slots as reg source dest rest ih =>
    have proper' : Ring.Proper NSYM (Ring.placeTwo NSYM id w q.source.sym q.dest.sym).2.2 :=
      proper.placeTwo (by decide) _ _
    have first := Ring.slots_placeTwo_first id proper (by decide) q.source.sym q.dest.sym
    have second := Ring.slots_placeTwo_second id proper (by decide) q.source.sym q.dest.sym
    rw [Kept]
    rw [slots] at proper' first second ⊢
    have ih := ih proper'
    have head : SameRecord q r ↔ ¬ Ring.Evicts NSYM id w q.source.sym q.dest.sym ∧ Fits q.source ∧ Fits q.dest := by
      constructor
      · intro same
        obtain ⟨name, fits⟩ := (source.same_iff).mp same.source
        exact ⟨first.mp name, fits, ((dest.same_iff).mp same.dest).2⟩
      · rintro ⟨kept, fitsSource, fitsDest⟩
        exact ⟨as, reg, (source.same_iff).mpr ⟨first.mpr kept, fitsSource⟩,
          (dest.same_iff).mpr ⟨second, fitsDest⟩⟩
    rw [List.forall₂_cons, head, ih, List.forall_mem_cons]
    tauto

/-- The linker's switch over opcodes works on records that say what the instructions said. -/
def Delivers (version : Nat) (ps : List Prog) : Prop :=
  ∃ bytes rs, outcode ps = some bytes ∧ List.Forall₂ SameRecord ps rs ∧
    ∀ {σ : Type} (obey : σ → Record → Except Stop (Next σ)) (s : σ), readwith obey version bytes s = feed obey rs s

/-- Collects the records. -/
def note (seen : List Record) (r : Record) : Except Stop (Next (List Record)) := .ok (.loop (seen ++ [r]))

private theorem feed_note (rs seen : List Record) : feed note rs seen = .ok (seen ++ rs) := by
  induction rs generalizing seen with
  | nil => simp [feed]
  | cons r rs ih => exact (ih (seen ++ [r])).trans (by simp)

private theorem outval_some {a : Adr} (known : Known a) (fits : Fits a) : ∃ bytes, outval a = some bytes := by
  unfold Known selected at known
  unfold Fits at fits
  unfold outval
  cases type : a.type <;> simp only [type] at known fits ⊢
  case D_FCONST =>
    obtain ⟨e, encoded, -⟩ := (Proofs.Ieee.ieeedtod_iff a.dval).mpr fits
    exact ⟨_, by rw [encoded]; rfl⟩
  case D_NONE | D_LOCAL | D_GLOBAL | D_BRANCH | D_OREG | D_CONST | D_VCONST | D_SCONST => exact ⟨_, rfl⟩
  all_goals cases known

private theorem outprogs_some {ps : List Prog} (known : ∀ q ∈ ps, Known q.source ∧ Known q.dest)
    (fits : ∀ q ∈ ps, Fits q.source ∧ Fits q.dest) (w : Writer) : ∃ bytes, outprogs w ps = some bytes := by
  induction ps generalizing w with
  | nil => exact ⟨[], rfl⟩
  | cons q ps ih =>
    obtain ⟨knownHead, knownRest⟩ := List.forall_mem_cons.mp known
    obtain ⟨fitsHead, fitsRest⟩ := List.forall_mem_cons.mp fits
    obtain ⟨source, outSource⟩ := outval_some knownHead.1 fitsHead.1
    obtain ⟨dest, outDest⟩ := outval_some knownHead.2 fitsHead.2
    have one : ∃ w' first, outprog w q = some (w', first) := by
      simp only [outprog, outopd, outSource, outDest]
      exact ⟨_, _, rfl⟩
    obtain ⟨w', first, outFirst⟩ := one
    obtain ⟨more, outMore⟩ := ih knownRest fitsRest w'
    exact ⟨first ++ more, by rw [outprogs, outFirst]; simp [outMore]⟩

theorem outcode_delivers_iff (version : Nat) (ps : List Prog) (instructions : ∀ q ∈ ps, Instruction q.as)
    (known : ∀ q ∈ ps, Known q.source ∧ Known q.dest) :
    Delivers version ps ↔ Kept Ring.empty ps ∧ ∀ q ∈ ps, Fits q.source ∧ Fits q.dest := by
  have proper : Ring.Proper NSYM (Ring.empty : Writer) := Ring.proper_empty (by decide)
  have empty : Ring.Mirrors Named (Ring.empty : Writer) (fun _ => none) := Ring.mirrors_empty Named rfl
  constructor
  · rintro ⟨bytes, rs, written, same, reads⟩
    obtain ⟨rs', decodes, run⟩ := scan_outprogs version instructions proper empty written
    have equal : rs = rs' := by
      have both := (reads note []).symm.trans (run note [] bytes.length (Nat.le_refl _))
      rw [feed_note, feed_note] at both
      exact Except.ok.inj both
    rw [equal] at same
    exact (same_iff decodes proper).mp same
  · rintro ⟨kept, fits⟩
    obtain ⟨bytes, written⟩ := outprogs_some known fits Ring.empty
    obtain ⟨rs, decodes, run⟩ := scan_outprogs version instructions proper empty written
    exact ⟨bytes, rs, written, (same_iff decodes proper).mpr ⟨kept, fits⟩,
      fun obey s => run obey s bytes.length (Nat.le_refl _)⟩

/-- `x`, `xx`, `xxx` and so on. -/
def xs (k : Nat) : Name := ⟨List.replicate (k + 1) 120, by simp⟩

/-- The DATA record of the `k`-th element of `t`, an array of pointers to distinct variables. -/
def pointer (k : Nat) : Prog where
  as := ADATA
  reg := 4
  lineno := 1
  source := ⟨.D_OREG, .D_EXTERN, some ⟨[116], by decide⟩, 4 * Int64.ofNat k, 0, 0, ⟨List.replicate NSNAME 0, rfl⟩⟩
  dest := ⟨.D_CONST, .D_EXTERN, some (xs k), 0, 0, 0, ⟨List.replicate NSNAME 0, rfl⟩⟩

private theorem pointer_known (k : Nat) : Instruction (pointer k).as ∧ Known (pointer k).source ∧ Known (pointer k).dest := by
  have data : Instruction ADATA := ⟨by decide, by decide, by decide⟩
  exact ⟨data, rfl, rfl⟩

/-- An array of two pointers. -/
theorem two_pointers_delivered : Delivers 1 [pointer 0, pointer 1] := by
  apply (outcode_delivers_iff 1 [pointer 0, pointer 1] ?_ ?_).mpr
  · exact ⟨by decide, by simp only [List.forall_mem_cons]; decide⟩
  · simp [(pointer_known _).1]
  · simp [(pointer_known _).2]

set_option maxRecDepth 1000 in
/-- With 49 pointers the last variable takes the slot of the array itself. -/
theorem many_pointers_lost : ¬ Delivers 1 ((List.range 49).map pointer) := by
  rw [outcode_delivers_iff]
  · rintro ⟨kept, -⟩
    exact absurd kept (by decide)
  · simp [(pointer_known _).1]
  · simp [(pointer_known _).2]

end Goken.Proofs.WasmObj
