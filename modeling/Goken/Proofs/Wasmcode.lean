import Goken.Lib.Lists
import Goken.Lib.Outcome
import Goken.Lib.Wasm
import Goken.WasmLink

/-! What el writes, as it is read back: numbers, signatures, instructions and the entries of
the sections. -/

namespace Goken.Proofs.Wasmcode
open Goken Lib Readers WasmObj WasmLink

/-! Numbers. -/

theorem seven_toNat : ∀ n < 128, (UInt8.ofNat n).toNat = n := by decide

theorem more_toNat : ∀ n < 128, (UInt8.ofNat n ||| 0x80).toNat = n + 128 := by decide

theorem sign_clear : ∀ n < 128, UInt8.ofNat n &&& 0x40 = 0 ↔ n < 64 := by decide

theorem reads_ulebfrom {fuel v : Nat} (enough : v < fuel) : Reads unsigned (ulebfrom fuel v) v := by
  induction fuel generalizing v with
  | zero => exact absurd enough (Nat.not_lt_zero v)
  | succ fuel ih =>
    have small := Nat.mod_lt v (show 0 < 128 by decide)
    rw [ulebfrom]
    split
    case isTrue more =>
      have byte := more_toNat _ small
      have reads := reads_unsigned_more (b := UInt8.ofNat (v % 128) ||| 0x80) (by omega) (ih (v := v / 128) (by omega))
      rw [byte] at reads
      have value : v % 128 + 128 - 128 + 128 * (v / 128) = v := by omega
      rwa [value] at reads
    case isFalse last =>
      have byte := seven_toNat _ small
      have reads := reads_unsigned_last (b := UInt8.ofNat (v % 128)) (by omega)
      rw [byte] at reads
      have value : v % 128 = v := by omega
      rwa [value] at reads ⊢

theorem reads_bbuleb (v : Nat) : Reads unsigned (bbuleb v) v := reads_ulebfrom (Nat.lt_succ_self v)

theorem reads_slebfrom {fuel : Nat} {v : Int} (enough : v.natAbs < fuel) : Reads signed (slebfrom fuel v) v := by
  induction fuel generalizing v with
  | zero => exact absurd enough (Nat.not_lt_zero _)
  | succ fuel ih =>
    have small : (v % 128).toNat < 128 := by omega
    have sign := sign_clear _ small
    rw [slebfrom]
    simp only [ne_eq, sign]
    split
    case isTrue last =>
      have byte := seven_toNat _ small
      rcases last with ⟨rest, clear⟩ | ⟨rest, set⟩
      · have reads := reads_signed_nonneg (b := UInt8.ofNat (v % 128).toNat) (by omega)
        rw [byte] at reads
        have value : ((v % 128).toNat : Int) = v := by omega
        rwa [value] at reads
      · have reads := reads_signed_neg (b := UInt8.ofNat (v % 128).toNat) (by omega) (by omega)
        rw [byte] at reads
        have value : ((v % 128).toNat : Int) - 128 = v := by omega
        rwa [value] at reads
    case isFalse more =>
      have byte := more_toNat _ small
      have reads := reads_signed_more (b := UInt8.ofNat (v % 128).toNat ||| 0x80) (by omega) (ih (v := v / 128) (by omega))
      rw [byte] at reads
      have value : (((v % 128).toNat + 128 : Nat) : Int) - 128 + 128 * (v / 128) = v := by omega
      rwa [value] at reads

theorem reads_bbsleb (v : Int) : Reads signed (bbsleb v) v := reads_slebfrom (Nat.lt_succ_self _)

theorem reads_bbname (s : List UInt8) : Reads Wasm.name (bbname s) s := Wasm.reads_name (reads_bbuleb _)

theorem reads_constant (v : Int) : Reads Wasm.init (constant v) v := Wasm.reads_init (reads_bbsleb v)

/-! Signatures. -/

section Signatures

variable {sig row : List UInt8}

/-- The characters of a string in an array. -/
def characters (sig : List UInt8) : List UInt8 := sig.takeWhile (· ≠ 0)

def typeOf (c : UInt8) : Option Wasm.ValType :=
  match c with
  | 87 => some .i32
  | 81 => some .i64
  | 70 => some .f32
  | 68 => some .f64
  | _ => none

def resultsOf (c : UInt8) : Option (List Wasm.ValType) := if c = 86 then some [] else (typeOf c).map fun t => [t]

/-- The type that a signature spells: a letter for each parameter and one for the result. -/
def sigtype (sig : List UInt8) : Option Wasm.FuncType :=
  (characters sig).getLast?.bind fun c => do
    let params ← (characters sig).dropLast.mapM typeOf
    let results ← resultsOf c
    return ⟨params, results⟩

theorem valtype_typeOf {c b : UInt8} (written : WasmLink.valtype c = .ok b) : ∃ t, typeOf c = some t ∧ b = t.code := by
  unfold WasmLink.valtype at written
  split at written
  case h_5 => cases written
  all_goals
    cases written
    exact ⟨_, rfl, rfl⟩

theorem params_typeOf {cs bytes : List UInt8} (written : cs.mapM WasmLink.valtype = .ok bytes) :
    ∃ types, cs.mapM typeOf = some types ∧ types.length = bytes.length ∧ List.Forall₂ (Reads Wasm.valtype) (bytes.map fun b => [b]) types := by
  have each := Outcome.mapM_eq_ok.mp written
  clear written
  induction each with
  | nil => exact ⟨[], rfl, rfl, .nil⟩
  | @cons c b cs bytes first _ ih =>
    obtain ⟨t, letter, rfl⟩ := valtype_typeOf first
    obtain ⟨types, letters, length, reads⟩ := ih
    refine ⟨t :: types, ?_, congrArg (· + 1) length, .cons (Wasm.reads_valtype t) reads⟩
    rw [List.mapM_cons, letter, letters]
    rfl

theorem reads_params {types : List Wasm.ValType} {bytes : List UInt8} (length : types.length = bytes.length)
    (each : List.Forall₂ (Reads Wasm.valtype) (bytes.map fun b => [b]) types) :
    Reads (vec Wasm.valtype) (bbuleb bytes.length ++ bytes) types := by
  have reads := reads_vec (reads_bbuleb types.length) each
  rw [← List.flatMap_def, List.flatMap_singleton', length] at reads
  exact reads

theorem emitresult_reads {c : UInt8} {bytes : List UInt8} (written : emitresult c = .ok bytes) :
    ∃ results, resultsOf c = some results ∧ Reads (vec Wasm.valtype) bytes results := by
  unfold emitresult at written
  unfold resultsOf
  split at written
  case isTrue void =>
    cases written
    exact ⟨[], if_pos void, (reads_vec (reads_bbuleb 0) .nil).congr (List.append_nil _)⟩
  case isFalse other =>
    obtain ⟨b, letter, same⟩ := Outcome.bind_eq_ok.mp written
    cases same
    obtain ⟨t, typed, rfl⟩ := valtype_typeOf letter
    refine ⟨[t], by rw [if_neg other, typed]; rfl, ?_⟩
    exact reads_vec (reads_bbuleb 1) (.cons (Wasm.reads_valtype t) .nil)

/-- A row of `sigtab[]`. -/
def Padded (row : List UInt8) : Prop := ∃ sig, row = strncpy NSNAME sig

theorem strncpy_length (n : Nat) (sig : List UInt8) : (strncpy n sig).length = n := by
  have := List.length_take_le n (sig.takeWhile (· ≠ 0))
  simp only [strncpy, List.length_append, List.length_replicate]
  omega

theorem strncpy_last {n : Nat} (ends : 0 ∈ strncpy (n + 1) sig) : (strncpy (n + 1) sig).getLast? = some 0 := by
  simp only [strncpy] at *
  have nonzero : 0 ∉ (sig.takeWhile (· ≠ 0)).take (n + 1) := by
    intro inside
    have := List.all_eq_true.mp List.all_takeWhile _ (List.mem_of_mem_take inside)
    simp at this
  rcases List.mem_append.mp ends with text | zeros
  · exact absurd text nonzero
  · obtain ⟨k, length⟩ := Nat.exists_eq_succ_of_ne_zero (List.mem_replicate.mp zeros).1
    rw [length, List.getLast?_append, List.getLast?_replicate]
    rfl

theorem emittype_reads {back : Option UInt8} {bytes : List UInt8} (length : sig.length = NSNAME) (padded : back = none ∨ back = some 0)
    (written : emittype back sig = .ok bytes) : ∃ type, sigtype sig = some type ∧ Reads Wasm.typeEntry bytes type ∧ 0 ∈ sig := by
  unfold emittype at written
  split at written
  case isTrue => cases written
  case isFalse ends =>
    obtain ⟨params, letters, written⟩ := Outcome.bind_eq_ok.mp written
    obtain ⟨types, typed, count, each⟩ := params_typeOf letters
    have shape : params.length = (characters sig).dropLast.length := (Outcome.mapM_eq_ok.mp letters).length_eq.symm
    cases last : (characters sig).getLast? with
    | none =>
      -- `nparam` is -1, and the byte in front of the array is not a letter
      rw [show (sig.takeWhile (· ≠ 0)).getLast? = none from last] at written
      rcases padded with rfl | rfl
      · cases written
      · obtain ⟨results, letter, -⟩ := Outcome.bind_eq_ok.mp written
        obtain ⟨_, impossible, -⟩ := emitresult_reads letter
        cases impossible
    | some c =>
      rw [show (sig.takeWhile (· ≠ 0)).getLast? = some c from last] at written
      obtain ⟨results, letter, same⟩ := Outcome.bind_eq_ok.mp written
      cases same
      obtain ⟨kinds, typed', reads⟩ := emitresult_reads letter
      refine ⟨⟨types, kinds⟩, ?_, ?_, not_not.mp ends⟩
      · have : (characters sig).dropLast.mapM typeOf = some types := typed
        rw [sigtype, last, Option.bind_some, this, typed']
        rfl
      · have short : (characters sig).length ≤ NSNAME := length ▸ (List.takeWhile_sublist _).length_le
        have some_ : 0 < (characters sig).length := List.length_pos_of_ne_nil fun empty => by simp [empty] at last
        have nparam : (((characters sig).length - 1 : Int) % 2 ^ 64).toNat = params.length := by
          rw [shape, List.length_dropLast]
          simp only [NSNAME] at short
          omega
        refine (Wasm.reads_typeEntry (reads_params count each) reads).congr ?_
        change _ = 0x60 :: (bbuleb (((characters sig).length - 1 : Int) % 2 ^ 64).toNat ++ params ++ results)
        rw [nparam]

theorem emittypes_reads {back : Option UInt8} {sigtab entries : List (List UInt8)} (rows : ∀ row ∈ sigtab, Padded row)
    (padded : back = none ∨ back = some 0) (written : emittypes back sigtab = .ok entries) :
    ∃ types, List.Forall₂ (fun row type => sigtype row = some type) sigtab types ∧ List.Forall₂ (Reads Wasm.typeEntry) entries types := by
  induction sigtab generalizing back entries with
  | nil =>
    cases written
    exact ⟨[], .nil, .nil⟩
  | cons row sigtab ih =>
    obtain ⟨entry, first, written⟩ := Outcome.bind_eq_ok.mp written
    obtain ⟨rest, later, same⟩ := Outcome.bind_eq_ok.mp written
    cases same
    obtain ⟨sig, rfl⟩ := rows row List.mem_cons_self
    obtain ⟨type, spelled, reads, ends⟩ := emittype_reads (strncpy_length NSNAME sig) padded first
    obtain ⟨types, all, each⟩ := ih (fun row member => rows row (List.mem_cons_of_mem _ member)) (.inr (strncpy_last ends)) later
    exact ⟨type :: types, .cons spelled all, .cons reads each⟩

theorem strcmp_characters (same : strcmp row sig = .ok true) : characters row = characters sig := by
  induction row generalizing sig with
  | nil => cases same
  | cons a row ih =>
    cases sig with
    | nil => cases same
    | cons b sig =>
      rw [strcmp] at same
      split at same
      case isTrue => cases same
      case isFalse equal =>
        rw [not_not] at equal
        subst equal
        split at same
        case isTrue zero => simp [characters, zero]
        case isFalse nonzero => simpa [characters, nonzero] using ih same

theorem strcmp_padded (sig : List UInt8) (zeros : Nat) : strcmp (characters sig ++ List.replicate zeros 0) sig ≠ .ok false := by
  induction sig with
  | nil =>
    cases characters [] ++ List.replicate zeros (0 : UInt8) <;> simp [strcmp]
  | cons b sig ih =>
    by_cases zero : b = 0
    · subst zero
      cases zeros <;> simp [characters, strcmp, List.replicate_succ]
    · simpa [characters, zero, strcmp] using ih

theorem strncpy_short (short : sig.length ≤ NSNAME) :
    strncpy NSNAME sig = characters sig ++ List.replicate (NSNAME - (characters sig).length) 0 := by
  have length : (characters sig).length ≤ NSNAME := (List.takeWhile_sublist _).length_le.trans short
  simp only [strncpy, characters] at *
  rw [List.take_of_length_le length]

theorem sigtype_strncpy (short : sig.length ≤ NSNAME) : sigtype (strncpy NSNAME sig) = sigtype sig := by
  have same : characters (strncpy NSNAME sig) = characters sig := by
    have nonzero : ∀ b ∈ characters sig, decide (b ≠ 0) = true := List.all_eq_true.mp List.all_takeWhile
    rw [strncpy_short short, characters, List.takeWhile_append_of_pos nonzero]
    simp
  rw [sigtype, same, sigtype]

/-- `sigindex` would stop at a row, or before one. -/
def Held (sigtab : List (List UInt8)) (sig : List UInt8) : Prop := ∃ row ∈ sigtab, strcmp row sig ≠ .ok false

/-- The row has the type that the signature spells. -/
def Typed (sigtab : List (List UInt8)) (sig : List UInt8) (i : Nat) : Prop := ∃ row, sigtab[i]? = some row ∧ sigtype row = sigtype sig

theorem Held.grow {sigtab more : List (List UInt8)} (held : Held sigtab sig) : Held (sigtab ++ more) sig := by
  obtain ⟨row, member, stops⟩ := held
  exact ⟨row, List.mem_append_left more member, stops⟩

theorem Typed.grow {sigtab more : List (List UInt8)} {i : Nat} (typed : Typed sigtab sig i) : Typed (sigtab ++ more) sig i := by
  obtain ⟨row, found, same⟩ := typed
  exact ⟨row, (List.getElem?_append_left (List.getElem?_eq_some_iff.mp found).1).trans found, same⟩

theorem sigfind_some {sigtab : List (List UInt8)} {i j : Nat} (found : sigfind sig i sigtab = .ok (some j)) :
    i ≤ j ∧ ∃ row, sigtab[j - i]? = some row ∧ strcmp row sig = .ok true := by
  induction sigtab generalizing i with
  | nil => cases found
  | cons row sigtab ih =>
    obtain ⟨b, compared, found⟩ := Outcome.bind_eq_ok.mp found
    cases b with
    | true =>
      cases found
      exact ⟨Nat.le_refl _, row, by simp, compared⟩
    | false =>
      obtain ⟨later, row, at_, same⟩ := ih found
      refine ⟨Nat.le_of_succ_le later, row, ?_, same⟩
      rwa [show j - i = (j - (i + 1)) + 1 by omega, List.getElem?_cons_succ]

theorem sigfind_none {sigtab : List (List UInt8)} {i : Nat} (found : sigfind sig i sigtab = .ok none) :
    ∀ row ∈ sigtab, strcmp row sig = .ok false := by
  induction sigtab generalizing i with
  | nil => exact nofun
  | cons row sigtab ih =>
    obtain ⟨b, compared, found⟩ := Outcome.bind_eq_ok.mp found
    cases b with
    | true => cases found
    | false =>
      intro other member
      rcases List.mem_cons.mp member with rfl | member
      · exact compared
      · exact ih found other member

/-- What one search does: the table grows, by nothing if the signature is held. -/
theorem sigindex_spec {sigtab after : List (List UInt8)} {i : Nat} (short : sig.length ≤ NSNAME)
    (found : sigindex sigtab sig = .ok (i, after)) :
    Typed after sig i ∧ Held after sig ∧ (Held sigtab sig ∧ after = sigtab ∨ after = sigtab ++ [strncpy NSNAME sig]) := by
  obtain ⟨place, searched, found⟩ := Outcome.bind_eq_ok.mp found
  cases place with
  | some j =>
    cases found
    obtain ⟨-, row, at_, same⟩ := sigfind_some searched
    have held : Held sigtab sig := ⟨row, List.mem_of_getElem? at_, by rw [same]; simp⟩
    refine ⟨⟨row, at_, ?_⟩, held, .inl ⟨held, rfl⟩⟩
    rw [sigtype, strcmp_characters same, sigtype]
  | none =>
    simp only at found
    split at found
    case isTrue => cases found
    case isFalse =>
      cases found
      refine ⟨⟨_, by simp, sigtype_strncpy short⟩, ⟨_, List.mem_append_right _ List.mem_cons_self, ?_⟩, .inr rfl⟩
      rw [strncpy_short short]
      exact strcmp_padded sig _

theorem sigindex_held {sigtab after : List (List UInt8)} {i : Nat} (held : Held sigtab sig)
    (found : sigindex sigtab sig = .ok (i, after)) : after = sigtab := by
  obtain ⟨place, searched, found⟩ := Outcome.bind_eq_ok.mp found
  cases place with
  | some j =>
    cases found
    rfl
  | none =>
    obtain ⟨row, member, stops⟩ := held
    exact absurd (sigfind_none searched row member) stops

theorem sigindexes_spec {sigtab after sigs : List (List UInt8)} {is : List Nat} (short : ∀ sig ∈ sigs, sig.length ≤ NSNAME)
    (found : sigindexes sigtab sigs = .ok (is, after)) :
    List.Forall₂ (Typed after) sigs is ∧ (∀ sig ∈ sigs, Held after sig) ∧ ∃ rows, after = sigtab ++ rows ∧ ∀ row ∈ rows, Padded row := by
  induction sigs generalizing sigtab is with
  | nil =>
    cases found
    exact ⟨.nil, nofun, [], (List.append_nil _).symm, nofun⟩
  | cons sig sigs ih =>
    obtain ⟨⟨i, middle⟩, first, found⟩ := Outcome.bind_eq_ok.mp found
    obtain ⟨⟨is, after'⟩, later, same⟩ := Outcome.bind_eq_ok.mp found
    cases same
    obtain ⟨typed, held, grown⟩ := sigindex_spec (short sig List.mem_cons_self) first
    obtain ⟨all, holds, rows, rfl, padded⟩ := ih (fun sig member => short sig (List.mem_cons_of_mem _ member)) later
    refine ⟨.cons typed.grow all, ?_, ?_⟩
    · intro other member
      rcases List.mem_cons.mp member with rfl | member
      · exact held.grow
      · exact holds other member
    · rcases grown with ⟨-, rfl⟩ | rfl
      · exact ⟨rows, rfl, padded⟩
      · refine ⟨strncpy NSNAME sig :: rows, by simp, ?_⟩
        intro row member
        rcases List.mem_cons.mp member with rfl | member
        · exact ⟨sig, rfl⟩
        · exact padded row member

theorem sigindexes_held {sigtab after sigs : List (List UInt8)} {is : List Nat} (held : ∀ sig ∈ sigs, Held sigtab sig)
    (found : sigindexes sigtab sigs = .ok (is, after)) : after = sigtab := by
  induction sigs generalizing sigtab is with
  | nil =>
    cases found
    rfl
  | cons sig sigs ih =>
    obtain ⟨⟨i, middle⟩, first, found⟩ := Outcome.bind_eq_ok.mp found
    obtain ⟨⟨is, after'⟩, later, same⟩ := Outcome.bind_eq_ok.mp found
    cases same
    have stays := sigindex_held (held sig List.mem_cons_self) first
    subst stays
    exact ih (fun sig member => held sig (List.mem_cons_of_mem _ member)) later

end Signatures

/-! Instructions. -/

section Instructions

variable {e : Env}

/-- What the kind of a row says about the bytes behind the opcode. -/
def shapeOf (o : Optab) : Wasm.Shape :=
  match o.kind with
  | .OSIMPLE => .none
  | .OSIMPLE2 => .byte
  | .OBR | .OCALL | .OLOCAL | .OGLOBAL => .index
  | .OCONSTI => .const
  | .OCONSTF => .bytes (if o.fsize = 4 then 4 else 8)
  | .OMEM => .memarg

set_option maxRecDepth 1000 in
theorem optab_shape : ∀ o ∈ optab, Wasm.shape o.op = some (shapeOf o) := by decide

set_option maxRecDepth 1000 in
theorem optab_call : ∀ o ∈ optab, o.op = 0x10 ↔ o.kind = .OCALL := by decide

/-- The operand of the instruction in the module. -/
def immOf (e : Env) (o : Optab) (a : Operand) : Except WasmLink.Stop Wasm.Imm :=
  match o.kind with
  | .OSIMPLE => .ok .none
  | .OSIMPLE2 => .ok (.byte o.op2)
  | .OBR | .OLOCAL | .OGLOBAL => (offset a).map fun l => .index (widen l)
  | .OCALL => (resolvecall e.imports e.texts a.sym).map .index
  | .OCONSTI => (intconst e a).map .const
  | .OCONSTF => (floatconst e o a).map .bytes
  | .OMEM => (offset a).map fun l => .memarg 0 (widen l)

def instrOf (e : Env) (ip : UInt8 × Operand × Operand) : Except WasmLink.Stop Wasm.Instr := do
  let o ← oplook ip.1
  return ⟨o.op, ← immOf e o ip.2.2⟩

theorem reads_index (v : Nat) : Reads (Wasm.imm .index) (bbuleb v) (.index v) := (reads_bbuleb v).last

theorem reads_const (v : Int) : Reads (Wasm.imm .const) (bbsleb v) (.const v) := (reads_bbsleb v).last

theorem reads_bytes {n : Nat} {text : List UInt8} (length : text.length = n) : Reads (Wasm.imm (.bytes n)) text (.bytes text) := by
  subst length
  exact (reads_take text).last

theorem floatconst_length {o : Optab} {a : Operand} {bytes : List UInt8} (written : floatconst e o a = .ok bytes) :
    bytes.length = if o.fsize = 4 then 4 else 8 := by
  unfold floatconst at written
  split at written
  case h_1 =>
    cases written
    split <;> exact Bytes.split_length _ _
  case h_2 => cases written

theorem emitoperand_reads {o : Optab} {a : Operand} {bytes : List UInt8} (written : emitoperand e o a = .ok bytes) :
    ∃ imm, immOf e o a = .ok imm ∧ Reads (Wasm.imm (shapeOf o)) bytes imm := by
  cases kind : o.kind
  all_goals simp only [emitoperand, immOf, shapeOf, kind] at *
  case OSIMPLE =>
    cases written
    exact ⟨_, rfl, .pure _⟩
  case OSIMPLE2 =>
    cases written
    exact ⟨_, rfl, (reads_byte o.op2).last⟩
  case OCALL =>
    obtain ⟨n, resolved, same⟩ := Outcome.bind_eq_ok.mp written
    cases same
    exact ⟨.index n, by rw [resolved]; rfl, reads_index n⟩
  case OCONSTI =>
    obtain ⟨v, value, same⟩ := Outcome.bind_eq_ok.mp written
    cases same
    exact ⟨.const v, by rw [value]; rfl, reads_const v⟩
  case OCONSTF => exact ⟨.bytes bytes, by rw [written]; rfl, reads_bytes (floatconst_length written)⟩
  case OMEM =>
    obtain ⟨l, value, same⟩ := Outcome.bind_eq_ok.mp written
    cases same
    exact ⟨.memarg 0 (widen l), by rw [value]; rfl, (reads_bbuleb 0).bind (reads_bbuleb (widen l)).last⟩
  all_goals
    obtain ⟨l, value, same⟩ := Outcome.bind_eq_ok.mp written
    cases same
    exact ⟨.index (widen l), by rw [value]; rfl, reads_index _⟩

theorem oplook_mem {as : UInt8} {o : Optab} (found : oplook as = .ok o) : o ∈ optab := by
  unfold oplook at found
  split at found
  case h_1 found' =>
    cases found
    exact List.mem_of_find?_eq_some found'
  case h_2 => cases found

theorem emitinstr_reads {ip : UInt8 × Operand × Operand} {bytes : List UInt8} (written : emitinstr e ip = .ok bytes) :
    ∃ i, instrOf e ip = .ok i ∧ Reads Wasm.instr bytes i ∧ bytes ≠ [] := by
  obtain ⟨o, found, written⟩ := Outcome.bind_eq_ok.mp written
  obtain ⟨operand, made, same⟩ := Outcome.bind_eq_ok.mp written
  cases same
  obtain ⟨imm, meant, reads⟩ := emitoperand_reads made
  refine ⟨⟨o.op, imm⟩, ?_, Wasm.reads_instr (optab_shape o (oplook_mem found)) reads, List.cons_ne_nil _ _⟩
  rw [instrOf, found]
  change (immOf e o ip.2.2 >>= _) = _
  rw [meant]
  rfl

/-- The locals of a function. -/
def localsOf (t : Text) : List (Nat × Wasm.ValType) := if 0 < t.framesize then [(widen t.framesize, .i32)] else []

/-- A function in the module: its instructions and the end. -/
def codeOf (e : Env) (t : Text) : Except WasmLink.Stop Wasm.Code := do
  let instrs ← t.instrs.mapM (instrOf e)
  return ⟨localsOf t, instrs ++ [⟨0x0B, .none⟩]⟩

theorem locals_reads (t : Text) : Reads (vec Wasm.localEntry) (locals t) (localsOf t) := by
  unfold locals localsOf
  split
  case isTrue =>
    refine (reads_vec (reads_bbuleb 1) (.cons (Wasm.reads_localEntry .i32 (reads_bbuleb _)) .nil)).congr ?_
    simp [Wasm.ValType.code]
  case isFalse => exact (reads_vec (reads_bbuleb 0) .nil).congr (List.append_nil _)

theorem emitinstrs_reads {ips : List (UInt8 × Operand × Operand)} {chunks : List (List UInt8)}
    (written : ips.mapM (emitinstr e) = .ok chunks) :
    ∃ is, ips.mapM (instrOf e) = .ok is ∧ List.Forall₂ (Reads Wasm.instr) chunks is ∧ ∀ chunk ∈ chunks, chunk ≠ [] := by
  have each := Outcome.mapM_eq_ok.mp written
  clear written
  induction each with
  | nil => exact ⟨[], rfl, .nil, nofun⟩
  | @cons ip chunk ips chunks first _ ih =>
    obtain ⟨i, meant, reads, some_⟩ := emitinstr_reads first
    obtain ⟨is, meants, all, somes⟩ := ih
    refine ⟨i :: is, ?_, .cons reads all, List.forall_mem_cons.mpr ⟨some_, somes⟩⟩
    rw [List.mapM_cons, meant, meants]
    rfl

theorem emitbody_reads {t : Text} {bytes : List UInt8} (written : emitbody e t = .ok bytes) :
    ∃ c, codeOf e t = .ok c ∧ Reads (framed Wasm.body) bytes c := by
  obtain ⟨chunks, made, same⟩ := Outcome.bind_eq_ok.mp written
  cases same
  obtain ⟨is, meant, all, somes⟩ := emitinstrs_reads made
  refine ⟨⟨localsOf t, is ++ [⟨0x0B, .none⟩]⟩, by rw [codeOf, meant]; rfl, reads_framed (reads_bbuleb _) ?_⟩
  have last : Reads Wasm.instr [0x0B] ⟨0x0B, .none⟩ := Wasm.reads_instr (s := .none) rfl (.pure _)
  have somes' : ∀ chunk ∈ chunks ++ [[0x0B]], chunk ≠ [] := by
    intro chunk inside
    rcases List.mem_append.mp inside with inside | inside
    · exact somes chunk inside
    · cases List.mem_singleton.mp inside
      exact List.cons_ne_nil _ _
  have body := Wasm.reads_body (locals_reads t) (List.rel_append all (.cons last .nil)) somes'
  simpa using body

end Instructions

/-! Sections. -/

section Sections

variable {e : Env}

theorem reads_exportentry (name : List UInt8) (kind : UInt8) (index : Nat) :
    Reads Wasm.exportEntry (exportentry name kind index) ⟨name, kind, index⟩ :=
  Wasm.reads_exportEntry kind (reads_bbname name) (reads_bbuleb index)

/-- The functions exported under their own names. -/
def textexportsOf (s : Link) : Nat → List Text → List Wasm.Export
  | _, [] => []
  | idx, t :: texts =>
    if s.type start = .STEXT ∧ t.sym = start then textexportsOf s (idx + 1) texts
    else ⟨t.sym.name.val, 0x00, idx⟩ :: textexportsOf s (idx + 1) texts

def startexportOf (e : Env) : Except WasmLink.Stop (List Wasm.Export) :=
  if e.s.type start = .STEXT then (resolvecall e.imports e.texts (some start)).map fun i => [⟨start.name.val, 0x00, i⟩]
  else .ok []

theorem textexports_reads (s : Link) (idx : Nat) (texts : List Text) :
    List.Forall₂ (Reads Wasm.exportEntry) (textexports s idx texts) (textexportsOf s idx texts) := by
  induction texts generalizing idx with
  | nil => exact .nil
  | cons t texts ih =>
    rw [textexports, textexportsOf]
    split
    · exact ih (idx + 1)
    · exact .cons (reads_exportentry _ _ _) (ih (idx + 1))

theorem startexport_reads {first : List (List UInt8)} (written : startexport e = .ok first) :
    ∃ exports, startexportOf e = .ok exports ∧ List.Forall₂ (Reads Wasm.exportEntry) first exports := by
  unfold startexport at written
  unfold startexportOf
  split at written
  case isTrue defined =>
    obtain ⟨i, resolved, same⟩ := Outcome.bind_eq_ok.mp written
    cases same
    exact ⟨_, by rw [if_pos defined, resolved]; rfl, .cons (reads_exportentry _ _ _) .nil⟩
  case isFalse undefined_ =>
    cases written
    exact ⟨[], if_neg undefined_, .nil⟩

theorem reads_emitsection {α : Type} {id : UInt8} {none_ : α} {inner : List UInt8 → Option α} {body : List UInt8} {x : α}
    (inside : inner body = some x) : Reads (section_ id none_ inner) (emitsection id body) x := reads_section (reads_bbuleb _) inside

/-- A section that holds a vector. -/
theorem reads_entries {α : Type} {p : Reader α} {id : UInt8} {none_ : List α} {chunks : List (List UInt8)} {xs : List α} {n : Nat}
    (count : xs.length = n) (each : List.Forall₂ (Reads p) chunks xs) :
    Reads (section_ id none_ (whole (vec p))) (emitsection id (bbuleb n ++ chunks.flatten)) xs :=
  reads_emitsection (reads_vec (count ▸ reads_bbuleb _) each).whole

/-- A section that holds one entry. -/
theorem reads_entry {α : Type} {p : Reader α} {id : UInt8} {none_ : List α} {chunk : List UInt8} {x : α} (reads : Reads p chunk x) :
    Reads (section_ id none_ (whole (vec p))) (emitsection id (bbuleb 1 ++ chunk)) [x] := by
  have reads : Reads (section_ id none_ (whole (vec p))) (emitsection id (bbuleb 1 ++ [chunk].flatten)) [x] :=
    reads_entries rfl (.cons reads .nil)
  rwa [List.flatten_singleton] at reads

/-- What the module has of what was linked. -/
structure Written (e : Env) (allsyms : List Sym) (arenaend : Int) (m : Wasm.Module) : Prop where
  imports : List.Forall₂ (fun im i => i.host = im.module.val ∧ i.field = im.field.val ∧
    ∃ type, m.types[i.type]? = some type ∧ sigtype im.sig = some type) e.imports m.imports
  funcs : List.Forall₂ (fun t i => ∃ type, m.types[i]? = some type ∧ sigtype t.sig = some type) e.texts m.funcs
  memories : m.memories = [1]
  globals : m.globals = [⟨.i32, 1, WASMPAGESIZE⟩]
  exports : ∃ first, startexportOf e = .ok first ∧
    m.exports = ⟨memory, 0x02, 0⟩ :: (first ++ textexportsOf e.s e.imports.length e.texts)
  codes : List.Forall₂ (fun t c => codeOf e t = .ok c) e.texts m.codes
  data : m.data = [⟨ARENABASE, arena e.s e.value allsyms arenaend⟩]

theorem Typed.type {sigtab : List (List UInt8)} {types : List Wasm.FuncType} {sig : List UInt8} {i : Nat} (typed : Typed sigtab sig i)
    (rows : List.Forall₂ (fun row type => sigtype row = some type) sigtab types) :
    ∃ type, types[i]? = some type ∧ sigtype sig = some type := by
  obtain ⟨row, found, same⟩ := typed
  obtain ⟨type, found', spelled⟩ := Lists.related_get rows found
  exact ⟨type, found', same ▸ spelled⟩

theorem imports_reads {sigtab : List (List UInt8)} {types : List Wasm.FuncType} {imports : List WasmLink.Import} {is : List Nat}
    (rows : List.Forall₂ (fun row type => sigtype row = some type) sigtab types)
    (typed : List.Forall₂ (Typed sigtab) (imports.map WasmLink.Import.sig) is) :
    ∃ entries, List.Forall₂ (Reads Wasm.importEntry) (List.zipWith importentry imports is) entries ∧
      List.Forall₂ (fun im i => i.host = im.module.val ∧ i.field = im.field.val ∧
        ∃ type, types[i.type]? = some type ∧ sigtype im.sig = some type) imports entries := by
  induction imports generalizing is with
  | nil =>
    cases typed
    exact ⟨[], .nil, .nil⟩
  | cons im imports ih =>
    cases typed with
    | @cons _ i _ is first rest =>
      obtain ⟨entries, each, meant⟩ := ih rest
      have reads := Wasm.reads_importEntry (reads_bbname im.module.val) (reads_bbname im.field.val) (reads_bbuleb i)
      refine ⟨⟨im.module.val, im.field.val, i⟩ :: entries, .cons (reads.congr ?_) each, .cons ⟨rfl, rfl, first.type rows⟩ meant⟩
      simp [importentry]

theorem bodies_read {texts : List Text} {bodies : List (List UInt8)} (written : texts.mapM (emitbody e) = .ok bodies) :
    ∃ codes, List.Forall₂ (Reads (framed Wasm.body)) bodies codes ∧ List.Forall₂ (fun t c => codeOf e t = .ok c) texts codes := by
  have each := Outcome.mapM_eq_ok.mp written
  clear written
  induction each with
  | nil => exact ⟨[], .nil, .nil⟩
  | cons first _ ih =>
    obtain ⟨c, meant, reads⟩ := emitbody_reads first
    obtain ⟨codes, all, meants⟩ := ih
    exact ⟨c :: codes, .cons reads all, .cons meant meants⟩

theorem textexports_length (s : Link) (idx : Nat) (texts : List Text) (distinct : (texts.map Text.sym).Nodup) :
    (textexportsOf s idx texts).length + (if s.type start = .STEXT ∧ start ∈ texts.map Text.sym then 1 else 0) = texts.length := by
  induction texts generalizing idx with
  | nil => simp [textexportsOf]
  | cons t texts ih =>
    obtain ⟨new, distinct⟩ := List.nodup_cons.mp distinct
    have rest := ih (idx + 1) distinct
    rw [textexportsOf]
    by_cases defined : s.type start = .STEXT
    · by_cases same : t.sym = start
      · rw [same] at new
        rw [if_neg fun both => new both.2] at rest
        rw [if_pos ⟨defined, same⟩, if_pos ⟨defined, same ▸ List.mem_cons_self⟩, List.length_cons]
        omega
      · simp only [defined, same, true_and, if_false, List.map_cons, List.mem_cons, Ne.symm same, false_or, List.length_cons] at rest ⊢
        omega
    · simp only [defined, false_and, if_false, List.length_cons] at rest ⊢
      omega

/-- What `readobj` leaves for `asmb`. -/
structure Ready (e : Env) : Prop where
  distinct : (e.texts.map Text.sym).Nodup
  defined : ∀ s, e.s.type s = .STEXT → s ∈ e.texts.map Text.sym
  textsigs : ∀ t ∈ e.texts, t.sig.length ≤ NSNAME
  importsigs : ∀ im ∈ e.imports, im.sig.length ≤ NSNAME

theorem exports_length (ready : Ready e) {first : List Wasm.Export} (resolved : startexportOf e = .ok first) :
    (first ++ textexportsOf e.s e.imports.length e.texts).length = e.texts.length := by
  have others := textexports_length e.s e.imports.length e.texts ready.distinct
  unfold startexportOf at resolved
  rw [List.length_append]
  split at resolved
  case isTrue defined =>
    rw [if_pos ⟨defined, ready.defined start defined⟩] at others
    cases found : resolvecall e.imports e.texts (some start) with
    | error stop => rw [found] at resolved; cases resolved
    | ok i =>
      rw [found] at resolved
      cases resolved
      rw [List.length_singleton]
      omega
  case isFalse undefined_ =>
    cases resolved
    rw [if_neg fun both => undefined_ both.1] at others
    rw [List.length_nil]
    omega

theorem forall_sigs {texts : List Text} {imports : List WasmLink.Import} {Q : List UInt8 → Prop} (first : ∀ t ∈ texts, Q t.sig)
    (second : ∀ im ∈ imports, Q im.sig) : ∀ sig ∈ texts.map Text.sig ++ imports.map WasmLink.Import.sig, Q sig := by
  intro sig inside
  rcases List.mem_append.mp inside with inside | inside
  · obtain ⟨t, member, rfl⟩ := List.mem_map.mp inside
    exact first t member
  · obtain ⟨im, member, rfl⟩ := List.mem_map.mp inside
    exact second im member

/-- The sections behind the imports, from what their vectors hold. -/
theorem reads_definitions (types : List Wasm.FuncType) (imports : List Wasm.Import) {funcs : List Nat} {exports : List Wasm.Export}
    {exportbytes bodies : List (List UInt8)} {codes : List Wasm.Code} (data : List UInt8) {texts n : Nat} (functions : funcs.length = texts)
    (exported : exports.length = n) (eachExport : List.Forall₂ (Reads Wasm.exportEntry) exportbytes exports)
    (coded : codes.length = texts) (eachCode : List.Forall₂ (Reads (framed Wasm.body)) bodies codes) :
    Reads (Wasm.definitions types imports)
      (emitsection 3 (bbuleb texts ++ (funcs.map bbuleb).flatten) ++ (emitsection 5 (bbuleb 1 ++ 0x00 :: bbuleb 1) ++
        (emitsection 6 (bbuleb 1 ++ 0x7F :: 0x01 :: constant WASMPAGESIZE) ++ (emitsection 7 (bbuleb n ++ exportbytes.flatten) ++
        (emitsection 10 (bbuleb texts ++ bodies.flatten) ++
          emitsection 11 (bbuleb 1 ++ 0x00 :: (constant ARENABASE ++ (bbuleb data.length ++ data))))))))
      ⟨types, imports, funcs, [1], [⟨.i32, 1, WASMPAGESIZE⟩], exports, codes, [⟨ARENABASE, data⟩]⟩ := by
  have numbers : List.Forall₂ (Reads unsigned) (funcs.map bbuleb) funcs := by
    rw [List.forall₂_map_left_iff, List.forall₂_same]
    exact fun v _ => reads_bbuleb v
  refine (reads_entries functions numbers).bind ?_
  refine (reads_entry (Wasm.reads_memoryEntry (reads_bbuleb 1))).bind ?_
  refine (reads_entry (Wasm.reads_globalEntry .i32 0x01 (reads_constant _))).bind ?_
  refine (reads_entries exported eachExport).bind ?_
  refine (reads_entries coded eachCode).bind ?_
  exact (reads_entry (Wasm.reads_dataEntry (reads_constant _) (reads_bbuleb _))).last

theorem asmb_reads {allsyms : List Sym} {arenaend : Int} {bytes : List UInt8} (ready : Ready e)
    (written : asmb e allsyms arenaend = .ok bytes) : ∃ m, Wasm.read bytes = some m ∧ Written e allsyms arenaend m := by
  obtain ⟨⟨is, sigtab⟩, collected, written⟩ := Outcome.bind_eq_ok.mp written
  obtain ⟨typeentries, listed, written⟩ := Outcome.bind_eq_ok.mp written
  obtain ⟨⟨importtypes, later⟩, importsigs, written⟩ := Outcome.bind_eq_ok.mp written
  obtain ⟨⟨texttypes, last⟩, textsigs, written⟩ := Outcome.bind_eq_ok.mp written
  obtain ⟨first, started, written⟩ := Outcome.bind_eq_ok.mp written
  obtain ⟨bodies, emitted, same⟩ := Outcome.bind_eq_ok.mp written
  -- the first pass holds every signature, and the later ones add none
  obtain ⟨-, held, rows, grown, padded⟩ := sigindexes_spec (forall_sigs ready.textsigs ready.importsigs) collected
  rw [List.nil_append] at grown
  subst grown
  have textsHeld : ∀ sig ∈ e.texts.map Text.sig, Held sigtab sig := fun sig inside => held sig (List.mem_append_left _ inside)
  have importsHeld : ∀ sig ∈ e.imports.map WasmLink.Import.sig, Held sigtab sig := fun sig inside => held sig (List.mem_append_right _ inside)
  have stays := sigindexes_held importsHeld importsigs
  subst stays
  have stays := sigindexes_held textsHeld textsigs
  subst stays
  obtain ⟨types, spelled, eachType⟩ := emittypes_reads padded (.inl rfl) listed
  have importsTyped := (sigindexes_spec (List.forall_mem_map.mpr ready.importsigs) importsigs).1
  have textsTyped := (sigindexes_spec (List.forall_mem_map.mpr ready.textsigs) textsigs).1
  obtain ⟨imports, eachImport, imported⟩ := imports_reads spelled importsTyped
  obtain ⟨exports, resolved, eachExport⟩ := startexport_reads started
  obtain ⟨codes, eachCode, coded⟩ := bodies_read emitted
  have textcount : texttypes.length = e.texts.length := by simpa using textsTyped.length_eq.symm
  have importcount : imports.length = e.imports.length := imported.length_eq.symm
  have exportcount : (⟨memory, 0x02, 0⟩ :: (exports ++ textexportsOf e.s e.imports.length e.texts) : List Wasm.Export).length =
      1 + e.texts.length := by
    rw [List.length_cons, exports_length ready resolved, Nat.add_comm]
  have allExports := List.Forall₂.cons (reads_exportentry memory 0x02 0)
    (List.rel_append eachExport (textexports_reads e.s e.imports.length e.texts))
  refine ⟨⟨types, imports, texttypes, [1], [⟨.i32, 1, WASMPAGESIZE⟩], ⟨memory, 0x02, 0⟩ :: (exports ++ textexportsOf e.s e.imports.length e.texts),
    codes, [⟨ARENABASE, arena e.s e.value allsyms arenaend⟩]⟩, ?_, imported, ?_, rfl, rfl, ⟨exports, resolved, rfl⟩, coded, rfl⟩
  · have defined := reads_definitions types imports (arena e.s e.value allsyms arenaend) textcount
      exportcount allExports coded.length_eq.symm eachCode
    have typed : Reads (section_ 1 [] (whole (vec Wasm.typeEntry))) (emitsection 1 (bbuleb last.length ++ typeentries.flatten)) types :=
      reads_entries spelled.length_eq.symm eachType
    cases same
    simp only [List.append_assoc]
    apply Wasm.read_sections
    refine typed.bind ?_
    split
    case isTrue =>
      exact (reads_entries importcount eachImport).bind defined
    case isFalse none_ =>
      -- without imports the next section is read where theirs would stand
      have empty : imports = [] := List.length_eq_zero_iff.mp (by omega)
      rw [empty] at defined ⊢
      exact Reads.skip (by decide) defined
  · exact (List.forall₂_map_left_iff.mp textsTyped).imp fun _ _ typed => typed.type spelled

end Sections

end Goken.Proofs.Wasmcode
