import Goken.Syminit
import Mathlib.Data.List.Infix

/-! Loading a symbol table: what its bytes hold, what `syminit` makes of it, and the counts
that agree with the symbols in every state. -/

namespace Goken.Proofs.Syminit
open Goken.Syminit Goken.Findsym

/-- How a table ends: at its declared size, inside a record whose value is there, or
before the value of a record. -/
inductive Ending where
  | whole
  | torn
  | missing
deriving DecidableEq, Repr

structure Content where
  symbols : List Sym
  ending : Ending

/-- The records that are begun. -/
def Content.begun (c : Content) : Nat := c.symbols.length + if c.ending = .torn then 1 else 0

/-- The records of the bytes, of which so many and so much of the size are done. -/
def contentFrom (room : Room) (fp : Fhdr) : Nat → Nat → Int → List UInt8 → Content
  | 0, _, _, _ => ⟨[], .whole⟩
  | fuel + 1, done, size, bytes =>
      if size < fp.symsz then
        match bread fp.svalsz bytes with
        | none => ⟨[], .missing⟩
        | some (value, bytes) =>
            match symbol room done value bytes with
            | none => ⟨[], .torn⟩
            | some (p, n, bytes) =>
                let rest := contentFrom room fp fuel (done + 1) (int32 (size + n + fp.svalsz + 1)) bytes
                { rest with symbols := p :: rest.symbols }
      else ⟨[], .whole⟩

def content (room : Room) (fp : Fhdr) (file : List UInt8) : Content :=
  let bytes := file.drop fp.symoff
  contentFrom room fp (bytes.length + 1) 0 0 bytes

/-! The loop over the records. -/

section Load

variable {room : Room} {fp : Fhdr}

theorem bread_length {n : Nat} {bytes front rest : List UInt8} (read : bread n bytes = some (front, rest)) :
    rest.length + n = bytes.length := by
  unfold bread at read
  split at read
  · cases read
  · cases read
    simp only [List.length_drop]
    omega

theorem brdline_length {bytes line rest : List UInt8} (read : brdline bytes = some (line, rest)) :
    rest.length ≤ bytes.length := by
  simp only [brdline] at read
  split at read
  · cases read
    simp only [List.length_drop]
    omega
  · cases read

theorem decodename_length {record : Nat} {type : UInt8} {bytes name rest : List UInt8} {c : Char} {n : Int}
    (decoded : decodename room record type bytes = some (c, name, n, rest)) : rest.length ≤ bytes.length := by
  simp only [decodename] at decoded
  split at decoded
  · split at decoded
    · simp only [Option.map_eq_some_iff, Prod.exists, Prod.mk.injEq] at decoded
      obtain ⟨front, after, read, -, -, -, rfl⟩ := decoded
      have := bread_length read
      simp only [List.length_drop]
      omega
    · cases decoded
  · split at decoded
    · simp only [Option.bind_eq_some_iff] at decoded
      obtain ⟨length, -, decoded⟩ := decoded
      split at decoded
      · simp only [Option.some.injEq, Prod.mk.injEq] at decoded
        obtain ⟨-, -, -, rfl⟩ := decoded
        exact (List.drop_sublist _ _).length_le
      · cases decoded
    · simp only [Option.bind_eq_some_iff, Prod.exists] at decoded
      obtain ⟨line, after, read, decoded⟩ := decoded
      split at decoded
      · cases decoded
        exact brdline_length read
      · cases decoded

theorem symbol_length {record : Nat} {value bytes rest : List UInt8} {p : Sym} {n : Int}
    (read : symbol room record value bytes = some (p, n, rest)) : rest.length ≤ bytes.length := by
  cases bytes with
  | nil => cases read
  | cons type bytes =>
    simp only [symbol, Option.map_eq_some_iff, Prod.exists, Prod.mk.injEq] at read
    obtain ⟨c, name, m, after, decoded, -, -, rfl⟩ := read
    have := decodename_length decoded
    simp only [List.length_cons]
    omega

theorem count_symbols (st : Statics) (p : Sym) : (count st p).symbols = st.symbols ++ [renamed p] := by
  simp only [count]
  split_ifs <;> rfl

theorem foldl_symbols (symbols : List Sym) (st : Statics) :
    (symbols.foldl count st).symbols = st.symbols ++ symbols.map renamed := by
  induction symbols generalizing st with
  | nil => simp
  | cons p rest ih => rw [List.foldl_cons, ih, count_symbols]; simp

/-- The loop loads the records if there is a cell for each that is begun. -/
theorem load_eq {fuel left : Nat} {size : Int} {bytes : List UInt8} {st : Statics} (enough : bytes.length < fuel) :
    load room fp left size bytes st =
      let c := contentFrom room fp fuel st.symbols.length size bytes
      if c.begun ≤ left then
        if c.ending = .whole then .returns (c.symbols.foldl count st) else .fails (c.symbols.foldl count st)
      else .fault := by
  induction fuel generalizing left size bytes st with
  | zero => omega
  | succ fuel ih =>
    rw [load, contentFrom]
    by_cases more : size < fp.symsz
    · rw [if_pos more, if_pos more]
      cases read : bread fp.svalsz bytes with
      | none => simp [Content.begun]
      | some found =>
        obtain ⟨value, after⟩ := found
        have shorter := bread_length read
        have least : 4 ≤ fp.svalsz := by
          unfold Fhdr.svalsz
          split <;> omega
        cases parsed : symbol room st.symbols.length value after with
        | none =>
          cases left with
          | zero => simp [parsed, Content.begun]
          | succ left => simp [parsed, Content.begun]
        | some record =>
          obtain ⟨p, n, rest⟩ := record
          have := symbol_length parsed
          cases left with
          | zero => simp [parsed, Content.begun]
          | succ left =>
            have grown : (count st p).symbols.length = st.symbols.length + 1 := by simp [count_symbols]
            simp only [parsed]
            rw [ih (by omega), grown]
            simp only [Content.begun, List.length_cons, List.foldl_cons, Nat.add_right_comm _ 1, Nat.add_le_add_iff_right]
            rfl
    · rw [if_neg more, if_neg more]
      simp [Content.begun]

end Load

/-! The counts. -/

def isauto (p : Sym) : Bool := p.type = 'a' ∨ p.type = 'p' ∨ p.type = 'm'

def ishist (p : Sym) : Bool := p.type = 'z'

def newFile (p : Sym) : Bool := p.type = 'z' ∧ p.value = 1

def higher (m : Int) (p : Sym) : Int := if p.type = 'f' ∧ vlong p.value > m then int32 (vlong p.value) else m

def highest (symbols : List Sym) : Int := symbols.foldl higher 0

structure Counted (st : Statics) : Prop where
  globals : st.nglob = st.symbols.countP Sym.isglobal
  texts : st.ntxt = st.symbols.countP Sym.istext
  autos : st.nauto = st.symbols.countP isauto
  hist : st.nhist = st.symbols.countP ishist + st.symbols.countP newFile
  files : st.nfiles = st.symbols.countP newFile
  paths : st.fmaxi = highest st.symbols

theorem highest_append (symbols : List Sym) (p : Sym) : highest (symbols ++ [p]) = higher (highest symbols) p := by
  simp [highest]

/-- What counting a record adds is decided by the count, renamed, Sym.isframe, Sym.istext, Sym.isglobal, isauto, ishist, newFile, higher alone. -/
theorem count_eq (st : Statics) (p : Sym) :
    count st p =
      { st with
        symbols := st.symbols ++ [renamed p]
        nglob := st.nglob + (renamed p).isglobal.toNat
        ntxt := st.ntxt + (renamed p).istext.toNat
        nauto := st.nauto + (isauto (renamed p)).toNat
        nhist := st.nhist + ((ishist (renamed p)).toNat + (newFile (renamed p)).toNat)
        nfiles := st.nfiles + (newFile (renamed p)).toNat
        fmaxi := higher st.fmaxi (renamed p) } := by
  obtain ⟨value, type, name⟩ := p
  by_cases text : (⟨value, type, name⟩ : Sym).istext
  · simp only [Sym.istext, decide_eq_true_eq] at text
    rcases text with rfl | rfl | rfl | rfl <;> simp [count, renamed, Sym.isframe, Sym.istext, Sym.isglobal, isauto, ishist, newFile, higher]
  by_cases global : (⟨value, type, name⟩ : Sym).isglobal
  · simp only [Sym.isglobal, decide_eq_true_eq] at global
    rcases global with rfl | rfl | rfl | rfl <;> simp [count, renamed, Sym.isframe, Sym.istext, Sym.isglobal, isauto, ishist, newFile, higher]
  by_cases path : type = 'f'
  · subst path
    by_cases framed : cstring name = frame
    · simp [count, renamed, Sym.isframe, Sym.istext, Sym.isglobal, isauto, ishist, newFile, higher, framed]
    · by_cases above : vlong value > st.fmaxi <;> simp [count, renamed, Sym.isframe, Sym.istext, Sym.isglobal, isauto, ishist, newFile, higher, framed, above]
  by_cases local_ : type = 'a' ∨ type = 'p' ∨ type = 'm'
  · rcases local_ with rfl | rfl | rfl <;> simp [count, renamed, Sym.isframe, Sym.istext, Sym.isglobal, isauto, ishist, newFile, higher]
  by_cases history : type = 'z'
  · subst history
    by_cases first : value = 1 <;> simp [count, renamed, Sym.isframe, Sym.istext, Sym.isglobal, isauto, ishist, newFile, higher, first]
  · simp_all [count, renamed, Sym.isframe, Sym.istext, Sym.isglobal, isauto, ishist, newFile, higher]

theorem countP_next (test : Sym → Bool) (symbols : List Sym) (p : Sym) :
    (symbols ++ [p]).countP test = symbols.countP test + (test p).toNat := by
  cases h : test p <;> simp [h]

theorem count_counted {st : Statics} (counted : Counted st) (p : Sym) : Counted (count st p) := by
  obtain ⟨globals, texts, autos, hist, files, paths⟩ := counted
  rw [count_eq]
  constructor <;> simp only [countP_next, highest_append, *]
  omega

theorem counted_foldl {st : Statics} (counted : Counted st) (symbols : List Sym) : Counted (symbols.foldl count st) := by
  induction symbols generalizing st with
  | nil => exact counted
  | cons p rest ih => exact ih (count_counted counted p)

theorem Counted.same {st st' : Statics} (counted : Counted st) (symbols : st'.symbols = st.symbols) (nglob : st'.nglob = st.nglob)
    (ntxt : st'.ntxt = st.ntxt) (nauto : st'.nauto = st.nauto) (nhist : st'.nhist = st.nhist) (nfiles : st'.nfiles = st.nfiles)
    (fmaxi : st'.fmaxi = st.fmaxi) : Counted st' := by
  obtain ⟨globals, texts, autos, hist, files, paths⟩ := counted
  constructor <;> simp only [*]

/-- What a state is after any calls of the two functions. -/
inductive Reached : Statics → Prop where
  | start : Reached {}
  | returns {room : Room} {fp : Fhdr} {file : List UInt8} {st st' : Statics} (reached : Reached st)
      (loaded : syminit room fp file st = .returns st') : Reached st'
  | fails {room : Room} {fp : Fhdr} {file : List UInt8} {st st' : Statics} (reached : Reached st)
      (stopped : syminit room fp file st = .fails st') : Reached st'
  | built {st : Statics} (reached : Reached st) : Reached { st with isbuilt := true }

/-! The whole call. -/

/-- There is nothing to load. -/
def Idle (fp : Fhdr) : Prop := fp.symsz = 0 ∨ fp.type = FNONE

/-- The two tables behind the symbols can be read. -/
def OffsetsRead (room : Room) (fp : Fhdr) (file : List UInt8) : Bool :=
  (offsets room .spoff fp.sppcsz (file.drop fp.sppcoff)).isSome && (offsets room .pcline fp.lnpcsz (file.drop fp.lnpcoff)).isSome

section Call

variable {room : Room} {fp : Fhdr} {file : List UInt8} {st st' : Statics}

theorem syminit_idle (idle : Idle fp) : syminit room fp file st = .returns st := if_pos idle

theorem syminit_busy (busy : ¬Idle fp) :
    syminit room fp file st =
      let c := content room fp file
      let st := c.symbols.foldl count (textseg fp.txtaddr fp cleansyms)
      if malloc room .symbols fp.slots then
        if c.begun ≤ fp.slots.toNat then if c.ending = .whole then readOffsets room fp file st else .fails st else .fault
      else .fails (textseg fp.txtaddr fp cleansyms) := by
  have loaded : load room fp fp.slots.toNat 0 (file.drop fp.symoff) (textseg fp.txtaddr fp cleansyms) =
      if (content room fp file).begun ≤ fp.slots.toNat then
        if (content room fp file).ending = .whole then
          .returns ((content room fp file).symbols.foldl count (textseg fp.txtaddr fp cleansyms))
        else .fails ((content room fp file).symbols.foldl count (textseg fp.txtaddr fp cleansyms))
      else .fault := load_eq (Nat.lt_succ_self _)
  refine (if_neg busy).trans ?_
  simp only [loaded]
  by_cases fits : (content room fp file).begun ≤ fp.slots.toNat
  · by_cases whole : (content room fp file).ending = .whole
    · simp only [if_pos fits, if_pos whole]
    · simp only [if_pos fits, if_neg whole]
  · simp only [if_neg fits]

theorem cleared_counted (fp : Fhdr) : Counted (textseg fp.txtaddr fp cleansyms) := by
  constructor <;> rfl

variable (room fp file) in
theorem readOffsets_cases (counted : Counted st) :
    ∃ st', Counted st' ∧ st'.symbols = st.symbols ∧ st'.isbuilt = st.isbuilt ∧
      readOffsets room fp file st = if OffsetsRead room fp file then .returns st' else .fails st' := by
  have same : ∀ spoff pcline, Counted { st with spoff := spoff, pcline := pcline } :=
    fun spoff pcline => counted.same rfl rfl rfl rfl rfl rfl rfl
  unfold readOffsets OffsetsRead
  cases offsets room .spoff fp.sppcsz (file.drop fp.sppcoff) with
  | none => exact ⟨st, counted, rfl, rfl, rfl⟩
  | some spoff =>
    cases offsets room .pcline fp.lnpcsz (file.drop fp.lnpcoff) with
    | none => exact ⟨{ st with spoff := spoff }, same spoff st.pcline, rfl, rfl, rfl⟩
    | some pcline => exact ⟨{ st with spoff := spoff, pcline := pcline }, same spoff pcline, rfl, rfl, rfl⟩

theorem symbols_loaded (symbols : List Sym) :
    (symbols.foldl count (textseg fp.txtaddr fp cleansyms)).symbols = symbols.map renamed := by
  rw [foldl_symbols]
  rfl

theorem count_unbuilt (symbols : List Sym) (st : Statics) : (symbols.foldl count st).isbuilt = st.isbuilt := by
  induction symbols generalizing st with
  | nil => rfl
  | cons p rest ih => rw [List.foldl_cons, ih, count_eq]

/-- Nothing that is loaded, or left behind when loading stops, disagrees with its counts. -/
theorem syminit_counted (counted : Counted st)
    (ended : syminit room fp file st = .returns st' ∨ syminit room fp file st = .fails st') : Counted st' := by
  by_cases idle : Idle fp
  · rw [syminit_idle idle] at ended
    simp only [Outcome.returns.injEq, reduceCtorEq, or_false] at ended
    exact ended ▸ counted
  · have loaded := counted_foldl (cleared_counted fp) (content room fp file).symbols
    obtain ⟨st'', counted'', -, -, read⟩ := readOffsets_cases room fp file loaded
    rw [syminit_busy idle] at ended
    simp only [read] at ended
    split_ifs at ended <;> simp only [Outcome.returns.injEq, Outcome.fails.injEq, or_false, false_or] at ended
    all_goals subst ended
    · exact counted''
    · exact counted''
    · exact loaded
    · exact cleared_counted fp

theorem reached_counted (reached : Reached st) : Counted st := by
  induction reached with
  | start => constructor <;> rfl
  | returns _ loaded ih => exact syminit_counted ih (.inl loaded)
  | fails _ stopped ih => exact syminit_counted ih (.inr stopped)
  | built _ ih => exact ih.same rfl rfl rfl rfl rfl rfl rfl

end Call

end Goken.Proofs.Syminit
