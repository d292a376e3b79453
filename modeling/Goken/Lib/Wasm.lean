import Goken.Lib.Readers

/-! Modules of WebAssembly in the binary format: those of one-byte block types, plain
memories and initial values that are constants. Functions are numbered with the imported
ones first. -/

namespace Goken.Lib.Wasm
open Readers

inductive ValType where
  | i32 | i64 | f32 | f64
  deriving DecidableEq, Repr

def ValType.code : ValType → UInt8
  | .i32 => 0x7F
  | .i64 => 0x7E
  | .f32 => 0x7D
  | .f64 => 0x7C

structure FuncType where
  params : List ValType
  results : List ValType
  deriving DecidableEq, Repr

inductive Imm where
  | none
  | byte (b : UInt8)
  | index (n : Nat)
  | const (v : Int)
  | bytes (text : List UInt8)
  | memarg (align offset : Nat)
  deriving DecidableEq, Repr

structure Instr where
  op : UInt8
  imm : Imm
  deriving DecidableEq, Repr

structure Import where
  host : List UInt8
  field : List UInt8
  type : Nat
  deriving DecidableEq, Repr

structure Global where
  type : ValType
  changes : UInt8
  init : Int
  deriving DecidableEq, Repr

structure Export where
  name : List UInt8
  kind : UInt8
  index : Nat
  deriving DecidableEq, Repr

structure Code where
  locals : List (Nat × ValType)
  instrs : List Instr
  deriving DecidableEq, Repr

structure Data where
  offset : Int
  bytes : List UInt8
  deriving DecidableEq, Repr

/-- `memories` has the numbers of pages that the memories start with. -/
structure Module where
  types : List FuncType
  imports : List Import
  funcs : List Nat
  memories : List Nat
  globals : List Global
  exports : List Export
  codes : List Code
  data : List Data
  deriving DecidableEq, Repr

/-- A function that is called by its number. -/
inductive Func where
  | host (k : Nat)
  | own (k : Nat)
  deriving DecidableEq, Repr

def Module.func (m : Module) (i : Nat) : Option Func :=
  if i < m.imports.length then some (.host i)
  else if i - m.imports.length < m.funcs.length then some (.own (i - m.imports.length))
  else none

/-- The type of a function. -/
def Module.type (m : Module) : Func → Option FuncType
  | .host k => m.imports[k]?.bind fun i => m.types[i.type]?
  | .own k => m.funcs[k]?.bind fun i => m.types[i]?

def PAGE : Nat := 65536

/-! Reading. -/

def valtype : Reader ValType := do
  match ← byte with
  | 0x7F => return .i32
  | 0x7E => return .i64
  | 0x7D => return .f32
  | 0x7C => return .f64
  | _ => fail

/-- What follows an opcode. -/
inductive Shape where
  | none | byte | index | const | bytes (n : Nat) | memarg
  deriving DecidableEq, Repr

def shape (op : UInt8) : Option Shape :=
  if op ∈ ([0x02, 0x03, 0x04, 0x3F, 0x40] : List UInt8) then some .byte
  else if op ∈ ([0x0C, 0x0D, 0x10, 0x20, 0x21, 0x22, 0x23, 0x24] : List UInt8) then some .index
  else if op ∈ ([0x41, 0x42] : List UInt8) then some .const
  else if op = 0x43 then some (.bytes 4)
  else if op = 0x44 then some (.bytes 8)
  else if 0x28 ≤ op ∧ op ≤ 0x3E then some .memarg
  else if op ∈ ([0x00, 0x01, 0x05, 0x0B, 0x0F, 0x1A, 0x1B] : List UInt8) ∨ 0x45 ≤ op ∧ op ≤ 0xBF then some .none
  else none

def imm : Shape → Reader Imm
  | .none => return .none
  | .byte => do
    let b ← byte
    return .byte b
  | .index => do
    let n ← unsigned
    return .index n
  | .const => do
    let v ← signed
    return .const v
  | .bytes n => do
    let text ← take n
    return .bytes text
  | .memarg => do
    let align ← unsigned
    let offset ← unsigned
    return .memarg align offset

def instr : Reader Instr := do
  let op ← byte
  match shape op with
  | some s => do
    let i ← imm s
    return ⟨op, i⟩
  | none => fail

def name : Reader (List UInt8) := vec byte

def typeEntry : Reader FuncType := do
  exactly 0x60
  let params ← vec valtype
  let results ← vec valtype
  return ⟨params, results⟩

def importEntry : Reader Import := do
  let host ← name
  let field ← name
  exactly 0x00
  let type ← unsigned
  return ⟨host, field, type⟩

def memoryEntry : Reader Nat := do
  exactly 0x00
  unsigned

/-- A constant expression. -/
def init : Reader Int := do
  exactly 0x41
  let v ← signed
  exactly 0x0B
  return v

def globalEntry : Reader Global := do
  let type ← valtype
  let changes ← byte
  let v ← init
  return ⟨type, changes, v⟩

def exportEntry : Reader Export := do
  let text ← name
  let kind ← byte
  let index ← unsigned
  return ⟨text, kind, index⟩

def localEntry : Reader (Nat × ValType) := do
  let n ← unsigned
  let type ← valtype
  return (n, type)

def body (bytes : List UInt8) : Option Code :=
  match vec localEntry bytes with
  | some (locals, rest) => (many instr rest.length rest).map (Code.mk locals)
  | none => none

def dataEntry : Reader Data := do
  exactly 0x00
  let offset ← init
  let bytes ← vec byte
  return ⟨offset, bytes⟩

/-- The sections behind the types and the imports. -/
def definitions (types : List FuncType) (imports : List Import) : Reader Module := do
  let funcs ← section_ 3 [] (whole (vec unsigned))
  let memories ← section_ 5 [] (whole (vec memoryEntry))
  let globals ← section_ 6 [] (whole (vec globalEntry))
  let exports ← section_ 7 [] (whole (vec exportEntry))
  let codes ← section_ 10 [] (whole (vec (framed body)))
  let data ← section_ 11 [] (whole (vec dataEntry))
  return ⟨types, imports, funcs, memories, globals, exports, codes, data⟩

def sections : Reader Module := do
  let types ← section_ 1 [] (whole (vec typeEntry))
  let imports ← section_ 2 [] (whole (vec importEntry))
  definitions types imports

def header : List UInt8 := [0x00, 0x61, 0x73, 0x6D, 0x01, 0x00, 0x00, 0x00]

def read (bytes : List UInt8) : Option Module :=
  if bytes.take 8 = header then whole sections (bytes.drop 8) else none

/-! What is read back. -/

theorem read_sections {bytes : List UInt8} {m : Module} (reads : Reads sections bytes m) : read (header ++ bytes) = some m := by
  have front : (header ++ bytes).take 8 = header := List.take_left' rfl
  have back : (header ++ bytes).drop 8 = bytes := List.drop_left' rfl
  rw [read, front, back, if_pos rfl, reads.whole]

theorem reads_valtype (t : ValType) : Reads valtype [t.code] t := by
  cases t <;> exact fun _ => rfl

variable {n : List UInt8} {x : Int}

theorem reads_instr {op : UInt8} {s : Shape} {bytes : List UInt8} {i : Imm} (shaped : shape op = some s) (operand : Reads (imm s) bytes i) :
    Reads instr (op :: bytes) ⟨op, i⟩ := by
  refine (reads_byte op).bind (?_ : Reads _ bytes _)
  simp only [shaped]
  exact operand.last

theorem reads_init {bytes : List UInt8} (value : Reads signed bytes x) : Reads init (0x41 :: (bytes ++ [0x0B])) x :=
  (reads_exactly 0x41).bind (value.bind (reads_exactly 0x0B).last)

theorem reads_name {text : List UInt8} (length : Reads unsigned n text.length) : Reads name (n ++ text) text := by
  have each : List.Forall₂ (Reads byte) (text.map fun b => [b]) text := by
    rw [List.forall₂_map_left_iff, List.forall₂_same]
    exact fun b _ => reads_byte b
  have read := reads_vec length each
  rw [← List.flatMap_def, List.flatMap_singleton'] at read
  exact read

section Entries

variable {a b c : List UInt8} {v w : Nat}

theorem reads_typeEntry {params results : List ValType} (first : Reads (vec valtype) a params) (second : Reads (vec valtype) b results) :
    Reads typeEntry (0x60 :: (a ++ b)) ⟨params, results⟩ :=
  (reads_exactly 0x60).bind (first.bind second.last)

theorem reads_importEntry {host field : List UInt8} (first : Reads name a host) (second : Reads name b field) (type : Reads unsigned c v) :
    Reads importEntry (a ++ (b ++ 0x00 :: c)) ⟨host, field, v⟩ :=
  first.bind (second.bind ((reads_exactly 0x00).bind type.last))

theorem reads_memoryEntry (pages : Reads unsigned a v) : Reads memoryEntry (0x00 :: a) v := (reads_exactly 0x00).bind pages

theorem reads_globalEntry (t : ValType) (changes : UInt8) (value : Reads init a x) :
    Reads globalEntry (t.code :: changes :: a) ⟨t, changes, x⟩ :=
  (reads_valtype t).bind ((reads_byte changes).bind value.last)

theorem reads_exportEntry {text : List UInt8} (kind : UInt8) (first : Reads name a text) (index : Reads unsigned b v) :
    Reads exportEntry (a ++ kind :: b) ⟨text, kind, v⟩ :=
  first.bind ((reads_byte kind).bind index.last)

theorem reads_localEntry (t : ValType) (count : Reads unsigned a v) : Reads localEntry (a ++ [t.code]) (v, t) :=
  count.bind (reads_valtype t).last

theorem reads_dataEntry {bytes : List UInt8} (offset : Reads init a x) (length : Reads unsigned b bytes.length) :
    Reads dataEntry (0x00 :: (a ++ (b ++ bytes))) ⟨x, bytes⟩ :=
  (reads_exactly 0x00).bind (offset.bind (reads_name length).last)

end Entries

theorem reads_body {locals : List UInt8} {l : List (Nat × ValType)} {chunks : List (List UInt8)} {instrs : List Instr}
    (declared : Reads (vec localEntry) locals l) (each : List.Forall₂ (Reads instr) chunks instrs)
    (some_ : ∀ chunk ∈ chunks, chunk ≠ []) : body (locals ++ chunks.flatten) = some ⟨l, instrs⟩ := by
  rw [body, declared]
  simp only
  rw [reads_many each some_ (length_le_flatten some_)]
  rfl

end Goken.Lib.Wasm
