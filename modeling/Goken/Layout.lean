import Goken.Types

/-! Layout of structures and unions: the declarator actions of cc.y that keep
`lastbit` and `firstbit`, `dodecl` and `edecl` (libcc/dcl.c) that turn them into
signed shifts, and `sualign` with the arm `align` (5c/swt.c) that assigns
offsets in a second pass. The bodies of nested structures are parsed where they
stand, with the same two globals. -/

namespace Goken.Layout

/-- The part of `Type` that the layout reads. -/
inductive Ctype where
  | typ (etype : Etype) (width : Int)
  | array (width : Int) (link : Ctype)
  deriving DecidableEq, Repr

namespace Ctype

def etype : Ctype → Etype
  | typ et _ => et
  | array _ _ => .TARRAY

def width : Ctype → Int
  | typ _ w => w
  | array w _ => w

/-- The loop over `TARRAY` in `align`. -/
def elem : Ctype → Etype
  | typ et _ => et
  | array _ link => link.elem

end Ctype

/-- The width of `tfield`, which is `types[TLONG]`. -/
def tfieldWidth : Int := Etype.ewidth .TLONG

def SZ_LONG : Int := 4

/-- The copy of a type that `edecl` appends to the list of members. -/
structure Member where
  type : Ctype
  sym : Option String
  nbits : Int
  shift : Int
  deriving DecidableEq, Repr

/-- A member after `sualign`. -/
structure Placed where
  member : Member
  offset : Int
  shift : Int
  deriving DecidableEq, Repr

def roundDiags (w : Int) : List String := if w ≤ 0 ∨ 8 < w then ["rounding by " ++ toString w] else []

def round (v w : Int) : Int :=
  let w := if w ≤ 0 ∨ 8 < w then 1 else w
  let r := v.tmod w
  if r ≠ 0 then v + (w - r) else v

/-- The opcodes of `align` for elements of structures. -/
inductive Aop where
  | Asu2 | Ael1 | Ael2
  deriving DecidableEq, Repr

/-- The `w` that `align` rounds by. -/
def alignment (packflg : Int) (elem : Etype) : Aop → Int
  | .Asu2 => if packflg ≠ 0 then packflg else SZ_LONG
  | .Ael1 =>
    let w := elem.ewidth
    let w := if w ≤ 0 ∨ SZ_LONG ≤ w then SZ_LONG else w
    if packflg ≠ 0 then packflg else w
  | .Ael2 => 1

/-- `align` works in `int32`. -/
def align (packflg i : Int) (t : Ctype) (op : Aop) : Int :=
  let o := int32 i
  let o := if op = .Ael2 then int32 (o + t.width) else o
  int32 (round o (alignment packflg t.elem op))

def incomplete (kind : String) (sym : Option String) : String :=
  match sym with
  | some name => "incomplete " ++ kind ++ " element: " ++ name
  | none => "incomplete " ++ kind ++ " element"

structure Aligned where
  link : List Placed
  width : Int
  diags : List String
  deriving DecidableEq, Repr

/-- The loop of `sualign` over a structure; `o` is the last field unit. -/
def alignStruct (packflg : Int) : Int → Int → List Member → Aligned
  | w, _, [] => ⟨[], w, []⟩
  | w, o, l :: down =>
    if l.nbits ≠ 0 then
      if l.shift ≤ 0 then
        let o := round w tfieldWidth
        let rest := alignStruct packflg (o + tfieldWidth) o down
        { rest with link := ⟨l, o, -l.shift⟩ :: rest.link }
      else
        let rest := alignStruct packflg w o down
        { rest with link := ⟨l, o, l.shift⟩ :: rest.link }
    else
      let missing := l.type.width < 0 ∨ l.type.width = 0 ∧ down ≠ []
      let diags := if missing then [incomplete "structure" l.sym] else []
      let offset := align packflg w l.type .Ael1
      let rest := alignStruct packflg (align packflg offset l.type .Ael2) o down
      { rest with
        link := ⟨l, offset, l.shift⟩ :: rest.link
        diags := diags ++ roundDiags (alignment packflg l.type.elem .Ael1) ++ rest.diags }

def alignUnion (packflg : Int) : Int → List Member → Aligned
  | w, [] => ⟨[], w, []⟩
  | w, l :: down =>
    let diags := if l.type.width ≤ 0 then [incomplete "union" l.sym] else []
    let o := align packflg (align packflg 0 l.type .Ael1) l.type .Ael2
    let rest := alignUnion packflg (if w < o then o else w) down
    { rest with
      link := ⟨l, 0, 0⟩ :: rest.link
      diags := diags ++ roundDiags (alignment packflg l.type.elem .Ael1) ++ rest.diags }

inductive Su where
  | TSTRUCT | TUNION
  deriving DecidableEq, Repr

def Su.etype : Su → Etype
  | TSTRUCT => .TSTRUCT
  | TUNION => .TUNION

def sualign (su : Su) (packflg : Int) (link : List Member) : Aligned :=
  let body := match su with
    | .TSTRUCT => alignStruct packflg 0 0 link
    | .TUNION => alignUnion packflg 0 link
  { body with
    width := align packflg body.width (.typ su.etype 0) .Asu2
    diags := body.diags ++ roundDiags (alignment packflg su.etype .Asu2) }

/-- The globals that survive from one declarator to the next. -/
structure Bits where
  lastbit : Int
  firstbit : Bool
  deriving DecidableEq, Repr

/-- What the actions of a piece of grammar did. -/
structure Parsed where
  members : List Member
  bits : Bits
  diags : List String
  deriving DecidableEq, Repr

def edecl (t : Ctype) (s : Option String) (lastfield : Int) (bits : Bits) : Member :=
  if lastfield ≠ 0 then
    let shift := bits.lastbit - lastfield
    ⟨.typ (if t.etype.typeu then .TULONG else .TLONG) t.width, s, lastfield, if bits.firstbit then -shift else shift⟩
  else ⟨t, s, 0, 0⟩

/-- One level of a declarator. A size that is no constant counts as -1. -/
inductive Deriv where
  | OIND
  | OARRAY (size : Option Int)
  | OFUNC
  deriving DecidableEq, Repr

def Deriv.apply (t : Ctype) : Deriv → Ctype
  | .OIND => .typ .TIND (Etype.ewidth .TIND)
  | .OARRAY none => .array 0 t
  | .OARRAY (some v) => .array (Int.bmod ((if v ≤ 0 then 1 else v) * t.width) (2 ^ 64)) t
  | .OFUNC => .typ .TFUNC (Etype.ewidth .TFUNC)

def Deriv.diags : Deriv → List String
  | .OARRAY (some v) => if v ≤ 0 then ["array size must be a positive constant"] else []
  | _ => []

/-- An ordinary declarator: the action of `edecor`, then `dodecl` down to `ONAME`. -/
def oname (name : String) (derivs : List Deriv) (t : Ctype) : Parsed :=
  let bits : Bits := ⟨0, true⟩
  ⟨[edecl (derivs.foldl Deriv.apply t) (some name) 0 bits], { bits with firstbit := false }, derivs.flatMap Deriv.diags⟩

/-- The `lastfield` that `dodecl` settles on for the declarator `tag : width`;
`width` is -1 when it is no constant. -/
def obitField (tag : Option String) (width : Int) (t : Ctype) : Int :=
  let lastfield := if width < 0 then 1 else width
  let lastfield := if lastfield = 0 ∧ tag.isSome then 1 else lastfield
  let lastfield := if t.etype.typei then lastfield else 1
  if tfieldWidth * 8 < lastfield then 1 else lastfield

def obitDiags (tag : Option String) (width : Int) (t : Ctype) : List String :=
  (if width < 0 then ["field width must be non-negative constant"] else []) ++
  (if width = 0 ∧ tag.isSome then ["zero width named field"] else []) ++
  (if t.etype.typei then [] else ["field type must be int-like"]) ++
  if t.etype.typei ∧ tfieldWidth * 8 < width then ["field width larger than field unit"] else []

/-- The `OBIT` case of `dodecl`. -/
def obit (tag : Option String) (width : Int) (t : Ctype) (bits : Bits) : Parsed :=
  let lastfield := obitField tag width t
  let diags := obitDiags tag width t
  let t := if t.etype.typei then t else .typ .TINT (Etype.ewidth .TINT)
  let bits := if width = 0 then ⟨0, true⟩ else bits
  let lastbit := bits.lastbit + lastfield
  let bits : Bits := if tfieldWidth * 8 < lastbit then ⟨lastfield, true⟩ else ⟨lastbit, bits.firstbit⟩
  match tag with
  | none => ⟨[], bits, diags⟩
  | some name => ⟨[edecl t (some name) lastfield bits], { bits with firstbit := false }, diags⟩

/-- An unnamed element, the empty `zedlist`. -/
def unnamed (t : Ctype) (bits : Bits) : Parsed :=
  ⟨[edecl t none 0 bits], bits,
    if t.etype.typesu then [] else ["unnamed structure element must be struct/union"]⟩

mutual

/-- The type in front of a list of declarators: known, or a body defined there. -/
inductive Tlist where
  | type (t : Ctype)
  | sbody (su : Su) (packflg : Int) (body : List Edecl)

inductive Edecl where
  | mk (tlist : Tlist) (zedlist : List Edecor)

/-- A declarator. The width of a field is an expression, which may contain
bodies too, as the operand of a `sizeof`. -/
inductive Edecor where
  | xdecor (name : String) (derivs : List Deriv)
  | obit (tag : Option String) (lexpr : List Tlist) (width : Int)

end

mutual

def Tlist.parse : Tlist → Bits → Ctype × Bits × List String
  | .type t, bits => (t, bits, [])
  | .sbody su packflg body, _ =>
    let parsed := parseBody body ⟨0, true⟩
    let aligned := sualign su packflg parsed.members
    (.typ su.etype aligned.width, parsed.bits, parsed.diags ++ aligned.diags)

def parseBody : List Edecl → Bits → Parsed
  | [], bits => ⟨[], bits, []⟩
  | d :: body, bits =>
    let first := d.parse bits
    let rest := parseBody body first.bits
    ⟨first.members ++ rest.members, rest.bits, first.diags ++ rest.diags⟩

def Edecl.parse : Edecl → Bits → Parsed
  | .mk tlist zedlist, bits =>
    let (t, bits, diags) := tlist.parse bits
    let elements := if zedlist.isEmpty then unnamed t bits else parseEdlist zedlist t bits
    { elements with diags := diags ++ elements.diags }

def parseEdlist : List Edecor → Ctype → Bits → Parsed
  | [], _, bits => ⟨[], bits, []⟩
  | e :: edlist, t, bits =>
    let first := e.parse t bits
    let rest := parseEdlist edlist t first.bits
    ⟨first.members ++ rest.members, rest.bits, first.diags ++ rest.diags⟩

def Edecor.parse : Edecor → Ctype → Bits → Parsed
  | .xdecor name derivs, t, _ => oname name derivs t
  | .obit tag lexpr width, t, bits =>
    let (bits, diags) := parseLexpr lexpr bits
    let field := Layout.obit tag width t bits
    { field with diags := diags ++ field.diags }

def parseLexpr : List Tlist → Bits → Bits × List String
  | [], bits => (bits, [])
  | tlist :: lexpr, bits =>
    let (_, bits, diags) := tlist.parse bits
    let rest := parseLexpr lexpr bits
    (rest.1, diags ++ rest.2)

end

/-- A declaration `struct { ... }` or `union { ... }`. -/
structure Sdecl where
  su : Su
  packflg : Int
  body : List Edecl

namespace Sdecl

def parsed (d : Sdecl) : Parsed := parseBody d.body ⟨0, true⟩

def aligned (d : Sdecl) : Aligned := sualign d.su d.packflg d.parsed.members

/-- No error was reported, in the body or in a body inside it. -/
def Accepted (d : Sdecl) : Prop := d.parsed.diags ++ d.aligned.diags = []

instance (d : Sdecl) : Decidable d.Accepted := inferInstanceAs (Decidable (_ = []))

end Sdecl

/-! What a sound layout is. -/

namespace Placed

/-- The first bit of a member; a word has its low bits in its first byte. -/
def low (p : Placed) : Int := 8 * p.offset + if p.member.nbits ≠ 0 then p.shift else 0

/-- The bit after the last one. -/
def high (p : Placed) : Int :=
  if p.member.nbits ≠ 0 then 8 * p.offset + p.shift + p.member.nbits else 8 * (p.offset + p.member.type.width)

def Disjoint (p q : Placed) : Prop := p.high ≤ q.low ∨ q.high ≤ p.low

/-- A field is accessed as a unit; other members have the alignment of `align`. -/
def alignment (packflg : Int) (p : Placed) : Int :=
  if p.member.nbits ≠ 0 then tfieldWidth else Layout.alignment packflg p.member.type.elem .Ael1

instance (p q : Placed) : Decidable (p.Disjoint q) := inferInstanceAs (Decidable (_ ∨ _))

end Placed

/-- The layout that a declaration gets is sound. -/
def Sdecl.Sound (d : Sdecl) : Prop :=
  (∀ p ∈ d.aligned.link, 0 ≤ p.low ∧ p.low ≤ p.high ∧ p.high ≤ 8 * d.aligned.width) ∧
  match d.su with
  | .TSTRUCT => d.aligned.link.Pairwise Placed.Disjoint ∧
      ∀ p ∈ d.aligned.link, p.alignment d.packflg ∣ p.offset
  | .TUNION => ∀ p ∈ d.aligned.link, p.offset = 0 ∧ p.low = 0

/-! Which declarations get a sound layout. -/

/-- A named field of this width is added to the unit that is open. -/
def joins (bits : Bits) (width : Int) : Bool :=
  !bits.firstbit && 0 < bits.lastbit && bits.lastbit + width ≤ tfieldWidth * 8

def Tlist.isBody : Tlist → Bool
  | .type _ => false
  | .sbody _ _ _ => true

/-- Since the last named field of the structure there was another member, or a
body was parsed. -/
def Edecor.stale (stale : Bool) : Edecor → Bool
  | .xdecor _ _ => true
  | .obit tag lexpr _ => tag.isNone && (stale || lexpr.any Tlist.isBody)

/-- No named field joins a stale unit. -/
def Edecor.clean (bits : Bits) (stale : Bool) : Edecor → Bool
  | .xdecor _ _ => true
  | .obit tag lexpr width =>
    !(tag.isSome && (stale || lexpr.any Tlist.isBody) && joins (parseLexpr lexpr bits).1 width)

def cleanEdlist : List Edecor → Ctype → Bits → Bool → Bool
  | [], _, _, _ => true
  | e :: edlist, t, bits, stale => e.clean bits stale && cleanEdlist edlist t (e.parse t bits).bits (e.stale stale)

def cleanBody : List Edecl → Bits → Bool → Bool
  | [], _, _ => true
  | .mk tlist zedlist :: body, bits, stale =>
    let stale := stale || tlist.isBody
    cleanEdlist zedlist (tlist.parse bits).1 (tlist.parse bits).2.1 stale &&
      cleanBody body (Edecl.parse (.mk tlist zedlist) bits).bits (zedlist.foldl Edecor.stale stale)

/-- The end of the last member in exact arithmetic. -/
def structEnd (packflg : Int) : Int → List Member → Int
  | w, [] => w
  | w, l :: down =>
    if l.nbits ≠ 0 then structEnd packflg (if l.shift ≤ 0 then round w tfieldWidth + tfieldWidth else w) down
    else structEnd packflg (round w (alignment packflg l.type.elem .Ael1) + l.type.width) down

def unionEnd : Int → List Member → Int
  | w, [] => w
  | w, l :: down => unionEnd (max w l.type.width) down

/-- The size a declaration asks for is one that `align` can represent. -/
def Sdecl.Small (d : Sdecl) : Prop :=
  let w := match d.su with
    | .TSTRUCT => structEnd d.packflg 0 d.parsed.members
    | .TUNION => unionEnd 0 d.parsed.members
  round w (alignment d.packflg d.su.etype .Asu2) < 2 ^ 31

instance (d : Sdecl) : Decidable d.Small := inferInstanceAs (Decidable (round _ _ < 2 ^ 31))

/-- In a structure no field joins a stale unit; in a union no field is wider than the
largest of the declared types, rounded up. -/
def Sdecl.Clean (d : Sdecl) : Prop :=
  match d.su with
  | .TSTRUCT => cleanBody d.body ⟨0, true⟩ true = true
  | .TUNION => ∀ l ∈ d.parsed.members,
      l.nbits ≤ 8 * round (unionEnd 0 d.parsed.members) (alignment d.packflg Su.TUNION.etype .Asu2)

instance : (d : Sdecl) → Decidable d.Clean
  | ⟨.TSTRUCT, _, _⟩ => inferInstanceAs (Decidable (_ = true))
  | ⟨.TUNION, _, _⟩ => inferInstanceAs (Decidable (∀ l ∈ _, _))

end Goken.Layout
