import Goken.Lib.Grouped

/-! Rule lookup of the ARM linker: `optab` (5l/optab.c), `cmp`, `ocmp`, `buildop` and
`oplook` (5l/span.c). What `aclass` says of an operand is a parameter. The terminator of the
table is its end. -/

namespace Goken.Oplook

/-- `enum Opcode`. -/
inductive As where
  | AXXX | ANOP | AAND | AORR | AEOR | ABIC | AADD | ASUB | ARSB | AADC | ASBC | ARSC | AMVN | AMUL | ADIV | AMOD
  | AMULA | AMULL | AMULAL | AMULLU | AMULALU | AMULU | ADIVU | AMODU | ASLL | ASRL | ASRA | AMOVW | AMOVB | AMOVBU
  | AMOVH | AMOVHU | AMOVM | ASWPW | ASWPBU | ACMP | ATST | ATEQ | ACMN | AB | ABEQ | ABNE | ABHS | ABLO | ABMI
  | ABPL | ABVS | ABVC | ABHI | ABLS | ABGE | ABLT | ABGT | ABLE | ABL | ARET | ASWI | ARFE | AMOVWD | AMOVWF
  | AMOVDW | AMOVFW | AMOVFD | AMOVDF | AMOVF | AMOVD | ACMPF | ACMPD | AADDF | AADDD | ASUBF | ASUBD | AMULF | AMULD
  | ADIVF | ADIVD | ASQRTF | ASQRTD | ATEXT | AGLOBL | ADATA | AWORD | AEND | ANAME | AHISTORY | ACASE | ABCASE
  | ASIGNAME | AGOK
  deriving DecidableEq, Repr

/-- `enum Operand_class`. -/
inductive Class where
  | C_NONE | C_REG | C_BRANCH | C_RCON | C_NCON | C_LCON | C_HOREG | C_FOREG | C_HFOREG | C_SOREG | C_LOREG | C_ROREG
  | C_SROREG | C_HEXT | C_FEXT | C_HFEXT | C_SEXT | C_LEXT | C_HAUTO | C_FAUTO | C_HFAUTO | C_SAUTO | C_LAUTO
  | C_RECON | C_RACON | C_LACON | C_SHIFT | C_ADDR | C_FREG | C_FCON | C_FCR | C_REGREG | C_PSR | C_GOK
  deriving DecidableEq, Repr

def LFROM : Nat := 1 <<< 0
def LTO : Nat := 1 <<< 1
def LPOOL : Nat := 1 <<< 2
def VFP : Nat := 1 <<< 4
def V4 : Nat := 1 <<< 3

def REGSB : Nat := 12
def REGSP : Nat := 13

structure Optab where
  as : As
  a1 : Class
  a2 : Class
  a3 : Class
  type : Nat
  size : Nat
  param : Nat
  flag : Nat
  deriving DecidableEq, Repr

def optab : List Optab := [
  ⟨.ATEXT, .C_LEXT, .C_NONE, .C_LCON, 0, 0, 0, 0⟩,
  ⟨.ATEXT, .C_LEXT, .C_REG, .C_LCON, 0, 0, 0, 0⟩,
  ⟨.AWORD, .C_NONE, .C_NONE, .C_LCON, 11, 4, 0, 0⟩,
  ⟨.AWORD, .C_NONE, .C_NONE, .C_LEXT, 11, 4, 0, 0⟩,
  ⟨.AADD, .C_REG, .C_REG, .C_REG, 1, 4, 0, 0⟩,
  ⟨.AADD, .C_REG, .C_NONE, .C_REG, 1, 4, 0, 0⟩,
  ⟨.AMOVW, .C_REG, .C_NONE, .C_REG, 1, 4, 0, 0⟩,
  ⟨.AMVN, .C_REG, .C_NONE, .C_REG, 1, 4, 0, 0⟩,
  ⟨.ACMP, .C_REG, .C_REG, .C_NONE, 1, 4, 0, 0⟩,
  ⟨.AADD, .C_RCON, .C_REG, .C_REG, 2, 4, 0, 0⟩,
  ⟨.AADD, .C_RCON, .C_NONE, .C_REG, 2, 4, 0, 0⟩,
  ⟨.AMOVW, .C_RCON, .C_NONE, .C_REG, 2, 4, 0, 0⟩,
  ⟨.AMVN, .C_RCON, .C_NONE, .C_REG, 2, 4, 0, 0⟩,
  ⟨.ACMP, .C_RCON, .C_REG, .C_NONE, 2, 4, 0, 0⟩,
  ⟨.AADD, .C_SHIFT, .C_REG, .C_REG, 3, 4, 0, 0⟩,
  ⟨.AADD, .C_SHIFT, .C_NONE, .C_REG, 3, 4, 0, 0⟩,
  ⟨.AMVN, .C_SHIFT, .C_NONE, .C_REG, 3, 4, 0, 0⟩,
  ⟨.ACMP, .C_SHIFT, .C_REG, .C_NONE, 3, 4, 0, 0⟩,
  ⟨.ASLL, .C_RCON, .C_REG, .C_REG, 8, 4, 0, 0⟩,
  ⟨.ASLL, .C_RCON, .C_NONE, .C_REG, 8, 4, 0, 0⟩,
  ⟨.ASLL, .C_REG, .C_NONE, .C_REG, 9, 4, 0, 0⟩,
  ⟨.ASLL, .C_REG, .C_REG, .C_REG, 9, 4, 0, 0⟩,
  ⟨.AMOVB, .C_REG, .C_NONE, .C_REG, 14, 8, 0, 0⟩,
  ⟨.AMOVBU, .C_REG, .C_NONE, .C_REG, 58, 4, 0, 0⟩,
  ⟨.AMOVH, .C_REG, .C_NONE, .C_REG, 14, 8, 0, 0⟩,
  ⟨.AMOVHU, .C_REG, .C_NONE, .C_REG, 14, 8, 0, 0⟩,
  ⟨.AMUL, .C_REG, .C_REG, .C_REG, 15, 4, 0, 0⟩,
  ⟨.AMUL, .C_REG, .C_NONE, .C_REG, 15, 4, 0, 0⟩,
  ⟨.AADD, .C_NCON, .C_REG, .C_REG, 13, 8, 0, 0⟩,
  ⟨.AADD, .C_NCON, .C_NONE, .C_REG, 13, 8, 0, 0⟩,
  ⟨.AMVN, .C_NCON, .C_NONE, .C_REG, 13, 8, 0, 0⟩,
  ⟨.ACMP, .C_NCON, .C_REG, .C_NONE, 13, 8, 0, 0⟩,
  ⟨.AADD, .C_LCON, .C_REG, .C_REG, 13, 8, 0, LFROM⟩,
  ⟨.AADD, .C_LCON, .C_NONE, .C_REG, 13, 8, 0, LFROM⟩,
  ⟨.AMVN, .C_LCON, .C_NONE, .C_REG, 13, 8, 0, LFROM⟩,
  ⟨.ACMP, .C_LCON, .C_REG, .C_NONE, 13, 8, 0, LFROM⟩,
  ⟨.AMOVW, .C_NCON, .C_NONE, .C_REG, 12, 4, 0, 0⟩,
  ⟨.AMOVW, .C_LCON, .C_NONE, .C_REG, 12, 4, 0, LFROM⟩,
  ⟨.AB, .C_NONE, .C_NONE, .C_BRANCH, 5, 4, 0, LPOOL⟩,
  ⟨.ABL, .C_NONE, .C_NONE, .C_BRANCH, 5, 4, 0, 0⟩,
  ⟨.ABEQ, .C_NONE, .C_NONE, .C_BRANCH, 5, 4, 0, 0⟩,
  ⟨.AB, .C_NONE, .C_NONE, .C_ROREG, 6, 4, 0, LPOOL⟩,
  ⟨.ABL, .C_NONE, .C_NONE, .C_ROREG, 7, 8, 0, 0⟩,
  ⟨.AMOVW, .C_SEXT, .C_NONE, .C_REG, 21, 4, REGSB, 0⟩,
  ⟨.AMOVW, .C_SAUTO, .C_NONE, .C_REG, 21, 4, REGSP, 0⟩,
  ⟨.AMOVW, .C_SOREG, .C_NONE, .C_REG, 21, 4, 0, 0⟩,
  ⟨.AMOVBU, .C_SEXT, .C_NONE, .C_REG, 21, 4, REGSB, 0⟩,
  ⟨.AMOVBU, .C_SAUTO, .C_NONE, .C_REG, 21, 4, REGSP, 0⟩,
  ⟨.AMOVBU, .C_SOREG, .C_NONE, .C_REG, 21, 4, 0, 0⟩,
  ⟨.AMOVW, .C_LEXT, .C_NONE, .C_REG, 31, 8, REGSB, LFROM⟩,
  ⟨.AMOVW, .C_LAUTO, .C_NONE, .C_REG, 31, 8, REGSP, LFROM⟩,
  ⟨.AMOVW, .C_LOREG, .C_NONE, .C_REG, 31, 8, 0, LFROM⟩,
  ⟨.AMOVBU, .C_LEXT, .C_NONE, .C_REG, 31, 8, REGSB, LFROM⟩,
  ⟨.AMOVBU, .C_LAUTO, .C_NONE, .C_REG, 31, 8, REGSP, LFROM⟩,
  ⟨.AMOVBU, .C_LOREG, .C_NONE, .C_REG, 31, 8, 0, LFROM⟩,
  ⟨.AMOVW, .C_REG, .C_NONE, .C_SEXT, 20, 4, REGSB, 0⟩,
  ⟨.AMOVW, .C_REG, .C_NONE, .C_SAUTO, 20, 4, REGSP, 0⟩,
  ⟨.AMOVW, .C_REG, .C_NONE, .C_SOREG, 20, 4, 0, 0⟩,
  ⟨.AMOVBU, .C_REG, .C_NONE, .C_SEXT, 20, 4, REGSB, 0⟩,
  ⟨.AMOVBU, .C_REG, .C_NONE, .C_SAUTO, 20, 4, REGSP, 0⟩,
  ⟨.AMOVBU, .C_REG, .C_NONE, .C_SOREG, 20, 4, 0, 0⟩,
  ⟨.AMOVW, .C_REG, .C_NONE, .C_LEXT, 30, 8, REGSB, LTO⟩,
  ⟨.AMOVW, .C_REG, .C_NONE, .C_LAUTO, 30, 8, REGSP, LTO⟩,
  ⟨.AMOVW, .C_REG, .C_NONE, .C_LOREG, 30, 8, 0, LTO⟩,
  ⟨.AMOVBU, .C_REG, .C_NONE, .C_LEXT, 30, 8, REGSB, LTO⟩,
  ⟨.AMOVBU, .C_REG, .C_NONE, .C_LAUTO, 30, 8, REGSP, LTO⟩,
  ⟨.AMOVBU, .C_REG, .C_NONE, .C_LOREG, 30, 8, 0, LTO⟩,
  ⟨.AMOVB, .C_REG, .C_NONE, .C_SEXT, 20, 4, REGSB, 0⟩,
  ⟨.AMOVB, .C_REG, .C_NONE, .C_SAUTO, 20, 4, REGSP, 0⟩,
  ⟨.AMOVB, .C_REG, .C_NONE, .C_SOREG, 20, 4, 0, 0⟩,
  ⟨.AMOVB, .C_REG, .C_NONE, .C_LEXT, 30, 8, REGSB, LTO⟩,
  ⟨.AMOVB, .C_REG, .C_NONE, .C_LAUTO, 30, 8, REGSP, LTO⟩,
  ⟨.AMOVB, .C_REG, .C_NONE, .C_LOREG, 30, 8, 0, LTO⟩,
  ⟨.ASWPW, .C_SOREG, .C_REG, .C_REG, 40, 4, 0, 0⟩,
  ⟨.AMOVW, .C_RECON, .C_NONE, .C_REG, 4, 4, REGSB, 0⟩,
  ⟨.AMOVW, .C_RACON, .C_NONE, .C_REG, 4, 4, REGSP, 0⟩,
  ⟨.AMOVW, .C_LACON, .C_NONE, .C_REG, 34, 8, REGSP, LFROM⟩,
  ⟨.AMOVH, .C_SEXT, .C_NONE, .C_REG, 22, 12, REGSB, 0⟩,
  ⟨.AMOVH, .C_SAUTO, .C_NONE, .C_REG, 22, 12, REGSP, 0⟩,
  ⟨.AMOVH, .C_SOREG, .C_NONE, .C_REG, 22, 12, 0, 0⟩,
  ⟨.AMOVHU, .C_SEXT, .C_NONE, .C_REG, 22, 12, REGSB, 0⟩,
  ⟨.AMOVHU, .C_SAUTO, .C_NONE, .C_REG, 22, 12, REGSP, 0⟩,
  ⟨.AMOVHU, .C_SOREG, .C_NONE, .C_REG, 22, 12, 0, 0⟩,
  ⟨.AMOVB, .C_SEXT, .C_NONE, .C_REG, 22, 12, REGSB, 0⟩,
  ⟨.AMOVB, .C_SAUTO, .C_NONE, .C_REG, 22, 12, REGSP, 0⟩,
  ⟨.AMOVB, .C_SOREG, .C_NONE, .C_REG, 22, 12, 0, 0⟩,
  ⟨.AMOVH, .C_LEXT, .C_NONE, .C_REG, 32, 16, REGSB, LFROM⟩,
  ⟨.AMOVH, .C_LAUTO, .C_NONE, .C_REG, 32, 16, REGSP, LFROM⟩,
  ⟨.AMOVH, .C_LOREG, .C_NONE, .C_REG, 32, 16, 0, LFROM⟩,
  ⟨.AMOVHU, .C_LEXT, .C_NONE, .C_REG, 32, 16, REGSB, LFROM⟩,
  ⟨.AMOVHU, .C_LAUTO, .C_NONE, .C_REG, 32, 16, REGSP, LFROM⟩,
  ⟨.AMOVHU, .C_LOREG, .C_NONE, .C_REG, 32, 16, 0, LFROM⟩,
  ⟨.AMOVB, .C_LEXT, .C_NONE, .C_REG, 32, 16, REGSB, LFROM⟩,
  ⟨.AMOVB, .C_LAUTO, .C_NONE, .C_REG, 32, 16, REGSP, LFROM⟩,
  ⟨.AMOVB, .C_LOREG, .C_NONE, .C_REG, 32, 16, 0, LFROM⟩,
  ⟨.AMOVH, .C_REG, .C_NONE, .C_SEXT, 23, 12, REGSB, 0⟩,
  ⟨.AMOVH, .C_REG, .C_NONE, .C_SAUTO, 23, 12, REGSP, 0⟩,
  ⟨.AMOVH, .C_REG, .C_NONE, .C_SOREG, 23, 12, 0, 0⟩,
  ⟨.AMOVHU, .C_REG, .C_NONE, .C_SEXT, 23, 12, REGSB, 0⟩,
  ⟨.AMOVHU, .C_REG, .C_NONE, .C_SAUTO, 23, 12, REGSP, 0⟩,
  ⟨.AMOVHU, .C_REG, .C_NONE, .C_SOREG, 23, 12, 0, 0⟩,
  ⟨.AMOVH, .C_REG, .C_NONE, .C_LEXT, 33, 24, REGSB, LTO⟩,
  ⟨.AMOVH, .C_REG, .C_NONE, .C_LAUTO, 33, 24, REGSP, LTO⟩,
  ⟨.AMOVH, .C_REG, .C_NONE, .C_LOREG, 33, 24, 0, LTO⟩,
  ⟨.AMOVHU, .C_REG, .C_NONE, .C_LEXT, 33, 24, REGSB, LTO⟩,
  ⟨.AMOVHU, .C_REG, .C_NONE, .C_LAUTO, 33, 24, REGSP, LTO⟩,
  ⟨.AMOVHU, .C_REG, .C_NONE, .C_LOREG, 33, 24, 0, LTO⟩,
  ⟨.ASWI, .C_NONE, .C_NONE, .C_NONE, 10, 4, 0, 0⟩,
  ⟨.ASWI, .C_NONE, .C_NONE, .C_LCON, 10, 4, 0, 0⟩,
  ⟨.ASWI, .C_NONE, .C_NONE, .C_LOREG, 10, 4, 0, 0⟩,
  ⟨.ARFE, .C_NONE, .C_NONE, .C_NONE, 41, 4, 0, 0⟩,
  ⟨.ATEXT, .C_ADDR, .C_NONE, .C_LCON, 0, 0, 0, 0⟩,
  ⟨.ATEXT, .C_ADDR, .C_REG, .C_LCON, 0, 0, 0, 0⟩,
  ⟨.AWORD, .C_NONE, .C_NONE, .C_ADDR, 11, 4, 0, 0⟩,
  ⟨.AMOVW, .C_REG, .C_NONE, .C_ADDR, 64, 8, 0, LTO⟩,
  ⟨.AMOVB, .C_REG, .C_NONE, .C_ADDR, 64, 8, 0, LTO⟩,
  ⟨.AMOVBU, .C_REG, .C_NONE, .C_ADDR, 64, 8, 0, LTO⟩,
  ⟨.AMOVW, .C_ADDR, .C_NONE, .C_REG, 65, 8, 0, LFROM⟩,
  ⟨.AMOVBU, .C_ADDR, .C_NONE, .C_REG, 65, 8, 0, LFROM⟩,
  ⟨.AMOVB, .C_ADDR, .C_NONE, .C_REG, 66, 16, 0, LFROM⟩,
  ⟨.AMOVH, .C_ADDR, .C_NONE, .C_REG, 66, 16, 0, LFROM⟩,
  ⟨.AMOVHU, .C_ADDR, .C_NONE, .C_REG, 66, 16, 0, LFROM⟩,
  ⟨.AMOVH, .C_REG, .C_NONE, .C_ADDR, 67, 24, 0, LTO⟩,
  ⟨.AMOVHU, .C_REG, .C_NONE, .C_ADDR, 67, 24, 0, LTO⟩,
  ⟨.AMOVF, .C_FREG, .C_NONE, .C_FEXT, 50, 4, REGSB, 0⟩,
  ⟨.AMOVF, .C_FREG, .C_NONE, .C_FAUTO, 50, 4, REGSP, 0⟩,
  ⟨.AMOVF, .C_FREG, .C_NONE, .C_FOREG, 50, 4, 0, 0⟩,
  ⟨.AMOVF, .C_FEXT, .C_NONE, .C_FREG, 51, 4, REGSB, 0⟩,
  ⟨.AMOVF, .C_FAUTO, .C_NONE, .C_FREG, 51, 4, REGSP, 0⟩,
  ⟨.AMOVF, .C_FOREG, .C_NONE, .C_FREG, 51, 4, 0, 0⟩,
  ⟨.AMOVF, .C_FREG, .C_NONE, .C_LEXT, 52, 12, REGSB, LTO⟩,
  ⟨.AMOVF, .C_FREG, .C_NONE, .C_LAUTO, 52, 12, REGSP, LTO⟩,
  ⟨.AMOVF, .C_FREG, .C_NONE, .C_LOREG, 52, 12, 0, LTO⟩,
  ⟨.AMOVF, .C_LEXT, .C_NONE, .C_FREG, 53, 12, REGSB, LFROM⟩,
  ⟨.AMOVF, .C_LAUTO, .C_NONE, .C_FREG, 53, 12, REGSP, LFROM⟩,
  ⟨.AMOVF, .C_LOREG, .C_NONE, .C_FREG, 53, 12, 0, LFROM⟩,
  ⟨.AMOVF, .C_FREG, .C_NONE, .C_ADDR, 68, 8, 0, LTO⟩,
  ⟨.AMOVF, .C_ADDR, .C_NONE, .C_FREG, 69, 8, 0, LFROM⟩,
  ⟨.AADDF, .C_FREG, .C_NONE, .C_FREG, 54, 4, 0, 0⟩,
  ⟨.AADDF, .C_FREG, .C_REG, .C_FREG, 54, 4, 0, 0⟩,
  ⟨.AADDF, .C_FCON, .C_NONE, .C_FREG, 54, 4, 0, 0⟩,
  ⟨.AADDF, .C_FCON, .C_REG, .C_FREG, 54, 4, 0, 0⟩,
  ⟨.AMOVF, .C_FCON, .C_NONE, .C_FREG, 54, 4, 0, 0⟩,
  ⟨.AMOVF, .C_FREG, .C_NONE, .C_FREG, 54, 4, 0, 0⟩,
  ⟨.ACMPF, .C_FREG, .C_REG, .C_NONE, 54, 4, 0, 0⟩,
  ⟨.ACMPF, .C_FCON, .C_REG, .C_NONE, 54, 4, 0, 0⟩,
  ⟨.AMOVFW, .C_FREG, .C_NONE, .C_REG, 55, 4, 0, 0⟩,
  ⟨.AMOVFW, .C_REG, .C_NONE, .C_FREG, 55, 4, 0, 0⟩,
  ⟨.AMOVW, .C_REG, .C_NONE, .C_FCR, 56, 4, 0, 0⟩,
  ⟨.AMOVW, .C_FCR, .C_NONE, .C_REG, 57, 4, 0, 0⟩,
  ⟨.AADDF, .C_FREG, .C_NONE, .C_FREG, 74, 4, 0, VFP⟩,
  ⟨.AADDF, .C_FREG, .C_REG, .C_FREG, 74, 4, 0, VFP⟩,
  ⟨.AMOVF, .C_FREG, .C_NONE, .C_FREG, 74, 4, 0, VFP⟩,
  ⟨.ACMPF, .C_FREG, .C_REG, .C_NONE, 75, 8, 0, VFP⟩,
  ⟨.ACMPF, .C_FCON, .C_REG, .C_NONE, 75, 8, 0, VFP⟩,
  ⟨.AMOVFW, .C_FREG, .C_NONE, .C_REG, 76, 8, 0, VFP⟩,
  ⟨.AMOVFW, .C_REG, .C_NONE, .C_FREG, 76, 8, 0, VFP⟩,
  ⟨.ADIV, .C_REG, .C_REG, .C_REG, 16, 4, 0, 0⟩,
  ⟨.ADIV, .C_REG, .C_NONE, .C_REG, 16, 4, 0, 0⟩,
  ⟨.AMULL, .C_REG, .C_REG, .C_REGREG, 17, 4, 0, 0⟩,
  ⟨.AMOVM, .C_LCON, .C_NONE, .C_SOREG, 38, 4, 0, 0⟩,
  ⟨.AMOVM, .C_SOREG, .C_NONE, .C_LCON, 39, 4, 0, 0⟩,
  ⟨.AMOVW, .C_PSR, .C_NONE, .C_REG, 35, 4, 0, 0⟩,
  ⟨.AMOVW, .C_REG, .C_NONE, .C_PSR, 36, 4, 0, 0⟩,
  ⟨.AMOVW, .C_RCON, .C_NONE, .C_PSR, 37, 4, 0, 0⟩,
  ⟨.AMOVH, .C_REG, .C_NONE, .C_HEXT, 70, 4, REGSB, V4⟩,
  ⟨.AMOVH, .C_REG, .C_NONE, .C_HAUTO, 70, 4, REGSP, V4⟩,
  ⟨.AMOVH, .C_REG, .C_NONE, .C_HOREG, 70, 4, 0, V4⟩,
  ⟨.AMOVHU, .C_REG, .C_NONE, .C_HEXT, 70, 4, REGSB, V4⟩,
  ⟨.AMOVHU, .C_REG, .C_NONE, .C_HAUTO, 70, 4, REGSP, V4⟩,
  ⟨.AMOVHU, .C_REG, .C_NONE, .C_HOREG, 70, 4, 0, V4⟩,
  ⟨.AMOVB, .C_HEXT, .C_NONE, .C_REG, 71, 4, REGSB, V4⟩,
  ⟨.AMOVB, .C_HAUTO, .C_NONE, .C_REG, 71, 4, REGSP, V4⟩,
  ⟨.AMOVB, .C_HOREG, .C_NONE, .C_REG, 71, 4, 0, V4⟩,
  ⟨.AMOVH, .C_HEXT, .C_NONE, .C_REG, 71, 4, REGSB, V4⟩,
  ⟨.AMOVH, .C_HAUTO, .C_NONE, .C_REG, 71, 4, REGSP, V4⟩,
  ⟨.AMOVH, .C_HOREG, .C_NONE, .C_REG, 71, 4, 0, V4⟩,
  ⟨.AMOVHU, .C_HEXT, .C_NONE, .C_REG, 71, 4, REGSB, V4⟩,
  ⟨.AMOVHU, .C_HAUTO, .C_NONE, .C_REG, 71, 4, REGSP, V4⟩,
  ⟨.AMOVHU, .C_HOREG, .C_NONE, .C_REG, 71, 4, 0, V4⟩,
  ⟨.AMOVH, .C_REG, .C_NONE, .C_LEXT, 72, 8, REGSB, (LTO ||| V4)⟩,
  ⟨.AMOVH, .C_REG, .C_NONE, .C_LAUTO, 72, 8, REGSP, (LTO ||| V4)⟩,
  ⟨.AMOVH, .C_REG, .C_NONE, .C_LOREG, 72, 8, 0, (LTO ||| V4)⟩,
  ⟨.AMOVHU, .C_REG, .C_NONE, .C_LEXT, 72, 8, REGSB, (LTO ||| V4)⟩,
  ⟨.AMOVHU, .C_REG, .C_NONE, .C_LAUTO, 72, 8, REGSP, (LTO ||| V4)⟩,
  ⟨.AMOVHU, .C_REG, .C_NONE, .C_LOREG, 72, 8, 0, (LTO ||| V4)⟩,
  ⟨.AMOVB, .C_LEXT, .C_NONE, .C_REG, 73, 8, REGSB, (LFROM ||| V4)⟩,
  ⟨.AMOVB, .C_LAUTO, .C_NONE, .C_REG, 73, 8, REGSP, (LFROM ||| V4)⟩,
  ⟨.AMOVB, .C_LOREG, .C_NONE, .C_REG, 73, 8, 0, (LFROM ||| V4)⟩,
  ⟨.AMOVH, .C_LEXT, .C_NONE, .C_REG, 73, 8, REGSB, (LFROM ||| V4)⟩,
  ⟨.AMOVH, .C_LAUTO, .C_NONE, .C_REG, 73, 8, REGSP, (LFROM ||| V4)⟩,
  ⟨.AMOVH, .C_LOREG, .C_NONE, .C_REG, 73, 8, 0, (LFROM ||| V4)⟩,
  ⟨.AMOVHU, .C_LEXT, .C_NONE, .C_REG, 73, 8, REGSB, (LFROM ||| V4)⟩,
  ⟨.AMOVHU, .C_LAUTO, .C_NONE, .C_REG, 73, 8, REGSP, (LFROM ||| V4)⟩,
  ⟨.AMOVHU, .C_LOREG, .C_NONE, .C_REG, 73, 8, 0, (LFROM ||| V4)⟩,
  ⟨.AMOVW, .C_SHIFT, .C_NONE, .C_REG, 59, 4, 0, 0⟩,
  ⟨.AMOVBU, .C_SHIFT, .C_NONE, .C_REG, 59, 4, 0, 0⟩,
  ⟨.AMOVB, .C_SHIFT, .C_NONE, .C_REG, 60, 4, 0, 0⟩,
  ⟨.AMOVW, .C_REG, .C_NONE, .C_SHIFT, 61, 4, 0, 0⟩,
  ⟨.AMOVB, .C_REG, .C_NONE, .C_SHIFT, 61, 4, 0, 0⟩,
  ⟨.AMOVBU, .C_REG, .C_NONE, .C_SHIFT, 61, 4, 0, 0⟩,
  ⟨.ACASE, .C_REG, .C_NONE, .C_NONE, 62, 4, 0, 0⟩,
  ⟨.ABCASE, .C_NONE, .C_NONE, .C_BRANCH, 63, 4, 0, 0⟩]

/-- The classes that the class `a` of a rule accepts; `cmp` calls itself at most four deep. -/
def accepts : Nat → Class → Class → Bool
  | 0, a, b => a = b
  | depth + 1, a, b =>
    if a = b then true
    else
      match a with
      | .C_LCON => b = .C_RCON || b = .C_NCON
      | .C_SROREG => accepts depth .C_SOREG b || accepts depth .C_ROREG b
      | .C_SOREG | .C_ROREG => b = .C_SROREG || accepts depth .C_HFOREG b
      | .C_LOREG => accepts depth .C_SROREG b
      | .C_SEXT => accepts depth .C_HFEXT b
      | .C_LEXT => accepts depth .C_SEXT b
      | .C_SAUTO => accepts depth .C_HFAUTO b
      | .C_LAUTO => accepts depth .C_SAUTO b
      | .C_LACON => b = .C_RACON
      | .C_HFEXT => b = .C_HEXT || b = .C_FEXT
      | .C_FEXT | .C_HEXT => b = .C_HFEXT
      | .C_HFAUTO => b = .C_HAUTO || b = .C_FAUTO
      | .C_FAUTO | .C_HAUTO => b = .C_HFAUTO
      | .C_HFOREG => b = .C_HOREG || b = .C_FOREG
      | .C_FOREG | .C_HOREG => b = .C_HFOREG
      | _ => false

def cmp (a b : Class) : Bool := accepts 4 a b

def ocmp (p1 p2 : Optab) : Int :=
  let n := (p1.as.ctorIdx : Int) - p2.as.ctorIdx
  if n ≠ 0 then n else
  let n := ((p2.flag &&& V4 : Nat) : Int) - (p1.flag &&& V4 : Nat)
  if n ≠ 0 then n else
  let n := ((p2.flag &&& VFP : Nat) : Int) - (p1.flag &&& VFP : Nat)
  if n ≠ 0 then n else
  let n := (p1.a1.ctorIdx : Int) - p2.a1.ctorIdx
  if n ≠ 0 then n else
  let n := (p1.a2.ctorIdx : Int) - p2.a2.ctorIdx
  if n ≠ 0 then n else
  let n := (p1.a3.ctorIdx : Int) - p2.a3.ctorIdx
  if n ≠ 0 then n else 0

/-- `qsort` with `ocmp`. -/
def qsort (table : List Optab) : List Optab := table.insertionSort fun p q => ocmp p q ≤ 0

/-- The table up to `n`, as the first loop of `buildop` leaves it. -/
def adjust (vfp armv4 : Bool) : List Optab → List Optab
  | [] => []
  | o :: rest =>
    let o := if o.flag &&& VFP ≠ 0 ∧ vfp = false then { o with as := .AXXX } else o
    if o.flag &&& V4 ≠ 0 ∧ armv4 = false then [] else o :: adjust vfp armv4 rest

/-- The opcodes that share the range of a representant; the others are unknown to `buildop`. -/
def aliases : As → Option (List As)
  | .AXXX | .ATEXT | .AWORD | .AMVN | .AB | .ABL | .AMOVW | .AMOVB | .AMOVBU | .AMOVH | .AMOVHU | .ASWI | .ARFE | .AMOVM | .ACASE
  | .ABCASE => some []
  | .AADD => some [.ASUB, .AAND, .AEOR, .AORR, .AADC, .ASBC, .ARSC, .ARSB, .ABIC]
  | .ACMP => some [.ATST, .ATEQ, .ACMN]
  | .ASLL => some [.ASRL, .ASRA]
  | .AMUL => some [.AMULU]
  | .ABEQ => some [.ABNE, .ABHS, .ABLO, .ABMI, .ABPL, .ABVS, .ABVC, .ABHI, .ABLS, .ABGE, .ABLT, .ABGT, .ABLE]
  | .ASWPW => some [.ASWPBU]
  | .AADDF => some [.AADDD, .ASUBF, .ASUBD, .AMULF, .AMULD, .ADIVF, .ADIVD, .AMOVFD, .AMOVDF]
  | .ACMPF => some [.ACMPD]
  | .AMOVF => some [.AMOVD]
  | .AMOVFW => some [.AMOVWF, .AMOVWD, .AMOVDW]
  | .ADIV => some [.AMOD, .AMODU, .ADIVU]
  | .AMULL => some [.AMULA, .AMULAL, .AMULLU, .AMULALU]
  | _ => none

/-- `start` and `stop` of an `Oprange`, or `none` if they are nil. -/
abbrev Oprange := As → Option (Nat × Nat)

/-- The loop over the sorted table, from the place `i` on. -/
def ranges : Nat → Nat → List Optab → Oprange → Option Oprange
  | 0, _, _, oprange => some oprange
  | _ + 1, _, [], oprange => some oprange
  | fuel + 1, i, o :: rest, oprange =>
    let r := o.as
    let count := ((o :: rest).takeWhile fun q => q.as = r).length
    match aliases r with
    | none => none
    | some others =>
      ranges fuel (i + count) ((o :: rest).dropWhile fun q => q.as = r) fun as =>
        if as = r ∨ as ∈ others then some (i, i + count) else oprange as

/-- The table and the ranges; `f` and `h` are the options. -/
def buildop (f h : Bool) : Option (List Optab × Oprange) :=
  let table := qsort (adjust f (!h) optab)
  (ranges table.length 0 table fun _ => none).map fun oprange => (table, oprange)

def xcmp (i n : Class) : Bool := if i ≠ .C_GOK ∧ n ≠ .C_GOK then cmp n i else false

/-- An instruction with operands in `α`; the fields `class` and `optab` are the memo. -/
structure Prog (α : Type) where
  as : As
  source : α
  reg : Option Nat
  dest : α
  sourceClass : Option Class
  destClass : Option Class
  optab : Nat

/-- The place of a rule, or "illegal combination". -/
inductive Found where
  | rule (o : Nat)
  | illegal
  deriving DecidableEq, Repr

section Lookup

variable {α : Type} (aclass : α → Class)

def middle (p : Prog α) : Class := if p.reg ≠ none then .C_REG else .C_NONE

def oplook (table : List Optab) (oprange : Oprange) (p : Prog α) : Found × Prog α :=
  if p.optab ≠ 0 then (.rule (p.optab - 1), p)
  else
    let a1 := p.sourceClass.getD (aclass p.source)
    let a3 := p.destClass.getD (aclass p.dest)
    let p := { p with sourceClass := some a1, destClass := some a3 }
    let a2 := middle p
    match oprange p.as with
    | none => (.illegal, p)
    | some (start, stop) =>
      match ((table.drop start).take (stop - start)).findIdx? fun o => o.a2 = a2 && xcmp a1 o.a1 && xcmp a3 o.a3 with
      | some k => (.rule (start + k), { p with optab := (start + k + 1) % 256 })
      | none => (.illegal, p)

/-- `nocache`. -/
def nocache (p : Prog α) : Prog α := { p with optab := 0, sourceClass := none, destClass := none }

end Lookup

section Plain

/-- What the options leave of the table. -/
def enabled (f h : Bool) (o : Optab) : Bool := (o.flag &&& VFP = 0 || f) && (o.flag &&& V4 = 0 || !h)

/-- The representant of an opcode. -/
def representant (as : As) : As :=
  ((optab.map Optab.as).find? fun r => match aliases r with | some others => as ∈ others | none => false).getD as

/-- The plain search over the whole table. -/
def plain (f h : Bool) (as : As) (a1 a2 a3 : Class) : Option Optab :=
  (qsort (optab.filter (enabled f h))).find? fun o => o.as = representant as && o.a2 = a2 && cmp o.a1 a1 && cmp o.a3 a3

end Plain

end Goken.Oplook
