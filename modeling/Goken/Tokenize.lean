/-! Splitting a string into words in place (`tokenize.c`). The memory holds the
string and its NUL; pointers are positions in it. -/

namespace Goken.Tokenize

def quote : UInt8 := 0x27

def qsep : List UInt8 := [0x20, 0x09, 0x0D, 0x0A]

/-- `*p`; the memory ends with the NUL. -/
def at_ (mem : List UInt8) (p : Nat) : UInt8 := mem.getD p 0

/-- The loop of `qtoken`: `s` is where the word is written and `t` where the
text is read. -/
def qtokenLoop (sep : List UInt8) : Nat → List UInt8 → Nat → Nat → Bool → List UInt8 × Nat × Nat
  | 0, mem, s, t, _ => (mem, s, t)
  | fuel + 1, mem, s, t, quoting =>
      if at_ mem t ≠ 0 && (quoting || !sep.contains (at_ mem t)) then
        if at_ mem t ≠ quote then qtokenLoop sep fuel (mem.set s (at_ mem t)) (s + 1) (t + 1) quoting
        else if !quoting then qtokenLoop sep fuel mem s (t + 1) true
        else if at_ mem (t + 1) ≠ quote then qtokenLoop sep fuel mem s (t + 1) false
        -- a doubled quote
        else qtokenLoop sep fuel (mem.set s (at_ mem (t + 1))) (s + 1) (t + 2) quoting
      else (mem, s, t)

def qtoken (mem : List UInt8) (s : Nat) (sep : List UInt8) : List UInt8 × Nat :=
  let (mem, s, t) := qtokenLoop sep mem.length mem s s false
  if at_ mem s ≠ 0 then (mem.set s 0, if t = s then t + 1 else t) else (mem, t)

/-- The separators from `s` on. -/
def skipSep (mem : List UInt8) (s : Nat) : Nat :=
  s + ((mem.drop s).takeWhile fun c => c ≠ 0 && qsep.contains c).length

/-- The loop of `tokenize`, with the words found. -/
def tokenizeLoop : Nat → List UInt8 → Nat → List Nat → List UInt8 × List Nat
  | 0, mem, _, args => (mem, args)
  | n + 1, mem, s, args =>
      let s := skipSep mem s
      if at_ mem s = 0 then (mem, args)
      else
        let (mem, t) := qtoken mem s qsep
        tokenizeLoop n mem t (args ++ [s])

/-- The string at a position. -/
def cstring (mem : List UInt8) (p : Nat) : List UInt8 := (mem.drop p).takeWhile fun c => c ≠ 0

/-- `tokenize`, with the words as strings. -/
def tokenize (s : List UInt8) (maxargs : Nat) : List (List UInt8) :=
  let (mem, args) := tokenizeLoop maxargs (s ++ [0]) 0 []
  args.map (cstring mem)

example : tokenize [0x61, 0x20, 0x27, 0x62, 0x27, 0x27, 0x20, 0x27] 5 = [[0x61], [0x62, 0x27, 0x20]] := by decide

end Goken.Tokenize
