import Goken.Rune

/-! Cleaning up a path in place (`cleanname.c`). The memory is the string and
its NUL; pointers are positions in it, and `name` is 0. -/

namespace Goken.Cleanname

/-- Why there is no result: a byte outside the memory is read or written, an
`assert` fails, or the fuel is used up. -/
inductive Stop where
  | outside
  | assert
  | fuel
  deriving DecidableEq, Repr

abbrev Mem := List UInt8

def slash : UInt8 := 0x2F
def dot : UInt8 := 0x2E
def hash : UInt8 := 0x23

/-- `*p`. -/
def load (mem : Mem) (p : Nat) : Except Stop UInt8 :=
  match mem[p]? with
  | some c => .ok c
  | none => .error .outside

/-- `*p = c`. -/
def store (mem : Mem) (p : Nat) (c : UInt8) : Except Stop Mem := if p < mem.length then .ok (mem.set p c) else .error .outside

def SEP (c : UInt8) : Bool := c = slash || c = 0

/-- The length of the rune at `p`. -/
def runeAt (mem : Mem) (p : Nat) : Except Stop Nat :=
  match Rune.chartorune (mem.drop p) with
  | some (_, n) => .ok n
  | none => .error .outside

/-- `while(!SEP(*d0)) d0 += chartorune(&r, d0)`. -/
def skipName : Nat → Mem → Nat → Except Stop Nat
  | 0, _, _ => .error .fuel
  | fuel + 1, mem, d0 => do
      if SEP (← load mem d0) then .ok d0
      else skipName fuel mem (d0 + (← runeAt mem d0))

/-- `for(; *s == '/'; s++)`. -/
def skipSlashes : Nat → Mem → Nat → Except Stop Nat
  | 0, _, _ => .error .fuel
  | fuel + 1, mem, s => do if (← load mem s) = slash then skipSlashes fuel mem (s + 1) else .ok s

/-- The loop that removes duplicate slashes. `while(s[1] == '/') s++` goes to
the position before the one where the slashes from `s+1` on end. -/
def compress : Nat → Mem → Nat → Nat → Except Stop (Mem × Nat)
  | 0, _, _, _ => .error .fuel
  | fuel + 1, mem, d, s => do
      let c ← load mem s
      if c = 0 then .ok (mem, d)
      else
        let mem ← store mem d c
        let next ← if (← load mem s) = slash then skipSlashes fuel mem (s + 1) else .ok (s + 1)
        compress fuel mem (d + 1) next

/-- `while(!SEP(*s)) *d++ = *s++`. -/
def copy : Nat → Mem → Nat → Nat → Except Stop (Mem × Nat × Nat)
  | 0, _, _, _ => .error .fuel
  | fuel + 1, mem, d, s => do
      let c ← load mem s
      if SEP c then .ok (mem, d, s)
      else copy fuel (← store mem d c) (d + 1) (s + 1)

/-- `for(; d > d0 && d[-1] != '/'; d--)`. -/
def backUp : Nat → Mem → Nat → Nat → Except Stop Nat
  | 0, _, _, _ => .error .fuel
  | fuel + 1, mem, d0, d => do
      if d0 < d then if (← load mem (d - 1)) = slash then .ok d else backUp fuel mem d0 (d - 1)
      else .ok d

/-- `s[0] == '.' && SEP(s[1])`. -/
def here (mem : Mem) (s : Nat) : Except Stop Bool := do
  if (← load mem s) = dot then return SEP (← load mem (s + 1)) else return false

/-- `s[0] == '.' && s[1] == '.' && SEP(s[2])`. -/
def parent (mem : Mem) (s : Nat) : Except Stop Bool := do
  if (← load mem s) = dot then if (← load mem (s + 1)) = dot then return SEP (← load mem (s + 2)) else return false
  else return false

/-- What a component does. -/
inductive Turn where
  | skip
  | back (d0 : Nat)
  | copy (d0 : Nat)

/-- The tests at the head of the loop, with `d0` as they leave it. -/
def turn (rooted : Bool) (mem : Mem) (d0 d s : Nat) : Except Stop Turn := do
  if ← parent mem s then
    if d = d0 && rooted then return .skip
    else
      -- never collect ../
      let d0 := if d = d0 then d0 + 3 else d0
      return if d0 < d then .back d0 else .copy d0
  else return .copy d0

/-- The loop over the components. -/
def walk (rooted : Bool) : Nat → Mem → Nat → Nat → Nat → Except Stop (Mem × Nat)
  | 0, _, _, _, _ => .error .fuel
  | fuel + 1, mem, d0, d, s => do
      if (← load mem s) = 0 then .ok (mem, d)
      else if ← here mem s then
        if (← load mem (s + 1)) = 0 then .ok (mem, d) else walk rooted fuel mem d0 d (s + 2)
      else
        match ← turn rooted mem d0 d s with
        | .skip => if (← load mem (s + 2)) = 0 then .ok (mem, d) else walk rooted fuel mem d0 d (s + 3)
        | .back d0 =>
            if d < d0 + 2 || (← load mem (d - 1)) ≠ slash then .error .assert
            else
              let d ← backUp mem.length mem d0 (d - 2)
              if (← load mem (s + 2)) = 0 then .ok (mem, d) else walk rooted fuel mem d0 d (s + 3)
        | .copy d0 =>
            let (mem, d, s) ← copy mem.length mem d s
            let c ← load mem s
            if c = 0 then .ok (mem, d) else walk rooted fuel (← store mem d c) d0 (d + 1) (s + 1)

/-- The extra slashes at a root. -/
def skipRoot (rooted : Bool) (mem : Mem) (d0 : Nat) : Except Stop Nat :=
  if rooted then skipSlashes (mem.length + 1) mem d0 else .ok d0

/-- The last slash, `thanks to #/`. -/
def strip (mem : Mem) (d : Nat) : Except Stop Mem :=
  if 1 < d then do if (← load mem (d - 1)) = slash then store mem (d - 1) 0 else .ok mem
  else .ok mem

/-- `strcpy(name, ".")`, for which there is room. -/
def strcpyDot (mem : Mem) : Mem := dot :: 0 :: mem.drop 2

/-- Cleaning from `d0`, the first position after the root, on. -/
def clean (rooted : Bool) (mem : Mem) (d0 : Nat) : Except Stop Mem := do
  let s ← skipRoot rooted mem d0
  let (mem, d) ← compress (mem.length + 1) mem d0 s
  let mem ← store mem d 0
  let (mem, d) ← walk rooted (mem.length + 1) mem d0 d0 d0
  let mem ← store mem d 0
  let mem ← strip mem d
  if (← load mem 0) = 0 then .ok (strcpyDot mem) else .ok mem

def cleanname (mem : Mem) : Except Stop Mem := do
  let c ← load mem 0
  if c = 0 then .ok (strcpyDot mem)
  else if c = hash then
    if (← load mem 1) = 0 then .ok mem
    else
      -- the test after the loop is of the pointer, which is not null
      let d0 ← skipName mem.length mem (1 + (← runeAt mem 1))
      clean true mem (d0 + 1)
  else if c = slash then clean true mem 1
  else clean false mem 0

/-- The string at the start of the memory. -/
def cstring (mem : Mem) : List UInt8 := mem.takeWhile fun c => c ≠ 0

/-- `cleanname` on a string. -/
def cleaned (s : List UInt8) : Except Stop Mem := cleanname (s ++ [0])

-- a/./b//../c/
example : (cleaned [0x61, 0x2F, 0x2E, 0x2F, 0x62, 0x2F, 0x2F, 0x2E, 0x2E, 0x2F, 0x63, 0x2F]).toOption.map cstring = some [0x61, 0x2F, 0x63] := by decide

end Goken.Cleanname
