import Goken.Lib.Bits

/-! Numbers in bytes, the lowest first. -/

namespace Goken.Lib.Bytes

/-- The low byte of a two's complement number. -/
def low (v : Int) : UInt8 := UInt8.ofNat (v % 256).toNat

/-- The `n` lowest bytes of `v`. -/
def split : Nat → Int → List UInt8
  | 0, _ => []
  | n + 1, v => low v :: split n (v >>> (8 : Nat))

def join : List UInt8 → Nat
  | [] => 0
  | b :: rest => b.toNat + 256 * join rest

theorem low_toNat (v : Int) : ((low v).toNat : Int) = v % 256 := by
  have small : (v % 256).toNat < 256 := by omega
  rw [low, UInt8.toNat_ofNat', Nat.mod_eq_of_lt small]
  omega

theorem split_length (n : Nat) (v : Int) : (split n v).length = n := by
  induction n generalizing v with
  | zero => rfl
  | succ n ih => rw [split, List.length_cons, ih]

private theorem emod_mul (v : Int) {m : Int} (positive : 0 < m) : v % (256 * m) = v % 256 + 256 * (v / 256 % m) := by
  have low := Int.emod_add_mul_ediv v 256
  have high := Int.emod_add_mul_ediv (v / 256) m
  have small := Int.emod_lt_of_pos (v / 256) positive
  have nonneg := Int.emod_nonneg (v / 256) (Int.ne_of_gt positive)
  have parts : v = v % 256 + 256 * (v / 256 % m) + 256 * m * (v / 256 / m) := by
    calc v = v % 256 + 256 * (v / 256 % m + m * (v / 256 / m)) := by rw [high, low]
      _ = v % 256 + 256 * (v / 256 % m) + 256 * m * (v / 256 / m) := by ring
  rw [parts, Int.add_mul_emod_self_left, ← parts]
  exact Int.emod_eq_of_lt (by omega) (by omega)

theorem join_split (n : Nat) (v : Int) : (join (split n v) : Int) = v % 256 ^ n := by
  induction n generalizing v with
  | zero => simp [split, join]
  | succ n ih =>
    have shift : v >>> (8 : Nat) = v / 256 := by rw [Int.shiftRight_eq_div_pow]; rfl
    rw [split, join, Nat.cast_add, Nat.cast_mul, ih, low_toNat, shift, Int.pow_succ', emod_mul v (Int.pow_pos (by decide))]
    rfl

/-! Four bytes, as C writes and reads them. -/

def put4 (l : Int) : List UInt8 := [low l, low (l >>> (8 : Nat)), low (l >>> (16 : Nat)), low (l >>> (24 : Nat))]

/-- `p[0] | (p[1]<<8) | (p[2]<<16) | (p[3]<<24)`. -/
def or4 (p0 p1 p2 p3 : UInt8) : Nat := p0.toNat ||| p1.toNat <<< 8 ||| p2.toNat <<< 16 ||| p3.toNat <<< 24

theorem put4_eq (l : Int) : put4 l = split 4 l := by
  have two : l >>> (16 : Nat) = l >>> (8 : Nat) >>> (8 : Nat) := by rw [← Int.shiftRight_add]
  have three : l >>> (24 : Nat) = l >>> (8 : Nat) >>> (8 : Nat) >>> (8 : Nat) := by rw [← Int.shiftRight_add, ← Int.shiftRight_add]
  rw [put4, two, three]
  rfl

private theorem or_bytes {x0 x1 x2 : Nat} (b0 : x0 < 256) (b1 : x1 < 256) (b2 : x2 < 256) (x3 : Nat) :
    x0 ||| x1 <<< 8 ||| x2 <<< 16 ||| x3 <<< 24 = x0 + 256 * (x1 + 256 * (x2 + 256 * x3)) := by
  rw [Bits.or_shiftLeft (n := 8) b0, Bits.or_shiftLeft (x := x1 * 2 ^ 8 + x0) (by omega),
    Bits.or_shiftLeft (x := x2 * 2 ^ 16 + (x1 * 2 ^ 8 + x0)) (by omega)]
  ring

theorem or4_eq (p0 p1 p2 p3 : UInt8) : or4 p0 p1 p2 p3 = join [p0, p1, p2, p3] :=
  or_bytes p0.toNat_lt p1.toNat_lt p2.toNat_lt p3.toNat

/-- Reading what was written gives the number again, up to 32 bits. -/
theorem or4_low (l : Int) : (or4 (low l) (low (l >>> (8 : Nat))) (low (l >>> (16 : Nat))) (low (l >>> (24 : Nat))) : Int) = l % 2 ^ 32 := by
  have four : (256 : Int) ^ 4 = 2 ^ 32 := by norm_num
  have value := join_split 4 l
  rw [← put4_eq, four] at value
  rw [or4_eq, ← value, put4]

/-- Four bytes as a signed number. -/
def get4 {ε : Type} (short : ε) : List UInt8 → Except ε (Int × List UInt8)
  | p0 :: p1 :: p2 :: p3 :: p => .ok (Int.bmod (or4 p0 p1 p2 p3) (2 ^ 32), p)
  | _ => .error short

theorem get4_put4 {ε : Type} (short : ε) (l : Int) (rest : List UInt8) :
    get4 short (put4 l ++ rest) = .ok (Int.bmod l (2 ^ 32), rest) := by
  have whole : Int.bmod (l % 2 ^ 32) (2 ^ 32) = Int.bmod l (2 ^ 32) := Int.emod_bmod l (2 ^ 32)
  simp only [put4, List.cons_append, List.nil_append, get4, or4_low, whole]

/-- The first `n` bytes and the others. -/
def take {ε : Type} (short : ε) (n : Nat) (p : List UInt8) : Except ε (List UInt8 × List UInt8) :=
  if n ≤ p.length then .ok (p.take n, p.drop n) else .error short

theorem take_append {ε : Type} (short : ε) {n : Nat} {bytes : List UInt8} (length : bytes.length = n) (rest : List UInt8) :
    take short n (bytes ++ rest) = .ok (bytes, rest) := by
  rw [take, if_pos (by simp [length]), List.take_left' length, List.drop_left' length]

/-- The loop that shifts the bytes in, from the last to the first. -/
theorem foldr_shift (bytes : List UInt8) : bytes.foldr (fun b v => v <<< 8 ||| b.toNat) 0 = join bytes := by
  induction bytes with
  | nil => rfl
  | cons b rest ih =>
    have small : b.toNat < 2 ^ 8 := b.toNat_lt
    rw [List.foldr_cons, ih, Nat.or_comm, Bits.or_shiftLeft small, join]
    ring

/-! Strings that end with a NUL. -/

abbrev CString := { text : List UInt8 // 0 ∉ text }

/-- The bytes before the first NUL and those behind it. -/
def cstring : List UInt8 → Option (CString × List UInt8)
  | [] => none
  | b :: rest =>
    if zero : b = 0 then some (⟨[], by simp⟩, rest)
    else (cstring rest).map fun (n, rest) => (⟨b :: n.val, by simpa [eq_comm, zero] using n.property⟩, rest)

theorem cstring_append (n : CString) (rest : List UInt8) : cstring (n.val ++ 0 :: rest) = some (n, rest) := by
  obtain ⟨text, clean⟩ := n
  induction text with
  | nil => simp [cstring]
  | cons b text ih =>
    have nonzero : b ≠ 0 := fun zero => clean (zero ▸ List.mem_cons_self)
    have later : 0 ∉ text := fun inside => clean (List.mem_cons_of_mem b inside)
    simp [cstring, nonzero, ih later]

end Goken.Lib.Bytes
