import Mathlib.Data.List.Forall2
import Mathlib.Tactic.Common

/-! Readers of binary formats: a reader takes what it reads off the front of the bytes.
`Reads p bytes x` says that `p` reads exactly these bytes, as `x`, whatever follows; what
has to be read to the end is for an `inner` reader, a function on all the bytes. -/

namespace Goken.Lib.Readers

abbrev Reader (α : Type) := StateT (List UInt8) Option α

variable {α β : Type}

def Reads (p : Reader α) (bytes : List UInt8) (x : α) : Prop := ∀ rest, p (bytes ++ rest) = some (x, rest)

theorem Reads.pure (x : α) : Reads (pure x) [] x := fun _ => rfl

theorem bind_apply (p : Reader α) (f : α → Reader β) (bytes : List UInt8) :
    (p >>= f) bytes = (p bytes).bind fun (x, rest) => f x rest := rfl

theorem Reads.bind {p : Reader α} {f : α → Reader β} {front back : List UInt8} {x : α} {y : β} (first : Reads p front x)
    (second : Reads (f x) back y) : Reads (p >>= f) (front ++ back) y := by
  intro rest
  rw [bind_apply, List.append_assoc, first]
  exact second rest

/-- The same bytes, put together differently. -/
theorem Reads.congr {p : Reader α} {bytes bytes' : List UInt8} {x : α} (reads : Reads p bytes x) (same : bytes = bytes') :
    Reads p bytes' x := same ▸ reads

/-- The last part of a reader. -/
theorem Reads.last {p : Reader α} {make : α → β} {bytes : List UInt8} {x : α} (reads : Reads p bytes x) :
    Reads (p >>= fun x => Pure.pure (make x)) bytes (make x) := (reads.bind (.pure (make x))).congr (List.append_nil bytes)

def fail : Reader α := fun _ => none

def byte : Reader UInt8
  | [] => none
  | b :: rest => some (b, rest)

theorem reads_byte (b : UInt8) : Reads byte [b] b := fun _ => rfl

/-- A byte that has to be there. -/
def exactly (b : UInt8) : Reader Unit
  | [] => none
  | c :: rest => if c = b then some ((), rest) else none

theorem reads_exactly (b : UInt8) : Reads (exactly b) [b] () := fun _ => if_pos rfl

def take (n : Nat) : Reader (List UInt8) := fun bytes => if bytes.length < n then none else some (bytes.take n, bytes.drop n)

theorem reads_take (bytes : List UInt8) : Reads (take bytes.length) bytes bytes := by
  intro rest
  rw [take, if_neg (by simp), List.take_left, List.drop_left]

/-! LEB128. -/

def unsigned : Reader Nat
  | [] => none
  | b :: rest =>
    if b.toNat < 128 then some (b.toNat, rest)
    else (unsigned rest).map fun (v, rest) => (b.toNat - 128 + 128 * v, rest)

def signed : Reader Int
  | [] => none
  | b :: rest =>
    if b.toNat < 64 then some (b.toNat, rest)
    else if b.toNat < 128 then some (b.toNat - 128, rest)
    else (signed rest).map fun (v, rest) => (b.toNat - 128 + 128 * v, rest)

theorem reads_unsigned_last {b : UInt8} (last : b.toNat < 128) : Reads unsigned [b] b.toNat := fun _ => if_pos last

theorem reads_unsigned_more {b : UInt8} {bytes : List UInt8} {v : Nat} (more : 128 ≤ b.toNat) (rest : Reads unsigned bytes v) :
    Reads unsigned (b :: bytes) (b.toNat - 128 + 128 * v) := by
  intro behind
  rw [List.cons_append, unsigned, if_neg (Nat.not_lt.mpr more), rest]
  rfl

theorem reads_signed_nonneg {b : UInt8} (last : b.toNat < 64) : Reads signed [b] b.toNat := fun _ => if_pos last

theorem reads_signed_neg {b : UInt8} (sign : 64 ≤ b.toNat) (last : b.toNat < 128) : Reads signed [b] (b.toNat - 128) := by
  intro rest
  rw [List.cons_append, signed, if_neg (Nat.not_lt.mpr sign), if_pos last]
  rfl

theorem reads_signed_more {b : UInt8} {bytes : List UInt8} {v : Int} (more : 128 ≤ b.toNat) (rest : Reads signed bytes v) :
    Reads signed (b :: bytes) (b.toNat - 128 + 128 * v) := by
  intro behind
  rw [List.cons_append, signed, if_neg (by omega), if_neg (Nat.not_lt.mpr more), rest]
  rfl

/-! Sequences. -/

def times (p : Reader α) : Nat → Reader (List α)
  | 0 => pure []
  | n + 1 => do
    let x ← p
    let xs ← times p n
    return x :: xs

/-- A count, and so many. -/
def vec (p : Reader α) : Reader (List α) := do
  let n ← unsigned
  times p n

theorem reads_times {p : Reader α} {chunks : List (List UInt8)} {xs : List α} (each : List.Forall₂ (Reads p) chunks xs) :
    Reads (times p xs.length) chunks.flatten xs := by
  induction each with
  | nil => exact .pure []
  | @cons chunk x chunks xs first _ ih =>
    refine first.bind ((ih.bind (.pure (x :: xs))).congr ?_)
    rw [List.append_nil]

theorem reads_vec {p : Reader α} {chunks : List (List UInt8)} {xs : List α} {count : List UInt8}
    (length : Reads unsigned count xs.length) (each : List.Forall₂ (Reads p) chunks xs) :
    Reads (vec p) (count ++ chunks.flatten) xs :=
  length.bind (reads_times each)

/-- A size, and so many bytes for the inner reader. -/
def framed (inner : List UInt8 → Option α) : Reader α := do
  let n ← unsigned
  let body ← take n
  match inner body with
  | some x => pure x
  | none => fail

theorem reads_framed {inner : List UInt8 → Option α} {size body : List UInt8} {x : α} (length : Reads unsigned size body.length)
    (inside : inner body = some x) : Reads (framed inner) (size ++ body) x := by
  refine length.bind (((reads_take body).bind (?_ : Reads _ [] x)).congr (List.append_nil body))
  simp only [inside]
  exact .pure x

/-- The bytes, read to their end. -/
def whole (p : Reader α) (bytes : List UInt8) : Option α :=
  match p bytes with
  | some (x, []) => some x
  | _ => none

theorem Reads.whole {p : Reader α} {bytes : List UInt8} {x : α} (reads : Reads p bytes x) : whole p bytes = some x := by
  have run := reads []
  rw [List.append_nil] at run
  rw [Readers.whole, run]

/-- As many as there are up to the end of the bytes. -/
def many (p : Reader α) : Nat → List UInt8 → Option (List α)
  | _, [] => some []
  | 0, _ :: _ => none
  | fuel + 1, b :: bytes =>
    match p (b :: bytes) with
    | some (x, rest) => (many p fuel rest).map (x :: ·)
    | none => none

theorem reads_many {p : Reader α} {chunks : List (List UInt8)} {xs : List α} (each : List.Forall₂ (Reads p) chunks xs)
    (some_ : ∀ chunk ∈ chunks, chunk ≠ []) {fuel : Nat} (enough : chunks.length ≤ fuel) :
    many p fuel chunks.flatten = some xs := by
  induction each generalizing fuel with
  | nil => cases fuel <;> rfl
  | @cons chunk x chunks xs first _ ih =>
    obtain ⟨fuel, rfl⟩ : ∃ k, fuel = k + 1 := ⟨fuel - 1, by simp only [List.length_cons] at enough; omega⟩
    have read := first chunks.flatten
    rw [List.flatten_cons]
    cases front : chunk ++ chunks.flatten with
    | nil => exact absurd (List.append_eq_nil_iff.mp front).1 (some_ chunk List.mem_cons_self)
    | cons b bytes =>
      rw [front] at read
      rw [many, read]
      simp only
      rw [ih (fun chunk member => some_ chunk (List.mem_cons_of_mem _ member)) (Nat.le_of_succ_le_succ enough)]
      rfl

theorem length_le_flatten {chunks : List (List UInt8)} (some_ : ∀ chunk ∈ chunks, chunk ≠ []) :
    chunks.length ≤ chunks.flatten.length := by
  induction chunks with
  | nil => exact Nat.le_refl 0
  | cons chunk chunks ih =>
    have := List.length_pos_of_ne_nil (some_ chunk List.mem_cons_self)
    have := ih fun chunk member => some_ chunk (List.mem_cons_of_mem _ member)
    simp only [List.length_cons, List.flatten_cons, List.length_append]
    omega

/-- A section that may be missing: its number, its size and its contents. -/
def section_ (id : UInt8) (none_ : α) (inner : List UInt8 → Option α) : Reader α
  | [] => some (none_, [])
  | b :: rest => if b = id then framed inner rest else some (none_, b :: rest)

theorem reads_section {id : UInt8} {none_ : α} {inner : List UInt8 → Option α} {size body : List UInt8} {x : α}
    (length : Reads unsigned size body.length) (inside : inner body = some x) :
    Reads (section_ id none_ inner) (id :: (size ++ body)) x := by
  intro rest
  rw [List.cons_append, section_, if_pos rfl]
  exact reads_framed length inside rest

theorem Reads.skip {id b : UInt8} {none_ : α} {inner : List UInt8 → Option α} {f : α → Reader β} {bytes : List UInt8} {y : β}
    (other : b ≠ id) (reads : Reads (f none_) (b :: bytes) y) : Reads (section_ id none_ inner >>= f) (b :: bytes) y := by
  intro rest
  rw [bind_apply, List.cons_append, section_, if_neg other]
  exact reads rest

end Goken.Lib.Readers
