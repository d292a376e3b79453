import Goken.Proofs.Lzcomp
import Goken.Lib.Steps

/-! Runs of `deflate`: what its parse buffer, its history and its hash hold at the head
of every loop, whatever the reader does. -/

namespace Goken.Proofs.Deflate
open Goken.Deflate Goken.Lib Goken.Lib.Matches Goken.Proofs.Lzmatch Goken.Proofs.Lzparse Goken.Proofs.Lzcomp

/-! Reading. -/

section Reading

variable {input : List UInt8} {keeps : Nat → Prop} {hist : Hist} {buf : List UInt8} {m mm : Nat}

/-- The reader overwrites bytes that are not kept, also where it reads less than it
writes. -/
theorem fill_held (held : Held input keeps hist) (far : ∀ a < input.length, keeps a → input.length + buf.length ≤ a + 65536)
    (room : input.length % 65536 + m ≤ HistSize) :
    Gives (fun after => Held input keeps after ∧ ∀ k < buf.length, after (input.length % 65536 + k) = buf[k]?)
      (fill hist (input.length % 65536) m buf) := by
  rw [fill, if_pos room]
  refine .ok ⟨⟨fun a inside kept => ?_, fun a inside kept small => ?_⟩, fun k within => ?_⟩
  · have away := far a inside kept
    rw [if_neg (by omega)]
    exact held.front a inside kept
  · have away := far a inside kept
    rw [if_neg (by omega)]
    exact held.slop a inside kept small
  · refine (if_pos (by omega)).trans ?_
    rw [Nat.add_sub_cancel_left]

theorem mirror_held (held : Held input keeps hist) (far : ∀ a < input.length, keeps a → input.length + buf.length ≤ a + 65536)
    (written : ∀ k < buf.length, hist (input.length % 65536 + k) = buf[k]?) (told : mm ≤ buf.length)
    (half : mm ≤ 32768) (room : input.length % 65536 + mm ≤ HistSize) :
    Gives (fun after => Held (input ++ buf.take mm) keeps after) (mirror hist (input.length % 65536) mm) := by
  have index : input.length % 65536 < 65536 := Nat.mod_lt _ (by decide)
  have old (a : Nat) (inside : a < input.length) : (input ++ buf.take mm)[a]? = input[a]? := List.getElem?_append_left inside
  have new (k : Nat) (within : k < mm) : (input ++ buf.take mm)[input.length + k]? = buf[k]? := by
    rw [List.getElem?_append_right (Nat.le_add_right _ _), Nat.add_sub_cancel_left, List.getElem?_take_of_lt within]
  have length : (input ++ buf.take mm).length = input.length + mm := by
    rw [List.length_append, List.length_take, Nat.min_eq_left told]
  have cell {i j : Nat} (same : i = j) : hist i = hist j := congrArg hist same
  rw [mirror, HistSlop, HistBlock]
  simp only [HistSize, HistBlock, HistSlop] at room
  by_cases beginning : input.length % 65536 < 512
  · rw [if_pos beginning, memmove, HistSize, HistBlock, HistSlop, if_pos (by omega)]
    refine .ok ⟨fun a inside kept => ?_, fun a inside kept small => ?_⟩
    · rw [if_neg (by omega)]
      by_cases before : a < input.length
      · rw [old a before]
        exact held.front a before kept
      · obtain ⟨k, rfl⟩ := Nat.exists_eq_add_of_le (Nat.le_of_not_lt before)
        rw [new k (by omega), ← written k (by omega)]
        exact cell (by omega)
    · by_cases before : a < input.length
      · rw [old a before]
        by_cases behind : input.length % 65536 ≤ a % 65536
        · rw [if_pos (by omega), ← held.front a before kept]
          exact cell (by omega)
        · rw [if_neg (by omega)]
          exact held.slop a before kept small
      · obtain ⟨k, rfl⟩ := Nat.exists_eq_add_of_le (Nat.le_of_not_lt before)
        rw [if_pos (by omega), new k (by omega), ← written k (by omega)]
        exact cell (by omega)
  · rw [if_neg beginning]
    by_cases around : input.length % 65536 + mm > 65536
    · rw [if_pos around, memmove, HistSize, HistBlock, HistSlop, if_pos (by omega)]
      refine .ok ⟨fun a inside kept => ?_, fun a inside kept small => ?_⟩
      · by_cases before : a < input.length
        · have away := far a before kept
          rw [if_neg (by omega), old a before]
          exact held.front a before kept
        · obtain ⟨k, rfl⟩ := Nat.exists_eq_add_of_le (Nat.le_of_not_lt before)
          rw [new k (by omega), ← written k (by omega)]
          by_cases over_ : input.length % 65536 + k < 65536
          · rw [if_neg (by omega)]
            exact cell (by omega)
          · rw [if_pos (by omega)]
            exact cell (by omega)
      · by_cases before : a < input.length
        · rw [if_neg (by omega), old a before]
          exact held.slop a before kept small
        · obtain ⟨k, rfl⟩ := Nat.exists_eq_add_of_le (Nat.le_of_not_lt before)
          rw [if_neg (by omega), new k (by omega), ← written k (by omega)]
          exact cell (by omega)
    · rw [if_neg around]
      refine .ok ⟨fun a inside kept => ?_, fun a inside kept small => ?_⟩
      · by_cases before : a < input.length
        · rw [old a before]
          exact held.front a before kept
        · obtain ⟨k, rfl⟩ := Nat.exists_eq_add_of_le (Nat.le_of_not_lt before)
          rw [new k (by omega), ← written k (by omega)]
          exact cell (by omega)
      · by_cases before : a < input.length
        · rw [old a before]
          exact held.slop a before kept small
        · omega

theorem room_bounds {U n ep : Nat} {lz : LZstate} (wide : 32 ≤ U) (half : lz.avail ≤ 32768) (total : n ≤ 65536) (index : ep < 65536) :
    0 ≤ room U lz n ep ∧ room U lz n ep ≤ 32768 - lz.avail ∧ room U lz n ep ≤ 65536 - n ∧ room U lz n ep ≤ 66048 - ep := by
  have large : 2 ^ 32 ≤ 2 ^ U := Nat.pow_le_pow_right (by decide) wide
  have modulus : ((2 ^ U : Nat) : Int) = 2 ^ U := Int.natCast_pow 2 U
  simp only [room]
  generalize first : (if (HistBlock : Int) - MaxOff - lz.avail > (HistBlock : Int) - n then (HistBlock : Int) - n
    else (HistBlock : Int) - MaxOff - lz.avail) = m
  have bounds : 0 ≤ m ∧ m ≤ 32768 - lz.avail ∧ m ≤ 65536 - n := by
    rw [← first]
    split <;> simp only [HistBlock, MaxOff] at * <;> omega
  have same : m % 2 ^ U = m := Int.emod_eq_of_lt bounds.1 (by omega)
  rw [same]
  generalize second : (if m > (HistSize : Int) - ep then (HistSize : Int) - ep else m) = m'
  have bounds' : 0 ≤ m' ∧ m' ≤ m ∧ m' ≤ 66048 - ep := by
    rw [← second]
    split <;> simp only [HistSize, HistBlock, HistSlop] at * <;> omega
  split <;> simp only [BlockSize] at * <;> omega

end Reading

/-! The machine. -/

/-- The position in the input of the next byte to be consumed. -/
def here (s : State) : Nat := s.input.length - s.lz.avail

/-- The position at which the block begins. -/
def first (s : State) : Nat := here s - s.lzb.bytes

/-- What has been recorded for the block: matches of lengths and distances that are
allowed, each repeating bytes before it. -/
def Faithful (s : State) : Prop := ∃ items, tokens s.lzb.parse = some items ∧ Parses Fit s.input (first s) items

structure Kept (s : State) : Prop where
  read : s.lz.avail ≤ s.input.length
  half : s.lz.avail ≤ 32768
  index : here s % 65536 = s.lz.pos
  order : s.lzb.bytes ≤ here s
  total : s.n = s.lzb.bytes + s.lz.avail
  most : s.n ≤ 65536
  short : s.lzb.bytes ≤ 65535
  slop : s.slop = first s % 65536
  dot : s.lz.dot = MaxOff + 1
  held : Held s.input (fun a => first s ≤ a ∨ here s ≤ a + 32768) s.lz.hist
  least : 2 ≤ s.lz.prevlen
  now : s.lz.now = int32 (32769 + (here s + ahead s.lz.prevlen : Nat))
  hash : ∀ i, Chained (here s + ahead s.lz.prevlen) (s.lz.hash i)
  nexts : ∀ i, Chained (here s + ahead s.lz.prevlen) (s.lz.nexts i)
  pending : s.lz.prevlen ≠ 2 → Match s.input (here s) s.lz.prevlen s.lz.prevoff ∧ s.lz.prevlen ≤ s.lz.avail
  faithful : Faithful s
  entries : s.lzb.parse.length ≤ nparse

/-- Within `deflateb`, before the end of the block. -/
structure Parsing (s : State) : Prop where
  coded : Coded s.input (first s) (here s) s.lzb.parse s.lzb.lastv
  pending : s.lz.prevlen ≠ 2 → s.lzb.bytes + s.lz.prevlen ≤ 65535

/-- The invariant of the machine. -/
structure Sound (s : State) : Prop extends Kept s where
  parsing : s.stage = .head ∨ s.stage = .comp ∨ s.stage = .tail → Parsing s

variable {s : State} {U : Nat} {turn : Turn}

theorem start_sound (shifted : Int) : Sound (start shifted) := by
  have kept : Kept (start shifted) := by
    constructor
    case held => exact ⟨fun a inside => absurd inside (Nat.not_lt_zero a), fun a inside => absurd inside (Nat.not_lt_zero a)⟩
    case hash => exact fun _ _ => .inl rfl
    case nexts => exact fun _ _ => .inl rfl
    case pending => exact fun some => absurd rfl some
    case faithful => exact ⟨[], rfl, trivial⟩
    case now => exact (by decide : (32769 : Int) = int32 (32769 + (0 : Nat)))
    all_goals simp [start, deflatereset, block, here, first, MinMatch]
  refine ⟨kept, fun stage => ?_⟩
  rcases stage with head | comp | tail
  · cases head
  · cases comp
  · cases tail

/-- Only the stage changes. -/
theorem Sound.turned (sound : Sound s) (stage : Stage) (within : stage ≠ .stop → s.stage = .head ∨ s.stage = .comp ∨ s.stage = .tail) :
    Sound { s with stage := stage } where
  toKept := ⟨sound.read, sound.half, sound.index, sound.order, sound.total, sound.most, sound.short, sound.slop, sound.dot,
    sound.held, sound.least, sound.now, sound.hash, sound.nexts, sound.pending, sound.faithful, sound.entries⟩
  parsing inside := by
    have parsing := sound.parsing (within fun stop => by
      have inside : stage = .head ∨ stage = .comp ∨ stage = .tail := inside
      rw [stop] at inside
      rcases inside with head | comp | tail
      · cases head
      · cases comp
      · cases tail)
    exact ⟨parsing.coded, parsing.pending⟩

/-- A block begins. -/
theorem begin_sound (sound : Sound s) :
    Sound { s with lzb := block, slop := s.lz.pos, n := s.lz.avail, stage := .head } where
  read := sound.read
  half := sound.half
  index := sound.index
  order := Nat.zero_le _
  total := (Nat.zero_add _).symm
  most := Nat.le_trans sound.half (by decide)
  short := Nat.zero_le _
  slop := sound.index.symm
  dot := sound.dot
  held := sound.held.mono fun a kept => by
    rcases kept with behind | near
    · exact .inr (Nat.le_add_right_of_le behind)
    · exact .inr near
  least := sound.least
  now := sound.now
  hash := sound.hash
  nexts := sound.nexts
  pending := sound.pending
  faithful := ⟨[], rfl, trivial⟩
  entries := Nat.zero_le _
  parsing _ := by
    refine ⟨⟨⟨[], rfl, trivial, rfl⟩, Nat.le_of_eq (Nat.zero_add _), Nat.zero_lt_succ 6⟩, fun some => ?_⟩
    have short := (sound.pending some).1.short
    show 0 + s.lz.prevlen ≤ 65535
    omega

/-- The index in the history where the next bytes go. -/
theorem read_index (sound : Sound s) :
    (if s.lz.pos + s.lz.avail ≥ HistBlock then s.lz.pos + s.lz.avail - HistBlock else s.lz.pos + s.lz.avail) = s.input.length % 65536 := by
  have read := sound.read
  have half := sound.half
  have index := sound.index
  rw [here] at index
  rw [HistBlock]
  split <;> omega

/-- The bytes that are kept are not where the next ones go. -/
theorem kept_away (sound : Sound s) {a len : Nat} (kept : first s ≤ a ∨ here s ≤ a + 32768) (half : len + s.lz.avail ≤ 32768)
    (most : len + s.n ≤ 65536) : s.input.length + len ≤ a + 65536 := by
  have read := sound.read
  have order := sound.order
  have total := sound.total
  rw [first] at kept
  rw [here] at *
  omega

/-- More has been read. -/
theorem grown_sound (sound : Sound s) (parsing : Parsing s) {bytes : List UInt8} {mm : Nat} (long : bytes.length = mm)
    {hist : Hist} {totr : Nat} (held : Held (s.input ++ bytes) (fun a => first s ≤ a ∨ here s ≤ a + 32768) hist)
    (half : s.lz.avail + mm ≤ 32768) (most : s.n + mm ≤ 65536) :
    Sound { s with
      lz := { s.lz with hist := hist, totr := totr, avail := s.lz.avail + mm }
      n := s.n + mm
      input := s.input ++ bytes
      stage := .comp } := by
  have read := sound.read
  have length : (s.input ++ bytes).length = s.input.length + mm := by rw [List.length_append, long]
  have still : (s.input ++ bytes).length - (s.lz.avail + mm) = here s := by
    rw [length, here]
    omega
  have still' : (s.input ++ bytes).length - (s.lz.avail + mm) - s.lzb.bytes = first s := by rw [still, first]
  have total := sound.total
  refine { read := ?_, half, index := ?_, order := ?_, total := ?_, most, short := sound.short, slop := ?_, dot := sound.dot
           held := ?_, least := sound.least, now := ?_, hash := ?_, nexts := ?_, pending := ?_, faithful := ?_
           entries := sound.entries, parsing := fun _ => ⟨?_, parsing.pending⟩ }
  · show s.lz.avail + mm ≤ (s.input ++ bytes).length
    omega
  · rw [here, still]
    exact sound.index
  · rw [here, still]
    exact sound.order
  · show s.n + mm = s.lzb.bytes + (s.lz.avail + mm)
    omega
  · rw [first, here, still']
    exact sound.slop
  · rw [first, here, still', still]
    exact held
  · rw [here, still]
    exact sound.now
  · rw [here, still]
    exact sound.hash
  · rw [here, still]
    exact sound.nexts
  · intro some
    obtain ⟨found, fits⟩ := sound.pending some
    rw [here, still]
    exact ⟨⟨found.long, found.short, found.near, found.close, found.copies.grow bytes⟩, Nat.le_add_right_of_le fits⟩
  · obtain ⟨items, parsed, parses⟩ := sound.faithful
    refine ⟨items, parsed, ?_⟩
    rw [first, here, still']
    exact parses.grow bytes
  · obtain ⟨items, parsed, parses, done⟩ := parsing.coded.parsed
    rw [first, here, still', still]
    exact ⟨⟨items, parsed, parses.grow bytes, done⟩, parsing.coded.few, parsing.coded.small⟩

theorem refill_sound (sound : Sound s) (wide : 32 ≤ U) (head : s.stage = .head) : Gives Sound (refill U s turn) := by
  have index : s.input.length % 65536 < 65536 := Nat.mod_lt _ (by decide)
  have bounds := @room_bounds U s.n _ s.lz wide sound.half sound.most index
  have same := read_index sound
  simp only [refill]
  generalize (if s.lz.pos + s.lz.avail ≥ HistBlock then s.lz.pos + s.lz.avail - HistBlock else s.lz.pos + s.lz.avail) = ep at same ⊢
  subst same
  generalize room U s.lz s.n (s.input.length % 65536) = m at bounds ⊢
  by_cases small : m < HistSlop
  · rw [if_pos small]
    by_cases nothing : m = 0 ∨ s.lzb.bytes = 0
    · rw [if_pos nothing]
      exact .ok (sound.turned .stop fun never => absurd rfl never)
    · rw [if_neg nothing]
      exact .ok (sound.turned .tail fun _ => .inl head)
  rw [if_neg small]
  generalize turn.r m.toNat = reply
  have fits := reply.fits
  have told := reply.told
  have far (a : Nat) (inside : a < s.input.length) (kept : first s ≤ a ∨ here s ≤ a + 32768) :
      s.input.length + reply.buf.length ≤ a + 65536 := kept_away sound kept (by omega) (by omega)
  have space : s.input.length % 65536 + m.toNat ≤ HistSize := by
    rw [HistSize, HistBlock, HistSlop]
    omega
  have parsing := sound.parsing (.inl head)
  by_cases some : reply.mm > 0
  · rw [if_pos some]
    refine (fill_held sound.held far space).bind fun hist filled => ?_
    refine (@mirror_held _ _ _ _ reply.mm.toNat filled.1 far filled.2 (by omega) (by omega) (by omega)).bind fun hist held => ?_
    refine .ok (grown_sound sound parsing ?_ held (by omega) (by omega))
    rw [List.length_take, Nat.min_eq_left (by omega)]
  · rw [if_neg some]
    refine (fill_held sound.held far space).bind fun hist filled => ?_
    exact .ok
      { read := sound.read, half := sound.half, index := sound.index, order := sound.order, total := sound.total
        most := sound.most, short := sound.short, slop := sound.slop, dot := sound.dot, held := filled.1, least := sound.least
        now := sound.now, hash := sound.hash, nexts := sound.nexts, pending := sound.pending, faithful := sound.faithful
        entries := sound.entries, parsing := fun _ => ⟨parsing.coded, parsing.pending⟩ }

/-! The call of `lzcomp`. -/

/-- The hash values of the call that is next, if one is, are entries of `hash`. -/
def Hashable (U : Nat) (s : State) : Prop :=
  s.stage = .comp → Hashes U s.input s.lz (here s) (limit s.lz s.lzb) s.lz.eof

theorem limit_bounds {lz : LZstate} {lzb : LZblock} (index : lz.pos < 65536) (short : lzb.bytes ≤ 65535) :
    lz.pos ≤ limit lz lzb ∧ limit lz lzb ≤ HistSize ∧ limit lz lzb ≤ lz.pos + lz.avail ∧
      lzb.bytes + (limit lz lzb - lz.pos) ≤ DeflateMaxBlock ∧
      ∀ len ≤ 258, len ≤ lz.avail → lzb.bytes + len ≤ 65535 → lz.pos + len ≤ limit lz lzb := by
  simp only [limit]
  generalize known : (if lz.pos + lz.avail > HistSize then HistSize else lz.pos + lz.avail) = ep
  have bounds : lz.pos ≤ ep ∧ ep ≤ HistSize ∧ ep ≤ lz.pos + lz.avail ∧ ∀ len ≤ 258, len ≤ lz.avail → lz.pos + len ≤ ep := by
    rw [← known]
    split
    · next large =>
        simp only [HistSize, HistBlock, HistSlop] at large ⊢
        exact ⟨by omega, by omega, by omega, fun len _ _ => by omega⟩
    · next small => exact ⟨by omega, by omega, by omega, fun len _ _ => by omega⟩
  obtain ⟨low, high, inside, room⟩ := bounds
  rw [DeflateMaxBlock]
  split
  · exact ⟨by omega, by omega, by omega, by omega, fun len _ _ _ => by omega⟩
  · exact ⟨low, high, inside, by omega, fun len near available _ => room len near available⟩

theorem compress_sound (sound : Sound s) (wide : 32 ≤ U) (comp : s.stage = .comp) (hashable : Hashable U s) :
    Gives Sound (compress U s) := by
  have parsing := sound.parsing (.inr (.inl comp))
  have index : s.lz.pos < 65536 := sound.index ▸ Nat.mod_lt _ (by decide)
  obtain ⟨low, high, inside, limited, fits⟩ := limit_bounds index sound.short
  have read := sound.read
  have order := sound.order
  have beginning : first s + s.lzb.bytes = here s := Nat.sub_add_cancel order
  have ending : here s + s.lz.avail = s.input.length := Nat.sub_add_cancel read
  have window : Window s.input s.lz.hist (first s) (here s) s.lz.pos (limit s.lz s.lzb) :=
    ⟨sound.held, sound.index, by omega, low, high, by omega, by omega⟩
  have live : Live s.input (first s) (here s + (limit s.lz s.lzb - s.lz.pos)) (here s) s.lz s.lzb := by
    refine ⟨sound.least, sound.now, sound.hash, sound.nexts, parsing.coded, fun some => ?_⟩
    obtain ⟨found, available⟩ := sound.pending some
    have bound := fits _ found.short available (parsing.pending some)
    exact ⟨found, by omega⟩
  rw [compress]
  refine (lzcomp_keeps window wide sound.dot live (hashable comp)).bind fun result kept => ?_
  obtain ⟨lz, lzb, m⟩ := result
  obtain ⟨⟨hash, nexts, now, prevlen, prevoff, same⟩, bytes, less, live⟩ := kept
  have same : lz = { s.lz with hash, nexts, now, prevlen, prevoff } := same
  have bytes : lzb.bytes = s.lzb.bytes := bytes
  have less : m ≤ limit s.lz s.lzb - s.lz.pos := less
  have live : Live s.input (first s) (here s + (limit s.lz s.lzb - s.lz.pos)) (here s + m) lz lzb := live
  subst same
  have moved : s.input.length - (s.lz.avail - m) = here s + m := by omega
  have still : s.input.length - (s.lz.avail - m) - (lzb.bytes + m) = first s := by omega
  have total := sound.total
  rw [DeflateMaxBlock] at limited
  refine .ok
    { read := ?_, half := ?_, index := ?_, order := ?_, total := ?_, most := sound.most, short := ?_, slop := ?_
      dot := sound.dot, held := ?_, least := live.least, now := ?_, hash := ?_, nexts := ?_, pending := ?_, faithful := ?_
      entries := ?_, parsing := fun _ => ⟨?_, ?_⟩ }
  · show s.lz.avail - m ≤ s.input.length
    omega
  · have half := sound.half
    show s.lz.avail - m ≤ 32768
    omega
  · have old := sound.index
    rw [here, moved]
    show (here s + m) % 65536 = wrap (s.lz.pos + m : Nat)
    rw [wrap]
    omega
  · rw [here, moved]
    show lzb.bytes + m ≤ here s + m
    omega
  · show s.n = lzb.bytes + m + (s.lz.avail - m)
    omega
  · show lzb.bytes + m ≤ 65535
    omega
  · rw [first, here, still]
    exact sound.slop
  · rw [first, here, still, moved]
    exact sound.held.mono fun a kept => by omega
  · rw [here, moved]
    exact live.now
  · rw [here, moved]
    exact live.hash
  · rw [here, moved]
    exact live.nexts
  · intro some
    obtain ⟨found, fits⟩ := live.pending some
    rw [here, moved]
    refine ⟨found, ?_⟩
    show prevlen ≤ s.lz.avail - m
    have fits : here s + m + prevlen ≤ here s + (limit s.lz s.lzb - s.lz.pos) := fits
    omega
  · obtain ⟨items, parsed, parses, -⟩ := live.coded.parsed
    refine ⟨items, parsed, ?_⟩
    rw [first, here, still]
    exact parses
  · have few := live.coded.few
    show lzb.parse.length ≤ nparse
    rw [nparse, DeflateMaxBlock]
    omega
  · rw [first, here, still, moved]
    exact live.coded
  · intro some
    obtain ⟨-, fits⟩ := live.pending some
    show lzb.bytes + m + prevlen ≤ 65535
    have fits : here s + m + prevlen ≤ here s + (limit s.lz s.lzb - s.lz.pos) := fits
    omega

/-! The end of a block. -/

/-- Two bytes for every entry leave one for the run at the end. -/
theorem lastrun_fits {input : List UInt8} {first done : Nat} {lzb : LZblock} (coded : Coded input first done lzb.parse lzb.lastv)
    (inside : done ≤ input.length) (limited : done ≤ first + 65535) :
    Gives (fun parse => (∃ items, tokens parse = some items ∧ Parses Fit input first items) ∧ parse.length ≤ nparse) (lastrun lzb) := by
  obtain ⟨items, parsed, parses, total⟩ := coded.parsed
  have few := coded.few
  have small := coded.small
  rw [lastrun]
  by_cases some : lzb.lastv ≠ 0
  · have room : lzb.parse.length < nparse := by
      rw [nparse, DeflateMaxBlock]
      omega
    rw [if_pos some, put_room room (by omega)]
    refine .ok ⟨⟨items ++ [.literals lzb.lastv], ?_, ?_⟩, ?_⟩
    · rw [tokens_append parsed, tokens_run (by omega) (by omega)]
      rfl
    · exact parses.append ⟨by omega, trivial⟩
    · rw [List.length_append, List.length_singleton]
      exact room
  · rw [if_neg some]
    refine .ok ⟨⟨items, parsed, parses⟩, ?_⟩
    rw [nparse, DeflateMaxBlock]
    omega

theorem tally_counts {hist : Hist} {slop len : Nat} {count : Nat → Nat} (known : ∀ i < len, ∃ b, load hist (slop + i) = .ok b) :
    ∃ after, tally hist slop len count = .ok after := by
  induction len with
  | zero => exact ⟨count, rfl⟩
  | succ len ih =>
      obtain ⟨middle, counted⟩ := ih fun i below => known i (Nat.lt_succ_of_lt below)
      obtain ⟨b, loaded⟩ := known len (Nat.lt_succ_self len)
      obtain ⟨after, bumped⟩ := @bump_inside Nlitlen b.toNat middle (Nat.lt_trans b.toNat_lt (by decide))
      refine ⟨after, ?_⟩
      rw [tally] at counted ⊢
      rw [List.range_succ, List.foldlM_append, counted]
      simp only [bind, Except.bind, List.foldlM_cons, List.foldlM_nil, loaded, bumped]
      rfl

/-- Seven bytes for every entry. -/
theorem runs_fit {rounds i : Nat} {parse : List Nat} (enough : i < rounds) (room : 7 * parse.length + i ≤ 65535) :
    ∃ after, runs rounds i parse = .ok after := by
  induction rounds generalizing i parse with
  | zero => omega
  | succ rounds ih =>
      have space : parse.length < nparse := by
        rw [nparse, DeflateMaxBlock]
        omega
      rw [runs]
      by_cases more : i > MaxLitRun
      · rw [if_pos more, put_room space (by decide)]
        rw [MaxLitRun] at *
        refine ih (by omega) ?_
        rw [List.length_append, List.length_singleton]
        omega
      · rw [if_neg more, put_room space (by rw [MaxLitRun] at more; omega)]
        exact ⟨_, rfl⟩

theorem ending_sound (sound : Sound s) (tail : s.stage = .tail) : Gives Sound (ending s turn) := by
  have parsing := sound.parsing (.inr (.inr tail))
  have read := sound.read
  have order := sound.order
  have short := sound.short
  have slop := sound.slop
  have beginning : first s + s.lzb.bytes = here s := Nat.sub_add_cancel order
  have inside : here s ≤ s.input.length := Nat.sub_le _ _
  have counted : ∃ after, tally s.lz.hist s.slop (min s.lzb.bytes (HistSize - s.slop)) (fun _ => 0) = .ok after := by
    refine tally_counts fun i below => ?_
    obtain ⟨b, -, loaded⟩ := sound.held.at (a := first s + i) (i := s.slop + i) (by omega) (.inl (Nat.le_add_right _ _)) (by omega) (by omega)
    exact ⟨b, loaded⟩
  obtain ⟨litcount, counted⟩ := counted
  have counted' : ∃ after, tally s.lz.hist HistSlop (s.lzb.bytes - min s.lzb.bytes (HistSize - s.slop)) litcount = .ok after := by
    refine tally_counts fun i below => ?_
    simp only [HistSize, HistBlock, HistSlop] at below ⊢
    obtain ⟨b, -, loaded⟩ := sound.held.at (a := first s + (66048 - s.slop) + i) (i := 512 + i) (by omega) (.inl (by omega))
      (by simp only [HistSize, HistBlock, HistSlop]; omega) (by omega)
    exact ⟨b, loaded⟩
  obtain ⟨litcount', counted'⟩ := counted'
  obtain ⟨entries, fitting⟩ := @runs_fit (s.lzb.bytes + 1) s.lzb.bytes [] (Nat.lt_succ_self _) (by simpa using short)
  have finished (stage : Stage) (outside : stage = .next ∨ stage = .stop) (parse : List Nat)
      (faithful : ∃ items, tokens parse = some items ∧ Parses Fit s.input (first s) items) (fits : parse.length ≤ nparse) :
      Sound { s with lzb := { s.lzb with parse := parse }, stage := stage } :=
    { read, half := sound.half, index := sound.index, order, total := sound.total, most := sound.most, short, slop
      dot := sound.dot, held := sound.held, least := sound.least, now := sound.now, hash := sound.hash, nexts := sound.nexts
      pending := sound.pending, faithful, entries := fits
      parsing := fun within => by
        rcases outside with rfl | rfl
        · rcases within with head | comp | tail
          · cases head
          · cases comp
          · cases tail
        · rcases within with head | comp | tail
          · cases head
          · cases comp
          · cases tail }
  rw [ending]
  refine (lastrun_fits parsing.coded inside (by omega)).bind fun parse last => ?_
  by_cases never : parse.length > nparse
  · exact absurd last.2 (Nat.not_le_of_lt never)
  · rw [if_neg never]
    simp only
    rw [counted]
    refine Outcome.Ensures.value ?_
    rw [counted']
    refine Outcome.Ensures.value ?_
    cases turn.verdict with
    | internal => exact .ok (finished .stop (.inr rfl) parse last.1 last.2)
    | encoded => exact .ok (finished .next (.inl rfl) parse last.1 last.2)
    | huffman =>
        simp only
        rw [fitting]
        exact .ok (finished .next (.inl rfl) parse last.1 last.2)

theorem step_sound (sound : Sound s) (wide : 32 ≤ U) (hashable : Hashable U s) : Gives Sound (step U s turn) := by
  rw [step]
  cases stage : s.stage with
  | next =>
      by_cases more : ¬ s.lz.eof ∨ s.lz.avail ≠ 0
      · rw [if_pos more]
        exact .ok (begin_sound sound)
      · rw [if_neg more]
        exact .ok (sound.turned .stop fun never => absurd rfl never)
  | head =>
      by_cases more : s.n < DeflateBlock ∧ (¬ s.lz.eof ∨ s.lz.avail ≠ 0)
      · rw [if_pos more]
        by_cases reads : ¬ s.lz.eof
        · rw [if_pos reads]
          exact refill_sound sound wide stage
        · rw [if_neg reads]
          exact .ok (sound.turned .comp fun _ => .inl stage)
      · rw [if_neg more]
        exact .ok (sound.turned .tail fun _ => .inl stage)
  | comp => exact compress_sound sound wide stage hashable
  | tail => exact ending_sound sound stage
  | stop => exact .ok sound

/-! Runs. -/

/-- A step as it is taken: there is none after a fault. -/
def act (U : Nat) (s : State) (turn : Turn) : Option State := (step U s turn).toOption

theorem hashable_narrow (s : State) : Hashable 32 s := fun _ => ⟨fun _ _ _ => inRange_narrow _, fun _ _ _ => inRange_narrow _⟩

theorem run_sound (wide : 32 ≤ U) {shifted : Int} (run : Steps.Runs (act U) (fun s _ => Hashable U s) (start shifted) s) : Sound s := by
  refine run.invariant (start_sound shifted) fun {before after turn} sound hashable moves => ?_
  obtain ⟨next, stepped, sound⟩ := (@step_sound before U turn sound wide hashable).value
  rw [act, stepped] at moves
  exact Option.some.inj moves ▸ sound

/-- In a run in which the hash values lead to entries of `hash`, and in every run if a
`ulong` has 32 bits, no access is outside an array, the parse fits, and its matches
repeat what precedes them. -/
theorem deflate_safe {U : Nat} (wide : 32 ≤ U) (shifted : Int) :
    (∀ s, Steps.Runs (act U) (fun s _ => Hashable U s) (start shifted) s →
      s.lzb.parse.length ≤ nparse ∧ Faithful s ∧ (Hashable U s → ∀ turn, ∃ after, step U s turn = .ok after)) ∧
    (U = 32 → ∀ s, Hashable U s) := by
  refine ⟨fun s run => ?_, fun narrow s => narrow ▸ hashable_narrow s⟩
  have sound := run_sound wide run
  refine ⟨sound.entries, sound.faithful, fun hashable turn => ?_⟩
  obtain ⟨after, stepped, -⟩ := (@step_sound s U turn sound wide hashable).value
  exact ⟨after, stepped⟩

/-- A reader that has these bytes, if there is room for them. -/
def reads (bytes : List UInt8) : Turn where
  r m := if fits : bytes.length ≤ m then ⟨bytes, fits, bytes.length, Int.le_refl _⟩ else ⟨[], Nat.zero_le m, 0, Int.le_refl 0⟩
  verdict := .encoded

/-- The hash of zero bytes is zero, with any `ulong`. -/
theorem hashable_zeros {s : State} (zeros : s.input.all (· = 0)) : Hashable U s := by
  have zero : ∀ a, s.input.getD a 0 = 0 := by
    intro a
    rw [List.getD_eq_getElem?_getD]
    cases there : s.input[a]? with
    | none => rfl
    | some b => simpa using List.all_eq_true.mp zeros b (List.mem_of_getElem? there)
  have first : InRange U 0 := by simp [InRange, hashit, int32, HashSize]
  intro _
  constructor
  · intro a _ _
    rw [context, zero, zero, zero]
    exact first
  · intro _ _ _
    rw [remnant, zero, zero, show UInt8.toNat 0 = 0 from rfl, ite_self, ite_self]
    exact first

theorem runs_checked (check : State → Bool) (sound : ∀ s, check s → Hashable U s) {turns : List Turn} {first middle last : State}
    (run : Steps.Runs (act U) (fun s _ => Hashable U s) first middle)
    (moves : turns.foldlM (fun s turn => if check s then act U s turn else none) middle = some last) :
    Steps.Runs (act U) (fun s _ => Hashable U s) first last := by
  induction turns generalizing middle with
  | nil => exact Option.some.inj moves ▸ run
  | cons turn turns ih =>
      rw [List.foldlM_cons] at moves
      obtain ⟨next, stepped, rest⟩ := Option.bind_eq_some_iff.mp moves
      split at stepped
      · next checked => exact ih (run.next (sound middle checked) stepped) rest
      · cases stepped

/-- Ten equal bytes with a `ulong` of 32 bits, and ten zeros with one of 64: a literal and a
match of nine. -/
theorem deflate_safe_ten :
    (∃ s, Steps.Runs (act 32) (fun s _ => Hashable 32 s) (start 64) s ∧
      tokens s.lzb.parse = some [.literals 1, .copy 9 1] ∧ Faithful s) ∧
    ∃ s, Steps.Runs (act 64) (fun s _ => Hashable 64 s) (start 64) s ∧
      tokens s.lzb.parse = some [.literals 1, .copy 9 1] ∧ Faithful s := by
  constructor
  · have moves : (([[], List.replicate 10 97, [], [], [], [], []].map reads).foldlM
        (fun s turn => if true then act 32 s turn else none) (start 64)).map (fun s => tokens s.lzb.parse) =
        some (some [.literals 1, .copy 9 1]) := by decide +kernel
    obtain ⟨s, moves, parse⟩ := Option.map_eq_some_iff.mp moves
    have run := runs_checked (fun _ => true) (fun s _ => hashable_narrow s) .start moves
    exact ⟨s, run, parse, ((deflate_safe (by decide) 64).1 s run).2.1⟩
  · have moves : (([[], List.replicate 10 0, [], [], [], [], []].map reads).foldlM
        (fun (s : State) turn => if s.input.all (· = 0) then act 64 s turn else none) (start 64)).map (fun s => tokens s.lzb.parse) =
        some (some [.literals 1, .copy 9 1]) := by decide +kernel
    obtain ⟨s, moves, parse⟩ := Option.map_eq_some_iff.mp moves
    have run := runs_checked (fun s => s.input.all (· = 0)) (fun s zeros => hashable_zeros zeros) .start moves
    exact ⟨s, run, parse, ((deflate_safe (by decide) 64).1 s run).2.1⟩

/-- With a `ulong` of 64 bits the hash of three bytes is no index of `hash`. -/
theorem hash_overrun : ∃ turns : List Turn, turns.foldlM (step 64) (start 64) = .error .fault := by
  have faults : (([[], [0, 0, 3], [], [], []].map reads).foldlM (step 64) (start 64)).toOption.isNone = true := by decide
  refine ⟨[[], [0, 0, 3], [], [], []].map reads, ?_⟩
  cases run : ([[], [0, 0, 3], [], [], []].map reads).foldlM (step 64) (start 64) with
  | ok s =>
      rw [run] at faults
      cases faults
  | error stop =>
      cases stop
      rfl

end Goken.Proofs.Deflate
