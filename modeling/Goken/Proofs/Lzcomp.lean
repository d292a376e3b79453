import Goken.Proofs.Lzparse

/-! `lzcomp` stays inside the history and the hash, and records matches only. -/

namespace Goken.Proofs.Lzcomp
open Goken.Deflate Goken.Lib Goken.Lib.Matches Goken.Proofs.Lzmatch Goken.Proofs.Lzparse

/-! Numbers. -/

theorem int32_add (x y : Int) : int32 (int32 x + y) = int32 (x + y) := by
  unfold int32
  omega

theorem int32_small {x : Int} (least : -2 ^ 31 ≤ x) (most : x < 2 ^ 31) : int32 x = x := by
  unfold int32
  omega

/-- A position that is not before the dawn of time is one. -/
theorem position_after {position back : Nat} (near : back ≤ 2) (late : ¬ int32 (int32 (32769 + position) - back) < MaxOff + 1) : back ≤ position := by
  rw [MaxOff] at late
  unfold int32 at late
  omega

theorem shift_low {U : Nat} (wide : 32 ≤ U) (cont : Nat) (c : UInt8) : shift U cont c % 2 ^ 24 = cont % 2 ^ 16 * 256 + c.toNat := by
  have bound : c.toNat < 2 ^ 8 := c.toNat_lt
  have divides : (2 : Nat) ^ 24 ∣ 2 ^ U := Nat.pow_dvd_pow 2 (by omega)
  obtain ⟨k, total⟩ : (2 : Nat) ^ 8 ∣ cont <<< 8 % 2 ^ U := by
    rw [Nat.dvd_iff_mod_eq_zero, Nat.mod_mod_of_dvd _ (Nat.pow_dvd_pow 2 (by omega)), Nat.shiftLeft_eq, Nat.mul_mod_left]
  have same : (cont <<< 8 % 2 ^ U) % 2 ^ 24 = cont * 2 ^ 8 % 2 ^ 24 := by
    rw [Nat.mod_mod_of_dvd _ divides, Nat.shiftLeft_eq]
  rw [shift, total, Nat.mul_comm, ← Nat.shiftLeft_eq, ← Nat.shiftLeft_add_eq_or_of_lt bound, Nat.shiftLeft_eq]
  rw [total] at same
  omega

theorem low_byte (x y : Nat) {z : Nat} (small : z < 2 ^ 8) : (x * 65536 + y * 256 + z) % 2 ^ 8 = z := by
  omega

/-- The entry of `hash` for `cont` is there. -/
def InRange (U cont : Nat) : Prop := 0 ≤ hashit U cont ∧ hashit U cont < HashSize

theorem inRange_of_low {U c d : Nat} (same : c % 2 ^ 24 = d % 2 ^ 24) (range : InRange U d) : InRange U c := by
  have equal : hashit U c = hashit U d := by rw [hashit, hashit, same]
  rwa [InRange, equal]

theorem slot_inRange {U cont : Nat} (range : InRange U cont) : slot (hashit U cont) = .ok (hashit U cont).toNat := if_pos range

/-- With a `ulong` of 32 bits the product is cut to 32 bits, of which 13 are left. -/
theorem inRange_narrow (cont : Nat) : InRange 32 cont := by
  have bound : cont % 2 ^ 24 * 0x6b43a9b5 % 2 ^ 32 < 2 ^ 32 := Nat.mod_lt _ (by decide)
  rw [InRange, hashit, Nat.shiftRight_eq_div_pow, HashSize]
  generalize cont % 2 ^ 24 * 0x6b43a9b5 % 2 ^ 32 = product at bound
  rw [int32_small (by omega) (by omega)]
  omega

/-! Links. -/

/-- A link on a chain, at position `pos` of the input: before the first 32768 bytes
have passed, it is none or leads to an earlier byte. -/
def Chained (pos link : Nat) : Prop := pos < 32768 → link = 0 ∨ 32769 ≤ link ∧ link < 32769 + pos

theorem Chained.later {pos link later : Nat} (chained : Chained pos link) (after : pos ≤ later) : Chained later link := by
  intro early
  rcases chained (by omega) with none | back
  · exact .inl none
  · exact .inr (by omega)

theorem Chained.linked {pos link : Nat} (chained : Chained pos link) : Linked (int32 (32769 + pos)) pos link := by
  intro near
  rw [MaxOff] at near
  unfold ushort int32 at *
  by_cases early : pos < 32768
  · rcases chained early with none | back
    · omega
    · omega
  · omega

theorem chained_new {pos earlier : Nat} (before : earlier < pos) : Chained pos (ushort (int32 (32769 + earlier))) := by
  intro early
  unfold ushort int32
  omega

/-! Where a call of `lzcomp` works: the byte at index `pos` of the history is the one
at position `here` of the input, and the block begins at position `first`. -/

structure Window (input : List UInt8) (hist : Hist) (first here pos ep : Nat) : Prop where
  held : Held input (fun a => first ≤ a ∨ here ≤ a + 32768) hist
  index : here % 65536 = pos
  begun : first ≤ here
  low : pos ≤ ep
  high : ep ≤ HistSize
  inside : here + (ep - pos) ≤ input.length
  limited : here + (ep - pos) ≤ first + DeflateMaxBlock

variable {input : List UInt8} {hist : Hist} {first here pos ep : Nat} {U : Nat}

theorem Window.shows (window : Window input hist first here pos ep) {p : Nat} (len : Nat) (low : pos ≤ p) (high : p + len ≤ ep) :
    Shows input hist p (here + (p - pos)) len := by
  have index := window.index
  have inside := window.inside
  have bound := window.high
  exact window.held.shows (by omega) (fun j _ => .inr (by omega)) (by omega) (by omega)

theorem Window.searchable (window : Window input hist first here pos ep) {p es : Nat} (low : pos ≤ p) (order : p ≤ es)
    (high : es ≤ ep) (short : es ≤ p + MaxMatch) : Searchable input hist p es (here + (p - pos)) where
  ahead := window.shows _ low (by omega)
  behind off near before := by
    have index := window.index
    have inside := window.inside
    rw [MaxOff] at near
    rw [MaxMatch] at short
    refine window.held.shows (by omega) (fun j _ => .inr (by omega)) ?_ ?_
    · rw [HistSize, HistBlock, HistSlop, wrap]
      omega
    · rw [wrap]
      omega

/-- The position of the input that `p` is at. -/
def position (here pos : Nat) (l : Locals) : Nat := here + (l.p - pos)

structure Placed (here pos ep : Nat) (l : Locals) : Prop where
  low : pos ≤ l.p
  high : l.p ≤ ep
  now : l.now = int32 (32769 + position here pos l)
  hash : ∀ i, Chained (position here pos l) (l.hash i)
  nexts : ∀ i, Chained (position here pos l) (l.nexts i)

/-- Three bytes of the input, as they are hashed. -/
def context (input : List UInt8) (a : Nat) : Nat :=
  (input.getD a 0).toNat * 65536 + (input.getD (a + 1) 0).toNat * 256 + (input.getD (a + 2) 0).toNat

/-- `cont` is for `p`. At the end it may be what the last position with three bytes
has left, or what the call began with. -/
structure Keyed (U : Nat) (input : List UInt8) (finish : Bool) (here pos ep : Nat) (l : Locals) : Prop where
  cont : l.p + 3 ≤ ep → l.cont % 2 ^ 24 = context input (position here pos l)
  range : finish = true ∨ l.p + 3 ≤ ep → l.p < ep → InRange U l.cont

/-- What has been recorded when `p` has reached a position: all before it, or all but
the byte where a match is pending. -/
structure Committed (input : List UInt8) (first here limit done reached : Nat) (l : Locals) : Prop where
  coded : Coded input first done l.parse l.v
  begun : here ≤ done
  least : 2 ≤ l.prevlen
  pending : l.prevlen = 2 ∧ done = reached ∨
    l.prevlen ≠ 2 ∧ done + 1 = reached ∧ Match input done l.prevlen l.prevoff ∧ done + l.prevlen ≤ limit

/-- The same place in the input, with the same chains. -/
structure Stays (before after : Locals) : Prop where
  p : after.p = before.p
  cont : after.cont = before.cont
  now : after.now = before.now
  hash : after.hash = before.hash
  nexts : after.nexts = before.nexts

theorem stays_recorded {before after : Locals} (recorded : Recorded before after) : Stays before after := by
  obtain ⟨parse, v, litlencount, offcount, excost, rfl⟩ := recorded
  exact ⟨rfl, rfl, rfl, rfl, rfl⟩

theorem prevlen_recorded {before after : Locals} (recorded : Recorded before after) : after.prevlen = before.prevlen := by
  obtain ⟨parse, v, litlencount, offcount, excost, rfl⟩ := recorded
  rfl

/-- What `lzmatch` is used for: nothing longer than the match pending, or a match. -/
def Usable (input : List UInt8) (limit reached : Nat) (l : Locals) (runlen m : Nat) : Prop :=
  runlen = l.prevlen ∨ l.prevlen < runlen ∧ Match input reached runlen m ∧ reached + runlen ≤ limit

section Encode

variable {limit done reached maxdefer runlen m : Nat} {l : Locals}

/-- Give up the pending match, if there is one, for the literal at its start. -/
theorem giveup_commits (committed : Committed input first here limit done reached l) (known : ∀ a < limit, here ≤ a →
      ∃ b, load hist (l.p + a - reached) = .ok b)
    (here_p : l.prevlen ≠ 2 → 1 ≤ l.p) (inside : limit ≤ input.length) (limited : limit ≤ first + DeflateMaxBlock) :
    Gives (fun after => Recorded l after ∧ Coded input first reached after.parse after.v) (giveup hist l) := by
  rw [giveup, MinMatch]
  rcases committed.pending with ⟨none, rfl⟩ | ⟨some, rfl, found, fits⟩
  · rw [if_neg (not_not_intro none)]
    exact .ok ⟨⟨_, _, _, _, _, rfl⟩, committed.coded⟩
  · have long := found.long
    have begun := committed.begun
    have positive := here_p some
    rw [if_pos some]
    refine putliteral_codes committed.coded ?_ (by omega) (by omega)
    rw [show l.p - 1 = l.p + done - (done + 1) by omega]
    exact known done (by omega) begun

theorem encode_commits (committed : Committed input first here limit done reached l)
    (known : ∀ a < limit, here ≤ a → ∃ b, load hist (l.p + a - reached) = .ok b)
    (here_p : l.prevlen ≠ 2 → 1 ≤ l.p) (inside : limit ≤ input.length) (limited : limit ≤ first + DeflateMaxBlock)
    (room : reached < limit) (usable : Usable input limit reached l runlen m) :
    Gives (fun result => Stays l result.1 ∧ 1 ≤ result.2 ∧ reached + result.2 ≤ limit ∧
        ∃ done, Committed input first here limit done (reached + result.2) result.1)
      (encode hist maxdefer l runlen m) := by
  have begun := committed.begun
  have least := committed.least
  rw [encode, MinMatch]
  by_cases old : l.prevlen ≥ runlen ∧ l.prevlen ≠ 2
  · -- the pending match is as good
    rw [if_pos old]
    rcases committed.pending with ⟨none, -⟩ | ⟨some, rfl, found, fits⟩
    · exact absurd none old.2
    · have long := found.long
      refine (putmatch_codes committed.coded found (by omega)).bind fun after stored => ?_
      have stays := stays_recorded stored.1
      refine .ok ⟨⟨stays.p, stays.cont, stays.now, stays.hash, stays.nexts⟩, ?_, ?_, done + l.prevlen, ?_⟩
      · show 1 ≤ l.prevlen - 1
        omega
      · show done + 1 + (l.prevlen - 1) ≤ limit
        omega
      · refine ⟨stored.2, by omega, Nat.le_refl 2, .inl ⟨rfl, ?_⟩⟩
        show done + l.prevlen = done + 1 + (l.prevlen - 1)
        omega
  · rw [if_neg old]
    by_cases literal : runlen = 2
    · -- no match
      have none : l.prevlen = 2 := by
        rcases usable with rfl | ⟨longer, -⟩
        · exact literal
        · omega
      obtain rfl : done = reached := by
        rcases committed.pending with ⟨-, same⟩ | ⟨some, -⟩
        · exact same
        · exact absurd none some
      have loaded : ∃ b, load hist l.p = .ok b := by
        have found := known done room begun
        rwa [Nat.add_sub_cancel] at found
      rw [if_pos literal]
      refine (putliteral_codes committed.coded loaded (by omega) (by omega)).bind fun after stored => ?_
      have stays := stays_recorded stored.1
      exact .ok ⟨stays, Nat.le_refl 1, room, done + 1, stored.2, by omega, by rw [prevlen_recorded stored.1, none], .inl ⟨by rw [prevlen_recorded stored.1, none], rfl⟩⟩
    · -- a longer match
      obtain ⟨longer, found, fits⟩ : l.prevlen < runlen ∧ Match input reached runlen m ∧ reached + runlen ≤ limit := by
        rcases usable with rfl | better
        · exact absurd ⟨Nat.le_refl _, literal⟩ old
        · exact better
      have order : done ≤ reached := by
        rcases committed.pending with ⟨-, same⟩ | ⟨-, same, -⟩ <;> omega
      have long := found.long
      rw [if_neg literal]
      refine (giveup_commits committed known here_p inside limited).bind fun after stored => ?_
      have stays := stays_recorded stored.1
      by_cases lazy : runlen < maxdefer
      · rw [if_pos lazy]
        exact .ok ⟨⟨stays.p, stays.cont, stays.now, stays.hash, stays.nexts⟩, Nat.le_refl 1, room, reached, stored.2,
          by omega, by show 2 ≤ runlen; omega, .inr ⟨literal, rfl, found, fits⟩⟩
      · rw [if_neg lazy]
        refine (putmatch_codes stored.2 found (by omega)).bind fun last stored' => ?_
        have stays' := stays_recorded stored'.1
        refine .ok ⟨⟨stays'.p.trans stays.p, stays'.cont.trans stays.cont, stays'.now.trans stays.now,
          stays'.hash.trans stays.hash, stays'.nexts.trans stays.nexts⟩, ?_, fits, reached + runlen, stored'.2,
          by omega, Nat.le_refl 2, .inl ⟨rfl, rfl⟩⟩
        show 1 ≤ runlen
        omega

end Encode

/-! The chains. -/

/-- Every three bytes that are hashed lead to an entry of `hash`. -/
def Contexts (U : Nat) (input : List UInt8) (lowest limit : Nat) : Prop :=
  ∀ a, lowest ≤ a + 2 → a + 3 ≤ limit → InRange U (context input a)

theorem context_lt (input : List UInt8) (a : Nat) : context input a < 2 ^ 24 := by
  have first := (input.getD a 0).toNat_lt
  have second := (input.getD (a + 1) 0).toNat_lt
  have third := (input.getD (a + 2) 0).toNat_lt
  rw [context]
  omega

theorem inRange_context {cont a : Nat} (same : cont % 2 ^ 24 = context input a) (range : InRange U (context input a)) :
    InRange U cont :=
  inRange_of_low (same.trans (Nat.mod_eq_of_lt (context_lt input a)).symm) range

/-- Only the place and the chains change. -/
structure Carries (before after : Locals) : Prop where
  parse : after.parse = before.parse
  v : after.v = before.v
  prevlen : after.prevlen = before.prevlen
  prevoff : after.prevoff = before.prevoff

theorem Committed.carried {limit done reached : Nat} {before after : Locals}
    (committed : Committed input first here limit done reached before) (carries : Carries before after) :
    Committed input first here limit done reached after := by
  obtain ⟨coded, begun, least, pending⟩ := committed
  rw [← carries.parse, ← carries.v] at coded
  rw [← carries.prevlen] at least
  rw [← carries.prevlen, ← carries.prevoff] at pending
  exact ⟨coded, begun, least, pending⟩

theorem Carries.trans {before middle after : Locals} (one : Carries before middle) (two : Carries middle after) :
    Carries before after :=
  ⟨two.parse.trans one.parse, two.v.trans one.v, two.prevlen.trans one.prevlen, two.prevoff.trans one.prevoff⟩

theorem chained_update {at_ earlier later : Nat} {links : Nat → Nat} (chained : ∀ i, Chained earlier (links i)) {link : Nat}
    (new : Chained later link) (order : earlier ≤ later) (i : Nat) : Chained later (Function.update links at_ link i) := by
  by_cases same : i = at_
  · rw [same, Function.update_self]
    exact new
  · rw [Function.update_of_ne same]
    exact (chained i).later order

theorem byte_known {a : Nat} {b : UInt8} (known : input[a]? = some b) : input.getD a 0 = b := by
  rw [List.getD_eq_getElem?_getD, known]
  rfl

section Moves

variable {l : Locals} {finish : Bool}

theorem advance_keys (window : Window input hist first here pos ep) (wide : 32 ≤ U) (low : pos ≤ l.p)
    (three : l.p + 3 ≤ ep) (cont : l.cont % 2 ^ 24 = context input (position here pos l)) :
    Gives (fun next => (l.p + 4 ≤ ep → next % 2 ^ 24 = context input (position here pos l + 1)) ∧
        (¬ l.p + 4 ≤ ep → next = l.cont))
      (advance U hist ep l.p l.cont) := by
  rw [advance, MinMatch]
  by_cases more : l.p + 3 < ep
  · obtain ⟨b, known, loaded⟩ := window.shows 4 low more 3 (by decide)
    rw [if_pos more, loaded]
    refine .ok ⟨fun _ => ?_, fun less => absurd more less⟩
    rw [shift_low wide]
    have third : input.getD (position here pos l + 1 + 2) 0 = b := byte_known known
    have second := (input.getD (position here pos l + 2) 0).toNat_lt
    have middle := (input.getD (position here pos l + 1) 0).toNat_lt
    rw [context] at cont ⊢
    rw [third, show position here pos l + 1 + 1 = position here pos l + 2 from rfl]
    omega
  · rw [if_neg more]
    exact .ok ⟨fun enough => absurd enough (by omega), fun _ => rfl⟩

theorem position_next {after : Locals} (low : pos ≤ l.p) (moved : after.p = l.p + 1) :
    position here pos after = position here pos l + 1 := by
  rw [position, position, moved]
  omega

theorem Placed.next (placed : Placed here pos ep l) (inside : l.p < ep) {after : Locals} (moved : after.p = l.p + 1)
    (now : after.now = int32 (l.now + 1)) (hash : ∀ i, Chained (position here pos l + 1) (after.hash i))
    (nexts : ∀ i, Chained (position here pos l + 1) (after.nexts i)) : Placed here pos ep after := by
  have next : position here pos after = position here pos l + 1 := position_next placed.low moved
  refine ⟨?_, ?_, ?_, next ▸ hash, next ▸ nexts⟩
  · rw [moved]
    exact Nat.le_succ_of_le placed.low
  · rw [moved]
    exact inside
  · rw [now, placed.now, int32_add, next, Int.natCast_add, Int.add_assoc]
    rfl

/-- One position more. -/
theorem link_moves (window : Window input hist first here pos ep) (wide : 32 ≤ U) (placed : Placed here pos ep l)
    (keyed : Keyed U input finish here pos ep l) (contexts : Contexts U input (position here pos l) (here + (ep - pos)))
    (inside : l.p < ep) :
    Gives (fun after => after.p = l.p ∧ Carries l after ∧
        Placed here pos ep { after with p := after.p + 1, now := int32 (after.now + 1) } ∧
        Keyed U input finish here pos ep { after with p := after.p + 1, now := int32 (after.now + 1) })
      (link U hist ep l) := by
  have low := placed.low
  rw [link, MinMatch]
  by_cases three : l.p + 3 ≤ ep
  · have range := keyed.range (.inr three) inside
    rw [if_pos three, slot_inRange range]
    refine Outcome.Ensures.value ((advance_keys window wide low three (keyed.cont three)).bind fun cont follows => ?_)
    have new : Chained (position here pos l + 1) (ushort l.now) := by
      rw [placed.now]
      exact chained_new (Nat.lt_succ_self _)
    have old : Chained (position here pos l + 1) (l.hash (hashit U l.cont).toNat) := (placed.hash _).later (Nat.le_succ _)
    refine .ok ⟨rfl, ⟨rfl, rfl, rfl, rfl⟩, placed.next inside rfl rfl ?_ ?_, ⟨?_, ?_⟩⟩
    · intro i
      exact @chained_update (hashit U l.cont).toNat _ _ _ placed.hash _ new (Nat.le_succ _) i
    · intro i
      exact @chained_update (l.now % MaxOff).toNat _ _ _ placed.nexts _ old (Nat.le_succ _) i
    · intro more
      rw [position_next low rfl]
      exact follows.1 more
    · intro needed within
      show InRange U cont
      by_cases more : l.p + 4 ≤ ep
      · have inside : position here pos l + 1 + 3 ≤ here + (ep - pos) := by
          rw [position]
          omega
        exact inRange_context (follows.1 more) (contexts _ (by omega) inside)
      · rw [follows.2 more]
        exact range
  · rw [if_neg three]
    refine .ok ⟨rfl, ⟨rfl, rfl, rfl, rfl⟩, placed.next inside rfl rfl ?_ ?_, ⟨?_, ?_⟩⟩
    · exact fun i => (placed.hash i).later (Nat.le_succ _)
    · exact fun i => (placed.nexts i).later (Nat.le_succ _)
    · intro more
      exact absurd (Nat.le_of_succ_le (show l.p + 3 + 1 ≤ ep by have : l.p + 1 + 3 ≤ ep := more; omega)) three
    · intro needed within
      rcases needed with finish | more
      · exact keyed.range (.inl finish) inside
      · exact absurd (Nat.le_of_succ_le (show l.p + 3 + 1 ≤ ep by have : l.p + 1 + 3 ≤ ep := more; omega)) three

theorem rehash_moves (window : Window input hist first here pos ep) (wide : 32 ≤ U) (placed : Placed here pos ep l)
    (keyed : Keyed U input finish here pos ep l) (contexts : Contexts U input (position here pos l) (here + (ep - pos)))
    {runlen : Nat} (inside : l.p + runlen ≤ ep) :
    Gives (fun after => after.p = l.p + runlen ∧ Carries l after ∧ Placed here pos ep after ∧ Keyed U input finish here pos ep after)
      (rehash U hist ep runlen l) := by
  induction runlen generalizing l with
  | zero => exact .ok ⟨rfl, ⟨rfl, rfl, rfl, rfl⟩, placed, keyed⟩
  | succ runlen ih =>
      rw [rehash]
      refine (link_moves window wide placed keyed contexts (by omega)).bind fun middle moved => ?_
      obtain ⟨same, carries, placed', keyed'⟩ := moved
      have low := placed.low
      refine (ih placed' keyed' (fun a above => contexts a ?_) (by show middle.p + 1 + runlen ≤ ep; omega)).mono fun after rest => ?_
      · simp only [position] at above ⊢
        omega
      · refine ⟨?_, carries.trans ⟨rest.2.1.parse, rest.2.1.v, rest.2.1.prevlen, rest.2.1.prevoff⟩, rest.2.2⟩
        rw [rest.1]
        show middle.p + 1 + runlen = _
        omega

end Moves

/-! The loop. -/

/-- What is left of what `lzmatch` has found after the back out of small matches. -/
theorem usable_found {limit done reached es p : Nat} {l : Locals} {found : Nat × Nat}
    (committed : Committed input first here limit done reached l) (bound : reached + (es - p) ≤ limit) (short : es ≤ p + MaxMatch)
    (matched : found = (l.prevlen, 0) ∨ (l.prevlen < found.1 ∧ p + found.1 ≤ es ∧ found.2 < MaxOff ∧
      Copies input reached found.1 (found.2 + 1))) :
    Usable input limit reached l
      (if found.1 = MinMatch ∧ found.2 ≥ MinMatchMaxOff then (MinMatch - 1, 0) else (found.1, found.2)).1
      (if found.1 = MinMatch ∧ found.2 ≥ MinMatchMaxOff then (MinMatch - 1, 0) else (found.1, found.2)).2 := by
  have least := committed.least
  rw [MaxMatch] at short
  rw [MinMatch, MinMatchMaxOff]
  rcases matched with rfl | ⟨longer, fits, near, copies⟩
  · rw [if_neg (fun small => Nat.not_succ_le_zero 4095 small.2)]
    exact .inl rfl
  · by_cases far : found.1 = 3 ∧ found.2 ≥ 4096
    · rw [if_pos far]
      exact .inl (by show 2 = l.prevlen; omega)
    · rw [if_neg far]
      refine .inr ⟨longer, ⟨by show 3 ≤ found.1; omega, by show found.1 ≤ 258; omega, near, fun three => ?_, copies⟩, ?_⟩
      · rw [MinMatchMaxOff]
        have three : found.1 = 3 := three
        show found.2 < 4096
        omega
      · show reached + found.1 ≤ limit
        omega

theorem lzloop_keeps (window : Window input hist first here pos ep) (wide : 32 ≤ U) {finish : Bool} {rounds maxcheck done : Nat}
    {l : Locals} (placed : Placed here pos ep l) (keyed : Keyed U input finish here pos ep l)
    (contexts : Contexts U input (position here pos l) (here + (ep - pos)))
    (committed : Committed input first here (here + (ep - pos)) done (position here pos l) l) (enough : ep + 1 ≤ l.p + rounds) :
    Gives (fun after => Placed here pos ep after ∧ ∃ done, Committed input first here (here + (ep - pos)) done (position here pos after) after)
      (lzloop U hist maxcheck ep finish rounds l) := by
  induction rounds generalizing l done with
  | zero =>
      have high := placed.high
      omega
  | succ rounds ih =>
      have low := placed.low
      have high := placed.high
      rw [lzloop]
      by_cases ends : l.p + MaxMatch > ep ∧ (¬ finish ∨ l.p ≥ ep)
      · rw [if_pos ends]
        exact .ok ⟨placed, done, committed⟩
      rw [if_neg ends]
      generalize bound : (if l.p + MaxMatch > ep then ep else l.p + MaxMatch) = es
      obtain ⟨inside, needed, order, fits, short⟩ :
          l.p < ep ∧ (finish = true ∨ l.p + 3 ≤ ep) ∧ l.p ≤ es ∧ es ≤ ep ∧ es ≤ l.p + MaxMatch := by
        rw [MaxMatch] at *
        rw [← bound]
        cases finish
        · simp only [Bool.false_eq_true, not_false_eq_true, true_or, and_true] at ends
          rw [if_neg ends]
          omega
        · simp only [not_true, false_or] at ends
          refine ⟨by omega, .inl rfl, ?_⟩
          split <;> omega
      have linked (i : Nat) : Linked l.now (position here pos l) (l.nexts i) := placed.now ▸ (placed.nexts i).linked
      have first' : Linked l.now (position here pos l) (l.hash (hashit U l.cont).toNat) := placed.now ▸ (placed.hash _).linked
      rw [slot_inRange (keyed.range needed inside)]
      refine Outcome.Ensures.value ?_
      refine (lzmatch_finds (window.searchable low order fits short) linked first').bind fun found matched => ?_
      have usable := usable_found committed (by rw [position]; omega) short matched
      simp only
      generalize (if found.1 = MinMatch ∧ found.2 ≥ MinMatchMaxOff then (MinMatch - 1, 0) else (found.1, found.2)) = used at usable
      have known (a : Nat) (below : a < here + (ep - pos)) (above : here ≤ a) :
          ∃ b, load hist (l.p + a - position here pos l) = .ok b := by
        obtain ⟨b, -, loaded⟩ := window.shows (ep - pos) (Nat.le_refl pos) (by have := window.low; omega) (a - here) (by omega)
        refine ⟨b, ?_⟩
        rw [← loaded, position]
        congr 1
        omega
      refine (encode_commits committed known ?_ window.inside window.limited ?_ usable).bind fun result recorded => ?_
      · intro some
        rcases committed.pending with ⟨none, -⟩ | ⟨-, one, -⟩
        · exact absurd none some
        · have begun := committed.begun
          rw [position] at one
          omega
      · rw [position]
        omega
      obtain ⟨stays, forward, least, done, committed⟩ := recorded
      rw [position] at least
      have here_same : position here pos result.1 = position here pos l := by rw [position, position, stays.p]
      have placed' : Placed here pos ep result.1 := by
        refine ⟨stays.p ▸ low, stays.p ▸ high, ?_, ?_, ?_⟩
        · rw [stays.now, here_same]
          exact placed.now
        · rw [stays.hash, here_same]
          exact placed.hash
        · rw [stays.nexts, here_same]
          exact placed.nexts
      have keyed' : Keyed U input finish here pos ep result.1 := by
        refine ⟨?_, ?_⟩
        · rw [stays.cont, stays.p, here_same]
          exact keyed.cont
        · rw [stays.cont, stays.p]
          exact keyed.range
      refine (rehash_moves window wide placed' keyed' (here_same ▸ contexts) (by rw [stays.p]; omega)).bind fun after moved => ?_
      obtain ⟨reached, carries, placed, keyed⟩ := moved
      have there : position here pos after = position here pos l + result.2 := by
        rw [position, position, reached, stays.p]
        omega
      refine @ih done after placed keyed ?_ ?_ (by rw [reached, stays.p]; omega)
      · rw [there]
        exact fun a above => contexts a (by omega)
      · rw [there]
        exact committed.carried carries

/-! The start of a call. -/

theorem seek_ends {now : Int} {nexts : Nat → Nat} {back rounds thn prevoff : Nat} (enough : back < rounds + prevoff) (some : 0 < rounds) :
    Gives (fun _ => True) (seek now nexts back rounds thn prevoff) := by
  induction rounds generalizing thn prevoff with
  | zero => omega
  | succ rounds ih =>
      rw [seek]
      by_cases ends : ushort (now - thn) ≤ prevoff ∨ ushort (now - thn) ≥ back
      · rw [if_pos ends]
        exact .ok trivial
      · rw [if_neg ends]
        exact ih (by omega) (by omega)

section Start

variable {l : Locals}

/-- A link that hangs at `back` bytes before `p`: only where there is a byte. -/
theorem hang_places (window : Window input hist first here pos ep) (placed : Placed here pos ep l) (back : Nat)
    (some : 0 < back) (near : back ≤ 2) (room : l.p + 3 ≤ ep + back)
    (contexts : Contexts U input (position here pos l) (here + (ep - pos))) :
    Gives (fun after => after.p = l.p ∧ Carries l after ∧ Placed here pos ep after ∧
        after.cont = if int32 (l.now - back) < MaxOff + 1 then l.cont else context input (position here pos l - back))
      (hang U hist (MaxOff + 1) back l) := by
  have low := placed.low
  have now := placed.now
  rw [hang]
  simp only
  by_cases early : int32 (l.now - back) < MaxOff + 1
  · rw [if_pos early, if_pos early]
    exact .ok ⟨rfl, ⟨rfl, rfl, rfl, rfl⟩, placed, rfl⟩
  rw [if_neg early, if_neg early]
  have after : back ≤ position here pos l := position_after near (by rw [now] at early; exact early)
  have earlier : int32 (l.now - back) = int32 (32769 + (position here pos l - back : Nat)) := by
    rw [now, Int.sub_eq_add_neg, int32_add]
    congr 1
    omega
  have distance : int32 (l.now - int32 (l.now - back)) = back := by
    unfold int32
    omega
  have shows : Shows input hist (wrap (l.p - back)) (position here pos l - back) 3 := by
    have index := window.index
    have inside := window.inside
    have bound := window.high
    rw [position] at after ⊢
    refine window.held.shows (by omega) (fun j _ => .inr (by omega)) ?_ ?_
    · rw [HistSize, HistBlock, HistSlop, wrap]
      omega
    · rw [wrap]
      omega
  obtain ⟨b0, known0, loaded0⟩ := shows 0 (by decide)
  obtain ⟨b1, known1, loaded1⟩ := shows 1 (by decide)
  obtain ⟨b2, known2, loaded2⟩ := shows 2 (by decide)
  rw [Nat.add_zero] at known0 loaded0
  have value : b0.toNat <<< 16 ||| b1.toNat <<< 8 ||| b2.toNat = context input (position here pos l - back) := by
    have bound1 := b1.toNat_lt
    have bound2 := b2.toNat_lt
    have high : b0.toNat <<< 16 + b1.toNat <<< 8 = (b0.toNat * 256 + b1.toNat) <<< 8 := by
      simp only [Nat.shiftLeft_eq]
      omega
    rw [context, byte_known known0, byte_known known1, byte_known known2,
      ← Nat.shiftLeft_add_eq_or_of_lt (by rw [Nat.shiftLeft_eq]; omega), high, ← Nat.shiftLeft_add_eq_or_of_lt bound2, Nat.shiftLeft_eq]
    omega
  rw [distance, loaded0]
  refine Outcome.Ensures.value ?_
  rw [loaded1]
  refine Outcome.Ensures.value ?_
  rw [loaded2]
  refine Outcome.Ensures.value ?_
  rw [value]
  have range : InRange U (context input (position here pos l - back)) := by
    refine contexts _ (by omega) ?_
    rw [position] at after ⊢
    omega
  rw [slot_inRange range]
  refine Outcome.Ensures.value ((seek_ends (by omega) (by omega)).bind fun thn _ => ?_)
  have new : Chained (position here pos l) (ushort (int32 (l.now - back))) := by
    rw [earlier]
    exact chained_new (by omega)
  by_cases same : thn = ushort (int32 (l.now - back))
  · rw [if_pos same]
    exact .ok ⟨rfl, ⟨rfl, rfl, rfl, rfl⟩, ⟨low, placed.high, now, placed.hash, placed.nexts⟩, rfl⟩
  · rw [if_neg same]
    refine .ok ⟨rfl, ⟨rfl, rfl, rfl, rfl⟩, ⟨low, placed.high, now, ?_, ?_⟩, rfl⟩
    · intro i
      exact @chained_update (hashit U (context input (position here pos l - back))).toNat _ _ _ placed.hash _ new (Nat.le_refl _) i
    · intro i
      exact @chained_update (int32 (l.now - back) % MaxOff).toNat _ _ _ placed.nexts _ (placed.hash _) (Nat.le_refl _) i

theorem gather_keys (wide : 32 ≤ U) {p a n cont : Nat} (few : n ≤ 3) (shows : Shows input hist p a n) :
    Gives (fun c => (n = 3 → c % 2 ^ 24 = context input a) ∧
        (n = 2 → c % 2 ^ 24 = cont % 2 ^ 8 * 65536 + (input.getD a 0).toNat * 256 + (input.getD (a + 1) 0).toNat) ∧
        (n = 1 → c % 2 ^ 24 = cont % 2 ^ 16 * 256 + (input.getD a 0).toNat))
      (gather U hist p n cont) := by
  have step (i : Nat) (within : i < n) : ∃ b, load hist (p + i) = .ok b ∧ input.getD (a + i) 0 = b := by
    obtain ⟨b, known, loaded⟩ := shows i within
    exact ⟨b, loaded, byte_known known⟩
  obtain _ | _ | _ | _ | n := n
  · exact .ok ⟨fun three => absurd three (by decide), fun two => absurd two (by decide), fun one => absurd one (by decide)⟩
  · obtain ⟨b0, loaded0, byte0⟩ := step 0 (by decide)
    have found : gather U hist p 1 cont = .ok (shift U cont b0) := by
      simp only [gather, List.range_one, List.foldlM_cons, List.foldlM_nil, loaded0]
      rfl
    rw [found]
    refine .ok ⟨fun three => absurd three (by decide), fun two => absurd two (by decide), fun _ => ?_⟩
    rw [shift_low wide, ← byte0, Nat.add_zero]
  · obtain ⟨b0, loaded0, byte0⟩ := step 0 (by decide)
    obtain ⟨b1, loaded1, byte1⟩ := step 1 (by decide)
    have found : gather U hist p 2 cont = .ok (shift U (shift U cont b0) b1) := by
      simp only [gather, show List.range 2 = [0, 1] from rfl, List.foldlM_cons, List.foldlM_nil, loaded0, loaded1]
      rfl
    rw [found]
    refine .ok ⟨fun three => absurd three (by decide), fun _ => ?_, fun one => absurd one (by decide)⟩
    have first := shift_low wide cont b0
    have bound := b0.toNat_lt
    rw [Nat.add_zero] at byte0
    rw [shift_low wide, byte0, byte1]
    omega
  · obtain ⟨b0, loaded0, byte0⟩ := step 0 (by decide)
    obtain ⟨b1, loaded1, byte1⟩ := step 1 (by decide)
    obtain ⟨b2, loaded2, byte2⟩ := step 2 (by decide)
    have found : gather U hist p 3 cont = .ok (shift U (shift U (shift U cont b0) b1) b2) := by
      simp only [gather, show List.range 3 = [0, 1, 2] from rfl, List.foldlM_cons, List.foldlM_nil, loaded0, loaded1, loaded2]
      rfl
    rw [found]
    refine .ok ⟨fun _ => ?_, fun two => absurd two (by decide), fun one => absurd one (by decide)⟩
    have first := shift_low wide cont b0
    have second := shift_low wide (shift U cont b0) b1
    have bound := b0.toNat_lt
    have bound' := b1.toNat_lt
    rw [Nat.add_zero] at byte0
    rw [shift_low wide, context, byte0, byte1, byte2]
    omega
  · omega

/-- What `cont` begins with when fewer than three bytes are left. -/
def remnant (input : List UInt8) (now dot : Int) (reached left : Nat) : Nat :=
  if left = 1 then (input.getD reached 0).toNat
  else
    (if int32 (now - 2) < dot then 0 else (input.getD reached 0).toNat) * 65536 +
      (input.getD reached 0).toNat * 256 + (input.getD (reached + 1) 0).toNat

theorem hangs_places (window : Window input hist first here pos ep) (placed : Placed here pos ep l) {n : Nat} (few : n ≤ 3)
    (room : l.p + n ≤ ep) (contexts : Contexts U input (position here pos l) (here + (ep - pos))) :
    Gives (fun after => after.p = l.p ∧ Carries l after ∧ Placed here pos ep after ∧
        (n = 2 → after.cont = if int32 (l.now - 2) < MaxOff + 1 then l.cont else context input (position here pos l - 2)) ∧
        (n ≤ 1 → after.cont = l.cont))
      (hangs U hist (MaxOff + 1) (n - 1) l) := by
  obtain _ | _ | _ | _ | n := n
  · exact .ok ⟨rfl, ⟨rfl, rfl, rfl, rfl⟩, placed, fun two => absurd two (by decide), fun _ => rfl⟩
  · exact .ok ⟨rfl, ⟨rfl, rfl, rfl, rfl⟩, placed, fun two => absurd two (by decide), fun _ => rfl⟩
  · refine (hang_places window placed 2 (by decide) (by decide) (by omega) contexts).mono fun after hung => ?_
    exact ⟨hung.1, hung.2.1, hung.2.2.1, fun _ => hung.2.2.2, fun one => absurd one (by decide)⟩
  · refine (hang_places window placed 2 (by decide) (by decide) (by omega) contexts).bind fun middle hung => ?_
    obtain ⟨same, carries, placed', -⟩ := hung
    have there : position here pos middle = position here pos l := by rw [position, position, same]
    refine (hang_places window placed' 1 (by decide) (by decide) (by omega) (there ▸ contexts)).mono fun after hung => ?_
    exact ⟨hung.1.trans same, carries.trans hung.2.1, hung.2.2.1, fun two => absurd two (by decide), fun one => absurd one (by decide)⟩
  · omega

end Start

/-! The call. -/

/-- How far `p` is ahead of what has been recorded. -/
def ahead (prevlen : Nat) : Nat := if prevlen = 2 then 0 else 1

/-- What `lzcomp` leaves, and finds, when all before `here` has been recorded. -/
structure Live (input : List UInt8) (first limit here : Nat) (lz : LZstate) (lzb : LZblock) : Prop where
  least : 2 ≤ lz.prevlen
  now : lz.now = int32 (32769 + (here + ahead lz.prevlen : Nat))
  hash : ∀ i, Chained (here + ahead lz.prevlen) (lz.hash i)
  nexts : ∀ i, Chained (here + ahead lz.prevlen) (lz.nexts i)
  coded : Coded input first here lzb.parse lzb.lastv
  pending : lz.prevlen ≠ 2 → Match input here lz.prevlen lz.prevoff ∧ here + lz.prevlen ≤ limit

/-- The chains lead to entries of `hash` in this call. -/
structure Hashes (U : Nat) (input : List UInt8) (lz : LZstate) (here ep : Nat) (finish : Bool) : Prop where
  contexts : Contexts U input (here + ahead lz.prevlen) (here + (ep - lz.pos))
  remnant : finish = true → lz.pos + ahead lz.prevlen < ep → ep < lz.pos + ahead lz.prevlen + 3 →
    InRange U (remnant input lz.now lz.dot (here + ahead lz.prevlen) (ep - (lz.pos + ahead lz.prevlen)))

section Call

variable {lz : LZstate} {lzb : LZblock} {finish : Bool}

theorem start_inside (live : Live input first (here + (ep - lz.pos)) here lz lzb) (low : lz.pos ≤ ep) :
    lz.pos + ahead lz.prevlen ≤ ep := by
  by_cases none : lz.prevlen = 2
  · rw [ahead, if_pos none]
    exact low
  · obtain ⟨found, fits⟩ := live.pending none
    have long := found.long
    rw [ahead, if_neg none]
    omega

theorem lzstart_places (window : Window input lz.hist first here lz.pos ep) (wide : 32 ≤ U) (dot : lz.dot = MaxOff + 1)
    (live : Live input first (here + (ep - lz.pos)) here lz lzb) (hashes : Hashes U input lz here ep finish) :
    Gives (fun l => l.p = lz.pos + ahead lz.prevlen ∧ Placed here lz.pos ep l ∧ Keyed U input finish here lz.pos ep l ∧
        l.parse = lzb.parse ∧ l.v = lzb.lastv ∧ l.prevlen = lz.prevlen ∧ l.prevoff = lz.prevoff)
      (lzstart U lz lzb ep) := by
  have inside := start_inside live window.low
  have where_p : (if lz.prevlen ≠ MinMatch - 1 then lz.pos + 1 else lz.pos) = lz.pos + ahead lz.prevlen := by
    rw [ahead, MinMatch]
    by_cases none : lz.prevlen = 2
    · rw [if_pos none, if_neg (not_not_intro none)]
      rfl
    · rw [if_neg none, if_pos none]
  rw [lzstart]
  simp only [where_p]
  generalize start : (⟨lz.pos + ahead lz.prevlen, 0, lz.now, lz.prevlen, lz.prevoff, lzb.lastv, 0, lzb.parse, lz.hash, lz.nexts,
    lzb.litlencount, lzb.offcount⟩ : Locals) = l
  have there : position here lz.pos l = here + ahead lz.prevlen := by
    rw [position, ← start]
    show here + (lz.pos + ahead lz.prevlen - lz.pos) = _
    rw [Nat.add_sub_cancel_left]
  have p : l.p = lz.pos + ahead lz.prevlen := by rw [← start]
  have placed : Placed here lz.pos ep l := by
    refine ⟨by rw [p]; omega, by rw [p]; exact inside, ?_, ?_, ?_⟩
    · rw [there, ← start]
      exact live.now
    · rw [there, ← start]
      exact live.hash
    · rw [there, ← start]
      exact live.nexts
  have few : min MinMatch (ep - (lz.pos + ahead lz.prevlen)) ≤ 3 := Nat.min_le_left _ _
  have room : l.p + min MinMatch (ep - (lz.pos + ahead lz.prevlen)) ≤ ep := by
    rw [p]
    omega
  rw [dot]
  refine (hangs_places window placed few room (there ▸ hashes.contexts)).bind fun middle hung => ?_
  obtain ⟨same, carries, placed', two, less⟩ := hung
  have there' : position here lz.pos middle = here + ahead lz.prevlen := by rw [← there, position, position, same]
  have shows : Shows input lz.hist (lz.pos + ahead lz.prevlen) (here + ahead lz.prevlen) (min MinMatch (ep - (lz.pos + ahead lz.prevlen))) := by
    have known := window.shows _ placed.low room
    rwa [p, Nat.add_sub_cancel_left] at known
  refine (gather_keys wide few shows).bind fun cont gathered => ?_
  refine .ok ⟨same.trans p, ⟨placed'.low, placed'.high, placed'.now, placed'.hash, placed'.nexts⟩, ⟨?_, ?_⟩,
    carries.parse.trans (by rw [← start]), carries.v.trans (by rw [← start]),
    carries.prevlen.trans (by rw [← start]), carries.prevoff.trans (by rw [← start])⟩
  · intro three
    have three : middle.p + 3 ≤ ep := three
    show cont % 2 ^ 24 = context input (position here lz.pos middle)
    rw [there']
    exact gathered.1 (by rw [MinMatch]; omega)
  · intro needed within
    have within : middle.p < ep := within
    show InRange U cont
    by_cases three : middle.p + 3 ≤ ep
    · have last : here + ahead lz.prevlen + 3 ≤ here + (ep - lz.pos) := by omega
      exact inRange_context (gathered.1 (by rw [MinMatch]; omega)) (hashes.contexts _ (by omega) last)
    · have finish : finish = true := by
        rcases needed with finish | more
        · exact finish
        · exact absurd more three
      refine inRange_of_low ?_ (hashes.remnant finish (by omega) (by omega))
      have bound := (input.getD (here + ahead lz.prevlen) 0).toNat_lt
      have bound' := (input.getD (here + ahead lz.prevlen + 1) 0).toNat_lt
      have begun : l.cont = 0 := by rw [← start]
      have beginning : l.now = lz.now := by rw [← start]
      rw [remnant, dot]
      by_cases one : ep - (lz.pos + ahead lz.prevlen) = 1
      · rw [if_pos one, gathered.2.2 (by rw [MinMatch]; omega), less (by omega), begun]
        omega
      · rw [if_neg one, gathered.2.1 (by rw [MinMatch]; omega), two (by rw [MinMatch]; omega), begun, beginning, there]
        by_cases early : int32 (lz.now - 2) < MaxOff + 1
        · rw [if_pos early, if_pos early]
          omega
        · rw [if_neg early, if_neg early, context]
          rw [live.now] at early
          rw [Nat.sub_add_cancel (position_after (Nat.le_refl 2) early), low_byte _ _ bound, Nat.mod_eq_of_lt (by omega)]

theorem lzcomp_keeps (window : Window input lz.hist first here lz.pos ep) (wide : 32 ≤ U) (dot : lz.dot = MaxOff + 1)
    (live : Live input first (here + (ep - lz.pos)) here lz lzb) (hashes : Hashes U input lz here ep finish) :
    Gives (fun result =>
        (∃ hash nexts now prevlen prevoff, result.1 = { lz with hash, nexts, now, prevlen, prevoff }) ∧
        result.2.1.bytes = lzb.bytes ∧ result.2.2 ≤ ep - lz.pos ∧
        Live input first (here + (ep - lz.pos)) (here + result.2.2) result.1 result.2.1)
      (lzcomp U lz lzb ep finish) := by
  rw [lzcomp]
  refine (lzstart_places window wide dot live hashes).bind fun l started => ?_
  obtain ⟨p, placed, keyed, parse, v, prevlen, prevoff⟩ := started
  have low := window.low
  have there : position here lz.pos l = here + ahead lz.prevlen := by
    rw [position, p, Nat.add_sub_cancel_left]
  have committed : Committed input first here (here + (ep - lz.pos)) here (position here lz.pos l) l := by
    refine ⟨by rw [parse, v]; exact live.coded, Nat.le_refl _, by rw [prevlen]; exact live.least, ?_⟩
    rw [prevlen, prevoff, there, ahead]
    by_cases none : lz.prevlen = 2
    · exact .inl ⟨none, by rw [if_pos none]; rfl⟩
    · exact .inr ⟨none, by rw [if_neg none], live.pending none⟩
  have placing := placed.low
  refine (lzloop_keeps window wide placed keyed (there ▸ hashes.contexts) committed (by omega)).bind fun after kept => ?_
  obtain ⟨placed, done, committed⟩ := kept
  have below := placed.low
  have high := placed.high
  have begun := committed.begun
  obtain ⟨order, reached⟩ : (if after.prevlen ≠ MinMatch - 1 then after.p - 1 else after.p) - lz.pos = done - here ∧
      position here lz.pos after = done + ahead after.prevlen := by
    rw [MinMatch, ahead]
    rcases committed.pending with ⟨none, same⟩ | ⟨some, same, -⟩
    · rw [if_neg (not_not_intro none), if_pos none]
      rw [position] at same ⊢
      omega
    · rw [if_pos some, if_neg some]
      rw [position] at same ⊢
      omega
  have total : here + (done - here) = done := by omega
  refine .ok ⟨⟨_, _, _, _, _, rfl⟩, rfl, ?_, ?_⟩
  · show (if after.prevlen ≠ MinMatch - 1 then after.p - 1 else after.p) - lz.pos ≤ ep - lz.pos
    rw [order]
    rw [position] at reached
    omega
  · show Live input first (here + (ep - lz.pos)) (here + ((if after.prevlen ≠ MinMatch - 1 then after.p - 1 else after.p) - lz.pos)) _ _
    rw [order, total]
    refine ⟨committed.least, ?_, ?_, ?_, committed.coded, ?_⟩
    · exact reached ▸ placed.now
    · exact reached ▸ placed.hash
    · exact reached ▸ placed.nexts
    · intro some
      rcases committed.pending with ⟨none, -⟩ | ⟨-, -, found, fits⟩
      · exact absurd none some
      · exact ⟨found, fits⟩

end Call

end Goken.Proofs.Lzcomp
