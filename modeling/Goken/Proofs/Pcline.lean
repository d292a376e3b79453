import Goken.Pcline
import Goken.Lib.Track

/-! The line table and its reader keep step: each walks through the same places, and the
reader's answers are those of the marks that the writer's rounded distances set. -/

namespace Goken.Proofs.Pcline
open Goken.Pcline Lib.Bytes Lib.Track

/-! What the table holds, from the instructions alone. -/

/-- The instructions that the table records: those that change the line. -/
def changes (oldlc : Int) : List Prog → List Prog
  | [] => []
  | p :: ps =>
      if p.line = oldlc ∨ p.as = .text ∨ p.as = .nop then changes oldlc ps
      else p :: changes p.line ps

/-- Where the distances between the changes, rounded to whole words, put each. -/
def marksFrom (here oldpc : Int) : List Prog → List Place
  | [] => []
  | p :: ps =>
      let a := here + 4 + 4 * (p.pc - oldpc).tdiv 4
      ⟨a, p.line⟩ :: marksFrom a (p.pc + 4) ps

def marks (l : Linker) (inittext : Int) (ps : List Prog) : List Place :=
  marksFrom (inittext - 4) (l.oldpc inittext) (changes 0 ps)

def sizeFrom (oldpc oldlc : Int) : List Prog → Nat
  | [] => 0
  | p :: ps =>
      (((p.pc - oldpc).tdiv 4 + 126) / 127).toNat + (if (p.line - oldlc).natAbs ≤ 64 then 1 else 5) + sizeFrom (p.pc + 4) p.line ps

/-- The marks that a search by line gets to see: it stops before the last byte, so
that the last mark counts only when a byte of padding follows. -/
def reached (l : Linker) (inittext : Int) (ps : List Prog) : List Place :=
  if sizeFrom (l.oldpc inittext) 0 (changes 0 ps) % 2 = 1 then marks l inittext ps else (marks l inittext ps).dropLast

/-- The line of the last mark that is less than a word above the instruction is its own. -/
def Kept (l : Linker) (inittext : Int) (ps : List Prog) (p : Prog) : Prop :=
  inForce Place.currline (fun m => m.currpc < l.address inittext p + 4) 0 (marks l inittext ps) = p.line

def Findable (l : Linker) (inittext txtsz : Int) (ps : List Prog) (p : Prog) : Prop :=
  ∃ m ∈ reached l inittext ps, m.currline = p.line ∧ m.currpc ≤ inittext + txtsz

/-- Instructions in their final places. -/
structure Laid (l : Linker) (inittext txtsz : Int) (ps : List Prog) : Prop where
  base : 0 ≤ inittext
  size : txtsz < 2 ^ 31
  space : inittext + 2 * txtsz + 8 ≤ 2 ^ 64
  inside : ∀ p ∈ ps, p.instruction → inittext ≤ l.address inittext p ∧ l.address inittext p + l.unit ≤ inittext + txtsz
  aligned : ∀ p ∈ ps, p.instruction → (l.address inittext p - inittext) % l.unit = 0
  apart : ps.Pairwise fun p q => p.instruction → q.instruction → p.pc + l.unit ≤ q.pc
  lines : ∀ p ∈ ps, 0 ≤ p.line ∧ p.line < 2 ^ 31

/-- The executable as libmach loads it. -/
def image (l : Linker) (inittext txtsz first : Int) (ps : List Prog) : Image where
  txtstart := inittext
  txtend := inittext + txtsz
  firstinstr := first
  pcline := asmlc l inittext ps

def RoundTrips (l : Linker) (inittext txtsz first : Int) (ps : List Prog) : Prop :=
  ∀ p ∈ ps, p.instruction →
    pc2line (image l inittext txtsz first ps) (l.address inittext p) = some p.line ∧
    ∀ basepc ≤ inittext, ∃ pc, line2addr (image l inittext txtsz first ps) p.line basepc 0 = some pc ∧
      pc2line (image l inittext txtsz first ps) pc = some p.line

/-! The reader's way through a table. -/

/-- Reading `c` from place `s` passes the places `track`, one before each code, and
ends at the last place. -/
inductive Trail : Place → List UInt8 → List Place → Place → Prop where
  | stop (s : Place) : Trail s [] [] s
  | short {s : Place} {u : UInt8} {c : List UInt8} {track : List Place} {e : Place} (some : u ≠ 0)
      (rest : Trail (s.short u) c track e) : Trail s (u :: c) (s :: track) e
  | long {s : Place} {c1 c2 c3 c4 : UInt8} {c : List UInt8} {track : List Place} {e : Place}
      (rest : Trail (s.long c1 c2 c3 c4) c track e) : Trail s (0 :: c1 :: c2 :: c3 :: c4 :: c) (s :: track) e

theorem Trail.append {s m e : Place} {c d : List UInt8} {track after : List Place} (first : Trail s c track m)
    (second : Trail m d after e) : Trail s (c ++ d) (track ++ after) e := by
  induction first with
  | stop => exact second
  | short some _ ih => exact .short some (ih second)
  | long _ ih => exact .long (ih second)

theorem Trail.start_mem {s e : Place} {c : List UInt8} {track : List Place} (trail : Trail s c track e) :
    s ∈ track ++ [e] := by
  cases trail <;> simp

theorem walk_short {u : UInt8} (some : u ≠ 0) (pc : Int) (s : Place) (c : List UInt8) :
    walk pc s (u :: c) = if s.currpc < pc then walk pc (s.short u) c else Option.some s.currline := by
  rw [walk.eq_def]
  dsimp only
  rw [if_neg some]

theorem walk_long (pc : Int) (s : Place) (c1 c2 c3 c4 : UInt8) (c : List UInt8) :
    walk pc s (0 :: c1 :: c2 :: c3 :: c4 :: c) =
      if s.currpc < pc then walk pc (s.long c1 c2 c3 c4) c else some s.currline := by
  rw [walk.eq_def]
  dsimp only
  rw [if_pos rfl]

theorem Trail.walk {s e : Place} {c : List UInt8} {track : List Place} (trail : Trail s c track e) (pc : Int) :
    walk pc s c = some ((track.find? fun q => decide (pc ≤ q.currpc)).getD e).currline := by
  induction trail with
  | stop => rfl
  | short some _ ih =>
    rw [walk_short some]
    split
    next passed => rw [ih, List.find?_cons_of_neg (by simpa using passed)]
    next stays => rw [List.find?_cons_of_pos (by simpa using stays), Option.getD_some]
  | long _ ih =>
    rw [walk_long]
    split
    next passed => rw [ih, List.find?_cons_of_neg (by simpa using passed)]
    next stays => rw [List.find?_cons_of_pos (by simpa using stays), Option.getD_some]

theorem Trail.scan {s e : Place} {c : List UInt8} {track : List Place} (trail : Trail s c track e) (line basepc : Int)
    (r : Search) : scan line basepc 0 r s c = some (track.foldl (Search.consider line basepc) r) := by
  induction trail generalizing r with
  | stop => rfl
  | short some _ ih =>
    rw [scan.eq_def]
    dsimp only
    rw [if_neg (by simp), if_neg some]
    exact ih _
  | long _ ih =>
    rw [scan.eq_def]
    dsimp only
    rw [if_neg (by simp), if_pos rfl]
    exact ih _

/-! What each code does to the place. -/

theorem cput_toNat (c : Int) : ((cput c).toNat : Int) = c % 256 := low_toNat c

theorem cput_lt_65 (c : Int) : cput c < 65 ↔ c % 256 < 65 := by
  rw [UInt8.lt_iff_toNat_lt, ← cput_toNat]
  exact Int.ofNat_lt.symm

theorem cput_lt_129 (c : Int) : cput c < 129 ↔ c % 256 < 129 := by
  rw [UInt8.lt_iff_toNat_lt, ← cput_toNat]
  exact Int.ofNat_lt.symm

theorem uvlong_small {x : Int} (least : 0 ≤ x) (most : x < 2 ^ 64) : uvlong x = x := Int.emod_eq_of_lt least most

theorem int32_small {x : Int} (least : -2 ^ 31 ≤ x) (most : x < 2 ^ 31) : int32 x = x := by
  unfold int32
  omega

theorem cput_ne_zero {c : Int} (least : 1 ≤ c) (most : c ≤ 255) : cput c ≠ 0 := by
  intro zero
  have value := cput_toNat c
  rw [zero] at value
  simp only [UInt8.toNat_zero] at value
  omega

theorem short_run {s : Place} {n : Int} (least : 1 ≤ n) (most : n ≤ 127) (start : 0 ≤ s.currpc)
    (room : s.currpc + 4 * n < 2 ^ 64) : s.short (cput (n + 128)) = ⟨s.currpc + 4 * n, s.currline⟩ := by
  have value := cput_toNat (n + 128)
  have small : ¬cput (n + 128) < 65 := by
    rw [cput_lt_65]
    omega
  have middle : ¬cput (n + 128) < 129 := by
    rw [cput_lt_129]
    omega
  rw [Place.short, if_neg small, if_neg middle, pcquant, uvlong_small (x := _ + 4 * _) (by omega) (by omega),
    uvlong_small (by omega) (by omega), Place.mk.injEq]
  exact ⟨by omega, rfl⟩

theorem short_up {s : Place} {d : Int} (least : 1 ≤ d) (most : d ≤ 64) (start : 0 ≤ s.currpc)
    (room : s.currpc + 4 < 2 ^ 64) (line : 0 ≤ s.currline) (next : s.currline + d < 2 ^ 31) :
    s.short (cput (0 + d)) = ⟨s.currpc + 4, s.currline + d⟩ := by
  have value := cput_toNat (0 + d)
  have small : cput (0 + d) < 65 := by
    rw [cput_lt_65]
    omega
  rw [Place.short, if_pos small, pcquant, uvlong_small (by omega) (by omega), int32_small (by omega) (by omega),
    Place.mk.injEq]
  exact ⟨rfl, by omega⟩

theorem short_down {s : Place} {d : Int} (least : -64 ≤ d) (most : d ≤ -1) (start : 0 ≤ s.currpc)
    (room : s.currpc + 4 < 2 ^ 64) (line : s.currline < 2 ^ 31) (next : 0 ≤ s.currline + d) :
    s.short (cput (64 - d)) = ⟨s.currpc + 4, s.currline + d⟩ := by
  have value := cput_toNat (64 - d)
  have small : ¬cput (64 - d) < 65 := by
    rw [cput_lt_65]
    omega
  have middle : cput (64 - d) < 129 := by
    rw [cput_lt_129]
    omega
  rw [Place.short, if_neg small, if_pos middle, pcquant, uvlong_small (by omega) (by omega),
    int32_small (by omega) (by omega), Place.mk.injEq]
  exact ⟨rfl, by omega⟩

theorem long_change {s : Place} {d : Int} (least : -2 ^ 31 < d) (most : d < 2 ^ 31) (start : 0 ≤ s.currpc)
    (room : s.currpc + 4 < 2 ^ 64) (line : 0 ≤ s.currline + d) (next : s.currline + d < 2 ^ 31) :
    s.long (cput (d >>> (24 : Nat))) (cput (d >>> (16 : Nat))) (cput (d >>> (8 : Nat))) (cput d) =
      ⟨s.currpc + 4, s.currline + d⟩ := by
  have whole : int32 ((cput (d >>> (24 : Nat))).toNat * 2 ^ 24 + (cput (d >>> (16 : Nat))).toNat * 2 ^ 16 +
      (cput (d >>> (8 : Nat))).toNat * 2 ^ 8 + (cput d).toNat) = d := by
    simp only [cput_toNat, Int.shiftRight_eq_div_pow, int32]
    omega
  rw [Place.long, whole, pcquant, uvlong_small (by omega) (by omega), int32_small (by omega) (by omega)]

/-! The ways through what the writer puts out. -/

/-- A run of distance codes passes places with the same line, a rising number of
words from the start. -/
theorem quanta_trail (left : Nat) (here v line : Int) (enough : v ≤ left) (forward : 0 ≤ v) (start : 0 ≤ here)
    (room : here + 4 * v < 2 ^ 64) :
    ∃ track, Trail ⟨here, line⟩ (quanta left v) track ⟨here + 4 * v, line⟩ ∧ Rising Place.currpc track ∧
      ∀ q ∈ track, q.currline = line ∧ here ≤ q.currpc ∧ q.currpc < here + 4 * v := by
  induction left generalizing here v with
  | zero =>
    obtain rfl : v = 0 := by omega
    refine ⟨[], ?_, .nil, by simp⟩
    rw [quanta, Int.mul_zero, Int.add_zero]
    exact .stop _
  | succ left ih =>
    rw [quanta]
    split
    next zero =>
      subst zero
      exact ⟨[], by simpa using Trail.stop _, .nil, by simp⟩
    next more =>
      have step : 1 ≤ (if v < 127 then v else 127) ∧ (if v < 127 then v else 127) ≤ 127 ∧
          (if v < 127 then v else 127) ≤ v := by split <;> omega
      generalize (if v < 127 then v else 127) = n at step ⊢
      obtain ⟨one, most, within⟩ := step
      obtain ⟨track, trail, rising, inside⟩ :=
        ih (here + 4 * n) (v - n) (by omega) (by omega) (by omega) (by omega)
      have finish : here + 4 * n + 4 * (v - n) = here + 4 * v := by omega
      rw [finish] at trail inside
      refine ⟨⟨here, line⟩ :: track, .short (cput_ne_zero (by omega) (by omega)) ?_, ?_, ?_⟩
      · rw [short_run one most start (by simp only; omega)]
        exact trail
      · refine List.pairwise_cons.mpr ⟨fun q member => ?_, rising⟩
        have := (inside q member).2.1
        simp only
        omega
      · intro q member
        rcases List.mem_cons.mp member with rfl | later
        · exact ⟨rfl, le_rfl, by simp only; omega⟩
        · obtain ⟨same, above, below⟩ := inside q later
          exact ⟨same, by omega, below⟩

theorem linechange_trail (here line d : Int) (start : 0 ≤ here) (room : here + 4 < 2 ^ 64) (some : d ≠ 0)
    (least : 0 ≤ line) (most : line < 2 ^ 31) (line' : 0 ≤ line + d) (next : line + d < 2 ^ 31) :
    Trail ⟨here, line⟩ (linechange d) [⟨here, line⟩] ⟨here + 4, line + d⟩ := by
  unfold linechange
  split
  next =>
    have zero : cput 0 = 0 := rfl
    rw [zero]
    refine .long ?_
    rw [long_change (by omega) (by omega) start room line' next]
    exact .stop _
  next =>
    split
    next up =>
      refine .short (cput_ne_zero (by omega) (by omega)) ?_
      rw [short_up (by omega) (by omega) start room least next]
      exact .stop _
    next down =>
      refine .short (cput_ne_zero (by omega) (by omega)) ?_
      rw [short_down (by omega) (by omega) start room most line']
      exact .stop _

/-- Changes that the reader can follow from a place: none more than half a word back,
and all within its addresses. -/
structure Coded (here oldpc : Int) (cs : List Prog) : Prop where
  start : 0 ≤ here
  forward : ∀ q ∈ cs, oldpc - 2 ≤ q.pc
  apart : cs.Pairwise fun p q => p.pc + 2 ≤ q.pc
  room : ∀ q ∈ cs, here + 2 * (q.pc + 4 - oldpc) < 2 ^ 64
  lines : ∀ q ∈ cs, 0 ≤ q.line ∧ q.line < 2 ^ 31

theorem tdiv_word {x : Int} (least : -2 ≤ x) : 0 ≤ x.tdiv 4 ∧ 4 + 4 * x.tdiv 4 ≤ 2 * (x + 4) := by
  by_cases negative : x < 0
  · obtain rfl | rfl : x = -2 ∨ x = -1 := by omega
    all_goals decide
  · rw [Int.tdiv_eq_ediv_of_nonneg (by omega)]
    omega

theorem Coded.next {here oldpc : Int} {p : Prog} {cs : List Prog} (coded : Coded here oldpc (p :: cs)) :
    Coded (here + 4 + 4 * (p.pc - oldpc).tdiv 4) (p.pc + 4) cs := by
  have forward := coded.forward p List.mem_cons_self
  have step := tdiv_word (x := p.pc - oldpc) (by omega)
  have start := coded.start
  refine ⟨by omega, fun q member => ?_, coded.apart.of_cons, fun q member => ?_,
    fun q member => coded.lines q (List.mem_cons_of_mem p member)⟩
  · have := (List.pairwise_cons.mp coded.apart).1 q member
    omega
  · have := coded.room q (List.mem_cons_of_mem p member)
    omega

theorem marksFrom_above {here oldpc : Int} {cs : List Prog} (coded : Coded here oldpc cs) :
    ∀ m ∈ marksFrom here oldpc cs, here + 4 ≤ m.currpc := by
  induction cs generalizing here oldpc with
  | nil => exact fun m member => nomatch member
  | cons p cs ih =>
    intro m member
    have forward := coded.forward p List.mem_cons_self
    have step := (tdiv_word (x := p.pc - oldpc) (by omega)).1
    rcases List.mem_cons.mp member with rfl | later
    · simp only
      omega
    · have := ih coded.next m later
      omega

theorem marksFrom_rising {here oldpc : Int} {cs : List Prog} (coded : Coded here oldpc cs) :
    Rising Place.currpc (marksFrom here oldpc cs) := by
  induction cs generalizing here oldpc with
  | nil => exact .nil
  | cons p cs ih =>
    refine List.pairwise_cons.mpr ⟨fun m member => ?_, ih coded.next⟩
    have := marksFrom_above coded.next m member
    simp only
    omega

/-- What the reader meets on its way, against the marks. -/
structure Tracked (start : Place) (ms track : List Place) (e : Place) : Prop where
  rising : Rising Place.currpc (track ++ [e])
  above : ∀ q ∈ track ++ [e], start.currpc ≤ q.currpc
  marked : ∀ m ∈ ms, m ∈ track ++ [e]
  lines : ∀ q ∈ track ++ [e], q.currline = start.currline ∨ ∃ m ∈ ms, m.currline = q.currline ∧ m.currpc ≤ q.currpc
  last : e = ms.getLastD start
  lookup : ∀ pc, ((track.find? fun q => decide (pc ≤ q.currpc)).getD e).currline =
    inForce Place.currline (fun m => m.currpc < pc + 4) start.currline ms

/-- One change: the distance, then from the last word before it the new line. -/
theorem change_trail {here oldpc oldlc : Int} {p : Prog} {cs : List Prog} (coded : Coded here oldpc (p :: cs))
    (other : p.line ≠ oldlc) (least : 0 ≤ oldlc) (most : oldlc < 2 ^ 31) :
    ∃ run, Trail ⟨here, oldlc⟩ (quanta ((p.pc - oldpc).tdiv minlc).natAbs ((p.pc - oldpc).tdiv minlc) ++
        linechange (p.line - oldlc)) (run ++ [⟨here + 4 * (p.pc - oldpc).tdiv 4, oldlc⟩])
        ⟨here + 4 + 4 * (p.pc - oldpc).tdiv 4, p.line⟩ ∧
      Rising Place.currpc run ∧
      ∀ q ∈ run, q.currline = oldlc ∧ here ≤ q.currpc ∧ q.currpc < here + 4 * (p.pc - oldpc).tdiv 4 := by
  have forward := coded.forward p List.mem_cons_self
  have step := tdiv_word (x := p.pc - oldpc) (by omega)
  have start := coded.start
  have room := coded.room p List.mem_cons_self
  have line := coded.lines p List.mem_cons_self
  rw [minlc]
  generalize (p.pc - oldpc).tdiv 4 = v at step ⊢
  obtain ⟨run, trail, rising, inside⟩ :=
    quanta_trail v.natAbs here v oldlc (by omega) (by omega) start (by omega)
  have change := linechange_trail (here + 4 * v) oldlc (p.line - oldlc) (by omega) (by omega)
    (by omega) least most (by omega) (by omega)
  have finish : here + 4 * v + 4 = here + 4 + 4 * v := by omega
  have line' : oldlc + (p.line - oldlc) = p.line := by omega
  rw [finish, line'] at change
  exact ⟨run, trail.append change, rising, inside⟩

/-- The places of one change put before those of a way that goes on from it. -/
theorem Tracked.change {here v oldlc line : Int} {run ms track : List Place} {e : Place} (forward : 0 ≤ v)
    (rising : Rising Place.currpc run)
    (inside : ∀ q ∈ run, q.currline = oldlc ∧ here ≤ q.currpc ∧ q.currpc < here + 4 * v)
    (rest : Tracked ⟨here + 4 + 4 * v, line⟩ ms track e) (start : ⟨here + 4 + 4 * v, line⟩ ∈ track ++ [e]) :
    Tracked ⟨here, oldlc⟩ (⟨here + 4 + 4 * v, line⟩ :: ms) (run ++ [⟨here + 4 * v, oldlc⟩] ++ track) e := by
  have before : ∀ q ∈ run ++ [⟨here + 4 * v, oldlc⟩], q.currline = oldlc ∧ here ≤ q.currpc ∧ q.currpc ≤ here + 4 * v := by
    intro q member
    rcases List.mem_append.mp member with early | last
    · obtain ⟨same, above, below⟩ := inside q early
      exact ⟨same, above, by omega⟩
    · rw [List.mem_singleton.mp last]
      exact ⟨rfl, by simp only; omega, le_rfl⟩
  have after : ∀ q ∈ track ++ [e], here + 4 + 4 * v ≤ q.currpc := rest.above
  refine ⟨?_, ?_, ?_, ?_, ?_, ?_⟩
  · rw [List.append_assoc]
    refine append_rising.mpr ⟨append_rising.mpr ⟨rising, List.pairwise_singleton _ _, ?_⟩, rest.rising, ?_⟩
    · intro p first q last
      rw [List.mem_singleton.mp last]
      exact (inside p first).2.2
    · intro p first q last
      have := (before p first).2.2
      have := after q last
      omega
  · intro q member
    rw [List.append_assoc] at member
    rcases List.mem_append.mp member with early | late
    · exact (before q early).2.1
    · have := after q late
      simp only
      omega
  · intro m member
    rw [List.append_assoc]
    refine List.mem_append_right _ ?_
    rcases List.mem_cons.mp member with rfl | later
    · exact start
    · exact rest.marked m later
  · intro q member
    rw [List.append_assoc] at member
    rcases List.mem_append.mp member with early | late
    · exact .inl (before q early).1
    · rcases rest.lines q late with same | ⟨m, marked, line', above⟩
      · exact .inr ⟨_, List.mem_cons_self, same.symm, after q late⟩
      · exact .inr ⟨m, List.mem_cons_of_mem _ marked, line', above⟩
  · rw [List.getLastD_cons]
    exact rest.last
  · intro pc
    by_cases passed : here + 4 + 4 * v < pc + 4
    · rw [inForce_passed (by simpa using passed), ← rest.lookup pc, List.find?_append, List.find?_eq_none.mpr, Option.none_or]
      intro q member
      have := (before q member).2.2
      simp only [decide_eq_true_eq]
      omega
    · rw [inForce_stop (by simpa using passed)]
      have found : ((run ++ [Place.mk (here + 4 * v) oldlc]).find? fun q => decide (pc ≤ q.currpc)).isSome := by
        rw [List.find?_isSome]
        refine ⟨⟨here + 4 * v, oldlc⟩, by simp, ?_⟩
        simp only [decide_eq_true_eq]
        omega
      obtain ⟨q, first⟩ := Option.isSome_iff_exists.mp found
      rw [List.find?_append, first, Option.some_or, Option.getD_some]
      exact (before q (List.mem_of_find?_eq_some first)).1

theorem asmlcFrom_trail {ps : List Prog} {here oldpc oldlc : Int} (coded : Coded here oldpc (changes oldlc ps))
    (least : 0 ≤ oldlc) (most : oldlc < 2 ^ 31) :
    ∃ track e, Trail ⟨here, oldlc⟩ (asmlcFrom oldpc oldlc ps) track e ∧
      Tracked ⟨here, oldlc⟩ (marksFrom here oldpc (changes oldlc ps)) track e := by
  induction ps generalizing here oldpc oldlc with
  | nil => exact ⟨[], _, .stop _, by simp [Rising], by simp, by simp [changes, marksFrom], by simp, rfl, fun _ => rfl⟩
  | cons p ps ih =>
    rw [changes] at coded ⊢
    rw [asmlcFrom]
    by_cases skipped : p.line = oldlc ∨ p.as = .text ∨ p.as = .nop
    · rw [if_pos skipped] at coded ⊢
      rw [if_pos skipped]
      exact ih coded least most
    · rw [if_neg skipped] at coded ⊢
      rw [if_neg skipped]
      have line := coded.lines p List.mem_cons_self
      have forward := coded.forward p List.mem_cons_self
      have other : p.line ≠ oldlc := fun same => skipped (.inl same)
      obtain ⟨run, first, rising, inside⟩ := change_trail coded other least most
      obtain ⟨track, e, second, rest⟩ := ih coded.next line.1 line.2
      refine ⟨_, e, first.append second, ?_⟩
      exact rest.change (tdiv_word (by omega)).1 rising inside second.start_mem

theorem quanta_length {left : Nat} {v : Int} (enough : v ≤ left) (forward : 0 ≤ v) :
    (quanta left v).length = ((v + 126) / 127).toNat := by
  induction left generalizing v with
  | zero =>
    obtain rfl : v = 0 := by omega
    rfl
  | succ left ih =>
    rw [quanta]
    split
    next zero =>
      subst zero
      rfl
    next more =>
      rw [List.length_cons, ih (by split <;> omega) (by split <;> omega)]
      split <;> omega

theorem linechange_length (d : Int) : (linechange d).length = if d.natAbs ≤ 64 then 1 else 5 := by
  unfold linechange
  by_cases small : d.natAbs ≤ 64
  · rw [if_neg (by omega), if_pos small]
    split <;> rfl
  · rw [if_pos (by omega), if_neg small]
    rfl

theorem asmlcFrom_length {ps : List Prog} {here oldpc oldlc : Int} (coded : Coded here oldpc (changes oldlc ps)) :
    (asmlcFrom oldpc oldlc ps).length = sizeFrom oldpc oldlc (changes oldlc ps) := by
  induction ps generalizing here oldpc oldlc with
  | nil => rfl
  | cons p ps ih =>
    rw [changes] at coded ⊢
    rw [asmlcFrom]
    by_cases skipped : p.line = oldlc ∨ p.as = .text ∨ p.as = .nop
    · rw [if_pos skipped] at coded ⊢
      rw [if_pos skipped]
      exact ih coded
    · rw [if_neg skipped] at coded ⊢
      rw [if_neg skipped]
      have forward := coded.forward p List.mem_cons_self
      have step := (tdiv_word (x := p.pc - oldpc) (by omega)).1
      simp only [List.length_append, sizeFrom, linechange_length, minlc, ih coded.next]
      rw [quanta_length (by omega) step]

/-! The whole table. -/

/-- The places that the reader has passed when it comes to the last byte of the
padded table, and its answers at the end. -/
theorem asmlc_trail {l : Linker} {inittext : Int} {ps : List Prog}
    (coded : Coded (inittext - 4) (l.oldpc inittext) (changes 0 ps)) (room : ∀ m ∈ marks l inittext ps, m.currpc + 4 < 2 ^ 64)
    (start : inittext < 2 ^ 64) :
    ∃ track e, Trail ⟨inittext - 4, 0⟩ (asmlc l inittext ps) track e ∧ Rising Place.currpc (track ++ [e]) ∧
      (∀ q ∈ track, inittext - 4 ≤ q.currpc) ∧
      (∀ q ∈ track, q.currline = 0 ∨ ∃ m ∈ reached l inittext ps, m.currline = q.currline ∧ m.currpc ≤ q.currpc) ∧
      (∀ m ∈ reached l inittext ps, m ∈ track) ∧
      ∀ pc, ((track.find? fun q => decide (pc ≤ q.currpc)).getD e).currline =
        inForce Place.currline (fun m => m.currpc < pc + 4) 0 (marks l inittext ps) := by
  obtain ⟨track, e, trail, tracked⟩ := asmlcFrom_trail coded le_rfl (by decide)
  change Tracked _ (marks l inittext ps) track e at tracked
  have size := asmlcFrom_length coded
  unfold asmlc padding reached
  rw [size]
  by_cases odd : sizeFrom (l.oldpc inittext) 0 (changes 0 ps) % 2 = 1
  · rw [if_pos odd, if_pos odd]
    have finish : 0 ≤ e.currpc ∧ e.currpc + 4 < 2 ^ 64 := by
      have above := tracked.above e (by simp)
      have low := coded.start
      have among : e ∈ ⟨inittext - 4, 0⟩ :: marks l inittext ps := by
        rw [tracked.last]
        exact List.getLastD_mem_cons
      simp only at above
      rcases List.mem_cons.mp among with first | marked
      · rw [first]
        simp only
        omega
      · have := room e marked
        omega
    have pad : Trail e [cput 129] [e] ⟨e.currpc + 4, e.currline⟩ := by
      refine .short (by decide) ?_
      have := short_run (s := e) (n := 1) (by decide) (by decide) finish.1 (by omega)
      rw [Int.mul_one] at this
      rw [show (129 : Int) = 1 + 128 by rfl, this]
      exact .stop _
    refine ⟨track ++ [e], _, trail.append pad, ?_, tracked.above, tracked.lines, tracked.marked, ?_⟩
    · refine append_rising.mpr ⟨tracked.rising, List.pairwise_singleton _ _, fun p first q last => ?_⟩
      rw [List.mem_singleton.mp last]
      rcases List.mem_append.mp first with early | final
      · have := (append_rising.mp tracked.rising).2.2 p early e (by simp)
        simp only
        omega
      · rw [List.mem_singleton.mp final]
        simp only
        omega
    · intro pc
      refine Eq.trans ?_ (tracked.lookup pc)
      rw [List.find?_append]
      cases track.find? fun q => decide (pc ≤ q.currpc) with
      | some q => rfl
      | none =>
        rw [Option.none_or, Option.getD_none, List.find?_singleton]
        split <;> rfl
  · rw [if_neg odd, if_neg odd]
    have parts := append_rising.mp tracked.rising
    have dropped : ∀ m ∈ marks l inittext ps, m ∈ (marks l inittext ps).dropLast ∨ m = e := by
      intro m member
      have some := List.ne_nil_of_mem member
      rw [← List.dropLast_append_getLast some] at member
      rcases List.mem_append.mp member with early | final
      · exact .inl early
      · rw [tracked.last, List.getLastD_eq_getLast?, List.getLast?_eq_some_getLast some]
        exact .inr (List.mem_singleton.mp final)
    refine ⟨track, e, trail, tracked.rising, fun q member => tracked.above q (List.mem_append_left _ member), ?_, ?_, tracked.lookup⟩
    · intro q member
      rcases tracked.lines q (List.mem_append_left _ member) with first | ⟨m, marked, line, above⟩
      · exact .inl first
      · rcases dropped m marked with early | rfl
        · exact .inr ⟨m, early, line, above⟩
        · have := parts.2.2 q member m (by simp)
          omega
    · intro m early
      have marked := List.dropLast_subset _ early
      have final : e = (marks l inittext ps).getLast (List.ne_nil_of_mem marked) := by
        rw [tracked.last, List.getLastD_eq_getLast?, List.getLast?_eq_some_getLast (List.ne_nil_of_mem marked)]
        rfl
      have rising : Rising Place.currpc (marks l inittext ps) := marksFrom_rising coded
      rw [← List.dropLast_append_getLast (List.ne_nil_of_mem marked)] at rising
      have below := (append_rising.mp rising).2.2 m early _ List.mem_cons_self
      rcases List.mem_append.mp (tracked.marked m marked) with inside | last
      · exact inside
      · rw [← final, List.mem_singleton.mp last] at below
        exact absurd below (lt_irrefl _)

/-! The search for a line. -/

section Consider

variable {line : Int} (basepc : Int) (r : Search)

/-- Nothing is nearer than the line itself. -/
theorem consider_settled {track : List Place} (exact : r.delta = 0) (found : r.found = true)
    (small : ∀ q ∈ track, 0 ≤ q.currline ∧ q.currline < 2 ^ 31) (least : 0 ≤ line) (most : line < 2 ^ 31) :
    (track.foldl (Search.consider line basepc) r).pc = r.pc ∧
      (track.foldl (Search.consider line basepc) r).found = true := by
  induction track generalizing r with
  | nil => exact ⟨rfl, found⟩
  | cons q track ih =>
    have still : (r.consider line basepc q).delta = 0 ∧ (r.consider line basepc q).found = true ∧
        (r.consider line basepc q).pc = r.pc := by
      have range := small q List.mem_cons_self
      unfold Search.consider
      by_cases proper : q.currpc ≥ basepc
      · rw [if_pos proper]
        simp only
        rw [if_neg (by rw [exact]; split <;> rw [int32_small (by omega) (by omega)] <;> omega)]
        exact ⟨exact, by simp [found], rfl⟩
      · rw [if_neg proper]
        exact ⟨exact, found, rfl⟩
    have rest := ih _ still.1 still.2.1 fun q inside => small q (List.mem_cons_of_mem _ inside)
    rw [still.2.2] at rest
    exact rest

theorem consider_origin (track : List Place) :
    (track.foldl (Search.consider line basepc) r).pc = r.pc ∨
      ∃ q ∈ track, (track.foldl (Search.consider line basepc) r).pc = q.currpc := by
  induction track generalizing r with
  | nil => exact .inl rfl
  | cons q track ih =>
    have update (d : Int) (found : Bool) : (if d < r.delta then ⟨q.currpc, d, found⟩ else { r with found } : Search).pc = r.pc ∨
        (if d < r.delta then ⟨q.currpc, d, found⟩ else { r with found } : Search).pc = q.currpc := by
      split
      · exact .inr rfl
      · exact .inl rfl
    have step : (r.consider line basepc q).pc = r.pc ∨ (r.consider line basepc q).pc = q.currpc := by
      unfold Search.consider
      split
      · exact update _ _
      · exact .inl rfl
    rcases ih (r.consider line basepc q) with same | ⟨later, inside, equal⟩
    · rcases step with kept | taken
      · exact .inl (same.trans kept)
      · exact .inr ⟨q, List.mem_cons_self, same.trans taken⟩
    · exact .inr ⟨later, List.mem_cons_of_mem _ inside, equal⟩

/-- Where the line is met at all, the search ends at the first place that has it. -/
theorem consider_first {track : List Place} (rising : Rising Place.currpc track)
    (small : ∀ q ∈ track, 0 ≤ q.currline ∧ q.currline < 2 ^ 31) (least : 0 ≤ line) (most : line < 2 ^ 31)
    (open_ : 0 < r.delta) {q : Place} (member : q ∈ track) (exact : q.currline = line) (proper : basepc ≤ q.currpc) :
    ∃ first ∈ track, first.currline = line ∧ first.currpc ≤ q.currpc ∧
      (track.foldl (Search.consider line basepc) r).pc = first.currpc ∧
      (track.foldl (Search.consider line basepc) r).found = true := by
  induction track generalizing r with
  | nil => cases member
  | cons p track ih =>
    have range := small p List.mem_cons_self
    have others : ∀ q ∈ track, 0 ≤ q.currline ∧ q.currline < 2 ^ 31 := fun q inside => small q (List.mem_cons_of_mem _ inside)
    by_cases here : p.currline = line ∧ basepc ≤ p.currpc
    · have taken : r.consider line basepc p = ⟨p.currpc, 0, true⟩ := by
        rw [Search.consider, if_pos here.2, here.1]
        simp only [ge_iff_le, le_refl, if_true, Int.sub_self]
        rw [int32_small (by decide) (by decide), if_pos open_]
      have rest := consider_settled basepc ⟨p.currpc, 0, true⟩ rfl rfl others least most
      refine ⟨p, List.mem_cons_self, here.1, ?_, ?_⟩
      · rcases List.mem_cons.mp member with rfl | later
        · exact le_rfl
        · exact le_of_lt ((List.pairwise_cons.mp rising).1 q later)
      · rw [List.foldl_cons, taken]
        exact rest
    · have still : 0 < (r.consider line basepc p).delta := by
        unfold Search.consider
        split
        next inside =>
          have other : p.currline ≠ line := fun same => here ⟨same, inside⟩
          have update (d : Int) (found : Bool) (far : 0 < d) :
              0 < (if d < r.delta then ⟨p.currpc, d, found⟩ else { r with found } : Search).delta := by
            split
            · exact far
            · exact open_
          refine update _ _ ?_
          split <;> rw [int32_small (by omega) (by omega)] <;> omega
        next => exact open_
      rcases List.mem_cons.mp member with rfl | later
      · exact absurd ⟨exact, proper⟩ here
      · obtain ⟨first, inside, rest⟩ := ih _ rising.of_cons others still later
        exact ⟨first, List.mem_cons_of_mem _ inside, rest⟩

end Consider

/-! What the two readers find. -/

section Readers

variable {l : Linker} {inittext txtsz first : Int} {ps : List Prog}

theorem changes_sublist (oldlc : Int) (ps : List Prog) : (changes oldlc ps).Sublist ps := by
  induction ps generalizing oldlc with
  | nil => exact .slnil
  | cons p ps ih =>
    rw [changes]
    split
    · exact (ih oldlc).cons p
    · exact (ih p.line).cons_cons p

theorem changes_instruction {oldlc : Int} {ps : List Prog} : ∀ p ∈ changes oldlc ps, p.instruction := by
  induction ps generalizing oldlc with
  | nil => exact fun p member => nomatch member
  | cons p ps ih =>
    rw [changes]
    split
    · exact ih
    next kept =>
      intro q member
      rcases List.mem_cons.mp member with rfl | later
      · simp only [not_or] at kept
        simp [Prog.instruction, kept]
      · exact ih q later

theorem address_eq (l : Linker) (inittext : Int) (p : Prog) : l.address inittext p = p.pc - l.oldpc inittext + inittext := by
  cases l <;> simp [Linker.address, Linker.oldpc]

theorem unit_cases (l : Linker) : l.unit = 2 ∨ l.unit = 4 := by
  rcases l with _ | _ | _ <;> simp [Linker.unit]

theorem Laid.coded (laid : Laid l inittext txtsz ps) (base : 4 ≤ inittext) :
    Coded (inittext - 4) (l.oldpc inittext) (changes 0 ps) := by
  have sub := changes_sublist 0 ps
  have unit := unit_cases l
  refine ⟨by omega, fun q member => ?_, ?_, fun q member => ?_, fun q member => laid.lines q (sub.subset member)⟩
  · have := laid.inside q (sub.subset member) (changes_instruction q member)
    rw [address_eq] at this
    omega
  · refine (laid.apart.sublist sub).imp_of_mem fun {p q} first second apart => ?_
    have := apart (changes_instruction p first) (changes_instruction q second)
    omega
  · have inside := laid.inside q (sub.subset member) (changes_instruction q member)
    have := laid.space
    rw [address_eq] at inside
    omega

theorem marksFrom_below {here oldpc bound : Int} {cs : List Prog} (coded : Coded here oldpc cs)
    (room : ∀ q ∈ cs, here + 2 * (q.pc + 4 - oldpc) ≤ bound) : ∀ m ∈ marksFrom here oldpc cs, m.currpc ≤ bound := by
  induction cs generalizing here oldpc with
  | nil => exact fun m member => nomatch member
  | cons p cs ih =>
    intro m member
    have forward := coded.forward p List.mem_cons_self
    have step := (tdiv_word (x := p.pc - oldpc) (by omega)).2
    rcases List.mem_cons.mp member with rfl | later
    · have := room p List.mem_cons_self
      simp only
      omega
    · refine ih coded.next (fun q inside => ?_) m later
      have := room q (List.mem_cons_of_mem _ inside)
      omega

theorem Laid.marks_below (laid : Laid l inittext txtsz ps) (base : 4 ≤ inittext) :
    ∀ m ∈ marks l inittext ps, m.currpc ≤ inittext + 2 * txtsz := by
  refine marksFrom_below (laid.coded base) fun q member => ?_
  have unit := unit_cases l
  have inside := laid.inside q ((changes_sublist 0 ps).subset member) (changes_instruction q member)
  rw [address_eq] at inside
  omega

theorem marksFrom_lines {here oldpc : Int} {cs : List Prog} :
    ∀ m ∈ marksFrom here oldpc cs, ∃ q ∈ cs, m.currline = q.line := by
  induction cs generalizing here oldpc with
  | nil => exact fun m member => nomatch member
  | cons p cs ih =>
    intro m member
    rcases List.mem_cons.mp member with rfl | later
    · exact ⟨p, List.mem_cons_self, rfl⟩
    · obtain ⟨q, inside, line⟩ := ih m later
      exact ⟨q, List.mem_cons_of_mem p inside, line⟩

theorem reached_subset : reached l inittext ps ⊆ marks l inittext ps := by
  unfold reached
  split
  · exact fun m member => member
  · exact List.dropLast_subset _

/-- The reader starts one word below the text, unless that is below zero. -/
theorem image_start (base : 4 ≤ inittext) (room : inittext < 2 ^ 64) (start : first = 0 ∨ first = inittext) :
    uvlong (if first ≠ 0 then first - pcquant else inittext - pcquant) = inittext - 4 := by
  rcases start with rfl | rfl
  · rw [if_neg (by decide)]
    exact uvlong_small (by simp only [pcquant]; omega) (by simp only [pcquant]; omega)
  · rw [if_pos (by omega)]
    exact uvlong_small (by simp only [pcquant]; omega) (by simp only [pcquant]; omega)

theorem pc2line_eq {track : List Place} {e : Place} (trail : Trail ⟨inittext - 4, 0⟩ (asmlc l inittext ps) track e)
    (base : 4 ≤ inittext) (room : inittext < 2 ^ 64) (start : first = 0 ∨ first = inittext)
    (some : asmlc l inittext ps ≠ []) (pc : Int) :
    pc2line (image l inittext txtsz first ps) pc =
      if pc < inittext - 4 ∨ pc > inittext + txtsz then Option.some (-1)
      else Option.some ((track.find? fun q => decide (pc ≤ q.currpc)).getD e).currline := by
  unfold pc2line image
  simp only
  rw [if_neg some, image_start base room start, trail.walk]

theorem pc2line_empty (none : asmlc l inittext ps = []) (pc : Int) :
    pc2line (image l inittext txtsz first ps) pc = some (-1) := by
  unfold pc2line image
  rw [if_pos none]

theorem pc2line_none (laid : Laid l inittext txtsz ps) (base : 4 ≤ inittext) (start : first = 0 ∨ first = inittext)
    {p : Prog} (member : p ∈ ps) (instruction : p.instruction) :
    pc2line (image l inittext txtsz first ps) noaddr = some (-1) := by
  have inside := laid.inside p member instruction
  have unit := unit_cases l
  have space := laid.space
  obtain ⟨track, e, trail, _⟩ := asmlc_trail (laid.coded base)
    (fun m marked => by have := laid.marks_below base m marked; omega) (by omega)
  by_cases none : asmlc l inittext ps = []
  · exact pc2line_empty none noaddr
  · rw [pc2line_eq trail base (by omega) start none, if_pos (by unfold noaddr; omega)]

/-- A text that starts below the first word boundary has no line at all. -/
theorem pc2line_low (laid : Laid l inittext txtsz ps) (low : inittext < 4) (start : first = 0 ∨ first = inittext) {p : Prog}
    (member : p ∈ ps) (instruction : p.instruction) :
    pc2line (image l inittext txtsz first ps) (l.address inittext p) = some (-1) := by
  have inside := laid.inside p member instruction
  have unit := unit_cases l
  have base := laid.base
  have size := laid.size
  unfold pc2line image
  simp only
  split
  · rfl
  · rw [if_pos]
    left
    rcases start with rfl | rfl
    · rw [if_neg (by decide), uvlong, pcquant]
      omega
    · rw [ite_self, uvlong, pcquant]
      omega

theorem reads_iff (laid : Laid l inittext txtsz ps) (base : 4 ≤ inittext) (start : first = 0 ∨ first = inittext)
    (some : asmlc l inittext ps ≠ []) {p : Prog} (member : p ∈ ps) (instruction : p.instruction) :
    pc2line (image l inittext txtsz first ps) (l.address inittext p) = Option.some p.line ↔ Kept l inittext ps p := by
  have inside := laid.inside p member instruction
  have unit := unit_cases l
  have space := laid.space
  obtain ⟨track, e, trail, _, _, _, _, lookup⟩ := asmlc_trail (laid.coded base)
    (fun m marked => by have := laid.marks_below base m marked; omega) (by omega)
  rw [pc2line_eq trail base (by omega) start some, if_neg (by omega), lookup, Option.some.injEq]
  rfl

theorem finds_iff (laid : Laid l inittext txtsz ps) (base : 4 ≤ inittext) (start : first = 0 ∨ first = inittext)
    {p : Prog} (member : p ∈ ps) (instruction : p.instruction) (line : 1 ≤ p.line) :
    (∀ basepc ≤ inittext, ∃ pc, line2addr (image l inittext txtsz first ps) p.line basepc 0 = some pc ∧
      pc2line (image l inittext txtsz first ps) pc = some p.line) ↔ Findable l inittext txtsz ps p := by
  have inside := laid.inside p member instruction
  have unit := unit_cases l
  have space := laid.space
  have size := laid.size
  have high := (laid.lines p member).2
  obtain ⟨track, e, trail, rising, above, lines, marked, lookup⟩ := asmlc_trail (laid.coded base)
    (fun m marked => by have := laid.marks_below base m marked; omega) (by omega)
  have within := (append_rising.mp rising).1
  have small : ∀ q ∈ track, 0 ≤ q.currline ∧ q.currline < 2 ^ 31 := by
    intro q passed
    rcases lines q passed with zero | ⟨m, seen, equal, _⟩
    · omega
    · obtain ⟨c, recorded, own⟩ := marksFrom_lines m (reached_subset seen)
      have := laid.lines c ((changes_sublist 0 ps).subset recorded)
      omega
  have passes {q : Place} (passed : q ∈ track) : asmlc l inittext ps ≠ [] := by
    intro none
    rw [none] at trail
    cases trail
    cases passed
  have reads {q : Place} (passed : q ∈ track) (bound : q.currpc ≤ inittext + txtsz) :
      pc2line (image l inittext txtsz first ps) q.currpc = some q.currline := by
    have low := above q passed
    rw [pc2line_eq trail base (by omega) start (passes passed), if_neg (by omega), find_at within passed, Option.getD_some]
  have begun : uvlong (inittext - pcquant) = inittext - 4 := uvlong_small (by simp only [pcquant]; omega) (by simp only [pcquant]; omega)
  have finds (basepc : Int) (some : asmlc l inittext ps ≠ []) :
      line2addr (image l inittext txtsz first ps) p.line basepc 0 =
        Option.some (if (track.foldl (Search.consider p.line basepc) ⟨noaddr, hugeint, false⟩).found then
          (track.foldl (Search.consider p.line basepc) ⟨noaddr, hugeint, false⟩).pc else noaddr) := by
    unfold line2addr image
    simp only
    rw [if_neg (by simp only [not_or]; exact ⟨some, by omega⟩), begun, trail.scan, Option.map_some]
  constructor
  · intro found
    obtain ⟨pc, address, read⟩ := found inittext le_rfl
    have missing := pc2line_none laid base start member instruction
    have other : pc ≠ noaddr := by
      rintro rfl
      rw [missing, Option.some.injEq] at read
      omega
    have some : asmlc l inittext ps ≠ [] := by
      intro none
      unfold line2addr image at address
      simp only [none, true_or, if_true, Option.some.injEq] at address
      exact other address.symm
    rw [finds inittext some, Option.some.injEq] at address
    split at address
    next =>
      rcases consider_origin inittext ⟨noaddr, hugeint, false⟩ track with same | ⟨q, passed, same⟩
      · exact absurd (address.symm.trans same) other
      · obtain rfl : q.currpc = pc := same.symm.trans address
        have low := above q passed
        by_cases bound : q.currpc ≤ inittext + txtsz
        · rw [reads passed bound, Option.some.injEq] at read
          rcases lines q passed with zero | ⟨m, seen, equal, below⟩
          · omega
          · exact ⟨m, seen, equal.trans read, by omega⟩
        · rw [pc2line_eq trail base (by omega) start some, if_pos (by omega), Option.some.injEq] at read
          omega
    next => exact absurd address.symm other
  · rintro ⟨m, seen, own, bound⟩ basepc proper
    have passed := marked m seen
    have later : inittext ≤ m.currpc := by
      have := marksFrom_above (laid.coded base) m (reached_subset seen)
      omega
    obtain ⟨q, inside', equal, below, taken, found⟩ := consider_first basepc ⟨noaddr, hugeint, false⟩ within small
      (by omega) high (by decide) passed own (by omega)
    refine ⟨q.currpc, ?_, ?_⟩
    · rw [finds basepc (passes passed), found, if_pos rfl, taken]
    · rw [reads inside' (by omega), equal]

/-! Where instructions are whole words, rounding loses nothing. -/

theorem marksFrom_exact {here oldpc : Int} {cs : List Prog} (apart : cs.Pairwise fun p q => p.pc + 4 ≤ q.pc)
    (forward : ∀ q ∈ cs, oldpc ≤ q.pc) (words : ∀ q ∈ cs, (q.pc - oldpc) % 4 = 0) :
    marksFrom here oldpc cs = cs.map fun q => ⟨q.pc + (here + 4 - oldpc), q.line⟩ := by
  induction cs generalizing here oldpc with
  | nil => rfl
  | cons p cs ih =>
    have first := forward p List.mem_cons_self
    have word := words p List.mem_cons_self
    have exact : 4 * (p.pc - oldpc).tdiv 4 = p.pc - oldpc := by
      rw [Int.tdiv_eq_ediv_of_nonneg (by omega)]
      omega
    rw [marksFrom, ih apart.of_cons (fun q inside => (List.pairwise_cons.mp apart).1 q inside), List.map_cons]
    · have rest : here + 4 + 4 * (p.pc - oldpc).tdiv 4 + 4 - (p.pc + 4) = here + 4 - oldpc := by omega
      have head : here + 4 + 4 * (p.pc - oldpc).tdiv 4 = p.pc + (here + 4 - oldpc) := by omega
      rw [rest, head]
    · intro q inside
      have := words q (List.mem_cons_of_mem _ inside)
      omega

/-- The last change not after an instruction has its line. -/
theorem changes_inForce {oldlc : Int} {ps : List Prog} {p : Prog} (member : p ∈ ps) (instruction : p.instruction)
    (apart : ps.Pairwise fun p q => p.instruction → q.instruction → p.pc + 4 ≤ q.pc) :
    inForce Prog.line (fun q => q.pc < p.pc + 4) oldlc (changes oldlc ps) = p.line := by
  induction ps generalizing oldlc with
  | nil => cases member
  | cons q ps ih =>
    have later := (List.pairwise_cons.mp apart).1
    have kind : q.instruction = true ↔ ¬(q.as = .text ∨ q.as = .nop) := by simp [Prog.instruction]
    rw [changes]
    by_cases skipped : q.line = oldlc ∨ q.as = .text ∨ q.as = .nop
    · rw [if_pos skipped]
      rcases List.mem_cons.mp member with rfl | inside
      · have same : p.line = oldlc := skipped.resolve_right (kind.mp instruction)
        cases rest : changes oldlc ps with
        | nil => exact same.symm
        | cons c cs =>
          have among : c ∈ changes oldlc ps := rest ▸ List.mem_cons_self
          have := later c ((changes_sublist oldlc ps).subset among) instruction (changes_instruction c among)
          rw [inForce_stop (by simp only [decide_eq_false_iff_not]; omega), same]
      · exact ih inside apart.of_cons
    · rw [if_neg skipped]
      have own : q.instruction := kind.mpr fun other => skipped (.inr other)
      rcases List.mem_cons.mp member with rfl | inside
      · rw [inForce_passed (by simp only [decide_eq_true_eq]; omega)]
        cases rest : changes p.line ps with
        | nil => rfl
        | cons c cs =>
          have among : c ∈ changes p.line ps := rest ▸ List.mem_cons_self
          have := later c ((changes_sublist p.line ps).subset among) instruction (changes_instruction c among)
          rw [inForce_stop (by simp only [decide_eq_false_iff_not]; omega)]
      · have := later p inside own instruction
        rw [inForce_passed (by simp only [decide_eq_true_eq]; omega)]
        exact ih inside apart.of_cons

theorem Laid.marks_exact (laid : Laid l inittext txtsz ps) (words : l.unit = 4) :
    marks l inittext ps = (changes 0 ps).map fun q => ⟨l.address inittext q, q.line⟩ := by
  have sub := changes_sublist 0 ps
  have placed {q : Prog} (member : q ∈ changes 0 ps) := laid.inside q (sub.subset member) (changes_instruction q member)
  unfold marks
  rw [marksFrom_exact]
  · refine List.map_congr_left fun q member => ?_
    rw [address_eq, Place.mk.injEq]
    exact ⟨by omega, rfl⟩
  · refine (laid.apart.sublist sub).imp_of_mem fun {p q} first second apart => ?_
    have := apart (changes_instruction p first) (changes_instruction q second)
    omega
  · intro q member
    have := placed member
    rw [address_eq] at this
    omega
  · intro q member
    have := laid.aligned q (sub.subset member) (changes_instruction q member)
    rw [address_eq, words] at this
    omega

theorem Laid.kept (laid : Laid l inittext txtsz ps) (words : l.unit = 4) {p : Prog} (member : p ∈ ps)
    (instruction : p.instruction) : Kept l inittext ps p := by
  have apart : ps.Pairwise fun p q => p.instruction → q.instruction → p.pc + 4 ≤ q.pc := words ▸ laid.apart
  have same : (fun m : Place => decide (m.currpc < l.address inittext p + 4)) ∘ (fun q => ⟨l.address inittext q, q.line⟩) =
      fun q : Prog => decide (q.pc < p.pc + 4) := by
    funext q
    simp only [Function.comp_apply, address_eq, decide_eq_decide]
    omega
  unfold Kept
  rw [laid.marks_exact words, inForce_map, same]
  exact changes_inForce member instruction apart

theorem Laid.findable (laid : Laid l inittext txtsz ps) (words : l.unit = 4) {p : Prog} :
    Findable l inittext txtsz ps p ↔
      ∃ c ∈ if sizeFrom (l.oldpc inittext) 0 (changes 0 ps) % 2 = 1 then changes 0 ps else (changes 0 ps).dropLast,
        c.line = p.line := by
  have within : ∀ c ∈ changes 0 ps, l.address inittext c ≤ inittext + txtsz := by
    intro c member
    have := laid.inside c ((changes_sublist 0 ps).subset member) (changes_instruction c member)
    omega
  unfold Findable reached
  rw [laid.marks_exact words, ← List.map_dropLast, ← apply_ite (List.map _)]
  constructor
  · rintro ⟨m, member, own, _⟩
    obtain ⟨c, inside, rfl⟩ := List.mem_map.mp member
    exact ⟨c, inside, own⟩
  · rintro ⟨c, inside, own⟩
    refine ⟨_, List.mem_map_of_mem inside, own, within c ?_⟩
    split at inside
    · exact inside
    · exact List.dropLast_subset _ inside

end Readers

/-- The table round-trips exactly when the text starts at 4 or above, no instruction is
on line 0, the change in force at each instruction is its own after rounding, and
its line is also that of a change which is not the last byte of the table. With
whole words rounding never matters. -/
theorem asmlc_iff {l : Linker} {inittext txtsz first : Int} {ps : List Prog} (laid : Laid l inittext txtsz ps)
    (start : first = 0 ∨ first = inittext) :
    (RoundTrips l inittext txtsz first ps ↔ ∀ p ∈ ps, p.instruction →
      4 ≤ inittext ∧ 1 ≤ p.line ∧ Kept l inittext ps p ∧ Findable l inittext txtsz ps p) ∧
    (l.unit = 4 → ∀ p ∈ ps, p.instruction → Kept l inittext ps p ∧
      (Findable l inittext txtsz ps p ↔
        ∃ c ∈ if sizeFrom (l.oldpc inittext) 0 (changes 0 ps) % 2 = 1 then changes 0 ps else (changes 0 ps).dropLast,
          c.line = p.line)) := by
  refine ⟨⟨fun trips p member instruction => ?_, fun holds p member instruction => ?_⟩,
    fun words p member instruction => ⟨laid.kept words member instruction, laid.findable words⟩⟩
  · obtain ⟨read, found⟩ := trips p member instruction
    have line := (laid.lines p member).1
    have base : 4 ≤ inittext := by
      by_contra low
      rw [pc2line_low laid (by omega) start member instruction, Option.some.injEq] at read
      omega
    have some : asmlc l inittext ps ≠ [] := by
      intro none
      rw [pc2line_empty none, Option.some.injEq] at read
      omega
    have positive : 1 ≤ p.line := by
      by_contra zero
      obtain ⟨pc, address, back⟩ := found inittext le_rfl
      unfold line2addr at address
      rw [if_pos (.inr (by omega)), Option.some.injEq] at address
      rw [← address, pc2line_none laid base start member instruction, Option.some.injEq] at back
      omega
    exact ⟨base, positive, (reads_iff laid base start some member instruction).mp read,
      (finds_iff laid base start member instruction positive).mp found⟩
  · obtain ⟨base, positive, kept, findable⟩ := holds p member instruction
    have found := (finds_iff laid base start member instruction positive).mpr findable
    have some : asmlc l inittext ps ≠ [] := by
      intro none
      obtain ⟨pc, _, back⟩ := found inittext le_rfl
      rw [pc2line_empty none, Option.some.injEq] at back
      omega
    exact ⟨(reads_iff laid base start some member instruction).mpr kept, found⟩

/-- A loop with its test at the end, on a line before that of its body. -/
def loop : List Prog := [⟨.text, 4128, 1⟩, ⟨.other, 4128, 1⟩, ⟨.other, 4132, 3⟩, ⟨.other, 4136, 2⟩, ⟨.other, 4140, 2⟩]

theorem asmlc_loop : RoundTrips .five 4128 16 4128 loop := by
  have laid : Laid .five 4128 16 loop := by constructor <;> decide
  refine (asmlc_iff laid (.inr rfl)).1.mpr fun p member instruction => ?_
  simp only [loop, List.mem_cons, List.not_mem_nil, or_false] at member
  rcases member with rfl | rfl | rfl | rfl | rfl
  · exact absurd instruction (by decide)
  · exact ⟨by decide, by decide, by unfold Kept; decide, ⟨⟨4128, 1⟩, by decide, rfl, by decide⟩⟩
  · exact ⟨by decide, by decide, by unfold Kept; decide, ⟨⟨4132, 3⟩, by decide, rfl, by decide⟩⟩
  · exact ⟨by decide, by decide, by unfold Kept; decide, ⟨⟨4136, 2⟩, by decide, rfl, by decide⟩⟩
  · exact ⟨by decide, by decide, by unfold Kept; decide, ⟨⟨4136, 2⟩, by decide, rfl, by decide⟩⟩

/-- Two lines in a table of two bytes: the search stops before the second. -/
def twoLines : List Prog := [⟨.text, 4128, 1⟩, ⟨.other, 4128, 1⟩, ⟨.other, 4132, 2⟩]

/-- Compressed instructions, each on its own line. -/
def halves : List Prog := [⟨.text, 0, 1⟩, ⟨.other, 0, 1⟩, ⟨.other, 2, 2⟩, ⟨.other, 4, 3⟩]

theorem asmlc_fails :
    (Laid .five 4128 8 twoLines ∧ ¬RoundTrips .five 4128 8 4128 twoLines) ∧
      Laid (.il true) 4128 8 halves ∧ ¬RoundTrips (.il true) 4128 8 4128 halves := by
  refine ⟨⟨by constructor <;> decide, fun trips => ?_⟩, by constructor <;> decide, fun trips => ?_⟩
  · obtain ⟨pc, address, back⟩ := (trips ⟨.other, 4132, 2⟩ (by decide) rfl).2 4128 le_rfl
    have missed : line2addr (image .five 4128 8 4128 twoLines) 2 4128 0 = some noaddr := by decide
    rw [missed, Option.some.injEq] at address
    rw [← address] at back
    exact absurd back (by decide)
  · exact absurd (trips ⟨.other, 4, 3⟩ (by decide) rfl).1 (by decide)

end Goken.Proofs.Pcline
