import Goken.Proofs.RegcompChains
import Goken.Proofs.RegexecEnds

/-! The search with the fast check, the search that tries every position and the search in
the string of runes, against the match that each of them chooses. -/

namespace Goken.Proofs.RegexecAgree
open Goken Goken.Regexec Lib.Threads Lib.Steps RegexecThreads RegexecSearch RegexecText
open RegexecEnds (Stopped regexec1_ends rregexec1_ends)

/-- A turn of the outer loop after the fast check. -/
def turned (j : Reljunk) (tl : Nat → List Relist) (char : Nat → Nat × Nat) (c : Config) : Option Nat → Config
  | none => c.result
  | some p => { c with
      phase := if j.size ≤ (tl p).length then .overrun else .list, s := p, r := (char p).1, n := (char p).2, tl := tl p, nl := [], t := 0 }

section Moves

variable {prog : Reprog} {r : Nat → Nat} {opens : Nat → Bool} {pos : Nat → Nat} {first fast : Bool} {checks : Prop} {j : Reljunk}
  {c : Config} (searching : Searching prog r opens pos first fast checks c)
include searching

theorem move_enter (at_list : c.phase = .list) {p : Relist} (entry : c.tl[c.t]? = some p) :
    Move prog r opens pos first fast checks j c { c with phase := .inst p.inst } := by
  obtain ⟨k, _, _, _, _, _, _, working, _⟩ := searching.going (Or.inl at_list)
  exact .works working.place.1 (.enter at_list entry)

omit searching in
theorem move_bottom (at_list : c.phase = .list) (past : c.tl[c.t]? = none) {flag : Bool} (checked : fast = true → flag = true)
    (check : flag = true → checks) :
    Move prog r opens pos first fast checks j c
      (let c' := { c with checkstart := flag && c.nl.isEmpty, s := c.s + c.n }
       if c'.r ≠ 0 then { c' with phase := .turn } else c'.result) := by
  dsimp only
  split
  next more =>
    refine .next at_list past more _ ?_ ?_
    · intro yes
      obtain ⟨flagged, empty⟩ := Bool.and_eq_true_iff.mp yes
      exact ⟨check flagged, List.isEmpty_iff.mp empty⟩
    · intro fast_path empty
      exact Bool.and_eq_true_iff.mpr ⟨checked fast_path, List.isEmpty_iff.mpr empty⟩
  next zero => exact .ends at_list past (Decidable.of_not_not zero) _ _

theorem move_turn {found : Option Nat} (at_turn : c.phase = .turn)
    (skips : ∀ k, c.s = pos k → (c.checkstart = true → checks ∧ c.nl = []) → (fast = true → c.nl = [] → c.checkstart = true) →
      Skips prog r opens pos first fast k c.nl found)
    {tl : Nat → List Relist} (adds : ∀ p, tl p = renewemptythread c.nl prog.startinst p ∨ (c.matched = true ∧ tl p = c.nl)) {char : Nat → Nat × Nat}
    (length : ∀ q, char (pos q) = (r q, pos (q + 1) - pos q)) (mono : StrictMono pos) :
    Move prog r opens pos first fast checks j c (turned j tl char c found) := by
  rw [Searching, at_turn] at searching
  obtain ⟨k, _, _, place, _, _, empty, full⟩ := searching
  have skipped := skips k place empty full
  cases skipped with
  | stops empty passed => exact .stops at_turn place (.stops empty passed)
  | goes le empty inside passed stays =>
    rename_i q
    rw [turned, length q]
    refine .turns at_turn place (.goes le empty inside passed stays) (adds _) ?_
    have later : pos q < pos (q + 1) := mono (Nat.lt_succ_self q)
    dsimp only
    omega

end Moves

section Bytes

variable {prog : Reprog} {text : List UInt8} {j : Reljunk} {first fast : Bool} {checks : Prop} {c c' : Config}

theorem char_place (s q : Nat) : char text (place text s q) = (reads text s q, place text s (q + 1) - place text s q) := by
  rw [place, Nat.add_sub_cancel_left]
  rfl

theorem move_bytes (marked : ∀ inst ∈ prog.insts, Inst.Marked inst) (apart : c.phase ≠ .turn → some c.s ≠ j.eol)
    (skips : ∀ k, c.s = place text j.starts k → (c.checkstart = true → checks ∧ c.nl = []) → (fast = true → c.nl = [] → c.checkstart = true) →
      Skips prog (reads text j.starts) (opens text j.starts) (place text j.starts) first fast k c.nl (skip text j c))
    (checked : fast = true → j.starttype ≠ Start.zero) (check : j.starttype ≠ Start.zero → checks)
    (searching : Searching prog (reads text j.starts) (opens text j.starts) (place text j.starts) first fast checks c)
    (moves : step prog text j c = some c') :
    Move prog (reads text j.starts) (opens text j.starts) (place text j.starts) first fast checks j c c' := by
  unfold step at moves
  cases phase : c.phase with
  | turn =>
    rw [phase] at moves
    cases moves
    have tries (p : Nat) : (if c.matched then c.nl else renewemptythread c.nl prog.startinst p) = renewemptythread c.nl prog.startinst p ∨
        (c.matched = true ∧ (if c.matched then c.nl else renewemptythread c.nl prog.startinst p) = c.nl) := by
      cases c.matched with
      | true => exact Or.inr ⟨rfl, rfl⟩
      | false => exact Or.inl rfl
    have turn_eq : turn prog text j c =
        turned j (fun p => if c.matched then c.nl else renewemptythread c.nl prog.startinst p) (char text) c (skip text j c) := by
      unfold turn
      cases skip text j c <;> rfl
    rw [turn_eq]
    exact move_turn searching phase skips tries (char_place j.starts) (place_mono text j.starts)
  | list =>
    rw [phase] at moves
    dsimp only at moves
    cases entry : c.tl[c.t]? with
    | some p =>
      rw [entry] at moves
      cases moves
      exact move_enter searching phase entry
    | none =>
      rw [entry] at moves
      cases moves
      rw [bottom, if_neg (apart (by rw [phase]; exact nofun))]
      exact move_bottom phase entry (fun yes => decide_eq_true (checked yes)) fun yes => check (of_decide_eq_true yes)
  | inst i =>
    obtain ⟨k, _, _, _, _, _, _, working, _⟩ := searching.going (Or.inr ⟨i, phase⟩)
    rw [phase] at moves
    dsimp only at moves
    split at moves
    next p inst entry here =>
      cases moves
      refine .works working.place.1 (.does phase entry here ?_)
      have effect : Effect j _ c p.se inst (execute text j c p.se inst) := 
        execute_effect text (apart (by rw [phase]; exact nofun)) (marked inst (List.mem_of_getElem? here))
      rw [working.place.1] at effect
      exact effect
    next => cases moves
  | returned => rw [phase] at moves; cases moves
  | overrun => rw [phase] at moves; cases moves

end Bytes

section Runes

variable {prog : Reprog} {runes : List Nat} {r : Nat → Nat} {opens : Nat → Bool} {j : Reljunk} {first : Bool} {c c' : Config}

theorem move_runes (marked : ∀ inst ∈ prog.insts, Inst.Marked inst) (endless : j.eol = none)
    (same : ∀ k, Rregexec.rune runes (j.starts + k) = r k)
    (lines : ∀ k, decide (j.starts + k = 0 ∨ Rregexec.rune runes (j.starts + k - 1) = newline) = opens k)
    (skips : ∀ k, c.s = j.starts + k → (c.checkstart = true → j.startchar ≠ 0 ∧ c.nl = []) →
      Skips prog r opens (j.starts + ·) first false k c.nl (Rregexec.skip runes j c))
    (searching : Searching prog r opens (j.starts + ·) first false (j.startchar ≠ 0) c) (moves : Rregexec.step prog runes j c = some c') :
    Move prog r opens (j.starts + ·) first false (j.startchar ≠ 0) j c c' := by
  unfold Rregexec.step at moves
  cases phase : c.phase with
  | turn =>
    rw [phase] at moves
    cases moves
    have char (q : Nat) : (Rregexec.rune runes (j.starts + q), 1) = (r q, j.starts + (q + 1) - (j.starts + q)) := by
      rw [same, Nat.add_sub_add_left, Nat.add_sub_cancel_left]
    have turn_eq : Rregexec.turn prog runes j c =
        turned j (renewemptythread c.nl prog.startinst) (fun p => (Rregexec.rune runes p, 1)) c (Rregexec.skip runes j c) := by
      unfold Rregexec.turn
      cases Rregexec.skip runes j c <;> rfl
    rw [turn_eq]
    exact move_turn searching phase (fun k place empty _ => skips k place empty) (fun _ => Or.inl rfl) char
      fun a b less => Nat.add_lt_add_left less _
  | list =>
    rw [phase] at moves
    dsimp only at moves
    cases entry : c.tl[c.t]? with
    | some p =>
      rw [entry] at moves
      cases moves
      exact move_enter searching phase entry
    | none =>
      rw [entry] at moves
      cases moves
      rw [Rregexec.bottom, endless, if_neg nofun]
      exact move_bottom phase entry nofun of_decide_eq_true
  | inst i =>
    obtain ⟨k, _, _, _, _, _, _, working, _⟩ := searching.going (Or.inr ⟨i, phase⟩)
    rw [phase] at moves
    dsimp only at moves
    split at moves
    next p inst entry here =>
      cases moves
      refine .works working.place.1 (.does phase entry here ?_)
      have effect : Effect j _ c p.se inst (Rregexec.execute runes j c p.se inst) :=
        rexecute_effect runes (by rw [endless]; exact nofun) (marked inst (List.mem_of_getElem? here))
      rw [working.place.1, lines] at effect
      exact effect
    next => cases moves
  | returned => rw [phase] at moves; cases moves
  | overrun => rw [phase] at moves; cases moves

end Runes

section FastCheck

variable {prog : Reprog} {text : List UInt8} {runes : List Nat} {j : Reljunk} {c : Config} {k : Nat} {pos : Nat → Nat}

theorem starttype_cases (prog : Reprog) :
    (∃ ch next, prog.insts[prog.startinst]? = some (.RUNE ch next) ∧ ch < Runeself ∧ starttype prog = (.RUNE, ch)) ∨
    (∃ next, prog.insts[prog.startinst]? = some (.BOL next) ∧ starttype prog = (.BOL, 0)) ∨
    ((¬∃ next, prog.insts[prog.startinst]? = some (.BOL next)) ∧ starttype prog = (.zero, 0)) := by
  unfold starttype
  split
  next ch next begins =>
    split
    next low => exact Or.inl ⟨ch, next, begins, low, rfl⟩
    next =>
      refine Or.inr (Or.inr ⟨?_, rfl⟩)
      rintro ⟨_, line⟩
      rw [begins] at line
      cases line
  next next begins => exact Or.inr (Or.inl ⟨next, begins, rfl⟩)
  next _ other => exact Or.inr (Or.inr ⟨fun ⟨next, line⟩ => other next line, rfl⟩)

theorem lost_missed {r : Nat → Nat} {opens : Nat → Bool} {first : Bool} :
    Lost prog r opens first (decide ((starttype prog).1 ≠ Start.zero)) = Missed prog r opens first := by
  funext a
  refine propext ⟨And.right, fun missed => ⟨?_, missed⟩⟩
  rw [Missed] at missed
  obtain ⟨⟨next, begins⟩, _⟩ := missed
  rw [starttype, begins]
  rfl

variable (type : (j.starttype, j.startchar) = starttype prog)
include type

theorem skips_fast (apart : ∀ ch, sought j c = some ch → some c.s ≠ j.eol) (here : c.s = place text j.starts k) (empty : c.checkstart = true → c.nl = [])
    (full : j.starttype ≠ Start.zero → c.nl = [] → c.checkstart = true) :
    Skips prog (reads text j.starts) (opens text j.starts) (place text j.starts) (decide (j.starts = 0)) (decide (j.starttype ≠ Start.zero))
      k c.nl (skip text j c) := by
  have found (ch : Nat) (looks : sought j c = some ch) : skip text j c = utfrune text (place text j.starts k) ch := by
    rw [skip, looks]
    dsimp only
    cases goes : utfrune text c.s ch with
    | none => rw [← here, goes]
    | some p => rw [← here, goes]; exact if_neg (apart ch looks)
  have still (nothing : sought j c = none) : skip text j c = some (place text j.starts k) := by rw [skip, nothing, here]
  by_cases check : c.checkstart = true
  · rcases starttype_cases prog with ⟨ch, next, begins, low, same⟩ | ⟨next, begins, same⟩ | ⟨other, same⟩
    · rw [same, Prod.mk.injEq] at type
      rw [found ch (by rw [sought, if_pos check, type.1, type.2])]
      exact skips_char (utfrune_char text j.starts low) (reads_ends text j.starts k) (empty check) begins
    · rw [same, Prod.mk.injEq] at type
      by_cases bol : c.s = 0
      · rw [still (by rw [sought, if_pos check, type.1]; exact if_pos bol)]
        refine skips_stay ?_
        rintro ⟨_, _, inside, _⟩
        obtain ⟨zero, starts⟩ := (place_zero_iff text j.starts k).mp (here.symm.trans bol)
        exact absurd ⟨zero, decide_eq_true starts⟩ inside
      · rw [found newline (by rw [sought, if_pos check, type.1]; exact if_neg bol)]
        refine skips_line (utfrune_char text j.starts (by decide)) (reads_ends text j.starts k) (empty check) rfl begins ?_ ?_
          (opens_succ text j.starts)
        · rw [type.1]
          rfl
        · rintro ⟨zero, starts⟩
          exact bol (here.trans ((place_zero_iff text j.starts k).mpr ⟨zero, of_decide_eq_true starts⟩))
    · rw [same, Prod.mk.injEq] at type
      rw [still (by rw [sought, if_pos check, type.1])]
      exact skips_stay fun leaves => absurd leaves.2.1 other
  · rw [still (if_neg check)]
    refine skips_stay fun leaves nothing => ?_
    exact check (full (of_decide_eq_true leaves.1) nothing)

/-- The fast check of `rregexec1`, which there is for a character only. -/
theorem skips_runes (endless : j.eol = none) {r : Nat → Nat} {opens : Nat → Bool} {first : Bool} (same : ∀ k, Rregexec.rune runes (j.starts + k) = r k)
    (ends : ∀ k, ∃ e ≥ k, r e = 0) (here : c.s = j.starts + k) (empty : c.checkstart = true → j.startchar ≠ 0 ∧ c.nl = []) :
    Skips prog r opens (j.starts + ·) first false k c.nl (Rregexec.skip runes j c) := by
  have stay : Skips prog r opens (j.starts + ·) first false k c.nl (some c.s) := by
    rw [here]
    exact skips_stay nofun
  unfold Rregexec.skip
  split
  next check =>
    obtain ⟨char, nothing⟩ := empty check
    rcases starttype_cases prog with ⟨ch, next, begins, low, kind⟩ | ⟨next, begins, kind⟩ | ⟨other, kind⟩
    · rw [kind, Prod.mk.injEq] at type
      rw [type.1, type.2, here]
      dsimp only
      have scans (k : Nat) : Rregexec.scan j ch (runes.drop (j.starts + k)) (j.starts + k) =
          if r k = ch then some (j.starts + k) else if r k = 0 then none
          else Rregexec.scan j ch (runes.drop (j.starts + (k + 1))) (j.starts + (k + 1)) := by
        rw [← same, Rregexec.rune]
        by_cases inside : j.starts + k < runes.length
        · rw [List.drop_eq_getElem_cons inside, Rregexec.scan, endless, List.getD_eq_getElem _ _ inside]
          simp only [reduceCtorEq, or_false]
          rfl
        · rw [List.drop_eq_nil_of_le (Nat.le_of_not_lt inside), Rregexec.scan, List.getD_eq_default _ _ (Nat.le_of_not_lt inside)]
          by_cases zero : ch = 0
          · rw [if_pos zero, if_pos zero.symm]
          · rw [if_neg zero, if_neg fun other => zero other.symm, if_pos rfl]
      exact skips_char (f := fun k => Rregexec.scan j ch (runes.drop (j.starts + k)) (j.starts + k)) scans (ends k) nothing begins
    · rw [kind, Prod.mk.injEq] at type
      exact absurd type.2 char
    · rw [kind, Prod.mk.injEq] at type
      exact absurd type.2 char
  next => exact stay

end FastCheck

/-- Every position is tried. -/
def plain (j : Reljunk) : Reljunk := { j with starttype := .zero, startchar := 0 }

/-- A call of `regexec1` that tries every position comes to a configuration. -/
def PlainRuns (prog : Reprog) (text : List UInt8) (mp : List Resub) (size : Nat) (c : Config) : Prop :=
  Reaches (step prog text (plain (junk prog mp size))) (start (plain (junk prog mp size)) mp.length) c

/-- `regexec`, when every position is tried. -/
inductive PlainReturns (prog : Reprog) (text : List UInt8) (mp : List Resub) : Int → List Resub → Prop where
  | small {c : Config} {rv : Int} (run : PlainRuns prog text mp LISTSIZE c) (returns : c.phase = .returned rv) (fits : 0 ≤ rv) :
      PlainReturns prog text mp rv c.mp
  | big {c c' : Config} {rv rv' : Int} (run : PlainRuns prog text mp LISTSIZE c) (returns : c.phase = .returned rv) (full : rv < 0)
      (again : PlainRuns prog text mp BIGLISTSIZE c') (returns' : c'.phase = .returned rv') : PlainReturns prog text mp rv' c'.mp

/-- Where the caller wants the search to start. -/
def starts (mp : List Resub) : Nat := (mp.headD ⟨none, none⟩).s.getD 0

/-- The caller wants the search to go on to the end of the string. -/
def Endless (mp : List Resub) : Prop := (mp.headD ⟨none, none⟩).e = none

/-- The runes from `t` on are the characters of the bytes from `s` on. -/
structure Corresponds (text : List UInt8) (s : Nat) (runes : List Nat) (t : Nat) : Prop where
  same : ∀ k, Rregexec.rune runes (t + k) = reads text s k
  first : t = 0 ↔ s = 0
  before : Rregexec.rune runes (t - 1) = newline ↔ uchar text (s - 1) = newline

/-- The place in the bytes of a match in the runes. -/
def translate (text : List UInt8) (s t : Nat) (m : Resub) : Resub :=
  ⟨m.s.map fun p => place text s (p - t), m.e.map fun p => place text s (p - t)⟩

section Results

variable {prog : Reprog} {text : List UInt8} {runes : List Nat} {mp mp' : List Resub} {rv : Int}

/-- What is returned and left in `mp[0]` for the match `m`. -/
structure Reports (pos : Nat → Nat) (mp : List Resub) (rv : Int) (mp' : List Resub) (m : Option (Nat × Nat)) : Prop where
  result : rv = if m.isSome then 1 else 0
  head : mp'.head? = mp.head?.map fun _ => ⟨m.map fun y => pos y.1, m.map fun y => pos y.2⟩

theorem reports {r : Nat → Nat} {opens : Nat → Bool} {pos : Nat → Nat} {first fast : Bool} {checks : Prop} {c : Config} (mono : StrictMono pos)
    (searching : Searching prog r opens pos first fast checks c) (length : c.mp.length = mp.length) (returns : c.phase = .returned rv)
    (fits : 0 ≤ rv) : ∃ m, Chosen prog r opens (Lost prog r opens first fast) m ∧ Reports pos mp rv c.mp m := by
  obtain ⟨m, chosen, result, head⟩ := searching_result mono searching returns fits
  refine ⟨m, chosen, result, ?_⟩
  cases mp with
  | nil =>
    rw [List.eq_nil_of_length_eq_zero length]
    rfl
  | cons x rest =>
    obtain ⟨y, rest', same⟩ := List.exists_cons_of_length_eq_add_one length
    rw [same] at head ⊢
    exact congrArg some (head y rfl)

theorem head_start (ms : Nat) : ∀ m ∈ (List.replicate ms (⟨none, none⟩ : Resub)).head?, m = ⟨none, none⟩ := by
  intro m member
  exact List.eq_of_mem_replicate (List.mem_of_mem_head? member)

variable (marked : ∀ inst ∈ prog.insts, Inst.Marked inst) (endless : Endless mp)
include marked endless

/-- The search with the fast check chooses among the lines that are not missed. -/
theorem fast_reports (call : Returns prog text mp rv mp') (fits : 0 ≤ rv) :
    ∃ m, Chosen prog (reads text (starts mp)) (opens text (starts mp))
        (Missed prog (reads text (starts mp)) (opens text (starts mp)) (decide (starts mp = 0))) m ∧
      Reports (place text (starts mp)) mp rv mp' m := by
  have runs {size : Nat} {c : Config} {rv : Int} (run : Runs prog text mp size c) (returns : c.phase = .returned rv) (fits : 0 ≤ rv) :
      ∃ m, Chosen prog (reads text (starts mp)) (opens text (starts mp))
          (Missed prog (reads text (starts mp)) (opens text (starts mp)) (decide (starts mp = 0))) m ∧
        Reports (place text (starts mp)) mp rv c.mp m := by
    have stops : (junk prog mp size).eol = none := endless
    have invariant : Searching prog (reads text (starts mp)) (opens text (starts mp)) (place text (starts mp)) (decide (starts mp = 0))
        (decide ((starttype prog).1 ≠ Start.zero)) True c ∧ c.mp.length = (List.replicate mp.length (⟨none, none⟩ : Resub)).length := by
      refine searching_run (junk prog mp size) (place_mono text (starts mp)) ?_ ?_ run
      · intro c c' searching moves
        have apart : some c.s ≠ (junk prog mp size).eol := by
          rw [stops]
          exact nofun
        refine move_bytes marked (fun _ => apart) (fun k here empty full => ?_) of_decide_eq_true (fun _ => trivial) searching moves
        exact skips_fast rfl (fun _ _ => apart) here (fun yes => (empty yes).2) fun type => full (decide_eq_true type)
      · exact searching_start rfl rfl rfl (head_start _) rfl (fun _ => trivial) fun yes => yes
    rw [← lost_missed]
    exact reports (place_mono text (starts mp)) invariant.1 (invariant.2.trans List.length_replicate) returns fits
  cases call with
  | small run returns fits => exact runs run returns fits
  | big _ _ _ again returns' => exact runs again returns' fits

theorem plain_reports (call : PlainReturns prog text mp rv mp') (fits : 0 ≤ rv) :
    ∃ m, Chosen prog (reads text (starts mp)) (opens text (starts mp)) (fun _ => False) m ∧ Reports (place text (starts mp)) mp rv mp' m := by
  have lost : Lost prog (reads text (starts mp)) (opens text (starts mp)) true false = fun _ => False := by
    funext a
    exact propext ⟨fun lost => Bool.noConfusion lost.1, False.elim⟩
  have runs {size : Nat} {c : Config} {rv : Int} (run : PlainRuns prog text mp size c) (returns : c.phase = .returned rv) (fits : 0 ≤ rv) :
      ∃ m, Chosen prog (reads text (starts mp)) (opens text (starts mp)) (fun _ => False) m ∧ Reports (place text (starts mp)) mp rv c.mp m := by
    have stops : (plain (junk prog mp size)).eol = none := endless
    have stays (c : Config) : skip text (plain (junk prog mp size)) c = some c.s := by
      unfold skip sought
      cases c.checkstart <;> rfl
    have invariant : Searching prog (reads text (starts mp)) (opens text (starts mp)) (place text (starts mp)) true false True c ∧
        c.mp.length = (List.replicate mp.length (⟨none, none⟩ : Resub)).length := by
      refine searching_run (plain (junk prog mp size)) (place_mono text (starts mp)) ?_ ?_ run
      · intro c c' searching moves
        refine move_bytes marked (fun _ => by rw [stops]; exact nofun) (fun k here _ _ => ?_) (by exact nofun) (fun _ => trivial) searching moves
        rw [stays, here]
        exact skips_stay fun leaves => nomatch leaves.1
      · exact searching_start rfl rfl rfl (head_start _) rfl (fun _ => trivial) nofun
    rw [← lost]
    exact reports (place_mono text (starts mp)) invariant.1 (invariant.2.trans List.length_replicate) returns fits
  cases call with
  | small run returns fits => exact runs run returns fits
  | big _ _ _ again returns' => exact runs again returns' fits

theorem runes_report {s : Nat} (corresponds : Corresponds text s runes (starts mp)) (call : Rregexec.Returns prog runes mp rv mp') (fits : 0 ≤ rv) :
    ∃ m, Chosen prog (reads text s) (opens text s) (fun _ => False) m ∧ Reports (starts mp + ·) mp rv mp' m := by
  have lost : Lost prog (reads text s) (opens text s) true false = fun _ => False := by
    funext a
    exact propext ⟨fun lost => Bool.noConfusion lost.1, False.elim⟩
  have mono : StrictMono (starts mp + ·) := fun a b less => Nat.add_lt_add_left less _
  have lines (k : Nat) : decide (starts mp + k = 0 ∨ Rregexec.rune runes (starts mp + k - 1) = newline) = opens text s k := by
    cases k with
    | zero =>
      rw [opens, place, Nat.add_zero]
      exact decide_eq_decide.mpr (or_congr corresponds.first corresponds.before)
    | succ k =>
      rw [Bool.eq_iff_iff, opens_succ, decide_eq_true_iff, ← corresponds.same]
      exact ⟨fun line => line.resolve_left (Nat.succ_ne_zero _), Or.inr⟩
  have runs {size : Nat} {c : Config} {rv : Int} (run : Rregexec.Runs prog runes mp size c) (returns : c.phase = .returned rv) (fits : 0 ≤ rv) :
      ∃ m, Chosen prog (reads text s) (opens text s) (fun _ => False) m ∧ Reports (starts mp + ·) mp rv c.mp m := by
    have stops : (junk prog mp size).eol = none := endless
    have invariant : Searching prog (reads text s) (opens text s) (starts mp + ·) true false ((junk prog mp size).startchar ≠ 0) c ∧
        c.mp.length = (List.replicate mp.length (⟨none, none⟩ : Resub)).length := by
      refine searching_run (junk prog mp size) mono ?_ ?_ run
      · exact move_runes marked stops corresponds.same lines fun k here empty =>
          skips_runes rfl stops corresponds.same (reads_ends text s) here empty
      · exact searching_start rfl rfl rfl (head_start _) rfl of_decide_eq_true (fun impossible => Bool.noConfusion impossible)
    rw [← lost]
    exact reports mono invariant.1 (invariant.2.trans List.length_replicate) returns fits
  cases call with
  | small run returns fits => exact runs run returns fits
  | big _ _ _ again returns' => exact runs again returns' fits

end Results

section Ends

variable {prog : Reprog}

/-- A call of which every run ends returns, or one of its runs writes behind a list. -/
theorem answered {runs : Nat → Config → Prop} {returns : Int → List Resub → Prop} (big : Nat) (ends : ∀ size, ∃ c, runs size c ∧ Stopped c)
    (small : ∀ {c rv}, runs LISTSIZE c → c.phase = .returned rv → 0 ≤ rv → returns rv c.mp)
    (again : ∀ {c c' rv rv'}, runs LISTSIZE c → c.phase = .returned rv → rv < 0 → runs big c' → c'.phase = .returned rv' → returns rv' c'.mp) :
    (∃ rv mp', returns rv mp') ∨ ∃ size ∈ [LISTSIZE, big], ∃ c, runs size c ∧ c.phase = .overrun := by
  obtain ⟨c, run, overrun | ⟨rv, returned⟩⟩ := ends LISTSIZE
  · exact .inr ⟨_, List.mem_cons_self, c, run, overrun⟩
  · by_cases fits : 0 ≤ rv
    · exact .inl ⟨rv, c.mp, small run returned fits⟩
    · obtain ⟨c', run', overrun | ⟨rv', returned'⟩⟩ := ends big
      · exact .inr ⟨_, List.mem_cons_of_mem _ List.mem_cons_self, c', run', overrun⟩
      · exact .inl ⟨rv', c'.mp, again run returned (Int.lt_of_not_ge fits) run' returned'⟩

/-- The three calls return for every compiled program, unless a run writes behind a list. -/
theorem regexec_answers {str : List UInt8} {literal : Bool} {dot : Regcomp.Kind}
    (compiled : Regcomp.regcomp1 str literal dot = .ok (prog.insts, prog.startinst)) (text : List UInt8) (runes : List Nat) (mp rmp : List Resub) :
    ((∃ rv mp', Returns prog text mp rv mp') ∨ ∃ size ∈ [LISTSIZE, BIGLISTSIZE], ∃ c, Runs prog text mp size c ∧ c.phase = .overrun) ∧
    ((∃ rv mp', PlainReturns prog text mp rv mp') ∨
      ∃ size ∈ [LISTSIZE, BIGLISTSIZE], ∃ c, PlainRuns prog text mp size c ∧ c.phase = .overrun) ∧
    ((∃ rv mp', Rregexec.Returns prog runes rmp rv mp') ∨
      ∃ size ∈ [LISTSIZE, Rregexec.BIGLISTSIZE], ∃ c, Rregexec.Runs prog runes rmp size c ∧ c.phase = .overrun) := by
  have settles := RegcompChains.compiled_settles compiled
  exact ⟨answered _ (fun _ => regexec1_ends settles text _ _) .small .big,
    answered _ (fun _ => regexec1_ends settles text _ _) .small .big,
    answered _ (fun _ => rregexec1_ends settles runes _ _) .small .big⟩

end Ends

section Agreement

variable {pos pos' : Nat → Nat} {mp rmp mp' rmp' : List Resub} {rv rv' : Int} {m m' : Option (Nat × Nat)}

theorem Reports.same_result (one : Reports pos mp rv mp' m) (two : Reports pos' rmp rv' rmp' m') (same : rv = rv') : m.isSome = m'.isSome := by
  have result := one.result.symm.trans (same.trans two.result)
  cases m <;> cases m' <;> simp at result ⊢

theorem Reports.translated {text : List UInt8} {s : Nat} (by_runes : Reports (starts rmp + ·) rmp rv rmp' m) (same_length : rmp.length = mp.length) :
    rmp'.head?.map (translate text s (starts rmp)) = mp.head?.map fun _ => ⟨m.map fun y => place text s y.1, m.map fun y => place text s y.2⟩ := by
  rw [by_runes.head]
  cases rmp with
  | nil =>
    cases mp with
    | nil => rfl
    | cons => cases same_length
  | cons =>
    cases mp with
    | nil => cases same_length
    | cons =>
      cases m with
      | none => rfl
      | some y => simp [translate]

end Agreement

/-- The fast check, the search of every position and the search in the runes agree just when
no first match begins with a missed line. -/
theorem regexec_agrees_iff {prog : Reprog} {str : List UInt8} {literal : Bool} {dot : Regcomp.Kind}
    (compiled : Regcomp.regcomp1 str literal dot = .ok (prog.insts, prog.startinst)) {text : List UInt8} {runes : List Nat} {mp rmp : List Resub}
    (same_length : rmp.length = mp.length) (endless : Endless mp) (rendless : Endless rmp)
    (corresponds : Corresponds text (starts mp) runes (starts rmp)) {fast plain rune : Int} {mpf mpp mpr : List Resub}
    (by_fast : Returns prog text mp fast mpf) (by_plain : PlainReturns prog text mp plain mpp) (by_runes : Rregexec.Returns prog runes rmp rune mpr)
    (fits : 0 ≤ fast ∧ 0 ≤ plain ∧ 0 ≤ rune) :
    (fast = plain ∧ mpf.head? = mpp.head? ∧ rune = plain ∧ mpr.head?.map (translate text (starts mp) (starts rmp)) = mpp.head?) ↔
      ∀ a e, Match prog (reads text (starts mp)) (opens text (starts mp)) a e →
        ∃ b e', Match prog (reads text (starts mp)) (opens text (starts mp)) b e' ∧
          ¬Missed prog (reads text (starts mp)) (opens text (starts mp)) (decide (starts mp = 0)) b ∧ (mp = [] ∨ b ≤ a) := by
  have marked := Regcomp.compiled_marked compiled
  obtain ⟨mf, chosen_fast, reports_fast⟩ := fast_reports marked endless by_fast fits.1
  obtain ⟨my, chosen_plain, reports_plain⟩ := plain_reports marked endless by_plain fits.2.1
  obtain ⟨mr, chosen_runes, reports_runes⟩ := runes_report marked rendless corresponds by_runes fits.2.2
  cases chosen_runes.unique chosen_plain
  have runes_agree : rune = plain ∧ mpr.head?.map (translate text (starts mp) (starts rmp)) = mpp.head? :=
    ⟨reports_runes.result.trans reports_plain.result.symm, (reports_runes.translated same_length).trans reports_plain.head.symm⟩
  constructor
  · rintro ⟨results, heads, _⟩ a e matched
    have both := reports_fast.same_result reports_plain results
    cases my with
    | none => exact (chosen_plain a e matched).elim
    | some y =>
      cases mf with
      | none => cases both
      | some x =>
        refine ⟨x.1, x.2, chosen_fast.1, chosen_fast.2.1, ?_⟩
        cases mp with
        | nil => exact Or.inl rfl
        | cons =>
          refine Or.inr ?_
          rw [reports_fast.head, reports_plain.head] at heads
          have same : x.1 = y.1 := (place_mono text _).injective (Option.some.inj (congrArg Resub.s (Option.some.inj heads)))
          have least := chosen_plain.2.2 a e matched id
          omega
  · intro seen
    cases my with
    | none =>
      have nothing : mf = none := chosen_fast.unique fun a e matched => (chosen_plain a e matched).elim
      subst nothing
      exact ⟨reports_fast.result.trans reports_plain.result.symm, reports_fast.head.trans reports_plain.head.symm, runes_agree⟩
    | some y =>
      obtain ⟨b, e', matched, kept, near⟩ := seen y.1 y.2 chosen_plain.1
      cases mf with
      | none => exact absurd (chosen_fast b e' matched) kept
      | some x =>
        refine ⟨reports_fast.result.trans reports_plain.result.symm, ?_, runes_agree⟩
        rcases near with rfl | near
        · rw [reports_fast.head, reports_plain.head]
          rfl
        · have least := chosen_plain.2.2 b e' matched id
          have same : b = y.1 := by omega
          subst same
          have better : some x = some y :=
            chosen_fast.unique ⟨chosen_plain.1, kept, fun a' e' matched' _ => chosen_plain.2.2 a' e' matched' id⟩
          cases better
          exact reports_fast.head.trans reports_plain.head.symm

theorem corresponds_bytes {text : List UInt8} (single : text.all (fun b => decide (b.toNat < Runeself)) = true) (s : Nat) :
    Corresponds text s (text.map UInt8.toNat) s := by
  have low (p : Nat) : uchar text p < Runeself := by
    rw [uchar]
    by_cases inside : p < text.length
    · rw [List.getD_eq_getElem _ _ inside]
      exact of_decide_eq_true (List.all_eq_true.mp single _ (List.getElem_mem inside))
    · rw [List.getD_eq_default _ _ (Nat.le_of_not_lt inside)]
      decide
  have rune (p : Nat) : Rregexec.rune (text.map UInt8.toNat) p = uchar text p := by
    rw [Rregexec.rune, uchar, show (0 : Nat) = UInt8.toNat 0 from rfl, List.getD_map]
  have here (k : Nat) : place text s k = s + k := by
    induction k with
    | zero => rfl
    | succ k ih => rw [place, ih, char_low text _ (low _), Nat.add_assoc]
  refine ⟨fun k => ?_, Iff.rfl, by rw [rune]⟩
  rw [rune, reads, here, char_low text _ (low _)]

/-- The program of `^ab`. -/
def anchored : Reprog := ⟨[.BOL 1, .RUNE 97 2, .RUNE 98 3, .END], 0, by decide, by decide⟩

theorem ended_of_loop {step : Config → Option Config} {first : Config} {fuel : Nat} {rv : Int} {mp : List Resub}
    (ends : (loop step fuel first).map (fun c => (c.phase, c.mp)) = some (.returned rv, mp)) :
    ∃ c, Reaches step first c ∧ c.phase = .returned rv ∧ c.mp = mp := by
  obtain ⟨c, last, same⟩ := Option.map_eq_some_iff.mp ends
  exact ⟨c, loop_reaches last, congrArg Prod.fst same, congrArg Prod.snd same⟩

theorem regexec_agrees_anchored :
    ((1 : Int) = 1 ∧ [(⟨some 0, some 2⟩ : Resub)].head? = [(⟨some 0, some 2⟩ : Resub)].head? ∧ (1 : Int) = 1 ∧
        [(⟨some 0, some 2⟩ : Resub)].head?.map (translate [97, 98] 0 0) = [(⟨some 0, some 2⟩ : Resub)].head?) ↔
      ∀ a e, Match anchored (reads [97, 98] 0) (opens [97, 98] 0) a e →
        ∃ b e', Match anchored (reads [97, 98] 0) (opens [97, 98] 0) b e' ∧
          ¬Missed anchored (reads [97, 98] 0) (opens [97, 98] 0) (decide (0 = 0)) b ∧ ([(⟨none, none⟩ : Resub)] = [] ∨ b ≤ a) := by
  have compiled : Regcomp.regcomp1 [94, 97, 98] false .ANY = .ok (anchored.insts, anchored.startinst) := rfl
  obtain ⟨c, run, phase, found⟩ := @ended_of_loop (step anchored [97, 98] (junk anchored [⟨none, none⟩] LISTSIZE))
    (start (junk anchored [⟨none, none⟩] LISTSIZE) 1) 50 1 [⟨some 0, some 2⟩] (by decide)
  obtain ⟨c', run', phase', found'⟩ := @ended_of_loop (step anchored [97, 98] (plain (junk anchored [⟨none, none⟩] LISTSIZE)))
    (start (plain (junk anchored [⟨none, none⟩] LISTSIZE)) 1) 50 1 [⟨some 0, some 2⟩] (by decide)
  obtain ⟨c'', run'', phase'', found''⟩ := @ended_of_loop (Rregexec.step anchored [97, 98] (junk anchored [⟨none, none⟩] LISTSIZE))
    (Rregexec.start (junk anchored [⟨none, none⟩] LISTSIZE) 1) 50 1 [⟨some 0, some 2⟩] (by decide)
  have by_fast : Returns anchored [97, 98] [⟨none, none⟩] 1 [⟨some 0, some 2⟩] := found ▸ .small run phase (by decide)
  have by_plain : PlainReturns anchored [97, 98] [⟨none, none⟩] 1 [⟨some 0, some 2⟩] := found' ▸ .small run' phase' (by decide)
  have by_runes : Rregexec.Returns anchored [97, 98] [⟨none, none⟩] 1 [⟨some 0, some 2⟩] := found'' ▸ .small run'' phase'' (by decide)
  have endless : Endless [⟨none, none⟩] := rfl
  exact regexec_agrees_iff compiled rfl endless endless (corresponds_bytes (by decide) 0) by_fast by_plain by_runes (by decide)

/-- In `x`, newline, `ab` the fast check goes past the line that matches. -/
theorem anchored_missed :
    Regcomp.regcomp [94, 97, 98] = .ok (anchored.insts, anchored.startinst) ∧
      Returns anchored [120, 10, 97, 98] [⟨none, none⟩] 0 [⟨none, none⟩] ∧
      PlainReturns anchored [120, 10, 97, 98] [⟨none, none⟩] 1 [⟨some 2, some 4⟩] ∧
      Rregexec.Returns anchored [120, 10, 97, 98] [⟨none, none⟩] 1 [⟨some 2, some 4⟩] := by
  obtain ⟨c, run, phase, found⟩ := @ended_of_loop (step anchored [120, 10, 97, 98] (junk anchored [⟨none, none⟩] LISTSIZE))
    (start (junk anchored [⟨none, none⟩] LISTSIZE) 1) 50 0 [⟨none, none⟩] (by decide)
  obtain ⟨c', run', phase', found'⟩ := @ended_of_loop (step anchored [120, 10, 97, 98] (plain (junk anchored [⟨none, none⟩] LISTSIZE)))
    (start (plain (junk anchored [⟨none, none⟩] LISTSIZE)) 1) 50 1 [⟨some 2, some 4⟩] (by decide)
  obtain ⟨c'', run'', phase'', found''⟩ := @ended_of_loop (Rregexec.step anchored [120, 10, 97, 98] (junk anchored [⟨none, none⟩] LISTSIZE))
    (Rregexec.start (junk anchored [⟨none, none⟩] LISTSIZE) 1) 50 1 [⟨some 2, some 4⟩] (by decide)
  have by_fast : Returns anchored [120, 10, 97, 98] [⟨none, none⟩] 0 c.mp := .small run phase (by decide)
  rw [found] at by_fast
  exact ⟨rfl, by_fast, found' ▸ .small run' phase' (by decide), found'' ▸ .small run'' phase'' (by decide)⟩

end Goken.Proofs.RegexecAgree
