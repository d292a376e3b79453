import Goken.Dotext
import Goken.Lib.Lists
import Mathlib.Data.List.Induction

/-! When 5l's literal pools are in reach. The ids of the words in the pool are
consecutive, and the word at index `i` was first used at least `4 * i` bytes
after the pool was started; so the first use of the first word is the one that
decides. The loop keeps the stretch that is open, so what it does is told from
the instructions. -/

namespace Goken.Proofs.Dotext
open Goken.Dotext Lib.Lists

variable {α : Type}

/-! Facts about the table. -/

private theorem optab_sizes : ∀ o ∈ optab, o.size = 0 ∨ 4 ≤ o.size := by decide

private theorem optab_small : ∀ o ∈ optab, o.size ≤ 24 := by decide

private theorem optab_tables : ∀ o ∈ optab, o.as = .ACASE ∨ o.as = .ABCASE → o.flag = none ∧ o.size ≠ 0 := by decide

private theorem optab_pool : ∀ o ∈ optab, o.flag = some .LPOOL ↔ o.as = .AB := by decide

theorem size_ge (p : Prog α) (present : p.size ≠ 0) : 4 ≤ p.size := by
  rcases optab_sizes p.o p.listed with zero | large
  · exact absurd zero present
  · exact large

theorem leaves_iff (p : Prog α) : p.leaves = (p.always && (p.as == .AB || p.as == .AMOVW && p.toPc)) := by
  have pool := optab_pool p.o p.listed
  have same : (p.o.flag == some .LPOOL) = (p.as == .AB) := by
    rw [Bool.eq_iff_iff, beq_iff_eq, beq_iff_eq]
    exact pool
  simp only [Prog.leaves, same]
  cases p.always <;> simp

/-! Lists of laid-out items. -/

@[simp] theorem uses_append (l r : List (Laid α)) : uses (l ++ r) = uses l ++ uses r := List.filterMap_append

@[simp] theorem words_append (l r : List (Laid α)) : words (l ++ r) = words l ++ words r := List.filterMap_append

@[simp] theorem words_prog (pc : Nat) (p : Prog α) (cond : Option Nat) : words [⟨pc, .prog p cond⟩] = [] := rfl

@[simp] theorem uses_prog (pc : Nat) (p : Prog α) (cond : Option Nat) :
    uses [⟨pc, .prog p cond⟩] = cond.toList.map (fun id => (pc, id)) := by
  cases cond <;> rfl

private theorem uses_words (ws : List (Word α)) : ∀ c, uses (place c (ws.map .word)) = [] := by
  induction ws with
  | nil => intro c; rfl
  | cons w ws ih => intro c; exact ih (c + 4)

/-- The words of a pool lie one after the other. -/
private theorem mem_words (ws : List (Word α)) : ∀ {c b : Nat}, ws.map Word.id = List.range' b ws.length → ∀ word,
    word ∈ words (place c (ws.map .word)) ↔ ∃ i, i < ws.length ∧ word = (c + 4 * i, b + i) := by
  induction ws with
  | nil => intro c b _ word; simp [place, words]
  | cons w ws ih =>
    intro c b ids word
    simp only [List.map_cons, List.length_cons, List.range'_succ, List.cons.injEq] at ids
    have shape : words (place c ((w :: ws).map .word)) = (c, w.id) :: words (place (c + 4) (ws.map .word)) := rfl
    rw [shape, List.mem_cons, ih ids.2, ids.1]
    constructor
    · rintro (rfl | ⟨i, small, rfl⟩)
      · exact ⟨0, by simp, by simp⟩
      · exact ⟨i + 1, by simp [small], by simp; omega⟩
    · rintro ⟨i, small, rfl⟩
      cases i with
      | zero => exact Or.inl (by simp)
      | succ i =>
        simp only [List.length_cons] at small
        exact Or.inr ⟨i, by omega, by simp; omega⟩

/-! The pool. -/

/-- The id of the first word. -/
def base (s : State α) : Nat := s.fresh - s.blitrl.length

/-- The pool and the uses that wait for it. -/
structure Pending (s : State α) (pending : List (Nat × Nat)) : Prop where
  size : s.size = 4 * s.blitrl.length
  ids : s.blitrl.map Word.id = List.range' (base s) s.blitrl.length
  old : s.blitrl.length ≤ s.fresh
  room : s.blitrl ≠ [] → s.start + 4 * s.blitrl.length ≤ s.c
  used : ∀ use ∈ pending, base s ≤ use.2 ∧ use.2 < s.fresh ∧ s.start + 4 * (use.2 - base s) ≤ use.1 ∧ use.1 + 4 ≤ s.c
  first : s.blitrl ≠ [] → (s.start, base s) ∈ pending

private theorem pending_advance {s : State α} {pending : List (Nat × Nat)} (valid : Pending s pending) (n : Nat) :
    Pending { s with c := s.c + n } pending :=
  ⟨valid.size, valid.ids, valid.old, fun some_ => Nat.le_trans (valid.room some_) (Nat.le_add_right _ _),
    fun use member => by have := valid.used use member; exact ⟨this.1, this.2.1, this.2.2.1, by simp only; omega⟩,
    valid.first⟩

private theorem pending_flush (skip : Bool) (s : State α) : Pending (flush skip s).2 [] :=
  ⟨rfl, rfl, Nat.zero_le _, fun some_ => absurd rfl some_, fun use member => (by cases member), fun some_ => absurd rfl some_⟩

/-- A pool is in reach of all its uses if its first word is in reach of the
first one. -/
private theorem reaches_pool {s : State α} {pending : List (Nat × Nat)} (valid : Pending s pending)
    (nonempty : s.blitrl ≠ []) (c : Nat) (later : s.c ≤ c) :
    Reaches pending (words (place c (s.blitrl.map .word))) ↔ c < s.start + 4104 := by
  have old := valid.old
  constructor
  · intro reaches
    have some_ : 0 < s.blitrl.length := List.length_pos_iff.mpr nonempty
    have span := (reaches _ (valid.first nonempty)).2 (c, base s) ((mem_words _ valid.ids _).mpr ⟨0, some_, by simp⟩) rfl
    simp only [InSpan, abs_lt] at span
    omega
  · intro near use member
    obtain ⟨low, high, after, before⟩ := valid.used use member
    refine ⟨⟨(c + 4 * (use.2 - base s), use.2), (mem_words _ valid.ids _).mpr ⟨use.2 - base s, ?_, ?_⟩, rfl⟩, ?_⟩
    · simp only [base] at *
      omega
    · rw [Nat.add_sub_cancel' low]
    · intro word inside same
      obtain ⟨i, small, rfl⟩ := (mem_words _ valid.ids word).mp inside
      simp only [InSpan, abs_lt] at *
      omega

private theorem base_flush (skip : Bool) (s : State α) : base (flush skip s).2 = s.fresh := rfl

private theorem uses_flush (skip : Bool) (s : State α) : uses (flush skip s).1 = [] := by
  cases skip with
  | false => exact uses_words s.blitrl s.c
  | true => exact uses_words s.blitrl (s.c + 4)

private theorem words_flush (skip : Bool) (s : State α) :
    words (flush skip s).1 = words (place (s.c + if skip then 4 else 0) (s.blitrl.map .word)) := by
  cases skip <;> rfl

/-! What an iteration appends. -/

variable [DecidableEq α]

/-- The two ways an iteration flushes. -/
inductive Flush where
  | none | plain | forced
  deriving DecidableEq

def flushKind (p : Prog α) (last : Bool) (pc : Nat) (t : State α) : Flush :=
  if t.blitrl = [] then .none
  else if p.leaves ∧ 2048 ≤ (pc + t.size - t.start : Int) then .plain
  else if threatens pc last t then .forced
  else .none

/-- The outcome of an iteration, by the way it flushes. -/
theorem step_eq {p : Prog α} (present : p.size ≠ 0) (last : Bool) (s : State α) :
    step p last s =
      match flushKind p last s.c (load p s).2 with
      | .none => ([⟨s.c, .prog p (load p s).1⟩], (load p s).2)
      | .plain => (⟨s.c, .prog p (load p s).1⟩ :: (flush false (load p s).2).1, (flush false (load p s).2).2)
      | .forced => (⟨s.c, .prog p (load p s).1⟩ :: (flush true (load p s).2).1, (flush true (load p s).2).2) := by
  simp only [step, if_neg present, flushKind]
  generalize load p s = loaded
  obtain ⟨cond, t⟩ := loaded
  by_cases empty : t.blitrl = []
  · simp [empty, flushpool, checkpool]
  · by_cases leaves : p.leaves = true
    · by_cases far : 2048 ≤ (s.c + t.size - t.start : Int)
      · have near : ¬ (s.c + t.size - t.start : Int) < 2048 := by omega
        simp [empty, leaves, far, near, flushpool, checkpool, flush]
      · have near : (s.c + t.size - t.start : Int) < 2048 := by omega
        by_cases threat : threatens s.c last t = true
        · simp [empty, leaves, far, near, threat, flushpool, checkpool]
        · simp [empty, leaves, far, near, threat, flushpool, checkpool]
    · by_cases threat : threatens s.c last t = true
      · simp [empty, leaves, threat, flushpool, checkpool]
      · simp [empty, leaves, threat, checkpool]

/-- Pooling the literal of an instruction adds its use. -/
private theorem pending_addpool {s : State α} {pending : List (Nat × Nat)} (valid : Pending s pending) (lit : α) {n : Nat}
    (large : 4 ≤ n) :
    Pending (addpool s.c lit { s with c := s.c + n }).2
      (pending ++ [(s.c, (addpool s.c lit { s with c := s.c + n }).1)]) := by
  obtain ⟨c, blitrl, size, start, fresh⟩ := s
  have advanced := pending_advance valid n
  simp only [addpool]
  cases found : blitrl.find? (fun q => q.lit == lit) with
  | some q =>
    simp only
    have member := List.mem_of_find?_eq_some found
    obtain ⟨i, small, same⟩ := List.getElem_of_mem member
    have id : q.id = base ⟨c, blitrl, size, start, fresh⟩ + i := by
      have entry := congrArg (fun l => l[i]?) valid.ids
      simp only [List.getElem?_map, List.getElem?_eq_getElem small, same, Option.map_some, List.getElem?_range' small,
        Option.some.injEq, Nat.one_mul] at entry
      exact entry
    have nonempty : blitrl ≠ [] := List.ne_nil_of_mem member
    have room := valid.room nonempty
    have old := valid.old
    simp only [base] at id room old
    refine ⟨advanced.size, advanced.ids, advanced.old, advanced.room, ?_, fun some_ => ?_⟩
    · intro use present
      rcases List.mem_append.mp present with earlier | here
      · exact advanced.used use earlier
      · rw [List.mem_singleton] at here
        subst here
        simp only [base]
        omega
    · exact List.mem_append_left _ (advanced.first some_)
  | none =>
    simp only
    have old := valid.old
    have ids := valid.ids
    have size' := valid.size
    simp only [base] at old ids size'
    have start' : (if blitrl.isEmpty then c else start) + 4 * blitrl.length ≤ c := by
      cases blitrl with
      | nil => simp
      | cons w ws => simpa using valid.room (by simp)
    have same : base (⟨c + n, blitrl ++ [⟨fresh, lit⟩], size + 4, if blitrl.isEmpty then c else start, fresh + 1⟩ : State α) =
        fresh - blitrl.length := by
      simp only [base, List.length_append, List.length_singleton]
      omega
    refine ⟨?_, ?_, ?_, fun _ => ?_, ?_, fun _ => ?_⟩
    · simp only [List.length_append, List.length_singleton]
      omega
    · simp only [same, List.map_append, List.map_singleton, List.length_append, List.length_singleton, ids,
        List.range'_concat]
      congr 2
      omega
    · simp only [List.length_append, List.length_singleton]
      omega
    · simp only [List.length_append, List.length_singleton]
      omega
    · intro use present
      rw [same]
      rcases List.mem_append.mp present with earlier | here
      · have nonempty : blitrl.isEmpty = false := by
          cases blitrl with
          | nil => have := valid.used use earlier; simp [base] at this; omega
          | cons w ws => rfl
        have bounds := valid.used use earlier
        simp only [base] at bounds
        simp only [nonempty, Bool.false_eq_true, if_false]
        omega
      · rw [List.mem_singleton] at here
        subst here
        simp only
        omega
    · rw [same]
      cases blitrl with
      | nil => simp
      | cons w ws =>
        have := valid.first (by simp)
        simp only [base] at this
        exact List.mem_append_left _ this

private theorem pending_load {s : State α} {pending : List (Nat × Nat)} (valid : Pending s pending) {p : Prog α}
    (present : p.size ≠ 0) : Pending (load p s).2 (pending ++ uses [⟨s.c, .prog p (load p s).1⟩]) := by
  simp only [load, uses_prog]
  cases p.literal with
  | some lit => exact pending_addpool valid lit (size_ge p present)
  | none => simpa using pending_advance valid p.size

/-! Whole runs. -/

private theorem base_load {s : State α} {pending : List (Nat × Nat)} (valid : Pending s pending) (p : Prog α) :
    base s ≤ base (load p s).2 := by
  have old := valid.old
  simp only [load]
  cases p.literal with
  | none => exact Nat.le_refl _
  | some lit =>
    simp only [addpool]
    cases s.blitrl.find? (fun q => q.lit == lit) with
    | some q => exact Nat.le_refl _
    | none =>
      simp only [base, List.length_append, List.length_singleton]
      omega

/-- Words and uses that come later have later ids. -/
theorem run_ids (ps : List (Prog α)) : ∀ {s : State α} {pending : List (Nat × Nat)}, Pending s pending →
    (∀ word ∈ words (run s ps), base s ≤ word.2) ∧ ∀ use ∈ uses (run s ps), base s ≤ use.2 := by
  induction ps with
  | nil => intro s pending _; exact ⟨fun word member => (by cases member), fun use member => (by cases member)⟩
  | cons p ps ih =>
    intro s pending valid
    rw [run]
    by_cases present : p.size ≠ 0
    · have loaded := pending_load valid present
      have grows := base_load valid p
      have here : ∀ use ∈ uses [⟨s.c, .prog p (load p s).1⟩], base s ≤ use.2 := by
        intro use member
        have := (loaded.used use (List.mem_append_right _ member)).1
        omega
      have flushed : ∀ skip, (∀ word ∈ words (⟨s.c, .prog p (load p s).1⟩ :: (flush skip (load p s).2).1 ++
          run (flush skip (load p s).2).2 ps), base s ≤ word.2) ∧ ∀ use ∈ uses (⟨s.c, .prog p (load p s).1⟩ ::
          (flush skip (load p s).2).1 ++ run (flush skip (load p s).2).2 ps), base s ≤ use.2 := by
        intro skip
        obtain ⟨later, used⟩ := ih (pending_flush skip (load p s).2)
        have old := loaded.old
        simp only [base_flush] at later used
        have low : base (load p s).2 ≤ (load p s).2.fresh := Nat.sub_le _ _
        rw [← List.singleton_append, List.append_assoc]
        simp only [words_append, uses_append, words_prog, uses_flush, words_flush, List.nil_append, List.mem_append]
        refine ⟨?_, ?_⟩
        · rintro word (member | member)
          · obtain ⟨i, _, rfl⟩ := (mem_words _ loaded.ids word).mp member
            simp only
            omega
          · have := later word member
            omega
        · rintro use (member | member)
          · exact here use member
          · have := used use member
            omega
      rw [step_eq present]
      cases flushKind p ps.isEmpty s.c (load p s).2 with
      | none =>
        obtain ⟨later, used⟩ := ih loaded
        simp only [words_append, uses_append, words_prog, List.nil_append, List.mem_append]
        refine ⟨fun word member => Nat.le_trans grows (later word member), ?_⟩
        rintro use (member | member)
        · exact here use member
        · exact Nat.le_trans grows (used use member)
      | plain => exact flushed false
      | forced => exact flushed true
    · have zero := not_not.mp present
      simp only [step, if_pos zero, words_append, uses_append, words_prog, uses_prog, Option.toList_none, List.map_nil,
        List.nil_append]
      exact ih valid

/-- Flushing settles the uses that were waiting. -/
private theorem reaches_flush {s : State α} {pending : List (Nat × Nat)} (valid : Pending s pending)
    (nonempty : s.blitrl ≠ []) (skip : Bool) (ps : List (Prog α)) :
    Reaches (pending ++ uses (run (flush skip s).2 ps)) (words (flush skip s).1 ++ words (run (flush skip s).2 ps)) ↔
      s.c + (if skip then 4 else 0) < s.start + 4104 ∧
      Reaches (uses (run (flush skip s).2 ps)) (words (run (flush skip s).2 ps)) := by
  obtain ⟨later, used⟩ := run_ids ps (pending_flush skip s)
  simp only [base_flush] at later used
  have old := valid.old
  have pool := reaches_pool valid nonempty (s.c + if skip then 4 else 0) (Nat.le_add_right _ _)
  have low : ∀ word ∈ words (flush skip s).1, word.2 < s.fresh := by
    intro word member
    rw [words_flush] at member
    obtain ⟨i, small, rfl⟩ := (mem_words _ valid.ids word).mp member
    simp only [base]
    omega
  rw [← pool, ← words_flush]
  constructor
  · intro reaches
    refine ⟨fun use member => ?_, fun use member => ?_⟩
    · obtain ⟨⟨word, found, same⟩, spans⟩ := reaches use (List.mem_append_left _ member)
      refine ⟨⟨word, ?_, same⟩, fun other inside => spans other (List.mem_append_left _ inside)⟩
      rcases List.mem_append.mp found with here | after
      · exact here
      · have := later word after
        have := (valid.used use member).2.1
        omega
    · obtain ⟨⟨word, found, same⟩, spans⟩ := reaches use (List.mem_append_right _ member)
      refine ⟨⟨word, ?_, same⟩, fun other inside => spans other (List.mem_append_right _ inside)⟩
      rcases List.mem_append.mp found with here | after
      · have := low word here
        have := used use member
        omega
      · exact after
  · rintro ⟨first, second⟩ use member
    rcases List.mem_append.mp member with waiting | new
    · obtain ⟨⟨word, found, same⟩, spans⟩ := first use waiting
      refine ⟨⟨word, List.mem_append_left _ found, same⟩, fun other inside equal => ?_⟩
      rcases List.mem_append.mp inside with here | after
      · exact spans other here equal
      · have := later other after
        have := (valid.used use waiting).2.1
        omega
    · obtain ⟨⟨word, found, same⟩, spans⟩ := second use new
      refine ⟨⟨word, List.mem_append_right _ found, same⟩, fun other inside equal => ?_⟩
      rcases List.mem_append.mp inside with here | after
      · have := low other here
        have := used use new
        omega
      · exact spans other after equal

/-! Execution never falls into a pool. -/

omit [DecidableEq α] in
private theorem guarded_words (ws : List (Word α)) {out : List (Laid α)} (rest : ∀ falls, Guarded falls out) :
    ∀ c, Guarded false (place c (ws.map .word) ++ out) := by
  induction ws with
  | nil => intro c; exact rest false
  | cons w ws ih => intro c; exact ⟨fun _ => rfl, ih (c + 4)⟩

theorem run_guarded (ps : List (Prog α)) : ∀ (s : State α) (falls : Bool), Guarded falls (run s ps) := by
  induction ps with
  | nil => intro s falls; exact trivial
  | cons p ps ih =>
    intro s falls
    rw [run]
    by_cases present : p.size ≠ 0
    · rw [step_eq present]
      cases kind : flushKind p ps.isEmpty s.c (load p s).2 with
      | none => exact ⟨fun word => (by cases word), ih _ _⟩
      | plain =>
        have leaves : p.leaves = true := by
          simp only [flushKind] at kind
          split at kind
          · cases kind
          · split at kind
            next both => exact both.1
            next => split at kind <;> cases kind
        refine ⟨fun word => (by cases word), ?_⟩
        have stops : (Item.prog p (load p s).1).falls = false := by
          simp only [Item.falls, ← leaves_iff, leaves, Bool.not_true]
        simp only [stops]
        exact guarded_words _ (fun falls => ih _ falls) _
      | forced =>
        refine ⟨fun word => (by cases word), fun word => (by cases word), ?_⟩
        exact guarded_words _ (fun falls => ih _ falls) _
    · have zero := not_not.mp present
      simp only [step, if_pos zero]
      exact ⟨fun word => (by cases word), ih _ _⟩

/-! Jump tables. -/

private theorem run_head (ps : List (Prog α)) (s : State α) :
    (run s ps).head?.any (·.item.inserted) = false ∧
    ((run s ps).dropWhile (·.item.inserted)).head?.any (·.item.isEntry) = ps.head?.any (·.as == .ABCASE) := by
  cases ps with
  | nil => exact ⟨rfl, rfl⟩
  | cons p ps =>
    have first : ∃ cond rest, run s (p :: ps) = ⟨s.c, .prog p cond⟩ :: rest := by
      rw [run]
      by_cases present : p.size ≠ 0
      · rw [step_eq present]
        cases flushKind p ps.isEmpty s.c (load p s).2 <;> exact ⟨_, _, rfl⟩
      · exact ⟨none, _, by simp only [step, if_pos (not_not.mp present)]; rfl⟩
    obtain ⟨cond, rest, shape⟩ := first
    rw [shape]
    refine ⟨rfl, ?_⟩
    rw [List.dropWhile_cons_of_neg (by simp [Item.inserted])]
    rfl

omit [DecidableEq α] in
private theorem contiguous_place (items : List (Item α)) (inserted : ∀ i ∈ items, i.inserted = true) (out : List (Laid α)) :
    ∀ c, Contiguous (place c items ++ out) ↔ Contiguous out := by
  induction items with
  | nil => intro c; exact Iff.rfl
  | cons i items ih =>
    intro c
    have closed : i.opens = false := by
      have := inserted i (by simp)
      cases i <;> simp_all [Item.inserted, Item.opens]
    have rest := ih (fun j member => inserted j (by simp [member])) (c + 4)
    simp only [place, List.cons_append, Contiguous, splits, closed, Bool.false_and, true_and, rest]

omit [DecidableEq α] in
private theorem dropWhile_place (items : List (Item α)) (inserted : ∀ i ∈ items, i.inserted = true) (out : List (Laid α)) :
    ∀ c, (place c items ++ out).dropWhile (·.item.inserted) = out.dropWhile (·.item.inserted) := by
  induction items with
  | nil => intro c; rfl
  | cons i items ih =>
    intro c
    rw [place, List.cons_append, List.dropWhile_cons_of_pos (by simpa using inserted i (by simp))]
    exact ih (fun j member => inserted j (by simp [member])) (c + 4)

/-- A flush after `p` splits a table exactly when `p` and its successor are in one. -/
private theorem contiguous_flush {s : State α} (nonempty : s.blitrl ≠ []) (skip : Bool) (pc : Nat) (p : Prog α)
    (cond : Option Nat) (ps : List (Prog α)) :
    Contiguous (⟨pc, .prog p cond⟩ :: (flush skip s).1 ++ run (flush skip s).2 ps) ↔
      inTable p ps = false ∧ Contiguous (run (flush skip s).2 ps) := by
  have inserted : ∀ i ∈ (if skip then [Item.skip] else []) ++ s.blitrl.map Item.word, i.inserted = true := by
    intro i member
    rcases List.mem_append.mp member with glue | word
    · cases skip with
      | false => cases glue
      | true => rw [List.mem_singleton.mp glue]; rfl
    · obtain ⟨w, _, rfl⟩ := List.mem_map.mp word
      rfl
  have some_ : ((flush skip s).1 ++ run (flush skip s).2 ps).head?.any (·.item.inserted) = true := by
    obtain ⟨w, ws, shape⟩ := List.exists_cons_of_ne_nil nonempty
    cases skip <;> simp [flush, place, shape, Item.inserted]
  have dropped : ((flush skip s).1 ++ run (flush skip s).2 ps).dropWhile (·.item.inserted) =
      (run (flush skip s).2 ps).dropWhile (·.item.inserted) := dropWhile_place _ inserted _ _
  have rest : Contiguous ((flush skip s).1 ++ run (flush skip s).2 ps) ↔ Contiguous (run (flush skip s).2 ps) :=
    contiguous_place _ inserted _ _
  have entry := (run_head ps (flush skip s).2).2
  simp only [List.cons_append, Contiguous, splits, some_, dropped, entry, rest, Bool.and_true]
  rfl

private theorem contiguous_next {s : State α} (pc : Nat) (p : Prog α) (cond : Option Nat) (ps : List (Prog α)) :
    Contiguous ([⟨pc, .prog p cond⟩] ++ run s ps) ↔ Contiguous (run s ps) := by
  have first := (run_head ps s).1
  simp only [List.singleton_append, Contiguous, splits, first, Bool.and_false, Bool.false_and, true_and]

omit [DecidableEq α] in
private theorem not_inTable {p : Prog α} (leaves : p.leaves = true) (ps : List (Prog α)) : inTable p ps = false := by
  rw [leaves_iff, Bool.and_eq_true, Bool.or_eq_true, Bool.and_eq_true] at leaves
  rcases leaves.2 with branch | ⟨move, _⟩
  · simp [inTable, beq_iff_eq.mp branch]
  · simp [inTable, beq_iff_eq.mp move]

/-- Before the iteration for `p`: if it will flush the pool, the pool starts in
reach of its first use, and a forced flush does not hit a jump table. -/
def Safe (p : Prog α) (link : List (Prog α)) (s : State α) : Prop :=
  let t := (load p s).2
  p.size ≠ 0 → t.blitrl ≠ [] →
    if p.leaves ∧ 2048 ≤ (s.c + t.size - t.start : Int) then t.c < t.start + 4104
    else threatens s.c link.isEmpty t → t.c + 4 < t.start + 4104 ∧ inTable p link = false

instance decidableSafe (p : Prog α) (link : List (Prog α)) (s : State α) : Decidable (Safe p link s) :=
  inferInstanceAs (Decidable (_ → _ → ite _ _ _))

/-- Every iteration is safe, and no literal is left over at the end. -/
def SafeRun : State α → List (Prog α) → Prop
  | s, [] => s.blitrl = []
  | s, p :: link => Safe p link s ∧ SafeRun (step p link.isEmpty s).2 link

instance decidableSafeRun : (s : State α) → (ps : List (Prog α)) → Decidable (SafeRun s ps)
  | s, [] => inferInstanceAs (Decidable (s.blitrl = []))
  | s, p :: link =>
    have := decidableSafeRun (step p link.isEmpty s).2 link
    inferInstanceAs (Decidable (Safe p link s ∧ SafeRun (step p link.isEmpty s).2 link))

/-- From any state of the loop, the rest of the layout is good if and only if
every iteration that is left is safe. -/
theorem run_sound_iff (ps : List (Prog α)) : ∀ {s : State α} {pending : List (Nat × Nat)}, Pending s pending →
    (Reaches (pending ++ uses (run s ps)) (words (run s ps)) ∧ Contiguous (run s ps) ↔ SafeRun s ps) := by
  induction ps with
  | nil =>
    intro s pending valid
    constructor
    · intro sound
      by_contra nonempty
      obtain ⟨⟨word, missing, _⟩, _⟩ := sound.1 _ (List.mem_append_left _ (valid.first nonempty))
      cases missing
    · intro empty
      refine ⟨fun use member => ?_, trivial⟩
      have bounds := valid.used use (by simpa [run, uses] using member)
      have last : s.blitrl.length = 0 := by rw [show s.blitrl = [] from empty]; rfl
      simp only [base, last] at bounds
      omega
  | cons p ps ih =>
    intro s pending valid
    rw [run, SafeRun]
    by_cases present : p.size ≠ 0
    · have loaded := pending_load valid present
      have flushed : ∀ skip, (load p s).2.blitrl ≠ [] →
          (Reaches (pending ++ uses (⟨s.c, .prog p (load p s).1⟩ :: (flush skip (load p s).2).1 ++
              run (flush skip (load p s).2).2 ps))
            (words (⟨s.c, .prog p (load p s).1⟩ :: (flush skip (load p s).2).1 ++ run (flush skip (load p s).2).2 ps)) ∧
            Contiguous (⟨s.c, .prog p (load p s).1⟩ :: (flush skip (load p s).2).1 ++ run (flush skip (load p s).2).2 ps) ↔
          ((load p s).2.c + (if skip then 4 else 0) < (load p s).2.start + 4104 ∧ inTable p ps = false) ∧
            SafeRun (flush skip (load p s).2).2 ps) := by
        intro skip nonempty
        have settled := reaches_flush loaded nonempty skip ps
        have next := ih (pending_flush skip (load p s).2)
        rw [List.nil_append] at next
        rw [contiguous_flush nonempty, ← next, ← List.singleton_append, List.append_assoc, uses_append, words_append,
          uses_append, words_append, words_prog, uses_flush, List.nil_append, List.nil_append, ← List.append_assoc, settled]
        tauto
      rw [step_eq present]
      have kind : flushKind p ps.isEmpty s.c (load p s).2 = flushKind p ps.isEmpty s.c (load p s).2 := rfl
      conv at kind => rhs; rw [flushKind]
      split at kind
      next empty =>
        rw [kind]
        have safe : Safe p ps s := fun _ nonempty => absurd empty nonempty
        simp only [safe, true_and, ← ih loaded, contiguous_next, uses_append, words_append, words_prog, List.nil_append,
          List.append_assoc]
      next nonempty =>
        split at kind
        next plain =>
          rw [kind]
          have safe : Safe p ps s ↔ (load p s).2.c < (load p s).2.start + 4104 := by
            simp only [Safe, if_pos plain]
            exact ⟨fun all => all present nonempty, fun near _ _ => near⟩
          have whole := flushed false nonempty
          simp only [not_inTable plain.1 ps, and_true, Bool.false_eq_true, if_false, Nat.add_zero] at whole
          rw [safe]
          exact whole
        next stays =>
          split at kind
          next threat =>
            rw [kind]
            have safe : Safe p ps s ↔ (load p s).2.c + 4 < (load p s).2.start + 4104 ∧ inTable p ps = false := by
              simp only [Safe, if_neg stays]
              exact ⟨fun all => all present nonempty threat, fun near _ _ _ => near⟩
            rw [safe]
            exact flushed true nonempty
          next calm =>
            rw [kind]
            have safe : Safe p ps s := by
              simp only [Safe, if_neg stays]
              exact fun _ _ threat => absurd threat calm
            simp only [safe, true_and, ← ih loaded, contiguous_next, uses_append, words_append, words_prog,
              List.nil_append, List.append_assoc]
    · have zero := not_not.mp present
      have safe : Safe p ps s := fun some_ => absurd zero some_
      simp only [step, if_pos zero, safe, true_and, ← ih valid, contiguous_next, uses_append, words_append, words_prog,
        uses_prog, Option.toList_none, List.map_nil, List.nil_append]

omit [DecidableEq α] in
private theorem pending_start (c : Nat) : Pending (⟨c, [], 0, 0, 0⟩ : State α) [] :=
  ⟨rfl, rfl, Nat.le_refl 0, fun some_ => absurd rfl some_, fun use member => (by cases member), fun some_ => absurd rfl some_⟩

/-! The loop and the stretch. -/

section Stretch

variable {s : State α} {B : List (Prog α)} {q : Prog α}

omit [DecidableEq α] in
private theorem bytes_snoc (B : List (Prog α)) (q : Prog α) : bytes (B ++ [q]) = bytes B + q.size := by simp [bytes]

/-- The pool is that of the stretch `B`: its literals, each of them once, and what is between
its first use and the address counter. -/
structure Tracks (s : State α) (B : List (Prog α)) : Prop where
  size : s.size = 4 * s.blitrl.length
  once : (s.blitrl.map Word.lit).Nodup
  lits : ∀ lit, lit ∈ s.blitrl.map Word.lit ↔ lit ∈ B.filterMap Prog.literal
  empty : B = [] ↔ s.blitrl = []
  start : B ≠ [] → s.start + bytes B = s.c

private theorem tracks_literals (tracks : Tracks s B) : s.size = 4 * literals B := by
  have same : (s.blitrl.map Word.lit).Perm (B.filterMap Prog.literal).dedup := by
    rw [List.perm_ext_iff_of_nodup tracks.once (List.nodup_dedup _)]
    exact fun lit => by rw [tracks.lits, List.mem_dedup]
  rw [tracks.size, literals, ← same.length_eq, List.length_map]

omit [DecidableEq α] in
private theorem tracks_flush (skip : Bool) (s : State α) : Tracks (flush skip s).2 [] :=
  ⟨rfl, List.nodup_nil, fun lit => Iff.rfl, by simp [flush], fun some => absurd rfl some⟩

private theorem tracks_addpool (tracks : Tracks s B) {lit : α} (uses : q.literal = some lit) :
    Tracks (addpool s.c lit { s with c := s.c + q.size }).2 (B ++ [q]) := by
  have start : ∀ start', (B ≠ [] → start' = s.start) → (B = [] → start' = s.c) → start' + bytes (B ++ [q]) = s.c + q.size := by
    intro start' later first
    rw [bytes_snoc]
    by_cases empty : B = []
    · simp [empty, bytes, first empty]
    · have := tracks.start empty
      rw [later empty]
      omega
  have lits : ∀ l, l ∈ (B ++ [q]).filterMap Prog.literal ↔ l ∈ B.filterMap Prog.literal ∨ l = lit := by
    simp [List.filterMap_append, uses]
  simp only [addpool]
  cases found : s.blitrl.find? (fun w => w.lit == lit) with
  | some w =>
    have member := List.mem_of_find?_eq_some found
    have same : w.lit = lit := by simpa using List.find?_some found
    have inside : lit ∈ s.blitrl.map Word.lit := List.mem_map.mpr ⟨w, member, same⟩
    have some : s.blitrl ≠ [] := List.ne_nil_of_mem member
    refine ⟨tracks.size, tracks.once, fun l => ?_, by simp [some], fun _ => ?_⟩
    · rw [lits, ← tracks.lits]
      exact ⟨Or.inl, fun either => either.elim id fun equal => equal ▸ inside⟩
    · exact start s.start (fun _ => rfl) fun none => absurd (tracks.empty.mp none) some
  | none =>
    have missing : lit ∉ s.blitrl.map Word.lit := by
      rintro member
      obtain ⟨w, inside, same⟩ := List.mem_map.mp member
      have := List.find?_eq_none.mp found w inside
      simp [same] at this
    refine ⟨?_, ?_, fun l => ?_, by simp, fun _ => ?_⟩
    · simp only [List.length_append, List.length_singleton, tracks.size]
      omega
    · rw [List.map_append, List.nodup_append]
      refine ⟨tracks.once, by simp, fun a inside b single => ?_⟩
      obtain rfl : b = lit := List.mem_singleton.mp single
      exact fun equal => missing (equal ▸ inside)
    · rw [lits, List.map_append, List.mem_append, tracks.lits]
      simp
    · apply start
      · intro some
        have old : s.blitrl ≠ [] := fun none => some (tracks.empty.mpr none)
        simp [old]
      · intro none
        simp [tracks.empty.mp none]

private theorem tracks_load (tracks : Tracks s B) (present : q.size ≠ 0) : Tracks (load q s).2 (extend B q) := by
  simp only [load, extend]
  cases uses : q.literal with
  | some lit =>
    rw [if_neg (by simp [present])]
    exact tracks_addpool tracks uses
  | none =>
    by_cases empty : B = []
    · rw [if_pos (Or.inr ⟨empty, rfl⟩)]
      exact ⟨tracks.size, tracks.once, tracks.lits, tracks.empty, fun some => absurd empty some⟩
    · rw [if_neg (by simp [present, empty])]
      refine ⟨tracks.size, tracks.once, fun lit => ?_, ?_, fun _ => ?_⟩
      · rw [tracks.lits]
        simp [List.filterMap_append, uses]
      · exact ⟨fun none => by simp at none, fun none => absurd (tracks.empty.mpr none) empty⟩
      · rw [bytes_snoc]
        have := tracks.start empty
        simp only
        omega

omit [DecidableEq α] in
private theorem extend_some (present : q.size ≠ 0) (some : extend B q ≠ []) : extend B q = B ++ [q] := by
  unfold extend at some ⊢
  split at some
  next none =>
    rcases none with zero | both
    · exact absurd zero present
    · exact absurd both.1 some
  next new => rw [if_neg new]

/-- With a pool the tests of the loop are those of the stretch. -/
private theorem tests (tracks : Tracks s B) (present : q.size ≠ 0) (some : extend B q ≠ []) :
    ((s.c + (load q s).2.size - (load q s).2.start : Int) = bytes B + 4 * literals (B ++ [q])) ∧
      (load q s).2.start + bytes (B ++ [q]) = (load q s).2.c ∧ (load q s).2.c = s.c + q.size := by
  have whole := extend_some present some
  have loaded := tracks_load tracks present
  rw [whole] at loaded
  have start := loaded.start (by simp)
  have size := tracks_literals loaded
  have counter : (load q s).2.c = s.c + q.size := by
    simp only [load]
    cases q.literal with
    | none => rfl
    | some lit =>
      simp only [addpool]
      split <;> rfl
  refine ⟨?_, start, counter⟩
  rw [bytes_snoc] at start
  omega

private theorem far_iff (tracks : Tracks s B) (present : q.size ≠ 0) (some : extend B q ≠ []) :
    (q.leaves = true ∧ 2048 ≤ (s.c + (load q s).2.size - (load q s).2.start : Int)) ↔ far B q = true := by
  rw [(tests tracks present some).1, far, Bool.and_eq_true, decide_eq_true_eq]
  exact and_congr_right fun _ => by omega

private theorem threatens_iff (tracks : Tracks s B) (present : q.size ≠ 0) (some : extend B q ≠ []) (last : Bool) :
    threatens s.c last (load q s).2 = due last B q := by
  obtain ⟨distance, _⟩ := tests tracks present some
  have whole := extend_some present some
  have size := tracks_literals (tracks_load tracks present)
  rw [whole] at size
  have room : immaddr ((s.c + 4 : Int) + 4 + (load q s).2.size - (load q s).2.start + 8) =
      !decide (4080 ≤ bytes B + 4 * literals (B ++ [q])) := by
    have sum : (s.c + 4 : Int) + 4 + (load q s).2.size - (load q s).2.start + 8 = bytes B + 4 * literals (B ++ [q]) + 16 := by omega
    rw [sum, Bool.eq_iff_iff]
    simp only [immaddr, Bool.or_eq_true, Bool.and_eq_true, decide_eq_true_eq, Bool.not_eq_true', decide_eq_false_iff_not]
    omega
  rw [threatens, due, room, Bool.not_not, size]

/-- The loop flushes where the stretch is dropped. -/
private theorem flushKind_eq (tracks : Tracks s B) (present : q.size ≠ 0) (last : Bool) :
    flushKind q last s.c (load q s).2 =
      if drops last B q then (if far B q then Flush.plain else .forced) else .none := by
  have loaded := tracks_load tracks present
  by_cases none : extend B q = []
  · rw [flushKind, if_pos (loaded.empty.mp none), if_neg (by simp [drops, none])]
  · have pool : (load q s).2.blitrl ≠ [] := fun empty => none (loaded.empty.mpr empty)
    have plain := far_iff tracks present none
    have dropped : drops last B q = (far B q || due last B q) := by simp [drops, present, none]
    simp only [flushKind, if_neg pool, plain, threatens_iff tracks present none, dropped]
    cases far B q <;> cases due last B q <;> rfl

private theorem tracks_step (tracks : Tracks s B) (last : Bool) :
    Tracks (step q last s).2 (if drops last B q then [] else extend B q) := by
  by_cases present : q.size ≠ 0
  · rw [step_eq present, flushKind_eq tracks present]
    by_cases dropped : drops last B q = true
    · rw [if_pos dropped, if_pos dropped]
      cases far B q <;> exact tracks_flush _ _
    · rw [if_neg dropped, if_neg dropped]
      exact tracks_load tracks present
  · have zero := not_not.mp present
    have none : drops last B q = false := by simp [drops, zero]
    simp only [step, none, Bool.false_eq_true, if_false, extend, zero, true_or, if_true]
    exact tracks

private theorem clear_iff (tracks : Tracks s B) (R : List (Prog α)) :
    Safe q R s ↔ (drops R.isEmpty B q → bytes B + q.size < limit B q ∧ inTable q R = false) := by
  by_cases present : q.size ≠ 0
  · have loaded := tracks_load tracks present
    by_cases none : extend B q = []
    · have empty := loaded.empty.mp none
      have stays : drops R.isEmpty B q = false := by simp [drops, none]
      simp [Safe, empty, stays]
    · have pool : (load q s).2.blitrl ≠ [] := fun empty => none (loaded.empty.mpr empty)
      obtain ⟨_, start, _⟩ := tests tracks present none
      rw [bytes_snoc] at start
      have plain := far_iff tracks present none
      have dropped : drops R.isEmpty B q = (far B q || due R.isEmpty B q) := by simp [drops, present, none]
      simp only [Safe, plain, threatens_iff tracks present none, dropped, limit]
      by_cases farther : far B q = true
      · have leaves : q.leaves = true := by
          rw [far, Bool.and_eq_true] at farther
          exact farther.1
        simp only [farther, if_true, Bool.true_or, true_implies, not_inTable leaves R, and_true]
        exact ⟨fun all => by have := all present pool; omega, fun near _ _ => by omega⟩
      · rw [if_neg farther, if_neg farther, Bool.eq_false_iff.mpr farther, Bool.false_or]
        constructor
        · intro all threat
          obtain ⟨near, apart⟩ := all present pool threat
          exact ⟨by omega, apart⟩
        · intro all _ _ threat
          obtain ⟨near, apart⟩ := all threat
          exact ⟨by omega, apart⟩
  · have zero := not_not.mp present
    have stays : drops R.isEmpty B q = false := by simp [drops, zero]
    simp [Safe, zero, stays]

private theorem stretch_snoc (A : List (Prog α)) (q : Prog α) :
    stretch (A ++ [q]) = if drops false (stretch A) q then [] else extend (stretch A) q := by
  rw [stretch, stretch, List.foldl_append]
  rfl

/-- Behind the last of an open stretch the pool was not due. -/
private theorem stretch_open {A : List (Prog α)} : ∀ {B : List (Prog α)} {p : Prog α}, stretch A = B ++ [p] →
    bytes B + 4 * literals (B ++ [p]) < 4080 := by
  induction A using List.reverseRecOn with
  | nil => intro B p shape; simp [stretch] at shape
  | append_singleton A q ih =>
    intro B p shape
    rw [stretch_snoc] at shape
    split at shape
    next => simp at shape
    next stays =>
      by_cases same : q.size = 0 ∨ (stretch A = [] ∧ q.literal = none)
      · rw [extend, if_pos same] at shape
        exact ih shape
      · have whole : extend (stretch A) q = stretch A ++ [q] := if_neg same
        obtain ⟨rfl, rfl⟩ := List.append_singleton_inj.mp (whole.symm.trans shape)
        have present : q.size ≠ 0 := fun zero => same (Or.inl zero)
        have calm : due false (stretch A) q = false := by
          simp only [drops, whole] at stays
          simp [present] at stays
          exact stays.2
        simp only [due, Bool.false_or, Bool.or_eq_false_iff, decide_eq_false_iff_not] at calm
        omega

/-- An open stretch is made of the instructions behind which it is open, and it has a literal. -/
private theorem stretch_mem (A : List (Prog α)) : stretch A ⊆ A ∧ (stretch A ≠ [] → 1 ≤ literals (stretch A)) := by
  induction A using List.reverseRecOn with
  | nil => exact ⟨fun p member => by simp [stretch] at member, fun some => absurd rfl some⟩
  | append_singleton A q ih =>
    obtain ⟨sub, used⟩ := ih
    have old : stretch A ⊆ A ++ [q] := fun p member => List.mem_append_left _ (sub member)
    rw [stretch_snoc]
    split
    · exact ⟨List.nil_subset _, fun some => absurd rfl some⟩
    · by_cases same : q.size = 0 ∨ (stretch A = [] ∧ q.literal = none)
      · rw [extend, if_pos same]
        exact ⟨old, used⟩
      · rw [extend, if_neg same]
        refine ⟨fun p member => ?_, fun _ => ?_⟩
        · rcases List.mem_append.mp member with earlier | here
          · exact old earlier
          · exact List.mem_append_right _ here
        · have some : (stretch A ++ [q]).filterMap Prog.literal ≠ [] := by
            intro none
            rw [List.filterMap_append, List.append_eq_nil_iff] at none
            have unused : q.literal = Option.none := by simpa using none.2
            have filled : stretch A ≠ [] := fun empty => same (Or.inr ⟨empty, unused⟩)
            have := used filled
            rw [literals, none.1] at this
            exact absurd this (Nat.not_succ_le_zero 0)
          rw [literals]
          exact List.length_pos_iff.mpr fun none => some ((List.dedup_eq_nil _).mp none)

private theorem sits_iff {A : List (Prog α)} (tracks : Tracks s (stretch A)) (R : List (Prog α)) :
    Sits A q R ↔ Safe q R s ∧ (R = [] → q.size = 0 → s.blitrl = []) := by
  rw [clear_iff tracks, ← tracks.empty]
  constructor
  · rintro ⟨reach, table, last⟩
    refine ⟨fun dropped => ⟨?_, ?_⟩, last⟩
    · have least : 4100 ≤ limit (stretch A) q := by
        unfold limit
        split <;> omega
      have small := optab_small q.o q.listed
      rcases List.eq_nil_or_concat (stretch A) with none | ⟨B, p, shape⟩
      · rw [none] at least ⊢
        have : q.size ≤ 24 := small
        simp only [bytes, List.map_nil, List.sum_nil]
        omega
      · rw [List.concat_eq_append] at shape
        have early := stretch_open shape
        have whole : bytes (stretch A) = bytes B + p.size := by rw [shape, bytes_snoc]
        by_cases late : limit (stretch A) q + 4 * literals (stretch A) < 4080 + p.size + q.size
        · exact reach B p shape dropped late
        · rw [← shape] at early
          omega
    · cases within : inTable q R with
      | false => rfl
      | true =>
        have more : R.isEmpty = false := by
          cases R with
          | nil => simp [inTable] at within
          | cons r R => rfl
        rw [more, table within] at dropped
        cases dropped
  · rintro ⟨safe, last⟩
    refine ⟨fun B p _ dropped _ => (safe dropped).1, fun within => ?_, last⟩
    have more : R.isEmpty = false := by
      cases R with
      | nil => simp [inTable] at within
      | cons r R => rfl
    rw [more] at safe
    cases dropped : drops false (stretch A) q with
    | false => rfl
    | true =>
      have apart := (safe dropped).2
      rw [within] at apart
      cases apart

/-- The loop is safe if every instruction that is left stands well. -/
private theorem safeRun_iff (ps : List (Prog α)) (some : ps ≠ []) : ∀ {s : State α} {A : List (Prog α)}, Tracks s (stretch A) →
    (SafeRun s ps ↔ ∀ A' q R, ps = A' ++ q :: R → Sits (A ++ A') q R) := by
  induction ps with
  | nil => exact absurd rfl some
  | cons q ps ih =>
    intro s A tracks
    refine Iff.trans ?_ (cuts_cons A).symm
    rw [sits_iff tracks, SafeRun, and_assoc]
    refine and_congr_right fun _ => ?_
    cases ps with
    | nil =>
      have next := tracks_step (q := q) tracks true
      have ended : (step q true s).2.blitrl = [] ↔ (q.size = 0 → s.blitrl = []) := by
        rw [← next.empty, ← tracks.empty]
        by_cases zero : q.size = 0
        · simp [drops, extend, zero]
        · by_cases none : extend (stretch A) q = []
          · simp [drops, zero, none]
          · simp [drops, due, zero, none]
      simp [SafeRun, ended]
    | cons r ps =>
      have next := tracks_step (q := q) tracks false
      rw [← stretch_snoc] at next
      rw [List.isEmpty_cons, ih (List.cons_ne_nil r ps) next]
      simp

end Stretch

/-- The layout of a program is good if and only if every instruction stands well: in reach
where the pool is due too late, no pool due in a jump table, and none open behind a `TEXT`
at the end. -/
theorem dotext_sound_iff (INITTEXT : Nat) (firstp : List (Prog α)) : Sound (dotext INITTEXT firstp) ↔ Spaced firstp := by
  have whole := run_sound_iff firstp (pending_start (α := α) INITTEXT)
  rw [List.nil_append] at whole
  have guarded : Sound (dotext INITTEXT firstp) ↔ SafeRun (⟨INITTEXT, [], 0, 0, 0⟩ : State α) firstp := by
    rw [← whole]
    exact ⟨fun sound => ⟨sound.1, sound.2.2⟩, fun both => ⟨both.1, run_guarded firstp _ true, both.2⟩⟩
  rw [guarded]
  cases firstp with
  | nil => exact ⟨fun _ A q R shape => by simp at shape, fun _ => rfl⟩
  | cons p ps => exact safeRun_iff (p :: ps) (List.cons_ne_nil p ps) (A := []) (tracks_flush false ⟨INITTEXT, [], 0, 0, 0⟩)



/-- The test of `checkpool` is enough for instructions of at most 12 bytes. -/
theorem dotext_sound_short (INITTEXT : Nat) (firstp : List (Prog α)) (short : ∀ p ∈ firstp, p.size ≤ 12)
    (tables : ∀ p ∈ firstp, p.as ≠ .ABCASE) (ended : ∀ p, firstp.getLast? = some p → p.size ≠ 0) :
    Sound (dotext INITTEXT firstp) := by
  rw [dotext_sound_iff]
  intro A q R shape
  refine ⟨fun B p open_ _ late => ?_, fun within => ?_, fun last zero => ?_⟩
  · obtain ⟨sub, used⟩ := stretch_mem A
    have least : 4100 ≤ limit (stretch A) q := by
      unfold limit
      split <;> omega
    have first := used (by simp [open_])
    have member : p ∈ A := sub (by simp [open_])
    have small := short p (by simp [shape, member])
    have small' := short q (by simp [shape])
    omega
  · cases R with
    | nil => simp [inTable] at within
    | cons r R =>
      have entry : r.as = .ABCASE := by
        simp only [inTable, Bool.and_eq_true, List.head?_cons, Option.any_some, beq_iff_eq] at within
        exact within.2
      exact absurd entry (tables r (by simp [shape]))
  · exact absurd zero (ended q (by simp [shape, last]))

/-- A function that loads a word from an external address, adds, does 339
halfword loads of 12 bytes, stores a halfword to the address in 24 bytes, and
returns. -/
def longBlock : List (Prog Nat) :=
  [⟨⟨.ATEXT, 0, 0, none⟩, by decide, true, false, 0, 0⟩,
    ⟨⟨.AMOVW, 65, 8, some .LFROM⟩, by decide, true, false, 0x12345678, 0⟩,
    ⟨⟨.AADD, 1, 4, none⟩, by decide, true, false, 0, 0⟩] ++
  List.replicate 339 ⟨⟨.AMOVH, 22, 12, none⟩, by decide, true, false, 0, 0⟩ ++
  [⟨⟨.AMOVH, 67, 24, some .LTO⟩, by decide, true, false, 0, 0x12345678⟩,
    ⟨⟨.AB, 6, 4, some .LPOOL⟩, by decide, true, false, 0, 0⟩]

set_option maxRecDepth 2000 in
theorem longBlock_out_of_reach : ¬ Sound (dotext 4128 longBlock) := by
  intro sound
  have safe := (run_sound_iff longBlock (pending_start 4128)).mp ⟨sound.1, sound.2.2⟩
  revert safe
  decide

end Goken.Proofs.Dotext
