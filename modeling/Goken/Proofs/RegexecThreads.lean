import Goken.Lib.Threads
import Goken.Rregexec

/-! What the execution of one list of threads comes to, for strings of bytes and strings of
runes alike: the threads that all instructions before the next character lead to. -/

namespace Goken.Proofs.RegexecThreads
open Goken.Regexec Lib.Threads
open Relation (ReflTransGen)

section Instructions

/-- Where an instruction goes on at the same character; `opens` says that a line begins. -/
def passes (opens : Bool) (r : Nat) : Inst → List Nat
  | .LBRA _ next | .RBRA _ next => [next]
  | .BOL next => if opens then [next] else []
  | .EOL next => if r = 0 ∨ r = newline then [next] else []
  | .OR right left => [left, right]
  | _ => []

/-- Where an instruction goes on at the next character. -/
def consumes (r : Nat) : Inst → Option Nat
  | .RUNE q next => if q = r then some next else none
  | .ANY next => if r ≠ newline then some next else none
  | .ANYNL next => some next
  | .CCLASS spans next => if within spans r then some next else none
  | .NCCLASS spans next => if within spans r then none else some next
  | _ => none

/-- The subexpression of the whole match is not marked by an instruction. -/
def Inst.Marked : Inst → Prop
  | .LBRA subid _ | .RBRA subid _ => subid ≠ 0
  | _ => True

/-- All that an instruction can do in an entry with the subexpressions `se`. -/
inductive Effect (j : Reljunk) (opens : Bool) (c : Config) (se : Resublist) : Inst → Config → Prop
  | dies {inst : Inst} (stuck : passes opens c.r inst = []) (refuses : consumes c.r inst = none) (other : inst ≠ .END) :
      Effect j opens c se inst c.advance
  | marks {inst : Inst} {next : Nat} {se' : Resublist} (only : passes opens c.r inst = [next]) (refuses : consumes c.r inst = none)
      (other : inst ≠ .END) (same : (se' 0).s = (se 0).s) : Effect j opens c se inst { c.setSe se' with phase := .inst next }
  | passes {inst : Inst} {next : Nat} (only : passes opens c.r inst = [next]) (refuses : consumes c.r inst = none)
      (other : inst ≠ .END) : Effect j opens c se inst { c with phase := .inst next }
  | takes {inst : Inst} {next : Nat} (stuck : passes opens c.r inst = []) (taken : consumes c.r inst = some next) (other : inst ≠ .END) :
      Effect j opens c se inst (push j c next se)
  | splits (right left : Nat) : Effect j opens c se (.OR right left) (postpone j c right left se)
  | ends : Effect j opens c se .END
      { c.setSe (Function.update se 0 { se 0 with e := some c.s }) with
        matched := true, mp := renewmatch c.mp (Function.update se 0 { se 0 with e := some c.s }) }.advance

variable {j : Reljunk} {opens : Bool} {c : Config} {se : Resublist} {inst : Inst}

theorem mark_same {subid : Nat} (marked : subid ≠ 0) (m : Resub) : (Function.update se subid m 0).s = (se 0).s := by
  rw [Function.update_of_ne marked.symm]

/-- An instruction that may take the character. -/
theorem takes_or_dies {taken : Prop} [Decidable taken] {next : Nat} (stuck : RegexecThreads.passes opens c.r inst = [])
    (goes : consumes c.r inst = if taken then some next else none) (other : inst ≠ .END) :
    Effect j opens c se inst (if taken then push j c next se else c.advance) := by
  split
  next yes => exact .takes stuck (by rw [goes, if_pos yes]) other
  next no => exact .dies stuck (by rw [goes, if_neg no]) other

/-- An instruction that may go on. -/
theorem passes_or_dies {passed : Prop} [Decidable passed] {next : Nat} (goes : RegexecThreads.passes opens c.r inst = if passed then [next] else [])
    (refuses : consumes c.r inst = none) (other : inst ≠ .END) :
    Effect j opens c se inst (if passed then { c with phase := .inst next } else c.advance) := by
  split
  next yes => exact .passes (by rw [goes, if_pos yes]) refuses other
  next no => exact .dies (by rw [goes, if_neg no]) refuses other

/-- What does not ask where the line begins is the same for bytes and runes. -/
theorem common_effect (text : List UInt8) (apart : some c.s ≠ j.eol) (marked : Inst.Marked inst) (elsewhere : ∀ next, inst ≠ .BOL next) :
    Effect j opens c se inst (execute text j c se inst) := by
  cases inst with
  | RUNE r next => exact takes_or_dies rfl rfl nofun
  | LBRA subid next => exact .marks rfl rfl nofun (mark_same marked _)
  | RBRA subid next => exact .marks rfl rfl nofun (mark_same marked _)
  | ANY next => exact takes_or_dies rfl rfl nofun
  | ANYNL next => exact .takes rfl rfl nofun
  | NOP next => exact .dies rfl rfl nofun
  | BOL next => exact absurd rfl (elsewhere next)
  | EOL next =>
    simp only [execute, apart, false_or]
    exact passes_or_dies rfl rfl nofun
  | CCLASS spans next => exact takes_or_dies rfl rfl nofun
  | NCCLASS spans next =>
    simp only [execute]
    cases inside : within spans c.r with
    | true => exact .dies rfl (by simp [consumes, inside]) nofun
    | false => exact .takes rfl (by simp [consumes, inside]) nofun
  | OR right left => exact .splits right left
  | END => exact .ends

theorem execute_effect (text : List UInt8) (apart : some c.s ≠ j.eol) (marked : Inst.Marked inst) :
    Effect j (decide (c.s = 0 ∨ uchar text (c.s - 1) = newline)) c se inst (execute text j c se inst) := by
  by_cases line : ∃ next, inst = .BOL next
  · obtain ⟨next, rfl⟩ := line
    exact passes_or_dies (by simp [RegexecThreads.passes]) rfl nofun
  · exact common_effect text apart marked fun next same => line ⟨next, same⟩

theorem rexecute_effect (runes : List Nat) (apart : some c.s ≠ j.eol) (marked : Inst.Marked inst) :
    Effect j (decide (c.s = 0 ∨ Rregexec.rune runes (c.s - 1) = newline)) c se inst (Rregexec.execute runes j c se inst) := by
  by_cases line : ∃ next, inst = .BOL next
  · obtain ⟨next, rfl⟩ := line
    exact passes_or_dies (by simp [RegexecThreads.passes]) rfl nofun
  · have same : Rregexec.execute runes j c se inst = execute [] j c se inst := by
      cases inst with
      | BOL next => exact absurd ⟨next, rfl⟩ line
      | _ => rfl
    rw [same]
    exact common_effect [] apart marked fun next same => line ⟨next, same⟩

end Instructions

section Threads

/-- An entry as a thread; the rank is the start as pointers compare. -/
def thread (p : Relist) : Nat × Nat := (p.inst, ptr (p.se 0).s)

def threads (l : List Relist) : List (Nat × Nat) := l.map thread

theorem threads_renewthread (l : List Relist) (ip : Nat) (se : Resublist) :
    threads (renewthread l ip se).1 = merge (threads l) ip (ptr (se 0).s) := by
  induction l with
  | nil => rfl
  | cons p rest ih =>
    unfold renewthread
    by_cases same : p.inst = ip
    · rw [if_pos same]
      have head : threads (p :: rest) = (p.inst, ptr (p.se 0).s) :: threads rest := rfl
      rw [head, merge, if_pos same]
      show thread (if ptr (se 0).s < ptr (p.se 0).s then ⟨ip, se⟩ else p) :: threads rest = _
      by_cases less : ptr (se 0).s < ptr (p.se 0).s
      · rw [if_pos less, if_pos less, same]
        rfl
      · rw [if_neg less, if_neg less]
        rfl
    · rw [if_neg same]
      have head : threads (p :: rest) = (p.inst, ptr (p.se 0).s) :: threads rest := rfl
      rw [head, merge, if_neg same, ← ih]
      rfl

theorem threads_setSe {c : Config} {p : Relist} {se : Resublist} (entry : c.tl[c.t]? = some p) (same : (se 0).s = (p.se 0).s) :
    threads (c.setSe se).tl = threads c.tl := by
  obtain ⟨inside, here⟩ := List.getElem?_eq_some_iff.mp entry
  apply List.ext_getElem
  · simp [threads, Config.setSe]
  · intro i _ _
    simp only [threads, Config.setSe, List.getElem_map, List.getElem_modify]
    split
    next current =>
      subst current
      rw [here, thread, thread, same]
    next => rfl

theorem threads_drop (l : List Relist) (t : Nat) : threads (l.drop t) = (threads l).drop t := List.map_drop

theorem drop_entry {l : List Relist} {t : Nat} {p : Relist} (entry : l[t]? = some p) :
    (threads l).drop t = thread p :: (threads l).drop (t + 1) := by
  obtain ⟨inside, same⟩ := List.getElem?_eq_some_iff.mp entry
  rw [← threads_drop, ← threads_drop, List.drop_eq_getElem_cons inside, same]
  rfl

end Threads

section Lists

variable (prog : Reprog) (opens : Bool) (r : Nat)

/-- A step between instructions at a character. -/
def Pass (i k : Nat) : Prop := ∃ inst, prog.insts[i]? = some inst ∧ k ∈ passes opens r inst

/-- A step over a character. -/
def Take (i k : Nat) : Prop := ∃ inst, prog.insts[i]? = some inst ∧ consumes r inst = some k

def Ends (i : Nat) : Prop := prog.insts[i]? = some .END

/-- The match `b` is not worse than `x`: earlier, or as early and as long. -/
def better (b x : Nat × Nat) : Prop := b.1 < x.1 ∨ (b.1 = x.1 ∧ x.2 ≤ b.2)

theorem better.trans {a b c : Nat × Nat} (first : better a b) (second : better b c) : better a c := by
  unfold better at *
  omega

/-- The match that has been found, as `match` and `mp[0]` have it. -/
structure Holds (c : Config) (best : Option (Nat × Nat)) : Prop where
  matched : c.matched = best.isSome
  positive : ∀ b ∈ best, 0 < b.1
  head : ∀ m ∈ c.mp.head?, ptr m.s = (best.map Prod.fst).getD 0 ∧ m.e = best.map Prod.snd

/-- The threads that are still to be executed. -/
def pending (c : Config) (x : Nat × Nat) : Prop :=
  match c.phase with
  | .list => x ∈ (threads c.tl).drop c.t
  | .inst k => x ∈ (c.tl[c.t]?.map fun p => (k, (thread p).2)) ∨ x ∈ (threads c.tl).drop (c.t + 1)
  | _ => False

/-- The execution of the list `entries` at `s`, where the threads `done` have been executed. -/
structure Working (s : Nat) (entries : List (Nat × Nat)) (before : Option (Nat × Nat)) (c : Config) (done : Nat × Nat → Prop)
    (best : Option (Nat × Nat)) : Prop where
  place : c.s = s ∧ c.r = r
  sound : ∀ x, done x ∨ pending c x → ∃ i, (i, x.2) ∈ entries ∧ ReflTransGen (Pass prog opens r) i x.1
  initial : ∀ x ∈ entries, Covered (fun y => done y ∨ pending c y) x
  closed : ∀ x, done x → ∀ k, Pass prog opens r x.1 k → Covered (fun y => done y ∨ pending c y) (k, x.2)
  taken : ∀ x, done x → ∀ k, Take prog r x.1 k → Covered (· ∈ threads c.nl) (k, x.2)
  fresh : ∀ y ∈ threads c.nl, ∃ x, done x ∧ x.2 = y.2 ∧ Take prog r x.1 y.1
  running : ∀ k, c.phase = .inst k → ∃ p, c.tl[c.t]? = some p ∧ (k = p.inst ∨ done (thread p))
  ended : ∀ x, done x → Ends prog x.1 → ∃ b ∈ best, better b (x.2, s)
  found : best = before ∨ ∃ x, done x ∧ Ends prog x.1 ∧ best = some (x.2, s)
  kept : ∀ b ∈ before, ∃ b' ∈ best, better b' b
  holds : Holds c best

/-- A step of the execution of a list. -/
inductive Works (j : Reljunk) (c : Config) : Config → Prop
  | enter {p : Relist} (at_list : c.phase = .list) (entry : c.tl[c.t]? = some p) : Works j c { c with phase := .inst p.inst }
  | does {i : Nat} {p : Relist} {inst : Inst} {c' : Config} (at_inst : c.phase = .inst i) (entry : c.tl[c.t]? = some p)
      (here : prog.insts[i]? = some inst) (effect : Effect j opens c p.se inst c') : Works j c c'

variable {prog opens r} {s : Nat} {entries : List (Nat × Nat)} {before best : Option (Nat × Nat)} {c c' : Config}
  {done : Nat × Nat → Prop} {j : Reljunk}

/-- One more thread has been executed: what there is to show of its effect. -/
theorem Working.next (working : Working prog opens r s entries before c done best) {k : Nat} {p : Relist} (at_inst : c.phase = .inst k)
    (entry : c.tl[c.t]? = some p) {best' : Option (Nat × Nat)} (place : c'.s = c.s ∧ c'.r = c.r)
    (sound : ∀ x, pending c' x → x ∈ (threads c.tl).drop (c.t + 1) ∨ (Pass prog opens r k x.1 ∧ x.2 = (thread p).2))
    (rest : ∀ x ∈ (threads c.tl).drop (c.t + 1), Covered (fun y => (done y ∨ y = (k, (thread p).2)) ∨ pending c' y) x)
    (goes : ∀ k', Pass prog opens r k k' → Covered (fun y => (done y ∨ y = (k, (thread p).2)) ∨ pending c' y) (k', (thread p).2))
    (takes : ∀ k', Take prog r k k' → Covered (· ∈ threads c'.nl) (k', (thread p).2))
    (old : ∀ x ∈ threads c.nl, Covered (· ∈ threads c'.nl) x)
    (new : ∀ x ∈ threads c'.nl, x ∈ threads c.nl ∨ (Take prog r k x.1 ∧ x.2 = (thread p).2))
    (running : ∀ i, c'.phase = .inst i → ∃ q, c'.tl[c'.t]? = some q ∧ (i = q.inst ∨ done (thread q) ∨ thread q = (k, (thread p).2)))
    (ended : Ends prog k → ∃ b ∈ best', better b ((thread p).2, s))
    (found : best' = best ∨ (Ends prog k ∧ best' = some ((thread p).2, s)))
    (kept : ∀ b ∈ best, ∃ b' ∈ best', better b' b) (holds : Holds c' best') :
    Working prog opens r s entries before c' (fun y => done y ∨ y = (k, (thread p).2)) best' := by
  have current (x : Nat × Nat) : pending c x ↔ x = (k, (thread p).2) ∨ x ∈ (threads c.tl).drop (c.t + 1) := by
    simp [pending, at_inst, entry, eq_comm]
  have reached := working.sound (k, (thread p).2) (Or.inr ((current _).mpr (Or.inl rfl)))
  have transfer {x : Nat × Nat} (covered : Covered (fun y => done y ∨ pending c y) x) :
      Covered (fun y => (done y ∨ y = (k, (thread p).2)) ∨ pending c' y) x := by
    apply covered.trans
    rintro y (executed | waits)
    · exact covered_self (Or.inl (Or.inl executed))
    · rcases (current y).mp waits with now | later
      · exact covered_self (Or.inl (Or.inr now))
      · exact rest y later
  constructor
  case place => exact ⟨place.1.trans working.place.1, place.2.trans working.place.2⟩
  case sound =>
    rintro x ((executed | rfl) | waits)
    · exact working.sound x (Or.inl executed)
    · exact reached
    · rcases sound x waits with later | ⟨moves, same⟩
      · exact working.sound x (Or.inr ((current x).mpr (Or.inr later)))
      · obtain ⟨i, member, path⟩ := reached
        exact ⟨i, by rw [same]; exact member, path.tail moves⟩
  case initial => exact fun x member => transfer (working.initial x member)
  case closed =>
    rintro x (executed | rfl) k' moves
    · exact transfer (working.closed x executed k' moves)
    · exact goes k' moves
  case taken =>
    rintro x (executed | rfl) k' moves
    · exact (working.taken x executed k' moves).trans old
    · exact takes k' moves
  case fresh =>
    intro y member
    rcases new y member with early | ⟨moves, same⟩
    · obtain ⟨x, executed, same, moves⟩ := working.fresh y early
      exact ⟨x, Or.inl executed, same, moves⟩
    · exact ⟨(k, (thread p).2), Or.inr rfl, same.symm, moves⟩
  case running =>
    intro i phase
    obtain ⟨q, entry', same | executed | now⟩ := running i phase
    · exact ⟨q, entry', Or.inl same⟩
    · exact ⟨q, entry', Or.inr (Or.inl executed)⟩
    · exact ⟨q, entry', Or.inr (Or.inr now)⟩
  case ended =>
    rintro x (executed | rfl) ends
    · obtain ⟨b, member, least⟩ := working.ended x executed ends
      obtain ⟨b', member', less⟩ := kept b member
      exact ⟨b', member', less.trans least⟩
    · exact ended ends
  case found =>
    rcases found with rfl | ⟨ends, new⟩
    · rcases working.found with same | ⟨x, executed, ends, same⟩
      · exact Or.inl same
      · exact Or.inr ⟨x, Or.inl executed, ends, same⟩
    · exact Or.inr ⟨_, Or.inr rfl, ends, new⟩
  case kept =>
    intro b member
    obtain ⟨b', member', least⟩ := working.kept b member
    obtain ⟨b'', member'', less⟩ := kept b' member'
    exact ⟨b'', member'', less.trans least⟩
  case holds => exact holds

/-- The machine is in the list. -/
def Going (c : Config) : Prop := c.phase = .list ∨ ∃ k, c.phase = .inst k

theorem push_eq {next : Nat} {se : Resublist} (going : Going (push j c next se)) :
    push j c next se = { c with nl := (renewthread c.nl next se).1 }.advance := by
  unfold push at going ⊢
  dsimp only at going ⊢
  split at going
  · rcases going with list | ⟨k, inst⟩
    · cases list
    · cases inst
  next fits => rw [if_neg fits]

theorem postpone_eq {right left : Nat} {se : Resublist} (going : Going (postpone j c right left se)) :
    postpone j c right left se =
      { c with tl := c.tl.take c.t ++ (renewthread (c.tl.drop c.t) right se).1, phase := .inst left } := by
  unfold postpone at going ⊢
  dsimp only at going ⊢
  split at going
  · rcases going with list | ⟨k, inst⟩
    · cases list
    · cases inst
  next fits =>
    rw [if_neg fits]
    split at going
    · rcases going with list | ⟨k, inst⟩
      · cases list
      · cases inst
    next small => rw [if_neg small]

/-- The match after another that ends at `s`. -/
def improve (best : Option (Nat × Nat)) (x : Nat × Nat) : Option (Nat × Nat) :=
  match best with
  | none => some x
  | some b => if x.1 < b.1 ∨ (x.1 = b.1 ∧ b.2 < x.2) then some x else some b

theorem improve_cases (best : Option (Nat × Nat)) (x : Nat × Nat) :
    (improve best x = best ∨ improve best x = some x) ∧ (∃ b ∈ improve best x, better b x) ∧ ∀ b ∈ best, ∃ b' ∈ improve best x, better b' b := by
  cases best with
  | none => exact ⟨Or.inr rfl, ⟨x, rfl, Or.inr ⟨rfl, Nat.le_refl _⟩⟩, nofun⟩
  | some b =>
    unfold improve
    dsimp only
    split
    next better =>
      refine ⟨Or.inr rfl, ⟨x, rfl, Or.inr ⟨rfl, Nat.le_refl _⟩⟩, ?_⟩
      rintro b' ⟨⟩
      refine ⟨x, rfl, ?_⟩
      unfold RegexecThreads.better
      omega
    next worse =>
      refine ⟨Or.inl rfl, ⟨b, rfl, ?_⟩, fun b' member => ⟨b', member, Or.inr ⟨rfl, Nat.le_refl _⟩⟩⟩
      unfold RegexecThreads.better
      omega

theorem ptr_injective {p q : Option Nat} (same : ptr p = ptr q) : p = q := by
  cases p <;> cases q <;> simp [ptr] at same ⊢
  exact same

theorem head_renewmatch (mp : List Resub) (se : Resublist) :
    (renewmatch mp se).head? = mp.head?.map fun m =>
      if m.s = none ∨ ptr (se 0).s < ptr m.s ∨ ((se 0).s = m.s ∧ ptr (se 0).e > ptr m.e) then se 0 else m := by
  cases mp with
  | nil => rfl
  | cons m rest =>
    unfold renewmatch
    dsimp only
    split
    next worse =>
      rw [List.length_cons, List.range_succ_eq_map]
      exact congrArg some (if_pos worse).symm
    next good => exact congrArg some (if_neg good).symm

/-- `_renewmatch` keeps the better match. -/
theorem renewmatch_holds {c : Config} {best : Option (Nat × Nat)} (holds : Holds c best) {se : Resublist} {s : Nat} {c' : Config}
    (positive : 0 < ptr (se 0).s) (matched : c'.matched = true)
    (mp : c'.mp = renewmatch c.mp (Function.update se 0 { se 0 with e := some s })) :
    Holds c' (improve best (ptr (se 0).s, s)) := by
  have updated : Function.update se 0 { se 0 with e := some s } 0 = { se 0 with e := some s } := Function.update_self ..
  constructor
  case matched =>
    rw [matched]
    cases best with
    | none => rfl
    | some b =>
      unfold improve
      dsimp only
      split <;> rfl
  case positive =>
    rcases (improve_cases best (ptr (se 0).s, s)).1 with same | same
    · rw [same]
      exact holds.positive
    · rw [same]
      rintro b ⟨⟩
      exact positive
  case head =>
    rw [mp, head_renewmatch, updated]
    intro m' member
    obtain ⟨m, here, rfl⟩ := Option.map_eq_some_iff.mp member
    obtain ⟨start, stop⟩ := holds.head m here
    cases best with
    | none =>
      have none_yet : m.s = none := ptr_injective start
      rw [if_pos (Or.inl none_yet)]
      exact ⟨rfl, rfl⟩
    | some b =>
      have some_yet : m.s ≠ none := by
        intro none_yet
        have := holds.positive b rfl
        rw [none_yet] at start
        simp only [ptr, Option.map_some, Option.getD_some] at start
        omega
      have same : (se 0).s = m.s ↔ ptr (se 0).s = b.1 := ⟨fun same => by rw [same, start]; rfl, fun same => ptr_injective (same.trans start.symm)⟩
      have less : ptr (se 0).s < ptr m.s ↔ ptr (se 0).s < b.1 := by rw [start]; rfl
      have longer : ptr (some s) > ptr m.e ↔ b.2 < s := by
        rw [stop]
        simp only [ptr, Option.map_some]
        omega
      unfold improve
      simp only [some_yet, false_or, same, less, longer]
      split
      · exact ⟨rfl, rfl⟩
      · exact ⟨start, stop⟩

theorem Holds.of_same {c : Config} {best : Option (Nat × Nat)} (holds : Holds c best) {c' : Config} (matched : c'.matched = c.matched)
    (mp : c'.mp = c.mp) : Holds c' best := ⟨matched.trans holds.matched, holds.positive, by rw [mp]; exact holds.head⟩

section Step

variable (working : Working prog opens r s entries before c done best) {k : Nat} {p : Relist} {inst : Inst} {next : Nat}
  (at_inst : c.phase = .inst k) (entry : c.tl[c.t]? = some p) (here : prog.insts[k]? = some inst)

theorem pass_iff (i : Nat) (here : prog.insts[k]? = some inst) : Pass prog opens r k i ↔ i ∈ passes opens r inst := by
  simp [Pass, here]

theorem take_iff (i : Nat) (here : prog.insts[k]? = some inst) : Take prog r k i ↔ consumes r inst = some i := by
  simp [Take, here]

theorem ends_iff (here : prog.insts[k]? = some inst) : Ends prog k ↔ inst = .END := by
  simp [Ends, here]

include working at_inst entry here

/-- The thread has nowhere to go at this character. -/
theorem Working.stays (stuck : passes opens r inst = []) {best' : Option (Nat × Nat)} (list : c'.phase = .list) (place : c'.s = c.s ∧ c'.r = c.r)
    (tl : threads c'.tl = threads c.tl) (t : c'.t = c.t + 1)
    (takes : ∀ k', Take prog r k k' → Covered (· ∈ threads c'.nl) (k', (thread p).2))
    (old : ∀ x ∈ threads c.nl, Covered (· ∈ threads c'.nl) x)
    (new : ∀ x ∈ threads c'.nl, x ∈ threads c.nl ∨ (Take prog r k x.1 ∧ x.2 = (thread p).2))
    (ended : Ends prog k → ∃ b ∈ best', better b ((thread p).2, s))
    (found : best' = best ∨ (Ends prog k ∧ best' = some ((thread p).2, s)))
    (kept : ∀ b ∈ best, ∃ b' ∈ best', better b' b) (holds : Holds c' best') :
    Working prog opens r s entries before c' (fun y => done y ∨ y = (k, (thread p).2)) best' := by
  have later (x : Nat × Nat) : pending c' x ↔ x ∈ (threads c.tl).drop (c.t + 1) := by rw [pending, list, tl, t]
  apply working.next at_inst entry place
  case sound => exact fun x waits => Or.inl ((later x).mp waits)
  case rest => exact fun x waits => covered_self (Or.inr ((later x).mpr waits))
  case goes =>
    intro k' moves
    rw [pass_iff k' here, stuck] at moves
    exact absurd moves List.not_mem_nil
  case running =>
    intro i phase
    rw [list] at phase
    cases phase
  case takes => exact takes
  case old => exact old
  case new => exact new
  case ended => exact ended
  case found => exact found
  case kept => exact kept
  case holds => exact holds

/-- The thread goes on at one place. -/
theorem Working.moves (only : passes opens r inst = [next]) (refuses : consumes r inst = none) (other : inst ≠ .END)
    (inside : c'.phase = .inst next) (place : c'.s = c.s ∧ c'.r = c.r) (tl : threads c'.tl = threads c.tl) (t : c'.t = c.t)
    (entry' : ∃ q, c'.tl[c'.t]? = some q ∧ thread q = thread p) (nl : c'.nl = c.nl) (matched : c'.matched = c.matched) (mp : c'.mp = c.mp) :
    Working prog opens r s entries before c' (fun y => done y ∨ y = (k, (thread p).2)) best := by
  obtain ⟨q, entry', same⟩ := entry'
  have waits (x : Nat × Nat) : pending c' x ↔ x = (next, (thread p).2) ∨ x ∈ (threads c.tl).drop (c.t + 1) := by
    rw [pending, inside, tl, entry', ← same, t]
    simp [eq_comm]
  apply working.next at_inst entry place
  case sound =>
    intro x waiting
    rcases (waits x).mp waiting with rfl | later
    · exact Or.inr ⟨(pass_iff next here).mpr (by rw [only]; exact List.mem_singleton.mpr rfl), rfl⟩
    · exact Or.inl later
  case rest => exact fun x later => covered_self (Or.inr ((waits x).mpr (Or.inr later)))
  case goes =>
    intro k' moves
    rw [pass_iff k' here, only, List.mem_singleton] at moves
    exact covered_self (Or.inr ((waits _).mpr (Or.inl (by rw [moves]))))
  case takes =>
    intro k' moves
    rw [take_iff k' here, refuses] at moves
    cases moves
  case old =>
    rw [nl]
    exact fun x member => covered_self member
  case new =>
    rw [nl]
    exact fun x member => Or.inl member
  case running =>
    intro i phase
    obtain ⟨p', current, at_entry | executed⟩ := working.running k at_inst
    · rw [entry] at current
      cases current
      exact ⟨q, entry', Or.inr (Or.inr (by rw [same, at_entry]; rfl))⟩
    · rw [entry] at current
      cases current
      exact ⟨q, entry', Or.inr (Or.inl (by rw [same]; exact executed))⟩
  case ended => exact fun ends => absurd ((ends_iff here).mp ends) other
  case found => exact Or.inl rfl
  case kept => exact fun b member => ⟨b, member, Or.inr ⟨rfl, Nat.le_refl _⟩⟩
  case holds => exact working.holds.of_same matched mp

omit working at_inst here in
/-- The right choice is added after the entry that is executed. -/
theorem postponed_tl (right : Nat) :
    ∃ rest, c.tl.take c.t ++ (renewthread (c.tl.drop c.t) right p.se).1 = c.tl.take c.t ++ p :: rest ∧
      threads rest = if p.inst = right then (threads c.tl).drop (c.t + 1) else merge ((threads c.tl).drop (c.t + 1)) right (thread p).2 := by
  obtain ⟨inside, same⟩ := List.getElem?_eq_some_iff.mp entry
  rw [List.drop_eq_getElem_cons inside, same]
  unfold renewthread
  by_cases here : p.inst = right
  · rw [if_pos here, if_pos here, if_neg (Nat.lt_irrefl _)]
    exact ⟨_, rfl, threads_drop ..⟩
  · rw [if_neg here, if_neg here]
    refine ⟨(renewthread (c.tl.drop (c.t + 1)) right p.se).1, rfl, ?_⟩
    rw [threads_renewthread, threads_drop]
    rfl

/-- Both choices of an alternation are pending. -/
theorem Working.splits {right left : Nat} (choice : inst = .OR right left) (going : Going (postpone j c right left p.se)) :
    Working prog opens r s entries before (postpone j c right left p.se) (fun y => done y ∨ y = (k, (thread p).2)) best := by
  subst choice
  rw [postpone_eq going]
  obtain ⟨rest, tl, threads_rest⟩ := postponed_tl entry right
  have inside : c.t < c.tl.length := (List.getElem?_eq_some_iff.mp entry).1
  have taken : (c.tl.take c.t).length = c.t := List.length_take_of_le (Nat.le_of_lt inside)
  have entry' : (c.tl.take c.t ++ p :: rest)[c.t]? = some p := by
    rw [List.getElem?_append_right (Nat.le_of_eq taken), taken, Nat.sub_self]
    rfl
  have later : (threads (c.tl.take c.t ++ p :: rest)).drop (c.t + 1) = threads rest := by
    rw [← threads_drop, List.drop_append, List.drop_eq_nil_of_le (by omega), taken, Nat.add_sub_cancel_left]
    rfl
  have waits (x : Nat × Nat) : pending { c with tl := c.tl.take c.t ++ p :: rest, phase := .inst left } x ↔
      x = (left, (thread p).2) ∨ x ∈ threads rest := by
    rw [pending]
    dsimp only
    rw [entry', later]
    simp [eq_comm]
  have running := working.running k at_inst
  have current : k = p.inst ∨ done (thread p) := by
    obtain ⟨p', same, at_entry⟩ := running
    rw [entry] at same
    cases same
    exact at_entry
  rw [tl]
  apply working.next at_inst entry
  case place => exact ⟨rfl, rfl⟩
  case sound =>
    intro x waiting
    rcases (waits x).mp waiting with rfl | member
    · exact Or.inr ⟨(pass_iff left here).mpr List.mem_cons_self, rfl⟩
    · rw [threads_rest] at member
      split at member
      · exact Or.inl member
      · rcases merge_sound member with old | rfl
        · exact Or.inl old
        · exact Or.inr ⟨(pass_iff right here).mpr (List.mem_cons_of_mem _ List.mem_cons_self), rfl⟩
  case rest =>
    intro x member
    have covered : Covered (· ∈ threads rest) x := by
      rw [threads_rest]
      split
      · exact covered_self member
      · exact merge_old member _ _
    exact covered.mono fun y waiting => Or.inr ((waits y).mpr (Or.inr waiting))
  case goes =>
    intro k' moves
    rw [pass_iff k' here] at moves
    rcases List.mem_cons.mp moves with rfl | second
    · exact covered_self (Or.inr ((waits _).mpr (Or.inl rfl)))
    · have same : k' = right := List.mem_singleton.mp second
      subst same
      by_cases twice : p.inst = k'
      · apply covered_self
        rcases current with at_entry | executed
        · exact Or.inl (Or.inr (by rw [at_entry, twice]))
        · exact Or.inl (Or.inl (by rw [← twice]; exact executed))
      · have covered : Covered (· ∈ threads rest) (k', (thread p).2) := by
          rw [threads_rest, if_neg twice]
          exact merge_new _ _ _
        exact covered.mono fun y waiting => Or.inr ((waits y).mpr (Or.inr waiting))
  case takes =>
    intro k' moves
    rw [take_iff k' here] at moves
    cases moves
  case old => exact fun x member => covered_self member
  case new => exact fun x member => Or.inl member
  case running =>
    intro i phase
    refine ⟨p, entry', ?_⟩
    rcases current with at_entry | executed
    · exact Or.inr (Or.inr (by rw [at_entry]; rfl))
    · exact Or.inr (Or.inl executed)
  case ended =>
    intro ends
    cases (ends_iff here).mp ends
  case found => exact Or.inl rfl
  case kept => exact fun b member => ⟨b, member, Or.inr ⟨rfl, Nat.le_refl _⟩⟩
  case holds => exact working.holds.of_same rfl rfl

end Step

theorem Working.rank_positive (working : Working prog opens r s entries before c done best) (positive : ∀ x ∈ entries, 0 < x.2) {x : Nat × Nat}
    (member : done x ∨ pending c x) : 0 < x.2 := by
  obtain ⟨i, entry, _⟩ := working.sound x member
  exact positive (i, x.2) entry

/-- What a step of the execution of a list keeps. -/
theorem Working.step (working : Working prog opens r s entries before c done best) (positive : ∀ x ∈ entries, 0 < x.2)
    (works : Works prog opens j c c') (going : Going c') : ∃ done' best', Working prog opens r s entries before c' done' best' := by
  cases works with
  | enter at_list entry =>
    rename_i p
    have same (x : Nat × Nat) : pending { c with phase := .inst p.inst } x ↔ pending c x := by
      simp only [pending, at_list, entry, drop_entry entry, List.mem_cons, Option.map_some, Option.mem_def, Option.some.injEq]
      rw [eq_comm]
      rfl
    refine ⟨done, best, ?_⟩
    have waits : (fun y => done y ∨ pending { c with phase := .inst p.inst } y) = fun y => done y ∨ pending c y := by
      funext y
      rw [same]
    constructor
    case place => exact working.place
    case sound => exact fun x member => working.sound x (member.imp_right (same x).mp)
    case initial =>
      rw [waits]
      exact working.initial
    case closed =>
      rw [waits]
      exact working.closed
    case running =>
      rintro k ⟨⟩
      exact ⟨p, entry, Or.inl rfl⟩
    case taken => exact working.taken
    case fresh => exact working.fresh
    case ended => exact working.ended
    case found => exact working.found
    case kept => exact working.kept
    case holds => exact working.holds.of_same rfl rfl
  | does at_inst entry here effect =>
    rename_i k p inst
    have char : c.r = r := working.place.2
    rw [← char] at working
    rw [← char]
    have old (x : Nat × Nat) (member : x ∈ threads c.nl) : Covered (· ∈ threads c.nl) x := covered_self member
    have kept (b : Nat × Nat) (member : b ∈ best) : ∃ b' ∈ best, better b' b := ⟨b, member, Or.inr ⟨rfl, Nat.le_refl _⟩⟩
    cases effect with
    | dies stuck refuses other =>
      refine ⟨_, best, working.stays at_inst entry here stuck rfl ⟨rfl, rfl⟩ rfl rfl ?_ old (fun x member => Or.inl member)
        (fun ends => absurd ((ends_iff here).mp ends) other) (Or.inl rfl) kept (working.holds.of_same rfl rfl)⟩
      intro k' moves
      rw [take_iff k' here, refuses] at moves
      cases moves
    | marks only refuses other same =>
      rename_i next se'
      refine ⟨_, best, working.moves at_inst entry here only refuses other rfl ⟨rfl, rfl⟩ (threads_setSe entry same) rfl ?_ rfl rfl rfl⟩
      refine ⟨{ p with se := se' }, ?_, ?_⟩
      · simp [Config.setSe, entry]
      · rw [thread, thread, same]
    | passes only refuses other =>
      exact ⟨_, best, working.moves at_inst entry here only refuses other rfl ⟨rfl, rfl⟩ rfl rfl ⟨p, entry, rfl⟩ rfl rfl rfl⟩
    | takes stuck taken other =>
      rename_i next
      rw [push_eq going]
      have new : threads (renewthread c.nl next p.se).1 = merge (threads c.nl) next (thread p).2 := threads_renewthread ..
      refine ⟨_, best, working.stays at_inst entry here stuck rfl ⟨rfl, rfl⟩ rfl rfl ?_ ?_ ?_
        (fun ends => absurd ((ends_iff here).mp ends) other) (Or.inl rfl) kept (working.holds.of_same rfl rfl)⟩
      · intro k' moves
        rw [take_iff k' here, taken] at moves
        cases moves
        dsimp only [Config.advance]
        rw [new]
        exact merge_new _ _ _
      · intro x member
        dsimp only [Config.advance]
        rw [new]
        exact merge_old member _ _
      · intro x member
        dsimp only [Config.advance] at member
        rw [new] at member
        rcases merge_sound member with early | rfl
        · exact Or.inl early
        · exact Or.inr ⟨(take_iff next here).mpr taken, rfl⟩
    | splits right left => exact ⟨_, best, working.splits at_inst entry here rfl going⟩
    | ends =>
      have current : pending c (k, (thread p).2) := by simp [pending, at_inst, entry]
      have rank : 0 < (thread p).2 := working.rank_positive positive (x := (k, (thread p).2)) (Or.inr current)
      have improved := improve_cases best ((thread p).2, s)
      have at_end : Ends prog k := (ends_iff here).mpr rfl
      have place : c.s = s := working.place.1
      refine ⟨_, improve best ((thread p).2, s), working.stays at_inst entry here rfl rfl ⟨rfl, rfl⟩ ?_ rfl ?_ old (fun x member => Or.inl member)
        (fun _ => improved.2.1) (improved.1.imp_right fun same => ⟨at_end, same⟩) improved.2.2 ?_⟩
      · exact threads_setSe entry (by rw [Function.update_self])
      · intro k' moves
        rw [take_iff k' here] at moves
        cases moves
      · apply renewmatch_holds working.holds rank rfl
        rw [← place]
        rfl

/-- When all threads of a list have been executed. -/
theorem Working.covers (working : Working prog opens r s entries before c done best) (at_list : c.phase = .list) (past : c.tl[c.t]? = none)
    {i k n : Nat} (first : Covered (· ∈ entries) (i, n)) (path : ReflTransGen (Pass prog opens r) i k) : Covered done (k, n) := by
  have nothing : (fun y => done y ∨ pending c y) = done := by
    funext y
    have none_left : (threads c.tl).drop c.t = [] := by
      rw [← threads_drop, List.drop_eq_nil_of_le (List.getElem?_eq_none_iff.mp past)]
      rfl
    simp [pending, at_list, none_left]
  have initial := working.initial
  have closed := working.closed
  rw [nothing] at initial closed
  exact covers_closure closed (first.trans initial) path

end Lists

end Goken.Proofs.RegexecThreads
