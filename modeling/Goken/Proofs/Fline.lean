import Goken.Fline
import Mathlib.Tactic.Common

/-! The two conversions against what the history says: the text of a file, with its
includes in it, laid out line by line in the composite file. -/

namespace Goken.Proofs.Fline
open Goken.Fline

/-! A source file as it was read. -/

/-- The text of a file: its last lines, or some lines, the last of them the directive
that includes a file with a text of its own, and the rest. -/
inductive Body where
  | text (n : Nat)
  | incl (n : Nat) (name : List UInt16) (inner rest : Body)
deriving DecidableEq, Repr

namespace Body

/-- Its lines with those of all that it includes. -/
def size : Body → Nat
  | .text n => n
  | .incl n _ inner rest => n + 1 + inner.size + rest.size

def names : Body → List (List UInt16)
  | .text _ => []
  | .incl _ name inner rest => name :: inner.names ++ rest.names

/-- The history that the compiler writes for a text that starts at composite line
`a`: an entry where a file begins, an end marker where it has ended. -/
def entries (a : Int) : Body → List Hist
  | .text n => [⟨[], a + n, 0⟩]
  | .incl n name inner rest =>
      ⟨name, a + n + 1, 0⟩ :: (inner.entries (a + n + 1) ++ rest.entries (a + n + 1 + inner.size))

/-- The lines where the text of one file gives way to another's: the first of an
included file, and the one that follows its end. -/
def turns (a : Int) : Body → List Int
  | .text _ => []
  | .incl n _ inner rest =>
      (if inner.size = 0 then [] else [a + n + 1, a + n + 1 + inner.size]) ++ inner.turns (a + n + 1) ++
        rest.turns (a + n + 1 + inner.size)

end Body

section Parts

variable (a : Int) (n : Nat) (name : List UInt16) (inner rest : Body)

theorem Body.size_text : (Body.text n).size = n := rfl

theorem Body.size_incl : (Body.incl n name inner rest).size = n + 1 + inner.size + rest.size := rfl

theorem Body.names_incl : (Body.incl n name inner rest).names = name :: inner.names ++ rest.names := rfl

theorem Body.entries_text : (Body.text n).entries a = [⟨[], a + n, 0⟩] := rfl

theorem Body.entries_incl : (Body.incl n name inner rest).entries a =
    ⟨name, a + n + 1, 0⟩ :: (inner.entries (a + n + 1) ++ rest.entries (a + n + 1 + inner.size)) := rfl

end Parts

def history (name : List UInt16) (body : Body) : List Hist := ⟨name, 1, 0⟩ :: body.entries 1

/-- Line `l` of the file itself is composite line `L`; `l0` lines of it come before the
body, which starts at `a`. -/
inductive Own : Body → Int → Int → Int → Int → Prop where
  | text {n : Nat} {a l0 i : Int} (first : 1 ≤ i) (last : i ≤ n) : Own (.text n) a l0 (l0 + i) (a + i - 1)
  | before {n : Nat} {name : List UInt16} {inner rest : Body} {a l0 i : Int} (first : 1 ≤ i) (last : i ≤ n + 1) :
      Own (.incl n name inner rest) a l0 (l0 + i) (a + i - 1)
  | later {n : Nat} {name : List UInt16} {inner rest : Body} {a l0 l L : Int}
      (own : Own rest (a + n + 1 + inner.size) (l0 + n + 1) l L) : Own (.incl n name inner rest) a l0 l L

/-- Line `l` of an included file. -/
inductive Inside : Body → Int → List UInt16 → Int → Int → Prop where
  | here {n : Nat} {name : List UInt16} {inner rest : Body} {a l L : Int} (own : Own inner (a + n + 1) 0 l L) :
      Inside (.incl n name inner rest) a name l L
  | deeper {n : Nat} {name who : List UInt16} {inner rest : Body} {a l L : Int}
      (inside : Inside inner (a + n + 1) who l L) : Inside (.incl n name inner rest) a who l L
  | later {n : Nat} {name who : List UInt16} {inner rest : Body} {a l L : Int}
      (inside : Inside rest (a + n + 1 + inner.size) who l L) : Inside (.incl n name inner rest) a who l L

/-- Line `l` of the file called `who`. -/
def LineOf (name : List UInt16) (body : Body) (who : List UInt16) (l L : Int) : Prop :=
  (who = name ∧ Own body 1 0 l L) ∨ Inside body 1 who l L

/-! Where lines lie. -/

theorem Own.bounds {body : Body} {a l0 l L : Int} (own : Own body a l0 l L) :
    a ≤ L ∧ L < a + body.size ∧ l0 < l ∧ (L = a → l = l0 + 1) ∧ l - l0 ≤ L - a + 1 := by
  induction own with
  | text first last => simp only [Body.size_text]; omega
  | before first last => simp only [Body.size_incl]; omega
  | later own ih => simp only [Body.size_incl]; omega

theorem Inside.bounds {body : Body} {a l L : Int} {who : List UInt16} (inside : Inside body a who l L) :
    a + l ≤ L ∧ L < a + body.size ∧ 1 ≤ l := by
  induction inside with
  | here own =>
    have := own.bounds
    simp only [Body.size_incl]
    omega
  | deeper inside ih => simp only [Body.size_incl]; omega
  | later inside ih => simp only [Body.size_incl]; omega

theorem Inside.mem_names {body : Body} {a l L : Int} {who : List UInt16} (inside : Inside body a who l L) : who ∈ body.names := by
  induction inside with
  | here own => exact List.mem_cons_self
  | deeper inside ih => simp [Body.names_incl, ih]
  | later inside ih => simp [Body.names_incl, ih]

theorem turns_bounds {body : Body} {a L : Int} (turn : L ∈ body.turns a) : a < L ∧ L ≤ a + body.size := by
  induction body generalizing a with
  | text n => cases turn
  | incl n name inner rest inner_ih rest_ih =>
    simp only [Body.turns, List.mem_append] at turn
    simp only [Body.size_incl]
    rcases turn with (edge | deep) | late
    · split at edge
      · cases edge
      · simp only [List.mem_cons, List.not_mem_nil, or_false] at edge
        omega
    · have := inner_ih deep
      omega
    · have := rest_ih late
      omega

/-! From the composite line. -/

/-- The file and line before the first entry that is not above the line. -/
def answered (f : List UInt16) : Body → Int → Int → Int → Option (List UInt16 × Int)
  | .text n, a, l0, L => if L ≤ a + n then some (f, L - a + l0 + 1) else none
  | .incl n name inner rest, a, l0, L =>
      if L ≤ a + n + 1 then some (f, L - a + l0 + 1)
      else (answered name inner (a + n + 1) 0 L).or (answered f rest (a + n + 1 + inner.size) (l0 + n + 1) L)

theorem answered_text (f : List UInt16) (n : Nat) (a l0 L : Int) :
    answered f (.text n) a l0 L = if L ≤ a + n then some (f, L - a + l0 + 1) else none := rfl

theorem answered_incl (f : List UInt16) (n : Nat) (name : List UInt16) (inner rest : Body) (a l0 L : Int) :
    answered f (.incl n name inner rest) a l0 L = if L ≤ a + n + 1 then some (f, L - a + l0 + 1)
      else (answered name inner (a + n + 1) 0 L).or (answered f rest (a + n + 1 + inner.size) (l0 + n + 1) L) := rfl

theorem answered_none {f : List UInt16} {body : Body} {a l0 L : Int} : answered f body a l0 L = none ↔ a + body.size < L := by
  induction body generalizing f a l0 with
  | text n => simp [answered_text, Body.size_text]
  | incl n name inner rest inner_ih rest_ih =>
    simp only [answered_incl, Body.size_incl]
    split
    · simp only [reduceCtorEq, false_iff]
      omega
    · rw [Option.or_eq_none_iff, inner_ih, rest_ih]
      omega

/-- Every text ends with its end marker. -/
theorem entries_last (body : Body) (a : Int) :
    ∃ front, body.entries a = front ++ [⟨[], a + body.size, 0⟩] := by
  induction body generalizing a with
  | text n => exact ⟨[], rfl⟩
  | incl n name inner rest _ rest_ih =>
    obtain ⟨front, shape⟩ := rest_ih (a + n + 1 + inner.size)
    refine ⟨⟨name, a + n + 1, 0⟩ :: (inner.entries (a + n + 1) ++ front), ?_⟩
    have whole : a + n + 1 + inner.size + rest.size = a + (Body.incl n name inner rest).size := by
      simp only [Body.size_incl]
      omega
    rw [Body.entries_incl, shape, whole]
    simp

/-- What the loop comes to at one level of the file. -/
def Ends (ret : Bool) (h : Nat) (expected : Option (List UInt16 × Int)) (got : Option Answer) : Prop :=
  match expected with
  | some (name, l) => got = some (.found name l)
  | none => ret = true → got = some (.ended h)

section Loop

variable {hist : List Hist} {L : Int} {ret : Bool} {base start h turns : Nat} {delta line : Int} {name : List UInt16}

theorem lineAt_eq {e : Hist} (here : hist[h]? = some e) : lineAt hist h = e.line := by simp [lineAt, here]

theorem nameAt_eq {e : Hist} (here : hist[h]? = some e) : nameAt hist h = e.name := by simp [nameAt, here]

/-- A turn of the loop at an entry. -/
theorem loop_turn {e : Hist} (here : hist[h]? = some e) : flineLoop hist L (turns + 1) ret base start h delta =
    if e.line < L then
      if e.name ≠ [] then
        if e.offset ≠ 0 then flineLoop hist L turns ret h h (h + 1) (e.line - e.offset + 1)
        else if start = base then flineLoop hist L turns ret base h (h + 1) delta
        else
          match flineLoop hist L turns true start start start (lineAt hist start) with
          | some (.ended h) => flineLoop hist L turns ret base start h delta
          | other => other
      else if start = base ∧ ret then some (.ended h)
      else flineLoop hist L turns ret base base (h + 1) (delta + (e.line - lineAt hist start))
    else some (answer hist L base start h delta) := by
  have turn : flineLoop hist L (turns + 1) ret base start h delta = _ := flineLoop.eq_2 ..
  rw [here] at turn
  exact turn

/-- The step at the end of an included file: the loop is back at its own level. -/
theorem loop_end (here : hist[h]? = some ⟨[], line, 0⟩) (other : start ≠ base) (past : line < L) :
    flineLoop hist L (turns + 1) ret base start h delta =
      flineLoop hist L turns ret base base (h + 1) (delta + (line - lineAt hist start)) := by
  rw [loop_turn here]
  simp only
  rw [if_pos past, if_neg (by simp), if_neg (by simp [other])]

/-- The step at the start of a file, from the level of the loop. -/
theorem loop_begin (here : hist[h]? = some ⟨name, line, 0⟩) (named : name ≠ []) (past : line < L) :
    flineLoop hist L (turns + 1) ret base base h delta = flineLoop hist L turns ret base h (h + 1) delta := by
  rw [loop_turn here]
  simp only
  rw [if_pos past, if_pos named, if_neg (by simp), if_pos trivial]

/-- The step at the start of a file in an included one. -/
theorem loop_nested (here : hist[h]? = some ⟨name, line, 0⟩) (named : name ≠ []) (other : start ≠ base) (past : line < L) :
    flineLoop hist L (turns + 1) ret base start h delta =
      match flineLoop hist L turns true start start start (lineAt hist start) with
      | some (.ended h) => flineLoop hist L turns ret base start h delta
      | got => got := by
  rw [loop_turn here]
  simp only
  rw [if_pos past, if_pos named, if_neg (by simp)]
  refine (if_neg other).trans ?_
  cases flineLoop hist L turns true start start start (lineAt hist start) with
  | none => rfl
  | some got => cases got <;> rfl

/-- The loop stops at an entry that is not below the line. -/
theorem loop_stop {e : Hist} (here : hist[h]? = some e) (stops : ¬e.line < L) :
    flineLoop hist L (turns + 1) ret base start h delta =
      some (.found (nameAt hist start) (if start ≠ base then L - lineAt hist start + 1 else L - delta + 1)) := by
  rw [loop_turn here]
  rw [if_neg stops, answer, here]

theorem entry_at {before after : List Hist} {e : Hist} (shape : hist = before ++ e :: after) :
    hist[before.length]? = some e := by
  rw [shape]
  simp

/-- The steps over an included file, from the entry that follows its own: the line is in
it, or the loop goes on behind its end marker. -/
theorem loop_included (ret : Bool) (delta : Int) {inner : Body} {before after : List Hist} {g : List UInt16} {k : Int}
    (shape : hist = before ++ (inner.entries k ++ after)) (index : before.length = start + 1) (other : start ≠ base)
    (own : hist[start]? = some ⟨g, k, 0⟩) (named : g ≠ []) (inners : ∀ x ∈ inner.names, x ≠ []) (past : k < L)
    (level : ∀ turns, 3 * (inner.entries k).length ≤ turns →
      Ends true (start + (inner.entries k).length) (answered g inner k 0 L)
        (flineLoop hist L turns true start start (start + 1) k))
    (enough : 3 * (inner.entries k).length + 2 ≤ turns) :
    (∃ x l, answered g inner k 0 L = some (x, l) ∧ flineLoop hist L turns ret base start (start + 1) delta = some (.found x l)) ∨
    (answered g inner k 0 L = none ∧ ∃ left, turns ≤ left + 2 ∧
      flineLoop hist L turns ret base start (start + 1) delta =
        flineLoop hist L left ret base base (start + 1 + (inner.entries k).length) (delta + inner.size)) := by
  have name := nameAt_eq own
  have line := lineAt_eq own
  obtain ⟨turns, rfl⟩ : ∃ t, turns = t + 1 := ⟨turns - 1, by omega⟩
  cases inner with
  | text n =>
    have here := entry_at shape
    rw [index] at here
    rw [answered_text]
    by_cases inside : L ≤ k + n
    · rw [if_pos inside]
      refine .inl ⟨g, _, rfl, ?_⟩
      rw [loop_stop here (by simp only; omega), name, line, if_pos other]
      congr 2
      simp only
      omega
    · rw [if_neg inside]
      refine .inr ⟨rfl, turns, by omega, ?_⟩
      rw [loop_end here other (by omega), line]
      simp only [Body.entries_text, List.length_singleton, Body.size_text]
      congr 1
      omega
  | incl n g' inner' rest' =>
    have here := entry_at shape
    rw [index] at here
    have inner_named : g' ≠ [] := inners g' List.mem_cons_self
    by_cases inside : L ≤ k + n + 1
    · refine .inl ⟨g, L - k + 0 + 1, by rw [answered_incl, if_pos inside], ?_⟩
      rw [loop_stop here (by simp only; omega), name, line, if_pos other]
      congr 2
      simp only
      omega
    · obtain ⟨turns, rfl⟩ : ∃ t, turns = t + 1 := ⟨turns - 1, by omega⟩
      have nested := level turns (by omega)
      rw [loop_nested here inner_named other (by omega), line, loop_begin own named past]
      cases expected : answered g (Body.incl n g' inner' rest') k 0 L with
      | some found =>
        obtain ⟨x, l⟩ := found
        rw [expected] at nested
        refine .inl ⟨x, l, rfl, ?_⟩
        rw [nested]
      | none =>
        have beyond := answered_none.mp expected
        rw [expected] at nested
        rw [nested rfl]
        refine .inr ⟨rfl, turns, by omega, ?_⟩
        obtain ⟨front, last⟩ := entries_last (Body.incl n g' inner' rest') k
        rw [last, List.append_assoc, ← List.append_assoc] at shape
        have final := entry_at shape
        have size : (Body.entries k (Body.incl n g' inner' rest')).length = front.length + 1 := by simp [last]
        rw [List.length_append, index] at final
        rw [size]
        have position : start + 1 + front.length = start + (front.length + 1) := by omega
        rw [position] at final
        simp only
        rw [loop_end final other (by omega), line]
        congr 1
        · omega
        · simp only
          omega

theorem loop_spec {body : Body} (named : ∀ x ∈ body.names, x ≠ []) (ret : Bool) (base turns : Nat) (l0 : Int)
    {before after : List Hist} {f : List UInt16} {a : Int}
    (shape : hist = before ++ (body.entries a ++ after)) (own : nameAt hist base = f) (earlier : base < before.length)
    (enough : 3 * (body.entries a).length ≤ turns) :
    Ends ret (before.length + (body.entries a).length - 1) (answered f body a l0 L)
      (flineLoop hist L turns ret base base before.length (a - l0)) := by
  induction body generalizing before after f ret base turns a l0 with
  | text n =>
    simp only [Body.entries_text, List.length_singleton, List.singleton_append] at shape enough ⊢
    obtain ⟨turns, rfl⟩ : ∃ k, turns = k + 1 := ⟨turns - 1, by omega⟩
    have here := entry_at shape
    rw [answered_text]
    by_cases inside : L ≤ a + n
    · rw [if_pos inside, loop_stop here (by simp only; omega), own, if_neg (by simp)]
      simp only [Ends, Option.some.injEq, Answer.found.injEq, true_and]
      omega
    · rw [if_neg inside]
      intro wanted
      rw [loop_turn here]
      simp only
      rw [if_pos (by omega), if_neg (by simp), if_pos ⟨trivial, wanted⟩]
      rfl
  | incl n g inner rest inner_ih rest_ih =>
    have g_named : g ≠ [] := named g List.mem_cons_self
    have inner_named : ∀ x ∈ inner.names, x ≠ [] := fun x member => named x (by simp [Body.names_incl, member])
    have rest_named : ∀ x ∈ rest.names, x ≠ [] := fun x member => named x (by simp [Body.names_incl, member])
    simp only [Body.entries_incl, List.length_cons, List.length_append] at enough ⊢
    have here : hist[before.length]? = some ⟨g, a + n + 1, 0⟩ := entry_at (by rw [shape, Body.entries_incl, List.cons_append])
    obtain ⟨turns, rfl⟩ : ∃ k, turns = k + 1 := ⟨turns - 1, by omega⟩
    rw [answered_incl]
    by_cases inside : L ≤ a + n + 1
    · rw [if_pos inside, loop_stop here (by simp only; omega), own, if_neg (by simp)]
      simp only [Ends, Option.some.injEq, Answer.found.injEq, true_and]
      omega
    · rw [if_neg inside, loop_begin here g_named (by omega)]
      have inner_shape : hist = (before ++ [⟨g, a + n + 1, 0⟩]) ++ (inner.entries (a + n + 1) ++
          (rest.entries (a + n + 1 + inner.size) ++ after)) := by
        rw [shape, Body.entries_incl]
        simp
      have rest_shape : hist = (before ++ [⟨g, a + n + 1, 0⟩] ++ inner.entries (a + n + 1)) ++
          (rest.entries (a + n + 1 + inner.size) ++ after) := by
        rw [shape, Body.entries_incl]
        simp
      have other : before.length ≠ base := by omega
      rcases loop_included ret (a - l0) inner_shape (by simp) other here g_named inner_named (by omega : a + n + 1 < L) (fun left many => by
          have level := inner_ih inner_named true before.length left 0 inner_shape (nameAt_eq here) (by simp) many
          simpa using level) (by omega : 3 * (inner.entries (a + n + 1)).length + 2 ≤ turns) with ⟨x, l, found, result⟩ | ⟨missing, left, many, result⟩
      · rw [found, result]
        rfl
      · rw [missing, result, Option.none_or]
        have level := rest_ih rest_named ret base left (l0 + n + 1) rest_shape own (by simp; omega) (by omega)
        have index : (before ++ [Hist.mk g (a + n + 1) 0] ++ inner.entries (a + n + 1)).length =
            before.length + 1 + (inner.entries (a + n + 1)).length := by
          simp only [List.length_append, List.length_singleton]
        have delta : a + n + 1 + inner.size - (l0 + n + 1) = a - l0 + inner.size := by omega
        have last : before.length + 1 + (inner.entries (a + n + 1)).length +
            (rest.entries (a + n + 1 + inner.size)).length - 1 =
            before.length + ((inner.entries (a + n + 1)).length + (rest.entries (a + n + 1 + inner.size)).length + 1) - 1 := by
          omega
        rw [index, delta, last] at level
        exact level

end Loop

theorem fline_spec {name : List UInt16} {body : Body} (named : ∀ x ∈ name :: body.names, x ≠ []) {L l : Int} {who : List UInt16}
    (expected : answered name body 1 0 L = some (who, l)) : fline (history name body) L = some (.found who l) := by
  have here : (history name body)[0]? = some ⟨name, 1, 0⟩ := rfl
  have shape : history name body = [⟨name, 1, 0⟩] ++ (body.entries 1 ++ []) := by simp [history]
  have size : (history name body).length = (body.entries 1).length + 1 := rfl
  have turns : 3 * (history name body).length + 3 = 3 * (history name body).length + 2 + 1 := rfl
  rw [fline, lineAt_eq here, turns]
  by_cases past : 1 < L
  · rw [loop_begin here (named name List.mem_cons_self) past]
    have level := loop_spec (L := L) (fun x member => named x (List.mem_cons_of_mem name member)) false 0
      (3 * (history name body).length + 2) 0 shape (nameAt_eq here) (by simp) (by rw [size]; omega)
    rw [expected] at level
    exact level
  · rw [loop_stop here past, nameAt_eq here, if_neg (by simp)]
    have one : L ≤ 1 := by simpa using past
    cases body with
    | text n =>
      rw [answered_text] at expected
      split at expected
      · simp only [Option.some.injEq, Prod.mk.injEq] at expected
        rw [expected.1, ← expected.2]
        congr 2
        simp only
        omega
      · cases expected
    | incl n g inner rest =>
      rw [answered_incl, if_pos (by omega), Option.some.injEq, Prod.mk.injEq] at expected
      rw [expected.1, ← expected.2]
      congr 2
      simp only
      omega

theorem answered_names {f : List UInt16} {body : Body} {a l0 L l : Int} {x : List UInt16}
    (expected : answered f body a l0 L = some (x, l)) : x ∈ f :: body.names := by
  induction body generalizing f a l0 with
  | text n =>
    rw [answered_text] at expected
    split at expected
    · simp only [Option.some.injEq, Prod.mk.injEq] at expected
      simp [expected.1]
    · cases expected
  | incl n g inner rest inner_ih rest_ih =>
    rw [answered_incl] at expected
    split at expected
    · simp only [Option.some.injEq, Prod.mk.injEq] at expected
      simp [expected.1]
    · rcases Option.or_eq_some_iff.mp expected with first | ⟨_, second⟩
      · have := inner_ih first
        simp only [Body.names_incl, List.mem_cons, List.mem_append] at this ⊢
        tauto
      · have := rest_ih second
        simp only [Body.names_incl, List.mem_cons, List.mem_append] at this ⊢
        tauto

theorem mem_turns {n : Nat} {g : List UInt16} {inner rest : Body} {a L : Int} :
    L ∈ (Body.incl n g inner rest).turns a ↔
      (inner.size ≠ 0 ∧ (L = a + n + 1 ∨ L = a + n + 1 + inner.size)) ∨ L ∈ inner.turns (a + n + 1) ∨
        L ∈ rest.turns (a + n + 1 + inner.size) := by
  rw [Body.turns, List.mem_append, List.mem_append, or_assoc]
  split
  next empty => simp [empty]
  next some => simp [some]

/-- Behind an include only the line right after it can be a turn that is not of the rest. -/
theorem mem_turns_later {n : Nat} {g : List UInt16} {inner rest : Body} {a L : Int} (past : a + n + 1 + inner.size < L) :
    L ∈ (Body.incl n g inner rest).turns a ↔ L ∈ rest.turns (a + n + 1 + inner.size) := by
  rw [mem_turns]
  constructor
  · rintro (⟨_, edge | edge⟩ | deep | late)
    · omega
    · omega
    · have := turns_bounds deep
      omega
    · exact late
  · exact fun late => .inr (.inr late)

/-- Past an include the answer is that of the rest. -/
theorem answered_later {n : Nat} {f g : List UInt16} {inner rest : Body} {a l0 L : Int} (past : a + n + 1 + inner.size < L) :
    answered f (.incl n g inner rest) a l0 L = answered f rest (a + n + 1 + inner.size) (l0 + n + 1) L := by
  have missing : answered g inner (a + n + 1) 0 L = none := answered_none.mpr past
  rw [answered_incl, if_neg (by omega), missing, Option.none_or]

/-- In an include, behind its first line, the answer is the include's. -/
theorem answered_within {n : Nat} {f g : List UInt16} {inner rest : Body} {a l0 L : Int} (first : a + n + 1 < L)
    (last : L ≤ a + n + 1 + inner.size) :
    answered f (.incl n g inner rest) a l0 L = answered g inner (a + n + 1) 0 L := by
  rw [answered_incl, if_neg (by omega)]
  cases found : answered g inner (a + n + 1) 0 L with
  | none =>
    have := answered_none.mp found
    omega
  | some got => rfl

/-- Strictly within an include the turns are the include's. -/
theorem mem_turns_within {n : Nat} {g : List UInt16} {inner rest : Body} {a L : Int} (first : a + n + 1 < L)
    (last : L < a + n + 1 + inner.size) :
    L ∈ (Body.incl n g inner rest).turns a ↔ L ∈ inner.turns (a + n + 1) := by
  rw [mem_turns]
  constructor
  · rintro (⟨_, edge | edge⟩ | deep | late)
    · omega
    · omega
    · exact deep
    · have := turns_bounds late
      omega
  · exact fun deep => .inr (.inl deep)

/-- A file is answered for its line, unless the text of another one ends just before it. -/
def Answers (turn : Prop) (answer : Option (List UInt16 × Int)) (who : List UInt16) (l : Int) : Prop :=
  (turn ∧ ∃ x k, answer = some (x, k) ∧ x ≠ who) ∨ (¬turn ∧ answer = some (who, l))

theorem own_answered {f : List UInt16} {body : Body} {a l0 l L : Int} (own : Own body a l0 l L) (once : f ∉ body.names) :
    Answers (L ∈ body.turns a) (answered f body a l0 L) f l := by
  induction own with
  | text first last =>
    refine .inr ⟨by simp [Body.turns], ?_⟩
    rw [answered_text, if_pos (by omega)]
    congr 2
    omega
  | @before n g inner rest a l0 i first last =>
    refine .inr ⟨?_, ?_⟩
    · rw [mem_turns]
      rintro (⟨_, edge | edge⟩ | deep | late)
      · omega
      · omega
      · have := turns_bounds deep
        omega
      · have := turns_bounds late
        omega
    · rw [answered_incl, if_pos (by omega)]
      congr 2
      omega
  | @later n g inner rest a l0 l L own ih =>
    have bounds := own.bounds
    simp only [Body.names_incl, List.cons_append, List.mem_cons, List.mem_append, not_or] at once
    by_cases past : a + n + 1 + inner.size < L
    · rw [mem_turns_later past, answered_later past]
      exact ih once.2.2
    · have edge : L = a + n + 1 + inner.size := by omega
      by_cases empty : inner.size = 0
      · refine .inr ⟨?_, ?_⟩
        · rw [mem_turns]
          rintro (⟨some, _⟩ | deep | late)
          · exact some empty
          · have := turns_bounds deep
            omega
          · have := turns_bounds late
            omega
        · rw [answered_incl, if_pos (by omega)]
          congr 2
          omega
      · refine .inl ⟨mem_turns.mpr (.inl ⟨empty, .inr edge⟩), ?_⟩
        rw [answered_within (by omega) (by omega)]
        cases found : answered g inner (a + n + 1) 0 L with
        | none =>
          have := answered_none.mp found
          omega
        | some got =>
          obtain ⟨x, k⟩ := got
          refine ⟨x, k, rfl, fun same => ?_⟩
          have among := answered_names found
          rw [same] at among
          rcases List.mem_cons.mp among with first | inside
          · exact once.1 first
          · exact once.2.1 inside

theorem inside_answered {f : List UInt16} {body : Body} {a l0 l L : Int} {who : List UInt16} (inside : Inside body a who l L)
    (other : who ≠ f) (once : body.names.count who = 1) :
    Answers (L ∈ body.turns a) (answered f body a l0 L) who l := by
  induction inside generalizing f l0 with
  | @here n g inner rest a l L own =>
    have bounds := own.bounds
    simp only [Body.names_incl, List.cons_append, List.count_cons_self, List.count_append] at once
    have inner_once : g ∉ inner.names := List.count_eq_zero.mp (by omega)
    by_cases first : L = a + n + 1
    · refine .inl ⟨mem_turns.mpr (.inl ⟨by omega, .inl first⟩), ?_⟩
      rw [answered_incl, if_pos (by omega)]
      exact ⟨f, _, rfl, fun same => other same.symm⟩
    · rw [mem_turns_within (by omega) bounds.2.1, answered_within (by omega) (by omega)]
      exact own_answered own inner_once
  | @deeper n g who inner rest a l L inside ih =>
    have bounds := inside.bounds
    have among := inside.mem_names
    simp only [Body.names_incl, List.cons_append, List.count_cons, List.count_append] at once
    have positive := List.count_pos_iff.mpr among
    have distinct : who ≠ g := by
      rintro rfl
      simp at once
      omega
    rw [mem_turns_within (by omega) bounds.2.1, answered_within (by omega) (by omega)]
    exact ih distinct (by omega)
  | @later n g who inner rest a l L inside ih =>
    have bounds := inside.bounds
    have among := inside.mem_names
    simp only [Body.names_incl, List.cons_append, List.count_cons, List.count_append] at once
    have positive := List.count_pos_iff.mpr among
    rw [mem_turns_later (by omega), answered_later (by omega)]
    exact ih other (by omega)

theorem LineOf.answers {name : List UInt16} {body : Body} {who : List UInt16} {l L : Int} (line : LineOf name body who l L)
    (once : (name :: body.names).count who = 1) : Answers (L ∈ body.turns 1) (answered name body 1 0 L) who l := by
  rcases line with ⟨rfl, own⟩ | inside
  · rw [List.count_cons_self] at once
    exact own_answered own (List.count_eq_zero.mp (by omega))
  · have positive := List.count_pos_iff.mpr inside.mem_names
    have other : who ≠ name := by
      rintro rfl
      rw [List.count_cons_self] at once
      omega
    rw [List.count_cons_of_ne other.symm] at once
    exact inside_answered inside other once

theorem fline_iff {name : List UInt16} {body : Body} (named : ∀ x ∈ name :: body.names, x ≠ []) {who : List UInt16} {l L : Int}
    (line : LineOf name body who l L) (once : (name :: body.names).count who = 1) :
    fline (history name body) L = some (.found who l) ↔ L ∉ body.turns 1 := by
  rcases line.answers once with ⟨turn, x, k, found, wrong⟩ | ⟨stays, found⟩
  · rw [fline_spec named found]
    simp only [Option.some.injEq, Answer.found.injEq, turn, not_true, iff_false, not_and]
    exact fun same => absurd same wrong
  · simp [fline_spec named found, stays]

/-! From the file and its line. -/

/-- Where line `l` comes to lie when the walk starts in the file: behind its last line
the count goes on. -/
def reach : Body → Int → Int → Int → Int
  | .text _, a, l0, l => l + a - 1 - l0
  | .incl n _ inner rest, a, l0, l =>
      if l ≤ l0 + n + 1 then l + a - 1 - l0 else reach rest (a + n + 1 + inner.size) (l0 + n + 1) l

theorem reach_text (n : Nat) (a l0 l : Int) : reach (.text n) a l0 l = l + a - 1 - l0 := rfl

theorem reach_incl (n : Nat) (name : List UInt16) (inner rest : Body) (a l0 l : Int) : reach (.incl n name inner rest) a l0 l =
    if l ≤ l0 + n + 1 then l + a - 1 - l0 else reach rest (a + n + 1 + inner.size) (l0 + n + 1) l := rfl

theorem reach_own {body : Body} {a l0 l L : Int} (own : Own body a l0 l L) : reach body a l0 l = L := by
  induction own with
  | text first last => rw [reach_text]; omega
  | before first last =>
    rw [reach_incl, if_pos (by omega)]
    omega
  | later own ih =>
    have := own.bounds
    rw [reach_incl, if_neg (by omega)]
    exact ih

theorem reach_le (body : Body) (a l0 l : Int) : reach body a l0 l ≤ l - l0 + a + body.size - 1 := by
  induction body generalizing a l0 with
  | text n =>
    simp only [reach_text, Body.size_text]
    omega
  | incl n name inner rest _ rest_ih =>
    have := rest_ih (a + n + 1 + inner.size) (l0 + n + 1)
    simp only [reach_incl, Body.size_incl]
    split <;> omega

theorem reach_cases {body : Body} {a l0 l : Int} (positive : l0 < l) :
    Own body a l0 l (reach body a l0 l) ∨ a + body.size ≤ reach body a l0 l := by
  induction body generalizing a l0 with
  | text n =>
    simp only [reach_text, Body.size_text]
    by_cases inside : l ≤ l0 + n
    · left
      have own : Own (.text n) a l0 (l0 + (l - l0)) (a + (l - l0) - 1) := .text (by omega) (by omega)
      have line : l0 + (l - l0) = l := by omega
      have place : a + (l - l0) - 1 = l + a - 1 - l0 := by omega
      rw [line, place] at own
      exact own
    · right
      omega
  | incl n name inner rest _ rest_ih =>
    simp only [reach_incl, Body.size_incl]
    split
    next inside =>
      left
      have own : Own (.incl n name inner rest) a l0 (l0 + (l - l0)) (a + (l - l0) - 1) := .before (by omega) (by omega)
      have line : l0 + (l - l0) = l := by omega
      have place : a + (l - l0) - 1 = l + a - 1 - l0 := by omega
      rw [line, place] at own
      exact own
    next beyond =>
      rcases @rest_ih (a + n + 1 + inner.size) (l0 + n + 1) (by omega) with own | past
      · exact .inl (.later own)
      · right
        omega

theorem own_inside {body : Body} {a l0 l k L : Int} {who : List UInt16} (own : Own body a l0 l L) :
    ¬Inside body a who k L := by
  induction own with
  | text first last => exact fun inside => nomatch inside
  | before first last =>
    rintro (own | inside | inside)
    · have := own.bounds
      omega
    · have := inside.bounds
      omega
    · have := inside.bounds
      omega
  | later own ih =>
    have bounds := own.bounds
    rintro (own' | inside | inside)
    · have := own'.bounds
      omega
    · have := inside.bounds
      omega
    · exact ih inside

section Seek

variable {sp : List Int} {line : Int}

theorem unwind_cons (e : Hist) (rest : List Hist) (ln offset : Int) (d : Nat) : unwind sp line (e :: rest) ln offset d =
    if d = 0 then ln + offset
    else if e.name ≠ [] then
      if e.offset ≠ 0 then
        if hcomp e sp then
          if line ≤ e.offset then ln else unwind sp line rest (line + e.line - e.offset) 0 1
        else unwind sp line rest ln 0 2
      else if d = 1 ∧ ln < e.line - offset then ln + offset
      else unwind sp line rest ln (if d = 1 then offset - e.line else offset) (d + 1)
    else unwind sp line rest ln (if d - 1 = 1 then offset + e.line else offset) (d - 1) := rfl

theorem unwind_push {name : List UInt16} (named : name ≠ []) (at_ ln offset : Int) (rest : List Hist) (d : Nat) :
    unwind sp line (⟨name, at_, 0⟩ :: rest) ln offset (d + 1) =
      if d = 0 ∧ ln < at_ - offset then ln + offset
      else unwind sp line rest ln (if d = 0 then offset - at_ else offset) (d + 2) := by
  rw [unwind_cons, if_neg (by omega), if_pos named, if_neg (by simp)]
  simp only [Nat.add_eq_right]

theorem unwind_pop (at_ ln offset : Int) (rest : List Hist) (d : Nat) :
    unwind sp line (⟨[], at_, 0⟩ :: rest) ln offset (d + 1) =
      unwind sp line rest ln (if d = 1 then offset + at_ else offset) d := by
  rw [unwind_cons, if_neg (by omega), if_neg (by simp)]
  simp only [Nat.add_sub_cancel]

theorem unwind_done (ln offset : Int) (rest : List Hist) : unwind sp line rest ln offset 0 = ln + offset := by
  cases rest with
  | nil => rfl
  | cons e rest => exact if_pos rfl

/-- An included file is walked over. -/
theorem unwind_skip {body : Body} (named : ∀ x ∈ body.names, x ≠ []) (a ln offset : Int) (after : List Hist) (d : Nat) :
    unwind sp line (body.entries a ++ after) ln offset (d + 2) =
      unwind sp line after ln (if d = 0 then offset + (a + body.size) else offset) (d + 1) := by
  induction body generalizing a offset after d with
  | text n =>
    rw [Body.entries_text, List.singleton_append, unwind_pop]
    simp [Body.size_text]
  | incl n name inner rest inner_ih rest_ih =>
    have name_named : name ≠ [] := named name List.mem_cons_self
    have inner_named : ∀ x ∈ inner.names, x ≠ [] := fun x member => named x (by simp [Body.names_incl, member])
    have rest_named : ∀ x ∈ rest.names, x ≠ [] := fun x member => named x (by simp [Body.names_incl, member])
    rw [Body.entries_incl, List.cons_append, List.append_assoc, unwind_push name_named, if_neg (by omega), if_neg (by omega),
      inner_ih inner_named, if_neg (by omega), rest_ih rest_named]
    congr 1
    simp only [Body.size_incl]
    split <;> omega

theorem unwind_own {body : Body} (named : ∀ x ∈ body.names, x ≠ []) (a l0 l : Int) (after : List Hist) :
    unwind sp line (body.entries a ++ after) l (a - 1 - l0) 1 = reach body a l0 l := by
  induction body generalizing a l0 with
  | text n =>
    rw [Body.entries_text, List.singleton_append, unwind_pop, unwind_done, if_neg (by omega), reach_text]
    omega
  | incl n name inner rest inner_ih rest_ih =>
    have name_named : name ≠ [] := named name List.mem_cons_self
    have inner_named : ∀ x ∈ inner.names, x ≠ [] := fun x member => named x (by simp [Body.names_incl, member])
    have rest_named : ∀ x ∈ rest.names, x ≠ [] := fun x member => named x (by simp [Body.names_incl, member])
    rw [Body.entries_incl, List.cons_append, List.append_assoc, unwind_push name_named, reach_incl]
    by_cases inside : l ≤ l0 + n + 1
    · rw [if_pos ⟨rfl, by omega⟩, if_pos inside]
      omega
    · rw [if_neg (by omega), if_neg inside, if_pos rfl, unwind_skip inner_named, if_pos rfl, ← rest_ih rest_named]
      congr 1
      omega

theorem hline_cons (e : Hist) (rest : List Hist) (l : Int) :
    hline (e :: rest) sp l = if matching sp e then some (unwind sp l rest l (e.line - 1) 1) else hline rest sp l := by
  unfold hline
  by_cases found : matching sp e
  · rw [List.dropWhile_cons_of_neg (by simp [found]), if_pos found]
  · rw [List.dropWhile_cons_of_pos (by simp [found]), if_neg found]

/-- The wanted name against a file's name. -/
def wanted (sp : List Int) (name : List UInt16) : Bool := matching sp ⟨name, 0, 0⟩

theorem matching_eq (name : List UInt16) (at_ : Int) : matching sp ⟨name, at_, 0⟩ = wanted sp name := rfl

theorem unwanted_end : wanted sp [] = false := by simp [wanted, matching]

/-- The first included file with a wanted name, and the line that is found from it. -/
def matched (sp : List Int) : Body → Option (List UInt16)
  | .text _ => none
  | .incl _ name inner rest => if wanted sp name then some name else (matched sp inner).or (matched sp rest)

def seek (sp : List Int) (l : Int) : Body → Int → Option Int
  | .text _, _ => none
  | .incl n name inner rest, a =>
      if wanted sp name then some (reach inner (a + n + 1) 0 l)
      else (seek sp l inner (a + n + 1)).or (seek sp l rest (a + n + 1 + inner.size))

theorem matched_incl (n : Nat) (name : List UInt16) (inner rest : Body) : matched sp (.incl n name inner rest) =
    if wanted sp name then some name else (matched sp inner).or (matched sp rest) := rfl

theorem seek_incl (l : Int) (n : Nat) (name : List UInt16) (inner rest : Body) (a : Int) : seek sp l (.incl n name inner rest) a =
    if wanted sp name then some (reach inner (a + n + 1) 0 l)
    else (seek sp l inner (a + n + 1)).or (seek sp l rest (a + n + 1 + inner.size)) := rfl

theorem hline_body {body : Body} (named : ∀ x ∈ body.names, x ≠ []) (a l : Int) (after : List Hist) :
    hline (body.entries a ++ after) sp l = (seek sp l body a).or (hline after sp l) := by
  induction body generalizing a after with
  | text n =>
    rw [Body.entries_text, List.singleton_append, hline_cons, matching_eq, unwanted_end]
    simp [seek]
  | incl n name inner rest inner_ih rest_ih =>
    have inner_named : ∀ x ∈ inner.names, x ≠ [] := fun x member => named x (by simp [Body.names_incl, member])
    have rest_named : ∀ x ∈ rest.names, x ≠ [] := fun x member => named x (by simp [Body.names_incl, member])
    rw [Body.entries_incl, List.cons_append, List.append_assoc, hline_cons, matching_eq, seek_incl]
    by_cases found : wanted sp name
    · have own := @unwind_own sp l inner inner_named (a + n + 1) 0 l (rest.entries (a + n + 1 + inner.size) ++ after)
      rw [Int.sub_zero] at own
      rw [if_pos found, if_pos found, own, Option.some_or]
    · rw [if_neg found, if_neg found, inner_ih inner_named, rest_ih rest_named, Option.or_assoc]

theorem find_body (body : Body) (a : Int) (after : List Hist) :
    ((body.entries a ++ after).find? (matching sp)).map Hist.name =
      (matched sp body).or ((after.find? (matching sp)).map Hist.name) := by
  induction body generalizing a after with
  | text n =>
    rw [Body.entries_text, List.singleton_append, List.find?_cons_of_neg (by rw [matching_eq, unwanted_end]; decide), matched,
      Option.none_or]
  | incl n name inner rest inner_ih rest_ih =>
    rw [Body.entries_incl, List.cons_append, List.append_assoc, matched_incl]
    by_cases found : wanted sp name
    · rw [List.find?_cons_of_pos (by rw [matching_eq]; exact found), if_pos found]
      rfl
    · rw [List.find?_cons_of_neg (by rw [matching_eq]; exact found), if_neg found, inner_ih, rest_ih, Option.or_assoc]

theorem seek_none {body : Body} {a l : Int} : seek sp l body a = none ↔ matched sp body = none := by
  induction body generalizing a with
  | text n => simp [seek, matched]
  | incl n name inner rest inner_ih rest_ih =>
    rw [seek_incl, matched_incl]
    split
    · simp
    · rw [Option.or_eq_none_iff, Option.or_eq_none_iff, inner_ih, rest_ih]

theorem matched_names {body : Body} {x : List UInt16} (found : matched sp body = some x) : x ∈ body.names ∧ wanted sp x := by
  induction body with
  | text n => cases found
  | incl n name inner rest inner_ih rest_ih =>
    rw [matched_incl] at found
    split at found
    next wants =>
      obtain rfl := Option.some.inj found
      exact ⟨List.mem_cons_self, wants⟩
    next =>
      rcases Option.or_eq_some_iff.mp found with first | ⟨_, second⟩
      · exact ⟨by simp [Body.names_incl, (inner_ih first).1], (inner_ih first).2⟩
      · exact ⟨by simp [Body.names_incl, (rest_ih second).1], (rest_ih second).2⟩

theorem matched_some {body : Body} {x : List UInt16} (member : x ∈ body.names) (wants : wanted sp x) : matched sp body ≠ none := by
  induction body with
  | text n => cases member
  | incl n name inner rest inner_ih rest_ih =>
    rw [matched_incl]
    split
    · simp
    next other =>
      rw [Ne, Option.or_eq_none_iff]
      rintro ⟨inner_none, rest_none⟩
      simp only [Body.names_incl, List.cons_append, List.mem_cons, List.mem_append] at member
      rcases member with rfl | first | second
      · exact other wants
      · exact inner_ih first inner_none
      · exact rest_ih second rest_none

theorem seek_le {body : Body} {a l r : Int} (found : seek sp l body a = some r) : r ≤ l + a + body.size - 1 := by
  induction body generalizing a with
  | text n => cases found
  | incl n name inner rest inner_ih rest_ih =>
    rw [seek_incl] at found
    simp only [Body.size_incl]
    split at found
    · obtain rfl := Option.some.inj found
      have := reach_le inner (a + n + 1) 0 l
      omega
    · rcases Option.or_eq_some_iff.mp found with first | ⟨_, second⟩
      · have := inner_ih first
        omega
      · have := rest_ih second
        omega

/-- The search ends in the file itself: its line is found. -/
theorem seek_own {body : Body} {a l L : Int} {who : List UInt16} (inside : Inside body a who l L)
    (once : body.names.count who = 1) (found : matched sp body = some who) : seek sp l body a = some L := by
  induction inside with
  | @here n g inner rest a l L own =>
    simp only [Body.names_incl, List.cons_append, List.count_cons_self, List.count_append] at once
    rw [matched_incl] at found
    rw [seek_incl]
    by_cases wants : wanted sp g
    · rw [if_pos wants, reach_own own]
    · rw [if_neg wants] at found
      rcases Option.or_eq_some_iff.mp found with first | ⟨_, second⟩
      · have := List.count_pos_iff.mpr (matched_names first).1
        omega
      · have := List.count_pos_iff.mpr (matched_names second).1
        omega
  | @deeper n g who inner rest a l L inside ih =>
    have positive := List.count_pos_iff.mpr inside.mem_names
    simp only [Body.names_incl, List.cons_append, List.count_cons, List.count_append] at once
    rw [matched_incl] at found
    rw [seek_incl]
    by_cases wants : wanted sp g
    · rw [if_pos wants, Option.some.injEq] at found
      simp only [found, beq_self_eq_true, if_true] at once
      omega
    · rw [if_neg wants] at found ⊢
      rcases Option.or_eq_some_iff.mp found with first | ⟨_, second⟩
      · rw [ih (by omega) first, Option.some_or]
      · have := List.count_pos_iff.mpr (matched_names second).1
        omega
  | @later n g who inner rest a l L inside ih =>
    have positive := List.count_pos_iff.mpr inside.mem_names
    simp only [Body.names_incl, List.cons_append, List.count_cons, List.count_append] at once
    rw [matched_incl] at found
    rw [seek_incl]
    by_cases wants : wanted sp g
    · rw [if_pos wants, Option.some.injEq] at found
      simp only [found, beq_self_eq_true, if_true] at once
      omega
    · rw [if_neg wants] at found ⊢
      rcases Option.or_eq_some_iff.mp found with first | ⟨missing, second⟩
      · have := List.count_pos_iff.mpr (matched_names first).1
        omega
      · rw [seek_none.mpr missing, Option.none_or]
        exact ih (by omega) second

/-- The search ends in another file: another line is found. -/
theorem seek_other {body : Body} {a l L r : Int} {who x : List UInt16} (inside : Inside body a who l L) (wants : wanted sp who)
    (found : matched sp body = some x) (other : x ≠ who) (got : seek sp l body a = some r) : r ≠ L := by
  induction inside with
  | @here n g inner rest a l L own =>
    rw [matched_incl, if_pos wants] at found
    exact absurd (Option.some.inj found).symm other
  | @deeper n g who inner rest a l L inside ih =>
    have bounds := inside.bounds
    rw [matched_incl] at found
    rw [seek_incl] at got
    by_cases first : wanted sp g
    · rw [if_pos first, Option.some.injEq] at got
      subst got
      rintro rfl
      rcases @reach_cases inner (a + n + 1) 0 l (by omega) with own | past
      · exact own_inside own inside
      · omega
    · rw [if_neg first] at found got
      cases deep : matched sp inner with
      | none => exact absurd deep (matched_some inside.mem_names wants)
      | some y =>
        rw [deep, Option.some_or] at found
        cases line : seek sp l inner (a + n + 1) with
        | none => exact absurd (seek_none.mp line) (by simp [deep])
        | some s =>
          rw [line, Option.some_or] at got
          exact ih wants (deep.trans found) other (line.trans got)
  | @later n g who inner rest a l L inside ih =>
    have bounds := inside.bounds
    rw [matched_incl] at found
    rw [seek_incl] at got
    by_cases first : wanted sp g
    · rw [if_pos first, Option.some.injEq] at got
      have := reach_le inner (a + n + 1) 0 l
      omega
    · rw [if_neg first] at found got
      rcases Option.or_eq_some_iff.mp got with deep | ⟨missing, late⟩
      · have := seek_le deep
        omega
      · rw [seek_none.mp missing, Option.none_or] at found
        exact ih wants found other late

/-- A wanted name that some entry matches has no component from 2^15 on. -/
theorem hcompLoop_nonneg {s : List Int} {js : List UInt16} (part : s ⊆ sp) (done : hcompLoop sp s js = []) : ∀ c ∈ s, 0 ≤ c := by
  induction js generalizing s with
  | nil =>
    have empty : s = [] := done
    simp [empty]
  | cons j js ih =>
    cases s with
    | nil => simp
    | cons c s =>
      rw [hcompLoop] at done
      by_cases same : c = j.toNat
      · rw [if_pos same] at done
        intro d member
        rcases List.mem_cons.mp member with rfl | later
        · omega
        · exact ih (fun x inside => part (List.mem_cons_of_mem c inside)) done d later
      · rw [if_neg same] at done
        intro d member
        exact ih (List.Subset.refl sp) done d (part member)

theorem hcompLoop_self {s : List Int} {js : List UInt16} (same : s = js.map fun j => (j.toNat : Int)) : hcompLoop sp s js = [] := by
  induction js generalizing s with
  | nil =>
    subst same
    rfl
  | cons j js ih =>
    subst same
    rw [List.map_cons, hcompLoop, if_pos rfl]
    exact ih rfl

theorem wanted_self {who x : List UInt16} (named : who ≠ []) (wants : wanted (who.map short) x) : wanted (who.map short) who := by
  simp only [wanted, matching, hcomp, decide_eq_true_eq, Bool.decide_and, Bool.and_eq_true, decide_not, Bool.not_eq_true',
    decide_eq_false_iff_not] at wants ⊢
  obtain ⟨_, some, done⟩ := wants
  have nonneg := hcompLoop_nonneg (List.Subset.refl _) done
  have plain : who.map short = who.map fun j => (j.toNat : Int) := by
    refine List.map_congr_left fun j member => ?_
    have := nonneg (short j) (List.mem_map_of_mem member)
    have small := j.toNat_lt
    unfold short at this ⊢
    split at this
    next low => rw [if_pos low]
    next => omega
  exact ⟨named, some, hcompLoop_self plain⟩

end Seek

/-- The first entry that the search for a file's name takes for it. -/
def firstMatch (hist : List Hist) (who : List UInt16) : Option (List UInt16) :=
  (hist.find? (matching (who.map short))).map Hist.name

theorem hline_iff {name : List UInt16} {body : Body} (named : ∀ x ∈ name :: body.names, x ≠ []) {who : List UInt16} {l L : Int}
    (line : LineOf name body who l L) (once : (name :: body.names).count who = 1) :
    hline (history name body) (who.map short) l = some L ↔ firstMatch (history name body) who = some who := by
  have body_named : ∀ x ∈ body.names, x ≠ [] := fun x member => named x (List.mem_cons_of_mem name member)
  have whole : body.entries 1 = body.entries 1 ++ [] := (List.append_nil _).symm
  have own := @unwind_own (who.map short) l body body_named 1 0 l []
  rw [List.append_nil] at own
  have find : ((body.entries 1).find? (matching (who.map short))).map Hist.name = matched (who.map short) body := by
    rw [whole, find_body]
    simp
  have seeks : hline (body.entries 1) (who.map short) l = seek (who.map short) l body 1 := by
    rw [whole, hline_body body_named]
    simp [hline]
  unfold firstMatch history
  rw [hline_cons, matching_eq, seeks]
  rcases line with ⟨rfl, mine⟩ | inside
  · by_cases wants : wanted (who.map short) who
    · rw [if_pos wants, List.find?_cons_of_pos (by rw [matching_eq]; exact wants)]
      have value : unwind (who.map short) l (body.entries 1) l (1 - 1) 1 = L := own.trans (reach_own mine)
      rw [value]
      simp
    · rw [if_neg wants, List.find?_cons_of_neg (by rw [matching_eq]; exact wants), find]
      have none : matched (who.map short) body = none := by
        cases found : matched (who.map short) body with
        | none => rfl
        | some x => exact absurd (wanted_self (named who List.mem_cons_self) (matched_names found).2) wants
      rw [none, seek_none.mpr none]
      simp
  · have positive := List.count_pos_iff.mpr inside.mem_names
    have bounds := inside.bounds
    have other : name ≠ who := by
      rintro rfl
      rw [List.count_cons_self] at once
      omega
    rw [List.count_cons_of_ne other] at once
    by_cases wants : wanted (who.map short) name
    · rw [if_pos wants, List.find?_cons_of_pos (by rw [matching_eq]; exact wants)]
      have value : unwind (who.map short) l (body.entries 1) l (1 - 1) 1 = reach body 1 0 l := own
      simp only [value, Option.some.injEq, Option.map_some, other, iff_false]
      rintro rfl
      rcases @reach_cases body 1 0 l (by omega) with own' | past
      · exact own_inside own' inside
      · omega
    · rw [if_neg wants, List.find?_cons_of_neg (by rw [matching_eq]; exact wants), find]
      constructor
      · intro got
        cases found : matched (who.map short) body with
        | none =>
          rw [seek_none.mpr found] at got
          cases got
        | some x =>
          by_contra wrong
          have mine := wanted_self (named who (List.mem_cons_of_mem name inside.mem_names)) (matched_names found).2
          exact seek_other inside mine found (fun same => wrong (congrArg some same)) got rfl
      · exact fun found => seek_own inside once found

/-- Both directions are right exactly for a line that no other file's text ends just
before, in a file that is the first entry of the history taken for its name. -/
theorem fline_hline_iff {name : List UInt16} {body : Body} (named : ∀ x ∈ name :: body.names, x ≠ []) {who : List UInt16}
    {l L : Int} (line : LineOf name body who l L) (once : (name :: body.names).count who = 1) :
    (fline (history name body) L = some (.found who l) ∧ hline (history name body) (who.map short) l = some L) ↔
      L ∉ body.turns 1 ∧ firstMatch (history name body) who = some who := by
  rw [fline_iff named line once, hline_iff named line once]

/-- A file of two lines whose first includes another of two. -/
def oneInclude : Body := .incl 0 [2] (.text 2) (.text 1)

theorem oneInclude_second :
    fline (history [1] oneInclude) 3 = some (.found [2] 2) ∧ hline (history [1] oneInclude) ([2].map short) 2 = some 3 :=
  (fline_hline_iff (by decide) (.inr (.here (.text (i := 2) (by decide) (by decide)))) (by decide)).mpr
    ⟨by decide, by decide⟩

/-- Two includes, the name of the first of which ends with that of the second. -/
def twoIncludes : Body := .incl 0 [2, 3] (.text 1) (.incl 0 [3] (.text 2) (.text 0))

theorem fline_hline_fails :
    (LineOf [1] oneInclude [2] 1 2 ∧ ([1] :: oneInclude.names).count [2] = 1 ∧
      fline (history [1] oneInclude) 2 = some (.found [1] 2)) ∧
    LineOf [1] twoIncludes [3] 2 5 ∧ ([1] :: twoIncludes.names).count [3] = 1 ∧
      hline (history [1] twoIncludes) ([3].map short) 2 = some 3 := by
  refine ⟨⟨.inr (.here (.text (i := 1) (by decide) (by decide))), by decide, by decide⟩,
    .inr (.later (.here (.text (i := 2) (by decide) (by decide)))), by decide, by decide⟩

end Goken.Proofs.Fline
