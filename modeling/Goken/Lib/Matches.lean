import Mathlib.Data.List.Basic

/-! Parses of a stream into literals and matches. A match repeats what lies some
distance before it, and may overlap itself. -/

namespace Goken.Lib.Matches

variable {α : Type*}

inductive Item where
  | literals (count : Nat)
  | copy (length distance : Nat)
  deriving DecidableEq, Repr

def Item.span : Item → Nat
  | .literals count => count
  | .copy length _ => length

/-- How much of the stream a parse is about. -/
def span : List Item → Nat
  | [] => 0
  | item :: rest => item.span + span rest

/-- The `length` elements at `start` repeat those `distance` before. -/
structure Copies (stream : List α) (start length distance : Nat) : Prop where
  behind : distance ≤ start
  inside : start + length ≤ stream.length
  same : ∀ k < length, stream[start + k]? = stream[start - distance + k]?

/-- A parse of the part of the stream from `start` on, with matches of the allowed
lengths and distances. -/
def Parses (allowed : Nat → Nat → Prop) (stream : List α) : Nat → List Item → Prop
  | _, [] => True
  | start, .literals count :: rest => start + count ≤ stream.length ∧ Parses allowed stream (start + count) rest
  | start, .copy length distance :: rest =>
      allowed length distance ∧ Copies stream start length distance ∧ Parses allowed stream (start + length) rest

variable {allowed : Nat → Nat → Prop} {stream : List α}

theorem span_append (first second : List Item) : span (first ++ second) = span first + span second := by
  induction first with
  | nil => simp [span]
  | cons item first ih => simp [span, ih, Nat.add_assoc]

theorem Parses.append {start : Nat} {first second : List Item} (head : Parses allowed stream start first)
    (tail : Parses allowed stream (start + span first) second) : Parses allowed stream start (first ++ second) := by
  induction first generalizing start with
  | nil => exact tail
  | cons item first ih =>
      rw [span, ← Nat.add_assoc] at tail
      cases item with
      | literals count => exact ⟨head.1, ih head.2 tail⟩
      | copy length distance => exact ⟨head.1, head.2.1, ih head.2.2 tail⟩

/-- What the stream holds already stays. -/
theorem Copies.grow {start length distance : Nat} (copies : Copies stream start length distance) (more : List α) :
    Copies (stream ++ more) start length distance where
  behind := copies.behind
  inside := by
    have inside := copies.inside
    rw [List.length_append]
    omega
  same k within := by
    have inside := copies.inside
    rw [List.getElem?_append_left (by omega), List.getElem?_append_left (by omega)]
    exact copies.same k within

theorem Parses.grow {start : Nat} {items : List Item} (parses : Parses allowed stream start items) (more : List α) :
    Parses allowed (stream ++ more) start items := by
  induction items generalizing start with
  | nil => trivial
  | cons item items ih =>
      cases item with
      | literals count =>
          refine ⟨?_, ih parses.2⟩
          rw [List.length_append]
          exact Nat.le_add_right_of_le parses.1
      | copy length distance => exact ⟨parses.1, parses.2.1.grow more, ih parses.2.2⟩

end Goken.Lib.Matches
