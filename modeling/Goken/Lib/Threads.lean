import Mathlib.Logic.Relation
import Mathlib.Data.Nat.Basic

/-! Threads of a lockstep machine. A thread is a place and a rank; at one place only the
least rank counts. A set of threads that is closed up to smaller ranks covers all that its
threads can reach. -/

namespace Goken.Lib.Threads

variable {ι : Type}

/-- There is a thread at the place of `x` that is not of a larger rank. -/
def Covered (T : ι × Nat → Prop) (x : ι × Nat) : Prop := ∃ n ≤ x.2, T (x.1, n)

theorem covered_self {T : ι × Nat → Prop} {x : ι × Nat} (member : T x) : Covered T x := ⟨x.2, Nat.le_refl _, member⟩

theorem Covered.mono {T U : ι × Nat → Prop} {x : ι × Nat} (covered : Covered T x) (more : ∀ y, T y → U y) : Covered U x := by
  obtain ⟨n, least, member⟩ := covered
  exact ⟨n, least, more _ member⟩

theorem Covered.trans {T U : ι × Nat → Prop} {x : ι × Nat} (covered : Covered T x) (more : ∀ y, T y → Covered U y) : Covered U x := by
  obtain ⟨n, least, member⟩ := covered
  obtain ⟨m, less, other⟩ := more _ member
  exact ⟨m, Nat.le_trans less least, other⟩

theorem Covered.larger {T : ι × Nat → Prop} {i : ι} {n m : Nat} (covered : Covered T (i, n)) (le : n ≤ m) : Covered T (i, m) := by
  obtain ⟨k, least, member⟩ := covered
  exact ⟨k, Nat.le_trans least le, member⟩

section Closures

variable {step : ι → ι → Prop} {T : ι × Nat → Prop}

theorem covers_closure (closed : ∀ x, T x → ∀ k, step x.1 k → Covered T (k, x.2)) {i k : ι} {n : Nat} (first : Covered T (i, n))
    (path : Relation.ReflTransGen step i k) : Covered T (k, n) := by
  induction path with
  | refl => exact first
  | tail _ moves ih =>
    obtain ⟨m, least, member⟩ := ih
    exact (closed _ member _ moves).larger least

end Closures

section Lists

variable [DecidableEq ι]

/-- Add a thread to a list with one thread a place, unless a smaller one is there. -/
def merge : List (ι × Nat) → ι → Nat → List (ι × Nat)
  | [], i, n => [(i, n)]
  | (k, m) :: rest, i, n => if k = i then (k, if n < m then n else m) :: rest else (k, m) :: merge rest i n

theorem merge_cons (k : ι) (m : Nat) (rest : List (ι × Nat)) (i : ι) (n : Nat) : merge ((k, m) :: rest) i n =
    if k = i then (k, if n < m then n else m) :: rest else (k, m) :: merge rest i n := rfl

theorem merge_sound {l : List (ι × Nat)} {i : ι} {n : Nat} {x : ι × Nat} (member : x ∈ merge l i n) : x ∈ l ∨ x = (i, n) := by
  induction l with
  | nil => exact Or.inr (List.mem_singleton.mp member)
  | cons y rest ih =>
    obtain ⟨k, m⟩ := y
    rw [merge_cons] at member
    split at member
    next same =>
      rcases List.mem_cons.mp member with rfl | later
      · split
        · exact Or.inr (by rw [same])
        · exact Or.inl List.mem_cons_self
      · exact Or.inl (List.mem_cons_of_mem _ later)
    next =>
      rcases List.mem_cons.mp member with rfl | later
      · exact Or.inl List.mem_cons_self
      · exact (ih later).imp (List.mem_cons_of_mem _) id

theorem merge_new (l : List (ι × Nat)) (i : ι) (n : Nat) : Covered (· ∈ merge l i n) (i, n) := by
  induction l with
  | nil => exact covered_self (List.mem_singleton.mpr rfl)
  | cons y rest ih =>
    obtain ⟨k, m⟩ := y
    rw [merge_cons]
    split
    next same =>
      subst same
      refine ⟨if n < m then n else m, ?_, List.mem_cons_self⟩
      dsimp only
      split <;> omega
    next => exact ih.mono fun _ => List.mem_cons_of_mem _

theorem merge_old {l : List (ι × Nat)} {x : ι × Nat} (member : x ∈ l) (i : ι) (n : Nat) : Covered (· ∈ merge l i n) x := by
  induction l with
  | nil => cases member
  | cons y rest ih =>
    obtain ⟨k, m⟩ := y
    rw [merge_cons]
    split
    next same =>
      rcases List.mem_cons.mp member with rfl | later
      · refine ⟨if n < m then n else m, ?_, List.mem_cons_self⟩
        dsimp only
        split <;> omega
      · exact covered_self (List.mem_cons_of_mem _ later)
    next =>
      rcases List.mem_cons.mp member with rfl | later
      · exact covered_self List.mem_cons_self
      · exact (ih later).mono fun _ => List.mem_cons_of_mem _

end Lists

end Goken.Lib.Threads
