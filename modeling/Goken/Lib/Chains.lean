import Mathlib.Logic.Function.Basic

/-! Tables of chains: an element is in the chain that its key has the index of,
and the first one with a key stands for it. -/

namespace Goken.Lib.Chains

variable {κ α : Type} [DecidableEq κ]

/-- The first element that passes a test, changed. -/
def change (test : α → Bool) (f : α → α) : List α → List α
  | [] => []
  | a :: rest => if test a then f a :: rest else a :: change test f rest

theorem find_change {test : α → Bool} {f : α → α} (keeps : ∀ a, test (f a) = test a) (l : List α) :
    (change test f l).find? test = (l.find? test).map f := by
  induction l with
  | nil => rfl
  | cons a l ih =>
      by_cases passes : test a = true
      · rw [change, if_pos passes, List.find?_cons_of_pos passes, List.find?_cons_of_pos (by rw [keeps]; exact passes)]
        rfl
      · rw [change, if_neg passes, List.find?_cons_of_neg passes, List.find?_cons_of_neg passes, ih]

theorem find_change_other {test other : α → Bool} {f : α → α} (keeps : ∀ a, other (f a) = other a) (apart : ∀ a, test a = true → other a = false)
    (l : List α) : (change test f l).find? other = l.find? other := by
  induction l with
  | nil => rfl
  | cons a l ih =>
      by_cases passes : test a = true
      · have fails : ¬ other a = true := by simp [apart a passes]
        rw [change, if_pos passes, List.find?_cons_of_neg fails, List.find?_cons_of_neg (by rw [keeps]; exact fails)]
      · rw [change, if_neg passes, List.find?_cons, List.find?_cons, ih]

abbrev Table (α : Type) := Nat → List α

def find (key : α → κ) (index : κ → Nat) (table : Table α) (k : κ) : Option α := (table (index k)).find? fun a => key a = k

def install (key : α → κ) (index : κ → Nat) (table : Table α) (a : α) : Table α :=
  Function.update table (index (key a)) (a :: table (index (key a)))

/-- Changes the element that stands for a key. -/
def assign (key : α → κ) (index : κ → Nat) (table : Table α) (k : κ) (f : α → α) : Table α :=
  Function.update table (index k) (change (fun a => key a = k) f (table (index k)))

section Laws

variable {key : α → κ} {index : κ → Nat} {table : Table α}

theorem find_install (a : α) : find key index (install key index table a) (key a) = some a := by
  rw [find, install, Function.update_self, List.find?_cons_of_pos (by simp)]

theorem find_install_other {a : α} {k : κ} (other : key a ≠ k) : find key index (install key index table a) k = find key index table k := by
  rw [find, find, install]
  by_cases same : index k = index (key a)
  · rw [same, Function.update_self, List.find?_cons_of_neg (by simpa using other)]
  · rw [Function.update_of_ne same]

theorem find_assign {k : κ} {f : α → α} (keeps : ∀ a, key (f a) = key a) :
    find key index (assign key index table k f) k = (find key index table k).map f := by
  rw [find, find, assign, Function.update_self]
  exact find_change (fun a => by rw [keeps]) _

theorem find_assign_other {k k' : κ} {f : α → α} (keeps : ∀ a, key (f a) = key a) (other : k ≠ k') :
    find key index (assign key index table k f) k' = find key index table k' := by
  rw [find, find, assign]
  by_cases same : index k' = index k
  · rw [same, Function.update_self]
    refine find_change_other (fun a => by rw [keeps]) (fun a here => ?_) _
    rw [decide_eq_true_eq] at here
    rw [here]
    exact decide_eq_false other
  · rw [Function.update_of_ne same]

end Laws

end Goken.Lib.Chains
