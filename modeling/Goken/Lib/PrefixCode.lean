import Mathlib.InformationTheory.Coding.KraftMcMillan
import Mathlib.Algebra.Order.Field.Basic
import Mathlib.Algebra.BigOperators.Field

/-! Prefix codes: no symbol's word begins another's. -/

namespace Goken.Lib.PrefixCode
open InformationTheory

variable {ι α : Type*}

def PrefixFree (symbols : Set ι) (word : ι → List α) : Prop :=
  ∀ s ∈ symbols, ∀ t ∈ symbols, word s <+: word t → s = t

variable {word : ι → List α}

theorem PrefixFree.decodable {symbols : Set ι} (free : PrefixFree symbols word) (full : ∀ s ∈ symbols, word s ≠ []) :
    UniquelyDecodable (word '' symbols) := by
  intro left
  induction left with
  | nil =>
    intro right _ inside same
    cases right with
    | nil => rfl
    | cons v right =>
      obtain ⟨s, member, rfl⟩ := inside v List.mem_cons_self
      exact absurd (List.append_eq_nil_iff.mp same.symm).1 (full s member)
  | cons u left ih =>
    intro right within inside same
    obtain ⟨s, first, rfl⟩ := within u List.mem_cons_self
    cases right with
    | nil => exact absurd (List.append_eq_nil_iff.mp same).1 (full s first)
    | cons v right =>
      obtain ⟨t, second, rfl⟩ := inside v List.mem_cons_self
      rw [List.flatten_cons, List.flatten_cons] at same
      have symbol : s = t := by
        have early : word s <+: word t ++ right.flatten := same ▸ List.prefix_append _ _
        rcases List.prefix_or_prefix_of_prefix early (List.prefix_append _ _) with one | other
        · exact free s first t second one
        · exact (free t second s first other).symm
      subst symbol
      rw [ih right (fun w member => within w (List.mem_cons_of_mem _ member))
        (fun w member => inside w (List.mem_cons_of_mem _ member)) (List.append_cancel_left same)]

/-- Kraft's inequality, in units of the longest words there may be. -/
theorem PrefixFree.kraft [Fintype α] [Nonempty α] {symbols : Finset ι} (free : PrefixFree (symbols : Set ι) word) {limit : ℕ}
    (short : ∀ s ∈ symbols, (word s).length ≤ limit) :
    ∑ s ∈ symbols, Fintype.card α ^ (limit - (word s).length) ≤ Fintype.card α ^ limit := by
  classical
  have letters : (0 : ℝ) < Fintype.card α := by exact_mod_cast Fintype.card_pos
  by_cases full : ∀ s ∈ symbols, word s ≠ []
  · have different : Set.InjOn word symbols := fun s first t second same =>
      free s first t second (same ▸ List.prefix_refl _)
    have code : UniquelyDecodable ((symbols.image word : Finset (List α)) : Set (List α)) := by
      rw [Finset.coe_image]
      exact free.decodable full
    have inequality := kraft_mcmillan_inequality code
    rw [Finset.sum_image fun s first t second => different first second] at inequality
    have scaled : (∑ s ∈ symbols, (Fintype.card α : ℝ) ^ (limit - (word s).length)) =
        (Fintype.card α : ℝ) ^ limit * ∑ s ∈ symbols, (1 / Fintype.card α : ℝ) ^ (word s).length := by
      rw [Finset.mul_sum]
      refine Finset.sum_congr rfl fun s member => ?_
      rw [one_div, inv_pow, ← div_eq_mul_inv, eq_div_iff (pow_pos letters _).ne', ← pow_add, Nat.sub_add_cancel (short s member)]
    have bound : (∑ s ∈ symbols, (Fintype.card α : ℝ) ^ (limit - (word s).length)) ≤ (Fintype.card α : ℝ) ^ limit := by
      rw [scaled]
      exact mul_le_of_le_one_right (pow_pos letters limit).le inequality
    exact_mod_cast bound
  · push Not at full
    obtain ⟨s, member, empty⟩ := full
    have only : symbols = {s} := by
      refine Finset.eq_singleton_iff_unique_mem.mpr ⟨member, fun t other => ?_⟩
      exact (free s member t other (empty ▸ List.nil_prefix)).symm
    rw [only, Finset.sum_singleton, empty]
    exact Nat.le_refl _

end Goken.Lib.PrefixCode
