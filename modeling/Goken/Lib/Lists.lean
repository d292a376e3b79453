import Mathlib.Data.List.Basic
import Mathlib.Data.List.Forall2

/-! Lists cut at one element, or where a run ends; lists related element by
element; what a test lets through of a list of keys. -/

namespace Goken.Lib.Lists

variable {α : Type}

theorem modify_middle (before after : List α) (x : α) (f : α → α) :
    (before ++ x :: after).modify before.length f = before ++ f x :: after := by
  induction before with
  | nil => rfl
  | cons a before ih => simpa using ih

theorem findIdx_split {items : List α} {test : α → Bool} {i : Nat} (found : items.findIdx? test = some i) :
    ∃ before x after, items = before ++ x :: after ∧ before.length = i ∧ test x = true := by
  obtain ⟨inside, passes, _⟩ := List.findIdx?_eq_some_iff_getElem.mp found
  exact ⟨items.take i, items[i], items.drop (i + 1), by simp, by simp; omega, passes⟩

theorem mem_middle {before after : List α} {x y : α} : y ∈ before ++ x :: after ↔ y = x ∨ y ∈ before ++ after :=
  List.perm_middle.mem_iff.trans List.mem_cons

/-- What holds wherever a list is cut, told from its first element. -/
theorem cuts_cons {x : α} {items : List α} {holds : List α → α → List α → Prop} (before : List α) :
    (∀ A q R, x :: items = A ++ q :: R → holds (before ++ A) q R) ↔
      holds before x items ∧ ∀ A q R, items = A ++ q :: R → holds (before ++ [x] ++ A) q R := by
  constructor
  · intro all
    refine ⟨by simpa using all [] x items rfl, fun A q R shape => ?_⟩
    simpa using all (x :: A) q R (by rw [shape, List.cons_append])
  · rintro ⟨first, rest⟩ A q R shape
    cases A with
    | nil =>
      obtain ⟨rfl, rfl⟩ := List.cons.inj shape
      simpa using first
    | cons a A =>
      rw [List.cons_append] at shape
      obtain ⟨rfl, later⟩ := List.cons.inj shape
      simpa using rest A q R later

section Spans

variable {test : α → Bool} {run after : List α}

theorem takeWhile_stops (inside : ∀ a ∈ run, test a = true) (stops : ∀ a ∈ after.head?, test a = false) :
    (run ++ after).takeWhile test = run := by
  rw [List.takeWhile_append_of_pos inside]
  cases after with
  | nil => simp
  | cons a rest => simp [stops a rfl]

theorem dropWhile_stops (inside : ∀ a ∈ run, test a = true) (stops : ∀ a ∈ after.head?, test a = false) :
    (run ++ after).dropWhile test = after := by
  rw [List.dropWhile_append_of_pos inside]
  cases after with
  | nil => rfl
  | cons a rest => simp [stops a rfl]

end Spans

section Related

variable {β : Type} {related : α → β → Prop} {items : List α} {images : List β}

theorem related_imp {weaker : α → β → Prop} (all : List.Forall₂ related items images)
    (imp : ∀ a ∈ items, ∀ b, related a b → weaker a b) : List.Forall₂ weaker items images := by
  induction all with
  | nil => exact .nil
  | cons first _ ih =>
      exact .cons (imp _ List.mem_cons_self _ first) (ih fun a inside => imp a (List.mem_cons_of_mem _ inside))

theorem related_get (all : List.Forall₂ related items images) {i : Nat} {a : α} (found : items[i]? = some a) :
    ∃ b, images[i]? = some b ∧ related a b := by
  induction all generalizing i with
  | nil => cases found
  | cons first _ ih =>
      cases i with
      | zero =>
        cases found
        exact ⟨_, rfl, first⟩
      | succ i => exact ih found

theorem mapM_related {f : α → Option β} : items.mapM f = some images ↔ List.Forall₂ (fun a b => f a = some b) items images := by
  induction items generalizing images with
  | nil => simp [eq_comm]
  | cons a items ih =>
      rw [List.mapM_cons, List.forall₂_cons_left_iff]
      simp only [Option.pure_def, Option.bind_eq_bind, Option.bind_eq_some_iff, Option.some.injEq, ih]
      constructor
      · rintro ⟨b, made, rest, all, rfl⟩
        exact ⟨b, rest, made, all, rfl⟩
      · rintro ⟨b, rest, made, all, rfl⟩
        exact ⟨b, made, rest, all, rfl⟩

end Related

section keys
variable {ι : Type} {keys : List ι} {get : ι → Option α} {test : α → Bool}

theorem filter_filterMap_nil (fails : ∀ i ∈ keys, ∀ a, get i = some a → test a = false) :
    (keys.filterMap get).filter test = [] := by
  apply List.filter_eq_nil_iff.mpr
  intro a inside passes
  obtain ⟨i, key, there⟩ := List.mem_filterMap.mp inside
  rw [fails i key a there] at passes
  cases passes

/-- Only one key leads to an element that passes. -/
theorem filter_filterMap_one (distinct : keys.Nodup) {i : ι} {a : α} (inside : i ∈ keys) (there : get i = some a)
    (passes : test a = true) (only : ∀ j ∈ keys, ∀ b, get j = some b → test b = true → j = i) :
    (keys.filterMap get).filter test = [a] := by
  obtain ⟨before, after, rfl⟩ := List.append_of_mem inside
  obtain ⟨-, tail, apart⟩ := List.nodup_append.mp distinct
  have others : ∀ j, j ≠ i → j ∈ before ++ i :: after → ∀ b, get j = some b → test b = false := by
    intro j differs key b found
    apply Bool.eq_false_iff.mpr
    exact fun passes => differs (only j key b found passes)
  have left : (before.filterMap get).filter test = [] := by
    apply filter_filterMap_nil
    intro j key
    apply others j _ (List.mem_append_left _ key)
    rintro rfl
    exact apart j key j List.mem_cons_self rfl
  have right : (after.filterMap get).filter test = [] := by
    apply filter_filterMap_nil
    intro j key
    apply others j _ (List.mem_append_right _ (List.mem_cons_of_mem i key))
    rintro rfl
    exact (List.nodup_cons.mp tail).1 key
  rw [List.filterMap_append, List.filterMap_cons, there, List.filter_append, List.filter_cons_of_pos passes, left, right]
  rfl

end keys

end Goken.Lib.Lists
