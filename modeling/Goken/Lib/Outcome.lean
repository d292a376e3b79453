import Mathlib.Data.List.Forall2

/-! Pre- and postconditions for computations that may stop with an error: the
errors that are allowed are part of the specification. -/

namespace Goken.Lib.Outcome

variable {ε α β : Type} {allowed : ε → Prop}

/-- The computation stops with an allowed error or gives a value with `Q`. -/
inductive Ensures (allowed : ε → Prop) (Q : α → Prop) : Except ε α → Prop where
  | ok {a : α} (holds : Q a) : Ensures allowed Q (.ok a)
  | error {e : ε} (stops : allowed e) : Ensures allowed Q (.error e)

theorem Ensures.of_ok {Q : α → Prop} {a : α} : Ensures allowed Q (.ok a) → Q a
  | .ok holds => holds

theorem Ensures.of_error {Q : α → Prop} {e : ε} : Ensures allowed Q (.error e) → allowed e
  | .error stops => stops

theorem Ensures.bind {Q : α → Prop} {R : β → Prop} {r : Except ε α} {f : α → Except ε β} (first : Ensures allowed Q r)
    (rest : ∀ a, Q a → Ensures allowed R (f a)) : Ensures allowed R (r >>= f) := by
  cases first with
  | ok holds => exact rest _ holds
  | error stops => exact .error stops

theorem Ensures.value {R : β → Prop} {a : α} {f : α → Except ε β} (rest : Ensures allowed R (f a)) :
    Ensures allowed R (Except.ok a >>= f) := rest

theorem Ensures.and {Q R : α → Prop} {r : Except ε α} (first : Ensures allowed Q r) (second : Ensures allowed R r) :
    Ensures allowed (fun a => Q a ∧ R a) r := by
  cases first with
  | ok holds => exact .ok ⟨holds, second.of_ok⟩
  | error stops => exact .error stops

theorem Ensures.mono {Q R : α → Prop} {r : Except ε α} (first : Ensures allowed Q r) (weaker : ∀ a, Q a → R a) :
    Ensures allowed R r := by
  cases first with
  | ok holds => exact .ok (weaker _ holds)
  | error stops => exact .error stops

theorem Ensures.ite {Q : α → Prop} {c : Prop} [Decidable c] {r r' : Except ε α} (yes : c → Ensures allowed Q r)
    (no : ¬ c → Ensures allowed Q r') : Ensures allowed Q (if c then r else r') := by
  split
  · exact yes ‹_›
  · exact no ‹_›

theorem bind_eq_ok {r : Except ε α} {f : α → Except ε β} {b : β} : (r >>= f) = .ok b ↔ ∃ a, r = .ok a ∧ f a = .ok b := by
  cases r with
  | ok a =>
    refine ⟨fun made => ⟨a, rfl, made⟩, ?_⟩
    rintro ⟨_, ⟨⟩, made⟩
    exact made
  | error e =>
    refine ⟨nofun, ?_⟩
    rintro ⟨_, ⟨⟩, -⟩

theorem mapM_eq_ok {f : α → Except ε β} {items : List α} {images : List β} :
    items.mapM f = .ok images ↔ List.Forall₂ (fun a b => f a = .ok b) items images := by
  induction items generalizing images with
  | nil => simp [pure, Except.pure, eq_comm]
  | cons a items ih =>
    rw [List.mapM_cons, bind_eq_ok, List.forall₂_cons_left_iff]
    simp only [bind_eq_ok, ih, pure, Except.pure, Except.ok.injEq]
    constructor
    · rintro ⟨b, made, rest, all, rfl⟩
      exact ⟨b, rest, made, all, rfl⟩
    · rintro ⟨b, rest, made, all, rfl⟩
      exact ⟨b, made, rest, all, rfl⟩

end Goken.Lib.Outcome
