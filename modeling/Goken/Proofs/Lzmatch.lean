import Goken.Deflate
import Goken.Lib.Outcome

/-! `lzmatch` finds matches: what it compares are bytes of the input, because the
history is a ring that still has them and the part mirrored behind it agrees. -/

namespace Goken.Proofs.Lzmatch
open Goken.Deflate Goken.Lib Goken.Lib.Matches

/-- The computation does not fault, and its value has `Q`. -/
abbrev Gives {α : Type} (Q : α → Prop) (r : Except Stop α) : Prop := Outcome.Ensures (fun _ => False) Q r

theorem Gives.value {α : Type} {Q : α → Prop} {r : Except Stop α} (gives : Gives Q r) : ∃ a, r = .ok a ∧ Q a := by
  cases gives with
  | ok holds => exact ⟨_, rfl, holds⟩
  | error stops => exact stops.elim

/-- The history has the bytes of the input that are kept, and those at its start
again behind it. -/
structure Held (input : List UInt8) (keeps : Nat → Prop) (hist : Hist) : Prop where
  front : ∀ a < input.length, keeps a → hist (a % 65536) = input[a]?
  slop : ∀ a < input.length, keeps a → a % 65536 < 512 → hist (65536 + a % 65536) = input[a]?

/-- From index `i` on the history shows the input from position `a` on. -/
def Shows (input : List UInt8) (hist : Hist) (i a len : Nat) : Prop :=
  ∀ j < len, ∃ b, input[a + j]? = some b ∧ load hist (i + j) = .ok b

variable {input : List UInt8} {keeps : Nat → Prop} {hist : Hist} {i a len : Nat}

theorem Held.at (held : Held input keeps hist) (inside : a < input.length) (kept : keeps a) (small : i < HistSize)
    (same : i % 65536 = a % 65536) : ∃ b, input[a]? = some b ∧ load hist i = .ok b := by
  have some : input[a]? = some input[a] := List.getElem?_eq_getElem inside
  refine ⟨input[a], some, ?_⟩
  rw [load, if_pos small]
  have found : hist i = input[a]? := by
    by_cases low : i < 65536
    · rw [← held.front a inside kept, ← same, Nat.mod_eq_of_lt low]
    · simp only [HistSize, HistBlock, HistSlop] at small
      rw [← held.slop a inside kept (by omega)]
      congr 1
      omega
  rw [found, some]

theorem Held.shows (held : Held input keeps hist) (inside : a + len ≤ input.length) (kept : ∀ j < len, keeps (a + j))
    (small : i + len ≤ HistSize) (same : i % 65536 = a % 65536) : Shows input hist i a len := by
  intro j within
  exact held.at (by omega) (kept j within) (by omega) (by omega)

theorem Held.mono {less : Nat → Prop} (held : Held input keeps hist) (fewer : ∀ a, less a → keeps a) : Held input less hist :=
  ⟨fun a inside kept => held.front a inside (fewer a kept), fun a inside kept => held.slop a inside (fewer a kept)⟩

theorem Shows.mono (shows : Shows input hist i a len) (less : Nat) (fewer : less ≤ len) : Shows input hist i a less :=
  fun j within => shows j (Nat.lt_of_lt_of_le within fewer)

theorem Shows.drop {k : Nat} (shows : Shows input hist i a len) (within : k ≤ len) : Shows input hist (i + k) (a + k) (len - k) := by
  intro j inside
  obtain ⟨b, known, loaded⟩ := shows (k + j) (by omega)
  exact ⟨b, by rw [Nat.add_assoc]; exact known, by rw [Nat.add_assoc]; exact loaded⟩

/-! The loops of `lzmatch`. -/

variable {p t q : Nat}

theorem differs_compares {k : Nat} (first : Shows input hist p a (k + 1)) (second : Shows input hist t q (k + 1)) :
    Gives (fun differ => differ = false → ∀ j ≤ k, input[a + j]? = input[q + j]?) (differs hist p t k) := by
  induction k with
  | zero =>
      obtain ⟨b, known, loaded⟩ := first 0 (by omega)
      obtain ⟨c, known', loaded'⟩ := second 0 (by omega)
      rw [Nat.add_zero] at known known' loaded loaded'
      rw [differs, loaded, loaded']
      refine .ok fun equal j least => ?_
      obtain rfl : j = 0 := by omega
      have same : b = c := by simpa using equal
      rw [Nat.add_zero, Nat.add_zero, known, known', same]
  | succ k ih =>
      obtain ⟨b, known, loaded⟩ := first (k + 1) (by omega)
      obtain ⟨c, known', loaded'⟩ := second (k + 1) (by omega)
      rw [differs, loaded, loaded']
      refine Outcome.Ensures.value (Outcome.Ensures.value ?_)
      by_cases same : b = c
      · rw [if_neg (not_not_intro same)]
        refine (ih (first.mono _ (by omega)) (second.mono _ (by omega))).mono fun differ rest equal j least => ?_
        by_cases last : j = k + 1
        · rw [last, known, known', same]
        · exact rest equal j (by omega)
      · rw [if_pos same]
        exact .ok fun equal => absurd equal (by decide)

theorem extend_compares {rounds : Nat} (first : Shows input hist p a rounds) (second : Shows input hist t q rounds) :
    Gives (fun s => ∃ j ≤ rounds, s = p + j ∧ ∀ i < j, input[a + i]? = input[q + i]?) (extend hist rounds p t) := by
  induction rounds generalizing p t a q with
  | zero => exact .ok ⟨0, Nat.le_refl 0, rfl, fun i below => absurd below (Nat.not_lt_zero i)⟩
  | succ rounds ih =>
      obtain ⟨b, known, loaded⟩ := first 0 (by omega)
      obtain ⟨c, known', loaded'⟩ := second 0 (by omega)
      rw [Nat.add_zero] at known known' loaded loaded'
      rw [extend, loaded, loaded']
      refine Outcome.Ensures.value (Outcome.Ensures.value ?_)
      by_cases same : b = c
      · rw [if_neg (not_not_intro same)]
        refine (ih (first.drop (Nat.le_add_left 1 rounds)) (second.drop (Nat.le_add_left 1 rounds))).mono ?_
        rintro s ⟨j, least, rfl, rest⟩
        refine ⟨j + 1, by omega, by omega, fun i below => ?_⟩
        cases i with
        | zero => rw [Nat.add_zero, Nat.add_zero, known, known', same]
        | succ i => simpa only [Nat.add_assoc, Nat.add_comm 1 i] using rest i (by omega)
      · rw [if_pos same]
        exact .ok ⟨0, Nat.zero_le _, rfl, fun i below => absurd below (Nat.not_lt_zero i)⟩

/-- What the loop along the chain compares: the input at hand with what lies before it. -/
structure Searchable (input : List UInt8) (hist : Hist) (p es pos : Nat) : Prop where
  ahead : Shows input hist p pos (es - p)
  behind : ∀ off, off ≤ MaxOff → off ≤ pos → Shows input hist (wrap (p - off)) (pos - off) (es - p)

/-- A link that is near enough to be followed leads to a position of the input. -/
def Linked (now : Int) (pos thn : Nat) : Prop := ushort (now - thn) ≤ MaxOff → ushort (now - thn) ≤ pos

variable {now : Int} {es pos ml : Nat} {nexts : Nat → Nat}

theorem chain_finds (search : Searchable input hist p es pos) (links : ∀ i, Linked now pos (nexts i))
    {check thn last runlen m : Nat} (linked : Linked now pos thn) (short : p + runlen < es) :
    Gives (fun found => (found = (runlen, m)) ∨ (runlen < found.1 ∧ p + found.1 ≤ es ∧ found.2 < MaxOff ∧
        Copies input pos found.1 (found.2 + 1)))
      (chain now p es ml nexts hist check thn last runlen m) := by
  induction check generalizing thn last runlen m with
  | zero => exact .ok (.inl rfl)
  | succ check ih =>
      rw [chain]
      by_cases out : ushort (now - thn) ≤ last ∨ ushort (now - thn) > MaxOff
      · rw [if_pos out]
        exact .ok (.inl rfl)
      rw [if_neg out]
      generalize offset : ushort (now - thn) = off at out
      have near : off ≤ MaxOff := by omega
      have before : off ≤ pos := offset ▸ linked (offset ▸ near)
      have here := search.ahead
      have there := search.behind off near before
      refine (differs_compares (here.mono (runlen + 1) (by omega)) (there.mono (runlen + 1) (by omega))).bind ?_
      intro differ compared
      cases differ with
      | true => exact ih (links _) short
      | false =>
          have extended := extend_compares (here.drop (k := runlen + 1) (by omega)) (there.drop (k := runlen + 1) (by omega))
          rw [show es - p - (runlen + 1) = es - (p + runlen + 1) by omega] at extended
          refine extended.bind ?_
          rintro s ⟨j, least, rfl, more⟩
          have longer : p + (runlen + 1) + j - p = runlen + 1 + j := by omega
          have copies : Copies input pos (runlen + 1 + j) (off - 1 + 1) := by
            have positive : off - 1 + 1 = off := by omega
            rw [positive]
            refine ⟨before, ?_, fun k within => ?_⟩
            · obtain ⟨b, known, _⟩ := here (runlen + j) (by omega)
              have inside : pos + (runlen + j) < input.length := by
                by_contra outside
                rw [List.getElem?_eq_none (by omega)] at known
                cases known
              omega
            · by_cases old : k ≤ runlen
              · exact compared rfl k old
              · have equal := more (k - (runlen + 1)) (by omega)
                rw [Nat.add_assoc pos, Nat.add_assoc (pos - off)] at equal
                rwa [show runlen + 1 + (k - (runlen + 1)) = k by omega] at equal
          have found : runlen < runlen + 1 + j ∧ p + (runlen + 1 + j) ≤ es ∧ off - 1 < MaxOff ∧
              Copies input pos (runlen + 1 + j) (off - 1 + 1) := ⟨by omega, by omega, by omega, copies⟩
          simp only [longer]
          by_cases ends : p + (runlen + 1) + j = es ∨ runlen + 1 + j > ml
          · rw [if_pos ends]
            exact .ok (.inr found)
          · rw [if_neg ends]
            refine (ih (links _) (by omega)).mono ?_
            rintro result (rfl | better)
            · exact .inr found
            · exact .inr ⟨by omega, better.2⟩

/-- Either nothing longer is found, or a match. -/
theorem lzmatch_finds (search : Searchable input hist p es pos) (links : ∀ i, Linked now pos (nexts i))
    {thn runlen check : Nat} (linked : Linked now pos thn) :
    Gives (fun found => (found = (runlen, 0)) ∨ (runlen < found.1 ∧ p + found.1 ≤ es ∧ found.2 < MaxOff ∧
        Copies input pos found.1 (found.2 + 1)))
      (lzmatch now thn p es nexts hist runlen check) := by
  rw [lzmatch]
  by_cases full : p + runlen ≥ es
  · rw [if_pos full]
    exact .ok (.inl rfl)
  · rw [if_neg full]
    exact chain_finds search links linked (by omega)

end Goken.Proofs.Lzmatch
