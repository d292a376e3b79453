import Goken.Proofs.Dcl

/-! The frame of a function. The automatics alive at a point are those a symbol
shows and those the stack of declarations keeps for an enclosing block. Each
new one lies below all of them, so none overlap. -/

namespace Goken.Proofs.DclFrame
open Goken.Dcl Goken.Proofs.Dcl Lib.UndoLog
open Goken.Layout (Ctype SZ_LONG align alignment)
open Goken.Proofs.Layout (round_spec round_whole le_round int32_small align_width)

section Align

/-- The end of an automatic of type `t`, before the conversion to `int32`. -/
def frameEnd (st : State) (t : Ctype) : Int :=
  Goken.Layout.round (Goken.Layout.round (st.autoffset + t.width) (alignment st.packflg t.elem .Ael1)) SZ_LONG

/-- The automatic has a size, and the frame with it can be addressed. -/
def Fits (st : State) (t : Ctype) : Prop := 0 ≤ t.width ∧ frameEnd st t < 2 ^ 31

instance (st : State) (t : Ctype) : Decidable (Fits st t) := inferInstanceAs (Decidable (_ ∧ _))

variable {st : State} {t : Ctype}

theorem frameEnd_spec (positive : 0 ≤ st.autoffset) (fits : Fits st t) :
    st.autoffset + t.width ≤ frameEnd st t ∧ SZ_LONG ∣ frameEnd st t := by
  have sized := fits.1
  have inner := le_round (v := st.autoffset + t.width) (by omega) (alignment st.packflg t.elem .Ael1)
  obtain ⟨outer, whole⟩ := round_spec (v := Goken.Layout.round (st.autoffset + t.width) (alignment st.packflg t.elem .Ael1)) (w := SZ_LONG)
    (by omega) (by decide) (by decide)
  exact ⟨inner.trans outer, whole⟩

theorem alignAut3_fits (positive : 0 ≤ st.autoffset) (fits : Fits st t) :
    alignAut3 st.packflg st.autoffset t = frameEnd st t := by
  obtain ⟨sized, small⟩ := fits
  have inner := le_round (v := st.autoffset + t.width) (by omega) (alignment st.packflg t.elem .Ael1)
  have outer := (round_spec (v := Goken.Layout.round (st.autoffset + t.width) (alignment st.packflg t.elem .Ael1)) (w := SZ_LONG)
    (by omega) (by decide) (by decide)).1
  rw [frameEnd] at small
  have width := align_width st.packflg (t := t) positive sized (by omega)
  have element : align st.packflg (st.autoffset + t.width) t .Ael1 =
      Goken.Layout.round (st.autoffset + t.width) (alignment st.packflg t.elem .Ael1) := by
    have start : int32 (st.autoffset + t.width) = st.autoffset + t.width := int32_small (by omega) (by omega)
    rw [align, if_neg (by decide), start, int32_small (by omega) (by omega)]
  rw [alignAut3, width, element, int32_small (by omega) small, frameEnd]

theorem maxround_eq {max v : Int} (positive : 0 ≤ max) (small : max < 2 ^ 31) (nonneg : 0 ≤ v) (fits : v < 2 ^ 31)
    (whole : SZ_LONG ∣ v) : maxround max v = Max.max max v := by
  rw [maxround, int32_small nonneg fits, round_whole whole, int32_small nonneg fits, int32_small positive small]
  split <;> omega

end Align

section Frame

/-- The bytes an automatic takes. -/
def width (a : Ident) : Int := a.type.elim 0 Ctype.width

def Apart (a b : Ident) : Prop := a.offset + width a ≤ b.offset ∨ b.offset + width b ≤ a.offset

theorem Apart.symm {a b : Ident} (apart : Apart a b) : Apart b a := Or.symm apart

def Auto (a : Ident) : Prop := a.storage = .CAUTO

instance (a : Ident) : Decidable (Auto a) := inferInstanceAs (Decidable (_ = _))

/-- The automatics of enclosing blocks that a redeclaration hides. -/
def shadowed (stack : List Decl) : List Ident := ((idents stack).map Prod.snd).filter (Auto ·)

/-- The frame takes `autoffset` bytes, and `a` lies in it. -/
def Within (autoffset : Int) (a : Ident) : Prop := -autoffset ≤ a.offset ∧ a.offset + width a ≤ 0

/-- No two automatics that are alive overlap, whether visible or hidden. -/
structure Disjoint (ident : String → Ident) (saved : List Ident) : Prop where
  visible : ∀ s s', s ≠ s' → Auto (ident s) → Auto (ident s') → Apart (ident s) (ident s')
  mixed : ∀ s, Auto (ident s) → ∀ a ∈ saved, Apart (ident s) a
  hidden : saved.Pairwise Apart

structure Laid (st : State) : Prop where
  nonneg : 0 ≤ st.autoffset
  below : st.autoffset ≤ st.stkoff
  small : st.stkoff < 2 ^ 31
  visible : ∀ s, Auto (st.ident s) → Within st.autoffset (st.ident s)
  hidden : ∀ a ∈ shadowed st.dclstack, Within st.autoffset a
  disjoint : Disjoint st.ident (shadowed st.dclstack)

variable {before after : State}

/-- The frame depends on the table, the hidden automatics and the two offsets only. -/
theorem Laid.keep (laid : Laid before) (ident : after.ident = before.ident)
    (stack : idents after.dclstack = idents before.dclstack) (autoffset : after.autoffset = before.autoffset)
    (stkoff : before.stkoff ≤ after.stkoff) (small : after.stkoff < 2 ^ 31) : Laid after where
  nonneg := autoffset ▸ laid.nonneg
  below := by rw [autoffset]; exact laid.below.trans stkoff
  small := small
  visible := by rw [ident, autoffset]; exact laid.visible
  hidden := by rw [shadowed, stack, autoffset]; exact laid.hidden
  disjoint := by rw [shadowed, stack, ident]; exact laid.disjoint

theorem shadowed_cons (s : String) (old : Ident) (stack : List Decl) :
    shadowed (.DAUTO s old :: stack) = if Auto old then old :: shadowed stack else shadowed stack := by
  simp [shadowed, idents, identEntry, List.filter_cons]

theorem mem_shadowed_cons {a old : Ident} {s : String} {stack : List Decl}
    (inside : a ∈ shadowed (.DAUTO s old :: stack)) : a = old ∧ Auto old ∨ a ∈ shadowed stack := by
  rw [shadowed_cons] at inside
  split at inside
  case isTrue auto => exact (List.mem_cons.mp inside).imp_left fun same => ⟨same, auto⟩
  case isFalse => exact .inr inside

/-- A declaration hides what the symbol showed before; the new automatic, if it
is one, lies below the frame so far. -/
theorem Laid.declare {s : String} {value : Ident} (laid : Laid before)
    (stack : after.dclstack = .DAUTO s (before.ident s) :: before.dclstack)
    (ident : after.ident = Function.update before.ident s value) (grows : before.autoffset ≤ after.autoffset)
    (below : after.autoffset ≤ after.stkoff) (small : after.stkoff < 2 ^ 31)
    (placed : Auto value → -after.autoffset ≤ value.offset ∧ value.offset + width value ≤ -before.autoffset) : Laid after := by
  have positive := laid.nonneg
  have within {a : Ident} (old : Within before.autoffset a) : Within after.autoffset a := ⟨by have := old.1; omega, old.2⟩
  have beneath {a : Ident} (auto : Auto value) (old : Within before.autoffset a) : Apart value a :=
    .inl ((placed auto).2.trans old.1)
  have alive : ∀ a ∈ shadowed after.dclstack, a = before.ident s ∧ Auto (before.ident s) ∨ a ∈ shadowed before.dclstack := by
    intro a inside
    rw [stack] at inside
    exact mem_shadowed_cons inside
  have framed : ∀ a ∈ shadowed after.dclstack, Within before.autoffset a := by
    intro a inside
    rcases alive a inside with ⟨rfl, auto⟩ | older
    · exact laid.visible s auto
    · exact laid.hidden a older
  refine ⟨by omega, below, small, ?_, fun a inside => within (framed a inside), ?_, ?_, ?_⟩
  · intro name auto
    rw [ident] at auto ⊢
    by_cases same : name = s
    · subst same
      rw [Function.update_self] at auto ⊢
      have place := placed auto
      exact ⟨place.1, by omega⟩
    · rw [Function.update_of_ne same] at auto ⊢
      exact within (laid.visible name auto)
  · intro one two different first second
    rw [ident] at first second ⊢
    by_cases here : one = s
    · subst here
      have there := different.symm
      rw [Function.update_self] at first ⊢
      rw [Function.update_of_ne there] at second ⊢
      exact beneath first (laid.visible two second)
    · rw [Function.update_of_ne here] at first ⊢
      by_cases there : two = s
      · subst there
        rw [Function.update_self] at second ⊢
        exact (beneath second (laid.visible one first)).symm
      · rw [Function.update_of_ne there] at second ⊢
        exact laid.disjoint.visible one two different first second
  · intro name auto a inside
    rw [ident] at auto ⊢
    by_cases same : name = s
    · subst same
      rw [Function.update_self] at auto ⊢
      exact beneath auto (framed a inside)
    · rw [Function.update_of_ne same] at auto ⊢
      rcases alive a inside with ⟨rfl, old⟩ | older
      · exact laid.disjoint.visible name s same auto old
      · exact laid.disjoint.mixed name auto a older
  · rw [stack, shadowed_cons]
    split
    case isTrue auto => exact List.pairwise_cons.mpr ⟨laid.disjoint.mixed s auto, laid.disjoint.hidden⟩
    case isFalse => exact laid.disjoint.hidden

end Frame

end Goken.Proofs.DclFrame
