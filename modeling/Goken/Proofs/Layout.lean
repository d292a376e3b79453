import Goken.Layout
import Mathlib.Tactic.Common

/-! Soundness of structure layout. The declarators hand `sualign` a list of
members with signed shifts; the list is packed when every field that joins a
unit starts above the fields already in it. Clean declarations give packed
lists, and `sualign` lays a packed list out soundly. -/

namespace Goken.Proofs.Layout
open Goken.Layout

theorem round_spec {v w : Int} (positive : 0 ≤ v) (low : 0 < w) (high : w ≤ 8) :
    v ≤ round v w ∧ w ∣ round v w := by
  have range : ¬ (w ≤ 0 ∨ 8 < w) := by omega
  have same : v.tmod w = v % w := Int.tmod_eq_emod_of_nonneg positive
  have small := Int.emod_lt_of_pos v low
  simp only [Layout.round, if_neg range, same]
  split
  · refine ⟨by omega, ?_⟩
    have whole : v + (w - v % w) = (v / w + 1) * w := by
      have parts := Int.mul_ediv_add_emod v w
      rw [Int.add_mul, Int.one_mul, Int.mul_comm]
      omega
    exact whole ▸ Int.dvd_mul_left _ _
  next zero => exact ⟨Int.le_refl v, Int.dvd_of_emod_eq_zero (not_not.mp zero)⟩

theorem round_one (v : Int) : round v 1 = v := by simp [Layout.round]

theorem le_round {v : Int} (positive : 0 ≤ v) (w : Int) : v ≤ round v w := by
  by_cases bad : w ≤ 0 ∨ 8 < w
  · have one : round v w = round v 1 := by simp [Layout.round, bad]
    exact Int.le_of_eq (one.trans (round_one v)).symm
  · exact (round_spec positive (by omega) (by omega)).1

theorem round_whole {v : Int} (whole : SZ_LONG ∣ v) : round v SZ_LONG = v := by
  have zero : v.tmod 4 = 0 := Int.tmod_eq_zero_of_dvd whole
  simp [Layout.round, SZ_LONG, zero]

theorem int32_small {v : Int} (low : 0 ≤ v) (high : v < 2 ^ 31) : int32 v = v := by
  simp only [int32, Int.bmod_def]
  split <;> omega

theorem alignment_range {w : Int} (clean : roundDiags w = []) : 0 < w ∧ w ≤ 8 := by
  simp only [roundDiags] at clean
  split at clean
  · cases clean
  · omega

theorem align_round (packflg : Int) {i : Int} {t : Ctype} {op : Aop} (first : op ≠ .Ael2) (positive : 0 ≤ i)
    (clean : roundDiags (alignment packflg t.elem op) = []) (small : round i (alignment packflg t.elem op) < 2 ^ 31) :
    align packflg i t op = round i (alignment packflg t.elem op) := by
  obtain ⟨low, high⟩ := alignment_range clean
  have above := (round_spec positive low high).1
  have here : int32 i = i := int32_small positive (by omega)
  simp only [align, if_neg first, here]
  exact int32_small (by omega) small

theorem align_width (packflg : Int) {i : Int} {t : Ctype} (positive : 0 ≤ i) (width : 0 ≤ t.width)
    (small : i + t.width < 2 ^ 31) : align packflg i t .Ael2 = i + t.width := by
  have here : int32 i = i := int32_small positive (by omega)
  have sum : int32 (i + t.width) = i + t.width := int32_small (by omega) small
  simp only [align, if_true, here, sum, alignment, round_one]

/-! The second pass. -/

/-- The fields of the open unit end at bit `top`; every field that joins it
starts there or later, and no field leaves its unit. -/
def Packed : Option Int → List Member → Prop
  | _, [] => True
  | top, l :: down =>
    if l.nbits ≠ 0 then
      0 < l.nbits ∧
      if l.shift ≤ 0 then -l.shift + l.nbits ≤ 32 ∧ Packed (some (-l.shift + l.nbits)) down
      else (∃ t, top = some t ∧ t ≤ l.shift) ∧ l.shift + l.nbits ≤ 32 ∧ Packed (some (l.shift + l.nbits)) down
    else Packed top down

/-- The region where members placed after `w` may lie: behind it, or in the
free part of the open unit at `o`. -/
def Within (w o : Int) (top : Option Int) (p : Placed) : Prop :=
  8 * w ≤ p.low ∨ ∃ t, top = some t ∧ 8 * o + t ≤ p.low ∧ p.high ≤ 8 * (o + 4)

def Open (w o : Int) (top : Option Int) : Prop := ∀ t, top = some t → 0 ≤ o ∧ o + 4 ≤ w ∧ 4 ∣ o ∧ 0 ≤ t

/-- `link` is a sound layout from `w` to `last`, given the open unit. -/
structure Laid (packflg w o : Int) (top : Option Int) (link : List Placed) (last : Int) : Prop where
  grows : w ≤ last
  disjoint : link.Pairwise Placed.Disjoint
  within : ∀ p ∈ link, Within w o top p
  inside : ∀ p ∈ link, p.low ≤ p.high ∧ p.high ≤ 8 * last
  aligned : ∀ p ∈ link, p.alignment packflg ∣ p.offset

/-- Putting one more member in front. -/
theorem Laid.cons {packflg w o w' o' last : Int} {top top' : Option Int} {link : List Placed} {p : Placed}
    (laid : Laid packflg w' o' top' link last) (grows : w ≤ w') (order : p.low ≤ p.high) (below : p.high ≤ 8 * w')
    (here : Within w o top p) (aligned : p.alignment packflg ∣ p.offset)
    (apart : ∀ q, q.low ≤ q.high → Within w' o' top' q → p.Disjoint q ∧ Within w o top q) :
    Laid packflg w o top (p :: link) last := by
  have rest := fun q member => apart q (laid.inside q member).1 (laid.within q member)
  have later := laid.grows
  refine ⟨by omega, List.pairwise_cons.mpr ⟨fun q member => (rest q member).1, laid.disjoint⟩, ?_, ?_, ?_⟩
  · intro q member
    rcases List.mem_cons.mp member with rfl | member
    · exact here
    · exact (rest q member).2
  · intro q member
    rcases List.mem_cons.mp member with rfl | member
    · exact ⟨order, by omega⟩
    · exact laid.inside q member
  · intro q member
    rcases List.mem_cons.mp member with rfl | member
    · exact aligned
    · exact laid.aligned q member

private theorem field_range (l : Member) (offset shift : Int) (field : l.nbits ≠ 0) :
    (Placed.mk l offset shift).low = 8 * offset + shift ∧ (Placed.mk l offset shift).high = 8 * offset + shift + l.nbits := by
  simp [Placed.low, Placed.high, field]

private theorem element_range (l : Member) (offset shift : Int) (element : l.nbits = 0) :
    (Placed.mk l offset shift).low = 8 * offset ∧ (Placed.mk l offset shift).high = 8 * (offset + l.type.width) := by
  simp [Placed.low, Placed.high, element]

/-- What `sualign` has checked about a member that is no field. -/
def Checked (packflg : Int) (l : Member) : Prop :=
  l.nbits = 0 → 0 ≤ l.type.width ∧ roundDiags (alignment packflg l.type.elem .Ael1) = []

theorem alignStruct_checked {packflg : Int} (ms : List Member) : ∀ {w o : Int},
    (alignStruct packflg w o ms).diags = [] → ∀ l ∈ ms, Checked packflg l := by
  induction ms with
  | nil => intro w o _ l member; cases member
  | cons m ms ih =>
    intro w o clean l member
    rw [alignStruct] at clean
    split at clean
    next field =>
      have rest : ∀ l ∈ ms, Checked packflg l := by
        split at clean <;> exact ih clean
      rcases List.mem_cons.mp member with rfl | member
      · exact fun element => absurd element field
      · exact rest l member
    next element =>
      simp only [List.append_eq_nil_iff] at clean
      obtain ⟨⟨complete, rounded⟩, later⟩ := clean
      rcases List.mem_cons.mp member with rfl | member
      · intro _
        refine ⟨?_, rounded⟩
        split at complete
        · cases complete
        next missing => exact Int.not_lt.mp (fun negative => missing (Or.inl negative))
      · exact ih later l member

/-- Exact ends only grow. -/
theorem structEnd_ge {packflg : Int} (ms : List Member) (checked : ∀ l ∈ ms, Checked packflg l) :
    ∀ {w : Int}, 0 ≤ w → w ≤ structEnd packflg w ms := by
  induction ms with
  | nil => intro w _; exact Int.le_refl w
  | cons m ms ih =>
    intro w positive
    have rest := fun {w} => ih (fun l member => checked l (List.mem_cons_of_mem m member)) (w := w)
    rw [structEnd]
    split
    next field =>
      have unit := (round_spec positive (w := tfieldWidth) (by decide) (by decide)).1
      have size : tfieldWidth = 4 := rfl
      split
      · exact Int.le_trans (by omega) (rest (by omega))
      · exact rest positive
    next element =>
      obtain ⟨width, rounded⟩ := checked m (by simp) (not_not.mp element)
      obtain ⟨low, high⟩ := alignment_range rounded
      have above := (round_spec positive low high).1
      exact Int.le_trans (by omega) (rest (by omega))

private theorem field_alignment (packflg : Int) (l : Member) (offset shift : Int) (field : l.nbits ≠ 0) :
    (Placed.mk l offset shift).alignment packflg = 4 := by
  simp only [Placed.alignment, if_pos field]
  rfl

private theorem element_alignment (packflg : Int) (l : Member) (offset shift : Int) (element : l.nbits = 0) :
    (Placed.mk l offset shift).alignment packflg = alignment packflg l.type.elem .Ael1 := by
  simp [Placed.alignment, element]

/-- The loop of `sualign` lays a packed list out soundly. -/
theorem alignStruct_laid {packflg : Int} (ms : List Member) (checked : ∀ l ∈ ms, Checked packflg l) :
    ∀ (w o : Int) (top : Option Int), 0 ≤ w → Open w o top → Packed top ms → structEnd packflg w ms < 2 ^ 31 →
      (alignStruct packflg w o ms).width = structEnd packflg w ms ∧
      Laid packflg w o top (alignStruct packflg w o ms).link (alignStruct packflg w o ms).width := by
  induction ms with
  | nil =>
    intro w o top _ _ _ _
    exact ⟨rfl, Int.le_refl w, List.Pairwise.nil, by simp [alignStruct], by simp [alignStruct], by simp [alignStruct]⟩
  | cons m ms ih =>
    intro w o top positive unit packed small
    have later : ∀ l ∈ ms, Checked packflg l := fun l member => checked l (List.mem_cons_of_mem m member)
    have size : tfieldWidth = 4 := rfl
    rw [Packed] at packed
    rw [structEnd] at small ⊢
    rw [alignStruct]
    by_cases field : m.nbits ≠ 0
    · simp only [if_pos field] at packed small ⊢
      obtain ⟨bits, packed⟩ := packed
      by_cases starts : m.shift ≤ 0
      · -- a new unit behind everything placed so far
        simp only [if_pos starts] at packed small ⊢
        obtain ⟨fits, packed⟩ := packed
        obtain ⟨above, whole⟩ := round_spec positive (w := tfieldWidth) (by decide) (by decide)
        generalize round w tfieldWidth = start at *
        obtain ⟨width, laid⟩ := ih later _ start _ (by omega)
          (fun t same => by cases same; exact ⟨by omega, by omega, whole, by omega⟩) packed small
        obtain ⟨low, high⟩ := field_range m start (-m.shift) field
        refine ⟨width, laid.cons (by omega) (by omega) (by omega) (Or.inl (by omega)) ?_ ?_⟩
        · rw [field_alignment packflg m _ _ field]
          exact whole
        · rintro q order (behind | ⟨t, same, after, _⟩)
          · exact ⟨Or.inl (by omega), Or.inl (by omega)⟩
          · cases same
            exact ⟨Or.inl (by omega), Or.inl (by omega)⟩
      · -- the free part of the open unit
        simp only [if_neg starts] at packed small ⊢
        obtain ⟨⟨t, rfl, free⟩, fits, packed⟩ := packed
        obtain ⟨base, ends, whole, first⟩ := unit t rfl
        obtain ⟨width, laid⟩ := ih later w o _ positive
          (fun t' same => by cases same; exact ⟨base, ends, whole, by omega⟩) packed small
        obtain ⟨low, high⟩ := field_range m o m.shift field
        refine ⟨width, laid.cons (Int.le_refl w) (by omega) (by omega) (Or.inr ⟨t, rfl, by omega, by omega⟩) ?_ ?_⟩
        · rw [field_alignment packflg m _ _ field]
          exact whole
        · rintro q order (behind | ⟨t', same, after, ends'⟩)
          · exact ⟨Or.inl (by omega), Or.inl behind⟩
          · cases same
            exact ⟨Or.inl (by omega), Or.inr ⟨t, rfl, by omega, ends'⟩⟩
    · have element := not_not.mp field
      simp only [if_neg field] at packed small ⊢
      obtain ⟨width, rounded⟩ := checked m (by simp) element
      obtain ⟨low, high⟩ := alignment_range rounded
      obtain ⟨above, whole⟩ := round_spec positive low high
      have bound := structEnd_ge ms later (w := round w (alignment packflg m.type.elem .Ael1) + m.type.width) (by omega)
      have first : align packflg w m.type .Ael1 = round w (alignment packflg m.type.elem .Ael1) :=
        align_round packflg (by decide) positive rounded (by omega)
      have second := align_width packflg (i := round w (alignment packflg m.type.elem .Ael1)) (t := m.type) (by omega)
         width (by omega)
      rw [first, second]
      generalize round w (alignment packflg m.type.elem .Ael1) = start at *
      obtain ⟨ends, laid⟩ := ih later _ o top (by omega)
        (fun t same => by have := unit t same; exact ⟨this.1, by omega, this.2.2⟩) packed small
      obtain ⟨from_, upto⟩ := element_range m start m.shift element
      refine ⟨ends, laid.cons (by omega) (by omega) (by omega) (Or.inl (by omega)) ?_ ?_⟩
      · rw [element_alignment packflg m _ _ element]
        exact whole
      · rintro q order (behind | ⟨t, same, after, inside⟩)
        · exact ⟨Or.inl (by omega), Or.inl (by omega)⟩
        · have := unit t same
          exact ⟨Or.inr (by omega), Or.inr ⟨t, same, after, inside⟩⟩

/-! The first pass. -/

/-- `lastbit` never leaves the field unit. -/
def InUnit (bits : Bits) : Prop := 0 ≤ bits.lastbit ∧ bits.lastbit ≤ 32

private theorem obitField_range (tag : Option String) (width : Int) (t : Ctype) :
    0 ≤ obitField tag width t ∧ obitField tag width t ≤ 32 := by
  have size : tfieldWidth = 4 := rfl
  simp only [obitField]
  repeat' split
  all_goals omega

private theorem obit_inUnit (tag : Option String) (width : Int) (t : Ctype) {bits : Bits} (valid : InUnit bits) :
    InUnit (obit tag width t bits).bits := by
  have size : tfieldWidth = 4 := rfl
  obtain ⟨low, high⟩ := obitField_range tag width t
  have moved : ∀ b : Bits, InUnit b → InUnit (if tfieldWidth * 8 < b.lastbit + obitField tag width t
      then ⟨obitField tag width t, true⟩ else ⟨b.lastbit + obitField tag width t, b.firstbit⟩) := by
    intro b inside
    have from_ := inside.1
    split
    · exact ⟨low, high⟩
    · exact ⟨Int.add_nonneg from_ low, by simp only; omega⟩
  have start : InUnit (if width = 0 then ⟨0, true⟩ else bits) := by
    split
    · exact ⟨Int.le_refl 0, by decide⟩
    · exact valid
  cases tag with
  | none => exact moved _ start
  | some name => exact moved _ start

/-- However deep the bodies are nested, parsing keeps `lastbit` in the unit. -/
theorem parse_inUnit : (∀ (tlist : Tlist) (bits : Bits), InUnit bits → InUnit (tlist.parse bits).2.1) ∧
    (∀ (body : List Edecl) (bits : Bits), InUnit bits → InUnit (parseBody body bits).bits) ∧
    (∀ (d : Edecl) (bits : Bits), InUnit bits → InUnit (d.parse bits).bits) ∧
    (∀ (edlist : List Edecor) (t : Ctype) (bits : Bits), InUnit bits → InUnit (parseEdlist edlist t bits).bits) ∧
    (∀ (e : Edecor) (t : Ctype) (bits : Bits), InUnit bits → InUnit (e.parse t bits).bits) ∧
    (∀ (lexpr : List Tlist) (bits : Bits), InUnit bits → InUnit (parseLexpr lexpr bits).1) := by
  apply Tlist.parse.mutual_induct
  case case1 => intro t bits valid; simpa only [Tlist.parse] using valid
  case case2 =>
    intro su packflg body _ ih _
    simpa only [Tlist.parse] using ih ⟨Int.le_refl 0, by decide⟩
  case case3 =>
    intro tlist zedlist bits t after diags parsed ih elements valid
    have middle := ih valid
    rw [parsed] at middle
    simp only [Edecl.parse, parsed]
    split
    · exact middle
    · exact elements middle
  case case4 =>
    intro name derivs t bits _
    simp only [Edecor.parse]
    exact ⟨Int.le_refl 0, Int.zero_le_ofNat 32⟩
  case case5 =>
    intro tag lexpr width t bits after diags parsed ih valid
    have middle := ih valid
    rw [parsed] at middle
    simp only [Edecor.parse, parsed]
    exact obit_inUnit tag width t middle
  case case6 => intro bits valid; simpa only [parseBody] using valid
  case case7 =>
    intro d body bits first ih rest valid
    simp only [parseBody]
    exact rest (ih valid)
  case case8 => intro t bits valid; simpa only [parseEdlist] using valid
  case case9 =>
    intro e edlist t bits first ih rest valid
    simp only [parseEdlist]
    exact rest (ih valid)
  case case10 => intro bits valid; simpa only [parseLexpr] using valid
  case case11 =>
    intro tlist lexpr bits t after diags parsed ih rest valid
    have middle := ih valid
    rw [parsed] at middle
    simp only [parseLexpr, parsed]
    exact rest middle

/-- An expression without bodies leaves the globals alone. -/
private theorem parseLexpr_types {lexpr : List Tlist} (types : lexpr.any Tlist.isBody = false) (bits : Bits) :
    (parseLexpr lexpr bits).1 = bits := by
  induction lexpr with
  | nil => simp only [parseLexpr]
  | cons tlist lexpr ih =>
    simp only [List.any_cons, Bool.or_eq_false_iff] at types
    cases tlist with
    | type t => simpa only [parseLexpr, Tlist.parse] using ih types.2
    | sbody su packflg body => simp [Tlist.isBody] at types

/-- What the globals say about the open unit, unless they are stale. -/
structure Tracks (bits : Bits) (stale : Bool) (top : Option Int) : Prop where
  inUnit : InUnit bits
  tracked : bits.firstbit = false → stale = false → ∃ t, top = some t ∧ t ≤ bits.lastbit

private theorem Tracks.lexpr {bits : Bits} {stale : Bool} {top : Option Int} (tracks : Tracks bits stale top)
    (lexpr : List Tlist) : Tracks (parseLexpr lexpr bits).1 (stale || lexpr.any Tlist.isBody) top := by
  refine ⟨parse_inUnit.2.2.2.2.2 lexpr bits tracks.inUnit, ?_⟩
  intro open_ fresh
  simp only [Bool.or_eq_false_iff] at fresh
  rw [parseLexpr_types fresh.2 bits] at open_ ⊢
  exact tracks.tracked open_ fresh.1

private theorem Tracks.tlist {bits : Bits} {stale : Bool} {top : Option Int} (tracks : Tracks bits stale top)
    (tlist : Tlist) : Tracks (tlist.parse bits).2.1 (stale || tlist.isBody) top := by
  refine ⟨parse_inUnit.1 tlist bits tracks.inUnit, ?_⟩
  intro open_ fresh
  simp only [Bool.or_eq_false_iff] at fresh
  cases tlist with
  | type t =>
    simp only [Tlist.parse] at open_ ⊢
    exact tracks.tracked open_ fresh.1
  | sbody su packflg body => exact absurd fresh.2 (by simp [Tlist.isBody])

/-- A field that `dodecl` accepts has the width it was declared with. -/
private theorem obit_accepted {tag : Option String} {width : Int} {t : Ctype} (clean : obitDiags tag width t = []) :
    t.etype.typei = true ∧ 0 ≤ width ∧ width ≤ 32 ∧ (tag.isSome → 0 < width) ∧ obitField tag width t = width := by
  have size : tfieldWidth = 4 := rfl
  simp only [obitDiags, List.append_eq_nil_iff] at clean
  obtain ⟨⟨⟨negative, zero⟩, kind⟩, large⟩ := clean
  have integer : t.etype.typei = true := by
    by_contra other
    simp [other] at kind
  have low : ¬ width < 0 := fun below => by simp [below] at negative
  have nonzero : ¬ (width = 0 ∧ tag.isSome) := fun none => by simp [none] at zero
  have high : ¬ tfieldWidth * 8 < width := fun above => by simp [integer, above] at large
  refine ⟨integer, by omega, by omega, ?_, ?_⟩
  · intro named
    rcases Int.lt_or_eq_of_le (Int.not_lt.mp low) with positive | none
    · exact positive
    · exact absurd ⟨none.symm, named⟩ nonzero
  · simp only [obitField, if_neg low, if_neg nonzero, integer, if_true, if_neg high]

/-- One field keeps the list packed, whatever follows it. -/
private theorem obit_packed {tag : Option String} {width : Int} {t : Ctype} {bits : Bits} {stale : Bool}
    {top : Option Int} {tail : List Member} (tracks : Tracks bits stale top)
    (accepted : (obit tag width t bits).diags = []) (clean : (tag.isSome && stale && joins bits width) = false)
    (next : ∀ top', Tracks (obit tag width t bits).bits (tag.isNone && stale) top' → Packed top' tail) :
    Packed top ((obit tag width t bits).members ++ tail) := by
  have size : tfieldWidth = 4 := rfl
  have keeps := obit_inUnit tag width t tracks.inUnit
  obtain ⟨low, high⟩ := tracks.inUnit
  have diags : obitDiags tag width t = [] := by
    cases tag <;> exact accepted
  obtain ⟨integer, positive, fits, named, same⟩ := obit_accepted diags
  cases tag with
  | none =>
    apply next
    refine ⟨keeps, ?_⟩
    intro open_ fresh
    simp only [obit, same] at open_ ⊢
    by_cases zero : width = 0
    · simp [zero, size] at open_
    simp only [if_neg zero] at open_ ⊢
    split at open_
    · cases open_
    next small =>
      obtain ⟨t, found, below⟩ := tracks.tracked open_ (by simpa using fresh)
      simp only [if_neg small]
      exact ⟨t, found, by omega⟩
  | some name =>
    have wide := named rfl
    have zero : ¬ width = 0 := by omega
    simp only [obit, same, if_neg zero, integer, if_true] at next ⊢
    simp only [List.singleton_append, Packed, edecl, ne_eq, zero, not_false_eq_true, if_true]
    refine ⟨wide, ?_⟩
    by_cases full : tfieldWidth * 8 < bits.lastbit + width
    · simp only [if_pos full] at next ⊢
      simp only [if_true, Int.sub_self, Int.neg_zero, Int.le_refl, Int.zero_add]
      exact ⟨fits, next _ ⟨⟨by simpa using positive, by simpa using fits⟩, fun _ _ => ⟨width, rfl, Int.le_refl _⟩⟩⟩
    · simp only [if_neg full] at next ⊢
      have follow : Packed (some (bits.lastbit + width)) tail := by
        apply next
        exact ⟨⟨by simp only; omega, by simp only; omega⟩, fun _ _ => ⟨_, rfl, Int.le_refl _⟩⟩
      have shift : bits.lastbit + width - width = bits.lastbit := by omega
      rw [shift]
      cases first : bits.firstbit with
      | true =>
        simp only [if_true, Int.neg_neg]
        rw [if_pos (by omega)]
        exact ⟨by omega, follow⟩
      | false =>
        simp only [Bool.false_eq_true, if_false]
        by_cases start : bits.lastbit ≤ 0
        · have none : bits.lastbit = 0 := by omega
          rw [none] at follow ⊢
          simpa using And.intro fits follow
        · rw [if_neg start]
          have joined : joins bits width = true := by
            simp only [joins, first, Bool.not_false, Bool.true_and, Bool.and_eq_true, decide_eq_true_eq]
            omega
          have fresh : stale = false := by simpa [joined] using clean
          obtain ⟨t, found, below⟩ := tracks.tracked first fresh
          exact ⟨⟨t, found, below⟩, by omega, follow⟩

private theorem edecor_packed (e : Edecor) {t : Ctype} {bits : Bits} {stale : Bool} {top : Option Int} {tail : List Member}
    (tracks : Tracks bits stale top) (accepted : (e.parse t bits).diags = []) (clean : e.clean bits stale = true)
    (next : ∀ top', Tracks (e.parse t bits).bits (e.stale stale) top' → Packed top' tail) :
    Packed top ((e.parse t bits).members ++ tail) := by
  cases e with
  | xdecor name derivs =>
    simp only [Edecor.parse, oname, edecl, Edecor.stale] at next ⊢
    simp only [List.singleton_append, Packed, ne_eq, not_true_eq_false, if_false]
    exact next top ⟨⟨Int.le_refl 0, Int.zero_le_ofNat 32⟩, fun _ fresh => by cases fresh⟩
  | obit tag lexpr width =>
    simp only [Edecor.parse, List.append_eq_nil_iff] at accepted next ⊢
    simp only [Edecor.clean, Bool.not_eq_true'] at clean
    exact obit_packed (tracks.lexpr lexpr) accepted.2 clean next

private theorem edlist_packed (edlist : List Edecor) {t : Ctype} {tail : List Member} : ∀ {bits : Bits} {stale : Bool}
    {top : Option Int}, Tracks bits stale top → (parseEdlist edlist t bits).diags = [] →
      cleanEdlist edlist t bits stale = true →
      (∀ top', Tracks (parseEdlist edlist t bits).bits (edlist.foldl Edecor.stale stale) top' → Packed top' tail) →
      Packed top ((parseEdlist edlist t bits).members ++ tail) := by
  induction edlist with
  | nil =>
    intro bits stale top tracks _ _ next
    simp only [parseEdlist, List.foldl_nil] at next ⊢
    exact next top tracks
  | cons e edlist ih =>
    intro bits stale top tracks accepted clean next
    simp only [parseEdlist, List.append_eq_nil_iff, cleanEdlist, Bool.and_eq_true, List.foldl_cons] at accepted clean next ⊢
    rw [List.append_assoc]
    exact edecor_packed e tracks accepted.1 clean.1 (fun top' tracks' => ih tracks' accepted.2 clean.2 next)

/-- A clean body gives a packed list of members. -/
theorem body_packed (body : List Edecl) : ∀ {bits : Bits} {stale : Bool} {top : Option Int}, Tracks bits stale top →
    (parseBody body bits).diags = [] → cleanBody body bits stale = true → Packed top (parseBody body bits).members := by
  induction body with
  | nil =>
    intro bits stale top _ _ _
    simp only [parseBody, Packed]
  | cons d body ih =>
    intro bits stale top tracks accepted clean
    obtain ⟨tlist, zedlist⟩ := d
    simp only [parseBody, List.append_eq_nil_iff, cleanBody, Bool.and_eq_true] at accepted clean ⊢
    have known := tracks.tlist tlist
    have next := fun top' (tracks' : Tracks _ _ top') => ih tracks' accepted.2 clean.2
    simp only [Edecl.parse, List.append_eq_nil_iff] at accepted next ⊢
    cases zedlist with
    | nil =>
      simp only [List.isEmpty_nil, if_true, unnamed, edecl, List.foldl_nil] at next ⊢
      simp only [List.singleton_append, Packed, ne_eq, not_true_eq_false, if_false]
      exact next top known
    | cons e edlist =>
      simp only [List.isEmpty_cons, Bool.false_eq_true, if_false] at accepted next ⊢
      exact edlist_packed (e :: edlist) known accepted.1.2 clean.1 next

/-! Unions, and the two kinds together. -/

private theorem edecor_nbits (e : Edecor) (t : Ctype) (bits : Bits) :
    ∀ l ∈ (e.parse t bits).members, 0 ≤ l.nbits ∧ l.nbits ≤ 32 := by
  intro l member
  cases e with
  | xdecor name derivs =>
    simp only [Edecor.parse, oname, List.mem_singleton] at member
    subst member
    exact ⟨Int.le_refl 0, Int.zero_le_ofNat 32⟩
  | obit tag lexpr width =>
    simp only [Edecor.parse] at member
    cases tag with
    | none => cases member
    | some name =>
      simp only [obit, List.mem_singleton] at member
      subst member
      have range := obitField_range (some name) width t
      simp only [edecl]
      split
      · exact range
      · exact ⟨Int.le_refl 0, Int.zero_le_ofNat 32⟩

/-- No field is wider than the unit. -/
theorem members_nbits (body : List Edecl) : ∀ bits, ∀ l ∈ (parseBody body bits).members, 0 ≤ l.nbits ∧ l.nbits ≤ 32 := by
  have edlists : ∀ (edlist : List Edecor) (t : Ctype) (bits : Bits), ∀ l ∈ (parseEdlist edlist t bits).members,
      0 ≤ l.nbits ∧ l.nbits ≤ 32 := by
    intro edlist t
    induction edlist with
    | nil => intro bits l member; simp only [parseEdlist] at member; cases member
    | cons e edlist ih =>
      intro bits l member
      simp only [parseEdlist, List.mem_append] at member
      rcases member with first | rest
      · exact edecor_nbits e t bits l first
      · exact ih _ l rest
  induction body with
  | nil => intro bits l member; simp only [parseBody] at member; cases member
  | cons d body ih =>
    intro bits l member
    simp only [parseBody, List.mem_append] at member
    rcases member with first | rest
    · obtain ⟨tlist, zedlist⟩ := d
      simp only [Edecl.parse] at first
      split at first
      · simp only [unnamed, edecl, List.mem_singleton] at first
        subst first
        exact ⟨Int.le_refl 0, Int.zero_le_ofNat 32⟩
      · exact edlists _ _ _ l first
    · exact ih _ l rest

private theorem unionEnd_ge (ms : List Member) : ∀ w, w ≤ unionEnd w ms ∧ ∀ l ∈ ms, l.type.width ≤ unionEnd w ms := by
  induction ms with
  | nil => intro w; exact ⟨Int.le_refl w, fun l member => by cases member⟩
  | cons m ms ih =>
    intro w
    obtain ⟨above, rest⟩ := ih (max w m.type.width)
    simp only [unionEnd]
    refine ⟨by omega, fun l member => ?_⟩
    rcases List.mem_cons.mp member with rfl | member
    · omega
    · exact rest l member

private theorem round_zero (w : Int) : round 0 w = 0 := by simp [Layout.round]

/-- The loop of `sualign` over a union puts every member at offset 0. -/
theorem alignUnion_laid {packflg : Int} (ms : List Member) : ∀ (w : Int), 0 ≤ w → (alignUnion packflg w ms).diags = [] →
    unionEnd w ms < 2 ^ 31 → (alignUnion packflg w ms).width = unionEnd w ms ∧
      (alignUnion packflg w ms).link = ms.map (fun l => ⟨l, 0, 0⟩) ∧ ∀ l ∈ ms, 0 < l.type.width := by
  induction ms with
  | nil => intro w _ _ _; exact ⟨rfl, rfl, fun l member => by cases member⟩
  | cons m ms ih =>
    intro w positive clean small
    simp only [alignUnion, List.append_eq_nil_iff] at clean ⊢
    obtain ⟨⟨complete, rounded⟩, later⟩ := clean
    have width : 0 < m.type.width := by
      split at complete
      · cases complete
      · omega
    have bound := unionEnd_ge ms (max w m.type.width)
    simp only [unionEnd] at small ⊢
    have first : align packflg 0 m.type .Ael1 = 0 := by
      have exact_ := align_round packflg (by decide : Aop.Ael1 ≠ .Ael2) (Int.le_refl 0) rounded
        (by rw [round_zero]; decide)
      rwa [round_zero] at exact_
    have second : align packflg 0 m.type .Ael2 = m.type.width := by
      have exact_ := align_width packflg (t := m.type) (Int.le_refl 0) (by omega) (by omega)
      rwa [Int.zero_add] at exact_
    have largest : (if w < m.type.width then m.type.width else w) = max w m.type.width := by
      split <;> omega
    rw [first, second, largest] at later ⊢
    obtain ⟨ends, link, widths⟩ := ih (max w m.type.width) (by omega) later small
    refine ⟨ends, by rw [link]; rfl, fun l member => ?_⟩
    rcases List.mem_cons.mp member with rfl | member
    · exact width
    · exact widths l member

private theorem tracks_start : Tracks ⟨0, true⟩ true none :=
  ⟨⟨Int.le_refl 0, Int.zero_le_ofNat 32⟩, fun _ fresh => by cases fresh⟩

private theorem struct_sound {packflg : Int} {body : List Edecl} (accepted : (Sdecl.mk .TSTRUCT packflg body).Accepted)
    (small : (Sdecl.mk .TSTRUCT packflg body).Small) (clean : (Sdecl.mk .TSTRUCT packflg body).Clean) :
    (Sdecl.mk .TSTRUCT packflg body).Sound := by
  simp only [Sdecl.Accepted, Sdecl.aligned, Sdecl.parsed, sualign, List.append_eq_nil_iff] at accepted
  simp only [Sdecl.Small, Sdecl.parsed] at small
  simp only [Sdecl.Clean] at clean
  obtain ⟨parsed, members, rounded⟩ := accepted
  simp only [Sdecl.Sound, Sdecl.aligned, Sdecl.parsed, sualign]
  have packed := body_packed body tracks_start parsed clean
  have checked := alignStruct_checked _ members
  generalize (parseBody body ⟨0, true⟩).members = ms at *
  obtain ⟨low, high⟩ := alignment_range rounded
  have positive := structEnd_ge ms checked (Int.le_refl 0)
  have above := (round_spec positive low high).1
  obtain ⟨width, laid⟩ := alignStruct_laid ms checked 0 0 none (Int.le_refl 0) (fun t same => by cases same) packed
    (by omega)
  have padded := align_round packflg (t := .typ Su.TSTRUCT.etype 0) (by decide : Aop.Asu2 ≠ .Ael2) positive rounded small
  rw [width, padded]
  refine ⟨fun p member => ?_, laid.disjoint, laid.aligned⟩
  have inside := laid.inside p member
  have end_ : alignment packflg (Ctype.typ Su.TSTRUCT.etype 0).elem .Asu2 = alignment packflg Su.TSTRUCT.etype .Asu2 := rfl
  rw [end_]
  rcases laid.within p member with behind | ⟨t, none, _⟩
  · exact ⟨by omega, inside.1, by omega⟩
  · cases none

private theorem union_sound_iff {packflg : Int} {body : List Edecl} (accepted : (Sdecl.mk .TUNION packflg body).Accepted)
    (small : (Sdecl.mk .TUNION packflg body).Small) :
    (Sdecl.mk .TUNION packflg body).Sound ↔ (Sdecl.mk .TUNION packflg body).Clean := by
  simp only [Sdecl.Accepted, Sdecl.aligned, Sdecl.parsed, sualign, List.append_eq_nil_iff] at accepted
  simp only [Sdecl.Small, Sdecl.parsed] at small
  obtain ⟨_, members, rounded⟩ := accepted
  simp only [Sdecl.Sound, Sdecl.Clean, Sdecl.aligned, Sdecl.parsed, sualign]
  have nbits := members_nbits body ⟨0, true⟩
  generalize (parseBody body ⟨0, true⟩).members = ms at *
  obtain ⟨low, high⟩ := alignment_range rounded
  obtain ⟨positive, widths⟩ := unionEnd_ge ms 0
  have above := (round_spec positive low high).1
  obtain ⟨width, link, present⟩ := alignUnion_laid ms 0 (Int.le_refl 0) members (by omega)
  have padded := align_round packflg (t := .typ Su.TUNION.etype 0) (by decide : Aop.Asu2 ≠ .Ael2) positive rounded small
  have end_ : alignment packflg (Ctype.typ Su.TUNION.etype 0).elem .Asu2 = alignment packflg Su.TUNION.etype .Asu2 := rfl
  rw [width, padded, link, end_]
  have zero : ∀ p ∈ ms.map (fun l => (⟨l, 0, 0⟩ : Placed)), p.offset = 0 ∧ p.low = 0 := by
    intro p member
    obtain ⟨l, _, rfl⟩ := List.mem_map.mp member
    simp [Placed.low]
  constructor
  · rintro ⟨inside, -⟩ l member
    obtain ⟨bits, -⟩ := nbits l member
    by_cases field : l.nbits = 0
    · omega
    · obtain ⟨_, upto⟩ := field_range l 0 0 field
      have := (inside _ (List.mem_map_of_mem member)).2.2
      omega
  · intro clean
    refine ⟨fun p member => ?_, zero⟩
    have start := (zero p member).2
    obtain ⟨l, inside, rfl⟩ := List.mem_map.mp member
    have size := widths l inside
    have some_ := present l inside
    obtain ⟨bits, -⟩ := nbits l inside
    have fits := clean l inside
    by_cases field : l.nbits = 0
    · obtain ⟨_, upto⟩ := element_range l 0 0 field
      exact ⟨by omega, by omega, by omega⟩
    · obtain ⟨_, upto⟩ := field_range l 0 0 field
      exact ⟨by omega, by omega, by omega⟩

/-- Every accepted declaration whose fields join no stale unit, and whose size
`align` can represent, gets a sound layout; a union gets one only then. -/
theorem layout_sound (d : Sdecl) (accepted : d.Accepted) (small : d.Small) :
    (d.Clean → d.Sound) ∧ (d.su = .TUNION → d.Sound → d.Clean) := by
  obtain ⟨su, packflg, body⟩ := d
  cases su with
  | TSTRUCT => exact ⟨struct_sound accepted small, fun union => by cases union⟩
  | TUNION => exact ⟨(union_sound_iff accepted small).mpr, fun _ => (union_sound_iff accepted small).mp⟩

/-- `struct { int a:3, b:5; char c; struct { int x:2; } s; int :0; int d:7; int e[2]; }`. -/
def mixedDecl : Sdecl :=
  let int := Tlist.type (.typ .TINT 4)
  ⟨.TSTRUCT, 0, [.mk int [.obit (some "a") [] 3, .obit (some "b") [] 5], .mk (.type (.typ .TCHAR 1)) [.xdecor "c" []],
    .mk (.sbody .TSTRUCT 0 [.mk int [.obit (some "x") [] 2]]) [.xdecor "s" []], .mk int [.obit none [] 0],
    .mk int [.obit (some "d") [] 7], .mk int [.xdecor "e" [.OARRAY (some 2)]]]⟩

/-- `union { char a:20; }` packed to this size: the field fits in 4 bytes only. -/
def packedDecl (packflg : Int) : Sdecl := ⟨.TUNION, packflg, [.mk (.type (.typ .TCHAR 1)) [.obit (some "a") [] 20]]⟩

theorem mixedDecl_sound : mixedDecl.Sound ∧ (packedDecl 4).Sound ∧ ¬ (packedDecl 2).Sound := by
  refine ⟨(layout_sound mixedDecl (by decide) (by decide)).1 (by decide), (layout_sound (packedDecl 4) (by decide) (by decide)).1 (by decide),
    fun sound => ?_⟩
  exact absurd ((layout_sound (packedDecl 2) (by decide) (by decide)).2 rfl sound) (by decide)

/-- `struct { int i; int :3; int b:4; }`: the field lands on top of `i`. -/
def staleDecl : Sdecl :=
  let int := Tlist.type (.typ .TINT 4)
  ⟨.TSTRUCT, 0, [.mk int [.xdecor "i" []], .mk int [.obit none [] 3], .mk int [.obit (some "b") [] 4]]⟩

theorem staleDecl_overlaps : staleDecl.Accepted ∧ staleDecl.Small ∧ ¬ staleDecl.Sound := by
  refine ⟨by decide, by decide, fun sound => ?_⟩
  have apart := sound.2.1
  revert apart
  decide

end Goken.Proofs.Layout
