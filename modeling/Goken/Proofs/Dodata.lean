import Goken.Dodata

/-! Data layout never overlaps. A symbol is placed by one of the three passes, after all
the symbols that an earlier pass has placed and those that the same pass has placed
before it. -/

namespace Goken.Proofs.Dodata
open Goken.Dodata Lib.Sweep

theorem rnd_spec {v r : Int} (nonneg : 0 ≤ v) (positive : 0 < r) : v ≤ rnd v r ∧ rnd v r % r = 0 := by
  have truncated : (v + (r - 1)).tmod r = (v + (r - 1)) % r := Int.tmod_eq_emod_of_nonneg (by omega)
  have low := Int.emod_nonneg (v + (r - 1)) (by omega : r ≠ 0)
  have high := Int.emod_lt_of_pos (v + (r - 1)) positive
  have value : rnd v r = v + (r - 1) - (v + (r - 1)) % r := by
    simp only [rnd, truncated]
    rw [if_neg (by omega), if_neg (by omega)]
  rw [value]
  refine ⟨by omega, ?_⟩
  rw [Int.sub_emod, Int.emod_emod_of_dvd _ (Int.dvd_refl r), Int.sub_self, Int.zero_emod]

/-- The pass that places a symbol. -/
inductive Segment where
  | small | data | bss
  deriving DecidableEq

def segment (s : Sym) : Option Segment :=
  if s.type = .SDATA ∨ s.type = .SBSS then
    if sized s ≤ MINSIZ then some .small else if s.type = .SDATA then some .data else some .bss
  else none

/-- What the passes are given. -/
structure Ready (symbols : List Sym) : Prop where
  positive : ∀ s ∈ symbols, s.type = .SDATA ∨ s.type = .SBSS → 0 < s.value
  untagged : ∀ s ∈ symbols, s.type ≠ .SDATA1

section Passes

variable (symbols : List Sym)

def first : List Sym × Int := sweep pass1 0 symbols

def second : List Sym × Int := sweep pass2 (first symbols).2 (first symbols).1

def third : List Sym × Int := sweep pass3 (rnd (second symbols).2 8) (second symbols).1

/-- Where a pass has got to at a symbol. -/
def reached : Segment → Nat → Int
  | .small => countAt pass1 0 symbols
  | .data => countAt pass2 (first symbols).2 (first symbols).1
  | .bss => countAt pass3 (rnd (second symbols).2 8) (second symbols).1

variable {symbols} (ready : Ready symbols)
include ready

theorem sized_spec {s : Sym} (member : s ∈ symbols) (data : s.type = .SDATA ∨ s.type = .SBSS) :
    s.value ≤ sized s ∧ sized s % 4 = 0 ∧ 0 < sized s := by
  have positive := ready.positive s member data
  have value : sized s = rnd s.value 4 := by rw [sized, if_neg (by omega)]
  obtain ⟨above, aligned⟩ := rnd_spec (Int.le_of_lt positive) (by decide : (0 : Int) < 4)
  rw [value]
  exact ⟨above, aligned, by omega⟩

omit ready in
theorem second_at {i : Nat} {s : Sym} (here : symbols[i]? = some s) :
    (first symbols).1[i]? = some (pass1 (reached symbols .small i) s).1 ∧
      (second symbols).1[i]? = some (pass2 (reached symbols .data i) (pass1 (reached symbols .small i) s).1).1 := by
  have one : (first symbols).1[i]? = some (pass1 (reached symbols .small i) s).1 := by
    rw [first, getElem_sweep, here]
    rfl
  refine ⟨one, ?_⟩
  rw [second, getElem_sweep, one]
  rfl

/-- The section a pass leaves a symbol in. -/
def Segment.section : Segment → Section
  | .small | .data => .SDATA
  | .bss => .SBSS

omit ready in
theorem third_at {i : Nat} {s : Sym} {k : Segment} (here : symbols[i]? = some s) (placed : segment s = some k) :
    (third symbols).1[i]? = some { s with value := reached symbols k i, type := k.section } := by
  obtain ⟨-, two⟩ := second_at here
  have three : (third symbols).1[i]? =
      some (pass3 (reached symbols .bss i) (pass2 (reached symbols .data i) (pass1 (reached symbols .small i) s).1).1).1 := by
    rw [third, getElem_sweep, two]
    rfl
  rw [three]
  simp only [segment] at placed
  split at placed
  next data =>
    split at placed
    next small =>
      cases placed
      simp [pass1, pass2, pass3, data, small, Segment.section]
    next large =>
      split at placed
      next initialised =>
        cases placed
        simp [pass1, pass2, pass3, initialised, large, Segment.section]
      next bss =>
        cases placed
        have bss : s.type = .SBSS := by tauto
        simp [pass1, pass2, pass3, bss, large, Segment.section]
  next => cases placed

theorem third_other {i : Nat} {s : Sym} (here : symbols[i]? = some s) (other : segment s = none) :
    (third symbols).1[i]? = some s := by
  have notData : ¬(s.type = .SDATA ∨ s.type = .SBSS) := by
    intro data
    rw [segment, if_pos data] at other
    split at other
    · cases other
    · split at other <;> cases other
  have untagged := ready.untagged s (List.mem_iff_getElem?.mpr ⟨i, here⟩)
  obtain ⟨-, two⟩ := second_at here
  rw [third, getElem_sweep, two]
  rw [not_or] at notData
  simp [pass1, pass2, pass3, notData.1, notData.2, untagged]

omit ready in
theorem reached_succ {i : Nat} {s : Sym} {k : Segment} (here : symbols[i]? = some s) (placed : segment s = some k) :
    reached symbols k (i + 1) = reached symbols k i + sized s := by
  obtain ⟨one, two⟩ := second_at here
  simp only [segment] at placed
  split at placed
  next data =>
    split at placed
    next small =>
      cases placed
      rw [reached, countAt_succ pass1 0 here]
      simp [pass1, data, small]
    next large =>
      split at placed
      next initialised =>
        cases placed
        rw [reached, countAt_succ pass2 _ one]
        simp [pass1, pass2, initialised, large]
      next bss =>
        cases placed
        have bss : s.type = .SBSS := by tauto
        rw [reached, countAt_succ pass3 _ two]
        simp [pass1, pass2, pass3, bss, large]
  next => cases placed

/-- A symbol that a pass still has to place holds its size. -/
def Sizes (t : Section) (symbols : List Sym) : Prop := ∀ s ∈ symbols, s.type = t → 0 < s.value ∧ s.value % 4 = 0

theorem first_sizes {t : Section} (data : t = .SDATA ∨ t = .SBSS) : Sizes t (first symbols).1 := by
  intro u member type
  obtain ⟨i, at_i⟩ := List.mem_iff_getElem?.mp member
  rw [first, getElem_sweep] at at_i
  obtain ⟨s, here, rfl⟩ := Option.map_eq_some_iff.mp at_i
  have inside := List.mem_iff_getElem?.mpr ⟨i, here⟩
  simp only [pass1] at type ⊢
  split at type
  next placeable =>
    obtain ⟨-, aligned, positive⟩ := sized_spec ready inside placeable
    rw [if_pos placeable]
    split at type
    next small =>
      cases type
      rcases data with data | data <;> cases data
    next large =>
      rw [if_neg large]
      exact ⟨positive, aligned⟩
  next other =>
    rw [← type] at data
    exact absurd data other

theorem second_sizes : Sizes .SBSS (second symbols).1 := by
  intro u member type
  obtain ⟨i, at_i⟩ := List.mem_iff_getElem?.mp member
  rw [second, getElem_sweep] at at_i
  obtain ⟨s, here, rfl⟩ := Option.map_eq_some_iff.mp at_i
  have inside := List.mem_iff_getElem?.mpr ⟨i, here⟩
  simp only [pass2] at type ⊢
  split at type
  next data => rw [data] at type; cases type
  next =>
    split at type
    next => cases type
    next => simpa [*] using first_sizes ready (Or.inr rfl) s inside type

omit ready in
/-- What a pass adds to its counter. -/
def Grows (body : Int → Sym → Sym × Int) (symbols : List Sym) : Prop :=
  ∀ count, ∀ s ∈ symbols, count ≤ (body count s).2 ∧ ((body count s).2 - count) % 4 = 0

theorem pass1_grows : Grows pass1 symbols := by
  intro count s member
  simp only [pass1]
  split
  next data =>
    obtain ⟨-, aligned, positive⟩ := sized_spec ready member data
    split
    · exact ⟨by omega, by omega⟩
    · simp
  next => simp

theorem pass2_grows : Grows pass2 (first symbols).1 := by
  intro count s member
  simp only [pass2]
  split
  next data =>
    obtain ⟨positive, aligned⟩ := first_sizes ready (Or.inl rfl) s member data
    exact ⟨by omega, by omega⟩
  next => split <;> simp

theorem pass3_grows : Grows pass3 (second symbols).1 := by
  intro count s member
  simp only [pass3]
  split
  next bss =>
    obtain ⟨positive, aligned⟩ := second_sizes ready s member bss
    exact ⟨by omega, by omega⟩
  next => simp

omit ready in
theorem length_first : (first symbols).1.length = symbols.length := length_sweep _ _ _

omit ready in
theorem length_second : (second symbols).1.length = symbols.length := (length_sweep _ _ _).trans length_first

theorem reached_mono (k : Segment) {i j : Nat} (before : i ≤ j) (inside : j ≤ symbols.length) :
    reached symbols k i ≤ reached symbols k j := by
  cases k with
  | small => exact countAt_mono (fun count s member => (pass1_grows ready count s member).1) 0 before inside
  | data => exact countAt_mono (fun count s member => (pass2_grows ready count s member).1) _ before (by rwa [length_first])
  | bss => exact countAt_mono (fun count s member => (pass3_grows ready count s member).1) _ before (by rwa [length_second])

omit ready in
theorem reached_small_end : reached symbols .small symbols.length = reached symbols .data 0 := by
  rw [reached, countAt_length]
  rfl

omit ready in
theorem reached_data_end : reached symbols .data symbols.length = (second symbols).2 := by
  rw [reached, ← length_first, countAt_length]
  rfl

omit ready in
theorem reached_bss_end : reached symbols .bss symbols.length = (third symbols).2 := by
  rw [reached, ← length_second, countAt_length]
  rfl

omit ready in
theorem countAt_aligned {body : Int → Sym → Sym × Int} {symbols : List Sym} (grows : Grows body symbols) {count : Int}
    (start : count % 4 = 0) {i : Nat} (inside : i ≤ symbols.length) : countAt body count symbols i % 4 = 0 := by
  have keeps : ∀ count, ∀ s ∈ symbols, count % 4 = 0 → (body count s).2 % 4 = 0 := by
    intro count s member aligned
    have step := (grows count s member).2
    omega
  exact countAt_keeps body keeps start inside

theorem reached_small_nonneg {i : Nat} (inside : i ≤ symbols.length) : 0 ≤ reached symbols .small i :=
  reached_mono ready .small (Nat.zero_le i) inside

theorem reached_data_nonneg {i : Nat} (inside : i ≤ symbols.length) : 0 ≤ reached symbols .data i := by
  calc (0 : Int) ≤ reached symbols .small symbols.length := reached_small_nonneg ready (Nat.le_refl _)
    _ = reached symbols .data 0 := reached_small_end
    _ ≤ reached symbols .data i := reached_mono ready .data (Nat.zero_le i) inside

theorem datsize_spec : reached symbols .data symbols.length ≤ reached symbols .bss 0 ∧ reached symbols .bss 0 % 4 = 0 := by
  have nonneg := reached_data_nonneg ready (Nat.le_refl _)
  rw [reached_data_end] at nonneg ⊢
  obtain ⟨above, rounded⟩ := rnd_spec nonneg (by decide : (0 : Int) < 8)
  have start : reached symbols .bss 0 = rnd (second symbols).2 8 := rfl
  rw [start]
  exact ⟨above, by omega⟩

theorem reached_aligned (k : Segment) {i : Nat} (inside : i ≤ symbols.length) : reached symbols k i % 4 = 0 := by
  have small : ∀ {i : Nat}, i ≤ symbols.length → reached symbols .small i % 4 = 0 :=
    fun inside => countAt_aligned (pass1_grows ready) rfl inside
  cases k with
  | small => exact small inside
  | data =>
    have start := small (Nat.le_refl _)
    rw [reached_small_end] at start
    exact countAt_aligned (pass2_grows ready) start (by rwa [length_first])
  | bss => exact countAt_aligned (pass3_grows ready) (datsize_spec ready).2 (by rwa [length_second])

/-- The passes in their order. -/
def Segment.rank : Segment → Nat
  | .small => 0
  | .data => 1
  | .bss => 2

theorem reached_order {k l : Segment} (before : k.rank < l.rank) {i j : Nat} (first : i ≤ symbols.length)
    (last : j ≤ symbols.length) : reached symbols k i ≤ reached symbols l j := by
  have whole := fun k => reached_mono ready k first (Nat.le_refl _)
  have start := fun l => reached_mono ready l (Nat.zero_le j) last
  have across := reached_mono ready .data (Nat.zero_le symbols.length) (Nat.le_refl _)
  have small : reached symbols .small symbols.length = reached symbols .data 0 := reached_small_end
  have data := (datsize_spec ready).1
  have wholeSmall := whole .small
  have wholeData := whole .data
  have startData := start .data
  have startBss := start .bss
  cases k <;> cases l <;> simp only [Segment.rank] at before <;> omega

/-- Two placed symbols do not overlap. -/
theorem reached_disjoint {i j : Nat} {s t : Sym} {k l : Segment} (differ : i ≠ j) (here : symbols[i]? = some s)
    (there : symbols[j]? = some t) (placed : segment s = some k) (other : segment t = some l) :
    reached symbols k i + sized s ≤ reached symbols l j ∨ reached symbols l j + sized t ≤ reached symbols k i := by
  have inside := (List.getElem?_eq_some_iff.mp here).1
  have within := (List.getElem?_eq_some_iff.mp there).1
  rw [← reached_succ here placed, ← reached_succ there other]
  rcases Nat.lt_trichotomy k.rank l.rank with before | same | after
  · exact Or.inl (reached_order ready before inside (by omega))
  · have same : k = l := by cases k <;> cases l <;> simp only [Segment.rank] at same <;> first | rfl | omega
    subst same
    rcases Nat.lt_or_gt_of_ne differ with before | after
    · exact Or.inl (reached_mono ready k before (by omega))
    · exact Or.inr (reached_mono ready k after (by omega))
  · exact Or.inr (reached_order ready after within (by omega))

end Passes

section Preparing

/-- What the loop over the `DATA` instructions does to a symbol. -/
structure Marked (s t : Sym) : Prop where
  value : t.value = s.value
  type : t.type = s.type ∨ s.type = .SBSS ∧ t.type = .SDATA

theorem marked_refl (s : Sym) : Marked s s := ⟨rfl, Or.inl rfl⟩

theorem Marked.trans {s t u : Sym} (one : Marked s t) (two : Marked t u) : Marked s u := by
  refine ⟨two.value.trans one.value, ?_⟩
  rcases two.type with same | ⟨bss, data⟩
  · rw [same]
    exact one.type
  · rcases one.type with same | ⟨_, changed⟩
    · exact Or.inr ⟨same ▸ bss, data⟩
    · rw [changed] at bss
      cases bss

/-- The symbol that a `DATA` instruction leaves. -/
def initialise (s : Sym) : Sym := if s.type = .SBSS then { s with type := .SDATA } else s

theorem initialise_marked (s : Sym) : Marked s (initialise s) := by
  unfold initialise
  split
  next bss => exact ⟨rfl, Or.inr ⟨bss, rfl⟩⟩
  next => exact marked_refl s

theorem data_eq {symbols : List Sym} {p : Data} {s : Sym} (here : symbols[p.sym]? = some s) :
    data symbols p = (symbols.set p.sym (initialise s),
      (if (initialise s).type ≠ .SDATA then [.nonData p.sym] else []) ++
        (if p.offset + p.reg > (initialise s).value then [.bounds p.sym] else [])) := by
  simp only [data, here]
  rfl

theorem data_at {symbols : List Sym} {i : Nat} {s : Sym} (here : symbols[i]? = some s) (p : Data) :
    (data symbols p).1[i]? = some (if p.sym = i then initialise s else s) := by
  split
  next same =>
    subst same
    rw [data_eq here]
    exact List.getElem?_set_self (List.getElem?_eq_some_iff.mp here).1
  next other =>
    unfold data
    split
    · exact here
    · rw [List.getElem?_set_ne other]
      exact here

theorem datas_at {symbols : List Sym} (datap : List Data) {i : Nat} {s : Sym} (here : symbols[i]? = some s) :
    ∃ t, (datas symbols datap).1[i]? = some t ∧ Marked s t ∧ (s.type = .SDATA → t = s) := by
  induction datap generalizing symbols s with
  | nil => exact ⟨s, here, marked_refl s, fun _ => rfl⟩
  | cons p ps ih =>
    obtain ⟨t, at_t, marked, stays⟩ := ih (data_at here p)
    refine ⟨t, at_t, ?_⟩
    split at marked
    next =>
      refine ⟨(initialise_marked s).trans marked, fun data => ?_⟩
      have same : initialise s = s := by simp [initialise, data]
      rw [if_pos ‹_›, same] at stays
      exact stays data
    next => exact ⟨marked, by rwa [if_neg ‹_›] at stays⟩

theorem length_data (symbols : List Sym) (p : Data) : (data symbols p).1.length = symbols.length := by
  unfold data
  split
  · rfl
  · exact List.length_set

theorem length_datas (symbols : List Sym) (datap : List Data) : (datas symbols datap).1.length = symbols.length := by
  induction datap generalizing symbols with
  | nil => rfl
  | cons p ps ih => exact (ih (data symbols p).1).trans (length_data symbols p)

/-- What the sanity checks let through. -/
theorem datas_accepted {symbols : List Sym} {datap : List Data} (accepted : (datas symbols datap).2 = []) {p : Data}
    (member : p ∈ datap) {s : Sym} (here : symbols[p.sym]? = some s) :
    p.offset + p.reg ≤ s.value ∧ ∃ t, (datas symbols datap).1[p.sym]? = some t ∧ t.type = .SDATA := by
  induction datap generalizing symbols s with
  | nil => cases member
  | cons q qs ih =>
    have parts : (data symbols q).2 ++ (datas (data symbols q).1 qs).2 = [] := accepted
    obtain ⟨checked, rest⟩ := List.append_eq_nil_iff.mp parts
    rcases List.mem_cons.mp member with rfl | later
    · rw [data_eq here] at checked
      have value := (initialise_marked s).value
      obtain ⟨data, bounds⟩ := List.append_eq_nil_iff.mp checked
      have data : (initialise s).type = .SDATA := by
        by_contra other
        rw [if_pos other] at data
        cases data
      have bounds : p.offset + p.reg ≤ s.value := by
        by_contra other
        rw [if_pos (by omega)] at bounds
        cases bounds
      have next := data_at here p
      rw [if_pos rfl] at next
      obtain ⟨t, at_t, -, same⟩ := datas_at qs next
      rw [same data] at at_t
      exact ⟨bounds, initialise s, at_t, data⟩
    · have next := data_at here q
      obtain ⟨bounds, found⟩ := ih rest later next
      refine ⟨?_, found⟩
      have value : (if q.sym = p.sym then initialise s else s).value = s.value := by
        split
        · exact (initialise_marked s).value
        · rfl
      rwa [value] at bounds

/-- A `DATA` instruction with a string is for the symbol. -/
def Drawn (datap : List Data) (i : Nat) : Prop := ∃ p ∈ datap, p.sym = i ∧ p.string = true

theorem strings_at {symbols : List Sym} (datap : List Data) {i : Nat} {s : Sym} (here : symbols[i]? = some s) :
    (strings symbols datap)[i]? = some s ∨
      (strings symbols datap)[i]? = some { s with type := .SSTRING } ∧ Drawn datap i := by
  induction datap generalizing symbols s with
  | nil => exact Or.inl here
  | cons p ps ih =>
    have further : Drawn ps i → Drawn (p :: ps) i := fun ⟨q, member, found⟩ => ⟨q, List.mem_cons_of_mem p member, found⟩
    by_cases drawn : p.sym = i ∧ p.string = true
    · obtain ⟨same, string⟩ := drawn
      have next : (if p.string then symbols.modify p.sym (fun s => { s with type := .SSTRING }) else symbols)[i]? =
          some { s with type := .SSTRING } := by
        rw [if_pos string, List.getElem?_modify, here]
        simp [same]
      refine Or.inr ⟨?_, p, List.mem_cons_self, same, string⟩
      rcases ih next with kept | ⟨again, -⟩
      · exact kept
      · exact again
    · have next : (if p.string then symbols.modify p.sym (fun s => { s with type := .SSTRING }) else symbols)[i]? = some s := by
        split
        next string =>
          rw [List.getElem?_modify, here]
          have other : p.sym ≠ i := fun same => drawn ⟨same, string⟩
          simp [other]
        next => exact here
      exact (ih next).imp id (fun ⟨changed, found⟩ => ⟨changed, further found⟩)

theorem length_strings (symbols : List Sym) (datap : List Data) : (strings symbols datap).length = symbols.length := by
  induction datap generalizing symbols with
  | nil => rfl
  | cons p ps ih =>
    refine (ih _).trans ?_
    dsimp only
    split
    · exact List.length_modify _ _ _
    · rfl

theorem length_prepared (t : Bool) (symbols : List Sym) (datap : List Data) :
    (prepared t symbols datap).length = symbols.length := by
  unfold prepared
  split
  · rw [length_strings, length_datas]
  · exact length_datas symbols datap

theorem prepared_at (t : Bool) {symbols : List Sym} (datap : List Data) {i : Nat} {s : Sym} (here : symbols[i]? = some s) :
    ∃ u, Marked s u ∧ ((prepared t symbols datap)[i]? = some u ∨
      (prepared t symbols datap)[i]? = some { u with type := .SSTRING } ∧ t = true ∧ Drawn datap i) := by
  obtain ⟨u, at_u, marked, -⟩ := datas_at datap here
  refine ⟨u, marked, ?_⟩
  unfold prepared
  split
  next option => exact (strings_at datap at_u).imp id (fun ⟨string, drawn⟩ => ⟨string, option, drawn⟩)
  next => exact Or.inl at_u

theorem prepared_accepted (t : Bool) {symbols : List Sym} {datap : List Data} (accepted : (datas symbols datap).2 = [])
    {p : Data} (member : p ∈ datap) {s : Sym} (here : symbols[p.sym]? = some s) :
    p.offset + p.reg ≤ s.value ∧
      ∃ u, (prepared t symbols datap)[p.sym]? = some u ∧ (u.type = .SDATA ∨ u.type = .SSTRING) := by
  obtain ⟨bounds, u, at_u, data⟩ := datas_accepted accepted member here
  refine ⟨bounds, ?_⟩
  unfold prepared
  split
  · rcases strings_at datap at_u with kept | ⟨string, -⟩
    · exact ⟨u, kept, Or.inl data⟩
    · exact ⟨_, string, Or.inr rfl⟩
  · exact ⟨u, at_u, Or.inl data⟩

end Preparing

theorem xdefine_keeps {symbols : List Sym} (name : String) (t : Section) (v : Int) {i : Nat} {s : Sym}
    (here : symbols[i]? = some s) (defined : s.type ≠ .SNONE ∧ s.type ≠ .SXREF) : (xdefine symbols name t v)[i]? = some s := by
  unfold xdefine
  split
  · rw [List.getElem?_map, here, Option.map_some, if_neg (by tauto)]
  · rw [List.getElem?_append_left (List.getElem?_eq_some_iff.mp here).1]
    exact here

section Layout

variable (t : Bool) (symbols : List Sym) (datap : List Data)

/-- What the loader hands over: the sizes are positive, no symbol has the tag of the first
pass yet, and every `DATA` instruction has its symbol. -/
structure Loaded : Prop where
  positive : ∀ s ∈ symbols, s.type = .SDATA ∨ s.type = .SBSS → 0 < s.value
  untagged : ∀ s ∈ symbols, s.type ≠ .SDATA1
  symbol : ∀ p ∈ datap, p.sym < symbols.length

/-- A data or bss symbol of the program: as it was loaded, with its size, and as it is
after the layout, with its address. With `-t` a symbol of a string goes to the text. -/
structure Placed (i : Nat) (s u : Sym) : Prop where
  loaded : symbols[i]? = some s
  data : s.type = .SDATA ∨ s.type = .SBSS
  final : (dodata t symbols datap).symbols[i]? = some u
  notString : ¬(t = true ∧ Drawn datap i)

/-- A placed symbol is aligned and lies in the segment of its final type. -/
structure InSegment (laid : Laid) (s u : Sym) : Prop where
  aligned : u.value % 4 = 0
  inside : u.type = .SDATA ∧ 0 ≤ u.value ∧ u.value + s.value ≤ laid.datsize ∨
    u.type = .SBSS ∧ laid.datsize ≤ u.value ∧ u.value + s.value ≤ laid.datsize + laid.bsssize

structure Sound : Prop where
  segments : ∀ i s u, Placed t symbols datap i s u → InSegment (dodata t symbols datap) s u
  disjoint : ∀ i j s s' u u', Placed t symbols datap i s u → Placed t symbols datap j s' u' → i ≠ j →
    u.value + s.value ≤ u'.value ∨ u'.value + s'.value ≤ u.value
  initialised : ∀ p ∈ datap, ∀ s u, Placed t symbols datap p.sym s u → u.type = .SDATA
  writes : ∀ p ∈ datap, ∀ s u, symbols[p.sym]? = some s → (dodata t symbols datap).symbols[p.sym]? = some u → 0 < p.reg →
    u.value ≤ u.value + p.offset ∧ u.value + p.offset + p.reg ≤ u.value + s.value

variable {t symbols datap}

theorem accepted_data (accepted : (dodata t symbols datap).diags = []) : (datas symbols datap).2 = [] :=
  (List.append_eq_nil_iff.mp accepted).1

theorem dodata_keeps {i : Nat} {u : Sym} (here : (third (prepared t symbols datap)).1[i]? = some u)
    (defined : u.type ≠ .SNONE ∧ u.type ≠ .SXREF) : (dodata t symbols datap).symbols[i]? = some u := by
  have laid : (dodata t symbols datap).symbols = xdefine (xdefine (xdefine (xdefine (xdefine (third (prepared t symbols datap)).1
      "bdata" .SDATA 0) "edata" .SDATA (dodata t symbols datap).datsize) "end" .SBSS
      ((dodata t symbols datap).datsize + (dodata t symbols datap).bsssize)) "etext" .STEXT 0) "setR12" .SDATA BIG := rfl
  rw [laid]
  repeat apply xdefine_keeps _ _ _ _ defined
  exact here

section Loading

variable (loaded : Loaded symbols datap)
include loaded

theorem prepared_ready : Ready (prepared t symbols datap) := by
  have origin : ∀ u ∈ prepared t symbols datap, ∃ s ∈ symbols, ∃ v, Marked s v ∧ (u = v ∨ u = { v with type := .SSTRING }) := by
    intro u member
    obtain ⟨i, inside, rfl⟩ := List.mem_iff_getElem.mp member
    have within : i < symbols.length := by rwa [length_prepared] at inside
    obtain ⟨v, marked, found⟩ := prepared_at t datap (List.getElem?_eq_getElem within)
    refine ⟨symbols[i], List.getElem_mem within, v, marked, ?_⟩
    rw [List.getElem?_eq_getElem inside] at found
    exact found.imp Option.some.inj (fun found => Option.some.inj found.1)
  constructor
  · intro u member data
    obtain ⟨s, inside, v, marked, rfl | rfl⟩ := origin u member
    · rw [marked.value]
      apply loaded.positive s inside
      rcases marked.type with same | ⟨bss, -⟩
      · rwa [same] at data
      · exact Or.inr bss
    · rcases data with data | data <;> cases data
  · intro u member tagged
    obtain ⟨s, inside, v, marked, rfl | rfl⟩ := origin u member
    · rcases marked.type with same | ⟨-, data⟩
      · exact loaded.untagged s inside (same ▸ tagged)
      · rw [data] at tagged
        cases tagged
    · cases tagged

omit loaded in
theorem segment_of_data {s : Sym} (data : s.type = .SDATA ∨ s.type = .SBSS) :
    ∃ k, segment s = some k ∧ (s.type = .SDATA → k.section = .SDATA) := by
  rw [segment, if_pos data]
  split
  · exact ⟨_, rfl, fun _ => rfl⟩
  · split
    · exact ⟨_, rfl, fun _ => rfl⟩
    · exact ⟨_, rfl, fun initialised => absurd initialised ‹_›⟩

omit loaded in
/-- Where a data or bss symbol ends up. -/
theorem placed_spec {i : Nat} {s u : Sym} (placed : Placed t symbols datap i s u) :
    ∃ v k, (prepared t symbols datap)[i]? = some v ∧ segment v = some k ∧ v.value = s.value ∧ (v.type = .SDATA ∨ v.type = .SBSS) ∧
      u.value = reached (prepared t symbols datap) k i ∧ u.type = k.section ∧ (v.type = .SDATA → u.type = .SDATA) := by
  obtain ⟨v, marked, found⟩ := prepared_at t datap placed.loaded
  have found : (prepared t symbols datap)[i]? = some v := by
    rcases found with found | ⟨-, string⟩
    · exact found
    · exact absurd string placed.notString
  have data : v.type = .SDATA ∨ v.type = .SBSS := by
    rcases marked.type with same | ⟨-, data⟩
    · rw [same]
      exact placed.data
    · exact Or.inl data
  obtain ⟨k, chosen, initialised⟩ := segment_of_data data
  have last := third_at found chosen
  have final := dodata_keeps last (by cases k <;> exact ⟨nofun, nofun⟩)
  rw [placed.final] at final
  cases final
  exact ⟨v, k, found, chosen, marked.value, data, rfl, rfl, initialised⟩

theorem placed_segments {i : Nat} {s u : Sym} (placed : Placed t symbols datap i s u) :
    InSegment (dodata t symbols datap) s u := by
  obtain ⟨v, k, found, chosen, value, data, address, type, -⟩ := placed_spec placed
  have ready : Ready (prepared t symbols datap) := prepared_ready loaded
  have inside := (List.getElem?_eq_some_iff.mp found).1
  have size := (sized_spec ready (List.mem_iff_getElem?.mpr ⟨i, found⟩) data).1
  have aligned := reached_aligned ready k (Nat.le_of_lt inside)
  have upper := reached_succ found chosen
  have following : i + 1 ≤ (prepared t symbols datap).length := inside
  have within := reached_mono ready k following (Nat.le_refl _)
  refine ⟨by rw [address]; exact aligned, ?_⟩
  have datsize : (dodata t symbols datap).datsize = reached (prepared t symbols datap) .bss 0 := rfl
  by_cases bss : k = .bss
  · subst bss
    have total : (dodata t symbols datap).datsize + (dodata t symbols datap).bsssize =
        rnd (third (prepared t symbols datap)).2 8 := by
      show rnd _ 8 + (rnd (third (prepared t symbols datap)).2 8 - rnd _ 8) = _
      omega
    have start := reached_mono ready .bss (Nat.zero_le i) (Nat.le_of_lt inside)
    have nonneg : 0 ≤ (third (prepared t symbols datap)).2 := by
      calc (0 : Int) ≤ reached (prepared t symbols datap) .data i := reached_data_nonneg ready (Nat.le_of_lt inside)
        _ ≤ reached (prepared t symbols datap) .bss (prepared t symbols datap).length :=
          reached_order ready (by decide) (Nat.le_of_lt inside) (Nat.le_refl _)
        _ = (third (prepared t symbols datap)).2 := reached_bss_end
    have rounded := (rnd_spec nonneg (by decide : (0 : Int) < 8)).1
    rw [reached_bss_end] at within
    refine Or.inr ⟨type, ?_, ?_⟩
    · omega
    · omega
  · have early : k.rank < Segment.rank .bss := by cases k <;> first | decide | exact absurd rfl bss
    have data : k.section = .SDATA := by cases k <;> first | rfl | exact absurd rfl bss
    have lower : 0 ≤ reached (prepared t symbols datap) k i := by
      cases k with
      | small => exact reached_small_nonneg ready (Nat.le_of_lt inside)
      | data => exact reached_data_nonneg ready (Nat.le_of_lt inside)
      | bss => exact absurd rfl bss
    have before := reached_order ready early following (Nat.zero_le _)
    refine Or.inl ⟨type.trans data, ?_, ?_⟩
    · omega
    · omega

theorem placed_disjoint {i j : Nat} {s s' u u' : Sym} (placed : Placed t symbols datap i s u)
    (other : Placed t symbols datap j s' u') (differ : i ≠ j) :
    u.value + s.value ≤ u'.value ∨ u'.value + s'.value ≤ u.value := by
  obtain ⟨v, k, found, chosen, value, data, address, -, -⟩ := placed_spec placed
  obtain ⟨v', k', found', chosen', value', data', address', -, -⟩ := placed_spec other
  have ready : Ready (prepared t symbols datap) := prepared_ready loaded
  have size := (sized_spec ready (List.mem_iff_getElem?.mpr ⟨i, found⟩) data).1
  have size' := (sized_spec ready (List.mem_iff_getElem?.mpr ⟨j, found'⟩) data').1
  rcases reached_disjoint ready differ found found' chosen chosen' with before | after
  · left
    omega
  · right
    omega

omit loaded in
theorem placed_initialised (accepted : (dodata t symbols datap).diags = []) {p : Data} (member : p ∈ datap) {s u : Sym}
    (placed : Placed t symbols datap p.sym s u) : u.type = .SDATA := by
  obtain ⟨v, k, found, -, -, data, -, -, initialised⟩ := placed_spec placed
  obtain ⟨-, w, at_w, type⟩ := prepared_accepted t (accepted_data accepted) member placed.loaded
  rw [found] at at_w
  cases at_w
  apply initialised
  rcases type with type | string
  · exact type
  · rw [string] at data
    rcases data with data | data <;> cases data

theorem written_final (accepted : (dodata t symbols datap).diags = []) {p : Data} (member : p ∈ datap) :
    ∃ s u, symbols[p.sym]? = some s ∧ (dodata t symbols datap).symbols[p.sym]? = some u ∧ p.offset + p.reg ≤ s.value := by
  have here := List.getElem?_eq_getElem (loaded.symbol p member)
  obtain ⟨bounds, v, at_v, type⟩ := prepared_accepted t (accepted_data accepted) member here
  have ready : Ready (prepared t symbols datap) := prepared_ready loaded
  rcases type with data | string
  · obtain ⟨k, chosen, -⟩ := segment_of_data (Or.inl data)
    exact ⟨_, _, here, dodata_keeps (third_at at_v chosen) (by cases k <;> exact ⟨nofun, nofun⟩), bounds⟩
  · have other : segment v = none := by simp [segment, string]
    exact ⟨_, v, here, dodata_keeps (third_other ready at_v other) (by simp [string]), bounds⟩

end Loading

theorem dodata_sound_iff (loaded : Loaded symbols datap) (accepted : (dodata t symbols datap).diags = []) :
    Sound t symbols datap ↔ ∀ p ∈ datap, p.reg ≤ 0 ∨ 0 ≤ p.offset := by
  constructor
  · intro sound p member
    obtain ⟨s, u, here, final, -⟩ := written_final loaded accepted member
    by_cases empty : p.reg ≤ 0
    · exact Or.inl empty
    · have written := sound.writes p member s u here final (by omega)
      right
      omega
  · intro inside
    refine ⟨fun i s u => placed_segments loaded, fun i j s s' u u' => placed_disjoint loaded,
      fun p member s u => placed_initialised accepted member, ?_⟩
    intro p member s u here final positive
    obtain ⟨s', -, here', -, bounds⟩ := written_final loaded accepted member
    rw [here] at here'
    cases here'
    have := inside p member
    constructor <;> omega

/-- A table of two words, and an initialisation of the second. -/
theorem dodata_sound_words :
    Loaded [⟨"x", 0, .SBSS, 4⟩, ⟨"y", 0, .SBSS, 100⟩] [⟨1, 96, 4, false⟩] ∧
      Sound false [⟨"x", 0, .SBSS, 4⟩, ⟨"y", 0, .SBSS, 100⟩] [⟨1, 96, 4, false⟩] := by
  have loaded : Loaded [⟨"x", 0, .SBSS, 4⟩, ⟨"y", 0, .SBSS, 100⟩] [⟨1, 96, 4, false⟩] := ⟨by decide, by decide, by decide⟩
  exact ⟨loaded, (dodata_sound_iff loaded (by decide)).mpr (by decide)⟩

/-- `DATA y-4(SB)/4` is accepted and writes over the symbol before. -/
theorem dodata_not_sound :
    Loaded [⟨"x", 0, .SBSS, 4⟩, ⟨"y", 0, .SBSS, 4⟩] [⟨1, -4, 4, false⟩] ∧
      (dodata false [⟨"x", 0, .SBSS, 4⟩, ⟨"y", 0, .SBSS, 4⟩] [⟨1, -4, 4, false⟩]).diags = [] ∧
      ¬Sound false [⟨"x", 0, .SBSS, 4⟩, ⟨"y", 0, .SBSS, 4⟩] [⟨1, -4, 4, false⟩] := by
  refine ⟨⟨by decide, by decide, by decide⟩, by decide, fun sound => ?_⟩
  have written := sound.writes ⟨1, -4, 4, false⟩ (by decide) ⟨"y", 0, .SBSS, 4⟩ ⟨"y", 0, .SDATA, 4⟩ (by decide) (by decide) (by decide)
  exact absurd written (by decide)

end Layout

end Goken.Proofs.Dodata
