import Goken.Findsym
import Goken.Proofs.Qsort

/-! Address-to-symbol lookup. The binary searches end on every table, and on a sorted one
with the symbol that holds the address; what the tables are sorted by is the sign of a
64-bit difference cut to 32 bits. -/

namespace Goken.Proofs.Findsym
open Goken.Findsym Goken.Qsort Goken.Proofs.Qsort

/-- The symbol at index `i` is not above the address, and the next one is. -/
def Encloses (table : List Sym) (val : UInt64) (i : Nat) (s : Sym) : Prop :=
  table[i]? = some s ∧ s.value ≤ val ∧ ∀ next ∈ table[i + 1]?, val < next.value

def Sorted (table : List Sym) : Prop := table.Pairwise fun a b => a.value ≤ b.value

/-! The searches. -/

section Search

variable {more : Int → Int → Bool} {table : List Sym} {val : UInt64}

/-- The loop keeps the address below what is at `top`, and not below what is at `bot`. -/
structure Between (table : List Sym) (val : UInt64) (bot top : Nat) : Prop where
  order : bot < top
  inside : top ≤ table.length
  above : ∀ s ∈ table[top]?, val < s.value
  below : bot = 0 ∨ ∀ s ∈ table[bot]?, s.value ≤ val

theorem search_spec (last : ∀ mid : Nat, mid < table.length → (more mid table.length = true ↔ mid + 1 < table.length))
    {turns bot top : Nat} (enough : top - bot < turns)
    (between : Between table val bot top) :
    (∃ (i : Nat) (s : Sym), search more table val turns bot top = some (i : Int) ∧ Encloses table val i s) ∨
      (search more table val turns bot top = some (-1) ∧ ∀ s ∈ table[0]?, val < s.value) := by
  induction turns generalizing bot top with
  | zero => omega
  | succ turns ih =>
    obtain ⟨order, inside, above, below⟩ := between
    have middle : (bot + top) / 2 < table.length := by omega
    have low : bot ≤ (bot + top) / 2 := by omega
    have high : (bot + top) / 2 < top := by omega
    rw [search]
    simp only [List.getElem?_eq_getElem middle, if_pos high, Option.bind_some]
    by_cases under : val < table[(bot + top) / 2].value
    · rw [if_pos under]
      by_cases start : (bot + top) / 2 = bot
      · obtain ⟨turns, rfl⟩ : ∃ n, turns = n + 1 := ⟨turns - 1, by omega⟩
        rw [start, search]
        have same : (bot + bot) / 2 = bot := by omega
        simp only [same, Nat.lt_irrefl, if_false]
        right
        refine ⟨trivial, fun s first => ?_⟩
        simp only [start] at under
        rcases below with rfl | least
        · rw [List.getElem?_eq_getElem (by omega), Option.mem_some_iff] at first
          exact first ▸ under
        · exact absurd (least _ (List.getElem?_eq_getElem (by omega))) (by simpa using under)
      · refine ih (by omega) ⟨by omega, by omega, fun s found => ?_, below⟩
        rw [List.getElem?_eq_getElem middle, Option.mem_some_iff] at found
        exact found ▸ under
    · rw [if_neg under]
      have least : table[(bot + top) / 2].value ≤ val := by simpa using under
      by_cases next : (bot + top) / 2 + 1 < table.length
      · rw [if_pos ((last _ middle).mpr next), List.getElem?_eq_getElem next, Option.bind_some]
        by_cases over_ : val ≥ table[(bot + top) / 2 + 1].value
        · rw [if_pos over_]
          have moved : (bot + top) / 2 ≠ bot := by
            intro same
            have edge : (bot + top) / 2 + 1 = top := by omega
            have := above _ (by rw [← edge]; exact List.getElem?_eq_getElem next)
            exact absurd over_ (by simpa using this)
          refine ih (by omega) ⟨high, inside, above, .inr fun s found => ?_⟩
          rw [List.getElem?_eq_getElem middle, Option.mem_some_iff] at found
          exact found ▸ least
        · rw [if_neg over_]
          refine .inl ⟨_, _, rfl, List.getElem?_eq_getElem middle, least, fun s found => ?_⟩
          rw [List.getElem?_eq_getElem next, Option.mem_some_iff] at found
          rw [← found]
          simpa using over_
      · rw [if_neg (by rw [last _ middle]; exact next)]
        refine .inl ⟨_, _, rfl, List.getElem?_eq_getElem middle, least, fun s found => ?_⟩
        rw [List.getElem?_eq_none (by omega)] at found
        cases found

/-- What a search of a sorted table answers. -/
def Looked (table : List Sym) (val : UInt64) (answer : Option Int) : Prop :=
  (∃ (i : Nat) (s : Sym), answer = some (i : Int) ∧ Encloses table val i s) ∨ (answer = some (-1) ∧ ∀ s ∈ table, val < s.value)

theorem search_looked (last : ∀ mid : Nat, mid < table.length → (more mid table.length = true ↔ mid + 1 < table.length))
    (sorted : Sorted table) : Looked table val (search more table val (table.length + 1) 0 table.length) := by
  rcases table with _ | ⟨first, rest⟩
  · exact .inr ⟨rfl, by simp⟩
  · have between : Between (first :: rest) val 0 (first :: rest).length :=
      ⟨by simp, Nat.le_refl _, by simp, .inl rfl⟩
    refine (search_spec last (by omega) between).imp id fun ⟨missing, low⟩ => ⟨missing, fun s member => ?_⟩
    have least := low first rfl
    rcases List.mem_cons.mp member with rfl | later
    · exact least
    · exact UInt64.lt_of_lt_of_le least ((List.pairwise_cons.mp sorted).1 s later)

end Search

theorem Encloses.inside {table : List Sym} {val : UInt64} {i : Nat} {s : Sym} (encloses : Encloses table val i s) :
    i < table.length := (List.getElem?_eq_some_iff.mp encloses.1).1

theorem Encloses.unique {table : List Sym} {val : UInt64} {i j : Nat} {s u : Sym} (sorted : Sorted table)
    (first : Encloses table val i s) (second : Encloses table val j u) : i = j := by
  have apart {i j : Nat} {s u : Sym} (first : Encloses table val i s) (second : Encloses table val j u) : ¬i < j := by
    intro before
    obtain ⟨insideJ, atJ⟩ := List.getElem?_eq_some_iff.mp second.1
    have insideNext : i + 1 < table.length := by omega
    have next := first.2.2 _ (List.getElem?_eq_getElem insideNext)
    have ordered : table[i + 1].value ≤ u.value := by
      rcases Nat.lt_or_ge (i + 1) j with earlier | same
      · rw [← atJ]
        exact List.pairwise_iff_getElem.mp sorted (i + 1) j insideNext insideJ earlier
      · have equal : i + 1 = j := by omega
        subst equal
        exact atJ ▸ UInt64.le_refl _
    exact UInt64.lt_irrefl _ (UInt64.lt_of_lt_of_le next (UInt64.le_trans ordered second.2.1))
  exact Nat.le_antisymm (Nat.le_of_not_lt (apart second first)) (Nat.le_of_not_lt (apart first second))

/-! What lookup promises of a loaded table. -/

/-- The symbol of a table that holds an address, if any. -/
def Found (table : List Sym) (val : UInt64) (answer : Option (Sym × Int)) : Prop :=
  (∃ (i : Nat) (s : Sym), answer = some (s, (i : Int)) ∧ Encloses table val i s) ∨ (answer = none ∧ ∀ s ∈ table, val < s.value)

/-- A search over both tables leaves the last text symbol out. -/
def FoundAny (t : Tables) (val : UInt64) (answer : Option (Sym × Int)) : Prop :=
  (∃ (i : Nat) (s : Sym), answer = some (s, (i : Int)) ∧ Encloses t.txt val i s ∧ i + 1 < t.txt.length) ∨
    ((∀ i s, Encloses t.txt val i s → i + 1 = t.txt.length) ∧ Found t.globals val answer)

def Bounds (table : List Sym) (val : UInt64) (answer : Option (UInt64 × UInt64)) : Prop :=
  (∃ i s next, answer = some (s.value, next.value) ∧ Encloses table val i s ∧ table[i + 1]? = some next) ∨
    ((∀ i s, Encloses table val i s → i + 1 = table.length) ∧ answer = none)

structure Exact (t : Tables) : Prop where
  txtSorted : Sorted t.txt
  globalsSorted : Sorted t.globals
  srchtext : ∀ val, Looked t.txt val (srchtext t val)
  srchdata : ∀ val, Looked t.globals val (srchdata t val)
  text : ∀ val, ∃ answer, findsym t val .ctext = some answer ∧ Found t.txt val answer
  data : ∀ val, ∃ answer, findsym t val .cdata = some answer ∧ Found t.globals val answer
  any : ∀ val, ∃ answer, findsym t val .cany = some answer ∧ FoundAny t val answer
  bounds : ∀ val, ∃ answer, fnbound t val = some answer ∧ Bounds t.txt val answer

section Lookup

variable {t : Tables}

theorem srchtext_looked (sorted : Sorted t.txt) (val : UInt64) : Looked t.txt val (Goken.Findsym.srchtext t val) := by
  refine search_looked (fun mid inside => ?_) sorted
  rw [decide_eq_true_eq]
  omega

theorem srchdata_looked (sorted : Sorted t.globals) (val : UInt64) :
    Looked t.globals val (Goken.Findsym.srchdata t val) := by
  refine search_looked (fun mid inside => ?_) sorted
  rw [decide_eq_true_eq]
  omega

theorem text_found (sorted : Sorted t.txt) (val : UInt64) :
    ∃ answer, findsym t val .ctext = some answer ∧ Found t.txt val answer := by
  rcases srchtext_looked sorted val with ⟨i, s, found, encloses⟩ | ⟨none, low⟩
  · refine ⟨some (s, i), ?_, .inl ⟨i, s, rfl, encloses⟩⟩
    simp [findsym, findtextsym, found, encloses.1]
  · exact ⟨Option.none, by simp [findsym, findtextsym, finddatasym, none], .inr ⟨rfl, low⟩⟩

theorem data_found (sorted : Sorted t.globals) (val : UInt64) (type : SymClass) (wanted : type = .cdata ∨ type = .cany) :
    ∃ answer, finddatasym t val type = some answer ∧ Found t.globals val answer := by
  rcases srchdata_looked sorted val with ⟨i, s, found, encloses⟩ | ⟨none, low⟩
  · refine ⟨some (s, i), ?_, .inl ⟨i, s, rfl, encloses⟩⟩
    simp [finddatasym, wanted, found, encloses.1]
  · exact ⟨Option.none, by simp [finddatasym, wanted, none], .inr ⟨rfl, low⟩⟩

theorem any_found (txt : Sorted t.txt) (globals : Sorted t.globals) (val : UInt64) :
    ∃ answer, findsym t val .cany = some answer ∧ FoundAny t val answer := by
  obtain ⟨answer, data, found⟩ := data_found globals val .cany (.inr rfl)
  rcases srchtext_looked txt val with ⟨i, s, looked, encloses⟩ | ⟨none, low⟩
  · have inside := encloses.inside
    by_cases last : i + 1 = t.txt.length
    · refine ⟨answer, ?_, .inr ⟨fun j u other => ?_, found⟩⟩
      · rw [findsym, findtextsym, if_pos (.inr rfl), looked, Option.map_some, if_neg (by simp; omega)]
        exact data
      · rw [other.unique txt encloses, last]
    · refine ⟨some (s, i), ?_, .inl ⟨i, s, rfl, encloses, by omega⟩⟩
      rw [findsym, findtextsym, if_pos (.inr rfl), looked, Option.map_some, if_pos (by simp; omega)]
      simp [encloses.1]
  · refine ⟨answer, ?_, .inr ⟨fun j u other => ?_, found⟩⟩
    · rw [findsym, findtextsym, if_pos (.inr rfl), none, Option.map_some, if_neg (by simp)]
      exact data
    · exact absurd (UInt64.lt_of_lt_of_le (low u (List.mem_of_getElem? other.1)) other.2.1) (UInt64.lt_irrefl _)

theorem bounds_found (sorted : Sorted t.txt) (val : UInt64) :
    ∃ answer, fnbound t val = some answer ∧ Bounds t.txt val answer := by
  rcases srchtext_looked sorted val with ⟨i, s, looked, encloses⟩ | ⟨none, low⟩
  · have inside := encloses.inside
    by_cases last : i + 1 = t.txt.length
    · refine ⟨Option.none, ?_, .inr ⟨fun j u other => ?_, rfl⟩⟩
      · rw [fnbound, looked, Option.map_some, if_neg (by omega)]
      · rw [other.unique sorted encloses, last]
    · have next : t.txt[i + 1]? = some t.txt[i + 1] := List.getElem?_eq_getElem (by omega)
      refine ⟨some (s.value, t.txt[i + 1].value), ?_, .inl ⟨i, s, _, rfl, encloses, next⟩⟩
      rw [fnbound, looked, Option.map_some, if_pos (by omega)]
      simp [encloses.1, next]
  · refine ⟨Option.none, ?_, .inr ⟨fun j u other => ?_, rfl⟩⟩
    · rw [fnbound, none, Option.map_some, if_neg (by omega)]
    · exact absurd (UInt64.lt_of_lt_of_le (low u (List.mem_of_getElem? other.1)) other.2.1) (UInt64.lt_irrefl _)

theorem exact_of_sorted (txt : Sorted t.txt) (globals : Sorted t.globals) : Exact t := by
  refine ⟨txt, globals, srchtext_looked txt, srchdata_looked globals, text_found txt, fun val => ?_, any_found txt globals,
    bounds_found txt⟩
  obtain ⟨answer, data, found⟩ := data_found globals val .cdata (.inl rfl)
  exact ⟨answer, by simp [findsym, findtextsym, data], found⟩

end Lookup

/-! The sorting. -/

/-- Two values whose difference keeps its sign when cut to 32 bits. -/
def Near (a b : Sym) : Prop :=
  a.value < b.value → 0 < (b.value - a.value).toNat % 2 ^ 32 ∧ (b.value - a.value).toNat % 2 ^ 32 < 2 ^ 31

theorem int_near {a b : Sym} (near : Near a b) (less : a.value < b.value) :
    0 < int (b.value - a.value) ∧ int (a.value - b.value) < 0 := by
  obtain ⟨some, small⟩ := near less
  rw [UInt64.lt_iff_toNat_lt] at less
  have forward : (b.value - a.value).toNat = b.value.toNat - a.value.toNat :=
    UInt64.toNat_sub_of_le _ _ (UInt64.le_iff_toNat_le.mpr (Nat.le_of_lt less))
  have back : (a.value - b.value).toNat = 2 ^ 64 - (b.value.toNat - a.value.toNat) := by
    have := a.value.toNat_lt
    have := b.value.toNat_lt
    rw [UInt64.toNat_sub]
    omega
  unfold int
  rw [forward] at some small ⊢
  rw [back]
  have := b.value.toNat_lt
  omega

theorem txtcomp_near {a b : Sym} (near : Near a b) (less : a.value < b.value) : 0 < txtcomp b a ∧ txtcomp a b < 0 :=
  int_near near less

theorem symcomp_near {a b : Sym} (near : Near a b) (less : a.value < b.value) : 0 < symcomp b a ∧ symcomp a b < 0 := by
  obtain ⟨above, below⟩ := int_near near less
  simp only [symcomp]
  rw [if_pos (by omega), if_pos (by omega)]
  exact ⟨above, below⟩

/-- Every pair of symbols that a comparison with a pivot puts in order belongs so. -/
def Straight (comp : Sym → Sym → Int) (table : List Sym) : Prop :=
  ∀ x y, (x, y) ∈ decided comp table.length table → x.value ≤ y.value

theorem sorted_iff (comp : Sym → Sym → Int) (table : List Sym) : Sorted (qsort comp table) ↔ Straight comp table :=
  qsorts_sorted_iff (r := fun a b : Sym => a.value ≤ b.value) (fun first second => UInt64.le_trans first second)
    (Nat.le_refl _)

theorem straight_near {comp : Sym → Sym → Int} {table : List Sym}
    (signs : ∀ {a b : Sym}, Near a b → a.value < b.value → 0 < comp b a ∧ comp a b < 0)
    (near : ∀ a ∈ table, ∀ b ∈ table, Near a b) : Straight comp table := by
  intro x y member
  obtain ⟨first, second, compared⟩ := decided_compared member
  by_contra wrong
  have order := signs (near y second x first) (UInt64.not_le.mp wrong)
  omega

/-- Lookup is exact when, and only when, each comparison of a symbol with a pivot that
puts the one before the other agrees with their values; so it does when the values in
each table lie less than half of the 32 bits apart. -/
theorem lookup_iff (symbols : List Sym) :
    (Exact (buildtbls symbols) ↔
      Straight txtcomp (symbols.filter Sym.istext) ∧ Straight symcomp (symbols.filter Sym.isglobal)) ∧
    ((∀ kind ∈ [Sym.istext, Sym.isglobal], ∀ a ∈ symbols.filter kind, ∀ b ∈ symbols.filter kind, Near a b) →
      Exact (buildtbls symbols)) := by
  have both : Exact (buildtbls symbols) ↔
      Straight txtcomp (symbols.filter Sym.istext) ∧ Straight symcomp (symbols.filter Sym.isglobal) := by
    rw [← sorted_iff, ← sorted_iff]
    exact ⟨fun exact => ⟨exact.txtSorted, exact.globalsSorted⟩, fun sorted => exact_of_sorted sorted.1 sorted.2⟩
  refine ⟨both, fun near => both.mpr ⟨straight_near txtcomp_near (near _ (by simp)), straight_near symcomp_near (near _ (by simp))⟩⟩

/-- Two functions more than half of the 32 bits apart. -/
def farSymbols : List Sym := [⟨0x1000, 'T', [97]⟩, ⟨0xf0000000, 'T', [98]⟩]

theorem lookup_fails : ¬Exact (buildtbls farSymbols) := fun exact =>
  absurd exact.txtSorted (by unfold Sorted; decide)

end Goken.Proofs.Findsym
