import Mathlib.Data.List.Basic
import Mathlib.Data.List.Nodup
import Mathlib.Data.List.Perm.Subperm
import Mathlib.Tactic.Common

/-! A doubly linked list with a free list, both threaded through one heap of
cells. Addresses are positions in the heap. The list is a segment of cells
between two ends; the free list is linked forwards only. -/

namespace Goken.Lib.DList

structure Cell (α : Type) where
  item : α
  back : Option Nat
  next : Option Nat
  deriving Repr, DecidableEq

structure Heap (α : Type) where
  cells : List (Cell α)
  head : Option Nat
  free : Option Nat
  deriving Repr, DecidableEq

def empty {α : Type} : Heap α := ⟨[], none, none⟩

variable {α : Type}

def setBack (cells : List (Cell α)) (p back : Option Nat) : List (Cell α) :=
  match p with
  | none => cells
  | some p => cells.modify p fun c => { c with back := back }

def setNext (cells : List (Cell α)) (p next : Option Nat) : List (Cell α) :=
  match p with
  | none => cells
  | some p => cells.modify p fun c => { c with next := next }

/-- Put `x` in front, in the first free cell or else in a new one. -/
def push (x : α) (l : Heap α) : Heap α :=
  match l.free with
  | some p => {
      cells := setBack (l.cells.set p ⟨x, none, l.head⟩) l.head (some p)
      head := some p
      free := l.cells[p]?.bind Cell.next }
  | none => {
      cells := setBack (l.cells ++ [⟨x, none, l.head⟩]) l.head (some l.cells.length)
      head := some l.cells.length
      free := none }

/-- Unlink the cell at `p` and give it to the free list. -/
def remove (p : Nat) (l : Heap α) : Heap α :=
  match l.cells[p]? with
  | none => l
  | some c => {
      cells := setNext (setNext (setBack l.cells c.next c.back) c.back c.next) (some p) l.free
      head := if c.back = none then c.next else l.head
      free := some p }

/-- Walk the list for the first cell whose item passes the test. -/
def walk (cells : List (Cell α)) (test : α → Bool) : Nat → Option Nat → Option (Nat × α)
  | _, none => none
  | 0, _ => none
  | fuel + 1, some p =>
      match cells[p]? with
      | none => none
      | some c => if test c.item then some (p, c.item) else walk cells test fuel c.next

def find (test : α → Bool) (l : Heap α) : Option (Nat × α) := walk l.cells test l.cells.length l.head

/-- The cells from `start` on hold `nodes`, the first cell points back to
`prev`; the last cell is `last` and points on to `stop`. -/
def Segment (cells : List (Cell α)) (prev start : Option Nat) : List (Nat × α) → Option Nat → Option Nat → Prop
  | [], last, stop => prev = last ∧ start = stop
  | (i, x) :: rest, last, stop =>
      start = some i ∧ ∃ next, cells[i]? = some ⟨x, prev, next⟩ ∧ Segment cells (some i) next rest last stop

def Spare (cells : List (Cell α)) (start : Option Nat) : List Nat → Prop
  | [] => start = none
  | i :: rest => start = some i ∧ ∃ c, cells[i]? = some c ∧ Spare cells c.next rest

structure Layout (l : Heap α) (nodes : List (Nat × α)) (spare : List Nat) : Prop where
  chain : ∃ last, Segment l.cells none l.head nodes last none
  free : Spare l.cells l.free spare
  apart : (nodes.map Prod.fst ++ spare).Nodup

/-- The list holds `items`, first to last. -/
def Holds (l : Heap α) (items : List α) : Prop :=
  ∃ nodes spare, Layout l nodes spare ∧ nodes.map Prod.snd = items

theorem holds_empty : Holds (empty : Heap α) [] :=
  ⟨[], [], ⟨⟨none, rfl, rfl⟩, rfl, List.nodup_nil⟩, rfl⟩

variable {cells cells' : List (Cell α)} {prev start last stop : Option Nat} {nodes : List (Nat × α)}

theorem segment_append {before after : List (Nat × α)} : Segment cells prev start (before ++ after) last stop ↔
    ∃ middle meet, Segment cells prev start before middle meet ∧ Segment cells middle meet after last stop := by
  induction before generalizing prev start with
  | nil =>
      constructor
      · intro segment
        exact ⟨prev, start, ⟨rfl, rfl⟩, segment⟩
      · rintro ⟨middle, meet, ⟨rfl, rfl⟩, segment⟩
        exact segment
  | cons node before ih =>
      obtain ⟨i, x⟩ := node
      constructor
      · rintro ⟨rfl, next, cell, segment⟩
        obtain ⟨middle, meet, first, second⟩ := ih.mp segment
        exact ⟨middle, meet, ⟨rfl, next, cell, first⟩, second⟩
      · rintro ⟨middle, meet, ⟨rfl, next, cell, first⟩, second⟩
        exact ⟨rfl, next, cell, ih.mpr ⟨middle, meet, first, second⟩⟩

theorem segment_frame (same : ∀ i ∈ nodes.map Prod.fst, cells'[i]? = cells[i]?)
    (segment : Segment cells prev start nodes last stop) : Segment cells' prev start nodes last stop := by
  induction nodes generalizing prev start with
  | nil => exact segment
  | cons node nodes ih =>
      obtain ⟨i, x⟩ := node
      obtain ⟨rfl, next, cell, segment⟩ := segment
      refine ⟨rfl, next, ?_, ih (fun j member => same j (by simp [member])) segment⟩
      rw [same i (by simp), cell]

theorem spare_frame {spare : List Nat} (same : ∀ i ∈ spare, cells'[i]? = cells[i]?)
    (free : Spare cells start spare) : Spare cells' start spare := by
  induction spare generalizing start with
  | nil => exact free
  | cons i spare ih =>
      obtain ⟨rfl, c, cell, free⟩ := free
      refine ⟨rfl, c, ?_, ih (fun j member => same j (by simp [member])) free⟩
      rw [same i (by simp), cell]

theorem segment_inside (segment : Segment cells prev start nodes last stop) :
    ∀ i ∈ nodes.map Prod.fst, i < cells.length := by
  induction nodes generalizing prev start with
  | nil => simp
  | cons node nodes ih =>
      obtain ⟨i, x⟩ := node
      obtain ⟨rfl, next, cell, segment⟩ := segment
      intro j member
      rcases List.mem_cons.mp member with rfl | member
      · exact (List.getElem?_eq_some_iff.mp cell).1
      · exact ih segment j member

theorem setBack_other {p back : Option Nat} {i : Nat} (other : p ≠ some i) : (setBack cells p back)[i]? = cells[i]? := by
  cases p with
  | none => rfl
  | some p => simp [setBack, show p ≠ i from fun same => other (congrArg some same)]

theorem setNext_other {p next : Option Nat} {i : Nat} (other : p ≠ some i) : (setNext cells p next)[i]? = cells[i]? := by
  cases p with
  | none => rfl
  | some p => simp [setNext, show p ≠ i from fun same => other (congrArg some same)]

theorem setNext_self {p : Nat} {c : Cell α} (cell : cells[p]? = some c) (next : Option Nat) :
    (setNext cells (some p) next)[p]? = some { c with next := next } := by
  simp [setNext, cell]

/-- The first cell of a segment, or the place where it stops. -/
theorem segment_start (segment : Segment cells prev start nodes last stop) :
    start = stop ∨ ∃ i ∈ nodes.map Prod.fst, start = some i := by
  cases nodes with
  | nil => exact .inl segment.2
  | cons node nodes => exact .inr ⟨node.1, by simp, segment.1⟩

theorem segment_last (segment : Segment cells prev start nodes last stop) :
    last = prev ∨ ∃ i ∈ nodes.map Prod.fst, last = some i := by
  induction nodes generalizing prev start with
  | nil => exact .inl segment.1.symm
  | cons node nodes ih =>
      obtain ⟨i, x⟩ := node
      obtain ⟨rfl, next, cell, segment⟩ := segment
      rcases ih segment with here | ⟨j, member, there⟩
      · exact .inr ⟨i, by simp, here⟩
      · exact .inr ⟨j, by simp [member], there⟩

theorem segment_start_ne {p : Nat} (outside : p ∉ nodes.map Prod.fst) (segment : Segment cells prev start nodes last none) :
    start ≠ some p := by
  rcases segment_start segment with stop | ⟨i, member, here⟩
  · simp [stop]
  · rw [here]
    rintro ⟨⟩
    exact outside member

theorem segment_last_ne {p : Nat} (outside : p ∉ nodes.map Prod.fst) (segment : Segment cells none start nodes last stop) :
    last ≠ some p := by
  rcases segment_last segment with first | ⟨i, member, here⟩
  · simp [first]
  · rw [here]
    rintro ⟨⟩
    exact outside member

/-- Point the first cell of a segment back to another cell. -/
theorem segment_setBack (apart : (nodes.map Prod.fst).Nodup) (segment : Segment cells prev start nodes last none)
    (back : Option Nat) : ∃ last, Segment (setBack cells start back) back start nodes last none := by
  cases nodes with
  | nil =>
      obtain ⟨rfl, rfl⟩ := segment
      exact ⟨back, rfl, rfl⟩
  | cons node nodes =>
      obtain ⟨i, x⟩ := node
      obtain ⟨rfl, next, cell, segment⟩ := segment
      refine ⟨last, rfl, next, by simp [setBack, cell], segment_frame (fun j member => setBack_other ?_) segment⟩
      rintro ⟨⟩
      exact (List.nodup_cons.mp apart).1 member

/-- Point the last cell of a segment on to another cell; an empty segment
starts there itself. -/
theorem segment_setNext (apart : (nodes.map Prod.fst).Nodup) (segment : Segment cells none start nodes last stop)
    (next : Option Nat) :
    Segment (setNext cells last next) none (if last = none then next else start) nodes last next := by
  rcases List.eq_nil_or_concat nodes with rfl | ⟨before, ⟨i, x⟩, rfl⟩
  · obtain ⟨rfl, rfl⟩ := segment
    exact ⟨rfl, by simp⟩
  · rw [List.concat_eq_append] at segment apart ⊢
    obtain ⟨middle, meet, first, rfl, stop', cell, rfl, rfl⟩ := segment_append.mp segment
    rw [if_neg (by simp)]
    refine segment_append.mpr ⟨middle, some i, segment_frame (fun j member => setNext_other ?_) first, rfl, next, ?_, rfl, rfl⟩
    · rintro ⟨⟩
      rw [List.map_append, List.nodup_append] at apart
      exact apart.2.2 _ member _ (by simp) rfl
    · simp [setNext, cell]

theorem Holds.push {l : Heap α} {items : List α} (holds : Holds l items) (x : α) : Holds (push x l) (x :: items) := by
  obtain ⟨nodes, spare, ⟨⟨last, chain⟩, free, apart⟩, rfl⟩ := holds
  have inside := segment_inside chain
  have distinct := (List.nodup_append.mp apart).1
  cases spare with
  | nil =>
      have none : l.free = none := free
      simp only [DList.push, none]
      have grown : ∀ i ∈ nodes.map Prod.fst, (l.cells ++ [⟨x, Option.none, l.head⟩])[i]? = l.cells[i]? :=
        fun i member => List.getElem?_append_left (inside i member)
      have fresh : l.cells.length ∉ nodes.map Prod.fst := fun member => Nat.lt_irrefl _ (inside _ member)
      obtain ⟨last, back⟩ := segment_setBack distinct (segment_frame grown chain) (some l.cells.length)
      refine ⟨(l.cells.length, x) :: nodes, [], ⟨⟨last, rfl, l.head, ?_, back⟩, rfl, by simpa using ⟨by simpa using fresh, distinct⟩⟩,
        rfl⟩
      rw [setBack_other (segment_start_ne fresh chain), List.getElem?_append_right (Nat.le_refl _)]
      simp
  | cons p spare =>
      obtain ⟨here, c, cell, free⟩ := free
      simp only [DList.push, here]
      have fresh : p ∉ nodes.map Prod.fst := fun member => (List.nodup_append.mp apart).2.2 p member p (by simp) rfl
      have kept : ∀ i ∈ nodes.map Prod.fst, (l.cells.set p ⟨x, none, l.head⟩)[i]? = l.cells[i]? := by
        intro i member
        exact List.getElem?_set_ne (ne_of_mem_of_not_mem member fresh).symm
      obtain ⟨last, back⟩ := segment_setBack distinct (segment_frame kept chain) (some p)
      have apart' : ((p :: nodes.map Prod.fst) ++ spare).Nodup := (List.perm_middle.nodup_iff.mp apart)
      refine ⟨(p, x) :: nodes, spare, ⟨⟨last, rfl, l.head, ?_, back⟩, ?_, apart'⟩, rfl⟩
      · rw [setBack_other (segment_start_ne fresh chain), List.getElem?_set_self (List.getElem?_eq_some_iff.mp cell).1]
      · rw [cell]
        refine spare_frame (fun i member => ?_) free
        have unlike : p ≠ i := fun same => (List.nodup_cons.mp (List.nodup_append.mp apart).2.1).1 (same ▸ member)
        have outside : i ∉ nodes.map Prod.fst :=
          fun inner => (List.nodup_append.mp apart).2.2 i inner i (by simp [member]) rfl
        rw [setBack_other (segment_start_ne outside chain), List.getElem?_set_ne unlike]

theorem Layout.remove {l : Heap α} {before after : List (Nat × α)} {p : Nat} {x : α} {spare : List Nat}
    (layout : Layout l (before ++ (p, x) :: after) spare) : Layout (remove p l) (before ++ after) (p :: spare) := by
  obtain ⟨⟨last, chain⟩, free, apart⟩ := layout
  obtain ⟨back, meet, first, rfl, next, cell, second⟩ := segment_append.mp chain
  have distinct := List.nodup_append.mp apart
  rw [List.map_append, List.map_cons, List.nodup_append, List.nodup_cons] at distinct
  obtain ⟨⟨nodupBefore, ⟨outAfter, nodupAfter⟩, disjoint⟩, nodupSpare, unspared⟩ := distinct
  have outBefore : p ∉ before.map Prod.fst := fun member => disjoint p member p (by simp) rfl
  have nextBefore : ∀ i ∈ before.map Prod.fst, next ≠ some i :=
    fun i member => segment_start_ne (fun inner => disjoint i member i (by simp [inner]) rfl) second
  have backAfter : ∀ i ∈ after.map Prod.fst, back ≠ some i :=
    fun i member => segment_last_ne (fun inner => disjoint i inner i (by simp [member]) rfl) first
  have offSpare : ∀ i ∈ spare, i ∉ before.map Prod.fst ∧ p ≠ i ∧ i ∉ after.map Prod.fst := by
    intro i member
    exact ⟨fun inner => unspared i (by simp [inner]) i member rfl, fun same => unspared i (by simp [same]) i member rfl,
      fun inner => unspared i (by simp [inner]) i member rfl⟩
  simp only [DList.remove, cell]
  have kept : Segment (setBack l.cells next back) none l.head before back (some p) :=
    segment_frame (fun i member => setBack_other (nextBefore i member)) first
  have first' := segment_setNext nodupBefore kept next
  obtain ⟨last', second'⟩ := segment_setBack nodupAfter second back
  refine ⟨⟨last', segment_append.mpr ⟨back, next, ?_, ?_⟩⟩, ?_, ?_⟩
  · refine segment_frame (fun i member => ?_) first'
    exact setNext_other fun same => ne_of_mem_of_not_mem member outBefore (Option.some.inj same).symm
  · refine segment_frame (fun i member => ?_) second'
    rw [setNext_other (fun same => ne_of_mem_of_not_mem member outAfter (Option.some.inj same).symm), setNext_other (backAfter i member)]
  · refine ⟨rfl, ⟨x, back, l.free⟩, ?_, spare_frame (fun i member => ?_) free⟩
    · have kept : (setNext (setBack l.cells next back) back next)[p]? = some ⟨x, back, next⟩ := by
        rw [setNext_other (segment_last_ne outBefore first), setBack_other (segment_start_ne outAfter second), cell]
      exact setNext_self kept l.free
    · obtain ⟨notBefore, other, notAfter⟩ := offSpare i member
      rw [setNext_other (fun same => other (Option.some.inj same)), setNext_other (segment_last_ne notBefore first),
        setBack_other (segment_start_ne notAfter second)]
  · have moved : (p :: ((before ++ after).map Prod.fst ++ spare)).Nodup := by
      refine (List.Perm.nodup_iff ?_).mp apart
      simp only [List.map_append, List.map_cons, List.append_assoc, List.cons_append]
      exact List.perm_middle
    exact (List.perm_middle.nodup_iff).mpr moved

theorem walk_none (test : α → Bool) (fuel : Nat) (enough : nodes.length ≤ fuel)
    (segment : Segment cells prev start nodes last none) (fails : ∀ x ∈ nodes.map Prod.snd, test x = false) :
    walk cells test fuel start = none := by
  induction nodes generalizing prev start fuel with
  | nil =>
      obtain ⟨rfl, rfl⟩ := segment
      cases fuel <;> rfl
  | cons node nodes ih =>
      obtain ⟨i, x⟩ := node
      obtain ⟨rfl, next, cell, segment⟩ := segment
      cases fuel with
      | zero => simp at enough
      | succ fuel =>
          have miss : test x = false := fails x (by simp)
          simp only [walk, cell, miss]
          exact ih fuel (by simpa using enough) segment (fun y member => fails y (by simp [member]))

theorem walk_some (test : α → Bool) (fuel : Nat) {before after : List (Nat × α)} {p : Nat} {x : α}
    (enough : before.length < fuel) (segment : Segment cells prev start (before ++ (p, x) :: after) last stop)
    (fails : ∀ y ∈ before.map Prod.snd, test y = false) (passes : test x = true) :
    walk cells test fuel start = some (p, x) := by
  induction before generalizing prev start fuel with
  | nil =>
      obtain ⟨rfl, next, cell, segment⟩ := segment
      cases fuel with
      | zero => simp at enough
      | succ fuel => simp [walk, cell, passes]
  | cons node before ih =>
      obtain ⟨i, y⟩ := node
      obtain ⟨rfl, next, cell, segment⟩ := segment
      cases fuel with
      | zero => simp at enough
      | succ fuel =>
          have miss : test y = false := fails y (by simp)
          simp only [walk, cell, miss]
          exact ih fuel (by simpa using enough) segment (fun z member => fails z (by simp [member]))

theorem Layout.length_le {l : Heap α} {spare : List Nat} (layout : Layout l nodes spare) :
    nodes.length ≤ l.cells.length := by
  obtain ⟨⟨last, chain⟩, free, apart⟩ := layout
  have inside := segment_inside chain
  have subset : nodes.map Prod.fst ⊆ List.range l.cells.length := fun i member => List.mem_range.mpr (inside i member)
  have bound := (List.subperm_of_subset (List.nodup_append.mp apart).1 subset).length_le
  simpa using bound

/-- A search finds the first item that passes, and removing its cell takes
just that item out. -/
theorem Holds.find {l : Heap α} {items : List α} (holds : Holds l items) (test : α → Bool) :
    (find test l = none ∧ ∀ x ∈ items, test x = false) ∨
    ∃ p x before after, find test l = some (p, x) ∧ items = before ++ x :: after ∧ test x = true ∧
      (∀ y ∈ before, test y = false) ∧ Holds (remove p l) (before ++ after) := by
  obtain ⟨nodes, spare, layout, rfl⟩ := holds
  obtain ⟨last, chain⟩ := layout.chain
  by_cases fails : ∀ x ∈ nodes.map Prod.snd, test x = false
  · exact .inl ⟨walk_none test _ layout.length_le chain fails, fails⟩
  · have some : (nodes.find? fun node => test node.2).isSome := by
      rw [List.find?_isSome]
      push Not at fails
      obtain ⟨x, member, passes⟩ := fails
      obtain ⟨node, inner, rfl⟩ := List.mem_map.mp member
      exact ⟨node, inner, by simpa using passes⟩
    obtain ⟨⟨p, x⟩, found⟩ := Option.isSome_iff_exists.mp some
    obtain ⟨passes, before, after, rfl, earlier⟩ := List.find?_eq_some_iff_append.mp found
    have miss : ∀ y ∈ before.map Prod.snd, test y = false := by
      intro y member
      obtain ⟨node, inner, rfl⟩ := List.mem_map.mp member
      simpa using earlier node inner
    have short : before.length < l.cells.length := by
      have bound := layout.length_le
      simp only [List.length_append, List.length_cons] at bound
      omega
    refine .inr ⟨p, x, before.map Prod.snd, after.map Prod.snd, walk_some test _ short chain miss passes, by simp, passes, miss, ?_⟩
    exact ⟨before ++ after, p :: spare, layout.remove, by simp⟩

end Goken.Lib.DList
