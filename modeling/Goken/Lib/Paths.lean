import Mathlib.Data.List.TakeWhile

/-! Paths: texts whose pieces stand between separators, and the place that a
list of names leads to when two of them mean "here" and "the parent". -/

namespace Goken.Lib.Paths

section Pieces

variable {α : Type} (sep : α)

/-- What a piece is. -/
def Piece (c : List α) : Prop := c ≠ [] ∧ sep ∉ c

/-- Pieces that are all followed by a separator. -/
def closed (cs : List (List α)) : List α := cs.flatMap fun c => c ++ [sep]

variable {sep}

@[simp]
theorem closed_nil : closed sep [] = [] := rfl

@[simp]
theorem closed_cons (c : List α) (cs : List (List α)) : closed sep (c :: cs) = c ++ sep :: closed sep cs := by
  simp [closed]

@[simp]
theorem closed_append (cs cs' : List (List α)) : closed sep (cs ++ cs') = closed sep cs ++ closed sep cs' := List.flatMap_append

/-- A joined text ends in the last piece. -/
theorem intercalate_snoc (cs : List (List α)) (c : List α) : [sep].intercalate (cs ++ [c]) = closed sep cs ++ c := by
  induction cs with
  | nil => simp
  | cons c' cs ih =>
      rw [List.cons_append, List.intercalate_cons_of_ne_nil (List.append_ne_nil_of_right_ne_nil cs (List.cons_ne_nil c [])), ih, closed_cons]
      simp

/-- A closed text without its last separator. -/
theorem closed_intercalate {cs : List (List α)} (nonempty : cs ≠ []) : closed sep cs = [sep].intercalate cs ++ [sep] := by
  obtain ⟨init, last, rfl⟩ : ∃ init last, cs = init ++ [last] := ⟨_, _, (List.dropLast_concat_getLast nonempty).symm⟩
  rw [intercalate_snoc, closed_append, closed_cons, closed_nil, List.append_assoc]

variable [DecidableEq α]

variable (sep) in
/-- The pieces that are not empty. -/
def pieces (text : List α) : List (List α) := (text.splitOn sep).filter fun c => !c.isEmpty

theorem pieces_nil : pieces sep ([] : List α) = [] := by simp [pieces]

theorem pieces_append (before after : List α) : pieces sep (before ++ sep :: after) = pieces sep before ++ pieces sep after := by
  rw [pieces, List.splitOn_append_cons_self, List.filter_append, pieces, pieces]

theorem pieces_sep (after : List α) : pieces sep (sep :: after) = pieces sep after := by
  rw [← List.nil_append (sep :: after), pieces_append, pieces_nil, List.nil_append]

theorem pieces_piece {c : List α} (piece : Piece sep c) : pieces sep c = [c] := by
  rw [pieces, List.splitOn_eq_singleton piece.2, List.filter_cons_of_pos (by simp [piece.1]), List.filter_nil]

theorem pieces_are_pieces {text c : List α} (member : c ∈ pieces sep text) : Piece sep c := by
  obtain ⟨inside, nonempty⟩ := List.mem_filter.mp member
  refine ⟨by simpa using nonempty, ?_⟩
  clear member nonempty
  induction text generalizing c with
  | nil => simp_all
  | cons x text ih =>
      rw [List.splitOn_cons_eq_if_modifyHead] at inside
      obtain ⟨first, rest, cut⟩ := List.exists_cons_of_ne_nil (List.splitOn_ne_nil sep text)
      rw [cut] at ih inside
      split at inside
      · rcases List.mem_cons.mp inside with rfl | later
        · exact List.not_mem_nil
        · exact ih later
      · rename_i other
        rcases List.mem_cons.mp inside with rfl | later
        · rw [List.mem_cons, not_or]
          exact ⟨fun same => other (beq_iff_eq.mpr same.symm), ih List.mem_cons_self⟩
        · exact ih (List.mem_cons_of_mem _ later)

theorem mem_of_mem_pieces {text c : List α} (member : c ∈ pieces sep text) {b : α} (inside : b ∈ c) : b ∈ text := by
  have whole : closed sep (text.splitOn sep) = text ++ [sep] := by
    rw [closed_intercalate (List.splitOn_ne_nil sep text), List.intercalate_splitOn]
  have somewhere : b ∈ closed sep (text.splitOn sep) :=
    List.mem_flatMap.mpr ⟨c, (List.mem_filter.mp member).1, List.mem_append_left _ inside⟩
  rw [whole, List.mem_append] at somewhere
  refine somewhere.resolve_right fun last => ?_
  exact (pieces_are_pieces member).2 (List.mem_singleton.mp last ▸ inside)

theorem pieces_intercalate {cs : List (List α)} (all : ∀ c ∈ cs, Piece sep c) : pieces sep ([sep].intercalate cs) = cs := by
  cases cs with
  | nil => exact pieces_nil
  | cons c cs =>
      rw [pieces, List.splitOn_intercalate sep (fun l member => (all l member).2) (List.cons_ne_nil _ _)]
      exact List.filter_eq_self.mpr fun l member => by simp [(all l member).1]

theorem pieces_seps (k : Nat) (rest : List α) : pieces sep (List.replicate k sep ++ rest) = pieces sep rest := by
  induction k with
  | zero => rfl
  | succ k ih => rw [List.replicate_succ, List.cons_append, pieces_sep, ih]

/-- The separators at the start. -/
theorem leading_seps (sep : α) (text : List α) : ∃ k rest, text = List.replicate k sep ++ rest ∧ rest.head? ≠ some sep := by
  refine ⟨(text.takeWhile (· == sep)).length, text.dropWhile (· == sep), ?_, fun found => ?_⟩
  · have seps : text.takeWhile (· == sep) = List.replicate (text.takeWhile (· == sep)).length sep :=
      List.eq_replicate_of_mem fun b member => by simpa using List.mem_takeWhile_imp member
    rw [← seps, List.takeWhile_append_dropWhile]
  · have tested := List.head?_dropWhile_not (· == sep) text
    rw [found] at tested
    simp at tested

variable (sep) in
/-- A text that does not start with a separator: the pieces before its
separators, and what is after the last one. -/
inductive Spread : List α → List (List α) → List α → Prop where
  | last {tail : List α} (free : sep ∉ tail) : Spread tail [] tail
  | next {c rest tail : List α} {cs : List (List α)} (k : Nat) (piece : Piece sep c) (starts : rest.head? ≠ some sep)
      (spread : Spread rest cs tail) : Spread (c ++ sep :: (List.replicate k sep ++ rest)) (c :: cs) tail

theorem Spread.parts {text tail : List α} {cs : List (List α)} (spread : Spread sep text cs tail) :
    (∀ c ∈ cs, Piece sep c) ∧ sep ∉ tail ∧ pieces sep text = cs ++ pieces sep tail := by
  induction spread with
  | last free => exact ⟨nofun, free, rfl⟩
  | next k piece _ _ ih =>
      refine ⟨List.forall_mem_cons.mpr ⟨piece, ih.1⟩, ih.2.1, ?_⟩
      rw [pieces_append, pieces_piece piece, pieces_seps, ih.2.2]
      rfl

theorem spread_of_head (text : List α) (starts : text.head? ≠ some sep) : ∃ cs tail, Spread sep text cs tail := by
  induction size : text.length using Nat.strongRecOn generalizing text with
  | ind n ih =>
      by_cases free : sep ∉ text
      · exact ⟨[], text, .last free⟩
      obtain ⟨c, after, rfl, before⟩ := List.eq_append_cons_of_mem (not_not.mp free)
      have nonempty : c ≠ [] := by
        rintro rfl
        exact starts rfl
      obtain ⟨k, rest, rfl, stops⟩ := leading_seps sep after
      have shorter : rest.length < n := by
        simp only [List.length_append, List.length_cons] at size
        omega
      obtain ⟨cs, tail, spread⟩ := ih _ shorter _ stops rfl
      exact ⟨c :: cs, tail, .next k ⟨nonempty, before⟩ stops spread⟩

end Pieces

/-! Places. -/

/-- So many levels above the start, and from there down by the names, of which
the last comes first. -/
structure Place (C : Type) where
  ups : Nat
  names : List C
  deriving DecidableEq, Repr

section Places

variable {C : Type} [DecidableEq C] (here parent : C)

/-- Nothing is above a root. -/
def go (rooted : Bool) (p : Place C) (c : C) : Place C :=
  if c = here then p
  else if c = parent then
    match p.names with
    | [] => if rooted then p else { p with ups := p.ups + 1 }
    | _ :: names => { p with names := names }
  else { p with names := c :: p.names }

def place (rooted : Bool) (cs : List C) : Place C := cs.foldl (go here parent rooted) ⟨0, []⟩

/-- The shortest list that leads to a place. -/
def Place.route (p : Place C) : List C := List.replicate p.ups parent ++ p.names.reverse

/-- What a place is made of. -/
structure Place.Proper (rooted : Bool) (p : Place C) : Prop where
  rooted : rooted = true → p.ups = 0
  names : ∀ c ∈ p.names, c ≠ here ∧ c ≠ parent

variable {here parent}

theorem go_here (rooted : Bool) (p : Place C) : go here parent rooted p here = p := if_pos rfl

theorem go_name {rooted : Bool} {c : C} (stays : c ≠ here) (named : c ≠ parent) (p : Place C) :
    go here parent rooted p c = { p with names := c :: p.names } := by rw [go, if_neg stays, if_neg named]

theorem go_root (distinct : parent ≠ here) {p : Place C} (names : p.names = []) : go here parent true p parent = p := by
  rw [go, if_neg distinct, if_pos rfl, names]
  rfl

theorem go_up (distinct : parent ≠ here) {p : Place C} (names : p.names = []) :
    go here parent false p parent = { p with ups := p.ups + 1 } := by
  rw [go, if_neg distinct, if_pos rfl, names]
  rfl

theorem go_back (distinct : parent ≠ here) {rooted : Bool} {p : Place C} {n : C} {rest : List C} (names : p.names = n :: rest) :
    go here parent rooted p parent = { p with names := rest } := by
  rw [go, if_neg distinct, if_pos rfl, names]

theorem go_proper {rooted : Bool} {p : Place C} (proper : p.Proper here parent rooted) (c : C) :
    (go here parent rooted p c).Proper here parent rooted := by
  rw [go]
  split
  · exact proper
  · rename_i other
    split
    · cases names : p.names with
      | nil =>
          cases rooted with
          | true => exact proper
          | false => exact ⟨nofun, nofun⟩
      | cons c' rest => exact ⟨proper.rooted, fun d member => proper.names d (names ▸ List.mem_cons_of_mem _ member)⟩
    · rename_i other'
      exact ⟨proper.rooted, List.forall_mem_cons.mpr ⟨⟨other, other'⟩, proper.names⟩⟩

theorem place_proper (rooted : Bool) (cs : List C) : (place here parent rooted cs).Proper here parent rooted := by
  have steps : ∀ p : Place C, p.Proper here parent rooted → (cs.foldl (go here parent rooted) p).Proper here parent rooted := by
    induction cs with
    | nil => exact fun p proper => proper
    | cons c cs ih => exact fun p proper => ih _ (go_proper proper c)
  exact steps _ ⟨fun _ => rfl, nofun⟩

theorem names_subset (rooted : Bool) (cs : List C) {c : C} (member : c ∈ (place here parent rooted cs).names) : c ∈ cs := by
  have steps : ∀ (cs : List C) (p : Place C), c ∈ (cs.foldl (go here parent rooted) p).names → c ∈ p.names ∨ c ∈ cs := by
    intro cs
    induction cs with
    | nil => exact fun p inside => .inl inside
    | cons c' cs ih =>
        intro p inside
        rcases ih _ inside with before | later
        · rw [go] at before
          split at before
          · exact .inl before
          · split at before
            · cases names : p.names with
              | nil =>
                  rw [names] at before
                  cases rooted <;> simp_all
              | cons c'' rest =>
                  rw [names] at before
                  exact .inl (List.mem_cons_of_mem _ before)
            · rcases List.mem_cons.mp before with rfl | old
              · exact .inr List.mem_cons_self
              · exact .inl old
        · exact .inr (List.mem_cons_of_mem _ later)
  exact (steps cs _ member).resolve_left List.not_mem_nil

/-- The shortest list leads to the place. -/
theorem place_route {rooted : Bool} (distinct : parent ≠ here) {p : Place C} (proper : p.Proper here parent rooted) :
    place here parent rooted (p.route parent) = p := by
  have ups : ∀ k n, (rooted = true → k = 0) → (List.replicate k parent).foldl (go here parent rooted) ⟨n, []⟩ = ⟨n + k, []⟩ := by
    intro k
    induction k with
    | zero => exact fun n _ => rfl
    | succ k ih =>
        intro n unrooted
        have free : rooted = false := by
          cases rooted
          · rfl
          · exact absurd (unrooted rfl) (Nat.succ_ne_zero k)
        subst free
        rw [List.replicate_succ, List.foldl_cons, go_up distinct rfl, ih (n + 1) nofun, Nat.add_right_comm]
        rfl
  have downs : ∀ names : List C, (∀ c ∈ names, c ≠ here ∧ c ≠ parent) →
      names.reverse.foldl (go here parent rooted) ⟨p.ups, []⟩ = ⟨p.ups, names⟩ := by
    intro names
    induction names with
    | nil => exact fun _ => rfl
    | cons c names ih =>
        intro plain
        obtain ⟨first, rest⟩ := List.forall_mem_cons.mp plain
        rw [List.reverse_cons, List.foldl_append, ih rest, List.foldl_cons, List.foldl_nil, go_name first.1 first.2]
  rw [place, Place.route, List.foldl_append, ups p.ups 0 proper.rooted, Nat.zero_add]
  exact downs p.names proper.names

end Places

end Goken.Lib.Paths
