import Goken.Cleanname
import Goken.Lib.Lists
import Goken.Lib.Paths
import Goken.Proofs.Rune

/-! `cleanname` writes the shortest path to the place that the names lead to,
if it stays inside the string and what it writes is no device. -/

namespace Goken.Proofs.Cleanname
open Goken.Cleanname
open Lib.Paths

/-! Reading and writing: the text before `d` is written, the text from `s` on is
still to be read. -/

@[simp]
theorem ok_bind {α β : Type} (a : α) (f : α → Except Stop β) : (Except.ok a >>= f) = f a := rfl

theorem load_drop {mem : Mem} {s : Nat} {c : UInt8} {rest : List UInt8} (reads : mem.drop s = c :: rest) : load mem s = .ok c := by
  have here : mem[s]? = some c := by rw [← List.head?_drop, reads, List.head?_cons]
  rw [load, here]

theorem drop_next {mem : Mem} {s : Nat} {c : UInt8} {rest : List UInt8} (reads : mem.drop s = c :: rest) : mem.drop (s + 1) = rest := by
  rw [← List.tail_drop, reads, List.tail_cons]

theorem drop_append {mem : Mem} {s : Nat} {before rest : List UInt8} (reads : mem.drop s = before ++ rest) :
    mem.drop (s + before.length) = rest := by
  rw [← List.drop_drop, reads, List.drop_left]

theorem store_inside {mem : Mem} {d : Nat} (inside : d < mem.length) (c : UInt8) : store mem d c = .ok (mem.set d c) := if_pos inside

/-- The bytes of a name. -/
theorem plain_of {c : List UInt8} (free : slash ∉ c) (nul : 0 ∉ c) : ∀ b ∈ c, SEP b = false := fun b member => by
  simp only [SEP, Bool.or_eq_false_iff, decide_eq_false_iff_not]
  exact ⟨fun same => free (same ▸ member), fun same => nul (same ▸ member)⟩

structure View (mem : Mem) (d s : Nat) (out rest : List UInt8) : Prop where
  written : mem.take d = out
  reads : mem.drop s = rest
  order : d ≤ s
  inside : rest ≠ []

theorem View.lt_length {mem : Mem} {d s : Nat} {out rest : List UInt8} (view : View mem d s out rest) : s < mem.length := by
  by_contra beyond
  exact view.inside (view.reads ▸ List.drop_eq_nil_of_le (Nat.le_of_not_lt beyond))

theorem View.position {mem : Mem} {d s : Nat} {out rest : List UInt8} (view : View mem d s out rest) : out.length = d := by
  rw [← view.written, List.length_take, Nat.min_eq_left (view.order.trans view.lt_length.le)]

theorem take_set {mem : Mem} {d : Nat} (inside : d < mem.length) (c : UInt8) : (mem.set d c).take (d + 1) = mem.take d ++ [c] := by
  rw [List.take_succ_eq_append_getElem (by rwa [List.length_set]), List.getElem_set_self, List.take_set_of_le (Nat.le_refl d)]

theorem View.write {mem : Mem} {d s : Nat} {out rest : List UInt8} {c : UInt8} (view : View mem d s out (c :: rest)) (inside : rest ≠ [])
    (c' : UInt8) : View (mem.set d c') (d + 1) (s + 1) (out ++ [c']) rest where
  written := by rw [take_set (view.order.trans_lt view.lt_length), view.written]
  reads := by rw [List.drop_set_of_lt (Nat.lt_succ_of_le view.order), drop_next view.reads]
  order := Nat.succ_le_succ view.order
  inside := inside

theorem skipSlashes_eq {mem : Mem} {s k fuel : Nat} {t : UInt8} {rest : List UInt8} (reads : mem.drop s = List.replicate k slash ++ t :: rest)
    (other : t ≠ slash) (enough : k < fuel) : skipSlashes fuel mem s = .ok (s + k) := by
  induction k generalizing s fuel with
  | zero =>
      obtain ⟨fuel, rfl⟩ := Nat.exists_eq_add_of_lt enough
      rw [skipSlashes, load_drop reads, ok_bind, if_neg other]
      rfl
  | succ k ih =>
      obtain ⟨fuel, rfl⟩ := Nat.exists_eq_add_of_lt enough
      rw [List.replicate_succ, List.cons_append] at reads
      rw [skipSlashes, load_drop reads, ok_bind, if_pos rfl, ih (drop_next reads) (by omega), Nat.add_assoc, Nat.add_comm 1]

theorem copy_eq {mem : Mem} {d s : Nat} {out c rest : List UInt8} {t : UInt8} (fuel : Nat) (view : View mem d s out (c ++ t :: rest))
    (plain : ∀ b ∈ c, SEP b = false) (stops : SEP t = true) (enough : c.length < fuel) :
    ∃ mem', copy fuel mem d s = .ok (mem', d + c.length, s + c.length) ∧ mem'.length = mem.length ∧
      View mem' (d + c.length) (s + c.length) (out ++ c) (t :: rest) := by
  induction c generalizing mem d s out fuel with
  | nil =>
      obtain ⟨fuel, rfl⟩ := Nat.exists_eq_add_of_lt enough
      refine ⟨mem, ?_, rfl, by simpa using view⟩
      rw [copy, load_drop view.reads, ok_bind, if_pos stops]
      rfl
  | cons b c ih =>
      obtain ⟨fuel, rfl⟩ := Nat.exists_eq_add_of_lt enough
      obtain ⟨first, later⟩ := List.forall_mem_cons.mp plain
      have next := view.write (by simp) b
      obtain ⟨mem', runs, same, view'⟩ := ih ((b :: c).length + fuel) next later (by simp; omega)
      have lengths : ∀ n, n + 1 + c.length = n + (b :: c).length := fun n => by rw [List.length_cons]; omega
      rw [lengths, lengths, List.append_assoc] at view'
      refine ⟨mem', ?_, by rw [same, List.length_set], view'⟩
      rw [copy, load_drop view.reads, ok_bind, if_neg (by rw [first]; exact Bool.false_ne_true),
        store_inside (view.order.trans_lt view.lt_length), ok_bind, runs, lengths, lengths]

/-! The first pass. -/

theorem load_set {mem : Mem} {d s : Nat} {out rest : List UInt8} {c : UInt8} (view : View mem d s out (c :: rest)) :
    load (mem.set d c) s = .ok c := by
  have inside := view.lt_length
  have here : (mem.set d c)[s]? = some c := by
    rw [List.getElem?_set]
    split
    · exact if_pos (view.order.trans_lt inside)
    · rw [← List.head?_drop, view.reads, List.head?_cons]
  rw [load, here]

theorem compress_plain {mem : Mem} {d s : Nat} {out c more : List UInt8} (fuel : Nat) (view : View mem d s out (c ++ more)) (inside : more ≠ [])
    (plain : ∀ b ∈ c, SEP b = false) :
    ∃ mem', compress (c.length + fuel) mem d s = compress fuel mem' (d + c.length) (s + c.length) ∧ mem'.length = mem.length ∧
      View mem' (d + c.length) (s + c.length) (out ++ c) more := by
  induction c generalizing mem d s out with
  | nil => exact ⟨mem, by rw [List.length_nil, Nat.zero_add]; rfl, rfl, by simpa using view⟩
  | cons b c ih =>
      obtain ⟨first, later⟩ := List.forall_mem_cons.mp plain
      simp only [SEP, Bool.or_eq_false_iff, decide_eq_false_iff_not] at first
      have next := view.write (List.append_ne_nil_of_right_ne_nil c inside) b
      obtain ⟨mem', runs, same, view'⟩ := ih next later
      have lengths : ∀ n, n + 1 + c.length = n + (b :: c).length := fun n => by rw [List.length_cons]; omega
      rw [lengths, lengths, List.append_assoc] at view'
      rw [lengths, lengths] at runs
      refine ⟨mem', ?_, by rw [same, List.length_set], view'⟩
      rw [List.length_cons, Nat.add_right_comm, compress, load_drop view.reads, ok_bind, if_neg first.2,
        store_inside (view.order.trans_lt view.lt_length), ok_bind, load_set view, ok_bind, if_neg first.1, ok_bind]
      exact runs

theorem compress_slashes {mem : Mem} {d s k fuel : Nat} {out more : List UInt8} {t : UInt8}
    (view : View mem d s out (slash :: (List.replicate k slash ++ t :: more))) (other : t ≠ slash) (enough : k < fuel) :
    ∃ mem', compress (fuel + 1) mem d s = compress fuel mem' (d + 1) (s + 1 + k) ∧ mem'.length = mem.length ∧
      View mem' (d + 1) (s + 1 + k) (out ++ [slash]) (t :: more) := by
  have next := view.write (by simp) slash
  refine ⟨mem.set d slash, ?_, List.length_set, next.written, ?_, next.order.trans (Nat.le_add_right _ _), List.cons_ne_nil _ _⟩
  · have zero : slash ≠ 0 := by decide
    rw [compress, load_drop view.reads, ok_bind, if_neg zero, store_inside (view.order.trans_lt view.lt_length), ok_bind, load_set view,
      ok_bind, if_pos rfl, skipSlashes_eq next.reads other enough, ok_bind]
  · have skipped := drop_append next.reads
    rwa [List.length_replicate] at skipped

theorem follows_other {rest : List UInt8} (starts : rest.head? ≠ some slash) (stale : List UInt8) :
    ∃ t more, rest ++ 0 :: stale = t :: more ∧ t ≠ slash := by
  cases rest with
  | nil => exact ⟨0, stale, rfl, by decide⟩
  | cons t more => exact ⟨t, more ++ 0 :: stale, rfl, by simpa using starts⟩

theorem compress_eq {text tail : List UInt8} {cs : List (List UInt8)} (spread : Spread slash text cs tail) (nul : 0 ∉ text) {mem : Mem}
    {d s fuel : Nat} {out stale : List UInt8} (view : View mem d s out (text ++ 0 :: stale)) (enough : text.length < fuel) :
    ∃ mem', compress fuel mem d s = .ok (mem', d + (closed slash cs ++ tail).length) ∧ mem'.length = mem.length ∧
      mem'.take (d + (closed slash cs ++ tail).length) = out ++ (closed slash cs ++ tail) ∧
      d + (closed slash cs ++ tail).length < mem.length := by
  induction spread generalizing mem d s out fuel with
  | last free =>
      rename_i tail
      obtain ⟨fuel, rfl⟩ := Nat.exists_eq_add_of_lt enough
      have plain := plain_of free nul
      obtain ⟨mem', runs, same, view'⟩ := compress_plain (fuel + 1) view (List.cons_ne_nil _ _) plain
      refine ⟨mem', ?_, same, view'.written, same ▸ view'.order.trans_lt view'.lt_length⟩
      rw [Nat.add_assoc, runs, compress, load_drop view'.reads, ok_bind, if_pos rfl]
      rfl
  | next k piece starts inner ih =>
      rename_i c rest tail cs
      have parts : 0 ∉ c ∧ 0 ∉ rest := by
        simp only [List.mem_append, List.mem_cons, not_or] at nul
        exact ⟨nul.1, nul.2.2.2⟩
      have plain := plain_of piece.2 parts.1
      obtain ⟨t, more, follows, other⟩ := follows_other starts stale
      obtain ⟨fuel', rfl⟩ : ∃ fuel', fuel = c.length + (fuel' + 1) := by
        refine ⟨fuel - c.length - 1, ?_⟩
        simp only [List.length_append, List.length_cons] at enough
        omega
      have room : k + rest.length < fuel' := by
        simp only [List.length_append, List.length_cons, List.length_replicate] at enough
        omega
      rw [List.append_assoc, List.cons_append, List.append_assoc, follows] at view
      obtain ⟨mem₁, runs₁, same₁, view₁⟩ := compress_plain (fuel' + 1) view (List.cons_ne_nil _ _) plain
      obtain ⟨mem₂, runs₂, same₂, view₂⟩ := compress_slashes view₁ other (Nat.lt_of_le_of_lt (Nat.le_add_right _ _) room)
      rw [← follows] at view₂
      obtain ⟨mem₃, runs₃, same₃, written, inside⟩ := ih parts.2 view₂ (Nat.lt_of_le_of_lt (Nat.le_add_left _ _) room)
      have position : d + c.length + 1 + (closed slash cs ++ tail).length = d + (closed slash (c :: cs) ++ tail).length := by
        simp only [closed_cons, List.length_append, List.length_cons]
        omega
      rw [position] at runs₃ written inside
      refine ⟨mem₃, by rw [runs₁, runs₂, runs₃], by rw [same₃, same₂, same₁], ?_, by rwa [same₂, same₁] at inside⟩
      rw [written]
      simp

/-! The tests on a component. -/

/-- A component that ends at `t`. -/
structure Component (c : List UInt8) (t : UInt8) : Prop where
  nonempty : c ≠ []
  plain : ∀ b ∈ c, SEP b = false
  stops : SEP t = true

theorem Component.ne {c : List UInt8} {t : UInt8} (component : Component c t) : t ≠ dot := by
  rintro rfl
  exact absurd component.stops (by decide)

theorem here_eq {mem : Mem} {s : Nat} {c more : List UInt8} {t : UInt8} (reads : mem.drop s = c ++ t :: more) (component : Component c t) :
    here mem s = .ok (decide (c = [dot])) := by
  cases c with
  | nil => exact absurd rfl component.nonempty
  | cons x c =>
      rw [here, load_drop reads, ok_bind]
      by_cases first : x = dot
      · subst first
        rw [if_pos rfl]
        cases c with
        | nil =>
            rw [load_drop (drop_next reads), ok_bind, component.stops]
            rfl
        | cons y c =>
            rw [load_drop (drop_next reads), ok_bind, component.plain y (by simp), decide_eq_false (by simp)]
            rfl
      · rw [if_neg first, decide_eq_false (by simp [first])]
        rfl

theorem parent_eq {mem : Mem} {s : Nat} {c more : List UInt8} {t : UInt8} (reads : mem.drop s = c ++ t :: more) (component : Component c t) :
    parent mem s = .ok (decide (c = [dot, dot])) := by
  cases c with
  | nil => exact absurd rfl component.nonempty
  | cons x c =>
      rw [parent, load_drop reads, ok_bind]
      by_cases first : x = dot
      · subst first
        rw [if_pos rfl]
        cases c with
        | nil =>
            rw [load_drop (drop_next reads), ok_bind, if_neg component.ne, decide_eq_false (by simp)]
            rfl
        | cons y c =>
            rw [load_drop (drop_next reads), ok_bind]
            by_cases second : y = dot
            · subst second
              rw [if_pos rfl]
              cases c with
              | nil =>
                  rw [load_drop (drop_next (drop_next reads)), ok_bind, component.stops]
                  rfl
              | cons z c =>
                  rw [load_drop (drop_next (drop_next reads)), ok_bind, component.plain z (by simp), decide_eq_false (by simp)]
                  rfl
            · rw [if_neg second, decide_eq_false (by simp [second])]
              rfl
      · rw [if_neg first, decide_eq_false (by simp [first])]
        rfl

theorem load_take {mem : Mem} {d i : Nat} {out : List UInt8} {b : UInt8} (written : mem.take d = out) (here : out[i]? = some b) :
    load mem i = .ok b := by
  have found : mem[i]? = some b := by
    rw [← written, List.getElem?_take] at here
    split at here
    · exact here
    · exact absurd here nofun
  rw [load, found]

/-- Back to the start of the last component. -/
theorem backUp_eq {mem : Mem} {d d0 : Nat} {pre n : List UInt8} (k fuel : Nat) (written : mem.take d = pre ++ n) (lower : d0 ≤ pre.length)
    (bottom : d0 = pre.length ∨ ∃ pre', pre = pre' ++ [slash]) (free : slash ∉ n) (inside : k ≤ n.length) (enough : k < fuel) :
    backUp fuel mem d0 (pre.length + k) = .ok pre.length := by
  induction k generalizing fuel with
  | zero =>
      obtain ⟨fuel, rfl⟩ := Nat.exists_eq_add_of_lt enough
      rw [backUp]
      rcases bottom with rfl | ⟨pre', rfl⟩
      · rw [if_neg (by omega)]
        rfl
      · by_cases above : d0 < (pre' ++ [slash]).length + 0
        · rw [if_pos above, load_take (b := slash) written (by simp), ok_bind, if_pos rfl]
          rfl
        · rw [if_neg above]
          rfl
  | succ k ih =>
      obtain ⟨fuel, rfl⟩ := Nat.exists_eq_add_of_lt enough
      have here : load mem (pre.length + k) = .ok n[k] := load_take written (by rw [List.getElem?_append_right (Nat.le_add_right _ _), Nat.add_sub_cancel_left]; simp)
      have other : n[k] ≠ slash := fun same => free (same ▸ List.getElem_mem inside)
      rw [backUp, if_pos (by omega), ← Nat.add_assoc, Nat.add_sub_cancel, here, ok_bind, if_neg other]
      exact ih _ (Nat.le_of_succ_le inside) (by omega)

/-! One component. -/

abbrev CurDir : List UInt8 := [dot]
abbrev ParentDir : List UInt8 := [dot, dot]

abbrev goes (rooted : Bool) (p : Place (List UInt8)) (c : List UInt8) : Place (List UInt8) := go CurDir ParentDir rooted p c

/-- What is written for a place, behind the root. -/
abbrev route (p : Place (List UInt8)) : List (List UInt8) := p.route ParentDir

theorem route_push {p : Place (List UInt8)} (c : List UInt8) : route { p with names := c :: p.names } = route p ++ [c] := by
  simp [Place.route]

theorem route_up {p : Place (List UInt8)} (names : p.names = []) : route { p with ups := p.ups + 1 } = route p ++ [ParentDir] := by
  simp [Place.route, names, List.replicate_succ']

/-- The state of the loop at the start of a component. -/
structure At (base : List UInt8) (p : Place (List UInt8)) (mem : Mem) (d0 d s : Nat) (rest : List UInt8) : Prop where
  view : View mem d s (base ++ closed slash (route p)) rest
  lower : d0 = base.length + 3 * p.ups
  pieces : ∀ c ∈ p.names, Piece slash c

theorem closed_ups (k : Nat) : (closed slash (List.replicate k ParentDir)).length = 3 * k := by
  induction k with
  | zero => rfl
  | succ k ih =>
      simp only [List.replicate_succ, closed_cons, List.length_append, List.length_cons, List.length_nil, ih]
      omega

theorem closed_ends (cs : List (List UInt8)) (nonempty : cs ≠ []) : ∃ text, closed slash cs = text ++ [slash] :=
  ⟨_, closed_intercalate nonempty⟩

/-- Where `d` is, against `d0`. -/
theorem At.d_eq {base : List UInt8} {p : Place (List UInt8)} {mem : Mem} {d0 d s : Nat} {rest : List UInt8} (state : At base p mem d0 d s rest) :
    d = d0 + (closed slash p.names.reverse).length := by
  have position := state.view.position
  rw [route, Place.route, closed_append, List.length_append, List.length_append, closed_ups, ← Nat.add_assoc, ← state.lower] at position
  exact position.symm

theorem At.names_nil {base : List UInt8} {p : Place (List UInt8)} {mem : Mem} {d0 d s : Nat} {rest : List UInt8}
    (state : At base p mem d0 d s rest) : d = d0 ↔ p.names = [] := by
  rw [state.d_eq]
  cases p.names with
  | nil => simp
  | cons c names => simp

/-- The last component is taken back. -/
theorem At.back {base n : List UInt8} {p : Place (List UInt8)} {names' : List (List UInt8)} {mem : Mem} {d0 d s : Nat} {rest : List UInt8}
    (state : At base p mem d0 d s rest) (names : p.names = n :: names') :
    ∃ d', At base { p with names := names' } mem d0 d' s rest ∧ backUp mem.length mem d0 (d - 2) = .ok d' ∧
      load mem (d - 1) = .ok slash ∧ d0 + 2 ≤ d := by
  have shorter : route p = route { p with names := names' } ++ [n] := by
    rw [← route_push]
    exact congrArg route (by rw [← names])
  have written : mem.take d = base ++ closed slash (route { p with names := names' }) ++ (n ++ [slash]) := by
    rw [state.view.written, shorter, closed_append, closed_cons, closed_nil, List.append_assoc]
  generalize start : base ++ closed slash (route { p with names := names' }) = pre at written
  have piece : Piece slash n := state.pieces n (names ▸ List.mem_cons_self)
  have size : 0 < n.length := List.length_pos_iff.mpr piece.1
  have order := state.view.order
  have last := state.view.lt_length
  have position : d = pre.length + n.length + 1 := by
    have length := congrArg List.length written
    rw [List.length_take, Nat.min_eq_left (by omega)] at length
    simpa [Nat.add_assoc] using length
  have state' : At base { p with names := names' } mem d0 pre.length s rest := by
    refine ⟨⟨?_, state.view.reads, by omega, state.view.inside⟩, state.lower, fun c member => state.pieces c (names ▸ List.mem_cons_of_mem _ member)⟩
    have part := congrArg (List.take pre.length) written
    rw [List.take_take, Nat.min_eq_left (by omega), List.take_left] at part
    exact part.trans start.symm
  have lower := state'.d_eq
  have bottom : d0 = pre.length ∨ ∃ pre', pre = pre' ++ [slash] := by
    by_cases none : names' = []
    · exact .inl (state'.names_nil.mpr none).symm
    · obtain ⟨text, ends⟩ := closed_ends (route { p with names := names' }) (by simp [Place.route, none])
      exact .inr ⟨base ++ text, by rw [← start, ends, List.append_assoc]⟩
  have inner : mem.take (d - 1) = pre ++ n := by
    have part := congrArg (List.take (d - 1)) written
    rwa [List.take_take, Nat.min_eq_left (by omega), ← List.append_assoc, List.take_left' (by rw [List.length_append]; omega)] at part
  have two : d - 2 = pre.length + (n.length - 1) := by omega
  refine ⟨pre.length, state', ?_, load_take written (by rw [position]; simp [← Nat.add_assoc]), by omega⟩
  rw [two]
  exact backUp_eq (n.length - 1) mem.length inner (by omega) bottom piece.2 (Nat.sub_le _ _) (by omega)

/-- The end of the loop: maybe the last separator has not been written. -/
structure Done (base : List UInt8) (p : Place (List UInt8)) (size : Nat) (mem : Mem) (d : Nat) : Prop where
  length : mem.length = size
  inside : d < size
  written : mem.take d = base ++ closed slash (route p) ∨ mem.take d ++ [slash] = base ++ closed slash (route p) ∧ route p ≠ []

/-- A step of the loop: the end, or the start of the next component. -/
def Steps (rooted : Bool) (fuel : Nat) (base : List UInt8) (p : Place (List UInt8)) (size s : Nat) (t : UInt8) (more : List UInt8)
    (result : Except Stop (Mem × Nat)) : Prop :=
  (t = 0 → ∃ mem d, result = .ok (mem, d) ∧ Done base p size mem d) ∧
    (t ≠ 0 → ∃ mem d0 d, result = walk rooted fuel mem d0 d s ∧ mem.length = size ∧ At base p mem d0 d s more)

theorem steps_past {base c : List UInt8} {p : Place (List UInt8)} {mem : Mem} {rooted : Bool} {d0 d s fuel : Nat} {t : UInt8}
    {more : List UInt8} (state : At base p mem d0 d s (c ++ t :: more)) (inside : t ≠ 0 → more ≠ []) :
    Steps rooted fuel base p mem.length (s + c.length + 1) t more
      (if t = 0 then .ok (mem, d) else walk rooted fuel mem d0 d (s + c.length + 1)) := by
  constructor
  · rintro rfl
    exact ⟨mem, d, if_pos rfl, rfl, state.view.order.trans_lt state.view.lt_length, .inl state.view.written⟩
  · intro nonzero
    refine ⟨mem, d0, d, if_neg nonzero, rfl, ⟨state.view.written, ?_, ?_, inside nonzero⟩, state.lower, state.pieces⟩
    · exact drop_next (drop_append state.view.reads)
    · exact state.view.order.trans (by omega)

theorem walk_here {base : List UInt8} {p : Place (List UInt8)} {mem : Mem} {rooted : Bool} {d0 d s fuel : Nat} {t : UInt8} {more : List UInt8}
    (state : At base p mem d0 d s (CurDir ++ t :: more)) (stops : SEP t = true) (inside : t ≠ 0 → more ≠ []) :
    Steps rooted fuel base p mem.length (s + 2) t more (walk rooted (fuel + 1) mem d0 d s) := by
  have component : Component CurDir t := ⟨by decide, List.forall_mem_singleton.mpr (by decide), stops⟩
  have reads := state.view.reads
  have test : dot ≠ 0 := by decide
  rw [walk, load_drop reads, ok_bind, if_neg test, here_eq reads component, ok_bind, decide_eq_true rfl, if_pos rfl,
    load_drop (drop_next reads), ok_bind]
  exact steps_past state inside

/-- A component that is copied. -/
theorem walk_copy {base c : List UInt8} {p q : Place (List UInt8)} {mem : Mem} {rooted : Bool} {d0 d0' d s fuel : Nat} {t : UInt8}
    {more : List UInt8} (state : At base p mem d0 d s (c ++ t :: more)) (component : Component c t) (inside : t ≠ 0 → more ≠ [])
    (turns : turn rooted mem d0 d s = .ok (.copy d0')) (stays : c ≠ CurDir) (lower : d0' = base.length + 3 * q.ups)
    (longer : route q = route p ++ [c]) (pieces : ∀ c ∈ q.names, Piece slash c) :
    Steps rooted fuel base q mem.length (s + c.length + 1) t more (walk rooted (fuel + 1) mem d0 d s) := by
  obtain ⟨x, rest, starts⟩ := List.exists_cons_of_ne_nil component.nonempty
  have reads : mem.drop s = x :: (rest ++ t :: more) := by rw [state.view.reads, starts]; rfl
  have nonzero : x ≠ 0 := by
    rintro rfl
    exact absurd (component.plain 0 (by simp [starts])) (by decide)
  have room : c.length < mem.length := by
    have whole := congrArg List.length state.view.reads
    simp only [List.length_drop, List.length_append, List.length_cons] at whole
    omega
  obtain ⟨mem', copies, same, view⟩ := copy_eq mem.length state.view component.plain component.stops room
  rw [walk, load_drop reads, ok_bind, if_neg nonzero, here_eq state.view.reads component, ok_bind, decide_eq_false stays,
    if_neg Bool.false_ne_true, turns, ok_bind]
  dsimp only
  rw [copies, ok_bind]
  dsimp only
  rw [load_drop view.reads, ok_bind]
  have closes : base ++ closed slash (route p) ++ c ++ [slash] = base ++ closed slash (route q) := by
    rw [longer, closed_append, closed_cons, closed_nil, List.append_assoc, List.append_assoc]
  constructor
  · rintro rfl
    refine ⟨mem', d + c.length, if_pos rfl, same, same ▸ view.order.trans_lt view.lt_length, .inr ⟨?_, ?_⟩⟩
    · rw [view.written, closes]
    · rw [longer]
      exact List.append_ne_nil_of_right_ne_nil _ (List.cons_ne_nil _ _)
  · intro nonzero
    have ends : t = slash := by
      have stops := component.stops
      rw [SEP, Bool.or_eq_true, decide_eq_true_eq, decide_eq_true_eq] at stops
      exact stops.resolve_right nonzero
    subst ends
    have next := view.write (inside nonzero) slash
    rw [closes] at next
    refine ⟨mem'.set (d + c.length) slash, d0', d + c.length + 1, ?_, by rw [List.length_set, same], next, lower, pieces⟩
    rw [if_neg nonzero, store_inside (view.order.trans_lt view.lt_length), ok_bind]

theorem walk_name {base c : List UInt8} {p : Place (List UInt8)} {mem : Mem} {rooted : Bool} {d0 d s fuel : Nat} {t : UInt8}
    {more : List UInt8} (state : At base p mem d0 d s (c ++ t :: more)) (component : Component c t) (inside : t ≠ 0 → more ≠ [])
    (stays : c ≠ CurDir) (named : c ≠ ParentDir) :
    Steps rooted fuel base { p with names := c :: p.names } mem.length (s + c.length + 1) t more (walk rooted (fuel + 1) mem d0 d s) := by
  have turns : turn rooted mem d0 d s = .ok (.copy d0) := by
    rw [turn, parent_eq state.view.reads component, ok_bind, decide_eq_false named, if_neg Bool.false_ne_true]
    rfl
  refine walk_copy state component inside turns stays state.lower (route_push c) (List.forall_mem_cons.mpr ⟨?_, state.pieces⟩)
  refine ⟨component.nonempty, fun member => ?_⟩
  exact absurd (component.plain slash member) (by decide)

theorem walk_parent {base : List UInt8} {p : Place (List UInt8)} {mem : Mem} {rooted : Bool} {d0 d s fuel : Nat} {t : UInt8}
    {more : List UInt8} (state : At base p mem d0 d s (ParentDir ++ t :: more)) (stops : SEP t = true) (inside : t ≠ 0 → more ≠ []) :
    Steps rooted fuel base (goes rooted p ParentDir) mem.length (s + 3) t more (walk rooted (fuel + 1) mem d0 d s) := by
  have component : Component ParentDir t :=
    ⟨by decide, List.forall_mem_cons.mpr ⟨by decide, List.forall_mem_singleton.mpr (by decide)⟩, stops⟩
  have other : ParentDir ≠ CurDir := by decide
  have reads := state.view.reads
  have test : dot ≠ 0 := by decide
  cases names : p.names with
  | nil =>
      have level := state.names_nil.mpr names
      cases rooted with
      | false =>
          have turns : turn false mem d0 d s = .ok (.copy (d0 + 3)) := by
            rw [turn, parent_eq reads component, ok_bind, decide_eq_true rfl, if_pos rfl, Bool.and_false, if_neg Bool.false_ne_true, if_pos level]
            dsimp only
            rw [if_neg (by omega)]
            rfl
          rw [goes, go_up other names]
          refine walk_copy state component inside turns other ?_ (route_up names) state.pieces
          rw [state.lower]
          dsimp only
          omega
      | true =>
          have turns : turn true mem d0 d s = .ok .skip := by
            rw [turn, parent_eq reads component, ok_bind, decide_eq_true rfl, if_pos rfl, decide_eq_true level, Bool.and_true, if_pos rfl]
            rfl
          rw [goes, go_root other names, walk, load_drop reads, ok_bind, if_neg test, here_eq reads component, ok_bind, decide_eq_false other,
            if_neg Bool.false_ne_true, turns, ok_bind]
          dsimp only
          rw [load_drop (drop_next (drop_next reads)), ok_bind]
          exact steps_past state inside
  | cons n names' =>
      have level : d ≠ d0 := fun same => absurd (names ▸ state.names_nil.mp same) (List.cons_ne_nil _ _)
      have above : d0 < d := by
        have order := state.d_eq
        omega
      have turns : turn rooted mem d0 d s = .ok (.back d0) := by
        rw [turn, parent_eq reads component, ok_bind, decide_eq_true rfl, if_pos rfl, decide_eq_false level, Bool.false_and,
          if_neg Bool.false_ne_true, if_neg level]
        dsimp only
        rw [if_pos above]
        rfl
      obtain ⟨d', state', backs, closing, room⟩ := state.back names
      rw [goes, go_back other names, walk, load_drop reads, ok_bind, if_neg test, here_eq reads component, ok_bind, decide_eq_false other,
        if_neg Bool.false_ne_true, turns, ok_bind]
      dsimp only
      have asserted : (decide (d < d0 + 2) || decide (slash ≠ slash)) = false := by simpa using room
      rw [closing, ok_bind, asserted, if_neg Bool.false_ne_true, backs, ok_bind, load_drop (drop_next (drop_next reads)), ok_bind]
      exact steps_past state' inside

theorem walk_step {base c : List UInt8} {p : Place (List UInt8)} {mem : Mem} {rooted : Bool} {d0 d s : Nat} {t : UInt8}
    {more : List UInt8} (fuel : Nat) (state : At base p mem d0 d s (c ++ t :: more)) (component : Component c t)
    (inside : t ≠ 0 → more ≠ []) :
    Steps rooted fuel base (goes rooted p c) mem.length (s + c.length + 1) t more (walk rooted (fuel + 1) mem d0 d s) := by
  by_cases stays : c = CurDir
  · subst stays
    rw [goes, go_here]
    exact walk_here state component.stops inside
  by_cases named : c = ParentDir
  · subst named
    exact walk_parent state component.stops inside
  · rw [goes, go_name stays named]
    exact walk_name state component inside stays named

/-! The second pass. -/

theorem walk_run {base tail stale : List UInt8} {cs : List (List UInt8)} (rooted : Bool) (pieces : ∀ c ∈ cs, Piece slash c ∧ 0 ∉ c)
    (free : slash ∉ tail ∧ 0 ∉ tail) {p : Place (List UInt8)} {mem : Mem} {d0 d s fuel : Nat}
    (state : At base p mem d0 d s (closed slash cs ++ tail ++ 0 :: stale)) (enough : cs.length + 1 < fuel) :
    ∃ mem' d', walk rooted fuel mem d0 d s = .ok (mem', d') ∧
      Done base ((cs ++ Lib.Paths.pieces slash tail).foldl (goes rooted) p) mem.length mem' d' := by
  obtain ⟨fuel, rfl⟩ := Nat.exists_eq_add_of_lt enough
  induction cs generalizing p mem d0 d s fuel with
  | nil =>
      rw [List.nil_append]
      by_cases last : tail = []
      · subst last
        refine ⟨mem, d, ?_, ?_⟩
        · rw [walk, load_drop state.view.reads, ok_bind, if_pos rfl]
        · rw [pieces_nil]
          exact ⟨rfl, state.view.order.trans_lt state.view.lt_length, .inl state.view.written⟩
      · rw [pieces_piece ⟨last, free.1⟩]
        exact (walk_step _ state ⟨last, plain_of free.1 free.2, by decide⟩ (absurd rfl)).1 rfl
  | cons c cs ih =>
      obtain ⟨⟨piece, nul⟩, others⟩ := List.forall_mem_cons.mp pieces
      rw [closed_cons, List.append_assoc, List.append_assoc, List.cons_append, ← List.append_assoc] at state
      have component : Component c slash := ⟨piece.1, plain_of piece.2 nul, by decide⟩
      have nonempty : closed slash cs ++ tail ++ 0 :: stale ≠ [] := List.append_ne_nil_of_right_ne_nil _ (List.cons_ne_nil _ _)
      obtain ⟨mem₁, d0₁, d₁, runs, same, state₁⟩ := (walk_step (cs.length + 1 + fuel + 1) state component fun _ => nonempty).2 (by decide)
      obtain ⟨mem', d', ends, done⟩ := ih others state₁ fuel (by omega)
      rw [same] at done
      have total : (c :: cs).length + 1 + fuel + 1 = cs.length + 1 + fuel + 1 + 1 := by
        rw [List.length_cons]
        omega
      exact ⟨mem', d', by rw [total, runs, ends], done⟩

/-! The end of the string. -/

/-- Without a slash at the end, of which a root keeps its own. -/
def stripped (out : List UInt8) : List UInt8 := if 1 < out.length && out.getLast? = some slash then out.dropLast else out

def settled (out : List UInt8) : List UInt8 := if stripped out = [] then CurDir else stripped out

theorem cstring_nul {out : List UInt8} (nul : 0 ∉ out) (more : List UInt8) : cstring (out ++ 0 :: more) = out := by
  have plain : ∀ b ∈ out, decide (b ≠ 0) = true := fun b member => decide_eq_true fun same => nul (same ▸ member)
  rw [cstring, List.takeWhile_append_of_pos plain, List.takeWhile_cons_of_neg (by decide), List.append_nil]

theorem store_nul {mem : Mem} {d : Nat} {out : List UInt8} (written : mem.take d = out) (inside : d < mem.length) :
    ∃ more, store mem d 0 = .ok (out ++ 0 :: more) ∧ (out ++ 0 :: more).length = mem.length ∧ d = out.length := by
  have split : mem.set d 0 = out ++ 0 :: mem.drop (d + 1) := by
    rw [List.set_eq_take_append_cons_drop, if_pos inside, written]
  refine ⟨mem.drop (d + 1), by rw [store_inside inside, split], by rw [← split, List.length_set], ?_⟩
  rw [← written, List.length_take, Nat.min_eq_left inside.le]

theorem strip_eq (out more : List UInt8) (nul : 0 ∉ out) : ∃ more',
    strip (out ++ 0 :: more) out.length = .ok (stripped out ++ 0 :: more') ∧
      (stripped out ++ 0 :: more').length = (out ++ 0 :: more).length := by
  rw [strip]
  by_cases long : 1 < out.length
  · obtain ⟨pre, b, rfl⟩ : ∃ pre b, out = pre ++ [b] :=
      ⟨_, _, (List.dropLast_concat_getLast (List.ne_nil_of_length_pos (Nat.lt_of_succ_lt long))).symm⟩
    have last : (pre ++ [b]).length - 1 = pre.length := by simp
    have here : load (pre ++ [b] ++ 0 :: more) pre.length = .ok b := @load_drop _ _ _ (0 :: more) (by simp)
    rw [if_pos long, last, here, ok_bind, stripped, List.getLast?_concat, List.dropLast_concat, decide_eq_true long, Bool.true_and]
    by_cases slashed : b = slash
    · rw [if_pos slashed, if_pos (by simpa using slashed), store_inside (by simp)]
      exact ⟨0 :: more, by simp, by simp⟩
    · rw [if_neg slashed, if_neg (by simpa using slashed)]
      exact ⟨more, rfl, rfl⟩
  · rw [if_neg long, stripped, decide_eq_false long, Bool.false_and, if_neg Bool.false_ne_true]
    exact ⟨more, rfl, rfl⟩

theorem dot_eq {out more : List UInt8} (nul : 0 ∉ out) (long : 1 < (out ++ 0 :: more).length) :
    ∃ mem', (load (out ++ 0 :: more) 0 >>= fun c =>
        if c = 0 then .ok (strcpyDot (out ++ 0 :: more)) else .ok (out ++ 0 :: more)) = Except.ok mem' ∧
      mem'.length = (out ++ 0 :: more).length ∧ cstring mem' = if out = [] then CurDir else out := by
  cases out with
  | nil =>
      refine ⟨strcpyDot (0 :: more), rfl, ?_, rfl⟩
      rw [List.nil_append, List.length_cons] at long
      simp only [strcpyDot, List.length_cons, List.length_drop, List.nil_append]
      omega
  | cons b out =>
      have nonzero : b ≠ 0 := fun same => nul (same ▸ List.mem_cons_self)
      have first : load (b :: out ++ 0 :: more) 0 = .ok b := rfl
      rw [first, ok_bind, if_neg nonzero]
      exact ⟨_, rfl, rfl, cstring_nul nul more⟩

/-- The place that a text leads to, from the root on or from where it starts. -/
def destination (rooted : Bool) (text : List UInt8) : Place (List UInt8) := place CurDir ParentDir rooted (pieces slash text)

theorem route_piece {rooted : Bool} {text c : List UInt8} (member : c ∈ route (destination rooted text)) : Piece slash c := by
  rcases List.mem_append.mp member with up | name
  · obtain rfl := List.eq_of_mem_replicate up
    exact ⟨by decide, by decide⟩
  · exact pieces_are_pieces (names_subset rooted _ (List.mem_reverse.mp name))

theorem route_nul {rooted : Bool} {text c : List UInt8} (nul : 0 ∉ text) (member : c ∈ route (destination rooted text)) : 0 ∉ c := by
  rcases List.mem_append.mp member with up | name
  · obtain rfl := List.eq_of_mem_replicate up
    decide
  · exact fun zero => nul (mem_of_mem_pieces (names_subset rooted _ (List.mem_reverse.mp name)) zero)

/-- What the second pass leaves. -/
def Written (base : List UInt8) (p : Place (List UInt8)) (out : List UInt8) : Prop :=
  out = base ++ closed slash (route p) ∨ out ++ [slash] = base ++ closed slash (route p) ∧ route p ≠ []

theorem length_le_closed (cs : List (List UInt8)) : cs.length ≤ (closed slash cs).length := by
  induction cs with
  | nil => exact Nat.le_refl 0
  | cons c cs ih =>
      simp only [closed_cons, List.length_append, List.length_cons]
      omega

theorem written_nul {base text out : List UInt8} {rooted : Bool} (nulBase : 0 ∉ base) (nulText : 0 ∉ text)
    (written : Written base (destination rooted text) out) : 0 ∉ out := by
  have whole : 0 ∉ base ++ closed slash (route (destination rooted text)) := by
    intro member
    rcases List.mem_append.mp member with inBase | inRoute
    · exact nulBase inBase
    · obtain ⟨c, name, inside⟩ := List.mem_flatMap.mp inRoute
      rcases List.mem_append.mp inside with inName | last
      · exact route_nul nulText name inName
      · exact absurd (List.mem_singleton.mp last) (by decide)
  rcases written with same | ⟨same, -⟩
  · exact same ▸ whole
  · exact fun member => whole (same ▸ List.mem_append_left _ member)

theorem clean_eq {base text : List UInt8} (rooted : Bool) (nulBase : 0 ∉ base) (nulText : 0 ∉ text)
    (starts : rooted = false → text.head? ≠ some slash) (long : 1 < (base ++ text ++ [0]).length) :
    ∃ mem' out, clean rooted (base ++ text ++ [0]) base.length = .ok mem' ∧ mem'.length = (base ++ text ++ [0]).length ∧
      cstring mem' = settled out ∧ Written base (destination rooted text) out := by
  obtain ⟨k, text', cut, starts'⟩ := leading_seps slash text
  generalize start : base ++ text ++ [0] = mem at long
  have reads : mem.drop base.length = List.replicate k slash ++ (text' ++ [0]) := by
    rw [← start, List.append_assoc, List.drop_left, cut, List.append_assoc]
  have size : mem.length = base.length + (k + text'.length) + 1 := by
    rw [← start, cut]
    simp [Nat.add_assoc]
  have skips : skipRoot rooted mem base.length = .ok (base.length + k) := by
    rw [skipRoot]
    cases rooted with
    | true =>
        obtain ⟨t, more, follows, other⟩ := follows_other starts' []
        rw [if_pos rfl]
        exact skipSlashes_eq (by rw [reads, follows]) other (by omega)
    | false =>
        cases k with
        | zero => rfl
        | succ k => exact absurd (by rw [cut]; rfl) (starts rfl)
  have nul' : 0 ∉ text' := fun member => nulText (cut ▸ List.mem_append_right _ member)
  obtain ⟨cs, tail, spread⟩ := spread_of_head text' starts'
  obtain ⟨pieces', free, all⟩ := spread.parts
  have view : View mem base.length (base.length + k) base (text' ++ [0]) := by
    refine ⟨?_, ?_, Nat.le_add_right _ _, List.append_ne_nil_of_right_ne_nil _ (List.cons_ne_nil _ _)⟩
    · rw [← start, List.append_assoc, List.take_left]
    · have skipped := drop_append reads
      rwa [List.length_replicate] at skipped
  have enough : text'.length < mem.length + 1 := by omega
  obtain ⟨mem₁, compresses, same₁, written₁, inside₁⟩ := compress_eq spread nul' view enough
  obtain ⟨stale, stores, same₂, -⟩ := store_nul written₁ (same₁ ▸ inside₁)
  have state : At base ⟨0, []⟩ (base ++ (closed slash cs ++ tail) ++ 0 :: stale) base.length base.length base.length
      (closed slash cs ++ tail ++ 0 :: stale) := by
    refine ⟨⟨?_, ?_, Nat.le_refl _, List.append_ne_nil_of_right_ne_nil _ (List.cons_ne_nil _ _)⟩, rfl, nofun⟩
    · rw [List.append_assoc, List.take_left]
      exact (List.append_nil base).symm
    · rw [List.append_assoc, List.drop_left]
  have named : ∀ c ∈ pieces slash text', Piece slash c ∧ 0 ∉ c := fun c member =>
    ⟨pieces_are_pieces member, fun zero => nul' (mem_of_mem_pieces member zero)⟩
  have tailNul : 0 ∉ tail := by
    by_cases none : tail = []
    · exact none ▸ List.not_mem_nil
    · exact (named tail (by rw [all, pieces_piece ⟨none, free⟩]; simp)).2
  have fuel : cs.length + 1 < (base ++ (closed slash cs ++ tail) ++ 0 :: stale).length + 1 := by
    have short := length_le_closed cs
    simp only [List.length_append, List.length_cons]
    omega
  obtain ⟨mem₂, d, walks, done⟩ := walk_run rooted (fun c member => named c (all ▸ List.mem_append_left _ member))
    ⟨free, tailNul⟩ state fuel
  rw [← all, ← pieces_seps k, ← cut] at done
  obtain ⟨more, stores', same₃, position⟩ := store_nul rfl (done.length ▸ done.inside)
  have written : Written base (destination rooted text) (mem₂.take d) := done.written
  have nul := written_nul nulBase nulText written
  obtain ⟨more', strips, same₄⟩ := strip_eq (mem₂.take d) more nul
  have nul' : 0 ∉ stripped (mem₂.take d) := by
    intro member
    rw [stripped] at member
    split at member
    · exact nul (List.dropLast_subset _ member)
    · exact nul member
  rw [← position] at strips
  have whole : (stripped (mem₂.take d) ++ 0 :: more').length = mem.length := by
    rw [same₄, same₃, done.length, same₂, same₁]
  obtain ⟨mem₃, dots, same₅, string⟩ := dot_eq nul' (whole ▸ long)
  refine ⟨mem₃, mem₂.take d, ?_, same₅.trans whole, string, written⟩
  rw [clean, skips, ok_bind, compresses, ok_bind]
  dsimp only
  rw [stores, ok_bind, walks, ok_bind]
  dsimp only
  rw [stores', ok_bind, strips, ok_bind]
  exact dots

/-! What is left. -/

theorem settled_route {base out : List UInt8} {p : Place (List UInt8)} (written : Written base p out) (nonempty : route p ≠ [])
    (good : ∀ c ∈ route p, Piece slash c) : settled out = base ++ [slash].intercalate (route p) := by
  obtain ⟨init, last, ends⟩ : ∃ init last, route p = init ++ [last] := ⟨_, _, (List.dropLast_concat_getLast nonempty).symm⟩
  have piece : Piece slash last := good last (by simp [ends])
  obtain ⟨before, b, last_eq⟩ : ∃ before b, last = before ++ [b] := ⟨_, _, (List.dropLast_concat_getLast piece.1).symm⟩
  have other : b ≠ slash := fun same => piece.2 (by simp [last_eq, same])
  have text : base ++ [slash].intercalate (route p) = base ++ closed slash init ++ before ++ [b] := by
    rw [ends, intercalate_snoc, last_eq, List.append_assoc, List.append_assoc]
  have unstripped : stripped (base ++ [slash].intercalate (route p)) = base ++ [slash].intercalate (route p) := by
    rw [stripped, text, List.getLast?_concat, if_neg (by simp [other])]
  have kept : stripped out = base ++ [slash].intercalate (route p) := by
    rcases written with same | ⟨same, -⟩
    · rw [same, closed_intercalate nonempty, ← List.append_assoc, stripped, List.getLast?_concat, List.dropLast_concat]
      exact if_pos (by simp only [text, List.length_append, List.length_cons, List.length_nil]; simp)
    · rw [closed_intercalate nonempty, ← List.append_assoc] at same
      rw [List.append_cancel_right same, unstripped]
  rw [settled, kept, if_neg (by simp [text])]

theorem settled_root {base out : List UInt8} {p : Place (List UInt8)} (written : Written base p out) (empty : route p = []) :
    settled out = settled base := by
  rcases written with same | ⟨-, nonempty⟩
  · rw [same, empty, closed_nil, List.append_nil]
  · exact absurd empty nonempty

/-! Device names. -/

theorem runeAt_eq {mem : Mem} {p : Nat} {b : UInt8} {rest : List UInt8} (reads : mem.drop p = b :: rest) (ends : 0 ∈ rest) :
    ∃ n, runeAt mem p = .ok (n + 1) ∧ n ≤ rest.length ∧ ∀ x ∈ rest.take n, 0x80 ≤ x.toNat := by
  rw [runeAt, reads]
  rcases Rune.chartorune_cases (.inl (List.mem_cons_of_mem b ends)) with bad | ⟨v, rest', small, same⟩
  · rw [bad]
    exact ⟨0, rfl, Nat.zero_le _, nofun⟩
  obtain ⟨first, high, code⟩ : ∃ first high, Rune.utf8 v = first :: high := by
    refine List.exists_cons_of_length_pos ?_
    rw [Rune.utf8_length]
    split_ifs <;> decide
  rw [same, Rune.chartorune_utf8 small, code]
  rw [code, List.cons_append] at same
  obtain ⟨-, rfl⟩ := List.cons.inj same
  refine ⟨high.length, rfl, by simp, fun x member => ?_⟩
  rw [List.take_left] at member
  by_cases one : v < 0x80
  · have single : high.length = 0 := by
      have length := Rune.utf8_length v
      rw [code, if_pos one, List.length_cons] at length
      omega
    rw [List.length_eq_zero_iff.mp single] at member
    exact absurd member List.not_mem_nil
  · exact Rune.utf8_high (Nat.le_of_not_lt one) small x (code ▸ List.mem_cons_of_mem _ member)

/-- The bytes after the first one of a rune are none that end a name. -/
theorem take_inside {run more : List UInt8} {t : UInt8} {n : Nat} (stops : SEP t = true)
    (high : ∀ x ∈ (run ++ t :: more).take n, 0x80 ≤ x.toNat) : n ≤ run.length := by
  by_contra beyond
  have member : t ∈ (run ++ t :: more).take n := by
    rw [List.take_append, List.mem_append]
    right
    obtain ⟨k, split⟩ := Nat.exists_eq_add_of_lt (Nat.lt_of_not_le beyond)
    have left : n - run.length = k + 1 := by omega
    rw [left, List.take_succ_cons]
    exact List.mem_cons_self
  have byte := high t member
  rw [SEP, Bool.or_eq_true, decide_eq_true_eq, decide_eq_true_eq] at stops
  rcases stops with rfl | rfl
  · exact absurd byte (by decide)
  · exact absurd byte (by decide)

theorem skipName_eq {mem : Mem} {p fuel : Nat} {run more : List UInt8} {t : UInt8} (reads : mem.drop p = run ++ t :: more)
    (plain : ∀ b ∈ run, SEP b = false) (stops : SEP t = true) (ends : 0 ∈ t :: more) (enough : run.length < fuel) :
    skipName fuel mem p = .ok (p + run.length) := by
  induction fuel generalizing run p with
  | zero => exact absurd enough (Nat.not_lt_zero _)
  | succ fuel ih =>
      cases run with
      | nil => rw [skipName, load_drop reads, ok_bind, if_pos stops, List.length_nil, Nat.add_zero]
      | cons b run =>
          have zero : 0 ∈ run ++ t :: more := List.mem_append_right _ ends
          obtain ⟨n, length, -, high⟩ := runeAt_eq reads zero
          have inside := take_inside stops high
          have next : mem.drop (p + (n + 1)) = run.drop n ++ t :: more := by
            rw [← List.drop_drop, reads, List.cons_append, List.drop_succ_cons, List.drop_append_of_le_length inside]
          have rest := ih next (fun x member => plain x (List.mem_cons_of_mem _ (List.mem_of_mem_drop member)))
            (by rw [List.length_cons] at enough; rw [List.length_drop]; omega)
          have total : p + (n + 1) + (run.drop n).length = p + (b :: run).length := by
            rw [List.length_drop, List.length_cons]
            omega
          rw [skipName, load_drop reads, ok_bind, plain b List.mem_cons_self, if_neg Bool.false_ne_true, length, ok_bind, rest, total]

/-! The whole. -/

inductive Root where
  | relative
  | rooted
  | device (name : List UInt8)
  deriving DecidableEq, Repr

def Root.absolute : Root → Bool
  | .relative => false
  | .rooted | .device _ => true

/-- A root and the names after it. The name of a device is a rune, which may be
a slash, and what is before the next slash. -/
def parse : List UInt8 → Root × List UInt8
  | [] => (.relative, [])
  | c :: rest =>
      if c = hash then
        match rest with
        | [] => (.device [hash], [])
        | r :: rest => (.device (hash :: r :: rest.takeWhile (· ≠ slash)), (rest.dropWhile (· ≠ slash)).drop 1)
      else if c = slash then (.rooted, rest) else (.relative, c :: rest)

theorem parse_relative {c : UInt8} (notDevice : c ≠ hash) (notRooted : c ≠ slash) (rest : List UInt8) :
    parse (c :: rest) = (.relative, c :: rest) := by
  simp only [parse, if_neg notDevice, if_neg notRooted]

theorem parse_rooted (rest : List UInt8) : parse (slash :: rest) = (.rooted, rest) := rfl

theorem parse_device (r : UInt8) (body : List UInt8) :
    parse (hash :: r :: body) = (.device (hash :: r :: body.takeWhile (· ≠ slash)), (body.dropWhile (· ≠ slash)).drop 1) := rfl

/-- What a path denotes. -/
structure Path where
  root : Root
  place : Place (List UInt8)
  deriving DecidableEq, Repr

def denotes (s : List UInt8) : Path := ⟨(parse s).1, destination (parse s).1.absolute (parse s).2⟩

/-- The shortest text for a path. -/
def render (p : Path) : List UInt8 :=
  match p.root with
  | .relative => if route p.place = [] then CurDir else [slash].intercalate (route p.place)
  | .rooted => slash :: [slash].intercalate (route p.place)
  | .device name => if route p.place = [] then name else name ++ slash :: [slash].intercalate (route p.place)

/-- The text that a root starts with. -/
def Root.base : Root → List UInt8
  | .relative => []
  | .rooted => [slash]
  | .device name => name ++ [slash]

theorem settled_render {root : Root} {p : Place (List UInt8)} {out : List UInt8} (named : ∀ name, root = .device name → name ≠ [])
    (good : ∀ c ∈ route p, Piece slash c) (written : Written root.base p out) : settled out = render ⟨root, p⟩ := by
  by_cases empty : route p = []
  · rw [settled_root written empty, render]
    dsimp only
    rw [if_pos empty]
    cases root with
    | relative => rfl
    | rooted =>
        rw [empty]
        rfl
    | device name =>
        have nonempty := named name rfl
        have long : 1 < (name ++ [slash]).length := by
          have size := List.length_pos_iff.mpr nonempty
          rw [List.length_append, List.length_singleton]
          omega
        have strips : stripped (name ++ [slash]) = name := by
          rw [stripped, List.getLast?_concat, List.dropLast_concat, decide_eq_true long]
          exact if_pos (by simp)
        simp only [Root.base, settled, strips, if_neg nonempty, if_pos empty]
  · rw [settled_route written empty good, render]
    dsimp only
    rw [if_neg empty]
    cases root with
    | relative => rfl
    | rooted => rfl
    | device name =>
        dsimp only
        rw [Root.base, List.append_assoc, if_neg empty]
        rfl

/-- The name of a device is passed. -/
theorem cleaned_device {r : UInt8} {body : List UInt8} (nul : 0 ∉ hash :: r :: body) :
    cleaned (hash :: r :: body) = clean true (hash :: r :: body ++ [0]) (2 + (body.takeWhile (· ≠ slash)).length + 1) := by
  simp only [List.mem_cons, not_or] at nul
  obtain ⟨-, nonzero, inBody⟩ := nul
  obtain ⟨t, more, follows, stops, ends⟩ : ∃ t more, body ++ [0] = body.takeWhile (· ≠ slash) ++ t :: more ∧ SEP t = true ∧ 0 ∈ t :: more := by
    cases rest : body.dropWhile (· ≠ slash) with
    | nil =>
        refine ⟨0, [], ?_, by decide, by decide⟩
        conv_lhs => rw [← List.takeWhile_append_dropWhile (p := (· ≠ slash)) (l := body), rest, List.append_nil]
    | cons t more =>
        refine ⟨t, more ++ [0], ?_, ?_, by simp⟩
        · conv_lhs => rw [← List.takeWhile_append_dropWhile (p := (· ≠ slash)) (l := body), rest, List.append_assoc, List.cons_append]
        · have tested := List.head?_dropWhile_not (· ≠ slash) body
          rw [rest] at tested
          have same : t = slash := by simpa using tested
          exact same ▸ rfl
  have plain : ∀ b ∈ body.takeWhile (· ≠ slash), SEP b = false := by
    refine plain_of (fun member => ?_) fun zero => inBody ((List.takeWhile_subset _) zero)
    exact absurd (List.mem_takeWhile_imp member) (by simp)
  generalize body.takeWhile (· ≠ slash) = run at follows plain
  have mem_eq : hash :: r :: body ++ [0] = hash :: r :: (run ++ t :: more) := by rw [← follows]; rfl
  have name : (hash :: r :: (run ++ t :: more)).drop 1 = r :: (run ++ t :: more) := rfl
  obtain ⟨n, length, -, high⟩ := runeAt_eq name (List.mem_append_right _ ends)
  have inside := take_inside stops high
  have reads : (hash :: r :: (run ++ t :: more)).drop (1 + (n + 1)) = run.drop n ++ t :: more := by
    have two : 1 + (n + 1) = n + 1 + 1 := by omega
    rw [two, List.drop_succ_cons, List.drop_succ_cons, List.drop_append_of_le_length inside]
  have skips : skipName (hash :: r :: (run ++ t :: more)).length (hash :: r :: (run ++ t :: more)) (1 + (n + 1)) = .ok (2 + run.length) := by
    have total : 1 + (n + 1) + (run.drop n).length = 2 + run.length := by
      rw [List.length_drop]
      omega
    rw [← total]
    refine skipName_eq reads (fun b member => plain b (List.mem_of_mem_drop member)) stops ends ?_
    simp only [List.length_drop, List.length_cons, List.length_append]
    omega
  rw [cleaned, mem_eq, cleanname]
  have first : load (hash :: r :: (run ++ t :: more)) 0 = .ok hash := rfl
  have second : load (hash :: r :: (run ++ t :: more)) 1 = .ok r := rfl
  rw [first, ok_bind, if_neg (by decide), if_pos rfl, second, ok_bind, if_neg (Ne.symm nonzero), length, ok_bind, skips, ok_bind]

/-- `cleanname` stays inside the string: the name of a device ends in a slash. -/
def Ends (s : List UInt8) : Prop := s.head? = some hash → s = [hash] ∨ slash ∈ s.drop 2

instance (s : List UInt8) : Decidable (Ends s) := inferInstanceAs (Decidable (_ → _ ∨ _))

/-- Cleaning behind a root. -/
theorem clean_root (root : Root) {s text : List UInt8} (split : s = root.base ++ text) (nul : 0 ∉ s)
    (named : ∀ name, root = .device name → name ≠ []) (starts : root = .relative → text.head? ≠ some slash) (nonempty : s ≠ []) :
    ∃ mem, clean root.absolute (s ++ [0]) root.base.length = .ok mem ∧ mem.length = max 2 (s.length + 1) ∧
      cstring mem = render ⟨root, destination root.absolute text⟩ := by
  have nulText : 0 ∉ text := fun member => nul (split ▸ List.mem_append_right _ member)
  have size := List.length_pos_iff.mpr nonempty
  have relative : root.absolute = false → text.head? ≠ some slash := by
    intro free
    cases root with
    | relative => exact starts rfl
    | rooted => exact absurd free Bool.true_eq_false.mp
    | device name => exact absurd free Bool.true_eq_false.mp
  obtain ⟨mem, out, runs, same, string, written⟩ := clean_eq root.absolute (fun member => nul (split ▸ List.mem_append_left _ member))
    nulText relative (by rw [← split, List.length_append, List.length_singleton]; omega)
  rw [← split] at runs same
  refine ⟨mem, runs, ?_, ?_⟩
  · rw [same, List.length_append, List.length_singleton]
    omega
  · rw [string, settled_render named (fun c member => route_piece member) written]

theorem cleaned_eq {s : List UInt8} (nul : 0 ∉ s) (ends : Ends s) :
    ∃ mem, cleaned s = .ok mem ∧ mem.length = max 2 (s.length + 1) ∧ cstring mem = render (denotes s) := by
  cases s with
  | nil => exact ⟨[dot, 0], rfl, rfl, by decide⟩
  | cons c rest =>
      have nonzero : c ≠ 0 := fun same => nul (same ▸ List.mem_cons_self)
      have first : load (c :: rest ++ [0]) 0 = .ok c := rfl
      by_cases device : c = hash
      · subst device
        cases rest with
        | nil => exact ⟨[hash, 0], rfl, rfl, by decide⟩
        | cons r body =>
            have slashed : slash ∈ body := (ends rfl).resolve_left (by simp)
            obtain ⟨run, text, rfl, before⟩ := List.eq_append_cons_of_mem slashed
            have free : ∀ b ∈ run, decide (b ≠ slash) = true := fun b member => decide_eq_true fun same => before (same ▸ member)
            have stops : ∀ b ∈ (slash :: text).head?, decide (b ≠ slash) = false := by simp
            have split : hash :: r :: (run ++ slash :: text) = Root.base (.device (hash :: r :: run)) ++ text := by simp [Root.base]
            have size : (Root.base (.device (hash :: r :: run))).length = 2 + run.length + 1 := by
              simp only [Root.base, List.length_append, List.length_cons, List.length_nil]
              omega
            rw [cleaned_device nul, denotes, parse_device, Lib.Lists.takeWhile_stops free stops, Lib.Lists.dropWhile_stops free stops, ← size]
            refine clean_root _ split nul (fun name same => ?_) nofun (List.cons_ne_nil _ _)
            exact Root.device.inj same ▸ List.cons_ne_nil _ _
      rw [cleaned, cleanname, first, ok_bind, if_neg nonzero, if_neg device, denotes]
      by_cases rooted : c = slash
      · subst rooted
        rw [if_pos rfl, parse_rooted]
        exact clean_root .rooted rfl nul nofun nofun (List.cons_ne_nil _ _)
      · rw [if_neg rooted, parse_relative device rooted]
        exact clean_root .relative rfl nul nofun (fun _ => by simpa using rooted) (List.cons_ne_nil _ _)

theorem cleaned_outside {s : List UInt8} (nul : 0 ∉ s) (ends : ¬ Ends s) : cleaned s = .error .outside := by
  rw [Ends, Classical.not_imp, not_or] at ends
  obtain ⟨starts, long, unslashed⟩ := ends
  cases s with
  | nil => exact absurd starts nofun
  | cons c rest =>
      obtain rfl : c = hash := by simpa using starts
      cases rest with
      | nil => exact absurd rfl long
      | cons r body =>
          have free : ∀ b ∈ body, decide (b ≠ slash) = true := fun b member => decide_eq_true fun same => unslashed (same ▸ member)
          have whole : body.takeWhile (· ≠ slash) = body := List.takeWhile_eq_self_iff.mpr free
          have beyond : load (hash :: r :: body ++ [0]) (2 + body.length + 1) = .error .outside := by
            rw [load, List.getElem?_eq_none (by simp; omega)]
          rw [cleaned_device nul, whole, clean, skipRoot, if_pos rfl, skipSlashes, beyond]
          rfl

/-! The names that are kept. -/

/-- The names after the root: none is empty or ".", and those that are ".." come
first, where no root is. -/
def Normal (r : List UInt8) : Prop :=
  r = CurDir ∨ r ≠ [] ∧ ((parse r).2 = [] ∨ (∀ c ∈ (parse r).2.splitOn slash, c ≠ [] ∧ c ≠ CurDir) ∧
    ∃ n names, (parse r).2.splitOn slash = List.replicate n ParentDir ++ names ∧ ParentDir ∉ names ∧ ((parse r).1.absolute = true → n = 0))

/-- `cleanname` gives a normal path that denotes the same and stays as it is. -/
def Correct (s : List UInt8) : Prop :=
  ∃ mem, cleaned s = .ok mem ∧ mem.length = max 2 (s.length + 1) ∧ Normal (cstring mem) ∧ denotes (cstring mem) = denotes s ∧
    ∃ mem', cleaned (cstring mem) = .ok mem' ∧ cstring mem' = cstring mem

/-- A device has a slash behind its name, and names are left after that, and the
first name of a path without a root is not one of a device. -/
def Cleanable (s : List UInt8) : Prop :=
  match (parse s).1 with
  | .relative => ∀ c ∈ (route (denotes s).place).head?, c.head? ≠ some hash
  | .rooted => True
  | .device _ => s = [hash] ∨ slash ∈ s.drop 2 ∧ route (denotes s).place ≠ []

theorem destination_route (root : Root) {text : List UInt8} {p : Place (List UInt8)} (good : ∀ c ∈ route p, Piece slash c)
    (proper : p.Proper CurDir ParentDir root.absolute) (same : text = [slash].intercalate (route p)) : destination root.absolute text = p := by
  rw [destination, same, pieces_intercalate good]
  exact place_route (by decide) proper

theorem parse_device_name {s name : List UInt8} (device : (parse s).1 = .device name) :
    s = [hash] ∧ name = [hash] ∨ s.head? = some hash ∧ s ≠ [hash] ∧ ∃ r run, name = hash :: r :: run ∧ slash ∉ run := by
  cases s with
  | nil => exact absurd device nofun
  | cons c rest =>
      by_cases starts : c = hash
      · subst starts
        cases rest with
        | nil => exact .inl ⟨rfl, (Root.device.inj device).symm⟩
        | cons r body =>
            rw [parse_device] at device
            refine .inr ⟨rfl, by simp, r, body.takeWhile (· ≠ slash), (Root.device.inj device).symm, fun member => ?_⟩
            exact absurd (List.mem_takeWhile_imp member) (by simp)
      · by_cases rooted : c = slash
        · subst rooted
          exact absurd device nofun
        · rw [parse_relative starts rooted] at device
          exact absurd device nofun

/-- A text behind a device. -/
theorem parse_behind {run : List UInt8} (free : slash ∉ run) (r : UInt8) (text : List UInt8) :
    parse (hash :: r :: run ++ slash :: text) = (.device (hash :: r :: run), text) := by
  have inside : ∀ b ∈ run, decide (b ≠ slash) = true := fun b member => decide_eq_true fun same => free (same ▸ member)
  have stops : ∀ b ∈ (slash :: text).head?, decide (b ≠ slash) = false := by simp
  rw [List.cons_append, List.cons_append, parse_device, Lib.Lists.takeWhile_stops inside stops, Lib.Lists.dropWhile_stops inside stops]
  rfl

theorem intercalate_cons (c : List UInt8) (cs : List (List UInt8)) : ∃ more, [slash].intercalate (c :: cs) = c ++ more := by
  cases cs with
  | nil => exact ⟨[], by simp⟩
  | cons c' cs => exact ⟨_, List.intercalate_cons_cons.trans (List.append_assoc ..)⟩

/-- A cleaned path is read as what it was written for. -/
structure Reads (r : List UInt8) (p : Path) : Prop where
  nonempty : r ≠ []
  ends : Ends r
  parsed : parse r = (p.root, [slash].intercalate (route p.place)) ∨ r = CurDir ∧ p.root = .relative ∧ route p.place = []

theorem reads_render {s : List UInt8} (cleanable : Cleanable s) : Reads (render (denotes s)) (denotes s) := by
  have good : ∀ c ∈ route (denotes s).place, Piece slash c := fun c member => route_piece member
  have split : denotes s = ⟨(parse s).1, (denotes s).place⟩ := rfl
  rw [Cleanable] at cleanable
  generalize (denotes s).place = p at good split cleanable
  rw [split]
  cases root : (parse s).1 with
  | relative =>
      rw [root] at cleanable
      dsimp only at cleanable
      cases names : route p with
      | nil =>
          have text : render ⟨.relative, p⟩ = CurDir := by rw [render]; exact if_pos names
          rw [text]
          exact ⟨by decide, by decide, .inr ⟨rfl, rfl, names⟩⟩
      | cons c cs =>
          obtain ⟨more, joined⟩ := intercalate_cons c cs
          have piece := good c (names ▸ List.mem_cons_self)
          obtain ⟨b, c', rfl⟩ := List.exists_cons_of_ne_nil piece.1
          have notDevice : b ≠ hash := by simpa [names] using cleanable
          have notRooted : b ≠ slash := fun same => piece.2 (same ▸ List.mem_cons_self)
          have text : render ⟨.relative, p⟩ = b :: (c' ++ more) := by
            rw [render]
            exact (if_neg (by simp [names])).trans (by rw [names, joined]; rfl)
          rw [text]
          refine ⟨List.cons_ne_nil _ _, fun device => absurd (Option.some.inj device) notDevice, .inl ?_⟩
          rw [parse_relative notDevice notRooted, names, joined]
          rfl
  | rooted =>
      have text : render ⟨.rooted, p⟩ = slash :: [slash].intercalate (route p) := rfl
      rw [text]
      exact ⟨List.cons_ne_nil _ _, fun device => absurd (Option.some.inj device) (by decide), .inl (parse_rooted _)⟩
  | device name =>
      rw [root] at cleanable
      dsimp only at cleanable
      rcases parse_device_name root with ⟨rfl, rfl⟩ | ⟨-, other, r, run, rfl, free⟩
      · obtain rfl : p = ⟨0, []⟩ := (Path.mk.inj split).2.symm
        exact ⟨by decide, by decide, .inl rfl⟩
      · obtain ⟨-, nonempty⟩ := cleanable.resolve_left other
        have text : render ⟨.device (hash :: r :: run), p⟩ = hash :: r :: run ++ slash :: [slash].intercalate (route p) := by
          rw [render]
          exact if_neg nonempty
        rw [text]
        exact ⟨List.cons_ne_nil _ _, fun _ => .inr (by simp), .inl (parse_behind free r _)⟩

theorem Reads.denotes_eq {r s : List UInt8} (reads : Reads r (denotes s)) : denotes r = denotes s := by
  have good : ∀ c ∈ route (denotes s).place, Piece slash c := fun c member => route_piece member
  rcases reads.parsed with parsed | ⟨rfl, relative, empty⟩
  · rw [denotes, parsed]
    exact congrArg (Path.mk (denotes s).root) (destination_route _ good (place_proper _ _) rfl)
  · have here : denotes CurDir = ⟨.relative, ⟨0, []⟩⟩ := by decide
    have ups : (denotes s).place.ups = 0 := by simpa using congrArg List.length (List.append_eq_nil_iff.mp empty).1
    have names : (denotes s).place.names = [] := List.reverse_eq_nil_iff.mp (List.append_eq_nil_iff.mp empty).2
    have place : (denotes s).place = ⟨0, []⟩ := by
      rw [← ups, ← names]
    have whole : denotes s = ⟨(denotes s).root, (denotes s).place⟩ := rfl
    rw [here, whole, relative, place]

theorem Reads.normal {r s : List UInt8} (reads : Reads r (denotes s)) : Normal r := by
  rcases reads.parsed with parsed | ⟨rfl, -, -⟩
  · refine .inr ⟨reads.nonempty, ?_⟩
    have proper : (denotes s).place.Proper CurDir ParentDir (denotes s).root.absolute := place_proper _ _
    rw [parsed]
    dsimp only
    by_cases empty : route (denotes s).place = []
    · exact .inl (by rw [empty]; rfl)
    · have good : ∀ c ∈ route (denotes s).place, Piece slash c := fun c member => route_piece member
      rw [List.splitOn_intercalate slash (fun c member => (good c member).2) empty]
      refine .inr ⟨fun c member => ⟨(good c member).1, ?_⟩, _, _, rfl, fun member => ?_, proper.rooted⟩
      · rcases List.mem_append.mp member with up | name
        · exact List.eq_of_mem_replicate up ▸ by decide
        · exact (proper.names c (List.mem_reverse.mp name)).1
      · exact (proper.names ParentDir (List.mem_reverse.mp member)).2 rfl
  · exact .inl rfl

/-- What `cleanname` gives is right iff the path is one of these. -/
theorem cleanname_iff {s : List UInt8} (nul : 0 ∉ s) : Correct s ↔ Cleanable s := by
  have nulString : ∀ mem : Mem, 0 ∉ cstring mem := fun mem member => absurd (List.mem_takeWhile_imp member) (by simp)
  constructor
  · rintro ⟨mem, runs, -, -, same, mem', again, -⟩
    have ends : Ends s := by
      by_contra beyond
      rw [cleaned_outside nul beyond] at runs
      exact absurd runs nofun
    obtain ⟨mem₁, runs₁, -, string⟩ := cleaned_eq nul ends
    obtain rfl := Except.ok.inj (runs.symm.trans runs₁)
    have ends' : Ends (cstring mem) := by
      by_contra beyond
      rw [cleaned_outside (nulString mem) beyond] at again
      exact absurd again nofun
    rw [string] at same ends'
    have root : (parse (render (denotes s))).1 = (parse s).1 := congrArg Path.root same
    rw [Cleanable]
    split
    · rename_i relative
      intro c first device
      obtain ⟨cs, names⟩ : ∃ cs, route (denotes s).place = c :: cs := List.head?_eq_some_iff.mp first
      obtain ⟨c', rfl⟩ : ∃ c', c = hash :: c' := List.head?_eq_some_iff.mp device
      obtain ⟨more, joined⟩ := intercalate_cons (hash :: c') cs
      have text : render (denotes s) = hash :: (c' ++ more) := by
        have whole : denotes s = ⟨.relative, (denotes s).place⟩ := by rw [← relative]; rfl
        rw [whole, render]
        exact (if_neg (by simp [names])).trans (by rw [names, joined]; rfl)
      rw [text, relative] at root
      cases after : c' ++ more with
      | nil =>
          rw [after] at root
          exact absurd root nofun
      | cons r body =>
          rw [after, parse_device] at root
          exact absurd root nofun
    · trivial
    · rename_i name device
      rcases parse_device_name device with ⟨single, -⟩ | ⟨starts, other, r, run, rfl, free⟩
      · exact .inl single
      · refine .inr ⟨(ends starts).resolve_left other, fun empty => ?_⟩
        have text : render (denotes s) = hash :: r :: run := by
          have whole : denotes s = ⟨.device (hash :: r :: run), (denotes s).place⟩ := by rw [← device]; rfl
          rw [whole, render]
          exact if_pos empty
        rw [text] at ends'
        exact (ends' rfl).elim (by simp) free
  · intro cleanable
    have reads := reads_render cleanable
    have ends : Ends s := by
      intro device
      obtain ⟨rest, rfl⟩ := List.head?_eq_some_iff.mp device
      cases rest with
      | nil => exact .inl rfl
      | cons r body => exact cleanable.imp_right And.left
    obtain ⟨mem, runs, length, string⟩ := cleaned_eq nul ends
    have ends' : Ends (cstring mem) := string ▸ reads.ends
    obtain ⟨mem', again, -, string'⟩ := cleaned_eq (nulString mem) ends'
    rw [string, reads.denotes_eq] at string'
    exact ⟨mem, runs, length, string ▸ reads.normal, by rw [string, reads.denotes_eq], mem', string ▸ again, by rw [string', string]⟩

/-- `cleanname` reads past the end of `#x`. -/
theorem unended_device : cleaned [hash, 0x78] = .error .outside ∧ ¬ Correct [hash, 0x78] := by
  have outside : cleaned [hash, 0x78] = .error .outside := by rfl
  refine ⟨outside, ?_⟩
  rintro ⟨mem, runs, -⟩
  exact absurd (outside.symm.trans runs) nofun

-- /a/../b
theorem rooted_correct : Correct [slash, 0x61, slash, dot, dot, slash, 0x62] := (cleanname_iff (by decide)).mpr trivial

end Goken.Proofs.Cleanname
