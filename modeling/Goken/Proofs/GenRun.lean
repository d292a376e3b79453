import Goken.Proofs.GenChain

/-! Running the code of a function. A continuation of the source is a place in the
code, a context for its jumps, and what `gen` knew about reachability there. -/

namespace Goken.Proofs.GenRun
open Goken.Gen GenCode GenChain Lib.Simulation

variable {ε : Type}

/-! Reachability. -/

theorem flow_nbreak (s : Stmt ε) (f : Flow) : f.nbreak ≤ (flow s f).nbreak := by
  induction s generalizing f with
  | OLIST s t ihs iht => exact (ihs f).trans (iht _)
  | OIF t s e ihs ihe =>
    have both := (ihs ⟨true, f.nbreak⟩).trans (ihe ⟨true, (flow s ⟨true, f.nbreak⟩).nbreak⟩)
    simp only [flow]
    cases folded t s e with
    | none => exact both
    | some v => cases v <;> exact both
  | OBREAK =>
    rw [flow]
    split
    · exact Nat.le_succ _
    · exact Nat.le_refl _
  | _ => exact Nat.le_refl _

theorem flow_keeps (s : Stmt ε) (keep : keeps s = true) (f : Flow) : flow s f = f := by
  induction s generalizing f with
  | exprs => rfl
  | OLIST s t ihs iht =>
    rw [keeps, Bool.and_eq_true] at keep
    rw [flow, ihs keep.1, iht keep.2]
  | _ => cases keep

/-- Without a jump to leave out, it does not matter whether the start can be reached. -/
structure Alike (s : Stmt ε) (n : Nat) : Prop where
  size : size s ⟨false, n⟩ = size s ⟨true, n⟩
  items : ∀ c a, items s c ⟨false, n⟩ a = items s c ⟨true, n⟩ a
  casesAt : ∀ a, casesAt s ⟨false, n⟩ a = casesAt s ⟨true, n⟩ a
  nbreak : (flow s ⟨false, n⟩).nbreak = (flow s ⟨true, n⟩).nbreak
  flow : keeps s = false → flow s ⟨false, n⟩ = flow s ⟨true, n⟩

theorem drops_alike (s : Stmt ε) (none_ : drops s = false) (n : Nat) : Alike s n := by
  induction s generalizing n with
  | OLIST s t ihs iht =>
    simp only [drops, Bool.or_eq_false_iff] at none_
    have first := ihs none_.1 n
    cases keep : keeps s with
    | false =>
      have same := first.flow keep
      refine ⟨by simp [size, same, first.size], fun c a => by simp [items, same, first.size, first.items],
        fun a => by simp [casesAt, same, first.size, first.casesAt], by simp [flow, same], fun _ => by simp [flow, same]⟩
    | true =>
      have second := iht (by simpa [keep] using none_.2) n
      have same := flow_keeps s keep
      refine ⟨by simp [size, same, first.size, second.size], fun c a => by simp [items, same, first.size, first.items, second.items],
        fun a => by simp [casesAt, same, first.size, first.casesAt, second.casesAt], by simp [flow, same, second.nbreak],
        fun moved => ?_⟩
      rw [keeps, keep, Bool.true_and] at moved
      simp [flow, same, second.flow moved]
  | OWHILE t s ih | ODWHILE t s ih =>
    have body := ih none_ t.exits
    exact ⟨by simp [size, body.size], fun c a => by simp [items, body.items], fun a => by simp [casesAt, body.casesAt],
      rfl, fun _ => by simp [flow, body.nbreak]⟩
  | OSWITCH e s ih =>
    simp only [drops, Bool.or_eq_false_iff] at none_
    have body := ih none_.1 0
    have same := body.flow none_.2
    exact ⟨by simp [size, same, body.size], fun c a => by simp [items, same, body.size, body.items, body.casesAt],
      fun a => rfl, rfl, fun _ => by simp [flow, same]⟩
  | OBREAK => cases none_
  | exprs es => exact ⟨rfl, fun _ _ => rfl, fun _ => rfl, rfl, fun moved => by cases moved⟩
  | ORETURN e => cases e <;> exact ⟨rfl, fun _ _ => rfl, fun _ => rfl, rfl, fun _ => rfl⟩
  | _ => exact ⟨rfl, fun _ _ => rfl, fun _ => rfl, rfl, fun _ => rfl⟩

/-! Places in the code. -/

section Places

variable (F : Function_ ε)

def Has (a : Nat) (xs : List (Item ε)) : Prop := ∀ (i : Nat) (x : Item ε), xs[i]? = some x → (codeOf F)[a + i]? = some x

/-- The code of `s` is at `a`, and `gen` was right about what can reach it. -/
structure Piece (loop breaks : Bool) (s : Stmt ε) (c : Context) (f : Flow) (a : Nat) : Prop where
  has : Has F a (items s c f a)
  entered : Entered s f
  placed : ∃ switch, Placed F.declared loop breaks switch s

structure WhileAt (t : Test ε) (s : Stmt ε) (a out : Nat) (h : Flow) : Prop where
  again : (codeOf F)[a + 1]? = some (.op (.jump (a + 3)))
  brk : (codeOf F)[a + 2]? = some (.op (.jump out))
  test : Has F (a + 3) ((testCode t (a + 3) (a + 2)).map .op)
  body : Piece F true true s ⟨a + 2, a + 1⟩ ⟨true, t.exits⟩ (a + 3 + testSize t)
  back : (codeOf F)[a + 3 + testSize t + size s ⟨true, t.exits⟩]? = some (.op (.jump (a + 1)))
  leaves : (flow s ⟨true, t.exits⟩).nbreak ≠ 0 → h.canreach = true

def exits (t : Option (Test ε)) : Nat := (t.map Test.exits).getD 0

structure ForAt (t : Option (Test ε)) (es : List ε) (s : Stmt ε) (a out : Nat) (h : Flow) : Prop where
  again : (codeOf F)[a + 1]? = some (.op (.jump (a + 3)))
  brk : (codeOf F)[a + 2]? = some (.op (.jump out))
  inc : Has F (a + 3) (es.map fun e => .op (.eval e))
  test : Has F (a + 3 + es.length) ((optTestCode t (a + 3 + es.length) (a + 2)).map .op)
  body : Piece F true true s ⟨a + 2, a + 1⟩ ⟨true, exits t⟩ (a + 3 + es.length + optTestSize t)
  back : (flow s ⟨true, exits t⟩).canreach = true →
    (codeOf F)[a + 3 + es.length + optTestSize t + size s ⟨true, exits t⟩]? = some (.op (.jump (a + 1)))
  leaves : (flow s ⟨true, exits t⟩).nbreak ≠ 0 → h.canreach = true

/-- `g` promises no more than `f`. -/
def Below (g f : Flow) : Prop := (g.canreach = true → f.canreach = true) ∧ (g.nbreak ≠ 0 → f.nbreak ≠ 0)

/-- The continuation at `b`: how it goes on there, if `b` can be reached, and where
its jumps go. -/
def Sits : Cont ε → Context → Flow → Nat → Prop
  | k, c, g, b => ∃ p f, Below g f ∧ (g.canreach = true → Silently (fetch F.codgen.code) b p) ∧
    match k with
    | .stop => f.canreach = true → F.codgen.code[p]? = some .ret
    | .seq t k => Piece F k.continue_.isSome k.break_.isSome t c f p ∧ Sits k c (flow t f) (p + size t f)
    | .loop t s k => ∃ a out o h, p = a + 3 ∧ c = ⟨a + 2, a + 1⟩ ∧ (f.nbreak ≠ 0 → h.canreach = true) ∧
        WhileAt F t s a out h ∧ Sits k o h out
    | .inc t es s k => ∃ a out o h, p = a + 1 ∧ c = ⟨a + 2, a + 1⟩ ∧ (f.nbreak ≠ 0 → h.canreach = true) ∧
        ForAt F t es s a out h ∧ Sits k o h out
    | .cond t es s k => ∃ a out o h, p = a + 3 + es.length ∧ c = ⟨a + 2, a + 1⟩ ∧ (f.nbreak ≠ 0 → h.canreach = true) ∧
        ForAt F t es s a out h ∧ Sits k o h out
    | .switch k => ∃ out o h, p = c.brk ∧ c.cont = o.cont ∧ (codeOf F)[c.brk]? = some (.op (.jump out)) ∧
        (f.canreach = true ∨ f.nbreak ≠ 0 → h.canreach = true) ∧ Sits k o h out

/-- What nothing reaches may end anywhere. -/
example (c : Context) (n b : Nat) : Sits F .stop c ⟨false, n⟩ b := by
  unfold Sits
  exact ⟨b, ⟨false, n⟩, ⟨id, id⟩, nofun, nofun⟩

def Match : State ε → Nat → Prop
  | .run s k, p => ∃ c f, f.canreach = true ∧ Piece F k.continue_.isSome k.break_.isSome s c f p ∧ Sits F k c (flow s f) (p + size s f)
  | .done, p => F.codgen.code[p]? = some .ret

end Places

variable {F : Function_ ε}

namespace Has

variable {a : Nat} {x : Item ε} {xs ys : List (Item ε)}

theorem left (has : Has F a (xs ++ ys)) : Has F a xs := by
  intro i x here
  exact has i x ((List.getElem?_append_left (List.getElem?_eq_some_iff.mp here).1).trans here)

theorem right (has : Has F a (xs ++ ys)) {b : Nat} (place : b = a + xs.length) : Has F b ys := by
  intro i x here
  rw [place, Nat.add_assoc]
  exact has (xs.length + i) x (by rw [List.getElem?_append_right (Nat.le_add_right _ _), Nat.add_sub_cancel_left, here])

theorem head (has : Has F a (x :: xs)) : (codeOf F)[a]? = some x := has 0 x rfl

theorem tail (has : Has F a (x :: xs)) : Has F (a + 1) xs := by
  intro i y here
  rw [Nat.add_right_comm]
  exact has (i + 1) y here

theorem nil : Has F a [] := by
  intro i x here
  cases here

end Has

theorem Below.refl (f : Flow) : Below f f := ⟨id, id⟩

theorem Below.trans {f g h : Flow} (first : Below f g) (second : Below g h) : Below f h :=
  ⟨second.1 ∘ first.1, second.2 ∘ first.2⟩

theorem Below.flow {s : Stmt ε} {f : Flow} (breaks : f.nbreak ≠ 0) : (flow s f).nbreak ≠ 0 := by
  have more := flow_nbreak s f
  omega

theorem moves_op {p q : Nat} (here : (codeOf F)[p]? = some (.op (.jump q))) : Moves (fetch F.codgen.code) p q :=
  moves_jump ((codgen_image F).op here)

namespace Sits

variable {k k' : Cont ε} {c : Context} {g g' : Flow} {b b' : Nat}

theorem mono (sits : Sits F k c g b) (below : Below g' g) : Sits F k c g' b := by
  unfold Sits at sits ⊢
  obtain ⟨p, f, below', path, rest⟩ := sits
  exact ⟨p, f, below.trans below', fun reach => path (below.1 reach), rest⟩

theorem via (sits : Sits F k c g b) (path : Silently (fetch F.codgen.code) b' b) : Sits F k c g b' := by
  unfold Sits at sits ⊢
  obtain ⟨p, f, below, path', rest⟩ := sits
  exact ⟨p, f, below, fun reach => path.trans (path' reach), rest⟩

theorem break_ (sits : Sits F k c g b) (breaks : g.nbreak ≠ 0) (out : k.break_ = some k') :
    ∃ o h, h.canreach = true ∧ Sits F k' o h c.brk := by
  induction k generalizing c g b with
  | stop => cases out
  | seq t k ih =>
    unfold Sits at sits
    obtain ⟨p, f, below, -, -, rest⟩ := sits
    exact ih rest (Below.flow (below.2 breaks)) out
  | loop t s k =>
    unfold Sits at sits
    obtain ⟨p, f, below, -, a, q, o, h, -, rfl, reach, while_, rest⟩ := sits
    cases out
    exact ⟨o, h, reach (below.2 breaks), rest.via (.single (moves_op while_.brk))⟩
  | inc t es s k | cond t es s k =>
    unfold Sits at sits
    obtain ⟨p, f, below, -, a, q, o, h, -, rfl, reach, for_, rest⟩ := sits
    cases out
    exact ⟨o, h, reach (below.2 breaks), rest.via (.single (moves_op for_.brk))⟩
  | switch k =>
    unfold Sits at sits
    obtain ⟨p, f, below, -, q, o, h, -, -, here, reach, rest⟩ := sits
    cases out
    exact ⟨o, h, reach (Or.inr (below.2 breaks)), rest.via (.single (moves_op here))⟩

theorem continue_ (sits : Sits F k c g b) (again : k.continue_ = some k') : ∃ o h, h.canreach = true ∧ Sits F k' o h c.cont := by
  induction k generalizing c g b with
  | stop => cases again
  | seq t k ih =>
    unfold Sits at sits
    obtain ⟨p, f, -, -, -, rest⟩ := sits
    exact ih rest again
  | loop t s k =>
    unfold Sits at sits
    obtain ⟨p, f, below, -, a, q, o, h, -, rfl, reach, while_, rest⟩ := sits
    cases again
    refine ⟨⟨a + 2, a + 1⟩, ⟨true, 0⟩, rfl, ?_⟩
    unfold Sits
    exact ⟨a + 3, ⟨true, 0⟩, Below.refl _, fun _ => .single (moves_op while_.again), a, q, o, h, rfl, rfl, fun zero => absurd rfl zero,
      while_, rest⟩
  | inc t es s k | cond t es s k =>
    unfold Sits at sits
    obtain ⟨p, f, below, -, a, q, o, h, -, rfl, reach, for_, rest⟩ := sits
    cases again
    refine ⟨⟨a + 2, a + 1⟩, ⟨true, 0⟩, rfl, ?_⟩
    unfold Sits
    exact ⟨a + 1, ⟨true, 0⟩, Below.refl _, fun _ => .refl, a, q, o, h, rfl, rfl, fun zero => absurd rfl zero, for_, rest⟩
  | switch k ih =>
    unfold Sits at sits
    obtain ⟨p, f, below, -, q, o, h, -, same, here, reach, rest⟩ := sits
    rw [same]
    exact ih rest again

/-! How the continuations come about. -/

theorem seq {t : Stmt ε} (piece : Piece F k.continue_.isSome k.break_.isSome t c g b) (sits : Sits F k c (flow t g) (b + size t g)) :
    Sits F (.seq t k) c g b := by
  unfold Sits
  exact ⟨b, g, Below.refl g, fun _ => .refl, piece, sits⟩

variable {a out : Nat} {o : Context} {h : Flow}

theorem loop {t : Test ε} {s : Stmt ε} (while_ : WhileAt F t s a out h) (sits : Sits F k o h out) (reach : g.nbreak ≠ 0 → h.canreach = true)
    (path : g.canreach = true → Silently (fetch F.codgen.code) b (a + 3)) : Sits F (.loop t s k) ⟨a + 2, a + 1⟩ g b := by
  unfold Sits
  exact ⟨a + 3, g, Below.refl g, path, a, out, o, h, rfl, rfl, reach, while_, sits⟩

theorem inc {t : Option (Test ε)} {es : List ε} {s : Stmt ε} (for_ : ForAt F t es s a out h) (sits : Sits F k o h out)
    (reach : g.nbreak ≠ 0 → h.canreach = true) (path : g.canreach = true → Silently (fetch F.codgen.code) b (a + 1)) :
    Sits F (.inc t es s k) ⟨a + 2, a + 1⟩ g b := by
  unfold Sits
  exact ⟨a + 1, g, Below.refl g, path, a, out, o, h, rfl, rfl, reach, for_, sits⟩

theorem cond {t : Option (Test ε)} {es : List ε} {s : Stmt ε} (for_ : ForAt F t es s a out h) (sits : Sits F k o h out)
    (reach : g.nbreak ≠ 0 → h.canreach = true) (path : g.canreach = true → Silently (fetch F.codgen.code) b (a + 3 + es.length)) :
    Sits F (.cond t es s k) ⟨a + 2, a + 1⟩ g b := by
  unfold Sits
  exact ⟨a + 3 + es.length, g, Below.refl g, path, a, out, o, h, rfl, rfl, reach, for_, sits⟩

theorem switch {brk : Nat} (here : (codeOf F)[brk]? = some (.op (.jump out))) (sits : Sits F k o h out)
    (reach : g.canreach = true ∨ g.nbreak ≠ 0 → h.canreach = true)
    (path : g.canreach = true → Silently (fetch F.codgen.code) b brk) : Sits F (.switch k) ⟨brk, o.cont⟩ g b := by
  unfold Sits
  exact ⟨brk, g, Below.refl g, path, out, o, h, rfl, rfl, here, reach, sits⟩

end Sits

/-! The parts of a statement. -/

section Parts

variable {k : Cont ε} {c : Context} {f : Flow} {a : Nat}

theorem olist_parts {s t : Stmt ε} (piece : Piece F k.continue_.isSome k.break_.isSome (.OLIST s t) c f a)
    (entered : Entered s f ∧ Entered t (flow s f)) :
    Piece F k.continue_.isSome k.break_.isSome s c f a ∧
      Piece F k.continue_.isSome k.break_.isSome t c (flow s f) (a + size s f) := by
  obtain ⟨w, placed⟩ := piece.placed
  have has := piece.has
  rw [items] at has
  exact ⟨⟨has.left, entered.1, w, placed.1⟩, ⟨has.right (by simp), entered.2, w, placed.2⟩⟩

/-- The body of a loop is as if its start could be reached. -/
theorem body_items {s : Stmt ε} {r : Bool} (entered : r = true ∨ drops s = false) (n : Nat) :
    (∀ c a, items s c ⟨r, n⟩ a = items s c ⟨true, n⟩ a) ∧ size s ⟨r, n⟩ = size s ⟨true, n⟩ ∧
      (∀ a, casesAt s ⟨r, n⟩ a = casesAt s ⟨true, n⟩ a) ∧ (flow s ⟨r, n⟩).nbreak = (flow s ⟨true, n⟩).nbreak := by
  cases r with
  | true => exact ⟨fun _ _ => rfl, rfl, fun _ => rfl, rfl⟩
  | false =>
    have alike := drops_alike s (entered.resolve_left Bool.false_ne_true) n
    exact ⟨alike.items, alike.size, alike.casesAt, alike.nbreak⟩

theorem while_parts (late : Bool) {t : Test ε} {s : Stmt ε}
    (has : Has F a (whileItems late t a (items s ⟨a + 2, a + 1⟩ ⟨f.canreach, t.exits⟩ (a + 3 + testSize t))))
    (entered : (f.canreach = true ∨ drops s = false) ∧ Entered s ⟨true, t.exits⟩) {w : Bool} (placed : Placed F.declared true true w s) :
    WhileAt F t s a (a + size (.OWHILE t s) f) (flow (.OWHILE t s) f) ∧
      (codeOf F)[a]? = some (.op (.jump (if late then a + 3 + testSize t else a + 3))) := by
  obtain ⟨same, length, -, nbreak⟩ := body_items entered.1 t.exits
  have out : a + 3 + testSize t + (items s ⟨a + 2, a + 1⟩ ⟨true, t.exits⟩ (a + 3 + testSize t)).length + 1 = a + size (.OWHILE t s) f := by
    simp only [items_length, size, length]
    omega
  rw [same, whileItems, out] at has
  simp only [List.append_assoc, List.cons_append, List.nil_append] at has
  refine ⟨⟨has.tail.head, has.tail.tail.head, has.tail.tail.tail.left, ⟨?_, entered.2, w, placed⟩, ?_, ?_⟩, has.head⟩
  · exact (has.tail.tail.tail.right (by simp)).left
  · exact ((has.tail.tail.tail.right (b := a + 3 + testSize t) (by simp)).right (by simp)).head
  · intro some_
    simpa [flow, nbreak] using some_

theorem for_parts {t : Option (Test ε)} {es : List ε} {s : Stmt ε} {back : List (Item ε)}
    (has : Has F a (forItems t es a (items s ⟨a + 2, a + 1⟩ ⟨true, exits t⟩ (a + 3 + es.length + optTestSize t)) back))
    (last : back = if (flow s ⟨true, exits t⟩).canreach then [.op (.jump (a + 1))] else [])
    (entered : Entered s ⟨true, exits t⟩) {w : Bool} (placed : Placed F.declared true true w s) (n : Nat) :
    ForAt F t es s a (a + 3 + es.length + optTestSize t + size s ⟨true, exits t⟩ + back.length)
        ⟨(flow s ⟨true, exits t⟩).nbreak ≠ 0, n⟩ ∧
      (codeOf F)[a]? = some (.op (.jump (a + 3 + es.length))) := by
  simp only [forItems, List.cons_append, List.nil_append, items_length] at has
  have rest := has.tail.tail.tail
  have test := rest.right (b := a + 3 + es.length) (by simp)
  have body := test.right (b := a + 3 + es.length + optTestSize t) (by simp)
  refine ⟨⟨has.tail.head, has.tail.tail.head, rest.left, test.left, ⟨body.left, entered, w, placed⟩, ?_, ?_⟩, has.head⟩
  · intro reach
    have after := body.right (b := a + 3 + es.length + optTestSize t + size s ⟨true, exits t⟩) (by simp)
    rw [last, reach] at after
    exact after.head
  · intro some_
    simpa using some_

/-- Where the second statement of an `if` starts. -/
def elseAt (t : Test ε) (s e : Stmt ε) (n a : Nat) : Nat :=
  a + testSize t + size s ⟨true, n⟩ + if isZ e then 0 else 1

theorem if_parts {t : Test ε} {s e : Stmt ε} (fold : folded t s e = none)
    (piece : Piece F k.continue_.isSome k.break_.isSome (.OIF t s e) c f a)
    (entered : Entered s ⟨true, f.nbreak⟩ ∧ Entered e ⟨true, (flow s ⟨true, f.nbreak⟩).nbreak⟩)
    (sits : Sits F k c (flow (.OIF t s e) f) (a + size (.OIF t s e) f)) :
    Has F a ((testCode t a (elseAt t s e f.nbreak a)).map .op) ∧
      (Piece F k.continue_.isSome k.break_.isSome s c ⟨true, f.nbreak⟩ (a + testSize t) ∧
        Sits F k c (flow s ⟨true, f.nbreak⟩) (a + testSize t + size s ⟨true, f.nbreak⟩)) ∧
      Piece F k.continue_.isSome k.break_.isSome e c ⟨true, (flow s ⟨true, f.nbreak⟩).nbreak⟩ (elseAt t s e f.nbreak a) ∧
        Sits F k c (flow e ⟨true, (flow s ⟨true, f.nbreak⟩).nbreak⟩)
          (elseAt t s e f.nbreak a + size e ⟨true, (flow s ⟨true, f.nbreak⟩).nbreak⟩) := by
  obtain ⟨w, placed⟩ := piece.placed
  have has := piece.has
  have below : Below (flow s ⟨true, f.nbreak⟩) (flow (.OIF t s e) f) := by
    have more := flow_nbreak e ⟨true, (flow s ⟨true, f.nbreak⟩).nbreak⟩
    refine ⟨fun reach => by simp [flow, fold, reach], fun some_ => ?_⟩
    simp only [flow, fold]
    exact fun none_ => some_ (Nat.le_zero.mp (none_ ▸ more))
  have below' : Below (flow e ⟨true, (flow s ⟨true, f.nbreak⟩).nbreak⟩) (flow (.OIF t s e) f) :=
    ⟨fun reach => by simp [flow, fold, reach], fun some_ => by simpa [flow, fold] using some_⟩
  simp only [items, size, fold] at has sits
  cases z : isZ e with
  | true =>
    simp only [z, if_true, Nat.add_zero, elseAt] at has sits ⊢
    have none_ := isZ_eq z
    subst none_
    refine ⟨has.left, ⟨⟨has.right (by simp), entered.1, w, placed.1⟩, ?_⟩, ⟨Has.nil, entered.2, w, placed.2⟩, ?_⟩
    · rw [Nat.add_assoc]
      exact sits.mono below
    · rw [size, List.length_nil, Nat.add_zero, Nat.add_assoc]
      exact sits.mono below'
  | false =>
    simp only [z, Bool.false_eq_true, if_false, List.append_assoc, elseAt] at has sits ⊢
    have body := has.right (b := a + testSize t) (by simp)
    have last := body.right (b := a + testSize t + size s ⟨true, f.nbreak⟩) (by simp)
    have place : a + (testSize t + size s ⟨true, f.nbreak⟩ + (1 + size e ⟨true, (flow s ⟨true, f.nbreak⟩).nbreak⟩)) =
        a + testSize t + size s ⟨true, f.nbreak⟩ + 1 + size e ⟨true, (flow s ⟨true, f.nbreak⟩).nbreak⟩ := by omega
    rw [place] at sits
    refine ⟨has.left, ⟨⟨body.left, entered.1, w, placed.1⟩, ?_⟩, ⟨last.tail, entered.2, w, placed.2⟩, sits.mono below'⟩
    exact (sits.mono below).via (.single (moves_op last.head))

/-- Where the branch of a switch is. -/
def switAt (s : Stmt ε) (f : Flow) (a : Nat) : Nat :=
  a + 2 + size s ⟨f.canreach, 0⟩ + if (flow s ⟨f.canreach, 0⟩).canreach then 1 else 0

theorem switch_parts {e : ε} {s : Stmt ε} (piece : Piece F k.continue_.isSome k.break_.isSome (.OSWITCH e s) c f a)
    (entered : Entered s ⟨f.canreach, 0⟩) (sits : Sits F k c (flow (.OSWITCH e s) f) (a + size (.OSWITCH e s) f)) :
    (codeOf F)[a]? = some (.op (.jump (switAt s f a))) ∧
      (codeOf F)[a + 1]? = some (.op (.jump (a + size (.OSWITCH e s) f))) ∧
      (codeOf F)[switAt s f a]? = some (.op (switchCode e (casesAt s ⟨f.canreach, 0⟩ (a + 2)).reverse (a + 1))) ∧
      Piece F k.continue_.isSome true s ⟨a + 1, c.cont⟩ ⟨f.canreach, 0⟩ (a + 2) ∧
      Sits F (.switch k) ⟨a + 1, c.cont⟩ (flow s ⟨f.canreach, 0⟩) (a + 2 + size s ⟨f.canreach, 0⟩) := by
  obtain ⟨w, placed⟩ := piece.placed
  have has := piece.has
  have long : ∀ r : Bool, (if r then ([.op (.jump (a + 1))] : List (Item ε)) else []).length = if r then 1 else 0 := by
    intro r
    cases r <;> rfl
  have out : switAt s f a + 1 = a + size (.OSWITCH e s) f := by
    simp only [switAt, size]
    omega
  simp only [items, long] at has
  rw [← switAt, out] at has
  simp only [List.append_assoc, List.cons_append, List.nil_append] at has
  have body := has.tail.tail
  have back := body.right (b := a + 2 + size s ⟨f.canreach, 0⟩) (by simp)
  have last := back.right (b := switAt s f a) (by rw [long]; rfl)
  refine ⟨has.head, has.tail.head, last.head, ⟨body.left, entered, true, placed.1⟩, ?_⟩
  refine Sits.switch has.tail.head sits (fun some_ => ?_) fun reach => ?_
  · have some' : (flow s ⟨f.canreach, 0⟩).nbreak ≠ 0 ∨ (flow s ⟨f.canreach, 0⟩).canreach = true ∨ none ∉ casesOf s := by tauto
    simp [flow, some']
  · rw [reach] at back
    exact .single (moves_op back.head)

end Parts

theorem ForAt.sits {t : Option (Test ε)} {es : List ε} {s : Stmt ε} {k : Cont ε} {c : Context} {h : Flow} {a out : Nat}
    (for_ : ForAt F t es s a out h) (sits : Sits F k c h out) :
    Sits F (.inc t es s k) ⟨a + 2, a + 1⟩ (flow s ⟨true, exits t⟩)
      (a + 3 + es.length + optTestSize t + size s ⟨true, exits t⟩) :=
  Sits.inc for_ sits for_.leaves fun reach => .single (moves_op (for_.back reach))

theorem WhileAt.sits {t : Test ε} {s : Stmt ε} {k : Cont ε} {c : Context} {h : Flow} {a out : Nat}
    (while_ : WhileAt F t s a out h) (sits : Sits F k c h out) :
    Sits F (.loop t s k) ⟨a + 2, a + 1⟩ (flow s ⟨true, t.exits⟩) (a + 3 + testSize t + size s ⟨true, t.exits⟩) :=
  Sits.loop while_ sits while_.leaves fun _ => .tail (.single (moves_op while_.back)) (moves_op while_.again)

/-! Jumping to a mark. -/

def Occurs (m : Mark) (s : Stmt ε) : Prop :=
  match m with
  | .label l => l ∈ labels s
  | .case v => v ∈ casesOf s

theorem find_isSome (m : Mark) (s : Stmt ε) (k : Cont ε) : (find m s k).isSome ↔ Occurs m s := by
  induction s generalizing k with
  | OLIST s t ihs iht | OIF _ s t ihs iht =>
    rw [find, Option.isSome_or, Bool.or_eq_true, ihs, iht]
    cases m <;> simp [Occurs, labels, casesOf]
  | OWHILE t s ih | ODWHILE t s ih | OFOR _ t _ s ih =>
    rw [find, ih]
    cases m <;> rfl
  | OSWITCH e s ih =>
    cases m with
    | label l =>
      rw [find, ih]
      rfl
    | case v => simp [find, Occurs, casesOf]
  | OCASE c =>
    cases m with
    | label l => simp [find, Occurs, labels]
    | case v =>
      simp only [find, Occurs, casesOf, List.mem_singleton]
      split <;> simp_all
  | OLABEL l =>
    cases m with
    | label l' =>
      simp only [find, Occurs, labels, List.mem_singleton]
      split <;> simp_all
    | case v => simp [find, Occurs, casesOf]
  | _ => cases m <;> simp [find, Occurs, labels, casesOf]

theorem find_dead {s : Stmt ε} (dead : deadhead s false = true) (m : Mark) (k : Cont ε) : find m s k = none := by
  rw [← Option.not_isSome_iff_eq_none, find_isSome]
  cases m with
  | label l => simp [Occurs, deadhead_labels s false dead]
  | case v => simp [Occurs, deadhead_cases s dead]

/-- The place of a mark in a statement at `a`. -/
def Marked (F : Function_ ε) (s : Stmt ε) (f : Flow) (a : Nat) : Mark → Nat → Prop
  | .label l, p => (codeOf F)[p]? = some (.label l)
  | .case v, p => (v, p) ∈ casesAt s f a

theorem match_nil {k : Cont ε} {c : Context} {f : Flow} {p : Nat} (reach : f.canreach = true) (sits : Sits F k c f p) :
    Match F (.run (.exprs []) k) p :=
  ⟨c, f, reach, ⟨Has.nil, by simp [Entered], false, by simp [Placed]⟩, sits⟩

/-- What the induction says of a statement. -/
def Found (F : Function_ ε) (m : Mark) (s : Stmt ε) : Prop :=
  ∀ (k : Cont ε) (c : Context) (f : Flow) (a : Nat), Piece F k.continue_.isSome k.break_.isSome s c f a →
    Sits F k c (flow s f) (a + size s f) → ∀ st, find m s k = some st → ∃ p, Marked F s f a m p ∧ Match F st p

theorem Found.dead {m : Mark} {s : Stmt ε} {k : Cont ε} {f : Flow} {st : State ε} (found : find m s k = some st)
    (dead : f.canreach = false ∧ deadhead s false = true) : False := by
  rw [find_dead dead.2] at found
  cases found

theorem olist_found {m : Mark} {s t : Stmt ε} (ihs : Found F m s) (iht : Found F m t) : Found F m (.OLIST s t) := by
  intro k c f a piece sits st found
  have entered := piece.entered
  rw [Entered] at entered
  rcases entered with dead | entered
  · exact (Found.dead found dead).elim
  · obtain ⟨first, second⟩ := olist_parts piece entered
    rw [size, ← Nat.add_assoc] at sits
    rw [find, Option.or_eq_some_iff] at found
    rcases found with left | ⟨-, right⟩
    · obtain ⟨p, marked, matches_⟩ := ihs (.seq t k) c f a first (Sits.seq second sits) st left
      refine ⟨p, ?_, matches_⟩
      cases m with
      | label l => exact marked
      | case v => exact List.mem_append_left _ marked
    · obtain ⟨p, marked, matches_⟩ := iht k c _ _ second sits st right
      refine ⟨p, ?_, matches_⟩
      cases m with
      | label l => exact marked
      | case v => exact List.mem_append_right _ marked

theorem oif_found {m : Mark} {t : Test ε} {s e : Stmt ε} (ihs : Found F m s) (ihe : Found F m e) : Found F m (.OIF t s e) := by
  intro k c f a piece sits st found
  have entered := piece.entered
  rw [Entered] at entered
  rcases entered with dead | entered
  · exact (Found.dead found dead).elim
  · cases fold : folded t s e with
    | some v =>
      obtain ⟨dead, dead'⟩ := folded_dead fold
      rw [find, find_dead dead, find_dead dead'] at found
      cases found
    | none =>
      simp only [fold] at entered
      obtain ⟨-, ⟨first, sits'⟩, second, sits''⟩ := if_parts fold piece entered sits
      rw [find, Option.or_eq_some_iff] at found
      rcases found with left | ⟨-, right⟩
      · obtain ⟨p, marked, matches_⟩ := ihs k c _ _ first sits' st left
        refine ⟨p, ?_, matches_⟩
        cases m with
        | label l => exact marked
        | case v =>
          simp only [Marked, casesAt, fold]
          exact List.mem_append_left _ marked
      · obtain ⟨p, marked, matches_⟩ := ihe k c _ _ second sits'' st right
        refine ⟨p, ?_, matches_⟩
        cases m with
        | label l => exact marked
        | case v =>
          simp only [Marked, casesAt, fold]
          refine List.mem_append_right _ ?_
          cases z : isZ e with
          | true =>
            rw [isZ_eq z] at right
            cases right
          | false => simpa [Marked, elseAt, z] using marked

theorem while_found {m : Mark} {t : Test ε} {s : Stmt ε} (ih : Found F m s) (late : Bool) {k : Cont ε} {c : Context} {f : Flow} {a : Nat}
    (has : Has F a (whileItems late t a (items s ⟨a + 2, a + 1⟩ ⟨f.canreach, t.exits⟩ (a + 3 + testSize t))))
    (entered : (f.canreach = true ∨ drops s = false) ∧ Entered s ⟨true, t.exits⟩) {w : Bool} (placed : Placed F.declared true true w s)
    (sits : Sits F k c (flow (.OWHILE t s) f) (a + size (.OWHILE t s) f)) {st : State ε} (found : find m s (.loop t s k) = some st) :
    ∃ p, Marked F (.OWHILE t s) f a m p ∧ Match F st p := by
  obtain ⟨while_, -⟩ := while_parts late has entered placed
  obtain ⟨p, marked, matches_⟩ := ih (.loop t s k) _ _ _ while_.body (while_.sits sits) st found
  refine ⟨p, ?_, matches_⟩
  cases m with
  | label l => exact marked
  | case v =>
    obtain ⟨-, -, same, -⟩ := body_items entered.1 t.exits
    simpa [Marked, casesAt, same] using marked

/-- The parts of a `for` at `a`, and the end of its body. -/
theorem ofor_parts {init : List ε} {t : Option (Test ε)} {es : List ε} {s : Stmt ε} {k : Cont ε} {c : Context} {f : Flow} {a : Nat}
    (piece : Piece F k.continue_.isSome k.break_.isSome (.OFOR init t es s) c f a) (entered : Entered s ⟨true, exits t⟩)
    (sits : Sits F k c (flow (.OFOR init t es s) f) (a + size (.OFOR init t es s) f)) :
    ∃ out h, ForAt F t es s (a + init.length) out h ∧ Sits F k c h out ∧
      Has F a (init.map fun e => .op (.eval e)) ∧
      (codeOf F)[a + init.length]? = some (.op (.jump (a + init.length + 3 + es.length))) := by
  obtain ⟨w, placed⟩ := piece.placed
  have has := piece.has
  rw [items_for] at has
  obtain ⟨for_, entry⟩ := for_parts (has.right (b := a + init.length) (by simp)) rfl entered (w := w) placed f.nbreak
  refine ⟨_, _, for_, ?_, has.left, entry⟩
  have out : a + size (.OFOR init t es s) f = a + init.length + 3 + es.length + optTestSize t + size s ⟨true, exits t⟩ +
      (if (flow s ⟨true, exits t⟩).canreach then ([.op (.jump (a + init.length + 1))] : List (Item ε)) else []).length := by
    unfold exits
    rw [size]
    split <;> simp <;> omega
  rw [out] at sits
  exact sits

theorem find_match (m : Mark) (s : Stmt ε) : Found F m s := by
  induction s with
  | OLIST s t ihs iht => exact olist_found ihs iht
  | OIF t s e ihs ihe => exact oif_found ihs ihe
  | OWHILE t s ih =>
    intro k c f a piece sits st found
    have entered := piece.entered
    rw [Entered] at entered
    rcases entered with dead | entered
    · exact (Found.dead found dead).elim
    · obtain ⟨w, placed⟩ := piece.placed
      exact while_found ih false piece.has entered (w := w) placed sits found
  | ODWHILE t s ih =>
    intro k c f a piece sits st found
    have entered := piece.entered
    rw [Entered] at entered
    rcases entered with dead | entered
    · exact (Found.dead found dead).elim
    · obtain ⟨w, placed⟩ := piece.placed
      exact while_found ih true piece.has entered (w := w) placed sits found
  | OFOR init t es s ih =>
    intro k c f a piece sits st found
    have entered := piece.entered
    rw [Entered] at entered
    rcases entered with dead | entered
    · exact (Found.dead found dead).elim
    · obtain ⟨out, h, for_, sits', -, -⟩ := ofor_parts piece entered sits
      obtain ⟨p, marked, matches_⟩ := ih (.inc t es s k) _ _ _ for_.body (for_.sits sits') st found
      refine ⟨p, ?_, matches_⟩
      cases m <;> exact marked
  | OSWITCH e s ih =>
    intro k c f a piece sits st found
    have entered := piece.entered
    rw [Entered] at entered
    rcases entered with dead | entered
    · exact (Found.dead found dead).elim
    · cases m with
      | case v => cases found
      | label l =>
        obtain ⟨-, -, -, body, sits'⟩ := switch_parts piece entered sits
        obtain ⟨p, marked, matches_⟩ := ih (.switch k) _ _ _ body sits' st found
        exact ⟨p, marked, matches_⟩
  | OCASE v =>
    intro k c f a piece sits st found
    rw [find] at found
    split at found
    · rename_i same
      cases found
      subst same
      exact ⟨a, List.mem_singleton_self _, match_nil (f := ⟨true, f.nbreak⟩) rfl sits⟩
    · cases found
  | OLABEL l =>
    intro k c f a piece sits st found
    rw [find] at found
    split at found
    · rename_i same
      cases found
      subst same
      have here := piece.has.head
      have next := sits.via (.single (moves_jump ((codgen_image F).label here)))
      exact ⟨a, here, match_nil (f := ⟨true, f.nbreak⟩) rfl next⟩
    · cases found
  | _ =>
    intro k c f a piece sits st found
    cases found

/-! The branch of a switch. -/

section Table

variable {cs : List (Option Int × Nat)} (nodup : (cs.map Prod.fst).Nodup)

def values (cs : List (Option Int × Nat)) : List (Int × Nat) := cs.filterMap fun c => c.1.map fun v => (v, c.2)

def dflts (cs : List (Option Int × Nat)) : List (Option Int × Nat) := cs.filter fun c => c.1.isNone

theorem values_missing {v : Int} (absent : some v ∉ cs.map Prod.fst) : (values cs).lookup v = none := by
  rw [List.lookup_eq_none_iff]
  intro c within
  obtain ⟨⟨w, p⟩, mem, eq⟩ := List.mem_filterMap.mp within
  obtain ⟨x, rfl, rfl⟩ := Option.map_eq_some_iff.mp eq
  simp only [bne_iff_ne, ne_eq]
  rintro rfl
  exact absent (List.mem_map_of_mem mem)

include nodup in
theorem values_lookup {v : Int} {p : Nat} (mem : (some v, p) ∈ cs) : (values cs).lookup v = some p := by
  induction cs with
  | nil => cases mem
  | cons c cs ih =>
    rw [List.map_cons, List.nodup_cons] at nodup
    rcases List.mem_cons.mp mem with rfl | later
    · simp [values]
    · have differ : c.1 ≠ some v := fun same => nodup.1 (same ▸ List.mem_map_of_mem later)
      have rest := ih nodup.2 later
      obtain ⟨w, q⟩ := c
      cases w with
      | none => simpa [values] using rest
      | some w =>
        have other : (v == w) = false := beq_false_of_ne fun same => differ (by rw [same])
        simpa [values, List.lookup_cons, other] using rest

theorem dflts_missing (absent : none ∉ cs.map Prod.fst) : dflts cs = [] := by
  refine List.filter_eq_nil_iff.mpr fun c mem isNone => absent ?_
  rw [← Option.isNone_iff_eq_none.mp isNone]
  exact List.mem_map_of_mem mem

include nodup in
theorem dflts_eq {p : Nat} (mem : (none, p) ∈ cs) : dflts cs = [(none, p)] := by
  induction cs with
  | nil => cases mem
  | cons c cs ih =>
    rw [List.map_cons, List.nodup_cons] at nodup
    rcases List.mem_cons.mp mem with rfl | later
    · have rest : dflts cs = [] := dflts_missing nodup.1
      unfold dflts at rest ⊢
      simp [rest]
    · have differ : c.1 ≠ none := fun same => nodup.1 (same ▸ List.mem_map_of_mem later)
      have rest := ih nodup.2 later
      unfold dflts at rest ⊢
      simp [differ, rest]

end Table

/-! One step. -/

def weight : Stmt ε → Nat
  | .OLIST s t | .OIF _ s t => weight s + weight t + 1
  | .OFOR _ _ _ s => weight s + 1
  | .OCASE _ => 1
  | _ => 0

def depth : Cont ε → Nat
  | .seq s k => 2 * weight s + 1 + depth k
  | .cond _ _ s _ => 2 * weight s + 1
  | _ => 0

/-- What decreases when the source goes on and the code does not. -/
def rank : State ε → Nat
  | .run s k => 2 * weight s + depth k
  | .done => 0

def Simulated (F : Function_ ε) (st : State ε) (p : Nat) : Prop :=
  Follows (step F.body) (fetch F.codgen.code) (Match F) rank st p

theorem test_follows {t : Test ε} {st yes no : State ε} {b p out : Nat} (moves : step F.body st = decides t yes no)
    (path : Silently (fetch F.codgen.code) b p) (has : Has F p ((testCode t p out).map .op)) (true_ : Match F yes (p + testSize t))
    (false_ : t.ends = true → Match F no out) : Simulated F st b := by
  have image := codgen_image F
  rcases t with v | e
  · cases v with
    | true => exact .onward moves (Relation.TransGen.tail' path (moves_op has.head)) true_
    | false => exact .onward moves (Relation.TransGen.tail' path (moves_op has.head)) (false_ rfl)
  · refine .event moves path (by rw [fetch, image.op has.head]) fun v => ?_
    by_cases zero : v = 0
    · simpa [zero] using false_ rfl
    · simpa [zero, testSize] using true_

/-- A step of the source for which there is no code of its own. -/
theorem quiet_follows {st st' : State ε} {b p : Nat} (moves : step F.body st = .silent st') (less : rank st' < rank st)
    (path : Silently (fetch F.codgen.code) b p) (related : Match F st' p) : Simulated F st b := by
  rcases Relation.reflTransGen_iff_eq_or_transGen.mp path with same | onward
  · subst same
    exact .stays moves less related
  · exact .onward moves onward related

theorem piece_exprs {loop breaks : Bool} {es : List ε} {c : Context} {f : Flow} {p : Nat} (has : Has F p (es.map fun e => .op (.eval e))) :
    Piece F loop breaks (.exprs es) c f p :=
  ⟨has, by simp [Entered], false, by simp [Placed]⟩

/-- The steps of a continuation. -/
theorem nil_follows {k : Cont ε} {c : Context} {f : Flow} {b : Nat} (reach : f.canreach = true) (sits : Sits F k c f b) :
    Simulated F (.run (.exprs []) k) b := by
  have image := codgen_image F
  cases k with
  | stop =>
    unfold Sits at sits
    obtain ⟨p, g, below, path, ret⟩ := sits
    exact .halt rfl (path reach) (by rw [fetch, ret (below.1 reach)])
  | seq t k =>
    unfold Sits at sits
    obtain ⟨p, g, below, path, piece, sits⟩ := sits
    refine quiet_follows rfl ?_ (path reach) ⟨c, g, below.1 reach, piece, sits⟩
    simp only [rank, weight, depth]
    omega
  | loop t s k =>
    unfold Sits at sits
    obtain ⟨p, g, below, path, a, out, o, h, rfl, rfl, -, while_, sits⟩ := sits
    refine test_follows rfl (path reach) while_.test ⟨_, _, rfl, while_.body, while_.sits sits⟩ fun ends => ?_
    have some_ : (flow s ⟨true, t.exits⟩).nbreak ≠ 0 := Below.flow (by simp [Test.exits, ends])
    exact match_nil (while_.leaves some_) (sits.via (.single (moves_op while_.brk)))
  | inc t es s k =>
    unfold Sits at sits
    obtain ⟨p, g, below, path, a, out, o, h, rfl, rfl, -, for_, sits⟩ := sits
    refine .onward rfl (Relation.TransGen.tail' (path reach) (moves_op for_.again))
      ⟨⟨a + 2, a + 1⟩, ⟨true, 0⟩, rfl, piece_exprs for_.inc, ?_⟩
    exact Sits.cond for_ sits (fun zero => absurd rfl zero) fun _ => .refl
  | cond t es s k =>
    unfold Sits at sits
    obtain ⟨p, g, below, path, a, out, o, h, rfl, rfl, -, for_, sits⟩ := sits
    cases t with
    | none =>
      refine quiet_follows rfl ?_ (path reach) ⟨_, _, rfl, for_.body, for_.sits sits⟩
      simp only [rank, weight, depth]
      omega
    | some t =>
      refine test_follows rfl (path reach) for_.test ⟨_, _, rfl, for_.body, for_.sits sits⟩ fun ends => ?_
      have some_ : (flow s ⟨true, exits (some t)⟩).nbreak ≠ 0 := Below.flow (by simp [exits, Test.exits, ends])
      exact match_nil (for_.leaves some_) (sits.via (.single (moves_op for_.brk)))
  | switch k =>
    unfold Sits at sits
    obtain ⟨p, g, below, path, out, o, h, rfl, -, here, reach', sits⟩ := sits
    exact .onward rfl (Relation.TransGen.tail' (path reach) (moves_op here)) (match_nil (reach' (Or.inl (below.1 reach))) sits)

/-! The statements; their code is at `a`. -/

section Statements

variable {k : Cont ε} {c : Context} {f : Flow} {a : Nat}

theorem folded_const {t : Test ε} {s e : Stmt ε} {v : Bool} (fold : folded t s e = some v) : t = .const v := by
  unfold folded at fold
  split at fold
  · split at fold
    · cases fold
      rfl
    · cases fold
  · cases fold

theorem oif_follows {t : Test ε} {s e : Stmt ε} (reach : f.canreach = true)
    (piece : Piece F k.continue_.isSome k.break_.isSome (.OIF t s e) c f a)
    (sits : Sits F k c (flow (.OIF t s e) f) (a + size (.OIF t s e) f)) : Simulated F (.run (.OIF t s e) k) a := by
  have entered := piece.entered
  obtain ⟨w, placed⟩ := piece.placed
  rw [Entered] at entered
  replace entered := entered.resolve_left fun dead => by rw [reach] at dead; cases dead.1
  cases fold : folded t s e with
  | none =>
    simp only [fold] at entered
    obtain ⟨test, ⟨first, sits'⟩, second, sits''⟩ := if_parts fold piece entered sits
    exact test_follows rfl .refl test ⟨c, _, rfl, first, sits'⟩ fun _ => ⟨c, _, rfl, second, sits''⟩
  | some v =>
    have const := folded_const fold
    have has := piece.has
    simp only [fold] at entered
    simp only [items, size, fold] at has sits
    subst const
    cases v with
    | true =>
      have below : Below (flow s ⟨true, f.nbreak⟩) (flow (.OIF (.const true) s e) f) := by
        have more := flow_nbreak e ⟨true, (flow s ⟨true, f.nbreak⟩).nbreak⟩
        refine ⟨fun reach => by simp [flow, fold, reach], fun some_ => ?_⟩
        simp only [flow, fold]
        exact fun none_ => some_ (Nat.le_zero.mp (none_ ▸ more))
      refine quiet_follows rfl ?_ .refl ⟨c, ⟨true, f.nbreak⟩, rfl, ⟨has, entered, w, placed.1⟩, sits.mono below⟩
      simp only [rank, weight, if_true]
      omega
    | false =>
      have below : Below (flow e ⟨true, (flow s ⟨true, f.nbreak⟩).nbreak⟩) (flow (.OIF (.const false) s e) f) :=
        ⟨fun reach => by simp [flow, fold, reach], fun some_ => by simpa [flow, fold] using some_⟩
      refine quiet_follows rfl ?_ .refl
        ⟨c, ⟨true, (flow s ⟨true, f.nbreak⟩).nbreak⟩, rfl, ⟨has, entered, w, placed.2⟩, sits.mono below⟩
      simp only [rank, weight, Bool.false_eq_true, if_false]
      omega

theorem oswitch_follows {e : ε} {s : Stmt ε} (reach : f.canreach = true)
    (piece : Piece F k.continue_.isSome k.break_.isSome (.OSWITCH e s) c f a)
    (sits : Sits F k c (flow (.OSWITCH e s) f) (a + size (.OSWITCH e s) f)) : Simulated F (.run (.OSWITCH e s) k) a := by
  have entered := piece.entered
  obtain ⟨w, placed⟩ := piece.placed
  rw [Entered] at entered
  replace entered := entered.resolve_left fun dead => by rw [reach] at dead; cases dead.1
  obtain ⟨head, brk, swit, body, sits'⟩ := switch_parts piece entered sits
  have names : (casesAt s ⟨f.canreach, 0⟩ (a + 2)).reverse.map Prod.fst = (casesOf s).reverse := by
    rw [List.map_reverse, casesAt_fst]
  have nodup : ((casesAt s ⟨f.canreach, 0⟩ (a + 2)).reverse.map Prod.fst).Nodup := by
    rw [names, List.nodup_reverse]
    exact placed.2
  have found : ∀ v st, find (.case v) s (.switch k) = some st →
      ∃ p, (v, p) ∈ (casesAt s ⟨f.canreach, 0⟩ (a + 2)).reverse ∧ Match F st p := by
    intro v st found
    obtain ⟨p, marked, matches_⟩ := find_match (.case v) s (.switch k) _ _ _ body sits' st found
    exact ⟨p, List.mem_reverse.mpr marked, matches_⟩
  have missing : ∀ v, find (.case v) s (.switch k) = none → v ∉ (casesAt s ⟨f.canreach, 0⟩ (a + 2)).reverse.map Prod.fst := by
    intro v none_ within
    rw [names, List.mem_reverse] at within
    have some_ := (find_isSome (.case v) s (.switch k)).mpr within
    rw [none_] at some_
    cases some_
  generalize (casesAt s ⟨f.canreach, 0⟩ (a + 2)).reverse = cs at *
  refine .event rfl (.single (moves_op head)) (by rw [fetch, (codgen_image F).op swit, switchCode]) fun v => ?_
  change Match F _ (((values cs).lookup v).getD (((dflts cs).getLast?.map Prod.snd).getD (a + 1)))
  cases first : find (.case (some v)) s (.switch k) with
  | some st =>
    obtain ⟨p, mem, matches_⟩ := found _ _ first
    rw [values_lookup nodup mem]
    exact matches_
  | none =>
    rw [values_missing (missing _ first)]
    cases second : find (.case none) s (.switch k) with
    | some st =>
      obtain ⟨p, mem, matches_⟩ := found _ _ second
      rw [dflts_eq nodup mem]
      exact matches_
    | none =>
      have absent := missing _ second
      rw [dflts_missing absent]
      refine match_nil ?_ (sits.via (.single (moves_op brk)))
      rw [names, List.mem_reverse] at absent
      simp [flow, absent]

end Statements

/-! Whole functions. -/

variable (entered : Entered F.body ⟨true, 0⟩)

include entered in
theorem body_piece : Piece F false false F.body ⟨0, 0⟩ ⟨true, 0⟩ 0 ∧ Sits F .stop ⟨0, 0⟩ (flow F.body ⟨true, 0⟩) (0 + size F.body ⟨true, 0⟩) := by
  have has : Has F 0 (items F.body ⟨0, 0⟩ ⟨true, 0⟩ 0 ++ [.op .ret]) := by
    intro i x here
    rwa [Nat.zero_add]
  refine ⟨⟨has.left, entered, false, F.placed⟩, ?_⟩
  unfold Sits
  refine ⟨_, _, Below.refl _, fun _ => .refl, fun _ => (codgen_image F).op (has.right ?_).head⟩
  rw [items_length]

include entered in
theorem ogoto_follows {k : Cont ε} {c : Context} {f : Flow} {a : Nat} {l : Label}
    (piece : Piece F k.continue_.isSome k.break_.isSome (.OGOTO l) c f a) : Simulated F (.run (.OGOTO l) k) a := by
  obtain ⟨w, placed⟩ := piece.placed
  have known : F.declared l = true := placed
  obtain ⟨q, label, path⟩ := (codgen_image F).goto piece.has.head known
  obtain ⟨body, sits⟩ := body_piece entered
  have occurs : Occurs (.label l) F.body := by simpa [Function_.declared, Occurs] using known
  obtain ⟨st, found⟩ := Option.isSome_iff_exists.mp ((find_isSome (.label l) F.body .stop).mpr occurs)
  obtain ⟨p, marked, matches_⟩ := find_match (.label l) F.body .stop _ _ _ body sits st found
  cases (codgen_image F).unique label marked
  refine .onward ?_ path matches_
  rw [step, found]
  rfl

include entered in
theorem run_follows (s : Stmt ε) {k : Cont ε} {c : Context} {f : Flow} {a : Nat} (reach : f.canreach = true)
    (piece : Piece F k.continue_.isSome k.break_.isSome s c f a) (sits : Sits F k c (flow s f) (a + size s f)) :
    Simulated F (.run s k) a := by
  have image := codgen_image F
  have inside := piece.entered
  rw [Entered.eq_def] at inside
  replace inside := inside.resolve_left fun dead => by rw [reach] at dead; cases dead.1
  cases s with
  | exprs es =>
    cases es with
    | nil => exact nil_follows reach sits
    | cons e es =>
      have has := piece.has
      rw [items, List.map_cons] at has
      refine .event rfl .refl (by rw [fetch, image.op has.head]) fun _ => ⟨c, f, reach, piece_exprs has.tail, ?_⟩
      rwa [size, List.length_cons, Nat.add_comm es.length, ← Nat.add_assoc] at sits
  | OLIST s t =>
    obtain ⟨first, second⟩ := olist_parts piece inside
    rw [size, ← Nat.add_assoc] at sits
    refine quiet_follows rfl ?_ .refl ⟨c, f, reach, first, Sits.seq second sits⟩
    simp only [rank, weight, depth]
    omega
  | OIF t s e => exact oif_follows reach piece sits
  | OWHILE t s =>
    obtain ⟨w, placed⟩ := piece.placed
    obtain ⟨while_, entry⟩ := while_parts false piece.has inside (w := w) placed
    have sits' : Sits F (.loop t s k) ⟨a + 2, a + 1⟩ ⟨true, 0⟩ (a + 3) :=
      Sits.loop while_ sits (fun zero => absurd rfl zero) fun _ => .refl
    exact .onward rfl (.single (moves_op entry)) (match_nil rfl sits')
  | ODWHILE t s =>
    obtain ⟨w, placed⟩ := piece.placed
    obtain ⟨while_, entry⟩ := while_parts true piece.has inside (w := w) placed
    exact .onward rfl (.single (moves_op entry)) ⟨_, _, rfl, while_.body, while_.sits sits⟩
  | OFOR init t es s =>
    obtain ⟨out, h, for_, sits', first, entry⟩ := ofor_parts piece inside sits
    refine quiet_follows rfl ?_ .refl ⟨⟨a + init.length + 2, a + init.length + 1⟩, ⟨true, 0⟩, rfl, piece_exprs first, ?_⟩
    · simp only [rank, weight, depth]
      omega
    · exact Sits.cond for_ sits' (fun zero => absurd rfl zero) fun _ => .single (moves_op entry)
  | OSWITCH e s => exact oswitch_follows reach piece sits
  | OCASE v =>
    refine quiet_follows rfl ?_ .refl (match_nil (f := ⟨true, f.nbreak⟩) rfl sits)
    simp only [rank, weight]
    omega
  | OLABEL l =>
    refine .onward rfl (.single (moves_jump (image.label piece.has.head))) (match_nil (f := ⟨true, f.nbreak⟩) rfl sits)
  | OGOTO l => exact ogoto_follows entered piece
  | OBREAK =>
    obtain ⟨w, placed⟩ := piece.placed
    obtain ⟨k', out⟩ := Option.isSome_iff_exists.mp placed
    have has := piece.has
    simp only [items, reach, if_true] at has
    obtain ⟨o, h, reach', sits'⟩ := sits.break_ (by simp [flow, reach]) out
    refine .onward ?_ (.single (moves_op has.head)) (match_nil reach' sits')
    rw [step, out]
    rfl
  | OCONTINUE =>
    obtain ⟨w, placed⟩ := piece.placed
    obtain ⟨k', again⟩ := Option.isSome_iff_exists.mp placed
    obtain ⟨o, h, reach', sits'⟩ := sits.continue_ again
    refine .onward ?_ (.single (moves_op piece.has.head)) (match_nil reach' sits')
    rw [step, again]
    rfl
  | ORETURN e =>
    cases e with
    | none => exact .halt rfl .refl (by rw [fetch, image.op piece.has.head])
    | some e => exact .event rfl .refl (by rw [fetch, image.op piece.has.head]) fun _ => image.op piece.has.tail.head

include entered in
theorem simulation (st : State ε) (p : Nat) (related : Match F st p) : Simulated F st p := by
  cases st with
  | run s k =>
    obtain ⟨c, f, reach, piece, sits⟩ := related
    exact run_follows entered s reach piece sits
  | done =>
    have ret : F.codgen.code[p]? = some .ret := related
    exact .halt rfl .refl (by rw [fetch, ret])

/-- If no loop is entered in a way that `gen` does not see, the emitted code does
what the statement means. -/
theorem codgen_preserves (F : Function_ ε) (entered : Entered F.body ⟨true, 0⟩) : F.Preserved := by
  obtain ⟨piece, sits⟩ := body_piece entered
  have start : Match F (.run F.body .stop) 0 := ⟨_, _, rfl, piece, sits⟩
  intro values events returned
  exact run_iff (simulation entered) start values events returned

/-- `goto L; for (;;) { break; L: f(); } g();` -/
def forEntry : Function_ Nat where
  body := .OLIST (.OGOTO 1) (.OLIST (.OFOR [] none [] (.OLIST .OBREAK (.OLIST (.OLABEL 1) (.exprs [7])))) (.exprs [8]))
  labels_nodup := by decide
  placed := by simp [Placed, labels]

theorem forEntry_preserved : Entered forEntry.body ⟨true, 0⟩ ∧ forEntry.Preserved := by
  have entered : Entered forEntry.body ⟨true, 0⟩ := by simp [forEntry, Entered]
  exact ⟨entered, codgen_preserves forEntry entered⟩

/-- `goto L; while (1) { break; L: f(); } g();` -/
def whileEntry : Function_ Nat where
  body := .OLIST (.OGOTO 1) (.OLIST (.OWHILE (.const true) (.OLIST .OBREAK (.OLIST (.OLABEL 1) (.exprs [7])))) (.exprs [8]))
  labels_nodup := by decide
  placed := by simp [Placed, labels]

/-- The break is left out, and `f` is called for ever. -/
theorem whileEntry_loops : ¬ whileEntry.Preserved := by
  intro preserved
  have source : Run (step whileEntry.body) (.run whileEntry.body .stop) [0, 0] [7, 8] true := by
    refine .silent rfl (.silent rfl (.silent rfl (.event rfl ?_)))
    refine .silent rfl (.silent rfl (.silent rfl (.silent rfl (.event rfl ?_))))
    exact .halt rfl
  have code : whileEntry.codgen.code =
      [.jump 6, .jump 4, .jump 4, .jump 9, .jump 6, .jump 3, .jump 7, .eval 7, .jump 2, .eval 8, .ret] := rfl
  have run := (preserved _ _ _).mp source
  rw [code] at run
  obtain ⟨-, second⟩ := ((run.after_silent rfl).after_silent rfl).after_event rfl
  obtain ⟨differ, -⟩ := ((((second.after_silent rfl).after_silent rfl).after_silent rfl).after_silent rfl).after_event rfl
  cases differ

end Goken.Proofs.GenRun
