import Mathlib.Algebra.BigOperators.Group.Finset.Basic
import Mathlib.Algebra.Order.BigOperators.Group.Finset
import Mathlib.Data.List.TakeWhile
import Goken.Lib.Nesting
import Goken.Scopes

/-! The scopes that the wasm compiler derives from branches. Blocks are widened
until none is cut by another scope; a block that cuts a loop is refused. Two loops
that cut each other are not, and the sweep then closes scopes where they do not end. -/

namespace Goken.Proofs.Scopes
open Goken Lib Scopes

/-! Branches. -/

def BranchTo (live : List Prog) (src dst : Nat) : Prop := (live[src]?).bind Prog.target = some dst

instance (live : List Prog) (src dst : Nat) : Decidable (BranchTo live src dst) := inferInstanceAs (Decidable (_ = _))

/-- A back edge passes over the target of another one, which lies after every back edge to its own target. -/
def LoopsCross (live : List Prog) : Prop :=
  ∃ k₁ k₂ a b, BranchTo live a k₁ ∧ BranchTo live b k₂ ∧ k₁ < k₂ ∧ k₂ ≤ a ∧ k₂ ≤ b ∧
    ∀ c, k₁ ≤ c → BranchTo live c k₁ → c < b

theorem safeopen_le (live : List Prog) (pos : Nat) : safeopen live pos ≤ pos := by
  induction pos with
  | zero => exact Nat.le_refl 0
  | succ j ih =>
    rw [safeopen]
    split_ifs
    · exact Nat.le_refl _
    · exact Nat.le_succ_of_le ih

theorem keep_lt (slot : Option Nat) (cand : Nat) :
    ∃ r, keep (· < ·) slot cand = some r ∧ r ≤ cand ∧ (∀ old, slot = some old → r ≤ old) ∧ (r = cand ∨ slot = some r) := by
  cases slot with
  | none => exact ⟨cand, rfl, Nat.le_refl _, nofun, .inl rfl⟩
  | some old =>
    by_cases better : cand < old
    · refine ⟨cand, by simp [keep, better], Nat.le_refl _, fun old' same => ?_, .inl rfl⟩
      cases same
      omega
    · refine ⟨old, by simp [keep, better], by omega, fun old' same => ?_, .inr rfl⟩
      cases same
      exact Nat.le_refl _

theorem keep_gt (slot : Option Nat) (cand : Nat) :
    ∃ r, keep (· > ·) slot cand = some r ∧ cand ≤ r ∧ (∀ old, slot = some old → old ≤ r) ∧ (r = cand ∨ slot = some r) := by
  cases slot with
  | none => exact ⟨cand, rfl, Nat.le_refl _, nofun, .inl rfl⟩
  | some old =>
    by_cases better : cand > old
    · refine ⟨cand, by simp [keep, better], Nat.le_refl _, fun old' same => ?_, .inl rfl⟩
      cases same
      omega
    · refine ⟨old, by simp [keep, better], by omega, fun old' same => ?_, .inr rfl⟩
      cases same
      exact Nat.le_refl _

/-- What the marks say of the branches up to `n`. -/
structure Marked (live : List Prog) (n : Nat) (marks : Marks) : Prop where
  opened : ∀ src dst, src < n → BranchTo live src dst → src < dst → ∃ o, marks.blockopen dst = some o ∧ o ≤ safeopen live src
  origin : ∀ dst o, marks.blockopen dst = some o → ∃ src, BranchTo live src dst ∧ src < dst ∧ o = safeopen live src
  closed : ∀ src dst, src < n → BranchTo live src dst → dst ≤ src → ∃ c, marks.loopclose dst = some c ∧ src ≤ c
  source : ∀ dst c, marks.loopclose dst = some c → BranchTo live c dst ∧ dst ≤ c

theorem Marked.mark {live : List Prog} {n : Nat} {marks : Marks} (marked : Marked live n marks) : Marked live (n + 1) (mark live marks n) := by
  unfold Scopes.mark
  rcases target : (live[n]?).bind Prog.target with _ | dst
  · refine ⟨fun src dst small branch => ?_, marked.origin, fun src dst small branch => ?_, marked.source⟩
    · obtain rfl | small := Nat.eq_or_lt_of_le (Nat.le_of_lt_succ small)
      · exact absurd (target.symm.trans branch) nofun
      · exact marked.opened src dst small branch
    · obtain rfl | small := Nat.eq_or_lt_of_le (Nat.le_of_lt_succ small)
      · exact absurd (target.symm.trans branch) nofun
      · exact marked.closed src dst small branch
  · have here : ∀ {dst'}, BranchTo live n dst' → dst' = dst := fun branch => Option.some.inj (branch.symm.trans target)
    dsimp only
    split_ifs with forward
    · obtain ⟨r, kept, low, lower, origin⟩ := keep_lt (marks.blockopen dst) (safeopen live n)
      rw [kept]
      refine ⟨fun src dst' small branch ahead => ?_, fun dst' o opened => ?_, fun src dst' small branch back => ?_, marked.source⟩
      · by_cases same : dst' = dst
        · refine ⟨r, by simp [same], ?_⟩
          obtain rfl | small := Nat.eq_or_lt_of_le (Nat.le_of_lt_succ small)
          · exact low
          · obtain ⟨o, there, least⟩ := marked.opened src dst' small branch ahead
            exact Nat.le_trans (lower o (same ▸ there)) least
        · obtain rfl | small := Nat.eq_or_lt_of_le (Nat.le_of_lt_succ small)
          · exact absurd (here branch) same
          · simpa [Function.update_of_ne same] using marked.opened src dst' small branch ahead
      · by_cases same : dst' = dst
        · simp only [same, Function.update_self, Option.some.injEq] at opened
          subst same opened
          obtain rfl | old := origin
          · exact ⟨n, target, forward, rfl⟩
          · exact marked.origin dst' r old
        · simp only [Function.update_of_ne same] at opened
          exact marked.origin dst' o opened
      · obtain rfl | small := Nat.eq_or_lt_of_le (Nat.le_of_lt_succ small)
        · rw [here branch] at back
          omega
        · exact marked.closed src dst' small branch back
    · obtain ⟨r, kept, high, higher, source⟩ := keep_gt (marks.loopclose dst) n
      rw [kept]
      refine ⟨fun src dst' small branch ahead => ?_, marked.origin, fun src dst' small branch back => ?_, fun dst' c closed => ?_⟩
      · obtain rfl | small := Nat.eq_or_lt_of_le (Nat.le_of_lt_succ small)
        · rw [here branch] at ahead
          omega
        · exact marked.opened src dst' small branch ahead
      · by_cases same : dst' = dst
        · refine ⟨r, by simp [same], ?_⟩
          obtain rfl | small := Nat.eq_or_lt_of_le (Nat.le_of_lt_succ small)
          · exact high
          · obtain ⟨c, there, most⟩ := marked.closed src dst' small branch back
            exact Nat.le_trans most (higher c (same ▸ there))
        · obtain rfl | small := Nat.eq_or_lt_of_le (Nat.le_of_lt_succ small)
          · exact absurd (here branch) same
          · simpa [Function.update_of_ne same] using marked.closed src dst' small branch back
      · by_cases same : dst' = dst
        · simp only [same, Function.update_self, Option.some.injEq] at closed
          subst same closed
          obtain rfl | old := source
          · exact ⟨target, by omega⟩
          · exact marked.source dst' r old
        · simp only [Function.update_of_ne same] at closed
          exact marked.source dst' c closed

theorem marked (live : List Prog) : Marked live live.length (marks live) := by
  have run : ∀ n, Marked live n ((List.range n).foldl (mark live) ⟨fun _ => none, fun _ => none⟩) := by
    intro n
    induction n with
    | zero => exact ⟨nofun, nofun, nofun, nofun⟩
    | succ n ih =>
      rw [List.range_succ, List.foldl_append]
      exact ih.mark
  exact run live.length

theorem BranchTo.lt {live : List Prog} {src dst : Nat} (branch : BranchTo live src dst) : src < live.length := by
  obtain ⟨p, there, -⟩ := Option.bind_eq_some_iff.mp branch
  exact (List.getElem?_eq_some_iff.mp there).1

theorem BranchTo.inside {live : Live} {src dst : Nat} (branch : BranchTo live.progs src dst) : dst < live.progs.length := by
  obtain ⟨p, there, target⟩ := Option.bind_eq_some_iff.mp branch
  unfold Prog.target at target
  split_ifs at target with branches
  have bounds := live.inside p (List.mem_of_getElem? there) branches
  cases target
  omega

/-! The scopes that are built. -/

/-- Blocks for the targets below `k`, loops for those below `l`. -/
structure Filed (marks : Marks) (k l : Nat) (b : Built) : Prop where
  block : ∀ sid < b.nscope, (b.scope sid).kind = .SBLOCK →
    (b.scope sid).close < k ∧ marks.blockopen (b.scope sid).close = some (b.scope sid).opening ∧
      b.blockid (b.scope sid).close = some sid
  loop : ∀ sid < b.nscope, (b.scope sid).kind = .SLOOP →
    (b.scope sid).opening < l ∧ (∃ c, marks.loopclose (b.scope sid).opening = some c ∧ (b.scope sid).close = c + 1) ∧
      b.loopid (b.scope sid).opening = some sid
  blockid : ∀ k' < k, ∀ o, marks.blockopen k' = some o →
    ∃ sid < b.nscope, b.blockid k' = some sid ∧ b.scope sid = ⟨.SBLOCK, o, k'⟩
  loopid : ∀ k' < l, ∀ c, marks.loopclose k' = some c →
    ∃ sid < b.nscope, b.loopid k' = some sid ∧ b.scope sid = ⟨.SLOOP, k', c + 1⟩

section build
variable {marks : Marks} {k l : Nat} {b : Built}

theorem Filed.addBlock (filed : Filed marks k l b) : Filed marks (k + 1) l (addBlock k (marks.blockopen k) b) := by
  rcases opening : marks.blockopen k with _ | o
  · refine { filed with
      block := fun sid small kind => ?_
      blockid := fun k' small o opened => ?_ }
    · obtain ⟨below, rest⟩ := filed.block sid small kind
      exact ⟨Nat.lt_succ_of_lt below, rest⟩
    · obtain rfl | small := Nat.eq_or_lt_of_le (Nat.le_of_lt_succ small)
      · exact absurd (opening.symm.trans opened) nofun
      · exact filed.blockid k' small o opened
  · have old : ∀ {sid}, sid < b.nscope →
        (Scopes.addBlock k (some o) b).scope sid = b.scope sid := fun small => Function.update_of_ne (Nat.ne_of_lt small) _ _
    have new : (Scopes.addBlock k (some o) b).scope b.nscope = ⟨.SBLOCK, o, k⟩ := Function.update_self ..
    refine ⟨fun sid small kind => ?_, fun sid small kind => ?_, fun k' small o' opened => ?_, fun k' small c closed => ?_⟩
    · obtain rfl | small := Nat.eq_or_lt_of_le (Nat.le_of_lt_succ small)
      · rw [new]
        exact ⟨Nat.lt_succ_self k, opening, Function.update_self ..⟩
      · rw [old small] at kind ⊢
        obtain ⟨below, opened, id⟩ := filed.block sid small kind
        exact ⟨Nat.lt_succ_of_lt below, opened, by rw [← id]; exact Function.update_of_ne (Nat.ne_of_lt below) _ _⟩
    · obtain rfl | small := Nat.eq_or_lt_of_le (Nat.le_of_lt_succ small)
      · rw [new] at kind
        cases kind
      · rw [old small] at kind ⊢
        exact filed.loop sid small kind
    · obtain rfl | small := Nat.eq_or_lt_of_le (Nat.le_of_lt_succ small)
      · rw [opening] at opened
        cases opened
        exact ⟨b.nscope, Nat.lt_succ_self _, Function.update_self .., new⟩
      · obtain ⟨sid, known, id, scope⟩ := filed.blockid k' small o' opened
        exact ⟨sid, Nat.lt_succ_of_lt known, (Function.update_of_ne (Nat.ne_of_lt small) _ _).trans id, (old known).trans scope⟩
    · obtain ⟨sid, known, id, scope⟩ := filed.loopid k' small c closed
      exact ⟨sid, Nat.lt_succ_of_lt known, id, (old known).trans scope⟩

theorem Filed.addLoop (filed : Filed marks k l b) : Filed marks k (l + 1) (addLoop l (marks.loopclose l) b) := by
  rcases closing : marks.loopclose l with _ | c
  · refine { filed with
      loop := fun sid small kind => ?_
      loopid := fun k' small c closed => ?_ }
    · obtain ⟨below, rest⟩ := filed.loop sid small kind
      exact ⟨Nat.lt_succ_of_lt below, rest⟩
    · obtain rfl | small := Nat.eq_or_lt_of_le (Nat.le_of_lt_succ small)
      · exact absurd (closing.symm.trans closed) nofun
      · exact filed.loopid k' small c closed
  · have old : ∀ {sid}, sid < b.nscope →
        (Scopes.addLoop l (some c) b).scope sid = b.scope sid := fun small => Function.update_of_ne (Nat.ne_of_lt small) _ _
    have new : (Scopes.addLoop l (some c) b).scope b.nscope = ⟨.SLOOP, l, c + 1⟩ := Function.update_self ..
    refine ⟨fun sid small kind => ?_, fun sid small kind => ?_, fun k' small o opened => ?_, fun k' small c' closed => ?_⟩
    · obtain rfl | small := Nat.eq_or_lt_of_le (Nat.le_of_lt_succ small)
      · rw [new] at kind
        cases kind
      · rw [old small] at kind ⊢
        exact filed.block sid small kind
    · obtain rfl | small := Nat.eq_or_lt_of_le (Nat.le_of_lt_succ small)
      · rw [new]
        exact ⟨Nat.lt_succ_self l, ⟨c, closing, rfl⟩, Function.update_self ..⟩
      · rw [old small] at kind ⊢
        obtain ⟨below, closed, id⟩ := filed.loop sid small kind
        exact ⟨Nat.lt_succ_of_lt below, closed, by rw [← id]; exact Function.update_of_ne (Nat.ne_of_lt below) _ _⟩
    · obtain ⟨sid, known, id, scope⟩ := filed.blockid k' small o opened
      exact ⟨sid, Nat.lt_succ_of_lt known, id, (old known).trans scope⟩
    · obtain rfl | small := Nat.eq_or_lt_of_le (Nat.le_of_lt_succ small)
      · rw [closing] at closed
        cases closed
        exact ⟨b.nscope, Nat.lt_succ_self _, Function.update_self .., new⟩
      · obtain ⟨sid, known, id, scope⟩ := filed.loopid k' small c' closed
        exact ⟨sid, Nat.lt_succ_of_lt known, (Function.update_of_ne (Nat.ne_of_lt small) _ _).trans id, (old known).trans scope⟩

end build

theorem filed (live : List Prog) : Filed (marks live) live.length live.length (buildscopes live) := by
  have run : ∀ n, Filed (marks live) n n ((List.range n).foldl
      (fun b k => addLoop k ((marks live).loopclose k) (addBlock k ((marks live).blockopen k) b))
      ⟨0, fun _ => ⟨.SBLOCK, 0, 0⟩, fun _ => none, fun _ => none⟩) := by
    intro n
    induction n with
    | zero => exact ⟨nofun, nofun, nofun, nofun⟩
    | succ n ih =>
      rw [List.range_succ, List.foldl_append]
      exact ih.addBlock.addLoop
  exact run live.length

/-! Widening. -/

/-- Blocks may start earlier. -/
def Widened (scope scope' : Nat → Scope) : Prop :=
  ∀ sid, (scope' sid).kind = (scope sid).kind ∧ (scope' sid).close = (scope sid).close ∧
    (scope' sid).opening ≤ (scope sid).opening ∧ ((scope sid).kind = .SLOOP → (scope' sid).opening = (scope sid).opening)

theorem Widened.refl (scope : Nat → Scope) : Widened scope scope := fun _ => ⟨rfl, rfl, Nat.le_refl _, fun _ => rfl⟩

theorem Widened.trans {scope scope' scope'' : Nat → Scope} (first : Widened scope scope') (second : Widened scope' scope'') :
    Widened scope scope'' := by
  intro sid
  obtain ⟨kind, close, low, same⟩ := first sid
  obtain ⟨kind', close', low', same'⟩ := second sid
  refine ⟨kind'.trans kind, close'.trans close, Nat.le_trans low' low, fun loop => ?_⟩
  rw [same' (kind.trans loop), same loop]

/-- The block starts inside the other scope and ends after it. -/
def Cut (scope : Nat → Scope) (i j : Nat) : Prop :=
  (scope j).kind = .SBLOCK ∧ Nesting.Crosses (fun i => (scope i).opening) (fun i => (scope i).close) i j

/-- One pair: nothing, or a block that starts earlier. -/
theorem widen_cases (scope : Nat → Scope) (changed : Bool) (i j : Nat) :
    widen (scope, changed) (i, j) = (scope, changed) ∧ ¬ Cut scope i j ∨
      ∃ scope', widen (scope, changed) (i, j) = (scope', true) ∧ Widened scope scope' ∧
        (scope' j).opening < (scope j).opening := by
  simp only [widen]
  split_ifs with skip cut
  · refine .inl ⟨rfl, fun cut => ?_⟩
    obtain ⟨block, crosses⟩ := cut
    obtain same | other := skip
    · subst same
      exact Nat.lt_irrefl _ crosses.1
    · exact other block
  · obtain ⟨-, -, -, later⟩ := cut
    refine .inr ⟨_, rfl, fun sid => ?_, ?_⟩
    · by_cases same : sid = j
      · rw [same, Function.update_self]
        refine ⟨rfl, rfl, Nat.le_of_lt later, fun loop => ?_⟩
        exact absurd loop fun loop => skip (.inr (by rw [loop]; decide))
      · rw [Function.update_of_ne same]
        exact ⟨rfl, rfl, Nat.le_refl _, fun _ => rfl⟩
    · rw [Function.update_self]
      exact later
  · refine .inl ⟨rfl, fun crossing => cut ?_⟩
    obtain ⟨-, start, inside, after⟩ := crossing
    exact ⟨Nat.le_of_lt start, inside, after, start⟩

theorem foldl_widen (l : List (Nat × Nat)) (scope : Nat → Scope) (changed : Bool) :
    Widened scope (l.foldl widen (scope, changed)).1 ∧
      ((l.foldl widen (scope, changed)).2 = false →
        changed = false ∧ (l.foldl widen (scope, changed)).1 = scope ∧ ∀ ij ∈ l, ¬ Cut scope ij.1 ij.2) ∧
      ((l.foldl widen (scope, changed)).2 = true →
        changed = true ∨ ∃ ij ∈ l, ((l.foldl widen (scope, changed)).1 ij.2).opening < (scope ij.2).opening) := by
  induction l generalizing scope changed with
  | nil => exact ⟨.refl scope, fun same => ⟨same, rfl, nofun⟩, .inl⟩
  | cons ij rest ih =>
    obtain ⟨i, j⟩ := ij
    rw [List.foldl_cons]
    obtain ⟨same, uncut⟩ | ⟨scope', same, wider, lower⟩ := widen_cases scope changed i j
    · rw [same]
      obtain ⟨wider, still, moved⟩ := ih scope changed
      refine ⟨wider, fun quiet => ?_, fun loud => ?_⟩
      · obtain ⟨unchanged, equal, none'⟩ := still quiet
        exact ⟨unchanged, equal, List.forall_mem_cons.mpr ⟨uncut, none'⟩⟩
      · obtain before | ⟨ij, there, less⟩ := moved loud
        · exact .inl before
        · exact .inr ⟨ij, List.mem_cons_of_mem _ there, less⟩
    · rw [same]
      obtain ⟨wider', still, -⟩ := ih scope' true
      refine ⟨wider.trans wider', fun quiet => absurd (still quiet).1 (by decide), fun _ => .inr ⟨(i, j), List.mem_cons_self, ?_⟩⟩
      exact Nat.lt_of_le_of_lt (wider' j).2.2.1 lower

theorem mem_pairs {nscope i j : Nat} : (i, j) ∈ pairs nscope ↔ i < nscope ∧ j < nscope := by
  simp [pairs]

/-- The measure that every pass but the last lowers. -/
def totalOpening (nscope : Nat) (scope : Nat → Scope) : Nat := ∑ i ∈ Finset.range nscope, (scope i).opening

theorem extendscopes_ends (nscope : Nat) (scope : Nat → Scope) : ∀ fuel, totalOpening nscope scope < fuel →
    ∃ scope', extendscopes nscope fuel scope = some scope' ∧ Widened scope scope' ∧
      ∀ i < nscope, ∀ j < nscope, ¬ Cut scope' i j := by
  intro fuel
  induction fuel generalizing scope with
  | zero => exact fun low => absurd low (Nat.not_lt_zero _)
  | succ fuel ih =>
    intro low
    obtain ⟨wider, still, moved⟩ := foldl_widen (pairs nscope) scope false
    rw [extendscopes]
    dsimp only
    rcases after : (pairs nscope).foldl widen (scope, false) with ⟨scope', changed⟩
    rw [after] at wider still moved
    cases changed with
    | false =>
      obtain ⟨-, rfl, uncut⟩ := still rfl
      exact ⟨scope', rfl, wider, fun i small j small' => uncut (i, j) (mem_pairs.mpr ⟨small, small'⟩)⟩
    | true =>
      obtain ⟨⟨i, j⟩, there, less⟩ := (moved rfl).resolve_left (by decide)
      have lower : totalOpening nscope scope' < totalOpening nscope scope :=
        Finset.sum_lt_sum (fun i _ => (wider i).2.2.1) ⟨j, Finset.mem_range.mpr (mem_pairs.mp there).2, less⟩
      obtain ⟨scope'', ends, wider', uncut⟩ := ih scope' (by omega)
      exact ⟨scope'', ends, wider.trans wider', uncut⟩

/-! The order of emission. -/

def start (scope : Nat → Scope) (sid : Nat) : Nat := (scope sid).opening
def stop (scope : Nat → Scope) (sid : Nat) : Nat := (scope sid).close

section order
variable {scope : Nat → Scope}

theorem before_of_le {s t : Nat} (le : ¬ scopecmp (scope s) (scope t) > 0) : Nesting.Before (start scope) (stop scope) s t := by
  unfold scopecmp at le
  unfold Nesting.Before start stop
  split_ifs at le <;> omega

theorem before_of_gt {s t : Nat} (gt : scopecmp (scope s) (scope t) > 0) : Nesting.Before (start scope) (stop scope) t s := by
  unfold scopecmp at gt
  unfold Nesting.Before start stop
  split_ifs at gt <;> omega

theorem place_perm (order : List Nat) (t : Nat) : (place scope order t).Perm (t :: order) := by
  unfold place
  refine List.perm_middle.trans (List.Perm.cons t ?_)
  rw [← List.reverse_append, List.takeWhile_append_dropWhile, List.reverse_reverse]

theorem place_sorted {order : List Nat} (sorted : order.Pairwise (Nesting.Before (start scope) (stop scope))) (t : Nat) :
    (place scope order t).Pairwise (Nesting.Before (start scope) (stop scope)) := by
  let gt : Nat → Bool := fun s => scopecmp (scope s) (scope t) > 0
  have whole : order = (order.reverse.dropWhile gt).reverse ++ (order.reverse.takeWhile gt).reverse := by
    rw [← List.reverse_append, List.takeWhile_append_dropWhile, List.reverse_reverse]
  have parts := sorted
  rw [whole, List.pairwise_append] at parts
  obtain ⟨low, high, across⟩ := parts
  have after : ∀ s ∈ (order.reverse.takeWhile gt).reverse, Nesting.Before (start scope) (stop scope) t s := by
    intro s there
    have greater := List.mem_takeWhile_imp (List.mem_reverse.mp there)
    exact before_of_gt (of_decide_eq_true greater)
  have before : ∀ s ∈ (order.reverse.dropWhile gt).reverse, Nesting.Before (start scope) (stop scope) s t := by
    intro s there
    rcases first : order.reverse.dropWhile gt with _ | ⟨e, rest⟩
    · rw [first] at there
      cases there
    · have last : Nesting.Before (start scope) (stop scope) e t := by
        apply before_of_le
        have fails := List.head?_dropWhile_not gt order.reverse
        rw [first] at fails
        simpa [gt] using fails
      rw [first, List.reverse_cons] at there low
      obtain earlier | last' := List.mem_append.mp there
      · have order' := (List.pairwise_append.mp low).2.2 s earlier e List.mem_cons_self
        unfold Nesting.Before at order' last ⊢
        omega
      · rw [List.mem_singleton.mp last']
        exact last
  unfold place
  rw [List.pairwise_append]
  refine ⟨low, List.pairwise_cons.mpr ⟨after, high⟩, fun s there u later => ?_⟩
  obtain rfl | later := List.mem_cons.mp later
  · exact before s there
  · exact across s there u later

variable (scope) in
theorem sortscopes_spec (nscope : Nat) : (sortscopes nscope scope).Perm (List.range nscope) ∧
    (sortscopes nscope scope).Pairwise (Nesting.Before (start scope) (stop scope)) := by
  unfold sortscopes
  induction nscope with
  | zero => exact ⟨.nil, .nil⟩
  | succ n ih =>
    rw [List.range_succ, List.foldl_append]
    refine ⟨(place_perm _ n).trans ?_, place_sorted ih.2 n⟩
    exact (List.Perm.cons n ih.1).trans (List.perm_append_singleton n _).symm

end order

/-! What the emitted instructions mean. -/

/-- The label of a scope leads to the target: past the end of a block, back to the start of a loop. -/
def Lands (s : Scope) (pos k : Nat) : Prop :=
  pos < k ∧ s.kind = .SBLOCK ∧ s.close = k ∨ k ≤ pos ∧ s.kind = .SLOOP ∧ s.opening = k

/-- From live position `pos` on, with the open scopes, the innermost first: the instructions are the
live ones in their order, with `opened` put among them. A scope opens at its opening and closes at
its close, and a branch has the depth of the only open scope that leads to its target. -/
inductive Sound (live : List Prog) : List Scope → Nat → List Prog → List Scope → Prop where
  | done : Sound live [] live.length [] []
  | ends {s : Scope} {stack : List Scope} {pos : Nat} {out : List Prog} {opened : List Scope} (close : s.close = pos)
      (rest : Sound live stack pos out opened) : Sound live (s :: stack) pos (newprog .AENDCTL :: out) opened
  | starts {s : Scope} {stack : List Scope} {pos : Nat} {out : List Prog} {opened : List Scope} (opening : s.opening = pos)
      (rest : Sound live (s :: stack) pos out opened) :
      Sound live stack pos (newprog (control s.kind) :: out) (s :: opened)
  | plain {p : Prog} {stack : List Scope} {pos : Nat} {out : List Prog} {opened : List Scope} (here : live[pos]? = some p)
      (straight : p.target = none) (rest : Sound live stack (pos + 1) out opened) : Sound live stack pos (p :: out) opened
  | branch {p : Prog} {k d : Nat} {s : Scope} {stack : List Scope} {pos : Nat} {out : List Prog} {opened : List Scope}
      (here : live[pos]? = some p) (target : p.target = some k) (scope : stack[d]? = some s) (lands : Lands s pos k)
      (only : ∀ d' s', stack[d']? = some s' → Lands s' pos k → d' = d) (rest : Sound live stack (pos + 1) out opened) :
      Sound live stack pos ({ p with offset := d, type := .D_BRANCH } :: out) opened

/-- No more scopes around a position than the stack has room for. -/
def Shallow (nscope : Nat) (scope : Nat → Scope) : Prop :=
  ∀ pos, ((List.range nscope).filter fun i => (scope i).opening ≤ pos ∧ pos < (scope i).close).length ≤ MAXDEPTH

/-- Disjoint, or one inside the other. -/
def Apart (a b : Scope) : Prop :=
  a.close ≤ b.opening ∨ b.close ≤ a.opening ∨ a.opening ≤ b.opening ∧ b.close ≤ a.close ∨ b.opening ≤ a.opening ∧ a.close ≤ b.close

instance (a b : Scope) : Decidable (Apart a b) := inferInstanceAs (Decidable (_ ∨ _ ∨ _ ∨ _))

structure Good (live : List Prog) (nscope : Nat) (scope : Nat → Scope) (blockid loopid : Nat → Option Nat) : Prop where
  nested : ∀ i < nscope, ∀ j < nscope, Apart (scope i) (scope j)
  silent : (emit scope live nscope blockid loopid).2 = []
  sound : ∃ opened, Sound live [] 0 (emit scope live nscope blockid loopid).1 opened ∧
    opened.Perm ((List.range nscope).map scope)

/-- The scopes are there for the branches, and each is found by its target. -/
structure Ready (live : List Prog) (nscope : Nat) (scope : Nat → Scope) (blockid loopid : Nat → Option Nat) : Prop where
  proper : ∀ sid < nscope, (scope sid).opening < (scope sid).close ∧ (scope sid).close ≤ live.length
  forward : ∀ src k, BranchTo live src k → src < k →
    ∃ sid < nscope, blockid k = some sid ∧ (scope sid).kind = .SBLOCK ∧ (scope sid).close = k ∧ (scope sid).opening ≤ src
  backward : ∀ src k, BranchTo live src k → k ≤ src →
    ∃ sid < nscope, loopid k = some sid ∧ (scope sid).kind = .SLOOP ∧ (scope sid).opening = k ∧ src < (scope sid).close
  block : ∀ sid < nscope, (scope sid).kind = .SBLOCK → blockid (scope sid).close = some sid
  loop : ∀ sid < nscope, (scope sid).kind = .SLOOP → loopid (scope sid).opening = some sid

theorem ready {live : Live} {scope : Nat → Scope} (wider : Widened (buildscopes live.progs).scope scope) :
    Ready live.progs (buildscopes live.progs).nscope scope (buildscopes live.progs).blockid (buildscopes live.progs).loopid := by
  have built := filed live.progs
  have marked := marked live.progs
  constructor
  case proper =>
    intro sid small
    obtain ⟨kind, close, low, same⟩ := wider sid
    rw [close]
    cases form : ((buildscopes live.progs).scope sid).kind with
    | SBLOCK =>
      obtain ⟨below, opened, -⟩ := built.block sid small form
      obtain ⟨src, -, before, opening⟩ := marked.origin _ _ opened
      have := safeopen_le live.progs src
      omega
    | SLOOP =>
      obtain ⟨-, ⟨c, closed, close⟩, -⟩ := built.loop sid small form
      obtain ⟨branch, back⟩ := marked.source _ _ closed
      have := branch.lt
      omega
  case forward =>
    intro src k branch ahead
    obtain ⟨o, opened, early⟩ := marked.opened src k branch.lt branch ahead
    obtain ⟨sid, small, id, same⟩ := built.blockid k branch.inside o opened
    obtain ⟨kind, close, low, -⟩ := wider sid
    rw [same] at kind close low
    have := safeopen_le live.progs src
    exact ⟨sid, small, id, kind, close, Nat.le_trans low (Nat.le_trans early this)⟩
  case backward =>
    intro src k branch back
    obtain ⟨c, closed, late⟩ := marked.closed src k branch.lt branch back
    obtain ⟨sid, small, id, same⟩ := built.loopid k branch.inside c closed
    obtain ⟨kind, close, -, stays⟩ := wider sid
    rw [same] at kind close stays
    exact ⟨sid, small, id, kind, stays rfl, by rw [close]; exact Nat.lt_succ_of_le late⟩
  case block =>
    intro sid small form
    obtain ⟨kind, close, -, -⟩ := wider sid
    rw [close]
    exact (built.block sid small (kind.symm.trans form)).2.2
  case loop =>
    intro sid small form
    obtain ⟨kind, -, -, stays⟩ := wider sid
    rw [stays (kind.symm.trans form)]
    exact (built.loop sid small (kind.symm.trans form)).2.2

section sweeping
variable {live : List Prog} {nscope : Nat} {scope : Nat → Scope} {blockid loopid : Nat → Option Nat} {pos : Nat}
  {stack order : List Nat}

theorem Ready.unique (ready : Ready live nscope scope blockid loopid) {i j pos k : Nat} (small : i < nscope) (small' : j < nscope)
    (lands : Lands (scope i) pos k) (lands' : Lands (scope j) pos k) : i = j := by
  obtain ⟨ahead, kind, close⟩ | ⟨back, kind, opening⟩ := lands
  · obtain ⟨-, kind', close'⟩ | ⟨back', -, -⟩ := lands'
    · have one := ready.block i small kind
      have two := ready.block j small' kind'
      rw [close] at one
      rw [close', one] at two
      exact Option.some.inj two
    · omega
  · obtain ⟨ahead', -, -⟩ | ⟨-, kind', opening'⟩ := lands'
    · omega
    · have one := ready.loop i small kind
      have two := ready.loop j small' kind'
      rw [opening] at one
      rw [opening', one] at two
      exact Option.some.inj two

variable (live) in
theorem closing_sound (swept : Nesting.Swept (start scope) (stop scope) (List.range nscope) pos pos stack order) :
    Nesting.Swept (start scope) (stop scope) (List.range nscope) (pos + 1) pos (closing scope pos stack).1 order ∧
      ∀ out opened, Sound live ((closing scope pos stack).1.map scope) pos out opened →
        Sound live (stack.map scope) pos ((closing scope pos stack).2 ++ out) opened := by
  induction stack with
  | nil => exact ⟨swept.popped nofun, fun _ _ sound => sound⟩
  | cons sid stack ih =>
    rw [closing]
    split_ifs with ends
    · obtain ⟨after, sound⟩ := ih (swept.pop ends)
      exact ⟨after, fun out opened rest => .ends ends (sound out opened rest)⟩
    · refine ⟨swept.popped fun a first => ?_, fun _ _ sound => sound⟩
      cases first
      exact ends

theorem openings_sound (ready : Ready live nscope scope blockid loopid) (shallow : Shallow nscope scope)
    (nested : Nesting.Nested (start scope) (stop scope) (List.range nscope))
    (swept : Nesting.Swept (start scope) (stop scope) (List.range nscope) (pos + 1) pos stack order) :
    ∃ stack' order' out, openings scope pos stack order = (stack', order', out, []) ∧
      Nesting.Swept (start scope) (stop scope) (List.range nscope) (pos + 1) pos stack' order' ∧
      (∀ b ∈ order'.head?, start scope b ≠ pos) ∧
      ∀ rest, Sound live (stack'.map scope) pos rest (order'.map scope) → Sound live (stack.map scope) pos (out ++ rest) (order.map scope) := by
  induction order generalizing stack with
  | nil => exact ⟨stack, [], [], rfl, swept, nofun, fun _ sound => sound⟩
  | cons sid order ih =>
    by_cases starts : (scope sid).opening = pos
    · have known : sid < nscope := List.mem_range.mp (swept.later sid List.mem_cons_self).1
      have after := swept.push starts (ready.proper sid known).1 nested
      have room : ¬ stack.length ≥ MAXDEPTH := by
        have height := Nat.le_trans after.height (shallow pos)
        rw [List.length_cons] at height
        omega
      obtain ⟨stack', order', out, same, swept', stays, sound⟩ := ih after
      refine ⟨stack', order', newprog (control (scope sid).kind) :: out, ?_, swept', stays, fun rest inner => ?_⟩
      · simp only [openings, if_pos starts, if_neg room, same]
      · exact .starts starts (sound rest inner)
    · refine ⟨stack, sid :: order, [], ?_, swept, fun b first => ?_, fun _ sound => sound⟩
      · simp only [openings, if_neg starts]
      · cases first
        exact starts

theorem resolve_sound (ready : Ready live nscope scope blockid loopid)
    (swept : Nesting.Swept (start scope) (stop scope) (List.range nscope) (pos + 1) pos stack order)
    (stays : ∀ b ∈ order.head?, start scope b ≠ pos) {p : Prog} (here : live[pos]? = some p) :
    (resolve blockid loopid stack pos p).2 = [] ∧
      ∀ out opened, Sound live (stack.map scope) (pos + 1) out opened →
        Sound live (stack.map scope) pos ((resolve blockid loopid stack pos p).1 :: out) opened := by
  unfold resolve
  rcases target : p.target with _ | k
  · exact ⟨rfl, fun out opened sound => .plain here target sound⟩
  · have branch : BranchTo live pos k := Option.bind_eq_some_iff.mpr ⟨p, here, target⟩
    -- the scope of the branch is around it, so it is on the stack
    have found : ∃ sid < nscope, (if k > pos then blockid k else loopid k) = some sid ∧ Lands (scope sid) pos k ∧
        (scope sid).opening ≤ pos ∧ pos < (scope sid).close := by
      by_cases ahead : pos < k
      · obtain ⟨sid, small, id, kind, close, early⟩ := ready.forward pos k branch ahead
        exact ⟨sid, small, by rw [if_pos ahead, id], .inl ⟨ahead, kind, close⟩, early, by omega⟩
      · have back : k ≤ pos := Nat.le_of_not_lt ahead
        obtain ⟨sid, small, id, kind, opening, late⟩ := ready.backward pos k branch back
        exact ⟨sid, small, by rw [if_neg ahead, id], .inr ⟨back, kind, opening⟩, by omega, late⟩
    obtain ⟨sid, small, id, lands, early, late⟩ := found
    have held : sid ∈ stack := swept.holds stays (List.mem_range.mpr small) early late
    obtain ⟨d, index⟩ := Option.isSome_iff_exists.mp (List.isSome_idxOf?.mpr held)
    have there : stack[d]? = some sid := by
      obtain ⟨bound, same, -⟩ := List.idxOf?_eq_some_iff.mp index
      exact List.getElem?_eq_some_iff.mpr ⟨bound, same⟩
    have depth' : depth blockid loopid stack pos k = ((d : Int), []) := by simp only [depth, id, index]
    dsimp only
    rw [depth']
    refine ⟨rfl, fun out opened sound => .branch here target ?_ lands (fun d' s' other lands' => ?_) sound⟩
    · rw [List.getElem?_map, there]
      rfl
    · rw [List.getElem?_map, Option.map_eq_some_iff] at other
      obtain ⟨sid', there', rfl⟩ := other
      have small' : sid' < nscope := List.mem_range.mp (swept.inside sid' (List.mem_of_getElem? there')).1
      have same := ready.unique small' small lands' lands
      have distinct := (List.nodup_append.mp swept.distinct).1
      rw [same] at there'
      obtain ⟨bound, value⟩ := List.getElem?_eq_some_iff.mp there
      obtain ⟨bound', value'⟩ := List.getElem?_eq_some_iff.mp there'
      exact distinct.getElem_inj_iff.mp (value'.trans value.symm)

theorem sweep_sound (ready : Ready live nscope scope blockid loopid) (shallow : Shallow nscope scope)
    (nested : Nesting.Nested (start scope) (stop scope) (List.range nscope)) {rest : List Prog} (suffix : live.drop pos = rest)
    (inside : pos ≤ live.length) (swept : Nesting.Swept (start scope) (stop scope) (List.range nscope) pos pos stack order) :
    (sweep scope blockid loopid pos rest stack order).2 = [] ∧
      Sound live (stack.map scope) pos (sweep scope blockid loopid pos rest stack order).1 (order.map scope) := by
  induction rest generalizing pos stack order with
  | nil =>
    have last : pos = live.length := Nat.le_antisymm inside (List.drop_eq_nil_iff.mp suffix)
    subst last
    refine ⟨rfl, ?_⟩
    have none' : order = [] := by
      apply List.eq_nil_iff_forall_not_mem.mpr
      intro sid there
      obtain ⟨known, late⟩ := swept.later sid there
      have bounds := ready.proper sid (List.mem_range.mp known)
      unfold start at late
      omega
    subst none'
    have ends := swept.finish fun sid known => (ready.proper sid (List.mem_range.mp known)).2
    show Sound live (stack.map scope) live.length (stack.map fun _ => newprog .AENDCTL) []
    clear swept
    induction stack with
    | nil => exact .done
    | cons sid stack ih =>
      exact .ends (ends sid List.mem_cons_self) (ih fun a there => ends a (List.mem_cons_of_mem sid there))
  | cons p rest ih =>
    have here : live[pos]? = some p := by
      rw [← List.head?_drop, suffix]
      rfl
    have next : live.drop (pos + 1) = rest := by
      rw [← List.drop_drop, suffix]
      rfl
    have more : pos + 1 ≤ live.length := (List.getElem?_eq_some_iff.mp here).1
    obtain ⟨swept₁, closes⟩ := closing_sound live swept
    obtain ⟨stack₂, order₂, starts, same, swept₂, stays, opens⟩ := openings_sound ready shallow nested swept₁
    obtain ⟨quiet, resolved⟩ := resolve_sound ready swept₂ stays here
    obtain ⟨silent, sound⟩ := ih next more (swept₂.pushed stays)
    rcases first : closing scope pos stack with ⟨stack₁, ends⟩
    rw [first] at closes same opens
    simp only [sweep, first, same]
    refine ⟨by rw [quiet, silent]; rfl, ?_⟩
    rw [List.append_assoc]
    exact closes _ _ (opens _ (resolved _ _ sound))

end sweeping

/-! When the scopes nest. -/

theorem accepted_iff {nscope : Nat} {scope : Nat → Scope} : validatescopes nscope scope = false ↔
    ∀ i < nscope, ∀ j < nscope, (scope i).kind = .SLOOP → (scope j).kind = .SBLOCK →
      ¬ Nesting.Crosses (start scope) (stop scope) j i := by
  unfold validatescopes Nesting.Crosses start stop
  simp only [List.any_eq_false, List.mem_range, Bool.and_eq_true, decide_eq_true_eq, not_and, List.any_eq_true, not_exists]
  exact ⟨fun none' i small j small' loop block => none' i small loop j small' block,
    fun none' i small loop j small' block => none' i small j small' loop block⟩

theorem loopsCross_iff {live : Live} {scope : Nat → Scope} (wider : Widened (buildscopes live.progs).scope scope) :
    LoopsCross live.progs ↔ ∃ i < (buildscopes live.progs).nscope, ∃ j < (buildscopes live.progs).nscope,
      (scope i).kind = .SLOOP ∧ (scope j).kind = .SLOOP ∧ Nesting.Crosses (start scope) (stop scope) i j := by
  have built := filed live.progs
  have marked := marked live.progs
  -- the span of a loop, before and after the widening
  have span : ∀ sid < (buildscopes live.progs).nscope, (scope sid).kind = .SLOOP →
      ∃ c, (marks live.progs).loopclose (scope sid).opening = some c ∧ (scope sid).close = c + 1 := by
    intro sid small form
    obtain ⟨kind, close, -, stays⟩ := wider sid
    obtain ⟨-, ⟨c, closed, ends⟩, -⟩ := built.loop sid small (kind.symm.trans form)
    exact ⟨c, by rw [stays (kind.symm.trans form), closed], by rw [close, ends]⟩
  have loop : ∀ k c, (marks live.progs).loopclose k = some c →
      ∃ sid < (buildscopes live.progs).nscope, (scope sid).kind = .SLOOP ∧ (scope sid).opening = k ∧ (scope sid).close = c + 1 := by
    intro k c closed
    obtain ⟨sid, small, -, same⟩ := built.loopid k (marked.source k c closed).1.inside c closed
    obtain ⟨kind, close, -, stays⟩ := wider sid
    rw [same] at kind close stays
    exact ⟨sid, small, kind, stays rfl, close⟩
  constructor
  · rintro ⟨k₁, k₂, a, b, first, second, less, passes, back, last⟩
    obtain ⟨c₁, closed, late⟩ := marked.closed a k₁ first.lt first (by omega)
    obtain ⟨c₂, closed', late'⟩ := marked.closed b k₂ second.lt second back
    obtain ⟨branch, back₁⟩ := marked.source k₁ c₁ closed
    have before := last c₁ back₁ branch
    obtain ⟨i, small, kind, opening, close⟩ := loop k₁ c₁ closed
    obtain ⟨j, small', kind', opening', close'⟩ := loop k₂ c₂ closed'
    refine ⟨i, small, j, small', kind, kind', ?_⟩
    unfold Nesting.Crosses start stop
    omega
  · rintro ⟨i, small, j, small', kind, kind', crosses⟩
    obtain ⟨c₁, closed, close⟩ := span i small kind
    obtain ⟨c₂, closed', close'⟩ := span j small' kind'
    obtain ⟨first, -⟩ := marked.source _ c₁ closed
    obtain ⟨second, back⟩ := marked.source _ c₂ closed'
    unfold Nesting.Crosses start stop at crosses
    refine ⟨_, _, c₁, c₂, first, second, crosses.1, by omega, back, fun c back' branch => ?_⟩
    obtain ⟨c', closed'', most⟩ := marked.closed c _ branch.lt branch back'
    rw [closed] at closed''
    cases closed''
    omega

theorem regopt_eq {live : Live} {fuel : Nat} {scope : Nat → Scope}
    (ends : extendscopes (buildscopes live.progs).nscope fuel (buildscopes live.progs).scope = some scope) :
    ∃ texts, regopt fuel live =
        some ((emit scope live.progs (buildscopes live.progs).nscope (buildscopes live.progs).blockid (buildscopes live.progs).loopid).1,
          texts) ∧
      (texts = [] ↔ validatescopes (buildscopes live.progs).nscope scope = false ∧
        (emit scope live.progs (buildscopes live.progs).nscope (buildscopes live.progs).blockid
          (buildscopes live.progs).loopid).2 = []) := by
  refine ⟨(if validatescopes (buildscopes live.progs).nscope scope then [unsupported] else []) ++
    (emit scope live.progs (buildscopes live.progs).nscope (buildscopes live.progs).blockid
      (buildscopes live.progs).loopid).2.map Diag.text, ?_, ?_⟩
  · simp only [regopt, ends]
    rfl
  · rw [List.append_eq_nil_iff, List.map_eq_nil_iff]
    cases validatescopes (buildscopes live.progs).nscope scope <;> simp

/-- `extendscopes` ends for every function, and `regopt` emits, with a message for each thing that `validatescopes`
or `emit` finds wrong. When `validatescopes` says nothing of the scopes and the stack has room for them, they
nest and are emitted right, with no diagnostic, if and only if no two back edges cross. -/
theorem regopt_iff (live : Live) :
    ∃ fuel scope texts, extendscopes (buildscopes live.progs).nscope fuel (buildscopes live.progs).scope = some scope ∧
      regopt fuel live =
        some ((emit scope live.progs (buildscopes live.progs).nscope (buildscopes live.progs).blockid (buildscopes live.progs).loopid).1,
          texts) ∧
      (texts = [] ↔ validatescopes (buildscopes live.progs).nscope scope = false ∧
        (emit scope live.progs (buildscopes live.progs).nscope (buildscopes live.progs).blockid
          (buildscopes live.progs).loopid).2 = []) ∧
      (validatescopes (buildscopes live.progs).nscope scope = false → Shallow (buildscopes live.progs).nscope scope →
        (Good live.progs (buildscopes live.progs).nscope scope (buildscopes live.progs).blockid (buildscopes live.progs).loopid ↔
          ¬ LoopsCross live.progs)) := by
  obtain ⟨scope, ends, wider, uncut⟩ := extendscopes_ends (buildscopes live.progs).nscope (buildscopes live.progs).scope _
    (Nat.lt_succ_self _)
  obtain ⟨texts, emitted, silence⟩ := regopt_eq ends
  refine ⟨_, scope, texts, ends, emitted, silence, fun silent shallow => ?_⟩
  rw [loopsCross_iff wider]
  constructor
  · rintro good ⟨i, small, j, small', -, -, crosses⟩
    have apart := Nesting.apart_iff.mpr (good.nested i small j small')
    exact apart.1 crosses
  · intro loops
    have accepted := accepted_iff.mp silent
    have nested : Nesting.Nested (start scope) (stop scope) (List.range (buildscopes live.progs).nscope) := by
      intro i inside j inside' crosses
      have small := List.mem_range.mp inside
      have small' := List.mem_range.mp inside'
      cases form : (scope j).kind with
      | SBLOCK => exact uncut i small j small' ⟨form, crosses⟩
      | SLOOP =>
        cases form' : (scope i).kind with
        | SBLOCK => exact accepted j small' i small form form' crosses
        | SLOOP => exact loops ⟨i, small, j, small', form', form, crosses⟩
    obtain ⟨same, sorted⟩ := sortscopes_spec scope (buildscopes live.progs).nscope
    obtain ⟨quiet, sound⟩ := sweep_sound (ready wider) shallow nested List.drop_zero (Nat.zero_le _)
      (Nesting.swept_start sorted same List.nodup_range)
    refine ⟨fun i small j small' => ?_, quiet, _, sound, same.map scope⟩
    exact Nesting.apart_iff.mp ⟨nested i (List.mem_range.mpr small) j (List.mem_range.mpr small'),
      nested j (List.mem_range.mpr small') i (List.mem_range.mpr small)⟩

def straight : Prog := ⟨.other 1, 0, .D_NONE, 0⟩

def jump (as : Opcode) (k : Int) : Prog := ⟨as, 0, .D_NONE, k⟩

/-- A forward branch around two loops that cut each other. -/
def cutLoops : Live where
  progs := [straight, jump .ABRIF 6, straight, straight, jump .ABRIF 2, jump .ABR 3, straight, straight]
  inside := by decide

/-- Nothing is reported, but the scopes do not nest; the block of the first branch ends after the last instruction. -/
theorem cutLoops_silent :
    ∃ fuel scope, extendscopes (buildscopes cutLoops.progs).nscope fuel (buildscopes cutLoops.progs).scope = some scope ∧
      validatescopes (buildscopes cutLoops.progs).nscope scope = false ∧ Shallow (buildscopes cutLoops.progs).nscope scope ∧
      emit scope cutLoops.progs (buildscopes cutLoops.progs).nscope (buildscopes cutLoops.progs).blockid
          (buildscopes cutLoops.progs).loopid =
        ([straight, newprog .ABLOCK, { jump .ABRIF 0 with type := .D_BRANCH }, newprog .ALOOP, straight, newprog .ALOOP,
          straight, { jump .ABRIF 1 with type := .D_BRANCH }, { jump .ABR 0 with type := .D_BRANCH }, newprog .AENDCTL,
          straight, straight, newprog .AENDCTL, newprog .AENDCTL], []) ∧
      ¬ Good cutLoops.progs (buildscopes cutLoops.progs).nscope scope (buildscopes cutLoops.progs).blockid
        (buildscopes cutLoops.progs).loopid := by
  refine ⟨1, (buildscopes cutLoops.progs).scope, rfl, by decide, fun pos => ?_, by decide, fun good => ?_⟩
  · exact Nat.le_trans (List.length_filter_le _ _) (by decide)
  · exact absurd (good.nested 0 (by decide) 1 (by decide)) (by decide)

end Goken.Proofs.Scopes
