import Goken.Follow
import Mathlib.Data.List.Chain
import Mathlib.Data.List.Perm.Subperm
import Mathlib.Data.Finset.Card
import Mathlib.Data.Finset.Range
import Mathlib.Tactic.Common

/-! The list that `xfol` builds. Every placed instruction has a source: the
instruction of the old program that execution continues at when it gets there.
The invariant says how a placed instruction relates to its source and what has
to come behind it; `xfol` keeps it and always has enough fuel. -/

namespace Goken.Proofs.Follow
open Goken.Follow Lib.Arm

variable {α : Type} [Inhabited α] (P : Program α)

/-- The branches that `xfol` jumps ended. -/
def skips (n : Prog α) : Option Nat := if n.as = .AB then n.cond else none

/-- Where the old program really continues. -/
def res (o : Nat) : Nat := (skips (P.heap o)).getD o

/-- The fields that stay when an instruction has been placed. -/
def core (n : Prog α) : As × Option Cond × α × Option Nat := (n.as, n.scond, n.ins, n.cond)

/-- The source of what has to follow the placed instruction `n`. -/
def expect (n : Prog α) (o : Nat) : Option Nat :=
  if skips n ≠ none then none
  else if n.as = (P.heap o).as then (if ends (P.heap o) then none else (P.heap o).link.map (res P))
  else (P.heap o).cond

/-- A branch to the source, the source itself, or the source with its successors
exchanged. Targets that are still missing are in `S`. -/
def Faithful (s : State α) (M : List Nat) (src : Nat → Nat) (S : Nat → Prop) (a : Nat) : Prop :=
  ((s.heap a).as = .AB ∧ (s.heap a).scond = none ∧ (s.heap a).cond = some (src a) ∧ src a ∈ M) ∨
  (core (s.heap a) = core (P.heap (src a)) ∧
    ∀ t, (P.heap (src a)).cond = some t → (P.heap (src a)).as ≠ .ABL → (P.heap (src a)).link ≠ none → t ∈ M ∨ S t) ∨
  ((s.heap a).ins = (P.heap (src a)).ins ∧ (s.heap a).scond = (P.heap (src a)).scond ∧ ∃ c b t,
    (P.heap (src a)).as = .ABcc c ∧ (s.heap a).as = .ABcc c.inv ∧ (s.heap a).cond = some b ∧ (b ∈ M ∧ b ≠ P.code.length) ∧
    (P.heap (src a)).cond = some t ∧ ∀ l, (P.heap (src a)).link = some l → src b = res P l)

/-- Where `xfol` gets at most. -/
abbrev Reaches : Nat → Prop := Comes P fun _ => True

/-- The state of `xfol` between two placements: `M` is the list so far, from the
instruction that `follow` allocates on, and `e` is what the last one waits for. -/
structure Inv (s : State α) (M : List Nat) (src : Nat → Nat) (S : Nat → Prop) (e : Option Nat) : Prop where
  above : P.code.length < s.next
  head : M.head? = some P.code.length
  fresh : ∀ a ∈ M, a < s.next
  nodup : M.Nodup
  last : M.getLast? = some s.lastp
  chain : M.IsChain fun a b => (s.heap a).link = some b ∧ ∀ x, expect P (s.heap a) (src a) = some x → src b = x
  opened : ∀ x, expect P (s.heap s.lastp) (src s.lastp) = some x → e = some x
  self : ∀ o, o ≤ P.code.length → src o = o
  srcs : ∀ a ∈ M, skips (P.heap (src a)) = none ∧ (a ≠ P.code.length → src a < P.code.length)
  origin : ∀ a ∈ M, src a ∈ M
  reached : ∀ a ∈ M, a ≠ P.code.length → Reaches P (src a)
  placed : ∀ a ∈ M, a ≠ P.code.length → (s.heap a).mark = true
  unplaced : ∀ o, o < P.code.length → o ∉ M → core (s.heap o) = core (P.heap o) ∧ (s.heap o).link = (P.heap o).link
  marked : ∀ o, o < P.code.length → (s.heap o).mark = true → skips (P.heap o) = none → o ∈ M
  kept : ∀ o, o < P.code.length → skips (s.heap o) = skips (P.heap o) ∧ ((s.heap o).as = .AB ↔ (P.heap o).as = .AB)
  items : ∀ a ∈ M, Faithful P s M src S a

/-! The old program. -/

theorem heap_get {o : Nat} {i : Ins α} (found : P.code[o]? = some i) :
    (P.heap o).as = i.as ∧ (P.heap o).scond = i.scond ∧ (P.heap o).ins = i.ins ∧ (P.heap o).cond = i.cond := by
  simp [Program.heap, found]

omit [Inhabited α] in
theorem heap_some {o : Nat} (inside : o < P.code.length) : ∃ i ∈ P.code, P.code[o]? = some i :=
  ⟨P.code[o], List.getElem_mem inside, List.getElem?_eq_getElem inside⟩

theorem heap_outside {o : Nat} (outside : P.code.length ≤ o) :
    (P.heap o).as = .AOTHER ∧ (P.heap o).link = none ∧ (P.heap o).cond = none := by
  simp [Program.heap, List.getElem?_eq_none outside]

theorem heap_link {o l : Nat} (link : (P.heap o).link = some l) : l < P.code.length := by
  simp only [Program.heap] at link
  split at link
  · simp only at link
    split at link
    · cases link
      assumption
    · cases link
  · cases link

theorem heap_cond {o t : Nat} (cond : (P.heap o).cond = some t) : t < P.code.length ∧ (P.heap t).as ≠ .AB := by
  by_cases inside : o < P.code.length
  · obtain ⟨i, member, found⟩ := heap_some P inside
    have same := (heap_get P found).2.2.2
    rw [cond] at same
    have small := P.cond_lt i member t same.symm
    obtain ⟨j, _, target⟩ := heap_some P small
    exact ⟨small, (heap_get P target).1 ▸ P.cond_ne i member t same.symm j target⟩
  · have := (heap_outside P (Nat.not_lt.mp inside)).2.2
    rw [cond] at this
    cases this

theorem heap_branch {o t : Nat} (cond : (P.heap o).cond = some t) : (P.heap o).as = .AB ∨ (P.heap o).as = .ABL ∨
    (P.heap o).as = .ABCASE ∨ (P.heap o).as = .ATEXT ∨ ∃ c, (P.heap o).as = .ABcc c := by
  by_cases inside : o < P.code.length
  · obtain ⟨i, member, found⟩ := heap_some P inside
    obtain ⟨as, _, _, same⟩ := heap_get P found
    rw [as]
    exact P.cond_as i member (by rw [← same, cond]; simp)
  · have := (heap_outside P (Nat.not_lt.mp inside)).2.2
    rw [cond] at this
    cases this

omit [Inhabited α] in
theorem skips_of_ne {n : Prog α} (other : n.as ≠ .AB) : skips n = none := by simp [skips, other]

theorem skips_cond {o t : Nat} (cond : (P.heap o).cond = some t) : skips (P.heap t) = none :=
  skips_of_ne (heap_cond P cond).2

theorem res_of_none {o : Nat} (plain : skips (P.heap o) = none) : res P o = o := by simp [res, plain]

theorem res_of_some {o t : Nat} (jumps : skips (P.heap o) = some t) : res P o = t ∧ (P.heap o).as = .AB ∧ (P.heap o).cond = some t := by
  simp only [res, jumps, Option.getD_some, true_and]
  simp only [skips] at jumps
  split at jumps
  next branch => exact ⟨branch, jumps⟩
  next => cases jumps

/-! Placing one more instruction. -/

omit [Inhabited α] in
theorem skips_congr {n n' : Prog α} (same : core n = core n') : skips n = skips n' := by
  simp only [core, Prod.mk.injEq] at same
  simp only [skips, same.1, same.2.2.2]

private theorem expect_congr {n n' : Prog α} (same : core n = core n') (o : Nat) : expect P n o = expect P n' o := by
  have as : n.as = n'.as := congrArg Prod.fst same
  simp only [expect, skips_congr same, as]

private theorem isChain_congr {R R' : Nat → Nat → Prop} {M : List Nat} (chain : M.IsChain R)
    (same : ∀ a ∈ M.dropLast, ∀ b ∈ M, R a b → R' a b) : M.IsChain R' := by
  induction M with
  | nil => exact List.IsChain.nil
  | cons a M ih =>
    cases M with
    | nil => exact List.IsChain.singleton a
    | cons b M =>
      rw [List.isChain_cons_cons] at chain ⊢
      rw [List.dropLast_cons_cons] at same
      refine ⟨same a (by simp) b (by simp) chain.1, ih chain.2 ?_⟩
      intro x member y present
      exact same x (List.mem_cons_of_mem a member) y (List.mem_cons_of_mem a present)

private theorem last_notMem {M : List Nat} {a : Nat} (nodup : M.Nodup) (last : M.getLast? = some a) : a ∉ M.dropLast := by
  obtain ⟨D, rfl⟩ := List.getLast?_eq_some_iff.mp last
  rw [List.dropLast_concat]
  rw [List.nodup_append] at nodup
  exact fun member => nodup.2.2 _ member _ (by simp) rfl

private theorem Faithful.mono {s s' : State α} {M M' : List Nat} {src src' : Nat → Nat} {S S' : Nat → Prop} {a : Nat}
    (faithful : Faithful P s M src S a) (member : a ∈ M) (same : core (s'.heap a) = core (s.heap a)) (sub : M ⊆ M')
    (srcs : ∀ b ∈ M, src' b = src b) (later : ∀ t, S t → t ∈ M' ∨ S' t) : Faithful P s' M' src' S' a := by
  have source := srcs a member
  simp only [core, Prod.mk.injEq] at same
  obtain ⟨as, scond, ins, cond⟩ := same
  simp only [Faithful, core, as, scond, ins, cond, source] at faithful ⊢
  rcases faithful with ⟨h1, h2, h3, inside⟩ | ⟨equal, targets⟩ | ⟨h1, h2, c, b, t, h3, h4, h5, inside, h6, next⟩
  · exact Or.inl ⟨h1, h2, h3, sub inside⟩
  · refine Or.inr (Or.inl ⟨equal, fun t h1 h2 h3 => ?_⟩)
    rcases targets t h1 h2 h3 with inside | missing
    · exact Or.inl (sub inside)
    · exact later t missing
  · exact Or.inr (Or.inr ⟨h1, h2, c, b, t, h3, h4, h5, ⟨sub inside.1, inside.2⟩, h6,
      fun l link => (srcs b inside.1).trans (next l link)⟩)

/-- The state after `n` was stored at `r` and linked in. -/
def place (r : Nat) (n : Prog α) (next : Nat) (s : State α) : State α :=
  ⟨Function.update (Function.update s.heap r n) s.lastp { s.heap s.lastp with link := some r }, next, r⟩

omit [Inhabited α] in
private theorem place_new {s : State α} (n : Prog α) (old : s.lastp ≠ s.next) :
    (s.prg n).append s.next = place s.next n (s.next + 1) s := by
  simp [State.append, State.prg, State.set, place, Function.update_of_ne old]

omit [Inhabited α] in
private theorem place_old {s : State α} {p : Nat} (old : s.lastp ≠ p) :
    (s.foll p).append p = place p { s.heap p with mark := true } s.next s := by
  simp [State.append, State.foll, State.set, place, Function.update_of_ne old]

/-- What stays the same while the list grows. -/
structure Grows (s : State α) (M : List Nat) (src : Nat → Nat) (s' : State α) (M' : List Nat) (src' : Nat → Nat) : Prop where
  sub : M ⊆ M'
  srcs : ∀ a ∈ M, src' a = src a
  same : ∀ a ∈ M, core (s'.heap a) = core (s.heap a)
  marks : ∀ o, o < P.code.length → (s.heap o).mark = true → (s'.heap o).mark = true

omit [Inhabited α] in
theorem Grows.refl (s : State α) (M : List Nat) (src : Nat → Nat) : Grows P s M src s M src :=
  ⟨fun _ member => member, fun _ _ => rfl, fun _ _ => rfl, fun _ _ mark => mark⟩

omit [Inhabited α] in
theorem Grows.trans {s s' s'' : State α} {M M' M'' : List Nat} {src src' src'' : Nat → Nat}
    (first : Grows P s M src s' M' src') (second : Grows P s' M' src' s'' M'' src'') : Grows P s M src s'' M'' src'' :=
  ⟨fun _ member => second.sub (first.sub member),
    fun a member => (second.srcs a (first.sub member)).trans (first.srcs a member),
    fun a member => (second.same a (first.sub member)).trans (first.same a member),
    fun o inside mark => second.marks o inside (first.marks o inside mark)⟩

section Placing

variable {P}
variable {s : State α} {M : List Nat} {src : Nat → Nat} {S S' : Nat → Prop} {e : Option Nat}

theorem Inv.last_mem (inv : Inv P s M src S e) : s.lastp ∈ M := List.mem_of_getLast? inv.last

theorem Inv.head_mem (inv : Inv P s M src S e) : P.code.length ∈ M := List.mem_of_head? inv.head

private theorem place_heap {r : Nat} (n : Prog α) (next : Nat) (inv : Inv P s M src S e) (new : r ∉ M) :
    (place r n next s).heap r = n ∧ ∀ a, a ≠ r → core ((place r n next s).heap a) = core (s.heap a) ∧
      ((place r n next s).heap a).mark = (s.heap a).mark ∧ (a ≠ s.lastp → (place r n next s).heap a = s.heap a) := by
  have other : r ≠ s.lastp := fun same => new (same ▸ inv.last_mem)
  refine ⟨by simp [place, Function.update_of_ne other], fun a different => ?_⟩
  by_cases last : a = s.lastp
  · subst last
    simp [place, core]
  · simp [place, Function.update_of_ne last, Function.update_of_ne different]

/-- `n`, stored at `r`, can come next and stands for the instruction at `o`. -/
structure Fits (P : Program α) (s : State α) (M : List Nat) (r o next : Nat) (n : Prog α) : Prop where
  new : r ∉ M
  small : r < next
  grows : s.next ≤ next
  kind : r = s.next ∨ r < P.code.length ∧ o = r ∧ skips n = skips (P.heap r) ∧ (n.as = .AB ↔ (P.heap r).as = .AB)
  inside : o < P.code.length
  plain : skips (P.heap o) = none
  marked : n.mark = true
  origin : o = r ∨ o ∈ M
  reached : Reaches P o

section Extending

variable {r o next : Nat} {n : Prog α}

private theorem Inv.extend_chain (inv : Inv P s M src S e) (fits : Fits P s M r o next n) (awaited : e = none ∨ e = some o) :
    (M ++ [r]).IsChain fun a b => ((place r n next s).heap a).link = some b ∧
      ∀ x, expect P ((place r n next s).heap a) (Function.update src r o a) = some x → Function.update src r o b = x := by
  obtain ⟨here, others⟩ := place_heap n next inv fits.new
  have differs : ∀ a ∈ M, a ≠ r := fun a member same => fits.new (same ▸ member)
  have srcs : ∀ a ∈ M, Function.update src r o a = src a := fun a member => Function.update_of_ne (differs a member) _ _
  rw [List.isChain_append]
  refine ⟨isChain_congr inv.chain ?_, List.IsChain.singleton r, ?_⟩
  · intro a early b member step
    have member' := (List.dropLast_sublist M).subset early
    have notLast : a ≠ s.lastp := fun same => last_notMem inv.nodup inv.last (same ▸ early)
    rw [(others a (differs a member')).2.2 notLast, srcs a member', srcs b member]
    exact step
  · intro a last b first
    simp only [List.head?_cons, Option.mem_def, Option.some.injEq] at first
    subst first
    rw [inv.last, Option.mem_def, Option.some.injEq] at last
    subst last
    refine ⟨by simp [place], fun x waits => ?_⟩
    rw [expect_congr P (others _ (differs _ inv.last_mem)).1, srcs _ inv.last_mem] at waits
    rw [Function.update_self]
    have := inv.opened x waits
    rcases awaited with none | same
    · rw [none] at this
      cases this
    · exact Option.some.inj (same.symm.trans this)

private theorem Inv.extend_self (inv : Inv P s M src S e) (fits : Fits P s M r o next n) {a : Nat} (low : a ≤ P.code.length) :
    Function.update src r o a = a := by
  rcases fits.kind with fresh | ⟨_, same, _⟩
  · have above := inv.above
    rw [Function.update_of_ne (by omega)]
    exact inv.self a low
  · by_cases equal : a = r
    · rw [equal, Function.update_self, same]
    · rw [Function.update_of_ne equal]
      exact inv.self a low

private theorem Inv.extend_kept (inv : Inv P s M src S e) (fits : Fits P s M r o next n) {a : Nat} (low : a < P.code.length) :
    skips ((place r n next s).heap a) = skips (P.heap a) ∧
      (((place r n next s).heap a).as = .AB ↔ (P.heap a).as = .AB) := by
  obtain ⟨here, others⟩ := place_heap n next inv fits.new
  by_cases equal : a = r
  · rcases fits.kind with fresh | ⟨_, _, kept⟩
    · have above := inv.above
      omega
    · rw [equal, here]
      exact kept
  · have same := (others a equal).1
    rw [skips_congr same, show ((place r n next s).heap a).as = (s.heap a).as from congrArg Prod.fst same]
    exact inv.kept a low

private theorem Inv.extend_marks (inv : Inv P s M src S e) (fits : Fits P s M r o next n) (a : Nat)
    (mark : (s.heap a).mark = true) : ((place r n next s).heap a).mark = true := by
  obtain ⟨here, others⟩ := place_heap n next inv fits.new
  by_cases equal : a = r
  · rw [equal, here]
    exact fits.marked
  · rw [(others a equal).2.1]
    exact mark

/-- Linking in one instruction keeps the invariant. -/
theorem Inv.extend (inv : Inv P s M src S e) (T : Nat → Prop) (fits : Fits P s M r o next n) (awaited : e = none ∨ e = some o)
    (faithful : ∀ s' : State α, s'.heap r = n → Faithful P s' (M ++ [r]) (Function.update src r o) T r)
    (later : ∀ t, S t → t ∈ M ++ [r] ∨ T t) :
    Inv P (place r n next s) (M ++ [r]) (Function.update src r o) T (expect P n o) ∧
      Grows P s M src (place r n next s) (M ++ [r]) (Function.update src r o) := by
  obtain ⟨here, others⟩ := place_heap n next inv fits.new
  have differs : ∀ a ∈ M, a ≠ r := fun a member same => fits.new (same ▸ member)
  have srcs : ∀ a ∈ M, Function.update src r o a = src a := fun a member => Function.update_of_ne (differs a member) _ _
  have sub : M ⊆ M ++ [r] := fun a member => List.mem_append_left _ member
  have lastp : (place r n next s).lastp = r := rfl
  refine ⟨⟨Nat.lt_of_lt_of_le inv.above fits.grows, ?_, ?_, ?_, by simp [place], inv.extend_chain fits awaited, ?_,
    fun a low => inv.extend_self fits low, ?_, ?_, ?_, ?_, ?_, ?_, fun a low => inv.extend_kept fits low, ?_⟩,
    sub, srcs, fun a member => (others a (differs a member)).1, fun a _ => inv.extend_marks fits a⟩
  · rw [List.head?_append, inv.head]
    rfl
  · intro a member
    rcases List.mem_append.mp member with old | last
    · exact Nat.lt_of_lt_of_le (inv.fresh a old) fits.grows
    · exact List.mem_singleton.mp last ▸ fits.small
  · rw [List.nodup_append]
    exact ⟨inv.nodup, by simp, fun a member b last => by
      rw [List.mem_singleton] at last
      exact last ▸ differs a member⟩
  · intro x waits
    rw [lastp, here, Function.update_self] at waits
    exact waits
  · intro a member
    rcases List.mem_append.mp member with old | last
    · rw [srcs a old]
      exact inv.srcs a old
    · rw [List.mem_singleton.mp last, Function.update_self]
      exact ⟨fits.plain, fun _ => fits.inside⟩
  · intro a member
    rcases List.mem_append.mp member with old | last
    · rw [srcs a old]
      exact sub (inv.origin a old)
    · rw [List.mem_singleton.mp last, Function.update_self]
      rcases fits.origin with same | old
      · rw [same]
        simp
      · exact sub old
  · intro a member notHead
    rcases List.mem_append.mp member with old | last
    · rw [srcs a old]
      exact inv.reached a old notHead
    · rw [List.mem_singleton.mp last, Function.update_self]
      exact fits.reached
  · intro a member notHead
    rcases List.mem_append.mp member with old | last
    · rw [(others a (differs a old)).2.1]
      exact inv.placed a old notHead
    · rw [List.mem_singleton.mp last, here]
      exact fits.marked
  · intro a low missing
    simp only [List.mem_append, List.mem_singleton, not_or] at missing
    have notLast : a ≠ s.lastp := fun same => missing.1 (same ▸ inv.last_mem)
    rw [(others a missing.2).2.2 notLast]
    exact inv.unplaced a low missing.1
  · intro a low mark plain
    by_cases equal : a = r
    · simp [equal]
    · rw [(others a equal).2.1] at mark
      exact sub (inv.marked a low mark plain)
  · intro a member
    rcases List.mem_append.mp member with old | last
    · exact (inv.items a old).mono P old (others a (differs a old)).1 sub srcs later
    · rw [List.mem_singleton.mp last]
      exact faithful _ here

end Extending

theorem Inv.mem_of_mark (inv : Inv P s M src S e) {p : Nat} (low : p < P.code.length)
    (plain : skips (P.heap p) = none) : (s.heap p).mark = true ↔ p ∈ M :=
  ⟨fun mark => inv.marked p low mark plain, fun member => inv.placed p member (Nat.ne_of_lt low)⟩

/-- Placing an instruction for the first time. -/
theorem Inv.main (inv : Inv P s M src S e) {p : Nat} (low : p < P.code.length) (plain : skips (P.heap p) = none)
    (unmarked : (s.heap p).mark = false) (reached : Reaches P p) (awaited : e = none ∨ e = some p)
    (targets : ∀ t, (P.heap p).cond = some t → (P.heap p).as ≠ .ABL → (P.heap p).link ≠ none → S' t)
    (later : ∀ t, S t → S' t) :
    Inv P ((s.foll p).append p) (M ++ [p]) src S'
      (if ends (P.heap p) then none else (P.heap p).link.map (res P)) ∧
      Grows P s M src ((s.foll p).append p) (M ++ [p]) src ∧
      core (((s.foll p).append p).heap p) = core (P.heap p) ∧
      (((s.foll p).append p).heap p).link = (P.heap p).link ∧ (((s.foll p).append p).heap p).mark = true := by
  have new : p ∉ M := fun member => by
    have := (inv.mem_of_mark low plain).mpr member
    rw [unmarked] at this
    cases this
  have other : s.lastp ≠ p := fun same => new (same ▸ inv.last_mem)
  obtain ⟨same, link⟩ := inv.unplaced p low new
  have self : Function.update src p p = src := Function.update_eq_self_iff.mpr (inv.self p (Nat.le_of_lt low)).symm
  have equal : core { s.heap p with mark := true } = core (P.heap p) := same
  rw [place_old other]
  have as : ({ s.heap p with mark := true } : Prog α).as = (P.heap p).as := congrArg Prod.fst same
  have fits : Fits P s M p p s.next { s.heap p with mark := true } :=
    ⟨new, Nat.lt_trans low inv.above, Nat.le_refl _, Or.inr ⟨low, rfl, skips_congr equal, by rw [as]⟩, low, plain, rfl, Or.inl rfl,
      reached⟩
  obtain ⟨next, grows⟩ := inv.extend S' fits awaited
    (fun s' here => by
      refine Or.inr (Or.inl ⟨?_, fun t h1 h2 h3 => ?_⟩)
      · rw [here, Function.update_self]
        exact equal
      · rw [Function.update_self] at h1 h2 h3
        exact Or.inr (targets t h1 h2 h3))
    (fun t missing => Or.inr (later t missing))
  rw [self] at next grows
  have waits : expect P { s.heap p with mark := true } p =
      if ends (P.heap p) then none else (P.heap p).link.map (res P) := by
    rw [expect_congr P equal]
    simp [expect, plain]
  have here := (place_heap { s.heap p with mark := true } s.next inv new).1
  rw [waits] at next
  refine ⟨next, grows, ?_, ?_, ?_⟩
  · rw [here]
    exact equal
  · rw [here]
    exact link
  · rw [here]

/-- Placing a branch to something that is placed. -/
theorem Inv.glue (inv : Inv P s M src S e) {p : Nat} (low : p < P.code.length) (member : p ∈ M)
    (awaited : e = none ∨ e = some p) : ∃ src', Inv P (glue p s) (M ++ [s.next]) src' S none ∧
      Grows P s M src (glue p s) (M ++ [s.next]) src' := by
  have new : s.next ∉ M := fun inside => Nat.lt_irrefl _ (inv.fresh _ inside)
  have other : s.lastp ≠ s.next := fun same => new (same ▸ inv.last_mem)
  have plain : skips (P.heap p) = none := by
    have := (inv.srcs p member).1
    rwa [inv.self p (Nat.le_of_lt low)] at this
  rw [Goken.Follow.glue, place_new _ other]
  refine ⟨Function.update src s.next p, ?_⟩
  have reached := inv.reached p member (Nat.ne_of_lt low)
  rw [inv.self p (Nat.le_of_lt low)] at reached
  have fits : Fits P s M s.next p (s.next + 1) ⟨.AB, none, default, none, some p, true⟩ :=
    ⟨new, Nat.lt_succ_self _, Nat.le_succ _, Or.inl rfl, low, plain, rfl, Or.inr member, reached⟩
  have whole := inv.extend S fits awaited
    (fun s' here => Or.inl (by
      rw [here, Function.update_self]
      exact ⟨rfl, rfl, rfl, List.mem_append_left _ member⟩))
    (fun t missing => Or.inr missing)
  have waits : expect P (⟨.AB, none, default, none, some p, true⟩ : Prog α) p = none := by simp [expect, skips]
  rwa [waits] at whole

/-- Exchanging the successors of the last instruction. -/
theorem Inv.turn (inv : Inv P s M src S e) {c : Cond} {b t : Nat} (link : Option Nat)
    (same : core (s.heap s.lastp) = core (P.heap (src s.lastp))) (as : (P.heap (src s.lastp)).as = .ABcc c)
    (cond : (P.heap (src s.lastp)).cond = some t) (member : b ∈ M) (away : b ≠ P.code.length)
    (follows : ∀ l, (P.heap (src s.lastp)).link = some l → src b = res P l) :
    Inv P (s.set s.lastp { s.heap s.lastp with as := .ABcc c.inv, cond := some b, link := link }) M src S (some t) := by
  have differs : c.inv ≠ c := by cases c <;> decide
  have here : (s.set s.lastp { s.heap s.lastp with as := .ABcc c.inv, cond := some b, link := link }).heap s.lastp =
      { s.heap s.lastp with as := .ABcc c.inv, cond := some b, link := link } := by simp [State.set]
  have others : ∀ a, a ≠ s.lastp →
      (s.set s.lastp { s.heap s.lastp with as := .ABcc c.inv, cond := some b, link := link }).heap a = s.heap a :=
    fun a different => Function.update_of_ne different _ _
  generalize changed : s.set s.lastp { s.heap s.lastp with as := .ABcc c.inv, cond := some b, link := link } = s' at *
  have lastp : s'.lastp = s.lastp := by rw [← changed]; rfl
  have next : s'.next = s.next := by rw [← changed]; rfl
  have marks : ∀ a, (s'.heap a).mark = (s.heap a).mark := by
    intro a
    by_cases last : a = s.lastp
    · rw [last, here]
    · rw [others a last]
  have fields : (s.heap s.lastp).ins = (P.heap (src s.lastp)).ins ∧ (s.heap s.lastp).scond = (P.heap (src s.lastp)).scond ∧
      (s.heap s.lastp).as = .ABcc c := by
    simp only [core, Prod.mk.injEq] at same
    exact ⟨same.2.2.1, same.2.1, same.1.trans as⟩
  refine ⟨next ▸ inv.above, inv.head, fun a inside => next ▸ inv.fresh a inside, inv.nodup, lastp ▸ inv.last, ?_, ?_, inv.self,
    inv.srcs, inv.origin, inv.reached, fun a inside away => (marks a).trans (inv.placed a inside away), ?_,
    fun a low mark => inv.marked a low ((marks a).symm.trans mark), ?_, ?_⟩
  · apply isChain_congr inv.chain
    intro a early d _ step
    have notLast : a ≠ s.lastp := fun equal => last_notMem inv.nodup inv.last (equal ▸ early)
    rw [others a notLast]
    exact step
  · intro x waits
    rw [lastp, here] at waits
    simp only [expect, skips, as, reduceCtorEq, if_false, ne_eq, not_true_eq_false, As.ABcc.injEq, differs, cond] at waits
    exact waits
  · intro a low missing
    rw [others a (fun equal => missing (equal ▸ inv.last_mem))]
    exact inv.unplaced a low missing
  · intro a low
    by_cases last : a = s.lastp
    · have old := inv.kept a low
      rw [last] at old ⊢
      rw [here]
      simp only [skips, fields.2.2, reduceCtorEq, if_false, false_iff] at old ⊢
      exact old
    · rw [others a last]
      exact inv.kept a low
  · intro a inside
    by_cases last : a = s.lastp
    · rw [last]
      refine Or.inr (Or.inr ?_)
      rw [here]
      exact ⟨fields.1, fields.2.1, c, b, t, as, rfl, rfl, ⟨member, away⟩, cond, follows⟩
    · exact (inv.items a inside).mono P inside (by rw [others a last]) (fun _ h => h) (fun _ _ => rfl) (fun t h => Or.inr h)

/-- The link of a placed instruction leads to the next one. -/
theorem Inv.link (inv : Inv P s M src S e) {A B : List Nat} {a b : Nat} (shape : M = A ++ a :: b :: B) :
    (s.heap a).link = some b ∧ ∀ x, expect P (s.heap a) (src a) = some x → src b = x := by
  have chain := inv.chain
  rw [shape, List.isChain_append] at chain
  exact (List.isChain_cons_cons.mp chain.2.1).1

theorem Inv.isLast (inv : Inv P s M src S e) {A B : List Nat} {a : Nat} (shape : M = A ++ a :: B) :
    a = s.lastp ↔ B = [] := by
  have last := inv.last
  constructor
  · intro same
    cases B with
    | nil => rfl
    | cons b B =>
      have early : a ∈ M.dropLast := by
        rw [shape, List.dropLast_append_of_ne_nil (by simp), List.dropLast_cons_cons]
        simp
      exact absurd (same ▸ early) (last_notMem inv.nodup inv.last)
  · intro empty
    rw [shape, empty] at last
    simpa using last

private theorem Inv.length_le (inv : Inv P s M src S e) : M.length ≤ s.next := by
  have sub : M ⊆ List.range s.next := fun a member => List.mem_range.mpr (inv.fresh a member)
  have := (inv.nodup.subperm sub).length_le
  rwa [List.length_range] at this

/-- Where the copying may stop. -/
def Stops (s : State α) (q : Nat) : Prop :=
  ends (s.heap q) = true ∨ ((s.heap q).as = .ABcc .EQ ∨ (s.heap q).as = .ABcc .NE) ∧
    ∃ t, (s.heap q).cond = some t ∧ (s.heap t).mark = false

/-- The scan ends, and what it finds is a stretch of the list that is not its end. -/
theorem scan_spec (inv : Inv P s M src S e) : ∀ (B A : List Nat) (p i fuel : Nat), M = A ++ p :: B → B.length < fuel →
    ∃ found, scan s fuel i p = some found ∧ ∀ q, found = some q →
      Stops s q ∧ ∃ D b C, p :: B = D ++ q :: b :: C := by
  intro B
  induction B with
  | nil =>
    intro A p i fuel shape enough
    obtain ⟨fuel, rfl⟩ := Nat.exists_eq_succ_of_ne_zero (Nat.ne_of_gt enough)
    have last := (inv.isLast shape).mpr rfl
    exact ⟨none, by simp [scan, last], fun q found => by cases found⟩
  | cons b B ih =>
    intro A p i fuel shape enough
    obtain ⟨fuel, rfl⟩ := Nat.exists_eq_succ_of_ne_zero (Nat.ne_of_gt (Nat.lt_of_le_of_lt (Nat.zero_le _) enough))
    have notLast : p ≠ s.lastp := fun same => by
      have := (inv.isLast shape).mp same
      cases this
    have link := (inv.link shape).1
    have further : ∀ i, ∃ found, scan s fuel i b = some found ∧ ∀ q, found = some q →
        Stops s q ∧ ∃ D d C, p :: b :: B = D ++ q :: d :: C := by
      intro i
      obtain ⟨found, result, spec⟩ := ih (A ++ [p]) b i fuel (by simp [shape]) (by simpa using enough)
      refine ⟨found, result, fun q same => ?_⟩
      obtain ⟨stops, D, d, C, part⟩ := spec q same
      exact ⟨stops, p :: D, d, C, by rw [part]; rfl⟩
    have here : Stops s p → ∃ found, some (some p) = some found ∧ ∀ q, found = some q →
        Stops s q ∧ ∃ D d C, p :: b :: B = D ++ q :: d :: C :=
      fun stops => ⟨some p, rfl, fun q same => by cases same; exact ⟨stops, [], b, B, rfl⟩⟩
    rw [scan]
    by_cases enough' : 4 ≤ i
    · exact ⟨none, by simp [enough'], fun q found => by cases found⟩
    · simp only [enough', notLast, or_self, if_false, link]
      split
      · exact further i
      · split
        next stops => exact here (Or.inl stops)
        next =>
          split
          · exact further (i + 1)
          next t cond =>
            split
            · exact further (i + 1)
            next unmarked =>
              split
              next branch => exact here (Or.inr ⟨branch, t, cond, Bool.eq_false_iff.mpr unmarked⟩)
              next => exact further (i + 1)

/-- A stretch of the list that ends with `q` has been copied to the end of the list. -/
structure Copied (P : Program α) (s : State α) (M : List Nat) (src : Nat → Nat) (S : Nat → Prop) (q : Nat) (s' : State α)
    (M' : List Nat) (src' : Nat → Nat) : Prop where
  inv : Inv P s' M' src' S (expect P (s.heap q) (src q))
  grows : Grows P s M src s' M' src'
  same : core (s'.heap s'.lastp) = core (s.heap q)
  source : src' s'.lastp = src q
  new : s'.lastp ∉ M
  others : ∀ a ∈ M, a ≠ s.lastp → s'.heap a = s.heap a
  marks : ∀ o, o < P.code.length → (s'.heap o).mark = (s.heap o).mark

/-- Copying one placed instruction to the end. -/
private theorem Inv.copy (inv : Inv P s M src S e) {p : Nat} (member : p ∈ M) (notHead : p ≠ P.code.length)
    (awaited : e = none ∨ e = some (src p)) :
    Copied P s M src S p ((s.prg { s.heap p with mark := true }).append s.next) (M ++ [s.next])
      (Function.update src s.next (src p)) := by
  have new : s.next ∉ M := fun inside => Nat.lt_irrefl _ (inv.fresh _ inside)
  have other : s.lastp ≠ s.next := fun same => new (same ▸ inv.last_mem)
  have differs : ∀ a ∈ M, a ≠ s.next := fun a inside same => new (same ▸ inside)
  obtain ⟨plain, low⟩ := inv.srcs p member
  rw [place_new _ other]
  have equal : core { s.heap p with mark := true } = core (s.heap p) := rfl
  have fits : Fits P s M s.next (src p) (s.next + 1) { s.heap p with mark := true } :=
    ⟨new, Nat.lt_succ_self _, Nat.le_succ _, Or.inl rfl, low notHead, plain, rfl, Or.inr (inv.origin p member),
      inv.reached p member notHead⟩
  obtain ⟨next, grows⟩ := inv.extend S fits awaited
    (fun s' here => by
      have source : Function.update src s.next (src p) s.next = src p := Function.update_self _ _ _
      have old : Faithful P s (M ++ [s.next]) (Function.update src s.next (src p)) S p :=
        (inv.items p member).mono P member rfl (fun a inside => List.mem_append_left _ inside)
          (fun a inside => Function.update_of_ne (differs a inside) _ _) (fun t h => Or.inr h)
      have same : Function.update src s.next (src p) p = src p := Function.update_of_ne (differs p member) _ _
      simp only [Faithful, source, here, same] at old ⊢
      exact old)
    (fun t missing => Or.inr missing)
  obtain ⟨here, others⟩ := place_heap { s.heap p with mark := true } (s.next + 1) inv new
  rw [expect_congr P equal] at next
  exact ⟨next, grows, (congrArg core here).trans equal, Function.update_self _ _ _, new,
    fun a inside away => (others a (differs a inside)).2.2 away,
    fun o small => (others o (by have := inv.above; omega)).2.1⟩

/-- Copying a stretch of the list to its end. -/
theorem copyRun_spec : ∀ (D : List Nat) {s : State α} {M : List Nat} {src : Nat → Nat} {e : Option Nat} {A C : List Nat}
    {p q b : Nat} (fuel : Nat), Inv P s M src S e → M = A ++ p :: D ++ b :: C → (p :: D).getLast? = some q →
    P.code.length ∉ p :: D → D.length < fuel → (e = none ∨ e = some (src p)) →
    ∃ s' M' src', copyRun q fuel p s = some s' ∧ Copied P s M src S q s' M' src' := by
  intro D
  induction D with
  | nil =>
    intro s M src e A C p q b fuel inv shape last away enough awaited
    obtain ⟨fuel, rfl⟩ := Nat.exists_eq_succ_of_ne_zero (Nat.ne_of_gt enough)
    simp only [List.getLast?_singleton, Option.some.injEq] at last
    subst last
    have member : p ∈ M := by simp [shape]
    have notHead : p ≠ P.code.length := fun same => away (by simp [same])
    exact ⟨_, _, _, by simp [copyRun], inv.copy member notHead awaited⟩
  | cons d D ih =>
    intro s M src e A C p q b fuel inv shape last away enough awaited
    obtain ⟨fuel, rfl⟩ := Nat.exists_eq_succ_of_ne_zero (Nat.ne_of_gt (Nat.lt_of_le_of_lt (Nat.zero_le _) enough))
    have member : p ∈ M := by simp [shape]
    have notHead : p ≠ P.code.length := fun same => away (by simp [same])
    rw [List.getLast?_cons_cons] at last
    have inside : q ∈ d :: D := List.mem_of_getLast? last
    have different : p ≠ q := by
      intro same
      have nodup := inv.nodup
      rw [shape, List.append_assoc, List.nodup_append] at nodup
      have tail := (List.nodup_cons.mp nodup.2.1).1
      exact tail (List.mem_append_left _ (same ▸ inside))
    obtain ⟨link, follows⟩ := inv.link (A := A) (a := p) (b := d) (B := D ++ b :: C) (by simp [shape])
    have first := inv.copy member notHead awaited
    have source := first.grows.srcs d (by simp [shape])
    obtain ⟨s', M', src', result, more⟩ := ih (A := A ++ [p]) (C := C ++ [s.next])
      (b := b) fuel first.inv (by simp [shape]) last (fun inside => away (List.mem_cons_of_mem _ inside)) (by simpa using enough)
      (by
        cases waits : expect P (s.heap p) (src p) with
        | none => exact Or.inl rfl
        | some x => exact Or.inr (by rw [source, follows x waits]))
    have present : q ∈ M := by
      rw [shape]
      exact List.mem_append_left _ (List.mem_append_right _ (List.mem_cons_of_mem _ inside))
    have waits := more.inv
    rw [expect_congr P (first.grows.same q present), first.grows.srcs q present] at waits
    refine ⟨s', M', src', ?_, waits, first.grows.trans P more.grows, more.same.trans (first.grows.same q present),
      more.source.trans (first.grows.srcs q present), ?_, ?_, fun o small => (more.marks o small).trans (first.marks o small)⟩
    · rw [copyRun]
      simp only [if_neg different]
      split
      next further found =>
        cases link.symm.trans found
        exact result
      next found => cases link.symm.trans found
    · exact fun old => more.new (List.mem_append_left _ old)
    · intro a old away'
      have notNew : a ≠ ((s.prg { s.heap p with mark := true }).append s.next).lastp := fun same => first.new (same ▸ old)
      exact (more.others a (List.mem_append_left _ old) notNew).trans (first.others a old away')

/-- A chain of branches has at most one link. -/
theorem brchain_spec (inv : Inv P s M src S e) {l : Nat} (low : l < P.code.length) :
    (∀ q, brchain s.heap 20 (some l) = some q → q = res P l ∧ q < P.code.length ∧ (P.heap q).as ≠ .AB) ∧
      ((P.heap l).as ≠ .AB → brchain s.heap 20 (some l) = some l) := by
  obtain ⟨kept, as⟩ := inv.kept l low
  by_cases branch : (P.heap l).as = .AB
  · refine ⟨fun q found => ?_, fun other => absurd branch other⟩
    have here : (s.heap l).as = .AB := as.mpr branch
    simp only [skips, here, branch, if_true] at kept
    cases cond : (P.heap l).cond with
    | none => simp [brchain, here, kept, cond] at found
    | some t =>
      obtain ⟨small, other⟩ := heap_cond P cond
      have there : (s.heap t).as ≠ .AB := fun same => other ((inv.kept t small).2.mp same)
      simp only [brchain, here, kept, cond, there, ne_eq, not_true_eq_false, if_false, not_false_eq_true, if_true,
        Option.some.injEq] at found
      subst found
      have jumps : skips (P.heap l) = some t := by simp [skips, branch, cond]
      exact ⟨(res_of_some P jumps).1.symm, small, other⟩
  · have here : (s.heap l).as ≠ .AB := fun same => branch (as.mp same)
    have result : brchain s.heap 20 (some l) = some l := by simp [brchain, here]
    refine ⟨fun q found => ?_, fun _ => result⟩
    cases result.symm.trans found
    exact ⟨(res_of_none P (skips_of_ne branch)).symm, low, branch⟩

/-- Fewer targets may be missing. -/
theorem Inv.settle {T : Nat → Prop} (inv : Inv P s M src S e) (found : ∀ t, S t → t ∈ M ∨ T t) : Inv P s M src T e :=
  { inv with items := fun a member => (inv.items a member).mono P member rfl (fun _ h => h) (fun _ _ => rfl) found }

/-- Marking a branch that is jumped over. -/
theorem Inv.foll (inv : Inv P s M src S e) {p t : Nat} (low : p < P.code.length) (jumps : skips (P.heap p) = some t) :
    Inv P (s.foll p) M src S e ∧ Grows P s M src (s.foll p) M src ∧ ∀ a, a ≠ p → (s.foll p).heap a = s.heap a := by
  have new : p ∉ M := fun member => by
    have := (inv.srcs p member).1
    rw [inv.self p (Nat.le_of_lt low), jumps] at this
    cases this
  have others : ∀ a, a ≠ p → (s.foll p).heap a = s.heap a := fun a different => Function.update_of_ne different _ _
  have here : (s.foll p).heap p = { s.heap p with mark := true } := Function.update_self _ _ _
  have placed : ∀ a ∈ M, (s.foll p).heap a = s.heap a := fun a member => others a (fun same => new (same ▸ member))
  have cores : ∀ a, core ((s.foll p).heap a) = core (s.heap a) ∧ ((s.foll p).heap a).link = (s.heap a).link := by
    intro a
    by_cases same : a = p
    · rw [same, here]
      exact ⟨rfl, rfl⟩
    · rw [others a same]
      exact ⟨rfl, rfl⟩
  have lastp : (s.foll p).lastp = s.lastp := rfl
  refine ⟨⟨inv.above, inv.head, inv.fresh, inv.nodup, inv.last, ?_, ?_, inv.self, inv.srcs, inv.origin, inv.reached, ?_, ?_, ?_, ?_, ?_⟩,
    ⟨fun _ h => h, fun _ _ => rfl, fun a _ => (cores a).1, ?_⟩, others⟩
  · apply isChain_congr inv.chain
    intro a early b _ step
    rw [placed a ((List.dropLast_sublist M).subset early)]
    exact step
  · rw [lastp, placed _ inv.last_mem]
    exact inv.opened
  · intro a member away
    rw [placed a member]
    exact inv.placed a member away
  · intro a small missing
    rw [(cores a).1, (cores a).2]
    exact inv.unplaced a small missing
  · intro a small mark plain
    by_cases same : a = p
    · rw [same, jumps] at plain
      cases plain
    · rw [others a same] at mark
      exact inv.marked a small mark plain
  · intro a small
    rw [skips_congr (cores a).1, show ((s.foll p).heap a).as = (s.heap a).as from congrArg Prod.fst (cores a).1]
    exact inv.kept a small
  · intro a member
    exact (inv.items a member).mono P member (cores a).1 (fun _ h => h) (fun _ _ => rfl) (fun t h => Or.inr h)
  · intro a _ mark
    by_cases same : a = p
    · rw [same, here]
    · rw [others a same]
      exact mark

/-! The whole pass. -/

/-- What a call of `xfol` has done when it is over. -/
def Done (P : Program α) (s : State α) (M : List Nat) (src : Nat → Nat) (S : Nat → Prop) (po : Option Nat) (s' : State α) : Prop :=
  ∃ M' src', Inv P s' M' src' S none ∧ Grows P s M src s' M' src' ∧ ∀ p, po = some p → res P p ∈ M'

private theorem Done.after {s' s'' : State α} {M' : List Nat} {src' : Nat → Nat} {po po' : Option Nat}
    (grows : Grows P s M src s' M' src') (done : Done P s' M' src' S po' s'')
    (covers : ∀ p, po = some p → res P p ∈ M' ∨ po' = some (res P p) ∧ skips (P.heap (res P p)) = none) :
    Done P s M src S po s'' := by
  obtain ⟨M'', src'', inv, later, found⟩ := done
  refine ⟨M'', src'', inv, grows.trans P later, fun p same => ?_⟩
  rcases covers p same with here | ⟨next, plain⟩
  · exact later.sub here
  · have := found _ next
    rwa [res_of_none P plain] at this

/-- A run that ends needs nothing behind it. -/
private theorem Inv.expect_ends (inv : Inv P s M src S e) {q : Nat} (member : q ∈ M) (stops : ends (s.heap q) = true) :
    expect P (s.heap q) (src q) = none := by
  rcases inv.items q member with ⟨as, _, cond, _⟩ | ⟨same, _⟩ | ⟨_, _, c, b, t, _, as, _⟩
  · simp [expect, skips, as, cond]
  · have as : (s.heap q).as = (P.heap (src q)).as := congrArg Prod.fst same
    have scond : (s.heap q).scond = (P.heap (src q)).scond := congrArg (fun x => x.2.1) same
    have stops' : ends (P.heap (src q)) = true := by
      simp only [ends, as, scond] at stops
      exact stops
    simp [expect, as, stops']
  · simp [ends, as] at stops

/-- The stretch that the scan finds. -/
private theorem Inv.stretch (inv : Inv P s M src S e) {A B D C : List Nat} {p q b : Nat} (shape : M = A ++ p :: B)
    (notHead : p ≠ P.code.length) (part : p :: B = D ++ q :: b :: C) :
    ∃ R, M = A ++ p :: R ++ b :: C ∧ (p :: R).getLast? = some q ∧ P.code.length ∉ p :: R ++ b :: C ∧ R.length < s.next := by
  have segment : p :: (D ++ [q]).tail = D ++ [q] := by
    cases D with
    | nil => rw [List.nil_append] at part ⊢; rw [(List.cons.inj part).1]; rfl
    | cons d D => rw [(List.cons.inj part).1]; rfl
  have whole : M = A ++ (p :: (D ++ [q]).tail) ++ b :: C := by
    rw [segment, shape, part]
    simp
  refine ⟨(D ++ [q]).tail, whole, ?_, ?_, ?_⟩
  · rw [segment]
    exact List.getLast?_concat
  · have head := inv.head
    have nodup := inv.nodup
    rw [whole, List.append_assoc] at head nodup
    cases A with
    | nil => exact absurd (Option.some.inj head) notHead
    | cons a A =>
      rw [List.cons_append, List.nodup_cons, Option.some.inj head] at nodup
      exact fun inside => nodup.1 (List.mem_append_right _ inside)
  · have shorter := congrArg List.length whole
    have length := inv.length_le
    simp only [List.length_append, List.length_cons] at shorter
    omega

/-- The last instruction of a copied run branches the other way. -/
private theorem Inv.exchange (inv : Inv P s M src S e) {q b t : Nat} (member : q ∈ M) (next : b ∈ M ∧ b ≠ P.code.length)
    (linked : (s.heap q).link = some b ∧ ∀ x, expect P (s.heap q) (src q) = some x → src b = x)
    (as : (s.heap q).as = .ABcc .EQ ∨ (s.heap q).as = .ABcc .NE) (cond : (s.heap q).cond = some t)
    (unmarked : (s.heap t).mark = false) {s' : State α} {M' : List Nat} {src' : Nat → Nat} (copied : Copied P s M src S q s' M' src')
    {s'' : State α} (turned : s'' = s'.set s'.lastp { s'.heap s'.lastp with
      as := if (s.heap q).as = .ABcc .NE then .ABcc .EQ else .ABcc .NE, cond := some b, link := some t }) :
    Inv P s'' M' src' S (some t) ∧ Grows P s M src s'' M' src' ∧ t < P.code.length ∧ skips (P.heap t) = none ∧
      (s''.heap t).mark = false ∧ Reaches P t := by
  -- q is the source itself, because its target is still missing
  have own : core (s.heap q) = core (P.heap (src q)) := by
    rcases inv.items q member with ⟨branch, _⟩ | ⟨own, _⟩ | ⟨_, _, c, b', t', _, _, cond', placed, _⟩
    · rcases as with as | as <;> rw [as] at branch <;> cases branch
    · exact own
    · cases cond.symm.trans cond'
      rw [inv.placed t placed.1 placed.2] at unmarked
      cases unmarked
  have as' : (s.heap q).as = (P.heap (src q)).as := congrArg Prod.fst own
  have cond' : (P.heap (src q)).cond = some t := (congrArg (fun x => x.2.2.2) own).symm.trans cond
  obtain ⟨c, relation, opposite⟩ : ∃ c, (P.heap (src q)).as = .ABcc c ∧
      (if (s.heap q).as = .ABcc .NE then As.ABcc .EQ else .ABcc .NE) = .ABcc c.inv := by
    rcases as with as | as
    · exact ⟨.EQ, as' ▸ as, by rw [as]; rfl⟩
    · exact ⟨.NE, as' ▸ as, by rw [as]; rfl⟩
  have open_ : ends (P.heap (src q)) = false := by simp [ends, relation]
  have away : q ≠ P.code.length := by
    rintro rfl
    rw [inv.self _ (Nat.le_refl _), (heap_outside P (Nat.le_refl _)).1] at relation
    cases relation
  obtain ⟨small, other⟩ := heap_cond P cond'
  rw [opposite] at turned
  have marks : ∀ a, (s''.heap a).mark = (s'.heap a).mark := by
    intro a
    rw [turned]
    by_cases equal : a = s'.lastp
    · simp [State.set, equal]
    · simp [State.set, Function.update_of_ne equal]
  refine ⟨?_, ⟨copied.grows.sub, copied.grows.srcs, fun a inside => ?_, fun o inside mark => ?_⟩, small, skips_of_ne other, ?_,
    .target (inv.reached q member away) open_ (by rw [relation]; simp) trivial cond'⟩
  · rw [turned]
    refine copied.inv.turn (some t) (c := c) (b := b) (t := t) (by rw [copied.same, copied.source]; exact own)
      (by rw [copied.source]; exact relation) (by rw [copied.source]; exact cond') (copied.grows.sub next.1) next.2 ?_
    intro l link
    rw [copied.source] at link
    rw [copied.grows.srcs b next.1]
    apply linked.2
    have visible : skips (s.heap q) = none := skips_of_ne (by rw [as', relation]; simp)
    simp [expect, visible, as', open_, link]
  · have old : a ≠ s'.lastp := fun equal => copied.new (equal ▸ inside)
    rw [turned]
    simp only [State.set, Function.update_of_ne old]
    exact copied.grows.same a inside
  · rw [marks o]
    exact copied.grows.marks o inside mark
  · rw [marks t, copied.marks t small, unmarked]

theorem joined_spec {xfol : Nat → State α → Option (State α)} (inv : Inv P s M src S e) {p : Nat} (low : p < P.code.length)
    (member : p ∈ M) (awaited : e = none ∨ e = some p)
    (call : ∀ t s' M' src' e', Inv P s' M' src' S e' → Grows P s M src s' M' src' → t < P.code.length →
      skips (P.heap t) = none → Reaches P t → (s'.heap t).mark = false → (e' = none ∨ e' = some t) →
      ∃ s'', xfol t s' = some s'' ∧ Done P s' M' src' S (some t) s'') :
    ∃ s', joined xfol p s = some s' ∧ Done P s M src S (some p) s' := by
  have notHead : p ≠ P.code.length := Nat.ne_of_lt low
  have source : src p = p := inv.self p (Nat.le_of_lt low)
  have plain : skips (P.heap p) = none := by
    have := (inv.srcs p member).1
    rwa [source] at this
  have same := res_of_none P plain
  obtain ⟨A, B, shape⟩ := List.append_of_mem member
  have length := inv.length_le
  have sizes : A.length + B.length + 1 = M.length := by simp [shape]; omega
  obtain ⟨found, result, spec⟩ := scan_spec inv B A p 0 s.next shape (by omega)
  simp only [joined, result]
  cases found with
  | none =>
    obtain ⟨src', next, grows⟩ := inv.glue low member awaited
    exact ⟨_, rfl, _, src', next, grows, fun q equal => by cases equal; rw [same]; exact grows.sub member⟩
  | some q =>
    obtain ⟨stops, D, b, C, part⟩ := spec q rfl
    obtain ⟨R, whole, last, away, enough⟩ := inv.stretch shape notHead part
    have inside : q ∈ M := by
      rw [whole]
      exact List.mem_append_left _ (List.mem_append_right _ (List.mem_of_getLast? last))
    have next : b ∈ M ∧ b ≠ P.code.length := ⟨by simp [whole], fun equal => away (by simp [equal])⟩
    have place : M = (A ++ D) ++ q :: b :: C := by rw [shape, part]; simp
    have linked := inv.link place
    have notLast : q ≠ s.lastp := fun equal => by cases (inv.isLast place).mp equal
    obtain ⟨s', M', src', result', copied⟩ := copyRun_spec (S := S) R s.next inv whole last
      (fun here => away (List.mem_append_left _ here)) enough (by rwa [source])
    have here : s'.heap q = s.heap q := copied.others q inside notLast
    simp only [result', here]
    by_cases ended : ends (s.heap q) = true
    · rw [if_pos ended]
      have expected := copied.inv
      rw [inv.expect_ends inside ended] at expected
      exact ⟨s', rfl, M', src', expected, copied.grows, fun q' equal => by cases equal; rw [same]; exact copied.grows.sub member⟩
    · rw [if_neg ended]
      rcases stops with ended' | ⟨as, t, cond, unmarked⟩
      · exact absurd ended' ended
      simp only [linked.1, cond]
      obtain ⟨turned, grows, small, other, still, reached⟩ := inv.exchange inside next linked as cond unmarked copied rfl
      rw [if_neg (by rw [still]; simp)]
      obtain ⟨s'', result', done⟩ := call t _ _ _ _ turned grows small other reached still (Or.inr rfl)
      refine ⟨s'', result', Done.after grows done (fun q' equal => Or.inl ?_)⟩
      cases equal
      rw [same]
      exact grows.sub member

/-- How many instructions of the program have not been reached yet. -/
def unmarked (P : Program α) (s : State α) : Nat :=
  ((Finset.range P.code.length).filter (fun o => (s.heap o).mark = false)).card

omit [Inhabited α] in
private theorem unmarked_sub {s s' : State α} (marks : ∀ o, o < P.code.length → (s.heap o).mark = true → (s'.heap o).mark = true) :
    (Finset.range P.code.length).filter (fun o => (s'.heap o).mark = false) ⊆
      (Finset.range P.code.length).filter (fun o => (s.heap o).mark = false) := by
  intro o member
  rw [Finset.mem_filter] at member ⊢
  refine ⟨member.1, Bool.eq_false_iff.mpr fun mark => ?_⟩
  have := marks o (Finset.mem_range.mp member.1) mark
  rw [member.2] at this
  cases this

omit [Inhabited α] in
private theorem Grows.unmarked_le {s' : State α} {M' : List Nat} {src' : Nat → Nat} (grows : Grows P s M src s' M' src') :
    unmarked P s' ≤ unmarked P s := Finset.card_le_card (unmarked_sub grows.marks)

omit [Inhabited α] in
private theorem Grows.unmarked_lt {s' : State α} {M' : List Nat} {src' : Nat → Nat} (grows : Grows P s M src s' M' src')
    {p : Nat} (low : p < P.code.length) (before : (s.heap p).mark = false) (after : (s'.heap p).mark = true) :
    unmarked P s' < unmarked P s := by
  refine Finset.card_lt_card ⟨unmarked_sub grows.marks, fun sub => ?_⟩
  have member := sub (Finset.mem_filter.mpr ⟨Finset.mem_range.mpr low, before⟩)
  rw [Finset.mem_filter, after] at member
  cases member.2

omit [Inhabited α] in
private theorem unmarked_pos {p : Nat} (low : p < P.code.length) (before : (s.heap p).mark = false) : 0 < unmarked P s :=
  Finset.card_pos.mpr ⟨p, Finset.mem_filter.mpr ⟨Finset.mem_range.mpr low, before⟩⟩

/-- The fuel that a call uses at most. -/
def need (P : Program α) (s : State α) (po : Option Nat) : Nat :=
  match po with
  | some p => 2 * unmarked P s + if (s.heap p).mark = false ∧ skips (P.heap p) = none then 0 else 1
  | none => 1

/-- What `straighten` did to the instruction that was just placed. -/
private theorem straighten_spec (inv : Inv P s M src S e) {p l t : Nat} (last : s.lastp = p) (low : p < P.code.length)
    (same : core (s.heap p) = core (P.heap p)) (link : (s.heap p).link = some l) (link' : (P.heap p).link = some l)
    (cond : (P.heap p).cond = some t) (plain : (P.heap p).as ≠ .AB) (call : (P.heap p).as ≠ .ABL) :
    straighten p s = s ∨
      ∃ s' q, straighten p s = s' ∧ Inv P s' M src S (some t) ∧ (s'.heap p).link = some t ∧ (s'.heap p).cond = some q ∧
        q < P.code.length ∧ (P.heap q).as ≠ .AB ∧ q ∈ M ∧ ∀ a, (a ≠ p → s'.heap a = s.heap a) ∧ (s'.heap a).mark = (s.heap a).mark := by
  have as : (s.heap p).as = (P.heap p).as := congrArg Prod.fst same
  have cond' : (s.heap p).cond = some t := (congrArg (fun x => x.2.2.2) same).trans cond
  have source : src p = p := inv.self p (Nat.le_of_lt low)
  simp only [straighten, link]
  split
  next kind =>
    have chain := (brchain_spec inv (heap_link P link')).1
    split
    next q found =>
      obtain ⟨resolved, small, other⟩ := chain q found
      split
      next mark =>
        right
        have inside : q ∈ M := inv.marked q small mark (skips_of_ne other)
        obtain ⟨c, relation⟩ : ∃ c, (P.heap p).as = .ABcc c := by
          rw [as] at kind
          rcases heap_branch P cond with h | h | h | h | h
          · exact absurd h plain
          · exact absurd h call
          · exact absurd h kind.2
          · exact absurd h kind.1
          · exact h
        have turned := inv.turn (some t) (c := c) (b := q) (t := t) (by rw [last, source]; exact same)
          (by rw [last, source]; exact relation) (by rw [last, source]; exact cond) inside (Nat.ne_of_lt small)
          (by
            intro l' equal
            rw [last, source, link'] at equal
            cases equal
            rw [inv.self q (Nat.le_of_lt small)]
            exact resolved)
        have opposite : relinv (s.heap p).as = .ABcc c.inv := by rw [as, relation]; rfl
        simp only [last] at turned
        rw [opposite, cond']
        refine ⟨_, q, rfl, turned, by simp [State.set], by simp [State.set], small, other, inside, fun a => ⟨?_, ?_⟩⟩
        · intro different
          simp [State.set, Function.update_of_ne different]
        · by_cases equal : a = p
          · simp [State.set, equal]
          · simp [State.set, Function.update_of_ne equal]
      next => exact Or.inl rfl
    next => exact Or.inl rfl
  next => exact Or.inl rfl

omit [Inhabited α] in
/-- Setting a target to what it already is. -/
private theorem set_cond_self {p q : Nat} (cond : (s.heap p).cond = some q) : s.set p { s.heap p with cond := some q } = s := by
  have same : ({ s.heap p with cond := some q } : Prog α) = s.heap p := by rw [← cond]
  rw [same]
  simp [State.set]

/-- With this fuel `xfol` returns, and it has placed what it was called for. -/
def Works (P : Program α) (fuel : Nat) : Prop :=
  ∀ (po : Option Nat) {s : State α} {M : List Nat} {src : Nat → Nat} {S : Nat → Prop} {e : Option Nat}, Inv P s M src S e →
    (∀ p, po = some p → p < P.code.length ∧ Reaches P p ∧ (e = none ∨ e = some (res P p))) → (po = none → e = none) →
    need P s po ≤ fuel → ∃ s', xfol fuel po s = some s' ∧ Done P s M src S po s'

private theorem need_le (s : State α) (po : Option Nat) : need P s po ≤ 2 * unmarked P s + 1 := by
  cases po with
  | none => simp only [need]; omega
  | some p => simp only [need]; split <;> omega

/-- A call for something that is not placed yet. -/
private theorem Works.fresh {fuel : Nat} (works : Works P fuel) (inv : Inv P s M src S e) {t : Nat} (low : t < P.code.length)
    (plain : skips (P.heap t) = none) (reached : Reaches P t) (fresh : (s.heap t).mark = false) (awaited : e = none ∨ e = some t)
    (bound : 2 * unmarked P s ≤ fuel) : ∃ s', xfol fuel (some t) s = some s' ∧ Done P s M src S (some t) s' := by
  refine works (some t) inv (fun q same => ?_) (fun same => by cases same) ?_
  · cases same
    rw [res_of_none P plain]
    exact ⟨low, reached, awaited⟩
  · simp only [need, fresh, plain, and_self, if_true]
    omega

/-- A branch that is jumped over. -/
private theorem xfol_jump {fuel : Nat} (works : Works P fuel) (inv : Inv P s M src S e) {p q : Nat} (low : p < P.code.length)
    (jumps : skips (P.heap p) = some q) (reached : Reaches P p) (awaited : e = none ∨ e = some (res P p))
    (bound : 2 * unmarked P s ≤ fuel) :
    ∃ s', (if ((s.foll p).heap q).mark then joined (fun t => xfol fuel (some t)) q (s.foll p) else xfol fuel (some q) (s.foll p)) =
      some s' ∧ Done P s M src S (some p) s' := by
  obtain ⟨resolved, as, cond⟩ := res_of_some P jumps
  obtain ⟨small, other⟩ := heap_cond P cond
  have plain := skips_of_ne other
  obtain ⟨inv', grows, _⟩ := inv.foll low jumps
  rw [resolved] at awaited
  have fewer := grows.unmarked_le
  split
  next mark =>
    have member : q ∈ M := inv'.marked q small mark plain
    obtain ⟨s', result, done⟩ := joined_spec inv' small member awaited (fun t s' M' src' e' inv'' grows' small' plain' reached' fresh waits =>
      works.fresh inv'' small' plain' reached' fresh waits (by have := grows'.unmarked_le; omega))
    refine ⟨s', result, Done.after grows done (fun p' same => ?_)⟩
    cases same
    rw [resolved]
    exact Or.inl member
  next mark =>
    obtain ⟨s', result, done⟩ := works.fresh inv' small plain (.jump reached as cond) (Bool.eq_false_iff.mpr mark) awaited (by omega)
    refine ⟨s', result, Done.after grows done (fun p' same => ?_)⟩
    cases same
    rw [resolved]
    exact Or.inr ⟨rfl, plain⟩

/-- What is behind a branch and its target; one of them is the target `t` of the source. -/
private theorem branched_spec {fuel : Nat} (works : Works P fuel) {p l q t : Nat}
    (inv : Inv P s M src (fun t' => S t' ∨ t' = t) (some (res P l))) (member : p ∈ M) (placed : res P p = p)
    (link : (s.heap p).link = some l) (cond : (s.heap p).cond = some q) (low : l < P.code.length ∧ Reaches P l)
    (small : q < P.code.length ∧ Reaches P q) (other : (P.heap q).as ≠ .AB) (either : res P l = t ∨ q = t)
    (bound : 2 * unmarked P s + 1 ≤ fuel) :
    ∃ s', branched (xfol fuel) p s = some s' ∧ Done P s M src S (some p) s' := by
  obtain ⟨s₃, result, M₃, src₃, inv₃, grows₃, found₃⟩ := works (some l) inv
    (fun l' equal => by cases equal; exact ⟨low.1, low.2, Or.inr rfl⟩) (fun equal => by cases equal)
    (Nat.le_trans (need_le _ _) bound)
  have cond₃ : (s₃.heap p).cond = some q := by
    rw [show (s₃.heap p).cond = (s.heap p).cond from congrArg (fun x => x.2.2.2) (grows₃.same p member), cond]
  have plain := skips_of_ne other
  have behind := found₃ l rfl
  simp only [branched, link, result, cond₃, (brchain_spec inv₃ small.1).2 other, Option.some_or]
  split
  next mark₃ =>
    have found : q ∈ M₃ := inv₃.marked q small.1 mark₃ plain
    rw [set_cond_self cond₃]
    refine ⟨s₃, rfl, M₃, src₃, inv₃.settle (fun t' missing => ?_), grows₃, fun p' equal => ?_⟩
    · rcases missing with old | rfl
      · exact Or.inr old
      · rcases either with rfl | rfl
        · exact Or.inl behind
        · exact Or.inl found
    · cases equal
      rw [placed]
      exact grows₃.sub member
  next mark₃ =>
    have fewer := grows₃.unmarked_le
    obtain ⟨s₄, result₄, M₄, src₄, inv₄, grows₄, found₄⟩ := works.fresh inv₃ small.1 plain small.2 (Bool.eq_false_iff.mpr mark₃)
      (Or.inl rfl) (by omega)
    have found : q ∈ M₄ := by
      have := found₄ q rfl
      rwa [res_of_none P plain] at this
    refine ⟨s₄, result₄, M₄, src₄, inv₄.settle (fun t' missing => ?_), grows₃.trans P grows₄, fun p' equal => ?_⟩
    · rcases missing with old | rfl
      · exact Or.inr old
      · rcases either with rfl | rfl
        · exact Or.inl (grows₄.sub behind)
        · exact Or.inl found
    · cases equal
      rw [placed]
      exact grows₄.sub (grows₃.sub member)

/-- Placing a branch. -/
private theorem xfol_branch {fuel : Nat} (works : Works P fuel) (inv : Inv P s M src S e) {p l t : Nat} (low : p < P.code.length)
    (plain : skips (P.heap p) = none) (fresh : (s.heap p).mark = false) (reached : Reaches P p) (awaited : e = none ∨ e = some p)
    (stays : ends (P.heap p) = false) (target : (P.heap p).cond = some t) (call : (P.heap p).as ≠ .ABL)
    (after : (P.heap p).link = some l) (bound : 2 * unmarked P s ≤ fuel + 1) :
    ∃ s', branched (xfol fuel) p (straighten p ((s.foll p).append p)) = some s' ∧ Done P s M src S (some p) s' := by
  obtain ⟨small, other⟩ := heap_cond P target
  have resolved := res_of_none P plain
  have notBranch : (P.heap p).as ≠ .AB := fun equal => by simp [skips, equal, target] at plain
  have targets : ∀ t', (P.heap p).cond = some t' → (P.heap p).as ≠ .ABL → (P.heap p).link ≠ none → S t' ∨ t' = t :=
    fun t' equal _ _ => Or.inr (Option.some.inj (equal.symm.trans target))
  obtain ⟨next, grows, same, link, marked⟩ := inv.main low plain fresh reached awaited targets (fun t' h => Or.inl h)
  rw [if_neg (by simp [stays]), after, Option.map_some] at next
  rw [after] at link
  have fewer := grows.unmarked_lt low fresh marked
  have placed : p ∈ M ++ [p] := by simp
  have notIn : p ∉ M := fun member => by
    have := (inv.mem_of_mark low plain).mpr member
    rw [fresh] at this
    cases this
  have behind : Reaches P l := .fall reached stays after
  have there : Reaches P t := .target reached stays call trivial target
  generalize (s.foll p).append p = s₁ at *
  have lastp : s₁.lastp = p := by
    have := next.last
    simpa using this.symm
  rcases straighten_spec next lastp low same link after target notBranch call with
    unchanged | ⟨s₂, q, changed, turned, link₂, cond₂, small₂, other₂, inside, others⟩
  · rw [unchanged]
    have cond : (s₁.heap p).cond = some t := (congrArg (fun x => x.2.2.2) same).trans target
    obtain ⟨s', result, done⟩ := branched_spec works next placed resolved link cond ⟨heap_link P after, behind⟩ ⟨small, there⟩ other
      (Or.inr rfl) (by omega)
    exact ⟨s', result, Done.after grows done (fun p' equal => by cases equal; rw [resolved]; exact Or.inl placed)⟩
  · rw [changed]
    have grows₂ : Grows P s M src s₂ (M ++ [p]) src := by
      refine ⟨grows.sub, grows.srcs, fun a member => ?_, fun o inside' mark' => ?_⟩
      · rw [(others a).1 (fun equal => notIn (equal ▸ member))]
        exact grows.same a member
      · rw [(others o).2]
        exact grows.marks o inside' mark'
    have fewer₂ := grows₂.unmarked_lt low fresh (by rw [(others p).2]; exact marked)
    have straight : res P t = t := res_of_none P (skips_of_ne other)
    have away : q ≠ P.code.length := Nat.ne_of_lt small₂
    have reached₂ := turned.reached q inside away
    rw [turned.self q (Nat.le_of_lt small₂)] at reached₂
    obtain ⟨s', result, done⟩ := branched_spec (t := t) works (by rw [straight]; exact turned) placed resolved link₂ cond₂
      ⟨small, there⟩ ⟨small₂, reached₂⟩ other₂ (Or.inl straight) (by omega)
    exact ⟨s', result, Done.after grows₂ done (fun p' equal => by cases equal; rw [resolved]; exact Or.inl placed)⟩

/-- Placing an instruction that does not branch on, or ends a run. -/
private theorem xfol_other {fuel : Nat} (works : Works P fuel) (inv : Inv P s M src S e) {p : Nat} (low : p < P.code.length)
    (plain : skips (P.heap p) = none) (fresh : (s.heap p).mark = false) (reached : Reaches P p) (awaited : e = none ∨ e = some p)
    (other : ends (P.heap p) = false → ¬((P.heap p).cond ≠ none ∧ (P.heap p).as ≠ .ABL ∧ (P.heap p).link ≠ none))
    (bound : 2 * unmarked P s ≤ fuel + 1) :
    ∃ s', (if ends (P.heap p) then some ((s.foll p).append p) else xfol fuel (P.heap p).link ((s.foll p).append p)) = some s' ∧
      Done P s M src S (some p) s' := by
  have resolved := res_of_none P plain
  have targets : ∀ t, (P.heap p).cond = some t → (P.heap p).as ≠ .ABL → (P.heap p).link ≠ none → S t := by
    intro t target call behind
    exfalso
    cases stops : ends (P.heap p) with
    | false => exact other stops ⟨by simp [target], call, behind⟩
    | true =>
      rcases heap_branch P target with h | h | h | h | ⟨c, h⟩
      · simp [skips, h, target] at plain
      · exact call h
      · simp [ends, h] at stops
      · simp [ends, h] at stops
      · simp [ends, h] at stops
  obtain ⟨next, grows, _, _, marked⟩ := inv.main low plain fresh reached awaited targets (fun t h => h)
  have fewer := grows.unmarked_lt low fresh marked
  by_cases stops : ends (P.heap p) = true
  · rw [if_pos stops] at next ⊢
    exact ⟨_, rfl, _, src, next, grows, fun p' equal => by cases equal; rw [resolved]; simp⟩
  · rw [if_neg stops] at next ⊢
    obtain ⟨s', result, done⟩ := works (P.heap p).link next
      (fun l equal => ⟨heap_link P equal, .fall reached (Bool.eq_false_iff.mpr stops) equal, Or.inr (by rw [equal]; rfl)⟩)
      (fun equal => by rw [equal]; rfl) (Nat.le_trans (need_le _ _) (by omega))
    exact ⟨s', result, Done.after grows done (fun p' equal => by cases equal; rw [resolved]; exact Or.inl (by simp))⟩

/-- With enough fuel `xfol` returns, and it has placed what it was called for. -/
theorem xfol_spec (fuel : Nat) : Works P fuel := by
  induction fuel with
  | zero =>
    intro po s M src S e inv start _ enough
    exfalso
    cases po with
    | none => simp [need] at enough
    | some p =>
      simp only [need] at enough
      split at enough
      next fresh =>
        have := unmarked_pos (start p rfl).1 fresh.1
        omega
      next => omega
  | succ fuel works =>
    intro po s M src S e inv start halted enough
    cases po with
    | none => exact ⟨s, rfl, M, src, by rw [halted rfl] at inv; exact inv, Grows.refl P s M src, fun p same => by cases same⟩
    | some p =>
      obtain ⟨low, reached, awaited⟩ := start p rfl
      rw [xfol]
      have view : (if (s.heap p).as = .AB then (s.heap p).cond else none) = skips (P.heap p) := (inv.kept p low).1
      simp only [view]
      cases jumps : skips (P.heap p) with
      | some q =>
        simp only [need, jumps, reduceCtorEq, and_false, if_false] at enough
        exact xfol_jump works inv low jumps reached awaited (by omega)
      | none =>
        rw [res_of_none P jumps] at awaited
        simp only
        split
        next mark =>
          simp only [need, mark, Bool.true_eq_false, false_and, if_false] at enough
          exact joined_spec inv low (inv.marked p low mark jumps) awaited (fun t s' M' src' e' inv' grows small plain reached' fresh waits =>
            works.fresh inv' small plain reached' fresh waits (by have := grows.unmarked_le; omega))
        next mark =>
          have fresh : (s.heap p).mark = false := Bool.eq_false_iff.mpr mark
          have positive := unmarked_pos low fresh
          simp only [need, fresh, jumps, and_self, if_true] at enough
          have notIn : p ∉ M := fun member => mark ((inv.mem_of_mark low jumps).mpr member)
          obtain ⟨same, link⟩ := inv.unplaced p low notIn
          have as : (s.heap p).as = (P.heap p).as := congrArg Prod.fst same
          have scond : (s.heap p).scond = (P.heap p).scond := congrArg (fun x => x.2.1) same
          have cond : (s.heap p).cond = (P.heap p).cond := congrArg (fun x => x.2.2.2) same
          have ended : ends (s.heap p) = ends (P.heap p) := by simp only [ends, as, scond]
          simp only [ended, as, cond, link]
          by_cases branches : ends (P.heap p) = false ∧ (P.heap p).cond ≠ none ∧ (P.heap p).as ≠ .ABL ∧ (P.heap p).link ≠ none
          · obtain ⟨stays, branches⟩ := branches
            obtain ⟨t, target⟩ := Option.ne_none_iff_exists'.mp branches.1
            obtain ⟨l, after⟩ := Option.ne_none_iff_exists'.mp branches.2.2
            rw [if_neg (by simp [stays]), if_pos branches]
            exact xfol_branch works inv low jumps fresh reached awaited stays target branches.2.1 after (by omega)
          · have other : ends (P.heap p) = false → ¬((P.heap p).cond ≠ none ∧ (P.heap p).as ≠ .ABL ∧ (P.heap p).link ≠ none) :=
              fun stays all => branches ⟨stays, all⟩
            have placed := xfol_other works inv low jumps fresh reached awaited other (by omega)
            by_cases stops : ends (P.heap p) = true
            · rw [if_pos stops] at placed ⊢
              exact placed
            · rw [if_neg stops] at placed ⊢
              rw [if_neg (other (Bool.eq_false_iff.mpr stops))]
              exact placed

end Placing

end Goken.Proofs.Follow
