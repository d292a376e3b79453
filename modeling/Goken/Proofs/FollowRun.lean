import Goken.Proofs.Follow

/-! Execution of the reordered program. A run of the new list passes through
placed instructions whose sources are what the old program executes. -/

namespace Goken.Proofs.FollowRun
open Goken.Follow Goken.Proofs.Follow Lib.Arm

variable {α : Type} [Inhabited α] {P : Program α}

omit [Inhabited α] in
private theorem Run.idle {heap : Nat → Prog α} {a : Nat} {outs : List Bool} {evs : List (Event α)} {st : Succ}
    (run : Run heap a outs evs st) (empty : outs = []) : evs = [] ∧ st ≠ .leaves := by
  induction run with
  | stop a => exact ⟨rfl, by simp⟩
  | jump _ _ ih => exact ih empty
  | step => cases empty
  | last => cases empty

omit [Inhabited α] in
/-- A run is determined by the outcomes of its tests. -/
theorem Run.deterministic {heap : Nat → Prog α} {a : Nat} {outs : List Bool} {evs evs' : List (Event α)} {st st' : Succ}
    (first : Run heap a outs evs st) (second : Run heap a outs evs' st') : evs = evs' ∧ (st = .leaves ↔ st' = .leaves) := by
  induction first generalizing evs' st' with
  | stop a =>
    obtain ⟨none, stays⟩ := Run.idle second rfl
    exact ⟨none.symm, by simp [stays]⟩
  | jump branch rest ih =>
    cases second with
    | stop =>
      obtain ⟨none, stays⟩ := Run.idle rest rfl
      exact ⟨none, by simp [stays]⟩
    | jump branch' rest' =>
      cases branch.symm.trans branch'
      exact ih rest'
    | step visible => rw [branch] at visible; cases visible
    | last visible => rw [branch] at visible; cases visible
  | step visible goes rest ih =>
    cases second with
    | jump branch => rw [branch] at visible; cases visible
    | step _ goes' rest' =>
      cases goes.symm.trans goes'
      obtain ⟨same, out⟩ := ih rest'
      exact ⟨by rw [same], out⟩
    | last _ finished => exact absurd goes (finished _)
  | last visible finished =>
    cases second with
    | jump branch => rw [branch] at visible; cases visible
    | step _ goes _ => exact absurd goes (finished _)
    | last => exact ⟨rfl, Iff.rfl⟩

omit [Inhabited α] in
theorem canon_inv (c : Cond) : canon c.inv = canon c := by cases c <;> rfl

omit [Inhabited α] in
theorem taken_inv (c : Cond) (truth : Bool) : taken c.inv truth = !taken c truth := by
  cases c <;> simp [taken, positive, Cond.inv]

/-- The state before the pass. -/
theorem inv_start : Inv P ⟨P.heap, P.code.length + 1, P.code.length⟩ [P.code.length] id (fun _ => False) none := by
  obtain ⟨as, link, cond⟩ := heap_outside P (Nat.le_refl _)
  have marks : ∀ o, (P.heap o).mark = false := by
    intro o
    simp only [Program.heap]
    split <;> rfl
  refine ⟨Nat.lt_succ_self _, rfl, ?_, by simp, rfl, List.IsChain.singleton _, ?_, fun _ _ => rfl, ?_,
    fun _ member => member, ?_, ?_, fun _ _ _ => ⟨rfl, rfl⟩, ?_, fun _ _ => ⟨rfl, Iff.rfl⟩, ?_⟩
  · intro a member
    rw [List.mem_singleton.mp member]
    exact Nat.lt_succ_self _
  · intro x waits
    simp [expect, skips, ends, as, link] at waits
  · intro a member
    rw [List.mem_singleton.mp member]
    exact ⟨by simp [skips, as], fun away => absurd rfl away⟩
  · intro a member away
    exact absurd (List.mem_singleton.mp member) away
  · intro a member away
    exact absurd (List.mem_singleton.mp member) away
  · intro o _ mark
    rw [marks o] at mark
    cases mark
  · intro a member
    rw [List.mem_singleton.mp member]
    exact Or.inr (Or.inl ⟨rfl, fun t target => by
      have := cond.symm.trans target
      cases this⟩)

/-- The pass returns. -/
theorem follow_returns (P : Program α) (fuel : Nat) (enough : 2 * P.code.length + 1 ≤ fuel) : ∃ s M src,
    follow fuel P = some (s.set s.lastp { s.heap s.lastp with link := none }) ∧ Inv P s M src (fun _ => False) none ∧
      ∀ t, P.textp = some t → res P t ∈ M := by
  have few : unmarked P ⟨P.heap, P.code.length + 1, P.code.length⟩ ≤ P.code.length := by
    have := Finset.card_filter_le (Finset.range P.code.length) (fun o => (P.heap o).mark = false)
    rwa [Finset.card_range] at this
  obtain ⟨s, result, M, src, inv, _, found⟩ := xfol_spec fuel P.textp inv_start
    (fun t same => ⟨P.textp_lt t same, .start same, Or.inl rfl⟩) (fun _ => rfl) (by
      cases P.textp with
      | none => simp only [need]; omega
      | some t => simp only [need]; split <;> omega)
  exact ⟨s, M, src, by simp [follow, result], inv, found⟩

/-! The finished list. -/

/-- `lastp->link = P`. -/
private def closed (s : State α) : State α := s.set s.lastp { s.heap s.lastp with link := none }

section Closed

variable {s : State α} {M : List Nat} {src : Nat → Nat}

omit [Inhabited α] in
private theorem closed_core (s : State α) (a : Nat) : core ((closed s).heap a) = core (s.heap a) := by
  by_cases last : a = s.lastp
  · subst last
    simp [closed, State.set, core]
  · simp [closed, State.set, Function.update_of_ne last]

private theorem closed_link (inv : Inv P s M src (fun _ => False) none) {a : Nat} (member : a ∈ M) :
    ((closed s).heap a).link = none ∧ expect P (s.heap a) (src a) = none ∨ ∃ b ∈ M, b ≠ P.code.length ∧
      ((closed s).heap a).link = some b ∧ ∀ x, expect P (s.heap a) (src a) = some x → src b = x := by
  obtain ⟨A, B, shape⟩ := List.append_of_mem member
  cases B with
  | nil =>
    have last := (inv.isLast shape).mpr rfl
    subst last
    refine Or.inl ⟨by simp [closed, State.set], ?_⟩
    cases waits : expect P (s.heap s.lastp) (src s.lastp) with
    | none => rfl
    | some x => cases inv.opened x waits
  | cons b B =>
    have early : a ≠ s.lastp := fun last => by cases (inv.isLast shape).mp last
    obtain ⟨link, next⟩ := inv.link shape
    refine Or.inr ⟨b, by simp [shape], fun first => ?_, ?_, next⟩
    · have head := inv.head
      have nodup := inv.nodup
      rw [shape] at head nodup
      cases A with
      | nil =>
        rw [List.nil_append, List.head?_cons, Option.some.injEq] at head
        rw [head, first] at nodup
        simp at nodup
      | cons c A =>
        rw [List.cons_append, List.head?_cons, Option.some.injEq] at head
        rw [head, first] at nodup
        simp at nodup
    · simpa [closed, State.set, Function.update_of_ne early] using link

/-- How the continuation of a placed instruction matches that of its source. -/
private def Follows (P : Program α) (M : List Nat) (src : Nat → Nat) : Succ → Succ → Prop
  | .goes o, new => ∃ b ∈ M, b ≠ P.code.length ∧ new = .goes b ∧ src b = res P o
  | .leaves, new => new = .leaves
  | .off, new => ∀ b, new = .goes b → b ∈ M ∧ b ≠ P.code.length

private theorem Follows.inside {old new : Succ} (follows : Follows P M src old new) {b : Nat} (goes : new = .goes b) :
    b ∈ M ∧ b ≠ P.code.length := by
  cases old with
  | goes o =>
    obtain ⟨b', member, away, same, _⟩ := follows
    cases goes.symm.trans same
    exact ⟨member, away⟩
  | leaves => cases goes.symm.trans follows
  | off => exact follows b goes

private theorem follows_target (inv : Inv P s M src (fun _ => False) none) {t : Nat} (inside : t < P.code.length)
    (member : t ∈ M) (plain : skips (P.heap t) = none) : Follows P M src (.goes t) (.goes t) :=
  ⟨t, member, by omega, rfl, by rw [inv.self t (by omega), res_of_none P plain]⟩

private theorem follows_fall (inv : Inv P s M src (fun _ => False) none) {a : Nat} (member : a ∈ M)
    (as : (s.heap a).as = (P.heap (src a)).as) (plain : skips (s.heap a) = none) (goesOn : ends (P.heap (src a)) = false) :
    Follows P M src (fallThrough (P.heap (src a)).link) (fallThrough ((closed s).heap a).link) := by
  have waits : expect P (s.heap a) (src a) = (P.heap (src a)).link.map (res P) := by simp [expect, plain, as, goesOn]
  rcases closed_link inv member with ⟨link, nothing⟩ | ⟨b, inside, away, link, next⟩
  · rw [waits, Option.map_eq_none_iff] at nothing
    rw [nothing, link]
    intro b goes
    cases goes
  · rw [link]
    cases old : (P.heap (src a)).link with
    | none =>
      intro b' goes
      cases goes
      exact ⟨inside, away⟩
    | some l =>
      rw [old] at waits
      exact ⟨b, inside, away, rfl, next (res P l) waits⟩

/-- The instruction at `a` does what its source does. -/
private structure Acts (P : Program α) (s : State α) (M : List Nat) (src : Nat → Nat) (a : Nat) : Prop where
  visible : silent ((closed s).heap a) = none
  event : ∀ truth, (exec ((closed s).heap a) truth).1 = (exec (P.heap (src a)) truth).1
  follows : ∀ truth, Follows P M src (exec (P.heap (src a)) truth).2 (exec ((closed s).heap a) truth).2

omit [Inhabited α] in
private theorem silent_none {n : Prog α} (stays : skips n = none) : silent n = none := by
  by_cases jumps : n.as = .AB <;> simp_all [silent, skips]

omit [Inhabited α] in
private theorem silent_some {n : Prog α} {t : Nat} (branch : silent n = some t) : skips n = some t ∧ n.scond = none := by
  unfold silent at branch
  split at branch
  next plain => exact ⟨by rw [skips, if_pos plain.1, branch], plain.2⟩
  next => cases branch

/-- What has to come behind a placed instruction is placed. -/
private theorem next_mem (inv : Inv P s M src (fun _ => False) none) {a x : Nat} (member : a ∈ M)
    (waits : expect P (s.heap a) (src a) = some x) : x ∈ M := by
  rcases closed_link inv member with ⟨_, nothing⟩ | ⟨b, inside, _, _, next⟩
  · cases waits.symm.trans nothing
  · exact next x waits ▸ inv.origin b inside

private theorem not_glue (inv : Inv P s M src (fun _ => False) none) {o x : Nat} (member : o ∈ M) (low : o < P.code.length)
    (as : (s.heap o).as = .AB) (cond : (s.heap o).cond = some x) : False := by
  have kept := (inv.kept o low).1
  have stays := (inv.srcs o member).1
  rw [inv.self o (Nat.le_of_lt low)] at stays
  rw [stays, skips, if_pos as, cond] at kept
  cases kept

private theorem low_of_open {o : Nat} (goesOn : ends (P.heap o) = false) (more : (P.heap o).link ≠ none ∨ (P.heap o).cond ≠ none) :
    o < P.code.length ∧ skips (P.heap o) = none := by
  constructor
  · by_contra outside
    obtain ⟨_, link, cond⟩ := heap_outside P (Nat.not_lt.mp outside)
    exact more.elim (fun some => some link) fun some => some cond
  · apply skips_of_ne
    intro as
    simp [ends, as] at goesOn

/-- Everything that `xfol` gets to is placed, if the targets of the branches are. -/
private theorem visits_mem (inv : Inv P s M src (fun _ => False) none) (first : ∀ t, P.textp = some t → res P t ∈ M) {o : Nat}
    (visits : Visits P o) : res P o ∈ M := by
  induction visits with
  | start start => exact first _ start
  | @jump o t _ as cond ih =>
    have jumps : skips (P.heap o) = some t := by rw [skips, if_pos as, cond]
    rw [(res_of_some P jumps).1] at ih
    rwa [res_of_none P (skips_cond P cond)]
  | @fall o l _ goesOn link ih =>
    obtain ⟨low, stays⟩ := low_of_open goesOn (Or.inl (by simp [link]))
    rw [res_of_none P stays] at ih
    have self := inv.self o (Nat.le_of_lt low)
    rcases inv.items o ih with ⟨as, _, cond, _⟩ | ⟨same, _⟩ | ⟨_, _, c, b, t, _, _, _, inside, _, next⟩
    · exact (not_glue inv ih low as cond).elim
    · rw [self] at same
      have as : (s.heap o).as = (P.heap o).as := congrArg Prod.fst same
      have visible : skips (s.heap o) = none := (skips_congr same).trans stays
      exact next_mem inv ih (by simp [expect, self, visible, as, goesOn, link])
    · rw [self] at next
      exact next l link ▸ inv.origin b inside.1
  | @target o t _ goesOn call behind cond ih =>
    obtain ⟨low, stays⟩ := low_of_open goesOn (Or.inr (by simp [cond]))
    rw [res_of_none P stays] at ih
    rw [res_of_none P (skips_cond P cond)]
    have self := inv.self o (Nat.le_of_lt low)
    rcases inv.items o ih with ⟨as, _, cond', _⟩ | ⟨_, targets⟩ | ⟨_, _, c, b, t', old, new, _, _, target, _⟩
    · exact (not_glue inv ih low as cond').elim
    · rw [self] at targets
      exact (targets t cond call behind).resolve_right id
    · rw [self] at old target
      have other : c.inv ≠ c := by cases c <;> decide
      exact next_mem inv ih (by simp [expect, self, skips, new, old, other, cond])

private theorem Plain.visits (plain : Plain P) {o : Nat} (reached : Reaches P o) : Visits P o := by
  induction reached with
  | start first => exact .start first
  | jump _ as cond ih => exact .jump ih as cond
  | fall _ goesOn link ih => exact .fall ih goesOn link
  | @target o t _ goesOn call _ cond ih =>
    by_cases last : (P.heap o).link = none
    · exact plain.last o ih goesOn call last t cond
    · exact .target ih goesOn call last cond

private theorem Plain.scond (plain : Plain P) {o : Nat} (reached : Reaches P o)
    (jumps : (P.heap o).as = .AB ∨ (P.heap o).as = .ARFE) : (P.heap o).scond = none :=
  plain.always o (Plain.visits plain reached) jumps

private theorem Plain.stays (plain : Plain P) {o : Nat} (reached : Reaches P o) (visible : silent (P.heap o) = none) :
    skips (P.heap o) = none := by
  by_cases jumps : (P.heap o).as = .AB
  · rw [silent, if_pos ⟨jumps, Plain.scond plain reached (Or.inl jumps)⟩] at visible
    rw [skips, if_pos jumps, visible]
  · exact skips_of_ne jumps

/-- What is placed at the end, with all that `xfol` gets to. -/
private structure Finished (P : Program α) (s : State α) (M : List Nat) (src : Nat → Nat) : Prop where
  inv : Inv P s M src (fun _ => False) none
  placed : ∀ o, Visits P o → res P o ∈ M

private theorem acts_same (finished : Finished P s M src) (plain : Plain P) {a : Nat} (member : a ∈ M) (away : a ≠ P.code.length)
    (same : core (s.heap a) = core (P.heap (src a))) (targets : ∀ t, (P.heap (src a)).cond = some t →
      (P.heap (src a)).as ≠ .ABL → (P.heap (src a)).link ≠ none → t ∈ M ∨ False) : Acts P s M src a := by
  obtain ⟨stays, _⟩ := finished.inv.srcs a member
  have reached := finished.inv.reached a member away
  have new := (closed_core s a).trans same
  have fall := follows_fall finished.inv member (congrArg Prod.fst same) (by rw [skips_congr same, stays])
  have jump : ends (P.heap (src a)) = false → (P.heap (src a)).as ≠ .ABL →
      Follows P M src (branch (P.heap (src a)).cond) (branch (P.heap (src a)).cond) := by
    intro goesOn call
    cases target : (P.heap (src a)).cond with
    | none => exact rfl
    | some t =>
      have straight := skips_cond P target
      have found : t ∈ M := by
        by_cases last : (P.heap (src a)).link = none
        · have there := finished.placed t (plain.last _ (Plain.visits plain reached) goesOn call last t target)
          rwa [res_of_none P straight] at there
        · exact (targets t target call last).resolve_right id
      exact follows_target finished.inv (heap_cond P target).1 found straight
  have quiet := silent_none stays
  have scond := Plain.scond plain reached
  simp only [core, Prod.mk.injEq] at new
  obtain ⟨as, cond', ins, cond⟩ := new
  refine ⟨?_, fun truth => ?_, fun truth => ?_⟩
  · rw [← quiet]
    simp only [silent, as, cond', cond]
  · simp only [exec, as, cond', ins]
    cases (P.heap (src a)).as <;> cases (P.heap (src a)).scond <;> rfl
  · simp only [exec, as, cond', cond]
    cases kind : (P.heap (src a)).as with
    | AB => rw [scond (Or.inl kind)]; exact rfl
    | ABcc c =>
      simp only
      split
      · exact jump (by simp [ends, kind]) (by simp [kind])
      · exact fall (by simp [ends, kind])
    | ABCASE =>
      simp only
      split
      · exact jump (by simp [ends, kind]) (by simp [kind])
      · exact fall (by simp [ends, kind])
    | ARET =>
      cases when : (P.heap (src a)).scond with
      | none => exact rfl
      | some c =>
        simp only
        split
        · exact rfl
        · exact fall (by simp [ends, kind, when])
    | ARFE => rw [scond (Or.inr kind)]; exact rfl
    | ATEXT => exact fall (by simp [ends, kind])
    | ABL => exact fall (by simp [ends, kind])
    | ANOP => exact fall (by simp [ends, kind])
    | AOTHER => exact fall (by simp [ends, kind])

private theorem acts_turned (inv : Inv P s M src (fun _ => False) none) {a b t : Nat} {c : Cond} (member : a ∈ M)
    (ins : (s.heap a).ins = (P.heap (src a)).ins) (old : (P.heap (src a)).as = .ABcc c) (new : (s.heap a).as = .ABcc c.inv)
    (cond : (s.heap a).cond = some b) (inside : b ∈ M ∧ b ≠ P.code.length) (target : (P.heap (src a)).cond = some t)
    (next : ∀ l, (P.heap (src a)).link = some l → src b = res P l) : Acts P s M src a := by
  have same := closed_core s a
  simp only [core, Prod.mk.injEq] at same
  obtain ⟨as', _, ins', cond'⟩ := same
  rw [new] at as'
  rw [ins] at ins'
  rw [cond] at cond'
  have other : c.inv ≠ c := by cases c <;> decide
  have waits : expect P (s.heap a) (src a) = some t := by simp [expect, skips, new, old, other, target]
  refine ⟨by simp [silent, as'], fun truth => by simp [exec, as', ins', old, canon_inv], fun truth => ?_⟩
  simp only [exec, as', old, cond', target, taken_inv]
  cases taken c truth with
  | true =>
    rcases closed_link inv member with ⟨_, nothing⟩ | ⟨b', inside', away, link, next'⟩
    · rw [waits] at nothing
      cases nothing
    · rw [link]
      exact ⟨b', inside', away, rfl, by rw [next' t waits, res_of_none P (skips_cond P target)]⟩
  | false =>
    cases link : (P.heap (src a)).link with
    | none =>
      intro b' goes
      cases goes
      exact inside
    | some l => exact ⟨b, inside.1, inside.2, rfl, next l link⟩

/-- A placed instruction is an inserted branch to its source, or it acts. -/
private theorem acts (finished : Finished P s M src) (plain : Plain P) {a : Nat} (member : a ∈ M) (away : a ≠ P.code.length) :
    silent ((closed s).heap a) = some (src a) ∧ src a ∈ M ∧ src a ≠ P.code.length ∨ Acts P s M src a := by
  rcases finished.inv.items a member with ⟨as, scond, cond, found⟩ | ⟨same, targets⟩ |
    ⟨ins, _, c, b, t, old, new, cond, inside, target, next⟩
  · have low := (finished.inv.srcs a member).2 away
    have core := closed_core s a
    simp only [Goken.Proofs.Follow.core, Prod.mk.injEq] at core
    exact Or.inl ⟨by simp [silent, core, as, scond, cond], found, by omega⟩
  · exact Or.inr (acts_same finished plain member away same targets)
  · exact Or.inr (acts_turned finished.inv member ins old new cond inside target next)

/-- Behind at most one inserted branch there is an instruction that acts. -/
private theorem arrives (finished : Finished P s M src) (plain : Plain P) {a : Nat} (member : a ∈ M) (away : a ≠ P.code.length) :
    ∃ a' ∈ M, a' ≠ P.code.length ∧ src a' = src a ∧ Acts P s M src a' ∧
      ∀ outs evs st, Run (closed s).heap a' outs evs st → Run (closed s).heap a outs evs st := by
  rcases acts finished plain member away with ⟨branch, found, elsewhere⟩ | here
  · have low := (finished.inv.srcs a member).2 away
    have self := finished.inv.self (src a) (Nat.le_of_lt low)
    rcases acts finished plain found elsewhere with ⟨again, _⟩ | here
    · have same := closed_core s (src a)
      have jumps := (silent_some again).1
      rw [skips_congr same, (finished.inv.kept (src a) low).1, (finished.inv.srcs a member).1] at jumps
      cases jumps
    · exact ⟨src a, found, elsewhere, self, here, fun outs evs st run => Run.jump branch run⟩
  · exact ⟨a, member, away, rfl, here, fun _ _ _ run => run⟩

private theorem new_total (finished : Finished P s M src) (plain : Plain P) : ∀ (outs : List Bool) {a : Nat},
    a ∈ M → a ≠ P.code.length → ∃ evs st, Run (closed s).heap a outs evs st := by
  intro outs
  induction outs with
  | nil => exact fun {a} _ _ => ⟨[], .goes a, Run.stop a⟩
  | cons truth outs ih =>
    intro a member away
    obtain ⟨a', _, _, _, acts, back⟩ := arrives finished plain member away
    by_cases goesOn : ∃ b, (exec ((closed s).heap a') truth).2 = .goes b
    · obtain ⟨b, goes⟩ := goesOn
      obtain ⟨inside, elsewhere⟩ := (acts.follows truth).inside goes
      obtain ⟨evs, st, run⟩ := ih inside elsewhere
      exact ⟨_, _, back _ _ _ (Run.step acts.visible goes run)⟩
    · exact ⟨_, _, back _ _ _ (Run.last acts.visible fun b goes => goesOn ⟨b, goes⟩)⟩

/-- Execution stays in the list. -/
private theorem run_stays (finished : Finished P s M src) (plain : Plain P) {a : Nat} {outs : List Bool} {evs : List (Event α)}
    {st : Succ} (run : Run (closed s).heap a outs evs st) : a ∈ M → a ≠ P.code.length → ∀ b, st = .goes b → b ∈ M := by
  induction run with
  | stop a =>
    intro member _ b same
    cases same
    exact member
  | @jump a b outs evs st branch _ ih =>
    intro member away
    rcases acts finished plain member away with ⟨here, found, elsewhere⟩ | here
    · cases branch.symm.trans here
      exact ih found elsewhere
    · cases here.visible.symm.trans branch
  | @step a b truth outs evs st visible goes _ ih =>
    intro member away
    rcases acts finished plain member away with ⟨here, _⟩ | here
    · cases visible.symm.trans here
    · obtain ⟨inside, elsewhere⟩ := (here.follows truth).inside goes
      exact ih inside elsewhere
  | last _ ends =>
    intro _ _ b goes
    exact absurd goes (ends b)

private theorem old_total : ∀ (outs : List Bool) (o : Nat), ∃ evs st, Run P.heap o outs evs st := by
  intro outs
  induction outs with
  | nil => exact fun o => ⟨[], .goes o, Run.stop o⟩
  | cons truth outs ih =>
    have direct : ∀ o, silent (P.heap o) = none → ∃ evs st, Run P.heap o (truth :: outs) evs st := by
      intro o visible
      by_cases goesOn : ∃ b, (exec (P.heap o) truth).2 = .goes b
      · obtain ⟨b, goes⟩ := goesOn
        obtain ⟨evs, st, run⟩ := ih b
        exact ⟨_, _, Run.step visible goes run⟩
      · exact ⟨_, _, Run.last visible fun b goes => goesOn ⟨b, goes⟩⟩
    intro o
    cases branch : silent (P.heap o) with
    | none => exact direct o branch
    | some t =>
      obtain ⟨_, _, cond⟩ := res_of_some P (silent_some branch).1
      obtain ⟨evs, st, run⟩ := direct t (silent_none (skips_cond P cond))
      exact ⟨evs, st, Run.jump branch run⟩

private theorem fallThrough_goes {link : Option Nat} {b : Nat} (goes : fallThrough link = .goes b) : link = some b := by
  cases link with
  | none => cases goes
  | some a => cases goes; rfl

private theorem branch_goes {cond : Option Nat} {b : Nat} (goes : branch cond = .goes b) : cond = some b := by
  cases cond with
  | none => cases goes
  | some a => cases goes; rfl

/-- Execution gets nowhere where `xfol` does not. -/
private theorem reaches_exec (plain : Plain P) {o b : Nat} {truth : Bool} (reached : Reaches P o)
    (goes : (exec (P.heap o) truth).2 = .goes b) : Reaches P b := by
  have scond := Plain.scond plain reached
  have fall : ends (P.heap o) = false → fallThrough (P.heap o).link = .goes b → Reaches P b :=
    fun goesOn falls => .fall reached goesOn (fallThrough_goes falls)
  have jump : ends (P.heap o) = false → (P.heap o).as ≠ .ABL → branch (P.heap o).cond = .goes b → Reaches P b :=
    fun goesOn call jumps => .target reached goesOn call trivial (branch_goes jumps)
  cases kind : (P.heap o).as with
  | AB =>
    simp only [exec, kind, scond (Or.inl kind)] at goes
    cases goes
  | ARFE =>
    simp only [exec, kind, scond (Or.inr kind)] at goes
    cases goes
  | ARET =>
    cases when : (P.heap o).scond with
    | none =>
      simp only [exec, kind, when] at goes
      cases goes
    | some c =>
      simp only [exec, kind, when] at goes
      split at goes
      · cases goes
      · exact fall (by simp [ends, kind, when]) goes
  | ABcc c =>
    simp only [exec, kind] at goes
    split at goes
    · exact jump (by simp [ends, kind]) (by simp [kind]) goes
    · exact fall (by simp [ends, kind]) goes
  | ABCASE =>
    simp only [exec, kind] at goes
    split at goes
    · exact jump (by simp [ends, kind]) (by simp [kind]) goes
    · exact fall (by simp [ends, kind]) goes
  | _ =>
    simp only [exec, kind] at goes
    exact fall (by simp [ends, kind]) goes

/-- The new list simulates the old program: induction on the old run, with the
source of the placed instruction as the relation. -/
private theorem simulates (finished : Finished P s M src) (plain : Plain P) {o : Nat} {outs : List Bool} {evs : List (Event α)}
    {st : Succ} (run : Run P.heap o outs evs st) : Reaches P o → ∀ a ∈ M, a ≠ P.code.length → src a = res P o →
      ∃ evs' st', Run (closed s).heap a outs evs' st' ∧ Agrees evs st evs' st' := by
  induction run with
  | stop o =>
    intro _ a _ _ _
    exact ⟨[], .goes a, Run.stop a, Or.inl ⟨rfl, by simp⟩⟩
  | @jump o t outs evs st branch _ ih =>
    intro reached a member away same
    obtain ⟨target, as, cond⟩ := res_of_some P (silent_some branch).1
    exact ih (.jump reached as cond) a member away (by rw [same, target, res_of_none P (skips_cond P cond)])
  | @step o o' truth outs evs st visible goes _ ih =>
    intro reached a member away same
    rw [res_of_none P (Plain.stays plain reached visible)] at same
    obtain ⟨a', _, _, source, acts, back⟩ := arrives finished plain member away
    have follows := acts.follows truth
    rw [source, same, goes] at follows
    obtain ⟨b, inside, elsewhere, goes', next⟩ := follows
    obtain ⟨evs', st', run', agrees⟩ := ih (reaches_exec plain reached goes) b inside elsewhere next
    refine ⟨_, st', back _ _ _ (Run.step acts.visible goes' run'), ?_⟩
    rw [acts.event truth, source, same]
    rcases agrees with ⟨equal, out⟩ | ⟨off, sub⟩
    · exact Or.inl ⟨by rw [equal], out⟩
    · exact Or.inr ⟨off, (List.prefix_cons_inj _).mpr sub⟩
  | @last o truth outs visible stays =>
    intro reached a member away same
    rw [res_of_none P (Plain.stays plain reached visible)] at same
    obtain ⟨a', _, _, source, acts, back⟩ := arrives finished plain member away
    have follows := acts.follows truth
    have event := acts.event truth
    rw [source, same] at follows event
    cases final : (exec (P.heap o) truth).2 with
    | goes o' => exact absurd final (stays o')
    | leaves =>
      rw [final] at follows
      have leaves : (exec ((closed s).heap a') truth).2 = .leaves := follows
      refine ⟨_, _, back _ _ _ (Run.last acts.visible fun b goes => by rw [leaves] at goes; cases goes), ?_⟩
      exact Or.inl ⟨by rw [event], by rw [leaves]⟩
    | off =>
      by_cases goesOn : ∃ b, (exec ((closed s).heap a') truth).2 = .goes b
      · obtain ⟨b, goes⟩ := goesOn
        obtain ⟨inside, elsewhere⟩ := follows.inside goes
        obtain ⟨evs', st', run'⟩ := new_total finished plain outs inside elsewhere
        refine ⟨_, _, back _ _ _ (Run.step acts.visible goes run'), Or.inr ⟨rfl, ?_⟩⟩
        rw [event]
        exact (List.prefix_cons_inj _).mpr (List.nil_prefix)
      · refine ⟨_, _, back _ _ _ (Run.last acts.visible fun b goes => goesOn ⟨b, goes⟩), Or.inr ⟨rfl, ?_⟩⟩
        rw [event]

/-- `xfol` gets to every `TEXT`. -/
private theorem visits_text (t : Nat) : ∀ i, P.code[t]? = some i → i.as = .ATEXT → Visits P t := by
  induction t using Nat.strong_induction_on with
  | _ t ih =>
    intro i found text
    rcases P.texts t i found text with start | ⟨t', i', before, found', text', cond⟩
    · exact .start start
    · obtain ⟨as', _, _, cond'⟩ := heap_get P found'
      have low : t < P.code.length := (List.getElem?_eq_some_iff.mp found).1
      have goesOn : ends (P.heap t') = false := by simp [ends, as', text']
      have behind : (P.heap t').link ≠ none := by simp [Program.heap, found', show t' + 1 < P.code.length by omega]
      exact .target (ih t' before i' found' text') goesOn (by simp [as', text']) behind (cond'.trans cond)

/-- All that is placed is in the list. -/
private theorem mem_listed (inv : Inv P s M src (fun _ => False) none) {A : List Nat} : ∀ {B : List Nat} {a : Nat},
    M = A ++ a :: B → Listed (closed s).heap P.code.length a := by
  induction A using List.reverseRecOn with
  | nil =>
    intro B a shape
    have head := inv.head
    rw [shape] at head
    cases head
    exact .here
  | append_singleton A c ih =>
    intro B a shape
    have shape' : M = A ++ c :: a :: B := by rw [shape, List.append_assoc, List.singleton_append]
    have early : c ≠ s.lastp := fun last => by cases (inv.isLast shape').mp last
    refine .link (ih shape') ?_
    simpa [closed, State.set, Function.update_of_ne early] using (inv.link shape').1

private theorem listed_mem (inv : Inv P s M src (fun _ => False) none) {a : Nat}
    (listed : Listed (closed s).heap P.code.length a) : a ∈ M := by
  induction listed with
  | here => exact inv.head_mem
  | link _ link ih =>
    rcases closed_link inv ih with ⟨none, _⟩ | ⟨b, inside, _, next, _⟩
    · cases link.symm.trans none
    · cases link.symm.trans next
      exact inside

private theorem preserved (finished : Finished P s M src) (plain : Plain P) : Preserves P (closed s) := by
  intro t i found text outs
  have inv := finished.inv
  have visits := visits_text t i found text
  have low : t < P.code.length := (List.getElem?_eq_some_iff.mp found).1
  have stays : skips (P.heap t) = none := skips_of_ne (by simp [(heap_get P found).1, text])
  have member := finished.placed t visits
  rw [res_of_none P stays] at member
  have source : src t = res P t := by rw [inv.self t (by omega), res_of_none P stays]
  have reached : Reaches P t := by
    have self := inv.reached t member (by omega)
    rwa [inv.self t (by omega)] at self
  have forward := fun evs st (run : Run P.heap t outs evs st) => simulates finished plain run reached t member (by omega) source
  refine ⟨forward, fun evs' st' run' => ?_, fun evs' a run' => ?_⟩
  · obtain ⟨evs, st, run⟩ := old_total (P := P) outs t
    obtain ⟨evs'', st'', run'', agrees⟩ := forward evs st run
    obtain ⟨equal, out⟩ := Run.deterministic run'' run'
    rcases agrees with ⟨same, leaves⟩ | ⟨off, sub⟩
    · exact ⟨evs, st, run, Or.inl ⟨equal.symm.trans same, leaves.trans out⟩⟩
    · exact ⟨evs, st, run, Or.inr ⟨off, equal ▸ sub⟩⟩
  · obtain ⟨A, B, shape⟩ := List.append_of_mem (run_stays finished plain run' member (by omega) a rfl)
    exact mem_listed inv shape

end Closed

/-! A branch with a condition of its own is lost. -/

section Lost

omit [Inhabited α] in
private theorem Run.append {heap : Nat → Prog α} {a o : Nat} {outs outs' : List Bool} {evs evs' : List (Event α)} {st : Succ}
    (first : Run heap a outs evs (.goes o)) (second : Run heap o outs' evs' st) : Run heap a (outs ++ outs') (evs ++ evs') st := by
  generalize final : Succ.goes o = stop at first
  induction first with
  | stop a =>
    cases final
    exact second
  | jump branch _ ih => exact .jump branch (ih final)
  | step visible goes _ ih => exact .step visible goes (ih final)
  | last _ ends => exact absurd final.symm (ends o)

omit [Inhabited α] in
private theorem Run.event {heap : Nat → Prog α} {a : Nat} {outs : List Bool} {evs : List (Event α)} {st : Succ}
    (run : Run heap a outs evs st) {event : Event α} (member : event ∈ evs) : ∃ b truth outs' evs',
      Run heap a outs' evs' (.goes b) ∧ silent (heap b) = none ∧ event = (exec (heap b) truth).1 := by
  induction run with
  | stop a => cases member
  | jump branch _ ih =>
    obtain ⟨b, truth, outs', evs', here, rest⟩ := ih member
    exact ⟨b, truth, outs', evs', .jump branch here, rest⟩
  | @step a _ truth _ _ _ visible goes _ ih =>
    rcases List.mem_cons.mp member with same | later
    · exact ⟨a, truth, [], [], .stop a, visible, same⟩
    · obtain ⟨b, truth', outs', evs', here, rest⟩ := ih later
      exact ⟨b, truth', _, _, .step visible goes here, rest⟩
  | @last a truth _ visible _ => exact ⟨a, truth, [], [], .stop a, visible, List.mem_singleton.mp member⟩

private theorem taken_some (c : Cond) (result : Bool) : ∃ truth, taken c truth = result := by
  cases sign : positive c with
  | true => exact ⟨result, by simp [taken, sign]⟩
  | false => exact ⟨!result, by simp [taken, sign]⟩

omit [Inhabited α] in
private theorem exec_falls {n : Prog α} {l : Nat} (goesOn : ends n = false) (link : n.link = some l) :
    ∃ truth, (exec n truth).2 = .goes l := by
  cases kind : n.as with
  | AB => simp [ends, kind] at goesOn
  | ARFE => simp [ends, kind] at goesOn
  | ARET =>
    cases when : n.scond with
    | none => simp [ends, kind, when] at goesOn
    | some c =>
      obtain ⟨truth, fails⟩ := taken_some c false
      exact ⟨truth, by simp [exec, kind, when, fails, fallThrough, link]⟩
  | ABcc c =>
    obtain ⟨truth, fails⟩ := taken_some c false
    exact ⟨truth, by simp [exec, kind, fails, fallThrough, link]⟩
  | ABCASE => exact ⟨false, by simp [exec, kind, fallThrough, link]⟩
  | _ => exact ⟨true, by simp [exec, kind, fallThrough, link]⟩

/-- The program itself gets where `xfol` gets. -/
private theorem visited_run {o : Nat} (visits : Visits P o) :
    ∃ t i, P.code[t]? = some i ∧ i.as = .ATEXT ∧ ∃ outs evs, Run P.heap t outs evs (.goes o) := by
  induction visits with
  | @start t first =>
    obtain ⟨i, _, found⟩ := heap_some P (P.textp_lt t first)
    exact ⟨t, i, found, P.textp_as t i first found, [], [], .stop t⟩
  | @jump o t _ as cond ih =>
    obtain ⟨x, i, found, text, outs, evs, run⟩ := ih
    cases scond : (P.heap o).scond with
    | none =>
      have branch : silent (P.heap o) = some t := by rw [silent, if_pos ⟨as, scond⟩, cond]
      exact ⟨x, i, found, text, _, _, Run.append run (.jump branch (.stop t))⟩
    | some c =>
      obtain ⟨truth, holds⟩ := taken_some c true
      have goes : (exec (P.heap o) truth).2 = .goes t := by simp [exec, as, scond, holds, branch, cond]
      exact ⟨x, i, found, text, _, _, Run.append run (.step (by simp [silent, scond]) goes (.stop t))⟩
  | @fall o l _ goesOn link ih =>
    obtain ⟨x, i, found, text, outs, evs, run⟩ := ih
    obtain ⟨truth, goes⟩ := exec_falls goesOn link
    have visible := silent_none (low_of_open goesOn (Or.inl (by simp [link]))).2
    exact ⟨x, i, found, text, _, _, Run.append run (.step visible goes (.stop l))⟩
  | @target o t _ goesOn call behind cond ih =>
    obtain ⟨x, i, found, text, outs, evs, run⟩ := ih
    obtain ⟨low, stays⟩ := low_of_open goesOn (Or.inr (by simp [cond]))
    have jumps : ∀ truth, (exec (P.heap o) truth).2 = .goes t → ∃ x i, P.code[x]? = some i ∧ i.as = .ATEXT ∧
        ∃ outs evs, Run P.heap x outs evs (.goes t) := fun truth goes =>
      ⟨x, i, found, text, _, _, Run.append run (.step (silent_none stays) goes (.stop t))⟩
    rcases heap_branch P cond with kind | kind | kind | kind | ⟨c, kind⟩
    · simp [ends, kind] at goesOn
    · exact absurd kind call
    · exact jumps true (by simp [exec, kind, branch, cond])
    · obtain ⟨j, member, here⟩ := heap_some P low
      obtain ⟨as, _, _, same⟩ := heap_get P here
      obtain ⟨k, _, there⟩ := heap_some P (heap_cond P cond).1
      exact ⟨t, k, there, P.text_as j member (as.symm.trans kind) t (same.symm.trans cond) k there, [], [], .stop t⟩
    · obtain ⟨truth, holds⟩ := taken_some c true
      exact jumps truth (by simp [exec, kind, holds, branch, cond])

omit [Inhabited α] in
private theorem test_ins {n : Prog α} {truth truth' : Bool} {ins : α} {c : Cond} (tests : (exec n truth).1 = .test ins c truth') :
    n.ins = ins ∧ n.as ≠ .AOTHER := by
  cases kind : n.as <;> cases when : n.scond <;> simp_all [exec]

private theorem distinct_ins (distinct : Distinct P) {o o' : Nat} (low : o < P.code.length) (low' : o' < P.code.length)
    (same : (P.heap o).ins = (P.heap o').ins) : o = o' := by
  obtain ⟨i, _, found⟩ := heap_some P low
  obtain ⟨j, _, found'⟩ := heap_some P low'
  rw [(heap_get P found).2.2.1, (heap_get P found').2.2.1] at same
  exact (List.getElem?_inj (by simpa using low) distinct).mp (by simp [found, found', same])

/-- No placed instruction stands for a branch that `xfol` skips, so no run of the new list
tests its condition. -/
private theorem branch_lost {s : State α} {M : List Nat} {src : Nat → Nat} (inv : Inv P s M src (fun _ => False) none)
    (distinct : Distinct P) (keeps : Preserves P (closed s)) {o : Nat} (visits : Visits P o) (as : (P.heap o).as = .AB)
    (some : (P.heap o).cond ≠ none) : (P.heap o).scond = none := by
  obtain ⟨t, cond⟩ := Option.ne_none_iff_exists'.mp some
  cases scond : (P.heap o).scond with
  | none => rfl
  | some c =>
    exfalso
    have low : o < P.code.length := by
      by_contra outside
      exact some (heap_outside P (Nat.not_lt.mp outside)).2.2
    obtain ⟨x, i, found, text, outs, evs, run⟩ := visited_run visits
    obtain ⟨truth, holds⟩ := taken_some c true
    have tests : exec (P.heap o) truth = (.test (P.heap o).ins (canon c) truth, .goes t) := by
      simp [exec, as, scond, holds, branch, cond]
    have whole := Run.append run (.step (by simp [silent, scond]) (congrArg Prod.snd tests) (.stop t))
    obtain ⟨evs', st', run', agrees⟩ := (keeps x i found text _).1 _ _ whole
    rcases agrees with ⟨same, _⟩ | ⟨off, _⟩
    · have member : .test (P.heap o).ins (canon c) truth ∈ evs' := by
        rw [same, tests]
        simp
      obtain ⟨a, truth', outs'', evs'', before, visible, event⟩ := Run.event run' member
      have member := listed_mem inv ((keeps x i found text outs'').2.2 evs'' a before)
      obtain ⟨ins, kind⟩ := test_ins event.symm
      have equal := closed_core s a
      simp only [core, Prod.mk.injEq] at equal
      have stays := (inv.srcs a member).1
      -- the source of the instruction that tests is the branch
      have source : (P.heap (src a)).ins = (P.heap o).ins → (P.heap (src a)).as ≠ .AOTHER → False := by
        intro sameIns other
        have inside : src a < P.code.length := by
          by_contra outside
          exact other (heap_outside P (Nat.not_lt.mp outside)).1
        rw [distinct_ins distinct inside low sameIns, skips, if_pos as, cond] at stays
        cases stays
      rcases inv.items a member with ⟨as', scond', cond', _⟩ | ⟨own, _⟩ | ⟨own, _, c', b, t', old, _⟩
      · simp [silent, equal, as', scond', cond'] at visible
      · simp only [core, Prod.mk.injEq] at own
        exact source (own.2.2.1.symm.trans (equal.2.2.1.symm.trans ins)) (fun other => kind (equal.1.trans (own.1.trans other)))
      · exact source (own.symm.trans (equal.2.2.1.symm.trans ins)) (by simp [old])
    · cases off

end Lost

/-- `follow` returns for every program. Unless `xfol` gets to a branch or a return that carries
a condition of its own, the order it finds does what the program did; and where it gets to a
branch to a known place that does, the order loses the test. -/
theorem follow_preserves (P : Program α) (fuel : Nat) (enough : 2 * P.code.length + 1 ≤ fuel) :
    ∃ s, follow fuel P = some s ∧ (Plain P → Preserves P s) ∧ (Distinct P → Preserves P s →
      ∀ o, Visits P o → (P.heap o).as = .AB → (P.heap o).cond ≠ none → (P.heap o).scond = none) := by
  obtain ⟨s, M, src, result, inv, first⟩ := follow_returns P fuel enough
  exact ⟨_, result, preserved ⟨inv, fun o visits => visits_mem inv first visits⟩,
    fun distinct keeps o visits as some => branch_lost inv distinct keeps visits as some⟩

/-- `TEXT; as rel; ADD; RET; B.NE 2`, where `rel` is the `RET`. -/
def skipping (as : As) (scond : Option Cond) (target : as = .AB ∨ ∃ c, as = .ABcc c) : Program Nat where
  code := [⟨.ATEXT, none, 0, none⟩, ⟨as, scond, 1, some 3⟩, ⟨.AOTHER, none, 2, none⟩, ⟨.ARET, none, 3, none⟩,
    ⟨.AB, some .NE, 4, some 2⟩]
  textp := some 0
  cond_lt := by simp
  cond_ne := by simp
  cond_as := by
    rcases target with rfl | ⟨c, rfl⟩ <;> simp
  textp_lt := by simp
  texts := by
    intro t i found text
    rcases t with _ | _ | _ | _ | _ | t
    · exact Or.inl rfl
    all_goals
      simp only [List.getElem?_cons_succ, List.getElem?_cons_zero, List.getElem?_nil, Option.some.injEq, reduceCtorEq] at found
    · subst found
      rcases target with rfl | ⟨c, rfl⟩ <;> cases text
    all_goals
      subst found
      cases text
  textp_as := by
    rintro t i same found
    cases same
    simp only [List.getElem?_cons_zero, Option.some.injEq] at found
    rw [← found]
  text_as := by
    rcases target with rfl | ⟨c, rfl⟩ <;> simp

/-- The last branch is never reached. -/
def beqOver : Program Nat := skipping (.ABcc .EQ) none (Or.inr ⟨.EQ, rfl⟩)

theorem beqOver_visits {o : Nat} (visits : Visits beqOver o) : o < 4 := by
  have falls : ∀ o < 4, ends (beqOver.heap o) = false → (beqOver.heap o).link.all (· < 4) = true := by decide
  have jumps : ∀ o < 4, (beqOver.heap o).cond.all (· < 4) = true := by decide
  induction visits with
  | start first =>
    cases first
    decide
  | @jump o t _ _ cond ih => simpa [cond] using jumps o ih
  | @fall o l _ goesOn link ih => simpa [link] using falls o ih goesOn
  | @target o t _ _ _ _ cond ih => simpa [cond] using jumps o ih

theorem beqOver_preserved : ∃ s, follow 11 beqOver = some s ∧ Preserves beqOver s := by
  obtain ⟨s, result, keeps, _⟩ := follow_preserves beqOver 11 (by decide)
  have plain : ∀ o < 4, (beqOver.heap o).as = .AB ∨ (beqOver.heap o).as = .ARFE → (beqOver.heap o).scond = none := by decide
  have more : ∀ o < 4, (beqOver.heap o).link ≠ none := by decide
  exact ⟨s, result, keeps ⟨fun o visits => plain o (beqOver_visits visits),
    fun o visits _ _ last => absurd last (more o (beqOver_visits visits))⟩⟩

/-- The same with a condition on the branch instead: `B.EQ rel`. -/
def condOver : Program Nat := skipping .AB (some .EQ) (Or.inl rfl)

theorem condOver_loses : ∃ s, follow 11 condOver = some s ∧ ¬ Preserves condOver s := by
  refine ⟨_, rfl, fun keeps => ?_⟩
  have old : Run condOver.heap 0 [true, false, true] [.exec 0, .test 1 .EQ false, .exec 2] (.goes 3) :=
    Run.step rfl rfl (Run.step rfl rfl (Run.step rfl rfl (Run.stop 3)))
  obtain ⟨evs, st, run, agrees⟩ := (keeps 0 ⟨.ATEXT, none, 0, none⟩ rfl rfl [true, false, true]).1 _ _ old
  have new := Run.deterministic run (Run.step rfl rfl (Run.last rfl (by intro b goes; cases goes)))
  rcases agrees with ⟨same, _⟩ | ⟨off, _⟩
  · rw [same] at new
    cases new.1
  · cases off

end Goken.Proofs.FollowRun
