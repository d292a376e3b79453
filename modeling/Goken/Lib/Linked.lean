import Mathlib.Data.List.Induction
import Mathlib.Data.List.Nodup
import Mathlib.Logic.Function.Basic

/-! Singly linked lists threaded through the cells themselves. The links are a
map from cells to cells; putting a cell in that is there already closes the
list on itself. -/

namespace Goken.Lib.Linked

variable {α σ : Type*} {next next' : α → Option α} {start : Option α}

/-- The links from `start` lead through the cells listed, to the end. -/
def Chain (next : α → Option α) : Option α → List α → Prop
  | start, [] => start = none
  | start, x :: rest => start = some x ∧ Chain next (next x) rest

/-- The links from `start` never end. -/
def Endless (next : α → Option α) (start : Option α) : Prop :=
  ∃ inside : α → Prop, (∃ x, start = some x ∧ inside x) ∧ ∀ x, inside x → ∃ y, next x = some y ∧ inside y

theorem Chain.unique {cells cells' : List α} (one : Chain next start cells) (other : Chain next start cells') :
    cells = cells' := by
  induction cells generalizing start cells' with
  | nil =>
      cases cells' with
      | nil => rfl
      | cons y cells' => cases one.symm.trans other.1
  | cons x cells ih =>
      cases cells' with
      | nil => cases other.symm.trans one.1
      | cons y cells' =>
          obtain rfl : x = y := Option.some.inj (one.1.symm.trans other.1)
          rw [ih one.2 other.2]

theorem Chain.suffix {before after : List α} {x : α} (chain : Chain next start (before ++ x :: after)) :
    Chain next (some x) (x :: after) := by
  induction before generalizing start with
  | nil => exact ⟨rfl, chain.2⟩
  | cons y before ih => exact ih chain.2

theorem Chain.nodup {cells : List α} (chain : Chain next start cells) : cells.Nodup := by
  induction cells generalizing start with
  | nil => exact List.nodup_nil
  | cons x cells ih =>
      refine List.nodup_cons.mpr ⟨fun again => ?_, ih chain.2⟩
      obtain ⟨before, after, rfl⟩ := List.append_of_mem again
      have whole : Chain next (some x) (x :: (before ++ x :: after)) := ⟨rfl, chain.2⟩
      have shorter := congrArg List.length (whole.unique chain.2.suffix)
      simp only [List.length_cons, List.length_append] at shorter
      omega

theorem Chain.congr {cells : List α} (chain : Chain next start cells) (same : ∀ x ∈ cells, next' x = next x) :
    Chain next' start cells := by
  induction cells generalizing start with
  | nil => exact chain
  | cons x cells ih =>
      refine ⟨chain.1, ?_⟩
      rw [same x List.mem_cons_self]
      exact ih chain.2 fun y member => same y (List.mem_cons_of_mem x member)

/-- A cell before another one leads to a cell that is not after it. -/
theorem Chain.leads {before after : List α} {x y : α} (chain : Chain next start (before ++ y :: after)) (member : x ∈ before) :
    ∃ z, next x = some z ∧ (z ∈ before ∨ z = y) := by
  induction before generalizing start with
  | nil => cases member
  | cons w before ih =>
      rcases List.mem_cons.mp member with rfl | later
      · cases before with
        | nil => exact ⟨y, chain.2.1, .inr rfl⟩
        | cons v before => exact ⟨v, chain.2.1, .inl (by simp)⟩
      · obtain ⟨z, link, place⟩ := ih chain.2 later
        exact ⟨z, link, place.imp_left (List.mem_cons_of_mem w)⟩

theorem Endless.not_chain {cells : List α} (endless : Endless next start) : ¬ Chain next start cells := by
  obtain ⟨inside, ⟨x, first, within⟩, closed⟩ := endless
  induction cells generalizing start x with
  | nil =>
      intro chain
      cases chain.symm.trans first
  | cons y cells ih =>
      intro chain
      obtain rfl : x = y := Option.some.inj (first.symm.trans chain.1)
      obtain ⟨z, link, within⟩ := closed x within
      exact ih z link within chain.2

section Insert

variable [DecidableEq α]

/-- Put the cell `n` after `head`. -/
def insert (head n : α) (next : α → Option α) : α → Option α :=
  Function.update (Function.update next n (next head)) head (some n)

theorem insert_head (head n : α) : insert head n next head = some n := Function.update_self ..

theorem insert_new {head n : α} (other : n ≠ head) : insert head n next n = next head := by
  rw [insert, Function.update_of_ne other, Function.update_self]

theorem insert_frame {head n x : α} (old : x ≠ head) (apart : x ≠ n) : insert head n next x = next x := by
  rw [insert, Function.update_of_ne old, Function.update_of_ne apart]

theorem Chain.insert {head n : α} {rest : List α} (chain : Chain next (some head) (head :: rest)) (fresh : n ∉ head :: rest) :
    Chain (insert head n next) (some head) (head :: n :: rest) := by
  have other : n ≠ head := fun same => fresh (same ▸ List.mem_cons_self)
  refine ⟨rfl, insert_head head n, ?_⟩
  rw [insert_new other]
  refine chain.2.congr fun x member => insert_frame ?_ ?_
  · rintro rfl
    exact (List.nodup_cons.mp chain.nodup).1 member
  · rintro rfl
    exact fresh (List.mem_cons_of_mem head member)

theorem Endless.insert {head : α} (endless : Endless next (some head)) (n : α) : Endless (insert head n next) (some head) := by
  obtain ⟨inside, ⟨x, first, within⟩, closed⟩ := endless
  cases first
  refine ⟨fun x => inside x ∨ x = n, ⟨head, rfl, .inl within⟩, fun x member => ?_⟩
  by_cases top : x = head
  · exact ⟨n, top ▸ insert_head head n, .inr rfl⟩
  by_cases same : x = n
  · obtain ⟨y, link, within⟩ := closed head within
    exact ⟨y, by rw [same, insert_new (same ▸ top), link], .inl within⟩
  · obtain ⟨y, link, within⟩ := closed x (member.resolve_right same)
    exact ⟨y, by rw [insert_frame top same, link], .inl within⟩

/-- A cell that is put in a second time closes the list. -/
theorem Chain.insert_again {head n : α} {rest : List α} (chain : Chain next (some head) (head :: rest)) (again : n ∈ rest) :
    Endless (Linked.insert head n next) (some head) := by
  obtain ⟨before, after, rfl⟩ := List.append_of_mem again
  have apart := List.nodup_cons.mp chain.nodup
  have other : n ≠ head := fun same => apart.1 (same ▸ again)
  have first : ∃ y, next head = some y ∧ (y ∈ before ∨ y = n) := by
    have leads : ∃ z, next head = some z ∧ (z ∈ head :: before ∨ z = n) := Chain.leads chain List.mem_cons_self
    obtain ⟨y, link, place⟩ := leads
    rcases place with inside | same
    · rcases List.mem_cons.mp inside with rfl | inside
      · cases before with
        | nil => exact absurd (Option.some.inj (link.symm.trans chain.2.1)).symm other
        | cons v before => exact ⟨v, chain.2.1, .inl List.mem_cons_self⟩
      · exact ⟨y, link, .inl inside⟩
    · exact ⟨y, link, .inr same⟩
  refine ⟨fun x => x = head ∨ x ∈ before ∨ x = n, ⟨head, rfl, .inl rfl⟩, ?_⟩
  intro x member
  by_cases top : x = head
  · exact ⟨n, top ▸ insert_head head n, .inr (.inr rfl)⟩
  by_cases same : x = n
  · obtain ⟨y, link, inside⟩ := first
    exact ⟨y, by rw [same, insert_new other, link], .inr inside⟩
  · have early : x ∈ before := (member.resolve_left top).resolve_right same
    obtain ⟨y, link, inside⟩ := chain.2.leads early
    exact ⟨y, by rw [insert_frame top same, link], .inr inside⟩

def insertAll (head : α) (cells : List α) (next : α → Option α) : α → Option α :=
  cells.foldl (fun next n => insert head n next) next

theorem insertAll_append (head n : α) (cells : List α) (next : α → Option α) :
    insertAll head (cells ++ [n]) next = insert head n (insertAll head cells next) := by
  rw [insertAll, List.foldl_append]
  rfl

/-- Cells put in one after the other make a list when they are different ones,
and close on themselves when they are not. -/
theorem insertAll_spec {head : α} {cells : List α} (alone : next head = none) (others : ∀ n ∈ cells, n ≠ head) :
    cells.Nodup ∧ Chain (insertAll head cells next) (some head) (head :: cells.reverse) ∨
      ¬ cells.Nodup ∧ Endless (insertAll head cells next) (some head) := by
  induction cells using List.reverseRecOn with
  | nil => exact .inl ⟨List.nodup_nil, rfl, alone⟩
  | append_singleton cells n ih =>
      have other := others n (by simp)
      rw [insertAll_append]
      rcases ih fun m member => others m (by simp [member]) with ⟨different, chain⟩ | ⟨twice, endless⟩
      · by_cases again : n ∈ cells
        · refine .inr ⟨fun nodup => ?_, chain.insert_again (List.mem_reverse.mpr again)⟩
          exact (List.nodup_append.mp nodup).2.2 n again n (List.mem_singleton_self n) rfl
        · refine .inl ⟨?_, ?_⟩
          · exact List.nodup_append.mpr ⟨different, List.nodup_singleton n, by
              rintro x inside y only rfl
              exact again (List.mem_singleton.mp only ▸ inside)⟩
          · rw [List.reverse_append]
            exact chain.insert (by simp [other, again])
      · exact .inr ⟨fun nodup => twice (List.nodup_append.mp nodup).1, endless.insert n⟩

end Insert

/-- A loop over the list, within a number of tests. -/
def each (next : α → Option α) (body : σ → α → σ) : Nat → Option α → σ → Option σ
  | 0, _, _ => none
  | _ + 1, none, s => some s
  | fuel + 1, some x, s => each next body fuel (next x) (body s x)

theorem each_chain {body : σ → α → σ} {cells : List α} {fuel : Nat} (chain : Chain next start cells)
    (enough : cells.length < fuel) (s : σ) : each next body fuel start s = some (cells.foldl body s) := by
  induction cells generalizing start fuel s with
  | nil =>
      obtain ⟨fuel, rfl⟩ := Nat.exists_eq_succ_of_ne_zero (Nat.ne_of_gt enough)
      cases chain
      rfl
  | cons x cells ih =>
      obtain ⟨fuel, rfl⟩ := Nat.exists_eq_succ_of_ne_zero (Nat.ne_of_gt (Nat.zero_lt_of_lt enough))
      obtain rfl := chain.1
      exact ih chain.2 (Nat.lt_of_succ_lt_succ enough) _

theorem each_endless {body : σ → α → σ} (endless : Endless next start) (fuel : Nat) (s : σ) :
    each next body fuel start s = none := by
  obtain ⟨inside, ⟨x, first, within⟩, closed⟩ := endless
  induction fuel generalizing start x s with
  | zero => rfl
  | succ fuel ih =>
      obtain ⟨y, link, later⟩ := closed x within
      rw [first]
      exact ih _ y link later

end Goken.Lib.Linked
