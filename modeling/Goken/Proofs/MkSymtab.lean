import Goken.MkSymtab
import Mathlib.Data.List.Induction

/-! What the symbol table gives back: the word that was installed, which for a
time is the pointer to it. -/

namespace Goken.Proofs.MkSymtab
open Goken.MkSymtab Lib

/-- A symbol is found under its name and space. -/
theorem find_key {hash : Hash} {sym : Name} {space : Space} {s : Symtab} (found : find hash sym space = some s) :
    s.name = sym ∧ s.space = space := by
  have same : s.key = (sym, space) := by simpa using List.find?_some found
  exact Prod.mk.inj same

theorem find_install (hash : Hash) (s : Symtab) (sym : Name) (space : Space) :
    find (Chains.install Symtab.key bucket hash s) sym space = if s.key = (sym, space) then some s else find hash sym space := by
  split
  · rename_i same
    rw [find, ← same]
    exact Chains.find_install s
  · rename_i other
    exact Chains.find_install_other other

theorem find_assign (hash : Hash) (sym sym' : Name) (space space' : Space) (u : UInt64) :
    find (assign hash sym space u) sym' space' =
      if (sym, space) = (sym', space') then (find hash sym' space').map fun s => { s with u := u } else find hash sym' space' := by
  split
  · rename_i same
    obtain ⟨rfl, rfl⟩ := Prod.mk.inj same
    exact Chains.find_assign fun _ => rfl
  · rename_i other
    exact Chains.find_assign_other (fun _ => rfl) other

/-- What `symlook` gives. -/
def given (hash : Hash) (sym : Name) (space : Space) (install : UInt64) : Option Symtab :=
  match find hash sym space with
  | some s => some s
  | none => if install = 0 then none else some ⟨sym, space, install⟩

/-- A pointer to a double that has to be read, and cannot be. -/
def Faults (memory : Memory) (hash : Hash) (sym : Name) (space : Space) (install : UInt64) : Prop :=
  find hash sym space = none ∧ install ≠ 0 ∧ space = .S_TIME ∧ memory install = none

theorem symlook_faults {memory : Memory} {hash : Hash} {sym : Name} {space : Space} {install : UInt64}
    (faults : Faults memory hash sym space install) : symlook memory hash sym space install = .error .fault := by
  obtain ⟨new, pointer, rfl, unreadable⟩ := faults
  rw [symlook, new]
  dsimp only
  rw [if_neg pointer, if_pos rfl, unreadable]
  rfl

theorem symlook_given {memory : Memory} {hash : Hash} {sym : Name} {space : Space} {install : UInt64}
    (sound : ¬ Faults memory hash sym space install) :
    ∃ hash', symlook memory hash sym space install = .ok (given hash sym space install, hash') ∧
      ∀ sym' space', find hash' sym' space' = if (sym, space) = (sym', space') then given hash sym space install else find hash sym' space' := by
  cases found : find hash sym space with
  | some s =>
      refine ⟨hash, by rw [symlook, given, found], fun sym' space' => ?_⟩
      split
      · rename_i same
        obtain ⟨rfl, rfl⟩ := Prod.mk.inj same
        rw [given, found]
      · rfl
  | none =>
      by_cases lookup : install = 0
      · refine ⟨hash, by rw [symlook, given, found]; dsimp only; rw [if_pos lookup, if_pos lookup], fun sym' space' => ?_⟩
        split
        · rename_i same
          obtain ⟨rfl, rfl⟩ := Prod.mk.inj same
          rw [given, found]
          exact (if_pos lookup).symm
        · rfl
      · refine ⟨Chains.install Symtab.key bucket hash ⟨sym, space, install⟩, ?_, fun sym' space' => ?_⟩
        · rw [symlook, given, found]
          dsimp only
          rw [if_neg lookup, if_neg lookup]
          by_cases timed : space = .S_TIME
          · rw [if_pos timed]
            cases read : memory install with
            | none => exact absurd ⟨found, lookup, timed, read⟩ sound
            | some time => rfl
          · rw [if_neg timed]
            rfl
        · rw [find_install, given, found]
          dsimp only
          rw [if_neg lookup]
          rfl

/-- A call of `symlook`, with the memory that it sees. -/
structure Call where
  sym : Name
  space : Space
  install : UInt64
  memory : Memory

def Call.key (c : Call) : Name × Space := (c.sym, c.space)

/-- A time is given by a pointer that can be read. -/
def Call.Valid (c : Call) : Prop := c.space = .S_TIME → c.install ≠ 0 → ∃ time, c.memory c.install = some time

/-- What is to be found after the call: the pointer, or the time behind it. -/
def Call.value (c : Call) : UInt64 := if c.space = .S_TIME then (c.memory c.install).getD 0 else c.install

def run (calls : List Call) (hash : Hash) : Except Stop Hash :=
  calls.foldlM (fun hash c => do return (← symlook c.memory hash c.sym c.space c.install).2) hash

def empty : Hash := fun _ => []

/-- The name under which the date of a member is kept. -/
def headerKey (ar : Name) (h : Header) : Name := sprint BIGBLOCK ar (memberName h.name)

theorem memberDate_ne_zero (mtime date : UInt64) : memberDate mtime date ≠ 0 := by
  unfold memberDate
  extract_lets t
  split
  · decide
  · assumption

section Archive

variable {process : Process} {ar : Name} {mtime : UInt64}

theorem record_faults {hash : Hash} {h : Header} (new : find hash (headerKey ar h) .S_TIME = none)
    (unreadable : process.memory (memberDate mtime h.date) = none) : record process ar mtime hash h = .error .fault := by
  rw [record]
  dsimp only
  rw [← headerKey, symlook_faults ⟨new, memberDate_ne_zero _ _, rfl, unreadable⟩]
  rfl

theorem record_keeps {hash : Hash} {h : Header}
    (sound : find hash (headerKey ar h) .S_TIME = none → ∃ word, process.memory (memberDate mtime h.date) = some word) :
    ∃ hash', record process ar mtime hash h = .ok hash' ∧ ∀ sym space, find hash' sym space =
      if (headerKey ar h, Space.S_TIME) = (sym, space) then some ⟨sym, space, ofUlong (memberDate mtime h.date)⟩ else find hash sym space := by
  have readable : ¬ Faults process.memory hash (headerKey ar h) .S_TIME (memberDate mtime h.date) := by
    rintro ⟨new, -, -, unreadable⟩
    obtain ⟨word, read⟩ := sound new
    rw [unreadable] at read
    cases read
  obtain ⟨hash', gives, finds⟩ := symlook_given readable
  refine ⟨assign hash' (headerKey ar h) .S_TIME (ofUlong (memberDate mtime h.date)), ?_, fun sym space => ?_⟩
  · rw [record]
    dsimp only
    rw [← headerKey, gives]
    rfl
  · rw [find_assign, finds]
    split
    · rename_i same
      obtain ⟨rfl, rfl⟩ := Prod.mk.inj same
      rw [given]
      cases found : find hash (headerKey ar h) .S_TIME with
      | some s =>
          obtain ⟨named, spaced⟩ := find_key found
          obtain ⟨name, space, u⟩ := s
          obtain rfl : name = headerKey ar h := named
          obtain rfl : space = .S_TIME := spaced
          rfl
      | none =>
          dsimp only
          rw [if_neg (memberDate_ne_zero _ _)]
          rfl
    · rfl

/-- The last header that is kept under a name. -/
def latest (ar : Name) (headers : List Header) (name : Name) : Option Header := headers.reverse.find? fun h => headerKey ar h = name

/-- The dates that are taken for pointers can be read: those of the members
that have no symbol yet. -/
def Readable (memory : Memory) (ar : Name) (mtime : UInt64) (hash : Hash) (headers : List Header) : Prop :=
  ∀ before h after, headers = before ++ h :: after → find hash (headerKey ar h) .S_TIME = none →
    latest ar before (headerKey ar h) = none → ∃ word, memory (memberDate mtime h.date) = some word

theorem Readable.front {memory : Memory} {hash : Hash} {headers : List Header} {h : Header}
    (readable : Readable memory ar mtime hash (headers ++ [h])) : Readable memory ar mtime hash headers :=
  fun before g after whole new first => readable before g (after ++ [h]) (by rw [whole]; simp) new first

theorem readable_snoc {memory : Memory} {hash : Hash} {headers : List Header} {h : Header} (front : Readable memory ar mtime hash headers)
    (last : find hash (headerKey ar h) .S_TIME = none → latest ar headers (headerKey ar h) = none →
      ∃ word, memory (memberDate mtime h.date) = some word) : Readable memory ar mtime hash (headers ++ [h]) := by
  intro before g after whole new first
  rcases List.eq_nil_or_concat after with rfl | ⟨rest, g', rfl⟩
  · obtain ⟨rfl, same⟩ := List.append_inj' whole rfl
    obtain rfl : h = g := by simpa using same
    exact last new first
  · have cut : headers ++ [h] = (before ++ g :: rest) ++ [g'] := by rw [whole]; simp
    obtain ⟨same, -⟩ := List.append_inj' cut rfl
    exact front before g rest same new first

theorem latest_snoc (headers : List Header) (h : Header) (name : Name) :
    latest ar (headers ++ [h]) name = if headerKey ar h = name then some h else latest ar headers name := by
  rw [latest, List.reverse_append, List.reverse_singleton, List.singleton_append, List.find?_cons]
  by_cases here : headerKey ar h = name <;> simp [here, latest]

/-- What is found after the headers have been gone over. -/
def recorded (ar : Name) (mtime : UInt64) (hash : Hash) (headers : List Header) (sym : Name) (space : Space) : Option Symtab :=
  match (if space = .S_TIME then latest ar headers sym else none) with
  | some h => some ⟨sym, space, ofUlong (memberDate mtime h.date)⟩
  | none => find hash sym space

theorem records {hash : Hash} {headers : List Header} :
    (Readable process.memory ar mtime hash headers → ∃ hash', headers.foldlM (record process ar mtime) hash = .ok hash' ∧
        ∀ sym space, find hash' sym space = recorded ar mtime hash headers sym space) ∧
      (¬ Readable process.memory ar mtime hash headers → headers.foldlM (record process ar mtime) hash = .error .fault) := by
  induction headers using List.reverseRecOn with
  | nil =>
      refine ⟨fun _ => ⟨hash, rfl, fun sym space => ?_⟩, fun unreadable => absurd ?_ unreadable⟩
      · rw [recorded, latest]
        simp
      · intro before h after whole
        simp at whole
  | append_singleton headers h ih =>
      rw [List.foldlM_append]
      by_cases front : Readable process.memory ar mtime hash headers
      · obtain ⟨hash1, goes, finds⟩ := ih.1 front
        have here : find hash1 (headerKey ar h) .S_TIME = none ↔
            find hash (headerKey ar h) .S_TIME = none ∧ latest ar headers (headerKey ar h) = none := by
          rw [finds, recorded, if_pos rfl]
          cases latest ar headers (headerKey ar h) <;> simp
        rw [goes]
        refine ⟨fun readable => ?_, fun unreadable => ?_⟩
        · obtain ⟨hash2, keeps, finds'⟩ := @record_keeps process ar mtime hash1 h fun new =>
            readable headers h [] rfl (here.mp new).1 (here.mp new).2
          refine ⟨hash2, ?_, fun sym space => ?_⟩
          · show (List.foldlM (record process ar mtime) hash1 [h] : Except Stop Hash) = _
            rw [List.foldlM_cons, keeps]
            rfl
          · rw [finds', finds, recorded, recorded, latest_snoc]
            by_cases timed : space = .S_TIME
            · subst timed
              by_cases same : headerKey ar h = sym
              · subst same
                simp
              · have other : ¬ (headerKey ar h, Space.S_TIME) = (sym, Space.S_TIME) := fun both => same (Prod.mk.inj both).1
                rw [if_neg other, if_neg same]
            · have other : ¬ (headerKey ar h, Space.S_TIME) = (sym, space) := fun both => timed (Prod.mk.inj both).2.symm
              rw [if_neg other, if_neg timed, if_neg timed]
        · have faults : record process ar mtime hash1 h = .error .fault := by
            by_contra survives
            refine unreadable (readable_snoc front fun new first => ?_)
            cases read : process.memory (memberDate mtime h.date) with
            | none => exact absurd (record_faults (here.mpr ⟨new, first⟩) read) survives
            | some word => exact ⟨word, rfl⟩
          show (List.foldlM (record process ar mtime) hash1 [h] : Except Stop Hash) = _
          rw [List.foldlM_cons, faults]
          rfl
      · rw [ih.2 front]
        exact ⟨fun readable => absurd readable.front front, fun _ => rfl⟩

/-! `atimeof`. -/

/-- The archive's headers, and what they are compared with. -/
def contents (files : Files) (archive : Name) : UInt64 × List Header := (files.archive archive).getD (0, [])

end Archive

/-! No date is the pattern of itself. -/

theorem roundEven_le (n k : Nat) : roundEven n k ≤ n / 2 ^ k + 1 := by
  unfold roundEven
  extract_lets q r
  split <;> omega

theorem ofUlong_ne {t : UInt64} (date : t ≠ 0) (small : t.toNat < 2 ^ 61) : ofUlong t ≠ t := by
  have positive : t.toNat ≠ 0 := fun zero => date (UInt64.toNat_inj.mp zero)
  have exponent : t.toNat.log2 < 61 := (Nat.log2_lt positive).mpr small
  have fraction : (if t.toNat.log2 ≤ 52 then t.toNat * 2 ^ (52 - t.toNat.log2) else roundEven t.toNat (t.toNat.log2 - 52)) ≤ 2 ^ 53 := by
    have above : t.toNat < 2 ^ (t.toNat.log2 + 1) := Nat.lt_log2_self
    split
    · rename_i whole
      calc t.toNat * 2 ^ (52 - t.toNat.log2) ≤ 2 ^ (t.toNat.log2 + 1) * 2 ^ (52 - t.toNat.log2) := Nat.mul_le_mul_right _ (Nat.le_of_lt above)
        _ = 2 ^ 53 := by rw [← Nat.pow_add, show t.toNat.log2 + 1 + (52 - t.toNat.log2) = 53 by omega]
    · rename_i rounded
      have shifted : t.toNat / 2 ^ (t.toNat.log2 - 52) < 2 ^ 53 := by
        rw [Nat.div_lt_iff_lt_mul (Nat.two_pow_pos _), ← Nat.pow_add, show 53 + (t.toNat.log2 - 52) = t.toNat.log2 + 1 by omega]
        exact above
      exact Nat.le_trans (roundEven_le _ _) shifted
  have value : (ofUlong t).toNat = ((t.toNat.log2 + 1022) * 2 ^ 52 +
      if t.toNat.log2 ≤ 52 then t.toNat * 2 ^ (52 - t.toNat.log2) else roundEven t.toNat (t.toNat.log2 - 52)) % 2 ^ 64 := by
    unfold ofUlong
    extract_lets n e
    rw [if_neg positive, UInt64.toNat_ofNat']
  intro same
  rw [same] at value
  omega

def stack : Process := ⟨fun _ => none, 0x7FFE0000, 0x5000⟩

/-- A table with the archive `a` and its member `m`, of a date. -/
def known (t : UInt64) : Hash :=
  Chains.install Symtab.key bucket (Chains.install Symtab.key bucket empty ⟨[0x61], .S_AGG, 1000⟩) ⟨[0x61, 0x28, 0x6D, 0x29], .S_TIME, t⟩

end Goken.Proofs.MkSymtab
