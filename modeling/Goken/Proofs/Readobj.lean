import Mathlib.Data.List.Nodup
import Goken.Lib.Lists
import Goken.Proofs.ArmObj
import Goken.Readobj

/-! What the table of `readobj` says of the symbols of an object. The entry that a
slot holds is overwritten by a record of the same name whatever it stands for, so
the table is exact in runs where that does not happen. -/

namespace Goken.Proofs.Readobj
open Goken Lib Readobj
open Goken.ArmObj (Name Sym_kind NSYM Signatures Writer)

/-! What the records say. -/

inductive Linkage where
  | external | internal
  deriving DecidableEq

def Linkage.text : Linkage → Letter
  | external => .T
  | internal => .t

def Linkage.data : Linkage → Letter
  | external => .D
  | internal => .d

def Linkage.undefined : Linkage → Letter
  | external => .U
  | internal => .b

def linkage : Letter → Option Linkage
  | .T | .D | .U => some .external
  | .t | .d | .b => some .internal
  | _ => none

abbrev Symbol := Name × Linkage

def symbol (id : Name) (type : Letter) : Option Symbol := (linkage type).map fun c => (id, c)

/-- The symbols that are named, and those that are referred to by a TEXT or by a GLOBL. -/
structure Said where
  named : Symbol → Prop
  texts : Symbol → Prop
  datas : Symbol → Prop

/-- Beside that, what each slot was last announced to be. -/
structure Seen extends Said where
  bound : Nat → Option (Name × Letter)

def nothing : Seen := ⟨⟨fun _ => False, fun _ => False, fun _ => False⟩, fun _ => none⟩

def Seen.refers (seen : Seen) (slot : Nat) : Option Symbol := (seen.bound slot).bind fun v => symbol v.1 v.2

def observe (seen : Seen) : Prog → Seen
  | .aNone => seen
  | .aName slot id type =>
      { seen with
        named := fun v => seen.named v ∨ symbol id type = some v
        bound := Function.update seen.bound slot (some (id, type)) }
  | .aText slot => { seen with texts := fun v => seen.texts v ∨ seen.refers slot = some v }
  | .aData slot => { seen with datas := fun v => seen.datas v ∨ seen.refers slot = some v }

def meaning (records : List Record) : Seen := records.foldl (fun seen r => observe seen r.prog) nothing

/-! What the table says. -/

def stands (v : Symbol) (e : Sym) : Bool := e.name = v.1 && decide (linkage e.type = some v.2)

/-- One entry for a symbol that is named, of the type that the records give it. -/
structure Exact (said : Said) (table : List Sym) : Prop where
  one : ∀ v, said.named v → ∃ e, table.filter (stands v) = [e] ∧ (e.type = v.2.text ↔ said.texts v) ∧
    (e.type = v.2.data ↔ said.datas v) ∧ (e.type = v.2.undefined ↔ ¬ said.texts v ∧ ¬ said.datas v)
  none : ∀ v, ¬ said.named v → table.filter (stands v) = []

/-- The condition on a step: a name does not find its slot held by an entry of the same
name that stands for something else, and no symbol is both text and data. -/
def Quiet (s : State) : Prog → Prop
  | .aNone => True
  | .aName slot id type => ∀ e, s.held slot = some e → e.name = id →
      e.type = type ∨ islocal e.type = true ∧ islocal type = true
  | .aText slot => ∀ e, s.held slot = some e → e.type ≠ .D ∧ e.type ≠ .d
  | .aData slot => ∀ e, s.held slot = some e → e.type ≠ .T ∧ e.type ≠ .t

instance (s : State) : (p : Prog) → Decidable (Quiet s p)
  | .aNone => .isTrue trivial
  | .aName slot _ _ => inferInstanceAs (Decidable (∀ e, s.held slot = some e → _))
  | .aText slot => inferInstanceAs (Decidable (∀ e, s.held slot = some e → _))
  | .aData slot => inferInstanceAs (Decidable (∀ e, s.held slot = some e → _))

/-- Every step of a run meets the condition. -/
def QuietRun : State → List Record → Prop
  | _, [] => True
  | s, r :: rest => Quiet s r.prog ∧
      match turn s r with
      | some (s, true) => QuietRun s rest
      | _ => True

instance QuietRun.decidable : (s : State) → (records : List Record) → Decidable (QuietRun s records)
  | _, [] => .isTrue trivial
  | s, r :: rest =>
      match ended : turn s r with
      | some (s', true) =>
          have := QuietRun.decidable s' rest
          decidable_of_iff (Quiet s r.prog ∧ QuietRun s' rest) (by rw [QuietRun, ended])
      | some (_, false) => decidable_of_iff (Quiet s r.prog) (by rw [QuietRun, ended]; exact (and_true _).symm ▸ .rfl)
      | none => decidable_of_iff (Quiet s r.prog) (by rw [QuietRun, ended]; exact (and_true _).symm ▸ .rfl)

/-! The table and the slots, against what has been said. -/

structure Kept (seen : Seen) (s : State) : Prop where
  member : ∀ h i : Nat, i ∈ s.hash h ↔ ∃ e, s.entries[i]? = some e ∧ bucket e.name = some h
  nodup : ∀ h, (s.hash h).Nodup
  hashed : ∀ (i : Nat) e, s.entries[i]? = some e → ∃ h, bucket e.name = some h
  empty : ∀ slot, seen.bound slot = none → s.names slot = none
  slots : ∀ slot id type, seen.bound slot = some (id, type) →
    ∃ (i : Nat) (e : Sym), s.names slot = some i ∧ s.entries[i]? = some e ∧ e.name = id ∧ linkage e.type = linkage type
  named : ∀ v, seen.named v ↔ ∃ (i : Nat) (e : Sym), s.entries[i]? = some e ∧ stands v e = true
  unique : ∀ v (i j : Nat) e e', s.entries[i]? = some e → s.entries[j]? = some e' → stands v e = true → stands v e' = true → i = j
  said : ∀ v, seen.texts v ∨ seen.datas v → seen.named v
  typed : ∀ v (i : Nat) e, s.entries[i]? = some e → stands v e = true →
    (e.type = v.2.text ↔ seen.texts v) ∧ (e.type = v.2.data ↔ seen.datas v)

theorem kept_objreset : Kept nothing objreset where
  member := by simp [objreset]
  nodup := by simp [objreset]
  hashed := by simp [objreset]
  empty := fun _ _ => rfl
  slots := nofun
  named := by simp [objreset, nothing]
  unique := by simp [objreset]
  said := by simp [nothing]
  typed := by simp [objreset]

theorem stands_iff {v : Symbol} {e : Sym} : stands v e = true ↔ e.name = v.1 ∧ linkage e.type = some v.2 := by
  simp [stands]

theorem symbol_eq_some {id : Name} {type : Letter} {v : Symbol} : symbol id type = some v ↔ id = v.1 ∧ linkage type = some v.2 := by
  unfold symbol
  cases linkage type with
  | none => simp
  | some c => simp [Prod.ext_iff]

theorem stands_symbol {v : Symbol} {e : Sym} : stands v e = true ↔ symbol e.name e.type = some v := by
  rw [stands_iff, symbol_eq_some]

section changes
variable {s : State} {i : Nat} {e : Sym} {slot : Nat}

theorem held_eq_some : s.held slot = some e ↔ ∃ i, s.names slot = some i ∧ s.entries[i]? = some e := by
  unfold State.held
  exact Option.bind_eq_some_iff

/-- What a change of the entry in a slot does to the entries. -/
theorem entries_change {f : Sym → Sym} (there : s.names slot = some i) (j : Nat) :
    (s.change slot f).entries[j]? = if i = j then (s.entries[j]?).map f else s.entries[j]? := by
  unfold State.change
  rw [there]
  show (s.entries.modify i f)[j]? = _
  rw [List.getElem?_modify]
  by_cases same : i = j
  · simp [same]
  · simp [same]

theorem change_hash (f : Sym → Sym) : (s.change slot f).hash = s.hash := by
  unfold State.change
  split <;> rfl

theorem change_names (f : Sym → Sym) : (s.change slot f).names = s.names := by
  unfold State.change
  split <;> rfl

/-- An entry of the changed table comes from one of the table before. -/
theorem of_entries_change {f : Sym → Sym} {j : Nat} {e' : Sym} (after : (s.change slot f).entries[j]? = some e') :
    ∃ e, s.entries[j]? = some e ∧ (s.names slot = some j ∧ e' = f e ∨ s.names slot ≠ some j ∧ e' = e) := by
  cases there : s.names slot with
  | none =>
      have same : s.change slot f = s := by
        unfold State.change
        rw [there]
      rw [same] at after
      exact ⟨e', after, .inr ⟨nofun, rfl⟩⟩
  | some i =>
      rw [entries_change there] at after
      by_cases same : i = j
      · rw [if_pos same] at after
        obtain ⟨e, before, equal⟩ := Option.map_eq_some_iff.mp after
        exact ⟨e, before, .inl ⟨by rw [same], equal.symm⟩⟩
      · rw [if_neg same] at after
        exact ⟨e', after, .inr ⟨fun this => same (Option.some.inj this), rfl⟩⟩

theorem entries_change_of {f : Sym → Sym} {j : Nat} (before : s.entries[j]? = some e) :
    (s.change slot f).entries[j]? = some (if s.names slot = some j then f e else e) := by
  cases there : s.names slot with
  | none =>
      unfold State.change
      rw [there]
      simpa using before
  | some i =>
      rw [entries_change there, before]
      by_cases same : i = j
      · simp [same]
      · simp [same]

end changes

/-- A change that keeps an entry's name and linkage, and gives it the type that it must have. -/
theorem Kept.change {seen seen' : Seen} {s : State} (kept : Kept seen s) {slot : Nat} {f : Sym → Sym}
    (name : ∀ e, s.held slot = some e → (f e).name = e.name) (linked : ∀ e, s.held slot = some e → linkage (f e).type = linkage e.type)
    (bound : seen'.bound = seen.bound) (named : seen'.named = seen.named) (said : ∀ v, seen'.texts v ∨ seen'.datas v → seen'.named v)
    (other : ∀ v (i : Nat) e, s.entries[i]? = some e → s.names slot ≠ some i → stands v e = true →
      (seen'.texts v ↔ seen.texts v) ∧ (seen'.datas v ↔ seen.datas v))
    (typed : ∀ v e, s.held slot = some e → stands v e = true →
      ((f e).type = v.2.text ↔ seen'.texts v) ∧ ((f e).type = v.2.data ↔ seen'.datas v)) :
    Kept seen' (s.change slot f) := by
  -- an entry after the change, with its name and linkage those of the one before
  have back : ∀ {j : Nat} {e' : Sym}, (s.change slot f).entries[j]? = some e' →
      ∃ e, s.entries[j]? = some e ∧ e'.name = e.name ∧ linkage e'.type = linkage e.type := by
    intro j e' after
    obtain ⟨e, before, ⟨here, rfl⟩ | ⟨-, rfl⟩⟩ := of_entries_change after
    · have held : s.held slot = some e := held_eq_some.mpr ⟨j, here, before⟩
      exact ⟨e, before, name e held, linked e held⟩
    · exact ⟨e', before, rfl, rfl⟩
  have forth : ∀ {j : Nat} {e : Sym}, s.entries[j]? = some e →
      ∃ e', (s.change slot f).entries[j]? = some e' ∧ e'.name = e.name ∧ linkage e'.type = linkage e.type := by
    intro j e before
    refine ⟨_, entries_change_of before, ?_⟩
    by_cases here : s.names slot = some j
    · have held : s.held slot = some e := held_eq_some.mpr ⟨j, here, before⟩
      rw [if_pos here]
      exact ⟨name e held, linked e held⟩
    · rw [if_neg here]
      exact ⟨rfl, rfl⟩
  have stood : ∀ {v : Symbol} {e e' : Sym}, e'.name = e.name → linkage e'.type = linkage e.type → (stands v e' = true ↔ stands v e = true) := by
    intro v e e' names links
    rw [stands_iff, stands_iff, names, links]
  constructor
  case member =>
    intro h i
    rw [change_hash, kept.member]
    constructor
    · rintro ⟨e, before, hash⟩
      obtain ⟨e', after, names, -⟩ := forth before
      exact ⟨e', after, by rw [names, hash]⟩
    · rintro ⟨e', after, hash⟩
      obtain ⟨e, before, names, -⟩ := back after
      exact ⟨e, before, by rw [← names, hash]⟩
  case nodup =>
    rw [change_hash]
    exact kept.nodup
  case hashed =>
    intro i e' after
    obtain ⟨e, before, names, -⟩ := back after
    rw [names]
    exact kept.hashed i e before
  case empty =>
    rw [bound, change_names]
    exact kept.empty
  case slots =>
    intro slot' id type announced
    rw [bound] at announced
    obtain ⟨i, e, there, before, names, links⟩ := kept.slots slot' id type announced
    obtain ⟨e', after, names', links'⟩ := forth before
    exact ⟨i, e', by rw [change_names, there], after, by rw [names', names], by rw [links', links]⟩
  case named =>
    intro v
    rw [named, kept.named]
    constructor
    · rintro ⟨i, e, before, stand⟩
      obtain ⟨e', after, names, links⟩ := forth before
      exact ⟨i, e', after, (stood names links).mpr stand⟩
    · rintro ⟨i, e', after, stand⟩
      obtain ⟨e, before, names, links⟩ := back after
      exact ⟨i, e, before, (stood names links).mp stand⟩
  case unique =>
    intro v i j e₁ e₂ first second stand stand'
    obtain ⟨e, before, names, links⟩ := back first
    obtain ⟨e', before', names', links'⟩ := back second
    exact kept.unique v i j e e' before before' ((stood names links).mp stand) ((stood names' links').mp stand')
  case said => exact said
  case typed =>
    intro v i e' after stand
    obtain ⟨e, before, ⟨here, rfl⟩ | ⟨away, rfl⟩⟩ := of_entries_change after
    · have held : s.held slot = some e := held_eq_some.mpr ⟨i, here, before⟩
      exact typed v e held ((stood (name e held) (linked e held)).mp stand)
    · obtain ⟨texts, datas⟩ := other v i e' before away stand
      rw [texts, datas]
      exact kept.typed v i e' before stand

section steps
variable {seen : Seen} {s : State}

theorem named_of_bucket {e : Sym} {h : Nat} (hash : bucket e.name = some h) : Readobj.named e = true := by
  rcases text : e.name.val with _ | ⟨c, rest⟩
  · rw [bucket, text] at hash
    cases hash
  · have apart : c ≠ 0 := by
      intro zero
      apply e.name.property
      rw [text, zero]
      exact List.mem_cons_self
    simp [Readobj.named, text, apart]

theorem Kept.named_held (kept : Kept seen s) {slot : Nat} {e : Sym} (held : s.held slot = some e) : Readobj.named e = true := by
  obtain ⟨i, -, there⟩ := held_eq_some.mp held
  obtain ⟨h, hash⟩ := kept.hashed i e there
  exact named_of_bucket hash

theorem kept_offset (kept : Kept seen s) (slot off : Nat) : Kept seen (offset s slot off) := by
  apply kept.change
  case name =>
    intro e _
    split <;> rfl
  case linked =>
    intro e _
    split <;> rfl
  case bound => rfl
  case named => rfl
  case said => exact kept.said
  case other => exact fun _ _ _ _ _ _ => ⟨.rfl, .rfl⟩
  case typed =>
    intro v e held stand
    obtain ⟨i, -, there⟩ := held_eq_some.mp held
    split
    · exact kept.typed v i e there stand
    · exact kept.typed v i e there stand

theorem kept_offsets (kept : Kept seen s) (offsets : List (Nat × Nat)) :
    Kept seen (offsets.foldl (fun s o => offset s o.1 o.2) s) := by
  induction offsets generalizing s with
  | nil => exact kept
  | cons o rest ih => exact ih (kept_offset kept o.1 o.2)

theorem Kept.refers_there (kept : Kept seen s) {slot : Nat} {v : Symbol} (refers : seen.refers slot = some v) :
    ∃ (i : Nat) (e : Sym), s.names slot = some i ∧ s.entries[i]? = some e ∧ stands v e = true := by
  obtain ⟨⟨id, type⟩, announced, same⟩ := Option.bind_eq_some_iff.mp refers
  obtain ⟨i, e, there, entry, name, links⟩ := kept.slots slot id type announced
  refine ⟨i, e, there, entry, ?_⟩
  rw [stands_iff, name, links]
  exact symbol_eq_some.mp same

theorem Kept.refers_held (kept : Kept seen s) {slot : Nat} {e : Sym} (held : s.held slot = some e) (v : Symbol) :
    seen.refers slot = some v ↔ stands v e = true := by
  obtain ⟨i, there, entry⟩ := held_eq_some.mp held
  cases announced : seen.bound slot with
  | none =>
      rw [kept.empty slot announced] at there
      cases there
  | some u =>
      obtain ⟨j, e', there', entry', name, links⟩ := kept.slots slot u.1 u.2 announced
      rw [there] at there'
      cases there'
      rw [entry] at entry'
      cases entry'
      unfold Seen.refers
      rw [announced, stands_iff, name, links]
      exact symbol_eq_some

/-- A reference adds to what is said of the symbol in its slot only. -/
theorem Kept.refers_other (kept : Kept seen s) {slot i : Nat} {e : Sym} {v : Symbol} (entry : s.entries[i]? = some e)
    (away : s.names slot ≠ some i) (stand : stands v e = true) (before : Prop) : before ∨ seen.refers slot = some v ↔ before := by
  refine ⟨fun either => either.resolve_right fun refers => ?_, .inl⟩
  obtain ⟨j, e', there, entry', stand'⟩ := kept.refers_there refers
  apply away
  rw [there, kept.unique v j i e' e entry' entry stand' stand]

theorem Kept.refers_named (kept : Kept seen s) {slot : Nat} {v : Symbol} (refers : seen.refers slot = some v) : seen.named v := by
  obtain ⟨i, e, -, entry, stand⟩ := kept.refers_there refers
  exact (kept.named v).mpr ⟨i, e, entry, stand⟩

/-- What `objupdate` makes of an entry. -/
theorem updated (form : Letter) {e : Sym} {c : Linkage} (links : linkage e.type = some c) :
    (if e.type = .U then { e with type := form } else if e.type = .b then { e with type := form.lower } else e : Sym).type =
      if e.type = c.undefined then (if c = .external then form else form.lower) else e.type := by
  cases type : e.type <;> rw [type] at links <;> cases links <;> simp [Linkage.undefined, type]

theorem kept_update (kept : Kept seen s) {slot : Nat} {form : Letter} {seen' : Seen} (defines : linkage form = linkage .U)
    (defines' : linkage form.lower = linkage .b)
    (bound : seen'.bound = seen.bound) (named : seen'.named = seen.named)
    (said : ∀ v, seen'.texts v ∨ seen'.datas v → seen.texts v ∨ seen.datas v ∨ seen.refers slot = some v)
    (other : ∀ v (i : Nat) e, s.entries[i]? = some e → s.names slot ≠ some i → stands v e = true →
      (seen'.texts v ↔ seen.texts v) ∧ (seen'.datas v ↔ seen.datas v))
    (typed : ∀ v e, s.held slot = some e → linkage e.type = some v.2 → seen.refers slot = some v →
      ((if e.type = v.2.undefined then (if v.2 = .external then form else form.lower) else e.type) = v.2.text ↔ seen'.texts v) ∧
      ((if e.type = v.2.undefined then (if v.2 = .external then form else form.lower) else e.type) = v.2.data ↔ seen'.datas v)) :
    Kept seen' (objupdate s slot form) := by
  apply kept.change
  case name =>
    intro e _
    split_ifs <;> rfl
  case linked =>
    intro e held
    rw [if_pos (kept.named_held held)]
    split_ifs with external internal
    · rw [external]
      exact defines
    · rw [internal]
      exact defines'
    · rfl
  case bound => exact bound
  case named => exact named
  case said =>
    intro v say
    rw [named]
    rcases said v say with text | data | refers
    · exact kept.said v (.inl text)
    · exact kept.said v (.inr data)
    · exact kept.refers_named refers
  case other => exact other
  case typed =>
    intro v e held stand
    have links := (stands_iff.mp stand).2
    rw [if_pos (kept.named_held held), updated form links]
    exact typed v e held links ((kept.refers_held held v).mpr stand)

theorem kept_text (kept : Kept seen s) {slot : Nat} (quiet : Quiet s (.aText slot)) :
    Kept (observe seen (.aText slot)) (objupdate s slot .T) := by
  apply kept_update kept
  case defines => rfl
  case defines' => rfl
  case bound => rfl
  case named => rfl
  case said =>
    rintro v ((text | refers) | data)
    · exact .inl text
    · exact .inr (.inr refers)
    · exact .inr (.inl data)
  case other => exact fun v i e entry away stand => ⟨kept.refers_other entry away stand _, .rfl⟩
  case typed =>
    intro v e held links refers
    obtain ⟨i, -, entry⟩ := held_eq_some.mp held
    obtain ⟨-, data⟩ := kept.typed v i e entry ((kept.refers_held held v).mp refers)
    obtain ⟨notD, notd⟩ := quiet e held
    have text : (observe seen (.aText slot)).texts v := .inr refers
    show _ ∧ (_ ↔ seen.datas v)
    rw [← data, iff_true_right text]
    obtain ⟨n, c⟩ := v
    cases c <;> cases type : e.type <;> simp_all [linkage, Linkage.undefined, Linkage.text, Linkage.data, Letter.lower]

theorem kept_data (kept : Kept seen s) {slot : Nat} (quiet : Quiet s (.aData slot)) :
    Kept (observe seen (.aData slot)) (objupdate s slot .D) := by
  apply kept_update kept
  case defines => rfl
  case defines' => rfl
  case bound => rfl
  case named => rfl
  case said =>
    rintro v (text | data | refers)
    · exact .inl text
    · exact .inr (.inl data)
    · exact .inr (.inr refers)
  case other => exact fun v i e entry away stand => ⟨.rfl, kept.refers_other entry away stand _⟩
  case typed =>
    intro v e held links refers
    obtain ⟨i, -, entry⟩ := held_eq_some.mp held
    obtain ⟨text, -⟩ := kept.typed v i e entry ((kept.refers_held held v).mp refers)
    obtain ⟨notT, nott⟩ := quiet e held
    have data : (observe seen (.aData slot)).datas v := .inr refers
    show (_ ↔ seen.texts v) ∧ _
    rw [← text, iff_true_right data]
    obtain ⟨n, c⟩ := v
    cases c <;> cases type : e.type <;> simp_all [linkage, Linkage.undefined, Linkage.text, Linkage.data, Letter.lower]

/-! Names. -/

/-- What a name leaves as it is: every entry but that of a local symbol of this name, of which
nothing is said. -/
def Keeps (s s' : State) (id : Name) : Prop :=
  ∀ (i : Nat) (e : Sym), s.entries[i]? = some e → (e.name ≠ id ∨ islocal e.type = false) → s'.entries[i]? = some e

theorem kept_bind (kept : Kept seen s) (slot : Nat) {i : Nat} {e : Sym} {type : Letter} (entry : s.entries[i]? = some e)
    (links : linkage e.type = linkage type) :
    Kept (observe seen (.aName slot e.name type)) { s with names := Function.update s.names slot (some i) } := by
  constructor
  case member => exact kept.member
  case nodup => exact kept.nodup
  case hashed => exact kept.hashed
  case empty =>
    intro slot' unbound
    by_cases same : slot' = slot
    · simp [observe, same] at unbound
    · simp only [observe, Function.update_of_ne same] at unbound ⊢
      exact kept.empty slot' unbound
  case slots =>
    intro slot' id' type' announced
    by_cases same : slot' = slot
    · simp only [observe, same, Function.update_self, Option.some.injEq, Prod.mk.injEq] at announced
      obtain ⟨rfl, rfl⟩ := announced
      exact ⟨i, e, by simp [same], entry, rfl, links⟩
    · simp only [observe, Function.update_of_ne same] at announced ⊢
      exact kept.slots slot' id' type' announced
  case named =>
    intro v
    refine ⟨?_, fun there => .inl ((kept.named v).mpr there)⟩
    rintro (before | now)
    · exact (kept.named v).mp before
    · refine ⟨i, e, entry, ?_⟩
      rw [stands_iff, links]
      exact symbol_eq_some.mp now
  case unique => exact kept.unique
  case said => exact fun v say => .inl (kept.said v say)
  case typed => exact kept.typed

theorem entries_grow {l : List Sym} {e x : Sym} {i : Nat} :
    (l ++ [e])[i]? = some x ↔ l[i]? = some x ∨ i = l.length ∧ e = x := by
  rw [List.getElem?_append]
  split_ifs with inside
  · exact ⟨.inl, fun either => either.resolve_right fun last => by omega⟩
  · have outside : l[i]? = none := List.getElem?_eq_none (by omega)
    rw [List.getElem?_singleton, outside]
    split_ifs with last
    · simp [show i = l.length by omega]
    · simp [show i ≠ l.length by omega]

/-- The state with a new entry, which no slot points to yet. -/
def grown (s : State) (h : Nat) (e : Sym) : State :=
  ⟨s.entries ++ [e], Function.update s.hash h (s.entries.length :: s.hash h), s.names⟩

theorem kept_grown (kept : Kept seen s) {h : Nat} {e : Sym} (hash : bucket e.name = some h)
    (open' : ∀ c, linkage e.type = some c → e.type = c.undefined) (fresh : ∀ v, stands v e = true → ¬ seen.named v) :
    Kept { seen with named := fun v => seen.named v ∨ symbol e.name e.type = some v } (grown s h e) := by
  have new : ∀ {i : Nat} {x : Sym}, (grown s h e).entries[i]? = some x ↔ s.entries[i]? = some x ∨ i = s.entries.length ∧ e = x :=
    entries_grow
  have old : ∀ {i : Nat} {x : Sym}, s.entries[i]? = some x → i < s.entries.length := fun there =>
    (List.getElem?_eq_some_iff.mp there).1
  constructor
  case member =>
    intro h' i
    have chain : (grown s h e).hash = Function.update s.hash h (s.entries.length :: s.hash h) := rfl
    constructor
    · intro inside
      by_cases same : h' = h
      · rw [chain, same, Function.update_self] at inside
        obtain last | before := List.mem_cons.mp inside
        · exact ⟨e, new.mpr (.inr ⟨last, rfl⟩), by rw [same, hash]⟩
        · obtain ⟨x, there, hashed⟩ := (kept.member h i).mp before
          exact ⟨x, new.mpr (.inl there), by rw [same, hashed]⟩
      · rw [chain, Function.update_of_ne same] at inside
        obtain ⟨x, there, hashed⟩ := (kept.member h' i).mp inside
        exact ⟨x, new.mpr (.inl there), hashed⟩
    · rintro ⟨x, there, hashed⟩
      obtain before | ⟨last, rfl⟩ := new.mp there
      · have inside := (kept.member h' i).mpr ⟨x, before, hashed⟩
        by_cases same : h' = h
        · rw [chain, same, Function.update_self]
          rw [same] at inside
          exact List.mem_cons_of_mem _ inside
        · rwa [chain, Function.update_of_ne same]
      · rw [hash] at hashed
        cases hashed
        rw [chain, Function.update_self, last]
        exact List.mem_cons_self
  case nodup =>
    intro h'
    show (Function.update s.hash h (s.entries.length :: s.hash h) h').Nodup
    by_cases same : h' = h
    · rw [same, Function.update_self]
      refine List.nodup_cons.mpr ⟨fun inside => ?_, kept.nodup h⟩
      obtain ⟨x, there, -⟩ := (kept.member h _).mp inside
      exact Nat.lt_irrefl _ (old there)
    · rw [Function.update_of_ne same]
      exact kept.nodup h'
  case hashed =>
    intro i x there
    obtain before | ⟨-, rfl⟩ := new.mp there
    · exact kept.hashed i x before
    · exact ⟨h, hash⟩
  case empty => exact kept.empty
  case slots =>
    intro slot id type announced
    obtain ⟨i, x, there, entry, name, links⟩ := kept.slots slot id type announced
    exact ⟨i, x, there, new.mpr (.inl entry), name, links⟩
  case named =>
    intro v
    show seen.named v ∨ symbol e.name e.type = some v ↔ _
    rw [kept.named, ← stands_symbol]
    constructor
    · rintro (⟨i, x, entry, stand⟩ | stand)
      · exact ⟨i, x, new.mpr (.inl entry), stand⟩
      · exact ⟨_, e, new.mpr (.inr ⟨rfl, rfl⟩), stand⟩
    · rintro ⟨i, x, entry, stand⟩
      obtain before | ⟨-, rfl⟩ := new.mp entry
      · exact .inl ⟨i, x, before, stand⟩
      · exact .inr stand
  case unique =>
    intro v i j x y first second stand stand'
    obtain before | ⟨last, rfl⟩ := new.mp first
    · obtain before' | ⟨last', rfl⟩ := new.mp second
      · exact kept.unique v i j x y before before' stand stand'
      · exact absurd ((kept.named v).mpr ⟨i, x, before, stand⟩) (fresh v stand')
    · obtain before' | ⟨last', -⟩ := new.mp second
      · exact absurd ((kept.named v).mpr ⟨j, y, before', stand'⟩) (fresh v stand)
      · rw [last, last']
  case said => exact fun v say => .inl (kept.said v say)
  case typed =>
    intro v i x entry stand
    obtain before | ⟨-, rfl⟩ := new.mp entry
    · exact kept.typed v i x before stand
    · have unsaid : ¬ seen.texts v ∧ ¬ seen.datas v :=
        not_or.mp fun say => fresh v stand (kept.said v say)
      rw [open' v.2 (stands_iff.mp stand).2, iff_false_right unsaid.1, iff_false_right unsaid.2]
      obtain ⟨n, c⟩ := v
      cases c <;> exact ⟨nofun, nofun⟩

theorem linkage_of_serves {held type : Letter} (same : serves held type = true) : linkage held = linkage type := by
  cases held <;> cases type <;> first | rfl | cases same

theorem undefined_iff {l : Letter} {c : Linkage} (links : linkage l = some c) :
    l = c.undefined ↔ ¬ l = c.text ∧ ¬ l = c.data := by
  cases l <;> cases links <;> decide

theorem linkage_local {type : Letter} (unlinked : islocal type = true) : linkage type = none := by
  cases type <;> first | rfl | cases unlinked

theorem type2char_linked {k : Sym_kind} {c : Linkage} (links : linkage (type2char k) = some c) :
    type2char k = c.undefined ∧ searched (type2char k) = true ∧
      ∀ held, linkage held = some c → serves held (type2char k) = true := by
  cases k <;> cases links <;> refine ⟨rfl, rfl, fun held same => ?_⟩ <;> cases held <;> first | rfl | cases same

theorem suitable_iff {id : Name} {type : Letter} {i : Nat} :
    suitable s id type i = true ↔ ∃ e, s.entries[i]? = some e ∧ e.name = id ∧ serves e.type type = true := by
  unfold suitable
  cases entry : s.entries[i]? with
  | none => simp
  | some e => simp

theorem bucket_some {id : Name} (nonempty : id.val ≠ []) : ∃ h, bucket id = some h := by
  unfold bucket
  cases text : id.val with
  | nil => exact absurd text nonempty
  | cons c rest => exact ⟨_, rfl⟩

/-- A name whose slot is held by another name. -/
theorem kept_enter {slot : Nat} {id : Name} {k : Sym_kind} (kept : Kept seen s) {h : Nat} (hash : bucket id = some h) :
    Kept (observe seen (.aName slot id (type2char k))) (enter s slot id (type2char k) h) ∧
      Keeps s (enter s slot id (type2char k) h) id := by
  unfold enter
  cases search : (if searched (type2char k) then (s.hash h).find? (suitable s id (type2char k)) else none : Option Nat) with
  | some i =>
      have found : suitable s id (type2char k) i = true := by
        split_ifs at search
        exact List.find?_some search
      obtain ⟨e, entry, rfl, serve⟩ := suitable_iff.mp found
      exact ⟨kept_bind kept slot entry (linkage_of_serves serve), fun i e there _ => there⟩
  | none =>
      let e : Sym := ⟨id, type2char k, if islocal (type2char k) then MAXOFF else 0⟩
      have fresh : ∀ v, stands v e = true → ¬ seen.named v := by
        intro v stand before
        obtain ⟨name, links⟩ := stands_iff.mp stand
        obtain ⟨-, search', serve⟩ := type2char_linked links
        obtain ⟨i, x, entry, stand'⟩ := (kept.named v).mp before
        obtain ⟨name', links'⟩ := stands_iff.mp stand'
        have same : x.name = id := name'.trans name.symm
        have inside : i ∈ s.hash h := (kept.member h i).mpr ⟨x, entry, by rw [same, hash]⟩
        rw [if_pos search', List.find?_eq_none] at search
        exact search i inside (suitable_iff.mpr ⟨x, entry, same, serve x.type links'⟩)
      have after : Kept { seen with named := fun v => seen.named v ∨ symbol e.name e.type = some v } (grown s h e) :=
        kept_grown kept hash (fun c links => (type2char_linked links).1) fresh
      have last : (grown s h e).entries[s.entries.length]? = some e := entries_grow.mpr (.inr ⟨rfl, rfl⟩)
      have bound := kept_bind after slot last rfl
      refine ⟨?_, fun i x there _ => entries_grow.mpr (.inl there)⟩
      have twice : observe { seen with named := fun v => seen.named v ∨ symbol e.name e.type = some v }
          (.aName slot id (type2char k)) = observe seen (.aName slot id (type2char k)) := by
        simp [observe, e]
      rw [← twice]
      exact bound

theorem kept_name (kept : Kept seen s) {slot : Nat} {id : Name} {k : Sym_kind} (nonempty : id.val ≠ [])
    (quiet : Quiet s (.aName slot id (type2char k))) :
    ∃ s', objlookup s slot id (type2char k) = some s' ∧ Kept (observe seen (.aName slot id (type2char k))) s' ∧ Keeps s s' id := by
  unfold objlookup
  by_cases again : (s.held slot).any fun e => e.name = id
  · rw [if_pos again]
    refine ⟨_, rfl, ?_⟩
    obtain ⟨e, held, same⟩ := (Option.any_eq_true _ _).mp again
    have name : e.name = id := of_decide_eq_true same
    obtain ⟨i, there, entry⟩ := held_eq_some.mp held
    -- the type is the same, or stays that of a local symbol
    have links : linkage (type2char k) = linkage e.type := by
      obtain same | ⟨one, two⟩ := quiet e held name
      · rw [same]
      · rw [linkage_local one, linkage_local two]
    have whole : ∀ x, s.held slot = some x → x = e := fun x held' => Option.some.inj (held'.symm.trans held)
    have changed : Kept seen (s.change slot fun e => { e with type := type2char k }) := by
      apply kept.change
      case name => exact fun _ _ => rfl
      case linked =>
        intro x held'
        rw [whole x held']
        exact links
      case bound => rfl
      case named => rfl
      case said => exact kept.said
      case other => exact fun _ _ _ _ _ _ => ⟨.rfl, .rfl⟩
      case typed =>
        intro v x held' stand
        rw [whole x held'] at stand
        have typed := kept.typed v i e entry stand
        obtain same | ⟨one, -⟩ := quiet e held name
        · rwa [same] at typed
        · have link := (stands_iff.mp stand).2
          rw [linkage_local one] at link
          cases link
    have after : (s.change slot fun e => { e with type := type2char k }).entries[i]? = some { e with type := type2char k } := by
      rw [entries_change_of entry, if_pos there]
    have bound := kept_bind changed slot after rfl
    rw [change_names, ← there, Function.update_eq_self] at bound
    constructor
    · rw [← name]
      convert bound using 1
      unfold State.change
      split <;> rfl
    · intro j x there' other
      rw [entries_change_of there']
      by_cases here : s.names slot = some j
      · rw [here] at there
        cases there
        rw [entry] at there'
        cases there'
        obtain same | ⟨one, -⟩ := quiet e held name
        · rw [if_pos here, ← same]
        · obtain differs | notLocal := other
          · exact absurd name differs
          · rw [one] at notLocal
            cases notLocal
      · rw [if_neg here]
  · rw [if_neg again]
    obtain ⟨h, hash⟩ := bucket_some nonempty
    rw [hash]
    exact ⟨_, rfl, kept_enter kept hash⟩

/-! The whole table. -/

theorem bucket_lt {id : Name} {h : Nat} (hash : bucket id = some h) : h < NHASH := by
  unfold bucket at hash
  split at hash
  · cases hash
  · cases hash
    unfold NHASH
    omega

theorem Kept.visited (kept : Kept seen s) (i : Nat) :
    i ∈ (List.range NHASH).flatMap s.hash ↔ ∃ e, s.entries[i]? = some e := by
  rw [List.mem_flatMap]
  constructor
  · rintro ⟨h, -, inside⟩
    obtain ⟨e, entry, -⟩ := (kept.member h i).mp inside
    exact ⟨e, entry⟩
  · rintro ⟨e, entry⟩
    obtain ⟨h, hash⟩ := kept.hashed i e entry
    exact ⟨h, List.mem_range.mpr (bucket_lt hash), (kept.member h i).mpr ⟨e, entry, hash⟩⟩

theorem Kept.distinct (kept : Kept seen s) : ((List.range NHASH).flatMap s.hash).Nodup := by
  refine List.nodup_flatMap.mpr ⟨fun h _ => kept.nodup h, List.nodup_range.imp ?_⟩
  intro h h' apart i inside inside'
  obtain ⟨e, entry, hash⟩ := (kept.member h i).mp inside
  obtain ⟨e', entry', hash'⟩ := (kept.member h' i).mp inside'
  rw [entry] at entry'
  cases entry'
  rw [hash] at hash'
  exact apart (Option.some.inj hash')

theorem Kept.exact (kept : Kept seen s) : Exact seen.toSaid (objtraverse s) where
  one := by
    intro v named
    obtain ⟨i, e, entry, stand⟩ := (kept.named v).mp named
    have single : (objtraverse s).filter (stands v) = [e] :=
      Lists.filter_filterMap_one kept.distinct ((kept.visited i).mpr ⟨e, entry⟩) entry stand
        fun j _ e' entry' stand' => kept.unique v j i e' e entry' entry stand' stand
    obtain ⟨texts, datas⟩ := kept.typed v i e entry stand
    refine ⟨e, single, texts, datas, ?_⟩
    rw [← texts, ← datas]
    exact undefined_iff (stands_iff.mp stand).2
  none := by
    intro v unnamed
    apply Lists.filter_filterMap_nil
    intro i _ e entry
    apply Bool.eq_false_iff.mpr
    exact fun stand => unnamed ((kept.named v).mpr ⟨i, e, entry, stand⟩)

end steps

/-! Runs. -/

/-- The records that a compiler writes. -/
def Written (r : Record) : Prop :=
  match r.prog with
  | .aNone => True
  | .aName slot id type => r.offsets = [] ∧ slot < NNAMES ∧ id.val ≠ [] ∧ ∃ k, type = type2char k
  | .aText slot => slot < NNAMES
  | .aData slot => slot < NNAMES

/-- An offset changes no name and no type. -/
theorem held_offset {s : State} {slot off id : Nat} {e' : Sym} (held : (offset s slot off).held id = some e') :
    ∃ e, s.held id = some e ∧ e'.name = e.name ∧ e'.type = e.type := by
  obtain ⟨i, there, after⟩ := held_eq_some.mp held
  have there : s.names id = some i := by
    rw [← there]
    exact (congrFun (change_names _) id).symm
  obtain ⟨e, entry, ⟨-, rfl⟩ | ⟨-, rfl⟩⟩ := of_entries_change after
  · refine ⟨e, held_eq_some.mpr ⟨i, there, entry⟩, ?_⟩
    split
    · exact ⟨rfl, rfl⟩
    · exact ⟨rfl, rfl⟩
  · exact ⟨e', held_eq_some.mpr ⟨i, there, entry⟩, rfl, rfl⟩

theorem quiet_offsets {s : State} {p : Prog} (quiet : Quiet s p) (offsets : List (Nat × Nat)) :
    Quiet (offsets.foldl (fun s o => offset s o.1 o.2) s) p := by
  induction offsets generalizing s with
  | nil => exact quiet
  | cons o rest ih =>
      apply ih
      cases p with
      | aNone => exact quiet
      | aName slot id type =>
          intro e' held name
          obtain ⟨e, before, names, types⟩ := held_offset held
          rw [types]
          exact quiet e before (names.symm.trans name)
      | aText slot =>
          intro e' held
          obtain ⟨e, before, -, types⟩ := held_offset held
          rw [types]
          exact quiet e before
      | aData slot =>
          intro e' held
          obtain ⟨e, before, -, types⟩ := held_offset held
          rw [types]
          exact quiet e before

/-- One record more. -/
theorem kept_turn {seen : Seen} {s : State} (kept : Kept seen s) {r : Record} (written : Written r) (quiet : Quiet s r.prog) :
    ∃ s', turn s r = some (s', true) ∧ Kept (observe seen r.prog) s' ∧
      ∀ slot id type, r.prog = .aName slot id type → Keeps s s' id := by
  have kept' := kept_offsets kept r.offsets
  have quiet' := quiet_offsets quiet r.offsets
  unfold turn
  obtain ⟨offsets, prog⟩ := r
  cases prog with
  | aNone => exact ⟨_, rfl, kept', nofun⟩
  | aName slot id type =>
      obtain ⟨rfl, small, nonempty, k, rfl⟩ := written
      obtain ⟨s', found, after, keeps⟩ := kept_name kept nonempty quiet
      refine ⟨s', ?_, after, ?_⟩
      · have inside : ¬ slot ≥ NNAMES := Nat.not_le.mpr small
        simp [processprog, inside, found]
      · intro _ _ _ same
        cases same
        exact keeps
  | aText slot =>
      have inside : ¬ slot ≥ NNAMES := Nat.not_le.mpr written
      exact ⟨_, if_neg inside, kept_text kept' quiet', nofun⟩
  | aData slot =>
      have inside : ¬ slot ≥ NNAMES := Nat.not_le.mpr written
      exact ⟨_, if_neg inside, kept_data kept' quiet', nofun⟩

/-- Every state that a run goes through, with what the records before it say. -/
theorem kept_turns {seen : Seen} {s : State} {records : List Record} (kept : Kept seen s) (written : ∀ r ∈ records, Written r)
    (quiet : QuietRun s records) (k : Nat) :
    ∃ s', turns s (records.take k) = some (s', true) ∧
      Kept ((records.take k).foldl (fun seen r => observe seen r.prog) seen) s' ∧
      ∀ r, records[k]? = some r → ∃ s'', turn s' r = some (s'', true) ∧
        ∀ slot id type, r.prog = .aName slot id type → Keeps s' s'' id := by
  induction records generalizing seen s k with
  | nil => exact ⟨s, by rw [List.take_nil]; rfl, by rw [List.take_nil]; exact kept, nofun⟩
  | cons r rest ih =>
      obtain ⟨here, later⟩ := quiet
      obtain ⟨s₁, one, kept₁, keeps⟩ := kept_turn kept (written r List.mem_cons_self) here
      cases k with
      | zero =>
          refine ⟨s, rfl, kept, fun r' first => ?_⟩
          cases first
          exact ⟨s₁, one, keeps⟩
      | succ k =>
          rw [one] at later
          obtain ⟨s', ends, kept', next⟩ := ih kept₁ (fun r' inside => written r' (List.mem_cons_of_mem r inside)) later k
          refine ⟨s', ?_, kept', next⟩
          rw [List.take_succ_cons, turns, one]
          exact ends

/-! The compiler. -/

section compiler
variable {sigs : Signatures}

/-- The reader's view of a slot of the ring. -/
def Agrees (v : Name × Sym_kind) (x : Name × Letter) : Prop := x = (v.1, type2char v.2)

/-- The symbol that an operand uses. -/
def used (sym : Option Name) (k : Sym_kind) : Option Symbol := sym.bind fun n => symbol n (type2char k)

structure InStep (w : Writer) (seen : Seen) : Prop where
  proper : Ring.Proper NSYM w.ring
  mirrors : Ring.Mirrors Agrees w.ring seen.bound
  named : ∀ i v u, w.ring.slots i = some v → symbol v.1 (type2char v.2) = some u → seen.named u

/-- The records of some names, with the symbols that they name. -/
structure Names (seen : Seen) (records : List Record) (w' : Writer) (symbols : Symbol → Prop) : Prop where
  written : ∀ r ∈ records, Written r
  inStep : InStep w' (records.foldl (fun seen r => observe seen r.prog) seen)
  named : ∀ u, (records.foldl (fun seen r => observe seen r.prog) seen).named u ↔ seen.named u ∨ symbols u
  texts : (records.foldl (fun seen r => observe seen r.prog) seen).texts = seen.texts
  datas : (records.foldl (fun seen r => observe seen r.prog) seen).datas = seen.datas

variable (sigs) in
theorem names_symslot {w : Writer} {seen : Seen} (inStep : InStep w seen) (sym : Option Name) (k : Sym_kind)
    (nonempty : ∀ n, sym = some n → n.val ≠ []) :
    Names seen (symslot sigs w sym k).2.2.1 (symslot sigs w sym k).2.1 fun u => used sym k = some u := by
  cases sym with
  | none => exact ⟨by simp [symslot, ArmObj.symslot], inStep, by simp [symslot, ArmObj.symslot, used], rfl, rfl⟩
  | some n =>
      by_cases held : w.ring.slots (Ring.seek NSYM Prod.fst w.ring (n, k)) = some (n, k)
      · have same : symslot sigs w (some n) k = (Ring.seek NSYM Prod.fst w.ring (n, k), w, [], false) := by
          simp only [symslot, ArmObj.symslot, if_pos held]
          rfl
        rw [same]
        refine ⟨by simp, inStep, fun u => ?_, rfl, rfl⟩
        refine ⟨.inl, fun either => either.elim id fun use => ?_⟩
        exact inStep.named _ _ u held use
      · have same : (symslot sigs w (some n) k).2.1.ring = Ring.push NSYM Prod.fst w.ring (n, k) ∧
            (symslot sigs w (some n) k).2.2.1 = [⟨[], .aName w.ring.next n (type2char k)⟩] := by
          simp [symslot, ArmObj.symslot, held]
        obtain ⟨ring, records⟩ := same
        rw [records]
        refine ⟨?_, ⟨?_, ?_, ?_⟩, fun _ => .rfl, rfl, rfl⟩
        · intro r inside
          rw [List.mem_singleton.mp inside]
          exact ⟨rfl, inStep.proper.inside, nonempty n rfl, k, rfl⟩
        · rw [ring]
          exact inStep.proper.push (by decide) _
        · rw [ring]
          exact inStep.mirrors.push inStep.proper rfl
        · intro i v u there use
          rw [ring, Ring.push_slots] at there
          by_cases new : i = w.ring.next
          · rw [new, Function.update_self] at there
            cases there
            exact .inr use
          · rw [Function.update_of_ne new] at there
            exact .inl (inStep.named i v u there use)

theorem Names.append {seen : Seen} {one two : List Record} {w₁ w₂ : Writer} {some' more : Symbol → Prop} (first : Names seen one w₁ some')
    (second : Names (one.foldl (fun seen r => observe seen r.prog) seen) two w₂ more) :
    Names seen (one ++ two) w₂ fun u => some' u ∨ more u := by
  constructor
  case written =>
    intro r inside
    obtain early | late := List.mem_append.mp inside
    · exact first.written r early
    · exact second.written r late
  case inStep =>
    rw [List.foldl_append]
    exact second.inStep
  case named =>
    intro u
    rw [List.foldl_append, second.named, first.named, or_assoc]
  case texts => rw [List.foldl_append, second.texts, first.texts]
  case datas => rw [List.foldl_append, second.datas, first.datas]

def Identifiers (p : ArmObj.Prog) : Prop := ∀ n, p.source.sym = some n ∨ p.dest.sym = some n → n.val ≠ []

def uses (p : ArmObj.Prog) (u : Symbol) : Prop :=
  used p.source.sym p.source.symkind = some u ∨ used p.dest.sym p.dest.symkind = some u

theorem names_jackpot {fuel : Nat} {w w' : Writer} {seen : Seen} {p : ArmObj.Prog} {sf st : Nat} {records : List Record}
    (inStep : InStep w seen) (identifiers : Identifiers p) (done : jackpot sigs fuel w p = some (sf, st, w', records)) :
    Names seen records w' (uses p) := by
  induction fuel generalizing w seen records with
  | zero => cases done
  | succ fuel ih =>
      have first := names_symslot sigs inStep p.source.sym p.source.symkind fun n same => identifiers n (.inl same)
      rcases one : symslot sigs w p.source.sym p.source.symkind with ⟨sf₁, w₁, records₁, new₁⟩
      rw [one] at first
      have second := names_symslot sigs first.inStep p.dest.sym p.dest.symkind fun n same => identifiers n (.inr same)
      rcases two : symslot sigs w₁ p.dest.sym p.dest.symkind with ⟨st₁, w₂, records₂, new₂⟩
      rw [two] at second
      have both := first.append second
      simp only [jackpot, one, two] at done
      split_ifs at done with again
      · obtain ⟨⟨sf', st', w'', more⟩, rest, same⟩ := Option.map_eq_some_iff.mp done
        cases same
        have whole := both.append (ih both.inStep rest)
        refine ⟨whole.written, whole.inStep, fun u => ?_, whole.texts, whole.datas⟩
        rw [whole.named]
        exact or_congr_right (or_self_iff (a := uses p u))
      · cases done
        exact both

variable (sigs) in
theorem jackpot_slots (fuel : Nat) (w : Writer) (p : ArmObj.Prog) :
    (jackpot sigs fuel w p).map (fun x => (x.1, x.2.1, x.2.2.1)) =
      (ArmObj.jackpot sigs fuel w p).map fun x => (x.1, x.2.1, x.2.2.1) := by
  induction fuel generalizing w with
  | zero => rfl
  | succ fuel ih =>
      rcases one : ArmObj.symslot sigs w p.source.sym p.source.symkind with ⟨sf, w₁, bytes, new₁⟩
      rcases two : ArmObj.symslot sigs w₁ p.dest.sym p.dest.symkind with ⟨st, w₂, bytes', new⟩
      simp only [jackpot, ArmObj.jackpot, symslot, one, two]
      by_cases again : new = true ∧ st = sf
      · rw [if_pos again, if_pos again, Option.map_map, Option.map_map]
        exact ih w₂
      · rw [if_neg again, if_neg again]
        rfl

/-- The instruction has this opcode and refers to the symbol. -/
def defines (as : UInt8) (p : ArmObj.Prog) (u : Symbol) : Prop :=
  p.as = as ∧ p.source.type = .D_OREG ∧ used p.source.sym p.source.symkind = some u

theorem kind_of_used {sym : Option Name} {k : Sym_kind} {u : Symbol} (use : used sym k = some u) : k = .N_INTERN ∨ k = .N_EXTERN := by
  obtain ⟨n, -, same⟩ := Option.bind_eq_some_iff.mp use
  have links := (symbol_eq_some.mp same).2
  cases k <;> first | exact .inl rfl | exact .inr rfl | cases links

theorem InStep.refers {w : Writer} {seen : Seen} (inStep : InStep w seen) {slot : Nat} {sym : Option Name} {k : Sym_kind}
    (there : w.ring.slots slot = ArmObj.entry sym k) (filled : Ring.Filled w.ring slot) : seen.refers slot = used sym k := by
  have read := inStep.mirrors.read inStep.proper filled
  rw [there] at read
  unfold Seen.refers
  cases sym with
  | none =>
      rcases bound : seen.bound slot with _ | v
      · rfl
      · rw [bound] at read
        cases read
  | some n =>
      rcases bound : seen.bound slot with _ | v
      · rw [bound] at read
        cases read
      · rw [bound] at read
        obtain ⟨same⟩ := read
        rw [show v = (n, type2char k) from same]
        rfl

theorem observe_instruction {seen : Seen} {p : ArmObj.Prog} {sf : Nat} (st : Nat) (refers : seen.refers sf = used p.source.sym p.source.symkind) :
    (observe seen (instruction p sf st).prog).bound = seen.bound ∧ (observe seen (instruction p sf st).prog).named = seen.named ∧
      (∀ u, (observe seen (instruction p sf st).prog).texts u ↔ seen.texts u ∨ defines ATEXT p u) ∧
      ∀ u, (observe seen (instruction p sf st).prog).datas u ↔ seen.datas u ∨ defines AGLOBL p u := by
  have none' : ∀ {P Q : Prop}, ¬ Q → (P ↔ P ∨ Q) := fun not => (or_iff_left not).symm
  unfold instruction
  dsimp only
  split_ifs with operand text data
  · refine ⟨rfl, rfl, fun u => ?_, fun u => none' fun other => ?_⟩
    · show seen.texts u ∨ seen.refers sf = some u ↔ _
      rw [refers]
      exact or_congr_right ⟨fun use => ⟨text, operand.1, use⟩, fun here => here.2.2⟩
    · exact absurd (text.symm.trans other.1) (by decide)
  · refine ⟨rfl, rfl, fun u => none' fun other => text other.1, fun u => ?_⟩
    show seen.datas u ∨ seen.refers sf = some u ↔ _
    rw [refers]
    exact or_congr_right ⟨fun use => ⟨data, operand.1, use⟩, fun here => here.2.2⟩
  · exact ⟨rfl, rfl, fun u => none' fun other => text other.1, fun u => none' fun other => data other.1⟩
  · have no : ∀ as u, ¬ defines as p u := fun as u other => operand ⟨other.2.1, kind_of_used other.2.2⟩
    exact ⟨rfl, rfl, fun u => none' (no ATEXT u), fun u => none' (no AGLOBL u)⟩

theorem written_instruction (p : ArmObj.Prog) {sf st : Nat} (small : sf < NSYM) : Written (instruction p sf st) := by
  unfold Written instruction
  dsimp only
  split_ifs
  · exact small
  · exact small
  · trivial
  · trivial

/-- What a program says of its symbols. -/
def program (ps : List ArmObj.Prog) : Said where
  named u := ∃ p ∈ ps, uses p u
  texts u := ∃ p ∈ ps, defines ATEXT p u
  datas u := ∃ p ∈ ps, defines AGLOBL p u

theorem meaning_outprogs {ps : List ArmObj.Prog} {w : Writer} {seen : Seen} {records : List Record} (inStep : InStep w seen)
    (identifiers : ∀ p ∈ ps, Identifiers p) (written : outprogs sigs w ps = some records) :
    (∀ r ∈ records, Written r) ∧
      (∀ u, (records.foldl (fun seen r => observe seen r.prog) seen).named u ↔ seen.named u ∨ (program ps).named u) ∧
      (∀ u, (records.foldl (fun seen r => observe seen r.prog) seen).texts u ↔ seen.texts u ∨ (program ps).texts u) ∧
      ∀ u, (records.foldl (fun seen r => observe seen r.prog) seen).datas u ↔ seen.datas u ∨ (program ps).datas u := by
  induction ps generalizing w seen records with
  | nil =>
      cases written
      simp [program]
  | cons p ps ih =>
      obtain ⟨⟨sf, st, w', names⟩, settles, written⟩ := Option.bind_eq_some_iff.mp written
      obtain ⟨more, rest, same⟩ := Option.bind_eq_some_iff.mp written
      cases same
      obtain ⟨sf', st', w'', bytes, settles', settled, -⟩ := ArmObj.jackpot_spec sigs 0 inStep.proper p
      have slots := jackpot_slots sigs 2 w p
      rw [settles, settles'] at slots
      cases slots
      have said := names_jackpot inStep (identifiers p List.mem_cons_self) settles
      obtain ⟨bound, named, texts, datas⟩ :=
        observe_instruction st (said.inStep.refers settled.slot settled.filled)
      have inStep' : InStep w' (observe (names.foldl (fun seen r => observe seen r.prog) seen) (instruction p sf st).prog) := by
        refine ⟨said.inStep.proper, ?_, ?_⟩
        · rw [bound]
          exact said.inStep.mirrors
        · rw [named]
          exact said.inStep.named
      obtain ⟨later, named', texts', datas'⟩ := ih inStep' (fun p' inside => identifiers p' (List.mem_cons_of_mem p inside)) rest
      simp only [List.foldl_append, List.foldl_cons]
      refine ⟨?_, fun u => ?_, fun u => ?_, fun u => ?_⟩
      · intro r inside
        obtain name | inside := List.mem_append.mp inside
        · exact said.written r name
        · obtain rfl | inside := List.mem_cons.mp inside
          · exact written_instruction p settled.small
          · exact later r inside
      · rw [named', named, said.named, or_assoc]
        simp [program]
      · rw [texts', texts, said.texts, or_assoc]
        simp [program]
      · rw [datas', datas, said.datas, or_assoc]
        simp [program]

theorem foldl_outhist (hist : List ArmObj.Hist) (seen : Seen) (zero : seen.bound 0 = none) :
    ((outhist hist).foldl (fun seen r => observe seen r.prog) seen).bound 0 = none ∧
      ((outhist hist).foldl (fun seen r => observe seen r.prog) seen).toSaid = seen.toSaid := by
  have each : ∀ r ∈ outhist hist, ∀ seen' : Seen, seen'.bound 0 = none →
      (observe seen' r.prog).bound 0 = none ∧ (observe seen' r.prog).toSaid = seen'.toSaid := by
    intro r inside seen' zero
    obtain ⟨h, -, inside⟩ := List.mem_flatMap.mp inside
    obtain name | line := List.mem_append.mp inside
    · obtain ⟨n, -, rfl⟩ := List.mem_map.mp name
      refine ⟨?_, ?_⟩
      · simp [observe, zero]
      · simp [observe, symbol, linkage, type2char]
    · rw [List.mem_singleton.mp line]
      exact ⟨zero, rfl⟩
  generalize outhist hist = records at each
  induction records generalizing seen with
  | nil => exact ⟨zero, rfl⟩
  | cons r rest ih =>
      obtain ⟨zero', same⟩ := each r List.mem_cons_self seen zero
      obtain ⟨zero'', same'⟩ := ih _ zero' fun r' inside => each r' (List.mem_cons_of_mem r inside)
      exact ⟨zero'', same'.trans same⟩

theorem written_outhist (hist : List ArmObj.Hist) : ∀ r ∈ outhist hist, Written r := by
  intro r inside
  obtain ⟨h, -, inside⟩ := List.mem_flatMap.mp inside
  obtain name | line := List.mem_append.mp inside
  · obtain ⟨n, -, rfl⟩ := List.mem_map.mp name
    exact ⟨rfl, by decide, List.cons_ne_nil _ _, _, rfl⟩
  · rw [List.mem_singleton.mp line]
    trivial

/-- What the records of a program say is what the program says. -/
theorem meaning_outcode {hist : List ArmObj.Hist} {ps : List ArmObj.Prog} {records : List Record}
    (identifiers : ∀ p ∈ ps, Identifiers p) (written : outcode sigs hist ps = some records) :
    (∀ r ∈ records, Written r) ∧ (∀ u, (meaning records).named u ↔ (program ps).named u) ∧
      (∀ u, (meaning records).texts u ↔ (program ps).texts u) ∧ ∀ u, (meaning records).datas u ↔ (program ps).datas u := by
  obtain ⟨code, outCode, same⟩ := Option.map_eq_some_iff.mp written
  cases same
  obtain ⟨zero, said⟩ := foldl_outhist hist nothing rfl
  have proper : Ring.Proper NSYM Writer.empty.ring := Ring.proper_empty (by decide)
  have start : InStep Writer.empty ((outhist hist).foldl (fun seen r => observe seen r.prog) nothing) :=
    ⟨proper, Ring.mirrors_empty Agrees zero, nofun⟩
  obtain ⟨each, named, texts, datas⟩ := meaning_outprogs start identifiers outCode
  rw [said] at named texts datas
  unfold meaning
  rw [List.foldl_append]
  refine ⟨?_, fun u => ?_, fun u => ?_, fun u => ?_⟩
  · intro r inside
    obtain early | late := List.mem_append.mp inside
    · exact written_outhist hist r early
    · exact each r late
  · rw [named]
    exact or_iff_right id
  · rw [texts]
    exact or_iff_right id
  · rw [datas]
    exact or_iff_right id

theorem Exact.congr {said said' : Said} {table : List Sym} (exact' : Exact said table) (named : ∀ u, said.named u ↔ said'.named u)
    (texts : ∀ u, said.texts u ↔ said'.texts u) (datas : ∀ u, said.datas u ↔ said'.datas u) : Exact said' table where
  one := by
    intro v this
    obtain ⟨e, single, text, data, undefined⟩ := exact'.one v ((named v).mpr this)
    rw [texts] at text undefined
    rw [datas] at data undefined
    exact ⟨e, single, text, data, undefined⟩
  none := fun v this => exact'.none v fun before => this ((named v).mp before)

end compiler

/-- In a run whose steps all meet the condition, the table is exact after every
record, no name changes what is known of another symbol or of a definition, and at
the end the table says of the program's symbols what the program does. -/
theorem readobj_exact (sigs : Signatures) (hist : List ArmObj.Hist) (ps : List ArmObj.Prog) (records : List Record)
    (identifiers : ∀ p ∈ ps, Identifiers p) (written : outcode sigs hist ps = some records) (quiet : QuietRun objreset records) :
    (∀ k, ∃ s, turns objreset (records.take k) = some (s, true) ∧ Exact (meaning (records.take k)).toSaid (objtraverse s) ∧
      ∀ r, records[k]? = some r → ∃ s', turn s r = some (s', true) ∧
        ∀ slot id type, r.prog = .aName slot id type → Keeps s s' id) ∧
    ∃ s, readobj records = some (s, true) ∧ Exact (program ps) (objtraverse s) := by
  obtain ⟨each, named, texts, datas⟩ := meaning_outcode identifiers written
  have run := kept_turns kept_objreset each quiet
  constructor
  · intro k
    obtain ⟨s, ends, kept, next⟩ := run k
    exact ⟨s, ends, kept.exact, next⟩
  · obtain ⟨s, ends, kept, -⟩ := run records.length
    rw [List.take_length] at ends kept
    exact ⟨s, ends, kept.exact.congr named texts datas⟩

/-- `x`. -/
theorem ex_ended : (0 : UInt8) ∉ [120] := by decide

def ex : Name := ⟨[120], ex_ended⟩

/-- A name of as many letters more. -/
def long (more : Nat) : Name := ⟨97 :: List.replicate more 97, by simp⟩

def operand (n : Name) (k : Sym_kind) : ArmObj.Adr := { ArmObj.zprogAdr with type := .D_OREG, sym := some n, symkind := k }

/-- `TEXT x(SB)`. -/
def textx : ArmObj.Prog := ⟨ATEXT, 14, 16, 1, operand ex .N_EXTERN, ArmObj.zprogAdr⟩

/-- `MOVW x-0(SP), R1`. -/
def movx : ArmObj.Prog := ⟨24, 14, 16, 2, operand ex .N_LOCAL, { ArmObj.zprogAdr with type := .D_REG, reg := 1 }⟩

def movs (source dest : Name) : ArmObj.Prog := ⟨24, 14, 16, 2, operand source .N_EXTERN, operand dest .N_EXTERN⟩

theorem identifiers_textx : Identifiers textx := by
  rintro n (same | same)
  · cases same
    decide
  · cases same

theorem identifiers_movx : Identifiers movx := by
  rintro n (same | same)
  · cases same
    decide
  · cases same

theorem identifiers_movs {source dest : Name} (nonempty : source.val ≠ []) (nonempty' : dest.val ≠ []) : Identifiers (movs source dest) := by
  rintro n (same | same)
  · cases same
    exact nonempty
  · cases same
    exact nonempty'

/-- A local symbol of the name of the function. -/
theorem textx_movx_exact :
    (∀ k, ∃ s, turns objreset (((outcode ArmObj.noSignatures [] [textx, movx]).getD []).take k) = some (s, true) ∧
      Exact (meaning (((outcode ArmObj.noSignatures [] [textx, movx]).getD []).take k)).toSaid (objtraverse s) ∧
      ∀ r, ((outcode ArmObj.noSignatures [] [textx, movx]).getD [])[k]? = some r → ∃ s', turn s r = some (s', true) ∧
        ∀ slot id type, r.prog = .aName slot id type → Keeps s s' id) ∧
    ∃ s, readobj ((outcode ArmObj.noSignatures [] [textx, movx]).getD []) = some (s, true) ∧
      Exact (program [textx, movx]) (objtraverse s) := by
  have identifiers : ∀ p ∈ [textx, movx], Identifiers p := by
    simp only [List.forall_mem_cons, List.not_mem_nil, false_imp_iff, implies_true, and_true]
    exact ⟨identifiers_textx, identifiers_movx⟩
  exact readobj_exact ArmObj.noSignatures [] [textx, movx] _ identifiers rfl (by decide)

/-- The 49th name after the function is a local symbol of its name. -/
def crossing : List ArmObj.Prog :=
  textx :: (List.range 24).map (fun i => movs (long (2 * i)) (long (2 * i + 1))) ++ [movx]

set_option maxRecDepth 1000 in
/-- It takes slot 1, and what the table says of the function. -/
theorem crossing_overwritten : (∀ p ∈ crossing, Identifiers p) ∧
    ∃ records s, outcode ArmObj.noSignatures [] crossing = some records ∧ readobj records = some (s, true) ∧
      ¬ Exact (program crossing) (objtraverse s) := by
  constructor
  · intro p inside
    obtain inside | last := List.mem_append.mp inside
    · obtain rfl | inside := List.mem_cons.mp inside
      · exact identifiers_textx
      · obtain ⟨i, -, rfl⟩ := List.mem_map.mp inside
        exact identifiers_movs (List.cons_ne_nil _ _) (List.cons_ne_nil _ _)
    · rw [List.mem_singleton.mp last]
      exact identifiers_movx
  · have run : (readobj ((outcode ArmObj.noSignatures [] crossing).getD [])).map
        (fun x => (x.2, x.1.entries.any (stands (ex, .external)))) = some (true, false) := by
      decide
    have total : (outcode ArmObj.noSignatures [] crossing).isSome := by decide
    obtain ⟨records, written⟩ := Option.isSome_iff_exists.mp total
    rw [written] at run
    obtain ⟨⟨s, ended⟩, reads, same⟩ := Option.map_eq_some_iff.mp run
    obtain ⟨rfl, missing⟩ := Prod.mk.inj same
    refine ⟨records, s, written, reads, fun exact' => ?_⟩
    have named : (program crossing).named (ex, .external) :=
      ⟨textx, List.mem_append_left _ List.mem_cons_self, .inl rfl⟩
    obtain ⟨e, single, -⟩ := exact'.one _ named
    obtain ⟨visited, stand⟩ := List.mem_filter.mp (single ▸ List.mem_singleton_self e)
    obtain ⟨i, -, entry⟩ := List.mem_filterMap.mp visited
    exact absurd stand (List.any_eq_false.mp missing e (List.mem_of_getElem? entry))

end Goken.Proofs.Readobj
