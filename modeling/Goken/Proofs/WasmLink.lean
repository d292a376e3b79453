import Mathlib.Algebra.Order.BigOperators.Group.List
import Mathlib.Data.List.Nodup
import Mathlib.Data.List.TakeWhile
import Goken.Proofs.Wasmcode

/-! The modules that el writes: what the object files leave, where the data is put, and the
functions that the indices in the module denote. -/

namespace Goken.Proofs.WasmLink
open Goken Lib Readers WasmObj WasmLink Wasmcode

/-! Symbols. -/

theorem mem_lookup {table : List Sym} {s x : Sym} : x ∈ lookup table s ↔ x = s ∨ x ∈ table := by
  unfold lookup
  split
  case isTrue inside => exact ⟨.inr, fun either => either.elim (fun same => same ▸ inside) id⟩
  case isFalse => exact List.mem_cons

theorem nodup_lookup {table : List Sym} {s : Sym} (distinct : table.Nodup) : (lookup table s).Nodup := by
  unfold lookup
  split
  case isTrue => exact distinct
  case isFalse new => exact List.nodup_cons.mpr ⟨new, distinct⟩

/-- What an operand can be once the symbols of its file are in `hash[]`. -/
structure Known (table : List Sym) (a : Operand) : Prop where
  sym : ∀ x, a.sym = some x → x ∈ table
  sval : ∀ text, a.value = .sval text → text.length = NSNAME

theorem inval_sval {type : D} {p q : List UInt8} {v : Value} (read : inval type p = .ok (v, q)) :
    ∀ text, v = .sval text → text.length = NSNAME := by
  rintro text rfl
  unfold inval at read
  split at read
  case h_8 =>
    obtain ⟨⟨bytes, rest⟩, taken, same⟩ := Outcome.bind_eq_ok.mp read
    cases same
    unfold Bytes.take at taken
    split at taken
    case isTrue enough =>
      cases taken
      exact List.length_take_of_le enough
    case isFalse => cases taken
  case h_10 => cases read
  all_goals
    obtain ⟨⟨l, rest⟩, -, read⟩ := Outcome.bind_eq_ok.mp read
    first
    | cases read
    | obtain ⟨⟨h, rest⟩, -, same⟩ := Outcome.bind_eq_ok.mp read
      cases same

/-- How far an operand goes does not depend on the symbols. -/
theorem inopd_known {p q : List UInt8} {h : Table} {a : Operand} {table : List Sym} (known : ∀ i x, h i = some x → x ∈ table)
    (read : inopd p h = .ok (a, q)) : Known table a ∧ ∃ b, inopd p (fun _ => none) = .ok (b, q) := by
  unfold inopd at read ⊢
  split at read
  case h_1 type _ symidx name p =>
    simp only
    split at read
    case h_1 => cases read
    case h_2 type found =>
      obtain ⟨⟨v, rest⟩, value, same⟩ := Outcome.bind_eq_ok.mp read
      cases same
      simp only [value]
      exact ⟨⟨fun x found => known _ x found, inval_sval value⟩, _, rfl⟩
  case h_2 => cases read

theorem entries_grow {version fuel : Nat} {p : List UInt8} {table final : List Sym} {strays : Nat}
    (read : entries version fuel p table = .ok (final, strays)) : (∀ x ∈ table, x ∈ final) ∧ (table.Nodup → final.Nodup) := by
  induction fuel generalizing p table strays with
  | zero =>
    cases p with
    | nil =>
      cases read
      exact ⟨fun _ => id, id⟩
    | cons => cases read
  | succ fuel ih =>
    cases p with
    | nil =>
      cases read
      exact ⟨fun _ => id, id⟩
    | cons op p =>
      unfold entries at read
      split at read
      case isTrue =>
        split at read
        case h_1 =>
          split at read
          case h_1 => cases read
          case h_2 =>
            obtain ⟨grows, distinct⟩ := ih read
            exact ⟨fun x inside => grows x (mem_lookup.mpr (.inr inside)), fun new => distinct (nodup_lookup new)⟩
        case h_2 => cases read
      case isFalse =>
        split at read
        case h_1 =>
          obtain ⟨_, -, read⟩ := Outcome.bind_eq_ok.mp read
          obtain ⟨_, -, read⟩ := Outcome.bind_eq_ok.mp read
          obtain ⟨_, -, read⟩ := Outcome.bind_eq_ok.mp read
          simp only at read
          split at read
          case isTrue =>
            cases read
            exact ⟨fun _ => id, id⟩
          case isFalse =>
            obtain ⟨⟨later, more⟩, rest, same⟩ := Outcome.bind_eq_ok.mp read
            cases same
            exact ih rest
        case h_2 => cases read

/-! What reading leaves. -/

structure Sound (table : List Sym) (s : Link) : Prop where
  known : ∀ sym, s.type sym = .SBSS → sym ∈ table
  size : ∀ sym, 0 ≤ s.datasize sym
  text : ∀ t ∈ s.texts, s.type t.sym = .STEXT
  sig : ∀ t ∈ s.texts, t.sig.length = NSNAME
  defined : ∀ sym, s.type sym = .STEXT → sym ∈ s.texts.map Text.sym
  distinct : s.nerrors = 0 → (s.texts.map Text.sym).Nodup

section Sound

variable {table : List Sym} {s s' : Link}

theorem sound_empty (table : List Sym) : Sound table empty := by
  refine ⟨?_, fun _ => Int.le_refl 0, nofun, nofun, ?_, fun _ => List.nodup_nil⟩ <;> exact nofun

theorem Sound.mono {more : List Sym} (sound : Sound table s) (grows : ∀ x ∈ table, x ∈ more) : Sound more s :=
  { sound with known := fun sym data => grows sym (sound.known sym data) }

/-- The bytes of the data and the relocations do not matter. -/
theorem Sound.congr (sound : Sound table s) (type : s'.type = s.type) (datasize : s'.datasize = s.datasize) (texts : s'.texts = s.texts)
    (nerrors : s.nerrors ≤ s'.nerrors) : Sound table s' where
  known := type ▸ sound.known
  size := datasize ▸ sound.size
  text := type ▸ texts ▸ sound.text
  sig := texts ▸ sound.sig
  defined := type ▸ texts ▸ sound.defined
  distinct none_ := texts ▸ sound.distinct (by omega)

theorem Sound.growdata (sound : Sound table s) (sym : Sym) (need : Int) : Sound table (growdata s sym need) := by
  refine { sound with size := fun other => ?_ }
  have := sound.size sym
  have := sound.size other
  by_cases same : other = sym
  · subst same
    simp only [WasmObj.growdata, Function.update_self]
    omega
  · simpa only [WasmObj.growdata, Function.update_of_ne same]

/-- A symbol becomes data, if it is not a function. -/
theorem Sound.bss (sound : Sound table s) {sym : Sym} (inside : sym ∈ table) (plain : s.type sym ≠ .STEXT) :
    Sound table { s with type := Function.update s.type sym .SBSS } := by
  have other : ∀ x, s.type x = .STEXT → x ≠ sym := fun x function same => plain (same ▸ function)
  refine { sound with known := ?_, text := ?_, defined := ?_ }
  · intro x data
    by_cases same : x = sym
    · exact same ▸ inside
    · exact sound.known x (by simpa [Function.update_of_ne same] using data)
  · intro t member
    have function := sound.text t member
    simpa [Function.update_of_ne (other _ function)] using function
  · intro x function
    by_cases same : x = sym
    · simp [same] at function
    · exact sound.defined x (by simpa [Function.update_of_ne same] using function)

/-- A text begins; a second one of its symbol is an error. -/
theorem Sound.begin (sound : Sound table s) {t : Text} {nerrors : Nat} (sig : t.sig.length = NSNAME)
    (errors : nerrors = 0 → s.nerrors = 0 ∧ s.type t.sym ≠ .STEXT) :
    Sound table { s with type := Function.update s.type t.sym .STEXT, nerrors, texts := t :: s.texts } := by
  refine { sound with known := ?_, text := ?_, sig := ?_, defined := ?_, distinct := ?_ }
  · intro x data
    by_cases same : x = t.sym
    · simp [same] at data
    · exact sound.known x (by simpa [Function.update_of_ne same] using data)
  · intro u member
    by_cases same : u.sym = t.sym
    · simp [same]
    · rcases List.mem_cons.mp member with rfl | member
      · exact absurd rfl same
      · simpa [Function.update_of_ne same] using sound.text u member
  · exact List.forall_mem_cons.mpr ⟨sig, sound.sig⟩
  · intro x function
    by_cases same : x = t.sym
    · simp [same]
    · exact List.mem_cons_of_mem _ (sound.defined x (by simpa [Function.update_of_ne same] using function))
  · intro none_
    obtain ⟨before, new⟩ := errors none_
    refine List.nodup_cons.mpr ⟨fun inside => ?_, sound.distinct before⟩
    obtain ⟨u, member, same⟩ := List.mem_map.mp inside
    exact new (same ▸ sound.text u member)

/-- The text that was begun last is filled. -/
theorem Sound.refill (sound : Sound table s) {t u : Text} {texts : List Text} (current : s.texts = t :: texts) (sym : u.sym = t.sym)
    (sig : u.sig.length = NSNAME) : Sound table { s with texts := u :: texts } := by
  have all := sound.text
  have sigs := sound.sig
  have defined := sound.defined
  have distinct := sound.distinct
  rw [current] at all sigs defined distinct
  refine { sound with text := ?_, sig := ?_, defined := ?_, distinct := ?_ }
  · exact List.forall_mem_cons.mpr ⟨sym ▸ all t List.mem_cons_self, fun v member => all v (List.mem_cons_of_mem _ member)⟩
  · exact List.forall_mem_cons.mpr ⟨sig, fun v member => sigs v (List.mem_cons_of_mem _ member)⟩
  · simpa only [List.map_cons, sym] using defined
  · simpa only [List.map_cons, sym] using distinct

theorem Sound.store (sound : Sound table s) {sym : Sym} {off : Int} {bytes : List UInt8} (stored : store s sym off bytes = .ok s') :
    Sound table s' := by
  unfold WasmObj.store at stored
  split at stored
  case isTrue => cases stored
  case isFalse =>
    cases stored
    exact sound.congr rfl rfl rfl (Nat.le_refl _)

theorem Sound.adata (sound : Sound table s) {sym : Sym} {r : Record} (inside : sym ∈ table) (done : adata s sym r = .ok s') :
    Sound table s' := by
  obtain ⟨off, -, done⟩ := Outcome.bind_eq_ok.mp done
  have typed : Sound table (if s.type sym = .SNONE then { s with type := Function.update s.type sym .SBSS } else s) := by
    split
    case isTrue none_ => exact sound.bss inside (by simp [none_])
    case isFalse => exact sound
  have grown := typed.growdata sym (off.toInt + r.reg.toNat)
  simp only at done
  split at done
  case h_1 =>
    split at done
    case isTrue => cases done
    case isFalse => exact grown.store done
  case h_2 => exact grown.store done
  case h_3 =>
    cases done
    exact grown.congr rfl rfl rfl (Nat.le_refl _)
  case h_4 =>
    cases done
    exact grown.congr rfl rfl rfl (Nat.le_succ _)

end Sound

def after : Next Link → Link
  | .loop s => s
  | .finish s => s

theorem obey_sound {table : List Sym} {s : Link} {r : Record} {next : Next Link} (sound : Sound table s) (source : Known table r.source)
    (dest : Known table r.dest) (obeyed : obey s r = .ok next) : Sound table (after next) := by
  unfold obey at obeyed
  split at obeyed
  · cases obeyed
    exact sound
  split at obeyed
  · cases obeyed
    exact sound
  split at obeyed
  · split at obeyed
    case h_1 => cases obeyed
    case h_2 sym _ =>
      obtain ⟨framesize, -, same⟩ := Outcome.bind_eq_ok.mp obeyed
      cases same
      refine sound.begin (t := ⟨sym, framesize, 86 :: List.replicate (NSNAME - 1) 0, []⟩) rfl fun none_ => ?_
      split at none_
      case isTrue => cases none_
      case isFalse new => exact ⟨none_, fun function => new (by simp [function])⟩
  split at obeyed
  · split at obeyed
    case h_1 t texts text current value =>
      split at obeyed
      case isTrue =>
        cases obeyed
        exact sound.refill (u := { t with sig := text }) current rfl (dest.sval text value)
      case isFalse => cases obeyed
    all_goals cases obeyed
  split at obeyed
  · split at obeyed
    case h_1 => cases obeyed
    case h_2 sym named =>
      obtain ⟨size, -, same⟩ := Outcome.bind_eq_ok.mp obeyed
      cases same
      refine Sound.growdata ?_ sym size.toInt
      split
      case isTrue new => exact sound.bss (source.sym sym named) (by rcases new with new | new <;> simp [new])
      case isFalse => exact sound
  split at obeyed
  · split at obeyed
    case h_1 => cases obeyed
    case h_2 sym named =>
      cases done : adata s sym r with
      | error stop => rw [done] at obeyed; cases obeyed
      | ok s' =>
        rw [done] at obeyed
        cases obeyed
        exact sound.adata (source.sym sym named) done
  · split at obeyed
    case h_1 => cases obeyed
    case h_2 t texts current =>
      cases obeyed
      exact sound.refill (u := { t with instrs := t.instrs ++ [(r.as, r.source, r.dest)] }) current rfl
        (sound.sig t (current ▸ List.mem_cons_self))

theorem scan_sound {version fuel : Nat} {p : List UInt8} {h : Table} {table final : List Sym} {strays : Nat} {s s' : Link}
    (holds : ∀ i x, h i = some x → x ∈ table) (read : entries version fuel p table = .ok (final, strays)) (sound : Sound final s)
    (scanned : scan obey version fuel p h s = .ok s') : Sound final s' := by
  induction fuel generalizing p h table strays s with
  | zero =>
    cases p with
    | nil =>
      cases scanned
      exact sound
    | cons => cases scanned
  | succ fuel ih =>
    cases p with
    | nil =>
      cases scanned
      exact sound
    | cons op p =>
      have grows := (entries_grow read).1
      unfold scan at scanned
      unfold entries at read
      split at scanned
      · cases scanned
      split at scanned
      case isTrue announce =>
        rw [if_pos announce] at read
        split at scanned
        case h_2 => cases scanned
        case h_1 name symidx text =>
          simp only at read
          split at scanned
          case h_1 => cases scanned
          case h_2 n rest found =>
            rw [found] at read
            refine ih ?_ read sound scanned
            intro i x known
            split at known
            case isTrue =>
              by_cases same : i = symidx.toNat
              · rw [same, Function.update_self] at known
                cases known
                exact mem_lookup.mpr (.inl rfl)
              · rw [Function.update_of_ne same] at known
                exact mem_lookup.mpr (.inr (holds i x known))
            case isFalse => exact mem_lookup.mpr (.inr (holds i x known))
      case isFalse plain =>
        rw [if_neg plain] at read
        split at scanned
        case h_2 => cases scanned
        case h_1 reg p =>
          obtain ⟨⟨line, p⟩, lined, scanned⟩ := Outcome.bind_eq_ok.mp scanned
          obtain ⟨⟨source, q⟩, first, scanned⟩ := Outcome.bind_eq_ok.mp scanned
          obtain ⟨⟨dest, r⟩, second, scanned⟩ := Outcome.bind_eq_ok.mp scanned
          obtain ⟨next, obeyed, scanned⟩ := Outcome.bind_eq_ok.mp scanned
          have knows : ∀ i x, h i = some x → x ∈ final := fun i x known => grows x (holds i x known)
          obtain ⟨from_, b, skipped⟩ := inopd_known knows first
          obtain ⟨to_, c, skipped'⟩ := inopd_known knows second
          have kept := obey_sound sound from_ to_ obeyed
          simp only [lined, skipped, skipped', bind, Except.bind] at read
          cases next with
          | finish s'' =>
            cases scanned
            exact kept
          | loop s'' =>
            split at read
            case isTrue ends =>
              -- only AEND ends the loop, and it always does
              rw [obey, if_pos ends] at obeyed
              cases obeyed
            case isFalse =>
              split at read
              case h_1 => cases read
              case h_2 later rest =>
                cases read
                exact ih holds rest kept scanned

theorem readobjs_sound {version : Nat} {files : List (List UInt8)} {s s' : Link} {table final : List Sym} (sound : Sound table s)
    (distinct : table.Nodup) (read : readobjs version files s table = .ok (s', final)) : Sound final s' ∧ final.Nodup := by
  induction files generalizing version s table with
  | nil =>
    cases read
    exact ⟨sound, distinct⟩
  | cons file files ih =>
    obtain ⟨s₁, scanned, read⟩ := Outcome.bind_eq_ok.mp read
    obtain ⟨⟨table₁, strays⟩, entered, read⟩ := Outcome.bind_eq_ok.mp read
    obtain ⟨grows, still⟩ := entries_grow entered
    have kept := scan_sound (h := fun _ => none) nofun entered (sound.mono grows) scanned
    exact ih (s := { s₁ with nerrors := s₁.nerrors + strays }) (kept.congr rfl rfl rfl (Nat.le_add_right _ _)) (still distinct) read

/-! Layout. -/

theorem mem_collectsyms {s : Link} {table : List Sym} {sym : Sym} :
    sym ∈ collectsyms s table ↔ sym ∈ table ∧ s.type sym = .SBSS := by
  have bucket : hashname sym < NHASH := Nat.mod_lt _ (by decide)
  simp only [collectsyms, List.mem_reverse, List.mem_filter, List.mem_flatMap, List.mem_range, decide_eq_true_eq]
  constructor
  · rintro ⟨⟨_, _, inside, _⟩, data⟩
    exact ⟨inside, data⟩
  · rintro ⟨inside, data⟩
    exact ⟨⟨_, bucket, inside, rfl⟩, data⟩

theorem nodup_collectsyms {s : Link} {table : List Sym} (distinct : table.Nodup) : (collectsyms s table).Nodup := by
  refine List.nodup_reverse.mpr (List.Nodup.filter _ (List.nodup_flatMap.mpr ⟨fun i _ => distinct.filter _, ?_⟩))
  refine List.nodup_range.imp fun differ => ?_
  intro sym first second
  rw [List.mem_filter, decide_eq_true_eq] at first second
  exact differ (first.2.symm.trans second.2)

section Layout

variable {s : Link} {off finish : Int} {syms : List Sym} {value value' : Sym → Int}

theorem align4_bounds (size : Int) : size ≤ align4 size ∧ align4 size < size + 4 ∧ align4 size % 4 = 0 := by
  unfold align4
  omega

/-- The room that the data of the symbols takes. -/
def room (s : Link) (syms : List Sym) : Int := (syms.map fun sym => align4 (s.datasize sym)).sum

structure Placed (s : Link) (off finish : Int) (value : Sym → Int) (syms : List Sym) : Prop where
  aligned : off % 4 = 0 → ∀ sym ∈ syms, value sym % 4 = 0
  disjoint : syms.Pairwise fun a b => value a + align4 (s.datasize a) ≤ value b
  inside : ∀ sym ∈ syms, off ≤ value sym ∧ value sym + align4 (s.datasize sym) ≤ finish
  total : finish = off + room s syms
  last : off < finish → ∃ sym ∈ syms, value sym + align4 (s.datasize sym) = finish

theorem place_other (placed : place s off syms value = (value', finish)) {sym : Sym} (other : sym ∉ syms) : value' sym = value sym := by
  induction syms generalizing off value with
  | nil =>
    cases placed
    rfl
  | cons first syms ih =>
    rw [List.mem_cons, not_or] at other
    rw [ih placed other.2, Function.update_of_ne other.1]

theorem place_placed (sizes : ∀ sym, 0 ≤ s.datasize sym) (distinct : syms.Nodup) (placed : place s off syms value = (value', finish)) :
    Placed s off finish value' syms := by
  induction syms generalizing off value with
  | nil =>
    cases placed
    exact ⟨fun _ => nofun, .nil, nofun, (Int.add_zero _).symm, fun less => absurd less (Int.lt_irrefl _)⟩
  | cons first syms ih =>
    obtain ⟨new, distinct⟩ := List.nodup_cons.mp distinct
    have placed : place s (off + align4 (s.datasize first)) syms (Function.update value first off) = (value', finish) := placed
    have here : value' first = off := by rw [place_other placed new, Function.update_self]
    have rest := ih distinct placed
    obtain ⟨atLeast, _, whole⟩ := align4_bounds (s.datasize first)
    have size := sizes first
    have grows : off + align4 (s.datasize first) ≤ finish := by
      have nonneg : 0 ≤ room s syms := List.sum_nonneg fun x inside => by
        obtain ⟨sym, -, rfl⟩ := List.mem_map.mp inside
        exact (sizes sym).trans (align4_bounds _).1
      have := rest.total
      omega
    constructor
    case aligned =>
      intro multiple sym inside
      rcases List.mem_cons.mp inside with rfl | inside
      · omega
      · exact rest.aligned (by omega) sym inside
    case disjoint =>
      refine List.pairwise_cons.mpr ⟨fun sym inside => ?_, rest.disjoint⟩
      rw [here]
      exact (rest.inside sym inside).1
    case inside =>
      intro sym inside
      rcases List.mem_cons.mp inside with rfl | inside
      · omega
      · have := rest.inside sym inside
        omega
    case total =>
      rw [rest.total, room, room, List.map_cons, List.sum_cons, Int.add_assoc]
    case last =>
      intro less
      by_cases more : off + align4 (s.datasize first) < finish
      · obtain ⟨sym, inside, ends⟩ := rest.last more
        exact ⟨sym, List.mem_cons_of_mem _ inside, ends⟩
      · exact ⟨first, List.mem_cons_self, by omega⟩

theorem Placed.congr {s' : Link} (placed : Placed s off finish value syms) (same : s'.datasize = s.datasize) :
    Placed s' off finish value syms where
  aligned := placed.aligned
  disjoint := same ▸ placed.disjoint
  inside := same ▸ placed.inside
  total := by rw [placed.total, room, room, same]
  last := same ▸ placed.last

end Layout

theorem relocate_keeps {value : Sym → Int} {s s' : Link} {dr : DataReloc} (done : relocate value s dr = .ok s') :
    s'.type = s.type ∧ s'.datasize = s.datasize ∧ s'.texts = s.texts := by
  unfold relocate at done
  split at done
  case isTrue => cases done
  case isFalse =>
    split at done
    case h_1 stored =>
      cases done
      unfold WasmObj.store at stored
      split at stored
      case isTrue => cases stored
      case isFalse =>
        cases stored
        exact ⟨rfl, rfl, rfl⟩
    case h_2 => cases done

theorem relocs_keep {value : Sym → Int} {s s' : Link} {drs : List DataReloc} (done : drs.foldlM (relocate value) s = .ok s') :
    s'.type = s.type ∧ s'.datasize = s.datasize ∧ s'.texts = s.texts := by
  induction drs generalizing s with
  | nil =>
    cases done
    exact ⟨rfl, rfl, rfl⟩
  | cons dr drs ih =>
    rw [List.foldlM_cons] at done
    obtain ⟨s₁, first, rest⟩ := Outcome.bind_eq_ok.mp done
    obtain ⟨type, datasize, texts⟩ := relocate_keeps first
    obtain ⟨type', datasize', texts'⟩ := ih rest
    exact ⟨type'.trans type, datasize'.trans datasize, texts'.trans texts⟩

/-- The steps of a run that is accepted. -/
theorem link_steps {float : Double → UInt32} {flags : List Flag} {files : List (List UInt8)} {o : Output}
    (accepted : link float flags files = .ok o) :
    ∃ s table, readobjs 0 files empty [] = .ok (s, table) ∧ s.nerrors = 0 ∧ o.imports = (flags.map addimport).reverse ∧
      o.allsyms = collectsyms s table ∧ place s ARENABASE o.allsyms (fun _ => 0) = (o.value, o.arenaend) ∧
      s.datarelocs.foldlM (relocate o.value) s = .ok o.s ∧
      asmb ⟨float, o.s, o.value, o.imports, o.texts⟩ o.allsyms o.arenaend = .ok o.bytes := by
  unfold link at accepted
  split at accepted
  case h_1 => cases accepted
  case h_2 s table read =>
    split at accepted
    case isTrue => cases accepted
    case isFalse none_ =>
      cases placed : place s ARENABASE (collectsyms s table) fun _ => 0 with
      | mk value arenaend =>
        simp only [placed] at accepted
        obtain ⟨s', relocated, accepted⟩ := Outcome.bind_eq_ok.mp accepted
        obtain ⟨bytes, written, same⟩ := Outcome.bind_eq_ok.mp accepted
        cases same
        refine ⟨s, table, read, not_not.mp none_, ?_⟩
        dsimp only
        exact ⟨rfl, rfl, placed, relocated, written⟩

/-! What the module says of what was linked. -/

/-- The function that a symbol stands for: its text, or else an import of its name. -/
inductive Denotes (imports : List WasmLink.Import) (texts : List Text) (sym : Sym) : Wasm.Func → Prop where
  | own {k : Nat} {t : Text} (found : texts[k]? = some t) (same : t.sym = sym) : Denotes imports texts sym (.own k)
  | host {k : Nat} {im : WasmLink.Import} (undefined_ : ∀ t ∈ texts, t.sym ≠ sym) (found : imports[k]? = some im)
      (same : im.symname = sym.name) : Denotes imports texts sym (.host k)

/-- An instruction has the opcode of its row, and a call the number of its function. -/
def Calls (o : Output) (m : Wasm.Module) (ip : UInt8 × Operand × Operand) (i : Wasm.Instr) : Prop :=
  (∃ row, oplook ip.1 = .ok row ∧ i.op = row.op) ∧
    (i.op = 0x10 → ∃ n sym f, i.imm = .index n ∧ ip.2.2.sym = some sym ∧ m.func n = some f ∧ Denotes o.imports o.texts sym f)

/-- An export of a function names one of the texts. -/
def Exports (o : Output) (m : Wasm.Module) (e : Wasm.Export) (k : Nat) : Prop :=
  ∃ t, o.texts[k]? = some t ∧ e.name = t.sym.name.val ∧ e.kind = 0x00 ∧ m.func e.index = some (.own k)

/-- The signature that a flag gives an import, or that imports have without one. -/
def declared (f : Flag) : List UInt8 := (f.sig.getD DEFAULTIMPORTSIG).val

structure Consistent (flags : List Flag) (o : Output) (m : Wasm.Module) : Prop where
  data : ∀ sym, sym ∈ o.allsyms ↔ o.s.type sym = .SBSS
  aligned : ∀ sym ∈ o.allsyms, o.value sym % 4 = 0
  disjoint : o.allsyms.Pairwise fun a b => o.value a + o.s.datasize a ≤ o.value b ∨ o.value b + o.s.datasize b ≤ o.value a
  inside : ∃ pages, m.memories = [pages] ∧
    ∀ sym ∈ o.allsyms, 0 ≤ o.value sym ∧ o.value sym + o.s.datasize sym ≤ pages * Wasm.PAGE
  distinct : (o.texts.map Text.sym).Nodup
  functions : List.Forall₂ (fun t i => ∃ type, m.types[i]? = some type ∧ sigtype t.sig = some type) o.texts m.funcs
  imports : List.Forall₂ (fun f i => i.host = f.module.val ∧ i.field = f.field.val ∧
    ∃ type, m.types[i.type]? = some type ∧ sigtype (declared f) = some type) flags.reverse m.imports
  calls : List.Forall₂ (fun t c => ∃ body, c.instrs = body ++ [⟨0x0B, .none⟩] ∧ List.Forall₂ (Calls o m) t.instrs body) o.texts m.codes
  exports : ∃ functions, m.exports = ⟨memory, 0x02, 0⟩ :: functions ∧ (∀ e ∈ functions, ∃ k, Exports o m e k) ∧
    ∀ k < o.texts.length, ∃ e ∈ functions, Exports o m e k

/-- The data fits the one page, and no signature of an import is cut. -/
def Fits (flags : List Flag) (o : Output) : Prop :=
  ARENABASE + room o.s o.allsyms ≤ WASMPAGESIZE ∧ ∀ f ∈ flags, ∀ sig, f.sig = some sig → sig.val.length < NSNAME

section Indices

variable {imports : List WasmLink.Import} {texts : List Text} {m : Wasm.Module}

theorem func_own (host : m.imports.length = imports.length) (own : m.funcs.length = texts.length) {k : Nat} {t : Text}
    (found : texts[k]? = some t) : m.func (imports.length + k) = some (.own k) := by
  have inside := (List.getElem?_eq_some_iff.mp found).1
  rw [Wasm.Module.func, if_neg (by omega), if_pos (by omega), host, Nat.add_sub_cancel_left]

theorem func_host (host : m.imports.length = imports.length) {k : Nat} {im : WasmLink.Import} (found : imports[k]? = some im) :
    m.func k = some (.host k) := by
  have inside := (List.getElem?_eq_some_iff.mp found).1
  rw [Wasm.Module.func, if_pos (by omega)]

theorem resolvecall_text {sym : Sym} (defined : sym ∈ texts.map Text.sym) :
    ∃ k t, resolvecall imports texts (some sym) = .ok (imports.length + k) ∧ texts[k]? = some t ∧ t.sym = sym := by
  cases search : texts.findIdx? fun t => t.sym = sym with
  | none =>
    obtain ⟨t, member, same⟩ := List.mem_map.mp defined
    have differs := List.findIdx?_eq_none_iff.mp search t member
    simp [same] at differs
  | some k =>
    obtain ⟨inside, same, -⟩ := List.findIdx?_eq_some_iff_getElem.mp search
    refine ⟨k, texts[k], ?_, List.getElem?_eq_getElem inside, by simpa using same⟩
    simp only [resolvecall, search]

theorem resolvecall_denotes (host : m.imports.length = imports.length) (own : m.funcs.length = texts.length) {called : Option Sym} {n : Nat}
    (resolved : resolvecall imports texts called = .ok n) :
    ∃ sym f, called = some sym ∧ m.func n = some f ∧ Denotes imports texts sym f := by
  unfold resolvecall at resolved
  split at resolved
  case h_1 => cases resolved
  case h_2 sym =>
    split at resolved
    case h_1 k search =>
      cases resolved
      obtain ⟨inside, same, -⟩ := List.findIdx?_eq_some_iff_getElem.mp search
      have found := List.getElem?_eq_getElem inside
      exact ⟨sym, _, rfl, func_own host own found, .own found (by simpa using same)⟩
    case h_2 search =>
      have undefined_ : ∀ t ∈ texts, t.sym ≠ sym := by
        intro t member
        simpa using List.findIdx?_eq_none_iff.mp search t member
      split at resolved
      case h_1 k search' =>
        cases resolved
        obtain ⟨inside, same, -⟩ := List.findIdx?_eq_some_iff_getElem.mp search'
        have found := List.getElem?_eq_getElem inside
        exact ⟨sym, _, rfl, func_host host found, .host undefined_ found (by simpa using same)⟩
      case h_2 => cases resolved

theorem mem_textexportsOf {s : Link} {idx : Nat} {e : Wasm.Export} :
    e ∈ textexportsOf s idx texts ↔
      ∃ k t, texts[k]? = some t ∧ ¬ (s.type start = .STEXT ∧ t.sym = start) ∧ e = ⟨t.sym.name.val, 0x00, idx + k⟩ := by
  induction texts generalizing idx with
  | nil => simp [textexportsOf]
  | cons t texts ih =>
    -- the first text, or one of the others with its number one less
    have later : (∃ k u, (t :: texts)[k]? = some u ∧ ¬ (s.type start = .STEXT ∧ u.sym = start) ∧ e = ⟨u.sym.name.val, 0x00, idx + k⟩) ↔
        ¬ (s.type start = .STEXT ∧ t.sym = start) ∧ e = ⟨t.sym.name.val, 0x00, idx⟩ ∨ e ∈ textexportsOf s (idx + 1) texts := by
      rw [ih]
      constructor
      · rintro ⟨k, u, found, plain, rfl⟩
        cases k with
        | zero =>
          cases found
          exact .inl ⟨plain, rfl⟩
        | succ k => exact .inr ⟨k, u, found, plain, by rw [Nat.add_assoc, Nat.add_comm 1]⟩
      · rintro (⟨plain, rfl⟩ | ⟨k, u, found, plain, rfl⟩)
        · exact ⟨0, t, rfl, plain, rfl⟩
        · exact ⟨k + 1, u, found, plain, by rw [Nat.add_assoc, Nat.add_comm 1]⟩
    rw [later, textexportsOf]
    split
    case isTrue skipped => exact ⟨.inr, fun either => either.elim (fun plain => absurd skipped plain.1) id⟩
    case isFalse plain =>
      rw [List.mem_cons]
      exact ⟨fun either => either.imp_left fun same => ⟨plain, same⟩, fun either => either.imp_left And.right⟩

end Indices

/-! The module of a run that is accepted. -/

section Run

variable {float : Double → UInt32} {flags : List Flag} {files : List (List UInt8)} {o : Output}

/-- What `emitinstr` went by. -/
def env (float : Double → UInt32) (o : Output) : Env := ⟨float, o.s, o.value, o.imports, o.texts⟩

/-- What linking leaves, in memory and in the file. -/
structure Linked (float : Double → UInt32) (flags : List Flag) (o : Output) (m : Wasm.Module) : Prop where
  ready : Ready (env float o)
  data : ∀ sym, sym ∈ o.allsyms ↔ o.s.type sym = .SBSS
  placed : Placed o.s ARENABASE o.arenaend o.value o.allsyms
  size : ∀ sym, 0 ≤ o.s.datasize sym
  imports : o.imports = flags.reverse.map addimport
  written : Written (env float o) o.allsyms o.arenaend m

theorem addimport_length (f : Flag) : (addimport f).sig.length = NSNAME := by
  rw [addimport, List.length_append, strncpy_length]
  rfl

theorem link_reads (accepted : link float flags files = .ok o) : ∃ m, Wasm.read o.bytes = some m ∧ Linked float flags o m := by
  obtain ⟨s, table, read, none_, imports, allsyms, placed, relocated, written⟩ := link_steps accepted
  obtain ⟨sound, distinct⟩ := readobjs_sound (sound_empty []) .nil read
  obtain ⟨type, datasize, texts⟩ := relocs_keep relocated
  have ready : Ready (env float o) := by
    constructor
    · change (o.s.texts.reverse.map Text.sym).Nodup
      rw [texts, List.map_reverse, List.nodup_reverse]
      exact sound.distinct none_
    · intro sym function
      change sym ∈ o.s.texts.reverse.map Text.sym
      rw [texts, List.map_reverse, List.mem_reverse]
      exact sound.defined sym (type ▸ function)
    · intro t member
      exact (sound.sig t (texts ▸ List.mem_reverse.mp member)).le
    · intro im member
      rw [show (env float o).imports = _ from imports, List.mem_reverse] at member
      obtain ⟨f, -, rfl⟩ := List.mem_map.mp member
      exact (addimport_length f).le
  obtain ⟨m, back, holds⟩ := asmb_reads ready written
  refine ⟨m, back, ready, ?_, ?_, ?_, ?_, holds⟩
  · intro sym
    rw [allsyms, mem_collectsyms, type]
    exact ⟨And.right, fun data => ⟨sound.known sym data, data⟩⟩
  · exact (place_placed sound.size (allsyms ▸ nodup_collectsyms distinct) placed).congr datasize
  · exact datasize ▸ sound.size
  · rw [imports, List.map_reverse]

theorem characters_clean {text : List UInt8} (clean : 0 ∉ text) : characters text = text := by
  refine List.takeWhile_eq_self_iff.mpr fun b inside => ?_
  rw [decide_eq_true_eq]
  rintro rfl
  exact clean inside

/-- Seven characters of a signature arrive. -/
theorem sigtype_cut {text : List UInt8} (clean : 0 ∉ text) :
    sigtype (strncpy (NSNAME - 1) text ++ [0]) = sigtype (text.take (NSNAME - 1)) := by
  have cut : 0 ∉ text.take (NSNAME - 1) := fun inside => clean (List.mem_of_mem_take inside)
  have nonzero : ∀ b ∈ text.take (NSNAME - 1), decide (b ≠ 0) = true := by
    intro b inside
    rw [decide_eq_true_eq]
    rintro rfl
    exact cut inside
  have same : characters (strncpy (NSNAME - 1) text ++ [0]) = characters (text.take (NSNAME - 1)) := by
    have all : text.takeWhile (· ≠ 0) = text := characters_clean clean
    rw [characters_clean cut]
    simp only [strncpy, all, characters]
    rw [List.append_assoc, List.takeWhile_append_of_pos nonzero]
    cases NSNAME - 1 - (text.take (NSNAME - 1)).length <;> simp [List.replicate_succ]
  rw [sigtype, same, sigtype]

theorem sigtype_params {sig : List UInt8} {type : Wasm.FuncType} (spelled : sigtype sig = some type) :
    (characters sig).length = type.params.length + 1 := by
  obtain ⟨c, last, spelled⟩ := Option.bind_eq_some_iff.mp spelled
  obtain ⟨params, letters, spelled⟩ := Option.bind_eq_some_iff.mp spelled
  obtain ⟨results, -, same⟩ := Option.bind_eq_some_iff.mp spelled
  cases same
  have length := (Lists.mapM_related.mp letters).length_eq
  have some_ : 0 < (characters sig).length := List.length_pos_of_ne_nil fun empty => by simp [empty] at last
  rw [List.length_dropLast] at length
  simp only
  omega

theorem sigtype_cut_differs {text : List UInt8} (clean : 0 ∉ text) (long : NSNAME ≤ text.length) {type : Wasm.FuncType}
    (spelled : sigtype (text.take (NSNAME - 1)) = some type) : sigtype text ≠ some type := by
  intro same
  have cut : 0 ∉ text.take (NSNAME - 1) := fun inside => clean (List.mem_of_mem_take inside)
  have few := sigtype_params spelled
  have all := sigtype_params same
  rw [characters_clean cut, List.length_take] at few
  rw [characters_clean clean] at all
  simp only [NSNAME] at few long
  omega

/-! The indices. -/

variable {m : Wasm.Module}

theorem Linked.counts (linked : Linked float flags o m) : m.imports.length = o.imports.length ∧ m.funcs.length = o.texts.length :=
  ⟨linked.written.imports.length_eq.symm, linked.written.funcs.length_eq.symm⟩

theorem instrOf_calls (linked : Linked float flags o m) {ip : UInt8 × Operand × Operand} {i : Wasm.Instr}
    (meant : instrOf (env float o) ip = .ok i) : Calls o m ip i := by
  obtain ⟨row, found, meant⟩ := Outcome.bind_eq_ok.mp meant
  obtain ⟨imm, operand, same⟩ := Outcome.bind_eq_ok.mp meant
  cases same
  refine ⟨⟨row, found, rfl⟩, fun call => ?_⟩
  have kind := (optab_call row (oplook_mem found)).mp call
  simp only [immOf, kind] at operand
  cases resolved : resolvecall o.imports o.texts ip.2.2.sym with
  | error stop =>
    simp only [env, resolved] at operand
    cases operand
  | ok n =>
    simp only [env, resolved] at operand
    cases operand
    obtain ⟨host, own⟩ := linked.counts
    obtain ⟨sym, f, called, denoted, denotes⟩ := resolvecall_denotes host own resolved
    exact ⟨n, sym, f, rfl, called, denoted, denotes⟩

theorem codeOf_calls (linked : Linked float flags o m) {t : Text} {c : Wasm.Code} (meant : codeOf (env float o) t = .ok c) :
    ∃ body, c.instrs = body ++ [⟨0x0B, .none⟩] ∧ List.Forall₂ (Calls o m) t.instrs body := by
  obtain ⟨instrs, each, same⟩ := Outcome.bind_eq_ok.mp meant
  cases same
  exact ⟨instrs, rfl, (Outcome.mapM_eq_ok.mp each).imp fun _ _ meant => instrOf_calls linked meant⟩

theorem linked_exports (linked : Linked float flags o m) :
    ∃ functions, m.exports = ⟨memory, 0x02, 0⟩ :: functions ∧ (∀ e ∈ functions, ∃ k, Exports o m e k) ∧
      ∀ k < o.texts.length, ∃ e ∈ functions, Exports o m e k := by
  obtain ⟨host, own⟩ := linked.counts
  obtain ⟨first, resolved, exports⟩ := linked.written.exports
  have others : ∀ k t, o.texts[k]? = some t → Exports o m ⟨t.sym.name.val, 0x00, o.imports.length + k⟩ k :=
    fun k t found => ⟨t, found, rfl, rfl, func_own host own found⟩
  have mem (e : Wasm.Export) : e ∈ textexportsOf o.s o.imports.length o.texts ↔ _ := mem_textexportsOf
  by_cases defined : (env float o).s.type start = .STEXT
  · obtain ⟨k₀, t₀, number, found₀, same₀⟩ := resolvecall_text (linked.ready.defined start defined)
    have number : resolvecall (env float o).imports (env float o).texts (some start) = .ok (o.imports.length + k₀) := number
    rw [startexportOf, if_pos defined, number] at resolved
    cases resolved
    have one := others k₀ t₀ found₀
    rw [same₀] at one
    refine ⟨_, exports, ?_, ?_⟩
    · intro e inside
      rcases List.mem_append.mp inside with inside | inside
      · cases List.mem_singleton.mp inside
        exact ⟨k₀, one⟩
      · obtain ⟨k, t, found, -, rfl⟩ := (mem _).mp inside
        exact ⟨k, others k t found⟩
    · intro k less
      have found := List.getElem?_eq_getElem less
      by_cases same : o.texts[k].sym = start
      · -- the one text of this symbol
        have equal : k = k₀ := by
          have distinct : (o.texts.map Text.sym).Nodup := linked.ready.distinct
          have found₀ : o.texts[k₀]? = some t₀ := found₀
          refine (List.getElem?_inj (by simpa using less) distinct).mp ?_
          simp only [List.getElem?_map, found, found₀, Option.map_some, same, same₀]
        exact ⟨_, List.mem_append_left _ List.mem_cons_self, equal ▸ one⟩
      · exact ⟨_, List.mem_append_right _ ((mem _).mpr ⟨k, _, found, fun both => same both.2, rfl⟩), others k _ found⟩
  · rw [startexportOf, if_neg defined] at resolved
    cases resolved
    refine ⟨_, exports, ?_, ?_⟩
    · intro e inside
      obtain ⟨k, t, found, -, rfl⟩ := (mem _).mp inside
      exact ⟨k, others k t found⟩
    · intro k less
      have found := List.getElem?_eq_getElem less
      exact ⟨_, (mem _).mpr ⟨k, _, found, fun both => defined both.1, rfl⟩, others k _ found⟩

/-! The data. -/

theorem linked_inside_iff (linked : Linked float flags o m) :
    (∀ sym ∈ o.allsyms, 0 ≤ o.value sym ∧ o.value sym + o.s.datasize sym ≤ 1 * Wasm.PAGE) ↔
      ARENABASE + room o.s o.allsyms ≤ WASMPAGESIZE := by
  have placed := linked.placed
  have total := placed.total
  rw [show (1 * Wasm.PAGE : Int) = WASMPAGESIZE by rfl]
  constructor
  · intro fits
    by_contra beyond
    have multiple : o.arenaend % 4 = 0 := by
      obtain ⟨sym, inside, ends⟩ := placed.last (by simp only [ARENABASE, WASMPAGESIZE] at *; omega)
      have := placed.aligned rfl sym inside
      have := (align4_bounds (o.s.datasize sym)).2.2
      omega
    -- the symbol that ends at `arenaend`
    obtain ⟨sym, inside, ends⟩ := placed.last (by simp only [ARENABASE, WASMPAGESIZE] at *; omega)
    have within := (fits sym inside).2
    have := (align4_bounds (o.s.datasize sym)).2.1
    simp only [WASMPAGESIZE] at *
    omega
  · intro fits sym inside
    obtain ⟨low, high⟩ := placed.inside sym inside
    have := (align4_bounds (o.s.datasize sym)).1
    simp only [ARENABASE] at *
    omega

theorem linked_disjoint (linked : Linked float flags o m) :
    o.allsyms.Pairwise fun a b => o.value a + o.s.datasize a ≤ o.value b ∨ o.value b + o.s.datasize b ≤ o.value a :=
  linked.placed.disjoint.imp fun before => .inl (le_trans (Int.add_le_add_left (align4_bounds _).1 _) before)

/-! The types of the imports. -/

theorem declared_short (f : Flag) : (∀ sig, f.sig = some sig → sig.val.length < NSNAME) ↔ (declared f).length < NSNAME := by
  unfold declared
  cases f.sig with
  | none => exact ⟨fun _ => by decide, fun _ => nofun⟩
  | some sig => exact ⟨fun all => all sig rfl, fun less _ same => by cases same; exact less⟩

theorem import_type_iff {type : Option Wasm.FuncType} (f : Flag) (arrives : ∃ t, type = some t ∧ sigtype (addimport f).sig = some t) :
    (∃ t, type = some t ∧ sigtype (declared f) = some t) ↔ (declared f).length < NSNAME := by
  have clean : 0 ∉ declared f := (f.sig.getD DEFAULTIMPORTSIG).property
  obtain ⟨t, rfl, spelled⟩ := arrives
  have spelled : sigtype ((declared f).take (NSNAME - 1)) = some t := (sigtype_cut clean).symm.trans spelled
  constructor
  · rintro ⟨_, ⟨⟩, intended⟩
    by_contra long
    exact sigtype_cut_differs clean (Nat.le_of_not_lt long) spelled intended
  · intro short
    rw [List.take_of_length_le (Nat.le_sub_one_of_lt short)] at spelled
    exact ⟨t, rfl, spelled⟩

theorem linked_imports_iff (linked : Linked float flags o m) :
    List.Forall₂ (fun f i => i.host = f.module.val ∧ i.field = f.field.val ∧
      ∃ type, m.types[i.type]? = some type ∧ sigtype (declared f) = some type) flags.reverse m.imports ↔
      ∀ f ∈ flags, ∀ sig, f.sig = some sig → sig.val.length < NSNAME := by
  have imports := linked.written.imports
  rw [show (env float o).imports = _ from linked.imports, List.forall₂_map_left_iff] at imports
  simp only [declared_short]
  constructor
  · intro intended f member
    obtain ⟨k, found⟩ := List.mem_iff_getElem?.mp (List.mem_reverse.mpr member)
    obtain ⟨i, there, -, -, type⟩ := Lists.related_get intended found
    obtain ⟨i', there', -, -, arrives⟩ := Lists.related_get imports found
    cases there.symm.trans there'
    exact (import_type_iff f arrives).mp type
  · intro short
    refine Lists.related_imp imports fun f member i arrives => ⟨arrives.1, arrives.2.1, ?_⟩
    exact (import_type_iff f arrives.2.2).mpr (short f (List.mem_reverse.mp member))

theorem leb_read : (∀ v : UInt64, Reads unsigned (bbuleb v.toNat) v.toNat) ∧ ∀ v : Int64, Reads signed (bbsleb v.toInt) v.toInt :=
  ⟨fun v => reads_bbuleb v.toNat, fun v => reads_bbsleb v.toInt⟩

/-- The module that was written is read back as one that agrees with what was linked if and
only if the data fits the page and the signatures of the imports fit their field. More files
have no versions that a short holds. -/
theorem link_consistent_iff (_few : files.length < 2 ^ 15) (accepted : link float flags files = .ok o) :
    ((∀ v : UInt64, Reads unsigned (bbuleb v.toNat) v.toNat) ∧ (∀ v : Int64, Reads signed (bbsleb v.toInt) v.toInt) ∧
      ∃ m, Wasm.read o.bytes = some m ∧ Consistent flags o m) ↔ Fits flags o := by
  obtain ⟨m, back, linked⟩ := link_reads accepted
  have inside := linked_inside_iff linked
  have imports := linked_imports_iff linked
  constructor
  · rintro ⟨-, -, m', back', consistent⟩
    cases back.symm.trans back'
    obtain ⟨pages, memories, within⟩ := consistent.inside
    cases linked.written.memories.symm.trans memories
    exact ⟨inside.mp within, imports.mp consistent.imports⟩
  · rintro ⟨fits, short⟩
    refine ⟨leb_read.1, leb_read.2, m, back, linked.data, linked.placed.aligned rfl, linked_disjoint linked, ?_, linked.ready.distinct,
      linked.written.funcs, imports.mpr short, ?_, linked_exports linked⟩
    · exact ⟨1, linked.written.memories, inside.mpr fits⟩
    · exact linked.written.codes.imp fun _ _ meant => codeOf_calls linked meant

end Run

/-- A record without operands. -/
def plain (as : UInt8) : List UInt8 := [as, 0, 0, 0, 0, 0, 1, 0, 0, 0, 0, 0, 0, 0, 1, 0, 0, 0, 0, 0, 0, 0]

/-- The size of a symbol, with the record that names it. -/
def globl (index letter size0 size1 : UInt8) : List UInt8 :=
  [175, 2, index, letter, 0, 172, 0, 0, 0, 0, 0, 7, 0, index, 2, 0, 0, 0, 0, 8, 0, 0, 0, size0, size1, 0, 0]

/-- An object file with data, and a function `f` that calls `g`. -/
def caller (data : List UInt8) : List UInt8 :=
  data ++ [175, 2, 2, 102, 0, 171, 0, 0, 0, 0, 0, 7, 0, 2, 2, 0, 0, 0, 0, 8, 0, 0, 0, 0, 0, 0, 0,
    175, 2, 3, 103, 0, 12, 0, 0, 0, 0, 0, 1, 0, 0, 0, 0, 0, 0, 0, 6, 0, 3, 2, 0, 0, 0, 0] ++ plain 11 ++ plain 177

/-- `g` is imported as `m.n`. -/
def hostg : Flag := ⟨⟨[103], by decide⟩, ⟨[109], by decide⟩, ⟨[110], by decide⟩, some ⟨[87, 86], by decide⟩⟩

theorem link_runs (data : List UInt8) (total : Int)
    (runs : ((link (fun _ => 0) [hostg] [caller data]).toOption.map fun o => ARENABASE + room o.s o.allsyms) = some total) :
    ∃ o, link (fun _ => 0) [hostg] [caller data] = .ok o ∧ ARENABASE + room o.s o.allsyms = total := by
  cases made : link (fun _ => 0) [hostg] [caller data] with
  | error stop => rw [made] at runs; cases runs
  | ok o =>
    rw [made] at runs
    exact ⟨o, rfl, Option.some.inj runs⟩

set_option maxRecDepth 2000 in
/-- Five bytes of data and three. -/
theorem caller_consistent : ∃ o, link (fun _ => 0) [hostg] [caller (globl 1 120 5 0 ++ globl 4 121 3 0)] = .ok o ∧
    ∃ m, Wasm.read o.bytes = some m ∧ Consistent [hostg] o m := by
  obtain ⟨o, accepted, total⟩ := link_runs (globl 1 120 5 0 ++ globl 4 121 3 0) 20 (by decide)
  refine ⟨o, accepted, ((link_consistent_iff (by decide) accepted).mpr ⟨by rw [total]; decide, ?_⟩).2.2⟩
  intro f member sig same
  cases List.mem_singleton.mp member
  cases same
  decide

set_option maxRecDepth 2000 in
/-- 65529 bytes of data do not fit behind the first eight. -/
theorem caller_outside : ∃ o, link (fun _ => 0) [hostg] [caller (globl 1 120 0xF9 0xFF)] = .ok o ∧
    ¬ ∃ m, Wasm.read o.bytes = some m ∧ Consistent [hostg] o m := by
  obtain ⟨o, accepted, total⟩ := link_runs (globl 1 120 0xF9 0xFF) 65540 (by decide)
  refine ⟨o, accepted, ?_⟩
  rintro ⟨m, back, consistent⟩
  obtain ⟨m', back', linked⟩ := link_reads accepted
  cases back.symm.trans back'
  obtain ⟨pages, memories, within⟩ := consistent.inside
  cases linked.written.memories.symm.trans memories
  have fits := (linked_inside_iff linked).mp within
  rw [total] at fits
  exact absurd fits (by decide)

end Goken.Proofs.WasmLink
