import Goken.Proofs.Qsort
import Goken.Proofs.Syminit
import Mathlib.Data.List.ModifyLast
import Mathlib.Data.List.Nodup

/-! The tables that `buildtbls` makes of the symbols: which symbols it can place in arrays
of the counted sizes, and when each file finds its first text. -/

namespace Goken.Proofs.Buildtbls
open Goken.Syminit Goken.Findsym Goken.Qsort Lib.Slots Row Goken.Proofs.Syminit Goken.Proofs.Qsort

def lastIndex {α : Type} (l : List α) : Option Nat := if l = [] then none else some (l.length - 1)

@[simp] theorem lastIndex_append {α : Type} (l : List α) (x : α) : lastIndex (l ++ [x]) = some l.length := by
  simp [lastIndex]

/-- Where a file begins: the address of its first text. -/
def start (first : Option Ptr) : UInt64 := (first.map fun p => p.sym.value).getD 0

/-- The files so far, each with its first text. -/
def mark (starts : List (Option Ptr)) (p : Ptr) : List (Option Ptr) :=
  if newFile p.sym then starts ++ [none]
  else if p.sym.istext then starts.modifyLast fun first => first.or (some p)
  else starts

/-- The tables hold what has been seen, and have room for what is left. -/
structure Ready (b : Build) (rest : List Ptr) (gs : List Ptr) (ts : List Txtsym) (fs : List File) : Prop where
  globals : b.globals = holding gs (rest.countP fun p => p.sym.isglobal)
  ng : b.ng = gs.length
  txt : b.txt = holding ts (rest.countP fun p => p.sym.istext)
  nt : b.nt = ts.length
  tp : b.tp = lastIndex ts
  files : b.files = holding fs (rest.countP fun p => newFile p.sym)
  f : b.f = lastIndex fs
  addr : ∀ f ∈ fs, f.addr = start f.sym
  base : ∀ f ∈ fs.getLast?, f.hist = b.hp
  history : b.hp + b.nh + min fs.length 1 + (rest.countP (fun p => ishist p.sym) + rest.countP fun p => newFile p.sym) ≤ b.hist.size
  current : b.nh > 0 → fs ≠ [] ∧ (b.hist.load (b.hp + b.nh - 1)).isSome
  locals : ∀ t ∈ ts.getLast?, t.locals + t.n = b.ap
  autos : b.ap + (rest.countP fun p => isauto p.sym) ≤ b.autos.size

/-- A symbol is placed, and the tables stay ready for the rest. -/
def Placed (b : Build) (p : Ptr) (rest gs : List Ptr) (ts : List Txtsym) (fs : List File) : Prop :=
  ∃ b' gs' ts' fs', b.step p = some b' ∧ Ready b' rest gs' ts' fs' ∧ gs' = gs ++ [p].filter (fun p => p.sym.isglobal) ∧
    ts'.map Txtsym.sym = ts.map Txtsym.sym ++ [p].filter (fun p => p.sym.istext) ∧
      fs'.map File.sym = mark (fs.map File.sym) p

section Steps

variable {b : Build} {p : Ptr} {rest gs : List Ptr} {ts : List Txtsym} {fs : List File}

theorem global_tests {p : Sym} (global : p.isglobal) :
    p.istext = false ∧ isauto p = false ∧ ishist p = false ∧ newFile p = false := by
  simp only [Sym.isglobal, decide_eq_true_eq] at global
  rcases global with type | type | type | type <;> simp [Sym.istext, isauto, ishist, newFile, type]

theorem text_tests {p : Sym} (text : p.istext) :
    p.isglobal = false ∧ isauto p = false ∧ ishist p = false ∧ newFile p = false ∧ p.type ≠ 'z' ∧ p.type ≠ 'Z' := by
  simp only [Sym.istext, decide_eq_true_eq] at text
  rcases text with type | type | type | type <;> simp [Sym.isglobal, isauto, ishist, newFile, type]

theorem auto_tests {p : Sym} (auto : isauto p) :
    p.isglobal = false ∧ p.istext = false ∧ ishist p = false ∧ newFile p = false ∧ p.type ≠ 'z' ∧ p.type ≠ 'Z' := by
  simp only [isauto, decide_eq_true_eq] at auto
  rcases auto with type | type | type <;> simp [Sym.isglobal, Sym.istext, ishist, newFile, type]

theorem global_placed (global : p.sym.isglobal) (ready : Ready b (p :: rest) gs ts fs) : Placed b p rest gs ts fs := by
  obtain ⟨globals, ng, txt, nt, tp, files, f, addr, base, history, current, locals, autos⟩ := ready
  obtain ⟨text, auto, hist, file⟩ := global_tests global
  simp only [List.countP_cons, global, text, auto, hist, file, if_true, Bool.false_eq_true, if_false, Nat.add_zero]
    at globals txt files history autos
  refine ⟨{ b with globals := holding (gs ++ [p]) _, ng := b.ng + 1 }, gs ++ [p], ts, fs, ?_,
    ⟨rfl, ?_, txt, nt, tp, files, f, addr, base, history, current, locals, autos⟩, ?_, ?_, ?_⟩
  · rw [Build.step, if_pos global, globals, ng, store_next]
    rfl
  · simp [ng]
  · simp [global]
  · simp [text]
  · simp [mark, file, text]

theorem text_placed (text : p.sym.istext) (ready : Ready b (p :: rest) gs ts fs) : Placed b p rest gs ts fs := by
  obtain ⟨globals, ng, txt, nt, tp, files, f, addr, base, history, current, locals, autos⟩ := ready
  obtain ⟨global, auto, hist, file, notz, notZ⟩ := text_tests text
  simp only [List.countP_cons, global, text, auto, hist, file, if_true, Bool.false_eq_true, if_false, Nat.add_zero]
    at globals txt files history autos
  have stepped : b.step p = b.text p := by
    rw [Build.step, if_neg (by simp [global]), if_neg notz, if_neg notZ, if_pos text]
  rw [Placed, stepped, Build.text, txt, nt, store_next, f]
  have local_ : ∀ t ∈ (ts ++ [(⟨0, b.ap, p⟩ : Txtsym)]).getLast?, t.locals + t.n = b.ap := by simp
  rcases List.eq_nil_or_concat' fs with rfl | ⟨before, last, rfl⟩
  · refine ⟨_, gs, ts ++ [⟨0, b.ap, p⟩], [], rfl,
      ⟨globals, ng, rfl, by simp, by simp, files, rfl, addr, base, history, current, local_, autos⟩, ?_, ?_, ?_⟩
    · simp [global]
    · simp [text]
    · simp only [mark, file, text, Bool.false_eq_true, if_false, if_true]
      rfl
  · have seen := load_last before (rest.countP fun p => newFile p.sym) last
    simp only [lastIndex_append, files, Option.bind_eq_bind, Option.bind_some, seen]
    cases first : last.sym with
    | some q =>
      refine ⟨_, gs, ts ++ [⟨0, b.ap, p⟩], before ++ [last], if_neg (by simp),
        ⟨globals, ng, rfl, by simp, by simp, rfl, by simp, addr, base, history, current, local_, autos⟩, ?_, ?_, ?_⟩
      · simp [global]
      · simp [text]
      · simp [mark, file, text, List.modifyLast_concat, first]
    | none =>
      have stored := store_last before (rest.countP fun p => newFile p.sym) { last with sym := some p, addr := p.sym.value } last
      simp only [Option.isNone_none, if_true, stored]
      refine ⟨_, gs, ts ++ [⟨0, b.ap, p⟩], before ++ [{ last with sym := some p, addr := p.sym.value }], rfl,
        ⟨globals, ng, rfl, by simp, by simp, rfl, by simp, ?_, ?_, ?_, ?_, local_, autos⟩, ?_, ?_, ?_⟩
      · intro f member
        rcases List.mem_append.mp member with earlier | final
        · exact addr f (List.mem_append_left _ earlier)
        · rw [List.mem_singleton.mp final]
          rfl
      · simpa using base
      · simpa using history
      · simpa using current
      · simp [global]
      · simp [text]
      · simp [mark, file, text, List.modifyLast_concat, first]

theorem auto_placed (auto : isauto p.sym) (ready : Ready b (p :: rest) gs ts fs) : Placed b p rest gs ts fs := by
  obtain ⟨globals, ng, txt, nt, tp, files, f, addr, base, history, current, locals, autos⟩ := ready
  obtain ⟨global, text, hist, file, notz, notZ⟩ := auto_tests auto
  simp only [List.countP_cons, global, text, auto, hist, file, if_true, Bool.false_eq_true, if_false, Nat.add_zero]
    at globals txt files history autos
  have stepped : b.step p = b.auto p := by
    rw [Build.step, if_neg (by simp [global]), if_neg notz, if_neg notZ, if_neg (by simp [text]), if_pos (by simpa [isauto] using auto)]
  have kept : fs.map File.sym = mark (fs.map File.sym) p := by simp [mark, file, text]
  rw [Placed, stepped, Build.auto, tp]
  rcases List.eq_nil_or_concat' ts with rfl | ⟨before, last, rfl⟩
  · refine ⟨b, gs, [], fs, rfl,
      ⟨globals, ng, txt, nt, tp, files, f, addr, base, history, current, locals, by omega⟩, ?_, ?_, kept⟩
    · simp [global]
    · simp [text]
  · have seen := load_last before (rest.countP fun p => p.sym.istext) last
    have here : last.locals + last.n = b.ap := locals last (by simp)
    obtain ⟨autos', stored, size⟩ := store_inside (i := b.ap) p (show b.ap < b.autos.size by omega)
    have renewed := store_last before (rest.countP fun p => p.sym.istext) { last with n := last.n + 1 } last
    simp only [lastIndex_append, txt, Option.bind_eq_bind, Option.bind_some, seen, here, stored, renewed]
    refine ⟨_, gs, before ++ [{ last with n := last.n + 1 }], fs, rfl,
      ⟨globals, ng, rfl, by simpa using nt, by simp, files, f, addr, base, history, current, ?_, ?_⟩, ?_, ?_, kept⟩
    · simp only [List.getLast?_append, List.getLast?_singleton, Option.some_or, Option.mem_some_iff, forall_eq']
      omega
    · simp only [size]
      omega
    · simp [global]
    · simp [text]

/-- A symbol that passes no test leaves the room as it is. -/
theorem Ready.skip (ready : Ready b (p :: rest) gs ts fs) (global : p.sym.isglobal = false) (text : p.sym.istext = false)
    (auto : isauto p.sym = false) (hist : ishist p.sym = false) (file : newFile p.sym = false) : Ready b rest gs ts fs := by
  obtain ⟨globals, ng, txt, nt, tp, files, f, addr, base, history, current, locals, autos⟩ := ready
  simp only [List.countP_cons, global, text, auto, hist, file, Bool.false_eq_true, if_false, Nat.add_zero]
    at globals txt files history autos
  exact ⟨globals, ng, txt, nt, tp, files, f, addr, base, history, current, locals, autos⟩

theorem Ready.placed {b' : Build} (stepped : b.step p = some b') (ready : Ready b' rest gs ts fs)
    (global : p.sym.isglobal = false) (text : p.sym.istext = false) (file : newFile p.sym = false) :
    Placed b p rest gs ts fs :=
  ⟨b', gs, ts, fs, stepped, ready, by simp [global], by simp [text], by simp [mark, text, file]⟩

theorem line_placed (line : p.sym.type = 'Z') (ready : Ready b (p :: rest) gs ts fs) : Placed b p rest gs ts fs := by
  have global : p.sym.isglobal = false := by simp [Sym.isglobal, line]
  have text : p.sym.istext = false := by simp [Sym.istext, line]
  have file : newFile p.sym = false := by simp [newFile, line]
  have ready := ready.skip global text (by simp [isauto, line]) (by simp [ishist, line]) file
  have stepped : b.step p = b.line p := by
    rw [Build.step, if_neg (by simp [global]), if_neg (by simp [line]), if_pos line]
  rcases List.eq_nil_or_concat' fs with rfl | ⟨before, last, rfl⟩
  · have none : b.f = none := ready.f
    exact ready.placed (stepped.trans (by rw [Build.line, none])) global text file
  · have opened : b.f = some before.length := ready.f.trans (lastIndex_append before last)
    by_cases empty : b.nh > 0
    · obtain ⟨-, written⟩ := ready.current empty
      obtain ⟨entry, loaded⟩ := Option.isSome_iff_exists.mp written
      have here : last.hist = b.hp := ready.base last (by simp)
      have room := ready.history
      obtain ⟨hist', stored, size⟩ := store_inside (i := b.hp + b.nh - 1) { entry with offset := int p.sym.value }
        (show b.hp + b.nh - 1 < b.hist.size by simp at room; omega)
      have done : b.line p = some { b with hist := hist' } := by
        simp only [Build.line, opened, if_pos empty, ready.files, Option.bind_eq_bind, load_last, Option.bind_some, here, loaded,
          stored]
      refine Ready.placed (stepped.trans done) ?_ global text file
      obtain ⟨globals, ng, txt, nt, tp, files, f, addr, base, history, current, locals, autos⟩ := ready
      exact ⟨globals, ng, txt, nt, tp, files, f, addr, base, by simpa only [size] using history,
        fun _ => ⟨by simp, by simp [load_stored stored]⟩, locals, autos⟩
    · exact ready.placed (stepped.trans (by rw [Build.line, opened]; exact if_neg empty)) global text file

theorem path_placed (path : p.sym.type = 'f') (inside : p.sym.value.toNat < b.fnames.size)
    (ready : Ready b (p :: rest) gs ts fs) : Placed b p rest gs ts fs := by
  have global : p.sym.isglobal = false := by simp [Sym.isglobal, path]
  have text : p.sym.istext = false := by simp [Sym.istext, path]
  have file : newFile p.sym = false := by simp [newFile, path]
  have ready := ready.skip global text (by simp [isauto, path]) (by simp [ishist, path]) file
  obtain ⟨fnames, stored, -⟩ := store_inside p inside
  have stepped : b.step p = some { b with fnames := fnames } := by
    rw [Build.step, if_neg (by simp [global]), if_neg (by simp [path]), if_neg (by simp [path]), if_neg (by simp [text]),
      if_neg (by simp [path]), if_pos path, stored]
    rfl
  refine Ready.placed stepped ?_ global text file
  obtain ⟨globals, ng, txt, nt, tp, files, f, addr, base, history, current, locals, autos⟩ := ready
  exact ⟨globals, ng, txt, nt, tp, files, f, addr, base, history, current, locals, autos⟩

theorem other_placed (global : ¬p.sym.isglobal) (history : p.sym.type ≠ 'z') (line : p.sym.type ≠ 'Z') (text : ¬p.sym.istext)
    (auto : ¬isauto p.sym) (path : p.sym.type ≠ 'f') (ready : Ready b (p :: rest) gs ts fs) : Placed b p rest gs ts fs := by
  have file : newFile p.sym = false := by simp [newFile, history]
  have stepped : b.step p = some b := by
    rw [Build.step, if_neg global, if_neg history, if_neg line, if_neg text, if_neg (by simpa [isauto] using auto), if_neg path]
  rw [Bool.not_eq_true] at global text auto
  exact (ready.skip global text auto (by simp [ishist, history]) file).placed stepped global text file

theorem entry_stored (b : Build) {before : List File} {last : File} {room : Nat} (f : b.f = some before.length)
    (files : b.files = holding (before ++ [last]) room) (base : last.hist = b.hp) (inside : b.hp + b.nh < b.hist.size) (p : Ptr) :
    ∃ hist', b.entry p = some { b with hist := hist', nh := b.nh + 1 } ∧ hist'.size = b.hist.size ∧
      (hist'.load (b.hp + b.nh)).isSome := by
  obtain ⟨hist', stored, size⟩ := store_inside ⟨some p.sym.name, int p.sym.value, 0⟩ inside
  refine ⟨hist', ?_, size, by simp [load_stored stored]⟩
  simp only [Build.entry, f, files, Option.bind_eq_bind, Option.bind_some, load_last, base, stored]

/-- The next file is opened, and its entries begin behind those of the last one. -/
theorem newFile_opens (file : newFile p.sym) (ready : Ready b (p :: rest) gs ts fs) :
    ∃ b' before hp hist', b.newFile = some b' ∧ before.map File.sym = fs.map File.sym ∧ (∀ f ∈ before, f.addr = start f.sym) ∧ hist'.size = b.hist.size ∧
      hp + 2 + (rest.countP (fun p => ishist p.sym) + rest.countP fun p => newFile p.sym) ≤ b.hist.size ∧
        b' = { b with
          files := holding (before ++ [⟨0, none, none, none, hp⟩]) (rest.countP fun p => newFile p.sym), hist := hist', hp := hp,
          f := some before.length, nh := 0 } := by
  have hist : ishist p.sym := by
    simp only [newFile, decide_eq_true_eq] at file
    simp [ishist, file.1]
  obtain ⟨-, -, -, -, -, files, f, addr, base, history, -, -, -⟩ := ready
  simp only [List.countP_cons, hist, file, if_true] at files history
  rcases List.eq_nil_or_concat' fs with rfl | ⟨before, last, rfl⟩
  · refine ⟨_, [], b.hp, b.hist, ?_, rfl, by simp, rfl, by simp at history; omega, rfl⟩
    rw [Build.newFile, f]
    have stored := store_next [] (rest.countP fun p => newFile p.sym) (⟨0, none, none, none, b.hp⟩ : File)
    simp only [List.length_nil] at stored
    simp only [lastIndex, if_true, Build.start, files, stored]
    rfl
  · have here : last.hist = b.hp := base last (by simp)
    obtain ⟨hist', ended, size⟩ := store_inside (i := b.hp + b.nh) (⟨none, 0, 0⟩ : Hist)
      (show b.hp + b.nh < b.hist.size by simp at history; omega)
    have closed := store_last before (rest.countP (fun p => newFile p.sym) + 1) { last with n := some b.nh } last
    have opened := store_next (before ++ [{ last with n := some b.nh }]) (rest.countP fun p => newFile p.sym)
      (⟨0, none, none, none, b.hp + b.nh + 1⟩ : File)
    rw [List.length_append, List.length_singleton] at opened
    refine ⟨_, before ++ [{ last with n := some b.nh }], b.hp + b.nh + 1, hist', ?_, by simp, ?_, size,
      by simp at history; omega, rfl⟩
    rotate_left
    · intro f member
      rcases List.mem_append.mp member with earlier | final
      · exact addr f (List.mem_append_left _ earlier)
      · rw [List.mem_singleton.mp final]
        exact addr last (by simp)
    · simp only [here] at closed opened
      rw [Build.newFile, f]
      simp only [lastIndex_append, files, Option.bind_eq_bind, Option.bind_some, load_last, closed, here, ended, Build.start, opened]
      simp

theorem history_placed (history : p.sym.type = 'z') (first : fs ≠ [] ∨ p.sym.value = 1) (ready : Ready b (p :: rest) gs ts fs) :
    Placed b p rest gs ts fs := by
  have global : p.sym.isglobal = false := by simp [Sym.isglobal, history]
  have text : p.sym.istext = false := by simp [Sym.istext, history]
  have auto : isauto p.sym = false := by simp [isauto, history]
  have stepped : b.step p = b.history p := by rw [Build.step, if_neg (by simp [global]), if_pos history]
  by_cases new : p.sym.value = 1
  · have file : newFile p.sym := by simp [newFile, history, new]
    obtain ⟨b', before, hp, hist, opened, syms, addrs, size, room, made⟩ := newFile_opens file ready
    obtain ⟨globals, ng, txt, nt, tp, -, -, -, -, -, -, locals, autos⟩ := ready
    simp only [List.countP_cons, global, text, auto, Bool.false_eq_true, if_false, Nat.add_zero] at globals txt autos
    obtain ⟨hist', entered, size', written⟩ := entry_stored b' (by rw [made]) (by rw [made]) (by rw [made]) (by simp only [made, size]; omega) p
    have moved : b.history p = b'.entry p := by
      rw [Build.history, if_pos new, opened]
      rfl
    have done := (stepped.trans moved).trans entered
    subst made
    refine ⟨_, gs, ts, before ++ [⟨0, none, none, none, hp⟩], done,
      ⟨globals, ng, txt, nt, tp, rfl, by simp, ?_, by simp, ?_, fun _ => ⟨by simp, written⟩, locals, autos⟩, ?_, ?_, ?_⟩
    · intro f member
      rcases List.mem_append.mp member with earlier | final
      · exact addrs f earlier
      · rw [List.mem_singleton.mp final]
        rfl
    · simp only [size', size, List.length_append, List.length_singleton]
      omega
    · simp [global]
    · simp [text]
    · simp [mark, file, syms]
  · have file : newFile p.sym = false := by simp [newFile, new]
    have hist : ishist p.sym := by simp [ishist, history]
    have opened := first.resolve_right new
    obtain ⟨before, last, rfl⟩ := (List.eq_nil_or_concat' fs).resolve_left opened
    obtain ⟨globals, ng, txt, nt, tp, files, f, addr, base, history, current, locals, autos⟩ := ready
    simp only [List.countP_cons, global, text, auto, hist, file, if_true, Bool.false_eq_true, if_false, Nat.add_zero]
      at globals txt files history autos
    obtain ⟨hist', entered, size, written⟩ := entry_stored b (f.trans (lastIndex_append before last)) files (base last (by simp))
      (show b.hp + b.nh < b.hist.size by simp at history; omega) p
    have done : b.step p = some { b with hist := hist', nh := b.nh + 1 } := by
      rw [stepped, Build.history, if_neg new]
      exact entered
    refine Ready.placed done ⟨globals, ng, txt, nt, tp, files, f, addr, base, ?_, fun _ => ⟨by simp, written⟩, locals, autos⟩
      global text file
    simp only [size]
    omega

/-- Every symbol is placed unless its history has no file or its path no place. -/
theorem step_placed (first : p.sym.type = 'z' → fs ≠ [] ∨ p.sym.value = 1)
    (path : p.sym.type = 'f' → p.sym.value.toNat < b.fnames.size) (ready : Ready b (p :: rest) gs ts fs) :
    Placed b p rest gs ts fs := by
  by_cases global : p.sym.isglobal
  · exact global_placed global ready
  by_cases history : p.sym.type = 'z'
  · exact history_placed history (first history) ready
  by_cases line : p.sym.type = 'Z'
  · exact line_placed line ready
  by_cases text : p.sym.istext
  · exact text_placed text ready
  by_cases auto : isauto p.sym
  · exact auto_placed auto ready
  by_cases named : p.sym.type = 'f'
  · exact path_placed named (path named) ready
  · exact other_placed global history line text auto named ready

end Steps

/-! What no step changes: the size of the path table, and which file is open unless the
symbol is a history's. -/

section Frame

variable {b b' : Build} {p : Ptr}

theorem entry_frame (stepped : b.entry p = some b') : b'.fnames.size = b.fnames.size := by
  simp only [Build.entry, Option.bind_eq_bind, Option.bind_eq_some_iff] at stepped
  obtain ⟨f, -, file, -, hist, -, made⟩ := stepped
  cases made
  rfl

theorem start_frame {f : Nat} (stepped : b.start f = some b') : b'.fnames.size = b.fnames.size := by
  simp only [Build.start, Option.bind_eq_bind, Option.bind_eq_some_iff] at stepped
  obtain ⟨files, -, made⟩ := stepped
  cases made
  rfl

theorem newFile_frame (stepped : b.newFile = some b') : b'.fnames.size = b.fnames.size := by
  unfold Build.newFile at stepped
  split at stepped
  · exact start_frame stepped
  · simp only [Option.bind_eq_bind, Option.bind_eq_some_iff] at stepped
    obtain ⟨file, -, files, -, hist, -, made⟩ := stepped
    have kept := start_frame made
    exact kept

theorem history_frame (stepped : b.history p = some b') : b'.fnames.size = b.fnames.size := by
  unfold Build.history at stepped
  split at stepped
  · simp only [Option.bind_eq_bind, Option.bind_eq_some_iff] at stepped
    obtain ⟨opened, new, entered⟩ := stepped
    exact (entry_frame entered).trans (newFile_frame new)
  · exact entry_frame stepped

theorem line_frame (stepped : b.line p = some b') : b'.fnames = b.fnames ∧ b'.f = b.f := by
  unfold Build.line at stepped
  split at stepped
  · split at stepped
    · simp only [Option.bind_eq_bind, Option.bind_eq_some_iff] at stepped
      obtain ⟨file, -, last, -, hist, -, made⟩ := stepped
      cases made
      exact ⟨rfl, rfl⟩
    · cases stepped
      exact ⟨rfl, rfl⟩
  · cases stepped
    exact ⟨rfl, rfl⟩

theorem text_frame (stepped : b.text p = some b') : b'.fnames = b.fnames ∧ b'.f = b.f := by
  simp only [Build.text, Option.bind_eq_bind, Option.bind_eq_some_iff] at stepped
  obtain ⟨txt, -, stepped⟩ := stepped
  split at stepped
  · simp only [Option.bind_eq_some_iff] at stepped
    obtain ⟨file, -, stepped⟩ := stepped
    split at stepped
    · simp only [Option.bind_eq_some_iff] at stepped
      obtain ⟨files, -, made⟩ := stepped
      cases made
      exact ⟨rfl, rfl⟩
    · cases stepped
      exact ⟨rfl, rfl⟩
  · cases stepped
    exact ⟨rfl, rfl⟩

theorem auto_frame (stepped : b.auto p = some b') : b'.fnames = b.fnames ∧ b'.f = b.f := by
  unfold Build.auto at stepped
  split at stepped
  · cases stepped
    exact ⟨rfl, rfl⟩
  · simp only [Option.bind_eq_bind, Option.bind_eq_some_iff] at stepped
    obtain ⟨t, -, autos, -, txt, -, made⟩ := stepped
    cases made
    exact ⟨rfl, rfl⟩

theorem step_frame (stepped : b.step p = some b') :
    b'.fnames.size = b.fnames.size ∧ (p.sym.type ≠ 'z' → b'.f = b.f) := by
  unfold Build.step at stepped
  split_ifs at stepped with global history line text auto path
  · simp only [Option.bind_eq_bind, Option.bind_eq_some_iff] at stepped
    obtain ⟨globals, -, made⟩ := stepped
    cases made
    exact ⟨rfl, fun _ => rfl⟩
  · exact ⟨history_frame stepped, fun other => absurd history other⟩
  · exact ⟨congrArg Row.size (line_frame stepped).1, fun _ => (line_frame stepped).2⟩
  · exact ⟨congrArg Row.size (text_frame stepped).1, fun _ => (text_frame stepped).2⟩
  · exact ⟨congrArg Row.size (auto_frame stepped).1, fun _ => (auto_frame stepped).2⟩
  · simp only [Option.bind_eq_bind, Option.bind_eq_some_iff] at stepped
    obtain ⟨fnames, stored, made⟩ := stepped
    cases made
    exact ⟨store_size stored, fun _ => rfl⟩
  · cases stepped
    exact ⟨rfl, fun _ => rfl⟩

end Frame

/-! The loop over the symbols. -/

/-- The first history entry opens a file. -/
def FirstFile (symbols : List Sym) : Prop := ∀ p ∈ symbols.find? ishist, p.value = 1

theorem mark_kept {starts : List (Option Ptr)} {p : Ptr} (opened : starts ≠ []) : mark starts p ≠ [] := by
  obtain ⟨before, last, rfl⟩ := (List.eq_nil_or_concat' starts).resolve_left opened
  unfold mark
  split_ifs
  · simp
  · simp [List.modifyLast_concat]
  · simp

theorem mark_opened {starts : List (Option Ptr)} {p : Ptr} (opens : starts ≠ [] ∨ p.sym.value = 1) (history : p.sym.type = 'z') :
    mark starts p ≠ [] := by
  rcases opens with opened | new
  · exact mark_kept opened
  · simp [mark, newFile, history, new]

theorem fill_placed {b : Build} {rest gs : List Ptr} {ts : List Txtsym} {fs : List File} (ready : Ready b rest gs ts fs)
    (first : fs ≠ [] ∨ FirstFile (rest.map Ptr.sym))
    (paths : ∀ p ∈ rest, p.sym.type = 'f' → p.sym.value.toNat < b.fnames.size) :
    ∃ b' gs' ts' fs', rest.foldlM Build.step b = some b' ∧ Ready b' [] gs' ts' fs' ∧
      gs' = gs ++ rest.filter (fun p => p.sym.isglobal) ∧
        ts'.map Txtsym.sym = ts.map Txtsym.sym ++ rest.filter (fun p => p.sym.istext) ∧
          fs'.map File.sym = rest.foldl mark (fs.map File.sym) := by
  induction rest generalizing b gs ts fs with
  | nil => exact ⟨b, gs, ts, fs, rfl, ready, by simp, by simp, rfl⟩
  | cons p rest ih =>
    have opens : p.sym.type = 'z' → fs ≠ [] ∨ p.sym.value = 1 := by
      intro history
      refine first.imp_right fun holds => holds p.sym ?_
      simp [ishist, history]
    obtain ⟨b', gs', ts', fs', stepped, ready', globals, texts, files⟩ :=
      step_placed opens (paths p List.mem_cons_self) ready
    have next : fs' ≠ [] ∨ FirstFile (rest.map Ptr.sym) := by
      by_cases history : p.sym.type = 'z'
      · refine .inl fun none => ?_
        rw [none] at files
        exact mark_opened (by simpa using opens history) history files.symm
      · rcases first with opened | holds
        · refine .inl fun none => ?_
          rw [none] at files
          exact mark_kept (by simpa using opened) files.symm
        · refine .inr fun q found => holds q ?_
          simpa [ishist, history] using found
    have kept := (step_frame stepped).1
    obtain ⟨b'', gs'', ts'', fs'', run, done, globals', texts', files'⟩ :=
      ih ready' next fun q member named => kept ▸ paths q (List.mem_cons_of_mem _ member) named
    refine ⟨b'', gs'', ts'', fs'', by simp [stepped, run], done, ?_, ?_, ?_⟩
    · rw [globals', globals, List.append_assoc, ← List.filter_append, List.singleton_append]
    · rw [texts', texts, List.append_assoc, ← List.filter_append, List.singleton_append]
    · rw [files', files, List.foldl_cons]

/-- A history without a file stops the loop. -/
theorem fill_unopened {b : Build} {rest : List Ptr} (none : b.f = none) (lost : ¬FirstFile (rest.map Ptr.sym)) :
    rest.foldlM Build.step b = Option.none := by
  induction rest generalizing b with
  | nil => exact absurd (by simp [FirstFile]) lost
  | cons p rest ih =>
    rw [List.foldlM_cons]
    by_cases history : p.sym.type = 'z'
    · have other : p.sym.value ≠ 1 := by
        intro new
        refine lost fun q found => ?_
        simp only [List.map_cons, List.find?_cons, ishist, history] at found
        simp at found
        exact found ▸ new
      have global : p.sym.isglobal = false := by simp [Sym.isglobal, history]
      have stuck : b.step p = Option.none := by
        have stops : b.entry p = Option.none := by
          rw [Build.entry, none]
          rfl
        rw [Build.step, if_neg (by simp [global]), if_pos history, Build.history, if_neg other]
        exact stops
      rw [stuck]
      rfl
    · cases stepped : b.step p with
      | none => rfl
      | some b' =>
        refine ih (((step_frame stepped).2 history).trans none) fun holds => lost fun q found => holds q ?_
        simpa [ishist, history] using found

/-- A path outside the table stops the loop. -/
theorem fill_outside {b : Build} {rest : List Ptr} {p : Ptr} (member : p ∈ rest) (path : p.sym.type = 'f')
    (outside : ¬p.sym.value.toNat < b.fnames.size) : rest.foldlM Build.step b = none := by
  induction rest generalizing b with
  | nil => cases member
  | cons q rest ih =>
    rw [List.foldlM_cons]
    rcases List.mem_cons.mp member with rfl | later
    · have global : p.sym.isglobal = false := by simp [Sym.isglobal, path]
      have text : p.sym.istext = false := by simp [Sym.istext, path]
      have stuck : b.step p = none := by
        rw [Build.step, if_neg (by simp [global]), if_neg (by simp [path]), if_neg (by simp [path]), if_neg (by simp [text]),
          if_neg (by simp [path]), if_pos path, store_outside p outside]
        rfl
      rw [stuck]
      rfl
    · cases stepped : b.step q with
      | none => rfl
      | some b' => exact ih later (by rwa [(step_frame stepped).1])

/-! The search for the texts. -/

section Link

variable {txt : List Txtsym} {f : File}

/-- How far the search goes from one text to another. -/
def distance (n tp pos : Nat) : Nat := if tp ≤ pos then pos - tp else pos + n - tp

theorem index_inj {i j : Nat} {t u : Txtsym} (distinct : (txt.map fun t => t.sym.index).Nodup) (first : txt[i]? = some t)
    (second : txt[j]? = some u) (same : t.sym.index = u.sym.index) : i = j := by
  obtain ⟨bound, rfl⟩ := List.getElem?_eq_some_iff.mp first
  obtain ⟨bound', rfl⟩ := List.getElem?_eq_some_iff.mp second
  have inside : i < (txt.map fun t => t.sym.index).length := by simpa using bound
  have inside' : j < (txt.map fun t => t.sym.index).length := by simpa using bound'
  have images : (txt.map fun t => t.sym.index)[i] = (txt.map fun t => t.sym.index)[j] := by simpa using same
  exact (List.Nodup.getElem_inj_iff distinct).mp images

theorem find_found {pos j tp : Nat} {t : Txtsym} (distinct : (txt.map fun t => t.sym.index).Nodup) (here : txt[pos]? = some t)
    (wanted : f.sym.map Ptr.index = some t.sym.index) (inside : tp < txt.length) (enough : distance txt.length tp pos < j) :
    find txt f j tp = some (some pos, pos + 1) := by
  induction j generalizing tp with
  | zero => omega
  | succ j ih =>
    have bound := (List.getElem?_eq_some_iff.mp here).1
    rw [find, List.getElem?_eq_getElem inside]
    simp only [Option.bind_eq_bind, Option.bind_some, wanted, Option.some.injEq]
    by_cases same : tp = pos
    · subst same
      rw [List.getElem?_eq_getElem inside, Option.some.injEq] at here
      rw [if_pos (by rw [here])]
    · have differ : ¬t.sym.index = txt[tp].sym.index := by
        intro equal
        exact same (index_inj distinct (List.getElem?_eq_some_iff.mpr ⟨inside, rfl⟩) here equal.symm)
      rw [if_neg differ]
      unfold distance at enough ih
      split_ifs with wraps
      · exact ih (by omega) (by split_ifs at enough ⊢ <;> omega)
      · exact ih (by omega) (by split_ifs at enough ⊢ <;> omega)

theorem find_missing {j tp : Nat} (missing : ∀ t ∈ txt, f.sym.map Ptr.index ≠ some t.sym.index) (inside : tp < txt.length) :
    find txt f j tp = some (none, (tp + j) % txt.length) := by
  induction j generalizing tp with
  | zero => rw [find, Nat.add_zero, Nat.mod_eq_of_lt inside]
  | succ j ih =>
    rw [find, List.getElem?_eq_getElem inside]
    simp only [Option.bind_eq_bind, Option.bind_some]
    rw [if_neg (missing _ (List.getElem_mem inside))]
    by_cases wraps : tp + 1 ≥ txt.length
    · rw [if_pos wraps, ih (by omega)]
      have whole : tp + (j + 1) = txt.length + (0 + j) := by omega
      rw [whole, Nat.add_mod_left]
    · rw [if_neg wraps, ih (by omega)]
      congr 3
      omega

theorem link_next {files : List File} {tp tp' : Nat} {found : Option Nat} (searched : find txt f txt.length tp = some (found, tp')) :
    (link txt (f :: files) tp).isSome = (link txt files tp').isSome := by
  rw [link, searched]
  simp only [Option.bind_eq_bind, Option.bind_some]
  cases link txt files tp' <;> rfl

theorem link_behind {files : List File} (some : txt ≠ []) : (link txt (f :: files) txt.length).isSome = false := by
  obtain ⟨n, length⟩ : ∃ n, txt.length = n + 1 := ⟨txt.length - 1, by have := List.length_pos_iff.mpr some; omega⟩
  have outside : find txt f txt.length txt.length = none := by
    conv_lhs => rw [length]
    rw [← length, length, find, ← length, List.getElem?_eq_none (Nat.le_refl _)]
    rfl
  rw [link, outside]
  rfl

/-- The texts are linked unless a file is left when the last of them has been found. -/
theorem link_isSome {files : List File} {tp : Nat} (distinct : (txt.map fun t => t.sym.index).Nodup)
    (known : ∀ f ∈ files, ∀ p ∈ f.sym, ∃ t ∈ txt, t.sym.index = p.index) (inside : txt = [] ∨ tp < txt.length) :
    (link txt files tp).isSome ↔ ∀ t ∈ txt.getLast?, ∀ f ∈ files.dropLast, f.sym.map Ptr.index ≠ some t.sym.index := by
  induction files generalizing tp with
  | nil => simp [link]
  | cons f files ih =>
    have later : ∀ g ∈ files, ∀ p ∈ g.sym, ∃ t ∈ txt, t.sym.index = p.index :=
      fun g member => known g (List.mem_cons_of_mem _ member)
    rcases inside with rfl | inside
    · have searched : find [] f ([] : List Txtsym).length tp = some (none, tp) := rfl
      rw [link_next searched, ih later (.inl rfl)]
      simp
    cases first : f.sym with
    | none =>
      have searched := find_missing (f := f) (j := txt.length) (by simp [first]) inside
      rw [Nat.add_mod_right, Nat.mod_eq_of_lt inside] at searched
      rw [link_next searched, ih later (.inr inside)]
      refine forall₂_congr fun t last => ?_
      cases files with
      | nil => simp
      | cons g files => simp [first]
    | some p =>
      obtain ⟨t, member, index⟩ := known f List.mem_cons_self p first
      obtain ⟨pos, bound, here⟩ := List.getElem_of_mem member
      have searched := find_found (f := f) (j := txt.length) distinct (List.getElem?_eq_some_iff.mpr ⟨bound, here⟩) (by simp [first, index]) inside
        (by unfold distance; split_ifs <;> omega)
      rw [link_next searched]
      cases files with
      | nil => simp [link]
      | cons g files =>
        by_cases final : pos + 1 < txt.length
        · rw [ih later (.inr final)]
          refine forall₂_congr fun u last => ?_
          have differ : f.sym.map Ptr.index ≠ some u.sym.index := by
            simp only [first, Option.map_some, ne_eq, Option.some.injEq]
            intro same
            have end_ : txt[txt.length - 1]? = some u := by rwa [← List.getLast?_eq_getElem?]
            have bound' := (List.getElem?_eq_some_iff.mp end_).1
            have equal : pos = txt.length - 1 := index_inj distinct (List.getElem?_eq_some_iff.mpr ⟨bound, here⟩) end_ (index.trans same)
            omega
          rw [List.dropLast_cons_cons, List.forall_mem_cons]
          exact (and_iff_right differ).symm
        · have whole : pos + 1 = txt.length := by omega
          have last : txt.getLast? = some t := by
            rw [List.getLast?_eq_getElem?, ← whole, Nat.add_sub_cancel]
            exact List.getElem?_eq_some_iff.mpr ⟨bound, here⟩
          rw [whole, link_behind (List.ne_nil_of_mem member)]
          simp [last, first, index]

end Link

/-! The conditions on the symbols. -/

/-- Each path has an index that fits an `int`. -/
def Paths (symbols : List Sym) : Prop := ∀ p ∈ symbols, p.type = 'f' → p.value.toNat < 2 ^ 31

def texts (symbols : List Sym) : List Ptr := (pointers symbols).filter fun p => p.sym.istext

def starts (symbols : List Sym) : List (Option Ptr) := (pointers symbols).foldl mark []

def ptrcomp (a b : Ptr) : Int := txtcomp a.sym b.sym

def startcomp (a b : Option Ptr) : Int := int (start a - start b)

/-- Only the last of the sorted files may begin with the last of the sorted texts. -/
def Links (symbols : List Sym) : Prop :=
  ∀ t ∈ (qsort ptrcomp (texts symbols)).getLast?, ∀ f ∈ (qsort startcomp (starts symbols)).dropLast,
    f.map Ptr.index ≠ some t.index

/-- There is memory for all six tables. -/
def Allocates (room : Room) (symbols : List Sym) : Prop :=
  (symbols.countP Sym.isglobal = 0 ∨ malloc room .globals (symbols.countP Sym.isglobal)) ∧
    (symbols.countP Sym.istext = 0 ∨ malloc room .txt (symbols.countP Sym.istext)) ∧
      malloc room .fnames (int32 (highest symbols + 1)) ∧ malloc room .files (symbols.countP newFile) ∧
        malloc room .hist (symbols.countP ishist + symbols.countP newFile : Nat) ∧ malloc room .autos (symbols.countP isauto)

def Sound (room : Room) (symbols : List Sym) : Prop :=
  Allocates room symbols → FirstFile symbols ∧ Paths symbols ∧ Links symbols

theorem allocated_iff {room : Room} {st : Statics} (counted : Counted st) : allocated room st ↔ Allocates room st.symbols := by
  obtain ⟨globals, texts, autos, hist, files, paths⟩ := counted
  simp only [allocated, Allocates, decide_eq_true_eq, globals, texts, autos, hist, files, paths]

/-! The largest path. -/

theorem vlong_small {v : UInt64} (small : v.toNat < 2 ^ 31) : vlong v = v.toNat := if_pos (by omega)

theorem foldl_higher {symbols : List Sym} {m : Int} (paths : Paths symbols) (least : 0 ≤ m) (most : m < 2 ^ 31) :
    m ≤ symbols.foldl higher m ∧ symbols.foldl higher m < 2 ^ 31 ∧
      ∀ p ∈ symbols, p.type = 'f' → (p.value.toNat : Int) ≤ symbols.foldl higher m := by
  induction symbols generalizing m with
  | nil => simpa using most
  | cons p rest ih =>
    have next : m ≤ higher m p ∧ higher m p < 2 ^ 31 ∧ (p.type = 'f' → (p.value.toNat : Int) ≤ higher m p) := by
      unfold higher
      by_cases path : p.type = 'f'
      · have small := paths p List.mem_cons_self path
        simp only [path, true_and, forall_const, vlong_small small]
        unfold int32
        split_ifs <;> omega
      · simpa [path] using most
    obtain ⟨low, high, all⟩ := ih (fun q member => paths q (List.mem_cons_of_mem _ member)) (by omega) next.2.1
    refine ⟨Int.le_trans next.1 low, high, fun q member path => ?_⟩
    rcases List.mem_cons.mp member with rfl | later
    · exact Int.le_trans (next.2.2 path) low
    · exact all q later path

/-- The path table has a place for each path exactly when each path is the index of an `int`. -/
theorem paths_iff {symbols : List Sym} (allocated : 0 ≤ int32 (highest symbols + 1)) :
    (∀ p ∈ symbols, p.type = 'f' → p.value.toNat < (int32 (highest symbols + 1)).toNat) ↔ Paths symbols := by
  constructor
  · intro inside p member path
    have := inside p member path
    have bounded : int32 (highest symbols + 1) < 2 ^ 31 := by
      unfold int32
      omega
    omega
  · intro paths p member path
    obtain ⟨low, high, all⟩ := foldl_higher paths (Int.le_refl 0) (by decide)
    have most := all p member path
    change 0 ≤ highest symbols at low
    change highest symbols < 2 ^ 31 at high
    change (p.value.toNat : Int) ≤ highest symbols at most
    unfold int32 at allocated ⊢
    omega

/-! From the counts to the tables. -/

theorem pointers_map (symbols : List Sym) : (pointers symbols).map Ptr.sym = symbols := by
  simp only [pointers, List.map_map]
  exact List.zipIdx_map_fst 0 symbols

theorem pointers_indexes (symbols : List Sym) : (pointers symbols).map Ptr.index = List.range symbols.length := by
  simp only [pointers, List.map_map]
  exact (List.zipIdx_map_snd 0 symbols).trans List.range_eq_range'.symm

theorem pointers_count (symbols : List Sym) (test : Sym → Bool) :
    ((pointers symbols).countP fun p => test p.sym) = symbols.countP test := by
  conv_rhs => rw [← pointers_map symbols, List.countP_map]
  rfl

theorem blank_ready {st : Statics} (counted : Counted st) : Ready st.blank (pointers st.symbols) [] [] [] := by
  obtain ⟨globals, texts, autos, hist, files, -⟩ := counted
  constructor
  · rw [pointers_count, ← globals]
    rfl
  · rfl
  · rw [pointers_count, ← texts]
    rfl
  · rfl
  · rfl
  · rw [pointers_count, ← files]
    rfl
  · rfl
  · simp
  · simp
  · simp [pointers_count, Statics.blank, hist]
  · simp [Statics.blank]
  · simp
  · simp [pointers_count, Statics.blank, autos]

theorem mark_known {starts : List (Option Ptr)} {seen : List Ptr} (p : Ptr) (known : ∀ o ∈ starts, ∀ q ∈ o, q ∈ seen) :
    ∀ o ∈ mark starts p, ∀ q ∈ o, q ∈ seen ++ [p].filter fun p => p.sym.istext := by
  have old : ∀ o ∈ starts, ∀ q ∈ o, q ∈ seen ++ [p].filter fun p => p.sym.istext :=
    fun o member q here => List.mem_append_left _ (known o member q here)
  unfold mark
  split_ifs with file text
  · intro o member q here
    rcases List.mem_append.mp member with earlier | final
    · exact old o earlier q here
    · rw [List.mem_singleton.mp final] at here
      cases here
  · rcases List.eq_nil_or_concat' starts with rfl | ⟨before, last, rfl⟩
    · exact fun o member => nomatch member
    · rw [List.modifyLast_concat]
      intro o member q here
      rcases List.mem_append.mp member with earlier | final
      · exact old o (List.mem_append_left _ earlier) q here
      · rw [List.mem_singleton.mp final, Option.mem_def, Option.or_eq_some_iff] at here
        rcases here with first | ⟨-, first⟩
        · exact old last (by simp) q first
        · cases first
          simp [text]
  · exact old

/-- The files begin with texts. -/
theorem marks_known {rest : List Ptr} {starts : List (Option Ptr)} {seen : List Ptr} (known : ∀ o ∈ starts, ∀ p ∈ o, p ∈ seen) :
    ∀ o ∈ rest.foldl mark starts, ∀ p ∈ o, p ∈ seen ++ rest.filter fun p => p.sym.istext := by
  induction rest generalizing starts seen with
  | nil => simpa using known
  | cons p rest ih =>
    have later := ih (mark_known p known)
    rwa [List.append_assoc, ← List.filter_append, List.singleton_append] at later

theorem finish_isSome {b : Build} {ts : List Txtsym} {fs : List File} {symbols : List Sym} (gs : List Ptr)
    (ready : Ready b [] gs ts fs) (text : ts.map Txtsym.sym = texts symbols) (files : fs.map File.sym = starts symbols) :
    b.finish.isSome ↔ Links symbols := by
  have sortedTexts : qsort ptrcomp (texts symbols) = (qsort textcomp ts).map Txtsym.sym := by
    rw [← text]
    exact qsort_map fun _ _ _ _ => rfl
  have sortedFiles : qsort startcomp (starts symbols) = (qsort filecomp fs).map File.sym := by
    rw [← files]
    apply qsort_map
    intro f member g member'
    rw [filecomp, startcomp, ready.addr f member, ready.addr g member']
  have texts_ : b.txt.written = ts := by
    rw [ready.txt]
    exact written_full ts
  have files_ : b.files.written = fs := by
    rw [ready.files]
    exact written_full fs
  have linked : b.finish.isSome = (link (qsort textcomp ts) (qsort filecomp fs) 0).isSome := by
    rw [Build.finish, texts_, files_]
    simp only [Option.bind_eq_bind]
    cases link (qsort textcomp ts) (qsort filecomp fs) 0 <;> rfl
  have permTexts : (qsort textcomp ts).Perm ts := qsorts_perm _ _
  have permFiles : (qsort filecomp fs).Perm fs := qsorts_perm _ _
  have distinct : ((qsort textcomp ts).map fun t => t.sym.index).Nodup := by
    refine (permTexts.map _).nodup_iff.mpr ?_
    have indexes : (ts.map fun t => t.sym.index) = (texts symbols).map Ptr.index := by
      rw [← text, List.map_map]
      rfl
    rw [indexes]
    refine List.Nodup.sublist (List.Sublist.map _ List.filter_sublist) ?_
    rw [pointers_indexes]
    exact List.nodup_range
  have known : ∀ f ∈ qsort filecomp fs, ∀ p ∈ f.sym, ∃ t ∈ qsort textcomp ts, t.sym.index = p.index := by
    intro f member p first
    have start : f.sym ∈ starts symbols := files ▸ List.mem_map_of_mem (permFiles.mem_iff.mp member)
    have none : ∀ o ∈ ([] : List (Option Ptr)), ∀ p ∈ o, p ∈ ([] : List Ptr) := by simp
    have among := marks_known none f.sym start p first
    have text' : p ∈ ts.map Txtsym.sym := by
      rw [text]
      simpa [texts] using among
    obtain ⟨t, inside, rfl⟩ := List.mem_map.mp text'
    exact ⟨t, permTexts.mem_iff.mpr inside, rfl⟩
  have inside : qsort textcomp ts = [] ∨ 0 < (qsort textcomp ts).length :=
    (Decidable.em _).imp_right fun some => List.length_pos_iff.mpr some
  rw [linked, link_isSome distinct known inside, Links, sortedTexts, sortedFiles]
  simp [← List.map_dropLast]

theorem paths_room {st : Statics} (counted : Counted st) : st.blank.fnames.size = (int32 (highest st.symbols + 1)).toNat := by
  rw [← counted.paths]
  exact new_size _

theorem filled_ready {st : Statics} (counted : Counted st) (allocated : 0 ≤ int32 (highest st.symbols + 1))
    (first : FirstFile st.symbols) (paths : Paths st.symbols) :
    ∃ b gs ts fs, (pointers st.symbols).foldlM Build.step st.blank = some b ∧ Ready b [] gs ts fs ∧
      gs = (pointers st.symbols).filter (fun p => p.sym.isglobal) ∧ ts.map Txtsym.sym = texts st.symbols ∧
        fs.map File.sym = starts st.symbols := by
  refine fill_placed (blank_ready counted) (.inr (by rwa [pointers_map])) fun p member path => ?_
  have inside : p.sym ∈ st.symbols := by
    have image := List.mem_map_of_mem (f := Ptr.sym) member
    rwa [pointers_map] at image
  rw [paths_room counted]
  exact (paths_iff allocated).mpr paths p.sym inside path

/-- The tables are made unless a condition on the symbols fails. -/
theorem tables_iff {st : Statics} (counted : Counted st) (allocated : 0 ≤ int32 (highest st.symbols + 1)) :
    ((pointers st.symbols).foldlM Build.step st.blank >>= Build.finish).isSome ↔
      FirstFile st.symbols ∧ Paths st.symbols ∧ Links st.symbols := by
  by_cases first : FirstFile st.symbols
  · by_cases paths : Paths st.symbols
    · obtain ⟨b, gs, ts, fs, run, ready, -, text, files⟩ := filled_ready counted allocated first paths
      rw [run]
      simp only [first, paths, true_and]
      exact finish_isSome gs ready text files
    · obtain ⟨q, member, path, outside⟩ : ∃ q ∈ st.symbols, q.type = 'f' ∧
          ¬q.value.toNat < (int32 (highest st.symbols + 1)).toNat := by
        have fails := mt (paths_iff allocated).mp paths
        simpa using fails
      rw [← pointers_map st.symbols] at member
      obtain ⟨p, here, rfl⟩ := List.mem_map.mp member
      rw [fill_outside here path (by rwa [paths_room counted])]
      simp [paths]
  · rw [fill_unopened rfl (by rwa [pointers_map])]
    simp [first]

theorem paths_allocated {room : Room} {st : Statics} (counted : Counted st) (room_ : allocated room st) :
    0 ≤ int32 (highest st.symbols + 1) := by
  have paths := ((allocated_iff counted).mp room_).2.2.1
  simp only [malloc, decide_eq_true_eq] at paths
  exact paths.1

theorem finish_sorts {b : Build} {t : Syminit.Tables} (made : b.finish = some t) :
    t.txt = qsort textcomp b.txt.written ∧ t.globals = qsort globalcomp b.globals.written := by
  simp only [Build.finish, Option.bind_eq_bind, Option.bind_eq_some_iff, Option.some.injEq] at made
  obtain ⟨files, -, rfl⟩ := made
  exact ⟨rfl, rfl⟩

theorem filter_named (symbols : List Ptr) {test : Sym → Bool} (same : ∀ p, test (named p) = test p.sym) :
    (symbols.map named).filter test = (symbols.filter fun p => test p.sym).map named := by
  rw [List.filter_map]
  congr 1
  exact List.filter_congr fun p _ => same p

/-- The sorted tables are those that `Findsym` searches. -/
theorem buildtbls_searched {room : Room} {st : Statics} (counted : Counted st) {t : Syminit.Tables}
    (made : Syminit.buildtbls room st = .tables t) :
    Findsym.buildtbls ((pointers st.symbols).map named) = ⟨t.txt.map fun s => named s.sym, t.globals.map named⟩ := by
  unfold Syminit.buildtbls at made
  split at made
  · cases made
  split at made
  case isFalse => cases made
  case isTrue room_ =>
  cases filled : (pointers st.symbols).foldlM Build.step st.blank >>= Build.finish with
  | none => simp [filled] at made
  | some t' =>
    simp only [filled, Built.tables.injEq] at made
    subst made
    have size := paths_allocated counted room_
    obtain ⟨first, paths, -⟩ := (tables_iff counted size).mp (Option.isSome_of_eq_some filled)
    obtain ⟨b, gs, ts, fs, run, ready, globals, text, -⟩ := filled_ready counted size first paths
    rw [run] at filled
    obtain ⟨sortedTexts, sortedGlobals⟩ := finish_sorts filled
    have globals' : b.globals.written = gs := by
      rw [ready.globals]
      exact written_full gs
    have texts' : b.txt.written = ts := by
      rw [ready.txt]
      exact written_full ts
    rw [Findsym.buildtbls, filter_named _ fun p => rfl, filter_named _ fun p => rfl, ← globals, ← texts, ← text, sortedTexts,
      sortedGlobals, globals', texts', List.map_map]
    congr 1
    · exact qsort_map fun _ _ _ _ => rfl
    · exact qsort_map fun _ _ _ _ => rfl

theorem buildtbls_safe (room : Room) {st : Statics} (counted : Counted st) :
    Syminit.buildtbls room st ≠ .fault ↔ st.isbuilt ∨ Sound room st.symbols := by
  unfold Syminit.buildtbls
  by_cases built : st.isbuilt
  · simp [built]
  by_cases room_ : allocated room st
  · have allocates := (allocated_iff counted).mp room_
    have size := paths_allocated counted room_
    rw [if_neg built, if_pos room_]
    simp only [built, false_or, Sound, allocates, forall_const, Bool.false_eq_true, ← tables_iff counted size]
    cases (pointers st.symbols).foldlM Build.step st.blank >>= Build.finish <;> simp
  · have full := mt (allocated_iff counted).mpr room_
    rw [if_neg built, if_neg room_]
    simp [Sound, full]

/-! Both calls, from any state that earlier calls left. -/

/-- Neither call leaves an array or follows a missing pointer, and what is loaded is in
the symbols array. -/
def Safe (room : Room) (fp : Fhdr) (file : List UInt8) (st : Statics) : Prop :=
  syminit room fp file st ≠ .fault ∧ ∀ st', syminit room fp file st = .returns st' →
    (Idle fp ∨ (st'.symbols.length : Int) ≤ fp.slots) ∧ Syminit.buildtbls room st' ≠ .fault

instance (fp : Fhdr) : Decidable (Idle fp) := inferInstanceAs (Decidable (fp.symsz = 0 ∨ fp.type = FNONE))

/-- No more records are begun than there are cells, and a table that is loaded whole
can be placed. -/
def Holds (room : Room) (fp : Fhdr) (file : List UInt8) (st : Statics) : Prop :=
  if Idle fp then st.isbuilt ∨ Sound room st.symbols
  else malloc room .symbols fp.slots → (content room fp file).begun ≤ fp.slots.toNat ∧
    ((content room fp file).ending = .whole → OffsetsRead room fp file → Sound room ((content room fp file).symbols.map renamed))

theorem safe_iff {st : Statics} (reached : Reached st) (room : Room) (fp : Fhdr) (file : List UInt8) :
    Safe room fp file st ↔ Holds room fp file st := by
  have counted := reached_counted reached
  unfold Safe Holds
  by_cases idle : Idle fp
  · rw [if_pos idle, syminit_idle idle, ← buildtbls_safe room counted]
    simp [idle]
  rw [if_neg idle, syminit_busy idle]
  by_cases room_ : malloc room .symbols fp.slots
  · simp only [room_, forall_const]
    by_cases fits : (content room fp file).begun ≤ fp.slots.toNat
    · by_cases whole : (content room fp file).ending = .whole
      · have loaded := counted_foldl (cleared_counted fp) (content room fp file).symbols
        obtain ⟨st', counted', symbols, unbuilt, read⟩ := readOffsets_cases room fp file loaded
        rw [symbols_loaded] at symbols
        rw [count_unbuilt] at unbuilt
        simp only [if_true, read, fits, whole, true_and, forall_const]
        by_cases offsets : OffsetsRead room fp file
        · have fresh : st'.isbuilt = false := unbuilt
          have least : 0 ≤ fp.slots := by
            simp only [malloc, decide_eq_true_eq] at room_
            exact room_.1
          have inside : (st'.symbols.length : Int) ≤ fp.slots := by
            rw [symbols, List.length_map]
            unfold Content.begun at fits
            omega
          have safe := buildtbls_safe room counted'
          rw [symbols, fresh] at safe
          simpa [offsets, inside] using safe
        · simp [offsets]
      · simp [fits, whole]
    · simp [fits]
  · simp [room_]

/-! Eight records of six bytes do not fit the seven cells that their 48 bytes are given. -/

def record (value : UInt8) (type : UInt8) (name : List UInt8) : List UInt8 := [0, 0, 0, value, type ||| 0x80] ++ name

def header (symsz : Int) : Fhdr := ⟨1, 0, 0, 0, 0, 0, 0, 0, symsz, 0, 0⟩

theorem short_records_overrun : ¬Safe (fun _ _ => true) (header 48) (List.replicate 8 (record 0 97 [0])).flatten {} := by
  intro safe
  exact safe.1 (by decide)

/-- A file with a path, a text and a local. -/
def small : List UInt8 := record 1 122 [0, 0, 1, 0, 0] ++ record 1 102 [97, 0] ++ record 9 84 [98, 0] ++ record 4 109 [99, 0]

theorem small_safe : Safe (fun _ _ => true) (header 31) small {} := by
  refine (safe_iff .start _ _ _).mpr ?_
  unfold Holds
  rw [if_neg (by decide)]
  refine fun _ => ⟨by decide, fun _ _ _ => ⟨?_, ?_, ?_⟩⟩
  · unfold FirstFile
    decide
  · unfold Paths
    decide
  · unfold Links
    decide

end Goken.Proofs.Buildtbls
